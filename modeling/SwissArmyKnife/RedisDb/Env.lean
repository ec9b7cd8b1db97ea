import SwissArmyKnife.RedisDb.Coding

/-!
# Status and files

`Status`, and the files of `env.h` as far as the log uses them.  Each call on a file consumes one entry of a script
of outcomes, so a run is determined by the script; when the script is exhausted every call succeeds.  A failed
`append` leaves a strict prefix of its bytes, a failed `flush` a strict prefix of the bytes that were still buffered.
-/

namespace RedisDb

/-- The status codes that the modelled code returns. -/
inductive Status where
  | OK
  | NotFound (msg : String)
  | Corruption (msg : String)
  | InvalidArgument (msg : String)
  | IOError (msg : String)
  deriving DecidableEq

def Status.ok : Status → Bool
  | .OK => true
  | _ => false

@[simp] theorem Status.ok_OK : Status.OK.ok = true := rfl

@[simp] theorem Status.ok_IOError (msg : String) : (Status.IOError msg).ok = false := rfl

theorem Status.ok_iff {s : Status} : s.ok = true ↔ s = .OK := by
  cases s <;> simp [Status.ok]

/-- The outcome of a call on a file: a failed call gets some bytes out first. -/
inductive IoResult where
  | ok
  | fail (written : Nat) (error : String)
  deriving DecidableEq

/-- A file opened for appending: its bytes, of which the last `buffered` are not flushed yet, and the outcomes of the
calls to come.  `lost` counts the bytes that failed calls dropped. -/
structure WritableFile where
  contents : Slice
  buffered : Nat
  results : List IoResult
  lost : Nat

namespace WritableFile

/-- A file that was just opened. -/
def opened (contents : Slice) (results : List IoResult) : WritableFile := ⟨contents, 0, results, 0⟩

def append (f : WritableFile) (data : Slice) : WritableFile × Status :=
  match f.results with
  | .fail written error :: results =>
    let kept := data.take (min written (data.length - 1))
    ({ contents := f.contents ++ kept, buffered := f.buffered + kept.length, results := results,
       lost := f.lost + (data.length - kept.length) }, .IOError error)
  | results =>
    ({ f with contents := f.contents ++ data, buffered := f.buffered + data.length, results := results.tail }, .OK)

def flush (f : WritableFile) : WritableFile × Status :=
  match f.results with
  | .fail written error :: results =>
    let kept := min written (f.buffered - 1)
    ({ contents := f.contents.take (f.contents.length - f.buffered + kept), buffered := 0, results := results,
       lost := f.lost + (f.buffered - kept) }, .IOError error)
  | results => ({ f with buffered := 0, results := results.tail }, .OK)

end WritableFile

/-- A file read from front to back: the bytes to come and, for each call to come, whether it fails. -/
structure SequentialFile where
  rest : Slice
  errors : List Bool

namespace SequentialFile

def read (f : SequentialFile) (n : Nat) : SequentialFile × Slice × Status :=
  if f.errors.headD false then ({ f with errors := f.errors.tail }, [], .IOError "read")
  else (⟨f.rest.drop n, f.errors.tail⟩, f.rest.take n, .OK)

def Skip (f : SequentialFile) (n : Nat) : SequentialFile × Status :=
  if f.errors.headD false then ({ f with errors := f.errors.tail }, .IOError "lseek")
  else (⟨f.rest.drop n, f.errors.tail⟩, .OK)

end SequentialFile

end RedisDb
