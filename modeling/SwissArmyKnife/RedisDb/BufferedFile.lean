import SwissArmyKnife.RedisDb.Env

/-!
# Buffered files

`WritableFile` with its buffer and the calls that it makes on a descriptor.  What the system answers is a script: each
`::write` takes some of the bytes, is interrupted or fails, and so on.  As long as nothing fails, the bytes that the
descriptor has taken and those in the buffer are all that was appended, and `flush`, `sync` and `close` leave none in
the buffer (`writableFile_exact`).
-/

namespace RedisDb

namespace Posix

def kWritableFileBufferSize : ℕ := 65536

/-- What `::write` returns: a number of bytes, or -1. -/
inductive WriteResult where
  | wrote (n : ℕ)
  | interrupted
  | failed (error : String)
deriving DecidableEq

/-- A call of the system with its result; there is no error when it succeeds. -/
inductive SysCall where
  | write (data : Slice) (result : WriteResult)
  | openDir (error : Option String)
  | fsyncDir (error : Option String)
  | fsync (error : Option String)
  | close (error : Option String)
deriving DecidableEq

/-- `writes` and `others` are the results of the calls to come, of `::write` and of all others; the others succeed
when there are no more.  `trace` are the calls so far. -/
structure WritableFile where
  /-- The part of the buffer that has been written to. -/
  buf : Slice
  pos : ℕ
  isOpen : Bool
  manifest : Bool
  writes : List WriteResult
  others : List (Option String)
  trace : List SysCall
deriving DecidableEq

/-- `std::memcpy(buf + i, data, data.size())`. -/
def memcpy (buf : Slice) (i : ℕ) (data : Slice) : Slice := buf.take i ++ data ++ buf.drop (i + data.length)

def statusOf (error : Option String) : Status :=
  match error with
  | none => .OK
  | some msg => .IOError msg

namespace WritableFile

def opened (manifest : Bool) (writes : List WriteResult) (others : List (Option String)) : WritableFile :=
  ⟨[], 0, true, manifest, writes, others, []⟩

/-- The loop around `::write`: the status, the results that are left and the calls.  It has not ended when there are
no more results. -/
def writeLoop : List WriteResult → Slice → Option (Status × List WriteResult × List SysCall)
  | [], data => if data = [] then some (.OK, [], []) else none
  | result :: results, data =>
    if data = [] then some (.OK, result :: results, [])
    else
      match result with
      | .wrote n => (writeLoop results (data.drop n)).map fun r => (r.1, r.2.1, .write data result :: r.2.2)
      | .interrupted => (writeLoop results data).map fun r => (r.1, r.2.1, .write data result :: r.2.2)
      | .failed error => some (.IOError error, results, [.write data result])

/-- Without a descriptor every `::write` fails. -/
def WriteUnbuffered (f : WritableFile) (data : Slice) : Option (WritableFile × Status) :=
  if f.isOpen then
    (writeLoop f.writes data).map fun r => ({ f with writes := r.2.1, trace := f.trace ++ r.2.2 }, r.1)
  else if data = [] then some (f, .OK)
  else some ({ f with trace := f.trace ++ [.write data (.failed "EBADF")] }, .IOError "EBADF")

def FlushBuffer (f : WritableFile) : Option (WritableFile × Status) :=
  (f.WriteUnbuffered (f.buf.take f.pos)).map fun r => ({ r.1 with pos := 0 }, r.2)

/-- The rest of an `append` when the buffer is full. -/
def appendRest (f : WritableFile) (writeData : Slice) : Option (WritableFile × Status) :=
  f.FlushBuffer.bind fun r =>
    if r.2.ok = false then some r
    else if writeData.length < kWritableFileBufferSize then
      some ({ r.1 with buf := memcpy r.1.buf 0 writeData, pos := writeData.length }, .OK)
    else r.1.WriteUnbuffered writeData

def append (f : WritableFile) (data : Slice) : Option (WritableFile × Status) :=
  let copySize := min data.length (kWritableFileBufferSize - f.pos)
  let writeData := data.drop copySize
  let f := { f with buf := memcpy f.buf f.pos (data.take copySize), pos := f.pos + copySize }
  if writeData = [] then some (f, .OK) else f.appendRest writeData

/-- A call other than `::write`. -/
def other (f : WritableFile) (call : Option String → SysCall) : WritableFile × Status :=
  ({ f with others := f.others.tail, trace := f.trace ++ [call (f.others.headD none)] },
    statusOf (f.others.headD none))

/-- `::close` of no descriptor fails. -/
def close (f : WritableFile) : Option (WritableFile × Status) :=
  f.FlushBuffer.map fun r =>
    let result := if r.1.isOpen then r.1.other .close
      else ({ r.1 with trace := r.1.trace ++ [.close (some "EBADF")] }, .IOError "EBADF")
    ({ result.1 with isOpen := false }, if r.2.ok then result.2 else r.2)

def flush (f : WritableFile) : Option (WritableFile × Status) := f.FlushBuffer

/-- The directory's descriptor is closed again, whatever that returns. -/
def SyncDirIfManifest (f : WritableFile) : WritableFile × Status :=
  if f.manifest then
    let r := f.other .openDir
    if r.2.ok then r.1.other .fsyncDir else r
  else (f, .OK)

def SyncFd (f : WritableFile) : WritableFile × Status :=
  if f.isOpen then f.other .fsync else ({ f with trace := f.trace ++ [.fsync (some "EBADF")] }, .IOError "EBADF")

def sync (f : WritableFile) : Option (WritableFile × Status) :=
  let r := f.SyncDirIfManifest
  if r.2.ok = false then some r
  else r.1.FlushBuffer.map fun r => if r.2.ok = false then r else r.1.SyncFd

end WritableFile

/-! ### Runs -/

inductive Call where
  | append (data : Slice)
  | flush
  | sync
  | close
deriving DecidableEq

namespace Call

def run (f : WritableFile) : Call → Option (WritableFile × Status)
  | .append data => f.append data
  | .flush => f.flush
  | .sync => f.sync
  | .close => f.close

def appended : Call → Slice
  | .append data => data
  | .flush | .sync | .close => []

end Call

/-- The calls are made one after another, whatever they return; there is no result if one does not return. -/
def runAll (calls : List Call) (f : WritableFile) : Option WritableFile :=
  calls.foldlM (fun f call => (call.run f).map Prod.fst) f

/-- The bytes that the descriptor has taken. -/
def SysCall.taken : SysCall → Slice
  | .write data (.wrote n) => data.take n
  | _ => []

/-- What the code does not get over: a write that fails and is not interrupted, or a directory that is not synced. -/
def SysCall.Hard : SysCall → Prop
  | .write _ (.failed _) => True
  | .openDir (some _) => True
  | .fsyncDir (some _) => True
  | _ => False

def handed (trace : List SysCall) : Slice := trace.flatMap SysCall.taken

def NoHardError (trace : List SysCall) : Prop := ∀ call ∈ trace, ¬ call.Hard

/-! ### The buffer -/

theorem handed_append (a b : List SysCall) : handed (a ++ b) = handed a ++ handed b := List.flatMap_append

theorem NoHardError.of_append {a b : List SysCall} (h : NoHardError (a ++ b)) : NoHardError a ∧ NoHardError b :=
  ⟨fun call hcall => h call (List.mem_append_left _ hcall), fun call hcall => h call (List.mem_append_right _ hcall)⟩

theorem take_memcpy {buf : Slice} {i : ℕ} (hi : i ≤ buf.length) (data : Slice) :
    (memcpy buf i data).take (i + data.length) = buf.take i ++ data := by
  have hlength : (buf.take i ++ data).length = i + data.length := by
    rw [List.length_append, List.length_take_of_le hi]
  rw [memcpy, ← hlength, List.take_left]

theorem le_length_memcpy {buf : Slice} {i : ℕ} (hi : i ≤ buf.length) (data : Slice) :
    i + data.length ≤ (memcpy buf i data).length := by
  rw [memcpy, List.length_append, List.length_append, List.length_take_of_le hi]
  omega

namespace WritableFile

variable {f f' : WritableFile} {data : Slice} {status : Status}

/-- The loop ends when all bytes are taken. -/
theorem writeLoop_taken {results rest : List WriteResult} {calls : List SysCall}
    (h : writeLoop results data = some (status, rest, calls)) (hno : NoHardError calls) :
    status = .OK ∧ handed calls = data := by
  induction results generalizing data status rest calls with
  | nil =>
    rw [writeLoop] at h
    split_ifs at h with hdata
    simp only [Option.some.injEq, Prod.mk.injEq] at h
    obtain ⟨rfl, -, rfl⟩ := h
    exact ⟨rfl, hdata.symm⟩
  | cons result results ih =>
    rw [writeLoop.eq_def] at h
    dsimp only at h
    split_ifs at h with hdata
    · simp only [Option.some.injEq, Prod.mk.injEq] at h
      obtain ⟨rfl, -, rfl⟩ := h
      exact ⟨rfl, hdata.symm⟩
    · cases result with
      | wrote n =>
        obtain ⟨⟨status', rest', calls'⟩, hloop, heq⟩ := Option.map_eq_some_iff.1 h
        simp only [Prod.mk.injEq] at heq
        obtain ⟨rfl, -, rfl⟩ := heq
        obtain ⟨hstatus, hdrop⟩ := ih hloop fun call hcall => hno call (List.mem_cons_of_mem _ hcall)
        refine ⟨hstatus, ?_⟩
        rw [handed, List.flatMap_cons, ← handed, hdrop]
        exact List.take_append_drop n data
      | interrupted =>
        obtain ⟨⟨status', rest', calls'⟩, hloop, heq⟩ := Option.map_eq_some_iff.1 h
        simp only [Prod.mk.injEq] at heq
        obtain ⟨rfl, -, rfl⟩ := heq
        have htaken := ih hloop fun call hcall => hno call (List.mem_cons_of_mem _ hcall)
        exact htaken
      | failed error =>
        simp only [Option.some.injEq, Prod.mk.injEq] at h
        obtain ⟨-, -, rfl⟩ := h
        exact absurd trivial (hno (.write data (.failed error)) (List.mem_singleton.2 rfl))

/-- All bytes are taken unless there is a hard error. -/
theorem writeUnbuffered_spec (h : f.WriteUnbuffered data = some (f', status)) :
    f'.pos = f.pos ∧ ∃ calls, f'.trace = f.trace ++ calls ∧
      (NoHardError calls → status = .OK ∧ handed calls = data) := by
  rw [WriteUnbuffered] at h
  split_ifs at h with hopen hdata
  · obtain ⟨⟨status', rest, calls⟩, hloop, heq⟩ := Option.map_eq_some_iff.1 h
    simp only [Prod.mk.injEq] at heq
    obtain ⟨rfl, rfl⟩ := heq
    exact ⟨rfl, calls, rfl, writeLoop_taken hloop⟩
  · simp only [Option.some.injEq, Prod.mk.injEq] at h
    obtain ⟨rfl, rfl⟩ := h
    exact ⟨rfl, [], (List.append_nil _).symm, fun _ => ⟨rfl, hdata.symm⟩⟩
  · simp only [Option.some.injEq, Prod.mk.injEq] at h
    obtain ⟨rfl, rfl⟩ := h
    refine ⟨rfl, _, rfl, ?_⟩
    intro hno
    exact absurd trivial (hno (.write data (.failed "EBADF")) (List.mem_singleton.2 rfl))

theorem flushBuffer_spec (h : f.FlushBuffer = some (f', status)) :
    f'.pos = 0 ∧ ∃ calls, f'.trace = f.trace ++ calls ∧
      (NoHardError calls → status = .OK ∧ handed calls = f.buf.take f.pos) := by
  obtain ⟨⟨g, status'⟩, hwrite, heq⟩ := Option.map_eq_some_iff.1 h
  simp only [Prod.mk.injEq] at heq
  obtain ⟨rfl, rfl⟩ := heq
  obtain ⟨-, calls, htrace, htaken⟩ := writeUnbuffered_spec hwrite
  exact ⟨rfl, calls, htrace, htaken⟩

/-- The buffer holds what is in it. -/
structure Fits (f : WritableFile) : Prop where
  written : f.pos ≤ f.buf.length
  size : f.pos ≤ kWritableFileBufferSize

theorem Fits.of_empty (h : f.pos = 0) : f.Fits := ⟨by omega, by omega⟩

/-- Unless there is a hard error, what was in the buffer and the data have been taken or are in the buffer now. -/
def Passes (f f' : WritableFile) (data : Slice) : Prop :=
  ∃ calls, f'.trace = f.trace ++ calls ∧
    (NoHardError calls → f.Fits → f'.Fits ∧ handed calls ++ f'.buf.take f'.pos = f.buf.take f.pos ++ data)

namespace Passes

variable {g : WritableFile} {more : Slice}

theorem refl (f : WritableFile) : f.Passes f [] :=
  ⟨[], (List.append_nil _).symm, fun _ hfits => ⟨hfits, (List.append_nil _).symm⟩⟩

theorem trans (h : f.Passes g data) (h' : g.Passes f' more) : f.Passes f' (data ++ more) := by
  obtain ⟨calls, htrace, hpass⟩ := h
  obtain ⟨calls', htrace', hpass'⟩ := h'
  refine ⟨calls ++ calls', by rw [htrace', htrace, List.append_assoc], ?_⟩
  intro hno hfits
  obtain ⟨hfits, hbytes⟩ := hpass hno.of_append.1 hfits
  obtain ⟨hfits, hbytes'⟩ := hpass' hno.of_append.2 hfits
  refine ⟨hfits, ?_⟩
  rw [handed_append, List.append_assoc, hbytes', ← List.append_assoc, hbytes, List.append_assoc]

/-- After a hard error nothing is promised. -/
theorem of_hard {calls : List SysCall} (htrace : f'.trace = f.trace ++ calls) (hhard : ¬ NoHardError calls)
    (data : Slice) : f.Passes f' data :=
  ⟨calls, htrace, fun hno => absurd hno hhard⟩

/-- Calls that take nothing and leave the buffer as it is. -/
theorem of_same {calls : List SysCall} (htrace : f'.trace = f.trace ++ calls) (hcalls : handed calls = [])
    (hbuf : f'.buf = f.buf) (hpos : f'.pos = f.pos) : f.Passes f' [] := by
  refine ⟨calls, htrace, fun _ hfits => ⟨⟨?_, ?_⟩, ?_⟩⟩
  · rw [hpos, hbuf]
    exact hfits.written
  · rw [hpos]
    exact hfits.size
  · rw [hcalls, hbuf, hpos, List.nil_append, List.append_nil]

/-- The bytes of a whole trace. -/
theorem bytes {before : Slice} (h : f.Passes f' data) (hno : NoHardError f'.trace) (hfits : f.Fits)
    (hbefore : handed f.trace ++ f.buf.take f.pos = before) :
    f'.Fits ∧ handed f'.trace ++ f'.buf.take f'.pos = before ++ data := by
  obtain ⟨calls, htrace, hpass⟩ := h
  rw [htrace] at hno ⊢
  obtain ⟨hfits, hbytes⟩ := hpass hno.of_append.2 hfits
  refine ⟨hfits, ?_⟩
  rw [handed_append, List.append_assoc, hbytes, ← List.append_assoc, hbefore]

end Passes

/-- As much as fits is copied into the buffer. -/
theorem copy_passes {n : ℕ} (hn : n ≤ data.length) (hsize : f.Fits → f.pos + n ≤ kWritableFileBufferSize) :
    f.Passes { f with buf := memcpy f.buf f.pos (data.take n), pos := f.pos + n } (data.take n) := by
  refine ⟨[], (List.append_nil _).symm, fun _ hf => ?_⟩
  have hcopied : (data.take n).length = n := List.length_take_of_le hn
  have htake := take_memcpy hf.written (data.take n)
  have hlength := le_length_memcpy hf.written (data.take n)
  rw [hcopied] at htake hlength
  exact ⟨⟨hlength, hsize hf⟩, htake⟩

/-- Everything is written when the buffer is empty. -/
theorem writeUnbuffered_passes (hpos : f.pos = 0) (h : f.WriteUnbuffered data = some (f', status)) :
    f'.pos = 0 ∧ f.Passes f' data := by
  obtain ⟨hsame, calls, htrace, htaken⟩ := writeUnbuffered_spec h
  refine ⟨hsame.trans hpos, calls, htrace, fun hno _ => ⟨.of_empty (hsame.trans hpos), ?_⟩⟩
  rw [(htaken hno).2, hsame, hpos, List.take_zero, List.take_zero, List.append_nil, List.nil_append]

theorem flushBuffer_passes (h : f.FlushBuffer = some (f', status)) : f'.pos = 0 ∧ f.Passes f' [] := by
  obtain ⟨hpos, calls, htrace, htaken⟩ := flushBuffer_spec h
  refine ⟨hpos, calls, htrace, fun hno _ => ⟨.of_empty hpos, ?_⟩⟩
  rw [(htaken hno).2, hpos, List.take_zero]

theorem flushBuffer_hard (h : f.FlushBuffer = some (f', status)) (hfailed : status.ok = false) (data : Slice) :
    f.Passes f' data := by
  obtain ⟨-, calls, htrace, htaken⟩ := flushBuffer_spec h
  refine .of_hard htrace (fun hno => ?_) data
  rw [(htaken hno).1] at hfailed
  exact absurd hfailed (by simp)

theorem appendRest_passes (h : f.appendRest data = some (f', status)) : f.Passes f' data := by
  obtain ⟨⟨g, flushed⟩, hflush, h⟩ := Option.bind_eq_some_iff.1 h
  obtain ⟨hpos, hpass⟩ := flushBuffer_passes hflush
  dsimp only at h
  split_ifs at h with hfailed hsmall
  · simp only [Option.some.injEq, Prod.mk.injEq] at h
    obtain ⟨rfl, rfl⟩ := h
    exact flushBuffer_hard hflush hfailed data
  · -- A small rest goes to the buffer.
    simp only [Option.some.injEq, Prod.mk.injEq] at h
    obtain ⟨rfl, -⟩ := h
    have hcopy := copy_passes (f := g) (le_refl data.length) fun _ => by omega
    rw [hpos, List.take_length, Nat.zero_add] at hcopy
    exact hpass.trans hcopy
  · -- A large rest is written directly.
    exact hpass.trans (writeUnbuffered_passes hpos h).2

theorem append_passes (h : f.append data = some (f', status)) : f.Passes f' data := by
  have hmin := Nat.min_le_left data.length (kWritableFileBufferSize - f.pos)
  have hsize : f.Fits → f.pos + min data.length (kWritableFileBufferSize - f.pos) ≤ kWritableFileBufferSize := by
    intro hfits
    have := hfits.size
    omega
  have hcopy := copy_passes hmin hsize
  rw [append] at h
  split_ifs at h with hall
  · simp only [Option.some.injEq, Prod.mk.injEq] at h
    obtain ⟨rfl, -⟩ := h
    rwa [List.take_of_length_le (List.drop_eq_nil_iff.1 hall)] at hcopy ⊢
  · have hrest := hcopy.trans (appendRest_passes h)
    rwa [List.take_append_drop] at hrest

theorem syncDirIfManifest_spec (f : WritableFile) : f.SyncDirIfManifest.1.pos = f.pos ∧
    f.Passes f.SyncDirIfManifest.1 [] ∧
    (NoHardError f.SyncDirIfManifest.1.trace → f.SyncDirIfManifest.2.ok = true) := by
  have hother : ∀ (f : WritableFile) (call : Option String → SysCall), (∀ msg, (call (some msg)).Hard) →
      NoHardError (f.trace ++ [call (f.others.headD none)]) → (f.other call).2.ok = true := by
    intro f call hcall hno
    rw [other]
    cases herror : f.others.headD none with
    | none => rfl
    | some msg =>
      rw [herror] at hno
      exact absurd (hcall msg) (hno.of_append.2 _ (List.mem_singleton.2 rfl))
  rw [SyncDirIfManifest]
  split_ifs with hmanifest
  · dsimp only
    split_ifs with hopen
    · exact ⟨rfl, .of_same (List.append_assoc ..) rfl rfl rfl, hother (f.other .openDir).1 .fsyncDir fun _ => trivial⟩
    · exact ⟨rfl, .of_same rfl rfl rfl rfl, hother f .openDir fun _ => trivial⟩
  · exact ⟨rfl, .refl f, fun _ => rfl⟩

theorem syncFd_passes (f : WritableFile) : f.SyncFd.1.pos = f.pos ∧ f.Passes f.SyncFd.1 [] := by
  rw [SyncFd]
  split_ifs
  · exact ⟨rfl, .of_same rfl rfl rfl rfl⟩
  · exact ⟨rfl, .of_same rfl rfl rfl rfl⟩

theorem sync_passes (h : f.sync = some (f', status)) :
    f.Passes f' [] ∧ (NoHardError f'.trace → f'.pos = 0) := by
  obtain ⟨-, hdir, hok⟩ := f.syncDirIfManifest_spec
  rw [sync] at h
  split_ifs at h with hfailed
  · simp only [Option.some.injEq] at h
    rw [h] at hdir hok hfailed
    refine ⟨hdir, fun hno => ?_⟩
    rw [hok hno] at hfailed
    cases hfailed
  · obtain ⟨⟨g, flushed⟩, hflush, h⟩ := Option.map_eq_some_iff.1 h
    obtain ⟨hempty, hpass⟩ := flushBuffer_passes hflush
    dsimp only at h
    split_ifs at h with hfailed'
    · simp only [Prod.mk.injEq] at h
      obtain ⟨rfl, rfl⟩ := h
      exact ⟨hdir.trans hpass, fun _ => hempty⟩
    · obtain ⟨hpos, hfd⟩ := g.syncFd_passes
      rw [h] at hpos hfd
      exact ⟨(hdir.trans hpass).trans hfd, fun _ => hpos.trans hempty⟩

theorem close_passes (h : f.close = some (f', status)) : f'.pos = 0 ∧ f.Passes f' [] := by
  obtain ⟨⟨g, flushed⟩, hflush, h⟩ := Option.map_eq_some_iff.1 h
  obtain ⟨hempty, hpass⟩ := flushBuffer_passes hflush
  simp only [Prod.mk.injEq] at h
  obtain ⟨rfl, -⟩ := h
  split_ifs
  · exact ⟨hempty, hpass.trans (.of_same rfl rfl rfl rfl)⟩
  · exact ⟨hempty, hpass.trans (.of_same rfl rfl rfl rfl)⟩

/-- A call passes on what it appends. -/
theorem run_passes {call : Call} (h : call.run f = some (f', status)) : f.Passes f' call.appended := by
  cases call with
  | append data => exact append_passes h
  | flush => exact (flushBuffer_passes h).2
  | sync => exact (sync_passes h).1
  | close => exact (close_passes h).2

/-- After a call that is not an `append` the buffer is empty. -/
theorem run_empties {call : Call} (hcall : ∀ data, call ≠ .append data) (h : call.run f = some (f', status))
    (hno : NoHardError f'.trace) : f'.pos = 0 := by
  cases call with
  | append data => exact absurd rfl (hcall data)
  | flush => exact (flushBuffer_passes h).1
  | sync => exact (sync_passes h).2 hno
  | close => exact (close_passes h).1

end WritableFile

/-! ### Whole runs -/

/-- What is appended by the calls. -/
def appendedBy (calls : List Call) : Slice := calls.flatMap Call.appended

section Runs

variable {f f' : WritableFile} {calls : List Call}

theorem runAll_cons {call : Call} (h : runAll (call :: calls) f = some f') :
    ∃ g status, call.run f = some (g, status) ∧ runAll calls g = some f' := by
  rw [runAll, List.foldlM_cons] at h
  obtain ⟨g, hcall, hrest⟩ := Option.bind_eq_some_iff.1 h
  obtain ⟨⟨g', status⟩, hrun, rfl⟩ := Option.map_eq_some_iff.1 hcall
  exact ⟨g', status, hrun, hrest⟩

theorem runAll_passes (h : runAll calls f = some f') : f.Passes f' (appendedBy calls) := by
  induction calls generalizing f with
  | nil =>
    obtain rfl : f = f' := Option.some.inj h
    exact .refl f
  | cons call calls ih =>
    obtain ⟨g, status, hcall, hrest⟩ := runAll_cons h
    exact (WritableFile.run_passes hcall).trans (ih hrest)

end Runs

/-! ### Calls return -/

/-- Some bytes are taken. -/
def WriteResult.progress : WriteResult → Bool
  | .wrote n => 0 < n
  | _ => false

namespace WritableFile

variable {f f' : WritableFile} {data : Slice} {status : Status}

/-- How often some bytes will be taken. -/
def progress (f : WritableFile) : ℕ := f.writes.countP WriteResult.progress

theorem writeLoop_returns {results : List WriteResult} {n : ℕ}
    (h : data.length + n ≤ results.countP WriteResult.progress) :
    ∃ status rest calls, writeLoop results data = some (status, rest, calls) ∧
    n ≤ rest.countP WriteResult.progress := by
  induction results generalizing data with
  | nil =>
    rw [List.countP_nil] at h
    have hdata : data = [] := List.length_eq_zero_iff.1 (by omega)
    refine ⟨.OK, [], [], if_pos hdata, by rw [List.countP_nil]; omega⟩
  | cons result results ih =>
    rw [writeLoop.eq_def]
    dsimp only
    by_cases hdata : data = []
    · exact ⟨.OK, result :: results, [], if_pos hdata, by rw [hdata, List.length_nil] at h; omega⟩
    · have hlength := List.length_pos_iff.2 hdata
      rw [if_neg hdata]
      rw [List.countP_cons] at h
      cases result with
      | wrote m =>
        have hrest : (data.drop m).length + n ≤ results.countP WriteResult.progress := by
          rw [List.length_drop]
          by_cases hm : 0 < m
          · simp only [WriteResult.progress, hm, decide_true, if_true] at h
            omega
          · simp only [WriteResult.progress, hm, decide_false, Bool.false_eq_true, if_false] at h
            omega
        obtain ⟨status, rest, calls, hloop, hn⟩ := ih hrest
        refine ⟨status, rest, .write data (.wrote m) :: calls, ?_, hn⟩
        exact Option.map_eq_some_iff.2 ⟨_, hloop, rfl⟩
      | interrupted =>
        have hrest : data.length + n ≤ results.countP WriteResult.progress := h
        obtain ⟨status, rest, calls, hloop, hn⟩ := ih hrest
        refine ⟨status, rest, .write data .interrupted :: calls, ?_, hn⟩
        exact Option.map_eq_some_iff.2 ⟨_, hloop, rfl⟩
      | failed error =>
        have hrest : data.length + n ≤ results.countP WriteResult.progress := h
        exact ⟨.IOError error, results, _, rfl, by omega⟩

theorem writeUnbuffered_returns {n : ℕ} (h : data.length + n ≤ f.progress) :
    ∃ f' status, f.WriteUnbuffered data = some (f', status) ∧ n ≤ f'.progress := by
  rw [WriteUnbuffered]
  split_ifs
  · obtain ⟨status, rest, calls, hloop, hn⟩ := writeLoop_returns h
    refine ⟨{ f with writes := rest, trace := f.trace ++ calls }, status, ?_, hn⟩
    exact Option.map_eq_some_iff.2 ⟨_, hloop, rfl⟩
  · exact ⟨f, _, rfl, by omega⟩
  · exact ⟨_, _, rfl, show n ≤ f.progress by omega⟩

theorem flushBuffer_returns {n : ℕ} (h : f.pos + n ≤ f.progress) :
    ∃ f' status, f.FlushBuffer = some (f', status) ∧ f'.pos = 0 ∧ n ≤ f'.progress := by
  have hlength : (f.buf.take f.pos).length ≤ f.pos := by
    rw [List.length_take]
    exact Nat.min_le_left _ _
  obtain ⟨g, status, hwrite, hn⟩ := writeUnbuffered_returns (show (f.buf.take f.pos).length + n ≤ f.progress by omega)
  refine ⟨{ g with pos := 0 }, status, ?_, rfl, hn⟩
  exact Option.map_eq_some_iff.2 ⟨_, hwrite, rfl⟩

theorem appendRest_returns {n : ℕ} (h : f.pos + (data.length + n) ≤ f.progress) :
    ∃ f' status, f.appendRest data = some (f', status) ∧ f'.pos + n ≤ f'.progress := by
  obtain ⟨g, flushed, hflush, hpos, hn⟩ := flushBuffer_returns h
  rw [appendRest, hflush, Option.bind_some]
  dsimp only
  split_ifs
  · exact ⟨g, flushed, rfl, by omega⟩
  · exact ⟨_, _, rfl, hn⟩
  · obtain ⟨g', status, hwrite, hn'⟩ := writeUnbuffered_returns hn
    obtain ⟨hpos', -⟩ := writeUnbuffered_spec hwrite
    exact ⟨g', status, hwrite, by omega⟩

/-- A call returns when every byte that it may have to write can be taken on its own. -/
theorem run_returns {call : Call} {n : ℕ} (h : f.pos + (call.appended.length + n) ≤ f.progress) :
    ∃ f' status, call.run f = some (f', status) ∧ f'.pos + n ≤ f'.progress := by
  cases call with
  | append data =>
    have h : f.pos + (data.length + n) ≤ f.progress := h
    rw [Call.run, append]
    split_ifs with hall
    · refine ⟨_, _, rfl, ?_⟩
      have hmin := Nat.min_le_left data.length (kWritableFileBufferSize - f.pos)
      show f.pos + min data.length (kWritableFileBufferSize - f.pos) + n ≤ f.progress
      omega
    · apply appendRest_returns
      have hmin := Nat.min_le_left data.length (kWritableFileBufferSize - f.pos)
      show f.pos + min data.length (kWritableFileBufferSize - f.pos) +
        ((data.drop (min data.length (kWritableFileBufferSize - f.pos))).length + n) ≤ f.progress
      rw [List.length_drop]
      omega
  | flush =>
    have h : f.pos + (0 + n) ≤ f.progress := h
    obtain ⟨g, status, hflush, hpos, hn⟩ := flushBuffer_returns h
    exact ⟨g, status, hflush, by omega⟩
  | sync =>
    have h : f.pos + (0 + n) ≤ f.progress := h
    obtain ⟨hpos, -⟩ := f.syncDirIfManifest_spec
    have hdir : f.SyncDirIfManifest.1.progress = f.progress := by
      rw [SyncDirIfManifest]
      split_ifs
      · dsimp only
        split_ifs <;> rfl
      · rfl
    rw [Call.run, sync]
    split_ifs
    · have hn : f.SyncDirIfManifest.1.pos + n ≤ f.SyncDirIfManifest.1.progress := by omega
      exact ⟨f.SyncDirIfManifest.1, f.SyncDirIfManifest.2, rfl, hn⟩
    · obtain ⟨g, status, hflush, hempty, hn⟩ :=
        flushBuffer_returns (f := f.SyncDirIfManifest.1) (n := 0 + n) (by omega)
      obtain ⟨hfd, -⟩ := g.syncFd_passes
      have hprogress : g.SyncFd.1.progress = g.progress := by
        rw [SyncFd]
        split_ifs <;> rfl
      rw [hflush, Option.map_some]
      split_ifs
      · exact ⟨g, status, rfl, by omega⟩
      · exact ⟨g.SyncFd.1, g.SyncFd.2, rfl, by omega⟩
  | close =>
    have h : f.pos + (0 + n) ≤ f.progress := h
    obtain ⟨g, status, hflush, hempty, hn⟩ := flushBuffer_returns h
    rw [Call.run, close, hflush, Option.map_some]
    refine ⟨_, _, rfl, ?_⟩
    split_ifs
    · show g.pos + n ≤ g.progress
      omega
    · show g.pos + n ≤ g.progress
      omega

end WritableFile

theorem runAll_returns {f : WritableFile} {calls : List Call} (h : f.pos + (appendedBy calls).length ≤ f.progress) :
    ∃ f', runAll calls f = some f' := by
  induction calls generalizing f with
  | nil => exact ⟨f, rfl⟩
  | cons call calls ih =>
    rw [appendedBy, List.flatMap_cons, List.length_append, ← appendedBy] at h
    obtain ⟨g, status, hcall, hn⟩ := WritableFile.run_returns h
    obtain ⟨f', hrest⟩ := ih hn
    refine ⟨f', ?_⟩
    rw [runAll, List.foldlM_cons, hcall]
    exact hrest

/-- Calls return when the system takes bytes often enough.  Unless there is a hard error, what the descriptor has
taken and what is in the buffer is then all that was appended; and after a flush, a sync or a close the descriptor has
taken it all. -/
theorem writableFile_exact (manifest : Bool) (writes : List WriteResult) (others : List (Option String))
    (calls : List Call) :
    ((appendedBy calls).length ≤ writes.countP WriteResult.progress →
      ∃ f, runAll calls (WritableFile.opened manifest writes others) = some f) ∧
    ∀ f, runAll calls (WritableFile.opened manifest writes others) = some f → NoHardError f.trace →
      handed f.trace ++ f.buf.take f.pos = appendedBy calls ∧ f.pos ≤ kWritableFileBufferSize ∧
      ∀ before call, calls = before ++ [call] → (∀ data, call ≠ .append data) →
      handed f.trace = appendedBy calls := by
  constructor
  · intro h
    apply runAll_returns
    rw [WritableFile.opened, Nat.zero_add]
    exact h
  · intro f hrun hno
    have hopened : (WritableFile.opened manifest writes others).Fits := .of_empty rfl
    obtain ⟨hfits, hbytes⟩ := (runAll_passes hrun).bytes hno hopened rfl
    refine ⟨hbytes, hfits.size, ?_⟩
    rintro before call rfl hcall
    rw [runAll, List.foldlM_append] at hrun
    obtain ⟨g, -, hlast⟩ := Option.bind_eq_some_iff.1 hrun
    obtain ⟨f', status, hcallrun, hend⟩ := runAll_cons hlast
    obtain rfl : f' = f := Option.some.inj hend
    rw [WritableFile.run_empties hcall hcallrun hno, List.take_zero, List.append_nil] at hbytes
    exact hbytes

theorem writableFile_exact_shortWrites :
    (∃ f, runAll [.append [1, 2], .flush] (WritableFile.opened false [.wrote 1, .interrupted, .wrote 1] []) =
      some f) ∧
    ∃ f, runAll [.append [1, 2], .flush] (WritableFile.opened false [.wrote 1, .interrupted, .wrote 1] []) = some f ∧
      handed f.trace = [1, 2] := by
  have hexact := writableFile_exact false [.wrote 1, .interrupted, .wrote 1] [] [.append [1, 2], .flush]
  obtain ⟨f, hrun⟩ := hexact.1 (by decide)
  have htrace : f.trace = [.write [1, 2] (.wrote 1), .write [2] .interrupted, .write [2] (.wrote 1)] := by
    cases hrun
    rfl
  have hno : NoHardError f.trace := by
    intro call hcall
    rw [htrace] at hcall
    simp only [List.mem_cons, List.not_mem_nil, or_false] at hcall
    obtain rfl | rfl | rfl := hcall <;> exact id
  exact ⟨⟨f, hrun⟩, f, hrun, (hexact.2 f hrun hno).2.2 [.append [1, 2]] .flush rfl (fun _ => Call.noConfusion)⟩

end Posix

end RedisDb
