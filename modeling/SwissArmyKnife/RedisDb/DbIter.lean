import SwissArmyKnife.Lib.Cursor
import SwissArmyKnife.Lib.Mvcc
import SwissArmyKnife.RedisDb.DbFormat

/-!
# Database iterators

A `DBIter` shows the entries of its internal iterator as a map: of every user key the newest entry that a read as of
`sequence` sees, unless it is a deletion.  Going forward the internal iterator is at the entry that is shown; going
backward it is just before all entries of the user key that is shown.
-/

namespace RedisDb

open Cursor (Place)

variable {K V : Type*} [LinearOrder K]

inductive Direction where
  | kForward
  | kReverse
deriving DecidableEq

structure DBIter (K V : Type*) where
  iter : Option (Place (Entry K V))
  savedkey : Option K
  savedvalue : Option V
  direction : Direction
  vali : Bool

namespace DBIter

def new : DBIter K V := ⟨none, none, none, .kForward, false⟩

def Valid (it : DBIter K V) : Bool := it.vali

def key (it : DBIter K V) : Option K :=
  match it.direction with
  | .kForward => it.iter.map fun p => p.current.userkey
  | .kReverse => it.savedkey

def value (it : DBIter K V) : Option V :=
  match it.direction with
  | .kForward => it.iter.map fun p => p.current.value
  | .kReverse => it.savedvalue

/-! ### Forward -/

/-- The loop of `FindNextUserEntry` over the entries from the place on; `skip` is the key up to which values are
skipped, if there is one. -/
def findNext (sequence : ℕ) : List (Entry K V) → Option K → List (Entry K V) → Option (Place (Entry K V))
  | _, _, [] => none
  | before, skip, e :: after =>
    if e.sequence ≤ sequence then
      match e.key.type with
      | .kTypeDeletion => findNext sequence (e :: before) (some e.userkey) after
      | .kTypeValue =>
        if skip.any fun k => decide (e.userkey ≤ k) then findNext sequence (e :: before) skip after
        else some ⟨before, e, after⟩
    else findNext sequence (e :: before) skip after

/-- The iterator is at `p`, which is the place to look on from. -/
def FindNextUserEntry (sequence : ℕ) (it : DBIter K V) (p : Place (Entry K V)) (skip : Option K) : DBIter K V :=
  let found := findNext sequence p.before skip (p.current :: p.after)
  { it with iter := found, vali := found.isSome, savedkey := none }

/-- `Next`; there is no result when an assertion fails. -/
def Next (entries : List (Entry K V)) (sequence : ℕ) (it : DBIter K V) : Option (DBIter K V) :=
  if it.vali then
    match it.direction with
    | .kReverse =>
      let moved := match it.iter with
        | none => Cursor.first entries
        | some p => p.next
      let it := { it with direction := .kForward, iter := moved }
      match moved with
      | none => some { it with vali := false, savedkey := none }
      | some p => some (FindNextUserEntry sequence it p it.savedkey)
    | .kForward => it.iter.map fun p =>
      let it := { it with savedkey := some p.current.userkey, iter := p.next }
      match p.next with
      | none => { it with vali := false, savedkey := none }
      | some q => FindNextUserEntry sequence it q it.savedkey
  else none

/-- `Seek`.  The target is encoded into `savedkey`, which is not read again before it is cleared. -/
def Seek (entries : List (Entry K V)) (sequence : ℕ) (it : DBIter K V) (target : K) : DBIter K V :=
  let moved := Cursor.seek (fun e => decide (LookupKey target sequence ≤ e.key)) entries
  let it := { it with direction := .kForward, savedvalue := none, savedkey := none, iter := moved }
  match moved with
  | none => { it with vali := false }
  | some p => FindNextUserEntry sequence it p none

def SeekToFirst (entries : List (Entry K V)) (sequence : ℕ) (it : DBIter K V) : DBIter K V :=
  let moved := Cursor.first entries
  let it := { it with direction := .kForward, savedvalue := none, iter := moved }
  match moved with
  | none => { it with vali := false }
  | some p => FindNextUserEntry sequence it p none

/-! ### Backward -/

/-- The loop of `FindPrevUserEntry` over the entries from the place back.  `saved` is the key and the value that are
saved, and nothing when the value type is a deletion. -/
def findPrev (sequence : ℕ) : List (Entry K V) → Option (K × V) → List (Entry K V) →
    Option (Place (Entry K V)) × Option (K × V)
  | _, saved, [] => (none, saved)
  | after, saved, e :: before =>
    if e.sequence ≤ sequence then
      if saved.any fun kv => decide (e.userkey < kv.1) then (some ⟨before, e, after⟩, saved)
      else
        match e.key.type with
        | .kTypeDeletion => findPrev sequence (e :: after) none before
        | .kTypeValue => findPrev sequence (e :: after) (some (e.userkey, e.value)) before
    else findPrev sequence (e :: after) saved before

/-- The iterator goes back from the last of the entries `before`. -/
def FindPrevUserEntry (sequence : ℕ) (it : DBIter K V) (after before : List (Entry K V)) : DBIter K V :=
  let found := findPrev sequence after none before
  match found.2 with
  | none => { it with iter := found.1, vali := false, savedkey := none, savedvalue := none, direction := .kForward }
  | some kv => { it with iter := found.1, vali := true, savedkey := some kv.1, savedvalue := some kv.2 }

/-- `Prev`; there is no result when an assertion fails. -/
def Prev (sequence : ℕ) (it : DBIter K V) : Option (DBIter K V) :=
  if it.vali then
    match it.direction with
    | .kForward => it.iter.map fun p =>
      let userkey := p.current.userkey
      -- Scan backwards until the key changes.
      match Cursor.scanBack (fun e => decide (e.userkey < userkey)) (p.current :: p.after) p.before with
      | none => { it with iter := none, vali := false, savedkey := none, savedvalue := none }
      | some q =>
        FindPrevUserEntry sequence { it with savedkey := some userkey, direction := .kReverse } q.after
          (q.current :: q.before)
    | .kReverse => some <|
      match it.iter with
      | none => FindPrevUserEntry sequence it [] []
      | some p => FindPrevUserEntry sequence it p.after (p.current :: p.before)
  else none

def SeekToLast (entries : List (Entry K V)) (sequence : ℕ) (it : DBIter K V) : DBIter K V :=
  FindPrevUserEntry sequence { it with direction := .kReverse, savedvalue := none } [] entries.reverse

/-! ### Calls -/

inductive Call (K : Type*) where
  | Seek (target : K)
  | SeekToFirst
  | SeekToLast
  | Next
  | Prev

def call (entries : List (Entry K V)) (sequence : ℕ) (it : DBIter K V) : Call K → Option (DBIter K V)
  | .Seek target => some (it.Seek entries sequence target)
  | .SeekToFirst => some (it.SeekToFirst entries sequence)
  | .SeekToLast => some (it.SeekToLast entries sequence)
  | .Next => it.Next entries sequence
  | .Prev => it.Prev sequence

end DBIter

end RedisDb
