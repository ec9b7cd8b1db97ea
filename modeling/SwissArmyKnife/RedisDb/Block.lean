import SwissArmyKnife.RedisDb.Iterator

/-!
# Blocks

`Block` and `BlockIterator`.  The contents of a block are the entries, the array of the restart points and their
number. Reads are checked against the contents: a call ends in a `Fault` when it reads a byte outside of them, when an
assertion fails, or when its loops have not ended within `fuel` passes.  Offsets are natural numbers, cut to 32 bits
where the source does so.
-/

namespace RedisDb

open Cursor (Call)

/-- Why a call has no result. -/
inductive Fault where
  | outOfBounds
  | assertion
  | unfinished
  deriving DecidableEq

@[simp] theorem Fault.ok_bind {α β : Type} (a : α) (f : α → Except Fault β) : (Except.ok a >>= f) = f a := rfl

/-- The bytes at the offset, all of which have to lie in the block. -/
def readBytes (data : Slice) (offset n : ℕ) : Except Fault Slice :=
  if offset + n ≤ data.length then .ok ((data.drop offset).take n) else .error .outOfBounds

def readFixed32 (data : Slice) (offset : ℕ) : Except Fault ℕ := do
  let bytes ← readBytes data offset 4
  return (DecodeFixed32 bytes).toNat

theorem readBytes_of_le {data : Slice} {offset n : ℕ} (h : offset + n ≤ data.length) :
    readBytes data offset n = .ok ((data.drop offset).take n) := if_pos h

/-! ### Entries -/

/-- The lengths of an entry and the offset of the key delta. -/
structure BlockEntry where
  shared : UInt32
  nonShared : UInt32
  valueLength : UInt32
  p : ℕ

namespace BlockEntry

/-- Where the value is. -/
def value (e : BlockEntry) : ℕ := e.p + e.nonShared.toNat

/-- Where the entry ends. -/
def stop (e : BlockEntry) : ℕ := e.value + e.valueLength.toNat

end BlockEntry

/-- The three lengths and the bytes after them. -/
def decodeLengths (input : Slice) : Option (UInt32 × UInt32 × UInt32 × Slice) :=
  match input with
  | b₀ :: b₁ :: b₂ :: rest =>
    -- Fast path: all three lengths are in one byte each.
    if (b₀.toUInt32 ||| b₁.toUInt32 ||| b₂.toUInt32) < 128 then some (b₀.toUInt32, b₁.toUInt32, b₂.toUInt32, rest)
    else do
      let (shared, input) ← GetVarint32 input
      let (nonShared, input) ← GetVarint32 input
      let (valueLength, input) ← GetVarint32 input
      return (shared, nonShared, valueLength, input)
  | _ => none

/-- `decodeEntry` for the bytes up to `limit`.  The sum of the lengths is a 32-bit sum. -/
def decodeEntryBytes (input : Slice) (limit : ℕ) : Option BlockEntry :=
  match decodeLengths input with
  | some (shared, nonShared, valueLength, rest) =>
    -- The sum wraps around, so lengths of 2^32 and more together may pass.
    if UInt32.ofNat rest.length < nonShared + valueLength then none
    else some ⟨shared, nonShared, valueLength, limit - rest.length⟩
  | none => none

def decodeEntry (data : Slice) (p limit : ℕ) : Except Fault (Option BlockEntry) :=
  if (limit : ℤ) - p < 3 then .ok none
  else do
    let input ← readBytes data p (limit - p)
    return decodeEntryBytes input limit

/-! ### The iterator -/

structure BlockIterator where
  data : Slice
  /-- Offset of the restart array. -/
  restarts : ℕ
  /-- Number of entries in the restart array. -/
  numrestarts : ℕ
  /-- Offset of the current entry; at least `restarts` when the iterator is not valid. -/
  current : ℕ
  /-- Index of the restart block in which `current` falls. -/
  restartIndex : ℕ
  k : Slice
  /-- Offset and length of the value; none for a null view. -/
  v : Option (ℕ × ℕ)
  s : Status

namespace BlockIterator

def new (data : Slice) (restarts numrestarts : ℕ) : BlockIterator :=
  ⟨data, restarts, numrestarts, restarts, numrestarts, [], none, .OK⟩

def Valid (it : BlockIterator) : Bool := it.current < it.restarts

def key (it : BlockIterator) : Except Fault Slice := if it.Valid then .ok it.k else .error .assertion

def value (it : BlockIterator) : Except Fault Slice :=
  if it.Valid then
    match it.v with
    | some (offset, size) => readBytes it.data offset size
    | none => .ok []
  else .error .assertion

def nextEntryOffset (it : BlockIterator) : Except Fault ℕ :=
  match it.v with
  | some (offset, size) => .ok ((offset + size) % 2 ^ 32)
  | none => .error .outOfBounds

def getRestartPoint (it : BlockIterator) (index : ℕ) : Except Fault ℕ :=
  if index < it.numrestarts then readFixed32 it.data (it.restarts + index * 4) else .error .assertion

def seekToRestartPoint (it : BlockIterator) (index : ℕ) : Except Fault BlockIterator := do
  let offset ← it.getRestartPoint index
  return { it with k := [], restartIndex := index, v := some (offset, 0) }

/-- No more entries. -/
def invalidate (it : BlockIterator) : BlockIterator :=
  { it with current := it.restarts, restartIndex := it.numrestarts }

def corruptionError (it : BlockIterator) : BlockIterator :=
  { it.invalidate with s := .Corruption "bad entry in block", k := [], v := none }

/-- The loop at the end of `parseNextKey`. -/
def advanceRestart (it : BlockIterator) (index : ℕ) : Except Fault ℕ :=
  if index + 1 < it.numrestarts then do
    let point ← it.getRestartPoint (index + 1)
    if point < it.current then it.advanceRestart (index + 1) else return index
  else return index
termination_by it.numrestarts - index

def parseNextKey (it : BlockIterator) : Except Fault (BlockIterator × Bool) := do
  let current ← it.nextEntryOffset
  let it := { it with current := current }
  if it.restarts ≤ current then return (it.invalidate, false)
  else
    match ← decodeEntry it.data current it.restarts with
    | none => return (it.corruptionError, false)
    | some e =>
      if it.k.length < e.shared.toNat then return (it.corruptionError, false)
      else do
        let delta ← readBytes it.data e.p e.nonShared.toNat
        let index ← it.advanceRestart it.restartIndex
        return ({ it with k := it.k.take e.shared.toNat ++ delta, v := some (e.value, e.valueLength.toNat),
                          restartIndex := index }, true)

/-- Entries are parsed until there is none or `stop` holds. -/
def scan (stop : BlockIterator → Except Fault Bool) : ℕ → BlockIterator → Except Fault BlockIterator
  | 0, _ => .error .unfinished
  | fuel + 1, it => do
    let (it, found) ← it.parseNextKey
    if found then
      if ← stop it then return it else scan stop fuel it
    else return it

/-- The current entry ends at or after the offset. -/
def endsAt (bound : ℕ) (it : BlockIterator) : Except Fault Bool := do
  let offset ← it.nextEntryOffset
  return bound ≤ offset

/-- The first of the restart points `index`, `index - 1`, ..., that is before the offset. -/
def restartBefore (it : BlockIterator) (original : ℕ) (index : ℕ) : Except Fault (Option ℕ) := do
  let point ← it.getRestartPoint index
  if original ≤ point then
    match index with
    | 0 => return none
    | index + 1 => it.restartBefore original index
  else return some index

def Next (it : BlockIterator) : Except Fault BlockIterator :=
  if it.Valid then do
    let (it, _) ← it.parseNextKey
    return it
  else .error .assertion

def Prev (fuel : ℕ) (it : BlockIterator) : Except Fault BlockIterator :=
  if it.Valid then do
    let original := it.current
    match ← it.restartBefore original it.restartIndex with
    | none => return it.invalidate
    | some index => do
      let it ← it.seekToRestartPoint index
      scan (endsAt original) fuel it
  else .error .assertion

def SeekToFirst (it : BlockIterator) : Except Fault BlockIterator := do
  let it ← it.seekToRestartPoint 0
  let (it, _) ← it.parseNextKey
  return it

def SeekToLast (fuel : ℕ) (it : BlockIterator) : Except Fault BlockIterator := do
  let it ← it.seekToRestartPoint (it.numrestarts - 1)
  scan (endsAt it.restarts) fuel it

/-- The binary search for the last restart point with a key before the target; none at a bad entry. -/
def searchRestart (cmp : Slice → Slice → Ordering) (it : BlockIterator) (target : Slice) :
    ℕ → ℕ → ℕ → Except Fault (Option ℕ)
  | 0, _, _ => .error .unfinished
  | fuel + 1, left, right =>
    if left < right then do
      -- `left`, `right` and `mid` are of type uint32_t.
      let mid := (left + right + 1) % 2 ^ 32 / 2
      let regionOffset ← it.getRestartPoint mid
      match ← decodeEntry it.data regionOffset it.restarts with
      | none => return none
      | some e =>
        if e.shared ≠ 0 then return none
        else do
          let midKey ← readBytes it.data e.p e.nonShared.toNat
          if cmp midKey target = .lt then it.searchRestart cmp target fuel mid right
          else it.searchRestart cmp target fuel left ((mid + 2 ^ 32 - 1) % 2 ^ 32)
    else return some left

def Seek (cmp : Slice → Slice → Ordering) (fuel : ℕ) (it : BlockIterator) (target : Slice) :
    Except Fault BlockIterator := do
  match ← it.searchRestart cmp target fuel 0 (it.numrestarts - 1) with
  | none => return it.corruptionError
  | some left =>
    let it ← it.seekToRestartPoint left
    scan (fun it => .ok (cmp it.k target ≠ .lt)) fuel it

end BlockIterator

/-! ### One entry -/

namespace BlockIterator

/-- The entry that is decoded at an offset. -/
def entryAt (it : BlockIterator) (offset : ℕ) : Option BlockEntry :=
  if offset + 3 ≤ it.restarts then
    decodeEntryBytes ((it.data.drop offset).take (it.restarts - offset)) it.restarts
  else none

/-- The key delta of an entry. -/
def delta (it : BlockIterator) (e : BlockEntry) : Slice := (it.data.drop e.p).take e.nonShared.toNat

theorem decodeEntry_eq {it : BlockIterator} (h : it.restarts ≤ it.data.length) (offset : ℕ) :
    decodeEntry it.data offset it.restarts = .ok (it.entryAt offset) := by
  rw [decodeEntry, entryAt]
  by_cases hle : offset + 3 ≤ it.restarts
  · rw [if_neg (by omega), if_pos hle, readBytes_of_le (by omega)]
    rfl
  · rw [if_pos (by omega), if_neg hle]

variable {it : BlockIterator} {offset : ℕ}

theorem parseNextKey_end (hoffset : it.nextEntryOffset = .ok offset) (h : it.restarts ≤ offset) :
    it.parseNextKey = .ok (it.invalidate, false) := by
  rw [parseNextKey, hoffset, Fault.ok_bind]
  exact if_pos h

theorem parseNextKey_bad (hoffset : it.nextEntryOffset = .ok offset) (h : offset < it.restarts)
    (hdata : it.restarts ≤ it.data.length)
    (hentry : ∀ e, it.entryAt offset = some e → it.k.length < e.shared.toNat) :
    it.parseNextKey = .ok (it.corruptionError, false) := by
  rw [parseNextKey, hoffset, Fault.ok_bind]
  simp only [if_neg (Nat.not_le.2 h), decodeEntry_eq hdata, Fault.ok_bind]
  cases he : it.entryAt offset with
  | none => rfl
  | some e => exact if_pos (hentry e he)

theorem parseNextKey_entry (hoffset : it.nextEntryOffset = .ok offset) (h : offset < it.restarts)
    (hdata : it.restarts ≤ it.data.length) {e : BlockEntry} (hentry : it.entryAt offset = some e)
    (hshared : e.shared.toNat ≤ it.k.length) (hdelta : e.value ≤ it.data.length) {index : ℕ}
    (hindex : { it with current := offset }.advanceRestart it.restartIndex = .ok index) :
    it.parseNextKey = .ok ({ it with
      current := offset
      k := it.k.take e.shared.toNat ++ it.delta e
      v := some (e.value, e.valueLength.toNat)
      restartIndex := index }, true) := by
  rw [parseNextKey, hoffset, Fault.ok_bind]
  simp only [if_neg (Nat.not_le.2 h), decodeEntry_eq hdata, Fault.ok_bind, hentry, if_neg (Nat.not_lt.2 hshared),
    readBytes_of_le (show e.p + e.nonShared.toNat ≤ it.data.length from hdelta), hindex]
  rfl

end BlockIterator

/-! ### Blocks -/

structure Block where
  data : Slice
  /-- The size, or 0 as a mark of an error. -/
  size : ℕ
  /-- Offset of the restart array; not used after an error. -/
  restartoffset : ℕ

namespace Block

def numrestarts (data : Slice) (size : ℕ) : Except Fault ℕ :=
  if 4 ≤ size then readFixed32 data (size - 4) else .error .assertion

/-- The constructor. -/
def new (contents : Slice) : Except Fault Block :=
  if contents.length < 4 then return ⟨contents, 0, 0⟩
  else do
    let n ← numrestarts contents contents.length
    let maxRestartsAllowed := (contents.length - 4) / 4
    if maxRestartsAllowed < n then return ⟨contents, 0, 0⟩
    else return ⟨contents, contents.length, (contents.length - (1 + n) % 2 ^ 32 * 4) % 2 ^ 32⟩

/-- What `NewIterator` returns: an `EmptyIterator` or a `BlockIterator`. -/
inductive Iter where
  | Empty (s : Status)
  | Entries (it : BlockIterator)

def NewIterator (b : Block) : Except Fault Iter :=
  if b.size < 4 then return .Empty (.Corruption "bad block contents")
  else do
    let n ← numrestarts b.data b.size
    if n = 0 then return .Empty .OK else return .Entries (.new b.data b.restartoffset n)

namespace Iter

def Valid : Iter → Bool
  | .Empty _ => false
  | .Entries it => it.Valid

def status : Iter → Status
  | .Empty s => s
  | .Entries it => it.s

def call (cmp : Slice → Slice → Ordering) (fuel : ℕ) : Iter → Call Slice → Except Fault Iter
  | .Empty _, .Next | .Empty _, .Prev => .error .assertion
  | .Empty s, _ => .ok (.Empty s)
  | .Entries it, .Seek target => Iter.Entries <$> it.Seek cmp fuel target
  | .Entries it, .SeekToFirst => Iter.Entries <$> it.SeekToFirst
  | .Entries it, .SeekToLast => Iter.Entries <$> it.SeekToLast fuel
  | .Entries it, .Next => Iter.Entries <$> it.Next
  | .Entries it, .Prev => Iter.Entries <$> it.Prev fuel

end Iter

end Block

end RedisDb
