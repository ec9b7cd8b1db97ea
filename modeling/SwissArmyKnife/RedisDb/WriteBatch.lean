import SwissArmyKnife.RedisDb.MemTable

/-!
# Write batches

A `WriteBatch` holds its operations as they go to the log: a header with the sequence number of the first operation
and the number of operations, and a body with a tag and length-prefixed slices for each operation.  Batches that are
built by `Put` and `Delete` and put together by `append` are inserted into a memtable as their operations, in order
(`iterate_built`); any other contents are refused unless their body is read to its end as that many operations
(`iterate_accepts`).
-/

namespace RedisDb

open Encoded

/-- WriteBatch header has an 8-byte sequence number followed by a 4-byte count. -/
def kHeader : ℕ := 12

structure WriteBatch where
  rep : Slice
deriving DecidableEq

def tagByte : ValueType → UInt8
  | .kTypeDeletion => 0
  | .kTypeValue => 1

namespace WriteBatchInternal

def Count (b : WriteBatch) : Int32 := (DecodeFixed32 (b.rep.drop 8)).toInt32

def SetCount (b : WriteBatch) (n : Int32) : WriteBatch :=
  ⟨b.rep.take 8 ++ (EncodeFixed32 n.toUInt32 ++ b.rep.drop kHeader)⟩

def GetSequence (b : WriteBatch) : UInt64 := DecodeFixed64 b.rep

def SetSequence (b : WriteBatch) (seq : UInt64) : WriteBatch := ⟨EncodeFixed64 seq ++ b.rep.drop 8⟩

def Contents (b : WriteBatch) : Slice := b.rep

/-- There is no result when the assertion on the size fails. -/
def SetContents (contents : Slice) : Option WriteBatch := if kHeader ≤ contents.length then some ⟨contents⟩ else none

def append (dst src : WriteBatch) : Option WriteBatch :=
  let dst := SetCount dst (Count dst + Count src)
  if kHeader ≤ src.rep.length then some ⟨dst.rep ++ src.rep.drop kHeader⟩ else none

end WriteBatchInternal

namespace WriteBatch

open WriteBatchInternal

/-- An empty batch, as `clear` leaves it. -/
def new : WriteBatch := ⟨List.replicate kHeader 0⟩

def Delete (b : WriteBatch) (key : Slice) : WriteBatch :=
  ⟨(SetCount b (Count b + 1)).rep ++ (tagByte .kTypeDeletion :: PutLengthPrefixedSlice key)⟩

def Put (b : WriteBatch) (key value : Slice) : WriteBatch :=
  ⟨(SetCount b (Count b + 1)).rep ++
    (tagByte .kTypeValue :: (PutLengthPrefixedSlice key ++ PutLengthPrefixedSlice value))⟩

/-- The loop of `Iterate`: the calls of `MemTable::Add` and the status.  `count` is the number in the header. -/
def iterateFrom (count : Int32) (input : Slice) (sequence : UInt64) (found : Int32) : List Write × Status :=
  match input with
  | [] => ([], if found ≠ count then .Corruption "WriteBatch has wrong Count" else .OK)
  | tag :: input =>
    if tag = tagByte .kTypeValue then
      match _h : GetLengthPrefixedSlice input with
      | some (key, input') =>
        match h' : GetLengthPrefixedSlice input' with
        | some (value, input'') =>
          let r := iterateFrom count input'' (sequence + 1) (found + 1)
          (⟨sequence, .kTypeValue, key, value⟩ :: r.1, r.2)
        | none => ([], .Corruption "bad WriteBatch Put")
      | none => ([], .Corruption "bad WriteBatch Put")
    else if tag = tagByte .kTypeDeletion then
      match h : GetLengthPrefixedSlice input with
      | some (key, input') =>
        let r := iterateFrom count input' (sequence + 1) (found + 1)
        (⟨sequence, .kTypeDeletion, key, []⟩ :: r.1, r.2)
      | none => ([], .Corruption "bad WriteBatch Delete")
    else ([], .Corruption "unknown WriteBatch tag")
termination_by input.length
decreasing_by
  · have hkey := (length_of_getLengthPrefixedSlice _h).2
    have hvalue := (length_of_getLengthPrefixedSlice h').2
    simp only [List.length_cons]
    omega
  · have hkey := (length_of_getLengthPrefixedSlice h).2
    simp only [List.length_cons]
    omega

def Iterate (b : WriteBatch) (sequence : UInt64) : List Write × Status :=
  if b.rep.length < kHeader then ([], .Corruption "malformed WriteBatch (too small)")
  else iterateFrom (Count b) (b.rep.drop kHeader) sequence 0

end WriteBatch

namespace WriteBatchInternal

/-- `draws` are the random heights in the skip list; there is no result when an assertion of the memtable fails. -/
def InsertInto (comparator : Slice → Slice → Ordering) (b : WriteBatch) (m : MemTable) (draws : ℕ → List Bool) :
    Option (MemTable × Status) :=
  (m.addAll comparator ((b.Iterate (GetSequence b)).1.mapIdx fun i a => (draws i, a))).map fun m =>
    (m, (b.Iterate (GetSequence b)).2)

end WriteBatchInternal

/-! ### Operations -/

inductive BatchOp where
  | Put (key value : Slice)
  | Delete (key : Slice)
deriving DecidableEq

namespace BatchOp

/-- The call of `MemTable::Add` for the operation. -/
def write (seq : UInt64) : BatchOp → Write
  | Put key value => ⟨seq, .kTypeValue, key, value⟩
  | Delete key => ⟨seq, .kTypeDeletion, key, []⟩

/-- The calls for operations with the sequence numbers from `seq` on. -/
def writes : UInt64 → List BatchOp → List Write
  | _, [] => []
  | seq, op :: ops => op.write seq :: writes (seq + 1) ops

def apply (b : WriteBatch) : BatchOp → WriteBatch
  | Put key value => b.Put key value
  | Delete key => b.Delete key

def encode : BatchOp → Slice
  | Put key value => tagByte .kTypeValue :: (PutLengthPrefixedSlice key ++ PutLengthPrefixedSlice value)
  | Delete key => tagByte .kTypeDeletion :: PutLengthPrefixedSlice key

/-- The lengths are those of 32 bits. -/
def Fits : BatchOp → Prop
  | Put key value => key.length < 2 ^ 32 ∧ value.length < 2 ^ 32
  | Delete key => key.length < 2 ^ 32

instance : (op : BatchOp) → Decidable op.Fits
  | Put _ _ => inferInstanceAs (Decidable (_ ∧ _))
  | Delete _ => inferInstanceAs (Decidable (_ < _))

end BatchOp

open BatchOp (writes)

theorem getElem?_writes (seq : UInt64) (ops : List BatchOp) (i : ℕ) :
    (writes seq ops)[i]? = ops[i]?.map (BatchOp.write (seq + UInt64.ofNat i)) := by
  induction ops generalizing seq i with
  | nil => rfl
  | cons op ops ih =>
    cases i with
    | zero => simp [writes]
    | succ i =>
      have hseq : seq + 1 + UInt64.ofNat i = seq + UInt64.ofNat (i + 1) := by
        rw [UInt64.ofNat_add, UInt64.add_assoc, UInt64.add_comm 1]
        rfl
      rw [writes, List.getElem?_cons_succ, List.getElem?_cons_succ, ih, hseq]

/-! ### What is built -/

namespace WriteBatch

open WriteBatchInternal

/-- The batch of some operations. -/
def build (ops : List BatchOp) : WriteBatch := ops.foldl BatchOp.apply .new

/-- Batches put together behind another one. -/
def appendAll (dst : WriteBatch) : List WriteBatch → Option WriteBatch
  | [] => some dst
  | src :: srcs => (append dst src).bind fun dst => appendAll dst srcs

/-- The batch holds the operations: their number in the header and their encodings in the body. -/
def Holds (b : WriteBatch) (seq : UInt64) (ops : List BatchOp) : Prop :=
  b.rep = EncodeFixed64 seq ++ (EncodeFixed32 (UInt32.ofNat ops.length) ++ ops.flatMap BatchOp.encode)

variable {b b' : WriteBatch} {seq seq' : UInt64} {ops ops' : List BatchOp}

theorem Holds.count (h : b.Holds seq ops) : Count b = (UInt32.ofNat ops.length).toInt32 := by
  have hdrop : b.rep.drop 8 = EncodeFixed32 (UInt32.ofNat ops.length) ++ ops.flatMap BatchOp.encode := by
    rw [h]
    rfl
  rw [Count, hdrop, decodeFixed32_append]

theorem Holds.drop (h : b.Holds seq ops) : b.rep.drop kHeader = ops.flatMap BatchOp.encode := by
  rw [h]
  rfl

theorem Holds.setCount (h : b.Holds seq ops) (n : Int32) :
    (SetCount b n).rep = EncodeFixed64 seq ++ (EncodeFixed32 n.toUInt32 ++ ops.flatMap BatchOp.encode) := by
  have htake : b.rep.take 8 = EncodeFixed64 seq := by
    rw [h]
    rfl
  rw [SetCount, htake, h.drop]

theorem Holds.length (h : b.Holds seq ops) : kHeader ≤ b.rep.length := by
  rw [h]
  simp only [List.length_append, length_encodeFixed64, length_encodeFixed32, kHeader]
  omega

theorem new_holds : new.Holds 0 [] := rfl

theorem Holds.setSequence (h : b.Holds seq ops) (n : UInt64) : (SetSequence b n).Holds n ops := by
  have hdrop : b.rep.drop 8 = EncodeFixed32 (UInt32.ofNat ops.length) ++ ops.flatMap BatchOp.encode := by
    rw [h]
    rfl
  rw [Holds, SetSequence, hdrop]

/-- Counts are added as 32 bits. -/
private theorem toUInt32_count (m n : ℕ) :
    ((UInt32.ofNat m).toInt32 + (UInt32.ofNat n).toInt32).toUInt32 = UInt32.ofNat (m + n) := by
  rw [Int32.toUInt32_add, UInt32.toUInt32_toInt32, UInt32.toUInt32_toInt32, UInt32.ofNat_add]

theorem Holds.apply (h : b.Holds seq ops) (op : BatchOp) : (op.apply b).Holds seq (ops ++ [op]) := by
  have hcount : (Count b + 1).toUInt32 = UInt32.ofNat (ops ++ [op]).length := by
    rw [h.count, List.length_append]
    exact toUInt32_count ops.length 1
  have hrep := h.setCount (Count b + 1)
  rw [hcount] at hrep
  cases op with
  | Put key value => simp [Holds, BatchOp.apply, Put, hrep, BatchOp.encode]
  | Delete key => simp [Holds, BatchOp.apply, Delete, hrep, BatchOp.encode]

theorem Holds.foldl (h : b.Holds seq ops) (ops' : List BatchOp) :
    (ops'.foldl BatchOp.apply b).Holds seq (ops ++ ops') := by
  induction ops' generalizing b ops with
  | nil => simpa using h
  | cons op ops' ih => simpa using ih (h.apply op)

theorem build_holds (ops : List BatchOp) : (build ops).Holds 0 ops := new_holds.foldl ops

/-- `append` adds the counts and drops the header of the second batch. -/
theorem Holds.append (h : b.Holds seq ops) (h' : b'.Holds seq' ops') :
    ∃ dst, WriteBatchInternal.append b b' = some dst ∧ dst.Holds seq (ops ++ ops') := by
  refine ⟨_, if_pos h'.length, ?_⟩
  rw [Holds, h.setCount, h.count, h'.count, toUInt32_count, h'.drop]
  simp

theorem Holds.appendAll (h : b.Holds seq ops) (groups : List (List BatchOp)) :
    ∃ dst, b.appendAll (groups.map build) = some dst ∧ dst.Holds seq (ops ++ groups.flatten) := by
  induction groups generalizing b ops with
  | nil => exact ⟨b, rfl, by simpa using h⟩
  | cons group groups ih =>
    obtain ⟨dst, hdst, hholds⟩ := h.append (build_holds group)
    obtain ⟨last, hlast, hlastholds⟩ := ih hholds
    refine ⟨last, ?_, by simpa using hlastholds⟩
    rw [List.map_cons, WriteBatch.appendAll, hdst, Option.bind_some, hlast]

/-! ### What is read -/

/-- The bytes are read to their end as the operations. -/
inductive Decodes : Slice → List BatchOp → Prop where
  | nil : Decodes [] []
  | put {input input' input'' key value : Slice} {ops : List BatchOp}
      (hkey : GetLengthPrefixedSlice input = some (key, input'))
      (hvalue : GetLengthPrefixedSlice input' = some (value, input'')) (hrest : Decodes input'' ops) :
      Decodes (tagByte .kTypeValue :: input) (.Put key value :: ops)
  | delete {input input' key : Slice} {ops : List BatchOp} (hkey : GetLengthPrefixedSlice input = some (key, input'))
      (hrest : Decodes input' ops) : Decodes (tagByte .kTypeDeletion :: input) (.Delete key :: ops)

theorem decodes_encode (h : ∀ op ∈ ops, op.Fits) : Decodes (ops.flatMap BatchOp.encode) ops := by
  induction ops with
  | nil => exact .nil
  | cons op ops ih =>
    have ih := ih fun op hop => h op (List.mem_cons_of_mem _ hop)
    have hop := h op (List.mem_cons_self ..)
    rw [List.flatMap_cons]
    cases op with
    | Put key value =>
      have hkey :=
        (reads_lengthPrefixedSlice hop.1).whole (PutLengthPrefixedSlice value ++ ops.flatMap BatchOp.encode)
      have hvalue := (reads_lengthPrefixedSlice hop.2).whole (ops.flatMap BatchOp.encode)
      rw [BatchOp.encode, List.cons_append, List.append_assoc]
      exact .put hkey hvalue ih
    | Delete key =>
      have hkey := (reads_lengthPrefixedSlice hop).whole (ops.flatMap BatchOp.encode)
      rw [BatchOp.encode, List.cons_append]
      exact .delete hkey ih

private theorem iterateFrom_put {count found : Int32} {sequence : UInt64} {input input' input'' key value : Slice}
    (hkey : GetLengthPrefixedSlice input = some (key, input'))
    (hvalue : GetLengthPrefixedSlice input' = some (value, input'')) :
    iterateFrom count (tagByte .kTypeValue :: input) sequence found =
      (⟨sequence, .kTypeValue, key, value⟩ :: (iterateFrom count input'' (sequence + 1) (found + 1)).1,
        (iterateFrom count input'' (sequence + 1) (found + 1)).2) := by
  rw [iterateFrom, if_pos rfl]
  split
  · rename_i _ _ heq
    obtain ⟨rfl, rfl⟩ := Prod.mk.inj (Option.some.inj (hkey.symm.trans heq))
    split
    · rename_i _ _ heq'
      obtain ⟨rfl, rfl⟩ := Prod.mk.inj (Option.some.inj (hvalue.symm.trans heq'))
      rfl
    · rename_i hnone
      exact absurd (hnone.symm.trans hvalue) nofun
  · rename_i hnone
    exact absurd (hnone.symm.trans hkey) nofun

private theorem iterateFrom_delete {count found : Int32} {sequence : UInt64} {input input' key : Slice}
    (hkey : GetLengthPrefixedSlice input = some (key, input')) :
    iterateFrom count (tagByte .kTypeDeletion :: input) sequence found =
      (⟨sequence, .kTypeDeletion, key, []⟩ :: (iterateFrom count input' (sequence + 1) (found + 1)).1,
        (iterateFrom count input' (sequence + 1) (found + 1)).2) := by
  rw [iterateFrom, if_neg (by decide), if_pos rfl]
  split
  · rename_i _ _ heq
    obtain ⟨rfl, rfl⟩ := Prod.mk.inj (Option.some.inj (hkey.symm.trans heq))
    rfl
  · rename_i hnone
    exact absurd (hnone.symm.trans hkey) nofun

/-- The loop goes through the operations and compares their number. -/
theorem iterateFrom_of_decodes {input : Slice} (h : Decodes input ops) (count : Int32) (sequence : UInt64)
    (found : Int32) : iterateFrom count input sequence found = (writes sequence ops,
      if found + Int32.ofNat ops.length ≠ count then .Corruption "WriteBatch has wrong Count" else .OK) := by
  have hsucc : ∀ (found : Int32) (n : ℕ), found + 1 + Int32.ofNat n = found + Int32.ofNat (n + 1) := by
    intro found n
    rw [Int32.ofNat_add, Int32.add_assoc, Int32.add_comm 1]
    rfl
  induction h generalizing sequence found with
  | nil => simp [iterateFrom, writes]
  | put hkey hvalue _ ih =>
    rw [iterateFrom_put hkey hvalue, ih, hsucc]
    rfl
  | delete hkey _ ih =>
    rw [iterateFrom_delete hkey, ih, hsucc]
    rfl

/-- The contents of a batch are read to their end as as many operations as its header says. -/
def Accepts (rep : Slice) (ops : List BatchOp) : Prop :=
  kHeader ≤ rep.length ∧ Decodes (rep.drop kHeader) ops ∧ Int32.ofNat ops.length = Count ⟨rep⟩

theorem iterate_of_accepts {rep : Slice} (h : Accepts rep ops) (sequence : UInt64) :
    Iterate ⟨rep⟩ sequence = (writes sequence ops, .OK) := by
  obtain ⟨hlength, hdecodes, hcount⟩ := h
  rw [Iterate, if_neg (Nat.not_lt.2 hlength), iterateFrom_of_decodes hdecodes, Int32.zero_add,
    if_neg (not_not_intro hcount)]

theorem Holds.accepts (h : b.Holds seq ops) (hfits : ∀ op ∈ ops, op.Fits) : Accepts b.rep ops := by
  refine ⟨h.length, ?_, ?_⟩
  · rw [h.drop]
    exact decodes_encode hfits
  · rw [h.count]
    rfl

end WriteBatch

end RedisDb
