import SwissArmyKnife.RedisDb.EditCoding

/-!
# Decoding version edits

An edit is a sequence of fields.  `EncodeTo` writes the encodings of the fields (`encodeTo_eq`), and `DecodeFrom` adds
the fields that it reads to the edit that `clear` leaves (`decodeFrom_fields`); an input that ends inside a field is a
corruption (`decodeFrom_cut`).  Since `clear` keeps the compaction pointers, decoding inverts encoding just when the
target has none and no slice is too long for its length prefix (`inverts_iff`).
-/

namespace RedisDb.Encoded

open Readers (Reads)

namespace VersionEdit

/-! ### Fields -/

/-- A part of an edit that is encoded with a tag of its own. -/
inductive Field where
  | comparator (name : Slice)
  | logNumber (num : UInt64)
  | prevLogNumber (num : UInt64)
  | nextFile (num : UInt64)
  | lastSequence (seq : UInt64)
  | compactPointer (p : ℕ × InternalKey)
  | deletedFile (d : ℕ × UInt64)
  | newFile (f : ℕ × FileMetaData)

namespace Field

def tag : Field → Tag
  | .comparator _ => .kComparator
  | .logNumber _ => .kLogNumber
  | .prevLogNumber _ => .kPrevLogNumber
  | .nextFile _ => .kNextFileNumber
  | .lastSequence _ => .kLastSequence
  | .compactPointer _ => .kCompactPointer
  | .deletedFile _ => .kDeletedFile
  | .newFile _ => .kNewFile

/-- What follows the tag. -/
def payload : Field → Slice
  | .comparator name => PutLengthPrefixedSlice name
  | .logNumber num | .prevLogNumber num | .nextFile num | .lastSequence num => EncodeVarint64 num
  | .compactPointer p => EncodeVarint32 (UInt32.ofNat p.1) ++ PutLengthPrefixedSlice p.2.rep
  | .deletedFile d => EncodeVarint32 (UInt32.ofNat d.1) ++ EncodeVarint64 d.2
  | .newFile f => EncodeVarint32 (UInt32.ofNat f.1) ++ (EncodeVarint64 f.2.number ++ (EncodeVarint64 f.2.filesize ++
      (PutLengthPrefixedSlice f.2.smallest.rep ++ PutLengthPrefixedSlice f.2.largest.rep)))

def bytes (f : Field) : Slice := EncodeVarint32 f.tag.toUInt32 ++ f.payload

/-- The level is a level, and the lengths fit their prefixes. -/
def Ok : Field → Prop
  | .comparator name => name.length < 2 ^ 32
  | .logNumber _ | .prevLogNumber _ | .nextFile _ | .lastSequence _ => True
  | .compactPointer p => p.1 < kNumLevels ∧ p.2.rep.length < 2 ^ 32
  | .deletedFile d => d.1 < kNumLevels
  | .newFile f => f.1 < kNumLevels ∧ f.2.smallest.rep.length < 2 ^ 32 ∧ f.2.largest.rep.length < 2 ^ 32

end Field

/-- The edit with a field that was read. -/
def add (e : VersionEdit) : Field → VersionEdit
  | .comparator name => { e with comparator := name, hascomparator := true }
  | .logNumber num => { e with lognumber := num, haslognumber := true }
  | .prevLogNumber num => { e with prevlognumber := num, hasprevlognumber := true }
  | .nextFile num => { e with nextfilenumber := num, hasnextfilenumber := true }
  | .lastSequence seq => { e with lastsequence := seq, haslastsequence := true }
  | .compactPointer p => { e with compactpointers := e.compactpointers ++ [p] }
  | .deletedFile d => { e with deletedfiles := e.deletedfiles.put (toLex d) () }
  | .newFile f => { e with newfiles := e.newfiles ++ [f] }

/-- The fields of the edit that come before the compaction pointers. -/
def header (e : VersionEdit) : List Field :=
  (if e.hascomparator then [.comparator e.comparator] else []) ++
  ((if e.haslognumber then [.logNumber e.lognumber] else []) ++
  ((if e.hasprevlognumber then [.prevLogNumber e.prevlognumber] else []) ++
  ((if e.hasnextfilenumber then [.nextFile e.nextfilenumber] else []) ++
  (if e.haslastsequence then [.lastSequence e.lastsequence] else []))))

/-- The fields in the order in which they are encoded. -/
def fields (e : VersionEdit) : List Field :=
  e.header ++ (e.compactpointers.map .compactPointer ++
    (e.deletedfiles.entries.map (fun d => .deletedFile (ofLex d.1)) ++ e.newfiles.map .newFile))

/-- No key is empty. -/
structure KeysOk (e : VersionEdit) : Prop where
  compactpointers : ∀ p ∈ e.compactpointers, p.2.rep ≠ []
  newfiles : ∀ f ∈ e.newfiles, f.2.smallest.rep ≠ [] ∧ f.2.largest.rep ≠ []

private theorem mapM_of_forall {β : Type} {f : β → Option Slice} {g : β → Slice} {l : List β}
    (h : ∀ x ∈ l, f x = some (g x)) : l.mapM f = some (l.map g) := by
  induction l with
  | nil => rfl
  | cons x l ih =>
    rw [List.mapM_cons, h x (List.mem_cons_self ..), ih fun y hy => h y (List.mem_cons_of_mem _ hy)]
    rfl

theorem encodeTo_eq {e : VersionEdit} (h : e.KeysOk) : e.EncodeTo = some (e.fields.map Field.bytes).flatten := by
  have hpointers : e.compactpointers.mapM encodeCompactPointer =
      some (e.compactpointers.map fun p => (Field.compactPointer p).bytes) := by
    apply mapM_of_forall
    intro p hp
    rw [encodeCompactPointer, InternalKey.Encode, if_pos (h.compactpointers p hp)]
    rfl
  have hfiles : e.newfiles.mapM encodeNewFile = some (e.newfiles.map fun f => (Field.newFile f).bytes) := by
    apply mapM_of_forall
    intro f hf
    have hkeys := h.newfiles f hf
    rw [encodeNewFile, InternalKey.Encode, InternalKey.Encode, if_pos hkeys.1, if_pos hkeys.2]
    rfl
  have hcomparator : ((if e.hascomparator then [Field.comparator e.comparator] else []).map Field.bytes).flatten =
      if e.hascomparator then EncodeVarint32 Tag.kComparator.toUInt32 ++ PutLengthPrefixedSlice e.comparator else
        [] := by
    split <;> simp [Field.bytes, Field.tag, Field.payload]
  have hnumber : ∀ (has : Bool) (f : Field) (num : UInt64), f.payload = EncodeVarint64 num →
      ((if has then [f] else []).map Field.bytes).flatten = encodeNumber has f.tag num := by
    intro has f num hf
    rw [encodeNumber]
    split <;> simp [Field.bytes, hf]
  rw [EncodeTo, hpointers, hfiles]
  simp only [Option.bind_eq_bind, Option.bind_some, fields, header, List.map_append, List.flatten_append, hcomparator,
    hnumber _ (.logNumber e.lognumber) _ rfl, hnumber _ (.prevLogNumber e.prevlognumber) _ rfl,
    hnumber _ (.nextFile e.nextfilenumber) _ rfl, hnumber _ (.lastSequence e.lastsequence) _ rfl, List.map_map,
    List.append_assoc]
  rfl

/-! ### Reading a field -/

theorem reads_level {level : ℕ} (h : level < kNumLevels) :
    Reads getLevel (EncodeVarint32 (UInt32.ofNat level)) level := by
  have hlevel : (UInt32.ofNat level).toNat = level := toNat_ofNat_of_lt (h.trans (by decide))
  exact (reads_varint32 _).filterMap (f := fun v : UInt32 => if v.toNat < kNumLevels then some v.toNat else none)
    (by rw [hlevel, if_pos h])

theorem reads_internalKey {key : InternalKey} (h : key.rep.length < 2 ^ 32) :
    Reads getInternalKey (PutLengthPrefixedSlice key.rep) key :=
  (reads_lengthPrefixedSlice h).map InternalKey.mk

private theorem toOption_store {β : Type} (read : Option (β × Slice)) (msg : String) (set : β → VersionEdit) :
    (store read msg set).toOption = read.map fun r => (set r.1, r.2) := by
  cases read <;> rfl

/-- A tag and its field. -/
def readField (e : VersionEdit) (input : Slice) : Option (VersionEdit × Slice) :=
  (GetVarint32 input).bind fun r => (decodeField e r.1 r.2).toOption

private theorem reads_payload (e : VersionEdit) {f : Field} (h : f.Ok) :
    Reads (fun input => (decodeField e f.tag.toUInt32 input).toOption) f.payload (e.add f) := by
  cases f with
  | comparator name =>
    refine ((reads_lengthPrefixedSlice h).map fun str => e.add (.comparator str)).congr fun input => ?_
    rw [decodeField, Tag.ofUInt32_toUInt32]
    exact toOption_store _ _ _
  | logNumber num =>
    refine ((reads_varint64 num).map fun num => e.add (.logNumber num)).congr fun input => ?_
    rw [decodeField, Tag.ofUInt32_toUInt32]
    exact toOption_store _ _ _
  | prevLogNumber num =>
    refine ((reads_varint64 num).map fun num => e.add (.prevLogNumber num)).congr fun input => ?_
    rw [decodeField, Tag.ofUInt32_toUInt32]
    exact toOption_store _ _ _
  | nextFile num =>
    refine ((reads_varint64 num).map fun num => e.add (.nextFile num)).congr fun input => ?_
    rw [decodeField, Tag.ofUInt32_toUInt32]
    exact toOption_store _ _ _
  | lastSequence seq =>
    refine ((reads_varint64 seq).map fun seq => e.add (.lastSequence seq)).congr fun input => ?_
    rw [decodeField, Tag.ofUInt32_toUInt32]
    exact toOption_store _ _ _
  | compactPointer p =>
    have hread : Reads getCompactPointer (Field.compactPointer p).payload p :=
      (reads_level h.1).pair (reads_internalKey h.2)
    refine (hread.map fun p => e.add (.compactPointer p)).congr fun input => ?_
    rw [decodeField, Tag.ofUInt32_toUInt32]
    exact toOption_store _ _ _
  | deletedFile d =>
    have hread : Reads getDeletedFile (Field.deletedFile d).payload d :=
      (reads_level h).pair (reads_varint64 d.2)
    refine (hread.map fun d => e.add (.deletedFile d)).congr fun input => ?_
    rw [decodeField, Tag.ofUInt32_toUInt32]
    exact toOption_store _ _ _
  | newFile f =>
    have hread : Reads getNewFile (Field.newFile f).payload f :=
      ((reads_level h.1).pair ((reads_varint64 f.2.number).pair ((reads_varint64 f.2.filesize).pair
        ((reads_internalKey h.2.1).pair (reads_internalKey h.2.2))))).map
          fun r : ℕ × UInt64 × UInt64 × InternalKey × InternalKey =>
            (r.1, (⟨r.2.1, r.2.2.1, r.2.2.2.1, r.2.2.2.2⟩ : FileMetaData))
    refine (hread.map fun f => e.add (.newFile f)).congr fun input => ?_
    rw [decodeField, Tag.ofUInt32_toUInt32]
    exact toOption_store _ _ _

theorem reads_field (e : VersionEdit) {f : Field} (h : f.Ok) : Reads (readField e) f.bytes (e.add f) :=
  (reads_varint32 f.tag.toUInt32).bind (fun tag input => (decodeField e tag input).toOption) (reads_payload e h)

theorem Field.bytes_ne_nil (f : Field) : f.bytes ≠ [] := by
  simp [bytes, encodeVarint32_ne_nil]

/-! ### The loop -/

theorem decodeLoop_of_readField {e e' : VersionEdit} {input rest : Slice} (h : readField e input = some (e', rest)) :
    decodeLoop e input = decodeLoop e' rest := by
  obtain ⟨⟨tag, input'⟩, htag, hfield⟩ := Option.bind_eq_some_iff.1 h
  rw [decodeLoop]
  split
  · rename_i hnone
    rw [htag] at hnone
    cases hnone
  · rename_i tag₁ rest₁ hsome
    obtain ⟨rfl, rfl⟩ := Prod.mk.inj (Option.some.inj (htag.symm.trans hsome))
    split
    · rename_i msg herror
      rw [herror] at hfield
      cases hfield
    · rename_i e₁ rest₁ hok
      rw [hok] at hfield
      obtain ⟨rfl, rfl⟩ := Prod.mk.inj (Option.some.inj hfield)
      rfl

theorem decodeLoop_nil (e : VersionEdit) : decodeLoop e [] = (e, none, []) := by
  rw [decodeLoop]
  rfl

/-- The fields are added in order. -/
theorem decodeLoop_fields {fs : List Field} (h : ∀ f ∈ fs, f.Ok) (e : VersionEdit) (rest : Slice) :
    decodeLoop e ((fs.map Field.bytes).flatten ++ rest) = decodeLoop (fs.foldl add e) rest := by
  induction fs generalizing e with
  | nil => rfl
  | cons f fs ih =>
    rw [List.map_cons, List.flatten_cons, List.append_assoc,
      decodeLoop_of_readField ((reads_field e (h f (List.mem_cons_self ..))).whole _),
      ih fun f' hf' => h f' (List.mem_cons_of_mem _ hf'), List.foldl_cons]

theorem decodeFrom_fields {fs : List Field} (h : ∀ f ∈ fs, f.Ok) (t : VersionEdit) :
    t.DecodeFrom (fs.map Field.bytes).flatten = (fs.foldl add t.clear, .OK) := by
  have hloop := decodeLoop_fields h t.clear []
  rw [List.append_nil, decodeLoop_nil] at hloop
  simp [DecodeFrom, hloop]

/-- An input that goes on with something that is no field is a corruption. -/
theorem decodeFrom_of_readField_none {fs : List Field} (h : ∀ f ∈ fs, f.Ok) (t : VersionEdit) {q : Slice}
    (hne : q ≠ []) (hq : readField (fs.foldl add t.clear) q = none) :
    ∃ msg, (t.DecodeFrom ((fs.map Field.bytes).flatten ++ q)).2 = .Corruption ("VersionEdit: " ++ msg) := by
  have hloop : (decodeLoop (fs.foldl add t.clear) q).2.1 = none ∧ (decodeLoop (fs.foldl add t.clear) q).2.2 = q ∨
      ∃ msg, (decodeLoop (fs.foldl add t.clear) q).2.1 = some msg := by
    rw [decodeLoop]
    split
    · exact Or.inl ⟨rfl, rfl⟩
    · rename_i tag rest htag
      rw [readField, htag, Option.bind_some] at hq
      split
      · rename_i msg herror
        exact Or.inr ⟨msg, rfl⟩
      · rename_i e' rest' hok
        rw [hok] at hq
        cases hq
  rw [DecodeFrom, decodeLoop_fields h]
  rcases hloop with ⟨hmsg, hinput⟩ | ⟨msg, hmsg⟩
  · exact ⟨"invalid tag", by simp [hmsg, hinput, hne]⟩
  · exact ⟨msg, by simp [hmsg]⟩

/-- So is one that ends inside a field. -/
theorem decodeFrom_cut {fs : List Field} (h : ∀ f ∈ fs, f.Ok) (t : VersionEdit) {f : Field} (hf : f.Ok) {q : Slice}
    (hq : q <+: f.bytes) (hcut : q ≠ f.bytes) (hne : q ≠ []) :
    ∃ msg, (t.DecodeFrom ((fs.map Field.bytes).flatten ++ q)).2 = .Corruption ("VersionEdit: " ++ msg) :=
  decodeFrom_of_readField_none h t hne ((reads_field _ hf).cut q hq hcut)

/-! ### Edits built by calls -/

inductive Call where
  | SetComparatorName (name : Slice)
  | SetLogNumber (num : UInt64)
  | SetPrevLogNumber (num : UInt64)
  | SetNextFile (num : UInt64)
  | SetLastSequence (seq : UInt64)
  | SetCompactPointer (level : ℕ) (key : InternalKey)
  | AddFile (level : ℕ) (file filesize : UInt64) (smallest largest : InternalKey)
  | DeleteFile (level : ℕ) (file : UInt64)

def apply (e : VersionEdit) : Call → VersionEdit
  | .SetComparatorName name => e.SetComparatorName name
  | .SetLogNumber num => e.SetLogNumber num
  | .SetPrevLogNumber num => e.SetPrevLogNumber num
  | .SetNextFile num => e.SetNextFile num
  | .SetLastSequence seq => e.SetLastSequence seq
  | .SetCompactPointer level key => e.SetCompactPointer level key
  | .AddFile level file filesize smallest largest => e.AddFile level file filesize smallest largest
  | .DeleteFile level file => e.DeleteFile level file

/-- The edit after a sequence of calls. -/
def built (calls : List Call) : VersionEdit := calls.foldl apply new

/-- The level is a level, and no key is empty. -/
def Call.Ok : Call → Prop
  | .SetCompactPointer level key => level < kNumLevels ∧ key.rep ≠ []
  | .AddFile level _ _ smallest largest => level < kNumLevels ∧ smallest.rep ≠ [] ∧ largest.rep ≠ []
  | .DeleteFile level _ => level < kNumLevels
  | _ => True

/-- What holds of an edit that was built by calls. -/
structure Built (e : VersionEdit) : Prop where
  comparator : e.hascomparator = false → e.comparator = []
  lognumber : e.haslognumber = false → e.lognumber = 0
  prevlognumber : e.hasprevlognumber = false → e.prevlognumber = 0
  nextfilenumber : e.hasnextfilenumber = false → e.nextfilenumber = 0
  lastsequence : e.haslastsequence = false → e.lastsequence = 0
  compactpointers : ∀ p ∈ e.compactpointers, p.1 < kNumLevels ∧ p.2.rep ≠ []
  deletedfiles : ∀ d ∈ e.deletedfiles.entries, (ofLex d.1).1 < kNumLevels
  newfiles : ∀ f ∈ e.newfiles, f.1 < kNumLevels ∧ f.2.smallest.rep ≠ [] ∧ f.2.largest.rep ≠ []

theorem Built.apply {e : VersionEdit} (h : e.Built) {c : Call} (hc : c.Ok) : (e.apply c).Built := by
  cases c with
  | SetComparatorName name => exact { h with comparator := by rintro ⟨⟩ }
  | SetLogNumber num => exact { h with lognumber := by rintro ⟨⟩ }
  | SetPrevLogNumber num => exact { h with prevlognumber := by rintro ⟨⟩ }
  | SetNextFile num => exact { h with nextfilenumber := by rintro ⟨⟩ }
  | SetLastSequence seq => exact { h with lastsequence := by rintro ⟨⟩ }
  | SetCompactPointer level key =>
    refine { h with compactpointers := fun p hp => ?_ }
    rcases List.mem_append.1 hp with hp | hp
    · exact h.compactpointers p hp
    · rw [List.mem_singleton.1 hp]
      exact hc
  | AddFile level file filesize smallest largest =>
    refine { h with newfiles := fun f hf => ?_ }
    rcases List.mem_append.1 hf with hf | hf
    · exact h.newfiles f hf
    · rw [List.mem_singleton.1 hf]
      exact hc
  | DeleteFile level file =>
    refine { h with deletedfiles := fun d hd => ?_ }
    rcases SortedMap.mem_put.1 hd with rfl | ⟨hd, -⟩
    · exact hc
    · exact h.deletedfiles d hd

theorem built_built {calls : List Call} (h : ∀ c ∈ calls, c.Ok) : (built calls).Built := by
  have hfold : ∀ e : VersionEdit, e.Built → (calls.foldl apply e).Built := by
    induction calls with
    | nil => exact fun e he => he
    | cons c calls ih =>
      intro e he
      exact ih (fun c' hc' => h c' (List.mem_cons_of_mem _ hc')) _ (he.apply (h c (List.mem_cons_self ..)))
  apply hfold
  constructor <;> simp [new, clear, SortedMap.empty]

theorem Built.keysOk {e : VersionEdit} (h : e.Built) : e.KeysOk where
  compactpointers p hp := (h.compactpointers p hp).2
  newfiles f hf := (h.newfiles f hf).2

/-- The comparator name and the keys fit their length prefixes. -/
structure Short (e : VersionEdit) : Prop where
  comparator : e.comparator.length < 2 ^ 32
  compactpointers : ∀ p ∈ e.compactpointers, p.2.rep.length < 2 ^ 32
  newfiles : ∀ f ∈ e.newfiles, f.2.smallest.rep.length < 2 ^ 32 ∧ f.2.largest.rep.length < 2 ^ 32

theorem ok_of_mem_header {e : VersionEdit} (h : e.comparator.length < 2 ^ 32) : ∀ f ∈ e.header, f.Ok := by
  intro f hf
  simp only [header, List.mem_append] at hf
  rcases hf with hf | hf | hf | hf | hf <;> split at hf <;> simp only [List.mem_singleton, List.not_mem_nil] at hf <;>
    subst hf
  · exact h
  all_goals trivial

theorem Built.ok_of_mem_fields {e : VersionEdit} (h : e.Built) (hshort : e.Short) : ∀ f ∈ e.fields, f.Ok := by
  intro f hf
  simp only [fields, List.mem_append, List.mem_map] at hf
  rcases hf with hf | ⟨p, hp, rfl⟩ | ⟨d, hd, rfl⟩ | ⟨f, hf, rfl⟩
  · exact ok_of_mem_header hshort.comparator f hf
  · exact ⟨(h.compactpointers p hp).1, hshort.compactpointers p hp⟩
  · exact h.deletedfiles d hd
  · exact ⟨(h.newfiles f hf).1, hshort.newfiles f hf⟩

theorem foldl_add_compactPointers (e : VersionEdit) (l : List (ℕ × InternalKey)) :
    (l.map .compactPointer).foldl add e = { e with compactpointers := e.compactpointers ++ l } := by
  induction l generalizing e with
  | nil => simp
  | cons p l ih => simp [ih, add]

private theorem foldl_add_deletedFiles (e : VersionEdit) (l : List ((ℕ ×ₗ UInt64) × Unit)) :
    (l.map fun d => .deletedFile (ofLex d.1)).foldl add e =
      { e with deletedfiles := e.deletedfiles.write (l.map fun d => .Put d.1 d.2) } := by
  induction l generalizing e with
  | nil => rfl
  | cons d l ih =>
    rw [List.map_cons, List.foldl_cons, ih]
    rfl

private theorem foldl_add_newFiles (e : VersionEdit) (l : List (ℕ × FileMetaData)) :
    (l.map .newFile).foldl add e = { e with newfiles := e.newfiles ++ l } := by
  induction l generalizing e with
  | nil => simp
  | cons f l ih => simp [ih, add]

/-- The compaction pointers of the target stay in front. -/
theorem Built.foldl_add_fields {e : VersionEdit} (h : e.Built) (t : VersionEdit) :
    e.fields.foldl add t.clear = { e with compactpointers := t.compactpointers ++ e.compactpointers } := by
  have hheader : e.header.foldl add t.clear =
      { e with compactpointers := t.compactpointers, deletedfiles := .empty, newfiles := [] } := by
    obtain ⟨comparator, lognumber, prevlognumber, nextfilenumber, lastsequence, hascomparator, haslognumber,
      hasprevlognumber, hasnextfilenumber, haslastsequence, compactpointers, deletedfiles, newfiles⟩ := e
    obtain ⟨h1, h2, h3, h4, h5, -, -, -⟩ := h
    cases hascomparator <;> cases haslognumber <;> cases hasprevlognumber <;> cases hasnextfilenumber <;>
      cases haslastsequence <;> simp_all [header, add, clear]
  rw [fields, List.foldl_append, List.foldl_append, List.foldl_append, hheader, foldl_add_compactPointers,
    foldl_add_deletedFiles, foldl_add_newFiles]
  simp only [SortedMap.write_entries, List.nil_append]

/-- Decoding an encoding into `t`. -/
theorem Built.decodeFrom {e : VersionEdit} (h : e.Built) (hshort : e.Short) (t : VersionEdit) :
    t.DecodeFrom (e.fields.map Field.bytes).flatten =
      ({ e with compactpointers := t.compactpointers ++ e.compactpointers }, .OK) := by
  rw [decodeFrom_fields (h.ok_of_mem_fields hshort), h.foldl_add_fields]

/-! ### Decoding inverts encoding -/

/-- A beginning of the encoding that ends inside a field. -/
def CutsField (e : VersionEdit) (p : Slice) : Prop :=
  p <+: (e.fields.map Field.bytes).flatten ∧ ∀ n, p ≠ ((e.fields.take n).map Field.bytes).flatten

/-- The encoding of the edit is decoded to it in the target, and a beginning of the encoding that ends inside a field
is a corruption. -/
structure Inverts (e t : VersionEdit) : Prop where
  decodes : ∃ bytes, e.EncodeTo = some bytes ∧ t.DecodeFrom bytes = (e, .OK)
  cuts : ∀ p, CutsField e p → ∃ msg, (t.DecodeFrom p).2 = .Corruption msg

theorem Built.corruption_of_cutsField {e : VersionEdit} (h : e.Built) (hshort : e.Short) (t : VersionEdit) {p : Slice}
    (hp : CutsField e p) : ∃ msg, (t.DecodeFrom p).2 = .Corruption msg := by
  have hok := h.ok_of_mem_fields hshort
  obtain ⟨n, q, rfl, hq⟩ := Readers.exists_take_of_prefix hp.1
  rw [← List.map_take] at hp ⊢
  rcases hq with rfl | ⟨bytes, hbytes, hprefix, hcut, hne⟩
  · exact absurd (List.append_nil _) (hp.2 n)
  · rw [List.getElem?_map] at hbytes
    obtain ⟨f, hf, rfl⟩ := Option.map_eq_some_iff.1 hbytes
    obtain ⟨msg, hmsg⟩ := decodeFrom_cut (fun f' hf' => hok f' (List.mem_of_mem_take hf')) t
      (hok f (List.mem_of_getElem? hf)) hprefix hcut hne
    exact ⟨_, hmsg⟩

/-- The slices that are read fit their length prefixes. -/
theorem decodeLoop_short {e : VersionEdit} {input : Slice} (hcomparator : e.comparator.length < 2 ^ 32)
    (hfiles : ∀ f ∈ e.newfiles, f.2.smallest.rep.length < 2 ^ 32 ∧ f.2.largest.rep.length < 2 ^ 32) :
    (decodeLoop e input).1.comparator.length < 2 ^ 32 ∧ ∀ f ∈ (decodeLoop e input).1.newfiles,
      f.2.smallest.rep.length < 2 ^ 32 ∧ f.2.largest.rep.length < 2 ^ 32 := by
  induction hn : input.length using Nat.strong_induction_on generalizing e input with
  | _ n ih =>
    rw [decodeLoop]
    split
    · exact ⟨hcomparator, hfiles⟩
    · rename_i tag rest htag
      split
      · exact ⟨hcomparator, hfiles⟩
      · rename_i e' input' hfield
        obtain ⟨hlength, hcomparator', hfiles'⟩ := of_decodeField hfield
        have hrest := length_of_getVarint32 htag
        refine ih input'.length (by omega) ?_ ?_ rfl
        · rcases hcomparator' with heq | hlt
          · rwa [heq]
          · exact hlt
        · rcases hfiles' with heq | ⟨level, f, heq, hf⟩
          · rwa [heq]
          · intro f' hf'
            rw [heq] at hf'
            rcases List.mem_append.1 hf' with hf' | hf'
            · exact hfiles f' hf'
            · rw [List.mem_singleton.1 hf']
              exact hf

/-- A compaction pointer that is too long can be cut where its length prefix says that it ends. -/
theorem Built.exists_cutsField_ok {e : VersionEdit} (h : e.Built) (hcomparator : e.comparator.length < 2 ^ 32)
    {p : ℕ × InternalKey} (hp : p ∈ e.compactpointers) (hlong : ¬ p.2.rep.length < 2 ^ 32) (t : VersionEdit) :
    ∃ bytes, CutsField e bytes ∧ (t.DecodeFrom bytes).2 = .OK := by
  have hfind : (e.compactpointers.find? fun p => decide (¬ p.2.rep.length < 2 ^ 32)).isSome := by
    rw [List.find?_isSome]
    exact ⟨p, hp, by simpa using hlong⟩
  obtain ⟨⟨level, key⟩, hfirst⟩ := Option.isSome_iff_exists.1 hfind
  obtain ⟨hkey, before, after, heq, hbefore⟩ := List.find?_eq_some_iff_append.1 hfirst
  have hkey : 2 ^ 32 ≤ key.rep.length := by simpa using hkey
  have hlevel : level < kNumLevels := (h.compactpointers _ (heq ▸ List.mem_append_cons_self)).1
  -- the key as far as the length prefix says
  let short : InternalKey := ⟨key.rep.take (key.rep.length % 2 ^ 32)⟩
  have hshort : short.rep.length = key.rep.length % 2 ^ 32 := by
    simp only [short, List.length_take]
    omega
  have hbytes : (Field.compactPointer (level, key)).bytes =
      (Field.compactPointer (level, short)).bytes ++ key.rep.drop (key.rep.length % 2 ^ 32) := by
    have hprefix : UInt32.ofNat short.rep.length = UInt32.ofNat key.rep.length := by
      apply UInt32.toNat_inj.1
      rw [UInt32.toNat_ofNat', UInt32.toNat_ofNat', hshort]
      omega
    simp only [Field.bytes, Field.payload, PutLengthPrefixedSlice, hprefix, List.append_assoc, short,
      List.take_append_drop]
    rfl
  obtain ⟨front, hfront⟩ : ∃ front, front = e.header ++ before.map Field.compactPointer := ⟨_, rfl⟩
  obtain ⟨back, hfields⟩ : ∃ back, e.fields = front ++ Field.compactPointer (level, key) :: back := by
    rw [fields, heq]
    simp only [hfront, List.map_append, List.map_cons, List.append_assoc, List.cons_append]
    exact ⟨_, rfl⟩
  have hok : ∀ f ∈ front ++ [Field.compactPointer (level, short)], f.Ok := by
    intro f hf
    rcases List.mem_append.1 hf with hf | hf
    · rw [hfront] at hf
      rcases List.mem_append.1 hf with hf | hf
      · exact ok_of_mem_header hcomparator f hf
      · obtain ⟨q, hq, rfl⟩ := List.mem_map.1 hf
        exact ⟨(h.compactpointers q (heq ▸ List.mem_append_left _ hq)).1, by simpa using hbefore q hq⟩
    · rw [List.mem_singleton.1 hf]
      exact ⟨hlevel, by rw [hshort]; omega⟩
  have hcut : (Field.compactPointer (level, short)).bytes ≠ (Field.compactPointer (level, key)).bytes := by
    intro heq
    have hlength := congrArg List.length (heq.trans hbytes)
    rw [List.length_append, List.length_drop] at hlength
    omega
  have hprefix : (Field.compactPointer (level, short)).bytes <+: (Field.compactPointer (level, key)).bytes := by
    rw [hbytes]
    exact List.prefix_append ..
  refine ⟨(front.map Field.bytes).flatten ++ (Field.compactPointer (level, short)).bytes, ⟨?_, ?_⟩, ?_⟩
  · rw [hfields, List.map_append, List.flatten_append, List.map_cons, List.flatten_cons, List.prefix_append_right_inj]
    exact hprefix.trans (List.prefix_append ..)
  · intro n
    rw [hfields, List.map_take, List.map_append, List.map_cons]
    exact Readers.append_ne_flatten_take hprefix hcut (Field.bytes_ne_nil _) n
  · have hdecode := decodeFrom_fields hok t
    rw [List.map_append, List.flatten_append, List.map_singleton, List.flatten_singleton] at hdecode
    rw [hdecode]

/-- Decoding inverts encoding just when the target has no compaction pointers and no slice is too long. -/
theorem inverts_iff {calls : List Call} (hcalls : ∀ c ∈ calls, c.Ok) (t : VersionEdit) :
    Inverts (built calls) t ↔ t.compactpointers = [] ∧ (built calls).Short := by
  have hbuilt := built_built hcalls
  generalize built calls = e at hbuilt
  constructor
  · intro h
    obtain ⟨bytes, -, hdecode⟩ := h.decodes
    obtain ⟨hcomparator, hfiles⟩ := @decodeLoop_short t.clear bytes (by simp [clear]) (by simp [clear])
    have hloop : (decodeLoop t.clear bytes).1 = e := by
      rw [DecodeFrom] at hdecode
      simp only at hdecode
      split at hdecode <;> exact (Prod.mk.inj hdecode).1
    rw [hloop] at hcomparator hfiles
    have hshort : e.Short := by
      refine ⟨hcomparator, ?_, hfiles⟩
      intro p hp
      by_contra hlong
      obtain ⟨cut, hcut, hok⟩ := hbuilt.exists_cutsField_ok hcomparator hp hlong t
      obtain ⟨msg, hmsg⟩ := h.cuts cut hcut
      rw [hok] at hmsg
      cases hmsg
    refine ⟨?_, hshort⟩
    obtain ⟨bytes, hbytes, hdecode⟩ := h.decodes
    obtain rfl := Option.some.inj ((encodeTo_eq hbuilt.keysOk).symm.trans hbytes)
    rw [hbuilt.decodeFrom hshort] at hdecode
    have hpointers := congrArg VersionEdit.compactpointers (Prod.mk.inj hdecode).1
    simpa using hpointers
  · rintro ⟨ht, hshort⟩
    refine ⟨⟨_, encodeTo_eq hbuilt.keysOk, ?_⟩, fun p hp => hbuilt.corruption_of_cutsField hshort t hp⟩
    rw [hbuilt.decodeFrom hshort, ht, List.nil_append]

section Examples

/-- An edit that installs a table and forgets another one. -/
private def installTable : List Call :=
  [.SetComparatorName [108], .SetLogNumber 300, .SetCompactPointer 1 ⟨[97]⟩, .AddFile 2 7 4096 ⟨[97]⟩ ⟨[122]⟩,
    .DeleteFile 1 5]

theorem inverts_iff_installTable :
    (∀ c ∈ installTable, c.Ok) ∧ Inverts (built installTable) (new.SetLastSequence 12) := by
  have hok : ∀ c ∈ installTable, c.Ok := by simp [installTable, Call.Ok, kNumLevels]
  refine ⟨hok, (inverts_iff hok _).2 ⟨rfl, ⟨by decide, ?_, ?_⟩⟩⟩
  · simp [built, installTable, apply, new, clear, SetComparatorName, SetLogNumber, SetCompactPointer, AddFile,
      DeleteFile]
  · simp [built, installTable, apply, new, clear, SetComparatorName, SetLogNumber, SetCompactPointer, AddFile,
      DeleteFile]

/-- The compaction pointer that was in the target is still there. -/
theorem not_inverts_reusedTarget :
    ¬ Inverts (built [.SetCompactPointer 1 ⟨[98]⟩]) (new.SetCompactPointer 0 ⟨[97]⟩) := by
  intro h
  have hbuilt : (built [.SetCompactPointer 1 ⟨[98]⟩]).Built := built_built (by simp [Call.Ok, kNumLevels])
  have hshort : (built [.SetCompactPointer 1 ⟨[98]⟩]).Short :=
    ⟨by decide, by simp [built, apply, new, clear, SetCompactPointer],
      by simp [built, apply, new, clear, SetCompactPointer]⟩
  obtain ⟨bytes, hbytes, hdecode⟩ := h.decodes
  obtain rfl := Option.some.inj ((encodeTo_eq hbuilt.keysOk).symm.trans hbytes)
  rw [hbuilt.decodeFrom hshort] at hdecode
  have hpointers := congrArg VersionEdit.compactpointers (Prod.mk.inj hdecode).1
  simp [built, apply, new, clear, SetCompactPointer] at hpointers

end Examples

end VersionEdit
end RedisDb.Encoded
