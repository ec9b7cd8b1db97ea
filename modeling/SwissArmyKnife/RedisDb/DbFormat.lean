import Mathlib.Algebra.Ring.Nat
import Mathlib.Order.Lattice
import Mathlib.Tactic.Common
import Mathlib.Order.Defs.LinearOrder

/-!
# Internal keys

The keys of the tables: a user key with the sequence number of the write and the kind of write.  Internal keys are
ordered by increasing user key and, for one user key, by decreasing tag, so that newer entries come first.  User keys
are taken from any linear order, as the comparator is a parameter of the database.
-/

namespace RedisDb

/-- Number of levels. -/
def kNumLevels : ℕ := 7

/-- Level-0 compaction is started when there are this many files. -/
def kL0_CompactionTrigger : ℕ := 4

inductive ValueType where
  | kTypeDeletion
  | kTypeValue
deriving DecidableEq, Repr

def ValueType.toNat : ValueType → ℕ
  | .kTypeDeletion => 0
  | .kTypeValue => 1

def kValueTypeForSeek : ValueType := .kTypeValue

def kMaxSequenceNumber : ℕ := 2 ^ 56 - 1

def packSequenceAndType (seq : ℕ) (t : ValueType) : ℕ := seq * 2 ^ 8 + t.toNat

@[ext]
structure InternalKey (K : Type*) where
  userkey : K
  sequence : ℕ
  type : ValueType
deriving DecidableEq

variable {K V : Type*}

def InternalKey.tag (k : InternalKey K) : ℕ := packSequenceAndType k.sequence k.type

theorem ValueType.toNat_le (t : ValueType) : t.toNat ≤ 1 := by
  cases t <;> decide

theorem ValueType.toNat_injective {s t : ValueType} (h : s.toNat = t.toNat) : s = t := by
  cases s <;> cases t <;> simp_all [ValueType.toNat]

theorem InternalKey.tag_le_iff {a b : InternalKey K} :
    a.tag ≤ b.tag ↔ a.sequence < b.sequence ∨ a.sequence = b.sequence ∧ a.type.toNat ≤ b.type.toNat := by
  have ha := a.type.toNat_le
  have hb := b.type.toNat_le
  unfold InternalKey.tag packSequenceAndType
  omega

theorem InternalKey.ext_tag {a b : InternalKey K} (hkey : a.userkey = b.userkey) (htag : a.tag = b.tag) : a = b := by
  have hab := InternalKey.tag_le_iff.1 htag.le
  have hba := InternalKey.tag_le_iff.1 htag.ge
  have ht : a.type = b.type := ValueType.toNat_injective (by omega)
  exact InternalKey.ext hkey (by omega) ht

theorem InternalKey.tag_lt_of_sequence_lt {a b : InternalKey K} (h : a.sequence < b.sequence) : a.tag < b.tag := by
  have hle := InternalKey.tag_le_iff (a := b) (b := a)
  omega

theorem InternalKey.sequence_le_of_tag_le {a b : InternalKey K} (h : a.tag ≤ b.tag) : a.sequence ≤ b.sequence := by
  have := InternalKey.tag_le_iff.1 h
  omega

section Order

variable [LinearOrder K]

/-- Increasing user key, then decreasing tag. -/
def InternalKeyComparator.Compare (a b : InternalKey K) : Ordering :=
  match compare a.userkey b.userkey with
  | .eq => compare b.tag a.tag
  | r => r

instance : LE (InternalKey K) := ⟨fun a b => a.userkey < b.userkey ∨ a.userkey = b.userkey ∧ b.tag ≤ a.tag⟩

instance : LT (InternalKey K) := ⟨fun a b => a.userkey < b.userkey ∨ a.userkey = b.userkey ∧ b.tag < a.tag⟩

theorem InternalKey.le_iff {a b : InternalKey K} :
    a ≤ b ↔ a.userkey < b.userkey ∨ a.userkey = b.userkey ∧ b.tag ≤ a.tag := Iff.rfl

theorem InternalKey.lt_iff {a b : InternalKey K} :
    a < b ↔ a.userkey < b.userkey ∨ a.userkey = b.userkey ∧ b.tag < a.tag := Iff.rfl

instance InternalKey.decidableLE : DecidableLE (InternalKey K) := fun a b =>
  inferInstanceAs (Decidable (a.userkey < b.userkey ∨ a.userkey = b.userkey ∧ b.tag ≤ a.tag))

instance InternalKey.decidableLT : DecidableLT (InternalKey K) := fun a b =>
  inferInstanceAs (Decidable (a.userkey < b.userkey ∨ a.userkey = b.userkey ∧ b.tag < a.tag))

private theorem key_le_trans {a b c : InternalKey K} (hab : a ≤ b) (hbc : b ≤ c) : a ≤ c := by
  rw [InternalKey.le_iff] at *
  rcases hab with hab | ⟨hab, htab⟩ <;> rcases hbc with hbc | ⟨hbc, htbc⟩
  · exact Or.inl (hab.trans hbc)
  · exact Or.inl (hbc ▸ hab)
  · exact Or.inl (hab ▸ hbc)
  · exact Or.inr ⟨hab.trans hbc, Nat.le_trans htbc htab⟩

private theorem key_le_antisymm {a b : InternalKey K} (hab : a ≤ b) (hba : b ≤ a) : a = b := by
  rw [InternalKey.le_iff] at *
  rcases hab with hab | ⟨hab, htab⟩ <;> rcases hba with hba | ⟨hba, htba⟩
  · exact absurd hba hab.asymm
  · exact absurd hba hab.ne'
  · exact absurd hab hba.ne'
  · exact InternalKey.ext_tag hab (Nat.le_antisymm htba htab)

private theorem key_le_total (a b : InternalKey K) : a ≤ b ∨ b ≤ a := by
  simp only [InternalKey.le_iff]
  rcases lt_trichotomy a.userkey b.userkey with h | h | h
  · exact Or.inl (Or.inl h)
  · rcases Nat.le_total b.tag a.tag with ht | ht
    · exact Or.inl (Or.inr ⟨h, ht⟩)
    · exact Or.inr (Or.inr ⟨h.symm, ht⟩)
  · exact Or.inr (Or.inl h)

private theorem key_lt_iff_le_not_ge (a b : InternalKey K) : a < b ↔ a ≤ b ∧ ¬ b ≤ a := by
  rw [InternalKey.lt_iff, InternalKey.le_iff, InternalKey.le_iff]
  constructor
  · rintro (h | ⟨h, ht⟩)
    · exact ⟨Or.inl h, fun hba => hba.elim h.asymm fun hba => h.ne' hba.1⟩
    · exact ⟨Or.inr ⟨h, ht.le⟩, fun hba => hba.elim (h ▸ lt_irrefl _) fun hba => absurd hba.2 (Nat.not_le.2 ht)⟩
  · rintro ⟨h | ⟨h, ht⟩, hba⟩
    · exact Or.inl h
    · exact Or.inr ⟨h, Nat.lt_of_not_le fun hle => hba (Or.inr ⟨h.symm, hle⟩)⟩

instance : LinearOrder (InternalKey K) where
  le_refl a := Or.inr ⟨rfl, Nat.le_refl _⟩
  le_trans _ _ _ := key_le_trans
  le_antisymm _ _ := key_le_antisymm
  lt_iff_le_not_ge := key_lt_iff_le_not_ge
  le_total := key_le_total
  toDecidableLE := InternalKey.decidableLE
  toDecidableLT := InternalKey.decidableLT

theorem InternalKey.userkey_le {a b : InternalKey K} (h : a ≤ b) : a.userkey ≤ b.userkey := by
  rcases InternalKey.le_iff.1 h with h | h
  · exact h.le
  · exact h.1.le

theorem InternalKey.lt_of_userkey_lt {a b : InternalKey K} (h : a.userkey < b.userkey) : a < b :=
  InternalKey.lt_iff.2 (Or.inl h)

/-- For one user key, what comes first has the larger tag. -/
theorem InternalKey.lt_iff_tag {a b : InternalKey K} (hkey : a.userkey = b.userkey) : a < b ↔ b.tag < a.tag := by
  rw [InternalKey.lt_iff]
  constructor
  · rintro (h | h)
    · exact absurd hkey h.ne
    · exact h.2
  · exact fun h => Or.inr ⟨hkey, h⟩

end Order

/-- An entry of a table or of a memtable. -/
structure Entry (K V : Type*) where
  key : InternalKey K
  value : V

namespace Entry

def userkey (e : Entry K V) : K := e.key.userkey
def sequence (e : Entry K V) : ℕ := e.key.sequence
def tag (e : Entry K V) : ℕ := e.key.tag

/-- What a read that finds the entry returns: the value, or nothing when it is a deletion. -/
def result (e : Entry K V) : Option V :=
  match e.key.type with
  | .kTypeValue => some e.value
  | .kTypeDeletion => none

theorem result_eq_none_iff {e : Entry K V} : e.result = none ↔ e.key.type = .kTypeDeletion := by
  unfold result
  split <;> simp_all

end Entry

/-- The key from which a read of the user key as of the sequence number `s` searches. -/
def LookupKey (userkey : K) (s : ℕ) : InternalKey K := ⟨userkey, s, kValueTypeForSeek⟩

@[simp] theorem userkey_lookupKey (u : K) (s : ℕ) : (LookupKey u s).userkey = u := rfl

/-- The largest tag such a read can see. -/
def seekTag (s : ℕ) : ℕ := packSequenceAndType s kValueTypeForSeek

theorem seekTag_mono {s t : ℕ} (h : s ≤ t) : seekTag s ≤ seekTag t := by
  unfold seekTag packSequenceAndType
  omega

theorem tag_le_seekTag_iff {k : InternalKey K} {s : ℕ} : k.tag ≤ seekTag s ↔ k.sequence ≤ s := by
  have h := k.type.toNat_le
  have hseek : kValueTypeForSeek.toNat = 1 := rfl
  simp only [InternalKey.tag, seekTag, packSequenceAndType, hseek]
  omega

theorem lookupKey_le_iff [LinearOrder K] {u : K} {s : ℕ} {k : InternalKey K} :
    LookupKey u s ≤ k ↔ u < k.userkey ∨ u = k.userkey ∧ k.tag ≤ seekTag s := Iff.rfl

end RedisDb
