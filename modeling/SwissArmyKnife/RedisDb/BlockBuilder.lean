import Mathlib.Data.List.Induction
import SwissArmyKnife.RedisDb.Comparator
import SwissArmyKnife.RedisDb.Iterator

/-!
# Building blocks

`BlockBuilder`.  A key shares a prefix with the key before it, except at the restart points.  What a builder has
written is a sequence of `Piece`s (`Built`): each is decodable after the piece before it, and after nothing at a
restart point (`Layout`).
-/

namespace RedisDb

open Cursor (Increasing)

/-- The length of the common prefix, as `Add` counts it. -/
def sharedLength : Slice → Slice → ℕ
  | a :: last, b :: key => if a = b then sharedLength last key + 1 else 0
  | _, _ => 0

theorem sharedLength_le (last key : Slice) :
    sharedLength last key ≤ last.length ∧ sharedLength last key ≤ key.length := by
  induction last generalizing key with
  | nil => simp [sharedLength]
  | cons a last ih =>
    cases key with
    | nil => simp [sharedLength]
    | cons b key =>
      have := ih key
      rw [sharedLength]
      split <;> simp only [List.length_cons] <;> omega

theorem take_sharedLength (last key : Slice) :
    last.take (sharedLength last key) = key.take (sharedLength last key) := by
  induction last generalizing key with
  | nil => simp [sharedLength]
  | cons a last ih =>
    cases key with
    | nil => simp [sharedLength]
    | cons b key =>
      rw [sharedLength]
      split
      · rename_i hab
        rw [List.take_succ_cons, List.take_succ_cons, ih key, hab]
      · rfl

structure BlockBuilder where
  buffer : Slice
  restarts : List UInt32
  /-- Number of entries since the last restart point. -/
  counter : ℕ
  finished : Bool
  lastkey : Slice

namespace BlockBuilder

def new : BlockBuilder := ⟨[], [0], 0, false, []⟩

/-- As if the builder was just constructed. -/
def reset (_ : BlockBuilder) : BlockBuilder := ⟨[], [0], 0, false, []⟩

def empty (b : BlockBuilder) : Bool := b.buffer.isEmpty

def CurrentSizeEstimate (b : BlockBuilder) : ℕ := b.buffer.length + b.restarts.length * 4 + 4

/-- The builder and the contents of the block. -/
def Finish (b : BlockBuilder) : BlockBuilder × Slice :=
  let buffer := b.buffer ++ (b.restarts.map EncodeFixed32).flatten ++ EncodeFixed32 (UInt32.ofNat b.restarts.length)
  ({ b with buffer := buffer, finished := true }, buffer)

/-- An entry in the buffer. -/
def encodeEntry (shared : ℕ) (key value : Slice) : Slice :=
  EncodeVarint32 (UInt32.ofNat shared) ++ (EncodeVarint32 (UInt32.ofNat (key.length - shared)) ++
    (EncodeVarint32 (UInt32.ofNat value.length) ++ (key.drop shared ++ value)))

/-- There is no result when an assertion fails. -/
def Add (cmp : Slice → Slice → Ordering) (blockrestartinterval : ℕ) (b : BlockBuilder) (key value : Slice) :
    Option BlockBuilder :=
  if b.finished = false ∧ b.counter ≤ blockrestartinterval ∧ (b.buffer = [] ∨ cmp key b.lastkey = .gt) then
    let compress := b.counter < blockrestartinterval
    let shared := if compress then sharedLength b.lastkey key else 0
    let lastkey := b.lastkey.take shared ++ key.drop shared
    if lastkey = key then
      some
        { buffer := b.buffer ++ encodeEntry shared key value
          restarts := if compress then b.restarts else b.restarts ++ [UInt32.ofNat b.buffer.length]
          counter := (if compress then b.counter else 0) + 1
          finished := b.finished
          lastkey := lastkey }
    else none
  else none

def addAll (cmp : Slice → Slice → Ordering) (blockrestartinterval : ℕ) (b : BlockBuilder) (l : List (Slice × Slice)) :
    Option BlockBuilder :=
  l.foldlM (fun (b : BlockBuilder) e => b.Add cmp blockrestartinterval e.1 e.2) b

/-- The contents of the block with these pairs. -/
def build (cmp : Slice → Slice → Ordering) (blockrestartinterval : ℕ) (l : List (Slice × Slice)) : Option Slice :=
  (new.addAll cmp blockrestartinterval l).map fun b => b.Finish.2

/-! ### What was written -/

/-- An entry: the key and the value with the length of the prefix that is not written. -/
structure Piece where
  shared : ℕ
  key : Slice
  value : Slice

namespace Piece

def bytes (p : Piece) : Slice := encodeEntry p.shared p.key p.value

def pair (p : Piece) : Slice × Slice := (p.key, p.value)

end Piece

/-- The bytes of a sequence of entries. -/
def entriesBytes (pieces : List Piece) : Slice := (pieces.map Piece.bytes).flatten

/-- Where an entry begins. -/
def offset (pieces : List Piece) (i : ℕ) : ℕ := (entriesBytes (pieces.take i)).length

/-- The entry shares a prefix with the key before it. -/
def Piece.Follows (p : Piece) (last : Slice) : Prop :=
  p.shared ≤ last.length ∧ p.shared ≤ p.key.length ∧ last.take p.shared = p.key.take p.shared

/-- The restart points are indices of entries that share nothing; the first is that of the first entry. -/
structure Layout (pieces : List Piece) (points : List ℕ) : Prop where
  follows : ∀ i p q, pieces[i]? = some p → pieces[i + 1]? = some q → q.Follows p.key
  head : points.head? = some 0
  restart : ∀ r ∈ points, ∀ p, pieces[r]? = some p → p.shared = 0
  bound : ∀ r ∈ points, r < pieces.length ∨ r = 0
  nil : pieces = [] → points = [0]

/-- What the builder holds after the entries. -/
structure Built (blockrestartinterval : ℕ) (b : BlockBuilder) (pieces : List Piece) (points : List ℕ) : Prop where
  buffer : b.buffer = entriesBytes pieces
  restarts : b.restarts = points.map fun r => UInt32.ofNat (offset pieces r)
  lastkey : b.lastkey = (pieces.getLast?.map Piece.key).getD []
  layout : Layout pieces points
  counter : b.counter ≤ blockrestartinterval
  counter_nil : pieces = [] → b.counter = 0
  finished : b.finished = false

theorem built_new (interval : ℕ) : Built interval new [] [0] where
  buffer := rfl
  restarts := rfl
  lastkey := rfl
  layout := ⟨by simp, rfl, by simp, by simp, fun _ => rfl⟩
  counter := Nat.zero_le _
  counter_nil _ := rfl
  finished := rfl

theorem offset_append {pieces : List Piece} {i : ℕ} (h : i ≤ pieces.length) (more : List Piece) :
    offset (pieces ++ more) i = offset pieces i := by
  rw [offset, offset, List.take_append_of_le_length h]

theorem entriesBytes_append (pieces more : List Piece) :
    entriesBytes (pieces ++ more) = entriesBytes pieces ++ entriesBytes more := by
  simp [entriesBytes]

theorem offset_length (pieces : List Piece) : offset pieces pieces.length = (entriesBytes pieces).length := by
  rw [offset, List.take_length]

/-- One more entry, which is a restart point or not. -/
theorem Layout.append {pieces : List Piece} {points : List ℕ} (h : Layout pieces points) {p : Piece}
    (hfollows : ∀ q, pieces.getLast? = some q → p.Follows q.key) (hfirst : pieces = [] → p.shared = 0)
    {points' : List ℕ} (hpoints : points' = points ∨ points' = points ++ [pieces.length] ∧ p.shared = 0) :
    Layout (pieces ++ [p]) points' := by
  have hmem : ∀ r ∈ points', r ∈ points ∨ r = pieces.length ∧ p.shared = 0 := by
    rcases hpoints with rfl | ⟨rfl, hshared⟩
    · exact fun r hr => Or.inl hr
    · intro r hr
      exact (List.mem_append.1 hr).imp_right fun hr => ⟨List.mem_singleton.1 hr, hshared⟩
  refine ⟨?_, ?_, ?_, ?_, fun h => absurd h (by simp)⟩
  · intro i q q' hq hq'
    rcases Nat.lt_or_ge (i + 1) pieces.length with hlt | hge
    · rw [List.getElem?_append_left (by omega)] at hq
      rw [List.getElem?_append_left hlt] at hq'
      exact h.follows i q q' hq hq'
    · have hlength := (List.getElem?_eq_some_iff.1 hq').1
      rw [List.length_append, List.length_singleton] at hlength
      have hi : i + 1 = pieces.length := by omega
      rw [List.getElem?_append_left (by omega)] at hq
      rw [hi, List.getElem?_concat_length] at hq'
      obtain rfl := Option.some.inj hq'
      apply hfollows
      rw [List.getLast?_eq_getElem?, ← hi]
      exact hq
  · rcases hpoints with rfl | ⟨rfl, -⟩
    · exact h.head
    · rw [List.head?_append, h.head, Option.some_or]
  · intro r hr q hq
    have hnew : r = pieces.length → q = p := by
      rintro rfl
      rw [List.getElem?_concat_length] at hq
      exact (Option.some.inj hq).symm
    rcases hmem r hr with hr | ⟨rfl, hshared⟩
    · rcases h.bound r hr with hlt | rfl
      · rw [List.getElem?_append_left hlt] at hq
        exact h.restart r hr q hq
      · rcases Nat.eq_zero_or_pos pieces.length with hzero | hpos
        · rw [hnew hzero.symm]
          exact hfirst (List.length_eq_zero_iff.1 hzero)
        · rw [List.getElem?_append_left hpos] at hq
          exact h.restart 0 hr q hq
    · rw [hnew rfl]
      exact hshared
  · intro r hr
    rw [List.length_append, List.length_singleton]
    rcases hmem r hr with hr | ⟨rfl, -⟩
    · have := h.bound r hr
      omega
    · omega

theorem Built.add {cmp : Slice → Slice → Ordering} {interval : ℕ} (hinterval : 1 ≤ interval) {b : BlockBuilder}
    {pieces : List Piece} {points : List ℕ} (h : Built interval b pieces points) {key value : Slice}
    (hkey : ∀ p, pieces.getLast? = some p → cmp key p.key = .gt) :
    ∃ b' p points', b.Add cmp interval key value = some b' ∧ Built interval b' (pieces ++ [p]) points' ∧
      p.pair = (key, value) := by
  have hnil : b.buffer = [] ∨ cmp key b.lastkey = .gt := by
    cases hlast : pieces.getLast? with
    | none =>
      left
      rw [h.buffer, List.getLast?_eq_none_iff.1 hlast]
      rfl
    | some p =>
      right
      rw [h.lastkey, hlast]
      exact hkey p hlast
  obtain ⟨shared, hshared⟩ : ∃ n, n = if b.counter < interval then sharedLength b.lastkey key else 0 := ⟨_, rfl⟩
  have hle : shared ≤ b.lastkey.length ∧ shared ≤ key.length ∧ b.lastkey.take shared = key.take shared := by
    rw [hshared]
    split
    · exact ⟨(sharedLength_le _ _).1, (sharedLength_le _ _).2, take_sharedLength _ _⟩
    · simp
  have hlastkey : b.lastkey.take shared ++ key.drop shared = key := by
    rw [hle.2.2, List.take_append_drop]
  -- The entries in front of a restart point stay the same.
  have hrestarts : ∀ r ∈ points, offset (pieces ++ [⟨shared, key, value⟩]) r = offset pieces r := by
    intro r hr
    apply offset_append
    have := h.layout.bound r hr
    omega
  refine ⟨_, ⟨shared, key, value⟩, if b.counter < interval then points else points ++ [pieces.length],
    by rw [Add, if_pos ⟨h.finished, h.counter, hnil⟩]; simp only [← hshared, hlastkey, if_true]; rfl, ?_, rfl⟩
  refine ⟨?_, ?_, ?_, ?_, ?_, by simp, h.finished⟩
  · rw [entriesBytes_append, ← h.buffer]
    simp [entriesBytes, Piece.bytes]
  · split
    · rw [h.restarts]
      exact List.map_congr_left fun r hr => by rw [hrestarts r hr]
    · rw [h.restarts, h.buffer, List.map_append, List.map_singleton, offset_append (Nat.le_refl _), offset_length]
      exact congrArg (· ++ _) (List.map_congr_left fun r hr => by rw [hrestarts r hr])
  · rw [List.getLast?_concat]
    rfl
  · refine h.layout.append ?_ ?_ ?_
    · intro q hq
      have hlast : b.lastkey = q.key := by
        rw [h.lastkey, hq]
        rfl
      rw [← hlast]
      exact hle
    · intro hpieces
      have hlast : b.lastkey = [] := by
        rw [h.lastkey, hpieces]
        rfl
      rw [hlast] at hle
      exact Nat.le_zero.1 hle.1
    · split
      · exact Or.inl rfl
      · exact Or.inr ⟨rfl, by rw [hshared, if_neg (by assumption)]⟩
  · show (if b.counter < interval then b.counter else 0) + 1 ≤ interval
    split <;> omega

/-- The builder takes every increasing list. -/
theorem exists_built {cmp : Slice → Slice → Ordering} [Std.OrientedCmp cmp] {interval : ℕ} (hinterval : 1 ≤ interval)
    {l : List (Slice × Slice)} (hl : Increasing cmp l) : ∃ b pieces points,
      new.addAll cmp interval l = some b ∧ Built interval b pieces points ∧ pieces.map Piece.pair = l := by
  induction l using List.reverseRecOn with
  | nil => exact ⟨new, [], [0], rfl, built_new interval, rfl⟩
  | append_singleton l e ih =>
    obtain ⟨hl, -, hlast⟩ := List.pairwise_append.1 hl
    obtain ⟨b, pieces, points, hadd, hbuilt, rfl⟩ := ih hl
    have hkey : ∀ p, pieces.getLast? = some p → cmp e.1 p.key = .gt := by
      intro p hp
      have hmem : p.pair ∈ pieces.map Piece.pair := List.mem_map_of_mem (List.mem_of_getLast? hp)
      exact Std.OrientedCmp.gt_iff_lt.2 (hlast _ hmem _ (List.mem_singleton_self e))
    obtain ⟨b', p, points', hadd', hbuilt', hpair⟩ := @Built.add cmp _ hinterval _ _ _ hbuilt e.1 e.2 hkey
    refine ⟨b', pieces ++ [p], points', ?_, hbuilt', by rw [List.map_append, List.map_singleton, hpair]⟩
    rw [addAll, List.foldlM_append]
    rw [addAll] at hadd
    rw [hadd]
    simpa using hadd'

end BlockBuilder

end RedisDb
