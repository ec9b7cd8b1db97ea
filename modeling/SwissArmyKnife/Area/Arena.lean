import Mathlib.Data.Nat.Bitwise
import SwissArmyKnife.Lib.Regions
import SwissArmyKnife.Lib.Transition

/-!
# The arena

`allocate` and `allocateAligned` hand out parts of standard blocks from left to right, and give a large object a block
of its own.  Addresses are numbers.  Where `new char[]` puts a block is part of the run: it may be any address that is
a multiple of 8 such that the block does not meet another one of the arena.  What the calls hand out never overlaps
(`run_placed`).
-/

namespace Area

open Transition

def kBlockSize : ℕ := 4096

/-- `size_t` has 64 bits. -/
def sizeT : ℕ := 2 ^ 64

def sizeofPointer : ℕ := 8

def align : ℕ := if sizeofPointer > 8 then sizeofPointer else 8

/-- With each block is the size that it was made with. -/
structure Arena where
  allocPtr : ℕ
  allocBytesRemaining : ℕ
  blocks : List Region
  memoryUsage : ℕ
deriving DecidableEq, Repr

/-- `new char[size]` may put a block there. -/
def Fresh (blocks : List Region) (block : Region) : Prop := block.base % 8 = 0 ∧ ∀ b ∈ blocks, b.Apart block

instance (blocks : List Region) (block : Region) : Decidable (Fresh blocks block) :=
  inferInstanceAs (Decidable (_ ∧ _))

namespace Arena

variable (arena : Arena) (base : ℕ)

def init : Arena := ⟨0, 0, [], 0⟩

def push (block : Region) : Arena :=
  { arena with
    blocks := arena.blocks ++ [block]
    memoryUsage := (arena.memoryUsage + (block.size + sizeofPointer) % sizeT) % sizeT }

/-! The calls return an address and the arena.  `base` is what `new char[]` returns, if it is called. -/

def allocateNewBlock (blockBytes : ℕ) : Outcome (ℕ × Arena) :=
  if Fresh arena.blocks ⟨base, blockBytes⟩ then .next (base, arena.push ⟨base, blockBytes⟩) else .disabled

def allocateFallback (bytes : ℕ) : Outcome (ℕ × Arena) :=
  if bytes > kBlockSize / 4 then arena.allocateNewBlock base bytes
  else
    (arena.allocateNewBlock base kBlockSize).bind fun (result, arena) =>
      .next (result, { arena with allocPtr := result + bytes, allocBytesRemaining := kBlockSize - bytes })

def allocate (bytes : ℕ) : Outcome (ℕ × Arena) :=
  if bytes = 0 then .aborted
  else if bytes ≤ arena.allocBytesRemaining then
    .next (arena.allocPtr, { arena with
      allocPtr := arena.allocPtr + bytes
      allocBytesRemaining := arena.allocBytesRemaining - bytes })
  else arena.allocateFallback base bytes

/-- How far `allocPtr` is from the next multiple. -/
def slop : ℕ :=
  let currentmod := arena.allocPtr &&& (align - 1)
  if currentmod = 0 then 0 else align - currentmod

def allocateAligned (bytes : ℕ) : Outcome (ℕ × Arena) :=
  if align &&& (align - 1) = 0 then
    let needed := (bytes + arena.slop) % sizeT
    let allocated : Outcome (ℕ × Arena) :=
      if needed ≤ arena.allocBytesRemaining then
        .next (arena.allocPtr + arena.slop, { arena with
          allocPtr := arena.allocPtr + needed
          allocBytesRemaining := arena.allocBytesRemaining - needed })
      else arena.allocateFallback base bytes
    allocated.bind fun (result, arena) => if result &&& (align - 1) = 0 then .next (result, arena) else .aborted
  else .aborted

end Arena

inductive Call where
  | allocate (bytes : ℕ)
  | allocateAligned (bytes : ℕ)
deriving DecidableEq, Repr

def Call.bytes : Call → ℕ
  | allocate bytes => bytes
  | allocateAligned bytes => bytes

/-- The arena and what the calls so far have returned. -/
structure World where
  arena : Arena
  returned : List (Call × ℕ)
deriving DecidableEq, Repr

namespace World

def init : World := ⟨.init, []⟩

/-- The region that a call has returned. -/
def regionOf (r : Call × ℕ) : Region := ⟨r.2, r.1.bytes⟩

def regions (w : World) : List Region := w.returned.map regionOf

/-- One call, with the address that `new char[]` returns in it. -/
def step (w : World) (c : Call × ℕ) : Outcome World :=
  (match c.1 with
    | .allocate bytes => w.arena.allocate c.2 bytes
    | .allocateAligned bytes => w.arena.allocateAligned c.2 bytes).bind fun (result, arena) =>
      .next ⟨arena, w.returned ++ [(c.1, result)]⟩

/-! ### The ways of a call -/

/-- The next bytes of the standard block, after a gap. -/
def Bumped (w : World) (result bytes : ℕ) (arena : Arena) : Prop :=
  ∃ gap, result = w.arena.allocPtr + gap ∧ bytes + gap ≤ w.arena.allocBytesRemaining ∧
    arena = { w.arena with
      allocPtr := w.arena.allocPtr + (bytes + gap)
      allocBytesRemaining := w.arena.allocBytesRemaining - (bytes + gap) }

/-- A block for one object. -/
def Owned (w : World) (result bytes : ℕ) (arena : Arena) : Prop :=
  kBlockSize / 4 < bytes ∧ Fresh w.arena.blocks ⟨result, bytes⟩ ∧ arena = w.arena.push ⟨result, bytes⟩

/-- The first bytes of a new standard block. -/
def Opened (w : World) (result bytes : ℕ) (arena : Arena) : Prop :=
  bytes ≤ kBlockSize / 4 ∧ Fresh w.arena.blocks ⟨result, kBlockSize⟩ ∧
    arena = { w.arena.push ⟨result, kBlockSize⟩ with
      allocPtr := result + bytes
      allocBytesRemaining := kBlockSize - bytes }

variable {w w' : World} {base bytes result : ℕ} {arena : Arena}

theorem allocateFallback_cases (h : w.arena.allocateFallback base bytes = .next (result, arena)) :
    result % 8 = 0 ∧ (w.Owned result bytes arena ∨ w.Opened result bytes arena) := by
  unfold Arena.allocateFallback Arena.allocateNewBlock at h
  by_cases hlarge : bytes > kBlockSize / 4
  · rw [if_pos hlarge] at h
    by_cases hfresh : Fresh w.arena.blocks ⟨base, bytes⟩
    · rw [if_pos hfresh] at h
      cases h
      exact ⟨hfresh.1, Or.inl ⟨hlarge, hfresh, rfl⟩⟩
    · rw [if_neg hfresh] at h
      cases h
  · rw [if_neg hlarge] at h
    by_cases hfresh : Fresh w.arena.blocks ⟨base, kBlockSize⟩
    · rw [if_pos hfresh] at h
      cases h
      exact ⟨hfresh.1, Or.inr ⟨Nat.le_of_not_lt hlarge, hfresh, rfl⟩⟩
    · rw [if_neg hfresh] at h
      cases h

theorem allocateFallback_ne_aborted (arena : Arena) (base bytes : ℕ) :
    arena.allocateFallback base bytes ≠ .aborted := by
  unfold Arena.allocateFallback Arena.allocateNewBlock
  split
  · split <;> simp
  · split <;> simp [Outcome.bind]

theorem and_align (n : ℕ) : n &&& (align - 1) = n % 8 := Nat.and_two_pow_sub_one_eq_mod n 3

theorem slop_spec (arena : Arena) : arena.slop < 8 ∧ (arena.allocPtr + arena.slop) % 8 = 0 := by
  have halign : align = 8 := rfl
  unfold Arena.slop
  rw [and_align, halign]
  dsimp only
  split <;> omega

theorem allocateAligned_cases (hsum : bytes + 7 < sizeT)
    (h : w.arena.allocateAligned base bytes = .next (result, arena)) :
    result % 8 = 0 ∧ (w.Bumped result bytes arena ∨ w.Owned result bytes arena ∨ w.Opened result bytes arena) := by
  obtain ⟨hslop, -⟩ := slop_spec w.arena
  have hneeded : (bytes + w.arena.slop) % sizeT = bytes + w.arena.slop := Nat.mod_eq_of_lt (by omega)
  unfold Arena.allocateAligned at h
  rw [if_pos (by decide), hneeded] at h
  dsimp only at h
  by_cases hfits : bytes + w.arena.slop ≤ w.arena.allocBytesRemaining
  · rw [if_pos hfits] at h
    simp only [Outcome.bind, and_align] at h
    split at h
    · rename_i halign
      cases h
      exact ⟨halign, Or.inl ⟨w.arena.slop, rfl, hfits, rfl⟩⟩
    · cases h
  · rw [if_neg hfits] at h
    cases hfallback : w.arena.allocateFallback base bytes with
    | disabled => simp [hfallback, Outcome.bind] at h
    | aborted => simp [hfallback, Outcome.bind] at h
    | next found =>
      obtain ⟨halign, hcases⟩ := allocateFallback_cases hfallback
      simp only [hfallback, Outcome.bind, and_align, halign, if_true] at h
      cases h
      exact ⟨halign, Or.inr hcases⟩

theorem allocate_cases (h : w.arena.allocate base bytes = .next (result, arena)) :
    w.Bumped result bytes arena ∨ w.Owned result bytes arena ∨ w.Opened result bytes arena := by
  unfold Arena.allocate at h
  split at h
  · cases h
  · split at h
    · rename_i hfits
      cases h
      exact Or.inl ⟨0, rfl, hfits, rfl⟩
    · exact Or.inr (allocateFallback_cases h).2

/-- What a call does. -/
theorem step_cases {c : Call × ℕ} (hsum : c.1.bytes + 7 < sizeT) (h : w.step c = .next w') :
    ∃ result, w'.returned = w.returned ++ [(c.1, result)] ∧ (c.1 = .allocateAligned c.1.bytes → result % 8 = 0) ∧
      (w.Bumped result c.1.bytes w'.arena ∨ w.Owned result c.1.bytes w'.arena ∨
        w.Opened result c.1.bytes w'.arena) := by
  obtain ⟨call, base⟩ := c
  unfold step at h
  cases call with
  | allocate bytes =>
    cases hcall : w.arena.allocate base bytes with
    | disabled => simp [hcall, Outcome.bind] at h
    | aborted => simp [hcall, Outcome.bind] at h
    | next found =>
      simp only [hcall, Outcome.bind] at h
      cases h
      exact ⟨found.1, rfl, fun haligned => (by cases haligned), allocate_cases hcall⟩
  | allocateAligned bytes =>
    cases hcall : w.arena.allocateAligned base bytes with
    | disabled => simp [hcall, Outcome.bind] at h
    | aborted => simp [hcall, Outcome.bind] at h
    | next found =>
      simp only [hcall, Outcome.bind] at h
      cases h
      obtain ⟨halign, hcases⟩ := allocateAligned_cases hsum hcall
      exact ⟨found.1, rfl, fun _ => halign, hcases⟩

/-- The assertions hold. -/
theorem step_ne_aborted {c : Call × ℕ} (hbytes : 1 ≤ c.1.bytes) (hsum : c.1.bytes + 7 < sizeT) :
    w.step c ≠ .aborted := by
  obtain ⟨call, base⟩ := c
  intro h
  unfold step at h
  cases call with
  | allocate bytes =>
    have hne : w.arena.allocate base bytes ≠ .aborted := by
      unfold Arena.allocate
      have hpos : bytes ≠ 0 := Nat.one_le_iff_ne_zero.1 hbytes
      rw [if_neg hpos]
      split
      · intro hnext
        cases hnext
      · exact allocateFallback_ne_aborted _ _ _
    cases hcall : w.arena.allocate base bytes with
    | disabled => simp [hcall, Outcome.bind] at h
    | aborted => exact hne hcall
    | next found => simp [hcall, Outcome.bind] at h
  | allocateAligned bytes =>
    have hne : w.arena.allocateAligned base bytes ≠ .aborted := by
      obtain ⟨hslop, halign⟩ := slop_spec w.arena
      unfold Arena.allocateAligned
      rw [if_pos (by decide)]
      dsimp only
      split
      · simp only [Outcome.bind, and_align, halign, if_true]
        intro hnext
        cases hnext
      · cases hfallback : w.arena.allocateFallback base bytes with
        | disabled =>
          intro hdisabled
          cases hdisabled
        | aborted => exact absurd hfallback (allocateFallback_ne_aborted _ _ _)
        | next found =>
          simp only [Outcome.bind, and_align, (allocateFallback_cases hfallback).1, if_true]
          intro hnext
          cases hnext
    cases hcall : w.arena.allocateAligned base bytes with
    | disabled => simp [hcall, Outcome.bind] at h
    | aborted => exact hne hcall
    | next found => simp [hcall, Outcome.bind] at h

/-! ### What holds after every call -/

/-- The block was not made for one object, which then fills it. -/
def Standard (w : World) (b : Region) : Prop := b ∉ w.regions

/-- The bytes that `allocPtr` and `allocBytesRemaining` describe. -/
def tail (w : World) : Region := ⟨w.arena.allocPtr, w.arena.allocBytesRemaining⟩

/-- They are the end of the newest standard block.  Before there is one there are none. -/
def Tail (w : World) : Prop :=
  (w.tail = ⟨0, 0⟩ ∧ ∀ b ∈ w.arena.blocks, ¬w.Standard b) ∨
    ∃ older b newer, w.arena.blocks = older ++ b :: newer ∧ w.Standard b ∧ (∀ c ∈ newer, ¬w.Standard c) ∧
      b.size = kBlockSize ∧ b.base < w.tail.base ∧ w.tail.stop = b.stop

/-- The regions lie in the blocks, and neither overlap. -/
structure Placed (blocks regions : List Region) : Prop where
  blocks_apart : blocks.Pairwise Region.Apart
  blocks_large : ∀ b ∈ blocks, kBlockSize / 4 < b.size
  inside : ∀ r ∈ regions, ∃ b ∈ blocks, r.Within b
  apart : regions.Pairwise Region.Apart
  size_pos : ∀ r ∈ regions, 0 < r.size

theorem pairwise_concat {l : List Region} {r : Region} (hl : l.Pairwise Region.Apart) (hr : ∀ s ∈ l, s.Apart r) :
    (l ++ [r]).Pairwise Region.Apart := by
  rw [List.pairwise_append]
  refine ⟨hl, List.pairwise_singleton _ _, ?_⟩
  intro s hs t ht
  rw [List.mem_singleton.1 ht]
  exact hr s hs

namespace Placed

variable {blocks regions : List Region} {b r s : Region}

theorem bump (h : Placed blocks regions) (hb : b ∈ blocks) (hr : r.Within b) (hpos : 0 < r.size)
    (hapart : ∀ s ∈ regions, s.Apart r) : Placed blocks (regions ++ [r]) where
  blocks_apart := h.blocks_apart
  blocks_large := h.blocks_large
  inside := by
    intro s hs
    rcases List.mem_append.1 hs with hs | hs
    · exact h.inside s hs
    · rw [List.mem_singleton.1 hs]
      exact ⟨b, hb, hr⟩
  apart := pairwise_concat h.apart hapart
  size_pos := by
    intro s hs
    rcases List.mem_append.1 hs with hs | hs
    · exact h.size_pos s hs
    · rw [List.mem_singleton.1 hs]
      exact hpos

/-- A block that does not meet the others does not meet what they hold. -/
theorem apart_of_fresh (h : Placed blocks regions) (hb : Fresh blocks b) (hs : s ∈ regions) : s.Apart b := by
  obtain ⟨c, hc, hwithin⟩ := h.inside s hs
  exact ((hb.2 c hc).symm.mono hwithin).symm

theorem push (h : Placed blocks regions) (hb : Fresh blocks b) (hlarge : kBlockSize / 4 < b.size) (hr : r.Within b)
    (hpos : 0 < r.size) : Placed (blocks ++ [b]) (regions ++ [r]) := by
  have hblocks : Placed (blocks ++ [b]) regions := by
    refine ⟨pairwise_concat h.blocks_apart hb.2, ?_, ?_, h.apart, h.size_pos⟩
    · intro c hc
      rcases List.mem_append.1 hc with hc | hc
      · exact h.blocks_large c hc
      · rw [List.mem_singleton.1 hc]
        exact hlarge
    · intro s hs
      obtain ⟨c, hc, hwithin⟩ := h.inside s hs
      exact ⟨c, List.mem_append_left _ hc, hwithin⟩
  exact hblocks.bump (by simp) hr hpos fun s hs => (h.apart_of_fresh hb hs).mono hr

end Placed

structure Inv (w : World) : Prop where
  placed : Placed w.arena.blocks w.regions
  tail_spec : w.Tail
  tail_unused : ∀ r ∈ w.regions, r.Apart w.tail
  memoryUsage_eq : w.arena.memoryUsage = (w.arena.blocks.map fun b => b.size + sizeofPointer).sum % sizeT

namespace Inv

theorem init : Inv init where
  placed := ⟨.nil, nofun, nofun, .nil, nofun⟩
  tail_spec := Or.inl ⟨rfl, nofun⟩
  tail_unused := nofun
  memoryUsage_eq := rfl

/-- The sum goes on with the next block. -/
theorem memoryUsage_push (h : w.Inv) (block : Region) :
    (w.arena.push block).memoryUsage =
      ((w.arena.push block).blocks.map fun b => b.size + sizeofPointer).sum % sizeT := by
  simp only [Arena.push, h.memoryUsage_eq, List.map_append, List.sum_append, List.map_cons, List.map_nil,
    List.sum_singleton]
  rw [← Nat.add_mod]

/-- A block that is no object's stays so when a call returns another region. -/
theorem standard_concat {b r : Region} (hregions : w'.regions = w.regions ++ [r]) :
    w'.Standard b ↔ w.Standard b ∧ b ≠ r := by
  unfold Standard
  rw [hregions, List.mem_append, List.mem_singleton, not_or]

theorem bumped (h : w.Inv) (hpos : 0 < bytes) (hregions : w'.regions = w.regions ++ [⟨result, bytes⟩])
    (hbumped : w.Bumped result bytes w'.arena) : w'.Inv := by
  obtain ⟨gap, hresult, hfits, harena⟩ := hbumped
  have hblocks : w'.arena.blocks = w.arena.blocks := by rw [harena]
  have htail : w'.tail = ⟨w.arena.allocPtr + (bytes + gap), w.arena.allocBytesRemaining - (bytes + gap)⟩ := by
    unfold tail
    rw [harena]
  have hr : (⟨result, bytes⟩ : Region).Within w.tail := by
    unfold Region.Within Region.stop tail
    dsimp only
    omega
  have hwithin : w'.tail.Within w.tail := by
    rw [htail]
    unfold Region.Within Region.stop tail
    dsimp only
    omega
  obtain ⟨hempty, -⟩ | ⟨older, b, newer, heq, hstandard, hnewer, hsize, hbase, hstop⟩ := h.tail_spec
  · have hzero : w.arena.allocBytesRemaining = 0 := congrArg Region.size hempty
    omega
  have hmem : b ∈ w.arena.blocks := by simp [heq]
  constructor
  · rw [hregions, hblocks]
    exact h.placed.bump hmem ⟨hbase.le.trans hr.1, hr.2.trans hstop.le⟩ hpos fun s hs => (h.tail_unused s hs).mono hr
  · refine Or.inr ⟨older, b, newer, hblocks.trans heq, ?_, ?_, hsize, hbase.trans_le hwithin.1, ?_⟩
    · refine (standard_concat hregions).2 ⟨hstandard, ?_⟩
      intro heq
      have : b.base = result := congrArg Region.base heq
      have hle : w.tail.base ≤ result := hr.1
      omega
    · exact fun c hc hnot => hnewer c hc ((standard_concat hregions).1 hnot).1
    · rw [← hstop, htail]
      unfold Region.stop tail
      dsimp only
      omega
  · rw [hregions]
    intro s hs
    rcases List.mem_append.1 hs with hs | hs
    · exact (h.tail_unused s hs).mono hwithin
    · rw [List.mem_singleton.1 hs, htail]
      refine Or.inl ?_
      unfold Region.stop
      dsimp only
      omega
  · rw [harena]
    exact h.memoryUsage_eq

theorem owned (h : w.Inv) (hregions : w'.regions = w.regions ++ [⟨result, bytes⟩])
    (howned : w.Owned result bytes w'.arena) : w'.Inv := by
  obtain ⟨hlarge, hfresh, harena⟩ := howned
  have hblocks : w'.arena.blocks = w.arena.blocks ++ [⟨result, bytes⟩] := by rw [harena, Arena.push]
  have htail : w'.tail = w.tail := by
    unfold tail
    rw [harena, Arena.push]
  have hobject : ¬w'.Standard ⟨result, bytes⟩ := fun hnot => ((standard_concat hregions).1 hnot).2 rfl
  constructor
  · rw [hregions, hblocks]
    exact h.placed.push hfresh hlarge (.refl _) (Nat.zero_lt_of_lt hlarge)
  · obtain ⟨hempty, hnone⟩ | ⟨older, b, newer, heq, hstandard, hnewer, hsize, hbase, hstop⟩ := h.tail_spec
    · refine Or.inl ⟨htail.trans hempty, ?_⟩
      rw [hblocks]
      intro c hc hnot
      rcases List.mem_append.1 hc with hc | hc
      · exact hnone c hc ((standard_concat hregions).1 hnot).1
      · rw [List.mem_singleton.1 hc] at hnot
        exact hobject hnot
    · refine Or.inr ⟨older, b, newer ++ [⟨result, bytes⟩], by simp [hblocks, heq], ?_, ?_, hsize, ?_, ?_⟩
      · refine (standard_concat hregions).2 ⟨hstandard, ?_⟩
        exact (hfresh.2 b (by simp [heq])).ne (by rw [hsize]; decide)
      · intro c hc hnot
        rcases List.mem_append.1 hc with hc | hc
        · exact hnewer c hc ((standard_concat hregions).1 hnot).1
        · rw [List.mem_singleton.1 hc] at hnot
          exact hobject hnot
      · rw [htail]
        exact hbase
      · rw [htail]
        exact hstop
  · rw [hregions, htail]
    intro s hs
    rcases List.mem_append.1 hs with hs | hs
    · exact h.tail_unused s hs
    · rw [List.mem_singleton.1 hs]
      obtain ⟨hempty, -⟩ | ⟨older, b, newer, heq, -, -, -, hbase, hstop⟩ := h.tail_spec
      · rw [hempty]
        exact Or.inr (Nat.zero_le _)
      · exact (hfresh.2 b (by simp [heq])).symm.mono ⟨hbase.le, hstop.le⟩
  · rw [harena]
    exact h.memoryUsage_push _

theorem opened (h : w.Inv) (hpos : 0 < bytes) (hregions : w'.regions = w.regions ++ [⟨result, bytes⟩])
    (hopened : w.Opened result bytes w'.arena) : w'.Inv := by
  obtain ⟨hsmall, hfresh, harena⟩ := hopened
  have hquarter : kBlockSize / 4 < kBlockSize := by decide
  have hblocks : w'.arena.blocks = w.arena.blocks ++ [⟨result, kBlockSize⟩] := by rw [harena, Arena.push]
  have htail : w'.tail = ⟨result + bytes, kBlockSize - bytes⟩ := by
    unfold tail
    rw [harena]
  have hr : (⟨result, bytes⟩ : Region).Within ⟨result, kBlockSize⟩ := by
    unfold Region.Within Region.stop
    dsimp only
    omega
  have hwithin : w'.tail.Within ⟨result, kBlockSize⟩ := by
    rw [htail]
    unfold Region.Within Region.stop
    dsimp only
    omega
  constructor
  · rw [hregions, hblocks]
    exact h.placed.push hfresh hquarter hr hpos
  · refine Or.inr ⟨w.arena.blocks, ⟨result, kBlockSize⟩, [], hblocks, ?_, nofun, rfl, ?_, ?_⟩
    · refine (standard_concat hregions).2 ⟨?_, ?_⟩
      · intro hmem
        exact (h.placed.apart_of_fresh hfresh hmem).ne (h.placed.size_pos _ hmem) rfl
      · intro heq
        have : kBlockSize = bytes := congrArg Region.size heq
        omega
    · rw [htail]
      exact Nat.lt_add_of_pos_right hpos
    · rw [htail]
      unfold Region.stop
      dsimp only
      omega
  · rw [hregions]
    intro s hs
    rcases List.mem_append.1 hs with hs | hs
    · exact (h.placed.apart_of_fresh hfresh hs).mono hwithin
    · rw [List.mem_singleton.1 hs, htail]
      exact Or.inl le_rfl
  · rw [harena]
    exact h.memoryUsage_push _

theorem step {c : Call × ℕ} (h : w.Inv) (hpos : 1 ≤ c.1.bytes) (hsum : c.1.bytes + 7 < sizeT)
    (hs : w.step c = .next w') : w'.Inv := by
  obtain ⟨result, hreturned, -, hcases⟩ := step_cases hsum hs
  have hregions : w'.regions = w.regions ++ [⟨result, c.1.bytes⟩] := by
    unfold regions
    rw [hreturned, List.map_append]
    rfl
  rcases hcases with hbumped | howned | hopened
  · exact h.bumped hpos hregions hbumped
  · exact h.owned hregions howned
  · exact h.opened hpos hregions hopened

/-- The sum does not go round when the blocks are in the lower half of the addresses. -/
theorem memoryUsage_exact (h : w.Inv) (hhalf : ∀ b ∈ w.arena.blocks, b.stop ≤ 2 ^ 63) :
    w.arena.memoryUsage = (w.arena.blocks.map fun b => b.size + sizeofPointer).sum := by
  rw [h.memoryUsage_eq]
  apply Nat.mod_eq_of_lt
  have hsizes := Region.sum_size_le h.placed.blocks_apart hhalf
  have hbound : ∀ l : List Region, (∀ b ∈ l, kBlockSize / 4 < b.size) →
      128 * (l.map fun b => b.size + sizeofPointer).sum ≤ 129 * (l.map Region.size).sum := by
    intro l
    induction l with
    | nil => exact fun _ => le_rfl
    | cons b l ih =>
      intro hlarge
      have hb : 1024 < b.size := hlarge b (by simp)
      have hl := ih fun c hc => hlarge c (by simp [hc])
      have hpointer : sizeofPointer = 8 := rfl
      rw [List.map_cons, List.map_cons, List.sum_cons, List.sum_cons]
      omega
  have := hbound _ h.placed.blocks_large
  unfold sizeT
  omega

end Inv

/-! ### Runs -/

theorem run_placed (calls : List (Call × ℕ)) (hcalls : ∀ c ∈ calls, 1 ≤ c.1.bytes ∧ c.1.bytes + 7 < sizeT) :
    run step World.init calls ≠ .aborted ∧
      ∀ w, run step World.init calls = .next w →
        w.returned.map Prod.fst = calls.map Prod.fst ∧
          (∀ r ∈ w.regions, ∃ b ∈ w.arena.blocks, r.Within b) ∧ w.regions.Pairwise Region.Apart ∧
          (∀ r ∈ w.returned, r.1 = .allocateAligned r.1.bytes → r.2 % align = 0) ∧
          w.Tail ∧ (∀ r ∈ w.regions, r.Apart w.tail) ∧
          w.arena.memoryUsage = (w.arena.blocks.map fun b => b.size + sizeofPointer).sum % sizeT ∧
          ((∀ b ∈ w.arena.blocks, b.stop ≤ 2 ^ 63) →
            w.arena.memoryUsage = (w.arena.blocks.map fun b => b.size + sizeofPointer).sum) := by
  have hmeets : Meets step (fun _ c => 1 ≤ c.1.bytes ∧ c.1.bytes + 7 < sizeT) World.init calls := by
    apply meets_of_forall
    rintro before c after rfl s -
    exact hcalls c (by simp)
  refine ⟨?_, ?_⟩
  · exact @run_safe _ _ _ _ (fun _ _ => True) _ trivial (fun _ _ _ _ _ _ _ => trivial)
      (fun _ _ _ _ hc => step_ne_aborted hc.1 hc.2) _ hmeets
  intro w hrun
  have hinv : w.Inv := @run_invariant _ _ _ _ (fun _ w => w.Inv) _ Inv.init
    (fun _ _ _ _ h hc hs => h.step hc.1 hc.2 hs) _ hmeets _ hrun
  have hlog : w.returned.map Prod.fst = calls.map Prod.fst ∧
      ∀ r ∈ w.returned, r.1 = .allocateAligned r.1.bytes → r.2 % align = 0 := by
    refine @run_invariant _ _ _ _ (fun calls w => w.returned.map Prod.fst = calls.map Prod.fst ∧
      ∀ r ∈ w.returned, r.1 = .allocateAligned r.1.bytes → r.2 % align = 0) _ ⟨rfl, nofun⟩ ?_ _ hmeets _ hrun
    rintro calls w c w' ⟨hcalls, haligned⟩ hc hs
    obtain ⟨result, hreturned, halign, -⟩ := step_cases hc.2 hs
    rw [hreturned]
    refine ⟨by rw [List.map_append, List.map_append, hcalls]; rfl, ?_⟩
    intro r hr
    rcases List.mem_append.1 hr with hr | hr
    · exact haligned r hr
    · rw [List.mem_singleton.1 hr]
      exact halign
  exact ⟨hlog.1, hinv.placed.inside, hinv.placed.apart, hlog.2, hinv.tail_spec, hinv.tail_unused, hinv.memoryUsage_eq,
    hinv.memoryUsage_exact⟩

/-- A part of a standard block, a part of it behind a gap, a large object, and a new standard block. -/
theorem run_placed_mixed :
    ∃ w, run step World.init [(.allocate 5, 8192), (.allocateAligned 10, 0), (.allocateAligned 5000, 16384),
        (.allocate 1024, 0), (.allocate 1024, 0), (.allocate 1024, 0), (.allocateAligned 1001, 65536)] = .next w ∧
      w.regions.Pairwise Region.Apart ∧ w.arena.memoryUsage = 4104 + 5008 + 4104 := by
  have hrun : run step World.init [(.allocate 5, 8192), (.allocateAligned 10, 0), (.allocateAligned 5000, 16384),
      (.allocate 1024, 0), (.allocate 1024, 0), (.allocate 1024, 0), (.allocateAligned 1001, 65536)] =
      .next ⟨⟨66537, 3095, [⟨8192, 4096⟩, ⟨16384, 5000⟩, ⟨65536, 4096⟩], 13216⟩,
        [(.allocate 5, 8192), (.allocateAligned 10, 8200), (.allocateAligned 5000, 16384), (.allocate 1024, 8210),
          (.allocate 1024, 9234), (.allocate 1024, 10258), (.allocateAligned 1001, 65536)]⟩ := by decide +kernel
  exact ⟨_, hrun, ((run_placed _ (by decide)).2 _ hrun).2.2.1, rfl⟩

end World

end Area
