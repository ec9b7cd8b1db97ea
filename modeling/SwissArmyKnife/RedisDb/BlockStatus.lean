import SwissArmyKnife.RedisDb.BlockRoundTrip

/-!
# The status of the iterator over a block

The iterator over a block that was built never reports an error: an iterator that shows the pairs (`Reads`) does so
after every call, and its status stays OK.
-/

namespace RedisDb

open Cursor (Place Call Increasing)

theorem Fault.exists_of_bind {α β : Type} {x : Except Fault α} {f : α → Except Fault β} {b : β}
    (h : x >>= f = .ok b) : ∃ a, x = .ok a ∧ f a = .ok b := by
  cases x with
  | error fault => cases h
  | ok a => exact ⟨a, rfl, h⟩

variable {pieces : List BlockBuilder.Piece} {points : List ℕ} {cmp : Slice → Slice →
  Ordering} {it it' : BlockIterator}

namespace BlockIterator

/-- An entry has been decoded, so there was no error. -/
theorem status_of_found (h : it.parseNextKey = .ok (it', true)) : it'.s = it.s := by
  rw [parseNextKey] at h
  obtain ⟨offset, -, h⟩ := Fault.exists_of_bind h
  simp only at h
  split at h
  · cases h
  · obtain ⟨e, -, h⟩ := Fault.exists_of_bind h
    cases e with
    | none => cases h
    | some e =>
      simp only at h
      split at h
      · cases h
      · obtain ⟨delta, -, h⟩ := Fault.exists_of_bind h
        obtain ⟨index, -, h⟩ := Fault.exists_of_bind h
        cases h
        rfl

theorem status_seekToRestartPoint {index : ℕ} (h : it.seekToRestartPoint index = .ok it') : it'.s = it.s := by
  obtain ⟨offset, -, h⟩ := Fault.exists_of_bind h
  cases h
  rfl

end BlockIterator

namespace BlockBuilder

variable {i : ℕ} (hlayout : Layout pieces points) (hsize : (contents pieces points).length < 2 ^ 32)

include hlayout hsize

theorem Before.status (h : Before pieces points i it) (hi : i ≤ pieces.length) {found : Bool}
    (hparse : it.parseNextKey = .ok (it', found)) : it'.s = it.s := by
  rcases Nat.lt_or_eq_of_le hi with hlt | rfl
  · obtain ⟨it₁, hparse', -⟩ := h.parseNextKey hlayout hsize hlt
    obtain ⟨rfl, rfl⟩ := Prod.mk.inj (Except.ok.inj (hparse.symm.trans hparse'))
    exact BlockIterator.status_of_found hparse
  · obtain ⟨rfl, -⟩ := Prod.mk.inj (Except.ok.inj (hparse.symm.trans (h.parseNextKey_end rfl)))
    rfl

theorem Before.status_scan {stop : BlockIterator → Except Fault Bool} {fuel : ℕ} (h : Before pieces points i it)
    (hi : i ≤ pieces.length) (hscan : BlockIterator.scan stop fuel it = .ok it') : it'.s = it.s := by
  induction fuel generalizing i it with
  | zero => cases hscan
  | succ fuel ih =>
    rw [BlockIterator.scan] at hscan
    rcases Nat.lt_or_eq_of_le hi with hlt | rfl
    · obtain ⟨it₁, hparse, hat⟩ := h.parseNextKey hlayout hsize hlt
      have hstatus := BlockIterator.status_of_found hparse
      rw [hparse, Fault.ok_bind] at hscan
      simp only [if_true] at hscan
      obtain ⟨b, -, hscan⟩ := Fault.exists_of_bind hscan
      cases b with
      | true =>
        cases hscan
        exact hstatus
      | false => exact (ih (hat.before hlayout hsize) hlt hscan).trans hstatus
    · rw [h.parseNextKey_end rfl] at hscan
      cases hscan
      rfl

/-- From a restart point on. -/
theorem status_seek_scan (h : it.base = view pieces points) {j : ℕ} (hj : j < points.length)
    {stop : BlockIterator → Except Fault Bool} {fuel : ℕ}
    (hscan : (it.seekToRestartPoint j >>= BlockIterator.scan stop fuel) = .ok it') : it'.s = it.s := by
  have hr := List.getElem?_eq_getElem hj
  have hbound := hlayout.bound _ (List.mem_of_getElem? hr)
  obtain ⟨it₁, hseek, hbefore⟩ := seekToRestartPoint_before hlayout hsize h hr
  rw [hseek, Fault.ok_bind] at hscan
  exact (hbefore.status_scan hlayout hsize (by omega) hscan).trans (BlockIterator.status_seekToRestartPoint hseek)

theorem status_seek {target : Slice} (h : it.base = view pieces points) {fuel : ℕ} (hfuel : points.length < fuel)
    (hseek : it.Seek cmp fuel target = .ok it') : it'.s = it.s := by
  have hnum : it.numrestarts = points.length := BlockIterator.numrestarts_of_base h
  have hpos := (wf_view hlayout hsize).numrestarts
  simp only [view, BlockIterator.new] at hpos
  obtain ⟨left, hsearch, hleft, -⟩ := @searchRestart_eq _ _ _ cmp target hlayout hsize h fuel _ _
    (Nat.zero_le (it.numrestarts - 1)) (by omega) (by omega) (Or.inl rfl)
  rw [BlockIterator.Seek, hsearch, Fault.ok_bind] at hseek
  exact status_seek_scan hlayout hsize h hleft hseek

theorem status_prev (h : At pieces points i it) {fuel : ℕ} (hprev : it.Prev fuel = .ok it') : it'.s = it.s := by
  obtain ⟨res, hres, hsome, -⟩ := restartBefore_eq hsize h.base it.current h.restartIndex
  rw [BlockIterator.Prev, if_pos h.valid] at hprev
  simp only [hres, Fault.ok_bind] at hprev
  cases res with
  | none =>
    cases hprev
    rfl
  | some j =>
    obtain ⟨r, hr, -⟩ := hsome j rfl
    exact status_seek_scan hlayout hsize h.base (List.getElem?_eq_some_iff.1 hr).1 hprev

/-- No call that is allowed changes the status. -/
theorem status_call {fuel : ℕ} (hfuel : points.length < fuel) {s s' : Block.Iter}
    {p p' : Option (Place (Slice × Slice))}
    {c : Call Slice} (h : Shown pieces points s p) (hcall : Cursor.call cmp (pieces.map Piece.pair) p c = some p')
    (hs' : s.call cmp fuel c = .ok s') : s'.status = s.status := by
  obtain ⟨it, rfl, hbase, -⟩ := id h
  have hnum : it.numrestarts = points.length := BlockIterator.numrestarts_of_base hbase
  have hpos := (wf_view hlayout hsize).numrestarts
  simp only [view, BlockIterator.new] at hpos
  have hiter : ∀ {r : Except Fault BlockIterator}, Block.Iter.Entries <$> r = .ok s' →
      ∃ it', r = .ok it' ∧ s' = .Entries it' := by
    rintro (f | it') hr
    · cases hr
    · cases hr
      exact ⟨it', rfl, rfl⟩
  cases c with
  | Seek target =>
    obtain ⟨it', hseek, rfl⟩ := hiter hs'
    exact status_seek hlayout hsize hbase hfuel hseek
  | SeekToFirst =>
    obtain ⟨it', hseek, rfl⟩ := hiter hs'
    have hr : points[0]? = some 0 := by
      rw [← List.head?_eq_getElem?]
      exact hlayout.head
    obtain ⟨it₁, hpoint, hbefore⟩ := seekToRestartPoint_before hlayout hsize hbase hr
    rw [BlockIterator.SeekToFirst, hpoint, Fault.ok_bind] at hseek
    obtain ⟨⟨it₂, found⟩, hparse, hseek⟩ := Fault.exists_of_bind hseek
    cases hseek
    exact (hbefore.status hlayout hsize (Nat.zero_le _) hparse).trans (BlockIterator.status_seekToRestartPoint hpoint)
  | SeekToLast =>
    obtain ⟨it', hseek, rfl⟩ := hiter hs'
    rw [BlockIterator.SeekToLast] at hseek
    obtain ⟨it₁, hpoint, hseek⟩ := Fault.exists_of_bind hseek
    have hr := List.getElem?_eq_getElem (l := points) (i := it.numrestarts - 1) (by omega)
    have hbound := hlayout.bound _ (List.mem_of_getElem? hr)
    obtain ⟨it₂, hpoint', hbefore⟩ := seekToRestartPoint_before hlayout hsize hbase hr
    obtain rfl := Except.ok.inj (hpoint.symm.trans hpoint')
    exact (hbefore.status_scan hlayout hsize (by omega) hseek).trans (BlockIterator.status_seekToRestartPoint hpoint)
  | Next =>
    obtain ⟨it', hnext, rfl⟩ := hiter hs'
    obtain ⟨q, rfl, -⟩ := Option.map_eq_some_iff.1 hcall
    obtain ⟨it₁, i, piece, heq, hat, hpiece, -, -⟩ := h.at
    cases heq
    rw [BlockIterator.Next, if_pos hat.valid] at hnext
    obtain ⟨⟨it₂, found⟩, hparse, hnext⟩ := Fault.exists_of_bind hnext
    cases hnext
    exact (hat.before hlayout hsize).status hlayout hsize (List.getElem?_eq_some_iff.1 hpiece).1 hparse
  | Prev =>
    obtain ⟨it', hprev, rfl⟩ := hiter hs'
    obtain ⟨q, rfl, -⟩ := Option.map_eq_some_iff.1 hcall
    obtain ⟨it₁, i, piece, heq, hat, -, -, -⟩ := h.at
    cases heq
    exact status_prev hlayout hsize hat hprev

end BlockBuilder

/-! ### Iterators over blocks that were built -/

/-- The iterator is over a block with these pairs, and is where the cursor is. -/
def Block.Iter.Reads (fuel : ℕ) (l : List (Slice × Slice)) (s : Block.Iter)
    (p : Option (Place (Slice × Slice))) : Prop :=
  s.status = .OK ∧ ∃ pieces points, BlockBuilder.Layout pieces points ∧
    (BlockBuilder.contents pieces points).length < 2 ^ 32 ∧ pieces.length < fuel ∧ points.length < fuel ∧
    pieces.map BlockBuilder.Piece.pair = l ∧ BlockBuilder.Shown pieces points s p

namespace Block.Iter

variable [Std.TransCmp cmp] {l : List (Slice × Slice)} {fuel : ℕ}

theorem call_reads (hl : Increasing cmp l) {s : Block.Iter} {p p' : Option (Place (Slice × Slice))} {c : Call Slice}
    (h : Reads fuel l s p) (hcall : Cursor.call cmp l p c = some p') :
    ∃ s', s.call cmp fuel c = .ok s' ∧ Reads fuel l s' p' := by
  obtain ⟨hok, pieces, points, hlayout, hsize, hfuel, hfuel', rfl, hshown⟩ := h
  obtain ⟨s', hs', hshown'⟩ := BlockBuilder.call_shown hlayout hsize hl hfuel hfuel' hshown hcall
  refine ⟨s', hs', ?_, pieces, points, hlayout, hsize, hfuel, hfuel', rfl, hshown'⟩
  rw [BlockBuilder.status_call hlayout hsize hfuel' hshown hcall hs', hok]

theorem reads_shows (hl : Increasing cmp l) : (interface cmp fuel).Shows cmp l (Reads fuel l) where
  valid := by
    rintro s p ⟨-, pieces, points, hlayout, hsize, hfuel, hfuel', rfl, hshown⟩
    exact (BlockBuilder.interface_shows hlayout hsize hl hfuel hfuel').valid s p hshown
  key := by
    rintro s q ⟨-, pieces, points, hlayout, hsize, hfuel, hfuel', rfl, hshown⟩
    exact (BlockBuilder.interface_shows hlayout hsize hl hfuel hfuel').key s q hshown
  value := by
    rintro s q ⟨-, pieces, points, hlayout, hsize, hfuel, hfuel', rfl, hshown⟩
    exact (BlockBuilder.interface_shows hlayout hsize hl hfuel hfuel').value s q hshown
  call := by
    intro s p c p' h hcall
    obtain ⟨s', hs', hreads⟩ := call_reads hl h hcall
    exact ⟨s', call_interface hs', hreads⟩

/-- The block that is built from the pairs is opened. -/
theorem exists_reads {interval : ℕ} (hinterval : 1 ≤ interval) (hl : Increasing cmp l) {raw : Slice}
    (hraw : raw = (BlockBuilder.build cmp interval l).getD []) (hsize : raw.length < 2 ^ 32) (hfuel : 2 ^ 32 ≤ fuel) :
    ∃ block start, Block.new raw = .ok block ∧ block.NewIterator = .ok start ∧ Reads fuel l start none := by
  obtain ⟨b, pieces, points, hadd, hbuilt, rfl⟩ := BlockBuilder.exists_built hinterval hl
  have hcontents : raw = BlockBuilder.contents pieces points := by
    rw [hraw, BlockBuilder.build, hadd, Option.map_some, hbuilt.finish]
    rfl
  rw [hcontents] at hsize ⊢
  have hlength := BlockBuilder.length_contents pieces points
  have hpieces := BlockBuilder.index_le_offset (Nat.le_refl pieces.length)
  rw [BlockBuilder.offset_length] at hpieces
  obtain ⟨block, hblock, hiterator⟩ := Fault.exists_of_bind (BlockBuilder.iterator_contents hbuilt.layout hsize)
  refine ⟨block, _, hblock, hiterator, rfl, pieces, points, hbuilt.layout, hsize, by omega, by omega, rfl, ?_⟩
  exact ⟨_, rfl, rfl, pieces.length, Or.inr ⟨rfl, rfl, rfl⟩, (Cursor.nth_eq_none (by rw [List.length_map])).symm⟩

end Block.Iter

end RedisDb
