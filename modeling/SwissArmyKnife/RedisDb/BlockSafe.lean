import SwissArmyKnife.RedisDb.Block

/-!
# Blocks with arbitrary contents

The contents of a block are not trusted.  When the entries that a call decodes (`Decodes`) have no lengths whose
32-bit sum overflows, and neither does a sum in the binary search (`Fits`), the call ends without a read outside of
the block, what is shown lies in the entries, and an entry that is not consistent is reported as a corruption
(`calls_safe`).
-/

namespace RedisDb

open Cursor (Call)

namespace BlockIterator

/-! ### Entries -/

theorem length_of_decodeLengths {input rest : Slice} {shared nonShared valueLength : UInt32}
    (h : decodeLengths input = some (shared, nonShared, valueLength, rest)) : rest.length + 3 ≤ input.length := by
  match input with
  | [] | [_] | [_, _] => cases h
  | b₀ :: b₁ :: b₂ :: tail =>
    rw [decodeLengths] at h
    split at h
    · obtain ⟨-, -, -, rfl⟩ : _ ∧ _ ∧ _ ∧ tail = rest := by simpa using h
      simp
    · obtain ⟨⟨_, input₁⟩, h₁, h⟩ := Option.bind_eq_some_iff.1 h
      obtain ⟨⟨_, input₂⟩, h₂, h⟩ := Option.bind_eq_some_iff.1 h
      obtain ⟨⟨_, input₃⟩, h₃, h⟩ := Option.bind_eq_some_iff.1 h
      obtain ⟨-, -, -, rfl⟩ : _ ∧ _ ∧ _ ∧ input₃ = rest := by simpa using h
      have := length_of_getVarint32 h₁
      have := length_of_getVarint32 h₂
      have := length_of_getVarint32 h₃
      omega

variable {b it : BlockIterator}

/-- The restart array lies in the block, after the entries. -/
structure Wf (b : BlockIterator) : Prop where
  data : b.restarts + 4 * b.numrestarts ≤ b.data.length
  restarts : b.restarts < 2 ^ 32
  numrestarts : 0 < b.numrestarts

theorem entryAt_spec {offset : ℕ} {e : BlockEntry} (he : b.entryAt offset = some e)
    (hfits : e.nonShared.toNat + e.valueLength.toNat < 2 ^ 32) : offset + 3 ≤ e.p ∧ e.stop ≤ b.restarts := by
  rw [entryAt] at he
  split at he
  · rw [decodeEntryBytes] at he
    split at he
    · rename_i shared nonShared valueLength rest hlengths
      split at he
      · cases he
      · rename_i hcheck
        cases he
        have hlength := length_of_decodeLengths hlengths
        have hfits : nonShared.toNat + valueLength.toNat < 2 ^ 32 := hfits
        -- Without wrap-around the check of `decodeEntry` is the one that it should be.
        have hcheck : nonShared.toNat + valueLength.toNat ≤ rest.length := by
          have hnot := mt UInt32.lt_iff_toNat_lt.2 hcheck
          rw [UInt32.toNat_ofNat', UInt32.toNat_add, Nat.mod_eq_of_lt hfits] at hnot
          have := Nat.mod_le rest.length (2 ^ 32)
          omega
        simp only [List.length_take, List.length_drop] at hlength
        simp only [BlockEntry.stop, BlockEntry.value]
        omega
    · cases he
  · cases he

/-- The offsets at which an iterator decodes an entry, with the key that the entry extends. -/
inductive Reaches (b : BlockIterator) : ℕ → Slice → Prop
  | restart {index offset : ℕ} (h : b.getRestartPoint index = .ok offset) : Reaches b offset []
  | entry {offset : ℕ} {k : Slice} {e : BlockEntry} (h : Reaches b offset k) (he : b.entryAt offset = some e)
      (hshared : e.shared.toNat ≤ k.length) : Reaches b e.stop (k.take e.shared.toNat ++ b.delta e)

/-- The lengths of an entry that extends the key do not overflow, if they pass the check of `decodeEntry`. -/
def FitsAt (b : BlockIterator) (offset : ℕ) (k : Slice) : Prop :=
  ∀ e, b.entryAt offset = some e → e.shared.toNat ≤ k.length → e.nonShared.toNat + e.valueLength.toNat < 2 ^ 32

/-! ### What a call decodes -/

/-- The offsets at which a scan from a restart point decodes an entry, with the key that the entry extends.  The scan
goes on behind an entry unless `stop` holds of its end and its key. -/
inductive Scans (b : BlockIterator) (stop : ℕ → Slice → Prop) (index : ℕ) : ℕ → Slice → Prop
  | restart {offset : ℕ} (h : b.getRestartPoint index = .ok offset) : Scans b stop index offset []
  | entry {offset : ℕ} {k : Slice} {e : BlockEntry} (h : Scans b stop index offset k)
      (he : b.entryAt offset = some e) (hshared : e.shared.toNat ≤ k.length)
      (hgo : ¬ stop e.stop (k.take e.shared.toNat ++ b.delta e)) :
      Scans b stop index e.stop (k.take e.shared.toNat ++ b.delta e)

/-- The intervals of the binary search in `Seek`. -/
inductive Narrows (b : BlockIterator) (cmp : Slice → Slice → Ordering) (target : Slice) : ℕ → ℕ → Prop
  | all : Narrows b cmp target 0 (b.numrestarts - 1)
  | upper {left right offset : ℕ} {e : BlockEntry} (h : Narrows b cmp target left right) (hlt : left < right)
      (hpoint : b.getRestartPoint ((left + right + 1) / 2) = .ok offset) (he : b.entryAt offset = some e)
      (hshared : e.shared = 0) (hless : cmp (b.delta e) target = .lt) :
      Narrows b cmp target ((left + right + 1) / 2) right
  | lower {left right offset : ℕ} {e : BlockEntry} (h : Narrows b cmp target left right) (hlt : left < right)
      (hpoint : b.getRestartPoint ((left + right + 1) / 2) = .ok offset) (he : b.entryAt offset = some e)
      (hshared : e.shared = 0) (hnot : cmp (b.delta e) target ≠ .lt) :
      Narrows b cmp target left ((left + right + 1) / 2 - 1)

/-- The iterator before its first call. -/
def base (it : BlockIterator) : BlockIterator := new it.data it.restarts it.numrestarts

/-- The offsets at which a call decodes an entry, with the key that the entry extends. -/
inductive Decodes (cmp : Slice → Slice → Ordering) (it : BlockIterator) : Call Slice → ℕ → Slice → Prop
  | probe {target : Slice} {left right offset : ℕ} (h : it.base.Narrows cmp target left right) (hlt : left < right)
      (hpoint : it.base.getRestartPoint ((left + right + 1) / 2) = .ok offset) :
      Decodes cmp it (.Seek target) offset []
  | seek {target : Slice} {index offset : ℕ} {k : Slice} (h : it.base.Narrows cmp target index index)
      (hscans : it.base.Scans (fun _ k => cmp k target ≠ .lt) index offset k) : Decodes cmp it (.Seek target) offset k
  | first {offset : ℕ} (h : it.base.getRestartPoint 0 = .ok offset) : Decodes cmp it .SeekToFirst offset []
  | last {offset : ℕ} {k : Slice}
      (h : it.base.Scans (fun stop _ => it.restarts ≤ stop) (it.numrestarts - 1) offset k) :
      Decodes cmp it .SeekToLast offset k
  | next {offset : ℕ} (h : it.nextEntryOffset = .ok offset) : Decodes cmp it .Next offset it.k
  | prev {index offset : ℕ} {k : Slice} (h : it.restartBefore it.current it.restartIndex = .ok (some index))
      (hscans : it.base.Scans (fun stop _ => it.current ≤ stop) index offset k) : Decodes cmp it .Prev offset k

/-- The sums of 32-bit numbers in `decodeEntry` and in the binary search do not overflow in a call. -/
structure Fits (cmp : Slice → Slice → Ordering) (it : BlockIterator) (c : Call Slice) : Prop where
  entries : ∀ offset k, it.Decodes cmp c offset k → it.base.FitsAt offset k
  indices : ∀ target left right, c = .Seek target → it.base.Narrows cmp target left right → left < right →
    left + right + 1 < 2 ^ 32

/-! ### Where an iterator can be -/

/-- The key and the value are those of the entry at `current`, which extends `k` and lies in front of the restart
array. -/
structure StandsAt (b it : BlockIterator) (k : Slice) (e : BlockEntry) : Prop where
  base : it.base = b
  restartIndex : it.restartIndex < b.numrestarts
  reached : Reaches b it.current k
  entry : b.entryAt it.current = some e
  shared : e.shared.toNat ≤ k.length
  key : it.k = k.take e.shared.toNat ++ b.delta e
  value : it.v = some (e.value, e.valueLength.toNat)
  current : it.current + 3 ≤ e.p
  stop : e.stop ≤ b.restarts

def Stands (b it : BlockIterator) : Prop := ∃ k e, StandsAt b it k e

/-- The iterator has come to the end of the entries. -/
structure Ended (b it : BlockIterator) : Prop where
  base : it.base = b
  current : it.current = b.restarts
  reached : ∃ offset, it.nextEntryOffset = .ok offset ∧ b.restarts ≤ offset ∧ Reaches b offset it.k

/-- The iterator has met an entry that is not consistent. -/
structure Corrupt (b it : BlockIterator) : Prop where
  base : it.base = b
  current : it.current = b.restarts
  v : it.v = none
  s : it.s = .Corruption "bad entry in block"

/-- The iterator is about to decode an entry. -/
structure Ready (b it : BlockIterator) (offset : ℕ) : Prop where
  base : it.base = b
  restartIndex : it.restartIndex < b.numrestarts
  nextEntryOffset : it.nextEntryOffset = .ok offset
  reached : Reaches b offset it.k

theorem restarts_of_base (h : it.base = b) : it.restarts = b.restarts := by
  subst h
  rfl

theorem numrestarts_of_base (h : it.base = b) : it.numrestarts = b.numrestarts := by
  subst h
  rfl

theorem entryAt_of_base (h : it.base = b) (offset : ℕ) : it.entryAt offset = b.entryAt offset := by
  subst h
  rfl

theorem Wf.restarts_le (hb : b.Wf) (h : it.base = b) : it.restarts ≤ it.data.length := by
  subst h
  exact Nat.le_trans (Nat.le_add_right ..) hb.data

theorem Corrupt.of_base (h : it.base = b) : Corrupt b it.corruptionError where
  base := h
  current := by subst h; rfl
  v := rfl
  s := rfl

theorem getRestartPoint_ok (hb : b.Wf) (h : it.base = b) {index : ℕ} (hindex : index < b.numrestarts) :
    ∃ offset, it.getRestartPoint index = .ok offset ∧ b.getRestartPoint index = .ok offset ∧ offset < 2 ^ 32 := by
  subst h
  have hdata := hb.data
  simp only [BlockIterator.base, new] at hdata hindex
  have hread : readFixed32 it.data (it.restarts + index * 4) =
      .ok (DecodeFixed32 ((it.data.drop (it.restarts + index * 4)).take 4)).toNat := by
    rw [readFixed32, readBytes_of_le (by omega)]
    rfl
  exact ⟨_, (if_pos hindex).trans hread, (if_pos hindex).trans hread, UInt32.toNat_lt _⟩

theorem advanceRestart_ok (hb : b.Wf) (h : it.base = b) {index : ℕ} (hindex : index < b.numrestarts) :
    ∃ index', it.advanceRestart index = .ok index' ∧ index' < b.numrestarts := by
  have hnum := numrestarts_of_base h
  induction hn : b.numrestarts - index generalizing index with
  | zero => omega
  | succ n ih =>
    rw [advanceRestart]
    split
    · obtain ⟨offset, hoffset, -, -⟩ := getRestartPoint_ok hb h (show index + 1 < b.numrestarts by omega)
      rw [hoffset, Fault.ok_bind]
      split
      · exact ih (by omega) (by omega)
      · exact ⟨index, rfl, hindex⟩
    · exact ⟨index, rfl, hindex⟩

theorem StandsAt.ready {k : Slice} {e : BlockEntry} (h : StandsAt b it k e) (hb : b.Wf) : Ready b it e.stop := by
  refine ⟨h.base, h.restartIndex, ?_, ?_⟩
  · rw [nextEntryOffset, h.value]
    exact congrArg _ (Nat.mod_eq_of_lt (Nat.lt_of_le_of_lt h.stop hb.restarts))
  · rw [h.key]
    exact h.reached.entry h.entry h.shared

/-- An iterator after a call. -/
inductive Settled (b it : BlockIterator) : Prop
  | stands (h : Stands b it)
  | ended (h : Ended b it)
  | corrupt (h : Corrupt b it)

/-- What `parseNextKey` does at an offset. -/
theorem Ready.parseNextKey (hb : b.Wf) {offset : ℕ} (h : Ready b it offset) (hfits : b.FitsAt offset it.k) :
    (∃ it' e, it.parseNextKey = .ok (it', true) ∧ StandsAt b it' it.k e ∧ it'.current = offset) ∨
    ∃ it', it.parseNextKey = .ok (it', false) ∧ (Ended b it' ∨ Corrupt b it') := by
  have hbase := h.base
  have hrestarts := restarts_of_base hbase
  have hdata := hb.restarts_le hbase
  have hentryAt := entryAt_of_base hbase offset
  rcases Nat.lt_or_ge offset b.restarts with hlt | hge
  · by_cases hgood : ∃ e, b.entryAt offset = some e ∧ e.shared.toNat ≤ it.k.length
    · obtain ⟨e, he, hshared⟩ := hgood
      obtain ⟨hp, hstop⟩ := entryAt_spec he (hfits e he hshared)
      have hvalue : e.value ≤ e.stop := Nat.le_add_right ..
      obtain ⟨index, hindex, hlt'⟩ := @advanceRestart_ok _ { it with current := offset } hb hbase _ h.restartIndex
      left
      refine ⟨_, e, parseNextKey_entry h.nextEntryOffset (by omega) hdata (hentryAt.trans he) hshared (by omega)
        hindex, ⟨hbase, hlt', h.reached, he, hshared, ?_, rfl, hp, hstop⟩, rfl⟩
      subst hbase
      rfl
    · right
      refine ⟨_, parseNextKey_bad h.nextEntryOffset (by omega) hdata ?_, Or.inr (Corrupt.of_base hbase)⟩
      intro e he
      by_contra hshared
      exact hgood ⟨e, hentryAt ▸ he, Nat.not_lt.1 hshared⟩
  · right
    exact ⟨_, parseNextKey_end h.nextEntryOffset (by omega), Or.inl ⟨hbase, hrestarts, offset, h.nextEntryOffset, hge,
      h.reached⟩⟩

theorem Ready.parse_settled (hb : b.Wf) {offset : ℕ} (h : Ready b it offset) (hfits : b.FitsAt offset it.k) :
    ∃ r, it.parseNextKey = .ok r ∧ Settled b r.1 := by
  rcases h.parseNextKey hb hfits with ⟨it', e, hparse, hstands, -⟩ | ⟨it', hparse, hend⟩
  · exact ⟨_, hparse, .stands ⟨_, _, hstands⟩⟩
  · exact ⟨_, hparse, hend.elim .ended .corrupt⟩

/-- A scan advances with every entry. -/
theorem Ready.scan (hb : b.Wf) {stop : BlockIterator → Except Fault Bool} {P : ℕ → Slice → Prop} {index : ℕ}
    (hstop : ∀ it k e, StandsAt b it k e → ∃ r, stop it = .ok r ∧ (r = false → ¬ P e.stop it.k))
    (hfits : ∀ offset k, b.Scans P index offset k → b.FitsAt offset k) {fuel offset : ℕ} (h : Ready b it offset)
    (hscans : b.Scans P index offset it.k) (hfuel : b.restarts - offset < fuel) :
    ∃ it', scan stop fuel it = .ok it' ∧ Settled b it' := by
  -- Each entry ends after its offset, so what is left of the entries decreases.
  induction fuel generalizing it offset with
  | zero => omega
  | succ fuel ih =>
    rw [BlockIterator.scan]
    rcases h.parseNextKey hb (hfits _ _ hscans) with ⟨it', e, hparse, hstands, rfl⟩ | ⟨it', hparse, hend⟩
    · obtain ⟨r, hr, hgo⟩ := hstop it' it.k e hstands
      rw [hparse, Fault.ok_bind]
      simp only [↓reduceIte, hr, Fault.ok_bind]
      cases r with
      | true => exact ⟨it', rfl, .stands ⟨_, _, hstands⟩⟩
      | false =>
        have hnext := hscans.entry hstands.entry hstands.shared (hstands.key ▸ hgo rfl)
        have hless : it'.current < e.stop := by
          have := hstands.current
          simp only [BlockEntry.stop, BlockEntry.value]
          omega
        have := hstands.stop
        exact ih (hstands.ready hb) (hstands.key.symm ▸ hnext) (by omega)
    · rw [hparse]
      rcases hend with hend | hend
      · exact ⟨it', rfl, .ended hend⟩
      · exact ⟨it', rfl, .corrupt hend⟩

theorem seekToRestartPoint_ok (hb : b.Wf) (h : it.base = b) {index : ℕ} (hindex : index < b.numrestarts) :
    ∃ it' offset, it.seekToRestartPoint index = .ok it' ∧ Ready b it' offset ∧ it'.k = [] ∧
      b.getRestartPoint index = .ok offset := by
  obtain ⟨offset, hoffset, hreached, hlt⟩ := getRestartPoint_ok hb h hindex
  refine ⟨{ it with k := [], restartIndex := index, v := some (offset, 0) }, offset, ?_, ⟨h, hindex, ?_,
    .restart hreached⟩, rfl, hreached⟩
  · rw [seekToRestartPoint, hoffset]
    rfl
  · rw [nextEntryOffset]
    exact congrArg _ (Nat.mod_eq_of_lt hlt)

/-- A scan from a restart point. -/
theorem scanFrom_ok (hb : b.Wf) (h : it.base = b) {index : ℕ} (hindex : index < b.numrestarts)
    {stop : BlockIterator → Except Fault Bool} {P : ℕ → Slice → Prop}
    (hstop : ∀ it k e, StandsAt b it k e → ∃ r, stop it = .ok r ∧ (r = false → ¬ P e.stop it.k))
    (hfits : ∀ offset k, b.Scans P index offset k → b.FitsAt offset k) {fuel : ℕ} (hfuel : b.restarts < fuel) :
    ∃ it', (it.seekToRestartPoint index >>= scan stop fuel) = .ok it' ∧ Settled b it' := by
  obtain ⟨it₁, offset, hseek, hready, hk, hpoint⟩ := seekToRestartPoint_ok hb h hindex
  rw [hseek, Fault.ok_bind]
  exact hready.scan hb hstop hfits (hk ▸ .restart hpoint) (by omega)

theorem endsAt_ok (hb : b.Wf) (bound : ℕ) (it : BlockIterator) (k : Slice) (e : BlockEntry)
    (h : StandsAt b it k e) : ∃ r, endsAt bound it = .ok r ∧ (r = false → ¬ bound ≤ e.stop) := by
  rw [endsAt, (h.ready hb).nextEntryOffset]
  exact ⟨decide (bound ≤ e.stop), rfl, of_decide_eq_false⟩

/-! ### Calls -/

theorem Stands.valid (h : Stands b it) : it.Valid = true := by
  obtain ⟨k, e, h⟩ := h
  have hrestarts := restarts_of_base h.base
  have hcurrent := h.current
  have hstop := h.stop
  simp only [BlockEntry.stop, BlockEntry.value] at hstop
  simp only [Valid, decide_eq_true_eq]
  omega

variable {cmp : Slice → Slice → Ordering}

theorem Next_ok (hb : b.Wf) (h : Stands b it) (hfits : it.Fits cmp .Next) :
    ∃ it', it.Next = .ok it' ∧ Settled b it' := by
  rw [Next, if_pos h.valid]
  obtain ⟨k, e, h⟩ := h
  have hready := h.ready hb
  have hfits := hfits.entries _ _ (.next hready.nextEntryOffset)
  rw [h.base] at hfits
  obtain ⟨r, hparse, hsettled⟩ := hready.parse_settled hb hfits
  exact ⟨r.1, by rw [hparse]; rfl, hsettled⟩

theorem SeekToFirst_ok (hb : b.Wf) (h : it.base = b) (hfits : it.Fits cmp .SeekToFirst) :
    ∃ it', it.SeekToFirst = .ok it' ∧ Settled b it' := by
  subst h
  obtain ⟨it₁, offset, hseek, hready, hk, hpoint⟩ := seekToRestartPoint_ok hb rfl hb.numrestarts
  rw [SeekToFirst, hseek, Fault.ok_bind]
  obtain ⟨r, hparse, hsettled⟩ := hready.parse_settled hb (hk ▸ hfits.entries _ _ (.first hpoint))
  exact ⟨r.1, by rw [hparse]; rfl, hsettled⟩

theorem SeekToLast_ok (hb : b.Wf) (h : it.base = b) (hfits : it.Fits cmp .SeekToLast) {fuel : ℕ}
    (hfuel : b.restarts < fuel) : ∃ it', it.SeekToLast fuel = .ok it' ∧ Settled b it' := by
  subst h
  obtain ⟨it₁, offset, hseek, hready, hk, hpoint⟩ :=
    seekToRestartPoint_ok hb rfl (Nat.sub_lt hb.numrestarts Nat.one_pos)
  rw [SeekToLast, show it.seekToRestartPoint (it.numrestarts - 1) = .ok it₁ from hseek, Fault.ok_bind,
    restarts_of_base hready.base]
  exact hready.scan hb (endsAt_ok hb _) (fun offset k hscans => hfits.entries offset k (.last hscans))
    (hk ▸ .restart hpoint) (by omega)

theorem restartBefore_ok (hb : b.Wf) (h : it.base = b) (original : ℕ) {index : ℕ} (hindex : index < b.numrestarts) :
    ∃ r, it.restartBefore original index = .ok r ∧ (∀ index' ∈ r, index' < b.numrestarts) ∧
      (r = none → ∃ offset, b.getRestartPoint 0 = .ok offset ∧ original ≤ offset) := by
  induction index with
  | zero =>
    obtain ⟨offset, hoffset, hpoint, -⟩ := getRestartPoint_ok hb h hindex
    rw [restartBefore, hoffset, Fault.ok_bind]
    split
    · rename_i hle
      exact ⟨none, rfl, by simp, fun _ => ⟨offset, hpoint, hle⟩⟩
    · exact ⟨some 0, rfl, by simpa using hindex, by simp⟩
  | succ index ih =>
    obtain ⟨offset, hoffset, -, -⟩ := getRestartPoint_ok hb h hindex
    rw [restartBefore, hoffset, Fault.ok_bind]
    split
    · exact ih (by omega)
    · exact ⟨some (index + 1), rfl, by simpa using hindex, by simp⟩

/-- `Prev` may also find that the iterator is at the first entry. -/
theorem Prev_ok (hb : b.Wf) (h : Stands b it) (hfits : it.Fits cmp .Prev) {fuel : ℕ} (hfuel : b.restarts < fuel) :
    ∃ it', it.Prev fuel = .ok it' ∧ (Settled b it' ∨ it' = it.invalidate ∧
      ∃ offset, b.getRestartPoint 0 = .ok offset ∧ it.current ≤ offset) := by
  rw [Prev, if_pos h.valid]
  obtain ⟨k, e, h⟩ := h
  obtain ⟨r, hr, hindex, hnone⟩ := restartBefore_ok hb h.base it.current h.restartIndex
  simp only [hr, Fault.ok_bind]
  cases r with
  | none => exact ⟨it.invalidate, rfl, Or.inr ⟨rfl, hnone rfl⟩⟩
  | some index =>
    have hbase := h.base
    subst hbase
    obtain ⟨it', hscan, hsettled⟩ := scanFrom_ok hb rfl (hindex index rfl) (endsAt_ok hb it.current)
      (fun offset k hscans => hfits.entries offset k (.prev hr hscans)) hfuel
    exact ⟨it', hscan, Or.inl hsettled⟩

/-- The binary search halves an interval of indices, whose sums do not overflow. -/
theorem searchRestart_ok (hb : b.Wf) (h : it.base = b) {target : Slice} (hfits : it.Fits cmp (.Seek target))
    {fuel left right : ℕ} (hle : left ≤ right) (hright : right < b.numrestarts) (hfuel : right - left < fuel)
    (hnarrows : b.Narrows cmp target left right) :
    ∃ r, it.searchRestart cmp target fuel left right = .ok r ∧
      ∀ index ∈ r, index < b.numrestarts ∧ b.Narrows cmp target index index := by
  have hrestarts := restarts_of_base h
  have hdata := hb.restarts_le h
  have hentryAt := entryAt_of_base h
  induction fuel generalizing left right with
  | zero => omega
  | succ fuel ih =>
    rw [searchRestart]
    split
    · rename_i hlt
      have hmod : (left + right + 1) % 2 ^ 32 = left + right + 1 :=
        Nat.mod_eq_of_lt (hfits.indices target left right rfl (h ▸ hnarrows) hlt)
      obtain ⟨offset, hoffset, hpoint, -⟩ := getRestartPoint_ok hb h
        (show (left + right + 1) / 2 < b.numrestarts by omega)
      have hfit := hfits.entries offset [] (.probe (h ▸ hnarrows) hlt (h ▸ hpoint))
      rw [h] at hfit
      simp only [hmod, hoffset, Fault.ok_bind, decodeEntry_eq hdata, hentryAt]
      cases he : b.entryAt offset with
      | none => exact ⟨none, rfl, by simp⟩
      | some e =>
        simp only []
        split
        · exact ⟨none, rfl, by simp⟩
        · rename_i hshared
          have hshared : e.shared = 0 := not_not.1 hshared
          obtain ⟨hp, hstop⟩ := entryAt_spec he (hfit e he (by simp [hshared]))
          have hvalue : e.value ≤ e.stop := Nat.le_add_right ..
          rw [readBytes_of_le (show e.p + e.nonShared.toNat ≤ it.data.length by
            simp only [BlockEntry.value] at hvalue
            omega), Fault.ok_bind, show (it.data.drop e.p).take e.nonShared.toNat = b.delta e by subst h; rfl]
          split
          · rename_i hless
            exact ih (by omega) hright (by omega) (hnarrows.upper hlt hpoint he hshared hless)
          · rename_i hnot
            rw [show ((left + right + 1) / 2 + 2 ^ 32 - 1) % 2 ^ 32 = (left + right + 1) / 2 - 1 by
              have := hfits.indices target left right rfl (h ▸ hnarrows) hlt
              omega]
            exact ih (by omega) (by omega) (by omega) (hnarrows.lower hlt hpoint he hshared hnot)
    · obtain rfl : left = right := by omega
      exact ⟨some left, rfl, fun index hindex => by
        obtain rfl := Option.some.inj hindex
        exact ⟨hright, hnarrows⟩⟩

theorem Seek_ok (hb : b.Wf) (h : it.base = b) {target : Slice} (hfits : it.Fits cmp (.Seek target)) {fuel : ℕ}
    (hfuel : b.restarts < fuel) (hfuel' : b.numrestarts < fuel) :
    ∃ it', it.Seek cmp fuel target = .ok it' ∧ Settled b it' := by
  subst h
  have hpos := hb.numrestarts
  obtain ⟨r, hr, hindex⟩ := searchRestart_ok hb rfl hfits (Nat.zero_le _) (Nat.sub_lt hpos Nat.one_pos)
    (show it.base.numrestarts - 1 - 0 < fuel by omega) .all
  rw [Seek, show it.searchRestart cmp target fuel 0 (it.numrestarts - 1) = .ok r from hr, Fault.ok_bind]
  cases r with
  | none => exact ⟨_, rfl, .corrupt (Corrupt.of_base rfl)⟩
  | some index =>
    obtain ⟨hlt, hnarrows⟩ := hindex index rfl
    exact scanFrom_ok hb rfl hlt
      (fun it k e _ => ⟨decide (cmp it.k target ≠ .lt), rfl, of_decide_eq_false⟩)
      (fun offset k hscans => hfits.entries offset k (.seek hnarrows hscans)) hfuel

end BlockIterator

namespace Block

open BlockIterator (Wf Settled Reaches)

/-- The iterator over a block with these contents. -/
def iterator (contents : Slice) : Except Fault Iter := do
  let b ← new contents
  b.NewIterator

theorem iterator_ok (contents : Slice) : ∃ start, iterator contents = .ok start ∧
    ∀ it, start = .Entries it → it.Wf ∧ it.base = it ∧ it.restarts + it.numrestarts ≤ contents.length := by
  rw [iterator, new]
  split
  · exact ⟨.Empty (.Corruption "bad block contents"), rfl, by simp⟩
  · rename_i hlength
    have hread : ∃ n < 2 ^ 32, numrestarts contents contents.length = .ok n := by
      refine ⟨(DecodeFixed32 ((contents.drop (contents.length - 4)).take 4)).toNat, UInt32.toNat_lt _, ?_⟩
      rw [numrestarts, if_pos (by omega), readFixed32, readBytes_of_le (by omega)]
      rfl
    obtain ⟨n, hn, hread⟩ := hread
    simp only [hread, Fault.ok_bind]
    split
    · exact ⟨.Empty (.Corruption "bad block contents"), rfl, by simp⟩
    · rename_i hmax
      have hnew : ∀ offset, NewIterator ⟨contents, contents.length, offset⟩ =
          if n = 0 then .ok (.Empty .OK) else .ok (.Entries (.new contents offset n)) := by
        intro offset
        rw [NewIterator, if_neg hlength, hread, Fault.ok_bind]
        rfl
      rw [show ∀ x : Block, (pure x : Except Fault Block) = .ok x from fun _ => rfl, Fault.ok_bind, hnew]
      split
      · exact ⟨_, rfl, by simp⟩
      · refine ⟨_, rfl, ?_⟩
        rintro it heq
        obtain rfl := (Iter.Entries.inj heq).symm
        refine ⟨⟨?_, Nat.mod_lt _ (by omega), by simp only [BlockIterator.new]; omega⟩, rfl, ?_⟩
        · simp only [BlockIterator.new]
          omega
        · simp only [BlockIterator.new]
          omega

namespace Iter

/-- `Next` and `Prev` may be called when the iterator is valid. -/
def Allows (s : Iter) : Call Slice → Prop
  | .Next | .Prev => s.Valid = true
  | _ => True

/-- No sum of 32-bit numbers overflows that the call adds up. -/
def Fits (cmp : Slice → Slice → Ordering) : Iter → Call Slice → Prop
  | .Empty _, _ => True
  | .Entries it, c => it.Fits cmp c

/-- A state after calls that were allowed and in which no sum overflowed. -/
inductive Reachable (cmp : Slice → Slice → Ordering) (fuel : ℕ) (start : Iter) : Iter → Prop
  | start : Reachable cmp fuel start start
  | call {s s' : Iter} {c : Call Slice} (h : Reachable cmp fuel start s) (hc : s.Allows c) (hfits : s.Fits cmp c)
      (hcall : s.call cmp fuel c = .ok s') : Reachable cmp fuel start s'

/-- A valid iterator is at an entry that is reached from a restart point.  Its key delta and its value lie between the
offset of the entry and the restart array, which is in the block. -/
def Inside : Iter → Prop
  | .Empty _ => True
  | .Entries it => it.Valid = true → ∃ k e, Reaches it.base it.current k ∧ it.entryAt it.current = some e ∧
      it.k = k.take e.shared.toNat ++ (it.data.drop e.p).take e.nonShared.toNat ∧
      it.v = some (e.p + e.nonShared.toNat, e.valueLength.toNat) ∧
      it.current < e.p ∧ e.p + e.nonShared.toNat + e.valueLength.toNat ≤ it.restarts ∧
      it.restarts + 4 * it.numrestarts ≤ it.data.length

/-- After a call the iterator is valid, or it has come to the end of the entries (for `Prev`, it was at the first
one), or it reports that an entry is not consistent. -/
def Reports (c : Call Slice) : Iter → Iter → Prop
  | .Entries it, .Entries it' => it'.Valid = true ∨
      (∃ offset, it'.nextEntryOffset = .ok offset ∧ it'.restarts ≤ offset ∧ Reaches it'.base offset it'.k) ∨
      (c = .Prev ∧ ∃ offset, it.getRestartPoint 0 = .ok offset ∧ it.current ≤ offset) ∨
      it'.v = none ∧ it'.s = .Corruption "bad entry in block"
  | s, s' => s' = s

/-- What holds of the states of a run. -/
inductive Good (b : BlockIterator) : Iter → Prop
  | entries (it : BlockIterator) (h : it.base = b) (hvalid : it.Valid = true → BlockIterator.Stands b it) :
      Good b (.Entries it)

theorem valid_eq_false {b it : BlockIterator} (h : it.base = b) (hcurrent : it.current = b.restarts) :
    it.Valid = false := by
  subst h
  simp [BlockIterator.Valid, hcurrent, BlockIterator.base, BlockIterator.new]

theorem Good.of_settled {b it : BlockIterator} (h : Settled b it) : Good b (.Entries it) := by
  cases h with
  | stands h =>
    obtain ⟨_, _, hstands⟩ := h
    exact ⟨it, hstands.base, fun _ => ⟨_, _, hstands⟩⟩
  | ended h => exact ⟨it, h.base, fun hvalid => by simp [valid_eq_false h.base h.current] at hvalid⟩
  | corrupt h => exact ⟨it, h.base, fun hvalid => by simp [valid_eq_false h.base h.current] at hvalid⟩

theorem Good.inside {b : BlockIterator} (hb : b.Wf) {s : Iter} (h : Good b s) : s.Inside := by
  cases h with
  | entries it h hvalid =>
    intro hv
    obtain ⟨k, e, hstands⟩ := hvalid hv
    have hcurrent := hstands.current
    subst h
    exact ⟨k, e, hstands.reached, hstands.entry, hstands.key, hstands.value, by omega, hstands.stop, hb.data⟩

theorem reports_of_settled {b it it' : BlockIterator} {c : Call Slice} (h : Settled b it') :
    Reports c (.Entries it) (.Entries it') := by
  cases h with
  | stands h => exact Or.inl h.valid
  | ended h =>
    obtain ⟨offset, hoffset, hle, hreached⟩ := h.reached
    have hbase := h.base
    subst hbase
    exact Or.inr (Or.inl ⟨offset, hoffset, hle, hreached⟩)
  | corrupt h => exact Or.inr (Or.inr (Or.inr ⟨h.v, h.s⟩))

theorem good_of_settled {b it : BlockIterator} {c : Call Slice} {x : Except Fault BlockIterator}
    (h : ∃ it', x = .ok it' ∧ Settled b it') :
    ∃ s', Iter.Entries <$> x = .ok s' ∧ Good b s' ∧ (Iter.Entries it).Reports c s' := by
  obtain ⟨it', rfl, hsettled⟩ := h
  exact ⟨.Entries it', rfl, .of_settled hsettled, reports_of_settled hsettled⟩

/-- One call. -/
theorem Good.call {b : BlockIterator} (hb : b.Wf) {cmp : Slice → Slice → Ordering} {fuel : ℕ}
    (hfuel : b.restarts + b.numrestarts < fuel) {s : Iter} (h : Good b s) {c : Call Slice} (hc : s.Allows c)
    (hfits : s.Fits cmp c) :
    ∃ s', s.call cmp fuel c = .ok s' ∧ Good b s' ∧ s.Reports c s' := by
  cases h with
  | entries it h hvalid =>
    cases c with
    | Seek target => exact good_of_settled (BlockIterator.Seek_ok hb h hfits (by omega) (by omega))
    | SeekToFirst => exact good_of_settled (BlockIterator.SeekToFirst_ok hb h hfits)
    | SeekToLast => exact good_of_settled (BlockIterator.SeekToLast_ok hb h hfits (by omega))
    | Next => exact good_of_settled (BlockIterator.Next_ok hb (hvalid hc) hfits)
    | Prev =>
      obtain ⟨it', hcall, hsettled | ⟨rfl, hfirst⟩⟩ := BlockIterator.Prev_ok hb (hvalid hc) hfits
        (show b.restarts < fuel by omega)
      · exact good_of_settled ⟨it', hcall, hsettled⟩
      · -- `Prev` at the first entry.
        refine ⟨.Entries it.invalidate, by rw [Iter.call, hcall]; rfl, ⟨_, h, fun hv => ?_⟩, ?_⟩
        · have hfalse := @valid_eq_false b it.invalidate h (by subst h; rfl)
          simp [hfalse] at hv
        · subst h
          exact Or.inr (Or.inr (Or.inl ⟨rfl, hfirst⟩))

/-- The calls on an iterator that is never valid. -/
theorem reachable_empty {cmp : Slice → Slice → Ordering} {fuel : ℕ} {status : Status} {s : Iter}
    (h : Reachable cmp fuel (.Empty status) s) : s = .Empty status := by
  induction h with
  | start => rfl
  | @call s s' c h hc _ hcall ih =>
    subst ih
    cases c with
    | Next | Prev => cases hc
    | _ => exact (Except.ok.inj hcall).symm

/-- Every call that is allowed has a result, whatever the contents of the block are, when no sum overflows in it or
in a call before it. -/
theorem calls_safe (contents : Slice) (cmp : Slice → Slice → Ordering) {fuel : ℕ} (hfuel : contents.length < fuel) :
    ∃ start, iterator contents = .ok start ∧ ∀ s, Reachable cmp fuel start s →
      s.Inside ∧ ∀ c, s.Allows c → s.Fits cmp c → ∃ s', s.call cmp fuel c = .ok s' ∧ s.Reports c s' := by
  obtain ⟨start, hstart, hwf⟩ := iterator_ok contents
  refine ⟨start, hstart, fun s hs => ?_⟩
  cases start with
  | Empty status =>
    obtain rfl := reachable_empty hs
    refine ⟨trivial, fun c hc _ => ⟨.Empty status, ?_, rfl⟩⟩
    cases c with
    | Next | Prev => cases hc
    | _ => rfl
  | Entries b =>
    obtain ⟨hb, hbase, hlength⟩ := hwf b rfl
    have hfuel' : b.restarts + b.numrestarts < fuel := by omega
    have hgood : Good b s := by
      induction hs with
      | start =>
        refine ⟨b, hbase, fun hv => ?_⟩
        rw [← hbase] at hv
        simp [BlockIterator.Valid, BlockIterator.base, BlockIterator.new] at hv
      | call _ hc hfits hcall ih =>
        obtain ⟨s₁, hs₁, hgood, -⟩ := ih.call hb hfuel' hc hfits
        obtain rfl := Except.ok.inj (hs₁.symm.trans hcall)
        exact hgood
    refine ⟨hgood.inside hb, fun c hc hfits => ?_⟩
    obtain ⟨s', hs', -, hreports⟩ := hgood.call hb hfuel' hc hfits
    exact ⟨s', hs', hreports⟩

section Examples

/-- One pair, `a` with value `1`. -/
private def onePair : Slice := [0, 1, 1, 97, 49, 0, 0, 0, 0, 1, 0, 0, 0]

private theorem iterator_onePair : iterator onePair = .ok (.Entries (.new onePair 5 1)) := rfl

private theorem fits_onePair (cmp : Slice → Slice → Ordering) :
    (BlockIterator.new onePair 5 1).Fits cmp .SeekToFirst := by
  refine ⟨fun offset k hdecodes => ?_, nofun⟩
  cases hdecodes with
  | first h =>
    obtain rfl : 0 = offset := Except.ok.inj h
    intro e he _
    exact (show ∀ e ∈ (BlockIterator.new onePair 5 1).entryAt 0,
      e.nonShared.toNat + e.valueLength.toNat < 2 ^ 32 by decide) e he

theorem calls_safe_onePair : ∃ start, iterator onePair = .ok start ∧
    ∃ s', start.call (fun a b => compare a.length b.length) 14 .SeekToFirst = .ok s' ∧
      start.Reports .SeekToFirst s' := by
  obtain ⟨start, hstart, hsafe⟩ := calls_safe onePair (fun a b => compare a.length b.length)
    (show onePair.length < 14 by decide)
  obtain rfl := Except.ok.inj (iterator_onePair.symm.trans hstart)
  exact ⟨_, hstart, (hsafe _ .start).2 .SeekToFirst trivial (fits_onePair _)⟩

/-- An entry with 2^32 - 1 bytes of key delta and 2 bytes of value, of which there is one byte. -/
private def overrun : Slice := [0, 0xff, 0xff, 0xff, 0xff, 0x0f, 2, 97, 0, 0, 0, 0, 1, 0, 0, 0]

/-- The sum of the lengths is 1 in 32 bits, and the key delta is read to far behind the block. -/
theorem seekToFirst_overrun : ∃ start, iterator overrun = .ok start ∧ start.Allows .SeekToFirst ∧
    ∀ cmp fuel, start.call cmp fuel .SeekToFirst = .error .outOfBounds :=
  ⟨.Entries (.new overrun 8 1), rfl, trivial, fun _ _ => rfl⟩

end Examples

end Iter

end Block

end RedisDb
