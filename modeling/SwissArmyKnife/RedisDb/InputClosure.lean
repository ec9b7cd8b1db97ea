import Mathlib.Order.Bounds.Basic
import SwissArmyKnife.RedisDb.CompactionInputs

/-!
# Closed inputs

The loop of `GetOverlappingInputs` on level 0 and the loop of `addBoundaryInputs`, step by step.  The first one ends
with the least set of files that is closed under overlap with the range it grows (`overlappingInputsLevel0_isLeast`),
the second one with inputs after which no boundary file is left (`addBoundaryFiles_boundary`).
-/

namespace RedisDb

variable {K V : Type*} [LinearOrder K]

/-! ### Level 0 -/

/-- The loop over the files of level 0, from the files `rest` on; there is no result when it runs out of fuel. -/
def scanLevel0 (files : List (FileMetaData K V)) : ℕ → List (FileMetaData K V) → List (FileMetaData K V) →
    Option K → Option K → Option (List (FileMetaData K V))
  | 0, _, _, _, _ => none
  | _ + 1, [], inputs, _, _ => some inputs
  | fuel + 1, f :: rest, inputs, userBegin, userEnd =>
    if Version.overlapsRange userBegin userEnd f then
      -- A file that extends beyond the range starts the search again.
      if Version.widens userBegin userEnd f then
        scanLevel0 files fuel files [] (Version.widened userBegin userEnd f).1 (Version.widened userBegin userEnd f).2
      else scanLevel0 files fuel rest (inputs ++ [f]) userBegin userEnd
    else scanLevel0 files fuel rest inputs userBegin userEnd

/-- Files that do not extend beyond the range are passed. -/
private theorem scanLevel0_pass (files : List (FileMetaData K V)) {userBegin userEnd : Option K}
    {before : List (FileMetaData K V)}
    (h : ∀ f ∈ before, ¬ (Version.overlapsRange userBegin userEnd f && Version.widens userBegin userEnd f) = true)
    (fuel : ℕ) (after inputs : List (FileMetaData K V)) :
    scanLevel0 files (before.length + fuel) (before ++ after) inputs userBegin userEnd =
      scanLevel0 files fuel after (inputs ++ before.filter (Version.overlapsRange userBegin userEnd)) userBegin
        userEnd := by
  induction before generalizing inputs with
  | nil => simp
  | cons f before ih =>
    have hrest := fun inputs => ih (fun g hg => h g (List.mem_cons_of_mem _ hg)) inputs
    have hf := h f (List.mem_cons_self ..)
    rw [List.length_cons, Nat.add_right_comm, List.cons_append, scanLevel0]
    by_cases hoverlaps : Version.overlapsRange userBegin userEnd f = true
    · rw [if_pos hoverlaps, if_neg (by simpa [hoverlaps] using hf), hrest]
      simp [hoverlaps]
    · rw [if_neg hoverlaps, hrest]
      simp [hoverlaps]

/-- The loop ends, with the files that `overlappingInputsLevel0` returns. -/
theorem scanLevel0_ends (files : List (FileMetaData K V)) (userBegin userEnd : Option K) :
    ∃ needed, ∀ fuel, needed ≤ fuel → scanLevel0 files fuel files [] userBegin userEnd =
      some (Version.overlappingInputsLevel0 files userBegin userEnd) := by
  fun_induction Version.overlappingInputsLevel0 files userBegin userEnd with
  | case1 userBegin userEnd hnone =>
    refine ⟨files.length + 1, fun fuel hfuel => ?_⟩
    obtain ⟨spare, rfl⟩ : ∃ spare, fuel = files.length + (spare + 1) := ⟨fuel - files.length - 1, by omega⟩
    have hpass := scanLevel0_pass files (List.find?_eq_none.1 hnone) (spare + 1) [] []
    rw [List.append_nil] at hpass
    rw [hpass]
    rfl
  | case2 userBegin userEnd f hsome ih =>
    -- The loop passes the files before `f` and starts again with the range that `f` has widened.
    obtain ⟨needed, hends⟩ := ih
    obtain ⟨hf, before, after, hfiles, hbefore⟩ := List.find?_eq_some_iff_append.1 hsome
    refine ⟨files.length + 1 + needed, fun fuel hfuel => ?_⟩
    have hlength : files.length = before.length + (after.length + 1) := by simp [hfiles]
    obtain ⟨spare, rfl⟩ : ∃ spare, fuel = before.length + (spare + 1) := ⟨fuel - before.length - 1, by omega⟩
    have hpass := scanLevel0_pass files
      (fun g hg => by simpa only [Bool.not_eq_eq_eq_not, Bool.not_true, Bool.not_eq_true] using hbefore g hg)
      (spare + 1) (f :: after) []
    rw [← hfiles] at hpass
    simp only [Bool.and_eq_true] at hf
    rw [hpass, scanLevel0, if_pos hf.1, if_pos hf.2]
    exact hends spare (by omega)

/-- The user keys of the file meet the range when it is grown by the files of `S`; a bound that is `none` is before
all keys, or after all keys. -/
def MeetsGrown (userBegin userEnd : Option K) (S : Set (FileMetaData K V)) (f : FileMetaData K V) : Prop :=
  (∀ u ∈ userBegin, u ≤ f.largest.userkey ∨ ∃ g ∈ S, g.smallest.userkey ≤ f.largest.userkey) ∧
    ∀ u ∈ userEnd, f.smallest.userkey ≤ u ∨ ∃ g ∈ S, f.smallest.userkey ≤ g.largest.userkey

/-- A set of files of the level that contains every file that meets the range grown by it. -/
structure ClosedInputs (files : List (FileMetaData K V)) (userBegin userEnd : Option K)
    (S : Set (FileMetaData K V)) : Prop where
  subset : ∀ f ∈ S, f ∈ files
  closed : ∀ f ∈ files, MeetsGrown userBegin userEnd S f → f ∈ S

/-- What the scan has made of the range: bounds of its own or of files of `S`, further out than before. -/
private structure GrownTo (userBegin userEnd : Option K) (S : Set (FileMetaData K V)) (b e : Option K) : Prop where
  begin_le : ∀ u ∈ b, ∃ u' ∈ userBegin, u ≤ u'
  le_end : ∀ u ∈ e, ∃ u' ∈ userEnd, u' ≤ u
  begin_mem : b = userBegin ∨ ∃ g ∈ S, b = some g.smallest.userkey
  end_mem : e = userEnd ∨ ∃ g ∈ S, e = some g.largest.userkey

variable {files : List (FileMetaData K V)} {userBegin userEnd b e : Option K} {S : Set (FileMetaData K V)}

private theorem GrownTo.meets (h : GrownTo userBegin userEnd S b e) {f : FileMetaData K V}
    (hf : Version.overlapsRange b e f = true) : MeetsGrown userBegin userEnd S f := by
  rw [overlapsRange_eq] at hf
  constructor
  · intro u hu
    rcases h.begin_mem with rfl | ⟨g, hg, rfl⟩
    · exact Or.inl (hf.1 u hu)
    · exact Or.inr ⟨g, hg, hf.1 _ rfl⟩
  · intro u hu
    rcases h.end_mem with rfl | ⟨g, hg, rfl⟩
    · exact Or.inl (hf.2 u hu)
    · exact Or.inr ⟨g, hg, hf.2 _ rfl⟩

private theorem GrownTo.widened (h : GrownTo userBegin userEnd S b e) {f : FileMetaData K V} (hf : f ∈ S)
    (hwidens : Version.widens b e f = true) :
    GrownTo userBegin userEnd S (Version.widened b e f).1 (Version.widened b e f).2 := by
  unfold Version.widened
  split
  · rename_i hlt
    refine ⟨fun u hu => ?_, h.le_end, Or.inr ⟨f, hf, rfl⟩, h.end_mem⟩
    obtain rfl := Option.mem_some.1 hu
    obtain ⟨u, rfl⟩ := Option.isSome_iff_exists.1 (Option.isSome_of_any hlt)
    obtain ⟨u', hu', hle⟩ := h.begin_le u rfl
    simp only [Option.any_some, decide_eq_true_eq] at hlt
    exact ⟨u', hu', hlt.le.trans hle⟩
  · rename_i hnot
    have hlt : e.any fun u => decide (u < f.largest.userkey) := by simpa [Version.widens, hnot] using hwidens
    refine ⟨h.begin_le, fun u hu => ?_, h.begin_mem, Or.inr ⟨f, hf, rfl⟩⟩
    obtain rfl := Option.mem_some.1 hu
    obtain ⟨u, rfl⟩ := Option.isSome_iff_exists.1 (Option.isSome_of_any hlt)
    obtain ⟨u', hu', hle⟩ := h.le_end u rfl
    simp only [Option.any_some, decide_eq_true_eq] at hlt
    exact ⟨u', hu', hle.trans hlt.le⟩

/-- The scan ends with a range that it has only grown by files of the closed set. -/
private theorem overlappingInputsLevel0_grown (hS : ∀ f ∈ files, MeetsGrown userBegin userEnd S f → f ∈ S)
    (h : GrownTo userBegin userEnd S b e) : ∃ b' e', GrownTo userBegin userEnd S b' e' ∧
      Version.overlappingInputsLevel0 files b e = files.filter (Version.overlapsRange b' e') ∧
      ∀ f ∈ files, Version.overlapsRange b' e' f → Version.widens b' e' f = false := by
  fun_induction Version.overlappingInputsLevel0 files b e with
  | case1 b e hnone =>
    refine ⟨b, e, h, rfl, fun f hf hoverlaps => ?_⟩
    simpa [hoverlaps] using List.find?_eq_none.1 hnone f hf
  | case2 b e f hsome ih =>
    have hfound := List.find?_some hsome
    simp only [Bool.and_eq_true] at hfound
    exact ih (h.widened (hS f (List.mem_of_find?_eq_some hsome) (h.meets hfound.1)) hfound.2)

/-- The files found are the least closed set. -/
theorem overlappingInputsLevel0_isLeast (files : List (FileMetaData K V)) (userBegin userEnd : Option K) :
    IsLeast {S | ClosedInputs files userBegin userEnd S}
      {f | f ∈ Version.overlappingInputsLevel0 files userBegin userEnd} := by
  have hstart : ∀ S : Set (FileMetaData K V), GrownTo userBegin userEnd S userBegin userEnd := fun S =>
    ⟨fun u hu => ⟨u, hu, le_rfl⟩, fun u hu => ⟨u, hu, le_rfl⟩, Or.inl rfl, Or.inl rfl⟩
  constructor
  · -- The files found are closed: all of them lie inside the range at the end, since none widens it.
    obtain ⟨b, e, hgrown, heq, hwidens⟩ :=
      overlappingInputsLevel0_grown (S := {f | f ∈ files}) (fun f hf _ => hf) (hstart _)
    rw [heq]
    refine ⟨fun f hf => List.mem_of_mem_filter hf, fun f hf hmeets => List.mem_filter.2 ⟨hf, overlapsRange_eq.2 ?_⟩⟩
    constructor
    · intro u hu
      obtain ⟨u', hu', hle⟩ := hgrown.begin_le u hu
      rcases hmeets.1 u' hu' with hle' | ⟨g, hg, hle'⟩
      · exact hle.trans hle'
      · have hg := List.mem_filter.1 hg
        exact ((widens_eq_false.1 (hwidens g hg.1 hg.2)).1 u hu).trans hle'
    · intro u hu
      obtain ⟨u', hu', hle⟩ := hgrown.le_end u hu
      rcases hmeets.2 u' hu' with hle' | ⟨g, hg, hle'⟩
      · exact hle'.trans hle
      · have hg := List.mem_filter.1 hg
        exact hle'.trans ((widens_eq_false.1 (hwidens g hg.1 hg.2)).2 u hu)
  · -- Any closed set has them, since it has every file that has widened the range.
    intro S hS f hf
    obtain ⟨b, e, hgrown, heq, -⟩ := overlappingInputsLevel0_grown hS.closed (hstart S)
    have hmem : f ∈ files.filter (Version.overlapsRange b e) := heq ▸ hf
    exact hS.closed f (List.mem_filter.1 hmem).1 (hgrown.meets (List.mem_filter.1 hmem).2)

/-! ### Boundary files -/

/-- The loop of `addBoundaryInputs`; there is no result when it runs out of fuel. -/
def addBoundaryLoop (levelfiles : List (FileMetaData K V)) : ℕ → List (FileMetaData K V) → InternalKey K →
    Option (List (FileMetaData K V))
  | 0, _, _ => none
  | fuel + 1, compactionfiles, largestkey =>
    match findSmallestBoundaryFile levelfiles largestkey with
    | some f => addBoundaryLoop levelfiles fuel (compactionfiles ++ [f]) f.largest
    | none => some compactionfiles

/-- `addBoundaryInputs`, with fuel for its loop. -/
def addBoundaryInputsLoop (levelfiles : List (FileMetaData K V)) (fuel : ℕ)
    (compactionfiles : List (FileMetaData K V)) : Option (List (FileMetaData K V)) :=
  match findLargestKey compactionfiles with
  | none => some compactionfiles
  | some largestkey => addBoundaryLoop levelfiles fuel compactionfiles largestkey

/-- The file begins after the key, with the same user key. -/
def IsBoundary (largestkey : InternalKey K) (f : FileMetaData K V) : Prop :=
  largestkey < f.smallest ∧ f.smallest.userkey = largestkey.userkey

/-- Each file is a file of the level and a boundary file of the largest key before it. -/
def BoundaryChain (levelfiles : List (FileMetaData K V)) : InternalKey K → List (FileMetaData K V) → Prop
  | _, [] => True
  | largestkey, f :: added => f ∈ levelfiles ∧ IsBoundary largestkey f ∧ BoundaryChain levelfiles f.largest added

variable {levelfiles compactionfiles : List (FileMetaData K V)} {largestkey : InternalKey K}

/-- The loop ends, and adds boundary files until there is none. -/
private theorem addBoundaryLoop_ends (hrange : ∀ f ∈ levelfiles, f.smallest ≤ f.largest) (fuel : ℕ)
    (hfuel : (levelfiles.filter fun f => largestkey < f.smallest).length < fuel)
    (hmax : ∀ f ∈ compactionfiles, f.largest ≤ largestkey) (hmem : ∃ f ∈ compactionfiles, f.largest = largestkey) :
    ∃ added, addBoundaryLoop levelfiles fuel compactionfiles largestkey = some (compactionfiles ++ added) ∧
      BoundaryChain levelfiles largestkey added ∧
      ∃ last, findLargestKey (compactionfiles ++ added) = some last ∧ ∀ f ∈ levelfiles, ¬ IsBoundary last f := by
  -- Fewer files begin after the largest key with every file that is added.
  induction fuel generalizing compactionfiles largestkey with
  | zero => omega
  | succ fuel ih =>
    rw [addBoundaryLoop]
    cases hfind : findSmallestBoundaryFile levelfiles largestkey with
    | none =>
      refine ⟨[], by simp, trivial, largestkey, ?_, fun f hf hboundary => ?_⟩
      · obtain ⟨f, hf, rfl⟩ := hmem
        rw [List.append_nil]
        exact List.max?_eq_some_iff.2 ⟨List.mem_map_of_mem hf, by simpa using hmax⟩
      · exact absurd hboundary.2 (findSmallestBoundaryFile_none hfind hf hboundary.1).ne'
    | some f =>
      obtain ⟨hf, hlt, hkey, -⟩ := findSmallestBoundaryFile_some hfind
      have hle := hrange f hf
      obtain ⟨added, hadded, hchain, hlast⟩ := @ih (compactionfiles ++ [f]) f.largest
        (by have := length_filter_after hfind hle; omega)
        (fun g hg => by
          rcases List.mem_append.1 hg with hg | hg
          · exact (hmax g hg).trans (hlt.le.trans hle)
          · exact (List.mem_singleton.1 hg ▸ le_rfl))
        ⟨f, by simp, rfl⟩
      refine ⟨f :: added, by simpa using hadded, ⟨hf, ⟨hlt, hkey⟩, hchain⟩, ?_⟩
      simpa using hlast

/-- The loop adds boundary files, each one of the largest key before it, and leaves none. -/
theorem addBoundaryInputsLoop_ends (hrange : ∀ f ∈ levelfiles, f.smallest ≤ f.largest)
    (compactionfiles : List (FileMetaData K V)) {fuel : ℕ} (hfuel : levelfiles.length < fuel) :
    ∃ added, addBoundaryInputsLoop levelfiles fuel compactionfiles = some (compactionfiles ++ added) ∧
      (∀ key, findLargestKey compactionfiles = some key → BoundaryChain levelfiles key added) ∧
      (compactionfiles = [] → added = []) ∧
      ∀ last, findLargestKey (compactionfiles ++ added) = some last → ∀ f ∈ levelfiles, ¬ IsBoundary last f := by
  rw [addBoundaryInputsLoop]
  cases hlargest : findLargestKey compactionfiles with
  | none =>
    refine ⟨[], by simp, by simp, fun _ => rfl, fun last hlast => ?_⟩
    rw [List.append_nil, hlargest] at hlast
    cases hlast
  | some key =>
    obtain ⟨hmem, hmax⟩ := List.max?_eq_some_iff.1 hlargest
    obtain ⟨added, hadded, hchain, last, hlast, hnone⟩ := addBoundaryLoop_ends hrange fuel
      (lt_of_le_of_lt (List.length_filter_le _ _) hfuel)
      (fun f hf => hmax _ (List.mem_map_of_mem hf)) (List.mem_map.1 hmem)
    refine ⟨added, hadded, fun key' hkey' => ?_, fun hnil => ?_, fun last' hlast' => ?_⟩
    · cases hkey'
      exact hchain
    · subst hnil
      cases hlargest
    · rw [hlast] at hlast'
      cases hlast'
      exact hnone

/-- The inputs of a compaction are closed: in level 0 they are the least set that contains the files that meet the
range it grows, and in a level whose files have no empty ranges no boundary file is left; both loops end. -/
theorem inputs_closed (v : Version K V) (begin «end» : Option (InternalKey K))
    {levelfiles : List (FileMetaData K V)} (hrange : ∀ f ∈ levelfiles, f.smallest ≤ f.largest)
    (compactionfiles : List (FileMetaData K V)) :
    ((∃ needed, ∀ fuel, needed ≤ fuel → scanLevel0 (v.files 0) fuel (v.files 0) [] (begin.map InternalKey.userkey)
        («end».map InternalKey.userkey) = some (v.GetOverlappingInputs 0 begin «end»)) ∧
      IsLeast {S | ClosedInputs (v.files 0) (begin.map InternalKey.userkey) («end».map InternalKey.userkey) S}
        {f | f ∈ v.GetOverlappingInputs 0 begin «end»}) ∧
    ∀ fuel, levelfiles.length < fuel →
      ∃ added, addBoundaryInputsLoop levelfiles fuel compactionfiles = some (compactionfiles ++ added) ∧
        (∀ key, findLargestKey compactionfiles = some key → BoundaryChain levelfiles key added) ∧
        (compactionfiles = [] → added = []) ∧
        ∀ last, findLargestKey (compactionfiles ++ added) = some last → ∀ f ∈ levelfiles, ¬ IsBoundary last f := by
  refine ⟨?_, fun fuel hfuel => addBoundaryInputsLoop_ends hrange compactionfiles hfuel⟩
  rw [Version.GetOverlappingInputs, if_pos rfl]
  exact ⟨scanLevel0_ends _ _ _, overlappingInputsLevel0_isLeast _ _ _⟩

/-- The second file begins with the user key with which the first one ends. -/
private def chainedFiles : List (FileMetaData ℕ ℕ) :=
  [⟨1, 1, ⟨1, 4, .kTypeValue⟩, ⟨2, 5, .kTypeValue⟩, []⟩, ⟨2, 1, ⟨2, 3, .kTypeValue⟩, ⟨3, 3, .kTypeValue⟩, []⟩]

theorem inputs_closed_chained :
    ((∃ needed, ∀ fuel, needed ≤ fuel → scanLevel0 chainedFiles fuel chainedFiles [] (some 1) (some 1) =
        some (Version.GetOverlappingInputs ⟨fun _ => chainedFiles, none⟩ 0 (some ⟨1, 9, .kTypeValue⟩)
          (some ⟨1, 0, .kTypeValue⟩))) ∧
      IsLeast {S | ClosedInputs chainedFiles (some 1) (some 1) S}
        {f | f ∈ Version.GetOverlappingInputs ⟨fun _ => chainedFiles, none⟩ 0 (some ⟨1, 9, .kTypeValue⟩)
          (some ⟨1, 0, .kTypeValue⟩)}) ∧
    ∀ fuel, chainedFiles.length < fuel →
      ∃ added, addBoundaryInputsLoop chainedFiles fuel (chainedFiles.take 1) = some (chainedFiles.take 1 ++ added) ∧
        (∀ key, findLargestKey (chainedFiles.take 1) = some key → BoundaryChain chainedFiles key added) ∧
        (chainedFiles.take 1 = [] → added = []) ∧
        ∀ last, findLargestKey (chainedFiles.take 1 ++ added) = some last →
          ∀ f ∈ chainedFiles, ¬ IsBoundary last f :=
  inputs_closed ⟨fun _ => chainedFiles, none⟩ (some ⟨1, 9, .kTypeValue⟩) (some ⟨1, 0, .kTypeValue⟩)
    (by decide : ∀ f ∈ chainedFiles, f.smallest ≤ f.largest) (chainedFiles.take 1)

end RedisDb
