import SwissArmyKnife.RedisDb.Env
import SwissArmyKnife.RedisDb.VersionReads

/-!
# Point lookups through the table cache

`Version::Get` with the table cache as a parameter: a lookup in a table may fail, may hand over an entry whose key
cannot be parsed, or nothing at all.  With lookups that hand over the first entry from the key on, `Get` is the search
of `Version.Get` (`get_refines`), finds the newest entry the read may see, and looks into at most one file of each
level below level 0 (`get_newest`).
-/

namespace RedisDb.TableLookup

variable {K V : Type*} [LinearOrder K]

/-- A lookup of an internal key in a table: its status and the entry handed to `SaveValue`, if there is one, with its
key when that can be parsed. -/
abbrev Lookup (K V : Type*) := FileMetaData K V → InternalKey K → Status × Option (Option (InternalKey K) × V)

inductive State where
  | kNotFound
  | kFound
  | kDeleted
  | kCorrupt
deriving DecidableEq

structure Saver (K V : Type*) where
  state : State
  userkey : K
  value : Option V

def SaveValue (s : Saver K V) (ikey : Option (InternalKey K)) (v : V) : Saver K V :=
  match ikey with
  | none => { s with state := .kCorrupt }
  | some parsedKey =>
    if parsedKey.userkey = s.userkey then
      match parsedKey.type with
      | .kTypeValue => { s with state := .kFound, value := some v }
      | .kTypeDeletion => { s with state := .kDeleted }
    else s

/-- What a call of `Get` has done so far. -/
structure Getting (K V : Type*) where
  /-- What was assigned to the value. -/
  value : Option V
  /-- The file to charge for the seeks, with its level. -/
  seekFile : Option (FileMetaData K V × ℕ)
  lastfileread : Option (FileMetaData K V × ℕ)
  /-- The files looked into, with their levels; not in the source. -/
  consulted : List (FileMetaData K V × ℕ)

/-- When a second file is read, the first one is charged for the seek. -/
def Getting.charged (g : Getting K V) : Option (FileMetaData K V × ℕ) :=
  if g.lastfileread.isSome && g.seekFile.isNone then g.lastfileread else g.seekFile

/-- One round of the loop over the files; the status when the loop is left. -/
def getFile (lookup : Lookup K V) (ikey : InternalKey K) (g : Getting K V) (f : FileMetaData K V × ℕ) :
    Getting K V × Option Status :=
  let (s, entry) := lookup f.1 ikey
  let saver : Saver K V := ⟨.kNotFound, ikey.userkey, g.value⟩
  let saver := match entry with
    | some (key, v) => SaveValue saver key v
    | none => saver
  let g : Getting K V := ⟨saver.value, g.charged, some f, g.consulted ++ [f]⟩
  if s.ok then
    match saver.state with
    | .kNotFound => (g, none) -- Keep searching in other files.
    | .kFound => (g, some s)
    | .kDeleted => (g, some (.NotFound ""))
    | .kCorrupt => (g, some (.Corruption "corrupted key for "))
  else (g, some s)

def getFiles (lookup : Lookup K V) (ikey : InternalKey K) (g : Getting K V) :
    List (FileMetaData K V × ℕ) → Getting K V × Status
  | [] => (g, .NotFound "")
  | f :: files =>
    match getFile lookup ikey g f with
    | (g, some s) => (g, s)
    | (g, none) => getFiles lookup ikey g files

def Get (lookup : Lookup K V) (v : Version K V) (ikey : InternalKey K) : Getting K V × Status :=
  getFiles lookup ikey ⟨none, none, none, []⟩
    ((List.range kNumLevels).flatMap fun level => (v.filesToSearch ikey level).map fun f => (f, level))

/-- The lookup hands over the first entry from the key on. -/
def Exact (lookup : Lookup K V) (ikey : InternalKey K) (f : FileMetaData K V) : Prop :=
  lookup f ikey = (.OK, (f.seek ikey).map fun e => (some e.key, e.value))

/-! ### The search of a version -/

variable {lookup : Lookup K V} {ikey : InternalKey K}

/-- With an exact lookup a round does what a round of the search of the version does. -/
private theorem getFile_exact {f : FileMetaData K V × ℕ} (h : Exact lookup ikey f.1) (g : Getting K V) :
    getFile lookup ikey g f = match TableCache.Get f.1 ikey with
      | .kNotFound => (⟨g.value, g.charged, some f, g.consulted ++ [f]⟩, none)
      | .kFound value => (⟨some value, g.charged, some f, g.consulted ++ [f]⟩, some .OK)
      | .kDeleted => (⟨g.value, g.charged, some f, g.consulted ++ [f]⟩, some (.NotFound "")) := by
  rw [getFile, h, TableCache.Get]
  cases f.1.seek ikey with
  | none => rfl
  | some e =>
    by_cases hkey : e.key.userkey = ikey.userkey
    · cases htype : e.key.type <;> simp [SaveValue, RedisDb.SaveValue, hkey, htype]
    · simp [SaveValue, RedisDb.SaveValue, hkey]

/-- The status with which the search of a version ends. -/
def statusOf : Option V → Status
  | some _ => .OK
  | none => .NotFound ""

private theorem getFiles_exact {files : List (FileMetaData K V × ℕ)} (h : ∀ f ∈ files, Exact lookup ikey f.1)
    (g : Getting K V) (hvalue : g.value = none) :
    (getFiles lookup ikey g files).2 =
        statusOf (Version.searchFiles ikey files g.lastfileread g.seekFile).1 ∧
      (getFiles lookup ikey g files).1.value = (Version.searchFiles ikey files g.lastfileread g.seekFile).1 ∧
      (getFiles lookup ikey g files).1.seekFile = (Version.searchFiles ikey files g.lastfileread g.seekFile).2 := by
  induction files generalizing g with
  | nil => exact ⟨rfl, hvalue, rfl⟩
  | cons f files ih =>
    rw [getFiles, getFile_exact (h f (List.mem_cons_self ..)), Version.searchFiles]
    cases TableCache.Get f.1 ikey with
    | kNotFound => exact ih (fun f' hf' => h f' (List.mem_cons_of_mem _ hf')) _ hvalue
    | kFound value => exact ⟨rfl, rfl, rfl⟩
    | kDeleted => exact ⟨rfl, hvalue, rfl⟩

/-- Files are looked into in their order, and none of them twice. -/
theorem consulted_getFiles (lookup : Lookup K V) (ikey : InternalKey K) (g : Getting K V)
    (files : List (FileMetaData K V × ℕ)) :
    ∃ looked, looked <+: files ∧ (getFiles lookup ikey g files).1.consulted = g.consulted ++ looked := by
  induction files generalizing g with
  | nil => exact ⟨[], List.prefix_refl _, by simp [getFiles]⟩
  | cons f files ih =>
    have hround : (getFile lookup ikey g f).1.consulted = g.consulted ++ [f] := by
      unfold getFile
      dsimp only
      split
      · split <;> rfl
      · rfl
    rw [getFiles]
    cases hs : getFile lookup ikey g f with
    | mk g' s =>
      rw [hs] at hround
      cases s with
      | some s => exact ⟨[f], ⟨files, rfl⟩, hround⟩
      | none =>
        obtain ⟨looked, hlooked, hconsulted⟩ := ih g'
        refine ⟨f :: looked, List.cons_prefix_cons.2 ⟨rfl, hlooked⟩, ?_⟩
        rw [hconsulted, hround, List.append_assoc]
        rfl

/-- A search looks into at most one file of a sorted level. -/
theorem length_filesToSearch (v : Version K V) (ikey : InternalKey K) {level : ℕ} (hlevel : 0 < level) :
    (v.filesToSearch ikey level).length ≤ 1 := by
  rw [Version.filesToSearch, if_neg hlevel.ne']
  split
  · simp
  · split <;> simp

theorem mem_files_of_filesToSearch {v : Version K V} {level : ℕ} {f : FileMetaData K V}
    (hf : f ∈ v.filesToSearch ikey level) : f ∈ v.files level := by
  rw [Version.filesToSearch] at hf
  split at hf
  · rename_i hlevel
    subst hlevel
    exact List.mem_of_mem_filter ((List.mem_insertionSort _).1 hf)
  · split at hf
    · simp at hf
    · rename_i f' hget
      split at hf
      · simp at hf
      · rw [List.mem_singleton.1 hf]
        exact List.mem_of_getElem? hget

/-- With exact lookups `Get` is the search of the version. -/
theorem get_refines {v : Version K V} (h : ∀ level, ∀ f ∈ v.files level, Exact lookup ikey f) :
    (Get lookup v ikey).2 = statusOf (v.Get ikey).1 ∧ (Get lookup v ikey).1.value = (v.Get ikey).1 ∧
      (Get lookup v ikey).1.seekFile = (v.Get ikey).2 := by
  refine getFiles_exact (fun f hf => ?_) _ rfl
  obtain ⟨level, -, hf⟩ := List.mem_flatMap.1 hf
  obtain ⟨f', hf', rfl⟩ := List.mem_map.1 hf
  exact h level f' (mem_files_of_filesToSearch hf')

omit [LinearOrder K] in
private theorem filter_level {levels : List ℕ} (hnodup : levels.Nodup) (files : ℕ → List (FileMetaData K V))
    (level : ℕ) : ((levels.flatMap fun l => (files l).map fun f => (f, l)).filter fun f => f.2 = level).length ≤
      (files level).length := by
  induction levels with
  | nil => simp
  | cons l levels ih =>
    obtain ⟨hl, hnodup⟩ := List.nodup_cons.1 hnodup
    rw [List.flatMap_cons, List.filter_append, List.length_append]
    by_cases hlevel : l = level
    · -- The level does not come again.
      subst hlevel
      have hnone : (levels.flatMap fun l => (files l).map fun f => (f, l)).filter (fun f => f.2 = l) = [] := by
        rw [List.filter_eq_nil_iff]
        intro f hf
        obtain ⟨l', hl', hf⟩ := List.mem_flatMap.1 hf
        obtain ⟨f', -, rfl⟩ := List.mem_map.1 hf
        simpa using fun h : l' = l => hl (h ▸ hl')
      rw [hnone, List.length_nil, Nat.add_zero]
      exact (List.length_filter_le _ _).trans (by simp)
    · have hnone : ((files l).map fun f => (f, l)).filter (fun f => f.2 = level) = [] := by
        simp [List.filter_eq_nil_iff, hlevel]
      rw [hnone, List.length_nil, Nat.zero_add]
      exact ih hnodup

/-- Of each level below level 0 at most one file is looked into. -/
theorem length_consulted_level (v : Version K V) {level : ℕ} (hlevel : 0 < level) :
    ((Get lookup v ikey).1.consulted.filter fun f => f.2 = level).length ≤ 1 := by
  obtain ⟨looked, hlooked, hconsulted⟩ := consulted_getFiles lookup ikey ⟨none, none, none, []⟩
    ((List.range kNumLevels).flatMap fun level => (v.filesToSearch ikey level).map fun f => (f, level))
  rw [Get, hconsulted, List.nil_append]
  calc (looked.filter fun f => f.2 = level).length
      ≤ (((List.range kNumLevels).flatMap fun level =>
          (v.filesToSearch ikey level).map fun f => (f, level)).filter fun f => f.2 = level).length :=
        (hlooked.sublist.filter _).length_le
    _ ≤ (v.filesToSearch ikey level).length := filter_level List.nodup_range _ _
    _ ≤ 1 := length_filesToSearch v ikey hlevel

/-- `e` is the newest entry of the user key in the files of the version with a sequence number of at most `s`. -/
structure NewestOf (v : Version K V) (u : K) (s : ℕ) (e : Entry K V) : Prop where
  mem : e ∈ v.contents
  userkey_eq : e.userkey = u
  sequence_le : e.sequence ≤ s
  newest : ∀ e' ∈ v.contents, e'.userkey = u → e'.sequence ≤ s → e'.tag ≤ e.tag

/-- The call returns the value, or `NotFound`. -/
def Returns (g : Getting K V × Status) : Option V → Prop
  | some value => g.2 = .OK ∧ g.1.value = some value
  | none => g.2 = .NotFound ""

/-- `Get` finds the newest entry of the user key that is not younger than the read: its value, or `NotFound` when it
is a deletion or there is none. -/
theorem get_newest (lookup : Lookup K V) {v : Version K V} (h : v.Sorted) (hlayered : v.Layered Entry.tag) (u : K)
    (s : ℕ) (hlookup : ∀ level, ∀ f ∈ v.files level, Exact lookup (LookupKey u s) f) :
    ((∃ e, NewestOf v u s e ∧ Returns (Get lookup v (LookupKey u s)) e.result) ∨
      (∀ e ∈ v.contents, e.userkey = u → s < e.sequence) ∧ Returns (Get lookup v (LookupKey u s)) none) ∧
    ∀ level, 0 < level →
      ((Get lookup v (LookupKey u s)).1.consulted.filter fun f => f.2 = level).length ≤ 1 := by
  refine ⟨?_, fun level hlevel => length_consulted_level v hlevel⟩
  obtain ⟨hstatus, hvalue, -⟩ := get_refines hlookup
  have hreturns : Returns (Get lookup v (LookupKey u s)) (v.Get (LookupKey u s)).1 := by
    cases hget : (v.Get (LookupKey u s)).1 with
    | some value => exact ⟨by rw [hstatus, hget, statusOf], by rw [hvalue, hget]⟩
    | none => exact hstatus.trans (by rw [hget, statusOf])
  rcases Version.get_reads h hlayered u s with ⟨e, hnewest, hresult⟩ | ⟨habsent, hresult⟩
  · refine Or.inl ⟨e, ⟨hnewest.mem, hnewest.key_eq, tag_le_seekTag_iff.1 hnewest.le, ?_⟩, hresult ▸ hreturns⟩
    exact fun e' he' hkey hle => hnewest.newest e' he' hkey (tag_le_seekTag_iff.2 hle)
  · refine Or.inr ⟨fun e he hkey => ?_, hresult ▸ hreturns⟩
    have hlt := habsent e he hkey
    rwa [← not_le, Entry.tag, tag_le_seekTag_iff, not_le] at hlt

/-- The entries of the key 2 are in two files of level 1. -/
private def straddled : Version ℕ ℕ where
  files := fun
    | 1 => [⟨1, 1, ⟨1, 4, .kTypeValue⟩, ⟨2, 5, .kTypeDeletion⟩,
        [⟨⟨1, 4, .kTypeValue⟩, 7⟩, ⟨⟨2, 5, .kTypeDeletion⟩, 0⟩]⟩,
      ⟨2, 1, ⟨2, 3, .kTypeValue⟩, ⟨2, 3, .kTypeValue⟩, [⟨⟨2, 3, .kTypeValue⟩, 8⟩]⟩]
    | _ => []
  filetocompact := none

private theorem straddled_files {level : ℕ} {f : FileMetaData ℕ ℕ} (hf : f ∈ straddled.files level) :
    level = 1 ∧ f ∈ straddled.files 1 := by
  match level, hf with
  | 0, hf => exact absurd hf List.not_mem_nil
  | 1, hf => exact ⟨rfl, hf⟩
  | _ + 2, hf => exact absurd hf List.not_mem_nil

private theorem straddled_sorted : straddled.Sorted where
  ok level f hf := by
    obtain ⟨rfl, hf⟩ := straddled_files hf
    rcases List.mem_cons.1 hf with rfl | hf
    · exact ⟨by decide, rfl, rfl, by decide⟩
    · obtain rfl := List.mem_singleton.1 hf
      exact ⟨by decide, rfl, rfl, by decide⟩
  disjoint level _ := by
    match level with
    | 0 => exact List.Pairwise.nil
    | 1 => decide
    | _ + 2 => exact List.Pairwise.nil
  numbers level := by
    match level with
    | 0 => exact List.Pairwise.nil
    | 1 => decide
    | _ + 2 => exact List.Pairwise.nil
  deepest level hlevel := by
    match level, hlevel with
    | _ + 2, _ => rfl

private theorem straddled_layered : straddled.Layered Entry.tag where
  levels level below hlt a ha b hb _ := by
    obtain ⟨f, hf, -⟩ := ha
    obtain ⟨g, hg, -⟩ := hb
    obtain ⟨rfl, -⟩ := straddled_files hf
    obtain ⟨rfl, -⟩ := straddled_files hg
    exact absurd hlt (Nat.lt_irrefl _)
  level0 f hf := absurd hf List.not_mem_nil

theorem get_newest_straddled :
    let lookup : Lookup ℕ ℕ := fun f ikey => (.OK, (f.seek ikey).map fun e => (some e.key, e.value))
    ((∃ e, NewestOf straddled 2 4 e ∧ Returns (Get lookup straddled (LookupKey 2 4)) e.result) ∨
      (∀ e ∈ straddled.contents, e.userkey = 2 → 4 < e.sequence) ∧
        Returns (Get lookup straddled (LookupKey 2 4)) none) ∧
    ∀ level, 0 < level →
      ((Get lookup straddled (LookupKey 2 4)).1.consulted.filter fun f => f.2 = level).length ≤ 1 :=
  get_newest _ straddled_sorted straddled_layered 2 4 fun _ _ _ => rfl

end RedisDb.TableLookup
