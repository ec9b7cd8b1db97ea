import SwissArmyKnife.RedisDb.RedisList

/-!
# Runs on lists

A run of calls on any keys replies what lists by key reply, on a condition that keeps clear of `LPop` on a list with
elements, of reads by position while the right index is the one that `LPush` wrote for a new list, and of comparisons
in which `strcmp` reads past an element.  The elements of a list are a window of the indexes of one version
(`Window`); each loop is described on it.
-/

namespace RedisDb

open Replies (Meets replies)
open Slices (slice position slice_eq_nil slice_eq_take_drop)

namespace RedisList

/-! ### Indexes -/

private theorem toNat_add {a b : UInt64} (h : a.toNat + b.toNat < 2 ^ 64) : (a + b).toNat = a.toNat + b.toNat := by
  rw [UInt64.toNat_add, Nat.mod_eq_of_lt h]

private theorem toNat_add_one {a : UInt64} (h : a.toNat + 1 < 2 ^ 64) : (a + 1).toNat = a.toNat + 1 := toNat_add h

private theorem toNat_ofNat {n : Nat} (h : n < 2 ^ 64) : (UInt64.ofNat n).toNat = n := UInt64.toNat_ofNat_of_lt' h

private theorem toNat_sub {a b : UInt64} (h : b.toNat ≤ a.toNat) : (a - b).toNat = a.toNat - b.toNat :=
  UInt64.toNat_sub_of_le a b (UInt64.le_iff_toNat_le.2 h)

/-- No data key lies between those of two consecutive indexes. -/
private theorem lt_iff_succ_le {key : Slice} {version : Int32} {i : UInt64} (hi : i.toNat + 1 < 2 ^ 64)
    (x : ListsDataKey) : ⟨key, version, i⟩ < x ↔ ⟨key, version, i + 1⟩ ≤ x := by
  rw [← not_lt, ListsDataKey.lt_iff, ListsDataKey.lt_iff, toNat_add_one hi]
  rcases lt_trichotomy key x.key with hkey | hkey | hkey
  · simp [hkey, hkey.asymm, hkey.ne']
  · simp only [hkey, lt_irrefl, false_or, true_and]
    omega
  · simp [hkey, hkey.asymm, hkey.ne']

/-! ### Windows -/

/-- The element at an index, when the elements start after `left`. -/
def windowAt (left : Nat) (l : List Slice) (i : Nat) : Option Slice := if left < i then l[i - left - 1]? else none

/-- The elements are stored under the indexes after `left`, and nothing else under the version. -/
def Window (db : ListDb) (key : Slice) (version : Int32) (left : Nat) (l : List Slice) : Prop :=
  ∀ i : UInt64, db.get ⟨key, version, i⟩ = windowAt left l i.toNat

variable {db : ListDb} {key : Slice} {version : Int32} {left : Nat} {l : List Slice}

/-- An iterator that is set to an index of the window goes through the elements from there on. -/
theorem Window.seek (h : Window db key version left l) (hbound : left + l.length + 1 < 2 ^ 64) {i : UInt64} {j : Nat}
    (hj : j ≤ l.length) (hi : i.toNat = left + 1 + j) :
    ∃ iter rest, db.seek ⟨key, version, i⟩ = iter ++ rest ∧ iter.map Prod.snd = l.drop j := by
  obtain ⟨n, hn⟩ : ∃ n, n + j = l.length := ⟨l.length - j, by omega⟩
  induction n generalizing i j with
  | zero => exact ⟨[], _, rfl, by rw [List.drop_eq_nil_of_le (by omega)]; rfl⟩
  | succ n ih =>
    have hlt : j < l.length := by omega
    have hget : db.get ⟨key, version, i⟩ = some l[j] := by
      rw [h, windowAt, if_pos (by omega), show i.toNat - left - 1 = j by omega, List.getElem?_eq_getElem]
    have hsucc : (i + 1).toNat = i.toNat + 1 := toNat_add_one (by omega)
    obtain ⟨iter, rest, hseek, hiter⟩ := ih (i := i + 1) (j := j + 1) (by omega) (by omega) (by omega)
    refine ⟨(⟨key, version, i⟩, l[j]) :: iter, rest, ?_, ?_⟩
    · rw [SortedMap.seek_of_get hget, SortedMap.filter_lt_eq_seek db (lt_iff_succ_le (i := i) (by omega)), hseek]
      rfl
    · rw [List.map_cons, hiter, List.drop_eq_getElem_cons hlt]

/-! ### Loops -/

private theorem rangeLoop_eq {last : UInt64} {iter rest : List (ListsDataKey × Slice)} {current : UInt64}
    (hlast : last.toNat + 1 ≤ current.toNat + iter.length) (hbound : last.toNat + 1 < 2 ^ 64) :
    rangeLoop last (iter ++ rest) current = (iter.map Prod.snd).take (last.toNat + 1 - current.toNat) := by
  induction iter generalizing current with
  | nil =>
    have hlt : ¬ current ≤ last := by
      rw [UInt64.le_iff_toNat_le]
      simp at hlast
      omega
    cases rest with
    | nil => simp [rangeLoop]
    | cons e rest => simp [rangeLoop, hlt]
  | cons e iter ih =>
    rw [List.cons_append, rangeLoop]
    by_cases hle : current ≤ last
    · have hle' := UInt64.le_iff_toNat_le.1 hle
      have hsucc : (current + 1).toNat = current.toNat + 1 := toNat_add_one (by omega)
      rw [if_pos hle, ih (by simp at hlast; omega), hsucc, List.map_cons,
        show last.toNat + 1 - current.toNat = (last.toNat + 1 - (current.toNat + 1)) + 1 by
          omega, List.take_succ_cons]
    · have hle' := mt UInt64.le_iff_toNat_le.2 hle
      rw [if_neg hle, show last.toNat + 1 - current.toNat = 0 by omega, List.take_zero]

/-- `strcmp` compares the elements up to the pivot as byte strings. -/
def StrcmpAgrees (memory : UInt64 → Slice) (pivot : Slice) (rightindex : UInt64) :
    List (ListsDataKey × Slice) → UInt64 → Prop
  | [], _ => True
  | e :: iter, currentindex => currentindex < rightindex →
    (strcmpEqual e.2 (memory currentindex) pivot = true ↔ e.2 = pivot) ∧
      (e.2 ≠ pivot → StrcmpAgrees memory pivot rightindex iter (currentindex + 1))

/-- Behind the last element no index is left. -/
private theorem not_lt_of_end {current right : UInt64}
    (hright : right.toNat = current.toNat + ([] : List (ListsDataKey × Slice)).length) : ¬ current < right := by
  rw [UInt64.lt_iff_toNat_lt, hright, List.length_nil]
  omega

private theorem findPivot_eq {memory : UInt64 → Slice} {pivot : Slice} {right : UInt64}
    {iter rest : List (ListsDataKey × Slice)} {current : UInt64} (hright : right.toNat = current.toNat + iter.length)
    (hagrees : StrcmpAgrees memory pivot right (iter ++ rest) current) :
    findPivot memory pivot right (iter ++ rest) current =
      ((iter.map Prod.snd).findIdx? fun element => element = pivot).map fun i => current + UInt64.ofNat i := by
  have hbound : right.toNat < 2 ^ 64 := right.toNat_lt
  induction iter generalizing current with
  | nil =>
    have hlt := not_lt_of_end hright
    cases rest with
    | nil => rfl
    | cons e rest => simp [findPivot, hlt]
  | cons e iter ih =>
    rw [List.length_cons] at hright
    have hlt : current < right := UInt64.lt_iff_toNat_lt.2 (by omega)
    have hsucc : (current + 1).toNat = current.toNat + 1 := toNat_add_one (by omega)
    obtain ⟨hequal, hrest⟩ := hagrees hlt
    rw [List.cons_append, findPivot, if_pos hlt, List.map_cons, List.findIdx?_cons]
    by_cases he : e.2 = pivot
    · rw [if_pos (hequal.2 he)]
      simp [he]
    · rw [if_neg (mt hequal.1 he), ih (by omega) (hrest he)]
      simp [he, Function.comp_def, UInt64.add_assoc, UInt64.add_comm]

private theorem firstHalf_eq {pos : BeforeOrAfter} {iter rest : List (ListsDataKey × Slice)}
    {current pivotindex : UInt64}
    {i : Nat} (hi : i < iter.length) (hpivot : pivotindex.toNat = current.toNat + i) :
    firstHalf pos pivotindex (iter ++ rest) current =
      (iter.map Prod.snd).take (if pos = .Before then i else i + 1) := by
  have hbound : pivotindex.toNat < 2 ^ 64 := pivotindex.toNat_lt
  induction iter generalizing current i with
  | nil => simp at hi
  | cons e iter ih =>
    rw [List.cons_append, firstHalf, if_pos (UInt64.le_iff_toNat_le.2 (by omega)), List.map_cons]
    cases i with
    | zero =>
      rw [if_pos (UInt64.toNat_inj.1 hpivot.symm)]
      cases pos <;> rfl
    | succ i =>
      have hne : current ≠ pivotindex := fun h => by
        rw [h] at hpivot
        omega
      have hsucc : (current + 1).toNat = current.toNat + 1 := toNat_add_one (by omega)
      rw [if_neg hne, ih (i := i) (by simpa using hi) (by omega)]
      cases pos <;> rfl

private theorem afterHalf_eq {pos : BeforeOrAfter} {pivotindex right : UInt64}
    {iter rest : List (ListsDataKey × Slice)} {current : UInt64} (hright : right.toNat = current.toNat + iter.length)
    (hpivot : pivotindex.toNat < current.toNat) :
    afterHalf pos pivotindex right (iter ++ rest) current = iter.map Prod.snd := by
  have hbound : right.toNat < 2 ^ 64 := right.toNat_lt
  induction iter generalizing current with
  | nil =>
    have hlt := not_lt_of_end hright
    cases rest with
    | nil => rfl
    | cons e rest => simp [afterHalf, hlt]
  | cons e iter ih =>
    rw [List.length_cons] at hright
    have hne : current ≠ pivotindex := fun h => by
      rw [h] at hpivot
      omega
    have hsucc : (current + 1).toNat = current.toNat + 1 := toNat_add_one (by omega)
    rw [List.cons_append, afterHalf, if_pos (UInt64.lt_iff_toNat_lt.2 (by omega)), if_neg fun h => hne h.1,
      ih (by omega) (by omega), List.map_cons]

private theorem afterHalf_pivot {pos : BeforeOrAfter} {pivotindex right : UInt64}
    {iter rest : List (ListsDataKey × Slice)} (hiter : iter ≠ [])
    (hright : right.toNat = pivotindex.toNat + iter.length) :
    afterHalf pos pivotindex right (iter ++ rest) pivotindex =
      (iter.map Prod.snd).drop (if pos = .Before then 0 else 1) := by
  have hbound : right.toNat < 2 ^ 64 := right.toNat_lt
  cases iter with
  | nil => exact absurd rfl hiter
  | cons e iter =>
    rw [List.length_cons] at hright
    have hsucc : (pivotindex + 1).toNat = pivotindex.toNat + 1 := toNat_add_one (by omega)
    have hlt : pivotindex < right := UInt64.lt_iff_toNat_lt.2 (by omega)
    have hrest : afterHalf pos pivotindex right (iter ++ rest) (pivotindex + 1) = iter.map Prod.snd :=
      afterHalf_eq (by omega) (by omega)
    rw [List.cons_append, afterHalf, if_pos hlt, hrest]
    cases pos <;> simp

/-! ### Pushes -/

private theorem windowAt_cons {v : Slice} {i : Nat} (hleft : 0 < left) :
    windowAt (left - 1) (v :: l) i = if i = left then some v else windowAt left l i := by
  unfold windowAt
  by_cases hi : i = left
  · rw [if_pos hi, if_pos (by omega), show i - (left - 1) - 1 = 0 by omega]
    rfl
  · rw [if_neg hi]
    by_cases hlt : left < i
    · rw [if_pos hlt, if_pos (by omega), show i - (left - 1) - 1 = (i - left - 1) + 1 by omega,
        List.getElem?_cons_succ]
    · rw [if_neg hlt, if_neg (by omega)]

private theorem index_eq_iff {i j : UInt64} :
    (⟨key, version, i⟩ : ListsDataKey) = ⟨key, version, j⟩ ↔ i.toNat = j.toNat := by
  simp [UInt64.toNat_inj]

theorem Window.push {left : UInt64} (h : Window db key version left.toNat l)
    (hleft : 0 < left.toNat) (value : Slice) :
    Window (db.put ⟨key, version, left⟩ value) key version (left.toNat - 1) (value :: l) := by
  intro i
  rw [SortedMap.get_put, h i, windowAt_cons hleft]
  simp only [index_eq_iff]

/-- Values are stored from an index down. -/
def putValues (key : Slice) (version : Int32) : UInt64 → List Slice → List (SortedMap.Op ListsDataKey Slice)
  | _, [] => []
  | index, value :: values => .Put ⟨key, version, index⟩ value :: putValues key version (index - 1) values

private theorem sub_ofNat_succ (a : UInt64) (n : Nat) : a - 1 - UInt64.ofNat n = a - UInt64.ofNat (n + 1) := by
  rw [UInt64.ofNat_add]
  grind

private theorem add_ofNat_succ (a : UInt64) (n : Nat) : a + 1 + UInt64.ofNat n = a + UInt64.ofNat (n + 1) := by
  rw [UInt64.ofNat_add]
  grind

theorem pushValues_parsed (f : ListsFields) (values : List Slice) :
    pushValues key version f.parsed values = (putValues key version f.leftindex values,
      { f with leftindex := f.leftindex - UInt64.ofNat values.length,
               count := f.count + UInt64.ofNat values.length : ListsFields }.parsed) := by
  induction values generalizing f with
  | nil => simp [pushValues, putValues]
  | cons value values ih =>
    simp only [pushValues, ListsFields.modifyLeftIndex_parsed, ListsFields.modifyCount_parsed, ih, sub_ofNat_succ,
      add_ofNat_succ, List.length_cons, putValues, ListsFields.parsed_leftindex]

theorem pushNewValues_eq (m : ListsMetaValue) (values : List Slice) :
    pushNewValues key version m values =
      (putValues key version m.leftindex values, m.ModifyLeftIndex (UInt64.ofNat values.length)) := by
  induction values generalizing m with
  | nil => simp [pushNewValues, putValues, ListsMetaValue.ModifyLeftIndex]
  | cons value values ih =>
    simp only [pushNewValues, ih, putValues, ListsMetaValue.ModifyLeftIndex, sub_ofNat_succ, List.length_cons]

theorem Window.pushes {left : UInt64} (h : Window db key version left.toNat l) {values : List Slice}
    (hleft : values.length ≤ left.toNat) :
    Window (db.write (putValues key version left values)) key version (left.toNat - values.length)
      (values.foldl (fun l value => value :: l) l) := by
  induction values generalizing db left l with
  | nil => exact h
  | cons value values ih =>
    rw [List.length_cons] at hleft
    have hpred : (left - 1).toNat = left.toNat - 1 := toNat_sub (show (1 : UInt64).toNat ≤ left.toNat by simp; omega)
    have hpush := h.push (by omega) value
    rw [← hpred] at hpush
    have hrest := ih hpush (by omega)
    rw [hpred, show left.toNat - 1 - values.length = left.toNat - (values.length + 1) by omega] at hrest
    exact hrest

/-! ### Insertions -/

private theorem get_putNodes (db : ListDb) {index : UInt64} {nodes : List Slice}
    (hbound : index.toNat + nodes.length < 2 ^ 64) (i : UInt64) :
    (db.write (putNodes key version index nodes)).get ⟨key, version, i⟩ =
      if index.toNat ≤ i.toNat ∧ i.toNat < index.toNat + nodes.length then nodes[i.toNat - index.toNat]?
      else db.get ⟨key, version, i⟩ := by
  induction nodes generalizing db index with
  | nil =>
    rw [if_neg (by simp)]
    rfl
  | cons node nodes ih =>
    rw [List.length_cons] at hbound
    have hsucc : (index + 1).toNat = index.toNat + 1 := toNat_add_one (by omega)
    rw [putNodes, SortedMap.write_cons, ih _ (by omega), hsucc, SortedMap.apply, SortedMap.get_put, List.length_cons]
    simp only [index_eq_iff]
    by_cases heq : i.toNat = index.toNat
    · rw [if_neg (by omega), if_pos heq, if_pos (by omega), heq, Nat.sub_self]
      rfl
    · rw [if_neg heq]
      by_cases hmem : index.toNat + 1 ≤ i.toNat ∧ i.toNat < index.toNat + 1 + nodes.length
      · rw [if_pos hmem, if_pos (by omega),
          show i.toNat - index.toNat = (i.toNat - (index.toNat + 1)) + 1 by omega, List.getElem?_cons_succ]
      · rw [if_neg hmem, if_neg (by omega)]

private theorem windowAt_insertIdx {n : Nat} (hn : n ≤ l.length) (value : Slice) (i : Nat) :
    windowAt left (l.insertIdx n value) i = if i < left + 1 + n then windowAt left l i
      else if i = left + 1 + n then some value else windowAt left l (i - 1) := by
  unfold windowAt
  rw [List.getElem?_insertIdx]
  by_cases hlt : i < left + 1 + n
  · rw [if_pos hlt]
    by_cases hleft : left < i
    · rw [if_pos hleft, if_pos hleft, if_pos (by omega)]
    · rw [if_neg hleft, if_neg hleft]
  · rw [if_neg hlt, if_pos (by omega), if_neg (by omega)]
    by_cases heq : i = left + 1 + n
    · rw [if_pos heq, if_pos (by omega), if_pos (by omega)]
    · rw [if_neg heq, if_neg (by omega), if_pos (by omega), show i - left - 1 - 1 = i - 1 - left - 1 by omega]

/-- The elements before the new one move down. -/
theorem Window.insert_left {db' : ListDb} {left target : UInt64} {n : Nat} (h : Window db key version left.toNat l)
    (hn : n ≤ l.length) (hleft : 0 < left.toNat) (hbound : left.toNat + l.length + 1 < 2 ^ 64)
    (htarget : target.toNat = left.toNat + n) (value : Slice)
    (hget : ∀ i, db'.get ⟨key, version, i⟩ = if i.toNat = target.toNat then some value
      else (db.write (putNodes key version left (l.take n))).get ⟨key, version, i⟩) :
    Window db' key version (left.toNat - 1) (l.insertIdx n value) := by
  have htake : (l.take n).length = n := List.length_take_of_le hn
  intro i
  rw [hget, get_putNodes db (by omega), htake, windowAt_insertIdx hn, h i, htarget]
  by_cases heq : i.toNat = left.toNat + n
  · rw [if_pos heq, if_neg (by omega), if_pos (by omega)]
  · rw [if_neg heq]
    unfold windowAt
    by_cases hmem : left.toNat ≤ i.toNat ∧ i.toNat < left.toNat + n
    · rw [if_pos hmem, if_pos (by omega), if_pos (by omega), List.getElem?_take_of_lt (by omega),
        show i.toNat - (left.toNat - 1) - 1 = i.toNat - left.toNat by omega]
    · rw [if_neg hmem]
      by_cases hlt : i.toNat < left.toNat
      · rw [if_neg (by omega), if_pos (by omega), if_neg (by omega)]
      · rw [if_pos (by omega), if_neg (by omega), if_neg (by omega), if_pos (by omega),
          show i.toNat - 1 - (left.toNat - 1) - 1 = i.toNat - left.toNat - 1 by omega]

/-- The elements after the new one move up. -/
theorem Window.insert_right {db' : ListDb} {left target : UInt64} {n : Nat} (h : Window db key version left.toNat l)
    (hn : n ≤ l.length) (hbound : left.toNat + l.length + 2 < 2 ^ 64) (htarget : target.toNat = left.toNat + 1 + n)
    (value : Slice)
    (hget : ∀ i, db'.get ⟨key, version, i⟩ = if i.toNat = target.toNat then some value
      else (db.write (putNodes key version (target + 1) (l.drop n))).get ⟨key, version, i⟩) :
    Window db' key version left.toNat (l.insertIdx n value) := by
  have hsucc : (target + 1).toNat = target.toNat + 1 := toNat_add_one (by omega)
  intro i
  rw [hget, get_putNodes db (by rw [List.length_drop]; omega), List.length_drop, windowAt_insertIdx hn, h i, hsucc,
    htarget]
  by_cases heq : i.toNat = left.toNat + 1 + n
  · rw [if_pos heq, if_neg (by omega), if_pos heq]
  · rw [if_neg heq]
    unfold windowAt
    by_cases hmem : left.toNat + 1 + n + 1 ≤ i.toNat ∧ i.toNat < left.toNat + 1 + n + 1 + (l.length - n)
    · rw [if_pos hmem, if_neg (by omega), if_neg heq, if_pos (by omega), List.getElem?_drop,
        show n + (i.toNat - (left.toNat + 1 + n + 1)) = i.toNat - 1 - left.toNat - 1 by omega]
    · rw [if_neg hmem]
      by_cases hlt : i.toNat < left.toNat + 1 + n
      · rw [if_pos hlt]
      · rw [if_neg hlt, if_neg heq, if_pos (by omega), if_pos (by omega), List.getElem?_eq_none (by omega),
          List.getElem?_eq_none (by omega)]

/-! ### Representation -/

inductive RepKey (db : ListDb) (key : Slice) (l : List Slice) : Prop where
  | missing (hget : db.get (metaKey key) = none) (hl : l = [])
      (hnone : ∀ version i, 0 < version.toInt → db.get ⟨key, version, i⟩ = none)
  | stored (f : ListsFields) (hget : db.get (metaKey key) = some f.encode) (htimestamp : f.timestamp = 0)
      (hversion : 0 < f.version.toInt) (hcount : f.count.toNat = l.length)
      (hnone : ∀ version i, f.version.toInt < version.toInt → db.get ⟨key, version, i⟩ = none)
      (hwindow : l ≠ [] → Window db key f.version f.leftindex.toNat l ∧ f.leftindex.toNat < 2 ^ 63 ∧
        2 ^ 63 ≤ f.leftindex.toNat + l.length + 1 ∧ f.leftindex.toNat + l.length + 1 < 2 ^ 64)

/-- A write to one version of a key and to its meta value. -/
structure Update (key : Slice) (f : ListsFields) (db db' : ListDb) : Prop where
  get_meta : db'.get (metaKey key) = some f.encode
  get_other : ∀ k, ¬ (k.key = key ∧ (k.version = f.version ∨ k.version = 0)) → db'.get k = db.get k

private theorem RepKey.congr {db' : ListDb} (h : RepKey db key l) (heq : ∀ k, k.key = key → db'.get k = db.get k) :
    RepKey db' key l := by
  cases h with
  | missing hget hl hnone =>
    exact .missing ((heq _ rfl).trans hget) hl fun version i hpos => (heq _ rfl).trans (hnone version i hpos)
  | stored f hget htimestamp hversion hcount hnone hwindow =>
    refine .stored f ((heq _ rfl).trans hget) htimestamp hversion hcount ?_ ?_
    · exact fun version i hlt => (heq _ rfl).trans (hnone version i hlt)
    · intro hl
      obtain ⟨hwin, hbounds⟩ := hwindow hl
      exact ⟨fun i => (heq _ rfl).trans (hwin i), hbounds⟩

private theorem Update.other_key {f : ListsFields} {db' : ListDb} {key' : Slice} (h : Update key f db db')
    (hne : key' ≠ key) (hrep : RepKey db key' l) : RepKey db' key' l :=
  hrep.congr fun k hk => h.get_other k fun hboth => hne (hk.symm.trans hboth.1)

private theorem repKey_of_update {f : ListsFields} {db' : ListDb} (h : Update key f db db')
    (htimestamp : f.timestamp = 0)
    (hversion : 0 < f.version.toInt) (hcount : f.count.toNat = l.length)
    (hnone : ∀ version i, f.version.toInt < version.toInt → db.get ⟨key, version, i⟩ = none)
    (hwindow : l ≠ [] → Window db' key f.version f.leftindex.toNat l ∧ f.leftindex.toNat < 2 ^ 63 ∧
      2 ^ 63 ≤ f.leftindex.toNat + l.length + 1 ∧ f.leftindex.toNat + l.length + 1 < 2 ^ 64) : RepKey db' key l := by
  refine .stored f h.get_meta htimestamp hversion hcount ?_ hwindow
  intro version i hlt
  rw [h.get_other, hnone version i hlt]
  rintro ⟨-, rfl | rfl⟩
  · exact lt_irrefl _ hlt
  · exact absurd (hversion.trans hlt) (by simp)

/-- There is no meta value, or it has the count 0, or it is the meta value of a list with elements. -/
private inductive Cases (db : ListDb) (key : Slice) (l : List Slice) : Prop where
  | missing (hget : db.get (metaKey key) = none) (hl : l = [])
      (hnone : ∀ version i, 0 < version.toInt → db.get ⟨key, version, i⟩ = none)
  | empty (f : ListsFields) (hget : db.get (metaKey key) = some f.encode) (htimestamp : f.timestamp = 0)
      (hversion : 0 < f.version.toInt) (hcount : f.count = 0) (hl : l = [])
      (hnone : ∀ version i, f.version.toInt < version.toInt → db.get ⟨key, version, i⟩ = none)
  | live (f : ListsFields) (hget : db.get (metaKey key) = some f.encode) (htimestamp : f.timestamp = 0)
      (hversion : 0 < f.version.toInt) (hzero : f.count ≠ 0) (hcount : f.count.toNat = l.length)
      (hnone : ∀ version i, f.version.toInt < version.toInt → db.get ⟨key, version, i⟩ = none)
      (hwindow : Window db key f.version f.leftindex.toNat l) (hlt : f.leftindex.toNat < 2 ^ 63)
      (hle : 2 ^ 63 ≤ f.leftindex.toNat + l.length + 1) (hbound : f.leftindex.toNat + l.length + 1 < 2 ^ 64)

private theorem RepKey.cases (h : RepKey db key l) : Cases db key l := by
  cases h with
  | missing hget hl hnone => exact .missing hget hl hnone
  | stored f hget htimestamp hversion hcount hnone hwindow =>
    by_cases hzero : f.count = 0
    · have hlength : l.length = 0 := by simpa [hzero] using hcount.symm
      exact .empty f hget htimestamp hversion hzero (List.eq_nil_of_length_eq_zero hlength) hnone
    · have hl : l ≠ [] := by
        intro hl
        rw [hl, List.length_nil] at hcount
        exact hzero (UInt64.toNat_inj.1 hcount)
      obtain ⟨hwin, hlt, hle, hbound⟩ := hwindow hl
      exact .live f hget htimestamp hversion hzero hcount hnone hwin hlt hle hbound

/-- A meta value without expiry time is never stale. -/
private theorem not_stale {f : ListsFields} (h : f.timestamp = 0) (time : Int) : f.parsed.IsStale time = false := by
  simp [ParsedListsMetaValue.IsStale, h]

/-- After a call on a key its entries stand for a list, and those of the other keys are as before. -/
private structure Gives (key : Slice) (db db' : ListDb) (l : List Slice) : Prop where
  rep : RepKey db' key l
  other : ∀ key' l', key' ≠ key → RepKey db key' l' → RepKey db' key' l'

private theorem RepKey.gives (h : RepKey db key l) : Gives key db db l := ⟨h, fun _ _ _ hrep => hrep⟩

/-! ### LPush -/

private theorem get_putValues_of_not {index : UInt64} {values : List Slice} {k : ListsDataKey}
    (hk : ¬ (k.key = key ∧ k.version = version)) :
    (db.write (putValues key version index values)).get k = db.get k := by
  induction values generalizing db index with
  | nil => rfl
  | cons value values ih =>
    rw [putValues, SortedMap.write_cons, ih, SortedMap.apply, SortedMap.get_put, if_neg]
    rintro rfl
    exact hk ⟨rfl, rfl⟩

private theorem version_ne_zero {version : Int32} (h : 0 < version.toInt) : version ≠ 0 := by
  rintro rfl
  simp at h

private theorem length_pushed (l values : List Slice) :
    (values.foldl (fun l value => value :: l) l).length = l.length + values.length := by
  rw [List.foldl_flip_cons_eq_append]
  simp [Nat.add_comm]

private theorem push_gives {f f' : ListsFields} {values : List Slice}
    (hnone : ∀ version i, f.version.toInt < version.toInt → db.get ⟨key, version, i⟩ = none)
    (hwindow : Window db key f.version f.leftindex.toNat l) (hlt : f.leftindex.toNat < 2 ^ 63)
    (hle : 2 ^ 63 ≤ f.leftindex.toNat + l.length + 1) (hbound : f.leftindex.toNat + l.length + 1 < 2 ^ 64)
    (hleft : values.length ≤ f.leftindex.toNat) (hversion : 0 < f.version.toInt) (hsame : f'.version = f.version)
    (htimestamp : f'.timestamp = 0) (hindex : f'.leftindex = f.leftindex - UInt64.ofNat values.length)
    (hcount : f'.count.toNat = l.length + values.length) :
    Gives key db (db.write (putValues key f.version f.leftindex values ++ [.Put (metaKey key) f'.encode]))
      (values.foldl (fun l value => value :: l) l) := by
  have hlength := length_pushed l values
  have hnat : (UInt64.ofNat values.length).toNat = values.length := toNat_ofNat (by omega)
  have hindex' : f'.leftindex.toNat = f.leftindex.toNat - values.length := by
    rw [hindex, toNat_sub (by omega), hnat]
  have hwrite : db.write (putValues key f.version f.leftindex values ++ [.Put (metaKey key) f'.encode]) =
      (db.write (putValues key f.version f.leftindex values)).put (metaKey key) f'.encode := SortedMap.write_append ..
  rw [hwrite]
  have hupdate : Update key f' db
      ((db.write (putValues key f.version f.leftindex values)).put (metaKey key) f'.encode) := by
    refine ⟨by simp, ?_⟩
    intro k hk
    rw [SortedMap.get_put, if_neg, get_putValues_of_not]
    · exact fun h => hk ⟨h.1, Or.inl (hsame ▸ h.2)⟩
    · rintro rfl
      exact hk ⟨rfl, Or.inr rfl⟩
  refine ⟨repKey_of_update hupdate htimestamp (hsame ▸ hversion) (by rw [hcount, hlength]) (hsame ▸ hnone) ?_, ?_⟩
  · intro _
    rw [hlength, hindex', hsame]
    refine ⟨?_, by omega, by omega, by omega⟩
    intro i
    have hne : (⟨key, f.version, i⟩ : ListsDataKey) ≠ metaKey key := fun h =>
      version_ne_zero hversion (congrArg ListsDataKey.version h)
    rw [SortedMap.get_put, if_neg hne]
    exact hwindow.pushes hleft i
  · exact fun key' l' hne hrep => hupdate.other_key hne hrep

/-- Values may be pushed: the indexes and the counter of the version stay in the range of their types. -/
def MayPush (n : Nat) : Option Slice → Prop
  | some metavalue =>
    let p := ParsedListsMetaValue.new metavalue
    if p.count = 0 then p.version.toInt < 2 ^ 31 - 1 ∧ n < 2 ^ 63 else n ≤ p.leftindex.toNat
  | none => n < 2 ^ 63

private theorem windowAt_nil (i : Nat) : windowAt left [] i = none := by
  unfold windowAt
  split <;> rfl

private theorem window_nil (hnone : ∀ i, db.get ⟨key, version, i⟩ = none) : Window db key version left [] :=
  fun i => (hnone i).trans (windowAt_nil _).symm

private theorem toNat_initalLeftIndex : InitalLeftIndex.toNat = 2 ^ 63 - 1 := rfl

private theorem push_new_gives {g : ListsFields} {values : List Slice} (hversion : 0 < version.toInt)
    (hnone : ∀ version' i, version.toInt ≤ version'.toInt → db.get ⟨key, version', i⟩ = none)
    (hlt : values.length < 2 ^ 63) (hsame : g.version = version) (htimestamp : g.timestamp = 0)
    (hindex : g.leftindex = InitalLeftIndex - UInt64.ofNat values.length) (hcount : g.count.toNat = values.length) :
    Gives key db (db.write (putValues key version InitalLeftIndex values ++ [.Put (metaKey key) g.encode]))
      (values.foldl (fun l value => value :: l) []) := by
  have hleft := toNat_initalLeftIndex
  refine push_gives (f := ⟨0, version, 0, InitalLeftIndex, InitalLeftIndex⟩) (l := [])
    (fun version' i hlt => hnone version' i (le_of_lt hlt)) (window_nil fun i => hnone version i le_rfl)
    ?_ ?_ ?_ ?_ hversion hsame htimestamp hindex ?_
  all_goals simp only [List.length_nil]; omega

/-- A push on a key without meta value, where `rightindex` is at the left index as well. -/
theorem lPush_of_none (hget : db.get (metaKey key) = none) (time later : Int) (values : List Slice) :
    LPush db key time later values =
      let n := UInt64.ofNat values.length
      let g : ListsFields := ⟨n, listsNextVersion 0 time, 0, InitalLeftIndex - n, InitalLeftIndex - n⟩
      (db.write (putValues key g.version InitalLeftIndex values ++ [.Put (metaKey key) g.encode]), .OK, n) := by
  have hencode (n : UInt64) :
      (((ListsMetaValue.new (EncodeFixed64 n)).UpdateVersion time).ModifyLeftIndex n).Encode =
        (⟨n, listsNextVersion 0 time, 0, InitalLeftIndex - n, InitalLeftIndex - n⟩ : ListsFields).encode :=
    ListsFields.encode_new n (InitalLeftIndex - n) (listsNextVersion 0 time)
  have hret (n : UInt64) : InitalRightIndex - (InitalLeftIndex - n) - 1 = n := by
    unfold InitalRightIndex InitalLeftIndex
    grind
  simp only [LPush, hget, pushNewValues_eq, hencode]
  exact congrArg (fun n => (_, Status.OK, n)) (hret _)

private theorem lPush_gives (h : RepKey db key l) (time later : Int) (values : List Slice)
    (hcond : MayPush values.length (db.get (metaKey key))) :
    Gives key db (LPush db key time later values).1 (values.foldl (fun l value => value :: l) l) ∧
      (LPush db key time later values).2.1 = .OK ∧
      (LPush db key time later values).2.2.toNat = l.length + values.length := by
  cases h.cases with
  | missing hget hl hnone =>
    subst hl
    have hlt : values.length < 2 ^ 63 := by simpa only [hget, MayPush] using hcond
    have hnat : (UInt64.ofNat values.length).toNat = values.length := toNat_ofNat (by omega)
    have hversion : (0 : Int32).toInt < (listsNextVersion 0 time).toInt := lt_listsNextVersion (by simp)
    rw [lPush_of_none hget]
    refine ⟨?_, rfl, hnat.trans (Nat.zero_add _).symm⟩
    exact push_new_gives
      (g := ⟨UInt64.ofNat values.length, listsNextVersion 0 time, 0, InitalLeftIndex - UInt64.ofNat values.length,
        InitalLeftIndex - UInt64.ofNat values.length⟩) hversion
      (fun version i hle => hnone version i (hversion.trans_le hle)) hlt rfl rfl rfl hnat
  | empty f hget htimestamp hversion hcount hl hnone =>
    subst hl
    have hpush : f.version.toInt < 2 ^ 31 - 1 ∧ values.length < 2 ^ 63 := by
      simpa only [hget, MayPush, ListsFields.new_encode, ListsFields.parsed_count, hcount, if_true,
        ListsFields.parsed_version] using hcond
    have hnat : (0 + UInt64.ofNat values.length).toNat = values.length := by
      rw [UInt64.zero_add, toNat_ofNat (by omega)]
    have hnext : f.version.toInt < (listsNextVersion f.version later).toInt := lt_listsNextVersion hpush.1
    simp only [LPush, hget, ListsFields.new_encode, ListsFields.parsed_count, hcount, not_stale htimestamp,
      beq_self_eq_true, Bool.or_true, if_true, ListsFields.initialMetaValue_parsed, ListsFields.parsed_version,
      pushValues_parsed, ListsFields.parsed_value]
    refine ⟨?_, trivial, hnat.trans (Nat.zero_add _).symm⟩
    exact push_new_gives
      (g := ⟨0 + UInt64.ofNat values.length, listsNextVersion f.version later, 0,
        InitalLeftIndex - UInt64.ofNat values.length, InitalRightIndex⟩) (hversion.trans hnext)
      (fun version i hle => hnone version i (hnext.trans_le hle)) hpush.2 rfl rfl rfl hnat
  | live f hget htimestamp hversion hzero hcount hnone hwindow hlt hle hbound =>
    have hpush : values.length ≤ f.leftindex.toNat := by
      simpa only [hget, MayPush, ListsFields.new_encode, ListsFields.parsed_count, hzero, if_false,
        ListsFields.parsed_leftindex] using hcond
    have hnat : (UInt64.ofNat values.length).toNat = values.length := toNat_ofNat (by omega)
    have hcountne : (f.count == 0) = false := by simpa using hzero
    have hsum : (f.count + UInt64.ofNat values.length).toNat = l.length + values.length := by
      rw [toNat_add (by omega), hnat, hcount]
    simp only [LPush, hget, ListsFields.new_encode, ListsFields.parsed_count, hcountne, not_stale htimestamp,
      Bool.or_self, Bool.false_eq_true, if_false, ListsFields.parsed_version, pushValues_parsed,
      ListsFields.parsed_value]
    exact ⟨push_gives hnone hwindow hlt hle hbound hpush hversion rfl htimestamp rfl hsum, trivial, hsum⟩

/-! ### LPop, LLen and Del -/

/-- The meta value is that of a list with elements. -/
def Live : Option Slice → Prop
  | some metavalue => (ParsedListsMetaValue.new metavalue).count ≠ 0
  | none => False

private theorem not_live_iff (h : RepKey db key l) : ¬ Live (db.get (metaKey key)) ↔ l = [] := by
  cases h.cases with
  | missing hget hl hnone => simp [hget, Live, hl]
  | empty f hget htimestamp hversion hcount hl hnone => simp [hget, Live, ListsFields.new_encode, hcount, hl]
  | live f hget htimestamp hversion hzero hcount hnone hwindow hlt hle hbound =>
    have hl : l ≠ [] := by
      rintro rfl
      exact hzero (UInt64.toNat_inj.1 hcount)
    simp [hget, Live, ListsFields.new_encode, hzero, hl]

private theorem lLen_eq (h : RepKey db key l) (time : Int) : (LLen db key time).2.toNat = l.length := by
  unfold LLen
  cases h.cases with
  | missing hget hl hnone => simp [hget, hl]
  | empty f hget htimestamp hversion hcount hl hnone =>
    simp [hget, ListsFields.new_encode, not_stale htimestamp, hcount, hl]
  | live f hget htimestamp hversion hzero hcount hnone hwindow hlt hle hbound =>
    simp [hget, ListsFields.new_encode, not_stale htimestamp, hzero, hcount]

/-- The counter of the version of a list with elements is not at its end. -/
def MayDel : Option Slice → Prop
  | some metavalue =>
    let p := ParsedListsMetaValue.new metavalue
    p.count ≠ 0 → p.version.toInt < 2 ^ 31 - 1
  | none => True

private theorem del_gives (h : RepKey db key l) {time later : Int} (hcond : MayDel (db.get (metaKey key))) :
    Gives key db (Del db key time later).1 [] := by
  unfold Del
  cases h.cases with
  | missing hget hl hnone =>
    simp only [hget]
    exact hl ▸ h.gives
  | empty f hget htimestamp hversion hcount hl hnone =>
    simp only [hget, ListsFields.new_encode, not_stale htimestamp, ListsFields.parsed_count, hcount,
      beq_self_eq_true, Bool.false_eq_true, if_true, if_false]
    exact hl ▸ h.gives
  | live f hget htimestamp hversion hzero hcount hnone hwindow hlt hle hbound =>
    have hcountne : (f.count == 0) = false := by simpa using hzero
    have hmay : f.version.toInt < 2 ^ 31 - 1 := by
      simpa only [hget, MayDel, ListsFields.new_encode, ListsFields.parsed_count, ListsFields.parsed_version,
        ne_eq, hzero, not_false_eq_true, true_implies] using hcond
    have hnext : f.version.toInt < (listsNextVersion f.version later).toInt := lt_listsNextVersion hmay
    simp only [hget, ListsFields.new_encode, not_stale htimestamp, ListsFields.parsed_count, hcountne,
      Bool.false_eq_true, if_false, ListsFields.initialMetaValue_parsed, ListsFields.parsed_value]
    have hupdate : Update key ⟨0, listsNextVersion f.version later, 0, InitalLeftIndex, InitalRightIndex⟩ db
        (db.put (metaKey key)
          (ListsFields.encode ⟨0, listsNextVersion f.version later, 0, InitalLeftIndex, InitalRightIndex⟩)) := by
      refine ⟨by simp, ?_⟩
      intro k hk
      rw [SortedMap.get_put, if_neg]
      rintro rfl
      exact hk ⟨rfl, Or.inr rfl⟩
    refine ⟨repKey_of_update hupdate rfl (hversion.trans hnext) rfl ?_ fun hl => absurd rfl hl, ?_⟩
    · exact fun version i hlt => hnone version i (hnext.trans hlt)
    · exact fun key' l' hne hrep => hupdate.other_key hne hrep

/-! ### LRange -/

/-- The right index comes after the last element, as it does from the second version of a key on. -/
def MayRange : Option Slice → Prop
  | some metavalue =>
    let p := ParsedListsMetaValue.new metavalue
    p.count ≠ 0 → p.rightindex.toNat = p.leftindex.toNat + p.count.toNat + 1
  | none => True

private theorem toNat_toUInt64 (x : Int64) :
    (x.toUInt64.toNat : ℤ) = if 0 ≤ x.toInt then x.toInt else x.toInt + 2 ^ 64 := by
  have hlt : x.toInt < 2 ^ 63 := x.toInt_lt
  have hle : -2 ^ 63 ≤ x.toInt := x.le_toInt
  have htoInt : x.toInt = Int.bmod x.toUInt64.toNat (2 ^ 64) := by
    rw [← Int64.toNat_toBitVec, ← BitVec.toInt_eq_toNat_bmod]
    rfl
  have hnat := x.toUInt64.toNat_lt
  rw [Int.bmod_def] at htoInt
  split at htoInt <;> split <;> omega

/-- The index of a position; positions that are negative count from the end. -/
private theorem sublistindex {left right : UInt64} {n : Nat} (hright : right.toNat = left.toNat + n + 1)
    (hlt : left.toNat < 2 ^ 63) (hle : 2 ^ 63 ≤ left.toNat + n + 1) (x : Int64) :
    ((if 0 ≤ x then left + 1 + x.toUInt64 else right - 1 + x.toUInt64 + 1).toNat : ℤ) =
      left.toNat + 1 + position n x.toInt := by
  have hx := toNat_toUInt64 x
  have hxlt : x.toInt < 2 ^ 63 := x.toInt_lt
  have hxle : -2 ^ 63 ≤ x.toInt := x.le_toInt
  have hrightlt := right.toNat_lt
  unfold position
  have hnonneg : 0 ≤ x ↔ 0 ≤ x.toInt := Int64.le_iff_toInt_le
  by_cases h : 0 ≤ x.toInt
  · have hone : (left + 1).toNat = left.toNat + 1 := toNat_add_one (by omega)
    rw [if_pos h] at hx
    rw [if_pos (hnonneg.2 h), if_neg (by omega), toNat_add (by omega), hone]
    omega
  · rw [if_neg h] at hx
    rw [if_neg (mt hnonneg.1 h), if_pos (by omega)]
    have hsub : right - 1 + x.toUInt64 + 1 = right + x.toUInt64 := by grind
    rw [hsub, UInt64.toNat_add]
    omega

/-- The elements from one index to another, when both are brought into the window. -/
private theorem range_window {left first last : UInt64} (hwindow : Window db key version left.toNat l)
    (hbound : left.toNat + l.length + 1 < 2 ^ 64) {s t : Nat} (hs : s < l.length) (ht : t < l.length)
    (hfirst : first.toNat = left.toNat + 1 + s) (hlast : last.toNat = left.toNat + 1 + t) :
    rangeLoop last (db.seek ⟨key, version, first⟩) first = (l.drop s).take (t + 1 - s) := by
  obtain ⟨iter, rest, hseek, hiter⟩ := hwindow.seek hbound (by omega) hfirst
  have hlength : iter.length = l.length - s := by
    rw [← List.length_map (f := Prod.snd), hiter, List.length_drop]
  rw [hseek, rangeLoop_eq (by omega) (by omega), hiter,
    show last.toNat + 1 - first.toNat = t + 1 - s by omega]

private theorem lRange_eq (h : RepKey db key l) {time : Int} {start stop : Int64}
    (hcond : MayRange (db.get (metaKey key))) :
    (LRange db key time start stop).2 = slice l start.toInt stop.toInt := by
  unfold LRange
  cases h.cases with
  | missing hget hl hnone => simp [hget, hl]
  | empty f hget htimestamp hversion hcount hl hnone =>
    simp [hget, ListsFields.new_encode, not_stale htimestamp, hcount, hl]
  | live f hget htimestamp hversion hzero hcount hnone hwindow hlt hle hbound =>
    have hcountne : (f.count == 0) = false := by simpa using hzero
    have hright : f.rightindex.toNat = f.leftindex.toNat + l.length + 1 := by
      rw [← hcount]
      simpa only [hget, MayRange, ListsFields.new_encode, ListsFields.parsed_count, ListsFields.parsed_leftindex,
        ListsFields.parsed_rightindex, ne_eq, hzero, not_false_eq_true, true_implies] using hcond
    have hpos : 0 < l.length := by
      rw [← hcount]
      exact Nat.pos_of_ne_zero fun hnat => hzero (UInt64.toNat_inj.1 hnat)
    simp only [hget, ListsFields.new_encode, not_stale htimestamp, ListsFields.parsed_count, hcountne,
      Bool.false_eq_true, if_false, ListsFields.parsed_version, ListsFields.parsed_leftindex,
      ListsFields.parsed_rightindex, Bool.or_eq_true, decide_eq_true_eq, gt_iff_lt]
    have hleftindex := sublistindex hright hlt hle start
    have hrightindex := sublistindex hright hlt hle stop
    generalize (if 0 ≤ start then f.leftindex + 1 + start.toUInt64
      else f.rightindex - 1 + start.toUInt64 + 1) = sublistleftindex at hleftindex ⊢
    generalize (if 0 ≤ stop then f.leftindex + 1 + stop.toUInt64
      else f.rightindex - 1 + stop.toUInt64 + 1) = sublistrightindex at hrightindex ⊢
    have hone : (f.leftindex + 1).toNat = f.leftindex.toNat + 1 := toNat_add_one (by omega)
    have hpred : (f.rightindex - 1).toNat = f.leftindex.toNat + l.length := by
      rw [toNat_sub (by rw [hright]; exact Nat.le_add_left ..), hright]
      exact Nat.add_sub_cancel ..
    simp only [UInt64.lt_iff_toNat_lt, hone, hpred]
    generalize hs : position l.length start.toInt = s at hleftindex
    generalize ht : position l.length stop.toInt = t at hrightindex
    split
    · -- The sublist ends before it starts, or lies on one side of the list.
      rw [slice_eq_nil]
      rw [hs, ht]
      omega
    · have hfirst : (if sublistleftindex.toNat < f.leftindex.toNat + 1 then f.leftindex + 1
          else sublistleftindex).toNat = f.leftindex.toNat + 1 + (max s 0).toNat := by
        split <;> omega
      have hlast : (if f.leftindex.toNat + l.length < sublistrightindex.toNat then f.rightindex - 1
          else sublistrightindex).toNat = f.leftindex.toNat + 1 + (min t (l.length - 1)).toNat := by
        split <;> omega
      rw [range_window hwindow hbound (by omega) (by omega) hfirst hlast,
        slice_eq_take_drop (i := (max s 0).toNat) (j := (min t (l.length - 1)).toNat)]
      · rw [hs]
        omega
      · rw [ht]
        omega

/-! ### LInsert -/

private theorem get_putNodes_of_not {index : UInt64} {nodes : List Slice} {k : ListsDataKey}
    (hk : ¬ (k.key = key ∧ k.version = version)) :
    (db.write (putNodes key version index nodes)).get k = db.get k := by
  induction nodes generalizing db index with
  | nil => rfl
  | cons node nodes ih =>
    rw [putNodes, SortedMap.write_cons, ih, SortedMap.apply, SortedMap.get_put, if_neg]
    rintro rfl
    exact hk ⟨rfl, rfl⟩

/-- The store after the batch of an insertion. -/
private theorem write_insert (nodes : List (SortedMap.Op ListsDataKey Slice)) (target : UInt64)
    (metavalue value : Slice) :
    db.write (nodes ++ [.Put (metaKey key) metavalue, .Put ⟨key, version, target⟩ value]) =
      ((db.write nodes).put (metaKey key) metavalue).put ⟨key, version, target⟩ value := SortedMap.write_append ..

private theorem get_insert (hversion : 0 < version.toInt) (target : UInt64) (metavalue value : Slice) (i : UInt64) :
    ((db.put (metaKey key) metavalue).put ⟨key, version, target⟩ value).get ⟨key, version, i⟩ =
      if i.toNat = target.toNat then some value else db.get ⟨key, version, i⟩ := by
  have hne : (⟨key, version, i⟩ : ListsDataKey) ≠ metaKey key := fun h =>
    version_ne_zero hversion (congrArg ListsDataKey.version h)
  rw [SortedMap.get_put, SortedMap.get_put, if_neg hne]
  simp only [index_eq_iff]

private theorem update_insert {f' : ListsFields} (hsame : f'.version = version) (hversion : 0 < version.toInt)
    (index target : UInt64) (nodes : List Slice) (value : Slice) :
    Update key f' db (((db.write (putNodes key version index nodes)).put (metaKey key) f'.encode).put
      ⟨key, version, target⟩ value) := by
  have hne : metaKey key ≠ ⟨key, version, target⟩ := fun h =>
    version_ne_zero hversion (congrArg ListsDataKey.version h).symm
  refine ⟨by rw [SortedMap.get_put, if_neg hne, SortedMap.get_put_self], ?_⟩
  intro k hk
  rw [SortedMap.get_put, if_neg, SortedMap.get_put, if_neg, get_putNodes_of_not]
  · exact fun h => hk ⟨h.1, Or.inl (hsame ▸ h.2)⟩
  · rintro rfl
    exact hk ⟨rfl, Or.inr rfl⟩
  · rintro rfl
    exact hk ⟨rfl, Or.inl hsame.symm⟩

private theorem insert_gives {g : ListsFields} {index target : UInt64} {nodes : List Slice} {value : Slice}
    (hsame : g.version = version) (hversion : 0 < version.toInt) (htimestamp : g.timestamp = 0)
    (hcount : g.count.toNat = l.length)
    (hnone : ∀ version' i, version.toInt < version'.toInt → db.get ⟨key, version', i⟩ = none)
    (hwindow : Window (((db.write (putNodes key version index nodes)).put (metaKey key) g.encode).put
      ⟨key, version, target⟩ value) key version g.leftindex.toNat l)
    (hlt : g.leftindex.toNat < 2 ^ 63) (hle : 2 ^ 63 ≤ g.leftindex.toNat + l.length + 1)
    (hbound : g.leftindex.toNat + l.length + 1 < 2 ^ 64) :
    Gives key db (((db.write (putNodes key version index nodes)).put (metaKey key) g.encode).put
      ⟨key, version, target⟩ value) l := by
  have hupdate : Update key g db (((db.write (putNodes key version index nodes)).put (metaKey key) g.encode).put
      ⟨key, version, target⟩ value) := update_insert hsame hversion index target nodes value
  subst hsame
  refine ⟨repKey_of_update hupdate htimestamp hversion hcount hnone fun _ => ⟨hwindow, hlt, hle, hbound⟩, ?_⟩
  exact fun key' l' hne hrep => hupdate.other_key hne hrep

/-- There are elements, and the right index comes after the last one; the indexes may grow by one in each direction,
and `strcmp` finds the first element that is equal to the pivot. -/
def MayInsert (db : ListDb) (key : Slice) (memory : UInt64 → Slice) (pivot : Slice) : Option Slice → Prop
  | some metavalue =>
    let p := ParsedListsMetaValue.new metavalue
    p.count ≠ 0 ∧ p.rightindex.toNat = p.leftindex.toNat + p.count.toNat + 1 ∧ 0 < p.leftindex.toNat ∧
      p.rightindex.toNat + 1 < 2 ^ 64 ∧ p.count.toNat + 1 < 2 ^ 63 ∧
      StrcmpAgrees memory pivot p.rightindex (db.seek ⟨key, p.version, p.leftindex + 1⟩) (p.leftindex + 1)
  | none => False

private theorem toInt_toInt64 {a : UInt64} (h : a.toNat < 2 ^ 63) : a.toInt64.toInt = a.toNat := by
  have hbmod : a.toInt64.toInt = Int.bmod a.toNat (2 ^ 64) := BitVec.toInt_eq_toNat_bmod _
  rw [hbmod, Int.bmod_eq_of_le (by omega) (by omega)]

/-- The place of a new element next to the one at `i`. -/
private def place (pos : BeforeOrAfter) (i : Nat) : Nat := if pos = .Before then i else i + 1

private theorem ite_eq_place (pos : BeforeOrAfter) (i : Nat) : (if pos = .Before then i else i + 1) = place pos i :=
  rfl

private theorem insert_left_target (pos : BeforeOrAfter) {left : UInt64} {i : Nat}
    (hi : left.toNat + 1 + i < 2 ^ 64) :
    (if pos = .Before then left + 1 + UInt64.ofNat i - 1 else left + 1 + UInt64.ofNat i).toNat =
      left.toNat + place pos i := by
  have hone : (left + 1).toNat = left.toNat + 1 := toNat_add_one (by omega)
  have hnat : (UInt64.ofNat i).toNat = i := toNat_ofNat (by omega)
  cases pos with
  | Before =>
    have hsub : left + 1 + UInt64.ofNat i - 1 = left + UInt64.ofNat i := by grind
    rw [if_pos rfl, hsub, toNat_add (by omega), hnat]
    rfl
  | After =>
    rw [if_neg (by decide), toNat_add (by omega), hone, hnat]
    simp only [place, reduceCtorEq, if_false]
    omega

private theorem insert_right_target (pos : BeforeOrAfter) {pivotindex left : UInt64} {i : Nat}
    (hpivot : pivotindex.toNat = left.toNat + 1 + i) (hi : left.toNat + 2 + i < 2 ^ 64) :
    (if pos = .Before then pivotindex else pivotindex + 1).toNat = left.toNat + 1 + place pos i := by
  cases pos with
  | Before => exact hpivot
  | After =>
    rw [if_neg (by decide), toNat_add_one (by omega), hpivot]
    rfl

private theorem lInsert_gives (h : RepKey db key l) (time : Int) (pos : BeforeOrAfter) (value : Slice) {pivot : Slice}
    {memory : UInt64 → Slice} (hcond : MayInsert db key memory pivot (db.get (metaKey key))) :
    Gives key db (LInsert db key time pos pivot value memory).1 (listCall l (.LInsert pos pivot value memory)).1 ∧
      Reply.inserted (LInsert db key time pos pivot value memory).2.2.toInt =
        (listCall l (.LInsert pos pivot value memory)).2 := by
  unfold LInsert
  cases h.cases with
  | missing hget hl hnone => simp [hget, MayInsert] at hcond
  | empty f hget htimestamp hversion hcount hl hnone =>
    simp [hget, MayInsert, ListsFields.new_encode, hcount] at hcond
  | live f hget htimestamp hversion hzero hcount hnone hwindow hlt hle hbound =>
    have hcountne : (f.count == 0) = false := by simpa using hzero
    simp only [hget, MayInsert, ListsFields.new_encode, ListsFields.parsed_count, ListsFields.parsed_leftindex,
      ListsFields.parsed_rightindex, ListsFields.parsed_version, hcount] at hcond
    obtain ⟨-, hright, hleft, hrightlt, hlen, hagrees⟩ := hcond
    have hone : (f.leftindex + 1).toNat = f.leftindex.toNat + 1 := toNat_add_one (by omega)
    obtain ⟨iter, rest, hseek, hiter⟩ := hwindow.seek hbound (i := f.leftindex + 1) (j := 0) (by omega) hone
    rw [List.drop_zero] at hiter
    have hlength : iter.length = l.length := by rw [← hiter, List.length_map]
    rw [hseek] at hagrees
    simp only [hget, ListsFields.new_encode, not_stale htimestamp, ListsFields.parsed_count, hcountne,
      Bool.false_eq_true, if_false, ListsFields.parsed_version, ListsFields.parsed_leftindex,
      ListsFields.parsed_rightindex, hseek, findPivot_eq (by omega) hagrees, hiter, listCall]
    cases hfind : l.findIdx? fun element => element = pivot with
    | none => exact ⟨h.gives, rfl⟩
    | some i =>
      have hi : i < l.length := (List.findIdx?_eq_some_iff_findIdx_eq.1 hfind).1
      have hnat : (UInt64.ofNat i).toNat = i := toNat_ofNat (by omega)
      have hpivot : (f.leftindex + 1 + UInt64.ofNat i).toNat = f.leftindex.toNat + 1 + i := by
        rw [toNat_add (by omega), hone, hnat]
      have hplace : place pos i ≤ l.length := by
        unfold place
        split <;> omega
      have hsum : (f.count + 1).toNat = l.length + 1 := by rw [toNat_add_one (by omega), hcount]
      have hreply : Reply.inserted (f.count + 1).toInt64.toInt = .inserted (l.length + 1) := by
        rw [toInt_toInt64 (by omega), hsum]
        rfl
      have hinsert : (l.insertIdx (place pos i) value).length = l.length + 1 :=
        List.length_insertIdx_of_le_length hplace _
      simp only [Option.map_some, ite_eq_place]
      split
      · -- The elements before the pivot move down.
        have hpred : (f.leftindex - 1).toNat = f.leftindex.toNat - 1 :=
          toNat_sub (show (1 : UInt64).toNat ≤ f.leftindex.toNat from hleft)
        have hfirst : firstHalf pos (f.leftindex + 1 + UInt64.ofNat i) (iter ++ rest) (f.leftindex + 1) =
            (iter.map Prod.snd).take (place pos i) := firstHalf_eq (by omega) (by omega)
        simp only [hfirst, hiter, ListsFields.modifyLeftIndex_parsed, ListsFields.modifyCount_parsed,
          ListsFields.parsed_value, ListsFields.parsed_count, write_insert]
        refine ⟨insert_gives
          (g := { f with leftindex := f.leftindex - 1, count := f.count + 1 }) rfl hversion htimestamp
          (hsum.trans hinsert.symm) hnone ?_ ?_ ?_ ?_, hreply⟩
        · simp only [hpred]
          exact hwindow.insert_left hplace hleft hbound (insert_left_target pos (by omega)) value
            (get_insert hversion _ _ value)
        all_goals simp only [hpred, hinsert]; omega
      · -- The elements after the pivot move up.
        obtain ⟨iter', rest', hseek', hiter'⟩ := hwindow.seek hbound hi.le hpivot
        have hlength' : iter'.length = l.length - i := by
          rw [← List.length_map (f := Prod.snd), hiter', List.length_drop]
        have hne : iter' ≠ [] := by
          rintro rfl
          simp only [List.length_nil] at hlength'
          omega
        have hsucc : (f.rightindex + 1).toNat = f.rightindex.toNat + 1 := toNat_add_one hrightlt
        have hafter : afterHalf pos (f.leftindex + 1 + UInt64.ofNat i) f.rightindex (iter' ++ rest')
            (f.leftindex + 1 + UInt64.ofNat i) = (iter'.map Prod.snd).drop (if pos = .Before then 0 else 1) :=
          afterHalf_pivot hne (by omega)
        have hdrop : (l.drop i).drop (if pos = .Before then 0 else 1) = l.drop (place pos i) := by
          rw [List.drop_drop]
          cases pos <;> rfl
        simp only [hseek', hafter, hiter', hdrop, ListsFields.modifyRightIndex_parsed, ListsFields.modifyCount_parsed,
          ListsFields.parsed_value, ListsFields.parsed_count, write_insert]
        refine ⟨insert_gives (g := { f with rightindex := f.rightindex + 1, count := f.count + 1 }) rfl hversion
          htimestamp (hsum.trans hinsert.symm) hnone ?_ ?_ ?_ ?_, hreply⟩
        · exact hwindow.insert_right hplace (by omega) (insert_right_target pos hpivot (by omega)) value
            (get_insert hversion _ _ value)
        all_goals simp only [hinsert]; omega

/-! ### Runs -/

/-- The call keeps clear of what goes wrong. -/
def CallOk (s : State) (a : Action) : Prop :=
  match a.call with
  | .LPush _ rest => MayPush (rest.length + 1) (s.db.get (metaKey a.key))
  | .LPop following => getRaw s.db a.key following = some none ∧ ¬ Live (s.db.get (metaKey a.key))
  | .LRange _ _ => MayRange (s.db.get (metaKey a.key))
  | .LLen => True
  | .LInsert _ pivot _ memory => MayInsert s.db a.key memory pivot (s.db.get (metaKey a.key))
  | .Del => MayDel (s.db.get (metaKey a.key))

instance (n : Nat) : ∀ o, Decidable (MayPush n o)
  | some metavalue =>
    inferInstanceAs (Decidable (if (ParsedListsMetaValue.new metavalue).count = 0 then
      (ParsedListsMetaValue.new metavalue).version.toInt < 2 ^ 31 - 1 ∧ n < 2 ^ 63
      else n ≤ (ParsedListsMetaValue.new metavalue).leftindex.toNat))
  | none => inferInstanceAs (Decidable (_ < _))

instance : ∀ o, Decidable (Live o)
  | some _ => inferInstanceAs (Decidable (_ ≠ _))
  | none => isFalse id

instance : ∀ o, Decidable (MayDel o)
  | some metavalue =>
    inferInstanceAs (Decidable ((ParsedListsMetaValue.new metavalue).count ≠ 0 →
      (ParsedListsMetaValue.new metavalue).version.toInt < 2 ^ 31 - 1))
  | none => isTrue trivial

instance : ∀ o, Decidable (MayRange o)
  | some metavalue =>
    inferInstanceAs (Decidable ((ParsedListsMetaValue.new metavalue).count ≠ 0 →
      (ParsedListsMetaValue.new metavalue).rightindex.toNat = (ParsedListsMetaValue.new metavalue).leftindex.toNat +
        (ParsedListsMetaValue.new metavalue).count.toNat + 1))
  | none => isTrue trivial

instance decidableStrcmpAgrees (memory : UInt64 → Slice) (pivot : Slice) (rightindex : UInt64) :
    ∀ iter currentindex, Decidable (StrcmpAgrees memory pivot rightindex iter currentindex)
  | [], _ => isTrue trivial
  | e :: iter, currentindex =>
    have := decidableStrcmpAgrees memory pivot rightindex iter (currentindex + 1)
    inferInstanceAs (Decidable (currentindex < rightindex →
      (strcmpEqual e.2 (memory currentindex) pivot = true ↔ e.2 = pivot) ∧
        (e.2 ≠ pivot → StrcmpAgrees memory pivot rightindex iter (currentindex + 1))))

instance (db : ListDb) (key : Slice) (memory : UInt64 → Slice) (pivot : Slice) :
    ∀ o, Decidable (MayInsert db key memory pivot o)
  | some _ => inferInstanceAs (Decidable (_ ∧ _ ∧ _ ∧ _ ∧ _ ∧ _))
  | none => isFalse id

instance (s : State) : ∀ a, Decidable (CallOk s a)
  | ⟨key, .LPush _ rest, _, _⟩ => inferInstanceAs (Decidable (MayPush (rest.length + 1) (s.db.get (metaKey key))))
  | ⟨key, .LPop following, _, _⟩ =>
    inferInstanceAs (Decidable (getRaw s.db key following = some none ∧ ¬ Live (s.db.get (metaKey key))))
  | ⟨key, .LRange _ _, _, _⟩ => inferInstanceAs (Decidable (MayRange (s.db.get (metaKey key))))
  | ⟨_, .LLen, _, _⟩ => isTrue trivial
  | ⟨key, .LInsert _ pivot _ memory, _, _⟩ =>
    inferInstanceAs (Decidable (MayInsert s.db key memory pivot (s.db.get (metaKey key))))
  | ⟨key, .Del, _, _⟩ => inferInstanceAs (Decidable (MayDel (s.db.get (metaKey key))))

/-- The entries of every key stand for its list. -/
def Represents (s : State) (lists : Slice → List Slice) : Prop := ∀ key, RepKey s.db key (lists key)

private theorem represents_of_gives {s : State} {lists : Slice → List Slice} (h : Represents s lists) {db' : ListDb}
    (hgives : Gives key s.db db' l) (clock : Int) :
    Represents ⟨clock, db'⟩ fun key' => if key' = key then l else lists key' := by
  intro key'
  by_cases hkey : key' = key
  · simp only [if_pos hkey]
    exact hkey ▸ hgives.rep
  · simp only [if_neg hkey]
    exact hgives.other key' _ hkey (h key')

private theorem step_simulates {s : State} {lists : Slice → List Slice} {a : Action} (h : Represents s lists)
    (hcond : CallOk s a) :
    Represents (step s a).1 (listStep lists a).1 ∧ (step s a).2 = (listStep lists a).2 := by
  obtain ⟨key, call, wait, lag⟩ := a
  cases call with
  | LPush first rest =>
    obtain ⟨hgives, hstatus, hn⟩ := lPush_gives (h key) (s.clock + wait) (s.clock + wait + lag) (first :: rest)
      hcond
    refine ⟨represents_of_gives h hgives _, ?_⟩
    simp only [step, RedisList.call, listStep, listCall, hstatus, hn, length_pushed, Status.ok_OK]
  | LPop following =>
    have hl := (not_live_iff (h key)).1 hcond.2
    have hpop : LPop s.db key following (s.clock + wait) = some (s.db, .NotFound "", none) := by
      rw [LPop, hcond.1]
    have hgives : Gives key s.db s.db [] := hl ▸ (h key).gives
    simp only [step, RedisList.call, listStep, listCall, hpop, hl]
    exact ⟨represents_of_gives h hgives _, rfl⟩
  | LRange start stop =>
    refine ⟨represents_of_gives h (h key).gives _, ?_⟩
    simp only [step, RedisList.call, listStep, listCall, lRange_eq (h key) hcond]
  | LLen =>
    refine ⟨represents_of_gives h (h key).gives _, ?_⟩
    simp only [step, RedisList.call, listStep, listCall, lLen_eq (h key)]
  | LInsert pos pivot value memory =>
    obtain ⟨hgives, hreply⟩ := lInsert_gives (h key) (s.clock + wait) pos value hcond
    exact ⟨represents_of_gives h hgives _, hreply⟩
  | Del => exact ⟨represents_of_gives h (del_gives (h key) hcond) _, rfl⟩

theorem represents_init (clock : Int) : Represents ⟨clock, .empty⟩ fun _ => [] :=
  fun _ => .missing rfl rfl fun _ _ _ => rfl

/-- In a run whose calls keep clear of what goes wrong, the replies are those of lists by key. -/
theorem replies_eq_lists (clock : Int) (actions : List Action)
    (hmeets : Meets step CallOk ⟨clock, .empty⟩ actions) :
    replies step ⟨clock, .empty⟩ actions = replies listStep (fun _ => []) actions :=
  Replies.replies_eq (fun _ _ a hrep hcond => step_simulates (a := a) hrep hcond) (represents_init clock) hmeets

/-- A list that is deleted and pushed again is read by position, and grows on both sides of an element. -/
theorem replies_eq_lists_example :
    let actions : List Action :=
      [⟨[1], .LPush [5] [], 0, 0⟩, ⟨[2], .LPush [9] [[8]], 0, 0⟩, ⟨[1], .Del, 1, 0⟩,
        ⟨[1], .LPop [1, 7, 0, 0, 0, 0, 0, 0], 0, 0⟩,
        ⟨[1], .LPush [7] [[8], [6]], 0, 0⟩, ⟨[1], .LInsert .Before [8] [4] fun _ => [0], 0, 0⟩,
        ⟨[1], .LInsert .After [7] [3] fun _ => [0], 0, 0⟩, ⟨[1], .LRange 0 (-2), 0, 0⟩, ⟨[2], .LLen, 0, 0⟩]
    replies step ⟨100, .empty⟩ actions = replies listStep (fun _ => []) actions :=
  replies_eq_lists 100 _ (by decide +kernel)

/-- What is pushed is not popped, and is not in the range of all elements. -/
theorem replies_ne_lists :
    ¬ ∀ (clock : Int) (actions : List Action),
      replies step ⟨clock, .empty⟩ actions = replies listStep (fun _ => []) actions := by
  intro h
  have := h 100 [⟨[1], .LPush [7] [], 0, 0⟩, ⟨[1], .LRange 0 (-1), 0, 0⟩,
    ⟨[1], .LPop [1, 3, 0, 0, 0, 0, 0, 0], 0, 0⟩]
  revert this
  decide +kernel

end RedisList

end RedisDb
