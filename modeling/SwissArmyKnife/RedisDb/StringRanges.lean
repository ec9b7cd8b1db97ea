import SwissArmyKnife.RedisDb.RedisStringCalls

/-!
# Writing over a range of a string

`Setrange` puts the new value together from the part of the old one before the range, the range and the part behind
it. `overlay` is what is meant.  `Setrange` writes the range as a C string and compares lengths less one without a
sign, so that it stores the overlay for ranges without a NUL and for most old values only (`setrange_overwrites_iff`).
-/

namespace RedisDb

namespace RedisString

/-- The bytes of a string; there are none when it is stale or was never set. -/
def bytesOf (held : Option StringsMetaValue) (time : Int) : Slice :=
  match held with
  | some m => if m.parsed.IsStale time then [] else m.value
  | none => []

/-- There is a value that has not expired. -/
def isLive (held : Option StringsMetaValue) (time : Int) : Bool :=
  match held with
  | some m => !m.parsed.IsStale time
  | none => false

theorem bytesOf_of_not_isLive {held : Option StringsMetaValue} {time : Int} (h : ¬ isLive held time = true) :
    bytesOf held time = [] := by
  cases held with
  | none => rfl
  | some m =>
    have hstale : m.parsed.IsStale time = true := by simpa [isLive] using h
    simp [bytesOf, hstale]

/-! ### Overlays -/

/-- A string with a range written over it, after zeros when it ends before the range. -/
def overlay (old : Slice) (off : Nat) (value : Slice) : Slice :=
  old.take off ++ List.replicate (off - old.length) 0 ++ value ++ old.drop (off + value.length)

variable {old value new : Slice} {off i : Nat}

theorem length_overlay (old : Slice) (off : Nat) (value : Slice) :
    (overlay old off value).length = max old.length (off + value.length) := by
  simp only [overlay, List.length_append, List.length_take, List.length_replicate, List.length_drop]
  omega

/-- The part before the range, with the zeros, ends where the range begins. -/
private theorem length_head (old : Slice) (off : Nat) :
    (old.take off ++ List.replicate (off - old.length) (0 : UInt8)).length = off := by
  simp only [List.length_append, List.length_take, List.length_replicate]
  omega

theorem drop_overlay (old : Slice) (off : Nat) (value : Slice) :
    (overlay old off value).drop off = value ++ old.drop (off + value.length) := by
  rw [overlay, List.append_assoc, List.drop_append_of_le_length (length_head old off).ge,
    List.drop_eq_nil_of_le (length_head old off).le, List.nil_append]

theorem getElem?_overlay_range (hi : i < value.length) : (overlay old off value)[off + i]? = value[i]? := by
  rw [← List.getElem?_drop, drop_overlay, List.getElem?_append_left hi]

theorem getElem?_overlay_old (hi : i < old.length) (hout : i < off ∨ off + value.length ≤ i) :
    (overlay old off value)[i]? = old[i]? := by
  rcases hout with hbefore | hbehind
  · rw [overlay, List.append_assoc, List.append_assoc, List.getElem?_append_left (by simp; omega),
      List.getElem?_take_of_lt hbefore]
  · obtain ⟨k, rfl⟩ := Nat.exists_eq_add_of_le hbehind
    rw [Nat.add_assoc, ← List.getElem?_drop, drop_overlay, List.getElem?_append_right (by omega), List.getElem?_drop]
    congr 1
    omega

theorem getElem?_overlay_gap (hi : old.length ≤ i) (hgap : i < off) : (overlay old off value)[i]? = some 0 := by
  rw [overlay, List.append_assoc, List.append_assoc, List.getElem?_append_right (by simp; omega),
    List.getElem?_append_left (by simp; omega), List.getElem?_replicate, if_pos (by simp; omega)]

/-- The value is written, the old bytes around it stay, and a gap between them is filled with zeros. -/
structure Overlays (old : Slice) (off : Nat) (value new : Slice) : Prop where
  length : new.length = max old.length (off + value.length)
  range : ∀ i, i < value.length → new[off + i]? = value[i]?
  kept : ∀ i, i < old.length → i < off ∨ off + value.length ≤ i → new[i]? = old[i]?
  gap : ∀ i, old.length ≤ i → i < off → new[i]? = some 0

theorem overlays_iff : Overlays old off value new ↔ new = overlay old off value := by
  constructor
  · intro h
    refine List.ext_getElem? fun i => ?_
    rcases lt_or_ge i (max old.length (off + value.length)) with hi | hi
    · by_cases hrange : off ≤ i ∧ i < off + value.length
      · obtain ⟨k, rfl⟩ := Nat.exists_eq_add_of_le hrange.1
        rw [h.range k (by omega), getElem?_overlay_range (by omega)]
      · by_cases hkept : i < old.length
        · rw [h.kept i hkept (by omega), getElem?_overlay_old hkept (by omega)]
        · rw [h.gap i (by omega) (by omega), getElem?_overlay_gap (by omega) (by omega)]
    · rw [List.getElem?_eq_none (by rw [h.length]; exact hi),
        List.getElem?_eq_none (by rw [length_overlay]; exact hi)]
  · rintro rfl
    exact ⟨length_overlay .., fun i hi => getElem?_overlay_range hi, fun i hi hout => getElem?_overlay_old hi hout,
      fun i hi hgap => getElem?_overlay_gap hi hgap⟩

/-! ### What `Setrange` stores -/

/-- The new value: none when `substr` throws. -/
def rangeWritten (held : Option StringsMetaValue) (off : Nat) (value beyond : Slice) (time : Int) : Option Slice :=
  if isLive held time then overwriteRange (bytesOf held time) off value.length (CStr (value ++ beyond))
  else some (List.replicate off 0 ++ CStr (value ++ beyond))

variable {db : Db} {key beyond : Slice} {held : Option StringsMetaValue} {startoffset : Int64} {time : Int}

theorem setrange_eq (hget : db.get key = held.map StringsMetaValue.Encode) (hoffset : 0 ≤ startoffset) :
    Setrange none db key startoffset value beyond time =
      (rangeWritten held startoffset.toInt.toNat value beyond time).map fun newvalue =>
        (db.put key (StringsMetaValue.new newvalue).Encode, .OK, some (Int32.ofNat newvalue.length)) := by
  have hnonneg : ¬ startoffset < 0 := Int64.not_lt.2 hoffset
  cases held with
  | none => simp [Setrange, hnonneg, RedisDb.Get, hget, rangeWritten, isLive]
  | some m =>
    cases hstale : m.parsed.IsStale time <;>
      simp [Setrange, hnonneg, RedisDb.Get, hget, StringsMetaValue.new_encode, hstale, rangeWritten, isLive, bytesOf,
        ParsedStringsMetaValue.kStringsValueSuffixLength]

theorem sizeLessOne_of_pos {n : Nat} (hpos : 0 < n) (hlt : n < 2 ^ 64) : sizeLessOne n = n - 1 := by
  unfold sizeLessOne
  omega

theorem overlay_nil (old : Slice) : overlay old 0 [] = old := by simp [overlay]

/-- `overwriteRange` makes the overlay unless the old value is empty and a range is written at its beginning; an empty
range at the beginning replaces the whole value by what is written. -/
theorem overwriteRange_eq_overlay_iff {data : Slice} (hsize : max old.length (off + value.length) < 2 ^ 31) :
    overwriteRange old off value.length data = some (overlay old off value) ↔
      ¬ (old = [] ∧ off = 0 ∧ value ≠ []) ∧ data = if off = 0 ∧ value = [] then old else value := by
  have hvalue : value = [] ↔ value.length = 0 := List.length_eq_zero_iff.symm
  have hold : old = [] ↔ old.length = 0 := List.length_eq_zero_iff.symm
  rw [overwriteRange]
  by_cases hgap : old.length < off
  · rw [if_pos hgap, if_neg (by omega), overlay, List.take_of_length_le hgap.le, List.drop_eq_nil_of_le (by omega),
      List.append_nil, Option.some.injEq, List.append_cancel_left_eq]
    exact (and_iff_right (by omega)).symm
  · rw [if_neg hgap]
    by_cases hnone : off + value.length = 0
    · -- The end of the range, less one, is the largest number.
      have hoff : off = 0 := by omega
      have hempty : value = [] := hvalue.2 (by omega)
      have hmax : ¬ sizeLessOne 0 < sizeLessOne old.length := by
        unfold sizeLessOne
        omega
      subst hoff hempty
      simp only [List.length_nil, Nat.add_zero, hmax, if_false, overlay_nil, List.take_zero,
        List.nil_append, and_self,
        if_true, ne_eq, not_true_eq_false, and_false, not_false_eq_true, true_and, Option.some.injEq]
    · have hrange : ¬ (off = 0 ∧ value = []) := fun h => hnone (by rw [h.1, hvalue.1 h.2])
      rw [sizeLessOne_of_pos (n := off + value.length) (by omega) (by omega), if_neg hrange]
      by_cases hold0 : old.length = 0
      · -- The size of the old value, less one, is the largest number, and `substr` throws.
        have hmax : off + value.length - 1 < sizeLessOne old.length := by
          unfold sizeLessOne
          omega
        rw [if_pos hmax, if_neg (by omega)]
        have hoff : off = 0 := by omega
        exact iff_of_false (by simp) fun h => h.1 ⟨hold.2 hold0, hoff, fun hempty => hrange ⟨hoff, hempty⟩⟩
      · have hok : ¬ (old = [] ∧ off = 0 ∧ value ≠ []) := fun h => hold0 (hold.1 h.1)
        rw [sizeLessOne_of_pos (n := old.length) (by omega) (by omega), overlay, show off - old.length = 0 by omega,
          List.replicate_zero, List.append_nil, and_iff_right hok]
        split
        · rw [if_pos (by omega), Option.some.injEq, List.append_cancel_right_eq, List.append_cancel_left_eq]
        · rw [List.drop_eq_nil_of_le (by omega), List.append_nil, Option.some.injEq, List.append_cancel_left_eq]

/-- The value that is stored is the overlay. -/
theorem rangeWritten_eq_iff (hsize : max (bytesOf held time).length (off + value.length) < 2 ^ 31) :
    rangeWritten held off value beyond time = some (overlay (bytesOf held time) off value) ↔
      ¬ (isLive held time = true ∧ bytesOf held time = [] ∧ off = 0 ∧ value ≠ []) ∧
        CStr (value ++ beyond) = if off = 0 ∧ value = [] then bytesOf held time else value := by
  rw [rangeWritten]
  split
  · rename_i hlive
    rw [overwriteRange_eq_overlay_iff hsize]
    simp only [hlive, true_and]
  · rename_i hdead
    rw [bytesOf_of_not_isLive hdead]
    simp only [hdead, Bool.false_eq_true, false_and, not_false_eq_true, true_and, overlay, List.take_nil,
      List.nil_append, List.length_nil, Nat.sub_zero, List.drop_nil, List.append_nil, Option.some.injEq,
      List.append_cancel_left_eq]
    split
    · rename_i hempty
      rw [hempty.2]
    · rfl

theorem new_encode_inj {a b : Slice} (h : (StringsMetaValue.new a).Encode = (StringsMetaValue.new b).Encode) :
    a = b := by
  have hparsed := congrArg ParsedStringsMetaValue.new h
  rw [StringsMetaValue.new_encode, StringsMetaValue.new_encode] at hparsed
  exact congrArg ParsedStringsMetaValue.uservalue hparsed

/-! ### The range is read back -/

/-- `Getrange` over the range of an overlay. -/
theorem rangeOf_overlay (hne : value ≠ []) {startoffset : Int64} (hoffset : 0 ≤ startoffset)
    (hsize : startoffset.toInt.toNat + value.length < 2 ^ 63) :
    rangeOf (overlay old startoffset.toInt.toNat value) startoffset (startoffset + Int64.ofNat value.length - 1) =
      value := by
  have hpos : 0 < value.length := List.length_pos_of_ne_nil hne
  have hstart : 0 ≤ startoffset.toInt := by simpa using Int64.le_iff_toInt_le.1 hoffset
  have hend : (startoffset + Int64.ofNat value.length - 1).toInt = startoffset.toInt + value.length - 1 := by
    have hlength : (Int64.ofNat value.length).toInt = value.length := Int64.toInt_ofNat_of_lt (by omega)
    have hsum : (startoffset + Int64.ofNat value.length).toInt = startoffset.toInt + value.length := by
      rw [toInt_add_of_fits (by rw [hlength, Fits]; omega), hlength]
    have hone : (1 : Int64).toInt = 1 := rfl
    rw [toInt_sub_of_fits (by rw [hsum, hone, Fits]; omega), hsum, hone]
  have hendoffset : 0 ≤ startoffset + Int64.ofNat value.length - 1 := by
    rw [Int64.le_iff_toInt_le, hend, Int64.toInt_zero]
    omega
  simp only [rangeOf, hoffset, hendoffset, if_true, hend, length_overlay]
  rw [if_neg (by omega), if_neg (by omega), if_neg (by omega), if_neg (by omega), drop_overlay,
    show (startoffset.toInt + value.length - 1 - startoffset.toInt + 1).toNat = value.length by omega, List.take_left]

/-- What `Setrange` is to do: store the overlay and return its length, and `Getrange` then reads the range. -/
def Overwrites (db : Db) (key : Slice) (old : Slice) (startoffset : Int64)
    (value beyond : Slice) (time : Int) : Prop :=
  ∃ db' ret newvalue, Setrange none db key startoffset value beyond time = some (db', .OK, some ret) ∧
    db'.get key = some (StringsMetaValue.new newvalue).Encode ∧
    Overlays old startoffset.toInt.toNat value newvalue ∧ ret.toInt = newvalue.length ∧
    (value ≠ [] →
      Getrange none db' key startoffset (startoffset + Int64.ofNat value.length - 1) time = (.OK, value))

/-- `Setrange` overwrites its range when the new value is shorter than 2^31 bytes, the range as a C string is the
range, and it does not write at the beginning of a live empty value; an empty range at the beginning of a value must
be followed in memory by that very value. -/
theorem setrange_overwrites_iff (hget : db.get key = held.map StringsMetaValue.Encode) (hoffset : 0 ≤ startoffset) :
    Overwrites db key (bytesOf held time) startoffset value beyond time ↔
      max (bytesOf held time).length (startoffset.toInt.toNat + value.length) < 2 ^ 31 ∧
        ¬ (isLive held time = true ∧ bytesOf held time = [] ∧ startoffset = 0 ∧ value ≠ []) ∧
        CStr (value ++ beyond) = if startoffset = 0 ∧ value = [] then bytesOf held time else value := by
  have hstart : 0 ≤ startoffset.toInt := by simpa using Int64.le_iff_toInt_le.1 hoffset
  have hzero : startoffset = 0 ↔ startoffset.toInt.toNat = 0 := by
    rw [← Int64.toInt_inj, Int64.toInt_zero]
    omega
  simp only [hzero]
  constructor
  · rintro ⟨db', ret, newvalue, hrun, hstored, hoverlays, hret, -⟩
    rw [setrange_eq hget hoffset] at hrun
    obtain ⟨written, hwritten, heq⟩ := Option.map_eq_some_iff.1 hrun
    simp only [Prod.mk.injEq, Option.some.injEq, true_and] at heq
    rw [← heq.1, SortedMap.get_put_self, Option.some.injEq] at hstored
    have hnew : newvalue = written := (new_encode_inj hstored).symm
    have hlength := hoverlays.length
    have hlt := ret.toInt_lt
    have hsize : max (bytesOf held time).length (startoffset.toInt.toNat + value.length) < 2 ^ 31 := by omega
    refine ⟨hsize, (rangeWritten_eq_iff hsize).1 ?_⟩
    rw [hwritten, ← hnew, overlays_iff.1 hoverlays]
  · rintro ⟨hsize, hcond⟩
    refine ⟨db.put key (StringsMetaValue.new (overlay (bytesOf held time) startoffset.toInt.toNat value)).Encode,
      Int32.ofNat (overlay (bytesOf held time) startoffset.toInt.toNat value).length, _, ?_,
        SortedMap.get_put_self ..,
      overlays_iff.2 rfl, ?_, fun hne => ?_⟩
    · rw [setrange_eq hget hoffset, (rangeWritten_eq_iff hsize).2 hcond, Option.map_some]
    · rw [Int32.toInt_ofNat_of_lt (by rw [length_overlay]; exact hsize)]
    · rw [Getrange, RedisDb.Get, SortedMap.get_put_self]
      simp only [StringsMetaValue.new_encode, StringsMetaValue.stripSuffix_parsed]
      rw [if_neg (by simp [ParsedStringsMetaValue.IsStale, StringsMetaValue.parsed, StringsMetaValue.new]),
        StringsMetaValue.new, rangeOf_overlay hne hoffset (by omega)]

/-- The bytes `bcd`, with a NUL behind them in memory, written over `-7` from its second byte on. -/
theorem setrange_overwrites_iff_minusSeven :
    Overwrites minusSeven [107] [45, 55] 1 [98, 99, 100] [0] 500 :=
  (setrange_overwrites_iff (show minusSeven.get [107] = (some (StringsMetaValue.mk [45, 55] 1000)).map _ by decide)
    (by decide)).2 ⟨by decide, by decide, by decide⟩

/-- A value with a NUL in it is cut there. -/
theorem setrange_cuts : ¬ ∀ (db : Db) (key : Slice) (held : Option StringsMetaValue) (startoffset : Int64)
    (value beyond : Slice) (time : Int), db.get key = held.map StringsMetaValue.Encode → 0 ≤ startoffset →
    Overwrites db key (bytesOf held time) startoffset value beyond time := by
  intro h
  obtain ⟨db', ret, newvalue, hrun, -, hoverlays, hret, -⟩ :=
    h SortedMap.empty [107] none 0 [97, 0, 98] [0] 0 rfl (by decide)
  have hone : (Setrange none SortedMap.empty [107] 0 [97, 0, 98] [0] 0).map (fun r => r.2.2) = some (some 1) := by
    decide
  rw [hrun, Option.map_some, Option.some.injEq, Option.some.injEq] at hone
  have hthree : newvalue.length = 3 := hoverlays.length
  rw [hone, hthree] at hret
  exact absurd hret (by decide)

end RedisString

end RedisDb
