import SwissArmyKnife.RedisDb.GlobMatch
import Mathlib.Data.List.TakeWhile

/-!
# The language of a pattern

On a string that is not empty the matcher stays between the terminators and decides the language of the pattern, with
the ends of ranges read as signed characters.  On the empty string an element that takes a NUL moves it behind the
terminator (`stringMatchLen_decides_iff`).
-/

namespace RedisDb

namespace StringMatch

/-! ### The matcher with the memory behind the string -/

theorem anyMatch_mono {ι : Type*} {f g : ι → Option Bool} (hfg : ∀ i r, f i = some r → g i = some r) (l : List ι)
    {r : Bool} (h : anyMatch (l.map f) = some r) : anyMatch (l.map g) = some r := by
  induction l with
  | nil => exact h
  | cons i l ih =>
    rw [List.map_cons] at h ⊢
    cases hi : f i with
    | none =>
      rw [hi] at h
      exact absurd h (by simp [anyMatch])
    | some found =>
      rw [hi] at h
      rw [hfg i found hi]
      cases found with
      | false => exact ih h
      | true => exact h

theorem searchOn_mono {f g : Nat → Option Bool} (hfg : ∀ i r, f i = some r → g i = some r) {fuel i : Nat} {r : Bool}
    (h : searchOn f fuel i = some r) : searchOn g fuel i = some r := by
  induction fuel generalizing i with
  | zero => exact absurd h (by simp [searchOn])
  | succ fuel ih =>
    rw [searchOn] at h ⊢
    cases hi : f i with
    | none =>
      rw [hi] at h
      cases h
    | some found =>
      rw [hi] at h
      rw [hfg i found hi]
      cases found with
      | false => exact ih h
      | true => exact h

theorem whileString_mono {f g : Nat → Option Bool} (hfg : ∀ i r, f i = some r → g i = some r) {stringlen : Int}
    {r : Bool} (h : whileString f stringlen = some r) : whileString g stringlen = some r := by
  unfold whileString at h ⊢
  split at h
  · rename_i hpos
    rw [if_pos hpos]
    exact anyMatch_mono hfg _ h
  · rename_i hneg
    rw [if_neg hneg]
    exact searchOn_mono hfg h

theorem matchClass_eq (c : UInt8) (l : Slice) (found : Bool) : matchClass c l found =
    (found || (parseClass l).1.any (Item.has signedChar c), (parseClass l).2.getD []) := by
  induction l using parseClass.induct generalizing found with
  | case1 => simp [matchClass, parseClass]
  | case2 b l ih => simp [matchClass, parseClass, ih, Item.has, Bool.or_assoc]
  | case3 l => simp [matchClass, parseClass]
  | case4 start stop l h1 h2 ih =>
    rw [matchClass, parseClass, ih]
    · simp [Item.has, inRange, signedChar, Bool.or_assoc]
    all_goals first | exact h1 | exact h2
  | case5 b l h1 h2 h3 ih =>
    rw [matchClass, parseClass, ih]
    · simp [Item.has, Bool.or_assoc]
    all_goals first | exact h1 | exact h2 | exact h3

theorem classFound_eq_some {c : Option UInt8} {c' : UInt8} (hc : ∀ b, c = some b → c' = b) {items : List Item}
    {found : Bool} (h : classFound c items false = some found) : found = items.any (Item.has signedChar c') := by
  cases c with
  | none =>
    rw [classFound_none] at h
    by_cases hnil : items = []
    · simpa [hnil] using h.symm
    · rw [if_neg hnil] at h
      cases h
  | some b =>
    rw [classFound_some] at h
    rw [hc b rfl, ← Option.some.inj h, Bool.false_or]

/-- Where the memory is known the two matchers agree. -/
theorem matchFrom_of_run {l : Slice} {fuel : Nat} (hfuel : l.length < fuel) {S : Nat → Option UInt8}
    {string : Nat → UInt8} (hS : ∀ i b, S i = some b → string i = b) {stringlen : Int} {r : Bool}
    (h : run (parse l) S stringlen = some r) : matchFrom fuel l string stringlen = some r := by
  induction fuel generalizing l S string stringlen r with
  | zero => omega
  | succ fuel ih =>
    -- what happens behind an element that took a byte
    have hgoOn : ∀ {rest : Slice}, rest.length < fuel →
        took stringlen (decide (∀ e ∈ parse rest, e = .star))
          (run (parse rest) (fun i => S (i + 1)) (stringlen - 1)) = some r →
        (if stringlen - 1 < -2 ^ 31 then none
          else if stringlen - 1 = 0 then some (rest.dropWhile (· = 42)).isEmpty
          else matchFrom fuel rest (fun i => string (i + 1)) (stringlen - 1)) = some r := by
      intro rest hrest hrun
      rw [took] at hrun
      by_cases hlow : stringlen - 1 < -2 ^ 31
      · rw [if_pos hlow] at hrun
        cases hrun
      rw [if_neg hlow] at hrun ⊢
      by_cases hone : stringlen - 1 = 0
      · rw [if_pos hone] at hrun ⊢
        rw [← hrun, Option.some.injEq, Bool.eq_iff_iff, List.isEmpty_iff, decide_eq_true_eq, dropWhile_star_iff]
      · rw [if_neg hone] at hrun ⊢
        exact ih hrest (fun i b => hS (i + 1) b) hrun
    induction l using pattern_cases with
    | nil => simpa [run, matchFrom] using h
    | star l =>
      have hle := (List.dropWhile_suffix (p := fun b : UInt8 => decide (b = 42)) (l := l)).length_le
      rw [List.length_cons] at hfuel
      rw [parse_star, run_stars] at h
      rw [matchFrom]
      by_cases hnil : l.dropWhile (· = 42) = []
      · simpa [hnil] using h
      rw [if_neg hnil] at h
      simp only [List.isEmpty_iff, if_neg hnil]
      exact whileString_mono (fun i r hr => ih (by omega) (fun j b => hS (i + j) b) hr) h
    | any l =>
      rw [parse_any, run] at h
      rw [matchFrom]
      by_cases hzero : stringlen = 0
      · simpa [hzero] using h
      · rw [if_neg hzero] at h ⊢
        exact hgoOn (by simpa using hfuel) h
    | cls l =>
      have hle := (afterClass_suffix l).length_le
      rw [parse_class, run] at h
      obtain ⟨found, hfound, h⟩ := Option.bind_eq_some_iff.1 h
      have hitems : (if decide (l.head? = some 94) = true then l.tail else l) = classItems l := by
        simp only [classItems, decide_eq_true_eq]
      rw [matchFrom]
      simp only [hitems, matchClass_eq, Bool.false_or]
      rw [← classFound_eq_some (hS 0) hfound]
      by_cases hno : found = decide (l.head? = some 94)
      · rwa [if_pos hno] at h ⊢
      · rw [if_neg hno] at h ⊢
        exact hgoOn (by rw [List.length_cons] at hfuel; omega) h
    | escape b l =>
      rw [parse_escape, run] at h
      obtain ⟨c, hc, h⟩ := Option.bind_eq_some_iff.1 h
      rw [matchFrom, hS 0 c hc]
      by_cases hb : b = c
      · rw [if_neg (not_not.2 hb)] at h
        rw [if_pos hb]
        exact hgoOn (by simp at hfuel; omega) h
      · rw [if_pos hb] at h
        rwa [if_neg hb]
    | byte b l hstar hany hclass hescape =>
      rw [parse_byte hstar hany hclass hescape, run] at h
      obtain ⟨c, hc, h⟩ := Option.bind_eq_some_iff.1 h
      have hlast : ∀ b' l', b = 92 → l = b' :: l' → False := fun b' l' hb hl =>
        absurd (hl.symm.trans (hescape hb)) (List.cons_ne_nil _ _)
      rw [matchFrom]
      · rw [hS 0 c hc]
        by_cases hb : b = c
        · rw [if_neg (not_not.2 hb)] at h
          rw [if_pos hb]
          exact hgoOn (by simpa using hfuel) h
        · rw [if_pos hb] at h
          rwa [if_neg hb]
      · exact hstar
      · exact hany
      · exact hclass
      · exact hlast

/-! ### A string that is not empty -/

theorem memory_tail (b : UInt8) (l : Slice) : (fun i => memory (b :: l) (i + 1)) = memory l := rfl

theorem memory_drop {l : Slice} {i : Nat} (hi : i ≤ l.length) : (fun j => memory l (i + j)) = memory (l.drop i) := by
  funext j
  rw [memory, memory, ← List.getElem?_drop, List.drop_append_of_le_length hi]

theorem anyMatch_some {ι : Type*} (f : ι → Bool) (l : List ι) :
    anyMatch (l.map fun i => some (f i)) = some (l.any f) := by
  induction l with
  | nil => rfl
  | cons i l ih => cases hi : f i <;> simp [anyMatch, hi, ih]

theorem toGlob_star (read : UInt8 → Int) : PatternElem.star.toGlob read = .star := rfl

theorem toGlob_star_iff (read : UInt8 → Int) (e : PatternElem) : e.toGlob read = .star ↔ e = .star := by
  cases e <;> simp [PatternElem.toGlob]

theorem toGlob_of_ne (read : UInt8 → Int) {e : PatternElem} (he : e ≠ .star) : ∃ q, e.toGlob read = .one q := by
  cases e with
  | star => exact absurd rfl he
  | byte b => exact ⟨_, rfl⟩
  | any => exact ⟨_, rfl⟩
  | cls no items closed => exact ⟨_, rfl⟩

/-- The empty word is in the language of a pattern of stars only. -/
theorem accepts_nil (read : UInt8 → Int) (es : List PatternElem) :
    Glob.accepts (es.map (PatternElem.toGlob read)) [] = decide (∀ e ∈ es, e = .star) := by
  rw [Bool.eq_iff_iff, Glob.accepts_empty_iff, decide_eq_true_eq]
  simp only [List.forall_mem_map, toGlob_star_iff]

/-- Between its terminators the code decides the language of the pattern. -/
theorem run_eq_accepts (es : List PatternElem) {string : Slice} (hne : string ≠ []) :
    run es (memory string) string.length = some (Glob.accepts (es.map (PatternElem.toGlob signedChar)) string) := by
  induction es generalizing string with
  | nil => simp [run, Glob.accepts, hne]
  | cons e es ih =>
    obtain ⟨a, w, rfl⟩ := List.exists_cons_of_ne_nil hne
    have hlen : ((a :: w).length : Int) - 1 = w.length := by
      simp only [List.length_cons]
      omega
    -- what happens behind an element that took `a`
    have htook : took (a :: w).length (decide (∀ e ∈ es, e = .star))
        (run es (fun i => memory (a :: w) (i + 1)) ((a :: w).length - 1)) =
          some (Glob.accepts (es.map (PatternElem.toGlob signedChar)) w) := by
      rw [took, hlen, if_neg (by omega), memory_tail]
      cases w with
      | nil => rw [accepts_nil, List.length_nil, Nat.cast_zero, if_pos rfl]
      | cons b w =>
        have hpos : ((b :: w).length : Int) ≠ 0 := by
          simp only [List.length_cons]
          omega
        rw [if_neg hpos, ih (List.cons_ne_nil _ _)]
    cases e with
    | byte b =>
      have hread : memory (a :: w) 0 = some a := rfl
      rw [run, hread, Option.bind_eq_bind, Option.bind_some, htook, List.map_cons, PatternElem.toGlob, Glob.accepts]
      by_cases hb : b = a
      · simp [hb]
      · simp [hb, Ne.symm hb]
    | any =>
      have hpos : ((a :: w).length : Int) ≠ 0 := by
        simp only [List.length_cons]
        omega
      rw [run, if_neg hpos, htook, List.map_cons, PatternElem.toGlob, Glob.accepts, Bool.true_and]
    | star =>
      have hskip : ∀ i ∈ List.range (a :: w).length,
          run es (fun j => memory (a :: w) (i + j)) ((a :: w).length - i) =
            some (Glob.accepts (es.map (PatternElem.toGlob signedChar)) ((a :: w).drop i)) := fun i hi => by
        have hi := List.mem_range.1 hi
        have hdrop : ((a :: w).length : Int) - i = ((a :: w).drop i).length := by
          rw [List.length_drop]
          omega
        rw [memory_drop hi.le, hdrop, ih fun hnil => absurd (List.drop_eq_nil_iff.1 hnil) (by omega)]
      cases es with
      | nil => simp [run, PatternElem.toGlob, Glob.accepts_star_nil]
      | cons e es =>
        by_cases he : e = .star
        · subst he
          rw [run, ih hne]
          simp only [List.map_cons, toGlob_star, Glob.accepts_star_star]
        · obtain ⟨q, hq⟩ := toGlob_of_ne signedChar he
          rw [run_star_of_ne he, whileString, if_pos (by omega), Int.toNat_natCast, List.map_congr_left hskip,
            anyMatch_some]
          simp only [List.map_cons, hq, toGlob_star, Glob.accepts_star_one]
    | cls no items closed =>
      have hread : memory (a :: w) 0 = some a := rfl
      rw [run, hread, classFound_some, Bool.false_or, Option.bind_eq_bind, Option.bind_some, htook, List.map_cons,
        PatternElem.toGlob, Glob.accepts]
      by_cases hfound : items.any (Item.has signedChar a) = no <;> simp [hfound]

/-! ### The empty string -/

/-- The element takes the terminator of a string. -/
def PatternElem.takesNul : PatternElem → Bool
  | byte b => b == 0
  | cls no items _ => items.any (Item.has signedChar 0) != no
  | _ => false

/-- The element takes a byte without a look at it. -/
def PatternElem.blind : PatternElem → Bool
  | any => true
  | cls true [] _ => true
  | _ => false

/-- Behind its terminator a string is refused before it is read: the pattern ends, or there is a class without
items. -/
def Refused (es : List PatternElem) : Prop :=
  es.dropWhile PatternElem.blind = [] ∨
    ∃ closed es', es.dropWhile PatternElem.blind = .cls false [] closed :: es'

/-- Behind its terminator a string is taken before it is read: up to a star at the end nothing is looked at. -/
def Skipped (es : List PatternElem) : Prop :=
  es.getLast? = some .star ∧ ∀ e ∈ es, e = .star ∨ e.blind = true

instance (es : List PatternElem) : Decidable (Skipped es) := inferInstanceAs (Decidable (_ ∧ ∀ e ∈ es, _))

instance (es : List PatternElem) : Decidable (Refused es) :=
  match h : es.dropWhile PatternElem.blind with
  | [] => .isTrue (.inl h)
  | .cls false [] closed :: es' => .isTrue (.inr ⟨closed, es', h⟩)
  | .cls true _ _ :: _ | .cls false (_ :: _) _ :: _ | .byte _ :: _ | .any :: _ | .star :: _ =>
    .isFalse (by simp [Refused, h])

/-- The matcher does not get behind the terminator of an empty string, or it has no need to read there: first for the
right answer, then for any answer. -/
def DecidesEmpty : List PatternElem → Prop
  | [] => True
  | e :: es => e.takesNul = true → Refused es

def EndsOnEmpty : List PatternElem → Prop
  | [] => True
  | e :: es => e.takesNul = true → Refused es ∨ Skipped es

instance : (es : List PatternElem) → Decidable (EndsOnEmpty es)
  | [] => inferInstanceAs (Decidable True)
  | e :: _ => inferInstanceAs (Decidable (e.takesNul = true → _))

variable {e : PatternElem} {es : List PatternElem}

theorem refused_blind (he : e.blind = true) : Refused (e :: es) ↔ Refused es := by
  rw [Refused, List.dropWhile_cons_of_pos he, Refused]

theorem skipped_cons (he : e = .star ∨ e.blind = true) (hne : es ≠ []) : Skipped (e :: es) ↔ Skipped es := by
  obtain ⟨e', es', rfl⟩ := List.exists_cons_of_ne_nil hne
  simp [Skipped, he]

theorem skipped_blind (he : e.blind = true) : Skipped (e :: es) ↔ Skipped es := by
  cases es with
  | nil =>
    have hne : e ≠ .star := by
      rintro rfl
      exact absurd he (by decide)
    simp [Skipped, hne]
  | cons e' es => exact skipped_cons (.inr he) (List.cons_ne_nil e' es)

theorem not_refused_star : ¬Refused (.star :: es) := by simp [Refused, PatternElem.blind]

/-- With a negative length the calls behind a star come to a result when the first one matches, and else they fail or
go on down to the end of the type. -/
theorem searchOn_none {call : Nat → Option Bool} {fuel i : Nat} (h : ∀ j, call j ≠ some true) :
    searchOn call fuel i = none := by
  induction fuel generalizing i with
  | zero => rfl
  | succ fuel ih =>
    rw [searchOn]
    cases hi : call i with
    | none => rfl
    | some found =>
      cases found with
      | false => exact ih
      | true => exact absurd hi (h i)

theorem not_refused_of_skipped (h : Skipped es) : ¬Refused es := by
  obtain ⟨hlast, hall⟩ := h
  rintro (hnil | ⟨closed, es', hcls⟩)
  · rw [List.dropWhile_eq_nil_iff] at hnil
    exact absurd (hnil _ (List.mem_of_getLast? hlast)) (by decide)
  · have hmem : PatternElem.cls false [] closed ∈ es :=
      (List.dropWhile_suffix _).subset (hcls ▸ List.mem_cons_self ..)
    rcases hall _ hmem with hstar | hblind
    · cases hstar
    · exact absurd hblind (by simp [PatternElem.blind])

/-- What a blind element does behind the terminator. -/
private theorem took_behind {stringlen : Int} (hneg : stringlen < 0) (onlyStars : Bool) (next : Option Bool) :
    took stringlen onlyStars next = if stringlen - 1 < -2 ^ 31 then none else next := by
  unfold took
  split_ifs
  · rfl
  · omega
  · rfl

theorem run_star_behind (he : e ≠ .star) {stringlen : Int} (hneg : stringlen < 0) :
    run (.star :: e :: es) (fun _ => none) stringlen =
      searchOn (fun i => run (e :: es) (fun _ => none) (stringlen - i)) (stringlen + 2 ^ 31 + 1).toNat 0 := by
  rw [run_star_of_ne he, whileString, if_neg (by omega)]

/-- Behind the terminator the code takes nothing but what is skipped. -/
theorem skipped_of_run {stringlen : Int} (hneg : stringlen < 0) (h : run es (fun _ => none) stringlen = some true) :
    Skipped es := by
  induction es generalizing stringlen with
  | nil => simp [run, hneg.ne] at h
  | cons e es ih =>
    have htook : ∀ {onlyStars : Bool}, took stringlen onlyStars (run es (fun _ => none) (stringlen - 1)) = some true →
        Skipped es := by
      intro onlyStars htook
      rw [took_behind hneg] at htook
      split_ifs at htook
      exact ih (by omega) htook
    cases e with
    | byte b => simp [run] at h
    | any =>
      rw [run, if_neg hneg.ne] at h
      exact (skipped_blind rfl).2 (htook h)
    | star =>
      cases es with
      | nil => exact ⟨rfl, by simp⟩
      | cons e es =>
        refine (skipped_cons (.inl rfl) (List.cons_ne_nil e es)).2 ?_
        by_cases he : e = .star
        · subst he
          rw [run] at h
          exact ih hneg h
        · rw [run_star_behind he hneg] at h
          by_contra hnot
          rw [searchOn_none fun j hj => hnot (ih (by omega) hj)] at h
          cases h
    | cls no items closed =>
      rw [run, classFound_none] at h
      cases items with
      | cons item items => simp at h
      | nil =>
        cases no with
        | false => simp at h
        | true => exact (skipped_blind rfl).2 (htook (by simpa using h))

/-- The code behind the terminator, where no length overflows on the way through the pattern. -/
theorem run_behind (es : List PatternElem) {stringlen : Int} (hneg : stringlen < 0)
    (hlow : -2 ^ 31 ≤ stringlen - es.length) :
    run es (fun _ => none) stringlen =
      if Refused es then some false else if Skipped es then some true else none := by
  induction es generalizing stringlen with
  | nil => simp [run, Refused, hneg.ne]
  | cons e es ih =>
    rw [List.length_cons] at hlow
    have hgo : ∀ onlyStars, took stringlen onlyStars (run es (fun _ => none) (stringlen - 1)) =
        if Refused es then some false else if Skipped es then some true else none := by
      intro onlyStars
      rw [took_behind hneg, if_neg (by omega), ih (by omega) (by omega)]
    cases e with
    | byte b => simp [run, Refused, Skipped, PatternElem.blind]
    | any =>
      have hblind : PatternElem.any.blind = true := rfl
      rw [run, if_neg hneg.ne, hgo]
      simp only [refused_blind hblind, skipped_blind hblind]
    | star =>
      rw [if_neg not_refused_star]
      cases es with
      | nil => simp [run, Skipped]
      | cons e es =>
        simp only [skipped_cons (.inl rfl) (List.cons_ne_nil e es)]
        by_cases he : e = .star
        · subst he
          rw [run, ih hneg (by omega), if_neg not_refused_star]
        · rw [run_star_behind he hneg]
          by_cases hskipped : Skipped (e :: es)
          · -- the first call matches
            obtain ⟨fuel, hfuel⟩ : ∃ fuel, (stringlen + 2 ^ 31 + 1).toNat = fuel + 1 :=
              ⟨_, (Nat.succ_pred (by omega)).symm⟩
            have hfirst := ih hneg (by omega)
            rw [if_neg (not_refused_of_skipped hskipped), if_pos hskipped] at hfirst
            rw [hfuel, searchOn, Nat.cast_zero, sub_zero, hfirst, if_pos hskipped]
          · rw [if_neg hskipped, searchOn_none fun j hj => hskipped (skipped_of_run (by omega) hj)]
    | cls no items closed =>
      rw [run, classFound_none]
      cases items with
      | cons item items => simp [Refused, Skipped, PatternElem.blind]
      | nil =>
        cases no with
        | false => simp [Refused, PatternElem.blind]
        | true =>
          have hblind : (PatternElem.cls true [] closed).blind = true := rfl
          simp only [refused_blind hblind, skipped_blind hblind, ← hgo (decide (∀ e ∈ es, e = .star))]
          rfl

theorem run_star_empty (es : List PatternElem) :
    run (.star :: es) (memory []) 0 = some (decide (∀ e ∈ es, e = .star)) := by
  induction es with
  | nil => simp [run]
  | cons e es ih =>
    by_cases he : e = .star
    · subst he
      rw [run, ih]
      simp
    · rw [run_star_of_ne he]
      simp [whileString, anyMatch, he]

/-- The code on the empty string. -/
theorem run_empty (e : PatternElem) {es : List PatternElem} (hlength : es.length < 2 ^ 31) :
    run (e :: es) (memory []) 0 =
      if e.takesNul = true then if Refused es then some false else if Skipped es then some true else none
      else some (decide (∀ e' ∈ e :: es, e' = .star)) := by
  have hbehind : took 0 (decide (∀ e ∈ es, e = .star)) (run es (fun i => memory [] (i + 1)) (0 - 1)) =
      if Refused es then some false else if Skipped es then some true else none := by
    rw [took, if_neg (by decide), if_neg (by decide)]
    exact run_behind es (by decide) (by omega)
  have hread : memory [] 0 = some 0 := rfl
  cases e with
  | byte b =>
    rw [run, hread, Option.bind_eq_bind, Option.bind_some, hbehind]
    by_cases hb : b = 0 <;> simp [hb, PatternElem.takesNul]
  | any => simp [run, PatternElem.takesNul]
  | star => simp [run_star_empty, PatternElem.takesNul]
  | cls no items closed =>
    rw [run, hread, classFound_some, Bool.false_or, Option.bind_eq_bind, Option.bind_some, hbehind]
    by_cases hfound : items.any (Item.has signedChar 0) = no <;> simp [hfound, PatternElem.takesNul]

/-! ### The language and the code -/

theorem inLanguage_nil (read : UInt8 → Int) (pattern : Slice) :
    InLanguage read pattern [] ↔ ∀ e ∈ parse pattern, e = .star := by
  rw [InLanguage, ← Glob.accepts_iff, accepts_nil, decide_eq_true_eq]

theorem checked_of_ne_nil (pattern : Slice) {string : Slice} (hne : string ≠ []) :
    StringMatchLenChecked pattern string = some (decide (InLanguage signedChar pattern string)) := by
  rw [stringMatchLenChecked_eq, run_eq_accepts _ hne, Option.some.injEq, Bool.eq_iff_iff, decide_eq_true_eq,
    Glob.accepts_iff, InLanguage]

theorem checked_nil_ne_none {pattern : Slice} (hlength : pattern.length < 2 ^ 31) :
    StringMatchLenChecked pattern [] ≠ none ↔ EndsOnEmpty (parse pattern) := by
  have hparse := length_parse_le pattern
  rw [stringMatchLenChecked_eq, List.length_nil, Nat.cast_zero]
  cases hes : parse pattern with
  | nil => simp [run, EndsOnEmpty]
  | cons e es =>
    rw [hes, List.length_cons] at hparse
    rw [run_empty e (by omega), EndsOnEmpty]
    by_cases htakes : e.takesNul = true
    · by_cases hrefused : Refused es
      · simp [htakes, hrefused]
      · by_cases hskipped : Skipped es <;> simp [htakes, hrefused, hskipped]
    · simp [htakes]

theorem checked_nil_iff {pattern : Slice} (hlength : pattern.length < 2 ^ 31) :
    StringMatchLenChecked pattern [] = some (decide (∀ e ∈ parse pattern, e = .star)) ↔
      DecidesEmpty (parse pattern) := by
  have hparse := length_parse_le pattern
  rw [stringMatchLenChecked_eq, List.length_nil, Nat.cast_zero]
  cases hes : parse pattern with
  | nil => simp [run, DecidesEmpty]
  | cons e es =>
    rw [hes, List.length_cons] at hparse
    rw [run_empty e (by omega), DecidesEmpty]
    by_cases htakes : e.takesNul = true
    · have hstar : e ≠ .star := by
        rintro rfl
        exact absurd htakes (by decide)
      by_cases hrefused : Refused es
      · simp [htakes, hrefused, hstar]
      · by_cases hskipped : Skipped es <;> simp [htakes, hrefused, hskipped, hstar]
    · simp [htakes]

/-- What the matcher finds between the terminators does not depend on the memory behind the string. -/
theorem stringMatchLen_of_checked (beyond : Nat → UInt8) {pattern string : Slice} {r : Bool}
    (h : StringMatchLenChecked pattern string = some r) : StringMatchLen beyond pattern string = some r := by
  rw [stringMatchLenChecked_eq] at h
  refine matchFrom_of_run (Nat.lt_succ_self _) (fun i b hi => ?_) h
  change (string ++ [0])[i]? = some b at hi
  rw [hi, Option.getD_some]

theorem stringMatchLen_of_ne_nil (beyond : Nat → UInt8) (pattern : Slice) {string : Slice} (hne : string ≠ []) :
    StringMatchLen beyond pattern string = some (decide (InLanguage signedChar pattern string)) :=
  stringMatchLen_of_checked beyond (checked_of_ne_nil pattern hne)

end StringMatch

open StringMatch

/-- The lengths are those of an `int32_t`. -/
structure StringMatch.LengthsFit (pattern string : Slice) : Prop where
  pattern : pattern.length < 2 ^ 31
  string : string.length < 2 ^ 31

/-- The matcher decides the language of a pattern but for the empty string, where it may run on behind the terminator,
and for a range from one half of the bytes to the other, whose ends it takes for signed. -/
theorem stringMatchLen_decides_iff {pattern string : Slice} (hfit : LengthsFit pattern string) :
    (Closed pattern →
      ((∃ r, StringMatchLenChecked pattern string = some r ∧ (r = true ↔ InLanguage unsignedChar pattern string)) ↔
        (string = [] → DecidesEmpty (parse pattern)) ∧
          (InLanguage signedChar pattern string ↔ InLanguage unsignedChar pattern string))) ∧
      (StringMatchLenChecked pattern string ≠ none ↔ (string = [] → EndsOnEmpty (parse pattern))) := by
  by_cases hstring : string = []
  · subst hstring
    refine ⟨fun _ => ?_, by simp [checked_nil_ne_none hfit.pattern]⟩
    simp only [inLanguage_nil, forall_const, and_true]
    rw [← checked_nil_iff hfit.pattern]
    constructor
    · rintro ⟨r, hr, hiff⟩
      rw [hr, Option.some.injEq, Bool.eq_iff_iff, decide_eq_true_eq, hiff]
    · intro hchecked
      exact ⟨_, hchecked, decide_eq_true_iff⟩
  · rw [checked_of_ne_nil pattern hstring]
    refine ⟨fun _ => ?_, by simp [hstring]⟩
    simp only [hstring, false_implies, true_and]
    constructor
    · rintro ⟨r, hr, hiff⟩
      rw [← hiff, ← Option.some.inj hr, decide_eq_true_iff]
    · intro hiff
      exact ⟨_, rfl, decide_eq_true_iff.trans hiff⟩

/-- Behind `[^a]` the terminator is taken, and `?*` takes the rest without a look at it. -/
theorem stringMatchLen_decides_iff_skipped : StringMatchLenChecked [91, 94, 97, 93, 63, 42] [] ≠ none :=
  (stringMatchLen_decides_iff ⟨by decide, by decide⟩).2.2 (by decide)

/-- The empty string is taken for a member of the language of `[^a]*`. -/
theorem stringMatchLen_empty : ¬∀ pattern string : Slice, LengthsFit pattern string →
    (Closed pattern →
      ∃ r, StringMatchLenChecked pattern string = some r ∧ (r = true ↔ InLanguage unsignedChar pattern string)) ∧
      StringMatchLenChecked pattern string ≠ none := by
  intro h
  have hclosed : Closed [91, 94, 97, 93, 42] := by
    intro e he no items
    have hparse : parse [91, 94, 97, 93, 42] = [.cls true [.single 97] true, .star] := by decide
    rw [hparse] at he
    simp only [List.mem_cons, List.not_mem_nil, or_false] at he
    rcases he with rfl | rfl <;> simp
  obtain ⟨r, hr, hiff⟩ := (h [91, 94, 97, 93, 42] [] ⟨by decide, by decide⟩).1 hclosed
  have hchecked : StringMatchLenChecked [91, 94, 97, 93, 42] [] = some true := by decide
  rw [hchecked] at hr
  exact absurd (hiff.1 (Option.some.inj hr).symm) (by decide)

end RedisDb
