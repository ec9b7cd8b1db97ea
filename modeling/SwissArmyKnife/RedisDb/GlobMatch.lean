import SwissArmyKnife.Lib.Glob
import SwissArmyKnife.RedisDb.KeyScans

/-!
# The matcher of patterns

`StringMatchLen` with its pointers and lengths, where a read behind the terminator of one of its arguments has no
result. It does what `run` does on the elements of its pattern (`matchAt_eq_run`).
-/

namespace RedisDb

namespace StringMatch

/-! ### Patterns -/

/-- What a class lists. -/
inductive Item where
  | single (b : UInt8)
  | range (start stop : UInt8)
deriving DecidableEq

inductive PatternElem where
  | byte (b : UInt8)
  | any
  | star
  | cls (no : Bool) (items : List Item) (closed : Bool)
deriving DecidableEq

/-- The items of a class, and what follows it when it is closed.  Each byte may be the end of a range, a closing
bracket too. -/
def parseClass : Slice → List Item × Option Slice
  | [] => ([], none)
  | 92 :: b :: pattern => (.single b :: (parseClass pattern).1, (parseClass pattern).2)
  | 93 :: pattern => ([], some pattern)
  | start :: 45 :: stop :: pattern => (.range start stop :: (parseClass pattern).1, (parseClass pattern).2)
  | b :: pattern => (.single b :: (parseClass pattern).1, (parseClass pattern).2)

def parseFrom : Nat → Slice → List PatternElem
  | 0, _ => []
  | fuel + 1, pattern =>
    match pattern with
    | [] => []
    | 42 :: pattern => .star :: parseFrom fuel pattern
    | 63 :: pattern => .any :: parseFrom fuel pattern
    | 91 :: pattern =>
      let no := decide (pattern.head? = some 94)
      let r := parseClass (if no then pattern.tail else pattern)
      .cls no r.1 r.2.isSome :: parseFrom fuel (r.2.getD [])
    | 92 :: b :: pattern => .byte b :: parseFrom fuel pattern
    | b :: pattern => .byte b :: parseFrom fuel pattern

/-- The elements of a pattern. -/
def parse (pattern : Slice) : List PatternElem := parseFrom pattern.length pattern

/-- No bracket is left open. -/
def Closed (pattern : Slice) : Prop := ∀ e ∈ parse pattern, ∀ no items, e ≠ .cls no items false

/-- A `char` of the machine. -/
def signedChar (b : UInt8) : Int := b.toInt8.toInt

def unsignedChar (b : UInt8) : Int := b.toNat

/-- The item holds the byte, where the bytes are ordered as they are read; the ends of a range may be reversed. -/
def Item.has (read : UInt8 → Int) (c : UInt8) : Item → Bool
  | single b => b == c
  | range start stop => decide (min (read start) (read stop) ≤ read c ∧ read c ≤ max (read start) (read stop))

def PatternElem.toGlob (read : UInt8 → Int) : PatternElem → Glob.Elem UInt8
  | byte b => .one fun c => decide (c = b)
  | any => .one fun _ => true
  | star => .star
  | cls no items _ => .one fun c => items.any (Item.has read c) != no

/-- The language of a pattern. -/
def InLanguage (read : UInt8 → Int) (pattern string : Slice) : Prop :=
  Glob.Matches ((parse pattern).map (PatternElem.toGlob read)) string

instance (read : UInt8 → Int) (pattern string : Slice) : Decidable (InLanguage read pattern string) :=
  inferInstanceAs (Decidable (Glob.Matches _ _))

/-! ### The code -/

section Code

variable (P S : Nat → Option UInt8)

/-- `while (pattern[1] == '*')`. -/
def skipNext : Nat → Nat → Int → Option (Nat × Int)
  | 0, _, _ => none
  | fuel + 1, pattern, patternlen => do
    let b ← P (pattern + 1)
    if b = 42 then skipNext fuel (pattern + 1) (patternlen - 1) else some (pattern, patternlen)

/-- `while (*pattern == '*')`. -/
def skipHere : Nat → Nat → Int → Option (Nat × Int)
  | 0, _, _ => none
  | fuel + 1, pattern, patternlen => do
    let b ← P pattern
    if b = 42 then skipHere fuel (pattern + 1) (patternlen - 1) else some (pattern, patternlen)

/-- The loop over a class; `c` is `string[0]`. -/
def classLoop (c : Option UInt8) : Nat → Nat → Int → Bool → Option (Nat × Int × Bool)
  | 0, _, _, _ => none
  | fuel + 1, pattern, patternlen, found => do
    let b ← P pattern
    if b = 92 ∧ 2 ≤ patternlen then
      let b ← P (pattern + 1)
      let c' ← c
      classLoop c fuel (pattern + 2) (patternlen - 2) (found || b == c')
    else if b = 93 then some (pattern, patternlen, found)
    else if patternlen = 0 then some (pattern - 1, patternlen + 1, found)
    else
      let next ← P (pattern + 1)
      if next = 45 ∧ 3 ≤ patternlen then
        let stop ← P (pattern + 2)
        let c' ← c
        classLoop c fuel (pattern + 3) (patternlen - 3) (found || inRange b stop c')
      else
        let c' ← c
        classLoop c fuel (pattern + 1) (patternlen - 1) (found || b == c')

/-- `StringMatchLen` with regard to case, on the memory of the pattern and of the string.  There is no result when a
byte is read that is not there, or when the length of the string falls below those of an `int32_t`. -/
def matchAt (bound : Nat) : Nat → Nat → Int → Nat → Int → Option Bool
  | 0, _, _, _, _ => none
  | fuel + 1, pattern, patternlen, string, stringlen =>
    let goOn (pattern : Nat) (patternlen : Int) : Option Bool :=
      let stringlen := stringlen - 1
      if stringlen < -2 ^ 31 then none
      else if stringlen = 0 then do
        let (_, patternlen) ← skipHere P bound pattern patternlen
        some (decide (patternlen = 0))
      else matchAt bound fuel pattern patternlen (string + 1) stringlen
    if patternlen = 0 then some (decide (stringlen = 0))
    else do
      let b ← P pattern
      if b = 42 then
        let (pattern, patternlen) ← skipNext P bound pattern patternlen
        if patternlen = 1 then some true
        else
          whileString (fun i => matchAt bound fuel (pattern + 1) (patternlen - 1) (string + i) (stringlen - i))
            stringlen
      else if b = 63 then if stringlen = 0 then some false else goOn (pattern + 1) (patternlen - 1)
      else if b = 91 then
        let first ← P (pattern + 1)
        let no := decide (first = 94)
        let (pattern, patternlen, found) ←
          classLoop P (S string) bound (if no then pattern + 2 else pattern + 1)
            (if no then patternlen - 2 else patternlen - 1) false
        if found = no then some false else goOn (pattern + 1) (patternlen - 1)
      else
        let (pattern, patternlen) :=
          if b = 92 ∧ 2 ≤ patternlen then (pattern + 1, patternlen - 1) else (pattern, patternlen)
        let b ← P pattern
        let c ← S string
        if b ≠ c then some false else goOn (pattern + 1) (patternlen - 1)

end Code

/-- The memory of a string up to its terminator. -/
def memory (s : Slice) (i : Nat) : Option UInt8 := (s ++ [0])[i]?

end StringMatch

open StringMatch in
/-- `StringMatchLen`, none when it reads behind a terminator or a length overflows. -/
def StringMatchLenChecked (pattern string : Slice) : Option Bool :=
  matchAt (memory pattern) (memory string) (pattern.length + 1) (pattern.length + 1) 0 pattern.length 0 string.length

namespace StringMatch

/-! ### Equations of the parser -/

/-- What follows a class is an end of the pattern; nothing follows one that is not closed. -/
theorem parseClass_suffix (pattern : Slice) : (parseClass pattern).2.getD [] <:+ pattern := by
  induction pattern using parseClass.induct with
  | case1 => exact List.suffix_refl _
  | case2 b pattern ih =>
    rw [parseClass]
    exact ih.trans ⟨[92, b], rfl⟩
  | case3 pattern =>
    rw [parseClass]
    exact List.suffix_cons _ _
  | case4 start stop pattern h1 h2 ih =>
    rw [parseClass]
    · exact ih.trans ⟨[start, 45, stop], rfl⟩
    · exact h1
    · exact h2
  | case5 b pattern h1 h2 h3 ih =>
    rw [parseClass]
    · exact ih.trans (List.suffix_cons _ _)
    · exact h1
    · exact h2
    · exact h3

/-- What stands in a class, behind the caret. -/
def classItems (pattern : Slice) : Slice := if pattern.head? = some 94 then pattern.tail else pattern

theorem classItems_suffix (pattern : Slice) : classItems pattern <:+ pattern := by
  rw [classItems]
  split
  · exact List.tail_suffix _
  · exact List.suffix_refl _

theorem afterClass_suffix (pattern : Slice) : (parseClass (classItems pattern)).2.getD [] <:+ pattern :=
  (parseClass_suffix _).trans (classItems_suffix pattern)

theorem parseFrom_class (fuel : Nat) (pattern : Slice) : parseFrom (fuel + 1) (91 :: pattern) =
    .cls (decide (pattern.head? = some 94)) (parseClass (classItems pattern)).1
        (parseClass (classItems pattern)).2.isSome ::
      parseFrom fuel ((parseClass (classItems pattern)).2.getD []) := by
  simp only [parseFrom, classItems, decide_eq_true_eq]

theorem parseFrom_byte {b : UInt8} {pattern : Slice} (hstar : b ≠ 42) (hany : b ≠ 63) (hclass : b ≠ 91)
    (hescape : b = 92 → pattern = []) (fuel : Nat) :
    parseFrom (fuel + 1) (b :: pattern) = .byte b :: parseFrom fuel pattern := by
  rw [parseFrom]
  · exact hstar
  · exact hany
  · exact hclass
  · intro _ _ h h'
    exact absurd (h'.symm.trans (hescape h)) (List.cons_ne_nil _ _)

/-- The kinds of patterns, one for each branch of the matcher. -/
theorem pattern_cases {motive : Slice → Prop} (pattern : Slice) (nil : motive [])
    (star : ∀ pattern, motive (42 :: pattern)) (any : ∀ pattern, motive (63 :: pattern))
    (cls : ∀ pattern, motive (91 :: pattern)) (escape : ∀ b pattern, motive (92 :: b :: pattern))
    (byte : ∀ b pattern, b ≠ 42 → b ≠ 63 → b ≠ 91 → (b = 92 → pattern = []) → motive (b :: pattern)) :
    motive pattern := by
  cases pattern with
  | nil => exact nil
  | cons b pattern =>
    by_cases hstar : b = 42
    · exact hstar ▸ star pattern
    by_cases hany : b = 63
    · exact hany ▸ any pattern
    by_cases hclass : b = 91
    · exact hclass ▸ cls pattern
    by_cases hescape : b = 92
    · subst hescape
      cases pattern with
      | nil => exact byte _ _ hstar hany hclass fun _ => rfl
      | cons b pattern => exact escape b pattern
    · exact byte _ _ hstar hany hclass fun h => absurd h hescape

theorem parseFrom_congr {m n : Nat} {pattern : Slice} (hm : pattern.length ≤ m) (hn : pattern.length ≤ n) :
    parseFrom m pattern = parseFrom n pattern := by
  induction m generalizing n pattern with
  | zero =>
    obtain rfl := List.length_eq_zero_iff.1 (Nat.le_zero.1 hm)
    cases n <;> rfl
  | succ m ih =>
    cases n with
    | zero =>
      obtain rfl := List.length_eq_zero_iff.1 (Nat.le_zero.1 hn)
      rfl
    | succ n =>
      induction pattern using pattern_cases with
      | nil => rfl
      | star pattern =>
        simp only [List.length_cons] at hm hn
        simp only [parseFrom, ih (show pattern.length ≤ m by omega) (show pattern.length ≤ n by omega)]
      | any pattern =>
        simp only [List.length_cons] at hm hn
        simp only [parseFrom, ih (show pattern.length ≤ m by omega) (show pattern.length ≤ n by omega)]
      | cls pattern =>
        have hle := (afterClass_suffix pattern).length_le
        simp only [List.length_cons] at hm hn
        rw [parseFrom_class, parseFrom_class,
          ih (hle.trans (show pattern.length ≤ m by omega)) (hle.trans (show pattern.length ≤ n by omega))]
      | escape b pattern =>
        simp only [List.length_cons] at hm hn
        simp only [parseFrom, ih (show pattern.length ≤ m by omega) (show pattern.length ≤ n by omega)]
      | byte b pattern hstar hany hclass hescape =>
        simp only [List.length_cons] at hm hn
        rw [parseFrom_byte hstar hany hclass hescape, parseFrom_byte hstar hany hclass hescape,
          ih (show pattern.length ≤ m by omega) (show pattern.length ≤ n by omega)]

@[simp] theorem parse_nil : parse [] = [] := rfl

@[simp] theorem parse_star (pattern : Slice) : parse (42 :: pattern) = .star :: parse pattern := rfl

@[simp] theorem parse_any (pattern : Slice) : parse (63 :: pattern) = .any :: parse pattern := rfl

theorem parse_class (pattern : Slice) : parse (91 :: pattern) =
    .cls (decide (pattern.head? = some 94)) (parseClass (classItems pattern)).1
        (parseClass (classItems pattern)).2.isSome ::
      parse ((parseClass (classItems pattern)).2.getD []) := by
  rw [parse, List.length_cons, parseFrom_class,
    parseFrom_congr (afterClass_suffix pattern).length_le (le_refl _)]
  rfl

@[simp] theorem parse_escape (b : UInt8) (pattern : Slice) : parse (92 :: b :: pattern) = .byte b :: parse pattern :=
  congrArg (PatternElem.byte b :: ·)
    (parseFrom_congr (show pattern.length ≤ pattern.length + 1 from Nat.le_succ _) (le_refl _))

theorem parse_byte {b : UInt8} {pattern : Slice} (hstar : b ≠ 42) (hany : b ≠ 63) (hclass : b ≠ 91)
    (hescape : b = 92 → pattern = []) : parse (b :: pattern) = .byte b :: parse pattern :=
  parseFrom_byte hstar hany hclass hescape _

theorem length_parse_le (pattern : Slice) : (parse pattern).length ≤ pattern.length := by
  unfold parse
  generalize pattern.length = fuel
  induction fuel generalizing pattern with
  | zero => exact Nat.zero_le _
  | succ fuel ih =>
    induction pattern using pattern_cases with
    | nil => exact Nat.zero_le _
    | star pattern => simpa [parseFrom] using ih pattern
    | any pattern => simpa [parseFrom] using ih pattern
    | cls pattern => simpa [parseFrom_class] using ih _
    | escape b pattern => simpa [parseFrom] using ih pattern
    | byte b pattern hstar hany hclass hescape =>
      simpa [parseFrom_byte hstar hany hclass hescape] using ih pattern

/-- A pattern that does not begin with a star parses to one that does not. -/
theorem parse_head {b : UInt8} (hb : b ≠ 42) (pattern : Slice) :
    ∃ e es, parse (b :: pattern) = e :: es ∧ e ≠ .star := by
  obtain ⟨l, hl⟩ : ∃ l, b :: pattern = l := ⟨_, rfl⟩
  rw [hl]
  induction l using pattern_cases with
  | nil => cases hl
  | star l => exact absurd (List.cons.inj hl).1 hb
  | any l => exact ⟨_, _, parse_any l, by simp⟩
  | cls l => exact ⟨_, _, parse_class l, by simp⟩
  | escape b l => exact ⟨_, _, parse_escape b l, by simp⟩
  | byte b l hstar hany hclass hescape => exact ⟨_, _, parse_byte hstar hany hclass hescape, by simp⟩

/-! ### The code on the elements of a pattern -/

/-- The loop over the items of a class, which reads the string for each of them. -/
def classFound (c : Option UInt8) : List Item → Bool → Option Bool
  | [], found => some found
  | item :: items, found => do
    let c' ← c
    classFound c items (found || item.has signedChar c')

theorem classFound_some (c : UInt8) (items : List Item) (found : Bool) :
    classFound (some c) items found = some (found || items.any (Item.has signedChar c)) := by
  induction items generalizing found with
  | nil => simp [classFound]
  | cons item items ih => simp [classFound, ih, Bool.or_assoc]

theorem classFound_none (items : List Item) (found : Bool) :
    classFound none items found = if items = [] then some found else none := by
  cases items <;> simp [classFound]

/-- What happens behind an element that took a byte. -/
def took (stringlen : Int) (onlyStars : Bool) (next : Option Bool) : Option Bool :=
  if stringlen - 1 < -2 ^ 31 then none else if stringlen - 1 = 0 then some onlyStars else next

/-- The matcher, element by element. -/
def run : List PatternElem → (Nat → Option UInt8) → Int → Option Bool
  | [], _, stringlen => some (decide (stringlen = 0))
  | .star :: es, S, stringlen =>
    match es with
    | [] => some true
    | .star :: _ => run es S stringlen
    | _ :: _ => whileString (fun i => run es (fun j => S (i + j)) (stringlen - i)) stringlen
  | .any :: es, S, stringlen =>
    if stringlen = 0 then some false
    else took stringlen (decide (∀ e ∈ es, e = .star)) (run es (fun i => S (i + 1)) (stringlen - 1))
  | .byte b :: es, S, stringlen => do
    let c ← S 0
    if b ≠ c then some false
    else took stringlen (decide (∀ e ∈ es, e = .star)) (run es (fun i => S (i + 1)) (stringlen - 1))
  | .cls no items _ :: es, S, stringlen => do
    let found ← classFound (S 0) items false
    if found = no then some false
    else took stringlen (decide (∀ e ∈ es, e = .star)) (run es (fun i => S (i + 1)) (stringlen - 1))

/-- The slice lies in the memory from some place on. -/
def StandsAt (P : Nat → Option UInt8) (pattern : Nat) (l : Slice) : Prop := ∀ j, P (pattern + j) = memory l j

section Code

variable {P : Nat → Option UInt8} {p : Nat} {b : UInt8} {l : Slice}

theorem StandsAt.nil (h : StandsAt P p []) : P p = some 0 := h 0

theorem StandsAt.head (h : StandsAt P p (b :: l)) : P p = some b := h 0

theorem StandsAt.tail (h : StandsAt P p (b :: l)) : StandsAt P (p + 1) l := fun j => by
  have hj := h (j + 1)
  rwa [← Nat.add_assoc, Nat.add_right_comm] at hj

theorem StandsAt.suffix {rest : Slice} (h : StandsAt P p l) (hrest : rest <:+ l) :
    StandsAt P (p + (l.length - rest.length)) rest := by
  obtain ⟨passed, rfl⟩ := hrest
  induction passed generalizing p with
  | nil => simpa using h
  | cons b passed ih =>
    have hrest := ih h.tail
    simp only [List.cons_append, List.length_cons, List.length_append] at hrest ⊢
    convert hrest using 1
    omega

/-- The byte that the memory has next, the terminator behind the end. -/
theorem StandsAt.next (h : StandsAt P p l) : P p = some (l.head?.getD 0) := by
  cases l with
  | nil => exact h.nil
  | cons b l => exact h.head

theorem skipHere_eq (h : StandsAt P p l) {fuel : Nat} (hfuel : l.length < fuel) :
    ∃ q, skipHere P fuel p l.length = some (q, ((l.dropWhile (· = 42)).length : Int)) := by
  induction l generalizing p fuel with
  | nil =>
    cases fuel with
    | zero => omega
    | succ fuel => exact ⟨p, by simp [skipHere, h.nil]⟩
  | cons b l ih =>
    cases fuel with
    | zero => omega
    | succ fuel =>
      rw [List.length_cons] at hfuel
      by_cases hb : b = 42
      · obtain ⟨q, hq⟩ := ih h.tail (show l.length < fuel by omega)
        refine ⟨q, ?_⟩
        simpa [skipHere, h.head, hb] using hq
      · exact ⟨p, by simp [skipHere, h.head, hb]⟩

theorem skipNext_eq (h : StandsAt P (p + 1) l) {fuel : Nat} (hfuel : l.length < fuel) :
    ∃ q, skipNext P fuel p (l.length + 1) = some (q, ((l.dropWhile (· = 42)).length : Int) + 1) ∧
      StandsAt P (q + 1) (l.dropWhile (· = 42)) := by
  induction l generalizing p fuel with
  | nil =>
    cases fuel with
    | zero => omega
    | succ fuel => exact ⟨p, by simp [skipNext, h.nil], h⟩
  | cons b l ih =>
    cases fuel with
    | zero => omega
    | succ fuel =>
      rw [List.length_cons] at hfuel
      by_cases hb : b = 42
      · obtain ⟨q, hq, hat⟩ := ih h.tail (show l.length < fuel by omega)
        refine ⟨q, ?_, by simpa [hb] using hat⟩
        simpa [skipNext, h.head, hb] using hq
      · exact ⟨p, by simp [skipNext, h.head, hb], by simpa [hb] using h⟩

variable {c : Option UInt8}

theorem classLoop_escape (h : StandsAt P p (92 :: b :: l)) (fuel : Nat) (found : Bool) :
    classLoop P c (fuel + 1) p (92 :: b :: l).length found =
      c.bind fun c' => classLoop P c fuel (p + 2) l.length (found || b == c') := by
  have hlong : (2 : Int) ≤ (92 :: b :: l).length := by
    simp only [List.length_cons]
    omega
  rw [classLoop, h.head, Option.bind_eq_bind, Option.bind_some, if_pos ⟨rfl, hlong⟩, h.tail.head]
  simp only [Option.bind_some]
  congr 1
  funext c'
  congr 1
  push_cast [List.length_cons]
  omega

theorem classLoop_range {start stop : UInt8} (h : StandsAt P p (start :: 45 :: stop :: l)) (hescape : start ≠ 92)
    (hclose : start ≠ 93) (fuel : Nat) (found : Bool) :
    classLoop P c (fuel + 1) p (start :: 45 :: stop :: l).length found =
      c.bind fun c' => classLoop P c fuel (p + 3) l.length (found || (Item.range start stop).has signedChar c') := by
  have hlong : (3 : Int) ≤ (start :: 45 :: stop :: l).length := by
    simp only [List.length_cons]
    omega
  have hne : ((start :: 45 :: stop :: l).length : Int) ≠ 0 := by omega
  rw [classLoop, h.head, Option.bind_eq_bind, Option.bind_some, if_neg fun hand => hescape hand.1, if_neg hclose,
    if_neg hne, h.tail.head, Option.bind_some, if_pos ⟨rfl, hlong⟩, h.tail.tail.head]
  simp only [Option.bind_some]
  congr 1
  funext c'
  congr 1
  push_cast [List.length_cons]
  omega

private theorem length_ne_zero (b : UInt8) (l : Slice) : ((b :: l).length : Int) ≠ 0 := by
  rw [List.length_cons]
  omega

/-- A backslash that is the last byte stands for itself. -/
private theorem not_escape (hescape : b = 92 → l = []) : ¬(b = 92 ∧ (2 : Int) ≤ (b :: l).length) := by
  rintro ⟨hb, hlong⟩
  rw [hescape hb] at hlong
  simp at hlong

theorem classLoop_single (h : StandsAt P p (b :: l)) (hescape : b = 92 → l = []) (hclose : b ≠ 93)
    (hrange : ∀ stop l', l ≠ 45 :: stop :: l') (fuel : Nat) (found : Bool) :
    classLoop P c (fuel + 1) p (b :: l).length found =
      c.bind fun c' => classLoop P c fuel (p + 1) l.length (found || b == c') := by
  have hne := length_ne_zero b l
  have hnot := not_escape hescape
  have hnot' : ¬(l.head?.getD 0 = 45 ∧ (3 : Int) ≤ (b :: l).length) := by
    rintro ⟨hb, hlong⟩
    match l, hlong with
    | [_], hlong => simp at hlong
    | _ :: stop :: l', _ => exact hrange stop l' (by simpa using hb)
  rw [classLoop, h.head, Option.bind_eq_bind, Option.bind_some, if_neg hnot, if_neg hclose, if_neg hne, h.tail.next,
    Option.bind_some, if_neg hnot']
  congr 1
  funext c'
  congr 1
  push_cast [List.length_cons]
  omega

/-- The loop over a class stops at its closing bracket, or at the last byte of the pattern. -/
theorem classLoop_eq (h : StandsAt P p l) (hp : 1 ≤ p) {fuel : Nat} (hfuel : l.length < fuel) (found : Bool) :
    classLoop P c fuel p l.length found = (classFound c (parseClass l).1 found).map fun found =>
      (p + (l.length - ((parseClass l).2.getD []).length) - 1,
        (((parseClass l).2.getD []).length : Int) + 1, found) := by
  induction l using parseClass.induct generalizing p fuel found with
  | case1 =>
    obtain ⟨fuel, rfl⟩ : ∃ n, fuel = n + 1 := ⟨fuel - 1, by omega⟩
    simp [classLoop, parseClass, classFound, h.nil]
  | case2 b l ih =>
    obtain ⟨fuel, rfl⟩ : ∃ n, fuel = n + 1 := ⟨fuel - 1, by omega⟩
    have hle := (parseClass_suffix l).length_le
    simp only [List.length_cons] at hfuel
    rw [classLoop_escape h, parseClass, classFound]
    cases c with
    | none => rfl
    | some c' =>
      simp only [Option.bind_some, Option.bind_eq_bind]
      rw [ih h.tail.tail (by omega) (by omega)]
      simp only [List.length_cons, Item.has]
      congr 1
      funext found
      congr 1
      omega
  | case3 l =>
    obtain ⟨fuel, rfl⟩ : ∃ n, fuel = n + 1 := ⟨fuel - 1, by omega⟩
    simp [classLoop, parseClass, classFound, h.head]
  | case4 start stop l h1 h2 ih =>
    obtain ⟨fuel, rfl⟩ : ∃ n, fuel = n + 1 := ⟨fuel - 1, by omega⟩
    have hle := (parseClass_suffix l).length_le
    have hparse : parseClass (start :: 45 :: stop :: l) =
        (.range start stop :: (parseClass l).1, (parseClass l).2) := by
      rw [parseClass]
      · exact h1
      · exact h2
    simp only [List.length_cons] at hfuel
    rw [classLoop_range h h1 h2, hparse, classFound]
    cases c with
    | none => rfl
    | some c' =>
      simp only [Option.bind_some, Option.bind_eq_bind]
      rw [ih h.tail.tail.tail (by omega) (by omega)]
      simp only [List.length_cons]
      congr 1
      funext found
      congr 1
      omega
  | case5 b l h1 h2 h3 ih =>
    obtain ⟨fuel, rfl⟩ : ∃ n, fuel = n + 1 := ⟨fuel - 1, by omega⟩
    have hle := (parseClass_suffix l).length_le
    have hparse : parseClass (b :: l) = (.single b :: (parseClass l).1, (parseClass l).2) := by
      rw [parseClass]
      · exact h1
      · exact h2
      · exact h3
    have hescape : b = 92 → l = [] := fun hb => by
      cases l with
      | nil => rfl
      | cons b' l => exact absurd rfl (h1 b' l hb)
    simp only [List.length_cons] at hfuel
    rw [classLoop_single h hescape h2 h3, hparse, classFound]
    cases c with
    | none => rfl
    | some c' =>
      simp only [Option.bind_some, Option.bind_eq_bind]
      rw [ih h.tail (by omega) (by omega)]
      simp only [List.length_cons, Item.has]
      congr 1
      funext found
      congr 1
      omega

/-- Only stars are left of a pattern, if anything is. -/
theorem dropWhile_star_iff (l : Slice) : l.dropWhile (· = 42) = [] ↔ ∀ e ∈ parse l, e = .star := by
  induction l with
  | nil => simp
  | cons b l ih =>
    by_cases hb : b = 42
    · simpa [hb] using ih
    · obtain ⟨e, es, hparse, he⟩ := parse_head hb l
      simp [hb, hparse, he]

theorem run_star_of_ne {e : PatternElem} (he : e ≠ .star) (es : List PatternElem) (S : Nat → Option UInt8)
    (stringlen : Int) : run (.star :: e :: es) S stringlen =
      whileString (fun i => run (e :: es) (fun j => S (i + j)) (stringlen - i)) stringlen := by
  rw [run]
  exact he

theorem run_stars (l : Slice) (S : Nat → Option UInt8) (stringlen : Int) :
    run (.star :: parse l) S stringlen =
      if l.dropWhile (· = 42) = [] then some true
      else
        whileString (fun i => run (parse (l.dropWhile (· = 42))) (fun j => S (i + j)) (stringlen - i)) stringlen := by
  induction l with
  | nil => simp [run]
  | cons b l ih =>
    by_cases hb : b = 42
    · subst hb
      simpa [run] using ih
    · obtain ⟨e, es, hparse, he⟩ := parse_head hb l
      rw [List.dropWhile_cons_of_neg (by simpa using hb), if_neg (List.cons_ne_nil _ _), hparse,
        run_star_of_ne he]

/-- What the code does behind an element that took a byte. -/
def goOn (P S : Nat → Option UInt8) (bound fuel pattern : Nat) (patternlen : Int) (string : Nat) (stringlen : Int) :
    Option Bool :=
  if stringlen - 1 < -2 ^ 31 then none
  else if stringlen - 1 = 0 then do
    let (_, patternlen) ← skipHere P bound pattern patternlen
    some (decide (patternlen = 0))
  else matchAt P S bound fuel pattern patternlen (string + 1) (stringlen - 1)

section Steps

variable {S : Nat → Option UInt8} {bound fuel string : Nat} {stringlen : Int}

theorem matchAt_star (h : StandsAt P p (42 :: l)) (hbound : l.length < bound) :
    ∃ q, StandsAt P (q + 1) (l.dropWhile (· = 42)) ∧
      matchAt P S bound (fuel + 1) p (42 :: l).length string stringlen =
        if l.dropWhile (· = 42) = [] then some true
        else
          whileString (fun i =>
            matchAt P S bound fuel (q + 1) (l.dropWhile (· = 42)).length (string + i) (stringlen - i)) stringlen := by
  obtain ⟨q, hskip, hq⟩ := skipNext_eq h.tail hbound
  have hne := length_ne_zero 42 l
  have hone : (((l.dropWhile (· = 42)).length : Int) + 1 = 1) ↔ l.dropWhile (· = 42) = [] := by
    rw [← List.length_eq_zero_iff]
    omega
  refine ⟨q, hq, ?_⟩
  rw [matchAt, if_neg hne, h.head, Option.bind_eq_bind, Option.bind_some, if_pos rfl, List.length_cons, Nat.cast_add,
    Nat.cast_one, hskip, Option.bind_eq_bind, Option.bind_some]
  simp only [hone, add_sub_cancel_right]

theorem matchAt_any (h : StandsAt P p (63 :: l)) : matchAt P S bound (fuel + 1) p (63 :: l).length string stringlen =
    if stringlen = 0 then some false else goOn P S bound fuel (p + 1) l.length string stringlen := by
  have hne := length_ne_zero 63 l
  rw [matchAt, if_neg hne, h.head, Option.bind_eq_bind, Option.bind_some, if_neg (by decide), if_pos rfl,
    List.length_cons, Nat.cast_add, Nat.cast_one, add_sub_cancel_right]
  rfl

theorem matchAt_class (h : StandsAt P p (91 :: l)) (hbound : l.length < bound) :
    ∃ q, StandsAt P q ((parseClass (classItems l)).2.getD []) ∧
      matchAt P S bound (fuel + 1) p (91 :: l).length string stringlen =
        (classFound (S string) (parseClass (classItems l)).1 false).bind fun found =>
          if found = decide (l.head? = some 94) then some false
          else goOn P S bound fuel q ((parseClass (classItems l)).2.getD []).length string stringlen := by
  have hne := length_ne_zero 91 l
  have hle := (classItems_suffix l).length_le
  have hle' := (parseClass_suffix (classItems l)).length_le
  -- where the class begins, whether there is a caret or not
  have hcaret : decide (l.head?.getD 0 = 94) = decide (l.head? = some 94) := by
    rw [decide_eq_decide]
    cases l <;> simp
  have hitems : ∃ q, 1 ≤ q ∧ StandsAt P q (classItems l) ∧
      (if decide (l.head? = some 94) = true then p + 2 else p + 1) = q ∧
      (if decide (l.head? = some 94) = true then ((91 :: l).length : Int) - 2 else (91 :: l).length - 1) =
        (classItems l).length := by
    by_cases hhead : l.head? = some 94
    · obtain ⟨l', rfl⟩ : ∃ l', l = 94 :: l' := List.head?_eq_some_iff.1 hhead
      refine ⟨p + 2, by omega, h.tail.tail, by simp, ?_⟩
      simp [classItems]
      omega
    · refine ⟨p + 1, by omega, ?_, by simp [hhead], ?_⟩
      · rw [classItems, if_neg hhead]
        exact h.tail
      · simp [classItems, hhead]
  obtain ⟨q, hq, hat, hp, hlen⟩ := hitems
  refine ⟨_, hat.suffix (parseClass_suffix _), ?_⟩
  rw [matchAt, if_neg hne, h.head, Option.bind_eq_bind, Option.bind_some, if_neg (by decide), if_neg (by decide),
    if_pos rfl, h.tail.next, Option.bind_some]
  simp only [hcaret, hp, hlen]
  rw [classLoop_eq hat hq (hle.trans_lt hbound)]
  cases classFound (S string) (parseClass (classItems l)).1 false with
  | none => rfl
  | some found =>
    simp only [Option.map_some, Option.bind_some, Option.bind_eq_bind, add_sub_cancel_right]
    congr 1
    rw [Nat.sub_add_cancel (by omega)]
    rfl

theorem matchAt_byte (h : StandsAt P p (b :: l)) (hstar : b ≠ 42) (hany : b ≠ 63) (hclass : b ≠ 91)
    (hescape : b = 92 → l = []) : matchAt P S bound (fuel + 1) p (b :: l).length string stringlen =
      (S string).bind fun c => if b ≠ c then some false else
        goOn P S bound fuel (p + 1) l.length string stringlen := by
  have hne := length_ne_zero b l
  have hnot := not_escape hescape
  have hlen : ((b :: l).length : Int) - 1 = l.length := by
    simp only [List.length_cons]
    omega
  rw [matchAt, if_neg hne, h.head, Option.bind_eq_bind, Option.bind_some, if_neg hstar, if_neg hany, if_neg hclass]
  simp only [if_neg hnot, h.head, Option.bind_eq_bind, Option.bind_some, hlen]
  rfl

theorem matchAt_escape (h : StandsAt P p (92 :: b :: l)) :
    matchAt P S bound (fuel + 1) p (92 :: b :: l).length string stringlen =
      (S string).bind fun c => if b ≠ c then some false else
        goOn P S bound fuel (p + 2) l.length string stringlen := by
  have hne := length_ne_zero 92 (b :: l)
  have hlong : (2 : Int) ≤ (92 :: b :: l).length := by
    simp only [List.length_cons]
    omega
  have hlen : ((92 :: b :: l).length : Int) - 1 - 1 = l.length := by
    simp only [List.length_cons]
    omega
  rw [matchAt, if_neg hne, h.head, Option.bind_eq_bind, Option.bind_some, if_neg (by decide), if_neg (by decide),
    if_neg (by decide)]
  simp only [true_and, if_pos hlong, h.tail.head, Option.bind_eq_bind, Option.bind_some, hlen]
  rfl

/-- Behind an element that took a byte the rest of the pattern is tried, or there are only stars. -/
theorem goOn_eq (h : StandsAt P p l) (hbound : l.length < bound)
    (hrun : ∀ string stringlen, matchAt P S bound fuel p l.length string stringlen =
      run (parse l) (fun i => S (string + i)) stringlen) :
    goOn P S bound fuel p l.length string stringlen =
      took stringlen (decide (∀ e ∈ parse l, e = .star))
        (run (parse l) (fun i => S (string + (i + 1))) (stringlen - 1)) := by
  obtain ⟨q, hskip⟩ := skipHere_eq h hbound
  rw [goOn, took, hrun]
  simp only [hskip, Option.bind_eq_bind, Option.bind_some, Nat.cast_eq_zero, List.length_eq_zero_iff,
    dropWhile_star_iff, Nat.add_right_comm string 1, Nat.add_assoc]

end Steps

/-- The code does what it does on the elements of its pattern. -/
theorem matchAt_eq_run {S : Nat → Option UInt8} (h : StandsAt P p l) {bound fuel : Nat} (hbound : l.length < bound)
    (hfuel : l.length < fuel) (string : Nat) (stringlen : Int) :
    matchAt P S bound fuel p l.length string stringlen = run (parse l) (fun i => S (string + i)) stringlen := by
  induction fuel generalizing p l string stringlen with
  | zero => omega
  | succ fuel ih =>
    have hgoOn : ∀ {q : Nat} {rest : Slice}, StandsAt P q rest → rest.length < l.length →
        goOn P S bound fuel q rest.length string stringlen =
          took stringlen (decide (∀ e ∈ parse rest, e = .star))
            (run (parse rest) (fun i => S (string + (i + 1))) (stringlen - 1)) := fun hq hrest =>
      goOn_eq hq (hrest.trans hbound) (ih hq (hrest.trans hbound) (by omega))
    induction l using pattern_cases with
    | nil => simp [matchAt, run]
    | star l =>
      obtain ⟨q, hq, hmatch⟩ := @matchAt_star P p l S bound fuel string stringlen h (by simp at hbound; omega)
      have hle := (List.dropWhile_suffix (p := fun b : UInt8 => decide (b = 42)) (l := l)).length_le
      have hrun : ∀ i : Nat,
          matchAt P S bound fuel (q + 1) (l.dropWhile (· = 42)).length (string + i) (stringlen - i) =
          run (parse (l.dropWhile (· = 42))) (fun j => S (string + (i + j))) (stringlen - i) := fun i => by
        rw [List.length_cons] at hbound hfuel
        rw [ih hq (hle.trans_lt (by omega)) (hle.trans_lt (by omega))]
        simp only [Nat.add_assoc]
      rw [hmatch, parse_star, run_stars]
      simp only [hrun]
    | any l =>
      rw [matchAt_any h, hgoOn h.tail (by simp), parse_any, run]
    | cls l =>
      obtain ⟨q, hq, hmatch⟩ := @matchAt_class P p l S bound fuel string stringlen h (by simp at hbound; omega)
      have hle := (afterClass_suffix l).length_le
      rw [hmatch, hgoOn hq (by rw [List.length_cons]; omega), parse_class, run]
      rfl
    | escape b l =>
      rw [matchAt_escape h, hgoOn h.tail.tail (by simp only [List.length_cons]; omega), parse_escape, run]
      rfl
    | byte b l hstar hany hclass hescape =>
      rw [matchAt_byte h hstar hany hclass hescape, hgoOn h.tail (by simp), parse_byte hstar hany hclass hescape, run]
      rfl

theorem stringMatchLenChecked_eq (pattern string : Slice) :
    StringMatchLenChecked pattern string = run (parse pattern) (memory string) string.length := by
  have hat : StandsAt (memory pattern) 0 pattern := fun j => by rw [Nat.zero_add]
  rw [StringMatchLenChecked, matchAt_eq_run hat (Nat.lt_succ_self _) (Nat.lt_succ_self _)]
  simp only [Nat.zero_add]

end Code

end StringMatch

end RedisDb
