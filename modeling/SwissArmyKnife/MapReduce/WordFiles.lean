import SwissArmyKnife.Lib.Decimal
import SwissArmyKnife.Lib.Tally
import SwissArmyKnife.MapReduce.Merge

/-!
# Files of words and of counts

The two programs that sort words by their frequency read the input files word by word into a map, which is emptied
when it has become too large and at the end of each file.  What they keep on the way are lines with a word, a tab and
a count, or with the count first.
-/

namespace MapReduce

/-! ## Words -/

/-- The parts of a text between white space. -/
def words (text : Bytes) : List Bytes := (text.splitOnP Decimal.isSpace).filter fun word => word ≠ []

def IsWord (word : Bytes) : Prop := word ≠ [] ∧ ∀ b ∈ word, Decimal.isSpace b = false

/-- A `std::ifstream`: the text that is left, `eof()` and `fail()`. -/
structure Input where
  rest : Bytes
  eof : Bool
  fail : Bool
deriving DecidableEq

namespace Input

def opened (file : Bytes) : Input := ⟨file, false, false⟩

/-- `in >> word`. -/
def word (input : Input) : Option Bytes × Input :=
  if input.eof || input.fail then (none, { input with fail := true })
  else
    let text := input.rest.dropWhile Decimal.isSpace
    if text = [] then (none, ⟨[], true, true⟩)
    else
      let rest := text.dropWhile fun b => !Decimal.isSpace b
      (some (text.takeWhile fun b => !Decimal.isSpace b), ⟨rest, rest = [], false⟩)

/-- Nothing is left when a flag is set. -/
def Valid (input : Input) : Prop := (input.eof || input.fail) = true → input.rest = []

end Input

theorem words_nil : words [] = [] := by decide

theorem words_dropWhile (text : Bytes) : words (text.dropWhile Decimal.isSpace) = words text := by
  induction text with
  | nil => rfl
  | cons b text ih =>
    by_cases hb : Decimal.isSpace b = true
    · rw [List.dropWhile_cons_of_pos hb, ih]
      unfold words
      rw [List.splitOnP_cons_eq_if_modifyHead, if_pos hb, List.filter_cons_of_neg (by simp)]
    · rw [List.dropWhile_cons_of_neg hb]

/-- A text is its first word and the words after it. -/
theorem words_append {word rest : Bytes} (hword : IsWord word) (hrest : ∀ b ∈ rest.head?, Decimal.isSpace b = true) :
    words (word ++ rest) = word :: words rest := by
  have hkeep (parts : List Bytes) : (word :: parts).filter (fun word => word ≠ []) =
      word :: parts.filter fun word => word ≠ [] := List.filter_cons_of_pos (by simpa using hword.1)
  cases rest with
  | nil =>
    rw [List.append_nil, words, List.splitOnP_eq_singleton hword.2, hkeep]
    rfl
  | cons b rest =>
    have hb := hrest b rfl
    unfold words
    rw [List.splitOnP_append_cons_of_forall_mem hword.2 b hb, List.splitOnP_cons_eq_if_modifyHead, if_pos hb,
      hkeep, List.filter_cons_of_neg (by simp)]

private theorem not_head_dropWhile (p : UInt8 → Bool) (l : Bytes) : ∀ b ∈ (l.dropWhile p).head?, p b = false := by
  intro b hb
  have hhead := List.head?_dropWhile_not p l
  rwa [Option.mem_def.1 hb] at hhead

private theorem forall_of_mem_splitOnP {p : UInt8 → Bool} {text part : Bytes} (h : part ∈ text.splitOnP p) :
    ∀ b ∈ part, p b = false := by
  induction text generalizing part with
  | nil =>
    rw [List.splitOnP_nil, List.mem_singleton] at h
    simp [h]
  | cons b text ih =>
    rw [List.splitOnP_cons_eq_if_modifyHead] at h
    split_ifs at h with hb
    · rcases List.mem_cons.1 h with rfl | h
      · simp
      · exact ih h
    · obtain ⟨first, parts, hparts⟩ := List.exists_cons_of_ne_nil (List.splitOnP_ne_nil p text)
      rw [hparts] at h ih
      rcases List.mem_cons.1 h with rfl | h
      · intro b' hb'
        rcases List.mem_cons.1 hb' with rfl | hb'
        · simpa using hb
        · exact ih (List.mem_cons_self ..) b' hb'
      · exact ih (List.mem_cons_of_mem _ h)

theorem isWord_of_mem {text word : Bytes} (h : word ∈ words text) : IsWord word := by
  obtain ⟨hmem, hne⟩ := List.mem_filter.1 h
  exact ⟨by simpa using hne, forall_of_mem_splitOnP hmem⟩

namespace Input

variable {input input' : Input}

theorem valid_opened (file : Bytes) : (opened file).Valid := fun h => absurd h Bool.false_ne_true

theorem fail_of_word (h : input.word = (none, input')) : input'.fail = true := by
  unfold word at h
  dsimp only at h
  split_ifs at h with hflag hend
  · cases h
    rfl
  · cases h
    rfl
  · cases h

/-- There is no word only at the end of the text. -/
theorem word_none (h : input.word = (none, input')) (hvalid : input.Valid) :
    words input.rest = [] ∧ input'.rest = [] := by
  unfold word at h
  dsimp only at h
  split_ifs at h with hflag hend
  · cases h
    rw [hvalid hflag]
    exact ⟨words_nil, rfl⟩
  · cases h
    rw [← words_dropWhile, hend]
    exact ⟨words_nil, rfl⟩
  · cases h

/-- The first word is taken from the text. -/
theorem word_some {w : Bytes} (h : input.word = (some w, input')) :
    words input.rest = w :: words input'.rest ∧ input'.Valid ∧ input'.rest.length < input.rest.length := by
  unfold word at h
  dsimp only at h
  split_ifs at h with hflag hend
  · cases h
  · cases h
  have hblanks := List.length_dropWhile_le Decimal.isSpace input.rest
  have hfirst := not_head_dropWhile Decimal.isSpace input.rest
  rw [← words_dropWhile]
  generalize input.rest.dropWhile Decimal.isSpace = text at h hend hblanks hfirst
  simp only [Prod.mk.injEq, Option.some.injEq] at h
  obtain ⟨rfl, rfl⟩ := h
  obtain ⟨b, text, rfl⟩ := List.exists_cons_of_ne_nil hend
  have hb : (!Decimal.isSpace b) = true := by simp [hfirst b rfl]
  refine ⟨?_, fun hflags => by simpa using hflags, ?_⟩
  · have hword : IsWord ((b :: text).takeWhile fun b => !Decimal.isSpace b) := by
      constructor
      · rw [List.takeWhile_cons_of_pos (p := fun b => !Decimal.isSpace b) hb]
        exact List.cons_ne_nil _ _
      · intro b' hb'
        simpa using List.mem_takeWhile_imp hb'
    have hrest : ∀ b' ∈ ((b :: text).dropWhile fun b => !Decimal.isSpace b).head?, Decimal.isSpace b' = true := by
      intro b' hb'
      simpa using not_head_dropWhile _ _ b' hb'
    have happend := words_append hword hrest
    rwa [List.takeWhile_append_dropWhile] at happend
  · have hle := List.length_dropWhile_le (fun b => !Decimal.isSpace b) text
    rw [List.length_cons] at hblanks
    dsimp only
    rw [List.dropWhile_cons_of_pos (p := fun b => !Decimal.isSpace b) hb]
    omega

end Input

/-! ## Counting -/

/-- `while (in >> word)`, until there are more than `kMaxSize` words in the map. -/
def countWords (kMaxSize : ℕ) (counts : SortedMap Bytes ℤ) (input : Input) : SortedMap Bytes ℤ × Input :=
  match _h : input.word with
  | (none, input') => (counts, input')
  | (some word, input') =>
    let counts := Tally.add counts word 1
    if kMaxSize < counts.entries.length then (counts, input') else countWords kMaxSize counts input'
termination_by input.rest.length
decreasing_by exact (Input.word_some _h).2.2

theorem countWords_less (kMaxSize : ℕ) (counts : SortedMap Bytes ℤ) (input : Input) :
    (countWords kMaxSize counts input).2.fail = true ∨
      (countWords kMaxSize counts input).2.rest.length < input.rest.length := by
  fun_induction countWords kMaxSize counts input with
  | case1 counts input input' h => exact Or.inl (Input.fail_of_word h)
  | case2 _ input word input' h => exact Or.inr (Input.word_some h).2.2
  | case3 _ input word input' h _ _ ih =>
    have hless := (Input.word_some h).2.2
    rcases ih with hfail | hrest
    · exact Or.inl hfail
    · exact Or.inr (hrest.trans hless)

/-- The words that are taken from the text are those that are counted. -/
theorem countWords_spec (kMaxSize : ℕ) (counts : SortedMap Bytes ℤ) (input : Input) (hvalid : input.Valid)
    {seen : List Bytes} (hseen : Tally.Counts counts.entries seen) :
    (countWords kMaxSize counts input).2.Valid ∧
      ∃ taken, words input.rest = taken ++ words (countWords kMaxSize counts input).2.rest ∧
        Tally.Counts (countWords kMaxSize counts input).1.entries (seen ++ taken) := by
  fun_induction countWords kMaxSize counts input generalizing seen with
  | case1 counts input input' h =>
    obtain ⟨hnone, hrest⟩ := Input.word_none h hvalid
    refine ⟨fun _ => hrest, [], ?_, ?_⟩
    · rw [hnone, hrest, words_nil, List.append_nil]
    · rwa [List.append_nil]
  | case2 _ input word input' h counts =>
    obtain ⟨hwords, hvalid', -⟩ := Input.word_some h
    exact ⟨hvalid', [word], hwords, hseen.add word⟩
  | case3 _ input word input' h counts _ ih =>
    obtain ⟨hwords, hvalid', -⟩ := Input.word_some h
    obtain ⟨hvalid'', taken, htaken, hcounts⟩ := ih hvalid' (hseen.add word)
    refine ⟨hvalid'', word :: taken, ?_, ?_⟩
    · rw [hwords, htaken, List.cons_append]
    · rwa [List.append_assoc] at hcounts

/-- The maps of one file: `while (in && !in.eof())`. -/
def batches (kMaxSize : ℕ) (input : Input) : List (SortedMap Bytes ℤ) :=
  if _h : input.fail = false ∧ input.eof = false then
    let counted := countWords kMaxSize .empty input
    counted.1 :: batches kMaxSize counted.2
  else []
termination_by if input.fail then 0 else input.rest.length + 1
decreasing_by
  have hless := countWords_less kMaxSize .empty input
  rw [_h.1]
  rcases hless with hfail | hrest
  · rw [hfail]
    exact Nat.succ_pos _
  · split <;> simp; omega

theorem batches_counts (kMaxSize : ℕ) (input : Input) (hvalid : input.Valid) :
    Tally.Counts ((batches kMaxSize input).flatMap SortedMap.entries) (words input.rest) := by
  fun_induction batches kMaxSize input with
  | case1 input _ counted ih =>
    obtain ⟨hvalid', taken, hwords, hcounts⟩ := countWords_spec kMaxSize .empty input hvalid .nil
    rw [hwords, List.flatMap_cons]
    exact Tally.Counts.append hcounts (ih hvalid')
  | case2 input hflags =>
    have hempty : input.rest = [] := by
      apply hvalid
      cases hfail : input.fail <;> cases heof : input.eof <;> simp_all
    rw [hempty, words_nil]
    exact .nil

/-- The maps of all files. -/
def allBatches (kMaxSize : ℕ) (files : List Bytes) : List (SortedMap Bytes ℤ) :=
  files.flatMap fun file => batches kMaxSize (.opened file)

def allWords (files : List Bytes) : List Bytes := files.flatMap words

theorem allBatches_counts (kMaxSize : ℕ) (files : List Bytes) :
    Tally.Counts ((allBatches kMaxSize files).flatMap SortedMap.entries) (allWords files) := by
  rw [allBatches, List.flatMap_assoc, allWords]
  exact .flatMap fun file _ => batches_counts kMaxSize _ (Input.valid_opened file)

theorem isWord_of_mem_allWords {files : List Bytes} {word : Bytes} (h : word ∈ allWords files) : IsWord word := by
  obtain ⟨file, -, hmem⟩ := List.mem_flatMap.1 h
  exact isWord_of_mem hmem

/-! ## Lines -/

/-- `word << '\t' << count << '\n'`. -/
def wordLine (entry : Bytes × ℤ) : Bytes := entry.1 ++ 9 :: (Decimal.toString entry.2 ++ [10])

/-- `count << '\t' << word << '\n'`. -/
def countLine (entry : ℤ × Bytes) : Bytes := Decimal.toString entry.1 ++ 9 :: (entry.2 ++ [10])

/-- What comes back from a line as it was. -/
structure Fits (word : Bytes) (count : ℤ) : Prop where
  isWord : IsWord word
  pos : 0 < count
  lt : count < 2 ^ 63

namespace Fits

variable {word : Bytes} {count : ℤ}

theorem toString_eq (h : Fits word count) : Decimal.toString count = Decimal.digits count.natAbs := by
  rw [Decimal.toString, if_neg (not_lt.2 h.pos.le)]

theorem saturate_eq (h : Fits word count) :
    Decimal.saturate (Decimal.number (Decimal.digits count.natAbs)) = count := by
  have hpos := h.pos
  have hlt := h.lt
  rw [Decimal.number_digits, Decimal.saturate_of_fits] <;> omega

/-- The number at the start of a line. -/
theorem strtol_append (h : Fits word count) (rest : Bytes) :
    (Decimal.strtoll (Decimal.toString count ++ 9 :: rest)).1 = count := by
  have hrest : ∀ b ∈ (9 :: rest).head?, Decimal.isDigit b = false := by
    intro b hb
    cases hb
    rfl
  have hread :=
    Decimal.strtoll_digits (show ([] : Bytes).all Decimal.isSpace from rfl) (Decimal.digits_ne_nil count.natAbs)
    (Decimal.isDigit_digits count.natAbs) hrest
  rwa [h.saturate_eq, List.nil_append, ← h.toString_eq] at hread

/-- The number after the tab. -/
theorem strtol_cons (h : Fits word count) : (Decimal.strtoll (9 :: Decimal.toString count)).1 = count := by
  have hrest : ∀ b ∈ ([] : Bytes).head?, Decimal.isDigit b = false := by
    intro b hb
    cases hb
  have hread :=
    Decimal.strtoll_digits (show ([9] : Bytes).all Decimal.isSpace from rfl) (Decimal.digits_ne_nil count.natAbs)
    (Decimal.isDigit_digits count.natAbs) hrest
  rwa [h.saturate_eq, List.append_nil, ← h.toString_eq] at hread

theorem notMem_word (h : Fits word count) {b : UInt8} (hb : Decimal.isSpace b = true) : b ∉ word :=
  fun hmem => Bool.false_ne_true ((h.isWord.2 b hmem).symm.trans hb)

theorem notMem_toString (h : Fits word count) {b : UInt8} (hb : Decimal.isSpace b = true) :
    b ∉ Decimal.toString count := by
  rw [h.toString_eq]
  exact fun hmem => Bool.false_ne_true ((Decimal.not_isSpace_digits hmem).symm.trans hb)

theorem getline_wordLine (h : Fits word count) (rest : Bytes) :
    getline (wordLine (word, count) ++ rest) = some (word ++ 9 :: Decimal.toString count, rest) := by
  have hline : 10 ∉ word ++ 9 :: Decimal.toString count := by
    simp [h.notMem_word, h.notMem_toString, show Decimal.isSpace 10 = true from rfl]
  have heq : wordLine (word, count) ++ rest = (word ++ 9 :: Decimal.toString count) ++ 10 :: rest := by
    simp [wordLine]
  rw [heq, getline_append hline]

theorem getline_countLine (h : Fits word count) (rest : Bytes) :
    getline (countLine (count, word) ++ rest) = some (Decimal.toString count ++ 9 :: word, rest) := by
  have hline : 10 ∉ Decimal.toString count ++ 9 :: word := by
    simp [h.notMem_word, h.notMem_toString, show Decimal.isSpace 10 = true from rfl]
  have heq : countLine (count, word) ++ rest = (Decimal.toString count ++ 9 :: word) ++ 10 :: rest := by
    simp [countLine]
  rw [heq, getline_append hline]

end Fits

end MapReduce
