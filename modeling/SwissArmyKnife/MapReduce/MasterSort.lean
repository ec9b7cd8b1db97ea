import SwissArmyKnife.MapReduce.Shareds

/-!
# Sorting by segments

The maps of all files are written as segments in the order of the words, and the segments are merged with a heap, so
that all lines of a word come one after another and can be added up.  The sums are collected in a map, and when it has
become too large and the next word is another one, it is written as a count file.  These are merged as the shards are.
-/

namespace MapReduce

namespace MasterSort

/-! ## The program -/

def input (kMaxSize : ℕ) (files : List Bytes) : List Bytes :=
  (allBatches kMaxSize files).map fun counts => counts.entries.flatMap wordLine

structure Segment where
  input : Bytes
  word : Bytes
  count : ℤ
deriving DecidableEq

namespace Segment

def new (input : Bytes) : Segment := ⟨input, [], 0⟩

def next (segment : Segment) : Option Segment :=
  match getline segment.input with
  | none => none
  | some (line, input) =>
    let tab := line.idxOf 9
    if tab ≠ line.length then some ⟨input, line.take tab, (Decimal.strtoll (line.drop tab)).1⟩ else none

theorem length_of_next {segment segment' : Segment} (h : segment.next = some segment') :
    segment'.input.length < segment.input.length := by
  unfold next at h
  split at h
  · cases h
  · rename_i line input hline
    dsimp only at h
    split_ifs at h
    cases h
    exact length_of_getline hline

/-- `operator<` is `word > rhs.word`. -/
def sources : Sources Segment Bytesᵒᵈ :=
  ⟨fun segment => OrderDual.toDual segment.word, next, fun segment => segment.input.length, length_of_next⟩

end Segment

/-- `outputs` are the maps that `output` was called with. -/
structure Combining where
  last : Bytes
  counts : SortedMap Bytes ℤ
  outputs : List (SortedMap Bytes ℤ)

namespace Combining

def start : Combining := ⟨[], .empty, []⟩

/-- The part of the loop for a word that is not the last one. -/
def turn (kMaxSize : ℕ) (c : Combining) (word : Bytes) : Combining :=
  if word ≠ c.last then
    if kMaxSize < c.counts.entries.length then ⟨word, .empty, c.outputs ++ [c.counts]⟩ else
      ⟨word, c.counts, c.outputs⟩
  else c

def add (c : Combining) (word : Bytes) (count : ℤ) : Combining := { c with counts := Tally.add c.counts word count }

def step (kMaxSize : ℕ) (c : Combining) (back : Segment) : Combining :=
  (c.turn kMaxSize back.word).add back.word back.count

def finish (c : Combining) : List (SortedMap Bytes ℤ) :=
  if c.counts.entries ≠ [] then c.outputs ++ [c.counts] else c.outputs

end Combining

/-- `output` writes a count file. -/
def combine (kMaxSize : ℕ) (segments countFiles : List Bytes) : Prop :=
  ∃ c, Segment.sources.Run (Combining.step kMaxSize) (Segment.sources.opened (segments.map Segment.new)) .start c ∧
    List.Forall₂ Shareds.CountFile c.finish countFiles

/-- The merge is that of the shards: `xSource` has the code of `Source`. -/
def merge (countFiles : List Bytes) (out : Bytes) : Prop := Shareds.Merge countFiles out

def Main (kMaxSize : ℕ) (files : List Bytes) (out : Bytes) : Prop :=
  ∃ countFiles, combine kMaxSize (input kMaxSize files) countFiles ∧ merge countFiles out

/-! ## The segments -/

namespace Segment

def entry (segment : Segment) : Bytes × ℤ := (segment.word, segment.count)

theorem next_wordLine {word : Bytes} {count : ℤ} (h : Fits word count) (rest w : Bytes) (c : ℤ) :
    (Segment.mk (wordLine (word, count) ++ rest) w c).next = some ⟨rest, word, count⟩ := by
  have htab := idxOf_append_cons (h.notMem_word (b := 9) rfl) (Decimal.toString count)
  have hne : word.length ≠ (word ++ 9 :: Decimal.toString count).length := by simp
  rw [next, h.getline_wordLine]
  dsimp only
  rw [htab, if_pos hne, List.drop_left, List.take_left, h.strtol_cons]

/-- A segment gives the entries of its map. -/
theorem map_reads {records : List (Bytes × ℤ)} (hfits : ∀ r ∈ records, Fits r.1 r.2) (w : Bytes) (c : ℤ) :
    (sources.reads ⟨records.flatMap wordLine, w, c⟩).map entry = records := by
  induction records generalizing w c with
  | nil =>
    rw [Sources.reads_of_none rfl]
    rfl
  | cons r records ih =>
    have hnext := next_wordLine (hfits r (List.mem_cons_self ..)) (records.flatMap wordLine) w c
    rw [List.flatMap_cons, Sources.reads_of_some (S := sources) hnext, Sources.states, List.map_cons,
      ih fun r' h' => hfits r' (List.mem_cons_of_mem _ h')]
    rfl

end Segment

/-! ## The sums -/

namespace Combining

def records (c : Combining) : List (Bytes × ℤ) := c.outputs.flatMap SortedMap.entries ++ c.counts.entries

/-- The records of all maps, in the order of their words, are the sums of what was seen.  All words up to the last one
can be in the map, and only smaller ones in those that were written. -/
structure Sums (c : Combining) (seen : List (Bytes × ℤ)) : Prop where
  total : ∀ word, Tally.total c.records word = Tally.total seen word
  positive : Tally.Positive c.records
  sorted : c.records.Pairwise fun a b => a.1 < b.1
  le_last : ∀ r ∈ c.records, r.1 ≤ c.last
  lt_last : ∀ r ∈ c.outputs.flatMap SortedMap.entries, r.1 < c.last

variable {c : Combining} {seen : List (Bytes × ℤ)}

theorem sums_start : start.Sums [] := by
  constructor
  · exact fun _ => rfl
  · exact fun _ hr => absurd hr List.not_mem_nil
  · exact .nil
  · exact fun _ hr => absurd hr List.not_mem_nil
  · exact fun _ hr => absurd hr List.not_mem_nil

theorem last_turn (kMaxSize : ℕ) (c : Combining) (word : Bytes) : (c.turn kMaxSize word).last = word := by
  rw [turn]
  split_ifs with hword
  · rfl
  · rfl
  · exact (not_not.1 hword).symm

theorem records_turn (kMaxSize : ℕ) (c : Combining) (word : Bytes) : (c.turn kMaxSize word).records = c.records := by
  rw [turn]
  split_ifs
  · rw [records, records, List.flatMap_append, List.flatMap_singleton]
    exact List.append_nil _
  · rfl
  · rfl

/-- A map is written before a larger word. -/
theorem Sums.turn (h : c.Sums seen) (kMaxSize : ℕ) {word : Bytes} (hle : c.last ≤ word) :
    (c.turn kMaxSize word).Sums seen := by
  have hlast := last_turn kMaxSize c word
  have hrecords := records_turn kMaxSize c word
  refine ⟨?_, ?_, ?_, ?_, ?_⟩
  · rw [hrecords]
    exact h.total
  · rw [hrecords]
    exact h.positive
  · rw [hrecords]
    exact h.sorted
  · rw [hrecords, hlast]
    exact fun r hr => (h.le_last r hr).trans hle
  · rw [hlast, Combining.turn]
    split_ifs with hword hlarge
    · have hlt : c.last < word := hle.lt_of_ne hword.symm
      intro r hr
      rw [List.flatMap_append, List.flatMap_singleton] at hr
      exact (h.le_last r hr).trans_lt hlt
    · exact fun r hr => (h.lt_last r hr).trans_le hle
    · exact fun r hr => (h.lt_last r hr).trans_le hle

theorem Sums.add (h : c.Sums seen) {count : ℤ} (hcount : 0 < count) :
    (c.add c.last count).Sums (seen ++ [(c.last, count)]) := by
  have hcounts : ∀ r ∈ (Tally.add c.counts c.last count).entries, r.1 = c.last ∨
      r.1 ∈ c.counts.entries.map Prod.fst :=
    fun r hr => Tally.mem_keys_add (List.mem_map_of_mem hr)
  have hsorted := List.pairwise_append.1 h.sorted
  refine ⟨?_, ?_, ?_, ?_, h.lt_last⟩
  · intro word
    have htotal := h.total word
    rw [records, Tally.total_append] at htotal
    rw [records, Combining.add, Tally.total_append, Tally.total_append, Tally.total_add, Tally.total_cons,
      Tally.total_nil, add_zero, ← htotal, add_assoc]
  · intro r hr
    rcases List.mem_append.1 hr with hr | hr
    · exact h.positive r (List.mem_append_left _ hr)
    · have hpositive : Tally.Positive c.counts.entries := fun r hr => h.positive r (List.mem_append_right _ hr)
      exact hpositive.add c.last hcount r hr
  · refine List.pairwise_append.2 ⟨hsorted.1, (Tally.add c.counts c.last count).sorted, ?_⟩
    intro a ha b hb
    rcases hcounts b hb with heq | hmem
    · rw [heq]
      exact h.lt_last a ha
    · obtain ⟨b', hb', heq⟩ := List.mem_map.1 hmem
      rw [← heq]
      exact hsorted.2.2 a ha b' hb'
  · intro r hr
    rcases List.mem_append.1 hr with hr | hr
    · exact h.le_last r (List.mem_append_left _ hr)
    · rcases hcounts r hr with heq | hmem
      · exact heq.le
      · obtain ⟨r', hr', heq⟩ := List.mem_map.1 hmem
        rw [← heq]
        exact h.le_last r' (List.mem_append_right _ hr')

theorem Sums.step (h : c.Sums seen) (kMaxSize : ℕ) {back : Segment} (hle : c.last ≤ back.word)
    (hcount : 0 < back.count) :
    (c.step kMaxSize back).Sums (seen ++ [back.entry]) := by
  have hadd := (h.turn kMaxSize hle).add hcount
  rwa [last_turn] at hadd

/-- The words are taken in ascending order, so those that are equal come together. -/
theorem Sums.foldl (h : c.Sums seen) (kMaxSize : ℕ) {popped : List Segment}
    (hle : ∀ back ∈ popped, c.last ≤ back.word)
    (hsorted : popped.Pairwise fun a b => a.word ≤ b.word) (hcount : ∀ back ∈ popped, 0 < back.count) :
    (popped.foldl (Combining.step kMaxSize) c).Sums (seen ++ popped.map Segment.entry) := by
  induction popped generalizing c seen with
  | nil => rwa [List.map_nil, List.append_nil]
  | cons back popped ih =>
    obtain ⟨hback, hpopped⟩ := List.pairwise_cons.1 hsorted
    have hstep := h.step kMaxSize (hle back (List.mem_cons_self ..)) (hcount back (List.mem_cons_self ..))
    have hlast : (c.step kMaxSize back).last = back.word := last_turn kMaxSize c back.word
    have hrest := ih hstep (by rwa [hlast]) hpopped fun back' h' => hcount back' (List.mem_cons_of_mem _ h')
    rwa [List.append_assoc] at hrest

theorem flatMap_finish (c : Combining) : c.finish.flatMap SortedMap.entries = c.records := by
  rw [finish, records]
  split_ifs with hempty
  · rw [List.flatMap_append, List.flatMap_singleton]
  · rw [not_not.1 hempty, List.append_nil]

end Combining

/-! ## The output -/

section Main

variable {kMaxSize : ℕ} {files : List Bytes} {out : Bytes}

theorem main_ends (kMaxSize : ℕ) (files : List Bytes) : ∃ out, Main kMaxSize files out := by
  obtain ⟨c, hrun⟩ := Sources.exists_run Segment.sources (Combining.step kMaxSize)
    (Segment.sources.opened ((input kMaxSize files).map Segment.new)) .start
  obtain ⟨countFiles, hfiles⟩ := Shareds.exists_countFiles c.finish
  obtain ⟨out, hmerge⟩ := Shareds.merge_ends countFiles
  exact ⟨out, countFiles, ⟨c, hrun, hfiles⟩, hmerge⟩

/-- The maps that are written have each word once. -/
theorem combine_counts {maps : List (SortedMap Bytes ℤ)} {words : List Bytes}
    (hcounts : Tally.Counts (maps.flatMap SortedMap.entries) words)
    (hfits : ∀ r ∈ maps.flatMap SortedMap.entries, Fits r.1 r.2) {c : Combining}
    (hrun : Segment.sources.Run (Combining.step kMaxSize)
      (Segment.sources.opened ((maps.map fun counts => counts.entries.flatMap wordLine).map Segment.new)) .start c) :
    Tally.Counts (c.finish.flatMap SortedMap.entries) words ∧
      ((c.finish.flatMap SortedMap.entries).map Prod.fst).Nodup := by
  have hreads : ∀ counts ∈ maps,
      (Segment.sources.reads (Segment.new (counts.entries.flatMap wordLine))).map Segment.entry = counts.entries :=
    fun counts hmem => Segment.map_reads (fun r hr => hfits r (List.mem_flatMap.2 ⟨counts, hmem, hr⟩)) [] 0
  rw [List.map_map] at hrun
  obtain ⟨popped, hentries, rfl, hdescending⟩ := Sources.popped_of_opened hreads hrun
  have hsorted : popped.Pairwise fun a b => a.word ≤ b.word := by
    refine hdescending fun counts hmem => ?_
    have hwords : counts.entries.Pairwise fun a b => a.1 ≤ b.1 := counts.sorted.imp le_of_lt
    rw [← hreads counts hmem] at hwords
    exact List.pairwise_map.1 hwords
  have hcount : ∀ back ∈ popped, 0 < back.count := fun back hback =>
    hcounts.positive _ (hentries.subset (List.mem_map_of_mem hback))
  have hsums :=
    Combining.sums_start.foldl kMaxSize (fun back _ => not_lt.1 (List.not_lt_nil back.word)) hsorted hcount
  rw [Combining.flatMap_finish]
  refine ⟨⟨hsums.positive, ?_⟩, ?_⟩
  · intro word
    rw [hsums.total, List.nil_append, Tally.total_perm hentries, hcounts.total]
  · exact List.pairwise_map.2 (hsums.sorted.imp fun h => h.ne)

theorem main_frequencies (hlt : ∀ word, (allWords files).count word < 2 ^ 63) (h : Main kMaxSize files out) :
    ∃ records, out = records.flatMap countLine ∧ Shareds.Frequencies (allWords files) records := by
  obtain ⟨countFiles, ⟨c, hrun, hfiles⟩, hmerge⟩ := h
  have hwords : ∀ word ∈ allWords files, IsWord word := fun word hword => isWord_of_mem_allWords hword
  have hcounts := allBatches_counts kMaxSize files
  obtain ⟨hsums, hnodup⟩ := combine_counts hcounts (Shareds.fits_of_mem hcounts hwords hlt) hrun
  exact Shareds.merge_counts hsums hnodup hwords hlt hfiles hmerge

end Main

end MasterSort

/-! ## The two programs -/

/-- Both programs come to an end, with each word once and its number of occurrences, in non-increasing order of these;
they can differ only in the order of the words that occur equally often. -/
theorem frequencies_exact {hash : Bytes → ℕ} {nbuckets : ℕ} (kMaxSize : ℕ) (files : List Bytes)
    (hnbuckets : 0 < nbuckets)
    (hlt : ∀ word, (allWords files).count word < 2 ^ 63) :
    Shareds.Source.sources.Terminates Shareds.Source.outputTo ∧
    MasterSort.Segment.sources.Terminates (MasterSort.Combining.step kMaxSize) ∧
    (∃ out, Shareds.Main hash kMaxSize nbuckets files out) ∧ (∃ out, MasterSort.Main kMaxSize files out) ∧
    ∀ out out', Shareds.Main hash kMaxSize nbuckets files out → MasterSort.Main kMaxSize files out' →
      ∃ records records' : List (ℤ × Bytes), out = records.flatMap countLine ∧ out' = records'.flatMap countLine ∧
        Shareds.Frequencies (allWords files) records ∧ records'.Perm records ∧
        records'.map Prod.fst = records.map Prod.fst := by
  refine ⟨Sources.terminates .., Sources.terminates .., Shareds.main_ends kMaxSize files hash nbuckets,
    MasterSort.main_ends kMaxSize files, ?_⟩
  intro out out' hshareds hmaster
  obtain ⟨records, hout, hfrequencies⟩ := Shareds.main_frequencies hnbuckets hlt hshareds
  obtain ⟨records', hout', hfrequencies'⟩ := MasterSort.main_frequencies hlt hmaster
  have hperm : records'.Perm records := hfrequencies'.perm.trans hfrequencies.perm.symm
  refine ⟨records, records', hout, hout', hfrequencies, hperm, ?_⟩
  have hcounts : (records.map Prod.fst).Pairwise (· ≥ ·) := List.pairwise_map.2 hfrequencies.descending
  have hcounts' : (records'.map Prod.fst).Pairwise (· ≥ ·) := List.pairwise_map.2 hfrequencies'.descending
  exact (hperm.map Prod.fst).eq_of_pairwise' hcounts' hcounts

/-- The words `b`, `a` and `b`, with a split before the last one. -/
theorem frequencies_exact_split :
    ∃ out out', Shareds.Main List.length 1 2 [[98, 32, 97, 32, 98]] out ∧
    MasterSort.Main 1 [[98, 32, 97, 32, 98]] out' ∧
      ∃ records records' : List (ℤ × Bytes), out = records.flatMap countLine ∧ out' = records'.flatMap countLine ∧
        records.map Prod.fst = [2, 1] ∧ records'.map Prod.fst = [2, 1] := by
  have hlt : ∀ word, (allWords [[98, 32, 97, 32, 98]]).count word < 2 ^ 63 := by
    intro word
    have hle := List.count_le_length (a := word) (l := allWords [[98, 32, 97, 32, 98]])
    have hlength : (allWords [[98, 32, 97, 32, 98]]).length = 3 := by decide
    omega
  obtain ⟨-, -, ⟨out, hshareds⟩, ⟨out', hmaster⟩, hexact⟩ :=
    @frequencies_exact List.length 2 1 [[98, 32, 97, 32, 98]] Nat.two_pos hlt
  obtain ⟨records, records', hout, hout', hfrequencies, -, hcounts⟩ := hexact out out' hshareds hmaster
  have hperm : (records.map Prod.fst).Perm [2, 1] := by
    have hwords : ((allWords [[98, 32, 97, 32, 98]]).dedup.map fun word =>
        (((allWords [[98, 32, 97, 32, 98]]).count word : ℤ), word)) = [(1, [97]), (2, [98])] := by decide
    have hall := hfrequencies.perm.map Prod.fst
    rw [hwords] at hall
    exact hall.trans (.swap 2 1 [])
  have hsorted : (records.map Prod.fst).Pairwise (· ≥ ·) := List.pairwise_map.2 hfrequencies.descending
  have heq : records.map Prod.fst = [2, 1] := hperm.eq_of_pairwise' hsorted (by decide)
  exact ⟨out, out', hshareds, hmaster, records, records', hout, hout', heq, hcounts.trans heq⟩

end MapReduce
