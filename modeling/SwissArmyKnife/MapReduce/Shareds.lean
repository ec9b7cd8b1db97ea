import SwissArmyKnife.Lib.HeapLoop
import SwissArmyKnife.MapReduce.WordFiles

/-!
# Sorting by shards

The words of all files are distributed to shards by their hash, so that all lines of a word are in one shard.  Each
shard is added up and written in the order of the counts, and the count files are merged with a heap.  A hash map is
gone through in some order, and the top of a heap is some greatest element.
-/

namespace MapReduce

namespace Shareds

/-! ## The program -/

/-- `Sharder::output`; there is a text for each bucket. -/
def Sharder.output (hash : Bytes → ℕ) (buckets : List Bytes) (entry : Bytes × ℤ) : List Bytes :=
  buckets.modify (hash entry.1 % buckets.length) fun text => text ++ wordLine entry

/-- An order in which a hash map is gone through. -/
def Order (counts : SortedMap Bytes ℤ) (entries : List (Bytes × ℤ)) : Prop := entries.Perm counts.entries

def Shard (hash : Bytes → ℕ) (kMaxSize nbuckets : ℕ) (files shards : List Bytes) : Prop :=
  ∃ orders, List.Forall₂ Order (allBatches kMaxSize files) orders ∧
    shards = orders.flatten.foldl (Sharder.output hash) (List.replicate nbuckets [])

def readLine (counts : SortedMap Bytes ℤ) (line : Bytes) : SortedMap Bytes ℤ :=
  let tab := line.idxOf 9
  if tab ≠ line.length then
    let count := (Decimal.strtoll (line.drop tab)).1
    if 0 < count then Tally.add counts (line.take tab) count else counts
  else counts

def readLines (counts : SortedMap Bytes ℤ) (input : Bytes) : SortedMap Bytes ℤ :=
  match _h : getline input with
  | none => counts
  | some (line, rest) => readLines (readLine counts line) rest
termination_by input.length
decreasing_by exact length_of_getline _h

def readShard (shard : Bytes) : SortedMap Bytes ℤ := readLines .empty shard

/-- The order of the pairs. -/
def pairLe (a b : ℤ × Bytes) : Bool := a.1 < b.1 ∨ a.1 = b.1 ∧ a.2 ≤ b.2

/-- The pairs in the order in which they are written, the last one first. -/
def frequencies (entries : List (Bytes × ℤ)) : List (ℤ × Bytes) :=
  ((entries.map fun entry => (entry.2, entry.1)).mergeSort pairLe).reverse

def CountFile (counts : SortedMap Bytes ℤ) (file : Bytes) : Prop :=
  ∃ entries, Order counts entries ∧ file = (frequencies entries).flatMap countLine

def SortShareds (shards countFiles : List Bytes) : Prop := List.Forall₂ CountFile (shards.map readShard) countFiles

structure Source where
  input : Bytes
  count : ℤ
  word : Bytes
deriving DecidableEq

namespace Source

def new (input : Bytes) : Source := ⟨input, 0, []⟩

/-- There is no next one also when a line cannot be read. -/
def next (source : Source) : Option Source :=
  match getline source.input with
  | none => none
  | some (line, input) =>
    let tab := line.idxOf 9
    if tab ≠ line.length then
      let count := (Decimal.strtoll line).1
      if 0 < count then some ⟨input, count, line.drop (tab + 1)⟩ else none
    else none

def outputTo (out : Bytes) (source : Source) : Bytes := out ++ countLine (source.count, source.word)

theorem length_of_next {source source' : Source} (h : source.next = some source') :
    source'.input.length < source.input.length := by
  unfold next at h
  split at h
  · cases h
  · rename_i line input hline
    dsimp only at h
    split_ifs at h
    cases h
    exact length_of_getline hline

/-- `operator<` compares the counts. -/
def sources : Sources Source ℤ := ⟨count, next, fun source => source.input.length, length_of_next⟩

end Source

def Merge (countFiles : List Bytes) (out : Bytes) : Prop :=
  Source.sources.Run Source.outputTo (Source.sources.opened (countFiles.map Source.new)) [] out

/-- The program with the input files and its output. -/
def Main (hash : Bytes → ℕ) (kMaxSize nbuckets : ℕ) (files : List Bytes) (out : Bytes) : Prop :=
  ∃ shards countFiles, Shard hash kMaxSize nbuckets files shards ∧
  SortShareds shards countFiles ∧ Merge countFiles out

/-! ## The shards -/

theorem readLine_wordLine {word : Bytes} {count : ℤ} (h : Fits word count) (counts : SortedMap Bytes ℤ) :
    readLine counts (word ++ 9 :: Decimal.toString count) = Tally.add counts word count := by
  have htab := idxOf_append_cons (h.notMem_word (b := 9) rfl) (Decimal.toString count)
  have hne : word.length ≠ (word ++ 9 :: Decimal.toString count).length := by simp
  rw [readLine]
  dsimp only
  rw [htab, if_pos hne, List.drop_left, List.take_left, h.strtol_cons, if_pos h.pos]

theorem readLines_wordLines {records : List (Bytes × ℤ)} (hfits : ∀ r ∈ records, Fits r.1 r.2)
    (counts : SortedMap Bytes ℤ) : readLines counts (records.flatMap wordLine) = Tally.tally counts records := by
  induction records generalizing counts with
  | nil =>
    rw [readLines]
    rfl
  | cons r records ih =>
    have hr := hfits r (List.mem_cons_self ..)
    rw [readLines, List.flatMap_cons]
    split
    · rename_i hend
      rw [hr.getline_wordLine] at hend
      cases hend
    · rename_i line rest hline
      rw [hr.getline_wordLine] at hline
      cases hline
      rw [readLine_wordLine hr, ih fun r' h' => hfits r' (List.mem_cons_of_mem _ h')]
      rfl

/-- What is written to a bucket. -/
def bucket (hash : Bytes → ℕ) (nbuckets i : ℕ) (entries : List (Bytes × ℤ)) : List (Bytes × ℤ) :=
  entries.filter fun entry => hash entry.1 % nbuckets = i

theorem foldl_output (hash : Bytes → ℕ) (entries : List (Bytes × ℤ)) (buckets : List Bytes) (i : ℕ) :
    (entries.foldl (Sharder.output hash) buckets)[i]? =
      buckets[i]?.map fun text => text ++ (bucket hash buckets.length i entries).flatMap wordLine := by
  induction entries generalizing buckets with
  | nil => simp [bucket]
  | cons entry entries ih =>
    have hlength : (Sharder.output hash buckets entry).length = buckets.length := List.length_modify ..
    rw [List.foldl_cons, ih, hlength, Sharder.output, List.getElem?_modify, Option.map_eq_map, Option.map_map]
    congr 1
    funext text
    rw [Function.comp_apply, bucket, bucket, List.filter_cons]
    by_cases hi : hash entry.1 % buckets.length = i <;> simp [hi]

theorem shards_eq (hash : Bytes → ℕ) (nbuckets : ℕ) (entries : List (Bytes × ℤ)) :
    entries.foldl (Sharder.output hash) (List.replicate nbuckets []) =
      (List.range nbuckets).map fun i => (bucket hash nbuckets i entries).flatMap wordLine := by
  apply List.ext_getElem?
  intro i
  rw [foldl_output, List.length_replicate, List.getElem?_replicate, List.getElem?_map]
  by_cases hi : i < nbuckets
  · rw [if_pos hi, List.getElem?_range hi]
    rfl
  · rw [if_neg hi, List.getElem?_eq_none (by simpa using hi)]
    rfl

/-- The maps that are read from the shards. -/
theorem readShards_eq {hash : Bytes → ℕ} {nbuckets : ℕ} {entries : List (Bytes × ℤ)}
    (hfits : ∀ r ∈ entries, Fits r.1 r.2) :
    (entries.foldl (Sharder.output hash) (List.replicate nbuckets [])).map readShard =
      Tally.buckets (fun word => hash word % nbuckets) nbuckets entries := by
  rw [shards_eq, List.map_map, Tally.buckets]
  refine List.map_congr_left fun i _ => ?_
  exact readLines_wordLines (fun r hr => hfits r (List.mem_of_mem_filter hr)) .empty

/-! ## The count files -/

theorem pairLe_iff {a b : ℤ × Bytes} : pairLe a b = true ↔ a.1 < b.1 ∨ a.1 = b.1 ∧ a.2 ≤ b.2 := by
  rw [pairLe, decide_eq_true_eq]

theorem pairLe_trans (a b c : ℤ × Bytes) (hab : pairLe a b = true) (hbc : pairLe b c = true) : pairLe a c = true := by
  rw [pairLe_iff] at *
  rcases hab with hab | ⟨hab, hab'⟩ <;> rcases hbc with hbc | ⟨hbc, hbc'⟩
  · exact Or.inl (hab.trans hbc)
  · exact Or.inl (hbc ▸ hab)
  · exact Or.inl (hab ▸ hbc)
  · exact Or.inr ⟨hab.trans hbc, hab'.trans hbc'⟩

theorem pairLe_total (a b : ℤ × Bytes) : (pairLe a b || pairLe b a) = true := by
  rw [Bool.or_eq_true, pairLe_iff, pairLe_iff]
  rcases lt_trichotomy a.1 b.1 with h | h | h
  · exact Or.inl (Or.inl h)
  · rcases le_total a.2 b.2 with h' | h'
    · exact Or.inl (Or.inr ⟨h, h'⟩)
    · exact Or.inr (Or.inr ⟨h.symm, h'⟩)
  · exact Or.inr (Or.inl h)

/-- In non-increasing order of the counts. -/
def Descending (records : List (ℤ × Bytes)) : Prop := records.Pairwise fun a b => b.1 ≤ a.1

theorem frequencies_perm (entries : List (Bytes × ℤ)) :
    (frequencies entries).Perm (entries.map fun entry => (entry.2, entry.1)) :=
  (List.reverse_perm _).trans (List.mergeSort_perm _ _)

theorem frequencies_descending (entries : List (Bytes × ℤ)) : Descending (frequencies entries) := by
  have hsorted := List.pairwise_mergeSort pairLe_trans pairLe_total (entries.map fun entry => (entry.2, entry.1))
  refine List.pairwise_reverse.2 (hsorted.imp ?_)
  intro a b hab
  rcases pairLe_iff.1 hab with hlt | ⟨heq, -⟩
  · exact hlt.le
  · exact heq.le

/-! ## The merge -/

namespace Source

def entry (source : Source) : ℤ × Bytes := (source.count, source.word)

theorem next_countLine {word : Bytes} {count : ℤ} (h : Fits word count) (rest : Bytes) (c : ℤ) (w : Bytes) :
    (Source.mk (countLine (count, word) ++ rest) c w).next = some ⟨rest, count, word⟩ := by
  have htab := idxOf_append_cons (h.notMem_toString (b := 9) rfl) word
  have hne : (Decimal.toString count).length ≠ (Decimal.toString count ++ 9 :: word).length := by simp
  rw [next, h.getline_countLine]
  dsimp only
  rw [htab, if_pos hne, h.strtol_append, if_pos h.pos, List.drop_length_add_append,
    List.drop_succ_cons, List.drop_zero]

/-- A source gives the lines of its file. -/
theorem map_reads {records : List (ℤ × Bytes)} (hfits : ∀ r ∈ records, Fits r.2 r.1) (c : ℤ) (w : Bytes) :
    (sources.reads ⟨records.flatMap countLine, c, w⟩).map entry = records := by
  induction records generalizing c w with
  | nil =>
    rw [Sources.reads_of_none rfl]
    rfl
  | cons r records ih =>
    have hnext := next_countLine (hfits r (List.mem_cons_self ..)) (records.flatMap countLine) c w
    rw [List.flatMap_cons, Sources.reads_of_some (S := sources) hnext, Sources.states, List.map_cons,
      ih fun r' h' => hfits r' (List.mem_cons_of_mem _ h')]
    rfl

end Source

theorem merge_ends (countFiles : List Bytes) : ∃ out, Merge countFiles out := Sources.exists_run ..

/-- The lines of all files are written, in order if each file was in order. -/
theorem merge_lines {files : List (List (ℤ × Bytes))} (hfits : ∀ records ∈ files, ∀ r ∈ records, Fits r.2 r.1)
    {out : Bytes} (h : Merge (files.map fun records => records.flatMap countLine) out) :
    ∃ records, out = records.flatMap countLine ∧ records.Perm files.flatten ∧
      ((∀ records ∈ files, Descending records) → Descending records) := by
  have hreads : ∀ records ∈ files,
      (Source.sources.reads (Source.new (records.flatMap countLine))).map Source.entry = records :=
    fun records hrecords => Source.map_reads (hfits records hrecords) 0 []
  rw [Merge, List.map_map] at h
  obtain ⟨popped, hperm, rfl, hsorted⟩ := Sources.popped_of_opened hreads h
  rw [List.flatMap_id'] at hperm
  refine ⟨popped.map Source.entry, ?_, hperm, ?_⟩
  · rw [List.flatMap_map, List.flatMap_eq_foldl]
    rfl
  · intro hfiles
    refine List.pairwise_map.2 (hsorted fun records hrecords => ?_)
    have hdescending := hfiles records hrecords
    rw [← hreads records hrecords] at hdescending
    exact List.pairwise_map.1 hdescending

/-! ## The output -/

/-- Each word once with its number of occurrences, in non-increasing order of these. -/
structure Frequencies (words : List Bytes) (records : List (ℤ × Bytes)) : Prop where
  perm : records.Perm (words.dedup.map fun word => ((words.count word : ℤ), word))
  descending : Descending records

section Output

variable {maps : List (SortedMap Bytes ℤ)} {words : List Bytes}

/-- A word fits in a line as often as it occurs. -/
theorem fits_of_mem {records : List (Bytes × ℤ)} (hcounts : Tally.Counts records words)
    (hwords : ∀ word ∈ words, IsWord word) (hlt : ∀ word, words.count word < 2 ^ 63) :
    ∀ r ∈ records, Fits r.1 r.2 := by
  intro r hr
  refine ⟨hwords _ (hcounts.mem hr), hcounts.positive r hr, ?_⟩
  have hle := hcounts.le_count hr
  have hless := hlt r.1
  omega

theorem exists_countFiles (maps : List (SortedMap Bytes ℤ)) :
    ∃ countFiles, List.Forall₂ CountFile maps countFiles := by
  induction maps with
  | nil => exact ⟨[], .nil⟩
  | cons counts maps ih =>
    obtain ⟨countFiles, hfiles⟩ := ih
    exact ⟨_, .cons ⟨counts.entries, .refl _, rfl⟩ hfiles⟩

/-- The count files have the records of the maps in order. -/
theorem countFiles_eq {countFiles : List Bytes} (h : List.Forall₂ CountFile maps countFiles) :
    ∃ files : List (List (ℤ × Bytes)), countFiles = files.map (fun records => records.flatMap countLine) ∧
      files.flatten.Perm ((maps.flatMap SortedMap.entries).map fun entry => (entry.2, entry.1)) ∧
      ∀ records ∈ files, Descending records := by
  induction h with
  | nil => exact ⟨[], rfl, .refl _, fun _ h => absurd h List.not_mem_nil⟩
  | @cons counts file maps countFiles hfile _ ih =>
    obtain ⟨entries, horder, rfl⟩ := hfile
    obtain ⟨files, rfl, hperm, hdescending⟩ := ih
    refine ⟨frequencies entries :: files, rfl, ?_, ?_⟩
    · rw [List.flatten_cons, List.flatMap_cons, List.map_append]
      exact ((frequencies_perm entries).trans (horder.map _)).append hperm
    · intro records hrecords
      rcases List.mem_cons.1 hrecords with rfl | hrecords
      · exact frequencies_descending entries
      · exact hdescending records hrecords

/-- Maps in which each word is counted once are written and merged to the frequencies of the words. -/
theorem merge_counts (hcounts : Tally.Counts (maps.flatMap SortedMap.entries) words)
    (hnodup : ((maps.flatMap SortedMap.entries).map Prod.fst).Nodup) (hwords : ∀ word ∈ words, IsWord word)
    (hlt : ∀ word, words.count word < 2 ^ 63) {countFiles : List Bytes}
    (hfiles : List.Forall₂ CountFile maps countFiles)
    {out : Bytes} (hmerge : Merge countFiles out) :
    ∃ records, out = records.flatMap countLine ∧ Frequencies words records := by
  obtain ⟨files, rfl, hperm, hdescending⟩ := countFiles_eq hfiles
  have hfits : ∀ records ∈ files, ∀ r ∈ records, Fits r.2 r.1 := by
    intro records hrecords r hr
    obtain ⟨entry, hentry, rfl⟩ := List.mem_map.1 (hperm.subset (List.mem_flatten.2 ⟨records, hrecords, hr⟩))
    exact fits_of_mem hcounts hwords hlt entry hentry
  obtain ⟨records, hout, hrecords, hsorted⟩ := merge_lines hfits hmerge
  refine ⟨records, hout, ?_, hsorted hdescending⟩
  have hall := (hrecords.trans hperm).trans ((hcounts.perm_dedup hnodup).map _)
  rw [List.map_map] at hall
  exact hall

end Output

section Main

variable {hash : Bytes → ℕ} {nbuckets : ℕ} (kMaxSize : ℕ) (files : List Bytes)

theorem main_ends (hash : Bytes → ℕ) (nbuckets : ℕ) : ∃ out, Main hash kMaxSize nbuckets files out := by
  have horders : ∃ orders, List.Forall₂ Order (allBatches kMaxSize files) orders :=
    ⟨(allBatches kMaxSize files).map SortedMap.entries, by
      rw [List.forall₂_map_right_iff, List.forall₂_same]
      exact fun counts _ => .refl _⟩
  obtain ⟨orders, horders⟩ := horders
  obtain ⟨countFiles, hfiles⟩ := exists_countFiles
    ((orders.flatten.foldl (Sharder.output hash) (List.replicate nbuckets [])).map readShard)
  obtain ⟨out, hmerge⟩ := merge_ends countFiles
  exact ⟨out, _, countFiles, ⟨orders, horders, rfl⟩, hfiles, hmerge⟩

theorem flatten_perm_of_orders {maps : List (SortedMap Bytes ℤ)} {orders : List (List (Bytes × ℤ))}
    (h : List.Forall₂ Order maps orders) : orders.flatten.Perm (maps.flatMap SortedMap.entries) := by
  induction h with
  | nil => exact .refl _
  | cons horder _ ih => exact List.Perm.append horder ih

variable {kMaxSize files}

theorem main_frequencies (hnbuckets : 0 < nbuckets) (hlt : ∀ word, (allWords files).count word < 2 ^ 63) {out : Bytes}
    (h : Main hash kMaxSize nbuckets files out) :
    ∃ records, out = records.flatMap countLine ∧ Frequencies (allWords files) records := by
  obtain ⟨shards, countFiles, ⟨orders, horders, rfl⟩, hfiles, hmerge⟩ := h
  have hwords : ∀ word ∈ allWords files, IsWord word := fun word hword => isWord_of_mem_allWords hword
  have hcounts := (allBatches_counts kMaxSize files).perm (flatten_perm_of_orders horders) (.refl _)
  rw [SortShareds, readShards_eq (fits_of_mem hcounts hwords hlt)] at hfiles
  exact merge_counts (hcounts.buckets fun word => Nat.mod_lt _ hnbuckets) hcounts.nodup_buckets
    hwords hlt hfiles hmerge

end Main

end Shareds

end MapReduce
