import SwissArmyKnife.RedisDb.TableFaults

/-!
# The layout of tables

What a table file is, as a function of the pairs: the pairs are cut into blocks where the contents of a block reach
the block size, each block is stored with its type and its checksum, and the index has for each block a key between it
and the next one.  A builder whose calls succeed writes this file (`build_tableBytes`).
-/

namespace RedisDb.TableBuilder

variable {options : Options}

section Layout

variable (options)

/-! ### The parts of a table -/

/-- A block as it is in the file. -/
def stored (raw : Slice) : Slice :=
  (compress options raw).1 ++ trailer (compress options raw).1 (compress options raw).2

/-- The contents of a data block. -/
def rawBlock (pairs : List (Slice × Slice)) : Slice :=
  (BlockBuilder.build options.comparator.Compare options.blockrestartinterval pairs).getD []

/-- The pairs of the blocks, from a block on that is begun with `cur`. -/
def cut : List (Slice × Slice) → List (Slice × Slice) → List (List (Slice × Slice))
  | cur, [] => if cur = [] then [] else [cur]
  | cur, e :: l =>
    if options.blocksize ≤ (rawBlock options (cur ++ [e])).length then
      (cur ++ [e]) :: cut [] l else cut (cur ++ [e]) l

/-- A data block with its place in the file and its key in the index. -/
structure DataBlock where
  pairs : List (Slice × Slice)
  offset : ℕ
  separator : Slice

def firstKey (pairs : List (Slice × Slice)) : Option Slice := pairs.head?.map Prod.fst

def lastKey (pairs : List (Slice × Slice)) : Slice := (pairs.getLast?.map Prod.fst).getD []

/-- The key in the index for a block with this last key. -/
def separatorBefore (lastkey : Slice) : Option Slice → Slice
  | some key => options.comparator.FindShortestSeparator lastkey key
  | none => options.comparator.FindShortSuccessor lastkey

/-- The first key after a block. -/
def nextKey (next : Option Slice) : List (List (Slice × Slice)) → Option Slice
  | [] => next
  | pairs :: _ => firstKey pairs

/-- The blocks from an offset on, when the key `next` comes after them. -/
def place (next : Option Slice) : ℕ → List (List (Slice × Slice)) → List DataBlock
  | _, [] => []
  | offset, pairs :: rest => ⟨pairs, offset, separatorBefore options (lastKey pairs) (nextKey next rest)⟩ ::
      place next (offset + (stored options (rawBlock options pairs)).length) rest

def handleBytes (offset : ℕ) (raw : Slice) : Slice :=
  EncodeVarint64 (UInt64.ofNat offset) ++ EncodeVarint64 (UInt64.ofNat (compress options raw).1.length)

namespace DataBlock

def handle (b : DataBlock) : Slice := handleBytes options b.offset (rawBlock options b.pairs)

def entry (b : DataBlock) : Slice × Slice := (b.separator, b.handle options)

end DataBlock

def dataBytes (blocks : List (List (Slice × Slice))) : Slice :=
  blocks.flatMap fun pairs => stored options (rawBlock options pairs)

/-- The data blocks of the table with these pairs. -/
def blocksOf (l : List (Slice × Slice)) : List DataBlock := place options none 0 (cut options [] l)

/-- The contents of the index block. -/
def rawIndex (blocks : List DataBlock) : Slice :=
  (BlockBuilder.build options.comparator.Compare 1 (blocks.map (DataBlock.entry options))).getD []

/-- The contents of the metaindex block. -/
def rawMetaindex : Slice := BlockBuilder.new.Finish.2

/-- The end of the file, when the metaindex block is at the offset. -/
def footerBytes (offset : ℕ) (index : Slice) : Slice :=
  let handles := handleBytes options offset rawMetaindex ++
    handleBytes options (offset + (stored options rawMetaindex).length) index
  handles.take 40 ++ (List.replicate (40 - handles.length) 0 : Slice) ++
    EncodeFixed32 (kTableMagicNumber &&& 0xffffffff).toUInt32 ++ EncodeFixed32 (kTableMagicNumber >>> 32).toUInt32

/-- The file of the table with these data blocks. -/
def tableBytes (blocks : List (List (Slice × Slice))) : Slice :=
  dataBytes options blocks ++
    (stored options rawMetaindex ++ (stored options (rawIndex options (place options none 0 blocks)) ++
    footerBytes options (dataBytes options blocks).length (rawIndex options (place options none 0 blocks))))

end Layout

/-! ### Placing blocks -/

theorem flatten_cut (cur l : List (Slice × Slice)) : (cut options cur l).flatten = cur ++ l := by
  induction l generalizing cur with
  | nil =>
    rw [cut]
    split
    · simp [*]
    · simp
  | cons e l ih =>
    rw [cut]
    split
    · rw [List.flatten_cons, ih]
      simp
    · rw [ih]
      simp

variable (options) in
theorem ne_nil_of_mem_cut (cur l : List (Slice × Slice)) : ∀ pairs ∈ cut options cur l, pairs ≠ [] := by
  induction l generalizing cur with
  | nil =>
    intro pairs hpairs
    rw [cut] at hpairs
    split at hpairs
    · cases hpairs
    · rw [List.mem_singleton.1 hpairs]
      assumption
  | cons e l ih =>
    intro pairs hpairs
    rw [cut] at hpairs
    split at hpairs
    · rcases List.mem_cons.1 hpairs with rfl | hpairs
      · simp
      · exact ih [] pairs hpairs
    · exact ih _ pairs hpairs

variable (options) in
theorem length_stored (raw : Slice) :
    (stored options raw).length = (compress options raw).1.length + kBlockTrailerSize := by
  rw [stored, List.length_append]
  rfl

theorem place_append (next : Option Slice) (offset : ℕ) (blocks : List (List (Slice × Slice)))
    (pairs : List (Slice × Slice)) :
    place options next offset (blocks ++ [pairs]) = place options (firstKey pairs) offset blocks ++
      [⟨pairs, offset + (dataBytes options blocks).length, separatorBefore options (lastKey pairs) next⟩] := by
  induction blocks generalizing offset with
  | nil => rfl
  | cons b blocks ih =>
    have hnext : nextKey next (blocks ++ [pairs]) = nextKey (firstKey pairs) blocks := by cases blocks <;> rfl
    rw [List.cons_append, place, place, ih, hnext, List.cons_append]
    have hlength : (dataBytes options (b :: blocks)).length =
        (stored options (rawBlock options b)).length + (dataBytes options blocks).length := by
      rw [dataBytes, List.flatMap_cons, List.length_append, dataBytes]
    rw [hlength, Nat.add_assoc]

theorem pairs_place (next : Option Slice) (offset : ℕ) (blocks : List (List (Slice × Slice))) :
    (place options next offset blocks).map DataBlock.pairs = blocks := by
  induction blocks generalizing offset with
  | nil => rfl
  | cons b blocks ih => rw [place, List.map_cons, ih]

/-- Where a block is in the data. -/
theorem exists_of_mem_place {next : Option Slice} {offset : ℕ} {blocks : List (List (Slice × Slice))} {b : DataBlock}
    (hb : b ∈ place options next offset blocks) : ∃ front back,
      dataBytes options blocks = front ++ (stored options (rawBlock options b.pairs) ++ back) ∧
        offset + front.length = b.offset := by
  induction blocks generalizing offset with
  | nil => cases hb
  | cons pairs blocks ih =>
    have hcons : dataBytes options (pairs :: blocks) = stored options (rawBlock options pairs) ++
        dataBytes options blocks :=
      List.flatMap_cons
    rcases List.mem_cons.1 hb with rfl | hb
    · exact ⟨[], dataBytes options blocks, hcons, rfl⟩
    · obtain ⟨front, back, heq, hoffset⟩ := ih hb
      refine ⟨stored options (rawBlock options pairs) ++ front, back, by rw [hcons, heq, List.append_assoc], ?_⟩
      rw [List.length_append]
      omega

theorem le_offset_of_mem_place {next : Option Slice} {offset : ℕ}
    {blocks : List (List (Slice × Slice))} {b : DataBlock}
    (hb : b ∈ place options next offset blocks) : offset ≤ b.offset := by
  obtain ⟨front, -, -, hoffset⟩ := exists_of_mem_place hb
  omega

variable (options) in
/-- The blocks are one after the other. -/
theorem pairwise_offset (next : Option Slice) (offset : ℕ) (blocks : List (List (Slice × Slice))) :
    (place options next offset blocks).Pairwise fun b b' => b.offset < b'.offset := by
  induction blocks generalizing offset with
  | nil => exact List.Pairwise.nil
  | cons pairs blocks ih =>
    refine List.Pairwise.cons (fun b hb => ?_) (ih _)
    have hle := le_offset_of_mem_place hb
    rw [length_stored, kBlockTrailerSize] at hle
    show offset < b.offset
    omega

/-! ### The keys of the index -/

theorem exists_lastKey {pairs : List (Slice × Slice)} (h : pairs ≠ []) :
    ∃ front e, pairs = front ++ [e] ∧ lastKey pairs = e.1 := by
  obtain ⟨front, e, rfl⟩ := (List.eq_nil_or_concat' pairs).resolve_left h
  exact ⟨front, e, rfl, by simp [lastKey]⟩

section Keys

variable (hlawful : options.comparator.Lawful)

include hlawful

theorem le_lastKey {pairs : List (Slice × Slice)} (h : Cursor.Increasing options.comparator.Compare pairs) :
    ∀ e ∈ pairs, (options.comparator.Compare e.1 (lastKey pairs)).isLE := by
  have := hlawful.trans
  intro e he
  obtain ⟨front, a, rfl, hlast⟩ := exists_lastKey (List.ne_nil_of_mem he)
  rw [hlast]
  rcases List.mem_append.1 he with he | he
  · rw [(List.pairwise_append.1 h).2.2 e he a (List.mem_singleton_self a)]
    rfl
  · rw [List.mem_singleton.1 he]
    exact Std.ReflCmp.isLE_rfl

/-- The key in the index is not before the keys of the block, and before the next key. -/
theorem separatorBefore_spec {pairs : List (Slice × Slice)} {next : Option Slice}
    (hinc : Cursor.Increasing options.comparator.Compare pairs)
    (hnext : ∀ key, next = some key → options.comparator.Compare (lastKey pairs) key = .lt) :
    (∀ e ∈ pairs, (options.comparator.Compare e.1 (separatorBefore options (lastKey pairs) next)).isLE) ∧
      ∀ key, next = some key →
      options.comparator.Compare (separatorBefore options (lastKey pairs) next) key = .lt := by
  have := hlawful.trans
  have hle : (options.comparator.Compare (lastKey pairs) (separatorBefore options (lastKey pairs) next)).isLE := by
    cases next with
    | none => exact hlawful.le_successor _
    | some key => exact hlawful.le_separator _ _ (hnext key rfl)
  refine ⟨fun e he => Std.TransCmp.isLE_trans (le_lastKey hlawful hinc e he) hle, ?_⟩
  rintro key rfl
  exact hlawful.separator_lt _ _ (hnext key rfl)

omit hlawful in
/-- The next key is the first of the keys to come. -/
theorem nextKey_cases (next : Option Slice) {blocks : List (List (Slice × Slice))}
    (hne : ∀ pairs ∈ blocks, pairs ≠ []) :
    blocks = [] ∧ nextKey next blocks = next ∨
      ∃ e l, blocks.flatten = e :: l ∧ nextKey next blocks = some e.1 := by
  rcases blocks with _ | ⟨_ | ⟨e, pairs⟩, blocks⟩
  · exact .inl ⟨rfl, rfl⟩
  · exact absurd rfl (hne [] (List.mem_cons_self ..))
  · exact .inr ⟨e, pairs ++ blocks.flatten, rfl, rfl⟩

/-- What the index relies on. -/
theorem place_separates (next : Option Slice) (offset : ℕ) {blocks : List (List (Slice × Slice))}
    (hne : ∀ pairs ∈ blocks, pairs ≠ []) (hinc : Cursor.Increasing options.comparator.Compare blocks.flatten)
    (hnext : ∀ key, next = some key → ∀ e ∈ blocks.flatten, options.comparator.Compare e.1 key = .lt) :
    (∀ b ∈ place options next offset blocks, ∀ e ∈ b.pairs, (options.comparator.Compare e.1 b.separator).isLE) ∧
      ((place options next offset blocks).Pairwise fun b b' =>
        ∀ e ∈ b'.pairs, options.comparator.Compare b.separator e.1 = .lt) ∧
      ∀ key, next = some key → ∀ b ∈ place options next offset blocks,
        options.comparator.Compare b.separator key = .lt := by
  have := hlawful.trans
  induction blocks generalizing offset with
  | nil => exact ⟨by simp [place], List.Pairwise.nil, by simp [place]⟩
  | cons pairs blocks ih =>
    rw [List.flatten_cons] at hinc hnext
    obtain ⟨hpairs, hrest, hcross⟩ := List.pairwise_append.1 hinc
    have hne' : ∀ p ∈ blocks, p ≠ [] := fun p hp => hne p (List.mem_cons_of_mem _ hp)
    obtain ⟨hown, hbelow, hkey⟩ := ih (offset + (stored options (rawBlock options pairs)).length) hne' hrest
      fun key hk e he => hnext key hk e (List.mem_append_right _ he)
    obtain ⟨front, a, hsplit, hlast⟩ := exists_lastKey (hne pairs (List.mem_cons_self ..))
    have ha : a ∈ pairs := by rw [hsplit]; simp
    have hafter : ∀ key, nextKey next blocks = some key → options.comparator.Compare (lastKey pairs) key = .lt := by
      intro key hk
      rw [hlast]
      rcases nextKey_cases next hne' with ⟨-, heq⟩ | ⟨e, l, hflat, heq⟩
      · exact hnext key (heq.symm.trans hk) a (List.mem_append_left _ ha)
      · obtain rfl := Option.some.inj (heq.symm.trans hk)
        exact hcross a ha e (hflat ▸ List.mem_cons_self ..)
    obtain ⟨hle, hlt⟩ := separatorBefore_spec hlawful hpairs hafter
    -- the keys to come are not before the next key
    have hcome : ∀ e ∈ blocks.flatten,
        options.comparator.Compare (separatorBefore options (lastKey pairs) (nextKey next blocks)) e.1 = .lt := by
      intro e he
      rcases nextKey_cases next hne' with ⟨rfl, -⟩ | ⟨e₀, l, hflat, heq⟩
      · cases he
      · rw [hflat] at he hrest
        rcases List.mem_cons.1 he with rfl | he
        · exact hlt _ heq
        · exact Std.TransCmp.lt_trans (hlt _ heq) ((List.pairwise_cons.1 hrest).1 e he)
    refine ⟨List.forall_mem_cons.2 ⟨hle, hown⟩, List.Pairwise.cons (fun b hb e he => hcome e ?_) hbelow,
      fun key hk => List.forall_mem_cons.2 ⟨?_, hkey key hk⟩⟩
    · have hmem := List.mem_map_of_mem (f := DataBlock.pairs) hb
      rw [pairs_place] at hmem
      exact List.mem_flatten.2 ⟨_, hmem, he⟩
    · rcases nextKey_cases next hne' with ⟨rfl, heq⟩ | ⟨e₀, l, hflat, heq⟩
      · exact hlt key hk
      · refine Std.TransCmp.lt_trans (hlt _ heq) (hnext key hk e₀ (List.mem_append_right _ ?_))
        rw [hflat]
        exact List.mem_cons_self ..

/-- The keys of the index increase. -/
theorem increasing_index {next : Option Slice} (offset : ℕ) {blocks : List (List (Slice × Slice))}
    (hne : ∀ pairs ∈ blocks, pairs ≠ []) (hinc : Cursor.Increasing options.comparator.Compare blocks.flatten)
    (hnext : ∀ key, next = some key → ∀ e ∈ blocks.flatten, options.comparator.Compare e.1 key = .lt) :
    Cursor.Increasing options.comparator.Compare
      ((place options next offset blocks).map (DataBlock.entry options)) := by
  have := hlawful.trans
  obtain ⟨hown, hbelow, -⟩ := place_separates hlawful next offset hne hinc hnext
  refine List.pairwise_map.2 (hbelow.imp_of_mem fun {b b'} _ hb' hlt => ?_)
  have hmem := List.mem_map_of_mem (f := DataBlock.pairs) hb'
  rw [pairs_place] at hmem
  obtain ⟨e, he⟩ := List.exists_mem_of_ne_nil _ (hne _ hmem)
  exact Std.TransCmp.lt_of_lt_of_isLE (hlt e he) (hown b' hb' e he)

end Keys

/-! ### Calls that succeed -/

theorem exists_add {cmp : Slice → Slice → Ordering} [Std.OrientedCmp cmp] {interval : ℕ} (hinterval : 1 ≤ interval)
    {l : List (Slice × Slice)} {b : BlockBuilder} (hb : BlockBuilder.new.addAll cmp interval l = some b)
    {e : Slice × Slice}
    (hl : Cursor.Increasing cmp (l ++ [e])) :
    ∃ b', b.Add cmp interval e.1 e.2 = some b' ∧ BlockBuilder.new.addAll cmp interval (l ++ [e]) = some b' := by
  obtain ⟨b', -, -, hadd, -⟩ := BlockBuilder.exists_built hinterval hl
  refine ⟨b', ?_, hadd⟩
  rw [BlockBuilder.addAll] at hb
  rw [BlockBuilder.addAll, List.foldlM_append, hb] at hadd
  simpa using hadd

theorem length_finish (b : BlockBuilder) : b.Finish.2.length = b.CurrentSizeEstimate := by
  have hrestarts : (b.restarts.map EncodeFixed32).flatten.length = b.restarts.length * 4 := by
    induction b.restarts with
    | nil => rfl
    | cons r l ih =>
      rw [List.map_cons, List.flatten_cons, List.length_append, ih, length_encodeFixed32, List.length_cons]
      omega
  rw [BlockBuilder.Finish, BlockBuilder.CurrentSizeEstimate, List.length_append, List.length_append, hrestarts,
    length_encodeFixed32]

theorem append_eq {f : WritableFile} (h : f.results = []) (data : Slice) :
    f.append data = ({ f with contents := f.contents ++ data, buffered := f.buffered + data.length }, .OK) := by
  obtain ⟨contents, buffered, results, lost⟩ := f
  obtain rfl : results = [] := h
  rfl

variable (options) in
theorem writeBlock_eq {t : TableBuilder} (h : t.file.results = []) (block : BlockBuilder) : ∃ file : WritableFile,
    file.results = [] ∧ file.contents = t.file.contents ++ stored options block.Finish.2 ∧
      t.WriteBlock options block = ({ t with
        file := file
        status := .OK
        offset := t.offset + (stored options block.Finish.2).length },
        .new, ⟨some t.offset, some (compress options block.Finish.2).1.length⟩) := by
  rw [WriteBlock]
  simp only [WriteRawBlock, append_eq h, Status.ok_OK, if_true]
  rw [append_eq (by exact h)]
  simp only [Status.ok_OK, if_true]
  refine ⟨⟨t.file.contents ++ (compress options block.Finish.2).1 ++
    trailer (compress options block.Finish.2).1 (compress options block.Finish.2).2, _, _, _⟩, h, ?_,
    by rw [length_stored]; rfl⟩
  rw [stored, ← List.append_assoc]

/-! ### The state between two calls -/

/-- The blocks `done` have been written, and the data block holds the pairs `cur`. -/
structure Building (options : Options) (t : TableBuilder) (done : List (List (Slice × Slice)))
    (cur : List (Slice × Slice)) : Prop where
  closed : t.closed = false
  status : t.status = .OK
  results : t.file.results = []
  contents : t.file.contents = dataBytes options done
  offset : t.offset = (dataBytes options done).length
  data : BlockBuilder.new.addAll options.comparator.Compare options.blockrestartinterval cur = some t.datablock
  /-- The entry of the last block comes with the next key. -/
  index : BlockBuilder.new.addAll options.comparator.Compare 1 (if cur = [] then
      ((place options none 0 done).map (DataBlock.entry options)).dropLast
    else (place options (firstKey cur) 0 done).map (DataBlock.entry options)) = some t.indexblock
  pending : t.pendingindexentry = true ↔ cur = [] ∧ done ≠ []
  handle : t.pendingindexentry = true → ∀ b ∈ (place options none 0 done).getLast?,
    t.blockhandle.EncodeTo = some (b.handle options)
  lastkey : done.flatten ++ cur ≠ [] → t.lastkey = lastKey (done.flatten ++ cur)
  begun : 0 < t.pendinghandle → done.flatten ++ cur ≠ []
  ne_nil : ∀ pairs ∈ done, pairs ≠ []

theorem building_new : Building options (new (.opened [] [])) [] [] :=
  ⟨rfl, rfl, rfl, rfl, rfl, rfl, rfl, by simp [new], by simp [new], fun h => absurd rfl h, by simp [new],
    by simp⟩

section Runs

variable (hlawful : options.comparator.Lawful) {t : TableBuilder} {done : List (List (Slice × Slice))}
  {cur : List (Slice × Slice)}

theorem lastKey_append {l l' : List (Slice × Slice)} (h : l' ≠ []) : lastKey (l ++ l') = lastKey l' := by
  rw [lastKey, lastKey, List.getLast?_append_of_ne_nil _ h]

include hlawful

/-- The index takes the entry of the last block. -/
theorem Building.addIndexEntry (h : Building options t done []) (hdone : done ≠ [])
    (hinc : Cursor.Increasing options.comparator.Compare done.flatten) (next : Option Slice)
    (hnext : ∀ key, next = some key → ∀ e ∈ done.flatten, options.comparator.Compare e.1 key = .lt) : ∃ indexblock,
      t.addIndexEntry options (separatorBefore options t.lastkey next) = some { t with
        lastkey := separatorBefore options t.lastkey next
        indexblock := indexblock
        pendingindexentry := false } ∧
      BlockBuilder.new.addAll options.comparator.Compare 1
        ((place options next 0 done).map (DataBlock.entry options)) =
        some indexblock := by
  have := hlawful.trans
  have hincreasing := increasing_index hlawful 0 h.ne_nil hinc hnext
  obtain ⟨front, pairs, rfl⟩ := (List.eq_nil_or_concat' done).resolve_left hdone
  have hpairs : pairs ≠ [] := h.ne_nil pairs (by simp)
  have hlastkey : t.lastkey = lastKey pairs := by
    rw [h.lastkey (by simp [hpairs]), List.append_nil, List.flatten_append,
      List.flatten_singleton, lastKey_append hpairs]
  have hindex := h.index
  have hhandle := h.handle (h.pending.2 ⟨rfl, hdone⟩)
  rw [place_append] at hindex hhandle hincreasing
  rw [if_pos rfl, List.map_append, List.map_singleton, List.dropLast_concat] at hindex
  rw [List.map_append, List.map_singleton] at hincreasing
  have hencode := hhandle _ (List.getLast?_concat ..)
  obtain ⟨indexblock, hadd, hall⟩ := exists_add (Nat.le_refl 1) hindex hincreasing
  refine ⟨indexblock, ?_, by rw [place_append, List.map_append, List.map_singleton, hall]⟩
  have hadd' : t.indexblock.Add options.comparator.Compare 1 (separatorBefore options (lastKey pairs) next)
      ((⟨pairs, 0 + (dataBytes options front).length, separatorBefore options (lastKey pairs) none⟩ :
        DataBlock).handle
        options) = some indexblock := hadd
  rw [TableBuilder.addIndexEntry, hencode, hlastkey]
  simp only [Option.bind_eq_bind, Option.bind_some, hadd']
  rfl

theorem Building.addSeparator (h : Building options t done cur) {e : Slice × Slice}
    (hinc : Cursor.Increasing options.comparator.Compare (done.flatten ++ (cur ++ [e]))) : ∃ lastkey indexblock,
      t.addSeparator options e.1 = some { t with
        lastkey := lastkey
        indexblock := indexblock
        pendingindexentry := false } ∧
      BlockBuilder.new.addAll options.comparator.Compare 1
        ((place options (firstKey (cur ++ [e])) 0 done).map (DataBlock.entry options)) = some indexblock := by
  obtain ⟨hdone, -, hcross⟩ := List.pairwise_append.1 hinc
  rw [TableBuilder.addSeparator]
  by_cases hpending : t.pendingindexentry = true
  · obtain ⟨rfl, hne⟩ := h.pending.1 hpending
    have hempty : t.datablock.empty = true := by
      rw [← Option.some.inj h.data]
      rfl
    have hnext : ∀ key, some e.1 = some key → ∀ a ∈ done.flatten, options.comparator.Compare a.1 key = .lt := by
      intro key hk a ha
      rw [← Option.some.inj hk]
      exact hcross a ha e (List.mem_singleton_self e)
    have hlastkey : t.lastkey = lastKey done.flatten := by
      have hflat : done.flatten ++ [] ≠ [] := by
        obtain ⟨pairs, hpairs⟩ := List.exists_mem_of_ne_nil _ hne
        obtain ⟨a, ha⟩ := List.exists_mem_of_ne_nil _ (h.ne_nil pairs hpairs)
        rw [List.append_nil]
        exact List.ne_nil_of_mem (List.mem_flatten.2 ⟨pairs, hpairs, ha⟩)
      rw [h.lastkey hflat, List.append_nil]
    obtain ⟨indexblock, hadd, hall⟩ := h.addIndexEntry hlawful hne hdone _ hnext
    rw [if_pos hpending, if_pos hempty]
    exact ⟨_, indexblock, hadd, hall⟩
  · rw [if_neg hpending]
    have hindex := h.index
    refine ⟨t.lastkey, t.indexblock, ?_, ?_⟩
    · rw [← show t.pendingindexentry = false by simpa using hpending]
    · cases hcur : cur with
      | nil =>
        have hnil : done = [] := by
          by_contra hne
          exact hpending (h.pending.2 ⟨hcur, hne⟩)
        rw [hcur, hnil] at hindex
        rw [hnil]
        exact hindex
      | cons a cur' =>
        rw [hcur, if_neg (List.cons_ne_nil _ _)] at hindex
        exact hindex

omit hlawful in
theorem Building.rawBlock_eq (h : Building options t done cur) : rawBlock options cur = t.datablock.Finish.2 := by
  rw [rawBlock, BlockBuilder.build, h.data]
  rfl

theorem Building.addEntry (hinterval : 1 ≤ options.blockrestartinterval) (h : Building options t done cur)
    {e : Slice × Slice} (hinc : Cursor.Increasing options.comparator.Compare (done.flatten ++ (cur ++ [e]))) :
    ∃ t', t.addEntry options e.1 e.2 = some t' ∧ Building options t' done (cur ++ [e]) := by
  have := hlawful.trans
  have hcur := (List.pairwise_append.1 hinc).2.1
  have hassert : ¬ (0 < t.pendinghandle ∧ options.comparator.Compare e.1 t.lastkey ≠ .gt) := by
    rintro ⟨hbegun, hgt⟩
    obtain ⟨front, a, hsplit, hlast⟩ := exists_lastKey (h.begun hbegun)
    rw [← List.append_assoc, hsplit] at hinc
    rw [h.lastkey (h.begun hbegun), hlast] at hgt
    exact hgt (Std.OrientedCmp.gt_of_lt ((List.pairwise_append.1 hinc).2.2 a (by simp) e (List.mem_singleton_self e)))
  obtain ⟨lastkey, indexblock, hseparator, hindex⟩ := h.addSeparator hlawful hinc
  obtain ⟨datablock, hadd, hall⟩ := exists_add hinterval h.data hcur
  refine ⟨{ t with
    lastkey := e.1
    indexblock := indexblock
    pendingindexentry := false
    pendinghandle := t.pendinghandle + 1
    datablock := datablock }, ?_, ?_⟩
  · rw [TableBuilder.addEntry, if_neg hassert, hseparator]
    simp only [Option.bind_eq_bind, Option.bind_some, hadd]
    rfl
  · have hne : cur ++ [e] ≠ [] := by simp
    exact
      { closed := h.closed
        status := h.status
        results := h.results
        contents := h.contents
        offset := h.offset
        data := hall
        index := by rw [if_neg hne]; exact hindex
        pending := by simp
        handle := by simp
        lastkey := fun _ => by
          rw [lastKey_append hne, lastKey_append (List.cons_ne_nil _ _)]
          rfl
        begun := fun _ => by simp
        ne_nil := h.ne_nil }

omit hlawful in
theorem Building.flush (h : Building options t done cur) (hcur : cur ≠ []) :
    ∃ t', t.flush options = some t' ∧ Building options t' (done ++ [cur]) [] := by
  have hclosed : ¬ t.closed = true := by simp [h.closed]
  have hpending : ¬ t.pendingindexentry = true := fun hpending => hcur (h.pending.1 hpending).1
  have hempty : ¬ t.datablock.empty = true := by
    obtain ⟨front, e, rfl⟩ := (List.eq_nil_or_concat' cur).resolve_left hcur
    have hdata := h.data
    rw [BlockBuilder.addAll, List.foldlM_append, Option.bind_eq_bind, Option.bind_eq_some_iff] at hdata
    obtain ⟨b, -, hadd⟩ := hdata
    have hadd' : b.Add options.comparator.Compare options.blockrestartinterval e.1 e.2 = some t.datablock := by
      simpa using hadd
    simp [not_empty_add hadd']
  obtain ⟨file, hresults, hcontents, hwrite⟩ := writeBlock_eq options h.results t.datablock
  rw [← h.rawBlock_eq] at hcontents hwrite
  have hdata : dataBytes options (done ++ [cur]) = dataBytes options done ++
      stored options (rawBlock options cur) := by
    rw [dataBytes, List.flatMap_append, List.flatMap_singleton, dataBytes]
  obtain ⟨contents, buffered, results, lost⟩ := file
  obtain rfl : results = [] := hresults
  have hplace := @place_append options none 0 done cur
  rw [Nat.zero_add, ← h.offset] at hplace
  refine ⟨_, flush_eq hclosed hempty hpending hwrite rfl, ?_⟩
  exact
    { closed := h.closed
      status := rfl
      results := rfl
      contents := by
        rw [hdata, ← h.contents]
        exact hcontents
      offset := by
        rw [hdata, List.length_append, ← h.offset]
      data := rfl
      index := by
        have hindex := h.index
        rw [if_neg hcur] at hindex
        rw [if_pos rfl, hplace, List.map_append, List.map_singleton, List.dropLast_concat]
        exact hindex
      pending := by simp
      handle := by
        intro _ b hb
        rw [hplace, List.getLast?_concat] at hb
        obtain rfl := Option.some.inj hb
        rfl
      lastkey := by
        intro _
        rw [List.flatten_append, List.flatten_singleton, List.append_nil]
        exact h.lastkey (by simp [hcur])
      begun := fun _ => by simp [hcur]
      ne_nil := by
        intro pairs hpairs
        rcases List.mem_append.1 hpairs with hpairs | hpairs
        · exact h.ne_nil pairs hpairs
        · rw [List.mem_singleton.1 hpairs]
          exact hcur }

theorem Building.add (hinterval : 1 ≤ options.blockrestartinterval) (h : Building options t done cur)
    {e : Slice × Slice} (hinc : Cursor.Increasing options.comparator.Compare (done.flatten ++ (cur ++ [e]))) :
    ∃ t', t.Add options e.1 e.2 = some t' ∧
      if options.blocksize ≤ (rawBlock options (cur ++ [e])).length then Building options t' (done ++ [cur ++ [e]]) []
      else Building options t' done (cur ++ [e]) := by
  obtain ⟨t₁, hentry, h₁⟩ := h.addEntry hlawful hinterval hinc
  rw [Add, if_neg (show ¬ t.closed = true by simp [h.closed]), if_pos (show t.status.ok = true by rw [h.status]; rfl),
    hentry]
  simp only [Option.bind_eq_bind, Option.bind_some]
  rw [h₁.rawBlock_eq, length_finish]
  split
  · exact h₁.flush (by simp)
  · exact ⟨t₁, rfl, h₁⟩

/-! ### The end of a table -/

/-- The index has the entries of all blocks when it is written. -/
theorem Building.writeIndex (h : Building options t done [])
    (hinc : Cursor.Increasing options.comparator.Compare done.flatten) {u : TableBuilder}
    (hu : ∃ file offset, u = { t with
      closed := true
      file := file
      offset := offset }) (hresults : u.file.results = []) : ∃ i, u.writeIndex options = some i ∧
      i.1.status = .OK ∧ i.1.file.results = [] ∧
      i.1.file.contents = u.file.contents ++ stored options (rawIndex options (place options none 0 done)) ∧
      i.2 = ⟨some u.offset, some (compress options (rawIndex options (place options none 0 done))).1.length⟩ := by
  have hok : u.status.ok = true := by
    obtain ⟨file, offset, rfl⟩ := hu
    show t.status.ok = true
    rw [h.status]
    rfl
  obtain ⟨v, hv, hfile, hoffset, hindex⟩ : ∃ v, u.addSuccessor options = some v ∧ v.file = u.file ∧
      v.offset = u.offset ∧ BlockBuilder.new.addAll options.comparator.Compare 1
        ((place options none 0 done).map (DataBlock.entry options)) = some v.indexblock := by
    obtain ⟨file, offset, rfl⟩ := hu
    rw [addSuccessor]
    by_cases hpending : t.pendingindexentry = true
    · obtain ⟨indexblock, hadd, hall⟩ := h.addIndexEntry hlawful (h.pending.1 hpending).2 hinc none (by simp)
      rw [if_pos hpending]
      refine ⟨{ t with
        closed := true
        file := file
        offset := offset
        lastkey := separatorBefore options t.lastkey none
        indexblock := indexblock
        pendingindexentry := false }, ?_, rfl, rfl, hall⟩
      rw [TableBuilder.addIndexEntry] at hadd ⊢
      simp only [Option.bind_eq_bind, Option.bind_eq_some_iff] at hadd ⊢
      obtain ⟨handle, hhandle, block, hblock, heq⟩ := hadd
      refine ⟨handle, hhandle, block, hblock, ?_⟩
      obtain rfl := congrArg TableBuilder.indexblock (Option.some.inj heq)
      rfl
    · rw [if_neg hpending]
      refine ⟨_, rfl, rfl, rfl, ?_⟩
      have hnil : done = [] := by
        by_contra hne
        exact hpending (h.pending.2 ⟨rfl, hne⟩)
      have hindex := h.index
      rw [hnil] at hindex ⊢
      exact hindex
  obtain ⟨file, hresults', hcontents, hwrite⟩ := writeBlock_eq options (by rw [hfile]; exact hresults) v.indexblock
  have hraw : rawIndex options (place options none 0 done) = v.indexblock.Finish.2 := by
    rw [rawIndex, BlockBuilder.build, hindex]
    rfl
  rw [← hraw] at hcontents hwrite
  rw [hoffset] at hwrite
  rw [hfile] at hcontents
  rw [TableBuilder.writeIndex, if_pos hok, hv]
  simp only [Option.bind_eq_bind, Option.bind_some, hwrite]
  exact ⟨_, rfl, rfl, hresults', hcontents, rfl⟩

theorem Building.writeEnd (h : Building options t done [])
    (hinc : Cursor.Increasing options.comparator.Compare done.flatten) :
    ∃ t', t.writeEnd options = some (t', .OK) ∧ t'.file.contents = tableBytes options done := by
  obtain ⟨file, hresults, hcontents, hwrite⟩ :=
    writeBlock_eq options (t := { t with closed := true }) h.results .new
  have hmeta : ({ t with closed := true } : TableBuilder).writeMetaindex options = ({ t with
      closed := true
      file := file
      offset := t.offset + (stored options rawMetaindex).length },
      ⟨some t.offset, some (compress options rawMetaindex).1.length⟩) := by
    rw [writeMetaindex, if_pos (show t.status.ok = true by rw [h.status]; rfl), hwrite, ← h.status]
    rfl
  obtain ⟨i, hindex, hstatus, hresults', hcontents', hhandle⟩ := h.writeIndex hlawful hinc ⟨_, _, rfl⟩
    (show ({ t with
      closed := true
      file := file
      offset := t.offset + (stored options rawMetaindex).length } : TableBuilder).file.results = [] from hresults)
  obtain ⟨footer, hf⟩ : ∃ footer,
      footer = footerBytes options t.offset (rawIndex options (place options none 0 done)) := ⟨_, rfl⟩
  have hfooter : (⟨⟨some t.offset, some (compress options rawMetaindex).1.length⟩, i.2⟩ : Footer).EncodeTo =
      some footer := by
    rw [hhandle, hf]
    rfl
  refine ⟨{ i.1 with
    file := { i.1.file with
      contents := i.1.file.contents ++ footer
      buffered := i.1.file.buffered + footer.length }
    status := .OK
    offset := i.1.offset + footer.length }, writeEnd_eq_some.2 ⟨i, by rw [hmeta]; exact hindex, ?_, rfl⟩, ?_⟩
  · rw [hmeta, writeFooter, if_pos (show i.1.status.ok = true by rw [hstatus]; rfl), hfooter]
    simp only [Option.bind_eq_bind, Option.bind_some, append_eq hresults']
    rfl
  · show i.1.file.contents ++ footer = _
    rw [hcontents', hf, h.offset, tableBytes]
    show file.contents ++ _ ++ _ = _
    rw [hcontents, ← h.contents, rawMetaindex]
    simp only [List.append_assoc]

theorem Building.finish (h : Building options t done cur)
    (hinc : Cursor.Increasing options.comparator.Compare (done.flatten ++ cur)) :
    ∃ t', t.Finish options = some (t', .OK) ∧ t'.file.contents = tableBytes options (done ++ cut options cur []) := by
  rw [Finish, cut]
  by_cases hcur : cur = []
  · have hflush : t.flush options = some t := by
      rw [TableBuilder.flush, if_neg (by simp [h.closed]), if_pos]
      rw [hcur] at h
      rw [← Option.some.inj h.data]
      rfl
    subst hcur
    rw [if_pos rfl, List.append_nil, hflush]
    rw [List.append_nil] at hinc
    exact h.writeEnd hlawful hinc
  · obtain ⟨t₁, hflush, h₁⟩ := h.flush hcur
    rw [if_neg hcur, hflush]
    exact h₁.writeEnd hlawful (by simpa using hinc)

theorem Building.finishAfter (hinterval : 1 ≤ options.blockrestartinterval) (h : Building options t done cur)
    {l : List (Slice × Slice)} (hinc : Cursor.Increasing options.comparator.Compare (done.flatten ++ (cur ++ l))) :
    ∃ t', t.finishAfter options l = some (t', .OK) ∧
    t'.file.contents = tableBytes options (done ++ cut options cur l) := by
  induction l generalizing t done cur with
  | nil =>
    rw [List.append_nil] at hinc
    exact h.finish hlawful hinc
  | cons e l ih =>
    have hsplit : done.flatten ++ (cur ++ e :: l) = done.flatten ++ (cur ++ [e]) ++ l := by simp
    rw [hsplit] at hinc
    obtain ⟨t₁, hadd, h₁⟩ := h.add hlawful hinterval (List.pairwise_append.1 hinc).1
    rw [TableBuilder.finishAfter, hadd, Option.bind_eq_bind, Option.bind_some, cut]
    by_cases hsize : options.blocksize ≤ (rawBlock options (cur ++ [e])).length
    · rw [if_pos hsize] at h₁ ⊢
      obtain ⟨t', hfinish, hcontents⟩ := ih h₁ (by simpa using hinc)
      exact ⟨t', hfinish, by rw [hcontents, List.append_assoc]; rfl⟩
    · rw [if_neg hsize] at h₁ ⊢
      exact ih h₁ (by simpa using hinc)

end Runs

/-- A builder whose calls succeed writes the file with the blocks into which the pairs are cut. -/
theorem build_tableBytes (hlawful : options.comparator.Lawful) (hinterval : 1 ≤ options.blockrestartinterval)
    {l : List (Slice × Slice)} (hl : Cursor.Increasing options.comparator.Compare l) :
    ∃ t, build options l [] = some (t, .OK) ∧ t.file.contents = tableBytes options (cut options [] l) :=
  Building.finishAfter hlawful hinterval building_new hl

end RedisDb.TableBuilder
