import SwissArmyKnife.RedisDb.Flush
import SwissArmyKnife.RedisDb.Separators

/-!
# What a flush keeps

`CompactMemTable` keeps the immutable memtable and its log when the database is shut down or when the manifest is not
written, and then there is no other switch of memtables.  Otherwise it drops the memtable, and the version gets a
table that shows its pairs just when `BuildTable` returns OK (`run_accounts`).
-/

namespace RedisDb

namespace WritableFile

variable {f f' : WritableFile}

theorem contents_flush (h : f.flush = (f', .OK)) : f'.contents = f.contents := by
  rw [flush] at h
  split at h
  · simp at h
  · obtain ⟨rfl, -⟩ := Prod.mk.inj h
    rfl

theorem contents_syscall (h : f.syscall = (f', .OK)) : f'.contents = f.contents := by
  rw [syscall] at h
  split at h
  · simp at h
  · obtain ⟨rfl, -⟩ := Prod.mk.inj h
    rfl

theorem contents_sync (h : f.sync = (f', .OK)) : f'.contents = f.contents := by
  rcases hflush : f.flush with ⟨g, s⟩
  simp only [sync, hflush] at h
  split at h
  · rename_i hs
    obtain rfl := Status.ok_iff.1 hs
    rw [contents_syscall h, contents_flush hflush]
  · rename_i hs
    obtain ⟨-, rfl⟩ := Prod.mk.inj h
    exact absurd rfl hs

theorem contents_close (h : f.close = (f', .OK)) : f'.contents = f.contents := by
  rcases hflush : f.flush with ⟨g, s⟩
  rcases hclose : g.syscall with ⟨g', s'⟩
  simp only [close, hflush, hclose, Prod.mk.injEq] at h
  obtain ⟨rfl, hs⟩ := h
  split at hs
  · rename_i hok
    obtain rfl := Status.ok_iff.1 hok
    obtain rfl := hs
    rw [contents_syscall hclose, contents_flush hflush]
  · rename_i hok
    obtain rfl := hs
    exact absurd rfl hok

end WritableFile

namespace Flush

open TableBuilder (dataBlocks Hides tableBytes cut)

/-- The file is opened as a table, and its iterator is where a cursor over the pairs is after any calls that are
allowed, without an error. -/
def Shows (options : Options) (fuel : ℕ) (contents : Slice) (filesize : ℕ) (l : List (Slice × Slice)) : Prop :=
  ∃ table it, Encoded.Table.Open options.table.comparator options.Snappy_Uncompress options.paranoidchecks
    (.mmap contents)
      filesize = .ok (.ok table) ∧ table.NewIterator fuel = .ok it ∧
    ∀ readOptions calls p, Cursor.run options.table.comparator.Compare l none calls = some p → ∃ s,
      (table.iterator readOptions fuel).run it calls = some s ∧ (table.iterator readOptions fuel).Looks s p ∧
        (table.iterator readOptions fuel).status s = .OK

/-- What a flush that drops a memtable has added to the version: a table with the pairs from the first key to the last
if the table was built, and else at most a number without a file. -/
def Accounts (options : Options) (fuel : ℕ) (tables : ℕ → Option Slice) (installed : List (Slice × Slice) × Bool)
    (added : List (ℕ × FileMetaData)) : Prop :=
  if installed.2 then ∃ level f contents, added = [(level, f)] ∧ installed.1.head?.map Prod.fst = some f.smallest ∧
    installed.1.getLast?.map Prod.fst = some f.largest ∧ tables f.number = some contents ∧
    Shows options fuel contents f.filesize installed.1
  else ∀ f ∈ added, tables f.2.number = none

/-- The memtable that becomes immutable. -/
def Step.switched : Step → List (List (Slice × Slice))
  | .switch mem => [mem]
  | .background _ _ _ _ => []

/-- No call on the file of a flush hides one that failed from the table builder. -/
def DB.Visible (options : Options) (db : DB) : Step → Prop
  | .switch _ => True
  | .background io _ _ _ => ∀ l ∈ db.imm, ¬ Hides (dataBlocks options.table l) io.results

/-- The memtable that a step drops, and whether its table was built. -/
def DB.installed (options : Options) (fuel : ℕ) (db : DB) : Step → Option (List (Slice × Slice) × Bool)
  | .switch _ => none
  | .background io _ manifest shutdown =>
    if db.shuttingdown ∨ db.bgerror.ok = false ∨ shutdown ∨ manifest.ok = false then none
    else db.imm.bind fun l => (BuildTable options fuel io l).map fun table => (l, table.status.ok)

/-- What is asked of the flushes of a run. -/
def DB.AllVisible (options : Options) (fuel : ℕ) : DB → List Step → Prop
  | _, [] => True
  | db, s :: steps =>
      db.Visible options s ∧ ∀ db', db.step options fuel s = some db' → AllVisible options fuel db' steps

/-- The memtables that a run drops. -/
def DB.history (options : Options) (fuel : ℕ) : DB → List Step → List (List (Slice × Slice) × Bool)
  | _, [] => []
  | db, s :: steps =>
    (db.installed options fuel s).toList ++
      ((db.step options fuel s).map fun db' => history options fuel db' steps).getD []

section Runs

variable {options : Options} (hlawful : options.table.comparator.Lawful)
  (hinterval : 1 ≤ options.table.blockrestartinterval)
  (hlossless : ∀ raw compressed, options.table.Snappy_Compress raw = some compressed →
    options.Snappy_Uncompress compressed = some raw)
  {l : List (Slice × Slice)} (hl : Cursor.Increasing options.table.comparator.Compare l)
  (hfits : TableBuilder.Fits options.table l) {fuel : ℕ} (hfuel : 2 ^ 32 ≤ fuel) {io : Outcomes}
  (hhides : ¬ Hides (dataBlocks options.table l) io.results)

include hlawful hinterval hlossless hl hfits hfuel

theorem verify_tableBytes : verify options fuel none (tableBytes options.table (cut options.table [] l))
      (tableBytes options.table (cut options.table [] l)).length = some .OK ∧
    Shows options fuel (tableBytes options.table (cut options.table [] l))
      (tableBytes options.table (cut options.table [] l)).length l := by
  obtain ⟨table, index, hopen, hcomparator, hsnappy, ht, hstart, hreads⟩ :=
    exists_table hlawful hlossless hl hfits rfl hfuel options.paranoidchecks
  have hiterator : table.NewIterator fuel = .ok (.new (table.blockIterator fuel) index) := by
    rw [Encoded.Table.NewIterator, hstart]
    rfl
  have hrun := fun readOptions calls p => @run_iterator _ _ _ _ _ hlawful hinterval hlossless hl hfits rfl hfuel _
    hcomparator hsnappy ht _ hreads readOptions calls p
  refine ⟨?_, table, _, hopen, hiterator, hrun⟩
  obtain ⟨s, hs, -, hstatus⟩ := hrun .default [] none rfl
  obtain rfl := Option.some.inj hs
  have hopen' : Encoded.Table.Open options.table.comparator options.Snappy_Uncompress options.paranoidchecks
      (.mmap (tableBytes options.table (cut options.table [] l)))
      (tableBytes options.table (cut options.table [] l)).length = .ok (.ok table) := hopen
  simp only [verify, hopen', hiterator]
  exact congrArg some hstatus

omit hlossless hfits hfuel in
include hhides in
/-- The builder returns OK just with the whole file. -/
theorem build_cases : ∃ t s, TableBuilder.build options.table l io.results = some (t, s) ∧ (s = .OK →
    t.file.contents = tableBytes options.table (cut options.table [] l) ∧ t.filesize = t.file.contents.length) := by
  obtain ⟨t, s, hbuild⟩ := TableBuilder.exists_build hlawful hinterval hl io.results
  refine ⟨t, s, hbuild, fun hs => ?_⟩
  obtain ⟨t₀, hcalm, hcontents, hsize⟩ :=
    ((TableBuilder.finish_sticky_iff hbuild).2 hhides).complete (Status.ok_iff.2 hs)
  obtain ⟨t₁, hbuild₁, hcontents₁⟩ := TableBuilder.build_tableBytes hlawful hinterval hl
  obtain rfl : t₁ = t₀ := (Prod.mk.inj (Option.some.inj (hbuild₁.symm.trans hcalm))).1
  exact ⟨hcontents.trans hcontents₁, hsize⟩

include hhides in
/-- The file is kept just when the status is OK, and then it is the whole table. -/
theorem buildTable_cases : ∃ table, BuildTable options fuel io l = some table ∧
    if table.status.ok then ∃ contents, table.file = some contents ∧ 0 < table.filesize ∧
      Shows options fuel contents table.filesize l
    else table.file = none := by
  cases hcreate : io.create with
  | some error => exact ⟨⟨.IOError error, 0, none⟩, by rw [BuildTable, hcreate], rfl⟩
  | none =>
    obtain ⟨t, s, hbuild, hwhole⟩ := build_cases hlawful hinterval hl hhides
    rw [BuildTable, hcreate]
    simp only [hbuild, Option.bind_eq_bind, Option.bind_some]
    -- a status that is not OK is the one that is returned
    cases hs : s.ok with
    | false =>
      simp only [Bool.false_eq_true, if_false, false_and, hs]
      exact ⟨_, rfl, by simp [hs]⟩
    | true =>
      obtain ⟨hcontents, hsize⟩ := hwhole (Status.ok_iff.1 hs)
      have hfilesize : t.filesize = (tableBytes options.table (cut options.table [] l)).length := by
        rw [hsize, hcontents]
      have hpositive : 0 < (tableBytes options.table (cut options.table [] l)).length := by
        simp [tableBytes, length_footerBytes, Footer.kEncodedLength]
      rcases hsync : t.file.sync with ⟨f₁, s₁⟩
      simp only [if_true, true_and, hfilesize, if_neg (Nat.ne_of_gt hpositive)]
      cases hs₁ : s₁.ok with
      | false =>
        simp only [Bool.false_eq_true, if_false, false_and, hs₁]
        exact ⟨_, rfl, by simp [hs₁]⟩
      | true =>
        rcases hclose : f₁.close with ⟨f₂, s₂⟩
        simp only [if_true]
        cases hs₂ : s₂.ok with
        | false =>
          simp only [Bool.false_eq_true, if_false, false_and]
          exact ⟨_, rfl, by simp [hs₂]⟩
        | true =>
          have hfile : f₂.contents = tableBytes options.table (cut options.table [] l) := by
            rw [WritableFile.contents_close (Status.ok_iff.1 hs₂ ▸ hclose),
              WritableFile.contents_sync (Status.ok_iff.1 hs₁ ▸ hsync), hcontents]
          obtain ⟨hverify, hshows⟩ := verify_tableBytes hlawful hinterval hlossless hl hfits hfuel
          simp only [if_true, hfile]
          cases hreopen : io.reopen with
          | none =>
            simp only [hverify, Option.bind_some]
            exact ⟨_, rfl, _, if_pos ⟨rfl, hpositive⟩, hpositive, hshows⟩
          | some error => exact ⟨_, rfl, rfl⟩

end Runs

/-- The memtable and its log are kept, and there is an error that stops the writes. -/
structure DB.Kept (db db' : DB) : Prop where
  imm : db'.imm = db.imm
  files : db'.files = db.files
  lognumber : db'.lognumber = db.lognumber
  stopped : db'.bgerror.ok = false

structure DB.Dropped (options : Options) (fuel : ℕ) (installed : List (Slice × Slice) × Bool)
    (db db' : DB) : Prop where
  imm : db'.imm = none
  lognumber : db'.lognumber = db.logfilenumber
  files : ∃ added, db'.files = db.files ++ added ∧ (∀ f ∈ added, f.2.number = db.nextfilenumber) ∧
    Accounts options fuel db'.tables installed added

/-- The tables of the version stay in the directory, and numbers are not used again. -/
structure DB.Frame (db db' : DB) : Prop where
  nextfilenumber : db.nextfilenumber < db'.nextfilenumber
  logfilenumber : db'.logfilenumber = db.logfilenumber
  tables : ∀ f ∈ db.files, f.2.number ≠ db.nextfilenumber → db'.tables f.2.number = db.tables f.2.number

namespace DB

/-- A number has been taken for a table, and the file is what is left of it. -/
def created (file : Option Slice) (db : DB) : DB :=
  { db with
    nextfilenumber := db.nextfilenumber + 1
    tables := fun n => if n = db.nextfilenumber then file else db.tables n }

theorem recordBackgroundError_eq {s : Status} (hs : s.ok = false) (db : DB) :
    ∃ bgerror : Status, bgerror.ok = false ∧ db.RecordBackgroundError s = { db with bgerror := bgerror } := by
  rw [RecordBackgroundError]
  split
  · exact ⟨s, hs, rfl⟩
  · rename_i hok
    exact ⟨db.bgerror, by simpa using hok, rfl⟩

/-- The file of a table is left alone when its number is in the version. -/
theorem tables_deleteObsoleteFiles {db : DB} {f : ℕ × FileMetaData} (h : f ∈ db.files) :
    db.DeleteObsoleteFiles.tables f.2.number = db.tables f.2.number :=
  if_pos (Or.inr (List.mem_map_of_mem h))

theorem tables_created {db : DB} {file : Option Slice} {n : ℕ} (h : n ≠ db.nextfilenumber) :
    (db.created file).tables n = db.tables n :=
  if_neg h

theorem tables_created_self (db : DB) (file : Option Slice) : (db.created file).tables db.nextfilenumber = file :=
  if_pos rfl

section Calls

variable {options : Options} {fuel : ℕ} {io : Outcomes} {l : List (Slice × Slice)} {table : BuiltTable} {db : DB}
  {first last : Slice × Slice} (hbuild : BuildTable options fuel io l = some table) (hfirst : l.head? = some first)
  (hlast : l.getLast? = some last) (himm : db.imm = some l)

include hbuild hfirst hlast

theorem writeLevel0Table_eq (level : ℕ) : db.WriteLevel0Table options fuel io level l =
    some (db.created table.file,
      if 0 < table.filesize then some (level, ⟨db.nextfilenumber, table.filesize, first.1, last.1⟩) else
        none, .OK) := by
  simp only [WriteLevel0Table, hbuild, hfirst, hlast, Option.bind_eq_bind, Option.bind_some, Status.ok_OK, true_and]
  rfl

include himm

theorem compactMemTable_kept (level : ℕ) {manifest : Status} (h : db.shuttingdown = true ∨ manifest.ok = false) :
    ∃ s : Status, s.ok = false ∧
      db.CompactMemTable options fuel io level manifest = some ((db.created table.file).RecordBackgroundError s) := by
  have hshutdown : (db.created table.file).shuttingdown = db.shuttingdown := rfl
  simp only [CompactMemTable, himm, Option.bind_eq_bind, Option.bind_some, writeLevel0Table_eq hbuild hfirst hlast,
    Status.ok_OK, true_and, hshutdown]
  by_cases hs : db.shuttingdown = true
  · rw [if_pos hs]
    exact ⟨_, Status.ok_IOError _, rfl⟩
  · have hmanifest : manifest.ok = false := h.resolve_left hs
    refine ⟨manifest, hmanifest, ?_⟩
    simp [hs, LogAndApply, hmanifest]

theorem compactMemTable_dropped (level : ℕ) {manifest : Status} (hshutdown : db.shuttingdown = false)
    (hmanifest : manifest.ok = true) : db.CompactMemTable options fuel io level manifest =
      some ({ db.created table.file with
        files := db.files ++ (if 0 < table.filesize then
          some (level, ⟨db.nextfilenumber, table.filesize, first.1, last.1⟩) else none).toList
        lognumber := db.logfilenumber
        imm := none } : DB).DeleteObsoleteFiles := by
  have hshutdown : (db.created table.file).shuttingdown = false := hshutdown
  simp only [CompactMemTable, himm, Option.bind_eq_bind, Option.bind_some, writeLevel0Table_eq hbuild hfirst hlast,
    Status.ok_OK, true_and, hshutdown, Bool.false_eq_true, if_true, if_false, LogAndApply, hmanifest]
  rw [created, ← hshutdown]
  rfl

end Calls

end DB

section Flushes

variable {options : Options} (hlawful : options.table.comparator.Lawful)
  (hinterval : 1 ≤ options.table.blockrestartinterval)
  (hlossless : ∀ raw compressed, options.table.Snappy_Compress raw = some compressed →
    options.Snappy_Uncompress compressed = some raw)
  {fuel : ℕ} (hfuel : 2 ^ 32 ≤ fuel)

include hlawful hinterval hlossless hfuel

theorem DB.compactMemTable_cases {l : List (Slice × Slice)}
    (hl : Cursor.Increasing options.table.comparator.Compare l)
    (hfits : TableBuilder.Fits options.table l) (hne : l ≠ []) {io : Outcomes}
    (hhides : ¬ Hides (dataBlocks options.table l) io.results) {db : DB} (himm : db.imm = some l) (level : ℕ)
    (manifest : Status) : ∃ table db', BuildTable options fuel io l = some table ∧
      db.CompactMemTable options fuel io level manifest = some db' ∧ Frame db db' ∧
      if db.shuttingdown ∨ manifest.ok = false then Kept db db'
      else Dropped options fuel (l, table.status.ok) db db' := by
  obtain ⟨table, hbuild, htable⟩ := buildTable_cases hlawful hinterval hlossless hl hfits hfuel hhides
  obtain ⟨first, hfirst⟩ : ∃ first, l.head? = some first := ⟨_, List.head?_eq_some_head hne⟩
  obtain ⟨last, hlast⟩ : ∃ last, l.getLast? = some last := ⟨_, List.getLast?_eq_some_getLast hne⟩
  by_cases hkept : db.shuttingdown ∨ manifest.ok = false
  · obtain ⟨s, hs, heq⟩ := compactMemTable_kept hbuild hfirst hlast himm level hkept
    obtain ⟨bgerror, hstopped, hrecord⟩ := recordBackgroundError_eq hs (db.created table.file)
    rw [hrecord] at heq
    exact ⟨table, _, hbuild, heq, ⟨Nat.lt_succ_self _, rfl, fun f _ hf => tables_created hf⟩,
      by rw [if_pos hkept]; exact ⟨rfl, rfl, rfl, hstopped⟩⟩
  · have hok : db.shuttingdown = false ∧ manifest.ok = true := by simpa using hkept
    refine ⟨table, _, hbuild, compactMemTable_dropped hbuild hfirst hlast himm level hok.1 hok.2,
      ⟨Nat.lt_succ_self _, rfl, fun f hf hnew => ?_⟩, ?_⟩
    · rw [tables_deleteObsoleteFiles (List.mem_append_left _ hf)]
      exact tables_created hnew
    · rw [if_neg hkept]
      refine ⟨rfl, rfl, _, rfl, ?_, ?_⟩
      · intro f hf
        split at hf
        · rw [List.mem_singleton.1 hf]
        · cases hf
      · rw [Accounts]
        cases hs : table.status.ok with
        | true =>
          rw [if_pos hs] at htable
          obtain ⟨contents, hfile, hpositive, hshows⟩ := htable
          rw [if_pos hpositive]
          refine ⟨level, _, contents, rfl, congrArg _ hfirst, congrArg _ hlast, ?_, hshows⟩
          rw [← hfile]
          exact (tables_deleteObsoleteFiles (f := (level, ⟨db.nextfilenumber, _, _, _⟩)) (by simp)).trans
            (tables_created_self db table.file)
        | false =>
          rw [if_neg (by simp [hs])] at htable
          intro f hf
          rw [tables_deleteObsoleteFiles (List.mem_append_right _ hf)]
          split at hf
          · obtain rfl := List.mem_singleton.1 hf
            exact (tables_created_self db table.file).trans htable
          · cases hf

/-- Memtables that can be flushed. -/
structure Flushable (options : Options) (mems : List (List (Slice × Slice))) : Prop where
  nonempty : ∀ l ∈ mems, l ≠ []
  increasing : ∀ l ∈ mems, Cursor.Increasing options.table.comparator.Compare l
  fits : ∀ l ∈ mems, TableBuilder.Fits options.table l

/-- What holds between the steps.  If the numbers of the logs are taken in order, then the log number stays behind the
current log while a memtable is to be flushed. -/
structure DB.Sound (mems : List (List (Slice × Slice))) (ordered : Prop) (db : DB) : Prop where
  imm : ∀ l ∈ db.imm, l ∈ mems
  fresh : ∀ f ∈ db.files, f.2.number < db.nextfilenumber
  lognumber : db.imm = none → db.lognumber = db.logfilenumber
  taken : ordered → db.logfilenumber < db.nextfilenumber
  behind : ordered → db.imm ≠ none → db.lognumber < db.logfilenumber

/-- How the files and the memtables come about when these memtables are dropped. -/
structure DB.Follows (options : Options) (fuel : ℕ) (mems : List (List (Slice × Slice)))
    (installed : List (List (Slice × Slice) × Bool)) (db db' : DB) : Prop where
  order : db.imm.toList ++ mems = installed.map Prod.fst ++ db'.imm.toList
  files : ∃ added, db'.files = db.files ++ added.flatten ∧
    List.Forall₂ (Accounts options fuel db'.tables) installed added
  tables : ∀ f ∈ db.files, db'.tables f.2.number = db.tables f.2.number

omit hlawful hinterval hlossless hfuel in
theorem DB.Kept.follows {mems : List (List (Slice × Slice))} {ordered : Prop} {db db' : DB} (h : Kept db db')
    (hframe : Frame db db') (hdb : db.Sound mems ordered) {l : List (Slice × Slice)} (himm : db.imm = some l) :
    db'.Sound mems ordered ∧ Follows options fuel [] [] db db' := by
  refine ⟨⟨?_, ?_, ?_, ?_, ?_⟩, by simp [h.imm], ⟨[], by simp [h.files], .nil⟩, ?_⟩
  · rw [h.imm]
    exact hdb.imm
  · intro f hf
    rw [h.files] at hf
    exact (hdb.fresh f hf).trans hframe.nextfilenumber
  · simp [h.imm, himm]
  · intro hordered
    rw [hframe.logfilenumber]
    exact (hdb.taken hordered).trans hframe.nextfilenumber
  · intro hordered hbusy
    rw [h.imm] at hbusy
    rw [h.lognumber, hframe.logfilenumber]
    exact hdb.behind hordered hbusy
  · intro f hf
    exact hframe.tables f hf (Nat.ne_of_lt (hdb.fresh f hf))

omit hlawful hinterval hlossless hfuel in
theorem DB.Dropped.follows {mems : List (List (Slice × Slice))} {ordered : Prop} {db db' : DB} {built : Bool}
    {l : List (Slice × Slice)} (h : Dropped options fuel (l, built) db db') (hframe : Frame db db')
    (hdb : db.Sound mems ordered) (himm : db.imm = some l) :
    db'.Sound mems ordered ∧ Follows options fuel [] [(l, built)] db db' := by
  obtain ⟨added, hfiles, hnew, haccounts⟩ := h.files
  refine ⟨⟨by simp [h.imm], ?_, ?_, ?_, fun _ hbusy => absurd h.imm hbusy⟩, by simp [h.imm, himm],
    ⟨[added], by simp [hfiles], .cons haccounts .nil⟩, ?_⟩
  · intro f hf
    rw [hfiles] at hf
    rcases List.mem_append.1 hf with hold | hadded
    · exact (hdb.fresh f hold).trans hframe.nextfilenumber
    · rw [hnew f hadded]
      exact hframe.nextfilenumber
  · intro _
    rw [h.lognumber, hframe.logfilenumber]
  · intro hordered
    rw [hframe.logfilenumber]
    exact (hdb.taken hordered).trans hframe.nextfilenumber
  · intro f hf
    exact hframe.tables f hf (Nat.ne_of_lt (hdb.fresh f hf))

theorem DB.backgroundCallback_follows {mems : List (List (Slice × Slice))} {ordered : Prop}
    (h : Flushable options mems) {db db' : DB} (hdb : db.Sound mems ordered) {io : Outcomes}
    (hvisible : ∀ l ∈ db.imm, ¬ Hides (dataBlocks options.table l) io.results) {level : ℕ} {manifest : Status}
    {shutdown : Bool} (hcall : db.BackgroundCallback options fuel io level manifest shutdown = some db') :
    db'.Sound mems ordered ∧
      Follows options fuel [] (db.installed options fuel (.background io level manifest shutdown)).toList db db' := by
  rw [BackgroundCallback] at hcall
  rw [installed]
  by_cases hidle : db.shuttingdown = true ∨ db.bgerror.ok = false ∨ db.imm.isNone = true
  · rw [if_pos hidle] at hcall
    obtain rfl := Option.some.inj hcall
    have hnone : (if db.shuttingdown = true ∨ db.bgerror.ok = false ∨ shutdown = true ∨ manifest.ok = false then none
        else db.imm.bind fun l => (BuildTable options fuel io l).map fun table => (l, table.status.ok)) = none := by
      split
      · rfl
      · rename_i hbusy
        have himm : db.imm = none := by
          simp only [not_or] at hbusy
          simpa using (hidle.resolve_left hbusy.1).resolve_left hbusy.2.1
        rw [himm]
        rfl
    rw [hnone]
    exact ⟨hdb, by simp, ⟨[], by simp, .nil⟩, fun f _ => rfl⟩
  · rw [if_neg hidle] at hcall
    simp only [not_or] at hidle
    obtain ⟨hshuttingdown, hbgerror, hbusy⟩ := hidle
    obtain ⟨l, himm⟩ := Option.ne_none_iff_exists'.1 (fun hnone => hbusy (Option.isNone_iff_eq_none.2 hnone))
    have hmem := hdb.imm l himm
    obtain ⟨started, hstarted⟩ : ∃ started, started = ({ db with shuttingdown := shutdown } : DB) := ⟨_, rfl⟩
    have hsound : started.Sound mems ordered := by
      rw [hstarted]
      exact ⟨hdb.imm, hdb.fresh, hdb.lognumber, hdb.taken, hdb.behind⟩
    have himm' : started.imm = some l := by rw [hstarted]; exact himm
    have hshutdown : started.shuttingdown = shutdown := by rw [hstarted]
    have hfollows : ∀ {installed}, Follows options fuel [] installed started db' →
        Follows options fuel [] installed db db' := by
      intro installed hfollows
      rw [hstarted] at hfollows
      exact ⟨hfollows.order, hfollows.files, hfollows.tables⟩
    obtain ⟨table, db₁, hbuild, hcompact, hframe, hcases⟩ := compactMemTable_cases hlawful hinterval hlossless hfuel
      (h.increasing l hmem) (h.fits l hmem) (h.nonempty l hmem) (hvisible l himm) himm' level manifest
    rw [← hstarted] at hcall
    obtain rfl := Option.some.inj (hcompact.symm.trans hcall)
    rw [hshutdown] at hcases
    by_cases hkept : shutdown = true ∨ manifest.ok = false
    · rw [if_pos hkept] at hcases
      rw [if_pos (Or.inr (Or.inr hkept))]
      obtain ⟨hsound', hkeeps⟩ := Kept.follows hcases hframe hsound himm'
      exact ⟨hsound', hfollows hkeeps⟩
    · rw [if_neg hkept] at hcases
      rw [if_neg (by rintro (hs | hs | hs) <;> contradiction), himm, Option.bind_some, hbuild]
      obtain ⟨hsound', hdrops⟩ := Dropped.follows hcases hframe hsound himm'
      exact ⟨hsound', hfollows hdrops⟩

theorem DB.step_follows {mems : List (List (Slice × Slice))} {ordered : Prop} (h : Flushable options mems)
    {db db' : DB} (hdb : db.Sound mems ordered) {s : Step} (hmems : ∀ l ∈ s.switched, l ∈ mems)
    (hvisible : db.Visible options s) (hstep : db.step options fuel s = some db') :
    db'.Sound mems ordered ∧ Follows options fuel s.switched (db.installed options fuel s).toList db db' := by
  cases s with
  | switch mem =>
    simp only [step, SwitchMemTable, Option.ite_none_right_eq_some] at hstep
    obtain ⟨⟨-, himm⟩, hstep⟩ := hstep
    obtain rfl := Option.some.inj hstep
    have himm : db.imm = none := by simpa using himm
    refine ⟨⟨?_, fun f hf => Nat.lt_succ_of_lt (hdb.fresh f hf), by simp, fun _ => Nat.lt_succ_self _, ?_⟩, ?_,
      ⟨[], by simp, .nil⟩, fun f _ => rfl⟩
    · intro l hl
      obtain rfl := Option.some.inj hl
      exact hmems _ (List.mem_singleton_self _)
    · intro hordered _
      rw [hdb.lognumber himm]
      exact hdb.taken hordered
    · rw [himm]
      rfl
  | background io level manifest shutdown =>
    exact backgroundCallback_follows hlawful hinterval hlossless hfuel h hdb hvisible hstep

omit hlawful hinterval hlossless hfuel in
/-- Tables of the version that are left alone count as before. -/
theorem Accounts.congr {tables tables' : ℕ → Option Slice} {installed : List (Slice × Slice) × Bool}
    {added : List (ℕ × FileMetaData)} (h : Accounts options fuel tables installed added)
    (heq : ∀ f ∈ added, tables' f.2.number = tables f.2.number) : Accounts options fuel tables' installed added := by
  rw [Accounts] at h ⊢
  by_cases hbuilt : installed.2 = true
  · rw [if_pos hbuilt] at h ⊢
    obtain ⟨level, f, contents, rfl, hsmallest, hlargest, hfile, hshows⟩ := h
    exact ⟨level, f, contents, rfl, hsmallest, hlargest, (heq _ (List.mem_singleton_self _)).trans hfile, hshows⟩
  · rw [if_neg hbuilt] at h ⊢
    intro f hf
    rw [heq f hf]
    exact h f hf

omit hlawful hinterval hlossless hfuel in
theorem Accounts.forall₂_congr {tables tables' : ℕ → Option Slice} {installed : List (List (Slice × Slice) × Bool)}
    {added : List (List (ℕ × FileMetaData))} (h : List.Forall₂ (Accounts options fuel tables) installed added)
    (heq : ∀ f ∈ added.flatten, tables' f.2.number = tables f.2.number) :
    List.Forall₂ (Accounts options fuel tables') installed added := by
  induction h with
  | nil => exact .nil
  | cons h _ ih =>
    simp only [List.flatten_cons, List.mem_append] at heq
    exact .cons (h.congr fun f hf => heq f (Or.inl hf)) (ih fun f hf => heq f (Or.inr hf))

omit hlawful hinterval hlossless hfuel in
theorem DB.Follows.trans {mems mems' : List (List (Slice × Slice))}
    {installed installed' : List (List (Slice × Slice) × Bool)}
    {db₁ db₂ db₃ : DB} (h : Follows options fuel mems installed db₁ db₂)
    (h' : Follows options fuel mems' installed' db₂ db₃) :
    Follows options fuel (mems ++ mems') (installed ++ installed') db₁ db₃ := by
  obtain ⟨added, hfiles, haccounts⟩ := h.files
  obtain ⟨added', hfiles', haccounts'⟩ := h'.files
  constructor
  · rw [← List.append_assoc, h.order, List.append_assoc, h'.order, List.map_append, List.append_assoc]
  · refine ⟨added ++ added', by rw [hfiles', hfiles, List.flatten_append, List.append_assoc], ?_⟩
    exact List.rel_append (Accounts.forall₂_congr haccounts fun f hf =>
      h'.tables f (by rw [hfiles]; exact List.mem_append_right _ hf)) haccounts'
  · intro f hf
    rw [h'.tables f (by rw [hfiles]; exact List.mem_append_left _ hf), h.tables f hf]

theorem DB.run_follows {mems : List (List (Slice × Slice))} {ordered : Prop} (h : Flushable options mems)
    {steps : List Step} (hmems : ∀ l ∈ steps.flatMap Step.switched, l ∈ mems) {db db' : DB}
    (hdb : db.Sound mems ordered)
    (hvisible : db.AllVisible options fuel steps) (hrun : db.run options fuel steps = some db') :
    db'.Sound mems ordered ∧
    Follows options fuel (steps.flatMap Step.switched) (db.history options fuel steps) db db' := by
  induction steps generalizing db with
  | nil =>
    obtain rfl := Option.some.inj hrun
    exact ⟨hdb, by simp [history], ⟨[], by simp, .nil⟩, fun f _ => rfl⟩
  | cons s steps ih =>
    obtain ⟨db₁, hstep, hrest⟩ := Option.bind_eq_some_iff.1 hrun
    simp only [List.flatMap_cons, List.mem_append] at hmems
    obtain ⟨hsound, hfollows⟩ :=
      step_follows hlawful hinterval hlossless hfuel h hdb (fun l hl => hmems l (Or.inl hl))
      hvisible.1 hstep
    obtain ⟨hsound', hfollows'⟩ := ih (fun l hl => hmems l (Or.inr hl)) hsound (hvisible.2 db₁ hstep) hrest
    refine ⟨hsound', ?_⟩
    rw [List.flatMap_cons, history, hstep]
    exact hfollows.trans hfollows'

/-- After any run, the memtables that became immutable are those that were dropped, in the same order, and the one
that is left.  For each that was dropped, the version has a table that shows its pairs if the table was built, and has
no file for it otherwise.  The log number moves to the current log when a memtable is dropped, and not before. -/
theorem DB.run_accounts {steps : List Step} (h : Flushable options (steps.flatMap Step.switched)) {db db' : DB}
    (hvisible : db.AllVisible options fuel steps) (himm : db.imm = none)
    (hfresh : ∀ f ∈ db.files, f.2.number < db.nextfilenumber) (hlognumber : db.lognumber = db.logfilenumber)
    (hrun : db.run options fuel steps = some db') :
    steps.flatMap Step.switched = (db.history options fuel steps).map Prod.fst ++ db'.imm.toList ∧
      (∃ added, db'.files = db.files ++ added.flatten ∧
        List.Forall₂ (Accounts options fuel db'.tables) (db.history options fuel steps) added) ∧
      (∀ f ∈ db.files, db'.tables f.2.number = db.tables f.2.number) ∧
      (db'.imm = none → db'.lognumber = db'.logfilenumber) ∧
      (db.logfilenumber < db.nextfilenumber → db'.imm ≠ none → db'.lognumber < db'.logfilenumber) := by
  obtain ⟨hsound, hfollows⟩ := run_follows hlawful hinterval hlossless hfuel h (fun l hl => hl)
    ⟨by simp [himm], hfresh, fun _ => hlognumber, id, fun _ hbusy => absurd himm hbusy⟩ hvisible hrun
  have horder := hfollows.order
  rw [himm] at horder
  exact ⟨horder, hfollows.files, hfollows.tables, hsound.lognumber, hsound.behind⟩

end Flushes

section Examples

open Encoded.InternalKeyComparator

private def bytewise : Options :=
  ⟨⟨tableComparator BytewiseComparator, 4096, 16, .kNoCompression, fun _ => none⟩, some, true⟩

private def empty : DB := ⟨none, fun _ => none, [], 4, 3, 3, [], .OK, false⟩

private def firstMem : List (Slice × Slice) := [([97] ++ EncodeFixed64 (1 * 256 + 1), [49])]

private def secondMem : List (Slice × Slice) := [([98] ++ EncodeFixed64 (2 * 256 + 1), [50])]

/-- The second table cannot be written. -/
private def twoFlushes : List Step :=
  [.switch firstMem, .background ⟨none, [], none⟩ 0 .OK false,
    .switch secondMem, .background ⟨none, [.ok, .ok, .fail 0 "ENOSPC"], none⟩ 0 .OK false]

private theorem flushable_twoFlushes :
    Flushable bytewise (twoFlushes.flatMap Step.switched) where
  nonempty := by decide
  increasing := by
    have hmems : twoFlushes.flatMap Step.switched = [firstMem, secondMem] := rfl
    simp [hmems, firstMem, secondMem, Cursor.Increasing]
  fits := by
    have hmems : twoFlushes.flatMap Step.switched = [firstMem, secondMem] := rfl
    rw [hmems]
    simp only [List.forall_mem_cons, List.not_mem_nil, false_implies, implies_true, and_true]
    exact ⟨⟨by decide +kernel, by decide +kernel, by decide +kernel⟩, by decide +kernel, by
      decide +kernel, by decide +kernel⟩

private theorem allVisible_twoFlushes : empty.AllVisible bytewise (2 ^ 32) twoFlushes := by
  refine ⟨trivial, fun _ hstep => ?_⟩
  cases hstep
  refine ⟨fun l hl => ?_, fun db hstep => ⟨trivial, fun db' hstep' => ⟨fun l hl => ?_, fun _ _ => trivial⟩⟩⟩
  · obtain rfl := Option.some.inj hl
    show ¬ TableBuilder.fate (dataBlocks bytewise.table firstMem) _ false = some true
    decide +kernel
  · simp only [DB.step, DB.SwitchMemTable, Option.ite_none_right_eq_some] at hstep'
    obtain rfl := Option.some.inj hstep'.2
    obtain rfl := Option.some.inj hl
    show ¬ TableBuilder.fate (dataBlocks bytewise.table secondMem) _ false = some true
    decide +kernel

theorem DB.run_accounts_twoFlushes : ∃ db', empty.run bytewise (2 ^ 32) twoFlushes = some db' ∧ ∃ added,
    db'.files = List.flatten added ∧ List.Forall₂ (Accounts bytewise (2 ^ 32) db'.tables)
      [(firstMem, true), (secondMem, false)] added := by
  obtain ⟨db', hrun⟩ := Option.isSome_iff_exists.1
    (show (empty.run bytewise (2 ^ 32) twoFlushes).isSome = true by decide +kernel)
  have hhistory : empty.history bytewise (2 ^ 32) twoFlushes =
      [(firstMem, true), (secondMem, false)] := by decide +kernel
  obtain ⟨-, ⟨added, hfiles, haccounts⟩, -⟩ := @DB.run_accounts bytewise
    (tableComparator_lawful bytewiseComparator_lawful) (by decide) (by simp [bytewise]) _ (Nat.le_refl (2 ^ 32)) _
    flushable_twoFlushes _ _ allVisible_twoFlushes rfl (by simp [empty]) rfl hrun
  rw [hhistory] at haccounts
  exact ⟨db', hrun, added, hfiles, haccounts⟩

end Examples

end Flush

end RedisDb
