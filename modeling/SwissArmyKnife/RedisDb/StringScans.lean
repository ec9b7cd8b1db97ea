import SwissArmyKnife.RedisDb.GlobLanguage

/-!
# Repeated scans over strings

`Scan` called again and again on a store that does not change, from the empty key and then from the key that the call
before returned.  The calls find every live key that matches, unless one of them stops in front of a key that is
greater than the text of the pattern and does not begin with it while a key behind still matches
(`scan_complete_iff`).
-/

namespace RedisDb

namespace RedisString

/-- An entry whose key has not expired. -/
def isLiveEntry (time : Int) (e : Slice × Slice) : Bool := !(ParsedStringsMetaValue.new e.2).IsStale time

/-- The matcher on the keys of a store. -/
abbrev matcher (beyond : Slice → Nat → UInt8) (pattern key : Slice) : Option Bool :=
  StringMatchLen (beyond key) pattern key

/-- The live keys that the matcher accepts. -/
def matching (time : Int) (isMatch : Slice → Option Bool) (entries : List (Slice × Slice)) : List Slice :=
  (entries.filter fun e => isLiveEntry time e && isMatch e.1 == some true).map Prod.fst

/-- Calls of `Scan` with these counts, until one reports that it is finished. -/
def scanAll (beyond : Slice → Nat → UInt8) (db : Db) (pattern : Slice) (time : Int) :
    Nat → (Nat → Int64) → Slice → List Slice → Option (List Slice)
  | 0, _, _, _ => none
  | calls + 1, counts, startkey, keys => do
    let r ← Scan beyond db startkey pattern keys (counts 0) time
    if r.isfinish then some r.keys
    else scanAll beyond db pattern time calls (fun i => counts (i + 1)) r.nextkey r.keys

/-- A live key that the matcher accepts lies where no call goes on: at an entry that follows a live one, or behind. -/
def Misses (time : Int) (isMatch : Slice → Option Bool) (pattern : Slice) (entries : List (Slice × Slice)) : Prop :=
  ∃ l a e r, entries = l ++ a :: e :: r ∧ isLiveEntry time a = true ∧ goesOn pattern e.1 = false ∧
    ∃ e' ∈ e :: r, isLiveEntry time e' = true ∧ isMatch e'.1 = some true

section Loop

variable {time : Int} {isMatch : Slice → Option Bool} {l : List (Slice × Slice)} {keys : List Slice} {count : Int64}

@[simp] theorem matching_append (l r : List (Slice × Slice)) :
    matching time isMatch (l ++ r) = matching time isMatch l ++ matching time isMatch r := by
  rw [matching, List.filter_append, List.map_append, matching, matching]

theorem matching_eq_nil_iff :
    matching time isMatch l = [] ↔ ∀ e ∈ l, isLiveEntry time e = true → isMatch e.1 ≠ some true := by
  simp [matching]

theorem scanLoop_stop (hcount : ¬0 < count) : scanLoop time isMatch l keys count = some (l, keys, count) := by
  cases l with
  | nil => rfl
  | cons e l => rw [scanLoop, if_neg hcount]

theorem scanLoop_stale {e : Slice × Slice} (hcount : 0 < count) (he : isLiveEntry time e = false) :
    scanLoop time isMatch (e :: l) keys count = scanLoop time isMatch l keys count := by
  have hstale : (ParsedStringsMetaValue.new e.2).IsStale time = true := by simpa [isLiveEntry] using he
  rw [scanLoop, if_pos hcount, if_pos hstale]

theorem scanLoop_live {e : Slice × Slice} (hcount : 0 < count) (he : isLiveEntry time e = true) :
    scanLoop time isMatch (e :: l) keys count = (isMatch e.1).bind fun _ =>
      scanLoop time isMatch l (keys ++ matching time isMatch [e]) (count - 1) := by
  have hlive : (ParsedStringsMetaValue.new e.2).IsStale time = false := by simpa [isLiveEntry] using he
  rw [scanLoop, if_pos hcount, hlive, if_neg Bool.false_ne_true]
  cases hmatch : isMatch e.1 with
  | none => rfl
  | some found => cases found <;> simp [matching, he, hmatch]

/-- What a call passes: it collects the keys that match, and stops behind a live entry, or at the end. -/
theorem scanLoop_passed {r : List (Slice × Slice) × List Slice × Int64}
    (h : scanLoop time isMatch l keys count = some r) :
    ∃ passed, l = passed ++ r.1 ∧ r.2.1 = keys ++ matching time isMatch passed ∧
      (0 < count → r.1 ≠ [] → ∃ l' a, passed = l' ++ [a] ∧ isLiveEntry time a = true) := by
  induction l generalizing keys count with
  | nil =>
    cases h
    exact ⟨[], rfl, by simp [matching], by simp⟩
  | cons e l ih =>
    by_cases hcount : 0 < count
    · cases he : isLiveEntry time e with
      | false =>
        rw [scanLoop_stale hcount he] at h
        obtain ⟨passed, hl, hkeys, hlast⟩ := ih h
        have hnone : matching time isMatch [e] = [] := by simp [matching, he]
        refine ⟨e :: passed, by rw [hl, List.cons_append], ?_, fun _ hrest => ?_⟩
        · rw [hkeys, ← List.singleton_append, matching_append, hnone, List.nil_append]
        · obtain ⟨l', a, rfl, ha⟩ := hlast hcount hrest
          exact ⟨e :: l', a, rfl, ha⟩
      | true =>
        rw [scanLoop_live hcount he] at h
        obtain ⟨-, -, h⟩ := Option.bind_eq_some_iff.1 h
        obtain ⟨passed, hl, hkeys, hlast⟩ := ih h
        refine ⟨e :: passed, by rw [hl, List.cons_append], ?_, fun _ hrest => ?_⟩
        · rw [hkeys, List.append_assoc, ← matching_append, List.singleton_append]
        · by_cases hleft : 0 < count - 1
          · obtain ⟨l', a, rfl, ha⟩ := hlast hleft hrest
            exact ⟨e :: l', a, rfl, ha⟩
          · -- the count ran out at this entry
            rw [scanLoop_stop hleft] at h
            cases h
            obtain rfl : passed = [] := List.self_eq_append_left.1 hl
            exact ⟨[], e, rfl, he⟩
    · rw [scanLoop_stop hcount] at h
      cases h
      exact ⟨[], rfl, by simp [matching], fun hpos => absurd hpos hcount⟩

theorem scanLoop_some (h : ∀ e ∈ l, isLiveEntry time e = true → isMatch e.1 ≠ none)
    (keys : List Slice) (count : Int64) :
    ∃ r, scanLoop time isMatch l keys count = some r := by
  induction l generalizing keys count with
  | nil => exact ⟨_, rfl⟩
  | cons e l ih =>
    simp only [List.mem_cons, forall_eq_or_imp] at h
    by_cases hcount : 0 < count
    · cases he : isLiveEntry time e with
      | false => simpa [scanLoop_stale hcount he] using ih h.2 keys count
      | true =>
        obtain ⟨found, hfound⟩ := Option.ne_none_iff_exists'.1 (h.1 he)
        simpa [scanLoop_live hcount he, hfound] using ih h.2 _ _
    · exact ⟨_, scanLoop_stop hcount⟩

/-- A call with the count one does not get behind a live entry. -/
theorem scanLoop_one {a : Slice × Slice} (ha : isLiveEntry time a = true) {l' : List (Slice × Slice)}
    {r : List (Slice × Slice) × List Slice × Int64} (h : scanLoop time isMatch (l ++ a :: l') keys 1 = some r) :
    ∃ m, r.1 = m ++ l' := by
  induction l generalizing keys with
  | nil =>
    rw [List.nil_append, scanLoop_live (by decide) ha] at h
    obtain ⟨-, -, h⟩ := Option.bind_eq_some_iff.1 h
    rw [scanLoop_stop (by decide)] at h
    cases h
    exact ⟨[], rfl⟩
  | cons e l ih =>
    rw [List.cons_append] at h
    cases he : isLiveEntry time e with
    | false =>
      rw [scanLoop_stale (by decide) he] at h
      exact ih h
    | true =>
      rw [scanLoop_live (by decide) he] at h
      obtain ⟨-, -, h⟩ := Option.bind_eq_some_iff.1 h
      rw [scanLoop_stop (by decide)] at h
      cases h
      exact ⟨l ++ [a], by simp⟩

end Loop

/-- From the key of an entry on a scan sees what stands in the store from it on. -/
theorem seek_entry {db : Db} {l r : List (Slice × Slice)} {e : Slice × Slice} (h : db.entries = l ++ e :: r) :
    db.seek e.1 = e :: r := by
  have hsorted := db.sorted
  rw [h, List.pairwise_append] at hsorted
  rw [SortedMap.seek, h, List.dropWhile_append_of_pos, List.dropWhile_cons_of_neg (by simp)]
  intro a ha
  simpa using hsorted.2.2 a ha e (List.mem_cons_self ..)

theorem seek_nil (db : Db) : db.seek [] = db.entries := by
  rw [SortedMap.seek_eq_filter, List.filter_eq_self]
  intro e _
  exact decide_eq_true (not_lt.1 (List.not_lt_nil _))

section Calls

variable {beyond : Slice → Nat → UInt8} {db : Db} {pattern : Slice} {time : Int}

/-- One call from a place in the store: what it passes and where the next call starts, if there is one. -/
theorem scan_step {startkey : Slice} {rest : List (Slice × Slice)} (hseek : db.seek startkey = rest)
    {keys : List Slice} {count : Int64} (hcount : 0 < count) {r : ScanResult}
    (h : Scan beyond db startkey pattern keys count time = some r) :
    ∃ passed rest', scanLoop time (matcher beyond pattern) rest keys count = some (rest', r.keys, r.count) ∧
      rest = passed ++ rest' ∧ r.keys = keys ++ matching time (matcher beyond pattern) passed ∧
      (∀ e l, rest' = e :: l → ∃ l' a, passed = l' ++ [a] ∧ isLiveEntry time a = true) ∧
      (rest' = [] ∧ r.isfinish = true ∨
        ∃ e l, rest' = e :: l ∧ (goesOn pattern e.1 = true ∧ r.isfinish = false ∧ r.nextkey = e.1 ∨
          goesOn pattern e.1 = false ∧ r.isfinish = true)) := by
  rw [Scan, hseek] at h
  obtain ⟨⟨rest', keys', count'⟩, hloop, hr⟩ := Option.map_eq_some_iff.1 h
  obtain ⟨passed, hrest, hkeys, hlast⟩ := scanLoop_passed hloop
  have hresult : r.keys = keys' ∧ r.count = count' := by
    rw [← hr]
    cases rest' with
    | nil => exact ⟨rfl, rfl⟩
    | cons e l =>
      simp only
      split <;> exact ⟨rfl, rfl⟩
  refine ⟨passed, rest', ?_, hrest, hresult.1.trans hkeys, ?_, ?_⟩
  · rw [hresult.1, hresult.2]
    exact hloop
  · rintro e l rfl
    exact hlast hcount (List.cons_ne_nil _ _)
  · cases rest' with
    | nil => exact Or.inl ⟨rfl, by rw [← hr]⟩
    | cons e l =>
      refine Or.inr ⟨e, l, rfl, ?_⟩
      rw [← hr]
      cases hgoes : goesOn pattern e.1 <;> simp [hgoes]

/-- The calls come to an end with all the keys, when no call misses one. -/
theorem scanAll_complete
    (hmatch : ∀ e ∈ db.entries, isLiveEntry time e = true → matcher beyond pattern e.1 ≠ none)
    (hmisses : ¬Misses time (matcher beyond pattern) pattern db.entries)
    {passed rest : List (Slice × Slice)} (hentries : db.entries = passed ++ rest) {startkey : Slice}
    (hseek : db.seek startkey = rest) (counts : Nat → Int64) (hcounts : ∀ i, 0 < counts i) :
    ∃ calls, scanAll beyond db pattern time calls counts startkey
      (matching time (matcher beyond pattern) passed) =
        some (matching time (matcher beyond pattern) db.entries) := by
  induction hlen : rest.length using Nat.strong_induction_on generalizing passed rest startkey counts with
  | _ n ih =>
    obtain ⟨r, hr⟩ : ∃ r, Scan beyond db startkey pattern
        (matching time (matcher beyond pattern) passed) (counts 0) time = some r := by
      have hsome : ∀ e ∈ rest, isLiveEntry time e = true → matcher beyond pattern e.1 ≠ none := fun e he =>
        hmatch e (hentries ▸ List.mem_append_right passed he)
      obtain ⟨r, hr⟩ := scanLoop_some hsome (matching time (matcher beyond pattern) passed) (counts 0)
      exact ⟨_, by rw [Scan, hseek, hr, Option.map_some]⟩
    obtain ⟨passed', rest', -, hrest, hkeys, hlast, hends⟩ := scan_step hseek (hcounts 0) hr
    have hentries' : db.entries = (passed ++ passed') ++ rest' := by rw [hentries, hrest, List.append_assoc]
    rw [← matching_append] at hkeys
    rcases hends with ⟨rfl, hfinish⟩ | ⟨e, l, rfl, ⟨-, hfinish, hnext⟩ | ⟨hgoes, hfinish⟩⟩
    · refine ⟨1, ?_⟩
      rw [scanAll, hr, Option.bind_eq_bind, Option.bind_some, if_pos hfinish, hkeys, hentries', List.append_nil]
    · obtain ⟨l', a, rfl, -⟩ := hlast e l rfl
      have hshorter : (e :: l).length < n := by
        rw [← hlen, hrest]
        simp only [List.length_append, List.length_cons, List.length_nil]
        omega
      obtain ⟨calls, hcalls⟩ := ih _ hshorter hentries' (seek_entry hentries') (fun i => counts (i + 1))
        (fun i => hcounts (i + 1)) rfl
      refine ⟨calls + 1, ?_⟩
      rw [scanAll, hr, Option.bind_eq_bind, Option.bind_some, hfinish,
        if_neg Bool.false_ne_true, hkeys, hnext, hcalls]
    · obtain ⟨l', a, rfl, ha⟩ := hlast e l rfl
      have hnone : matching time (matcher beyond pattern) (e :: l) = [] := by
        rw [matching_eq_nil_iff]
        intro e' he' hlive hfound
        exact hmisses ⟨passed ++ l', a, e, l, by simp [hentries'], ha, hgoes, e', he', hlive, hfound⟩
      refine ⟨1, ?_⟩
      rw [scanAll, hr, Option.bind_eq_bind, Option.bind_some, if_pos hfinish, hkeys, hentries',
        matching_append (passed ++ (l' ++ [a])), hnone, List.append_nil]

/-- With the count one the calls do not get behind a place where a key is missed. -/
theorem scanAll_one {l r : List (Slice × Slice)} {a e : Slice × Slice} (hentries : db.entries = l ++ a :: e :: r)
    (ha : isLiveEntry time a = true) (hgoes : goesOn pattern e.1 = false) {calls : Nat} {startkey : Slice}
    {passed m : List (Slice × Slice)} (hl : l = passed ++ m) (hseek : db.seek startkey = m ++ a :: e :: r)
    {keys : List Slice}
    (h : scanAll beyond db pattern time calls (fun _ => 1) startkey
      (matching time (matcher beyond pattern) passed) = some keys) :
    ∃ passed', passed' <+: l ++ [a] ∧ keys = matching time (matcher beyond pattern) passed' := by
  induction calls generalizing startkey passed m with
  | zero => cases h
  | succ calls ih =>
    rw [scanAll] at h
    obtain ⟨r', hr', h⟩ := Option.bind_eq_some_iff.1 h
    obtain ⟨passed', rest', hloop, hrest, hkeys, -, hends⟩ := scan_step hseek (by decide) hr'
    obtain ⟨m', rfl⟩ := scanLoop_one ha hloop
    rw [← matching_append] at hkeys
    -- the call ends up at `e` or before it
    have hpassed : m ++ [a] = passed' ++ m' := by
      refine List.append_cancel_right (?_ : m ++ [a] ++ e :: r = passed' ++ m' ++ e :: r)
      rw [List.append_assoc, List.singleton_append, hrest, List.append_assoc]
    have hall : l ++ [a] = (passed ++ passed') ++ m' := by
      rw [hl, List.append_assoc, hpassed, List.append_assoc]
    by_cases hfinish : r'.isfinish = true
    · rw [if_pos hfinish] at h
      exact ⟨passed ++ passed', ⟨m', hall.symm⟩, by rw [← hkeys, Option.some.inj h]⟩
    · rw [if_neg hfinish] at h
      obtain ⟨e', l', hrest', hgoes', -, hnext⟩ : ∃ e' l', m' ++ e :: r = e' :: l' ∧ goesOn pattern e'.1 = true ∧
          r'.isfinish = false ∧ r'.nextkey = e'.1 := by
        rcases hends with ⟨-, hfin⟩ | ⟨e', l', hrest', hgo | ⟨-, hfin⟩⟩
        · exact absurd hfin hfinish
        · exact ⟨e', l', hrest', hgo⟩
        · exact absurd hfin hfinish
      rcases List.eq_nil_or_concat m' with rfl | ⟨m'', b, rfl⟩
      · obtain rfl := (List.cons.inj hrest').1
        rw [hgoes] at hgoes'
        cases hgoes'
      · rw [List.concat_eq_append, ← List.append_assoc] at hpassed
        obtain ⟨hm, hab⟩ := List.append_inj' hpassed rfl
        obtain rfl := (List.cons.inj hab).1
        have hfrom : db.seek r'.nextkey = m'' ++ a :: e :: r := by
          rw [List.concat_eq_append, List.append_assoc, List.singleton_append] at hrest'
          have hentries' : db.entries = (passed ++ passed') ++ e' :: l' := by
            rw [← hrest', hentries, hl, hm]
            simp
          rw [hnext, seek_entry hentries', hrest']
        exact ih (by rw [hl, hm, List.append_assoc]) hfrom (hkeys ▸ h)

/-- When the calls find every live key that the matcher accepts, each once and in order, whatever their counts. -/
theorem scan_complete_iff (beyond : Slice → Nat → UInt8) (db : Db) (pattern : Slice) (time : Int) :
    (∀ counts : Nat → Int64, (∀ i, 0 < counts i) → ∃ calls, scanAll beyond db pattern time calls counts [] [] =
      some (matching time (matcher beyond pattern) db.entries)) ↔
      (∀ e ∈ db.entries, e.1 = [] → isLiveEntry time e = true → matcher beyond pattern [] ≠ none) ∧
        ¬Misses time (matcher beyond pattern) pattern db.entries := by
  constructor
  · intro h
    obtain ⟨calls, hcalls⟩ := h (fun _ => 1) fun _ => by decide
    refine ⟨fun e he hkey hlive hnone => ?_, ?_⟩
    · -- the empty key is the first one, so the first call reads it
      obtain ⟨r, hentries⟩ : ∃ r, db.entries = e :: r := by
        obtain ⟨l, r, hentries⟩ := List.append_of_mem he
        have hseek := seek_entry hentries
        rw [hkey, seek_nil] at hseek
        exact ⟨r, hseek⟩
      cases calls with
      | zero => cases hcalls
      | succ calls =>
        have hloop : scanLoop time (matcher beyond pattern) (db.seek []) [] 1 = none := by
          rw [seek_nil, hentries, scanLoop_live (by decide) hlive, hkey, hnone, Option.bind_none]
        rw [scanAll, Scan, hloop] at hcalls
        cases hcalls
    · rintro ⟨l, a, e, r, hentries, ha, hgoes, e', he', hlive, hfound⟩
      obtain ⟨passed', ⟨m, hm⟩, hkeys⟩ := scanAll_one hentries ha hgoes (List.nil_append l).symm
        (hentries ▸ seek_nil db) hcalls
      have hsplit : db.entries = passed' ++ (m ++ e :: r) := by
        rw [hentries, ← List.append_assoc, hm, List.append_assoc, List.singleton_append]
      have hnil : matching time (matcher beyond pattern) (m ++ e :: r) = [] := by
        rw [hsplit, matching_append] at hkeys
        exact List.self_eq_append_right.1 hkeys.symm
      exact matching_eq_nil_iff.1 hnil e' (List.mem_append_right m he') hlive hfound
  · rintro ⟨hempty, hmisses⟩ counts hcounts
    refine scanAll_complete (fun e he hlive => ?_) hmisses (List.nil_append _).symm (seek_nil db) counts hcounts
    by_cases hkey : e.1 = []
    · rw [hkey]
      exact hempty e he hkey hlive
    · rw [matcher, StringMatch.stringMatchLen_of_ne_nil _ _ hkey]
      exact Option.some_ne_none _

/-- Two keys that the pattern `\a*` takes, both greater than its text. -/
def backslashStore : Db := (SortedMap.empty.put [97] [0, 0, 0, 0]).put [97, 98] [0, 0, 0, 0]

/-- The scan for `\a*` ends at its first call, in front of the second key that matches. -/
theorem scan_backslash : ¬∀ (beyond : Slice → Nat → UInt8) (db : Db) (pattern : Slice) (time : Int)
    (counts : Nat → Int64), (∀ i, 0 < counts i) → ∃ calls, scanAll beyond db pattern time calls counts [] [] =
      some (matching time (matcher beyond pattern) db.entries) := by
  intro h
  obtain ⟨calls, hcalls⟩ := h (fun _ _ => 0) backslashStore [92, 97, 42] 0 (fun _ => 1) fun _ => by decide
  cases calls with
  | zero => cases hcalls
  | succ calls =>
    have hscan : Scan (fun _ _ => 0) backslashStore [] [92, 97, 42] [] 1 0 = some ⟨true, [[97]], 0, []⟩ := by decide
    rw [scanAll, hscan, Option.bind_eq_bind, Option.bind_some, if_pos rfl] at hcalls
    exact absurd hcalls (by decide)

end Calls

end RedisString

end RedisDb
