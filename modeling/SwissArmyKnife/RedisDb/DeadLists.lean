import SwissArmyKnife.RedisDb.DeadKeys
import SwissArmyKnife.RedisDb.RedisListRuns

/-!
# Dead lists

A push to a dead list starts it afresh with both indexes, while a push to a list that is not there writes the left
index twice, and no element lies between the two.  A pop looks for the meta value under the bytes of the key, where
there may be one of another list.
-/

namespace RedisDb

theorem ListsFields.live_encode_eq_false {f : ListsFields} {time : Int} :
    ParsedListsMetaValue.live time (some f.encode) = false ↔ f.parsed.IsStale time = true ∨ f.count = 0 := by
  rw [ParsedListsMetaValue.live_some, ListsFields.new_encode, ListsFields.parsed_count]

theorem ListsFields.dead_of_not_live {f : ListsFields} {time : Int}
    (h : ParsedListsMetaValue.live time (some f.encode) = false) :
    (f.parsed.IsStale time || f.count == 0) = true := by
  rw [Bool.or_eq_true, beq_iff_eq]
  exact ListsFields.live_encode_eq_false.1 h

/-- A dead meta value is stale, or it is not and counts nothing. -/
theorem ListsFields.stale_or_empty {f : ListsFields} {time : Int}
    (h : ParsedListsMetaValue.live time (some f.encode) = false) :
    f.parsed.IsStale time = true ∨ f.parsed.IsStale time = false ∧ f.count = 0 := by
  cases hstale : f.parsed.IsStale time with
  | true => exact Or.inl rfl
  | false =>
    have hzero := (ListsFields.live_encode_eq_false.1 h).resolve_left (by simp [hstale])
    exact Or.inr ⟨rfl, hzero⟩

theorem ListsFields.accepts_encode (f : ListsFields) : ParsedListsMetaValue.accepts f.encode = true := rfl

theorem ListsFields.listed_of_not_live {f : ListsFields} {time : Int}
    (h : ParsedListsMetaValue.live time (some f.encode) = false) :
    ParsedListsMetaValue.listed time f.encode = some false := by
  have hnot := ListsFields.dead_of_not_live h
  rw [← Bool.not_eq_false', Bool.not_or] at hnot
  rw [ParsedListsMetaValue.listed, ListsFields.accepts_encode, if_pos rfl, ListsFields.new_encode]
  exact congrArg some hnot

/-- A meta value without an expiry time is alive as long as it counts something. -/
theorem ListsFields.live_encode_of_zero {f : ListsFields} (h : f.timestamp = 0) (now : Int) :
    ParsedListsMetaValue.live now (some f.encode) = decide (f.count ≠ 0) := by
  have hstale : f.parsed.IsStale now = false := by simp [ParsedListsMetaValue.IsStale, ListsFields.parsed, h]
  simp [ParsedListsMetaValue.live, ListsFields.new_encode, hstale, beq_eq_decide]

namespace RedisList

/-- The calls on a key; an output parameter is given by what it holds before the call. -/
inductive Command where
  | LPush (values : List Slice) (ret : UInt64)
  /-- `following` is what follows the key in memory. -/
  | LPop (element following : Slice)
  | LRange (start stop : Int64) (ret : List Slice)
  | LLen (len : UInt64)
  /-- `memory` gives what follows the elements in memory. -/
  | LInsert (pos : BeforeOrAfter) (pivot value : Slice) (memory : UInt64 → Slice) (ret : Int64)
  | ScanKeyNum (keyinfo : KeyInfo)
  | ScanKeys (pattern : Slice) (keys : List Slice)
  | Expire (ttl : Int32)
  | Del

/-- What the output parameters hold after a call. -/
inductive Output where
  | nothing
  | number (n : Int)
  | text (bytes : Slice)
  | range (l : List Slice)
  | keys (keys : List Slice)
  | keyinfo (keyinfo : KeyInfo)

variable {L : Type*} (e : Setting L)

def run (db : ListDb) (key : Slice) : Command → Option (Response ListDb Output)
  | .LPush values _ =>
    let r := LPush db key e.time e.later values
    some ⟨r.1, r.2.1, .number r.2.2.toNat⟩
  | .LPop element following =>
    (LPop db key following e.time).map fun r => ⟨r.1, r.2.1, .text (r.2.2.getD element)⟩
  | .LRange start stop ret =>
    let r := LRange db key e.time start stop
    some ⟨db, r.1, .range (ret ++ r.2)⟩
  | .LLen _ =>
    let r := LLen db key e.time
    some ⟨db, r.1, .number r.2.toNat⟩
  | .LInsert pos pivot value memory _ =>
    let r := LInsert db key e.time pos pivot value memory
    some ⟨r.1, r.2.1, .number r.2.2.toInt⟩
  | .ScanKeyNum _ => (ScanKeyNum e.time db).map fun keyinfo => ⟨db, .OK, .keyinfo keyinfo⟩
  | .ScanKeys pattern keys => (ScanKeys e.beyond e.time db pattern keys).map fun keys => ⟨db, .OK, .keys keys⟩
  | .Expire ttl =>
    let r := RedisList.Expire db key ttl
    some ⟨r.1, r.2, .nothing⟩
  | .Del =>
    let r := RedisList.Del db key e.time e.later
    some ⟨r.1, r.2, .nothing⟩

/-- The meta value that is stored under the key of a list. -/
def storedMeta (db : ListDb) (key : Slice) : ParsedListsMetaValue :=
  ParsedListsMetaValue.new ((db.get (metaKey key)).getD [])

/-- The key of a list has a meta value, and it is dead. -/
def DeadMeta (db : ListDb) (key : Slice) (time : Int) : Prop :=
  ∃ f : ListsFields, db.get (metaKey key) = some f.encode ∧ ParsedListsMetaValue.live time (some f.encode) = false

/-- What is stored between the two indexes. -/
def elements (db : ListDb) (key : Slice) (p : ParsedListsMetaValue) : List (Option Slice) :=
  (List.range (p.rightindex.toNat - p.leftindex.toNat - 1)).map fun i =>
    db.get ⟨key, p.version, p.leftindex + 1 + UInt64.ofNat i⟩

/-- The number of the elements and the elements, unless the key has no meta value or it is dead. -/
def contents (key : Slice) (db : ListDb) (now : Int) : Option (UInt64 × List (Option Slice)) :=
  if ParsedListsMetaValue.live now (db.get (metaKey key)) then
    some ((storedMeta db key).count, elements db key (storedMeta db key))
  else none

variable {db : ListDb} {key : Slice} {now : Int}

theorem storedMeta_eq {f : ListsFields} (h : db.get (metaKey key) = some f.encode) :
    storedMeta db key = f.parsed := by
  rw [storedMeta, h, Option.getD_some, ListsFields.new_encode]

@[simp] theorem contents_delete : contents key (db.delete (metaKey key)) now = none := by
  simp [contents, ParsedListsMetaValue.live]

theorem contents_of_some {f : ListsFields} (h : db.get (metaKey key) = some f.encode) (htime : f.timestamp = 0) :
    contents key db now = if f.count = 0 then none else some (f.count, elements db key f.parsed) := by
  rw [contents, storedMeta_eq h, h, ListsFields.live_encode_of_zero htime]
  simp

theorem same_of_dead (h : DeadMeta db key e.time) (now : Int) (hle : e.later ≤ now) :
    contents key db now = contents key (db.delete (metaKey key)) now := by
  obtain ⟨f, hget, hdead⟩ := h
  rw [contents_delete, contents, hget, ParsedListsMetaValue.dead_mono hdead (e.time_le_later.trans hle)]
  rfl

/-- When the answers to a call are alike, for a dead key and for one without a meta value.  The values of `LPush` are
counted modulo `2 ^ 64`, and the left index is the first one that is left of all.  `LPop` compares the empty key only
with keys that are there. -/
def Command.Conceals (db : ListDb) (key : Slice) : Command → Prop
  | .LPush values _ => UInt64.ofNat values.length = 0 ∨ InitalLeftIndex < UInt64.ofNat values.length
  | .LPop _ following => (key = [] → ∃ entry ∈ db.entries, entry.1 ≠ metaKey key) ∧
      ∀ metavalue, getRaw db key following = some (some metavalue) → ParsedListsMetaValue.accepts metavalue = true →
        ParsedListsMetaValue.live e.time (some metavalue) = true →
          (ParsedListsMetaValue.new metavalue).version ≠ 0 ∨ (ParsedListsMetaValue.new metavalue).leftindex + 1 ≠ 0
  | .ScanKeyNum _ => (storedMeta db key).timestamp = 0 ∨
      ∃ entry ∈ db.entries, ParsedListsMetaValue.accepts entry.2 = false
  | _ => True

/-! ### Pushes -/

/-- The meta value goes over the dead one or where there is none. -/
theorem get_write_meta (db : ListDb) (key : Slice) (batch : List (SortedMap.Op ListsDataKey Slice)) (value : Slice) :
    (db.write (batch ++ [.Put (metaKey key) value])).get (metaKey key) = some value := by
  rw [SortedMap.write_append]
  exact SortedMap.get_put_self ..

theorem lPush_of_dead {f : ListsFields} (hget : db.get (metaKey key) = some f.encode) {time : Int}
    (hdead : ParsedListsMetaValue.live time (some f.encode) = false) (later : Int) (values : List Slice) :
    LPush db key time later values =
      let n := UInt64.ofNat values.length
      let g : ListsFields := ⟨n, listsNextVersion f.version later, 0, InitalLeftIndex - n, InitalRightIndex⟩
      (db.write (putValues key g.version InitalLeftIndex values ++ [.Put (metaKey key) g.encode]), .OK, n) := by
  have hnot := ListsFields.dead_of_not_live hdead
  simp only [LPush, hget, ListsFields.new_encode, hnot, if_true, ListsFields.initialMetaValue_parsed,
    ListsFields.parsed_version, pushValues_parsed, ListsFields.parsed_value,
      ListsFields.parsed_count, UInt64.zero_add]

/-- There are elements between the indexes of a push, unless the left index ran past the right one. -/
theorem elements_push_eq_nil_iff (db : ListDb) {n : UInt64} (count : UInt64) (version : Int32) (hn : n ≠ 0) :
    elements db key (⟨count, version, 0, InitalLeftIndex - n, InitalRightIndex⟩ : ListsFields).parsed = [] ↔
      InitalLeftIndex < n := by
  have hinital : InitalLeftIndex.toNat = 2 ^ 63 - 1 := rfl
  have hinital' : InitalRightIndex.toNat = 2 ^ 63 := rfl
  have hpos : n.toNat ≠ 0 := fun hzero => hn (UInt64.toNat_inj.1 hzero)
  have hlt := n.toNat_lt
  rw [elements, List.map_eq_nil_iff, List.range_eq_nil, UInt64.lt_iff_toNat_lt]
  simp only [ListsFields.parsed_rightindex, ListsFields.parsed_leftindex]
  rw [UInt64.toNat_sub, hinital, hinital']
  omega

theorem elements_eq_nil (db : ListDb) (n count : UInt64) (version : Int32) :
    elements db key (⟨count, version, 0, n, n⟩ : ListsFields).parsed = [] := by
  simp [elements]

theorem lPush_alike_iff (h : DeadMeta db key e.time) (values : List Slice) (ret : UInt64) :
    Alike (contents key) e.later (run e db key (.LPush values ret))
        (run e (db.delete (metaKey key)) key (.LPush values ret)) ↔
      Command.Conceals e db key (.LPush values ret) := by
  obtain ⟨f, hget, hdead⟩ := h
  rw [run, run, lPush_of_dead hget hdead, lPush_of_none (SortedMap.get_delete_self ..)]
  simp only [Alike, true_and, contents_of_some (get_write_meta ..), elements_eq_nil, Command.Conceals]
  by_cases hzero : UInt64.ofNat values.length = 0
  · simp [hzero]
  · simp only [hzero, if_false, false_or, Option.some.injEq, Prod.mk.injEq, true_and]
    simp only [elements_push_eq_nil_iff _ _ _ hzero]
    exact ⟨fun h => h e.later le_rfl, fun h _ _ => h⟩

/-! ### Pops -/

theorem getRaw_of_ne_nil (hkey : key ≠ []) (db : ListDb) (following : Slice) :
    getRaw db key following = some ((rawKey key following).bind db.get) := by
  rw [getRaw, if_neg fun hnil => hkey hnil.1]

theorem entries_delete_ne_nil_iff (db : ListDb) (k : ListsDataKey) :
    (db.delete k).entries ≠ [] ↔ ∃ entry ∈ db.entries, entry.1 ≠ k := by
  rw [ne_eq, List.eq_nil_iff_forall_not_mem, not_forall_not]
  simp [SortedMap.delete]

/-- What is found under a raw key other than that of the meta value is found without it, too. -/
theorem bind_get_delete {raw : Option ListsDataKey} (hraw : raw ≠ some (metaKey key)) (db : ListDb) :
    raw.bind (db.delete (metaKey key)).get = raw.bind db.get := by
  cases raw with
  | none => rfl
  | some k =>
    have hne : k ≠ metaKey key := fun heq => hraw (congrArg some heq)
    rw [Option.bind_some, Option.bind_some, SortedMap.get_delete, if_neg hne]

/-- A pop that finds a meta value that is not alive. -/
theorem popMeta_of_dead {metavalue : Slice} {time : Int}
    (hdead : ParsedListsMetaValue.live time (some metavalue) = false) (db : ListDb) (key : Slice) :
    (popMeta db key metavalue time).1 = db ∧ (popMeta db key metavalue time).2.1.toClass = .NotFound ∧
      (popMeta db key metavalue time).2.2 = none := by
  by_cases hstale : (ParsedListsMetaValue.new metavalue).IsStale time = true
  · simp [popMeta, hstale, Status.toClass]
  · have hzero := (ParsedListsMetaValue.live_some.1 hdead).resolve_left hstale
    simp [popMeta, hstale, hzero, Status.toClass]

theorem popMeta_of_live {metavalue : Slice} {time : Int}
    (hlive : ParsedListsMetaValue.live time (some metavalue) = true) (db : ListDb) (key : Slice) :
    popMeta db key metavalue time =
      let p := ParsedListsMetaValue.new metavalue
      let listsdatakey : ListsDataKey := ⟨key, p.version, p.leftindex + 1⟩
      match db.get listsdatakey with
      | some element =>
        (db.write [.Delete listsdatakey, .Put (metaKey key) ((p.ModifyCount (-1)).ModifyLeftIndex (-1)).value], .OK,
          some element)
      | none => (db, .NotFound "", none) := by
  have hnot : (ParsedListsMetaValue.new metavalue).IsStale time = false ∧
      (ParsedListsMetaValue.new metavalue).count ≠ 0 := by
    simpa [ParsedListsMetaValue.live] using hlive
  have hstale : ¬ (ParsedListsMetaValue.new metavalue).IsStale time = true := by simp [hnot.1]
  have hcount : ¬ ((ParsedListsMetaValue.new metavalue).count == 0) = true := by simpa using hnot.2
  exact (if_neg hstale).trans (if_neg hcount)

/-- Where the meta value is written at last, it does not matter that it was deleted. -/
theorem write_delete_meta (db : ListDb) (key : Slice) (k : ListsDataKey) (value : Slice) :
    (db.delete (metaKey key)).write [.Delete k, .Put (metaKey key) value] =
      db.write [.Delete k, .Put (metaKey key) value] := by
  apply SortedMap.ext_get
  intro k'
  simp only [SortedMap.write_cons, SortedMap.write_nil, SortedMap.apply, SortedMap.get_put, SortedMap.get_delete]
  by_cases hmeta : k' = metaKey key
  · simp [hmeta]
  · simp [hmeta]

/-- A pop that finds the same meta value with the dead one and without it. -/
theorem popMeta_alike_iff (h : DeadMeta db key e.time) (metavalue element : Slice) :
    Alike (contents key) e.later
        (some ⟨(popMeta db key metavalue e.time).1, (popMeta db key metavalue e.time).2.1,
          Output.text ((popMeta db key metavalue e.time).2.2.getD element)⟩)
        (some ⟨(popMeta (db.delete (metaKey key)) key metavalue e.time).1,
          (popMeta (db.delete (metaKey key)) key metavalue e.time).2.1,
          Output.text ((popMeta (db.delete (metaKey key)) key metavalue e.time).2.2.getD element)⟩) ↔
      (ParsedListsMetaValue.live e.time (some metavalue) = true →
        (ParsedListsMetaValue.new metavalue).version ≠ 0 ∨
        (ParsedListsMetaValue.new metavalue).leftindex + 1 ≠ 0) := by
  have hsame := same_of_dead e h
  obtain ⟨f, hget, -⟩ := id h
  cases hlive : ParsedListsMetaValue.live e.time (some metavalue) with
  | false =>
    obtain ⟨hdb, hstatus, hvalue⟩ := popMeta_of_dead hlive db key
    obtain ⟨hdb', hstatus', hvalue'⟩ := popMeta_of_dead hlive (db.delete (metaKey key)) key
    simp [hdb, hvalue, hdb', hvalue', alike_iff_of_same hsame, hstatus, hstatus']
  | true =>
    rw [popMeta_of_live hlive, popMeta_of_live hlive]
    generalize ParsedListsMetaValue.new metavalue = p
    by_cases hmeta : p.version = 0 ∧ p.leftindex + 1 = 0
    · -- The meta value itself is taken for an element.
      have hkey : (⟨key, p.version, p.leftindex + 1⟩ : ListsDataKey) = metaKey key := by
        rw [hmeta.1, hmeta.2]
        rfl
      simp only [hkey, hget, SortedMap.get_delete_self, Alike]
      refine iff_of_false (fun halike => ?_) (by simp [hmeta])
      cases halike.1
    · have hkey : (⟨key, p.version, p.leftindex + 1⟩ : ListsDataKey) ≠ metaKey key := by
        intro hkey
        exact hmeta ⟨congrArg ListsDataKey.version hkey, congrArg ListsDataKey.index hkey⟩
      have hne : p.version ≠ 0 ∨ p.leftindex + 1 ≠ 0 := not_and_or.1 hmeta
      simp only [SortedMap.get_delete, hkey, if_false, hne, imp_true_iff, iff_true]
      cases db.get ⟨key, p.version, p.leftindex + 1⟩ with
      | none => simp [alike_iff_of_same hsame]
      | some element' =>
        simp only [write_delete_meta]
        exact ⟨rfl, rfl, fun _ _ => rfl⟩

theorem lPop_alike_iff (h : DeadMeta db key e.time) (element following : Slice) :
    Alike (contents key) e.later (run e db key (.LPop element following))
        (run e (db.delete (metaKey key)) key (.LPop element following)) ↔
      Command.Conceals e db key (.LPop element following) := by
  have hsame := same_of_dead e h
  obtain ⟨f, hget, hdead⟩ := id h
  simp only [Command.Conceals]
  by_cases hkey : key = []
  · -- The empty key is compared with the meta value.
    have hraw : getRaw db key following = none := by
      rw [getRaw, if_pos ⟨hkey, List.ne_nil_of_mem (SortedMap.get_eq_some_iff.1 hget)⟩]
    by_cases hother : ∃ entry ∈ db.entries, entry.1 ≠ metaKey key
    · have hraw' : getRaw (db.delete (metaKey key)) key following = none := by
        rw [getRaw, if_pos ⟨hkey, (entries_delete_ne_nil_iff db _).2 hother⟩]
      refine iff_of_true ?_ ⟨fun _ => hother, fun metavalue hfound => ?_⟩
      · simp [run, LPop, hraw, hraw', Alike]
      · rw [hraw] at hfound
        cases hfound
    · have hraw' : getRaw (db.delete (metaKey key)) key following =
          some ((rawKey key following).bind (db.delete (metaKey key)).get) := by
        rw [getRaw, if_neg fun hboth => hother ((entries_delete_ne_nil_iff db _).1 hboth.2)]
      have hnone : (rawKey key following).bind (db.delete (metaKey key)).get = none := by
        have hempty := not_not.1 (mt (entries_delete_ne_nil_iff db (metaKey key)).1 hother)
        cases rawKey key following with
        | none => rfl
        | some k => simp [SortedMap.get, hempty]
      refine iff_of_false ?_ fun hboth => hother (hboth.1 hkey)
      simp [run, LPop, hraw, hraw', hnone, Alike]
  · simp only [hkey, false_implies, true_and, run, LPop, getRaw_of_ne_nil hkey]
    by_cases hself : rawKey key following = some (metaKey key)
    · -- The pop finds the dead meta value itself.
      obtain ⟨hdb, hstatus, hvalue⟩ := popMeta_of_dead hdead db key
      have hclass : (Status.NotFound "").toClass = .NotFound := rfl
      simp [hself, hget, ListsFields.accepts_encode, alike_iff_of_same hsame, hdb, hstatus, hvalue, hdead, hclass]
    · rw [bind_get_delete hself]
      cases (rawKey key following).bind db.get with
      | none => simp [alike_iff_of_same hsame]
      | some metavalue =>
        cases haccepts : ParsedListsMetaValue.accepts metavalue with
        | false => simp [haccepts, Alike]
        | true =>
          simp only [haccepts, if_true, Option.map_some, popMeta_alike_iff e h, Option.some.injEq, forall_eq',
            true_implies]

/-! ### Every call -/

/-- The entries with the dead meta value and without it, as an iterator shows them. -/
theorem DeadMeta.encoded_split {time : Int} (h : DeadMeta db key time) : ∃ f : ListsFields, ∃ l r,
    storedMeta db key = f.parsed ∧ ParsedListsMetaValue.live time (some f.encode) = false ∧
      db.encoded = l ++ ((metaKey key).Encode, f.encode) :: r ∧
      ListDb.encoded (db.delete (metaKey key)) = l ++ r := by
  obtain ⟨f, hget, hdead⟩ := h
  obtain ⟨l, r, hentries, hdelete⟩ := SortedMap.entries_split hget
  refine ⟨f, l.map fun e => (e.1.Encode, e.2), r.map fun e => (e.1.Encode, e.2), storedMeta_eq hget, hdead, ?_, ?_⟩
  · rw [ListDb.encoded, hentries, List.map_append, List.map_cons]
  · rw [ListDb.encoded, hdelete, List.map_append]

theorem scanKeyNum_delete_iff {time : Int} (h : DeadMeta db key time) :
    ScanKeyNum time db = ScanKeyNum time (db.delete (metaKey key)) ↔
      (storedMeta db key).timestamp = 0 ∨ ∃ entry ∈ db.entries, ParsedListsMetaValue.accepts entry.2 = false := by
  obtain ⟨f, l, r, hmeta, -, hentries, hdelete⟩ := h.encoded_split
  have htimestamp : (if ParsedListsMetaValue.accepts f.encode then some (ParsedListsMetaValue.new f.encode).timestamp
      else none) = some f.timestamp := by
    rw [ListsFields.accepts_encode, if_pos rfl, ListsFields.new_encode]
    rfl
  have hshort : (∃ value ∈ l.map Prod.snd ++ r.map Prod.snd, (if ParsedListsMetaValue.accepts value then
      some (ParsedListsMetaValue.new value).timestamp else none) = none) ↔
      ∃ entry ∈ db.entries, ParsedListsMetaValue.accepts entry.2 = false := by
    have hvalues : db.entries.map Prod.snd = l.map Prod.snd ++ f.encode :: r.map Prod.snd := by
      have hsnd := congrArg (List.map Prod.snd) hentries
      rwa [ListDb.encoded, List.map_map, List.map_append, List.map_cons] at hsnd
    have hmem (value : Slice) : (∃ entry ∈ db.entries, entry.2 = value) ↔
        value ∈ l.map Prod.snd ++ f.encode :: r.map Prod.snd := by
      rw [← hvalues, List.mem_map]
    constructor
    · rintro ⟨value, hvalue, hnone⟩
      obtain ⟨entry, hentry, rfl⟩ := (hmem value).2 (by
        rw [List.mem_append] at hvalue ⊢
        exact hvalue.imp_right (List.mem_cons_of_mem _))
      exact ⟨entry, hentry, by simpa using hnone⟩
    · rintro ⟨entry, hentry, hshort⟩
      refine ⟨entry.2, ?_, by simp [hshort]⟩
      have hvalue := (hmem entry.2).1 ⟨entry, hentry, rfl⟩
      rw [List.mem_append, List.mem_cons] at hvalue
      rcases hvalue with hleft | hself | hright
      · exact List.mem_append_left _ hleft
      · rw [hself, ListsFields.accepts_encode] at hshort
        cases hshort
      · exact List.mem_append_right _ hright
  rw [ScanKeyNum, ScanKeyNum, hentries, hdelete, List.map_append, List.map_cons, List.map_append,
    RedisDb.scanKeyNum_eq_iff htimestamp, hshort, hmeta]
  rfl

theorem scanKeys_delete {time : Int} (h : DeadMeta db key time) (beyond : Slice → Nat → UInt8) (pattern : Slice)
    (keys : List Slice) :
    ScanKeys beyond time db pattern keys = ScanKeys beyond time (db.delete (metaKey key)) pattern keys := by
  obtain ⟨f, l, r, -, hdead, hentries, hdelete⟩ := h.encoded_split
  rw [ScanKeys, ScanKeys, hentries, hdelete, scanKeys_skip (ListsFields.listed_of_not_live hdead)]

/-- A call on a dead list answers as on one that is not there, under the condition of the call. -/
theorem alike_iff (h : DeadMeta db key e.time) (c : Command) :
    Alike (contents key) e.later (run e db key c) (run e (db.delete (metaKey key)) key c) ↔ c.Conceals e db key := by
  have hsame := same_of_dead e h
  obtain ⟨f, hget, hdead⟩ := id h
  have hcases := ListsFields.stale_or_empty hdead
  cases c with
  | LPush values ret => exact lPush_alike_iff e h values ret
  | LPop element following => exact lPop_alike_iff e h element following
  | LRange start stop ret =>
    rcases hcases with hstale | ⟨hfresh, hzero⟩
    · simp [run, LRange, hget, ListsFields.new_encode, hstale, alike_iff_of_same hsame, Command.Conceals,
        Status.toClass]
    · simp [run, LRange, hget, ListsFields.new_encode, hfresh, hzero, alike_iff_of_same hsame, Command.Conceals]
  | LLen len =>
    rcases hcases with hstale | ⟨hfresh, hzero⟩
    · simp [run, LLen, hget, ListsFields.new_encode, hstale, alike_iff_of_same hsame, Command.Conceals,
        Status.toClass]
    · simp [run, LLen, hget, ListsFields.new_encode, hfresh, hzero, alike_iff_of_same hsame, Command.Conceals]
  | LInsert pos pivot value memory ret =>
    rcases hcases with hstale | ⟨hfresh, hzero⟩
    · simp [run, LInsert, hget, ListsFields.new_encode, hstale, alike_iff_of_same hsame, Command.Conceals,
        Status.toClass]
    · simp [run, LInsert, hget, ListsFields.new_encode, hfresh, hzero, alike_iff_of_same hsame, Command.Conceals]
  | ScanKeyNum keyinfo =>
    rw [run, run, alike_map_iff hsame fun _ _ heq => Output.keyinfo.inj heq]
    exact scanKeyNum_delete_iff h
  | ScanKeys pattern keys =>
    rw [run, run, alike_map_iff hsame fun _ _ heq => Output.keys.inj heq]
    exact iff_of_true (scanKeys_delete h e.beyond pattern keys) trivial
  | Expire ttl => simp [run, RedisList.Expire, alike_iff_of_same hsame, Command.Conceals]
  | Del =>
    rcases hcases with hstale | ⟨hfresh, hzero⟩
    · simp [run, RedisList.Del, hget, ListsFields.new_encode, hstale, alike_iff_of_same hsame, Command.Conceals,
        Status.toClass]
    · simp [run, RedisList.Del, hget, ListsFields.new_encode, hfresh, hzero,
        alike_iff_of_same hsame, Command.Conceals]

end RedisList

end RedisDb
