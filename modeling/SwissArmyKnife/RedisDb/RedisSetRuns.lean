import SwissArmyKnife.RedisDb.RedisSet

/-!
# Runs on a set

A run of calls on one key replies what a set with an expiry time replies, as long as no members are added to a set
whose meta value is stale or has the count 0: `SAdd` then keeps the old version and the old expiry time.  `Represents`
relates the store to the set.
-/

namespace RedisDb

open FirstOf (firstOf nodup_firstOf_id)
open Replies (Meets replies)

namespace RedisSet

/-- The meta value is stale or has the count 0. -/
def isDead (p : ParsedBaseMetaValue) (time : Int) : Bool := p.IsStale time || p.count == 0

/-- The members may be added to the meta value that is stored: there is none, or it is live.  The count stays in the
range of its type. -/
def MayAdd (db : Db) (key : Slice) (time : Int) (members : List Slice) : Option Slice → Prop
  | some metavalue =>
    let p := ParsedBaseMetaValue.new metavalue
    (isDead p time = true → members = []) ∧
      (isDead p time = false → p.count.toInt + (newMembers db key p.version members).length < 2 ^ 31)
  | none => (firstOf id members).length < 2 ^ 31

instance (db : Db) (key : Slice) (time : Int) (members : List Slice) :
    ∀ o, Decidable (MayAdd db key time members o)
  | some _ => inferInstanceAs (Decidable (_ ∧ _))
  | none => inferInstanceAs (Decidable (_ < _))

/-- No members are added to a meta value that is stale or has the count 0; a key that is parsed has a length in the
range of its type. -/
def AddsToLive (key : Slice) (s : State) : Action → Prop
  | .SAdd members => MayAdd s.db key s.clock members (s.db.get key)
  | .SMembers => key.length < 2 ^ 31
  | _ => True

instance (key : Slice) (s : State) : ∀ a, Decidable (AddsToLive key s a)
  | .SAdd members => inferInstanceAs (Decidable (MayAdd s.db key s.clock members (s.db.get key)))
  | .SMembers => inferInstanceAs (Decidable (key.length < 2 ^ 31))
  | .SCard => isTrue trivial
  | .Del _ => isTrue trivial
  | .setExpiry _ => isTrue trivial
  | .wait _ => isTrue trivial

structure Represents (key : Slice) (s : State) (t : Spec) : Prop where
  clock : s.clock = t.clock
  stored : s.db.get key = none ∧ t.members = .empty ∨
    ∃ f : MetaFields, s.db.get key = some f.encode ∧ f.count.toInt = t.members.entries.length ∧
      (f.count ≠ 0 → f.timestamp = t.expiry ∧
        ∀ m, s.db.get (BaseDataKey key f.version m) = (t.members.get m).map fun _ => [])
  nothing : s.db.get key = none → ∀ version m, s.db.get (BaseDataKey key version m) = none

variable {key : Slice} {s : State} {t : Spec}

private theorem entries_eq_nil {m : SortedMap Slice Unit} (h : m.entries.length = 0) : m = .empty :=
  SortedMap.ext_entries (List.eq_nil_of_length_eq_zero h)

private theorem ofNat_toInt {n : Nat} (h : n < 2 ^ 31) : (Int32.ofNat n).toInt = n := Int32.toInt_ofNat_of_lt h

private theorem represents_of_stored (f : MetaFields) (hclock : s.clock = t.clock)
    (hget : s.db.get key = some f.encode) (hcount : f.count.toInt = t.members.entries.length)
    (hdata : f.count ≠ 0 → f.timestamp = t.expiry ∧
      ∀ m, s.db.get (BaseDataKey key f.version m) = (t.members.get m).map fun _ => []) : Represents key s t :=
  ⟨hclock, Or.inr ⟨f, hget, hcount, hdata⟩, fun hnone => by simp [hget] at hnone⟩

/-- There is no meta value, or it is dead, or it is the meta value of a set with members. -/
private inductive Cases (key : Slice) (s : State) (t : Spec) : Prop where
  | missing (hget : s.db.get key = none) (hlive : t.live = .empty) (hnonempty : t.nonempty = false)
      (hmembers : t.members = .empty)
  | dead (f : MetaFields) (hget : s.db.get key = some f.encode) (hdead : isDead f.parsed s.clock = true)
      (hlive : t.live = .empty) (hnonempty : t.nonempty = false)
      (hcount : f.count.toInt = t.members.entries.length)
  | alive (f : MetaFields) (hget : s.db.get key = some f.encode) (hdead : isDead f.parsed s.clock = false)
      (hlive : t.live = t.members) (hnonempty : t.nonempty = true)
      (hcount : f.count.toInt = t.members.entries.length) (hexpiry : f.timestamp = t.expiry)
      (hdata : ∀ m, s.db.get (BaseDataKey key f.version m) = (t.members.get m).map fun _ => [])

private theorem nonempty_of_live_empty (h : t.live = .empty) : t.nonempty = false := by
  simp [Spec.nonempty, h, SortedMap.empty]

private theorem Represents.cases (h : Represents key s t) : Cases key s t := by
  rcases h.stored with ⟨hget, hmembers⟩ | ⟨f, hget, hcount, hdata⟩
  · have hlive : t.live = .empty := by simp [Spec.live, hmembers]
    exact Cases.missing hget hlive (nonempty_of_live_empty hlive) hmembers
  · by_cases hzero : f.count = 0
    · have hempty : t.members = .empty := entries_eq_nil (by simpa [hzero] using hcount.symm)
      have hlive : t.live = .empty := by simp [Spec.live, hempty]
      exact Cases.dead f hget (by simp [isDead, hzero]) hlive (nonempty_of_live_empty hlive) hcount
    · obtain ⟨hexpiry, hdata⟩ := hdata hzero
      have hstale : f.parsed.IsStale s.clock = t.expired := by
        simp [ParsedBaseMetaValue.IsStale, Spec.expired, hexpiry, h.clock]
      cases hexp : t.expired with
      | true =>
        have hlive : t.live = .empty := by simp [Spec.live, hexp]
        exact Cases.dead f hget (by simp [isDead, hstale, hexp]) hlive (nonempty_of_live_empty hlive) hcount
      | false =>
        have hlive : t.live = t.members := by simp [Spec.live, hexp]
        have hpos : t.members.entries ≠ [] := by
          intro hnil
          rw [hnil] at hcount
          exact hzero (Int32.toInt.inj (by simpa using hcount))
        have hnonempty : t.nonempty = true := by simp [Spec.nonempty, hlive, hpos]
        exact Cases.alive f hget (by simp [isDead, hstale, hexp, hzero]) hlive hnonempty hcount hexpiry hdata

private theorem not_stale {p : ParsedBaseMetaValue} {time : Int} (h : isDead p time = false) :
    p.IsStale time = false ∧ (p.count == 0) = false := by
  simpa [isDead] using h

private theorem represents_sCard (h : Represents key s t) :
    ((SCard s.db key s.clock).1.ok, (SCard s.db key s.clock).2.toInt) =
      (t.nonempty, (t.live.entries.length : Int)) := by
  cases h.cases with
  | missing hget hlive hnonempty => simp [SCard, hget, hlive, hnonempty, Status.ok, SortedMap.empty]
  | dead f hget hdead hlive hnonempty =>
    rw [SCard, hget]
    simp only [MetaFields.new_encode]
    by_cases hstale : f.parsed.IsStale s.clock = true
    · simp [hstale, hlive, hnonempty, Status.ok, SortedMap.empty]
    · have hzero : f.count = 0 := by simpa [isDead, hstale] using hdead
      simp [hstale, hzero, hlive, hnonempty, Status.ok, SortedMap.empty]
  | alive f hget hdead hlive hnonempty hcount =>
    obtain ⟨hstale, hzero⟩ := not_stale hdead
    rw [SCard, hget]
    simp only [MetaFields.new_encode, hstale, hzero]
    simp [hlive, hnonempty, hcount]

private theorem represents_sMembers (h : Represents key s t) (hkey : key.length < 2 ^ 31) :
    ((SMembers s.db key s.clock).1.ok, (SMembers s.db key s.clock).2) =
      (t.nonempty, t.live.entries.map Prod.fst) := by
  cases h.cases with
  | missing hget hlive hnonempty => simp [SMembers, hget, hlive, hnonempty, Status.ok, SortedMap.empty]
  | dead f hget hdead hlive hnonempty =>
    rw [SMembers, hget]
    simp only [MetaFields.new_encode]
    by_cases hstale : f.parsed.IsStale s.clock = true
    · simp [hstale, hlive, hnonempty, Status.ok, SortedMap.empty]
    · have hzero : f.count = 0 := by simpa [isDead, hstale] using hdead
      simp [hstale, hzero, hlive, hnonempty, Status.ok, SortedMap.empty]
  | alive f hget hdead hlive hnonempty hcount hexpiry hdata =>
    obtain ⟨hstale, hzero⟩ := not_stale hdead
    have hdecode : ∀ e : Slice × Unit, ParsedDataKey.GetData (BaseDataKey key f.version e.1) = e.1 :=
      fun e => getData_baseDataKey hkey f.version e.1
    rw [SMembers, hget]
    simp only [MetaFields.new_encode, hstale, hzero, MetaFields.parsed_version, scanPrefix_eq hdata]
    simp [hlive, hnonempty, hdecode]

/-! ### SAdd -/

/-- Members that are stored under a version are found there, and the others are as they were. -/
private theorem get_member_puts {db : Db} {version : Int32} {members : SortedMap Slice Unit} {added : List Slice}
    (hdata : ∀ m, db.get (BaseDataKey key version m) = (members.get m).map fun _ => []) (m : Slice) :
    (db.write (added.map fun member => .Put (BaseDataKey key version member) [])).get (BaseDataKey key version m) =
      ((members.write (added.map fun member => .Put member ())).get m).map fun _ => [] :=
  get_data_puts (f := fun m => m) (g := fun _ => ()) (h := fun _ => []) hdata m

private theorem length_added {members : SortedMap Slice Unit} {added : List Slice} (hnodup : added.Nodup)
    (hnew : ∀ m ∈ added, members.get m = none) :
    (members.write (added.map fun member => .Put member ())).entries.length =
      members.entries.length + added.length := by
  rw [SortedMap.length_puts (f := fun m => m) (by simpa using hnodup), List.filter_eq_self.2]
  intro m hm
  simp [hnew m hm]

/-- The members that `SAdd` adds to a set that has none. -/
private theorem filter_empty (members : List Slice) :
    (firstOf id members).filter (fun member => ((.empty : SortedMap Slice Unit).get member).isNone) =
      firstOf id members := by
  rw [List.filter_eq_self]
  simp

private theorem represents_sAdd (h : Represents key s t) {members : List Slice}
    (hcond : AddsToLive key s (.SAdd members)) :
    Represents key (step key s (.SAdd members)).1 (t.step (.SAdd members)).1 ∧
      (step key s (.SAdd members)).2 = (t.step (.SAdd members)).2 := by
  have hclock := h.clock
  cases h.cases with
  | missing hget hlive hnonempty hmembers =>
    simp only [AddsToLive, hget, MayAdd] at hcond
    have hstep : SAdd s.db key s.clock members =
        ((s.db.put key (⟨Int32.ofNat (firstOf id members).length, nextVersion 0 s.clock, 0⟩ :
          MetaFields).encode).write
          ((firstOf id members).map fun member => .Put (BaseDataKey key (nextVersion 0 s.clock) member) []),
          .OK, Int32.ofNat (firstOf id members).length) := by
      simp only [SAdd, hget, MetaFields.encode_new]
      rfl
    simp only [step, Spec.step, hstep, hlive, filter_empty, hnonempty]
    refine ⟨represents_of_stored ⟨Int32.ofNat (firstOf id members).length, nextVersion 0 s.clock, 0⟩ hclock
      ?_ ?_ ?_, ?_⟩
    · rw [get_key_puts, SortedMap.get_put_self]
    · rw [ofNat_toInt hcond, length_added (nodup_firstOf_id members) (by simp)]
      simp [SortedMap.empty]
    · intro _
      refine ⟨by simp, fun m => get_member_puts ?_ m⟩
      intro m
      rw [get_data_put_key, h.nothing hget]
      rfl
    · simp [ofNat_toInt hcond, Status.ok]
  | dead f hget hdead hlive hnonempty =>
    have hnil : members = [] := by
      simpa [AddsToLive, hget, MayAdd, MetaFields.new_encode, hdead] using hcond
    subst hnil
    have hstep : SAdd s.db key s.clock [] = (s.db.put key { f with count := 0 : MetaFields }.encode, .OK, 0) := by
      simp only [SAdd, hget, MetaFields.new_encode]
      rw [if_pos (by simpa [isDead] using hdead)]
      rfl
    have hspec : t.step (.SAdd []) = ({ t with members := .empty, expiry := 0 }, .count true 0) := by
      simp [Spec.step, hlive, hnonempty, FirstOf.firstOf, FirstOf.loop]
    simp only [step, hstep, hspec]
    exact ⟨represents_of_stored { f with count := 0 } hclock (SortedMap.get_put_self ..) rfl
      fun hne => absurd rfl hne, rfl⟩
  | alive f hget hdead hlive hnonempty hcount hexpiry hdata =>
    have hadded : newMembers s.db key f.version members =
        (firstOf id members).filter fun member => (t.members.get member).isNone := by
      apply List.filter_congr
      intro m _
      rw [hdata, Option.isNone_map]
    have hnodup : (newMembers s.db key f.version members).Nodup := (nodup_firstOf_id members).filter _
    have hnew : ∀ m ∈ newMembers s.db key f.version members, t.members.get m = none := by
      intro m hm
      rw [hadded, List.mem_filter] at hm
      simpa using hm.2
    have hbound : f.count.toInt + (newMembers s.db key f.version members).length < 2 ^ 31 := by
      simpa [AddsToLive, hget, MayAdd, MetaFields.new_encode, hdead] using hcond
    have hcnt : (Int32.ofNat (newMembers s.db key f.version members).length).toInt =
        (newMembers s.db key f.version members).length := ofNat_toInt (by omega)
    have hspec : t.step (.SAdd members) = ({ t with
        members := t.members.write ((newMembers s.db key f.version members).map fun member => .Put member ()) },
        .count true (newMembers s.db key f.version members).length) := by
      simp only [Spec.step, hlive, hnonempty, if_true, hadded]
    rw [hspec]
    by_cases hzero : Int32.ofNat (newMembers s.db key f.version members).length = 0
    · have hnil : newMembers s.db key f.version members = [] := by
        rw [hzero] at hcnt
        exact List.eq_nil_of_length_eq_zero (by simpa using hcnt.symm)
      have hstep : SAdd s.db key s.clock members = (s.db, .OK, 0) := by
        simp only [SAdd, hget, MetaFields.new_encode, MetaFields.parsed_version]
        rw [if_neg (by simpa [isDead] using hdead), hnil]
        rfl
      simp only [step, hstep, hnil]
      exact ⟨h, rfl⟩
    · have hstep : SAdd s.db key s.clock members =
          ((s.db.write ((newMembers s.db key f.version members).map fun member =>
            .Put (BaseDataKey key f.version member) [])).put key
              { f with count := f.count +
                Int32.ofNat (newMembers s.db key f.version members).length : MetaFields }.encode,
            .OK, Int32.ofNat (newMembers s.db key f.version members).length) := by
        simp only [SAdd, hget, MetaFields.new_encode, MetaFields.parsed_version]
        rw [if_neg (by simpa [isDead] using hdead), if_neg (by simpa using hzero), SortedMap.write_append]
        rfl
      simp only [step, hstep]
      refine ⟨represents_of_stored
        { f with count := f.count + Int32.ofNat (newMembers s.db key f.version members).length } hclock
        (SortedMap.get_put_self ..) ?_ fun _ => ⟨hexpiry, ?_⟩, ?_⟩
      · rw [length_added hnodup hnew, Int32.toInt_add, hcnt, Int.bmod_eq_of_le (by omega) (by omega), hcount]
        simp
      · intro m
        rw [get_data_put_key]
        exact get_member_puts hdata m
      · simp [hcnt, Status.ok]

/-! ### The other calls -/

private theorem represents_del (h : Represents key s t) (lag : ℕ) :
    Represents key (step key s (.Del lag)).1 (t.step (.Del lag)).1 ∧
      (step key s (.Del lag)).2 = (t.step (.Del lag)).2 := by
  have hclock : s.clock + lag = t.clock + lag := by rw [h.clock]
  cases h.cases with
  | missing hget hlive hnonempty hmembers =>
    have hstep : Del s.db key s.clock (s.clock + lag) = (s.db, .NotFound "") := by simp only [Del, hget]
    simp only [step, Spec.step, hstep, hnonempty]
    exact ⟨⟨hclock, Or.inl ⟨hget, hmembers⟩, h.nothing⟩, rfl⟩
  | dead f hget hdead hlive hnonempty =>
    have hstep : ∃ msg, Del s.db key s.clock (s.clock + lag) = (s.db, .NotFound msg) := by
      simp only [Del, hget, MetaFields.new_encode]
      by_cases hstale : f.parsed.IsStale s.clock = true
      · exact ⟨_, by rw [if_pos hstale]⟩
      · have hzero : (f.parsed.count == 0) = true := by simpa [isDead, hstale] using hdead
        exact ⟨_, by rw [if_neg hstale, if_pos hzero]⟩
    obtain ⟨msg, hstep⟩ := hstep
    simp only [step, Spec.step, hstep, hnonempty]
    exact ⟨⟨hclock, h.stored, h.nothing⟩, rfl⟩
  | alive f hget hdead hlive hnonempty =>
    obtain ⟨hstale, hzero⟩ := not_stale hdead
    have hstep : Del s.db key s.clock (s.clock + lag) =
        (s.db.put key (⟨0, nextVersion f.version (s.clock + lag), 0⟩ : MetaFields).encode, .OK) := by
      simp only [Del, hget, MetaFields.new_encode, hstale, hzero]
      simp
    simp only [step, Spec.step, hstep, hnonempty]
    exact ⟨represents_of_stored ⟨0, nextVersion f.version (s.clock + lag), 0⟩ hclock (SortedMap.get_put_self ..) rfl
      fun hne => absurd rfl hne, rfl⟩

private theorem represents_setExpiry (h : Represents key s t) (timestamp : Int32) :
    Represents key (step key s (.setExpiry timestamp)).1 (t.step (.setExpiry timestamp)).1 := by
  cases h.cases with
  | missing hget hlive hnonempty =>
    have hstep : setExpiry s.db key s.clock timestamp = s.db := by simp only [setExpiry, hget]
    simp only [step, Spec.step, hstep, hnonempty]
    exact h
  | dead f hget hdead hlive hnonempty =>
    have hstep : setExpiry s.db key s.clock timestamp = s.db := by
      simp only [setExpiry, hget, MetaFields.new_encode]
      rw [if_pos (by simpa [isDead] using hdead)]
    simp only [step, Spec.step, hstep, hnonempty]
    exact h
  | alive f hget hdead hlive hnonempty hcount hexpiry hdata =>
    have hstep : setExpiry s.db key s.clock timestamp =
        s.db.put key { f with timestamp := timestamp : MetaFields }.encode := by
      simp only [setExpiry, hget, MetaFields.new_encode]
      rw [if_neg (by simpa [isDead] using hdead)]
      simp
    simp only [step, Spec.step, hstep, hnonempty]
    refine represents_of_stored { f with timestamp := timestamp } h.clock (SortedMap.get_put_self ..) hcount
      fun _ => ⟨rfl, ?_⟩
    intro m
    rw [get_data_put_key]
    exact hdata m

/-- A call keeps the store and the set together, and replies the same. -/
theorem Represents.step (h : Represents key s t) {a : Action} (hcond : AddsToLive key s a) :
    Represents key (RedisSet.step key s a).1 (t.step a).1 ∧ (RedisSet.step key s a).2 = (t.step a).2 := by
  cases a with
  | SAdd members => exact represents_sAdd h hcond
  | SCard =>
    have hreply := represents_sCard h
    rw [Prod.mk.injEq] at hreply
    exact ⟨h, by simp only [RedisSet.step, Spec.step, hreply]⟩
  | SMembers =>
    have hreply := represents_sMembers h hcond
    rw [Prod.mk.injEq] at hreply
    exact ⟨h, by simp only [RedisSet.step, Spec.step, hreply]⟩
  | Del lag => exact represents_del h lag
  | setExpiry timestamp => exact ⟨represents_setExpiry h timestamp, rfl⟩
  | wait duration => exact ⟨⟨by simp [RedisSet.step, Spec.step, h.clock], h.stored, h.nothing⟩, rfl⟩

/-- The store without the key stands for the set without members. -/
theorem represents_init (key : Slice) (clock : Int) : Represents key ⟨clock, .empty⟩ ⟨clock, .empty, 0⟩ :=
  ⟨rfl, Or.inl ⟨rfl, rfl⟩, fun _ _ _ => rfl⟩

/-- A run in which members are only added to a key without a meta value or to a set that has members replies what the
set with an expiry time replies. -/
theorem replies_eq_spec (key : Slice) (clock : Int) (actions : List Action)
    (hmeets : Meets (RedisSet.step key) (AddsToLive key) ⟨clock, .empty⟩ actions) :
    replies (RedisSet.step key) ⟨clock, .empty⟩ actions = replies Spec.step ⟨clock, .empty, 0⟩ actions :=
  Replies.replies_eq (fun _ _ _ h hcond => h.step hcond) (represents_init key clock) hmeets

theorem replies_eq_spec_example :
    replies (RedisSet.step [1]) ⟨100, .empty⟩ [.SAdd [[7], [8], [7]], .SAdd [[8], [9]], .SMembers, .setExpiry 150,
      .wait 60, .SCard, .SAdd []] =
      [.count true 2, .count true 1, .members true [[7], [8], [9]], .done, .done, .count false 0, .count true 0] :=
  (replies_eq_spec [1] 100 _ (by decide +kernel)).trans (by decide +kernel)

/-- A set that is deleted and added to again: its new member is stored under version 0 and is not found. -/
theorem replies_ne_spec_readd :
    ¬ ∀ (key : Slice) (clock : Int) (actions : List Action),
      replies (RedisSet.step key) ⟨clock, .empty⟩ actions = replies Spec.step ⟨clock, .empty, 0⟩ actions := by
  intro h
  have := h [1] 100 [.SAdd [[7]], .Del 0, .SAdd [[8]], .SMembers]
  revert this
  decide +kernel

end RedisSet

end RedisDb
