import SwissArmyKnife.RedisProxy.Connection
import Mathlib.Data.List.Nodup

/-!
# Runs of the proxy

What is written to a client is what it is to see, in the runs in which the proxy answers a command itself only while
no reply is waited for, and no reply comes late to a request of the same connection that has been dropped.
-/

namespace RedisProxy

open Reorder (arrived outstanding)
open Transition (Meets Outcome run)

variable (protocol : Protocol)

structure Inv (s : State) : Prop where
  kept : ∀ sockfd c, s.conns sockfd = some c → ∃ first, Kept protocol s.inFlight sockfd c (s.books sockfd) first
  distinct : (s.inFlight.map fun e => e.2.place).Nodup
  known : ∀ e ∈ s.inFlight, e.2.serial < s.opened
  past : ∀ e ∈ s.inFlight, ∀ c, s.conns e.2.sockfd = some c → e.2.serial = c.serial → e.2.epoch ≤ c.epoch
  opened : ∀ sockfd c, s.conns sockfd = some c → c.serial < s.opened

/-- All parts of the commands have been sent. -/
def AllWhole (cluster : Bool) (s : State) : Prop :=
  ∀ sockfd c, s.conns sockfd = some c → ∀ slot ∈ c.slots, slot.Whole protocol cluster

/-- The proxy answers a command itself only while it waits for no reply.  An `mget`, `mset` or `del` that is sent on
is the first request since the bookkeeping was empty, and what is made of the single reply to it is this reply. -/
def Orderly (cluster : Bool) (s : State) : Action → Prop
  | .forward sockfd command backend => backend.isOk → command ≠ .plain → (s.books sockfd).proxyCount = 0
  | .answer sockfd _ => (s.books sockfd).proxySends = []
  | .keys sockfd _ => (s.books sockfd).proxySends = [] ∧ ∀ c, s.conns sockfd = some c → c.outputBuffer = []
  | .reply backend (some reply) => cluster = false → reply.type ≠ .proxy →
    ∀ e, nextRequest s backend = some e → ∀ c, s.conns e.2.sockfd = some c → Fresh e.2.sockfd c e.2 →
      ∀ f, e.2.command = .replied f → processCommandReply protocol f [reply] = reply.buffer
  | _ => True

/-- No callback gets a null pointer, and a reply to a request that has been dropped has a number that is not waited
for.  A descriptor is used again, and the connection to a backend is lost, when no reply is held back, and after a
part of a command for which there is no backend there is none for the others either. -/
def Settled (s : State) : Action → Prop
  | .connect sockfd => s.conns sockfd = none →
    (s.books sockfd).proxySends = [] ∧ (s.books sockfd).proxyReplys = [] ∧ (s.books sockfd).commandReplys = []
  | .fanOut _ _ backends => backends.Pairwise fun backend later => later.isOk → backend.isOk
  | .reply _ none => False
  | .reply backend (some reply) =>
    ∀ e, nextRequest s backend = some e → ∀ c, s.conns e.2.sockfd = some c → c.serial = e.2.serial →
      ¬ Fresh e.2.sockfd c e.2 → reply.type ≠ .proxy ∧ e.2.proxyCount ∉ (s.books e.2.sockfd).proxySends
  | .backendDown => ∀ sockfd c, s.conns sockfd = some c → (s.books sockfd).proxyReplys = []
  | _ => True

/-! ### One connection changes -/

section Put

variable {protocol} {s : State} {sockfd : ℕ} {c c' : TcpConnection} {b : Bookkeeping}

theorem State.put_self (hc : s.conns sockfd = some c) : s.put sockfd c (s.books sockfd) = s := by
  rw [State.put, ← hc, Function.update_eq_self, Function.update_eq_self]

theorem Inv.put (h : Inv protocol s) (hc : s.conns sockfd = some c) (hserial : c'.serial = c.serial)
    (hepoch : c.epoch ≤ c'.epoch) {inFlight : List (ℕ × RedisCluster)} (hsub : inFlight.Sublist s.inFlight)
    (hothers : ∀ e ∈ s.inFlight, e.2.sockfd ≠ sockfd → e ∈ inFlight)
    (hkept : ∃ first, Kept protocol inFlight sockfd c' b first) :
    Inv protocol { s.put sockfd c' b with inFlight := inFlight } := by
  refine ⟨?_, h.distinct.sublist (hsub.map _), fun e he => h.known e (hsub.subset he), ?_, ?_⟩
  · intro sockfd' c'' hc''
    simp only [State.put, Function.update_apply] at hc'' ⊢
    split_ifs at hc'' ⊢ with heq
    · cases hc''
      rwa [heq]
    · obtain ⟨first, hk⟩ := h.kept sockfd' c'' hc''
      refine ⟨first, hk.congr fun e hfresh => ⟨fun he => hsub.subset he, fun he => hothers e he ?_⟩⟩
      rw [hfresh.1]
      exact heq
  · intro e he c'' hc'' hserial'
    simp only [State.put, Function.update_apply] at hc''
    split_ifs at hc'' with heq
    · cases hc''
      exact Nat.le_trans (h.past e (hsub.subset he) c (heq ▸ hc) (hserial'.trans hserial)) hepoch
    · exact h.past e (hsub.subset he) c'' hc'' hserial'
  · intro sockfd' c'' hc''
    simp only [State.put, Function.update_apply] at hc''
    split_ifs at hc'' with heq
    · cases hc''
      rw [hserial]
      exact h.opened sockfd c hc
    · exact h.opened sockfd' c'' hc''

/-- A connection changes and no request is sent or answered. -/
theorem Inv.put_same (h : Inv protocol s) (hc : s.conns sockfd = some c) (hserial : c'.serial = c.serial)
    (hepoch : c.epoch ≤ c'.epoch) (hkept : ∃ first, Kept protocol s.inFlight sockfd c' b first) :
    Inv protocol (s.put sockfd c' b) :=
  h.put hc hserial hepoch (List.Sublist.refl _) (fun _ he _ => he) hkept

theorem Inv.ask (h : Inv protocol s) (hc : s.conns sockfd = some c) {command : Command} {commandCount : ℕ}
    {slots : List Slot} (hpieces : pieces slots = pieces c.slots ++ [none])
    (htags : tags slots = tags c.slots ++ [(command, commandCount)]) (backend : ℕ) :
    Inv protocol (ask sockfd c command commandCount slots backend s) := by
  obtain ⟨first, hk⟩ := h.kept sockfd c hc
  refine ⟨?_, ?_, ?_, ?_, ?_⟩
  · intro sockfd' c'' hc''
    simp only [RedisProxy.ask, State.put, Function.update_apply] at hc'' ⊢
    split_ifs at hc'' ⊢ with heq
    · cases hc''
      rw [heq]
      exact ⟨first, hk.ask hpieces htags backend⟩
    · obtain ⟨first', hk'⟩ := h.kept sockfd' c'' hc''
      refine ⟨first', hk'.congr fun e hfresh => ⟨fun he => ?_, fun he => List.mem_append_left _ he⟩⟩
      rcases List.mem_append.1 he with he | he
      · exact he
      · cases List.mem_singleton.1 he
        exact absurd hfresh.1.symm heq
  · rw [RedisProxy.ask, List.map_append, List.nodup_append]
    refine ⟨h.distinct, List.nodup_singleton _, ?_⟩
    rintro _ hplace _ hnew rfl
    obtain ⟨e, he, hplace⟩ := List.mem_map.1 hplace
    rw [List.map_singleton, List.mem_singleton, ← hplace, RedisCluster.place, RedisCluster.place, Prod.mk.injEq,
      Prod.mk.injEq, Prod.mk.injEq] at hnew
    obtain ⟨hsockfd, hserial, hepoch, hposition⟩ := hnew
    have hlt := (List.getElem?_eq_some_iff.1 (hk.sits e he ⟨hsockfd, hserial, hepoch⟩).1).1
    exact absurd hposition (Nat.ne_of_lt hlt)
  · intro e he
    rcases List.mem_append.1 he with he | he
    · exact h.known e he
    · cases List.mem_singleton.1 he
      exact h.opened sockfd c hc
  · intro e he c'' hc'' hserial
    simp only [RedisProxy.ask, State.put, Function.update_apply] at hc''
    rcases List.mem_append.1 he with he | he
    · split_ifs at hc'' with heq
      · cases hc''
        exact h.past e he c (heq ▸ hc) hserial
      · exact h.past e he c'' hc'' hserial
    · cases List.mem_singleton.1 he
      rw [if_pos rfl] at hc''
      cases hc''
      exact Nat.le_refl _
  · intro sockfd' c'' hc''
    simp only [RedisProxy.ask, State.put, Function.update_apply] at hc''
    split_ifs at hc'' with heq
    · cases hc''
      exact h.opened sockfd c hc
    · exact h.opened sockfd' c'' hc''

theorem Inv.refuse (h : Inv protocol s) (hc : s.conns sockfd = some c) (text : Bytes) :
    Inv protocol (refuse sockfd c text s) := by
  refine h.put_same hc rfl (Nat.le_succ _) ⟨_, Kept.dropped rfl rfl rfl ?_⟩
  intro e he hsockfd hserial
  exact h.past e he c (hsockfd ▸ hc) hserial

variable {cluster : Bool}

theorem AllWhole.put (h : AllWhole protocol cluster s) (hslots : ∀ slot ∈ c'.slots, slot.Whole protocol cluster)
    (inFlight : List (ℕ × RedisCluster)) :
    AllWhole protocol cluster { s.put sockfd c' b with inFlight := inFlight } := by
  intro sockfd' c'' hc''
  simp only [State.put, Function.update_apply] at hc''
  split_ifs at hc'' with heq
  · cases hc''
    exact hslots
  · exact h sockfd' c'' hc''

theorem AllWhole.push (h : AllWhole protocol cluster s) (hc : s.conns sockfd = some c) {slot : Slot}
    (hslot : slot.Whole protocol cluster) : ∀ slot' ∈ c.slots ++ [slot], slot'.Whole protocol cluster := by
  intro slot' hmem
  rcases List.mem_append.1 hmem with hmem | hmem
  · exact h sockfd c hc slot' hmem
  · rwa [List.mem_singleton.1 hmem]

end Put

/-! ### Commands with several parts -/

section FanOut

variable {protocol} {s : State} {sockfd : ℕ} {c : TcpConnection} {cluster : Bool} {f : ReplyCommand} {parts : ℕ}

/-- The parts for which there is no backend leave nothing of the commands before. -/
private theorem foldl_refuse (f : ReplyCommand) (parts : ℕ) {backends : List (Except Bytes ℕ)}
    (hnone : ∀ backend ∈ backends, ¬ backend.isOk) (h : Inv protocol s) (hc : s.conns sockfd = some c)
    (hslots : c.slots = []) :
    Inv protocol (backends.foldl (processPart sockfd f parts) s) ∧
      (∃ c', (backends.foldl (processPart sockfd f parts) s).conns sockfd = some c' ∧ c'.slots = []) ∧
      ∀ sockfd', sockfd' ≠ sockfd →
        (backends.foldl (processPart sockfd f parts) s).conns sockfd' = s.conns sockfd' := by
  induction backends generalizing s c with
  | nil => exact ⟨h, ⟨c, hc, hslots⟩, fun _ _ => rfl⟩
  | cons backend backends ih =>
    cases backend with
    | ok backend => exact absurd rfl (hnone (.ok backend) (by simp))
    | error text =>
      have hstep : processPart sockfd f parts s (.error text) = refuse sockfd c text s := by
        rw [processPart, hc]
      rw [List.foldl_cons, hstep]
      obtain ⟨hinv, hconn, hothers⟩ := ih (fun backend hmem => hnone backend (by simp [hmem])) (h.refuse hc text)
        (Function.update_self ..) rfl
      refine ⟨hinv, hconn, fun sockfd' hne => ?_⟩
      rw [hothers sockfd' hne]
      exact Function.update_of_ne hne ..

private theorem foldl_processPart {backends : List (Except Bytes ℕ)} {slots : List Slot}
    {replys : List (Option RedisReply)} (hsettled : backends.Pairwise fun backend later => later.isOk → backend.isOk)
    (h : Inv protocol s) (hc : s.conns sockfd = some c) (hslots : c.slots = slots ++ [.fanOut f parts replys])
    (hwhole : ∀ slot ∈ slots, slot.Whole protocol cluster) (hlength : replys.length + backends.length = parts)
    (hpos : 0 < parts) :
    Inv protocol (backends.foldl (processPart sockfd f parts) s) ∧
      (∃ c', (backends.foldl (processPart sockfd f parts) s).conns sockfd = some c' ∧
        ∀ slot ∈ c'.slots, slot.Whole protocol cluster) ∧
      ∀ sockfd', sockfd' ≠ sockfd →
        (backends.foldl (processPart sockfd f parts) s).conns sockfd' = s.conns sockfd' := by
  induction backends generalizing s c replys with
  | nil =>
    refine ⟨h, ⟨c, hc, ?_⟩, fun _ _ => rfl⟩
    intro slot hmem
    rw [hslots] at hmem
    rcases List.mem_append.1 hmem with hmem | hmem
    · exact hwhole slot hmem
    · rw [List.mem_singleton.1 hmem]
      exact ⟨hlength, hpos⟩
  | cons backend backends ih =>
    obtain ⟨hfirst, hrest⟩ := List.pairwise_cons.1 hsettled
    cases backend with
    | ok backend =>
      have hstep : processPart sockfd f parts s (.ok backend) =
          ask sockfd c (.replied f) parts (grow c.slots) backend s := by
        rw [processPart, hc]
      have hgrow : grow c.slots = slots ++ [.fanOut f parts (replys ++ [none])] := by rw [hslots, grow_append]
      rw [List.foldl_cons, hstep, hgrow]
      have hpieces : pieces (slots ++ [.fanOut f parts (replys ++ [none])]) = pieces c.slots ++ [none] := by
        rw [hslots]
        simp [Slot.pieces]
      have htags : tags (slots ++ [.fanOut f parts (replys ++ [none])]) = tags c.slots ++ [(.replied f, parts)] := by
        rw [hslots]
        simp [Slot.tags]
      rw [List.length_cons] at hlength
      obtain ⟨hinv, hconn, hothers⟩ := ih hrest (h.ask hc hpieces htags backend) (Function.update_self ..) rfl
        (by rw [List.length_append, List.length_singleton]; omega)
      refine ⟨hinv, hconn, fun sockfd' hne => ?_⟩
      rw [hothers sockfd' hne]
      exact Function.update_of_ne hne ..
    | error text =>
      have hstep : processPart sockfd f parts s (.error text) = refuse sockfd c text s := by
        rw [processPart, hc]
      have hnone : ∀ backend ∈ backends, ¬ backend.isOk := fun backend hmem hok => by
        have := hfirst backend hmem hok
        cases this
      rw [List.foldl_cons, hstep]
      obtain ⟨hinv, ⟨c', hc', hnil⟩, hothers⟩ := foldl_refuse f parts hnone (h.refuse hc text)
        (Function.update_self ..) rfl
      refine ⟨hinv, ⟨c', hc', by simp [hnil]⟩, fun sockfd' hne => ?_⟩
      rw [hothers sockfd' hne]
      exact Function.update_of_ne hne ..

theorem Inv.asyncCommand (h : Inv protocol s) (hwhole : AllWhole protocol cluster s) (hc : s.conns sockfd = some c)
    {backends : List (Except Bytes ℕ)} (hne : backends ≠ [])
    (hsettled : backends.Pairwise fun backend later => later.isOk → backend.isOk) :
    Inv protocol (asyncCommand sockfd c f backends s) ∧
    AllWhole protocol cluster (asyncCommand sockfd c f backends s) := by
  have hpushed : Inv protocol
      (s.put sockfd { c with slots := c.slots ++ [.fanOut f backends.length []] } (s.books sockfd)) := by
    obtain ⟨first, hk⟩ := h.kept sockfd c hc
    have hpieces : pieces (c.slots ++ [.fanOut f backends.length []]) = pieces c.slots := by simp [Slot.pieces]
    have htags : tags (c.slots ++ [.fanOut f backends.length []]) = tags c.slots := by simp [Slot.tags]
    refine h.put_same hc rfl (Nat.le_refl _) ⟨first, ?_, ?_, ?_, ?_, hk.base⟩
    · rw [hpieces]
      exact hk.tracks
    · rw [hpieces]
      exact hk.written
    · rw [hpieces, htags]
      exact hk.sits
    · rw [hpieces]
      exact hk.asked
  obtain ⟨hinv, ⟨c', hc', hslots⟩, hothers⟩ := @foldl_processPart _ _ _ _ _ f _ _ _ [] hsettled hpushed
    (Function.update_self ..) rfl (hwhole sockfd c hc) (Nat.zero_add _) (List.length_pos_of_ne_nil hne)
  refine ⟨hinv, ?_⟩
  intro sockfd' c'' hc''
  by_cases heq : sockfd' = sockfd
  · subst heq
    cases hc'.symm.trans hc''
    exact hslots
  · rw [RedisProxy.asyncCommand, hothers sockfd' heq] at hc''
    exact hwhole sockfd' c'' ((Function.update_of_ne heq ..).symm.trans hc'')

end FanOut

/-! ### A backend answers -/

section Reply

variable {protocol} {s : State} {cluster : Bool}

/-- A backend answers its oldest request. -/
theorem nextRequest_split {backend : ℕ} {e : ℕ × RedisCluster} (h : nextRequest s backend = some e) :
    ∃ before after, s.inFlight = before ++ e :: after ∧
      popRequest s backend = { s with inFlight := before ++ after } := by
  obtain ⟨he, before, after, hsplit, hbefore⟩ := List.find?_eq_some_iff_append.1 h
  refine ⟨before, after, hsplit, ?_⟩
  have hpop : s.inFlight.eraseP (fun e => e.1 == backend) = before ++ after := by
    rw [hsplit, List.eraseP_append_right _ fun e' he' => by simpa using hbefore e' he']
    exact congrArg (before ++ ·) (List.eraseP_cons_of_pos he)
  rw [popRequest, hpop]

private theorem sublist_without {before after : List (ℕ × RedisCluster)} {e : ℕ × RedisCluster}
    (hsplit : s.inFlight = before ++ e :: after) : (before ++ after).Sublist s.inFlight := by
  rw [hsplit]
  exact List.Sublist.append_left (List.sublist_cons_self e after) before

private theorem mem_without {before after : List (ℕ × RedisCluster)} {e e' : ℕ × RedisCluster}
    (hsplit : s.inFlight = before ++ e :: after) (he' : e' ∈ s.inFlight) (hne : e' ≠ e) : e' ∈ before ++ after := by
  rw [hsplit] at he'
  exact (List.mem_cons.1 (List.perm_middle.mem_iff.1 he')).resolve_left hne

/-- The reply to a request whose connection is closed is ignored, and so is the one to a request that has been dropped
if its number is not waited for. -/
theorem proxyCallback_eq_self {q : RedisCluster} {reply : RedisReply}
    (h : ∀ c, s.conns q.sockfd = some c → c.serial = q.serial →
      ¬ Fresh q.sockfd c q ∧ reply.type ≠ .proxy ∧ q.proxyCount ∉ (s.books q.sockfd).proxySends) :
    proxyCallback protocol q reply s = s := by
  rw [proxyCallback]
  cases hc : s.conns q.sockfd with
  | none => rfl
  | some c =>
    dsimp only
    split_ifs with hserial hproxy
    · rfl
    · exact absurd hproxy (h c hc (not_not.1 hserial)).2.1
    · obtain ⟨hstale, -, hnot⟩ := h c hc (not_not.1 hserial)
      have hepoch : q.epoch ≠ c.epoch := fun heq => hstale ⟨rfl, (not_not.1 hserial).symm, heq⟩
      rw [deliverReply_of_notMem hnot, noteReply, if_neg hepoch]
      exact State.put_self hc

/-- A request that belongs to no connection any more is answered. -/
theorem Inv.pop (h : Inv protocol s) {e : ℕ × RedisCluster} {before after : List (ℕ × RedisCluster)}
    (hsplit : s.inFlight = before ++ e :: after)
    (hstale : ∀ c, s.conns e.2.sockfd = some c → ¬ Fresh e.2.sockfd c e.2) :
    Inv protocol { s with inFlight := before ++ after } := by
  have hsub := sublist_without hsplit
  refine ⟨?_, h.distinct.sublist (hsub.map _), fun e' he' => h.known e' (hsub.subset he'),
    fun e' he' => h.past e' (hsub.subset he'), h.opened⟩
  intro sockfd c hc
  obtain ⟨first, hk⟩ := h.kept sockfd c hc
  refine ⟨first, hk.congr fun e' hfresh => ⟨fun he' => hsub.subset he', fun he' => mem_without hsplit he' ?_⟩⟩
  rintro rfl
  obtain rfl := hfresh.1
  exact hstale c hc hfresh

theorem Inv.proxyCallback (h : Inv protocol s) {backend : ℕ} {e : ℕ × RedisCluster}
    (he : nextRequest s backend = some e) {reply : RedisReply}
    (hsettled : Settled s (.reply backend (some reply))) :
    Inv protocol (proxyCallback protocol e.2 reply (popRequest s backend)) := by
  obtain ⟨before, after, hsplit, hpop⟩ := nextRequest_split he
  rw [hpop]
  by_cases hfresh : ∃ c, s.conns e.2.sockfd = some c ∧ Fresh e.2.sockfd c e.2
  · obtain ⟨c, hc, hfresh⟩ := hfresh
    have hsub := sublist_without hsplit
    have hothers : ∀ e' ∈ s.inFlight, e'.2.sockfd ≠ e.2.sockfd → e' ∈ before ++ after :=
      fun e' he' hne => mem_without hsplit he' fun heq => hne (heq ▸ rfl)
    rw [RedisProxy.proxyCallback]
    dsimp only
    rw [hc]
    dsimp only
    rw [if_neg (not_not.2 hfresh.2.1.symm)]
    split_ifs with hproxy
    · change Inv protocol { s.put e.2.sockfd _ _ with inFlight := before ++ after }
      refine h.put hc ?_ ?_ hsub hothers ⟨_, Kept.dropped rfl rfl rfl ?_⟩
      · rfl
      · exact Nat.le_succ _
      intro e' he' hsockfd hserial
      exact h.past e' (hsub.subset he') c (hsockfd ▸ hc) hserial
    · obtain ⟨first, hk⟩ := h.kept e.2.sockfd c hc
      rw [noteReply, if_pos hfresh.2.2]
      change Inv protocol { s.put e.2.sockfd _ _ with inFlight := before ++ after }
      refine h.put hc ?_ ?_ hsub hothers (hk.deliver h.distinct hsplit hfresh reply rfl)
      · rfl
      · exact Nat.le_refl _
  · have hstale : ∀ c, s.conns e.2.sockfd = some c → ¬ Fresh e.2.sockfd c e.2 :=
      fun c hc hf => hfresh ⟨c, hc, hf⟩
    rw [proxyCallback_eq_self (s := { s with inFlight := before ++ after })
      fun c hc hserial => ⟨hstale c hc, hsettled e he c hc hserial (hstale c hc)⟩]
    exact h.pop hsplit hstale

theorem Slot.Whole.fill {slot : Slot} (h : slot.Whole protocol cluster) {i : ℕ} {reply : RedisReply}
    {tag : Command × ℕ} (htag : slot.tags[i]? = some tag)
    (hone : cluster = false → ∀ f, tag.1 = .replied f → processCommandReply protocol f [reply] = reply.buffer) :
    (slot.fill i reply).Whole protocol cluster := by
  cases slot with
  | answered bytes => exact h
  | forwarded command commandCount r =>
    cases command with
    | plain => exact h
    | replied f =>
      obtain ⟨hcluster, hcount, -⟩ := h
      refine ⟨hcluster, hcount, ?_⟩
      rintro _ ⟨⟩
      cases i with
      | zero =>
        obtain rfl : (Command.replied f, commandCount) = tag := by simpa [Slot.tags] using htag
        exact hone hcluster f rfl
      | succ i => simp [Slot.tags] at htag
  | fanOut f parts replys => exact ⟨(List.length_set ..).trans h.1, h.2⟩

theorem whole_fill {slots : List Slot} (h : ∀ slot ∈ slots, slot.Whole protocol cluster) {i : ℕ} {reply : RedisReply}
    {tag : Command × ℕ} (htag : (tags slots)[i]? = some tag)
    (hone : cluster = false → ∀ f, tag.1 = .replied f → processCommandReply protocol f [reply] = reply.buffer) :
    ∀ slot ∈ fill i reply slots, slot.Whole protocol cluster := by
  induction slots generalizing i with
  | nil => simp [fill]
  | cons slot slots ih =>
    obtain ⟨hslot, hslots⟩ := List.forall_mem_cons.1 h
    rw [tags_cons] at htag
    rw [fill]
    split_ifs with hlt
    · rw [List.getElem?_append_left (by rwa [Slot.length_tags])] at htag
      exact List.forall_mem_cons.2 ⟨hslot.fill htag hone, hslots⟩
    · rw [List.getElem?_append_right (by rw [Slot.length_tags]; omega), Slot.length_tags] at htag
      exact List.forall_mem_cons.2 ⟨hslot, ih hslots htag⟩

theorem AllWhole.proxyCallback (h : Inv protocol s) (hwhole : AllWhole protocol cluster s) {backend : ℕ}
    {e : ℕ × RedisCluster} (he : nextRequest s backend = some e) {reply : RedisReply}
    (horderly : Orderly protocol cluster s (.reply backend (some reply))) :
    AllWhole protocol cluster (proxyCallback protocol e.2 reply (popRequest s backend)) := by
  obtain ⟨before, after, hsplit, hpop⟩ := nextRequest_split he
  have hmem : e ∈ s.inFlight := by simp [hsplit]
  rw [hpop, RedisProxy.proxyCallback]
  dsimp only
  cases hc : s.conns e.2.sockfd with
  | none => exact hwhole
  | some c =>
    dsimp only
    split_ifs with hserial hproxy
    · exact hwhole
    · exact hwhole.put (by simp [TcpConnection.dropped]) _
    · refine hwhole.put ?_ _
      dsimp only
      rw [noteReply]
      split_ifs with hepoch
      · have hfresh : Fresh e.2.sockfd c e.2 := ⟨rfl, (not_not.1 hserial).symm, hepoch⟩
        obtain ⟨first, hk⟩ := h.kept e.2.sockfd c hc
        exact whole_fill (hwhole _ c hc) (hk.sits e hmem hfresh).2.1
          fun hcluster f => horderly hcluster hproxy e he c hc hfresh f
      · exact hwhole _ c hc

end Reply

/-! ### Runs -/

section Runs

variable {protocol} {s s' : State} {cluster : Bool}

theorem onConnection_eq_next {sockfd : ℕ} {f : TcpConnection → State} :
    onConnection s sockfd f = .next s' ↔ ∃ c, s.conns sockfd = some c ∧ f c = s' := by
  rw [onConnection]
  cases s.conns sockfd <;> simp

/-- What holds in every state of a run. -/
def Sound (protocol : Protocol) (cluster : Bool) (s : State) : Prop := Inv protocol s ∧ AllWhole protocol cluster s

theorem sound_init : Sound protocol cluster init := by
  refine ⟨⟨?_, List.nodup_nil, ?_, ?_, ?_⟩, ?_⟩
  · intro sockfd c hc
    cases hc
  · intro e he
    cases he
  · intro e he
    cases he
  · intro sockfd c hc
    cases hc
  · intro sockfd c hc
    cases hc

private theorem sound_connect {sockfd : ℕ} (h : Sound protocol cluster s) (hnone : s.conns sockfd = none)
    (hsettled : Settled s (.connect sockfd)) :
    Sound protocol cluster
      { s.put sockfd { serial := s.opened } (s.books sockfd) with opened := s.opened + 1 } := by
  obtain ⟨hinv, hwhole⟩ := h
  have hstale : ∀ e ∈ s.inFlight, ∀ sockfd' (c : TcpConnection), c.serial = s.opened → ¬ Fresh sockfd' c e.2 := by
    rintro e he sockfd' c hserial ⟨-, hserial', -⟩
    exact absurd (hserial'.trans hserial) (Nat.ne_of_lt (hinv.known e he))
  refine ⟨⟨?_, hinv.distinct, fun e he => Nat.lt_succ_of_lt (hinv.known e he), ?_, ?_⟩, ?_⟩
  · intro sockfd' c hc
    simp only [State.put, Function.update_apply] at hc ⊢
    split_ifs at hc ⊢ with heq
    · cases hc
      obtain ⟨hsends, hreplys, hcommand⟩ := hsettled hnone
      exact ⟨_, Kept.start rfl rfl hsends hreplys hcommand (fun _ => rfl) fun e he => hstale e he _ _ rfl⟩
    · exact hinv.kept sockfd' c hc
  · intro e he c hc hserial
    simp only [State.put, Function.update_apply] at hc
    split_ifs at hc with heq
    · cases hc
      exact absurd hserial (Nat.ne_of_lt (hinv.known e he))
    · exact hinv.past e he c hc hserial
  · intro sockfd' c hc
    simp only [State.put, Function.update_apply] at hc
    split_ifs at hc with heq
    · cases hc
      exact Nat.lt_succ_self _
    · exact Nat.lt_succ_of_lt (hinv.opened sockfd' c hc)
  · intro sockfd' c hc
    simp only [State.put, Function.update_apply] at hc
    split_ifs at hc with heq
    · cases hc
      simp
    · exact hwhole sockfd' c hc

private theorem sound_disconnect (h : Sound protocol cluster s) (sockfd : ℕ) :
    Sound protocol cluster { s with conns := Function.update s.conns sockfd none } := by
  have hconns : ∀ {sockfd' c}, Function.update s.conns sockfd none sockfd' = some c → s.conns sockfd' = some c := by
    intro sockfd' c hc
    rw [Function.update_apply] at hc
    split_ifs at hc
    exact hc
  obtain ⟨hinv, hwhole⟩ := h
  exact ⟨⟨fun sockfd' c hc => hinv.kept sockfd' c (hconns hc), hinv.distinct, hinv.known,
    fun e he c hc => hinv.past e he c (hconns hc), fun sockfd' c hc => hinv.opened sockfd' c (hconns hc)⟩,
    fun sockfd' c hc => hwhole sockfd' c (hconns hc)⟩

private theorem sound_answer {sockfd : ℕ} {c c' : TcpConnection} (h : Sound protocol cluster s)
    (hc : s.conns sockfd = some c) (hsends : (s.books sockfd).proxySends = []) {text : Bytes}
    (houtput : c'.output = c.output ++ text) (hslots : c'.slots = c.slots ++ [.answered text])
    (hserial : c'.serial = c.serial) (hepoch : c'.epoch = c.epoch) (hbase : c'.base = c.base) :
    Sound protocol cluster (s.put sockfd c' (s.books sockfd)) := by
  obtain ⟨hinv, hwhole⟩ := h
  obtain ⟨first, hk⟩ := hinv.kept sockfd c hc
  refine ⟨hinv.put_same hc hserial (Nat.le_of_eq hepoch.symm)
    ⟨first, hk.answer hsends houtput hslots hserial hepoch hbase⟩, hwhole.put ?_ _⟩
  rw [hslots]
  exact hwhole.push hc trivial

private theorem sound_processCommand {sockfd : ℕ} {c : TcpConnection} (h : Sound protocol cluster s)
    (hc : s.conns sockfd = some c) {command : Command} {backend : Except Bytes ℕ}
    (hcluster : ¬ (cluster ∧ command ≠ .plain))
    (horderly : Orderly protocol cluster s (.forward sockfd command backend)) :
    Sound protocol cluster (processCommand sockfd c command backend s) := by
  obtain ⟨hinv, hwhole⟩ := h
  cases backend with
  | error text => exact ⟨hinv.refuse hc text, hwhole.put (by simp [TcpConnection.dropped]) _⟩
  | ok backend =>
    refine ⟨hinv.ask hc (by simp [Slot.pieces]) (by simp [Slot.tags]) backend, hwhole.put (hwhole.push hc ?_) _⟩
    cases command with
    | plain => trivial
    | replied f =>
      have hzero := horderly rfl (by simp)
      refine ⟨by simpa using hcluster, by rw [hzero], ?_⟩
      rintro _ ⟨⟩

private theorem sound_backendDown (h : Sound protocol cluster s) (hsettled : Settled s .backendDown) :
    Sound protocol cluster { s with
      conns := fun sockfd => (s.conns sockfd).map TcpConnection.dropped
      books := fun sockfd => (s.books sockfd).clearCurrentThread } := by
  obtain ⟨hinv, hwhole⟩ := h
  refine ⟨⟨?_, hinv.distinct, hinv.known, ?_, ?_⟩, ?_⟩
  · intro sockfd c' hc'
    obtain ⟨c, hc, rfl⟩ := Option.map_eq_some_iff.1 hc'
    refine ⟨_, Kept.dropped (hsettled sockfd c hc) rfl rfl ?_⟩
    intro e he hsockfd hserial
    exact hinv.past e he c (hsockfd ▸ hc) hserial
  · intro e he c' hc' hserial
    obtain ⟨c, hc, rfl⟩ := Option.map_eq_some_iff.1 hc'
    exact Nat.le_succ_of_le (hinv.past e he c hc hserial)
  · intro sockfd c' hc'
    obtain ⟨c, hc, rfl⟩ := Option.map_eq_some_iff.1 hc'
    exact hinv.opened sockfd c hc
  · intro sockfd c' hc'
    obtain ⟨c, hc, rfl⟩ := Option.map_eq_some_iff.1 hc'
    simp [TcpConnection.dropped]

theorem step_sound (h : Sound protocol cluster s) {a : Action} (horderly : Orderly protocol cluster s a)
    (hsettled : Settled s a) (hstep : step protocol cluster s a = .next s') : Sound protocol cluster s' := by
  cases a with
  | connect sockfd =>
    simp only [step] at hstep
    cases hc : s.conns sockfd with
    | some c => simp [hc] at hstep
    | none =>
      rw [hc] at hstep
      cases hstep
      exact sound_connect h hc hsettled
  | disconnect sockfd =>
    obtain ⟨c, hc, rfl⟩ := onConnection_eq_next.1 hstep
    exact sound_disconnect h sockfd
  | forward sockfd command backend =>
    simp only [step] at hstep
    split_ifs at hstep with hcluster
    obtain ⟨c, hc, rfl⟩ := onConnection_eq_next.1 hstep
    exact sound_processCommand h hc hcluster horderly
  | fanOut sockfd f backends =>
    simp only [step] at hstep
    split_ifs at hstep with hcluster
    obtain ⟨c, hc, rfl⟩ := onConnection_eq_next.1 hstep
    exact h.1.asyncCommand h.2 hc hcluster.2 hsettled
  | answer sockfd text =>
    obtain ⟨c, hc, rfl⟩ := onConnection_eq_next.1 hstep
    exact sound_answer h hc horderly (List.append_assoc ..).symm rfl rfl rfl rfl
  | keys sockfd keys =>
    simp only [step] at hstep
    split_ifs at hstep with hcluster
    obtain ⟨c, hc, rfl⟩ := onConnection_eq_next.1 hstep
    refine sound_answer h hc horderly.1 ?_ rfl rfl rfl rfl
    simp [keysCommand, TcpConnection.output, horderly.2 c hc]
  | write sockfd n =>
    obtain ⟨c, hc, rfl⟩ := onConnection_eq_next.1 hstep
    obtain ⟨first, hk⟩ := h.1.kept sockfd c hc
    refine ⟨h.1.put_same hc rfl (Nat.le_refl _) ⟨first, hk.write n⟩, h.2.put ?_ _⟩
    exact h.2 sockfd c hc
  | reply backend reply =>
    simp only [step] at hstep
    cases he : nextRequest s backend with
    | none => simp [he] at hstep
    | some e =>
      rw [he] at hstep
      cases reply with
      | none => cases hstep
      | some reply =>
        cases hstep
        exact ⟨h.1.proxyCallback he hsettled, AllWhole.proxyCallback h.1 h.2 he horderly⟩
  | backendDown =>
    cases hstep
    exact sound_backendDown h hsettled

theorem run_sound {actions : List Action}
    (hmeets : Meets (step protocol cluster) (fun s a => Orderly protocol cluster s a ∧ Settled s a) init actions)
    (hrun : run (step protocol cluster) init actions = .next s) : Sound protocol cluster s := by
  refine @Transition.run_invariant _ _ _ _ (fun _ s => Sound protocol cluster s) init sound_init ?_ _ hmeets _ hrun
  intro _ s a s' hsound ha hstep
  exact step_sound hsound ha.1 ha.2 hstep

/-- What has been written to a client is what it is to see. -/
theorem Sound.output_eq (h : Sound protocol cluster s) {sockfd : ℕ} {c : TcpConnection}
    (hc : s.conns sockfd = some c) : c.output = c.base ++ delivered protocol c.slots := by
  obtain ⟨first, hk⟩ := h.1.kept sockfd c hc
  rw [← foldl_deliver_pieces protocol (h.2 sockfd c hc), hk.written]

/-- When no request of the connection is in flight, all its commands have their replies. -/
theorem Sound.reply_ne_none (h : Sound protocol cluster s) {sockfd : ℕ} {c : TcpConnection}
    (hc : s.conns sockfd = some c) (hidle : ∀ e ∈ s.inFlight, ¬ Fresh sockfd c e.2) :
    ∀ slot ∈ c.slots, slot.reply protocol ≠ none := by
  obtain ⟨first, hk⟩ := h.1.kept sockfd c hc
  refine RedisProxy.reply_ne_none protocol (h.2 sockfd c hc) fun hmem => ?_
  obtain ⟨i, hi⟩ := List.mem_iff_getElem?.1 hmem
  obtain ⟨e, he, hfresh, -⟩ := hk.asked i hi
  exact hidle e he hfresh

end Runs

end RedisProxy
