import SwissArmyKnife.Lib.Transition
import Mathlib.Data.List.Nodup
import Mathlib.Data.List.Perm.Basic
import Mathlib.Logic.Function.Basic

/-!
# Remote procedure calls

A channel gives each call an id, which is one more than what a variable without a value holds (`CallMethod`), keeps
the call in a map, and completes the call that it finds there when a response comes (`onRpcMessage`).  A call that is
registered takes the place of one with the same id.  The responses reach their own calls in the runs in which no id
comes twice (`run_exact`).
-/

namespace Rpc

open Transition (Outcome Meets run)

abbrev Bytes := List UInt8

/-- A call of `CallMethod`, with whether its `response` and its `done` are there. -/
structure Call where
  id : Int64
  response : Bool
  done : Bool
deriving DecidableEq, Repr

/-- An entry of the map, with the number of its call. -/
structure OutstandingCall where
  call : ℕ
  response : Bool
  done : Bool
deriving DecidableEq, Repr

/-- A response message for which there was an entry in the map. -/
structure Answer where
  out : OutstandingCall
  id : Int64
  response : Bytes
deriving DecidableEq, Repr

/-- A channel.  The calls are numbered from 0 on; `registered` and `sent` say how far each has got, `taken` has the
messages whose entry has been taken out of the map, `parsed` those that have been parsed, and `ran` the calls whose
closure has run. -/
structure RpcChannel where
  calls : List Call
  registered : List ℕ
  sent : List (ℕ × Int64)
  outstandings : Int64 → Option OutstandingCall
  taken : List Answer
  parsed : List Answer
  ran : List ℕ

def RpcChannel.init : RpcChannel := ⟨[], [], [], fun _ => none, [], [], []⟩

/-- The steps of `CallMethod` and of `onRpcMessage` with a `RESPONSE`, taken by any number of threads. -/
inductive Action where
  | generate (garbage : Int64) (response done : Bool)
  | register (call : ℕ)
  | send (call : ℕ)
  | receive (id : Int64) (response : Bytes)
  | complete (answer : Answer)
deriving DecidableEq, Repr

/-- A response message comes. -/
def receive (s : RpcChannel) (id : Int64) (response : Bytes) : RpcChannel :=
  match s.outstandings id with
  | none => s
  | some out =>
    let s := { s with outstandings := Function.update s.outstandings id none }
    if out.response then { s with taken := s.taken ++ [⟨out, id, response⟩] } else s

def step (s : RpcChannel) : Action → Outcome RpcChannel
  | .generate garbage response done =>
    -- the declaration hides the member of that name, and its own value is not set yet
    let id := garbage + 1
    .next { s with calls := s.calls ++ [⟨id, response, done⟩] }
  | .register call =>
    match s.calls[call]? with
    | none => .disabled
    | some x =>
      if call ∈ s.registered then .disabled
      else .next { s with
        registered := s.registered ++ [call]
        outstandings := Function.update s.outstandings x.id (some ⟨call, x.response, x.done⟩) }
  | .send call =>
    match s.calls[call]? with
    | none => .disabled
    | some x =>
      if call ∈ s.registered ∧ (call, x.id) ∉ s.sent then .next { s with sent := s.sent ++ [(call, x.id)] }
      else .disabled
  | .receive id response => .next (receive s id response)
  | .complete answer =>
    if answer ∈ s.taken then
      .next { s with
        taken := s.taken.erase answer
        parsed := s.parsed ++ [answer]
        ran := if answer.out.done then s.ran ++ [answer.out.call] else s.ran }
    else .disabled

namespace RpcChannel

/-- The calls that have been given a response. -/
def answered (s : RpcChannel) : List ℕ := (s.taken ++ s.parsed).map fun answer => answer.out.call

/-- The call with this number and this id waits for its response. -/
def Waiting (s : RpcChannel) (call : ℕ) (id : Int64) : Prop :=
  (∃ x, s.calls[call]? = some x ∧ x.id = id) ∧ call ∈ s.registered ∧ call ∉ s.answered

/-- The responses reach their own calls. -/
structure Exact (s : RpcChannel) : Prop where
  /-- Calls that are not completed have different ids. -/
  distinct : ∀ call call' x x', s.calls[call]? = some x → s.calls[call']? = some x' →
    call ∉ s.parsed.map (·.out.call) → call' ∉ s.parsed.map (·.out.call) → x.id = x'.id → call = call'
  /-- A request carries the id of its call. -/
  carried : ∀ request ∈ s.sent, ∃ x, s.calls[request.1]? = some x ∧ x.id = request.2
  /-- What completed a call is a response with the id that its request, and no other request, carried. -/
  own : ∀ answer ∈ s.parsed, ∀ request ∈ s.sent, request.2 = answer.id → request.1 = answer.out.call
  /-- A response completes the call that waits with its id, with the closure of that call. -/
  completes : ∀ call x response, s.calls[call]? = some x → s.Waiting call x.id →
    (receive s x.id response).taken = s.taken ++ [⟨⟨call, true, x.done⟩, x.id, response⟩]
  /-- A response with an id with which no call waits does nothing. -/
  ignored : ∀ id response, (∀ call, ¬ s.Waiting call id) → receive s id response = s
  /-- No call is completed twice, and no closure runs twice. -/
  once : s.answered.Nodup ∧ s.ran.Nodup

/-- What holds in every state of a run in which no id comes twice. -/
structure Inv (s : RpcChannel) : Prop where
  ids : (s.calls.map Call.id).Nodup
  present : ∀ x ∈ s.calls, x.response = true
  known : ∀ call ∈ s.registered, call < s.calls.length
  entry : ∀ id out, s.outstandings id = some out ↔
    ∃ x, s.calls[out.call]? = some x ∧ x.id = id ∧ out = ⟨out.call, x.response, x.done⟩ ∧
      out.call ∈ s.registered ∧ out.call ∉ s.answered
  carried : ∀ request ∈ s.sent, ∃ x, s.calls[request.1]? = some x ∧ x.id = request.2
  answers : ∀ answer ∈ s.taken ++ s.parsed, ∃ x, s.calls[answer.out.call]? = some x ∧ x.id = answer.id ∧
    answer.out.call ∈ s.registered
  once : s.answered.Nodup
  ran : s.ran.Sublist (s.parsed.map fun answer => answer.out.call)

namespace Inv

variable {s : RpcChannel}

theorem call_inj (h : s.Inv) {call call' : ℕ} {x x' : Call} (hx : s.calls[call]? = some x)
    (hx' : s.calls[call']? = some x') (hid : x.id = x'.id) : call = call' := by
  have hlt : call < (s.calls.map Call.id).length := by
    rw [List.length_map]
    exact (List.getElem?_eq_some_iff.1 hx).1
  refine (List.getElem?_inj hlt h.ids).1 ?_
  rw [List.getElem?_map, List.getElem?_map, hx, hx', Option.map_some, Option.map_some, hid]

/-- The entry of a call that waits. -/
theorem entry_of_waiting (h : s.Inv) {call : ℕ} {x : Call} (hx : s.calls[call]? = some x)
    (hwaiting : s.Waiting call x.id) :
    s.outstandings x.id = some ⟨call, true, x.done⟩ := by
  obtain ⟨-, hregistered, hnot⟩ := hwaiting
  have hpresent := h.present x (List.mem_of_getElem? hx)
  refine (h.entry x.id ⟨call, true, x.done⟩).2 ⟨x, hx, rfl, ?_, hregistered, hnot⟩
  rw [hpresent]

theorem exact (h : s.Inv) : s.Exact where
  distinct call call' x x' hx hx' _ _ hid := h.call_inj hx hx' hid
  carried := h.carried
  own answer hanswer request hrequest hid := by
    obtain ⟨x, hx, hxid⟩ := h.carried request hrequest
    obtain ⟨y, hy, hyid, -⟩ := h.answers answer (List.mem_append_right _ hanswer)
    refine h.call_inj hx hy ?_
    rw [hxid, hid, hyid]
  completes call x response hx hwaiting := by
    rw [receive, h.entry_of_waiting hx hwaiting]
    rfl
  ignored id response hnone := by
    cases hentry : s.outstandings id with
    | none => rw [receive, hentry]
    | some out =>
      obtain ⟨x, hx, hid, -, hregistered, hnot⟩ := (h.entry id out).1 hentry
      exact absurd ⟨⟨x, hx, hid⟩, hregistered, hnot⟩ (hnone out.call)
  once := by
    refine ⟨h.once, h.ran.nodup ?_⟩
    have honce := h.once
    rw [answered, List.map_append] at honce
    exact honce.of_append_right

theorem init : RpcChannel.init.Inv := by
  refine ⟨List.nodup_nil, ?_, ?_, ?_, ?_, ?_, List.nodup_nil, List.nil_sublist _⟩
  · intro x hx
    cases hx
  · intro call hcall
    cases hcall
  · intro id out
    constructor
    · intro h
      cases h
    · rintro ⟨x, hx, -⟩
      simp [RpcChannel.init] at hx
  · intro request hrequest
    cases hrequest
  · intro answer hanswer
    cases hanswer

private theorem generate (h : s.Inv) {x : Call} (hpresent : x.response = true) (hfresh : ∀ y ∈ s.calls, y.id ≠ x.id) :
    Inv { s with calls := s.calls ++ [x] } := by
  have hkeep {call : ℕ} {y : Call} (hy : s.calls[call]? = some y) : (s.calls ++ [x])[call]? = some y := by
    rw [List.getElem?_append_left (List.getElem?_eq_some_iff.1 hy).1, hy]
  refine ⟨?_, ?_, ?_, ?_, ?_, ?_, h.once, h.ran⟩
  · rw [List.map_append, List.nodup_append]
    refine ⟨h.ids, List.nodup_singleton _, ?_⟩
    rintro id hid id' hid' rfl
    obtain ⟨y, hy, rfl⟩ := List.mem_map.1 hid
    exact hfresh y hy (List.mem_singleton.1 hid')
  · intro y hy
    rcases List.mem_append.1 hy with hy | hy
    · exact h.present y hy
    · rw [List.mem_singleton.1 hy, hpresent]
  · intro call hcall
    have := h.known call hcall
    rw [List.length_append]
    omega
  · intro id out
    rw [h.entry id out]
    constructor
    · rintro ⟨y, hy, hrest⟩
      exact ⟨y, hkeep hy, hrest⟩
    · rintro ⟨y, hy, hid, hout, hregistered, hnot⟩
      rw [List.getElem?_append_left (h.known out.call hregistered)] at hy
      exact ⟨y, hy, hid, hout, hregistered, hnot⟩
  · intro request hrequest
    obtain ⟨y, hy, hid⟩ := h.carried request hrequest
    exact ⟨y, hkeep hy, hid⟩
  · intro answer hanswer
    obtain ⟨y, hy, hid, hregistered⟩ := h.answers answer hanswer
    exact ⟨y, hkeep hy, hid, hregistered⟩

private theorem register (h : s.Inv) {call : ℕ} {x : Call} (hx : s.calls[call]? = some x)
    (hnot : call ∉ s.registered) : Inv { s with
      registered := s.registered ++ [call]
      outstandings := Function.update s.outstandings x.id (some ⟨call, x.response, x.done⟩) } := by
  have hanswered : call ∉ s.answered := by
    intro hmem
    obtain ⟨answer, hanswer, rfl⟩ := List.mem_map.1 hmem
    obtain ⟨y, -, -, hregistered⟩ := h.answers answer hanswer
    exact hnot hregistered
  refine ⟨h.ids, h.present, ?_, ?_, h.carried, ?_, h.once, h.ran⟩
  · intro call' hcall'
    rcases List.mem_append.1 hcall' with hcall' | hcall'
    · exact h.known call' hcall'
    · rw [List.mem_singleton.1 hcall']
      exact (List.getElem?_eq_some_iff.1 hx).1
  · intro id out
    dsimp only
    rw [Function.update_apply]
    split_ifs with hid
    · subst hid
      constructor
      · intro hout
        cases hout
        exact ⟨x, hx, rfl, rfl, by simp, hanswered⟩
      · rintro ⟨y, hy, hid, hout, -, -⟩
        have hcall := h.call_inj hy hx hid
        rw [hcall, hx] at hy
        cases hy
        rw [hout, hcall]
    · rw [h.entry id out]
      constructor
      · rintro ⟨y, hy, hyid, hout, hregistered, hrest⟩
        exact ⟨y, hy, hyid, hout, List.mem_append_left _ hregistered, hrest⟩
      · rintro ⟨y, hy, hyid, hout, hregistered, hrest⟩
        rcases List.mem_append.1 hregistered with hregistered | hregistered
        · exact ⟨y, hy, hyid, hout, hregistered, hrest⟩
        · rw [List.mem_singleton.1 hregistered, hx] at hy
          cases hy
          exact absurd hyid.symm hid
  · intro answer hanswer
    obtain ⟨y, hy, hid, hregistered⟩ := h.answers answer hanswer
    exact ⟨y, hy, hid, List.mem_append_left _ hregistered⟩

private theorem send (h : s.Inv) {call : ℕ} {x : Call} (hx : s.calls[call]? = some x) :
    Inv { s with sent := s.sent ++ [(call, x.id)] } := by
  refine ⟨h.ids, h.present, h.known, h.entry, ?_, h.answers, h.once, h.ran⟩
  intro request hrequest
  rcases List.mem_append.1 hrequest with hrequest | hrequest
  · exact h.carried request hrequest
  · rw [List.mem_singleton.1 hrequest]
    exact ⟨x, hx, rfl⟩

private theorem receive (h : s.Inv) (id : Int64) (response : Bytes) : (Rpc.receive s id response).Inv := by
  cases hentry : s.outstandings id with
  | none => rwa [Rpc.receive, hentry]
  | some out =>
    obtain ⟨x, hx, hid, hout, hregistered, hnot⟩ := (h.entry id out).1 hentry
    have hpresent : out.response = true := by
      rw [hout]
      exact h.present x (List.mem_of_getElem? hx)
    rw [Rpc.receive, hentry]
    dsimp only
    rw [if_pos hpresent]
    have hperm : ((s.taken ++ [(⟨out, id, response⟩ : Answer)] ++ s.parsed).map fun answer => answer.out.call).Perm
        (out.call :: s.answered) := by
      rw [List.append_assoc, List.singleton_append]
      exact List.perm_middle.map _
    refine ⟨h.ids, h.present, h.known, ?_, h.carried, ?_, hperm.nodup_iff.2 (List.nodup_cons.2 ⟨hnot, h.once⟩), h.ran⟩
    · intro id' out'
      dsimp only
      rw [Function.update_apply]
      rw [answered, hperm.mem_iff, List.mem_cons, not_or]
      split_ifs with heq
      · subst heq
        constructor
        · intro h'
          cases h'
        · rintro ⟨y, hy, hyid, -, -, hne, -⟩
          exact absurd (h.call_inj hy hx (hyid.trans hid.symm)) hne
      · rw [h.entry id' out']
        constructor
        · rintro ⟨y, hy, hyid, hout', hregistered', hnot'⟩
          refine ⟨y, hy, hyid, hout', hregistered', fun hcall => ?_, hnot'⟩
          rw [hcall, hx] at hy
          cases hy
          exact heq (hyid.symm.trans hid)
        · rintro ⟨y, hy, hyid, hout', hregistered', -, hnot'⟩
          exact ⟨y, hy, hyid, hout', hregistered', hnot'⟩
    · intro answer hanswer
      rw [List.append_assoc, List.singleton_append] at hanswer
      rcases List.mem_cons.1 (List.perm_middle.mem_iff.1 hanswer) with rfl | hanswer
      · exact ⟨x, hx, hid, hregistered⟩
      · exact h.answers answer hanswer

private theorem complete (h : s.Inv) {answer : Answer} (hanswer : answer ∈ s.taken) : Inv { s with
    taken := s.taken.erase answer
    parsed := s.parsed ++ [answer]
    ran := if answer.out.done then s.ran ++ [answer.out.call] else s.ran } := by
  have hperm : (s.taken.erase answer ++ (s.parsed ++ [answer])).Perm (s.taken ++ s.parsed) := by
    rw [← List.append_assoc]
    refine (List.perm_append_singleton answer _).trans ?_
    exact (List.perm_cons_erase hanswer).symm.append_right s.parsed
  have hcalls := hperm.map fun answer : Answer => answer.out.call
  refine ⟨h.ids, h.present, h.known, ?_, h.carried, fun a ha => h.answers a (hperm.mem_iff.1 ha),
    hcalls.nodup_iff.2 h.once, ?_⟩
  · intro id out
    rw [h.entry id out]
    refine exists_congr fun x => and_congr_right fun _ => and_congr_right fun _ => and_congr_right fun _ =>
      and_congr_right fun _ => not_congr ?_
    exact hcalls.mem_iff.symm
  · dsimp only
    rw [List.map_append]
    split_ifs
    · exact h.ran.append (List.Sublist.refl _)
    · exact h.ran.trans (List.sublist_append_left ..)

end Inv

/-- The id of a new call is not that of another call, and the call has a response to fill. -/
def Fresh (s : RpcChannel) : Action → Prop
  | .generate garbage response _ => response = true ∧ ∀ x ∈ s.calls, x.id ≠ garbage + 1
  | _ => True

theorem Inv.step {s s' : RpcChannel} (h : s.Inv) {a : Action} (hfresh : s.Fresh a) (hstep : Rpc.step s a = .next s') :
    s'.Inv := by
  cases a with
  | generate garbage response done =>
    cases hstep
    exact h.generate hfresh.1 hfresh.2
  | register call =>
    simp only [Rpc.step] at hstep
    cases hx : s.calls[call]? with
    | none => simp [hx] at hstep
    | some x =>
      simp only [hx] at hstep
      split_ifs at hstep with hnot
      cases hstep
      exact h.register hx hnot
  | send call =>
    simp only [Rpc.step] at hstep
    cases hx : s.calls[call]? with
    | none => simp [hx] at hstep
    | some x =>
      simp only [hx] at hstep
      split_ifs at hstep
      cases hstep
      exact h.send hx
  | receive id response =>
    cases hstep
    exact h.receive id response
  | complete answer =>
    by_cases hanswer : answer ∈ s.taken
    · rw [Rpc.step, if_pos hanswer] at hstep
      cases hstep
      exact h.complete hanswer
    · rw [Rpc.step, if_neg hanswer] at hstep
      cases hstep

end RpcChannel

/-- The responses reach their own calls as long as no id comes twice. -/
theorem run_exact {actions : List Action} {s : RpcChannel} (hmeets : Meets step RpcChannel.Fresh .init actions)
    (hrun : run step .init actions = .next s) : s.Exact := by
  refine RpcChannel.Inv.exact ?_
  refine @Transition.run_invariant _ _ _ _ (fun _ s => s.Inv) _ RpcChannel.Inv.init ?_ _ hmeets _ hrun
  intro _ s a s' hinv hfresh hstep
  exact hinv.step hfresh hstep

/-- Two calls, and a response with the id of the second one. -/
def twoCalls (garbage garbage' : Int64) : List Action :=
  [.generate garbage true true, .register 0, .send 0, .generate garbage' true true, .register 1, .send 1,
    .receive (garbage' + 1) [7], .complete ⟨⟨1, true, true⟩, garbage' + 1, [7]⟩]

theorem run_exact_two : ∃ s, run step .init (twoCalls 0 1) = .next s ∧ s.Exact := by
  refine ⟨_, rfl, @run_exact (twoCalls 0 1) _ ?_ rfl⟩
  refine ⟨⟨rfl, nofun⟩, ?_⟩
  rintro _ ⟨⟩
  refine ⟨trivial, ?_⟩
  rintro _ ⟨⟩
  refine ⟨trivial, ?_⟩
  rintro _ ⟨⟩
  refine ⟨⟨rfl, by decide⟩, ?_⟩
  rintro _ ⟨⟩
  refine ⟨trivial, ?_⟩
  rintro _ ⟨⟩
  refine ⟨trivial, ?_⟩
  rintro _ ⟨⟩
  refine ⟨trivial, ?_⟩
  rintro _ ⟨⟩
  refine ⟨trivial, ?_⟩
  rintro _ ⟨⟩
  trivial

/-- When the variable holds the same value in two calls, the response to the first one completes the second one. -/
theorem not_exact_two : ∃ s, run step .init (twoCalls 5 5) = .next s ∧ ¬ s.Exact := by
  refine ⟨_, rfl, fun h => ?_⟩
  have hown := h.own ⟨⟨1, true, true⟩, 6, [7]⟩ (List.mem_singleton_self _) (0, 6) (List.mem_cons_self ..) rfl
  exact absurd hown (by decide)

end Rpc
