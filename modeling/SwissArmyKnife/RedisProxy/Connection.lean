import SwissArmyKnife.RedisProxy.Proxy

/-!
# One connection

`Kept` says how the bookkeeping and the output of a connection belong to its commands: the numbers that are waited for
and the replies that are held back are those of the parts from the first missing one on, and what has been written is
what the parts before it give when they are delivered in order.  It is proved for each thing that can happen to the
connection.
-/

namespace RedisProxy

open Reorder (arrived outstanding)

/-- The request is one of this connection, and has not been dropped. -/
def Fresh (sockfd : ℕ) (c : TcpConnection) (q : RedisCluster) : Prop :=
  q.sockfd = sockfd ∧ q.serial = c.serial ∧ q.epoch = c.epoch

/-- The part of a command that a request is. -/
def RedisCluster.place (q : RedisCluster) : ℕ × ℕ × ℕ × ℕ := (q.sockfd, q.serial, q.epoch, q.position)

theorem Fresh.place_ne {sockfd : ℕ} {c : TcpConnection} {q q' : RedisCluster} (hq : Fresh sockfd c q)
    (hq' : Fresh sockfd c q') (hne : q.place ≠ q'.place) : q.position ≠ q'.position := by
  intro hposition
  apply hne
  rw [RedisCluster.place, RedisCluster.place, hq.1, hq.2.1, hq.2.2, hq'.1, hq'.2.1, hq'.2.2, hposition]

variable (protocol : Protocol)

structure Kept (inFlight : List (ℕ × RedisCluster)) (sockfd : ℕ) (c : TcpConnection) (b : Bookkeeping) (first : ℕ) :
    Prop where
  tracks : Reorder.Tracks b.proxyCount b.proxySends b.proxyReplys first (outstanding (pieces c.slots))
  written : (arrived (pieces c.slots)).foldl (deliver protocol) (c.base, []) = (c.output, b.commandReplys)
  sits : ∀ e ∈ inFlight, Fresh sockfd c e.2 →
    (pieces c.slots)[e.2.position]? = some none ∧
      (tags c.slots)[e.2.position]? = some (e.2.command, e.2.commandCount) ∧
      e.2.proxyCount + (arrived (pieces c.slots)).length = first + e.2.position
  asked : ∀ i, (pieces c.slots)[i]? = some none → ∃ e ∈ inFlight, Fresh sockfd c e.2 ∧ e.2.position = i
  base : c.epoch = 0 → c.base = []

variable {protocol} {inFlight inFlight' : List (ℕ × RedisCluster)} {sockfd : ℕ} {c : TcpConnection} {b : Bookkeeping}
  {first : ℕ}

/-- Only the requests of the connection matter. -/
theorem Kept.congr (h : Kept protocol inFlight sockfd c b first)
    (hmem : ∀ e, Fresh sockfd c e.2 → (e ∈ inFlight' ↔ e ∈ inFlight)) : Kept protocol inFlight' sockfd c b first := by
  refine ⟨h.tracks, h.written, fun e he hfresh => h.sits e ((hmem e hfresh).1 he) hfresh, ?_, h.base⟩
  intro i hi
  obtain ⟨e, he, hfresh, hposition⟩ := h.asked i hi
  exact ⟨e, (hmem e hfresh).2 he, hfresh, hposition⟩

/-- A connection without commands. -/
theorem Kept.start (hslots : c.slots = []) (houtput : c.output = c.base) (hsends : b.proxySends = [])
    (hreplys : b.proxyReplys = []) (hcommand : b.commandReplys = []) (hbase : c.epoch = 0 → c.base = [])
    (hnone : ∀ e ∈ inFlight, ¬ Fresh sockfd c e.2) : Kept protocol inFlight sockfd c b (b.proxyCount + 1) := by
  refine ⟨?_, ?_, fun e he hfresh => absurd hfresh (hnone e he), ?_, hbase⟩
  · rw [hsends, hreplys, hslots]
    exact Reorder.Tracks.nil _
  · rw [hslots, houtput, hcommand]
    rfl
  · intro i hi
    simp [hslots] at hi

theorem Kept.write (h : Kept protocol inFlight sockfd c b first) (n : ℕ) :
    Kept protocol inFlight sockfd
      { c with sent := c.sent ++ c.outputBuffer.take n, outputBuffer := c.outputBuffer.drop n } b first := by
  refine ⟨h.tracks, ?_, h.sits, h.asked, h.base⟩
  rw [TcpConnection.output, List.append_assoc, List.take_append_drop]
  exact h.written

/-- While no number is waited for, nothing is left. -/
theorem Kept.outstanding_eq_nil (h : Kept protocol inFlight sockfd c b first) (hsends : b.proxySends = []) :
    outstanding (pieces c.slots) = [] := by
  have hrange := h.tracks.waiting
  rw [hsends] at hrange
  exact List.eq_nil_of_length_eq_zero (by simpa using congrArg List.length hrange.symm)

/-- The proxy answers a command itself while no number is waited for. -/
theorem Kept.answer (h : Kept protocol inFlight sockfd c b first) (hsends : b.proxySends = []) {c' : TcpConnection}
    {text : Bytes} (houtput : c'.output = c.output ++ text) (hslots : c'.slots = c.slots ++ [.answered text])
    (hserial : c'.serial = c.serial) (hepoch : c'.epoch = c.epoch) (hbase : c'.base = c.base) :
    Kept protocol inFlight sockfd c' b first := by
  have hnil := h.outstanding_eq_nil hsends
  have hall := Reorder.arrived_append_outstanding (pieces c.slots)
  rw [hnil, List.append_nil] at hall
  have hpieces : pieces c'.slots = (arrived (pieces c.slots)).map some ++ [some ⟨textReply text, .plain, 0⟩] := by
    rw [hslots, pieces_append, hall]
    rfl
  have harrived : arrived (pieces c'.slots) = arrived (pieces c.slots) ++ [⟨textReply text, .plain, 0⟩] := by
    rw [hpieces, Reorder.arrived_map_some_append]
    rfl
  have hout : outstanding (pieces c'.slots) = [] := by
    rw [hpieces, Reorder.outstanding_map_some_append]
    rfl
  refine ⟨?_, ?_, ?_, ?_, ?_⟩
  · rw [hout, ← hnil]
    exact h.tracks
  · rw [harrived, List.foldl_append, hbase, h.written, houtput]
    rfl
  · intro e he hfresh
    have hsit := (h.sits e he ⟨hfresh.1, hserial ▸ hfresh.2.1, hepoch ▸ hfresh.2.2⟩).1
    exact absurd (List.mem_of_getElem? hsit) (Reorder.outstanding_eq_nil.1 hnil)
  · intro i hi
    exact absurd (List.mem_of_getElem? hi) (Reorder.outstanding_eq_nil.1 hout)
  · rw [hepoch, hbase]
    exact h.base

/-- One more part is sent. -/
theorem Kept.ask (h : Kept protocol inFlight sockfd c b first) {command : Command}
    {commandCount : ℕ} {slots : List Slot}
    (hpieces : pieces slots = pieces c.slots ++ [none])
    (htags : tags slots = tags c.slots ++ [(command, commandCount)])
    (backend : ℕ) :
    Kept protocol (inFlight ++ [(backend,
        ⟨sockfd, c.serial, b.proxyCount + 1, command, commandCount, c.epoch, (pieces c.slots).length⟩)]) sockfd
      { c with slots := slots } (b.insertProxyCount.insertProxySend (b.proxyCount + 1)) first := by
  have hlength := Reorder.length_arrived_add (pieces c.slots)
  have hcount := h.tracks.count
  refine ⟨?_, ?_, ?_, ?_, h.base⟩
  · rw [hpieces, Reorder.outstanding_append_none]
    exact h.tracks.ask
  · rw [hpieces, Reorder.arrived_append_none]
    exact h.written
  · intro e he hfresh
    rw [hpieces, htags, Reorder.arrived_append_none]
    rcases List.mem_append.1 he with he | he
    · obtain ⟨hpiece, htag, hnumber⟩ := h.sits e he hfresh
      rw [List.getElem?_append_left (List.getElem?_eq_some_iff.1 hpiece).1,
        List.getElem?_append_left (List.getElem?_eq_some_iff.1 htag).1]
      exact ⟨hpiece, htag, hnumber⟩
    · obtain rfl := List.mem_singleton.1 he
      dsimp only
      rw [List.getElem?_concat_length, ← length_tags, List.getElem?_concat_length]
      exact ⟨rfl, rfl, by rw [length_tags]; omega⟩
  · intro i hi
    rw [hpieces] at hi
    by_cases hlt : i < (pieces c.slots).length
    · rw [List.getElem?_append_left hlt] at hi
      obtain ⟨e, he, hfresh, hposition⟩ := h.asked i hi
      exact ⟨e, List.mem_append_left _ he, hfresh, hposition⟩
    · have hlt' := (List.getElem?_eq_some_iff.1 hi).1
      rw [List.length_append, List.length_singleton] at hlt'
      exact ⟨_, List.mem_append_right _ (List.mem_singleton_self _), ⟨rfl, rfl, rfl⟩, by dsimp only; omega⟩

/-- The bookkeeping is dropped, and the requests in flight with it. -/
theorem Kept.dropped (hreplys : b.proxyReplys = []) (hsends : b.proxySends = []) (hcommand : b.commandReplys = [])
    (hpast : ∀ e ∈ inFlight, e.2.sockfd = sockfd → e.2.serial = c.serial → e.2.epoch ≤ c.epoch) :
    Kept protocol inFlight sockfd c.dropped b (b.proxyCount + 1) := by
  refine Kept.start rfl rfl hsends hreplys hcommand (fun h => absurd h (Nat.succ_ne_zero _)) ?_
  rintro e he ⟨hsockfd, hserial, hepoch⟩
  have hle := hpast e he hsockfd hserial
  have hepoch' : e.2.epoch = c.epoch + 1 := hepoch
  omega

/-! ### A reply comes -/

/-- A reply whose number is not waited for is discarded. -/
theorem deliverReply_of_notMem {proxyCount : ℕ} {r : Buffered} {outputBuffer : Bytes}
    (hnot : proxyCount ∉ b.proxySends) : deliverReply protocol proxyCount r b outputBuffer = (b, outputBuffer) := by
  rw [deliverReply]
  split
  · rfl
  · rw [if_neg hnot]

/-- The reply to a request that has not been dropped is held, and what is complete is delivered. -/
theorem Kept.deliver (h : Kept protocol inFlight sockfd c b first)
    (hdistinct : (inFlight.map fun e => e.2.place).Nodup) {e : ℕ × RedisCluster}
    {before after : List (ℕ × RedisCluster)}
    (hsplit : inFlight = before ++ e :: after) (hfresh : Fresh sockfd c e.2) (reply : RedisReply)
    {r : Bookkeeping × Bytes}
    (hr : deliverReply protocol e.2.proxyCount ⟨reply, e.2.command, e.2.commandCount⟩ b c.outputBuffer = r) :
    ∃ first', Kept protocol (before ++ after) sockfd
      { c with outputBuffer := r.2, slots := fill e.2.position reply c.slots } r.1 first' := by
  have hmem : e ∈ inFlight := by simp [hsplit]
  obtain ⟨hpiece, htag, hnumber⟩ := h.sits e hmem hfresh
  have hpieces := pieces_fill (r := reply) hpiece htag
  have hle := Reorder.length_arrived_le hpiece
  have hout := Reorder.getElem?_outstanding hle
  rw [hpiece] at hout
  set position := e.2.position
  set done := arrived (pieces c.slots)
  set left := outstanding (pieces c.slots)
  set reply' : Buffered := ⟨reply, e.2.command, e.2.commandCount⟩
  set left' := left.set (position - done.length) (some reply')
  have hnumber' : e.2.proxyCount = first + (position - done.length) := by omega
  have hlt : position - done.length < (outstanding (pieces c.slots)).length := (List.getElem?_eq_some_iff.1 hout).1
  have hwaiting : e.2.proxyCount ∈ b.proxySends := h.tracks.mem_waiting.2 ⟨by omega, by omega⟩
  -- the parts with the reply among them
  have hset : pieces (fill position reply c.slots) = done.map some ++ left' := by
    rw [hpieces, Reorder.set_eq_append hle]
  have harrived : arrived (pieces (fill position reply c.slots)) = done ++ arrived left' := by
    rw [hset, Reorder.arrived_map_some_append]
  have houtstanding : outstanding (pieces (fill position reply c.slots)) = outstanding left' := by
    rw [hset, Reorder.outstanding_map_some_append]
  have hothers : ∀ i, i ≠ position → (pieces (fill position reply c.slots))[i]? = (pieces c.slots)[i]? := by
    intro i hi
    rw [hpieces, List.getElem?_set_ne (Ne.symm hi)]
  have hposition : ∀ e' ∈ before ++ after, Fresh sockfd c e'.2 → e'.2.position ≠ position := by
    intro e' he' hfresh'
    refine hfresh'.place_ne hfresh ?_
    have hnodup : (e.2.place :: (before ++ after).map fun e => e.2.place).Nodup := by
      rw [hsplit] at hdistinct
      refine (List.Perm.nodup_iff ?_).1 hdistinct
      exact (List.perm_middle.map _)
    intro heq
    exact (List.nodup_cons.1 hnodup).1 (List.mem_map.2 ⟨e', he', heq⟩)
  -- what the callback does
  cases hsends : b.proxySends with
  | nil => rw [hsends] at hwaiting; cases hwaiting
  | cons n ns =>
    obtain rfl := h.tracks.head_waiting hsends
    rw [deliverReply, hsends] at hr
    dsimp only at hr
    rw [← hsends, if_pos hwaiting] at hr
    obtain ⟨htracks, hstate⟩ := h.tracks.arrive hout reply' (RedisProxy.deliver protocol)
      (c.outputBuffer, b.commandReplys) rfl
    rw [← hnumber'] at htracks hstate
    subst hr
    refine ⟨n + (arrived left').length, ?_, ?_, ?_, ?_, h.base⟩
    · rw [houtstanding]
      exact htracks
    · rw [harrived, List.foldl_append, h.written, TcpConnection.output, foldl_deliver_append]
      dsimp only
      rw [hstate]
      rfl
    · intro e' he' hfresh'
      have hne := hposition e' he' hfresh'
      have hmem' : e' ∈ inFlight := by
        rw [hsplit]
        exact List.perm_middle.mem_iff.2 (List.mem_cons_of_mem _ he')
      obtain ⟨hpiece', htag', hnumber''⟩ := h.sits e' hmem' hfresh'
      change e'.2.proxyCount + done.length = n + e'.2.position at hnumber''
      dsimp only
      rw [hothers _ hne, tags_fill, harrived, List.length_append]
      exact ⟨hpiece', htag', by omega⟩
    · intro i hi
      have hne : i ≠ position := by
        rintro rfl
        dsimp only at hi
        rw [hpieces, List.getElem?_set_self (List.getElem?_eq_some_iff.1 hpiece).1] at hi
        cases hi
      dsimp only at hi
      rw [hothers _ hne] at hi
      obtain ⟨e', he', hfresh', rfl⟩ := h.asked i hi
      refine ⟨e', ?_, hfresh', rfl⟩
      rw [hsplit] at he'
      rcases List.mem_append.1 he' with he' | he'
      · exact List.mem_append_left _ he'
      · rcases List.mem_cons.1 he' with rfl | he'
        · exact absurd rfl hne
        · exact List.mem_append_right _ he'

end RedisProxy
