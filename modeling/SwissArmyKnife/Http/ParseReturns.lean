import SwissArmyKnife.Http.HeaderEnds

/-!
# Whether the parse loops return

A loop has no way out of `kGotAll`.  `HttpServer` leaves that state before the next call, but `HttpClient` does not,
and neither does `WebServer`, whose `reset` is that of the request (`calls_return_iff`).  A failed assertion ends a
loop, too.
-/

namespace Http

open Ascii (ascii crlf)
open Loop HeadParser

variable {M : Type}

/-- A call of the parser, one for each chunk.  `after` is what the next one starts with, when there is one. -/
inductive Calls (P : HeadParser M) (after : Parsing M → Option (Parsing M)) :
    Parsing M → List Bytes → Parsing M → Prop where
  | now {start : Parsing M} {chunk : Bytes} {chunks : List Bytes} :
      Calls P after start (chunk :: chunks) (start.more chunk)
  | later {start p q next : Parsing M} {chunk : Bytes} {chunks : List Bytes}
      (hends : Ends P.turn (start.more chunk) (some q)) (hafter : after q = some next)
      (h : Calls P after next chunks p) :
    Calls P after start (chunk :: chunks) p

def AllReturn (P : HeadParser M) (after : Parsing M → Option (Parsing M)) (start : Parsing M)
    (chunks : List Bytes) : Prop :=
  ∀ p, Calls P after start chunks p → ∃ r, Ends P.turn p r

/-- No chunk comes when all has been parsed. -/
def NoneAfterAll (P : HeadParser M) (after : Parsing M → Option (Parsing M)) (start : Parsing M)
    (chunks : List Bytes) : Prop :=
  ∀ p, Calls P after start chunks p → p.state ≠ .gotAll

/-- What holds of the first call and is kept from one call to the next holds of all of them.  It may not depend on the
buffer. -/
theorem Calls.invariant {P : HeadParser M} {after : Parsing M → Option (Parsing M)} {Inv : Parsing M → Prop}
    (hmore : ∀ p bytes, Inv p → Inv (p.more bytes)) (hturn : ∀ p q, Inv p → P.turn p = .again q → Inv q)
    (hdone : ∀ p q, Inv p → P.turn p = .done (some q) → ∀ next, after q = some next → Inv next)
    {start p : Parsing M} {chunks : List Bytes} (h : Calls P after start chunks p) (hstart : Inv start) : Inv p := by
  induction h with
  | now => exact hmore _ _ hstart
  | later hends hafter _ ih =>
    obtain ⟨t, hvisits, hlast⟩ := ends_iff_visits.1 hends
    exact ih (hdone t _ (hvisits.invariant hturn (hmore _ _ hstart)) hlast _ hafter)

/-! ### The handlers -/

/-- `HttpServer::onMessage` resets the context that has got all. -/
def serverAfter (q : Parsing HttpRequest) : Option (Parsing HttpRequest) :=
  some (if q.state = .gotAll then ⟨true, .expectRequestLine, q.message.reset, q.buffer⟩ else { q with ok := true })

/-- `HttpClient::onMessage` asserts that the call returns true, and keeps the context. -/
def clientAfter (q : Parsing HttpResponse) : Option (Parsing HttpResponse) := if q.ok then some q else none

/-- `WebServer::onHandeShake`.  With a key another handler takes over; otherwise the request is reset, and not the
state. -/
def handshakeAfter (q : Parsing WebSocket.HandshakeRequest) : Option (Parsing WebSocket.HandshakeRequest) :=
  if q.state = .gotAll then
    match KeyedSet.find Prod.fst q.message.headers (ascii "Sec-WebSocket-Key") with
    | some _ => none
    | none => some ⟨true, .gotAll, .new, q.buffer⟩
  else some { q with ok := true }

/-- What the server goes on with is what `onMessage` leaves. -/
theorem serverAfter_onMessage {conn conn' : Connection} {chunk : Bytes} {call : Call}
    (h : conn.onMessage chunk = some (call, conn')) :
    ∃ q, Ends requestParser.turn ((conn.context.parsing conn.buffer).more chunk) (some q) ∧
      serverAfter q = some (conn'.context.parsing conn'.buffer) := by
  unfold Connection.onMessage at h
  obtain ⟨⟨ok, context, buffer⟩, hparse, hcall⟩ := Option.map_eq_some_iff.1 h
  refine ⟨⟨ok, context.state, context.request, buffer⟩, parseRequest_eq_some.1 hparse, ?_⟩
  unfold serverAfter
  dsimp only at hcall ⊢
  by_cases hstate : context.state = .gotAll
  · rw [if_pos hstate] at hcall ⊢
    cases hcall
    rfl
  · rw [if_neg hstate] at hcall ⊢
    cases hcall
    rfl

/-! ### The calls that return -/

/-- The parser is among the lines. -/
def Parsing.AmongLines (p : Parsing M) : Prop := p.state = .expectRequestLine ∨ p.state = .expectHeaders

private theorem amongLines_again {P : HeadParser M} (hbody : P.takeBody = none) {p q : Parsing M} (h : p.AmongLines)
    (hturn : P.turn p = .again q) : q.AmongLines := by
  have htakes := takes_iff.2 hturn
  cases htakes with
  | accepts _ _ _ => exact .inr rfl
  | header _ _ _ => exact .inr rfl
  | toBody _ _ _ hsome =>
    rw [hbody] at hsome
    cases hsome
  | stays _ => exact h

/-- Without a branch for the body a call ends among the lines, or with all of a head. -/
private theorem amongLines_done {P : HeadParser M} (hbody : P.takeBody = none) {p q : Parsing M}
    (hturn : P.turn p = .done (some q)) : q.AmongLines ∨ q.state = .gotAll := by
  rcases done_cases hturn with ⟨hstate, _, hq⟩ | ⟨_, _, _, hrefused⟩ | ⟨_, _, _, _, _, hq⟩ | ⟨_, _, hsome, _⟩
  · cases hq
    exact .inl hstate
  · rcases hrefused with ⟨_, hq⟩ | ⟨_, _, hq⟩
    · cases hq
    · cases hq
      exact .inl (.inl rfl)
  · cases hq
    exact .inr rfl
  · rw [hbody] at hsome
    cases hsome

theorem server_among_lines {start p : Parsing HttpRequest} {chunks : List Bytes}
    (h : Calls requestParser serverAfter start chunks p) (hstart : start.AmongLines) : p.AmongLines := by
  refine h.invariant (fun _ _ hp => hp) (fun _ _ => amongLines_again rfl) ?_ hstart
  intro p q _ hturn next hnext
  cases hnext
  rcases amongLines_done rfl hturn with hq | hq
  · split
    · exact .inl rfl
    · exact hq
  · rw [if_pos hq]
    exact .inl rfl

theorem handshake_not_body {start p : Parsing WebSocket.HandshakeRequest} {chunks : List Bytes}
    (h : Calls WebSocket.handshakeParser handshakeAfter start chunks p) (hstart : start.AmongLines) :
    p.AmongLines ∨ p.state = .gotAll := by
  refine @Calls.invariant _ _ _ (fun p => p.AmongLines ∨ p.state = .gotAll)
    (fun _ _ hp => hp) ?_ ?_ _ _ _ h (.inl hstart)
  · rintro p q (hp | hp) hturn
    · exact .inl (amongLines_again rfl hp hturn)
    · rw [eq_of_again (.inr hp) hturn]
      exact .inr hp
  · intro p q _ hturn next hnext
    unfold handshakeAfter at hnext
    split at hnext
    · split at hnext
      · cases hnext
      · cases hnext
        exact .inr rfl
    · have hq := amongLines_done rfl hturn
      cases hnext
      exact hq

/-- The calls of `HttpServer` return.  Those of `HttpClient` and of `WebServer` do exactly when no chunk comes after
all has been parsed. -/
theorem calls_return_iff (string2ll : Bytes → Option ℤ) (chunks : List Bytes) :
    AllReturn requestParser serverAfter (HttpContext.new.parsing []) chunks ∧
    (AllReturn (responseParser string2ll) clientAfter HttpResponse.start chunks ↔
      NoneAfterAll (responseParser string2ll) clientAfter HttpResponse.start chunks) ∧
    (AllReturn WebSocket.handshakeParser handshakeAfter handshakeStart chunks ↔
      NoneAfterAll WebSocket.handshakeParser handshakeAfter handshakeStart chunks) := by
  refine ⟨?_, ?_, ?_⟩
  · intro p hp
    have hlines := server_among_lines hp (.inl rfl)
    refine exists_ends ⟨?_, ?_⟩
    · rcases hlines with hstate | hstate <;> simp [hstate]
    · rcases hlines with hstate | hstate <;> simp [hstate]
  · refine forall_congr' fun p => imp_congr_right fun _ => ?_
    rw [exists_ends_iff]
    exact ⟨And.left, fun hstate => ⟨hstate, fun _ => rfl⟩⟩
  · refine forall_congr' fun p => imp_congr_right fun hp => ?_
    rw [exists_ends_iff]
    refine ⟨And.left, fun hstate => ⟨hstate, fun hbody => ?_⟩⟩
    rcases handshake_not_body hp (.inl rfl) with hlines | hall
    · rcases hlines with hlines | hlines <;> rw [hlines] at hbody <;> cases hbody
    · exact absurd hall hstate

/-- A response without a body, and a byte behind it. -/
theorem not_allReturn_client :
    ¬AllReturn (responseParser fun _ => none) clientAfter HttpResponse.start
      [ascii "HTTP/1.1 200 OK" ++ crlf ++ ascii "Content-Length: 0" ++ crlf ++ crlf, [88]] := by
  intro hall
  have hfirst : run (responseParser fun _ => none).turn 4 (HttpResponse.start.more (ascii "HTTP/1.1 200 OK" ++ crlf ++
      ascii "Content-Length: 0" ++ crlf ++ crlf)) =
      some (some ⟨true, .gotAll, ⟨[(ascii "Content-Length", [48])], none, ascii "OK", []⟩, []⟩) := by decide +kernel
  obtain ⟨r, hr⟩ := hall _ (.later ⟨4, hfirst⟩ rfl .now)
  exact not_ends (fun hlive => hlive.1 rfl) r hr

end Http
