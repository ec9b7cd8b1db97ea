import SwissArmyKnife.Http.ParseLoops

/-!
# Requests in chunks

A context keeps the state and the half-filled request between the calls of `parseRequest`.  Where the stream is cut
makes no difference to what the calls come to, and for a request that is written out they come to its parts
(`parse_chunks`).
-/

namespace Http

open Ascii (ascii crlf)
open Decimal (isSpace)
open Loop HeadParser

/-! ### The loop and the reader -/

/-- The loop of `parseRequest` ends as its lines are drained from the buffer. -/
private theorem drain_of_run {fuel : ℕ} {p : Parsing HttpRequest} {r : Option (Parsing HttpRequest)}
    (hlive : p.Live requestParser) (h : run requestParser.turn fuel p = some r) :
    (r = none → (Chunks.drain parseStep (some (p.ok, ⟨p.state, p.message⟩)) p.buffer).1 = none) ∧
      ∀ q, r = some q → Chunks.drain parseStep (some (p.ok, ⟨p.state, p.message⟩)) p.buffer =
        (some (q.ok, ⟨q.state, q.message⟩), q.buffer) := by
  have hfound : ∀ {buffer : Bytes} {n : ℕ}, Lines.find crlf buffer = some n → buffer ≠ [] := by
    rintro buffer n hfind rfl
    cases hfind
  induction fuel generalizing p with
  | zero => cases h
  | succ fuel ih =>
    rw [run] at h
    have htakes := requestParser.takes_turn p
    generalize hturn : requestParser.turn p = t at htakes h
    cases htakes with
    | waits hstate hfind =>
      cases h
      refine ⟨fun hnone => (by cases hnone), ?_⟩
      rintro q ⟨⟩
      exact Chunks.drain_of_wait (wait_of_find hstate hfind)
    | aborts hstate hfind hline =>
      cases h
      refine ⟨fun _ => ?_, fun _ hsome => by cases hsome⟩
      have hstep : parseStep (some (p.ok, ⟨p.state, p.message⟩)) p.buffer = .stop none := by
        have hline' : p.message.processRequestLine _ = none := hline
        simp only [parseStep, hstate, hfind, hline']
      rw [Chunks.drain_of_stop (hfound hfind) hstep]
    | @rejects n message hstate hfind hline =>
      cases h
      refine ⟨fun hnone => (by cases hnone), ?_⟩
      rintro q ⟨⟩
      have hstep : parseStep (some (p.ok, ⟨p.state, p.message⟩)) p.buffer =
          .stop (some (false, ⟨.expectRequestLine, message⟩)) := by
        have hline' : p.message.processRequestLine _ = some (false, message) := hline
        simp only [parseStep, hstate, hfind, hline']
      exact Chunks.drain_of_stop (hfound hfind) hstep
    | @accepts n message hstate hfind hline =>
      have hstep : parseStep (some (p.ok, ⟨p.state, p.message⟩)) p.buffer =
          .next (some (true, ⟨.expectHeaders, message⟩)) (p.buffer.drop (n + 2)) := by
        have hline' : p.message.processRequestLine _ = some (true, message) := hline
        simp only [parseStep, hstate, hfind, hline']
      rw [Chunks.drain_of_next shrinks_parseStep trivial (hfound hfind) hstep]
      exact ih (live_again hlive hturn).1 h
    | @header n field value hstate hfind hcut =>
      have hstep : parseStep (some (p.ok, ⟨p.state, p.message⟩)) p.buffer =
          .next (some (p.ok, ⟨.expectHeaders, p.message.addHeader field value⟩)) (p.buffer.drop (n + 2)) := by
        simp only [parseStep, hstate, hfind, hcut]
      rw [Chunks.drain_of_next shrinks_parseStep trivial (hfound hfind) hstep]
      exact ih (live_again hlive hturn).1 h
    | toBody hstate hfind hcut hbody => cases hbody
    | @completes n hstate hfind hcut hbody =>
      cases h
      refine ⟨fun hnone => (by cases hnone), ?_⟩
      rintro q ⟨⟩
      have hstep : parseStep (some (p.ok, ⟨p.state, p.message⟩)) p.buffer =
          .next (some (p.ok, ⟨.gotAll, p.message⟩)) (p.buffer.drop (n + 2)) := by
        simp only [parseStep, hstate, hfind, hcut]
      rw [Chunks.drain_of_next shrinks_parseStep trivial (hfound hfind) hstep]
      exact Chunks.drain_of_wait rfl
    | body hstate hbody => cases hbody
    | stays hstate =>
      rcases hstate with ⟨hstate, -⟩ | hstate
      · cases hlive.2 hstate
      · exact absurd hstate hlive.1

/-- Where a call of `parseRequest` starts. -/
def HttpContext.parsing (context : HttpContext) (buffer : Bytes) : Parsing HttpRequest :=
  ⟨true, context.state, context.request, buffer⟩

theorem live_parsing {context : HttpContext} {buffer : Bytes} :
    (context.parsing buffer).Live requestParser ↔ context.state = .expectRequestLine ∨
    context.state = .expectHeaders := by
  unfold Parsing.Live HttpContext.parsing requestParser
  cases context.state <;> simp

theorem parseRequest_eq_some {context context' : HttpContext} {buffer buffer' : Bytes} {ok : Bool} :
    context.parseRequest buffer = some (ok, context', buffer') ↔
      Ends requestParser.turn (context.parsing buffer) (some ⟨ok, context'.state, context'.request, buffer'⟩) := by
  unfold HttpContext.parseRequest
  by_cases hlive : (context.parsing buffer).Live requestParser
  · rw [if_pos (live_parsing.1 hlive)]
    obtain ⟨r, fuel, hr⟩ := exists_ends hlive
    obtain ⟨hnone, hsome⟩ := drain_of_run hlive hr
    dsimp only
    cases r with
    | none =>
      have hdrain : (Chunks.drain parseStep (some (true, context)) buffer).1 = none := hnone rfl
      rw [hdrain]
      refine ⟨nofun, fun h => ?_⟩
      cases h.unique ⟨fuel, hr⟩
    | some q =>
      obtain ⟨ok', state', message', buffer''⟩ := q
      have hdrain : Chunks.drain parseStep (some (true, context)) buffer =
          (some (ok', ⟨state', message'⟩), buffer'') :=
        hsome _ rfl
      rw [hdrain]
      constructor
      · rintro ⟨⟩
        exact ⟨fuel, hr⟩
      · intro h
        cases h.unique ⟨fuel, hr⟩
        rfl
  · rw [if_neg fun hstate => hlive (live_parsing.2 hstate)]
    exact ⟨nofun, fun h => absurd h (not_ends hlive _)⟩

/-! ### A chunk after another -/

/-- A call that starts so is right, and does not fail the assertion of `setMethod`. -/
structure Parsing.Sound (p : Parsing HttpRequest) : Prop where
  live : p.Live requestParser
  ok : p.ok = true
  method : p.state = .expectRequestLine → p.message.method = .invalid

theorem processRequestLine_ne_none {request : HttpRequest} (h : request.method = .invalid) (line : Bytes) :
    request.processRequestLine line ≠ none := by
  unfold HttpRequest.processRequestLine
  split
  · nofun
  · rename_i m rest _
    have hset : (request.setMethod m).isSome := by
      unfold HttpRequest.setMethod
      rw [if_neg (not_not.2 h)]
      rfl
    rw [Ne, Option.map_eq_none_iff]
    intro hnone
    rw [hnone] at hset
    cases hset

section Chunked

variable {p q r : Parsing HttpRequest}

theorem sound_again (h : p.Sound) (hturn : requestParser.turn p = .again q) : q.Sound := by
  have hlive := (live_again h.live hturn).1
  have htakes := takes_iff.2 hturn
  cases htakes with
  | accepts _ _ _ => exact ⟨hlive, rfl, nofun⟩
  | header _ _ _ => exact ⟨hlive, h.ok, nofun⟩
  | toBody _ _ _ hbody => cases hbody
  | stays _ => exact h

/-- A call ends where it has to wait, with a line that is refused, or with all of a head. -/
theorem ends_cases (h : p.Sound) : ∃ q, q.Sound ∧ Visits requestParser.turn p q ∧
    ∃ r, requestParser.turn q = .done (some r) ∧
      (r = q ∨ (r.ok = false ∨ r.state = .gotAll) ∧
        ∀ bytes, requestParser.turn (q.more bytes) = .done (some (r.more bytes))) := by
  obtain ⟨r, hr⟩ := exists_ends h.live
  obtain ⟨q, hvisits, hdone⟩ := ends_iff_visits.1 hr
  have hq : q.Sound := hvisits.invariant (fun _ _ => sound_again) h
  refine ⟨q, hq, hvisits, ?_⟩
  have htakes := takes_iff.2 hdone
  generalize ht : Turn.done r = t at htakes
  cases htakes with
  | waits hstate hfind => exact ⟨q, (takes_iff.1 (.waits hstate hfind)), Or.inl rfl⟩
  | aborts hstate hfind hline => exact absurd hline (processRequestLine_ne_none (hq.method hstate) _)
  | rejects hstate hfind hline =>
    refine ⟨_, takes_iff.1 (.rejects hstate hfind hline), Or.inr ⟨Or.inl rfl, fun bytes => ?_⟩⟩
    obtain ⟨hfind', htake, hdrop⟩ := line_more hfind bytes
    exact takes_iff.1 (.rejects (p := q.more bytes) hstate hfind' (htake ▸ hline))
  | accepts _ _ _ => cases ht
  | header _ _ _ => cases ht
  | toBody _ _ _ _ => cases ht
  | completes hstate hfind hcut hbody =>
    refine ⟨_, takes_iff.1 (.completes hstate hfind hcut hbody), Or.inr ⟨Or.inr rfl, fun bytes => ?_⟩⟩
    obtain ⟨hfind', htake, hdrop⟩ := line_more hfind bytes
    have hmore : requestParser.Takes (q.more bytes) _ := .completes hstate hfind' (htake ▸ hcut) hbody
    rw [Parsing.more, hdrop] at hmore
    exact takes_iff.1 hmore
  | body _ hbody => cases hbody
  | stays _ => cases ht

end Chunked

/-! ### The calls for the chunks -/

inductive Outcome where
  | rejected
  | complete
  | incomplete
deriving DecidableEq, Repr

/-- What the calls come to: the request is in the context, and the buffer holds the bytes that were not read. -/
structure Parsed where
  outcome : Outcome
  context : HttpContext
  buffer : Bytes
deriving DecidableEq, Repr

def outcomeOf (ok : Bool) (context : HttpContext) : Outcome :=
  if ok = false then .rejected else if context.state = .gotAll then .complete else .incomplete

theorem outcomeOf_eq_incomplete {ok : Bool} {context : HttpContext} :
    outcomeOf ok context = .incomplete ↔ ok = true ∧ context.state ≠ .gotAll := by
  unfold outcomeOf
  cases ok with
  | false => simp
  | true => simp

/-- `parseRequest` is called after each chunk, until it returns false or `gotAll()` holds.  With the outcome are the
chunks that did not come to it. -/
def parseChunks (context : HttpContext) (buffer : Bytes) : List Bytes → Option (Parsed × List Bytes)
  | [] => some (⟨.incomplete, context, buffer⟩, [])
  | chunk :: chunks =>
    (context.parseRequest (buffer ++ chunk)).bind fun (ok, context, buffer) =>
      match outcomeOf ok context with
      | .incomplete => parseChunks context buffer chunks
      | outcome => some (⟨outcome, context, buffer⟩, chunks)

/-- `HttpContext()`. -/
def HttpContext.new : HttpContext := fresh .unknown

section Calls

variable {context : HttpContext} {buffer : Bytes}

/-- What is left of a call waits for more, or it does not depend on what follows. -/
theorem parseRequest_cases (h : (context.parsing buffer).Sound) :
    ∃ ok context' buffer', context.parseRequest buffer = some (ok, context', buffer') ∧
      ((outcomeOf ok context' = .incomplete ∧ (context'.parsing buffer').Sound ∧
          context'.parseRequest buffer' = some (true, context', buffer') ∧
          ∀ bytes, context.parseRequest (buffer ++ bytes) = context'.parseRequest (buffer' ++ bytes)) ∨
        outcomeOf ok context' ≠ .incomplete ∧
          ∀ bytes, context.parseRequest (buffer ++ bytes) = some (ok, context', buffer' ++ bytes)) := by
  obtain ⟨⟨ok, state, request, buffer'⟩, hq, hvisits, r, hdone, hcases⟩ := ends_cases h
  have hcall : ∀ {r : Parsing HttpRequest} {bytes : Bytes},
      requestParser.turn (Parsing.more ⟨ok, state, request, buffer'⟩ bytes) = .done (some r) →
      context.parseRequest (buffer ++ bytes) = some (r.ok, ⟨r.state, r.message⟩, r.buffer) := by
    intro r bytes hr
    exact parseRequest_eq_some.2 ((visits_more hvisits bytes).ends_iff.2 (ends_of_done hr))
  have hnow := hcall (by rwa [Parsing.more_nil])
  rw [List.append_nil] at hnow
  refine ⟨r.ok, ⟨r.state, r.message⟩, r.buffer, hnow, ?_⟩
  rcases hcases with rfl | ⟨hfinal, hmore⟩
  · obtain rfl : ok = true := hq.ok
    left
    refine ⟨outcomeOf_eq_incomplete.2 ⟨rfl, hq.live.1⟩, hq,
      parseRequest_eq_some.2 (ends_of_done hdone), fun bytes => ?_⟩
    · obtain ⟨ok', context', buffer'', hsame⟩ : ∃ ok' context' buffer'',
          HttpContext.parseRequest ⟨state, request⟩ (buffer' ++ bytes) = some (ok', context', buffer'') := by
        obtain ⟨q', -, hvisits', r', hdone', -⟩ :=
          ends_cases (p := HttpContext.parsing ⟨state, request⟩ (buffer' ++ bytes))
          ⟨hq.live, rfl, hq.method⟩
        exact ⟨r'.ok, ⟨r'.state, r'.message⟩, r'.buffer,
          parseRequest_eq_some.2 (hvisits'.ends_iff.2 (ends_of_done hdone'))⟩
      rw [hsame]
      exact parseRequest_eq_some.2 ((visits_more hvisits bytes).ends_iff.2 (parseRequest_eq_some.1 hsame))
  · right
    refine ⟨fun hincomplete => ?_, fun bytes => hcall (hmore bytes)⟩
    obtain ⟨hok, hstate⟩ := outcomeOf_eq_incomplete.1 hincomplete
    rcases hfinal with hfalse | hgotAll
    · rw [hok] at hfalse
      cases hfalse
    · exact hstate hgotAll

theorem parseChunks_cons_incomplete {chunk : Bytes} {chunks : List Bytes} {ok : Bool} {context' : HttpContext}
    {buffer' : Bytes} (h : context.parseRequest (buffer ++ chunk) = some (ok, context', buffer'))
    (houtcome : outcomeOf ok context' = .incomplete) :
    parseChunks context buffer (chunk :: chunks) = parseChunks context' buffer' chunks := by
  rw [parseChunks, h, Option.bind_some]
  dsimp only
  rw [houtcome]

theorem parseChunks_cons_final {chunk : Bytes} {chunks : List Bytes} {ok : Bool} {context' : HttpContext}
    {buffer' : Bytes} (h : context.parseRequest (buffer ++ chunk) = some (ok, context', buffer'))
    (houtcome : outcomeOf ok context' ≠ .incomplete) :
    parseChunks context buffer (chunk :: chunks) = some (⟨outcomeOf ok context', context', buffer'⟩, chunks) := by
  rw [parseChunks, h, Option.bind_some]
  dsimp only
  generalize outcomeOf ok context' = outcome at houtcome
  cases outcome with
  | incomplete => exact absurd rfl houtcome
  | rejected => rfl
  | complete => rfl

/-- The chunks that come to the context are parsed like one. -/
theorem parseChunks_eq (h : (context.parsing buffer).Sound)
    (hwaits : context.parseRequest buffer = some (true, context, buffer)) (chunks : List Bytes) :
    ∃ front back r, chunks = front ++ back ∧ parseChunks context buffer chunks = some (r, back) ∧
      (r.outcome = .incomplete → back = []) ∧ parseChunks context buffer [front.flatten] = some (r, []) ∧
      parseChunks context buffer [chunks.flatten] = some ({ r with buffer := r.buffer ++ back.flatten }, []) := by
  induction chunks generalizing context buffer with
  | nil =>
    have hincomplete := outcomeOf_eq_incomplete.2 ⟨rfl, h.live.1⟩
    have hempty : context.parseRequest (buffer ++ []) = some (true, context, buffer) := by rwa [List.append_nil]
    refine ⟨[], [], ⟨.incomplete, context, buffer⟩, rfl, rfl, fun _ => rfl, ?_, ?_⟩
    · exact parseChunks_cons_incomplete hempty hincomplete
    · exact (parseChunks_cons_incomplete hempty hincomplete).trans (by rw [List.flatten_nil, List.append_nil]; rfl)
  | cons chunk chunks ih =>
    have hchunk : (context.parsing (buffer ++ chunk)).Sound := ⟨h.live, h.ok, h.method⟩
    obtain ⟨ok, context', buffer', hcall, ⟨hincomplete, hsound', hwaits', hmore⟩ | ⟨hfinal, hmore⟩⟩ :=
      parseRequest_cases hchunk
    · obtain ⟨front, back, r, rfl, hparse, hback, hfront, hwhole⟩ := ih hsound' hwaits'
      -- one call for a chunk and more is the call for the chunk and then one for the rest
      have hjoin : ∀ bytes, parseChunks context buffer [chunk ++ bytes] = parseChunks context' buffer' [bytes] := by
        intro bytes
        rw [parseChunks, parseChunks, ← List.append_assoc, hmore]
      refine ⟨chunk :: front, back, r, rfl, ?_, hback, ?_, ?_⟩
      · rw [parseChunks_cons_incomplete hcall hincomplete, hparse]
      · rw [List.flatten_cons, hjoin, hfront]
      · rw [List.flatten_cons, hjoin, hwhole]
    · refine ⟨[chunk], chunks, ⟨outcomeOf ok context', context', buffer'⟩, rfl, parseChunks_cons_final hcall hfinal,
        fun hincomplete => absurd hincomplete hfinal, ?_, ?_⟩
      · rw [List.flatten_singleton]
        exact parseChunks_cons_final hcall hfinal
      · rw [List.flatten_cons]
        refine parseChunks_cons_final ?_ hfinal
        rw [← List.append_assoc]
        exact hmore _

end Calls

/-! ### A request that is written out -/

def Method.text : Method → Bytes
  | invalid => []
  | get => ascii "GET"
  | post => ascii "POST"
  | head => ascii "HEAD"
  | put => ascii "PUT"
  | delete => ascii "DELETE"

def trim (value : Bytes) : Bytes := (value.dropWhile isSpace).rdropWhile isSpace

def headerValue (line : Bytes) : Bytes := trim (afterColon line)

/-- A request line and header lines. -/
structure RequestHead where
  method : Method
  uri : Bytes
  minor : Bool
  headers : List Bytes
deriving DecidableEq, Repr

namespace RequestHead

variable (head : RequestHead)

def line : Bytes :=
  head.method.text ++ 32 :: (head.uri ++ 32 :: (if head.minor then ascii "HTTP/1.1" else ascii "HTTP/1.0"))

def encode : Bytes := head.line ++ crlf ++ ((head.headers.map (· ++ crlf)).flatten ++ crlf)

structure WellFormed : Prop where
  method : head.method ≠ .invalid
  uri : 32 ∉ head.uri
  line : Lines.Free crlf head.line
  headers : ∀ h ∈ head.headers, Lines.Free crlf h ∧ 58 ∈ h

/-- The request is the one that is written. -/
structure Describes (request : HttpRequest) : Prop where
  method : request.method = head.method
  version : request.version = if head.minor then .http11 else .http10
  path : request.path = head.uri.takeWhile (· ≠ 63)
  query : request.query = (head.uri.dropWhile (· ≠ 63)).tail
  unique : KeyedSet.Unique Prod.fst request.headers
  headers : ∀ field, (KeyedSet.find Prod.fst request.headers field).map Prod.snd =
    (head.headers.reverse.find? fun h => headerName h = field).map headerValue

end RequestHead

theorem setMethod_text {request : HttpRequest} {method : Method} (h : request.method = .invalid)
    (hmethod : method ≠ .invalid) :
    request.setMethod method.text = some (true, { request with method := method }) := by
  unfold HttpRequest.setMethod
  rw [if_neg (not_not.2 h)]
  cases method with
  | invalid => exact absurd rfl hmethod
  | get => rfl
  | post => rfl
  | head => rfl
  | put => rfl
  | delete => rfl

theorem processRequestLine_head {head : RequestHead} {request : HttpRequest} (hwf : head.WellFormed)
    (h : request.method = .invalid) (hquery : request.query = []) :
    request.processRequestLine head.line = some (true, { request with
      method := head.method
      version := if head.minor then .http11 else .http10
      path := head.uri.takeWhile (· ≠ 63)
      query := (head.uri.dropWhile (· ≠ 63)).tail }) := by
  have htext : 32 ∉ head.method.text := by
    cases head.method <;> decide
  unfold HttpRequest.processRequestLine RequestHead.line
  rw [cutAt_append htext]
  dsimp only
  rw [setMethod_text h hwf.method, Option.map_some]
  dsimp only
  rw [if_pos rfl, cutAt_append hwf.uri]
  dsimp only
  by_cases hquestion : 63 ∈ head.uri
  · rw [cutAt_eq hquestion]
    cases head.minor <;> rfl
  · have hne : ∀ b ∈ head.uri, decide (b ≠ 63) = true := by
      intro b hb
      exact decide_eq_true fun heq => hquestion (heq ▸ hb)
    rw [cutAt_none hquestion, List.takeWhile_eq_self_iff.2 hne, List.dropWhile_eq_nil_iff.2 hne]
    cases head.minor <;> simp [hquery] <;> rfl

/-- A call that has the head at hand takes it and leaves the rest. -/
theorem parseRequest_head {head : RequestHead} (hwf : head.WellFormed) (rest : Bytes) :
    ∃ request, HttpContext.new.parseRequest (head.encode ++ rest) = some (true, ⟨.gotAll, request⟩, rest) ∧
      head.Describes request := by
  obtain ⟨hunique, hfind⟩ := find_foldl_putHeader headerName headerValue head.headers
  have hheaders : ∀ (lines : List Bytes) (request : HttpRequest),
      lines.foldl (fun request h => request.addHeader (headerName h) (afterColon h)) request =
        { request with
          headers :=
            lines.foldl (fun headers h => putHeader headers (headerName h) (headerValue h)) request.headers } := by
    intro lines
    induction lines with
    | nil => exact fun _ => rfl
    | cons h lines ih =>
      intro request
      rw [List.foldl_cons, List.foldl_cons, ih]
      rfl
  have hfirst :=
    @turn_line _ requestParser true _ _ _ hwf.line (@processRequestLine_head _ HttpContext.new.request hwf rfl rfl)
    ((head.headers.map (· ++ crlf)).flatten ++ ([] ++ crlf ++ rest))
  have hlines := @visits_headers _ requestParser true { HttpContext.new.request with
      method := head.method
      version := if head.minor then .http11 else .http10
      path := head.uri.takeWhile (· ≠ 63)
      query := (head.uri.dropWhile (· ≠ 63)).tail } _ hwf.headers ([] ++ crlf ++ rest)
  rw [show requestParser.addHeader = HttpRequest.addHeader from rfl, hheaders] at hlines
  refine ⟨⟨head.method, _, _, _, _⟩, ?_, ⟨rfl, rfl, rfl, rfl, hunique, hfind⟩⟩
  have hstream : head.encode ++ rest =
      head.line ++ crlf ++ ((head.headers.map (· ++ crlf)).flatten ++ ([] ++ crlf ++ rest)) := by
    unfold RequestHead.encode
    simp only [List.append_assoc, List.nil_append]
  rw [hstream, parseRequest_eq_some]
  exact (hlines.head hfirst).ends_iff.2 (ends_of_done (turn_last free_nil List.not_mem_nil rest rfl))

/-- The calls for the chunks come to what one call for all of the stream comes to, and for a request to its parts. -/
theorem parse_chunks :
    (∀ chunks, ∃ front back r, chunks = front ++ back ∧ parseChunks .new [] chunks = some (r, back) ∧
      (r.outcome = .incomplete → back = []) ∧ parseChunks .new [] [front.flatten] = some (r, []) ∧
      parseChunks .new [] [chunks.flatten] = some ({ r with buffer := r.buffer ++ back.flatten }, [])) ∧
    ∀ (head : RequestHead) (rest : Bytes) (chunks : List Bytes), head.WellFormed →
    chunks.flatten = head.encode ++ rest →
      ∃ r back, parseChunks .new [] chunks = some (r, back) ∧ r.outcome = .complete ∧
        head.Describes r.context.request ∧ r.buffer ++ back.flatten = rest := by
  have hnew : (HttpContext.new.parsing []).Sound := ⟨⟨nofun, nofun⟩, rfl, fun _ => rfl⟩
  have hspec := parseChunks_eq hnew (parseRequest_eq_some.2 (ends_of_done rfl))
  refine ⟨hspec, ?_⟩
  intro head rest chunks hwf hchunks
  obtain ⟨front, back, r, -, hparse, -, -, hwhole⟩ := hspec chunks
  obtain ⟨request, hcall, hdescribes⟩ := parseRequest_head hwf rest
  have hone : parseChunks .new [] [chunks.flatten] = some (⟨.complete, ⟨.gotAll, request⟩, rest⟩, []) := by
    rw [hchunks]
    exact parseChunks_cons_final hcall nofun
  rw [hone] at hwhole
  obtain ⟨outcome, context, buffer⟩ := r
  simp only [Option.some.injEq, Prod.mk.injEq, Parsed.mk.injEq] at hwhole
  obtain ⟨⟨houtcome, hcontext, hbuffer⟩, -⟩ := hwhole
  refine ⟨_, back, hparse, houtcome.symm, ?_, hbuffer.symm⟩
  rw [← hcontext]
  exact hdescribes

/-- A field that comes twice, and two bytes behind the head. -/
def twoHosts : RequestHead := ⟨.get, ascii "/a?b", true, [ascii "Host: h", ascii "Host:  x "]⟩

/-- It is cut in the request line, in the end of a line, and behind the head. -/
theorem parse_chunks_twoHosts :
    ∃ r back, parseChunks .new [] [twoHosts.encode.take 3, (twoHosts.encode.drop 3).take 14,
      twoHosts.encode.drop 17 ++ [80],
      [79]] = some (r, back) ∧ r.outcome = .complete ∧ twoHosts.Describes r.context.request ∧
      r.buffer ++ back.flatten = [80, 79] :=
  parse_chunks.2 twoHosts [80, 79] _ ⟨by decide, by decide, by decide, by decide⟩ (by decide)

end Http
