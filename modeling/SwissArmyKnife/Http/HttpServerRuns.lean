import SwissArmyKnife.Http.HttpServer
import Mathlib.Data.List.Induction

/-!
# Runs of the server

The lines of a head are read one after another, wherever they are cut (`parse_part`, `parse_whole`), and a call takes
one head at most and no body.  So the requests are answered exactly when they lie in the chunks as that needs
(`answers_iff`).
-/

namespace Http

open Ascii (ascii crlf)
open Decimal (isSpace)

/-! ### The headers of a request -/

private theorem find_putHeader {headers : List (Bytes × Bytes)}
    (h : KeyedSet.Unique Prod.fst headers) (field value : Bytes) :
    KeyedSet.Unique Prod.fst (putHeader headers field value) ∧
    ∀ k, KeyedSet.find Prod.fst (putHeader headers field value) k =
      if k = field then some (field, value) else KeyedSet.find Prod.fst headers k := by
  refine ⟨(h.erase (k := field)).insert, fun k => ?_⟩
  unfold putHeader
  by_cases hk : k = field
  · subst hk
    rw [if_pos rfl]
    exact KeyedSet.find_insert_self (a := (k, value)) (KeyedSet.find_erase_self h)
  · rw [if_neg hk, KeyedSet.find_insert_of_ne (a := (field, value)) hk, KeyedSet.find_erase_of_ne hk]

/-- Of the fields with one name the last stays. -/
theorem find_foldl_putHeader {α : Type} (name value : α → Bytes) (l : List α) :
    KeyedSet.Unique Prod.fst (l.foldl (fun headers a => putHeader headers (name a) (value a)) []) ∧ ∀ field,
      (KeyedSet.find Prod.fst (l.foldl (fun headers a => putHeader headers (name a) (value a)) []) field).map
        Prod.snd =
        (l.reverse.find? fun a => name a = field).map value := by
  induction l using List.reverseRecOn with
  | nil => exact ⟨List.nodup_nil, fun _ => rfl⟩
  | append_singleton l a ih =>
    obtain ⟨hunique, hfind⟩ := ih
    obtain ⟨hunique', hfind'⟩ := find_putHeader hunique (name a) (value a)
    rw [List.foldl_append, List.foldl_cons, List.foldl_nil]
    refine ⟨hunique', fun field => ?_⟩
    rw [List.reverse_append, List.reverse_singleton, List.singleton_append, List.find?_cons, hfind' field]
    by_cases hk : field = name a
    · simp [hk]
    · rw [if_neg hk, hfind, decide_eq_false (Ne.symm hk)]

/-! ### The lines of a head -/

inductive Line where
  | request (r : Request)
  | header (h : Header)
  | blank

def Line.encode : Line → Bytes
  | request r => r.line ++ crlf
  | header h => h.line ++ crlf
  | blank => crlf

/-- What a line does to the context. -/
def Line.act (context : HttpContext) : Line → HttpContext
  | request r => ⟨.expectHeaders, { context.request with
      method := if r.post then .post else .get
      version := if r.minor then .http11 else .http10
      path := r.path
      query := r.query.getD context.request.query }⟩
  | header h => { context with request.headers := putHeader context.request.headers h.field h.value }
  | blank => { context with state := .gotAll }

def Line.next (s : Option (Bool × HttpContext)) (l : Line) : Option (Bool × HttpContext) :=
  s.map fun (ok, context) => (ok, l.act context)

def Request.lines (r : Request) : List Line := .request r :: r.headers.map .header ++ [.blank]

private theorem lines_encode (r : Request) : (r.lines.map Line.encode).flatten = r.head := by
  unfold Request.lines Request.head
  simp [Line.encode, Function.comp_def]

theorem cutAt_append {b : UInt8} {front : Bytes} (h : b ∉ front) (rest : Bytes) :
    cutAt b (front ++ b :: rest) = some (front, rest) := by
  have hne : ∀ a ∈ front, decide (a ≠ b) = true := by
    rintro a ha
    refine decide_eq_true ?_
    rintro rfl
    exact h ha
  unfold cutAt
  rw [if_pos (by simp), List.takeWhile_append_of_pos hne, List.dropWhile_append_of_pos hne]
  simp

theorem cutAt_none {b : UInt8} {l : Bytes} (h : b ∉ l) : cutAt b l = none := if_neg h

/-- A line without a carriage return ends at the first one. -/
private theorem free_of_not_mem {line : Bytes} (h : 13 ∉ line) : Lines.Free crlf line := by
  unfold Lines.Free
  induction line with
  | nil => decide
  | cons b line ih =>
    rw [List.mem_cons, not_or] at h
    rw [List.cons_append, Lines.find, if_neg, ih h.2]
    · rfl
    · rintro ⟨rest, hrest⟩
      exact h.1 (List.cons.inj hrest).1

private theorem trim_value {h : Header} (hwf : h.WellFormed) :
    ((h.before ++ h.value ++ h.after).dropWhile isSpace).rdropWhile isSpace = h.value := by
  have hblank : ∀ l : Bytes, (∀ b ∈ l, b = 32 ∨ b = 9) → ∀ b ∈ l, isSpace b = true := by
    intro l hl b hb
    rcases hl b hb with rfl | rfl <;> rfl
  have hbefore := hblank h.before hwf.before
  have hafter := hblank h.after hwf.after
  rw [List.append_assoc, List.dropWhile_append_of_pos hbefore]
  unfold List.rdropWhile
  cases hvalue : h.value with
  | nil =>
    rw [List.nil_append, List.dropWhile_eq_nil_iff.2 hafter]
    rfl
  | cons b value =>
    have hfirst := hwf.first b (by rw [hvalue]; rfl)
    rw [List.cons_append, List.dropWhile_cons_of_neg (by simp [hfirst]), ← List.cons_append,
      ← hvalue, List.reverse_append,
      List.dropWhile_append_of_pos (by simpa using hafter)]
    rcases List.eq_nil_or_concat' h.value with hnil | ⟨init, last, hconcat⟩
    · rw [hnil]
      rfl
    · have hlast := hwf.last last (by rw [hconcat]; simp)
      rw [hconcat, List.reverse_append, List.reverse_singleton, List.singleton_append,
        List.dropWhile_cons_of_neg (by simp [hlast])]
      simp

/-! ### Lines that are read -/

private theorem find_line {line : Bytes} (h : 13 ∉ line) (rest : Bytes) :
    Lines.find crlf (line ++ crlf ++ rest) = some line.length := (free_of_not_mem h).find rest

private theorem take_line (line rest : Bytes) : (line ++ crlf ++ rest).take line.length = line := by
  rw [List.append_assoc, List.take_left]

private theorem drop_line (line rest : Bytes) : (line ++ crlf ++ rest).drop (line.length + 2) = rest :=
  List.drop_left' (by rw [List.length_append]; rfl)

private theorem processRequestLine_line {r : Request} {request : HttpRequest} (hwf : r.WellFormed)
    (hmethod : request.method = .invalid) :
    request.processRequestLine r.line = some (true, { request with
      method := if r.post then .post else .get
      version := if r.minor then .http11 else .http10
      path := r.path
      query := r.query.getD request.query }) := by
  obtain ⟨hpath, hblank, hquestion⟩ := hwf.path
  have huri : 32 ∉ r.uri := by
    unfold Request.uri
    cases hquery : r.query with
    | none => simpa using hblank
    | some query =>
      have := (hwf.query query hquery).2
      simp [hblank, this]
  have hcut : cutAt 32 r.line = some (if r.post then ascii "POST" else ascii "GET",
      r.uri ++ 32 :: (if r.minor then ascii "HTTP/1.1" else ascii "HTTP/1.0")) := by
    refine cutAt_append ?_ _
    cases r.post <;> decide
  have hmethods : request.setMethod (if r.post then ascii "POST" else ascii "GET") =
      some (true, { request with method := if r.post then .post else .get }) := by
    unfold HttpRequest.setMethod
    rw [if_neg (not_not.2 hmethod)]
    cases r.post <;> rfl
  unfold HttpRequest.processRequestLine
  rw [hcut]
  dsimp only
  rw [hmethods, Option.map_some]
  dsimp only
  rw [if_pos rfl, cutAt_append huri]
  dsimp only
  unfold Request.uri
  cases hquery : r.query with
  | none =>
    rw [Option.map_none, Option.getD_none, List.append_nil, cutAt_none hquestion]
    cases r.minor <;> rfl
  | some query =>
    rw [Option.map_some, Option.getD_some, cutAt_append hquestion]
    cases r.minor <;> rfl

theorem shrinks_parseStep : Chunks.Shrinks parseStep fun _ _ => True := by
  have hdrop : ∀ {buf : Bytes} {n : ℕ}, Lines.find crlf buf = some n → (buf.drop (n + 2)).length < buf.length := by
    intro buf n hfind
    have hle : n + 2 ≤ buf.length := Lines.find_le hfind
    rw [List.length_drop]
    omega
  intro s buf s' rest _ _ hstep
  refine ⟨trivial, ?_⟩
  rcases s with _ | ⟨ok, context⟩
  · cases hstep
  unfold parseStep at hstep
  cases hstate : context.state with
  | expectRequestLine =>
    cases hfind : Lines.find crlf buf with
    | none =>
      simp only [hstate, hfind] at hstep
      cases hstep
    | some n =>
      simp only [hstate, hfind] at hstep
      split at hstep <;> cases hstep
      exact hdrop hfind
  | expectHeaders =>
    cases hfind : Lines.find crlf buf with
    | none =>
      simp only [hstate, hfind] at hstep
      cases hstep
    | some n =>
      simp only [hstate, hfind] at hstep
      split at hstep <;> cases hstep
      · exact hdrop hfind
      · exact hdrop hfind
  | expectBody =>
    simp only [hstate] at hstep
    cases hstep
  | gotAll =>
    simp only [hstate] at hstep
    cases hstep

/-- Without the end of a line at hand the parser waits. -/
theorem wait_of_find {context : HttpContext} {ok : Bool} {buf : Bytes}
    (hstate : context.state = .expectRequestLine ∨ context.state = .expectHeaders) (h : Lines.find crlf buf = none) :
    parseStep (some (ok, context)) buf = .wait := by
  unfold parseStep
  rcases hstate with hstate | hstate
  · simp only [hstate, h]
  · simp only [hstate, h]

private theorem line_plain {r : Request} (hwf : r.WellFormed) : 13 ∉ r.line := by
  have hpost : 13 ∉ (if r.post then ascii "POST" else ascii "GET") := by cases r.post <;> decide
  have hminor : 13 ∉ (if r.minor then ascii "HTTP/1.1" else ascii "HTTP/1.0") := by cases r.minor <;> decide
  have hpath := hwf.path.1.1
  unfold Request.line Request.uri
  cases hquery : r.query with
  | none => simp [hpost, hminor, hpath]
  | some query =>
    have := (hwf.query query hquery).1.1
    simp [hpost, hminor, hpath, this]

private theorem header_plain {h : Header} (hwf : h.WellFormed) : 13 ∉ h.line := by
  have hblank : ∀ l : Bytes, (∀ b ∈ l, b = 32 ∨ b = 9) → 13 ∉ l := by
    intro l hl hmem
    rcases hl 13 hmem with h | h <;> cases h
  have hfield := hwf.field.1.1
  have hvalue := hwf.value.1
  have hbefore := hblank h.before hwf.before
  have hafter := hblank h.after hwf.after
  unfold Header.line
  simp [hfield, hvalue, hbefore, hafter]

/-- The headers and the end of a head. -/
private theorem script_headers {context : HttpContext} {headers : List Header}
    (hstate : context.state = .expectHeaders)
    (hwf : ∀ h ∈ headers, h.WellFormed) :
    Chunks.Script parseStep Line.encode Line.next (some (true, context)) (headers.map .header ++ [.blank]) := by
  induction headers generalizing context with
  | nil =>
    refine .cons (by decide) (fun rest => ?_) (fun buf hbuf hlt => ?_) (.nil _)
    · have hfind := @find_line [] List.not_mem_nil rest
      rw [List.nil_append] at hfind
      change parseStep _ (crlf ++ rest) = _
      unfold parseStep
      simp only [hstate, hfind, List.length_nil, List.take_zero, cutAt_none List.not_mem_nil]
      rfl
    · exact wait_of_find (.inr hstate) ((@free_of_not_mem [] List.not_mem_nil).find_part hbuf hlt)
  | cons h headers ih =>
    have hh := hwf h (List.mem_cons_self ..)
    refine .cons (by simp [Line.encode, crlf]) (fun rest => ?_) (fun buf hbuf hlt => ?_)
      (ih hstate fun h' hh' => hwf h' (List.mem_cons_of_mem h hh'))
    · have hcut : cutAt 58 h.line = some (h.field, h.before ++ h.value ++ h.after) := cutAt_append hh.field.2 _
      change parseStep _ (h.line ++ crlf ++ rest) = _
      unfold parseStep
      simp only [hstate, find_line (header_plain hh), take_line, drop_line, hcut]
      unfold HttpRequest.addHeader
      rw [trim_value hh]
      change _ = Chunks.Step.next (some (true, HttpContext.mk context.state _)) rest
      rw [hstate]
    · exact wait_of_find (.inr hstate) ((free_of_not_mem (header_plain hh)).find_part hbuf hlt)

/-- A context that waits for a request, with the version of the one before. -/
def fresh (version : Version) : HttpContext := ⟨.expectRequestLine, ⟨.invalid, version, [], [], []⟩⟩

private theorem script_head {r : Request} (hwf : r.WellFormed) (version : Version) :
    Chunks.Script parseStep Line.encode Line.next (some (true, fresh version)) r.lines := by
  refine .cons (by simp [Line.encode, crlf]) (fun rest => ?_) (fun buf hbuf hlt => ?_)
    (script_headers rfl hwf.headers)
  · change parseStep _ (r.line ++ crlf ++ rest) = _
    unfold parseStep
    simp only [fresh, find_line (line_plain hwf), take_line, drop_line]
    rw [processRequestLine_line hwf rfl]
    rfl
  · exact wait_of_find (.inl rfl) ((free_of_not_mem (line_plain hwf)).find_part hbuf hlt)

/-! ### A head that arrives -/

/-- The context after all of a head. -/
def Request.context (r : Request) : HttpContext := ⟨.gotAll, { r.handled with query := r.query.getD [] }⟩

private theorem fold_headers (headers : List Header) (context : HttpContext) :
    (headers.map .header).foldl Line.next (some (true, context)) = some (true, { context with
      request.headers :=
        headers.foldl (fun headers h => putHeader headers h.field h.value) context.request.headers }) := by
  induction headers generalizing context with
  | nil => rfl
  | cons h headers ih =>
    rw [List.map_cons, List.foldl_cons]
    exact ih _

private theorem fold_lines (r : Request) (version : Version) :
    r.lines.foldl Line.next (some (true, fresh version)) = some (true, r.context) := by
  unfold Request.lines
  rw [List.cons_append, List.foldl_cons, List.foldl_append]
  have hfirst : Line.next (some (true, fresh version)) (.request r) =
      some (true, ⟨.expectHeaders, ⟨if r.post then .post else .get,
      if r.minor then .http11 else .http10, r.path, r.query.getD [], []⟩⟩) := rfl
  rw [hfirst, fold_headers]
  rfl

/-- All of a head is taken, and nothing else. -/
private theorem parse_whole {r : Request} (hwf : r.WellFormed) (version : Version) (rest : Bytes) :
    Chunks.drain parseStep (some (true, fresh version)) (r.head ++ rest) = (some (true, r.context), rest) := by
  have hdrain := (script_head hwf version).drain_append shrinks_parseStep rest
  rw [lines_encode, fold_lines] at hdrain
  rw [hdrain]
  exact Chunks.drain_of_wait rfl

/-- With a part of a head nothing was parsed so far, or the parser is among the headers. -/
private theorem parse_part {r : Request} (hwf : r.WellFormed) (version : Version)
    {buf : Bytes} (hbuf : buf <+: r.head)
    (hlt : buf.length < r.head.length) :
    Chunks.drain parseStep (some (true, fresh version)) buf = (some (true, fresh version), buf) ∨
      ∃ context rest, context.state = .expectHeaders ∧
        Chunks.drain parseStep (some (true, fresh version)) buf = (some (true, context), rest) ∧
        ∀ more, Chunks.drain parseStep (some (true, fresh version)) (buf ++ more) =
          Chunks.drain parseStep (some (true, context)) (rest ++ more) := by
  rw [← lines_encode] at hbuf hlt
  obtain ⟨front, u, back, rest, hlines, rfl, hdrain, hmore⟩ :=
    (script_head hwf version).drain_part shrinks_parseStep hbuf hlt
  cases front with
  | nil => exact .inl hdrain
  | cons first front =>
    right
    unfold Request.lines at hlines
    rw [List.cons_append, List.cons_append, List.cons.injEq] at hlines
    obtain ⟨rfl, hlines⟩ := hlines
    -- the end of the head is not among the lines before the one that is cut
    have hheaders : ∃ headers : List Header, front = headers.map Line.header := by
      have hlength := congrArg List.length hlines
      rw [List.length_append, List.length_append, List.length_singleton, List.length_cons] at hlength
      obtain ⟨others, hothers⟩ := List.prefix_of_prefix_length_le ⟨u :: back, hlines.symm⟩
        (List.prefix_append (r.headers.map Line.header) [.blank]) (by omega)
      obtain ⟨headers, _, -, hfront, -⟩ := List.append_eq_map_iff.1 hothers
      exact ⟨headers, hfront.symm⟩
    obtain ⟨headers, rfl⟩ := hheaders
    rw [List.foldl_cons] at hdrain hmore
    have hfirst : Line.next (some (true, fresh version)) (.request r) =
        some (true, ⟨.expectHeaders, ⟨if r.post then .post else .get,
        if r.minor then .http11 else .http10, r.path, r.query.getD [], []⟩⟩) := rfl
    rw [hfirst, fold_headers] at hdrain hmore
    exact ⟨_, rest, rfl, hdrain, hmore⟩

/-! ### A call -/

/-- What has arrived since the last request is as if it were there now. -/
def Pending (front : Bytes) (conn : Connection) : Prop :=
  ∃ version, conn = ⟨fresh version, front⟩ ∨ conn.context.state = .expectHeaders ∧
    ∀ more, Chunks.drain parseStep (some (true, fresh version)) (front ++ more) =
      Chunks.drain parseStep (some (true, conn.context)) (conn.buffer ++ more)

variable {conn : Connection} {front chunk : Bytes}

private theorem pending_parse (h : Pending front conn) (chunk : Bytes) :
    ∃ version, conn.context.parseRequest (conn.buffer ++ chunk) =
        (Chunks.drain parseStep (some (true, fresh version)) (front ++ chunk)).1.map (fun (ok, context) =>
          (ok, context, (Chunks.drain parseStep (some (true, fresh version)) (front ++ chunk)).2)) ∧
      (conn.context.ParsesStart (conn.buffer ++ chunk) →
        (conn.buffer ++ chunk).length = front.length + chunk.length) := by
  obtain ⟨version, rfl | ⟨hstate, hmore⟩⟩ := h
  · exact ⟨version, rfl, fun _ => List.length_append⟩
  · refine ⟨version, ?_, fun hstart => ?_⟩
    · unfold HttpContext.parseRequest
      rw [if_pos (.inr hstate), hmore]
    · rw [hstart.1] at hstate
      cases hstate

/-- The start of a call is where the request that is looked at starts. -/
private theorem start_of_pending {call : Call} {conn' : Connection}
    (hstart : conn.context.ParsesStart (conn.buffer ++ chunk) →
      (conn.buffer ++ chunk).length = front.length + chunk.length)
    (h : conn.onMessage chunk = some (call, conn')) : ∀ n ∈ call.start, n = front.length + chunk.length := by
  intro n hn
  unfold Connection.onMessage at h
  obtain ⟨⟨ok, context, buffer⟩, -, h⟩ := Option.map_eq_some_iff.1 h
  have hcall : call.start = if conn.context.ParsesStart (conn.buffer ++ chunk) then
      some (conn.buffer ++ chunk).length else none := by
    dsimp only at h
    split at h <;> cases h <;> rfl
  rw [hcall, Option.mem_ite_none_right] at hn
  rw [← hstart hn.1]
  exact (Option.some.inj hn.2).symm

/-- A call that finds a part of a head. -/
private theorem onMessage_part {r : Request} (hwf : r.WellFormed) (h : Pending front conn)
    (hpart : front ++ chunk <+: r.head)
    (hlt : (front ++ chunk).length < r.head.length) :
    ∃ call conn', conn.onMessage chunk = some (call, conn') ∧ call.request = none ∧
      (∀ n ∈ call.start, n = front.length + chunk.length) ∧ Pending (front ++ chunk) conn' := by
  obtain ⟨version, hparse, hstart⟩ := pending_parse h chunk
  suffices hcall : ∃ call conn', conn.onMessage chunk = some (call, conn') ∧ call.request = none ∧
      Pending (front ++ chunk) conn' by
    obtain ⟨call, conn', hon, hnone, hpend⟩ := hcall
    exact ⟨call, conn', hon, hnone, start_of_pending hstart hon, hpend⟩
  unfold Connection.onMessage
  dsimp only
  rw [hparse]
  rcases parse_part hwf version hpart hlt with hdrain | ⟨context, rest, hstate, hdrain, hmore⟩
  · rw [hdrain]
    exact ⟨_, _, rfl, rfl, version, .inl rfl⟩
  · rw [hdrain, Option.map_some, Option.map_some]
    dsimp only
    rw [if_neg (by rw [hstate]; decide)]
    exact ⟨_, _, rfl, rfl, version, .inr ⟨hstate, hmore⟩⟩

/-- A call that finds all of a head: what comes after it is the query of a `POST`, and stays. -/
private theorem onMessage_whole {r : Request} {rest : Bytes} (hwf : r.WellFormed) (h : Pending front conn)
    (hwhole : front ++ chunk = r.head ++ rest) :
    ∃ call version, conn.onMessage chunk = some (call, ⟨fresh version, rest⟩) ∧
      call.request = some (if r.post then { r.handled with query := rest } else r.handled) ∧
      ∀ n ∈ call.start, n = front.length + chunk.length := by
  obtain ⟨version, hparse, hstart⟩ := pending_parse h chunk
  suffices hcall : ∃ call version, conn.onMessage chunk = some (call, ⟨fresh version, rest⟩) ∧
      call.request = some (if r.post then { r.handled with query := rest } else r.handled) by
    obtain ⟨call, version, hon, hrequest⟩ := hcall
    exact ⟨call, version, hon, hrequest, start_of_pending hstart hon⟩
  unfold Connection.onMessage
  dsimp only
  rw [hparse, hwhole, parse_whole hwf]
  refine ⟨_, if r.minor then .http11 else .http10, rfl, ?_⟩
  unfold Request.context Request.handled
  cases r.post <;> rfl

/-! ### The calls -/

/-- The claim from a connection on, when `n` bytes of the requests have arrived before the chunks. -/
private def AnswersFrom (all : List Request) (n : ℕ) (conn : Connection) (rs : List Request)
    (chunks : List Bytes) : Prop :=
  ∃ calls, serve conn chunks = some calls ∧ calls.filterMap Call.request = rs.map Request.handled ∧
    (∀ k, (Chunks.arrived Request.encode (n + (chunks.take k).flatten.length) rs).length ≤
      ((calls.take k).filterMap Call.request).length) ∧
    ∀ k call m, calls[k]? = some call → call.start = some m → ¬ InBody all (m + (chunks.drop (k + 1)).flatten.length)

variable {all rs : List Request} {n : ℕ} {conn' : Connection} {call : Call} {chunks : List Bytes}

private theorem answersFrom_nil : AnswersFrom all n conn rs [] ↔ rs = [] := by
  constructor
  · rintro ⟨calls, hserve, hrequests, -⟩
    cases hserve
    exact List.map_eq_nil_iff.1 hrequests.symm
  · rintro rfl
    exact ⟨[], rfl, rfl, fun k => by simp [Chunks.arrived], nofun⟩

private theorem answersFrom_cons (h : conn.onMessage chunk = some (call, conn')) :
    AnswersFrom all n conn rs (chunk :: chunks) ↔ ∃ calls, serve conn' chunks = some calls ∧
      (call :: calls).filterMap Call.request = rs.map Request.handled ∧
      Chunks.arrived Request.encode n rs = [] ∧
      (∀ k, (Chunks.arrived Request.encode (n + chunk.length + (chunks.take k).flatten.length) rs).length ≤
        ((call :: calls.take k).filterMap Call.request).length) ∧
      (∀ m, call.start = some m → ¬ InBody all (m + chunks.flatten.length)) ∧
      ∀ k call m, calls[k]? = some call → call.start = some m →
      ¬ InBody all (m + (chunks.drop (k + 1)).flatten.length) := by
  have harrived : ∀ calls : List Call,
      (∀ k, (Chunks.arrived Request.encode (n + ((chunk :: chunks).take k).flatten.length) rs).length ≤
      (((call :: calls).take k).filterMap Call.request).length) ↔ Chunks.arrived Request.encode n rs = [] ∧
      ∀ k, (Chunks.arrived Request.encode (n + chunk.length + (chunks.take k).flatten.length) rs).length ≤
        ((call :: calls.take k).filterMap Call.request).length := by
    intro calls
    rw [← Nat.and_forall_add_one]
    simp [Nat.add_assoc]
  have hstarts : ∀ calls : List Call, (∀ k c m, (call :: calls)[k]? = some c → c.start = some m →
      ¬ InBody all (m + ((chunk :: chunks).drop (k + 1)).flatten.length)) ↔
      (∀ m, call.start = some m → ¬ InBody all (m + chunks.flatten.length)) ∧
      ∀ k c m, calls[k]? = some c → c.start = some m → ¬ InBody all (m + (chunks.drop (k + 1)).flatten.length) := by
    intro calls
    rw [← Nat.and_forall_add_one]
    refine and_congr_left fun _ => ⟨fun hall m => hall call m rfl, ?_⟩
    rintro hall _ m ⟨⟩
    exact hall m
  have hserves : ∀ calls, serve conn (chunk :: chunks) = some calls ↔ ∃ calls', serve conn' chunks = some calls' ∧
      call :: calls' = calls := by
    intro calls
    rw [serve, h, Option.bind_some]
    exact Option.map_eq_some_iff
  unfold AnswersFrom
  constructor
  · rintro ⟨calls, hserve, hrequests, hcount, hstart⟩
    obtain ⟨calls, hserve', rfl⟩ := (hserves calls).1 hserve
    obtain ⟨hnil, hcount⟩ := (harrived calls).1 hcount
    obtain ⟨hfirst, hstart⟩ := (hstarts calls).1 hstart
    exact ⟨calls, hserve', hrequests, hnil, hcount, hfirst, hstart⟩
  · rintro ⟨calls, hserve, hrequests, hnil, hcount, hfirst, hstart⟩
    exact ⟨call :: calls, (hserves _).2 ⟨calls, hserve, rfl⟩, hrequests, (harrived calls).2 ⟨hnil, hcount⟩,
      (hstarts calls).2 ⟨hfirst, hstart⟩⟩

private theorem answersFrom_none (h : conn.onMessage chunk = some (call, conn')) (hnone : call.request = none) :
    AnswersFrom all n conn rs (chunk :: chunks) ↔ Chunks.arrived Request.encode n rs = [] ∧
      (∀ m, call.start = some m → ¬ InBody all (m + chunks.flatten.length)) ∧
      AnswersFrom all (n + chunk.length) conn' rs chunks := by
  rw [answersFrom_cons h]
  have hcons : ∀ calls : List Call, (call :: calls).filterMap Call.request = calls.filterMap Call.request :=
    fun calls => List.filterMap_cons_none hnone
  simp only [hcons]
  constructor
  · rintro ⟨calls, hserve, hrequests, hnil, hcount, hfirst, hstart⟩
    exact ⟨hnil, hfirst, calls, hserve, hrequests, hcount, hstart⟩
  · rintro ⟨hnil, hfirst, calls, hserve, hrequests, hcount, hstart⟩
    exact ⟨calls, hserve, hrequests, hnil, hcount, hfirst, hstart⟩

private theorem answersFrom_some {r : Request} {request : HttpRequest} {m : ℕ}
    (h : conn.onMessage chunk = some (call, conn'))
    (hsome : call.request = some request) (hlength : n + chunk.length = r.encode.length + m) :
    AnswersFrom all n conn (r :: rs) (chunk :: chunks) ↔ Chunks.arrived Request.encode n (r :: rs) = [] ∧
      (∀ m, call.start = some m → ¬ InBody all (m + chunks.flatten.length)) ∧ request = r.handled ∧
      AnswersFrom all m conn' rs chunks := by
  rw [answersFrom_cons h]
  have hcons : ∀ calls : List Call, (call :: calls).filterMap Call.request = request ::
      calls.filterMap Call.request :=
    fun calls => List.filterMap_cons_some hsome
  have harrived : ∀ k, Chunks.arrived Request.encode (n + chunk.length + (chunks.take k).flatten.length) (r :: rs) =
      r :: Chunks.arrived Request.encode (m + (chunks.take k).flatten.length) rs := by
    intro k
    rw [Chunks.arrived, if_pos (by omega)]
    congr 2
    omega
  simp only [hcons, harrived, List.map_cons, List.cons.injEq, List.length_cons, Nat.add_le_add_iff_right]
  constructor
  · rintro ⟨calls, hserve, ⟨hrequest, hrequests⟩, hnil, hcount, hfirst, hstart⟩
    exact ⟨hnil, hfirst, hrequest, calls, hserve, hrequests, hcount, hstart⟩
  · rintro ⟨hnil, hfirst, hrequest, calls, hserve, hrequests, hcount, hstart⟩
    exact ⟨calls, hserve, ⟨hrequest, hrequests⟩, hnil, hcount, hfirst, hstart⟩

private theorem encodeAll_cons (r : Request) (rs : List Request) : encodeAll (r :: rs) = r.encode ++ encodeAll rs :=
  rfl

private theorem length_encodeAll_of_suffix {rs rs' : List Request} (h : rs <:+ rs') :
    (encodeAll rs).length ≤ (encodeAll rs').length := by
  obtain ⟨before, rfl⟩ := h
  unfold encodeAll
  rw [List.map_append, List.flatten_append, List.length_append]
  omega

private theorem length_head_pos (r : Request) : 0 < r.head.length := by
  unfold Request.head
  rw [List.length_append]
  exact Nat.lt_of_lt_of_le (by decide) (Nat.le_add_left crlf.length _)

/-- The start of a request is not in a body. -/
private theorem not_inBody (h : rs <:+ all) : ¬ InBody all (encodeAll rs).length := by
  rintro ⟨before, r, after, rfl, hlt, hle⟩
  rcases List.suffix_or_suffix_of_suffix h (List.suffix_append before (r :: after)) with hsuffix | hsuffix
  · rcases List.suffix_cons_iff.1 hsuffix with rfl | hsuffix
    · have := length_head_pos r
      rw [encodeAll_cons, Request.encode, List.length_append, List.length_append] at hle
      omega
    · have := length_encodeAll_of_suffix hsuffix
      omega
  · have hlength := length_encodeAll_of_suffix hsuffix
    have := length_head_pos r
    rw [encodeAll_cons, Request.encode, List.length_append, List.length_append] at hlength
    omega

/-- A body that is left in the buffer is parsed at last. -/
private theorem not_answersFrom_of_body {version : Version} {buf : Bytes} (hne : chunks ≠ [])
    (hfound : (Lines.find crlf (buf ++ chunks.flatten)).isSome)
    (hbody : InBody all (buf.length + chunks.flatten.length)) :
    ¬ AnswersFrom all n ⟨fresh version, buf⟩ rs chunks := by
  induction chunks generalizing buf n with
  | nil => exact absurd rfl hne
  | cons chunk chunks ih =>
    intro hanswers
    rw [List.flatten_cons, ← List.append_assoc] at hfound
    rw [List.flatten_cons, List.length_append, ← Nat.add_assoc] at hbody
    by_cases hnow : (Lines.find crlf (buf ++ chunk)).isSome
    · cases hcall : Connection.onMessage ⟨fresh version, buf⟩ chunk with
      | none =>
        obtain ⟨calls, hserve, -⟩ := hanswers
        rw [serve, hcall] at hserve
        cases hserve
      | some out =>
        obtain ⟨call, conn'⟩ := out
        obtain ⟨_, _, _, _, _, hfirst, _⟩ := (answersFrom_cons hcall).1 hanswers
        have hstart : call.start = some (buf ++ chunk).length := by
          unfold Connection.onMessage at hcall
          obtain ⟨⟨ok, context, buffer⟩, -, hcall⟩ := Option.map_eq_some_iff.1 hcall
          have hparses : (fresh version).ParsesStart (buf ++ chunk) := ⟨rfl, hnow⟩
          dsimp only at hcall
          rw [if_pos hparses] at hcall
          split at hcall <;> cases hcall <;> rfl
        rw [List.length_append] at hstart
        exact hfirst _ hstart hbody
    · have hnone : Lines.find crlf (buf ++ chunk) = none := by simpa using hnow
      have hcall : Connection.onMessage ⟨fresh version, buf⟩ chunk =
          some (⟨none, false, none⟩, ⟨fresh version, buf ++ chunk⟩) := by
        have hparses : ¬ (fresh version).ParsesStart (buf ++ chunk) := fun h => hnow h.2
        have hdrain := Chunks.drain_of_wait (@wait_of_find (fresh version) true (buf ++ chunk) (.inl rfl) hnone)
        unfold Connection.onMessage HttpContext.parseRequest
        dsimp only
        rw [if_neg hparses, if_pos (.inl rfl), hdrain]
        rfl
      obtain ⟨-, -, hanswers⟩ := (answersFrom_none hcall rfl).1 hanswers
      refine ih ?_ hfound (by rwa [List.length_append]) hanswers
      rintro rfl
      rw [List.flatten_nil, List.append_nil] at hfound
      exact hnow hfound

private theorem arrived_eq_nil_iff {r : Request} {front more : Bytes}
    (hstream : front ++ more = encodeAll (r :: rs)) :
    Chunks.arrived Request.encode front.length (r :: rs) = [] ↔ ¬ r.encode <+: front := by
  rw [encodeAll_cons] at hstream
  rw [Chunks.arrived]
  constructor
  · intro hnil hfront
    rw [if_pos hfront.length_le] at hnil
    cases hnil
  · intro hnot
    refine if_neg fun hle => hnot ?_
    exact List.prefix_of_prefix_length_le (List.prefix_append _ _) ⟨more, hstream⟩ hle

private theorem encodeAll_line (r : Request) (rs : List Request) :
    ∃ rest, encodeAll (r :: rs) = r.line ++ (crlf ++ rest) := by
  rw [encodeAll_cons, Request.encode, Request.head]
  simp only [List.append_assoc]
  exact ⟨_, rfl⟩

private theorem flatten_eq_nil (hchunks : ∀ chunk ∈ chunks, chunk ≠ []) (h : chunks.flatten = encodeAll []) :
    chunks = [] := by
  cases chunks with
  | nil => rfl
  | cons chunk chunks => exact absurd (List.append_eq_nil_iff.1 h).1 (hchunks chunk (List.mem_cons_self ..))

private theorem answersFrom_iff (hwf : ∀ r ∈ rs, r.WellFormed) (hchunks : ∀ chunk ∈ chunks, chunk ≠ [])
    (hstream : front ++ chunks.flatten = encodeAll rs) (hall : rs <:+ all) (hpend : Pending front conn) :
    AnswersFrom all front.length conn rs chunks ↔ Fits front rs chunks := by
  induction chunks generalizing front conn rs with
  | nil =>
    rw [answersFrom_nil]
    cases rs <;> rfl
  | cons chunk chunks ih =>
    have hchunk := hchunks chunk (List.mem_cons_self ..)
    have hchunks' := fun c hc => hchunks c (List.mem_cons_of_mem chunk hc)
    cases rs with
    | nil =>
      simp [encodeAll] at hstream
      exact absurd hstream.2.1 hchunk
    | cons r rs =>
      have hr := hwf r (List.mem_cons_self ..)
      have harrived := arrived_eq_nil_iff hstream
      rw [List.flatten_cons, ← List.append_assoc] at hstream
      -- what a call parses first is the start of the request
      have hstart : ∀ {call : Call}, (∀ n ∈ call.start, n = front.length + chunk.length) →
          ∀ m, call.start = some m → ¬ InBody all (m + chunks.flatten.length) := by
        intro call hn m hm
        rw [hn m hm, ← List.length_append, ← List.length_append, hstream]
        exact not_inBody hall
      have hall' : rs <:+ all := (List.suffix_cons r rs).trans hall
      have hwf' := fun r' hr' => hwf r' (List.mem_cons_of_mem r hr')
      have hhead : r.head <+: encodeAll (r :: rs) := by
        rw [encodeAll_cons, Request.encode, List.append_assoc]
        exact List.prefix_append _ _
      rw [Fits, ← harrived]
      by_cases hwhole : r.head <+: front ++ chunk
      · rw [if_pos hwhole]
        obtain ⟨rest, hrest⟩ := hwhole
        obtain ⟨call, version, hcall, hrequest, hn⟩ := onMessage_whole hr hpend hrest.symm
        have hbody : rest ++ chunks.flatten = r.body ++ encodeAll rs := by
          rw [← hrest, encodeAll_cons, Request.encode, List.append_assoc, List.append_assoc] at hstream
          exact List.append_cancel_left hstream
        have hlength : front.length + chunk.length = r.head.length + rest.length := by
          rw [← List.length_append, ← hrest, List.length_append]
        rw [← hrest]
        cases hpost : r.post with
        | false =>
          have hencode : r.encode = r.head := by
            rw [Request.encode, hr.get hpost, List.append_nil]
          rw [hr.get hpost, List.nil_append] at hbody
          rw [hpost] at hrequest
          rw [answersFrom_some hcall hrequest (by rw [hencode]; exact hlength),
            ih hwf' hchunks' hbody hall' ⟨version, .inl rfl⟩, hencode, List.drop_left]
          constructor
          · exact fun h => ⟨h.1, List.prefix_append _ _, nofun, fun hne => absurd (hr.get hpost) hne, h.2.2.2⟩
          · exact fun h => ⟨h.1, hstart hn, rfl, h.2.2.2.2⟩
        | true =>
          rw [hpost, if_pos rfl] at hrequest
          by_cases hquery : rest = r.body
          · subst hquery
            have hchunks'' := List.append_cancel_left hbody
            have hend : front.length + chunk.length = r.encode.length + 0 := by
              rw [hlength, Request.encode, List.length_append]
              rfl
            have hhandled : { r.handled with query := r.body } = r.handled := by
              unfold Request.handled
              rw [hpost]
              rfl
            have hdrop : (r.head ++ r.body).drop r.encode.length = [] := List.drop_eq_nil_of_le (Nat.le_refl _)
            rw [answersFrom_some hcall hrequest hend, hdrop]
            constructor
            · rintro ⟨harr, -, -, hanswers⟩
              refine ⟨harr, List.prefix_refl _, fun _ => rfl, ?_⟩
              by_cases hnil : r.body = []
              · have hnext := @ih ⟨fresh version, []⟩ [] rs hwf' hchunks' hchunks'' hall' ⟨version, .inl rfl⟩
                rw [hnil] at hanswers
                exact ⟨fun hne => absurd hnil hne, hnext.1 hanswers⟩
              · cases rs with
                | nil =>
                  refine ⟨fun _ => rfl, ?_⟩
                  rw [flatten_eq_nil hchunks' hchunks'']
                  rfl
                | cons r' rs =>
                  refine absurd hanswers (not_answersFrom_of_body ?_ ?_ ?_)
                  · rintro rfl
                    obtain ⟨rest, hrest'⟩ := encodeAll_line r' rs
                    rw [hrest'] at hchunks''
                    simp [crlf] at hchunks''
                  · obtain ⟨rest, hrest'⟩ := encodeAll_line r' rs
                    rw [hchunks'', hrest', ← List.append_assoc]
                    exact Lines.isSome_find (by decide) _ _
                  · obtain ⟨before, hbefore⟩ := hall
                    refine ⟨before, r, r' :: rs, hbefore.symm, ?_, ?_⟩
                    · have := List.length_pos_of_ne_nil hnil
                      rw [hchunks'']
                      omega
                    · rw [hchunks'', Nat.add_comm]
            · rintro ⟨harr, -, -, hlast, hfits⟩
              refine ⟨harr, hstart hn, hhandled, ?_⟩
              by_cases hnil : r.body = []
              · have hnext := @ih ⟨fresh version, []⟩ [] rs hwf' hchunks' hchunks'' hall' ⟨version, .inl rfl⟩
                rw [hnil]
                exact hnext.2 hfits
              · obtain rfl := hlast hnil
                rw [flatten_eq_nil hchunks' hchunks'']
                exact answersFrom_nil.2 rfl
          · constructor
            · intro hanswers
              obtain ⟨calls, -, hrequests, -⟩ := (answersFrom_cons hcall).1 hanswers
              rw [List.filterMap_cons_some hrequest, List.map_cons, List.cons.injEq] at hrequests
              have := congrArg HttpRequest.query hrequests.1
              unfold Request.handled at this
              simp only [hpost, if_true] at this
              exact absurd this hquery
            · rintro ⟨-, -, hend, -⟩
              exact absurd (List.append_cancel_left (hend rfl)) hquery
      · rw [if_neg hwhole]
        have hlt : (front ++ chunk).length < r.head.length := by
          by_contra hge
          exact hwhole (List.prefix_of_prefix_length_le hhead ⟨_, hstream⟩ (Nat.le_of_not_lt hge))
        have hpart := List.prefix_of_prefix_length_le ⟨_, hstream⟩ hhead (Nat.le_of_lt hlt)
        obtain ⟨call, conn', hcall, hnone, hn, hpend'⟩ := onMessage_part hr hpend hpart hlt
        have hnext := ih hwf hchunks' hstream hall hpend'
        rw [List.length_append] at hnext
        rw [answersFrom_none hcall hnone, hnext]
        exact ⟨fun h => ⟨h.1, h.2.2⟩, fun h => ⟨h.1, hstart hn, h.2⟩⟩

/-- The claim of the server holds exactly when the requests fit the chunks. -/
theorem answers_iff (hwf : ∀ r ∈ rs, r.WellFormed) (hchunks : ∀ chunk ∈ chunks, chunk ≠ [])
    (hstream : chunks.flatten = encodeAll rs) : Answers rs chunks ↔ Fits [] rs chunks := by
  have hpend : Pending [] .new := ⟨.unknown, .inl rfl⟩
  rw [← answersFrom_iff hwf hchunks hstream (List.suffix_refl rs) hpend]
  unfold Answers AnswersFrom
  simp only [List.length_nil, Nat.zero_add]

/-- A `POST` of three bytes. -/
def aPost : Request :=
  ⟨true, [47], none, true, [⟨ascii "Content-Length", [32], [51], []⟩], [97, 98, 99]⟩

def aGet : Request := ⟨false, [47, 97], some [98], true, [⟨ascii "Host", [32], [104], []⟩], []⟩

private theorem aPost_wellFormed : aPost.WellFormed := by
  refine ⟨⟨⟨by decide, by decide⟩, by decide, by decide⟩, nofun, ?_, nofun,
    fun _ => ⟨_, List.mem_singleton_self _, rfl, by decide⟩⟩
  intro h hh
  obtain rfl := List.mem_singleton.1 hh
  exact ⟨⟨⟨by decide, by decide⟩, by decide⟩, by simp,
    ⟨by decide, by decide⟩, by rintro _ ⟨⟩; rfl, by rintro _ ⟨⟩; rfl,
      by simp⟩

private theorem aGet_wellFormed : aGet.WellFormed := by
  refine ⟨⟨⟨by decide, by decide⟩, by decide, by decide⟩, ?_, ?_, fun _ => rfl, nofun⟩
  · rintro query ⟨⟩
    exact ⟨⟨by decide, by decide⟩, by decide⟩
  · intro h hh
    obtain rfl := List.mem_singleton.1 hh
    exact ⟨⟨⟨by decide, by decide⟩, by decide⟩, by simp,
      ⟨by decide, by decide⟩, by rintro _ ⟨⟩; rfl, by rintro _ ⟨⟩; rfl,
      by simp⟩

/-- The `GET` comes with the head of the `POST`, and the body in a chunk of its own. -/
theorem answers_getPost : Answers [aGet, aPost] [aGet.encode ++ aPost.head, aPost.body] := by
  have hwf : ∀ r ∈ [aGet, aPost], r.WellFormed := by
    intro r hr
    rcases List.mem_cons.1 hr with rfl | hr
    · exact aGet_wellFormed
    · obtain rfl := List.mem_singleton.1 hr
      exact aPost_wellFormed
  have hstream : [aGet.encode ++ aPost.head, aPost.body].flatten = encodeAll [aGet, aPost] := by decide
  refine (answers_iff hwf (by decide) hstream).2 ?_
  refine ⟨by decide, ?_⟩
  rw [if_pos (by decide)]
  refine ⟨by decide, nofun, nofun, ?_⟩
  refine ⟨by decide, ?_⟩
  rw [if_pos (by decide)]
  exact ⟨by decide, fun _ => by decide, fun _ => rfl, rfl⟩

/-- A `POST` whose body comes after its head is handed on without it. -/
theorem not_answers_post :
    ¬ ∀ (rs : List Request) (chunks : List Bytes), (∀ r ∈ rs, r.WellFormed) → (∀ chunk ∈ chunks, chunk ≠ []) →
      chunks.flatten = encodeAll rs → Answers rs chunks := by
  intro hall
  have hwf : ∀ r ∈ [aPost], r.WellFormed := by
    intro r hr
    obtain rfl := List.mem_singleton.1 hr
    exact aPost_wellFormed
  obtain ⟨calls, hserve, hrequests, -⟩ := hall [aPost] [aPost.head, aPost.body] hwf (by decide) rfl
  have hquery : (serve .new [aPost.head, aPost.body]).map (fun calls => calls.filterMap Call.request) ≠
      some ([aPost].map Request.handled) := by
    decide +kernel
  rw [hserve, Option.map_some, hrequests] at hquery
  exact hquery rfl

end Http
