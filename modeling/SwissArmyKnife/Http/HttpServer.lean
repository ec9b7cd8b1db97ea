import SwissArmyKnife.Lib.Bytes
import SwissArmyKnife.Lib.Chunks
import SwissArmyKnife.Lib.Decimal
import SwissArmyKnife.Lib.KeyedSet
import SwissArmyKnife.Lib.Lines
import Mathlib.Data.List.DropRight

/-!
# Serving requests

`parseRequest` takes the lines of a request off the buffer, up to the one without a colon, and `onMessage` hands the
request on and starts anew.  The buffer is a byte queue.  A call that an assertion ends, or that does not end, is
`none`.  Of the answer only the request that it is for is kept.
-/

namespace Http

open Ascii (ascii crlf)
open Decimal (isSpace digits)

abbrev Bytes := List UInt8

/-- What is before the first `b`, and what is after it. -/
def cutAt (b : UInt8) (l : Bytes) : Option (Bytes × Bytes) :=
  if b ∈ l then some (l.takeWhile (· ≠ b), (l.dropWhile (· ≠ b)).tail) else none

/-! ### Requests -/

inductive Method where
  | invalid
  | get
  | post
  | head
  | put
  | delete
deriving DecidableEq, Repr

inductive Version where
  | unknown
  | http10
  | http11
deriving DecidableEq, Repr

structure HttpRequest where
  method : Method
  version : Version
  path : Bytes
  query : Bytes
  headers : List (Bytes × Bytes)
deriving DecidableEq, Repr

/-- A field of a map takes the place of the one with its name. -/
def putHeader (headers : List (Bytes × Bytes)) (field value : Bytes) : List (Bytes × Bytes) :=
  KeyedSet.insert Prod.fst (KeyedSet.erase Prod.fst headers field) (field, value)

namespace HttpRequest

variable (request : HttpRequest)

/-- Whether the method is known. -/
def setMethod (m : Bytes) : Option (Bool × HttpRequest) :=
  if request.method ≠ .invalid then none
  else
    let method : Method :=
      if m = ascii "GET" then .get
      else if m = ascii "POST" then .post
      else if m = ascii "HEAD" then .head
      else if m = ascii "PUT" then .put
      else if m = ascii "DELETE" then .delete
      else .invalid
    some (method ≠ .invalid, { request with method := method })

/-- The value goes without the blanks around it. -/
def addHeader (field value : Bytes) : HttpRequest :=
  { request with headers := putHeader request.headers field ((value.dropWhile isSpace).rdropWhile isSpace) }

def getHeader (field : Bytes) : Bytes := ((KeyedSet.find Prod.fst request.headers field).map Prod.snd).getD []

/-- `swap` with a new request leaves the version. -/
def reset : HttpRequest := ⟨.invalid, request.version, [], [], []⟩

end HttpRequest

/-! ### The parser -/

inductive HttpRequestParseState where
  | expectRequestLine
  | expectHeaders
  | expectBody
  | gotAll
deriving DecidableEq, Repr

structure HttpContext where
  state : HttpRequestParseState
  request : HttpRequest
deriving DecidableEq, Repr

def HttpRequest.processRequestLine (request : HttpRequest) (line : Bytes) : Option (Bool × HttpRequest) :=
  match cutAt 32 line with
  | none => some (false, request)
  | some (m, rest) =>
    (request.setMethod m).map fun (succeed, request) =>
      if succeed then
        match cutAt 32 rest with
        | none => (false, request)
        | some (uri, version) =>
          let request :=
            match cutAt 63 uri with
            | some (path, query) => { request with path := path, query := query }
            | none => { request with path := uri }
          if version.length = 8 ∧ version.take 7 = ascii "HTTP/1." then
            match version.getLast? with
            | some 49 => (true, { request with version := .http11 })
            | some 48 => (true, { request with version := .http10 })
            | _ => (false, request)
          else (false, request)
      else (false, request)

/-- One turn of the loop of `parseRequest`.  With the context is whether the lines were right so far. -/
def parseStep : Option (Bool × HttpContext) → Bytes → Chunks.Step (Option (Bool × HttpContext)) UInt8
  | none, _ => .wait
  | some (ok, context), buf =>
    match context.state with
    | .expectRequestLine =>
      match Lines.find crlf buf with
      | none => .wait
      | some n =>
        match context.request.processRequestLine (buf.take n) with
        | none => .stop none
        | some (true, request) => .next (some (true, ⟨.expectHeaders, request⟩)) (buf.drop (n + 2))
        | some (false, request) => .stop (some (false, { context with request := request }))
    | .expectHeaders =>
      match Lines.find crlf buf with
      | none => .wait
      | some n =>
        match cutAt 58 (buf.take n) with
        | some (field, value) =>
          .next (some (ok, { context with request := context.request.addHeader field value })) (buf.drop (n + 2))
        | none => .next (some (ok, { context with state := .gotAll })) (buf.drop (n + 2))
    | .expectBody => .stop none
    | .gotAll => .wait

def HttpContext.parseRequest (context : HttpContext) (buf : Bytes) : Option (Bool × HttpContext × Bytes) :=
  -- in the other states the loop has nothing to do and does not end
  if context.state = .expectRequestLine ∨ context.state = .expectHeaders then
    let r := Chunks.drain parseStep (some (true, context)) buf
    r.1.map fun (ok, context) => (ok, context, r.2)
  else none

/-- `processRequestLine` is reached, so that the front of the buffer is parsed as the start of a request. -/
def HttpContext.ParsesStart (context : HttpContext) (buf : Bytes) : Prop :=
  context.state = .expectRequestLine ∧ (Lines.find crlf buf).isSome

instance (context : HttpContext) (buf : Bytes) : Decidable (context.ParsesStart buf) :=
  inferInstanceAs (Decidable (_ ∧ _))

/-! ### The server -/

structure Connection where
  context : HttpContext
  buffer : Bytes

/-- A connection that was just made. -/
def Connection.new : Connection := ⟨⟨.expectRequestLine, ⟨.invalid, .unknown, [], [], []⟩⟩, []⟩

/-- What a call of `onMessage` did: the request it handed on, whether it answered that the request is bad, and how
many bytes were unread when a request line was parsed. -/
structure Call where
  request : Option HttpRequest
  badRequest : Bool
  start : Option ℕ

def Connection.onMessage (conn : Connection) (chunk : Bytes) : Option (Call × Connection) :=
  let buffer := conn.buffer ++ chunk
  let start := if conn.context.ParsesStart buffer then some buffer.length else none
  (conn.context.parseRequest buffer).map fun (ok, context, buffer) =>
    if context.state = .gotAll then
      -- the body stays in the buffer
      let request :=
        if context.request.method = .post then { context.request with query := buffer } else context.request
      (⟨some request, !ok, start⟩, ⟨⟨.expectRequestLine, context.request.reset⟩, buffer⟩)
    else (⟨none, !ok, start⟩, ⟨context, buffer⟩)

/-- The calls of `onMessage` for the chunks. -/
def serve : Connection → List Bytes → Option (List Call)
  | _, [] => some []
  | conn, chunk :: chunks => (conn.onMessage chunk).bind fun (call, conn) => (serve conn chunks).map (call :: ·)

/-! ### Streams of requests -/

/-- A line of a head, with the blanks that may stand around the value. -/
structure Header where
  field : Bytes
  before : Bytes
  value : Bytes
  after : Bytes
deriving DecidableEq, Repr

/-- A request as a client sends it: with or without a query. -/
structure Request where
  post : Bool
  path : Bytes
  query : Option Bytes
  minor : Bool
  headers : List Header
  body : Bytes
deriving DecidableEq, Repr

def Header.line (h : Header) : Bytes := h.field ++ 58 :: (h.before ++ h.value ++ h.after)

namespace Request

variable (r : Request)

def uri : Bytes := r.path ++ (r.query.map fun query => 63 :: query).getD []

def line : Bytes :=
  (if r.post then ascii "POST" else ascii "GET") ++ 32 ::
    (r.uri ++ 32 :: (if r.minor then ascii "HTTP/1.1" else ascii "HTTP/1.0"))

/-- The request up to its body. -/
def head : Bytes := r.line ++ crlf ++ (r.headers.map fun h => h.line ++ crlf).flatten ++ crlf

def encode : Bytes := r.head ++ r.body

/-- What the server is to be asked. -/
def handled : HttpRequest where
  method := if r.post then .post else .get
  version := if r.minor then .http11 else .http10
  path := r.path
  query := if r.post then r.body else r.query.getD []
  headers := r.headers.foldl (fun headers h => putHeader headers h.field h.value) []

end Request

/-- A part of a line. -/
def Plain (s : Bytes) : Prop := 13 ∉ s ∧ 10 ∉ s

structure Header.WellFormed (h : Header) : Prop where
  field : Plain h.field ∧ 58 ∉ h.field
  before : ∀ b ∈ h.before, b = 32 ∨ b = 9
  value : Plain h.value
  first : ∀ b ∈ h.value.head?, isSpace b = false
  last : ∀ b ∈ h.value.getLast?, isSpace b = false
  after : ∀ b ∈ h.after, b = 32 ∨ b = 9

/-- A `GET` without a body, or a `POST` with the length of its body. -/
structure Request.WellFormed (r : Request) : Prop where
  path : Plain r.path ∧ 32 ∉ r.path ∧ 63 ∉ r.path
  query : ∀ query ∈ r.query, Plain query ∧ 32 ∉ query
  headers : ∀ h ∈ r.headers, h.WellFormed
  get : r.post = false → r.body = []
  post : r.post = true → ∃ h ∈ r.headers, h.field = ascii "Content-Length" ∧ h.value = digits r.body.length

def encodeAll (rs : List Request) : Bytes := (rs.map Request.encode).flatten

/-- With `n` bytes to come, the next one is part of a body. -/
def InBody (rs : List Request) (n : ℕ) : Prop :=
  ∃ before r after, rs = before ++ r :: after ∧ (encodeAll after).length < n ∧
  n ≤ (encodeAll after).length + r.body.length

/-- Each request is handed on once, in turn and not after the call with its last byte, and no byte of a body is parsed
as the start of a request. -/
def Answers (rs : List Request) (chunks : List Bytes) : Prop :=
  ∃ calls, serve .new chunks = some calls ∧ calls.filterMap Call.request = rs.map Request.handled ∧
    (∀ k, (Chunks.arrived Request.encode (chunks.take k).flatten.length rs).length ≤
      ((calls.take k).filterMap Call.request).length) ∧
    ∀ k call n, calls[k]? = some call → call.start = some n → ¬ InBody rs (n + (chunks.drop (k + 1)).flatten.length)

/-- How the requests have to lie in the chunks; `front` has arrived before them.  When a request is looked at for the
first time it is not there as a whole; when its head is there, so is its body; nothing comes after a `POST` in the
chunk where it ends, and no request at all when it has a body. -/
def Fits : Bytes → List Request → List Bytes → Prop
  | _, rs, [] => rs = []
  | _, [], _ :: _ => False
  | front, r :: rs, chunk :: chunks =>
    ¬ r.encode <+: front ∧
      if r.head <+: front ++ chunk then
        r.encode <+: front ++ chunk ∧ (r.post = true → front ++ chunk = r.encode) ∧ (r.body ≠ [] → rs = []) ∧
          Fits ((front ++ chunk).drop r.encode.length) rs chunks
      else Fits (front ++ chunk) (r :: rs) chunks

end Http
