import SwissArmyKnife.Http.ParseLoops
import SwissArmyKnife.Lib.Decimal

/-!
# Responses

`parseResponse` reads the status line and the headers like `parseRequest` does, and takes all that is in the buffer
for the body when it is as long as the `Content-Length`, which is read with `atol` into 32 bits.  `string2ll` is a
parameter.
-/

namespace Http

open Ascii (ascii)
open Decimal (isSpace)
open Loop

/-- `statusCode` is missing when it was set to what `string2ll` left uninitialised. -/
structure HttpResponse where
  headers : List (Bytes × Bytes)
  statusCode : Option ℤ
  statusMessage : Bytes
  body : Bytes
deriving DecidableEq, Repr

namespace HttpResponse

variable (string2ll : Bytes → Option ℤ) (response : HttpResponse)

/-- `HttpResponse()`, with the status `kUnknown`. -/
def new : HttpResponse := ⟨[], some 0, [], []⟩

def addHeader (field value : Bytes) : HttpResponse :=
  { response with headers := putHeader response.headers field ((value.dropWhile isSpace).rdropWhile isSpace) }

/-- The number is converted to `int32_t`.  Without the header an assertion fails. -/
def getBodySize : Option Int32 :=
  (KeyedSet.find Prod.fst response.headers (ascii "Content-Length")).map fun field =>
    Int32.ofInt (Decimal.strtoll (field.2.takeWhile (· ≠ 0))).1

def processResponseLine (line : Bytes) : Bool × HttpResponse :=
  match cutAt 32 line with
  | none => (false, response)
  | some (version, rest) =>
    let succeed := version.length = 8 ∧ version.take 7 = ascii "HTTP/1." ∧
      (version.getLast? = some 49 ∨ version.getLast? = some 48)
    -- the status is set in any case
    match cutAt 32 rest with
    | none => (succeed, response)
    | some (code, message) =>
      let response := { response with statusCode := string2ll code }
      (succeed, if message ≠ [] then { response with statusMessage := message } else response)

end HttpResponse

/-- The comparison converts the size to `size_t`. -/
def sizeToUnsigned (size : Int32) : ℕ := (size.toInt % 2 ^ 64).toNat

/-- The branch for `kExpectBody`. -/
def takeBody (p : Parsing HttpResponse) : Option (Parsing HttpResponse) :=
  p.message.getBodySize.map fun size =>
    if p.buffer.length = sizeToUnsigned size then
      { p with state := .gotAll, message := { p.message with body := p.buffer }, buffer := [] }
    else p

/-- `HttpContext::parseResponse`. -/
def responseParser (string2ll : Bytes → Option ℤ) : HeadParser HttpResponse :=
  ⟨fun response line => some (response.processResponseLine string2ll line), HttpResponse.addHeader, some takeBody⟩

end Http
