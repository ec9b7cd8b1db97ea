import SwissArmyKnife.Lib.Bytes

/-!
# Items

An item has room for its key and for a value with its CRLF; the value comes in pieces.  The lengths are `int`s, so
they wrap. What an assertion refuses is `none`.
-/

namespace Memcached

open Ascii (crlf)
open Words (toInt toInt_eq toInt_neg)

abbrev Bytes := List UInt8

/-- The part of the value that has been received is `value`. -/
structure Item where
  key : Bytes
  flags : UInt32
  relExptime : Int32
  valueLen : ℤ
  value : Bytes
  cas : UInt64
deriving DecidableEq, Repr

namespace Item

def totalLen (item : Item) : ℤ := toInt (item.key.length + item.valueLen)

def receivedBytes (item : Item) : ℤ := item.key.length + item.value.length

def neededBytes (item : Item) : ℤ := item.totalLen - item.receivedBytes

def append (item : Item) (data : Bytes) : Option Item :=
  if data.length ≤ item.neededBytes then some { item with value := item.value ++ data } else none

def makeItem (key : Bytes) (flags : UInt32) (exptime : Int32) (valuelen : ℤ) (cas : UInt64) : Option Item :=
  let item : Item := ⟨key, flags, exptime, valuelen, [], cas⟩
  if 2 ≤ valuelen ∧ 0 < item.totalLen then some item else none

def endsWithCRLF (item : Item) : Bool :=
  item.receivedBytes = item.totalLen && item.value.drop (item.value.length - 2) = crlf

/-- The item was made and its value has been received. -/
structure Complete (item : Item) : Prop where
  made : 2 ≤ item.valueLen
  fits : item.key.length + item.valueLen < 2 ^ 31
  received : item.value.length = item.valueLen
  crlf : item.value.drop (item.value.length - 2) = crlf

instance (item : Item) : Decidable item.Complete :=
  decidable_of_iff (2 ≤ item.valueLen ∧ item.key.length + item.valueLen < 2 ^ 31 ∧ item.value.length = item.valueLen ∧
      item.value.drop (item.value.length - 2) = crlf)
    ⟨fun ⟨hmade, hfits, hreceived, hcrlf⟩ => ⟨hmade, hfits, hreceived, hcrlf⟩,
      fun h => ⟨h.made, h.fits, h.received, h.crlf⟩⟩

variable {item : Item}

theorem totalLen_of_fits (h : 0 ≤ item.valueLen) (h' : item.key.length + item.valueLen < 2 ^ 31) :
    item.totalLen = item.key.length + item.valueLen := toInt_eq (by omega) h'

/-- The item has room for a length that fits. -/
theorem makeItem_of_fits {key : Bytes} {flags : UInt32} {exptime : Int32} {valuelen : ℤ}
    {cas : UInt64} (h : 2 ≤ valuelen)
    (h' : key.length + valuelen < 2 ^ 31) :
    makeItem key flags exptime valuelen cas = some ⟨key, flags, exptime, valuelen, [], cas⟩ := by
  unfold makeItem
  dsimp only
  rw [totalLen_of_fits (by dsimp only; omega) h', if_pos ⟨h, by dsimp only; omega⟩]

theorem makeItem_of_long {key : Bytes} {flags : UInt32} {exptime : Int32} {valuelen : ℤ} {cas : UInt64}
    (h : 2 ^ 31 ≤ key.length + valuelen) (h' : key.length + valuelen < 2 ^ 32) :
    makeItem key flags exptime valuelen cas = none := by
  have htotal : totalLen ⟨key, flags, exptime, valuelen, [], cas⟩ < 0 := toInt_neg h h'
  unfold makeItem
  exact if_neg fun hmade => by omega

/-- The bytes that are received when there is room for them. -/
theorem append_of_fits (data : Bytes) (hmade : 0 ≤ item.valueLen) (hfits : item.key.length + item.valueLen < 2 ^ 31)
    (h : item.value.length + data.length ≤ item.valueLen) :
    item.append data = some { item with value := item.value ++ data } := by
  unfold append neededBytes receivedBytes
  rw [totalLen_of_fits hmade hfits, if_pos (by omega)]

theorem Complete.length (h : item.Complete) : 2 ≤ item.value.length := by
  have hmade := h.made
  have hreceived := h.received
  omega

/-- The value without its CRLF. -/
def body (item : Item) : Bytes := item.value.take (item.value.length - 2)

theorem Complete.length_body (h : item.Complete) : (item.body.length : ℤ) = item.valueLen - 2 := by
  have hreceived := h.received
  have hlength := h.length
  rw [body, List.length_take]
  omega

end Item

end Memcached
