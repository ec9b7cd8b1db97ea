import Mathlib.Logic.Relation
import SwissArmyKnife.Lib.GreatestFirst
import SwissArmyKnife.RedisDb.Comparator

/-!
# Merging the senders

A sender has a `multimap` of records and writes them as lines, in the order of their keys.  The merge reads the lines
of all senders and writes the first `topK` records.  It keeps the sources in a heap, whose order is left open here:
`pop_heap` may take any source that is not less than another one.
-/

namespace MapReduce

abbrev Bytes := List UInt8

/-- What `read` puts into the map: the key ends at the first tab of a line. -/
@[ext] structure Record where
  key : Bytes
  value : Bytes
  key_tab : 9 ∉ key
  key_newline : 10 ∉ key
  value_newline : 10 ∉ value
deriving DecidableEq, Repr

def Record.line (record : Record) : Bytes := record.key ++ 9 :: (record.value ++ [10])

/-! ## The sender -/

/-- The iterator is the list of the records from it on. -/
def fillBuffer : List Record → Bytes → List Record × Bytes
  | [], buf => ([], buf)
  | record :: first, buf =>
    let buf := buf ++ record.line
    if 65536 < buf.length then (first, buf) else fillBuffer first buf

theorem fillBuffer_append (first : List Record) (buf : Bytes) :
    (fillBuffer first buf).2 ++ (fillBuffer first buf).1.flatMap Record.line = buf ++ first.flatMap Record.line := by
  induction first generalizing buf with
  | nil => rfl
  | cons record first ih =>
    rw [fillBuffer]
    split
    · simp
    · simp [ih]

theorem length_fillBuffer_le (first : List Record) (buf : Bytes) :
    (fillBuffer first buf).1.length ≤ first.length := by
  induction first generalizing buf with
  | nil => exact Nat.le_refl _
  | cons record first ih =>
    rw [fillBuffer]
    split
    · exact Nat.le_succ _
    · exact (ih _).trans (Nat.le_succ _)

theorem length_fillBuffer_lt (record : Record) (first : List Record) (buf : Bytes) :
    (fillBuffer (record :: first) buf).1.length < (record :: first).length := by
  rw [fillBuffer]
  split
  · exact Nat.lt_succ_self _
  · exact Nat.lt_succ_of_le (length_fillBuffer_le ..)

/-- The buffers that `send` sends, the first on the connection and the others when the one before has been written. -/
def sends (first : List Record) : List Bytes :=
  let filled := fillBuffer first []
  if _h : filled.1 = [] then [filled.2] else filled.2 :: sends filled.1
termination_by first.length
decreasing_by
  cases first with
  | nil => exact absurd rfl _h
  | cons record first => exact length_fillBuffer_lt record first []

/-- All records are sent, in order. -/
theorem flatten_sends (first : List Record) : (sends first).flatten = first.flatMap Record.line := by
  fun_induction sends first with
  | case1 first filled hend =>
    have := fillBuffer_append first []
    rw [show fillBuffer first [] = filled from rfl, hend] at this
    simpa using this
  | case2 first filled _ ih =>
    have := fillBuffer_append first []
    rw [show fillBuffer first [] = filled from rfl] at this
    simpa [ih] using this

/-! ## The merge -/

def getline : Bytes → Option (Bytes × Bytes)
  | [] => none
  | b :: input =>
    let n := (b :: input).idxOf 10
    some ((b :: input).take n, (b :: input).drop (n + 1))

/-- The first tab, or another byte, ends what has none. -/
theorem idxOf_append_cons {c : UInt8} {a : Bytes} (ha : c ∉ a) (b : Bytes) : (a ++ c :: b).idxOf c = a.length := by
  rw [List.idxOf_append, if_neg ha, List.idxOf_cons_self, Nat.zero_add]

theorem getline_append {line : Bytes} (hline : 10 ∉ line) (rest : Bytes) :
    getline (line ++ 10 :: rest) = some (line, rest) := by
  have hidx := idxOf_append_cons hline rest
  cases hcons : line ++ 10 :: rest with
  | nil => simp at hcons
  | cons b input =>
    rw [getline, ← hcons, hidx, List.take_left, List.drop_length_add_append, List.drop_succ_cons, List.drop_zero]

theorem length_of_getline {input line rest : Bytes} (h : getline input = some (line, rest)) :
    rest.length < input.length := by
  cases input with
  | nil => cases h
  | cons b input =>
    simp only [getline, Option.some.injEq, Prod.mk.injEq] at h
    rw [← h.2, List.drop_succ_cons, List.length_drop, List.length_cons]
    omega

structure Source where
  input : Bytes
  key : Bytes
  value : Bytes
deriving DecidableEq, Repr

namespace Source

def new (input : Bytes) : Source := ⟨input, [], []⟩

/-- The string that is made from the rest of the line is dropped, and `value` is set to itself. -/
def next (source : Source) : Bool × Source :=
  match getline source.input with
  | none => (false, source)
  | some (line, input) =>
    let tab := line.idxOf 9
    if tab ≠ line.length then (true, { input, key := line.take tab, value := source.value })
    else (false, { source with input })

def output (source : Source) : Bytes := source.key ++ 9 :: (source.value ++ [10])

end Source

/-- The sources that have a first line. -/
def connect (streams : List Bytes) : List Source :=
  streams.filterMap fun stream =>
    let (ok, source) := (Source.new stream).next
    if ok then some source else none

structure Merging where
  cnt : ℤ
  keys : List Source
  out : Bytes

def Merging.start (streams : List Bytes) : Merging := ⟨0, connect streams, []⟩

/-- The condition of the loop fails. -/
def Merging.Done (topK : ℤ) (m : Merging) : Prop := m.keys = [] ∨ ¬m.cnt < topK

/-- One round of the loop. -/
inductive Round (topK : ℤ) : Merging → Merging → Prop where
  | next {m : Merging} {back back' : Source} {rest : List Source} (hcnt : m.cnt < topK)
      (hpop : m.keys.Perm (back :: rest)) (hmax : ∀ source ∈ rest, ¬back.key < source.key)
      (hnext : back.next = (true, back')) : Round topK m ⟨m.cnt + 1, back' :: rest, m.out ++ back.output⟩
  | last {m : Merging} {back back' : Source} {rest : List Source} (hcnt : m.cnt < topK)
      (hpop : m.keys.Perm (back :: rest)) (hmax : ∀ source ∈ rest, ¬back.key < source.key)
      (hnext : back.next = (false, back')) : Round topK m ⟨m.cnt + 1, rest, m.out ++ back.output⟩

end MapReduce
