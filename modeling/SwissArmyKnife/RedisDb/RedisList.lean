import SwissArmyKnife.Lib.Replies
import SwissArmyKnife.Lib.Lists
import SwissArmyKnife.Lib.SortedMap
import SwissArmyKnife.RedisDb.Env
import SwissArmyKnife.RedisDb.KeyComparators

/-!
# Lists

`RedisList` keeps the elements of a list under consecutive indexes of one version, between the two indexes of the meta
value; the meta value itself is stored under version 0 and index 0.  The store is ordered by the comparator of lists,
so its keys are data keys.  Elements are read by position: an iterator is set to the first index and advanced.
-/

namespace RedisDb

open Slices (slice)

abbrev ListDb := SortedMap ListsDataKey Slice

inductive BeforeOrAfter where
  | Before
  | After
deriving DecidableEq

namespace RedisList

/-- The key of the meta value. -/
def metaKey (key : Slice) : ListsDataKey := ⟨key, 0, 0⟩

/-- A byte string that was not encoded, as the comparator reads it: a key, a version and an index, of which a part may
lie in what `following` gives of the memory behind the string, and whatever comes then.  There is none where the
string ends with the key or the version; it comes before the encoded keys then. -/
def rawKey (k following : Slice) : Option ListsDataKey :=
  let memory := k ++ following
  match keyLength memory (4 + 8) with
  | some keylen =>
    let ptr := 4 + keylen
    if atEnd k ptr || atEnd k (ptr + 4) then none
    else some ⟨(memory.drop 4).take keylen, (DecodeFixed32 (memory.drop ptr)).toInt32,
      DecodeFixed64 (memory.drop (ptr + 4))⟩
  | none => none

/-- `Get` with a byte string that was not encoded.  The comparator asserts that it is not empty, wherever there is a
key to compare it with. -/
def getRaw (db : ListDb) (key following : Slice) : Option (Option Slice) :=
  if key = [] ∧ db.entries ≠ [] then none else some ((rawKey key following).bind db.get)

/-- The loop of `LPush` for a list that has a meta value. -/
def pushValues (key : Slice) (version : Int32) (p : ParsedListsMetaValue) :
    List Slice → List (SortedMap.Op ListsDataKey Slice) × ParsedListsMetaValue
  | [] => ([], p)
  | value :: values =>
    let r := pushValues key version ((p.ModifyLeftIndex 1).ModifyCount 1) values
    (.Put ⟨key, version, p.leftindex⟩ value :: r.1, r.2)

/-- The loop of `LPush` for a new list. -/
def pushNewValues (key : Slice) (version : Int32) (m : ListsMetaValue) :
    List Slice → List (SortedMap.Op ListsDataKey Slice) × ListsMetaValue
  | [] => ([], m)
  | value :: values =>
    let r := pushNewValues key version (m.ModifyLeftIndex 1) values
    (.Put ⟨key, version, m.leftindex⟩ value :: r.1, r.2)

/-- `LPush`; the clock is read twice when there is a meta value. -/
def LPush (db : ListDb) (key : Slice) (time later : Int) (values : List Slice) : ListDb × Status × UInt64 :=
  match db.get (metaKey key) with
  | some metavalue =>
    let plistsmetavalue := ParsedListsMetaValue.new metavalue
    let plistsmetavalue :=
      if plistsmetavalue.IsStale time || plistsmetavalue.count == 0 then plistsmetavalue.InitialMetaValue later
      else plistsmetavalue
    let r := pushValues key plistsmetavalue.version plistsmetavalue values
    (db.write (r.1 ++ [.Put (metaKey key) r.2.value]), .OK, r.2.count)
  | none =>
    let listsvalue := (ListsMetaValue.new (EncodeFixed64 (UInt64.ofNat values.length))).UpdateVersion time
    let r := pushNewValues key listsvalue.version listsvalue values
    (db.write (r.1 ++ [.Put (metaKey key) r.2.Encode]), .OK, r.2.rightindex - r.2.leftindex - 1)

/-- `LPop` with the meta value that it has found. -/
def popMeta (db : ListDb) (key metavalue : Slice) (time : Int) : ListDb × Status × Option Slice :=
  let plistsmetavalue := ParsedListsMetaValue.new metavalue
  if plistsmetavalue.IsStale time then (db, .NotFound "Stale", none)
  else if plistsmetavalue.count == 0 then (db, .NotFound "", none)
  else
    let listsdatakey : ListsDataKey := ⟨key, plistsmetavalue.version, plistsmetavalue.leftindex + 1⟩
    match db.get listsdatakey with
    | some element =>
      let plistsmetavalue := (plistsmetavalue.ModifyCount (-1)).ModifyLeftIndex (-1)
      (db.write [.Delete listsdatakey, .Put (metaKey key) plistsmetavalue.value], .OK, some element)
    | none => (db, .NotFound "", none)

/-- `LPop`.  The meta value is looked for under the key itself, not under its data key; there is no result where the
comparator or the parser of the meta value fails an assertion. -/
def LPop (db : ListDb) (key following : Slice) (time : Int) : Option (ListDb × Status × Option Slice) :=
  match getRaw db key following with
  | some (some metavalue) =>
    if ParsedListsMetaValue.accepts metavalue then some (popMeta db key metavalue time) else none
  | some none => some (db, .NotFound "", none)
  | none => none

/-- The loop of `LRange`. -/
def rangeLoop (sublistrightindex : UInt64) : List (ListsDataKey × Slice) → UInt64 → List Slice
  | [], _ => []
  | e :: iter, currentindex =>
    if currentindex ≤ sublistrightindex then e.2 :: rangeLoop sublistrightindex iter (currentindex + 1) else []

def LRange (db : ListDb) (key : Slice) (time : Int) (start stop : Int64) : Status × List Slice :=
  match db.get (metaKey key) with
  | some metavalue =>
    let plistsmetavalue := ParsedListsMetaValue.new metavalue
    if plistsmetavalue.IsStale time then (.NotFound "Stale", [])
    else if plistsmetavalue.count == 0 then (.NotFound "", [])
    else
      let originleftindex := plistsmetavalue.leftindex + 1
      let originrightindex := plistsmetavalue.rightindex - 1
      let sublistleftindex :=
        if 0 ≤ start then originleftindex + start.toUInt64 else originrightindex + start.toUInt64 + 1
      let sublistrightindex :=
        if 0 ≤ stop then originleftindex + stop.toUInt64 else originrightindex + stop.toUInt64 + 1
      if sublistleftindex > sublistrightindex || sublistleftindex > originrightindex ||
          sublistrightindex < originleftindex then (.OK, [])
      else
        let sublistleftindex := if sublistleftindex < originleftindex then originleftindex else sublistleftindex
        let sublistrightindex :=
          if sublistrightindex > originrightindex then originrightindex else sublistrightindex
        let iter := db.seek ⟨key, plistsmetavalue.version, sublistleftindex⟩
        (.OK, rangeLoop sublistrightindex iter sublistleftindex)
  | none => (.NotFound "", [])

def LLen (db : ListDb) (key : Slice) (time : Int) : Status × UInt64 :=
  match db.get (metaKey key) with
  | some metavalue =>
    let plistsmetavalue := ParsedListsMetaValue.new metavalue
    if plistsmetavalue.IsStale time then (.NotFound "Stale", 0)
    else if plistsmetavalue.count == 0 then (.NotFound "", 0)
    else (.OK, plistsmetavalue.count)
  | none => (.NotFound "", 0)

/-! ### LInsert -/

/-- The string in memory up to its first zero byte, as `strcmp` reads it. -/
def cString (s : Slice) : Slice := s.takeWhile fun b => b ≠ 0

/-- The comparison of an element, which `following` follows in memory, with the pivot. -/
def strcmpEqual (element following pivot : Slice) : Bool := cString (element ++ following) == cString pivot

/-- The loop that looks for the pivot; `memory` gives what follows the element at an index in memory. -/
def findPivot (memory : UInt64 → Slice) (pivot : Slice) (rightindex : UInt64) :
    List (ListsDataKey × Slice) → UInt64 → Option UInt64
  | [], _ => none
  | e :: iter, currentindex =>
    if currentindex < rightindex then
      if strcmpEqual e.2 (memory currentindex) pivot then some currentindex
      else findPivot memory pivot rightindex iter (currentindex + 1)
    else none

/-- The elements before the pivot, and the pivot itself when the value goes after it. -/
def firstHalf (pos : BeforeOrAfter) (pivotindex : UInt64) : List (ListsDataKey × Slice) → UInt64 → List Slice
  | [], _ => []
  | e :: iter, currentindex =>
    if currentindex ≤ pivotindex then
      if currentindex = pivotindex then if pos = .After then [e.2] else []
      else e.2 :: firstHalf pos pivotindex iter (currentindex + 1)
    else []

/-- The elements from the pivot on, without the pivot when the value goes after it. -/
def afterHalf (pos : BeforeOrAfter) (pivotindex rightindex : UInt64) :
    List (ListsDataKey × Slice) → UInt64 → List Slice
  | [], _ => []
  | e :: iter, currentindex =>
    if currentindex < rightindex then
      if currentindex = pivotindex ∧ pos = .After then afterHalf pos pivotindex rightindex iter (currentindex + 1)
      else e.2 :: afterHalf pos pivotindex rightindex iter (currentindex + 1)
    else []

/-- Elements are stored under consecutive indexes. -/
def putNodes (key : Slice) (version : Int32) : UInt64 → List Slice → List (SortedMap.Op ListsDataKey Slice)
  | _, [] => []
  | currentindex, node :: nodes =>
      .Put ⟨key, version, currentindex⟩ node :: putNodes key version (currentindex + 1) nodes

def LInsert (db : ListDb) (key : Slice) (time : Int) (pos : BeforeOrAfter) (pivot value : Slice)
    (memory : UInt64 → Slice) : ListDb × Status × Int64 :=
  match db.get (metaKey key) with
  | some metavalue =>
    let plistsmetavalue := ParsedListsMetaValue.new metavalue
    if plistsmetavalue.IsStale time then (db, .NotFound "Stale", 0)
    else if plistsmetavalue.count == 0 then (db, .NotFound "", 0)
    else
      let version := plistsmetavalue.version
      let leftindex := plistsmetavalue.leftindex
      let rightindex := plistsmetavalue.rightindex
      let iter := db.seek ⟨key, version, leftindex + 1⟩
      match findPivot memory pivot rightindex iter (leftindex + 1) with
      | none => (db, .NotFound "", -1)
      | some pivotindex =>
        let midindex := leftindex + (rightindex - leftindex) / 2
        if pivotindex ≤ midindex then
          let targetindex := if pos = .Before then pivotindex - 1 else pivotindex
          let listnodes := firstHalf pos pivotindex iter (leftindex + 1)
          let p := (plistsmetavalue.ModifyLeftIndex 1).ModifyCount 1
          let batch := putNodes key version leftindex listnodes ++
            [.Put (metaKey key) p.value, .Put ⟨key, version, targetindex⟩ value]
          (db.write batch, .OK, p.count.toInt64)
        else
          let targetindex := if pos = .Before then pivotindex else pivotindex + 1
          let afterhalfiter := db.seek ⟨key, version, pivotindex⟩
          let listnodes := afterHalf pos pivotindex rightindex afterhalfiter pivotindex
          let p := (plistsmetavalue.ModifyRightIndex 1).ModifyCount 1
          let batch := putNodes key version (targetindex + 1) listnodes ++
            [.Put (metaKey key) p.value, .Put ⟨key, version, targetindex⟩ value]
          (db.write batch, .OK, p.count.toInt64)
  | none => (db, .NotFound "", 0)

/-- `Del`; the clock is read twice. -/
def Del (db : ListDb) (key : Slice) (time later : Int) : ListDb × Status :=
  match db.get (metaKey key) with
  | some metavalue =>
    let plistsmetavalue := ParsedListsMetaValue.new metavalue
    if plistsmetavalue.IsStale time then (db, .NotFound "Stale")
    else if plistsmetavalue.count == 0 then (db, .NotFound "")
    else (db.put (metaKey key) (plistsmetavalue.InitialMetaValue later).value, .OK)
  | none => (db, .NotFound "")

/-! ### Runs -/

inductive Call where
  | LPush (first : Slice) (rest : List Slice)
  /-- `following` is what follows the key in memory. -/
  | LPop (following : Slice)
  | LRange (start stop : Int64)
  | LLen
  /-- `memory` gives what follows the elements in memory. -/
  | LInsert (pos : BeforeOrAfter) (pivot value : Slice) (memory : UInt64 → Slice)
  | Del

/-- A call on a key, after some time; the clock goes on by `lag` between its readings. -/
structure Action where
  key : Slice
  call : Call
  wait : ℕ := 0
  lag : ℕ := 0

inductive Reply where
  | pushed (ok : Bool) (n : Nat)
  | popped (element : Option Slice)
  | range (l : List Slice)
  | length (n : Nat)
  | inserted (n : Int)
  | deleted
  | aborted
deriving DecidableEq

structure State where
  clock : Int
  db : ListDb

def call (db : ListDb) (key : Slice) (time later : Int) : Call → ListDb × Reply
  | .LPush first rest =>
    let r := LPush db key time later (first :: rest)
    (r.1, .pushed r.2.1.ok r.2.2.toNat)
  | .LPop following =>
    match LPop db key following time with
    | some r => (r.1, .popped (if r.2.1.ok then r.2.2 else none))
    | none => (db, .aborted)
  | .LRange start stop => (db, .range (LRange db key time start stop).2)
  | .LLen => (db, .length (LLen db key time).2.toNat)
  | .LInsert pos pivot value memory =>
    let r := LInsert db key time pos pivot value memory
    (r.1, .inserted r.2.2.toInt)
  | .Del => ((Del db key time later).1, .deleted)

def step (s : State) (a : Action) : State × Reply :=
  let time := s.clock + a.wait
  let later := time + a.lag
  let r := call s.db a.key time later a.call
  (⟨later, r.1⟩, r.2)

/-! ### Lists by key -/

/-- What a call is meant to do to a list, and to reply. -/
def listCall (l : List Slice) : Call → List Slice × Reply
  | .LPush first rest =>
    let l := (first :: rest).foldl (fun l value => value :: l) l
    (l, .pushed true l.length)
  | .LPop _ => (l.tail, .popped l.head?)
  | .LRange start stop => (l, .range (slice l start.toInt stop.toInt))
  | .LLen => (l, .length l.length)
  | .LInsert pos pivot value _ =>
    match l.findIdx? fun element => element = pivot with
    | none => (l, .inserted (-1))
    | some i => (l.insertIdx (if pos = .Before then i else i + 1) value, .inserted (l.length + 1))
  | .Del => ([], .deleted)

def listStep (lists : Slice → List Slice) (a : Action) : (Slice → List Slice) × Reply :=
  let r := listCall (lists a.key) a.call
  (fun key => if key = a.key then r.1 else lists key, r.2)

end RedisList

end RedisDb
