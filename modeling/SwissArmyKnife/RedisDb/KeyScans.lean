import SwissArmyKnife.RedisDb.RedisList
import SwissArmyKnife.RedisDb.RedisString
import SwissArmyKnife.RedisDb.RedisZset

/-!
# Scans over a store

`ScanKeys`, `ScanKeyNum` and the `Scan` of strings go through the entries of a store in order, data entries as well as
meta values, and read each value as a meta value.  The clock stands still during a scan.  A scan has no result when an
assertion of a parser fails or when the matcher of patterns runs on behind the end of a key.
-/

namespace RedisDb

/-! ### Patterns -/

namespace StringMatch

/-- The byte lies between the two ends of a range, all of them read as signed characters. -/
def inRange (start stop c : UInt8) : Bool :=
  let start := start.toInt8.toInt
  let stop := stop.toInt8.toInt
  decide (min start stop ≤ c.toInt8.toInt ∧ c.toInt8.toInt ≤ max start stop)

/-- The loop over a class of bytes, with what was found so far: whether it holds the byte `c`, and what follows it. 
The bytes 92, 93 and 45 are a backslash, a closing bracket and a hyphen. -/
def matchClass (c : UInt8) : Slice → Bool → Bool × Slice
  | [], found => (found, [])
  | 92 :: b :: pattern, found => matchClass c pattern (found || b == c)
  | 93 :: pattern, found => (found, pattern)
  | start :: 45 :: stop :: pattern, found => matchClass c pattern (found || inRange start stop c)
  | b :: pattern, found => matchClass c pattern (found || b == c)

/-- The first result of some calls that is not `false`. -/
def anyMatch : List (Option Bool) → Option Bool
  | [] => some false
  | some false :: results => anyMatch results
  | result :: _ => result

/-- The calls from one byte of the string after another on, until one matches; there is no result when the length,
which is negative, comes to the end of its type. -/
def searchOn (call : Nat → Option Bool) : Nat → Nat → Option Bool
  | 0, _ => none
  | fuel + 1, i =>
    match call i with
    | some false => searchOn call fuel (i + 1)
    | result => result

/-- `while (stringlen)`, behind a star. -/
def whileString (call : Nat → Option Bool) (stringlen : Int) : Option Bool :=
  if 0 ≤ stringlen then anyMatch ((List.range stringlen.toNat).map call)
  else searchOn call (stringlen + 2 ^ 31 + 1).toNat 0

/-- The loop of `StringMatchLen`, where `string` is the memory from the string on.  The bytes 42, 63, 91, 94 and 92
are a star, a question mark, an opening bracket, a caret and a backslash; every round takes one byte of the pattern at
least. -/
def matchFrom : Nat → Slice → (Nat → UInt8) → Int → Option Bool
  | 0, _, _, _ => none
  | fuel + 1, pattern, string, stringlen =>
    let goOn (pattern : Slice) : Option Bool :=
      if stringlen - 1 < -2 ^ 31 then none
      else if stringlen - 1 = 0 then some (pattern.dropWhile (· = 42)).isEmpty
      else matchFrom fuel pattern (fun i => string (i + 1)) (stringlen - 1)
    match pattern with
    | [] => some (decide (stringlen = 0))
    | 42 :: pattern =>
      let pattern := pattern.dropWhile (· = 42)
      if pattern.isEmpty then some true
      else whileString (fun i => matchFrom fuel pattern (fun j => string (i + j)) (stringlen - i)) stringlen
    | 63 :: pattern => if stringlen = 0 then some false else goOn pattern
    | 91 :: pattern =>
      let no := decide (pattern.head? = some 94)
      let r := matchClass (string 0) (if no then pattern.tail else pattern) false
      if r.1 = no then some false else goOn r.2
    | 92 :: b :: pattern => if b = string 0 then goOn pattern else some false
    | b :: pattern => if b = string 0 then goOn pattern else some false

end StringMatch

/-- `StringMatchLen` with regard to case; `beyond` is what follows the string and its zero byte in memory.  The
lengths of both are taken to be those of an `int32_t`. -/
def StringMatchLen (beyond : Nat → UInt8) (pattern string : Slice) : Option Bool :=
  StringMatch.matchFrom (pattern.length + 1) pattern (fun i => (string ++ [0])[i]?.getD (beyond i)) string.length

/-- The pattern is some text without special bytes and a star. -/
def IsTailWildcard (pattern : Slice) : Bool :=
  if pattern.length < 2 then false
  else if pattern.getLast? ≠ some 42 then false
  else pattern.dropLast.all fun b => !(b == 42 || b == 63 || b == 91 || b == 93)

/-! ### Loops over the entries -/

/-- The loop of `ScanKeys`: `listed` tells from its value whether an entry is listed, if its key matches. -/
def scanKeys (listed isMatch : Slice → Option Bool) : List (Slice × Slice) → List Slice → Option (List Slice)
  | [], keys => some keys
  | e :: iter, keys =>
    match listed e.2 with
    | none => none
    | some false => scanKeys listed isMatch iter keys
    | some true =>
      match isMatch e.1 with
      | none => none
      | some false => scanKeys listed isMatch iter keys
      | some true => scanKeys listed isMatch iter (keys ++ [e.1])

/-- An expiry time that has passed, as every parsed meta value tests it. -/
def expired (timestamp : Int32) (time : Int) : Bool :=
  if timestamp = 0 then false else decide (timestamp.toInt < time)

/-- What `ScanKeyNum` counts. -/
structure KeyCounts where
  expires : UInt64
  ttlsum : UInt64
  invaildkeys : UInt64

def KeyCounts.account (curtime : Int) (c : KeyCounts) (timestamp : Int32) : KeyCounts :=
  if expired timestamp curtime then { c with invaildkeys := c.invaildkeys + 1 }
  else if timestamp = 0 then c
  else
    { c with
      expires := c.expires + 1
      ttlsum := c.ttlsum + (Int64.ofInt (timestamp.toInt - curtime)).toUInt64 }

structure KeyInfo where
  keys : UInt64
  expires : UInt64
  avgttl : UInt64
  invaildkeys : UInt64
deriving DecidableEq

def KeyCounts.keyinfo (c : KeyCounts) : KeyInfo :=
  ⟨0, c.expires, if c.expires ≠ 0 then c.ttlsum / c.expires else 0, c.invaildkeys⟩

/-- The loop of `ScanKeyNum`: `timestamp` reads the expiry time in a value. -/
def countKeys (timestamp : Slice → Option Int32) (curtime : Int) : List Slice → KeyCounts → Option KeyCounts
  | [], c => some c
  | value :: iter, c =>
    match timestamp value with
    | none => none
    | some t => countKeys timestamp curtime iter (c.account curtime t)

def scanKeyNum (timestamp : Slice → Option Int32) (curtime : Int) (values : List Slice) : Option KeyInfo :=
  (countKeys timestamp curtime values ⟨0, 0, 0⟩).map KeyCounts.keyinfo

section Loops

variable {listed isMatch : Slice → Option Bool} {timestamp : Slice → Option Int32} {time : Int}

/-- An entry that is not listed may as well not be there. -/
theorem scanKeys_skip {l r : List (Slice × Slice)} {e : Slice × Slice} (he : listed e.2 = some false)
    (keys : List Slice) : scanKeys listed isMatch (l ++ e :: r) keys = scanKeys listed isMatch (l ++ r) keys := by
  induction l generalizing keys with
  | nil => simp [scanKeys, he]
  | cons a l ih => simp only [List.cons_append, scanKeys, ih]

theorem countKeys_eq (values : List Slice) (c : KeyCounts) :
    countKeys timestamp time values c = (values.mapM timestamp).map fun ts => ts.foldl
      (KeyCounts.account time) c := by
  induction values generalizing c with
  | nil => rfl
  | cons value values ih =>
    rw [countKeys, List.mapM_cons]
    cases htimestamp : timestamp value with
    | none => rfl
    | some t =>
      simp only [ih]
      cases values.mapM timestamp <;> rfl

@[simp] theorem expired_zero : expired 0 time = false := rfl

theorem expires_foldl (ts : List Int32) (c : KeyCounts) : (ts.foldl (KeyCounts.account time) c).expires =
    c.expires + UInt64.ofNat (ts.countP fun t => !expired t time && t != 0) := by
  induction ts generalizing c with
  | nil => simp
  | cons t ts ih =>
    rw [List.foldl_cons, ih, List.countP_cons, KeyCounts.account]
    by_cases hexpired : expired t time = true
    · simp [hexpired]
    · by_cases hzero : t = 0
      · simp [hzero]
      · simp only [hexpired, hzero, Bool.false_eq_true, if_false, Bool.not_false, Bool.true_and, bne_iff_ne, ne_eq,
          not_false_eq_true, if_true, UInt64.ofNat_add]
        rw [UInt64.add_assoc, UInt64.add_comm 1]
        rfl

theorem invaildkeys_foldl (ts : List Int32) (c : KeyCounts) : (ts.foldl (KeyCounts.account time) c).invaildkeys =
    c.invaildkeys + UInt64.ofNat (ts.countP fun t => expired t time) := by
  induction ts generalizing c with
  | nil => simp
  | cons t ts ih =>
    rw [List.foldl_cons, ih, List.countP_cons, KeyCounts.account]
    by_cases hexpired : expired t time = true
    · simp only [hexpired, if_true, UInt64.ofNat_add]
      rw [UInt64.add_assoc, UInt64.add_comm 1]
      rfl
    · by_cases hzero : t = 0
      · simp [hzero]
      · simp [hexpired, hzero]

private theorem add_one_ne (x : UInt64) : x + 1 ≠ x := by
  intro h
  have hone : (1 : UInt64) = 0 := (UInt64.add_right_inj x).1 (h.trans (UInt64.add_zero x).symm)
  exact absurd hone (by decide)

theorem foldl_account_eq_iff {l r : List Int32} {t : Int32} (c : KeyCounts) :
    ((l ++ t :: r).foldl (KeyCounts.account time) c).keyinfo = ((l ++ r).foldl (KeyCounts.account time) c).keyinfo ↔
      t = 0 := by
  constructor
  · intro h
    have hexpires := congrArg KeyInfo.expires h
    have hinvaild := congrArg KeyInfo.invaildkeys h
    simp only [KeyCounts.keyinfo, expires_foldl, invaildkeys_foldl, List.countP_append, List.countP_cons,
      UInt64.ofNat_add, ← UInt64.add_assoc] at hexpires hinvaild
    by_contra hzero
    by_cases hexpired : expired t time = true
    · rw [hexpired, if_pos rfl] at hinvaild
      exact add_one_ne _ hinvaild
    · rw [if_pos (by simp [hexpired, hzero])] at hexpires
      exact add_one_ne _ hexpires
  · rintro rfl
    simp [KeyCounts.account]

theorem mapM_timestamp_eq_none_iff {values : List Slice} :
    values.mapM timestamp = none ↔ ∃ value ∈ values, timestamp value = none := by
  induction values with
  | nil => simp
  | cons value values ih =>
    rw [List.mapM_cons, List.exists_mem_cons_iff, ← ih]
    cases timestamp value with
    | none => simp
    | some t => cases values.mapM timestamp <;> simp

/-- An entry is seen in what is counted, unless it has no expiry time or the parser refuses another one. -/
theorem scanKeyNum_eq_iff {l r : List Slice} {value : Slice} {t : Int32} (ht : timestamp value = some t) :
    scanKeyNum timestamp time (l ++ value :: r) = scanKeyNum timestamp time (l ++ r) ↔
      t = 0 ∨ ∃ value ∈ l ++ r, timestamp value = none := by
  rw [scanKeyNum, scanKeyNum, countKeys_eq, countKeys_eq, ← mapM_timestamp_eq_none_iff]
  simp only [List.mapM_append, List.mapM_cons, ht]
  cases l.mapM timestamp with
  | none => simp
  | some ts =>
    cases r.mapM timestamp with
    | none => simp
    | some us =>
      have hiff := @foldl_account_eq_iff time ts us t ⟨0, 0, 0⟩
      simpa using hiff

end Loops

/-! ### The scans of each type -/

section Scans

variable (beyond : Slice → Nat → UInt8) (time : Int)

/-- An entry that `ScanKeys` lists for sets, hashes and sorted sets. -/
def ParsedBaseMetaValue.listed (value : Slice) : Option Bool :=
  some (!(ParsedBaseMetaValue.new value).IsStale time && (ParsedBaseMetaValue.new value).count != 0)

/-- The entries as an iterator shows them: the encoded keys and the values. -/
def ListDb.encoded (db : ListDb) : List (Slice × Slice) := db.entries.map fun e => (e.1.Encode, e.2)

def ZsetDb.encoded {S : Type*} [LinearOrder S] (scores : Scores S) (db : ZsetDb S) : List (Slice × Slice) :=
  db.entries.map fun e => (e.1.Encode scores, e.2.data scores)

def RedisString.ScanKeys (db : Db) (pattern : Slice) (keys : List Slice) : Option (List Slice) :=
  scanKeys (fun value => some (!(ParsedStringsMetaValue.new value).IsStale time))
    (fun key => StringMatchLen (beyond key) pattern key) db.entries keys

def RedisHash.ScanKeys (db : Db) (pattern : Slice) (keys : List Slice) : Option (List Slice) :=
  scanKeys (ParsedBaseMetaValue.listed time) (fun key => StringMatchLen (beyond key) pattern key) db.entries keys

def RedisSet.ScanKeys (db : Db) (pattern : Slice) (keys : List Slice) : Option (List Slice) :=
  scanKeys (ParsedBaseMetaValue.listed time) (fun key => StringMatchLen (beyond key) pattern key) db.entries keys

/-- `ScanKeys` of sorted sets, where the pattern is encoded as well; what follows it in memory is taken for zero. -/
def RedisZset.ScanKeys {S : Type*} [LinearOrder S] (scores : Scores S) (db : ZsetDb S) (pattern : Slice)
    (keys : List Slice) : Option (List Slice) :=
  scanKeys (ParsedBaseMetaValue.listed time)
    (fun key => StringMatchLen (beyond key) ((RedisZset.metaKey scores pattern).Encode scores) key)
    (db.encoded scores)
    keys

def ParsedListsMetaValue.listed (value : Slice) : Option Bool :=
  if accepts value then
    some (!(ParsedListsMetaValue.new value).IsStale time && (ParsedListsMetaValue.new value).count != 0)
  else none

def RedisList.ScanKeys (db : ListDb) (pattern : Slice) (keys : List Slice) : Option (List Slice) :=
  scanKeys (ParsedListsMetaValue.listed time) (fun key => StringMatchLen (beyond key) pattern key) db.encoded keys

def RedisString.ScanKeyNum (db : Db) : Option KeyInfo :=
  scanKeyNum (fun value => some (ParsedStringsMetaValue.new value).timestamp) time (db.entries.map Prod.snd)

def RedisHash.ScanKeyNum (db : Db) : Option KeyInfo :=
  scanKeyNum (fun value => some (ParsedBaseMetaValue.new value).timestamp) time (db.entries.map Prod.snd)

def RedisSet.ScanKeyNum (db : Db) : Option KeyInfo :=
  scanKeyNum (fun value => some (ParsedBaseMetaValue.new value).timestamp) time (db.entries.map Prod.snd)

/-- `ScanKeyNum` of sorted sets, which reads the values as those of strings. -/
def RedisZset.ScanKeyNum {S : Type*} [LinearOrder S] (scores : Scores S) (db : ZsetDb S) : Option KeyInfo :=
  scanKeyNum (fun value => some (ParsedStringsMetaValue.new value).timestamp) time
    ((db.encoded scores).map Prod.snd)

def RedisList.ScanKeyNum (db : ListDb) : Option KeyInfo :=
  scanKeyNum (fun value => if ParsedListsMetaValue.accepts value then some (ParsedListsMetaValue.new value).timestamp
    else none) time (db.encoded.map Prod.snd)

end Scans

/-! ### The cursor over strings -/

namespace RedisString

/-- The loop of `Scan`: where the iterator ends up, the keys that were found and what is left of the count. -/
def scanLoop (time : Int) (isMatch : Slice → Option Bool) :
    List (Slice × Slice) → List Slice → Int64 → Option (List (Slice × Slice) × List Slice × Int64)
  | [], keys, count => some ([], keys, count)
  | e :: iter, keys, count =>
    if 0 < count then
      if (ParsedStringsMetaValue.new e.2).IsStale time then scanLoop time isMatch iter keys count
      else
        match isMatch e.1 with
        | none => none
        | some false => scanLoop time isMatch iter keys (count - 1)
        | some true => scanLoop time isMatch iter (keys ++ [e.1]) (count - 1)
    else some (e :: iter, keys, count)

structure ScanResult where
  isfinish : Bool
  keys : List Slice
  count : Int64
  nextkey : Slice
deriving DecidableEq

/-- The scan goes on at a key, if the pattern leaves a chance of a match there. -/
def goesOn (pattern key : Slice) : Bool :=
  let pre := if IsTailWildcard pattern then pattern.dropLast else []
  decide (key ≤ pre) || StartsWith key pre

def Scan (beyond : Slice → Nat → UInt8) (db : Db) (startkey pattern : Slice) (keys : List Slice) (count : Int64)
    (time : Int) : Option ScanResult :=
  (scanLoop time (fun key => StringMatchLen (beyond key) pattern key) (db.seek startkey) keys count).map fun r =>
    match r.1 with
    | [] => ⟨true, r.2.1, r.2.2, []⟩
    | e :: _ => if goesOn pattern e.1 then ⟨false, r.2.1, r.2.2, e.1⟩ else ⟨true, r.2.1, r.2.2, []⟩

/-- A scan passes these entries and has no count left behind them. -/
def RunsOut (time : Int) : List (Slice × Slice) → Int64 → Prop
  | [], count => ¬0 < count
  | e :: iter, count =>
    0 < count ∧ RunsOut time iter (if (ParsedStringsMetaValue.new e.2).IsStale time then count else count - 1)

variable {time : Int} (isMatch : Slice → Option Bool)

/-- A scan that runs out of its count before an entry stops there, unless the matcher fails. -/
theorem scanLoop_of_runsOut {l : List (Slice × Slice)} {count : Int64}
    (h : RunsOut time l count) (keys : List Slice) :
    (∃ e ∈ l, (ParsedStringsMetaValue.new e.2).IsStale time = false ∧ isMatch e.1 = none ∧
      ∀ rest, scanLoop time isMatch (l ++ rest) keys count = none) ∨
    (∀ e ∈ l, (ParsedStringsMetaValue.new e.2).IsStale time = false → isMatch e.1 ≠ none) ∧
      ∃ keys' count', ∀ rest, scanLoop time isMatch (l ++ rest) keys count = some (rest, keys', count') := by
  induction l generalizing keys count with
  | nil =>
    refine Or.inr ⟨by simp, keys, count, fun rest => ?_⟩
    cases rest with
    | nil => rfl
    | cons e rest => rw [List.nil_append, scanLoop, if_neg h]
  | cons a l ih =>
    obtain ⟨hcount, h⟩ := h
    simp only [List.cons_append, scanLoop, if_pos hcount, List.mem_cons, exists_eq_or_imp, forall_eq_or_imp]
    by_cases hstale : (ParsedStringsMetaValue.new a.2).IsStale time = true
    · simp only [hstale, if_true] at h ⊢
      simpa using ih h keys
    · simp only [hstale] at h ⊢
      cases hmatch : isMatch a.1 with
      | none => simp
      | some found =>
        cases found with
        | false => simpa using ih h keys
        | true => simpa using ih h (keys ++ [a.1])

/-- A scan that does not run out of its count before an expired entry does not stop there. -/
theorem scanLoop_skip {l r : List (Slice × Slice)} {e : Slice × Slice} {count : Int64}
    (he : (ParsedStringsMetaValue.new e.2).IsStale time = true) (h : ¬RunsOut time l count) (keys : List Slice) :
    (scanLoop time isMatch (l ++ e :: r) keys count).map (fun r => (r.1.head?, r.2)) =
      (scanLoop time isMatch (l ++ r) keys count).map fun r => (r.1.head?, r.2) := by
  induction l generalizing keys count with
  | nil =>
    have hcount : 0 < count := not_not.1 h
    rw [List.nil_append, List.nil_append, scanLoop, if_pos hcount, if_pos he]
  | cons a l ih =>
    simp only [List.cons_append, scanLoop]
    by_cases hcount : 0 < count
    · simp only [if_pos hcount]
      by_cases hstale : (ParsedStringsMetaValue.new a.2).IsStale time = true
      · rw [if_pos hstale, if_pos hstale]
        exact ih (fun hout => h ⟨hcount, by rwa [if_pos hstale]⟩) keys
      · have hnot : ¬RunsOut time l (count - 1) := fun hout => h ⟨hcount, by rwa [if_neg hstale]⟩
        rw [if_neg hstale, if_neg hstale]
        cases isMatch a.1 with
        | none => rfl
        | some found =>
          cases found with
          | false => exact ih hnot keys
          | true => exact ih hnot (keys ++ [a.1])
    · rw [if_neg hcount, if_neg hcount]
      rfl

end RedisString

end RedisDb
