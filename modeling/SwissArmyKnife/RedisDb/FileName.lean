import Mathlib.Data.Nat.Digits.Lemmas
import SwissArmyKnife.Lib.Bytes
import SwissArmyKnife.Lib.Decimal
import SwissArmyKnife.RedisDb.Comparator

/-!
# File names

The names of the files of a database, and the parser that finds the number and the type in a name.  It accepts the
four fixed names, and otherwise exactly the names with a number of 64 bits and one of the prefixes and suffixes
(`Owned`); among them are all the names that are made (`parseFileName_exact`).
-/

namespace RedisDb

open Ascii (ascii)

inductive FileType where
  | kLogFile
  | kDBLockFile
  | kTableFile
  | kDescriptorFile
  | kCurrentFile
  | kTempFile
  | kInfoLogFile
deriving DecidableEq

/-! ### Making names -/

/-- `%06llu` -/
def padded (number : UInt64) : Slice :=
  List.replicate (6 - (Decimal.digits number.toNat).length) 48 ++ Decimal.digits number.toNat

/-- What `snprintf` writes to a buffer of 100 bytes, before the final zero. -/
def snprintf100 (text : Slice) : Slice := text.take 99

def makeFileName (dbname : Slice) (number : UInt64) (suffix : String) : Slice :=
  dbname ++ snprintf100 (ascii "/" ++ padded number ++ ascii "." ++ ascii suffix)

/-- The names of files with numbers; there is none when the assertion fails. -/
def numberedFileName (name : UInt64 → Slice) (number : UInt64) : Option Slice :=
  if number > 0 then some (name number) else none

def LogFileName (dbname : Slice) (number : UInt64) : Option Slice :=
  numberedFileName (fun number => makeFileName dbname number "log") number

def TableFileName (dbname : Slice) (number : UInt64) : Option Slice :=
  numberedFileName (fun number => makeFileName dbname number "ldb") number

def SSTableFileName (dbname : Slice) (number : UInt64) : Option Slice :=
  numberedFileName (fun number => makeFileName dbname number "sst") number

def DescriptorFileName (dbname : Slice) (number : UInt64) : Option Slice :=
  numberedFileName (fun number => dbname ++ snprintf100 (ascii "/MANIFEST-" ++ padded number)) number

def TempFileName (dbname : Slice) (number : UInt64) : Option Slice :=
  numberedFileName (fun number => makeFileName dbname number "dbtmp") number

/-! ### Parsing names -/

def kMaxUint64 : UInt64 := 0xffffffffffffffff

def kLastDigitOfMaxUint64 : UInt8 := 48 + (kMaxUint64 % 10).toUInt8

/-- The loop: the value and what is left, or nothing when the value does not fit into 64 bits. -/
def consumeDigits (value : UInt64) : Slice → Option (UInt64 × Slice)
  | [] => some (value, [])
  | ch :: current =>
    if ch < 48 ∨ ch > 57 then some (value, ch :: current)
    else if value > kMaxUint64 / 10 ∨ value = kMaxUint64 / 10 ∧ ch > kLastDigitOfMaxUint64 then none
    else consumeDigits (value * 10 + (ch - 48).toUInt64) current

def ConsumeDecimalNumber (input : Slice) : Option (UInt64 × Slice) :=
  match consumeDigits 0 input with
  | some (value, rest) =>
    let digitsConsumed := input.length - rest.length
    if digitsConsumed ≠ 0 then some (value, rest) else none
  | none => none

def ParseFileName (filename : Slice) : Option (UInt64 × FileType) :=
  if filename = ascii "CURRENT" then some (0, .kCurrentFile)
  else if filename = ascii "LOCK" then some (0, .kDBLockFile)
  else if filename = ascii "LOG" ∨ filename = ascii "LOG.old" then some (0, .kInfoLogFile)
  else if StartsWith filename (ascii "MANIFEST-") then
    match ConsumeDecimalNumber (filename.drop (ascii "MANIFEST-").length) with
    | some (num, rest) => if rest ≠ [] then none else some (num, .kDescriptorFile)
    | none => none
  else
    match ConsumeDecimalNumber filename with
    | some (num, suffix) =>
      if suffix = ascii ".log" then some (num, .kLogFile)
      else if suffix = ascii ".sst" ∨ suffix = ascii ".ldb" then some (num, .kTableFile)
      else if suffix = ascii ".dbtmp" then some (num, .kTempFile)
      else none
    | none => none

/-! ### Numbers -/

/-- The number that digits stand for after the digits of `n`. -/
private def numberFrom (n : ℕ) (ds : Slice) : ℕ := ds.foldl (fun n d => 10 * n + (d.toNat - 48)) n

private theorem le_numberFrom (n : ℕ) (ds : Slice) : n ≤ numberFrom n ds := by
  induction ds generalizing n with
  | nil => exact le_rfl
  | cons d ds ih =>
    have := ih (10 * n + (d.toNat - 48))
    have hcons : numberFrom n (d :: ds) = numberFrom (10 * n + (d.toNat - 48)) ds := rfl
    omega

/-- The test before a digit is read: whether the next value does not fit. -/
private theorem overflow_iff {value : UInt64} {ch : UInt8} (h : 48 ≤ ch.toNat ∧ ch.toNat ≤ 57) :
    (value > kMaxUint64 / 10 ∨ value = kMaxUint64 / 10 ∧ ch > kLastDigitOfMaxUint64) ↔
      2 ^ 64 ≤ 10 * value.toNat + (ch.toNat - 48) := by
  have hmax : (kMaxUint64 / 10).toNat = 1844674407370955161 := by decide
  have hlast : kLastDigitOfMaxUint64.toNat = 53 := by decide
  rw [gt_iff_lt, gt_iff_lt, UInt64.lt_iff_toNat_lt, UInt8.lt_iff_toNat_lt, ← UInt64.toNat_inj, hmax, hlast]
  omega

private theorem toNat_next {value : UInt64} {ch : UInt8} (h : 48 ≤ ch.toNat ∧ ch.toNat ≤ 57)
    (hfits : 10 * value.toNat + (ch.toNat - 48) < 2 ^ 64) :
    (value * 10 + (ch - 48).toUInt64).toNat = 10 * value.toNat + (ch.toNat - 48) := by
  have hle : (48 : UInt8) ≤ ch := UInt8.le_iff_toNat_le.2 h.1
  have hsub : (ch - 48).toNat = ch.toNat - 48 := UInt8.toNat_sub_of_le _ _ hle
  have hten : (10 : UInt64).toNat = 10 := rfl
  rw [UInt64.toNat_add, UInt64.toNat_mul, UInt8.toNat_toUInt64, hsub, hten]
  omega

/-- The digits are read to their end if their number fits into 64 bits. -/
private theorem consumeDigits_eq (value : UInt64) (input : Slice) : consumeDigits value input =
    if numberFrom value.toNat (input.takeWhile Decimal.isDigit) < 2 ^ 64 then
      some (UInt64.ofNat (numberFrom value.toNat (input.takeWhile Decimal.isDigit)), input.dropWhile Decimal.isDigit)
    else none := by
  induction input generalizing value with
  | nil =>
    have hlt := value.toNat_lt
    rw [consumeDigits, List.takeWhile_nil, List.dropWhile_nil, numberFrom, List.foldl_nil,
      if_pos hlt, UInt64.ofNat_toNat]
  | cons ch current ih =>
    rw [consumeDigits]
    by_cases hch : ch < 48 ∨ ch > 57
    · have hdigit : ¬ Decimal.isDigit ch = true := by
        rw [Decimal.isDigit, Bool.and_eq_true, decide_eq_true_eq, decide_eq_true_eq]
        rintro ⟨h1, h2⟩
        rcases hch with h | h
        · exact absurd h1 (UInt8.not_le.2 h)
        · exact absurd h2 (UInt8.not_le.2 h)
      have hlt := value.toNat_lt
      rw [if_pos hch, List.takeWhile_cons_of_neg hdigit, List.dropWhile_cons_of_neg hdigit,
        numberFrom, List.foldl_nil,
        if_pos hlt, UInt64.ofNat_toNat]
    · have hdigit : Decimal.isDigit ch = true := by
        rw [not_or, gt_iff_lt, UInt8.not_lt, UInt8.not_lt] at hch
        rw [Decimal.isDigit, Bool.and_eq_true, decide_eq_true_eq, decide_eq_true_eq]
        exact hch
      have hcons : numberFrom value.toNat (ch :: current.takeWhile Decimal.isDigit) =
          numberFrom (10 * value.toNat + (ch.toNat - 48)) (current.takeWhile Decimal.isDigit) := rfl
      rw [if_neg hch, List.takeWhile_cons_of_pos hdigit, List.dropWhile_cons_of_pos hdigit, hcons]
      have hbounds : 48 ≤ ch.toNat ∧ ch.toNat ≤ 57 := by
        simpa [Decimal.isDigit, UInt8.le_iff_toNat_le] using hdigit
      by_cases hover : value > kMaxUint64 / 10 ∨ value = kMaxUint64 / 10 ∧ ch > kLastDigitOfMaxUint64
      · have hle := le_numberFrom (10 * value.toNat + (ch.toNat - 48)) (current.takeWhile Decimal.isDigit)
        have hbig := (overflow_iff hbounds).1 hover
        rw [if_pos hover, if_neg (by omega)]
      · have hfits := Nat.lt_of_not_le (mt (overflow_iff hbounds).2 hover)
        rw [if_neg hover, ih, toNat_next hbounds hfits]

/-- Some digits, the number of which fits into 64 bits. -/
def IsNumber (ds : Slice) (number : UInt64) : Prop :=
  ds ≠ [] ∧ ds.all Decimal.isDigit ∧ Decimal.number ds = number.toNat

/-- Of digits and what does not go on with a digit. -/
theorem consumeDecimalNumber_iff {input rest : Slice} {number : UInt64} :
    ConsumeDecimalNumber input = some (number, rest) ↔
      ∃ ds, input = ds ++ rest ∧ IsNumber ds number ∧ ∀ d ∈ rest.head?, Decimal.isDigit d = false := by
  have hlength : input.length - (input.dropWhile Decimal.isDigit).length =
      (input.takeWhile Decimal.isDigit).length := by
    have := congrArg List.length (List.takeWhile_append_dropWhile (p := Decimal.isDigit) (l := input))
    rw [List.length_append] at this
    omega
  rw [ConsumeDecimalNumber, consumeDigits_eq]
  constructor
  · intro h
    split_ifs at h with hfits
    dsimp only at h
    rw [hlength] at h
    split_ifs at h with hne
    simp only [Option.some.injEq, Prod.mk.injEq] at h
    obtain ⟨rfl, rfl⟩ := h
    refine ⟨input.takeWhile Decimal.isDigit, List.takeWhile_append_dropWhile.symm, ⟨?_, List.all_takeWhile, ?_⟩, ?_⟩
    · rwa [← List.length_eq_zero_iff.ne]
    · rw [UInt64.toNat_ofNat_of_lt' hfits]
      rfl
    · intro d hd
      have hhead := List.head?_dropWhile_not Decimal.isDigit input
      rwa [hd] at hhead
  · rintro ⟨ds, rfl, ⟨hne, hdigits, hnumber⟩, hrest⟩
    have hall : ∀ d ∈ ds, Decimal.isDigit d = true := List.all_eq_true.1 hdigits
    have htake : (ds ++ rest).takeWhile Decimal.isDigit = ds := by
      rw [List.takeWhile_append_of_pos hall]
      cases rest with
      | nil => simp
      | cons d rest =>
        rw [List.takeWhile_cons_of_neg (by simp [hrest d rfl]), List.append_nil]
    have hdrop : (ds ++ rest).dropWhile Decimal.isDigit = rest := by
      rw [List.dropWhile_append_of_pos hall]
      cases rest with
      | nil => rfl
      | cons d rest => exact List.dropWhile_cons_of_neg (by simp [hrest d rfl])
    have hfrom : numberFrom (0 : UInt64).toNat ds = number.toNat := hnumber
    rw [htake, hdrop] at hlength
    rw [htake, hdrop, hfrom, if_pos number.toNat_lt, UInt64.ofNat_toNat]
    dsimp only
    rw [hlength, if_pos (by rwa [Ne, List.length_eq_zero_iff])]

/-! ### Names -/

/-- A name with a number. -/
def Numbered (filename : Slice) (number : UInt64) (type : FileType) : Prop :=
  ∃ ds, IsNumber ds number ∧
    (filename = ascii "MANIFEST-" ++ ds ∧ type = .kDescriptorFile ∨ filename = ds ++ ascii ".log" ∧ type = .kLogFile ∨
      (filename = ds ++ ascii ".sst" ∨ filename = ds ++ ascii ".ldb") ∧ type = .kTableFile ∨
      filename = ds ++ ascii ".dbtmp" ∧ type = .kTempFile)

/-- The names of the files of a database: the fixed ones, and those with a number. -/
def Owned (filename : Slice) (number : UInt64) (type : FileType) : Prop :=
  number = 0 ∧ (filename = ascii "CURRENT" ∧ type = .kCurrentFile ∨ filename = ascii "LOCK" ∧ type = .kDBLockFile ∨
    (filename = ascii "LOG" ∨ filename = ascii "LOG.old") ∧ type = .kInfoLogFile) ∨
  Numbered filename number type

private theorem head?_number {ds : Slice} {number : UInt64} (h : IsNumber ds number) (suffix : Slice) :
    ∃ d, (ds ++ suffix).head? = some d ∧ Decimal.isDigit d = true := by
  obtain ⟨hne, hdigits, -⟩ := h
  obtain ⟨d, ds, rfl⟩ := List.exists_cons_of_ne_nil hne
  exact ⟨d, rfl, List.all_eq_true.1 hdigits d (by simp)⟩

/-- A name with a number begins with the M of MANIFEST or with a digit. -/
private theorem Numbered.head? {filename : Slice} {number : UInt64} {type : FileType}
    (h : Numbered filename number type) :
    filename.head? = some 77 ∨ ∃ d, filename.head? = some d ∧ Decimal.isDigit d = true := by
  obtain ⟨ds, hnumber, ⟨rfl, -⟩ | ⟨rfl, -⟩ | ⟨rfl | rfl, -⟩ | ⟨rfl, -⟩⟩ := h
  · exact .inl rfl
  all_goals exact .inr (head?_number hnumber _)

private theorem not_numbered {filename : Slice} (c : UInt8) (hhead : filename.head? = some c) (hc : c ≠ 77)
    (hdigit : Decimal.isDigit c = false) {number : UInt64} {type : FileType} : ¬ Numbered filename number type := by
  intro h
  rcases h.head? with heq | ⟨d, heq, hd⟩
  · exact hc (Option.some.inj (hhead.symm.trans heq))
  · obtain rfl := Option.some.inj (hhead.symm.trans heq)
    exact Bool.false_ne_true (hdigit.symm.trans hd)

private theorem fixed_iff {number number' : UInt64} {type type' : FileType} :
    some (number', type') = some (number, type) ↔ number = number' ∧ type = type' := by
  rw [Option.some.injEq, Prod.mk.injEq]
  exact ⟨fun h => ⟨h.1.symm, h.2.symm⟩, fun h => ⟨h.1.symm, h.2.symm⟩⟩

private theorem consume_suffix {ds suffix : Slice} {number : UInt64}
    (hsuffix : ∀ d ∈ suffix.head?, Decimal.isDigit d = false) (h : IsNumber ds number) :
    ConsumeDecimalNumber (ds ++ suffix) = some (number, suffix) :=
  consumeDecimalNumber_iff.2 ⟨ds, rfl, h, hsuffix⟩

/-- The parser accepts just the names of files of the database. -/
theorem parseFileName_iff {filename : Slice} {number : UInt64} {type : FileType} :
    ParseFileName filename = some (number, type) ↔ Owned filename number type := by
  rw [ParseFileName]
  by_cases hcurrent : filename = ascii "CURRENT"
  · subst hcurrent
    have hno := @not_numbered (ascii "CURRENT") 67 rfl (by decide) rfl number type
    have hne : ascii "CURRENT" ≠ ascii "LOCK" ∧ ascii "CURRENT" ≠ ascii "LOG" ∧
        ascii "CURRENT" ≠ ascii "LOG.old" := by
      decide
    rw [if_pos rfl, fixed_iff, Owned, or_iff_left hno]
    simp [hne]
  by_cases hlock : filename = ascii "LOCK"
  · subst hlock
    have hno := @not_numbered (ascii "LOCK") 76 rfl (by decide) rfl number type
    have hne : ascii "LOCK" ≠ ascii "LOG" ∧ ascii "LOCK" ≠ ascii "LOG.old" := by decide
    rw [if_neg hcurrent, if_pos rfl, fixed_iff, Owned, or_iff_left hno]
    simp [hne, hcurrent]
  by_cases hlog : filename = ascii "LOG" ∨ filename = ascii "LOG.old"
  · have hhead : filename.head? = some 76 := by rcases hlog with rfl | rfl <;> rfl
    have hno := @not_numbered filename 76 hhead (by decide) rfl number type
    rw [if_neg hcurrent, if_neg hlock, if_pos hlog, fixed_iff, Owned, or_iff_left hno]
    simp [hlog, hcurrent, hlock]
  have howned : Owned filename number type ↔ Numbered filename number type := by
    rw [Owned, or_iff_right]
    rintro ⟨-, ⟨h, -⟩ | ⟨h, -⟩ | ⟨h, -⟩⟩
    · exact hcurrent h
    · exact hlock h
    · exact hlog h
  rw [if_neg hcurrent, if_neg hlock, if_neg hlog, howned]
  by_cases hmanifest : StartsWith filename (ascii "MANIFEST-") = true
  · obtain ⟨data, rfl⟩ := startsWith_iff.1 hmanifest
    rw [if_pos hmanifest, List.drop_left]
    constructor
    · intro h
      cases hconsume : ConsumeDecimalNumber data with
      | none => simp [hconsume] at h
      | some r =>
        rw [hconsume] at h
        dsimp only at h
        split_ifs at h with hrest
        rw [fixed_iff] at h
        obtain ⟨ds, hdata, hnumber, -⟩ := consumeDecimalNumber_iff.1 hconsume
        rw [not_not.1 hrest, List.append_nil] at hdata
        rw [h.1, h.2]
        exact ⟨ds, hnumber, .inl ⟨by rw [hdata], rfl⟩⟩
    · rintro ⟨ds, hnumber, hcases⟩
      have hdata : data = ds ∧ type = .kDescriptorFile := by
        have hhead : ∀ suffix, ascii "MANIFEST-" ++ data ≠ ds ++ suffix := by
          intro suffix heq
          obtain ⟨d, hd, hdigit⟩ := head?_number hnumber suffix
          rw [← heq] at hd
          obtain rfl : 77 = d := Option.some.inj hd
          exact absurd hdigit (by decide)
        rcases hcases with ⟨heq, htype⟩ | ⟨heq, -⟩ | ⟨heq | heq, -⟩ | ⟨heq, -⟩
        · exact ⟨List.append_cancel_left heq, htype⟩
        all_goals exact absurd heq (hhead _)
      obtain ⟨rfl, rfl⟩ := hdata
      have hconsume : ConsumeDecimalNumber (data ++ []) = _ := consume_suffix (by simp) hnumber
      rw [List.append_nil] at hconsume
      rw [hconsume]
      rfl
  · rw [if_neg hmanifest]
    constructor
    · intro h
      cases hconsume : ConsumeDecimalNumber filename with
      | none => simp [hconsume] at h
      | some r =>
        rw [hconsume] at h
        dsimp only at h
        obtain ⟨ds, hname, hnumber, -⟩ := consumeDecimalNumber_iff.1 hconsume
        split_ifs at h with hsuffix hsuffix hsuffix <;> (rw [fixed_iff] at h; rw [h.1, h.2, hname])
        · exact ⟨ds, hnumber, .inr (.inl ⟨by rw [hsuffix], rfl⟩)⟩
        · refine ⟨ds, hnumber, .inr (.inr (.inl ⟨?_, rfl⟩))⟩
          rcases hsuffix with hsuffix | hsuffix
          · exact .inl (by rw [hsuffix])
          · exact .inr (by rw [hsuffix])
        · exact ⟨ds, hnumber, .inr (.inr (.inr ⟨by rw [hsuffix], rfl⟩))⟩
    · rintro ⟨ds, hnumber, ⟨rfl, -⟩ | ⟨rfl, rfl⟩ | ⟨rfl | rfl, rfl⟩ | ⟨rfl, rfl⟩⟩
      · exact absurd (startsWith_append _ _) hmanifest
      all_goals
        rw [consume_suffix _ hnumber]
        · rfl
        · intro d hd
          obtain rfl : 46 = d := Option.some.inj hd
          decide

/-! ### The names that are made -/

private theorem isNumber_padded (number : UInt64) : IsNumber (padded number) number := by
  have hzeros : ∀ k : ℕ, (List.replicate k (48 : UInt8)).foldl (fun n d => 10 * n + (d.toNat - 48)) 0 = 0 := by
    intro k
    induction k with
    | zero => rfl
    | succ k ih => rwa [List.replicate_succ, List.foldl_cons]
  refine ⟨?_, ?_, ?_⟩
  · rw [padded]
    exact List.append_ne_nil_of_right_ne_nil _ (Decimal.digits_ne_nil _)
  · rw [padded, List.all_append, Decimal.isDigit_digits, Bool.and_true, List.all_replicate]
    simp [Decimal.isDigit]
  · rw [padded, Decimal.number, List.foldl_append, hzeros]
    exact Decimal.number_digits _

private theorem length_padded (number : UInt64) : (padded number).length ≤ 20 := by
  have hdigits : (Decimal.digits number.toNat).length ≤ 20 := by
    rw [Decimal.digits]
    split_ifs
    · simp
    · rw [List.length_map, List.length_reverse]
      have hlt := number.toNat_lt
      exact (Nat.digits_length_le_iff (by omega) _).2 (by omega)
  rw [padded, List.length_append, List.length_replicate]
  omega

/-- The buffer is large enough. -/
private theorem snprintf100_eq {text : Slice} (h : text.length ≤ 99) : snprintf100 text = text :=
  List.take_of_length_le h

private theorem makeFileName_eq (dbname : Slice) (number : UInt64) {suffix : String}
    (h : (ascii suffix).length ≤ 77) :
    makeFileName dbname number suffix = dbname ++ (ascii "/" ++ (padded number ++ (ascii "." ++ ascii suffix))) := by
  have hlength := length_padded number
  have hslash : (ascii "/").length = 1 ∧ (ascii ".").length = 1 := ⟨rfl, rfl⟩
  rw [makeFileName, snprintf100_eq]
  · simp only [List.append_assoc]
  · simp only [List.length_append]
    omega

private theorem descriptorFileName_eq (dbname : Slice) (number : UInt64) :
    dbname ++ snprintf100 (ascii "/MANIFEST-" ++ padded number) =
      dbname ++ (ascii "/" ++ (ascii "MANIFEST-" ++ padded number)) := by
  have hlength := length_padded number
  have hprefix : (ascii "/MANIFEST-").length = 10 := rfl
  rw [snprintf100_eq]
  · rfl
  · rw [List.length_append]
    omega

/-- The functions that make names, and the types of the files. -/
def makers : List ((Slice → UInt64 → Option Slice) × FileType) :=
  [(LogFileName, .kLogFile), (TableFileName, .kTableFile), (SSTableFileName, .kTableFile),
    (DescriptorFileName, .kDescriptorFile), (TempFileName, .kTempFile)]

/-- The names that are made are parsed to their number and type, and nothing is accepted but the names of files. -/
theorem parseFileName_exact :
    (∀ (dbname : Slice) (number : UInt64), 0 < number → ∀ make ∈ makers, ∃ name,
      make.1 dbname number = some (dbname ++ (ascii "/" ++ name)) ∧ ParseFileName name = some (number, make.2)) ∧
    ∀ (filename : Slice) (number : UInt64) (type : FileType),
      ParseFileName filename = some (number, type) ↔ Owned filename number type := by
  refine ⟨?_, fun _ _ _ => parseFileName_iff⟩
  intro dbname number hpos make hmake
  have hnumber := isNumber_padded number
  simp only [makers, List.mem_cons, List.not_mem_nil, or_false] at hmake
  rcases hmake with rfl | rfl | rfl | rfl | rfl
  · refine ⟨padded number ++ (ascii "." ++ ascii "log"), ?_,
      parseFileName_iff.2 (.inr ⟨_, hnumber, .inr (.inl ⟨rfl, rfl⟩)⟩)⟩
    exact (if_pos hpos).trans (congrArg some (@makeFileName_eq dbname number "log" (by decide)))
  · refine ⟨padded number ++ (ascii "." ++ ascii "ldb"), ?_,
      parseFileName_iff.2 (.inr ⟨_, hnumber, .inr (.inr (.inl ⟨.inr rfl, rfl⟩))⟩)⟩
    exact (if_pos hpos).trans (congrArg some (@makeFileName_eq dbname number "ldb" (by decide)))
  · refine ⟨padded number ++ (ascii "." ++ ascii "sst"), ?_,
      parseFileName_iff.2 (.inr ⟨_, hnumber, .inr (.inr (.inl ⟨.inl rfl, rfl⟩))⟩)⟩
    exact (if_pos hpos).trans (congrArg some (@makeFileName_eq dbname number "sst" (by decide)))
  · refine ⟨ascii "MANIFEST-" ++ padded number, ?_, parseFileName_iff.2 (.inr ⟨_, hnumber, .inl ⟨rfl, rfl⟩⟩)⟩
    exact (if_pos hpos).trans (congrArg some (descriptorFileName_eq dbname number))
  · refine ⟨padded number ++ (ascii "." ++ ascii "dbtmp"), ?_,
      parseFileName_iff.2 (.inr ⟨_, hnumber, .inr (.inr (.inr ⟨rfl, rfl⟩))⟩)⟩
    exact (if_pos hpos).trans (congrArg some (@makeFileName_eq dbname number "dbtmp" (by decide)))

theorem parseFileName_exact_log :
    ∃ name, LogFileName (ascii "db") 7 = some (ascii "db" ++ (ascii "/" ++ name)) ∧
    ParseFileName name = some (7, .kLogFile) :=
  parseFileName_exact.1 (ascii "db") 7 (by decide) (LogFileName, .kLogFile) (List.mem_cons_self ..)

/-- A name without a digit is accepted. -/
theorem parseFileName_current : ParseFileName (ascii "CURRENT") = some (0, .kCurrentFile) ∧
    ∀ c ∈ ascii "CURRENT", Decimal.isDigit c = false := by
  have hdigits : ((ascii "CURRENT").all fun c => !Decimal.isDigit c) = true := by decide
  refine ⟨by decide, fun c hc => ?_⟩
  simpa using List.all_eq_true.1 hdigits c hc

end RedisDb
