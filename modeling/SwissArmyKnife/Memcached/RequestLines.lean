import SwissArmyKnife.Memcached.ConnectRuns

/-!
# Lines with commands

What `processRequest` does with any line.  It stays within the tokens of the line and takes no number that it
misreads, unless a command has no key or an update has a number that `strtoull` reads as another one
(`processRequest_handled_iff`).
-/

namespace Memcached

open Ascii (ascii)
open Decimal (isDigit isSpace number sign)
open Words (toInt toInt_eq toInt_neg)

/-! ### The tokens of a line -/

/-- The tokens of a line without its `noreply`. -/
def lineTokens (request : Bytes) : List Bytes := tokens (stripNoreply request).2

/-- The number that a token writes in decimal digits, with or without a sign. -/
def decimal (tok : Bytes) : Option ℤ :=
  if (sign tok).2 ≠ [] ∧ (sign tok).2.all isDigit then
    some (if (sign tok).1 then -number (sign tok).2 else number (sign tok).2)
  else none

/-- The token is a decimal number in the range of a type. -/
def FitsIn (lo hi : ℤ) (tok : Bytes) : Prop := ∃ v, decimal tok = some v ∧ lo ≤ v ∧ v < hi

/-- The token is a decimal number behind some white space. -/
def Readable (tok : Bytes) : Prop := (decimal (tok.dropWhile isSpace)).isSome

/-- Each number of an update has a property: the flags, the expiry time, the byte count and for `cas` the last one. -/
def Numbers (flags exptime bytes cas : Bytes → Prop) (policy : UpdatePolicy) : List Bytes → Prop
  | tok :: tok' :: tok'' :: more =>
    flags tok ∧ exptime tok' ∧ bytes tok'' ∧ (policy = .cas → ∃ tok''', more.head? = some tok''' ∧ cas tok''')
  | _ => False

/-- The numbers of an update fit the types that they are read into. -/
def NumbersFit (policy : UpdatePolicy) (args : List Bytes) : Prop :=
  Numbers (FitsIn 0 (2 ^ 32)) (FitsIn (-2 ^ 63) (2 ^ 63)) (FitsIn (-2 ^ 31) (2 ^ 31)) (FitsIn 0 (2 ^ 64)) policy args

def NumbersReadable (policy : UpdatePolicy) (args : List Bytes) : Prop :=
  Numbers Readable Readable Readable Readable policy args

/-- The length of the value that an update announces, behind the key. -/
def announced (args : List Bytes) : Option ℤ := args[2]?.bind decimal

/-- The line is an update with a short key and these arguments behind it, and its numbers are taken. -/
def Takes (request : Bytes) (policy : UpdatePolicy) (args : List Bytes) : Prop :=
  ∃ command key, lineTokens request = command :: key :: args ∧ policyOf command = policy ∧ policy ≠ .invalid ∧
    key.length ≤ kLongestKeySize ∧ (readArgs policy args).isSome

/-- The lines that are refused: without a token or with an unknown command, with a key that is too long, with numbers
that are not read, or with more behind the key of `delete`.  A line that announces more than the cache takes is not
one of them: its key is deleted, and its value is dropped. -/
def Rejected (request : Bytes) : Prop :=
  match lineTokens request with
  | [] => True
  | command :: args =>
    if policyOf command ≠ .invalid then
      ∃ key more, args = key :: more ∧
        (key.length ≤ kLongestKeySize → readArgs (policyOf command) more = none)
    else if command = ascii "get" ∨ command = ascii "gets" then ∃ key ∈ args, kLongestKeySize < key.length
    else if command = ascii "delete" then
      ∃ key more, args = key :: more ∧ (key.length ≤ kLongestKeySize → ∃ tok, more.head? = some tok ∧ tok ≠ ascii "0")
    else command ≠ ascii "version" ∧ command ≠ ascii "quit" ∧ command ≠ ascii "shutdown"

/-- The key that a call of the store copies into the needle. -/
def Op.needle : Op → Option Bytes
  | get key => some key
  | delete key => some key
  | _ => none

/-- The line was handled safely. -/
structure Handled (conn conn' : Connect MemcacheServer) (request : Bytes) : Prop where
  keys : ∃ ops, conn'.ops = conn.ops ++ ops ∧ ∀ op ∈ ops, ∀ key, op.needle = some key → key.length ≤ kLongestKeySize
  item : ∀ item, conn'.currItem = some item → 2 ≤ item.valueLen ∧ item.key.length + item.valueLen < 2 ^ 31
  discard : conn'.bytesToDiscard ≠ 0 →
    ∃ v, announced ((lineTokens request).drop 2) = some v ∧ conn'.bytesToDiscard = v + 2
  numbers : ∀ policy args, Takes request policy args → NumbersFit policy args
  rejected : Rejected request → conn'.owner = conn.owner

/-- A key stands where a command needs one, and the numbers of an update with a short key that can be read fit their
types, the byte count not negative and with room for two more. -/
def WellPosed (request : Bytes) : Prop :=
  match lineTokens request with
  | [] => True
  | command :: args =>
    if policyOf command ≠ .invalid then
      ∃ key more, args = key :: more ∧ (key.length ≤ kLongestKeySize → NumbersReadable (policyOf command) more →
        NumbersFit (policyOf command) more ∧ ∃ v, announced more = some v ∧ 0 ≤ v ∧ v < 2 ^ 31 - 2)
    else command = ascii "delete" → args ≠ []

/-! ### Numbers -/

theorem strtoull_isSome_iff (tok : Bytes) : (strtoull tok).isSome ↔ Readable tok := by
  unfold strtoull Readable decimal
  dsimp only
  by_cases hdigits : (sign (tok.dropWhile isSpace)).2 ≠ [] ∧ (sign (tok.dropWhile isSpace)).2.all isDigit
  · rw [if_pos hdigits, if_pos hdigits]
    split_ifs <;> simp
  · rw [if_neg hdigits, if_neg hdigits]
    simp

theorem readArgs_isSome_iff (policy : UpdatePolicy) (args : List Bytes) :
    (readArgs policy args).isSome ↔ NumbersReadable policy args := by
  unfold NumbersReadable Numbers readArgs
  simp only [← strtoull_isSome_iff]
  rcases args with _ | ⟨flags, _ | ⟨exptime, _ | ⟨bytes, more⟩⟩⟩
  · simp [read]
  · cases hflags : strtoull flags <;> simp [read, hflags]
  · cases hflags : strtoull flags <;> cases hexptime : strtoull exptime <;> simp [read, hflags, hexptime]
  · cases hflags : strtoull flags with
    | none => simp [read, hflags]
    | some x =>
      cases hexptime : strtoull exptime with
      | none => simp [read, hflags, hexptime]
      | some y =>
        cases hbytes : strtoull bytes with
        | none => simp [read, hflags, hexptime, hbytes]
        | some z =>
          by_cases hcas : policy = .cas
          · cases more with
            | nil => simp [read, hflags, hexptime, hbytes, hcas]
            | cons cas more => simp [read, hflags, hexptime, hbytes, hcas]
          · simp [read, hflags, hexptime, hbytes, hcas]

/-- There is no white space in front of a decimal number. -/
theorem dropWhile_of_decimal {tok : Bytes} (h : (decimal tok).isSome) : tok.dropWhile isSpace = tok := by
  cases tok with
  | nil => rfl
  | cons d ds =>
    have hdigits : (sign (d :: ds)).2 ≠ [] ∧ (sign (d :: ds)).2.all isDigit := by
      by_contra hnot
      rw [decimal, if_neg hnot] at h
      cases h
    refine List.dropWhile_cons_of_neg ?_
    rw [Bool.not_eq_true]
    by_cases hminus : d = 45
    · rw [hminus]
      decide
    by_cases hplus : d = 43
    · rw [hplus]
      decide
    rw [sign, if_neg hminus, if_neg hplus] at hdigits
    exact (Decimal.isDigit_cases (List.all_eq_true.1 hdigits.2 d (List.mem_cons_self ..))).1

/-- A decimal number is read modulo 2 ^ 64. -/
theorem strtoull_of_decimal {tok : Bytes} {v : ℤ} (h : decimal tok = some v) (hlo : -2 ^ 64 < v) (hhi : v < 2 ^ 64) :
    ∃ x, strtoull tok = some x ∧ (x.toNat : ℤ) = v % 2 ^ 64 := by
  have hdrop := dropWhile_of_decimal (Option.isSome_of_eq_some h)
  unfold strtoull
  rw [hdrop]
  unfold decimal at h
  by_cases hdigits : (sign tok).2 ≠ [] ∧ (sign tok).2.all isDigit
  · rw [if_pos hdigits] at h
    have hv := Option.some.inj h
    have hbound : number (sign tok).2 < 2 ^ 64 := by
      split_ifs at hv <;> omega
    dsimp only
    rw [if_pos hdigits, if_pos hbound]
    refine ⟨_, rfl, ?_⟩
    rw [← hv]
    have hnat : (UInt64.ofNat (number (sign tok).2)).toNat = number (sign tok).2 := UInt64.toNat_ofNat_of_lt' hbound
    split_ifs
    · rw [UInt64.toNat_neg, hnat]
      simp only [UInt64.size]
      omega
    · rw [hnat]
      omega
  · rw [if_neg hdigits] at h
    cases h

/-- The byte count that is taken is the one that is announced, when it fits. -/
theorem announced_of_readArgs {policy : UpdatePolicy} {args : List Bytes} {a : UpdateArgs}
    (h : readArgs policy args = some a) (hfit : NumbersFit policy args) :
    announced args = some a.bytes ∧ -2 ^ 31 ≤ a.bytes ∧ a.bytes < 2 ^ 31 := by
  rcases args with _ | ⟨flags, _ | ⟨exptime, _ | ⟨bytes, more⟩⟩⟩
  · cases hfit
  · cases hfit
  · cases hfit
  obtain ⟨-, -, ⟨v, hv, hlo, hhi⟩, -⟩ := hfit
  obtain ⟨x, hx, hmod⟩ := strtoull_of_decimal hv (by omega) (by omega)
  have htoInt : toInt (x.toNat : ℤ) = v := by
    rw [hmod, toInt, Int.bmod_def]
    split_ifs <;> omega
  rw [bytes_of_readArgs h hx, htoInt]
  exact ⟨hv, hlo, hhi⟩

/-! ### What is done with a line -/

section Lines

variable {hash : Bytes → ℕ} {startTime : ℤ} {conn : Connect MemcacheServer} {request : Bytes}

/-- The connection behind the name of a command. -/
def Connect.named (conn : Connect MemcacheServer) (request command : Bytes) : Connect MemcacheServer :=
  { conn with noreply := (stripNoreply request).1, command := command }

theorem processRequest_nil (hready : conn.Ready) (hnil : lineTokens request = []) :
    conn.processRequest (MemcacheServer.owner hash startTime) request =
      some (({ conn with noreply := (stripNoreply request).1 } : Connect MemcacheServer).reply
        (ascii "ERROR\r\n"), true) := by
  unfold lineTokens at hnil
  unfold Connect.processRequest
  rw [if_pos hready]
  dsimp only
  rw [hnil]

theorem processRequest_cons (hready : conn.Ready) {command : Bytes} {args : List Bytes}
    (hcons : lineTokens request = command :: args) :
    conn.processRequest (MemcacheServer.owner hash startTime) request =
      (conn.named request command).dispatch (MemcacheServer.owner hash startTime) args := by
  unfold lineTokens at hcons
  unfold Connect.processRequest
  rw [if_pos hready]
  dsimp only
  rw [hcons]
  rfl

/-- Nothing is done with a line but an answer. -/
theorem handled_reply (hready : conn.Ready) (hnumbers : ∀ policy args, ¬Takes request policy args)
    {conn' : Connect MemcacheServer} (hops : conn'.ops = conn.ops) (hitem : conn'.currItem = conn.currItem)
    (hdiscard : conn'.bytesToDiscard = conn.bytesToDiscard) (howner : conn'.owner = conn.owner) (msg : Bytes) :
    Handled conn (conn'.reply msg) request := by
  obtain ⟨sent, heq⟩ := conn'.reply_eq msg
  rw [heq]
  exact {
    keys := ⟨[], by simp [hops], by simp⟩
    item := by simp [hitem, hready.currItem]
    discard := by simp [hdiscard, hready.bytesToDiscard]
    numbers := fun policy args h => absurd h (hnumbers policy args)
    rejected := fun _ => howner }

theorem not_takes {command : Bytes} {args : List Bytes} (hcons : lineTokens request = command :: args)
    (hpolicy : policyOf command = .invalid) (policy : UpdatePolicy) (args' : List Bytes) :
    ¬Takes request policy args' := by
  rintro ⟨command', key, hcons', rfl, hpolicy', -⟩
  rw [hcons] at hcons'
  obtain rfl := (List.cons.inj hcons').1
  exact hpolicy' hpolicy

/-! ### Updates -/

section Update

variable {command key : Bytes} {more : List Bytes}

theorem takes_iff (hcons : lineTokens request = command :: key :: more) (hpolicy : policyOf command ≠ .invalid)
    (policy : UpdatePolicy) (args : List Bytes) : Takes request policy args ↔
      policy = policyOf command ∧ args = more ∧ key.length ≤ kLongestKeySize ∧
        (readArgs (policyOf command) more).isSome := by
  constructor
  · rintro ⟨command', key', hcons', rfl, -, htaken⟩
    rw [hcons] at hcons'
    cases hcons'
    exact ⟨rfl, rfl, htaken⟩
  · rintro ⟨rfl, rfl, htaken⟩
    exact ⟨command, key, hcons, rfl, hpolicy, htaken⟩

theorem rejected_update_iff (hcons : lineTokens request = command :: key :: more)
    (hpolicy : policyOf command ≠ .invalid) :
    Rejected request ↔ (key.length ≤ kLongestKeySize → readArgs (policyOf command) more = none) := by
  unfold Rejected
  rw [hcons]
  dsimp only
  rw [if_pos hpolicy]
  simp

theorem doUpdate_refused {owner : Owner MemcacheServer}
    (h : ¬(key.length ≤ kLongestKeySize ∧ (readArgs (policyOf conn.command) more).isSome)) :
    conn.doUpdate owner (key :: more) =
      some (({ conn with policy := policyOf conn.command } : Connect MemcacheServer).reply badFormat, true) := by
  have hnone : (if key.length ≤ kLongestKeySize then readArgs (policyOf conn.command) more else none) = none := by
    by_cases hkey : key.length ≤ kLongestKeySize
    · rw [if_pos hkey]
      simpa [hkey] using h
    · rw [if_neg hkey]
  unfold Connect.doUpdate
  dsimp only
  rw [hnone]

theorem doUpdate_large {owner : Owner MemcacheServer} {a : UpdateArgs} (hkey : key.length ≤ kLongestKeySize)
    (ha : readArgs (policyOf conn.command) more = some a) (hlarge : 1024 * 1024 < a.bytes) :
    ∃ sent, conn.doUpdate owner (key :: more) =
      some ({ conn with
        policy := policyOf conn.command
        sent := sent
        owner := (owner.deleteItem conn.owner key).1
        ops := conn.ops ++ [.delete key]
        bytesToDiscard := (toInt (a.bytes + 2) % 2 ^ 64).toNat
        state := .discardValue }, false) := by
  obtain ⟨sent, heq⟩ := ({ conn with policy := policyOf conn.command } : Connect MemcacheServer).reply_eq
    (ascii "SERVER_ERROR object too large for cache\r\n")
  refine ⟨sent, ?_⟩
  unfold Connect.doUpdate
  dsimp only
  rw [if_pos hkey, ha]
  dsimp only
  rw [if_pos hlarge, heq]
  rfl

theorem doUpdate_item {owner : Owner MemcacheServer} {a : UpdateArgs} (hkey : key.length ≤ kLongestKeySize)
    (ha : readArgs (policyOf conn.command) more = some a) (hsmall : ¬1024 * 1024 < a.bytes) :
    conn.doUpdate owner (key :: more) =
      (Item.makeItem key a.flags (relExptime owner.startTime a.exptime) (toInt (a.bytes + 2)) a.cas).map fun item =>
        ({ conn with
          policy := policyOf conn.command
          currItem := some item
          state := .receiveValue }, false) := by
  unfold Connect.doUpdate
  dsimp only
  rw [if_pos hkey, ha]
  dsimp only
  rw [if_neg hsmall]

/-- A byte count whose line is handled safely. -/
theorem update_fits {a : UpdateArgs} (hkey : key.length ≤ kLongestKeySize)
    (ha : readArgs (policyOf conn.command) more = some a) (hannounced : announced more = some a.bytes)
    (hlo : -2 ^ 31 ≤ a.bytes) (hhi : a.bytes < 2 ^ 31) {owner : Owner MemcacheServer} {conn' : Connect MemcacheServer}
    {reset : Bool} (h : conn.doUpdate owner (key :: more) = some (conn', reset))
    (hdiscard : conn'.bytesToDiscard ≠ 0 → ∃ v, announced more = some v ∧ conn'.bytesToDiscard = v + 2) :
    0 ≤ a.bytes ∧ a.bytes < 2 ^ 31 - 2 := by
  by_cases hlarge : 1024 * 1024 < a.bytes
  · refine ⟨by omega, ?_⟩
    by_contra hlong
    -- two more are too many for an `int`, so what is dropped is not what is announced
    have hneg := toInt_neg (show 2 ^ 31 ≤ a.bytes + 2 by omega) (by omega)
    have hge : -2 ^ 31 ≤ toInt (a.bytes + 2) := by
      unfold toInt
      have hbmod := @Int.le_bmod (a.bytes + 2) (2 ^ 32) (by decide)
      omega
    obtain ⟨sent, heq⟩ := @doUpdate_large conn key more owner a hkey ha hlarge
    rw [heq] at h
    cases h
    obtain ⟨v, hv, hequal⟩ := hdiscard (by dsimp only; omega)
    obtain rfl := Option.some.inj (hannounced.symm.trans hv)
    dsimp only at hequal
    omega
  · rw [doUpdate_item hkey ha hlarge] at h
    obtain ⟨item, hitem, -⟩ := Option.map_eq_some_iff.1 h
    have htwo : 2 ≤ toInt (a.bytes + 2) := by
      by_contra hless
      unfold Item.makeItem at hitem
      dsimp only at hitem
      rw [if_neg fun hmade => hless hmade.1] at hitem
      cases hitem
    rw [toInt_eq (by omega) (by omega)] at htwo
    omega

/-- What becomes of an update whose byte count fits. -/
theorem update_handled {a : UpdateArgs} (hready : conn.Ready) (hcons : lineTokens request = command :: key :: more)
    (hpolicy : policyOf command ≠ .invalid) (hkey : key.length ≤ kLongestKeySize)
    (ha : readArgs (policyOf command) more = some a) (hfit : NumbersFit (policyOf command) more)
    (hlo : 0 ≤ a.bytes) (hhi : a.bytes < 2 ^ 31 - 2) :
    ∃ conn' reset, (conn.named request command).doUpdate (MemcacheServer.owner hash startTime) (key :: more) =
        some (conn', reset) ∧ Handled conn conn' request := by
  have hnumbers : ∀ policy args, Takes request policy args → NumbersFit policy args := by
    intro policy args h
    obtain ⟨rfl, rfl, -⟩ := (takes_iff hcons hpolicy policy args).1 h
    exact hfit
  have hrejected : ¬Rejected request := fun h => by
    rw [(rejected_update_iff hcons hpolicy).1 h hkey] at ha
    cases ha
  have hdrop : (lineTokens request).drop 2 = more := by rw [hcons, List.drop_succ_cons, List.drop_one, List.tail_cons]
  have htoInt : toInt (a.bytes + 2) = a.bytes + 2 := toInt_eq (by omega) (by omega)
  by_cases hlarge : 1024 * 1024 < a.bytes
  · obtain ⟨sent, heq⟩ :=
      @doUpdate_large (conn.named request command) key more (MemcacheServer.owner hash startTime) a
      hkey ha hlarge
    refine ⟨_, _, heq, ⟨⟨_, rfl, ?_⟩, ?_, ?_, hnumbers, fun h => absurd h hrejected⟩⟩
    · intro op hop key' hneedle
      obtain rfl := List.mem_singleton.1 hop
      cases hneedle
      exact hkey
    · intro item hitem
      cases hitem.symm.trans hready.currItem
    · intro _
      obtain ⟨hannounced, -, -⟩ := announced_of_readArgs ha hfit
      refine ⟨a.bytes, by rw [hdrop, hannounced], ?_⟩
      dsimp only
      rw [htoInt]
      omega
  · have hfits : (key.length : ℤ) + (a.bytes + 2) < 2 ^ 31 := by
      unfold kLongestKeySize at hkey
      omega
    have hupdate :=
      @doUpdate_item (conn.named request command) key more (MemcacheServer.owner hash startTime) a hkey ha
      hlarge
    rw [htoInt, Item.makeItem_of_fits (by omega) hfits, Option.map_some] at hupdate
    refine ⟨_, _, hupdate, ⟨⟨[], (List.append_nil _).symm, by simp⟩, ?_, ?_, hnumbers, fun h => absurd h hrejected⟩⟩
    · rintro item ⟨⟩
      exact ⟨show 2 ≤ a.bytes + 2 by omega, hfits⟩
    · intro hne
      exact absurd hready.bytesToDiscard hne

/-- When an update is handled safely. -/
theorem update_handled_iff (hready : conn.Ready) (hcons : lineTokens request = command :: key :: more)
    (hpolicy : policyOf command ≠ .invalid) :
    (∃ conn' reset, (conn.named request command).doUpdate (MemcacheServer.owner hash startTime) (key :: more) =
        some (conn', reset) ∧ Handled conn conn' request) ↔
      (key.length ≤ kLongestKeySize → NumbersReadable (policyOf command) more →
        NumbersFit (policyOf command) more ∧ ∃ v, announced more = some v ∧ 0 ≤ v ∧ v < 2 ^ 31 - 2) := by
  have htakes := takes_iff hcons hpolicy
  rw [← readArgs_isSome_iff]
  by_cases haccepted : key.length ≤ kLongestKeySize ∧ (readArgs (policyOf command) more).isSome
  · obtain ⟨hkey, hread⟩ := haccepted
    obtain ⟨a, ha⟩ := Option.isSome_iff_exists.1 hread
    have hdrop : (lineTokens request).drop 2 = more := by
      rw [hcons, List.drop_succ_cons, List.drop_one, List.tail_cons]
    constructor
    · rintro ⟨conn', reset, hupdate, hhandled⟩ - -
      have hfit := hhandled.numbers _ _ ((htakes _ _).2 ⟨rfl, rfl, hkey, hread⟩)
      obtain ⟨hannounced, hlo, hhi⟩ := announced_of_readArgs ha hfit
      have hdiscard := hhandled.discard
      rw [hdrop] at hdiscard
      exact ⟨hfit, a.bytes, hannounced,
        @update_fits (conn.named request command) key more a hkey ha hannounced hlo hhi _ _ _ hupdate hdiscard⟩
    · intro h
      obtain ⟨hfit, v, hv, hlo, hhi⟩ := h hkey hread
      obtain ⟨hannounced, -, -⟩ := announced_of_readArgs ha hfit
      obtain rfl := Option.some.inj (hannounced.symm.trans hv)
      exact update_handled hready hcons hpolicy hkey ha hfit hlo hhi
  · have hnot : ∀ policy args, ¬Takes request policy args := fun policy args h =>
      haccepted ((htakes policy args).1 h).2.2
    refine iff_of_true ⟨_, _, doUpdate_refused haccepted, ?_⟩ fun hkey hread => absurd ⟨hkey, hread⟩ haccepted
    refine handled_reply hready hnot ?_ ?_ ?_ ?_ badFormat <;> rfl

end Update

/-! ### The other commands -/

/-- The keys of a `get` are looked up while they are short. -/
theorem getItems_spec (cas : Bool) (conn : Connect MemcacheServer) (keys : List Bytes) :
    ∃ ops, (∀ op ∈ ops, ∀ key, op.needle = some key → key.length ≤ kLongestKeySize) ∧
      ∃ sent outputBuf, (Connect.getItems (MemcacheServer.owner hash startTime) cas conn keys).1 =
        { conn with sent := sent, ops := conn.ops ++ ops, outputBuf := outputBuf } := by
  induction keys generalizing conn with
  | nil => exact ⟨[], by simp, conn.sent, conn.outputBuf, by simp [Connect.getItems]⟩
  | cons key keys ih =>
    rw [Connect.getItems]
    split_ifs with hkey
    · dsimp only
      obtain ⟨ops, hops, sent, outputBuf, heq⟩ := ih _
      refine ⟨.get key :: ops, ?_, sent, outputBuf, heq.trans ?_⟩
      · intro op hop key' hneedle
        rcases List.mem_cons.1 hop with rfl | hop
        · cases hneedle
          exact hkey
        · exact hops op hop key' hneedle
      · simp [Connect.call, MemcacheServer.owner]
    · obtain ⟨sent, heq⟩ := conn.reply_eq badFormat
      exact ⟨[], by simp, sent, conn.outputBuf, by simp [heq]⟩

theorem doGet_spec (cas : Bool) (conn : Connect MemcacheServer) (keys : List Bytes) :
    ∃ ops, (∀ op ∈ ops, ∀ key, op.needle = some key → key.length ≤ kLongestKeySize) ∧
      ∃ sent outputBuf, conn.doGet (MemcacheServer.owner hash startTime) cas keys =
        { conn with sent := sent, ops := conn.ops ++ ops, outputBuf := outputBuf } := by
  obtain ⟨ops, hops, sent, outputBuf, heq⟩ := @getItems_spec hash startTime cas conn keys
  refine ⟨ops, hops, ?_⟩
  unfold Connect.doGet
  dsimp only
  rw [heq]
  unfold Connect.send
  split_ifs
  · exact ⟨_, _, rfl⟩
  · exact ⟨_, _, rfl⟩
  · exact ⟨_, _, rfl⟩

section Delete

variable {key : Bytes} {more : List Bytes}

/-- A `delete` is refused, or it deletes its key, which is short. -/
theorem doDelete_spec (owner : Owner MemcacheServer) (conn : Connect MemcacheServer) :
    (conn.doDelete owner (key :: more) = some (conn.reply badFormat) ∨
      conn.doDelete owner (key :: more) =
        some (conn.reply (ascii "CLIENT_ERROR bad command line format.  Usage: delete <key> [noreply]\r\n"))) ∨
    ¬(key.length ≤ kLongestKeySize → ∃ tok, more.head? = some tok ∧ tok ≠ ascii "0") ∧ key.length ≤ kLongestKeySize ∧
      ∃ msg, conn.doDelete owner (key :: more) =
        some ((conn.call (owner.deleteItem conn.owner key).1 (.delete key)).reply msg) := by
  unfold Connect.doDelete
  dsimp only
  by_cases hkey : kLongestKeySize < key.length
  · rw [if_pos hkey]
    exact .inl (.inl rfl)
  rw [if_neg hkey]
  cases more with
  | nil => exact .inr ⟨by simp [not_lt.1 hkey], not_lt.1 hkey, _, rfl⟩
  | cons tok more =>
    dsimp only
    by_cases htok : tok ≠ ascii "0"
    · rw [if_pos htok]
      exact .inl (.inr rfl)
    · rw [if_neg htok]
      exact .inr ⟨by simpa [not_lt.1 hkey] using htok, not_lt.1 hkey, _, rfl⟩

end Delete

@[simp] theorem named_command (conn : Connect MemcacheServer) (request command : Bytes) :
    (conn.named request command).command = command := rfl

/-- A command that is no update is handled safely, but for a `delete` without a key. -/
theorem dispatch_handled (hready : conn.Ready) {command : Bytes} {args : List Bytes}
    (hcons : lineTokens request = command :: args) (hpolicy : policyOf command = .invalid)
    (hdelete : command = ascii "delete" → args ≠ []) :
    ∃ conn' reset, (conn.named request command).dispatch (MemcacheServer.owner hash startTime) args =
      some (conn', reset) ∧ Handled conn conn' request := by
  have hnot := not_takes hcons hpolicy
  unfold Connect.dispatch
  rw [named_command, if_neg (not_not.2 hpolicy)]
  by_cases hget : command = ascii "get" ∨ command = ascii "gets"
  · rw [if_pos hget]
    obtain ⟨ops, hops, sent, outputBuf, heq⟩ := @doGet_spec hash startTime (decide (command = ascii "gets"))
      (conn.named request command) args
    refine ⟨_, _, rfl, ?_⟩
    rw [heq]
    exact {
      keys := ⟨ops, rfl, hops⟩
      item := fun item hitem => by cases hitem.symm.trans hready.currItem
      discard := fun hne => absurd hready.bytesToDiscard hne
      numbers := fun policy args h => absurd h (hnot policy args)
      rejected := fun _ => rfl }
  rw [if_neg hget]
  by_cases hdel : command = ascii "delete"
  · rw [if_pos hdel]
    obtain ⟨key, more, rfl⟩ := List.exists_cons_of_ne_nil (hdelete hdel)
    rcases @doDelete_spec key more (MemcacheServer.owner hash startTime) (conn.named request command) with
      (heq | heq) | ⟨haccepted, hkey, msg, heq⟩
    · rw [heq]
      refine ⟨_, _, rfl, ?_⟩
      refine handled_reply hready hnot ?_ ?_ ?_ ?_ _ <;> rfl
    · rw [heq]
      refine ⟨_, _, rfl, ?_⟩
      refine handled_reply hready hnot ?_ ?_ ?_ ?_ _ <;> rfl
    · have hrejected : ¬Rejected request := fun h => by
        unfold Rejected at h
        rw [hcons] at h
        dsimp only at h
        rw [if_neg (not_not.2 hpolicy), if_neg hget, if_pos hdel] at h
        obtain ⟨key', more', hargs, hlong⟩ := h
        cases hargs
        exact haccepted hlong
      obtain ⟨sent, hreply⟩ := Connect.reply_eq ((conn.named request command).call
        ((MemcacheServer.owner hash startTime).deleteItem (conn.named request command).owner key).1
        (.delete key)) msg
      rw [heq, hreply]
      refine ⟨_, _, rfl, ⟨⟨[.delete key], rfl, ?_⟩, ?_, fun hne => absurd hready.bytesToDiscard hne,
        fun policy args h => absurd h (hnot policy args), fun h => absurd h hrejected⟩⟩
      · intro op hop key' hneedle
        obtain rfl := List.mem_singleton.1 hop
        cases hneedle
        exact hkey
      · exact fun item hitem => by cases hitem.symm.trans hready.currItem
  rw [if_neg hdel]
  split_ifs
  · refine ⟨_, _, rfl, ?_⟩
    refine handled_reply hready hnot ?_ ?_ ?_ ?_ _ <;> rfl
  · exact ⟨_, _, rfl, {
      keys := ⟨[], (List.append_nil _).symm, by simp⟩
      item := fun item hitem => by cases hitem.symm.trans hready.currItem
      discard := fun hne => absurd hready.bytesToDiscard hne
      numbers := fun policy args h => absurd h (hnot policy args)
      rejected := fun _ => rfl }⟩
  · exact ⟨_, _, rfl, {
      keys := ⟨[.stop], rfl, by simp [Op.needle]⟩
      item := fun item hitem => by cases hitem.symm.trans hready.currItem
      discard := fun hne => absurd hready.bytesToDiscard hne
      numbers := fun policy args h => absurd h (hnot policy args)
      rejected := fun _ => rfl }⟩
  · refine ⟨_, _, rfl, ?_⟩
    refine handled_reply hready hnot ?_ ?_ ?_ ?_ _ <;> rfl

/-- When a line is handled safely: a command that needs a key has one, and an update has no numbers that are read as
others. -/
theorem processRequest_handled_iff (hash : Bytes → ℕ) (startTime : ℤ) (conn : Connect MemcacheServer)
    (hready : conn.Ready) (request : Bytes) :
    (∃ conn' reset, conn.processRequest (MemcacheServer.owner hash startTime) request = some (conn', reset) ∧
        Handled conn conn' request) ↔ WellPosed request := by
  unfold WellPosed
  cases htokens : lineTokens request with
  | nil =>
    rw [processRequest_nil hready htokens]
    have hnot : ∀ policy args, ¬Takes request policy args := by
      rintro policy args ⟨command, key, hcons, -⟩
      rw [htokens] at hcons
      cases hcons
    refine iff_of_true ⟨_, _, rfl, ?_⟩ trivial
    refine handled_reply hready hnot ?_ ?_ ?_ ?_ _ <;> rfl
  | cons command args =>
    rw [processRequest_cons hready htokens]
    dsimp only
    by_cases hpolicy : policyOf command ≠ .invalid
    · rw [if_pos hpolicy, Connect.dispatch, named_command, if_pos hpolicy]
      cases args with
      | nil => simp [Connect.doUpdate]
      | cons key more => simpa using update_handled_iff hready htokens hpolicy
    · rw [if_neg hpolicy]
      by_cases hdelete : command = ascii "delete" → args ≠ []
      · exact iff_of_true (dispatch_handled hready htokens (not_not.1 hpolicy) hdelete) hdelete
      · -- the end of the tokens is read
        refine iff_of_false ?_ hdelete
        simp only [Classical.not_imp, not_not] at hdelete
        obtain ⟨rfl, rfl⟩ := hdelete
        rintro ⟨conn', reset, hdispatch, -⟩
        rw [Connect.dispatch, named_command, if_neg hpolicy, if_neg (by decide), if_pos rfl] at hdispatch
        cases hdispatch

theorem processRequest_handled_iff_set : ∃ conn' reset,
    firstSession.start.processRequest someOwner (ascii "set k 5 0 3") = some (conn', reset) ∧
      Handled firstSession.start conn' (ascii "set k 5 0 3") := by
  refine (processRequest_handled_iff (fun _ => 0) 0 firstSession.start (by decide) (ascii "set k 5 0 3")).2 ?_
  have htokens : lineTokens (ascii "set k 5 0 3") = [ascii "set", ascii "k", ascii "5", ascii "0", ascii "3"] := by
    decide
  unfold WellPosed
  rw [htokens]
  dsimp only
  rw [if_pos (by decide)]
  refine ⟨ascii "k", [ascii "5", ascii "0", ascii "3"], rfl, fun _ _ =>
    ⟨⟨?_, ?_, ?_, ?_⟩, 3, by decide, by decide, by decide⟩⟩
  · exact ⟨5, by decide, by decide, by decide⟩
  · exact ⟨0, by decide, by decide, by decide⟩
  · exact ⟨3, by decide, by decide, by decide⟩
  · exact fun hcas => absurd hcas (by decide)

/-- A `set` without a key reads the end of its tokens. -/
theorem processRequest_set : ¬∀ (hash : Bytes → ℕ) (startTime : ℤ) (conn : Connect MemcacheServer), conn.Ready →
    ∀ request, ∃ conn' reset,
      conn.processRequest (MemcacheServer.owner hash startTime) request = some (conn', reset) ∧
        Handled conn conn' request := by
  intro h
  obtain ⟨conn', reset, hline, -⟩ := h (fun _ => 0) 0 firstSession.start (by decide) (ascii "set")
  have hnone : firstSession.start.processRequest someOwner (ascii "set") = none := by decide
  exact absurd (hnone.symm.trans hline) (by simp)

end Lines

end Memcached
