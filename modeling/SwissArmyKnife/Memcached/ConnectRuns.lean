import SwissArmyKnife.Lib.Transition
import SwissArmyKnife.Memcached.Connect

/-!
# Commands on a connection

What a command does of itself is `perform`: its replies and its calls of the store come from its line, its data block
and the store.  A stream of commands is read, however it is cut, as one command after another is performed
(`onMessage_exact`), when the commands with a data block are accepted and no `get` is left with a part of its answer.
-/

namespace Memcached

open Ascii (ascii crlf)
open Decimal (isDigit isSpace number sign)
open Words (toInt toInt_eq)
open Transition (Outcome Meets run)

/-- A command, with the data block after its line. -/
structure Command where
  line : Bytes
  data : Bytes
deriving DecidableEq, Repr

def Command.encode (c : Command) : Bytes := c.line ++ crlf ++ c.data

def Command.tokens (c : Command) : List Bytes := Memcached.tokens (stripNoreply c.line).2

/-- The tokens that a command needs are there, and an update has as many bytes of data as it says, with two more. -/
def Command.Complete (c : Command) : Prop :=
  match c.tokens with
  | [] => c.data = []
  | command :: args =>
    if policyOf command ≠ .invalid then
      match args with
      | _ :: _ :: _ :: bytes :: more => (policyOf command = .cas → more ≠ []) ∧ bytes ≠ [] ∧ bytes.all isDigit ∧
          c.data.length = number bytes + 2
      | _ => False
    else c.data = [] ∧ (command = ascii "delete" → args ≠ [])

instance (c : Command) : Decidable c.Complete := by
  unfold Command.Complete
  cases c.tokens with
  | nil => exact inferInstanceAs (Decidable (c.data = []))
  | cons command args =>
    rcases args with _ | ⟨_, _ | ⟨_, _ | ⟨_, _ | ⟨_, _⟩⟩⟩⟩ <;> dsimp only <;> infer_instance

structure Command.WellFormed (c : Command) : Prop where
  free : Lines.Free crlf c.line
  length : c.line.length + 2 ≤ 1024
  complete : c.Complete

instance (c : Command) : Decidable c.WellFormed :=
  decidable_of_iff (Lines.Free crlf c.line ∧ c.line.length + 2 ≤ 1024 ∧ c.Complete)
    ⟨fun ⟨hfree, hlength, hcomplete⟩ => ⟨hfree, hlength, hcomplete⟩, fun h => ⟨h.free, h.length, h.complete⟩⟩

section Owner

variable {σ : Type*} (owner : Owner σ)

/-- No key that is found comes before one that is too long. -/
def GetClean : σ → List Bytes → Prop
  | _, [] => True
  | s, key :: keys => key.length ≤ kLongestKeySize →
      if (owner.getItem s key).2.isSome then ∀ key' ∈ keys, key'.length ≤ kLongestKeySize
      else GetClean (owner.getItem s key).1 keys

/-- An update has a short key, numbers and fewer than 2 ^ 31 bytes of data, and storing it does not end the program; a
`get` does not stop after it has found a key. -/
def Good (s : σ) (c : Command) : Prop :=
  match c.tokens with
  | [] => True
  | command :: args =>
    if policyOf command ≠ .invalid then
      match args with
      | [] => True
      | key :: args => key.length ≤ kLongestKeySize ∧ (readArgs (policyOf command) args).isSome ∧
          c.data.length < 2 ^ 31 ∧
          ∀ item : ConstItem, item.key = key → item.1.value = c.data →
          owner.storeItem s item (policyOf command) ≠ none
    else if command = ascii "get" ∨ command = ascii "gets" then GetClean owner s args
    else True

/-! ### One command -/

/-- What is left of a connection between two commands. -/
structure Session (σ : Type*) where
  owner : σ
  connected : Bool
  sent : Bytes
  ops : List Op

/-- A connection in which no command has begun. -/
def Session.start (s : Session σ) : Connect σ :=
  ⟨s.owner, s.connected, s.sent, s.ops, .newCommand, [], false, .invalid, none, 0, [], false⟩

def Connect.session (conn : Connect σ) : Session σ := ⟨conn.owner, conn.connected, conn.sent, conn.ops⟩

/-- The data block is the value that is waited for, or it is dropped. -/
def Connect.complete (conn : Connect σ) (data : Bytes) : Option (Connect σ) :=
  match conn.state with
  | .receiveValue => conn.currItem.bind fun item => (item.append data).bind (conn.finishValue owner)
  | _ => some { conn.resetRequest with state := .newCommand }

def Connect.execute (conn : Connect σ) (c : Command) : Option (Connect σ) :=
  (conn.processRequest owner c.line).bind fun r => r.1.complete owner c.data

/-- What a command does of itself, with nothing of the commands before it but the store. -/
def Session.perform (s : Session σ) (c : Command) : Option (Session σ) :=
  ((Session.start ⟨s.owner, s.connected, [], []⟩).execute owner c).map fun conn =>
    ⟨conn.owner, conn.connected, s.sent ++ conn.sent, s.ops ++ conn.ops⟩

def performStep (s : Session σ) (c : Command) : Outcome (Session σ) := .ofOption (s.perform owner c)

/-- The bytes of the commands are read, however they are cut, as one command after another is performed. -/
def Exact (s : Session σ) (commands : List Command) : Prop :=
  ∀ chunks : List Bytes, chunks.flatten = (commands.map Command.encode).flatten →
    ∃ s', run (performStep owner) s commands = .next s' ∧
      Chunks.feedAll (Connect.onMessage owner) (s.start, []) chunks = (s'.start, [])

end Owner

/-! ### What came before makes no difference -/

namespace Connect

variable {σ : Type*} {owner : Owner σ} {conn : Connect σ}

/-- The connection after other commands. -/
def after (conn : Connect σ) (sent : Bytes) (ops : List Op) : Connect σ :=
  { conn with sent := sent ++ conn.sent, ops := ops ++ conn.ops }

variable (sent : Bytes) (ops : List Op)

@[simp] theorem send_after (msg : Bytes) : (conn.after sent ops).send msg = (conn.send msg).after sent ops := by
  unfold send after
  split_ifs <;> simp

@[simp] theorem reply_after (msg : Bytes) : (conn.after sent ops).reply msg = (conn.reply msg).after sent ops := by
  unfold reply
  rw [send_after]
  change (if conn.noreply = true then _ else _) = _
  split_ifs <;> rfl

@[simp] theorem call_after (s : σ) (op : Op) : (conn.after sent ops).call s op = (conn.call s op).after sent ops := by
  simp [call, after]

private theorem doUpdate_after (args : List Bytes) :
    (conn.after sent ops).doUpdate owner args =
      (conn.doUpdate owner args).map fun r => (r.1.after sent ops, r.2) := by
  have hpolicy : { conn.after sent ops with policy := policyOf (conn.after sent ops).command } =
      ({ conn with policy := policyOf conn.command } : Connect σ).after sent ops := rfl
  unfold doUpdate
  rw [hpolicy]
  generalize { conn with policy := policyOf conn.command } = conn
  cases args with
  | nil => rfl
  | cons key args =>
    dsimp only
    rw [show (conn.after sent ops).policy = conn.policy from rfl, reply_after, reply_after]
    cases (if key.length ≤ kLongestKeySize then readArgs conn.policy args else none) with
    | none => rfl
    | some a =>
      dsimp only
      split_ifs
      · rw [call_after]
        rfl
      · rw [Option.map_map]
        rfl

private theorem getItems_after (cas : Bool) (keys : List Bytes) :
    getItems owner cas (conn.after sent ops) keys =
      ((getItems owner cas conn keys).1.after sent ops, (getItems owner cas conn keys).2) := by
  induction keys generalizing conn with
  | nil => rfl
  | cons key keys ih =>
    rw [getItems, getItems]
    split_ifs with hkey
    · dsimp only
      rw [call_after, ← ih]
      rfl
    · rw [reply_after]

private theorem doGet_after (cas : Bool) (keys : List Bytes) :
    (conn.after sent ops).doGet owner cas keys = (conn.doGet owner cas keys).after sent ops := by
  unfold doGet
  rw [getItems_after]
  dsimp only
  split_ifs
  · rw [send_after]
    rfl
  · rfl

private theorem doDelete_after (args : List Bytes) :
    (conn.after sent ops).doDelete owner args = (conn.doDelete owner args).map fun conn => conn.after sent ops := by
  have hdelete : ∀ key, doDelete.delete owner (conn.after sent ops) key =
      (doDelete.delete owner conn key).after sent ops := by
    intro key
    unfold doDelete.delete
    dsimp only
    rw [call_after, reply_after]
    rfl
  unfold doDelete
  cases args with
  | nil => rfl
  | cons key args =>
    dsimp only
    rw [reply_after, reply_after, hdelete]
    split_ifs
    · rfl
    · cases args with
      | nil => rfl
      | cons tok args =>
        dsimp only
        split_ifs <;> rfl

private theorem dispatch_after (args : List Bytes) :
    (conn.after sent ops).dispatch owner args =
      (conn.dispatch owner args).map fun r => (r.1.after sent ops, r.2) := by
  unfold dispatch
  rw [doUpdate_after, doGet_after, doDelete_after, reply_after, reply_after,
    show (conn.after sent ops).command = conn.command from rfl]
  split_ifs
  · rfl
  · rfl
  · rw [Option.map_map, Option.map_map]
    rfl
  · rfl
  · rfl
  · simp [after]
  · rfl

private theorem processRequest_after (request : Bytes) :
    (conn.after sent ops).processRequest owner request =
      (conn.processRequest owner request).map fun r => (r.1.after sent ops, r.2) := by
  have hready : (conn.after sent ops).Ready ↔ conn.Ready :=
    ⟨fun h => ⟨h.command, h.noreply, h.policy, h.currItem, h.bytesToDiscard⟩,
      fun h => ⟨h.command, h.noreply, h.policy, h.currItem, h.bytesToDiscard⟩⟩
  unfold processRequest
  rw [if_congr hready rfl rfl]
  split_ifs
  · dsimp only
    cases tokens (stripNoreply request).2 with
    | nil =>
      change some (({ conn with noreply := _ } : Connect σ).after sent ops |>.reply _, true) = _
      rw [reply_after]
      rfl
    | cons command args =>
      exact @dispatch_after _ owner { conn with noreply := (stripNoreply request).1, command := command } sent ops
        args
  · rfl

private theorem finishValue_after (item : Item) :
    (conn.after sent ops).finishValue owner item =
      (conn.finishValue owner item).map fun conn => conn.after sent ops := by
  unfold finishValue
  dsimp only
  rw [show (conn.after sent ops).policy = conn.policy from rfl,
    show (conn.after sent ops).owner = conn.owner from rfl]
  simp only [call_after, reply_after]
  by_cases hcomplete : item.Complete
  · rw [dif_pos hcomplete, dif_pos hcomplete, Option.map_map, Option.map_map, Option.map_map]
    rfl
  · rw [dif_neg hcomplete, dif_neg hcomplete]
    rfl

theorem execute_after (c : Command) :
    (conn.after sent ops).execute owner c = (conn.execute owner c).map fun conn => conn.after sent ops := by
  unfold execute
  rw [processRequest_after]
  cases conn.processRequest owner c.line with
  | none => rfl
  | some r =>
    rw [Option.map_some, Option.bind_some, Option.bind_some]
    unfold complete
    dsimp only
    rw [show (r.1.after sent ops).state = r.1.state from rfl,
      show (r.1.after sent ops).currItem = r.1.currItem from rfl]
    cases r.1.state with
    | receiveValue =>
      cases r.1.currItem with
      | none => rfl
      | some item =>
        dsimp only [Option.bind_some]
        cases item.append c.data with
        | none => rfl
        | some item => exact finishValue_after sent ops item
    | newCommand => rfl
    | discardValue => rfl

end Connect

variable {σ : Type*} {owner : Owner σ} {s : Session σ}

theorem perform_eq (c : Command) : s.perform owner c = (s.start.execute owner c).map Connect.session := by
  have hstart : s.start = (Session.start ⟨s.owner, s.connected, [], []⟩).after s.sent s.ops := by
    simp [Session.start, Connect.after]
  rw [hstart, Connect.execute_after, Option.map_map]
  rfl

/-! ### The line of a command -/

namespace Connect

variable (conn : Connect σ)

theorem reply_eq (msg : Bytes) : ∃ sent, conn.reply msg = { conn with sent := sent } := by
  unfold reply send
  split_ifs
  · exact ⟨conn.sent, rfl⟩
  · exact ⟨conn.sent ++ msg, rfl⟩
  · exact ⟨conn.sent, rfl⟩

/-- No answer is left in the buffer. -/
structure Clean : Prop where
  outputBuf : conn.outputBuf = []
  aborted : conn.aborted = false

variable {conn}

theorem Clean.reply (h : conn.Clean) (msg : Bytes) : (conn.reply msg).Clean := by
  obtain ⟨sent, heq⟩ := conn.reply_eq msg
  rw [heq]
  exact ⟨h.outputBuf, h.aborted⟩

@[simp] theorem state_reply (msg : Bytes) : (conn.reply msg).state = conn.state := by
  obtain ⟨sent, heq⟩ := conn.reply_eq msg
  rw [heq]

@[simp] theorem currItem_reply (msg : Bytes) : (conn.reply msg).currItem = conn.currItem := by
  obtain ⟨sent, heq⟩ := conn.reply_eq msg
  rw [heq]

/-- A connection that is reset can begin with the next command. -/
theorem Clean.reset (h : conn.Clean) : { conn.resetRequest with state := .newCommand } = conn.session.start := by
  unfold resetRequest session Session.start
  rw [h.outputBuf, h.aborted]

end Connect

/-- The digits of a number are read as that number. -/
theorem strtoull_digits {tok : Bytes} (hne : tok ≠ []) (hdigits : tok.all isDigit) (hbound : number tok < 2 ^ 64) :
    strtoull tok = some (UInt64.ofNat (number tok)) := by
  cases tok with
  | nil => exact absurd rfl hne
  | cons d ds =>
    have hd : isDigit d = true := List.all_eq_true.1 hdigits d (List.mem_cons_self ..)
    obtain ⟨hspace, hminus, hplus, -⟩ := Decimal.isDigit_cases hd
    unfold strtoull
    rw [List.dropWhile_cons_of_neg (by simp [hspace]), sign, if_neg hminus, if_neg hplus]
    dsimp only
    rw [if_pos ⟨hne, hdigits⟩, if_pos hbound]
    rfl

/-- The byte count is what its token is read as. -/
theorem bytes_of_readArgs {policy : UpdatePolicy} {flags exptime bytes : Bytes} {more : List Bytes} {a : UpdateArgs}
    {x : UInt64} (h : readArgs policy (flags :: exptime :: bytes :: more) = some a)
    (hread : strtoull bytes = some x) :
    a.bytes = toInt (x.toNat : ℤ) := by
  unfold readArgs at h
  simp only [read] at h
  cases hflags : strtoull flags with
  | none => simp [hflags] at h
  | some y =>
    cases hexptime : strtoull exptime with
    | none => simp [hflags, hexptime] at h
    | some z =>
      simp only [hflags, hexptime, hread, Option.map_some, Option.bind_some] at h
      split_ifs at h
      · obtain ⟨r, -, rfl⟩ := Option.map_eq_some_iff.1 h
        dsimp only
      · cases h
        dsimp only

/-- The byte count is the number in its token. -/
private theorem bytes_of_digits {policy : UpdatePolicy} {flags exptime bytes : Bytes}
    {more : List Bytes} {a : UpdateArgs}
    (h : readArgs policy (flags :: exptime :: bytes :: more) = some a) (hne : bytes ≠ [])
    (hdigits : bytes.all isDigit)
    (hbound : number bytes < 2 ^ 31) : a.bytes = number bytes := by
  have hlt : number bytes < 2 ^ 64 := by omega
  rw [bytes_of_readArgs h (strtoull_digits hne hdigits hlt), UInt64.toNat_ofNat_of_lt' hlt]
  exact toInt_eq (by omega) (by omega)

/-- What a connection waits for after the line of a command with the given data block. -/
def Awaits (owner : Owner σ) (conn : Connect σ) (reset : Bool) (data : Bytes) : Prop :=
  match conn.state with
  | .newCommand => reset = true ∧ data = []
  | .discardValue => reset = false ∧ conn.currItem = none ∧ conn.bytesToDiscard = data.length ∧ 2 ≤ data.length
  | .receiveValue => reset = false ∧ ∃ item, conn.currItem = some item ∧ item.value = [] ∧
      item.valueLen = data.length ∧
      2 ≤ data.length ∧ item.key.length + item.valueLen < 2 ^ 31 ∧
      ∀ h : Item.Complete { item with value := data }, owner.storeItem conn.owner ⟨_, h⟩ conn.policy ≠ none

private theorem doUpdate_awaits {conn : Connect σ} {key flags exptime bytes data : Bytes} {more : List Bytes}
    (hclean : conn.Clean) (hitem : conn.currItem = none) (hkey : key.length ≤ kLongestKeySize)
    (hargs : (readArgs (policyOf conn.command) (flags :: exptime :: bytes :: more)).isSome) (hne : bytes ≠ [])
    (hdigits : bytes.all isDigit) (hdata : data.length = number bytes + 2) (hbound : data.length < 2 ^ 31)
    (hstore : ∀ item : ConstItem, item.key = key → item.1.value = data →
      owner.storeItem conn.owner item (policyOf conn.command) ≠ none) :
    ∃ conn' reset, conn.doUpdate owner (key :: flags :: exptime :: bytes :: more) = some (conn', reset) ∧
    conn'.Clean ∧
      Awaits owner conn' reset data := by
  obtain ⟨a, ha⟩ := Option.isSome_iff_exists.1 hargs
  have hbytes := bytes_of_digits ha hne hdigits (by omega)
  have htoInt : toInt (a.bytes + 2) = data.length := by
    rw [hbytes, toInt_eq (by omega) (by omega), hdata]
    rfl
  unfold Connect.doUpdate
  dsimp only
  rw [if_pos hkey, ha]
  dsimp only
  rw [htoInt]
  split_ifs with hlarge
  · refine ⟨_, _, rfl, ?_, ?_⟩
    · have hreply := @Connect.Clean.reply _ { conn with policy := policyOf conn.command }
        ⟨hclean.outputBuf, hclean.aborted⟩ (ascii "SERVER_ERROR object too large for cache\r\n")
      exact ⟨hreply.outputBuf, hreply.aborted⟩
    · refine ⟨rfl, (Connect.currItem_reply _).trans hitem, ?_, by omega⟩
      dsimp only
      omega
  · have hlength : data.length ≤ 1024 * 1024 + 2 := by
      rw [hbytes] at hlarge
      omega
    have hfits : (key.length : ℤ) + data.length < 2 ^ 31 := by
      unfold kLongestKeySize at hkey
      omega
    rw [Item.makeItem_of_fits (by omega) hfits]
    refine ⟨_, _, rfl, ⟨hclean.outputBuf, hclean.aborted⟩, rfl, _, rfl, rfl, rfl, by omega, hfits, ?_⟩
    exact fun h => hstore ⟨_, h⟩ rfl rfl

/-- What `getItems` leaves as it is. -/
private theorem getItems_same (cas : Bool) (conn : Connect σ) (keys : List Bytes) :
    (Connect.getItems owner cas conn keys).1.state = conn.state ∧
      (Connect.getItems owner cas conn keys).1.aborted = conn.aborted := by
  induction keys generalizing conn with
  | nil => exact ⟨rfl, rfl⟩
  | cons key keys ih =>
    rw [Connect.getItems]
    split_ifs
    · exact ih _
    · obtain ⟨sent, heq⟩ := conn.reply_eq badFormat
      rw [heq]
      exact ⟨rfl, rfl⟩

private theorem getItems_short (cas : Bool) (conn : Connect σ) {keys : List Bytes}
    (h : ∀ key ∈ keys, key.length ≤ kLongestKeySize) : (Connect.getItems owner cas conn keys).2 = true := by
  induction keys generalizing conn with
  | nil => rfl
  | cons key keys ih =>
    rw [Connect.getItems, if_pos (h key (List.mem_cons_self ..))]
    exact ih _ fun key' hkey' => h key' (List.mem_cons_of_mem key hkey')

private theorem getItems_clean (cas : Bool) {conn : Connect σ} {keys : List Bytes} (hbuf : conn.outputBuf = [])
    (h : GetClean owner conn.owner keys) :
    (Connect.getItems owner cas conn keys).2 = true ∨ (Connect.getItems owner cas conn keys).1.outputBuf = [] := by
  induction keys generalizing conn with
  | nil => exact .inl rfl
  | cons key keys ih =>
    rw [Connect.getItems]
    split_ifs with hkey
    · have hnext := h hkey
      split_ifs at hnext with hfound
      · exact .inl (getItems_short cas _ hnext)
      · refine ih ?_ hnext
        rw [Bool.not_eq_true, Option.isSome_eq_false_iff, Option.isNone_iff_eq_none] at hfound
        dsimp only
        rw [hfound, hbuf]
        rfl
    · obtain ⟨sent, heq⟩ := conn.reply_eq badFormat
      rw [heq]
      exact .inr hbuf

private theorem doGet_clean (cas : Bool) {conn : Connect σ} {keys : List Bytes} (hclean : conn.Clean)
    (h : GetClean owner conn.owner keys) :
    (conn.doGet owner cas keys).Clean ∧ (conn.doGet owner cas keys).state = conn.state := by
  obtain ⟨hstate, haborted⟩ := @getItems_same _ owner cas conn keys
  have hsend : ∀ (conn : Connect σ) (msg : Bytes), (conn.send msg).state = conn.state ∧
      (conn.send msg).aborted = conn.aborted := by
    intro conn msg
    unfold Connect.send
    split_ifs <;> exact ⟨rfl, rfl⟩
  unfold Connect.doGet
  dsimp only
  split_ifs with hall
  · obtain ⟨hstate', haborted'⟩ := hsend (Connect.getItems owner cas conn keys).1
      ((Connect.getItems owner cas conn keys).1.outputBuf ++ ascii "END\r\n")
    exact ⟨⟨rfl, (haborted'.trans haborted).trans hclean.aborted⟩, hstate'.trans hstate⟩
  · rcases getItems_clean cas hclean.outputBuf h with hgood | hempty
    · exact absurd hgood hall
    · exact ⟨⟨hempty, haborted.trans hclean.aborted⟩, hstate⟩

private theorem doDelete_clean {conn : Connect σ} {args : List Bytes} (hclean : conn.Clean) (hargs : args ≠ []) :
    ∃ conn', conn.doDelete owner args = some conn' ∧ conn'.Clean ∧ conn'.state = conn.state := by
  have hreply : ∀ msg, (conn.reply msg).Clean ∧ (conn.reply msg).state = conn.state :=
    fun msg => ⟨hclean.reply msg, Connect.state_reply msg⟩
  have hdelete : ∀ key, (Connect.doDelete.delete owner conn key).Clean ∧
      (Connect.doDelete.delete owner conn key).state = conn.state :=
    fun key => ⟨@Connect.Clean.reply _ (conn.call (owner.deleteItem conn.owner key).1 (.delete key))
      ⟨hclean.outputBuf, hclean.aborted⟩ _, Connect.state_reply _⟩
  cases args with
  | nil => exact absurd rfl hargs
  | cons key args =>
    unfold Connect.doDelete
    dsimp only
    split_ifs
    · exact ⟨_, rfl, hreply _⟩
    · cases args with
      | nil => exact ⟨_, rfl, hdelete key⟩
      | cons tok args =>
        dsimp only
        split_ifs
        · exact ⟨_, rfl, hreply _⟩
        · exact ⟨_, rfl, hdelete key⟩

/-- A command without a data block leaves the connection ready for the next one. -/
private theorem dispatch_clean {conn : Connect σ} {args : List Bytes} (hclean : conn.Clean)
    (hupdate : policyOf conn.command = .invalid)
    (hget : conn.command = ascii "get" ∨ conn.command = ascii "gets" → GetClean owner conn.owner args)
    (hdelete : conn.command = ascii "delete" → args ≠ []) :
    ∃ conn', conn.dispatch owner args = some (conn', true) ∧ conn'.Clean ∧ conn'.state = conn.state := by
  unfold Connect.dispatch
  rw [if_neg (not_not.2 hupdate)]
  split_ifs with hget' hdelete'
  · exact ⟨_, rfl, doGet_clean _ hclean (hget hget')⟩
  · obtain ⟨conn', heq, hconn'⟩ := @doDelete_clean _ owner _ _ hclean (hdelete hdelete')
    rw [heq]
    exact ⟨_, rfl, hconn'⟩
  · exact ⟨_, rfl, hclean.reply _, Connect.state_reply _⟩
  · exact ⟨_, rfl, ⟨hclean.outputBuf, hclean.aborted⟩, rfl⟩
  · exact ⟨_, rfl, ⟨hclean.outputBuf, hclean.aborted⟩, rfl⟩
  · exact ⟨_, rfl, hclean.reply _, Connect.state_reply _⟩

/-- What follows the line of a command. -/
private theorem processRequest_awaits {c : Command} (hcomplete : c.Complete) (hgood : Good owner s.owner c) :
    ∃ conn reset, s.start.processRequest owner c.line = some (conn, reset) ∧ conn.Clean ∧
      Awaits owner conn reset c.data := by
  have hready : s.start.Ready := ⟨rfl, rfl, rfl, rfl, rfl⟩
  have hstart : ∀ noreply command, Connect.Clean { s.start with noreply := noreply, command := command } :=
    fun _ _ => ⟨rfl, rfl⟩
  unfold Command.Complete at hcomplete
  unfold Good at hgood
  unfold Command.tokens at hcomplete hgood
  unfold Connect.processRequest
  rw [if_pos hready]
  dsimp only
  cases htokens : tokens (stripNoreply c.line).2 with
  | nil =>
    rw [htokens] at hcomplete
    refine ⟨_, _, rfl, (hstart _ _).reply _, ?_⟩
    unfold Awaits
    rw [Connect.state_reply]
    exact ⟨rfl, hcomplete⟩
  | cons command args =>
    rw [htokens] at hcomplete hgood
    dsimp only at hcomplete hgood ⊢
    by_cases hupdate : policyOf command ≠ .invalid
    · rw [if_pos hupdate] at hcomplete hgood
      unfold Connect.dispatch
      rw [if_pos hupdate]
      match args, hcomplete, hgood with
      | key :: flags :: exptime :: bytes :: more, ⟨_, hne, hdigits, hdata⟩, ⟨hkey, hargs, hbound, hstore⟩ =>
        exact doUpdate_awaits (hstart _ _) rfl hkey hargs hne hdigits hdata hbound hstore
    · rw [if_neg hupdate] at hcomplete hgood
      have hget : command = ascii "get" ∨ command = ascii "gets" → GetClean owner s.owner args := by
        intro hget
        rwa [if_pos hget] at hgood
      obtain ⟨conn, heq, hclean, hstate⟩ := @dispatch_clean _ owner _ args
        (hstart (stripNoreply c.line).1 command) (not_not.1 hupdate) hget hcomplete.2
      refine ⟨conn, true, heq, hclean, ?_⟩
      unfold Awaits
      rw [hstate]
      exact ⟨rfl, hcomplete.1⟩

/-! ### The data block -/

/-- A data block that is dropped, in any pieces. -/
private theorem takes_discard {conn : Connect σ} {data : Bytes} (hclean : conn.Clean)
    (hstate : conn.state = .discardValue)
    (hitem : conn.currItem = none) :
    Chunks.Takes (Connect.onMessage owner)
      (fun front => { conn with bytesToDiscard := data.length - front.length }) data
      conn.session.start := by
  refine ⟨?_, ?_⟩
  · intro front piece back hdata hpiece hback
    have hlength : data.length = front.length + piece.length + back.length := by
      rw [hdata, List.length_append, List.length_append]
    have hpos := List.length_pos_of_ne_nil hback
    simp only [Connect.onMessage, hclean.aborted, hstate, Connect.discardValue, hitem, List.length_append]
    rw [if_neg (by simp), if_neg (by simp), if_pos (by omega), Nat.sub_sub]
  · intro front back hdata hback rest
    have hlength : data.length - front.length = back.length := by
      rw [hdata, List.length_append]
      omega
    simp only [Connect.onMessage, hclean.aborted, hstate, Connect.discardValue, hitem, hlength]
    rw [if_neg (by simp), if_neg (by simp), if_neg (by rw [List.length_append]; omega), List.drop_left]
    unfold Connect.resetRequest Connect.session Session.start
    dsimp only
    rw [hclean.outputBuf]

/-- The item that waits makes no difference to what follows it. -/
private theorem finishValue_item (conn : Connect σ) (currItem : Option Item) (item : Item) :
    Connect.finishValue owner { conn with currItem := currItem } item = conn.finishValue owner item := by
  have hreset : ∀ (conn : Connect σ) (currItem : Option Item) (msg : Bytes),
      (Connect.reply { conn with currItem := currItem } msg).resetRequest = (conn.reply msg).resetRequest := by
    intro conn currItem msg
    unfold Connect.reply Connect.send
    dsimp only
    split_ifs <;> rfl
  unfold Connect.finishValue
  dsimp only
  by_cases hcomplete : item.Complete
  · rw [dif_pos hcomplete, dif_pos hcomplete, Option.map_map, Option.map_map]
    congr 1
    funext r
    exact congrArg (fun conn : Connect σ => { conn with state := .newCommand }) (hreset (conn.call r.1 _) currItem _)
  · rw [dif_neg hcomplete, dif_neg hcomplete]
    exact congrArg (fun conn : Connect σ => some { conn with state := .newCommand }) (hreset conn currItem _)

/-- A part of the value, or the rest of it. -/
private theorem receiveValue_part {conn : Connect σ} {item item' : Item} {piece : Bytes}
    (hitem : conn.currItem = some item)
    (happend : item.append piece = some item') (hneeded : piece.length ≤ item.neededBytes)
    (hneeded' : item'.neededBytes ≠ 0) :
    conn.receiveValue owner piece = some ({ conn with currItem := some item' }, []) := by
  have havail : min piece.length item.neededBytes.toNat = piece.length := by omega
  unfold Connect.receiveValue
  rw [hitem, Option.bind_some]
  dsimp only
  rw [havail, List.take_length, List.drop_length, happend, Option.bind_some, if_neg hneeded']

private theorem receiveValue_whole {conn conn' : Connect σ} {item item' : Item} {back : Bytes} (rest : Bytes)
    (hitem : conn.currItem = some item) (happend : item.append back = some item')
    (hneeded : item.neededBytes = back.length) (hneeded' : item'.neededBytes = 0)
    (hdone : conn.finishValue owner item' = some conn') :
    conn.receiveValue owner (back ++ rest) = some (conn', rest) := by
  have havail : min (back ++ rest).length item.neededBytes.toNat = back.length := by
    rw [List.length_append]
    omega
  unfold Connect.receiveValue
  rw [hitem, Option.bind_some]
  dsimp only
  rw [havail, List.take_left, List.drop_left, happend, Option.bind_some, if_pos hneeded', hdone]
  rfl

private theorem onMessage_receive {conn conn' : Connect σ} {buf rest : Bytes} (haborted : conn.aborted = false)
    (hstate : conn.state = .receiveValue) (h : conn.receiveValue owner buf = some (conn', rest)) :
    conn.onMessage owner buf = .next conn' rest := by
  unfold Connect.onMessage
  rw [haborted, hstate]
  dsimp only
  rw [if_neg (by decide), h]

/-- A data block that is the value of an item, in any pieces. -/
private theorem takes_receive {conn conn' : Connect σ} {item : Item} {data : Bytes} (hclean : conn.Clean)
    (hstate : conn.state = .receiveValue) (hlen : item.valueLen = data.length)
    (hfits : item.key.length + item.valueLen < 2 ^ 31)
    (hdone : conn.finishValue owner { item with value := data } = some conn') :
    Chunks.Takes (Connect.onMessage owner)
      (fun front => { conn with currItem := some { item with value := front } }) data
      conn' := by
  have hneeded : ∀ front : Bytes, Item.neededBytes { item with value := front } = data.length - front.length := by
    intro front
    have htotal := Item.totalLen_of_fits (show 0 ≤ item.valueLen by omega) hfits
    change item.totalLen - (item.key.length + front.length) = _
    rw [htotal]
    omega
  have happend : ∀ front piece : Bytes, front.length + piece.length ≤ data.length →
      Item.append { item with value := front } piece = some { item with value := front ++ piece } := by
    intro front piece hle
    exact Item.append_of_fits piece (show 0 ≤ item.valueLen by omega) hfits
      (show (front.length : ℤ) + piece.length ≤ item.valueLen by omega)
  refine ⟨?_, ?_⟩
  · intro front piece back hdata _ hback
    have hlength : data.length = front.length + piece.length + back.length := by
      rw [hdata, List.length_append, List.length_append]
    have hpos := List.length_pos_of_ne_nil hback
    have hpart := @receiveValue_part _ owner { conn with currItem := some { item with value := front } } _ _ piece rfl
      (happend front piece (by omega)) (by rw [hneeded]; omega) (by rw [hneeded, List.length_append]; omega)
    exact onMessage_receive hclean.aborted hstate hpart
  · intro front back hdata _ rest
    have hlength : data.length = front.length + back.length := by rw [hdata, List.length_append]
    rw [← finishValue_item conn (some { item with value := front }), hdata] at hdone
    have hwhole := receiveValue_whole rest rfl (happend front back (by omega)) (by rw [hneeded]; omega)
      (by rw [hneeded, List.length_append]; omega) hdone
    exact onMessage_receive hclean.aborted hstate hwhole

/-! ### Streams of commands -/

/-- The call of the store ends, and the connection is ready for the next command. -/
private theorem finishValue_some {conn : Connect σ} {item : Item} (hclean : conn.Clean)
    (hstore : ∀ h : item.Complete, owner.storeItem conn.owner ⟨item, h⟩ conn.policy ≠ none) :
    ∃ conn', conn.finishValue owner item = some conn' ∧ conn' = conn'.session.start := by
  unfold Connect.finishValue
  dsimp only
  by_cases hcomplete : item.Complete
  · obtain ⟨r, hr⟩ := Option.ne_none_iff_exists'.1 (hstore hcomplete)
    have hcall : (conn.call r.1 (.store item conn.policy)).Clean := ⟨hclean.outputBuf, hclean.aborted⟩
    rw [dif_pos hcomplete, hr, Option.map_some, Option.map_some]
    exact ⟨_, rfl, (hcall.reply _).reset⟩
  · rw [dif_neg hcomplete]
    exact ⟨_, rfl, (hclean.reply _).reset⟩

/-- A command is read as it is performed. -/
private theorem reads_command {c : Command} (hwf : c.WellFormed) (hgood : Good owner s.owner c) :
    ∃ s', s.perform owner c = some s' ∧ ∀ t stream, Chunks.Reads (Connect.onMessage owner) t s'.start stream →
      Chunks.Reads (Connect.onMessage owner) t s.start (c.encode ++ stream) := by
  obtain ⟨conn, reset, hline, hclean, hawaits⟩ := processRequest_awaits hwf.complete hgood
  -- the line
  have hwhole : ∀ rest, Connect.onMessage owner s.start (c.line ++ crlf ++ rest) =
      .next (if reset then conn.resetRequest else conn) rest := by
    intro rest
    simp only [Connect.onMessage, Session.start, hwf.free.find rest]
    rw [List.append_assoc, List.take_left, ← List.append_assoc,
      show c.line.length + 2 = (c.line ++ crlf).length by rw [List.length_append]; rfl, List.drop_left]
    rw [if_neg (by simp)]
    rw [Session.start] at hline
    rw [hline]
  have hpart : ∀ buf, buf <+: c.line ++ crlf → buf.length < (c.line ++ crlf).length →
      Connect.onMessage owner s.start buf = .wait := by
    intro buf hbuf hlt
    have hlength : (c.line ++ crlf).length = c.line.length + 2 := List.length_append
    have := hwf.length
    simp only [Connect.onMessage, Session.start, hwf.free.find_part hbuf hlt]
    rw [if_neg (by simp), if_neg (by omega)]
  have hreads : ∀ t stream, Chunks.Reads (Connect.onMessage owner) t (if reset then conn.resetRequest else conn)
      (c.data ++ stream) → Chunks.Reads (Connect.onMessage owner) t s.start (c.encode ++ stream) := by
    intro t stream h
    rw [Command.encode, List.append_assoc]
    exact .line (by simp [crlf]) hwhole hpart h
  rw [perform_eq]
  unfold Connect.execute
  rw [hline, Option.bind_some]
  unfold Awaits at hawaits
  unfold Connect.complete
  dsimp only
  -- the data block
  cases hstate : conn.state with
  | newCommand =>
    rw [hstate] at hawaits
    obtain ⟨rfl, hdata⟩ := hawaits
    rw [if_pos rfl, hdata] at hreads
    have hreset : conn.resetRequest = conn.session.start := by
      rw [← hclean.reset, ← hstate]
      rfl
    refine ⟨conn.session, rfl, fun t stream h => hreads t stream ?_⟩
    rwa [List.nil_append, hreset]
  | discardValue =>
    rw [hstate] at hawaits
    obtain ⟨rfl, hitem, hbytes, hlength⟩ := hawaits
    rw [if_neg (by decide)] at hreads
    refine ⟨conn.session, rfl, fun t stream h => hreads t stream ?_⟩
    have hs : conn = { conn with bytesToDiscard := c.data.length - ([] : Bytes).length } := by
      rw [List.length_nil, Nat.sub_zero, ← hbytes]
    have htakes := @takes_discard _ owner conn ([] ++ c.data) hclean hstate hitem
    exact .block hs htakes (List.ne_nil_of_length_pos (by omega)) h
  | receiveValue =>
    rw [hstate] at hawaits
    obtain ⟨rfl, item, hitem, hvalue, hlen, hlength, hfits, hstore⟩ := hawaits
    rw [if_neg (by decide)] at hreads
    obtain ⟨conn', hdone, hstart⟩ := finishValue_some hclean hstore
    have happend := Item.append_of_fits c.data (show 0 ≤ item.valueLen by omega) hfits (by rw [hvalue, hlen]; simp)
    rw [hvalue, List.nil_append] at happend
    refine ⟨conn'.session, ?_, fun t stream h => hreads t stream ?_⟩
    · rw [hitem]
      simp only [Option.bind_some, happend, hdone, Option.map_some]
    · have hs : conn = { conn with currItem := some { item with value := [] } } := by
        rw [← hvalue, ← hitem]
      rw [← hstart] at h
      have htakes := @takes_receive _ owner conn conn' item ([] ++ c.data) hclean hstate hlen hfits hdone
      exact .block hs htakes (List.ne_nil_of_length_pos (by omega)) h

/-- However the stream is cut, the commands are performed one after another. -/
theorem onMessage_exact {commands : List Command} (hwf : ∀ c ∈ commands, c.WellFormed)
    (hmeets : Meets (performStep owner) (fun s c => Good owner s.owner c) s commands) : Exact owner s commands := by
  have hreads : ∃ s', run (performStep owner) s commands = .next s' ∧
      Chunks.Reads (Connect.onMessage owner) s'.start s.start (commands.map Command.encode).flatten := by
    induction commands generalizing s with
    | nil => exact ⟨s, rfl, .done⟩
    | cons c commands ih =>
      obtain ⟨s₁, hperform, hreads⟩ := reads_command (hwf c (List.mem_cons_self ..)) hmeets.1
      have hstep : performStep owner s c = .next s₁ := by
        unfold performStep
        rw [hperform]
        rfl
      obtain ⟨s', hrun, hrest⟩ := ih (fun c' hc' => hwf c' (List.mem_cons_of_mem c hc')) (hmeets.2 s₁ hstep)
      refine ⟨s', ?_, hreads _ _ hrest⟩
      rw [run, hstep]
      exact hrun
  obtain ⟨s', hrun, hreads⟩ := hreads
  intro chunks hchunks
  rw [← hchunks] at hreads
  exact ⟨s', hrun, hreads.feedAll_eq⟩

/-! ### A stream, and one that is not read as it should be -/

/-- An empty store. -/
def emptyServer : MemcacheServer := ⟨0, fun _ => []⟩

def someOwner : Owner MemcacheServer := MemcacheServer.owner (fun _ => 0) 0

def firstSession : Session MemcacheServer := ⟨emptyServer, true, [], []⟩

/-- A value is set and read. -/
def setGet : List Command := [⟨ascii "set k 5 0 3", ascii "abc\r\n"⟩, ⟨ascii "get k", []⟩]

private theorem good_set : Good someOwner emptyServer ⟨ascii "set k 5 0 3", ascii "abc\r\n"⟩ := by
  have htokens : Command.tokens ⟨ascii "set k 5 0 3", ascii "abc\r\n"⟩ =
      [ascii "set", ascii "k", ascii "5", ascii "0", ascii "3"] := by decide +kernel
  have hpolicy : policyOf (ascii "set") = .set := by decide +kernel
  unfold Good
  rw [htokens]
  dsimp only
  rw [hpolicy, if_pos (by decide)]
  refine ⟨by decide +kernel, by decide +kernel, by decide +kernel, ?_⟩
  intro item _ _
  unfold someOwner MemcacheServer.owner MemcacheServer.storeItem
  dsimp only
  cases emptyServer.getItem (fun _ => 0) item.key <;> simp

private theorem good_get (s : MemcacheServer) : Good someOwner s ⟨ascii "get k", []⟩ := by
  have htokens : Command.tokens ⟨ascii "get k", []⟩ = [ascii "get", ascii "k"] := by decide +kernel
  have hpolicy : policyOf (ascii "get") = .invalid := by decide +kernel
  unfold Good
  rw [htokens]
  dsimp only
  rw [hpolicy, if_neg (by decide), if_pos (.inl rfl), GetClean]
  intro _
  split_ifs
  · exact nofun
  · trivial

theorem onMessage_exact_setGet : Exact someOwner firstSession setGet :=
  onMessage_exact (by decide +kernel) ⟨good_set, fun s' _ => ⟨good_get s'.owner, fun _ _ => trivial⟩⟩

/-- A `get` finds its first key, and its second one is too long. -/
def getLong : List Command :=
  [⟨ascii "set k 5 0 1", ascii "a\r\n"⟩, ⟨ascii "get k " ++ List.replicate 251 120, []⟩, ⟨ascii "get x", []⟩]

/-- The value that was found for one command is sent with the answer to the next one. -/
theorem not_exact_getLong : (∀ c ∈ getLong, c.WellFormed) ∧ ¬ Exact someOwner firstSession getLong := by
  refine ⟨by decide +kernel, fun h => ?_⟩
  obtain ⟨s', hrun, hfeed⟩ := h [(getLong.map Command.encode).flatten] (by simp)
  have hsent : (Chunks.feedAll (Connect.onMessage someOwner) (firstSession.start, [])
      [(getLong.map Command.encode).flatten]).1.sent =
      ascii "STORED\r\nCLIENT_ERROR bad command line format\r\nVALUE k 5 1\r\na\r\nEND\r\n" := by decide +kernel
  have hright : ∃ s', run (performStep someOwner) firstSession getLong = .next s' ∧
      s'.sent = ascii "STORED\r\nCLIENT_ERROR bad command line format\r\nEND\r\n" := by decide +kernel
  obtain ⟨s'', hrun', hsent'⟩ := hright
  obtain rfl := Outcome.next.inj (hrun.symm.trans hrun')
  generalize Chunks.feedAll (Connect.onMessage someOwner) (firstSession.start, [])
    [(getLong.map Command.encode).flatten] = out at hfeed hsent
  subst hfeed
  exact absurd (hsent.symm.trans hsent') (by decide +kernel)

end Memcached
