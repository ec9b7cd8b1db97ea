import SwissArmyKnife.RedisProxy.RedisReply

/-!
# The commands of a connection

A connection has a list of slots, one for each command in the order in which the commands were sent, with the replies
to its parts that have come.  `delivered` is what the client is to see: the replies to the commands before the first
one that is not complete.  `foldl_deliver_pieces` says that this is what comes out when the parts are delivered in
order.
-/

namespace RedisProxy

open Reorder (arrived outstanding)

/-- A command: one that the proxy answers itself, one that is sent on, or one whose parts are sent to several
backends. -/
inductive Slot where
  | answered (bytes : Bytes)
  | forwarded (command : Command) (commandCount : ℕ) (reply : Option RedisReply)
  | fanOut (f : ReplyCommand) (parts : ℕ) (replys : List (Option RedisReply))
deriving DecidableEq, Repr

/-- A text as a reply. -/
def textReply (bytes : Bytes) : RedisReply := { type := .status, buffer := bytes }

namespace Slot

variable (protocol : Protocol)

/-- The reply to a command, once the replies to all its parts are there. -/
def reply : Slot → Option Bytes
  | answered bytes => some bytes
  | forwarded _ _ r => r.map RedisReply.buffer
  | fanOut f parts replys =>
    if (arrived replys).length = parts then some (processCommandReply protocol f (arrived replys)) else none

/-- The parts, each with its reply if that has come. -/
def pieces : Slot → List (Option Buffered)
  | answered bytes => [some ⟨textReply bytes, .plain, 0⟩]
  | forwarded command commandCount r => [r.map (⟨·, command, commandCount⟩)]
  | fanOut f parts replys => replys.map (Option.map (⟨·, .replied f, parts⟩))

/-- The command and the count that the replies to the parts are noted with. -/
def tags : Slot → List (Command × ℕ)
  | answered _ => [(.plain, 0)]
  | forwarded command commandCount _ => [(command, commandCount)]
  | fanOut f parts replys => replys.map fun _ => (.replied f, parts)

/-- The reply to a part has come. -/
def fill (i : ℕ) (r : RedisReply) : Slot → Slot
  | answered bytes => answered bytes
  | forwarded command commandCount _ => forwarded command commandCount (some r)
  | fanOut f parts replys => fanOut f parts (replys.set i (some r))

/-- All parts have been sent, and a single reply to an `mget`, `mset` or `del` that is sent on is what is made of
it. -/
def Whole (cluster : Bool) : Slot → Prop
  | answered _ => True
  | forwarded .plain _ _ => True
  | forwarded (.replied f) commandCount r =>
    cluster = false ∧ commandCount = 1 ∧ ∀ r' ∈ r, processCommandReply protocol f [r'] = r'.buffer
  | fanOut _ parts replys => replys.length = parts ∧ 0 < parts

end Slot

def pieces (slots : List Slot) : List (Option Buffered) := slots.flatMap Slot.pieces

def tags (slots : List Slot) : List (Command × ℕ) := slots.flatMap Slot.tags

/-- The reply to the part at a position has come. -/
def fill : ℕ → RedisReply → List Slot → List Slot
  | _, _, [] => []
  | i, r, slot :: slots =>
    if i < slot.pieces.length then slot.fill i r :: slots else slot :: fill (i - slot.pieces.length) r slots

/-- One more part of the last command has been sent. -/
def grow : List Slot → List Slot
  | [] => []
  | [.fanOut f parts replys] => [.fanOut f parts (replys ++ [none])]
  | slot :: slots => slot :: grow slots

/-- The replies to the commands before the first one that is not complete. -/
def delivered (protocol : Protocol) : List Slot → Bytes
  | [] => []
  | slot :: slots =>
    match slot.reply protocol with
    | some bytes => bytes ++ delivered protocol slots
    | none => []

/-! ### Positions -/

@[simp] theorem pieces_nil : pieces [] = [] := rfl

@[simp] theorem pieces_cons (slot : Slot) (slots : List Slot) :
    pieces (slot :: slots) = slot.pieces ++ pieces slots := rfl

@[simp] theorem pieces_append (slots slots' : List Slot) :
    pieces (slots ++ slots') = pieces slots ++ pieces slots' := by
  simp [pieces]

@[simp] theorem tags_nil : tags [] = [] := rfl

@[simp] theorem tags_cons (slot : Slot) (slots : List Slot) : tags (slot :: slots) = slot.tags ++ tags slots := rfl

@[simp] theorem tags_append (slots slots' : List Slot) : tags (slots ++ slots') = tags slots ++ tags slots' := by
  simp [tags]

@[simp] theorem Slot.length_tags (slot : Slot) : slot.tags.length = slot.pieces.length := by
  cases slot <;> simp [Slot.tags, Slot.pieces]

theorem length_tags (slots : List Slot) : (tags slots).length = (pieces slots).length := by
  induction slots with
  | nil => rfl
  | cons slot slots ih => simp [ih]

theorem grow_append (slots : List Slot) (f : ReplyCommand) (parts : ℕ) (replys : List (Option RedisReply)) :
    grow (slots ++ [.fanOut f parts replys]) = slots ++ [.fanOut f parts (replys ++ [none])] := by
  induction slots with
  | nil => rfl
  | cons slot slots ih =>
    cases hrest : slots ++ [Slot.fanOut f parts replys] with
    | nil => simp at hrest
    | cons slot' rest =>
      rw [List.cons_append, List.cons_append, hrest, ← ih, hrest]
      simp [grow]

@[simp] theorem Slot.tags_fill (i : ℕ) (r : RedisReply) (slot : Slot) : (slot.fill i r).tags = slot.tags := by
  cases slot with
  | answered bytes => rfl
  | forwarded command commandCount r' => rfl
  | fanOut f parts replys =>
    simp only [fill, tags, List.map_const', List.length_set]

theorem tags_fill (i : ℕ) (r : RedisReply) (slots : List Slot) : tags (fill i r slots) = tags slots := by
  induction slots generalizing i with
  | nil => rfl
  | cons slot slots ih =>
    rw [fill]
    split_ifs
    · simp
    · simp [ih]

private theorem Slot.pieces_fill {i : ℕ} {r : RedisReply} {slot : Slot} {tag : Command × ℕ}
    (hpiece : slot.pieces[i]? = some none) (htag : slot.tags[i]? = some tag) :
    (slot.fill i r).pieces = slot.pieces.set i (some ⟨r, tag.1, tag.2⟩) := by
  cases slot with
  | answered bytes =>
    cases i with
    | zero => simp [pieces] at hpiece
    | succ i => simp [pieces] at hpiece
  | forwarded command commandCount r' =>
    cases i with
    | zero =>
      obtain rfl : (command, commandCount) = tag := by simpa [tags] using htag
      rfl
    | succ i => simp [pieces] at hpiece
  | fanOut f parts replys =>
    obtain ⟨-, rfl⟩ : i < replys.length ∧ (Command.replied f, parts) = tag := by
      simpa [tags, List.getElem?_replicate] using htag
    simp [fill, pieces, List.map_set]

/-- A reply comes to the part at its position. -/
theorem pieces_fill {i : ℕ} {r : RedisReply} {slots : List Slot} {tag : Command × ℕ}
    (hpiece : (pieces slots)[i]? = some none) (htag : (tags slots)[i]? = some tag) :
    pieces (fill i r slots) = (pieces slots).set i (some ⟨r, tag.1, tag.2⟩) := by
  induction slots generalizing i with
  | nil => simp at hpiece
  | cons slot slots ih =>
    rw [pieces_cons] at hpiece ⊢
    rw [tags_cons] at htag
    rw [fill]
    split_ifs with hlt
    · rw [List.getElem?_append_left hlt] at hpiece
      rw [List.getElem?_append_left (by rwa [Slot.length_tags])] at htag
      rw [pieces_cons, Slot.pieces_fill hpiece htag, List.set_append_left _ _ hlt]
    · have hle : slot.pieces.length ≤ i := Nat.le_of_not_lt hlt
      rw [List.getElem?_append_right hle] at hpiece
      rw [List.getElem?_append_right (by rwa [Slot.length_tags]), Slot.length_tags] at htag
      rw [pieces_cons, ih hpiece htag, List.set_append_right _ _ hle]

/-! ### Delivering the parts in order -/

section Deliver

variable (protocol : Protocol)

private theorem arrived_pieces_fanOut (f : ReplyCommand) (parts : ℕ) (replys : List (Option RedisReply)) :
    arrived (Slot.fanOut f parts replys).pieces = (arrived replys).map (⟨·, .replied f, parts⟩) := by
  induction replys with
  | nil => rfl
  | cons o replys ih =>
    cases o with
    | none => rfl
    | some r =>
      simp only [Slot.pieces] at ih
      simp [Slot.pieces, ih]

/-- The replies to the parts of a command are gathered until the last one is there. -/
private theorem foldl_deliver_parts (f : ReplyCommand) (parts : ℕ) (output : Bytes) (before replys : List RedisReply)
    (hlt : before.length < parts) (hle : before.length + replys.length ≤ parts) :
    (replys.map (⟨·, .replied f, parts⟩)).foldl (deliver protocol) (output, before) =
      if before.length + replys.length = parts then (output ++ processCommandReply protocol f (before ++ replys), [])
      else (output, before ++ replys) := by
  induction replys generalizing before with
  | nil =>
    rw [if_neg (by simpa using Nat.ne_of_lt hlt)]
    simp
  | cons r replys ih =>
    rw [List.map_cons, List.foldl_cons]
    simp only [deliver, List.length_append, List.length_singleton]
    rw [List.length_cons] at hle ⊢
    by_cases hlast : before.length + 1 = parts
    · obtain rfl : replys = [] := List.eq_nil_of_length_eq_zero (by omega)
      rw [if_pos (by omega), if_pos (by simpa using hlast)]
      rfl
    · rw [if_neg (by omega), ih (before ++ [r]) (by simp; omega) (by simp; omega)]
      simp only [List.length_append, List.length_singleton, List.append_assoc, List.singleton_append,
        show before.length + 1 + replys.length = before.length + (replys.length + 1) by omega]

private theorem outstanding_append_of_ne_nil {l l' : List (Option Buffered)} (h : outstanding l ≠ []) :
    arrived (l ++ l') = arrived l := by
  induction l with
  | nil => simp at h
  | cons o l ih =>
    cases o with
    | none => rfl
    | some a => simpa using ih (by simpa using h)

private theorem arrived_append_of_eq_nil {l l' : List (Option Buffered)} (h : outstanding l = []) :
    arrived (l ++ l') = arrived l ++ arrived l' := by
  conv_lhs => rw [← Reorder.arrived_append_outstanding l, h, List.append_nil]
  exact Reorder.arrived_map_some_append _ _

/-- A slot that is complete delivers its reply, and nothing is left of it. -/
private theorem foldl_deliver_slot {cluster : Bool} {slot : Slot} {bytes : Bytes}
    (hwhole : slot.Whole protocol cluster)
    (hreply : slot.reply protocol = some bytes) (output : Bytes) :
    outstanding slot.pieces = [] ∧ (arrived slot.pieces).foldl (deliver protocol) (output, []) =
      (output ++ bytes, []) := by
  cases slot with
  | answered bytes' =>
    cases hreply
    exact ⟨rfl, rfl⟩
  | forwarded command commandCount r =>
    obtain ⟨r, rfl, rfl⟩ := Option.map_eq_some_iff.1 hreply
    refine ⟨rfl, ?_⟩
    cases command with
    | plain => rfl
    | replied f =>
      obtain ⟨-, rfl, hone⟩ := hwhole
      simp [Slot.pieces, deliver, hone r rfl]
  | fanOut f parts replys =>
    simp only [Slot.reply] at hreply
    split_ifs at hreply with hall
    obtain rfl := Option.some.inj hreply
    obtain ⟨hlength, hpos⟩ := hwhole
    have hsum := Reorder.length_arrived_add replys
    have hsum' := Reorder.length_arrived_add (Slot.fanOut f parts replys).pieces
    rw [arrived_pieces_fanOut] at hsum' ⊢
    constructor
    · apply List.eq_nil_of_length_eq_zero
      simp only [Slot.pieces, List.length_map] at hsum' ⊢
      omega
    · rw [foldl_deliver_parts protocol f parts output [] _ hpos (by simp [hall]), if_pos (by simpa using hall)]
      rfl

/-- A slot that is not complete delivers nothing, and something is left of it. -/
private theorem foldl_deliver_incomplete {cluster : Bool} {slot : Slot} (hwhole : slot.Whole protocol cluster)
    (hreply : slot.reply protocol = none) (output : Bytes) :
    outstanding slot.pieces ≠ [] ∧ ((arrived slot.pieces).foldl (deliver protocol) (output, [])).1 = output := by
  cases slot with
  | answered bytes' => simp [Slot.reply] at hreply
  | forwarded command commandCount r =>
    obtain rfl : r = none := Option.map_eq_none_iff.1 hreply
    exact ⟨by simp [Slot.pieces], rfl⟩
  | fanOut f parts replys =>
    simp only [Slot.reply] at hreply
    split_ifs at hreply with hall
    obtain ⟨hlength, hpos⟩ := hwhole
    have hsum := Reorder.length_arrived_add replys
    have hsum' := Reorder.length_arrived_add (Slot.fanOut f parts replys).pieces
    rw [arrived_pieces_fanOut] at hsum' ⊢
    constructor
    · intro hnil
      rw [hnil] at hsum'
      simp only [Slot.pieces, List.length_map, List.length_nil] at hsum'
      omega
    · rw [foldl_deliver_parts protocol f parts output [] _ hpos (by simp; omega), if_neg (by simpa using hall)]

/-- The parts, delivered in order up to the first one that is missing, give the replies to the commands in order. -/
theorem foldl_deliver_pieces {cluster : Bool} {slots : List Slot}
    (hwhole : ∀ slot ∈ slots, slot.Whole protocol cluster)
    (output : Bytes) :
    ((arrived (pieces slots)).foldl (deliver protocol) (output, [])).1 = output ++ delivered protocol slots := by
  induction slots generalizing output with
  | nil => simp [delivered]
  | cons slot slots ih =>
    have hslot := hwhole slot (by simp)
    rw [pieces_cons, delivered]
    cases hreply : slot.reply protocol with
    | none =>
      obtain ⟨hne, hout⟩ := foldl_deliver_incomplete protocol hslot hreply output
      rw [outstanding_append_of_ne_nil hne, hout]
      simp
    | some bytes =>
      obtain ⟨hnil, hout⟩ := foldl_deliver_slot protocol hslot hreply output
      rw [arrived_append_of_eq_nil hnil, List.foldl_append, hout, ih (fun slot' h => hwhole slot' (by simp [h]))]
      simp

/-- When no part is missing, every command has its reply. -/
theorem reply_ne_none {cluster : Bool} {slots : List Slot} (hwhole : ∀ slot ∈ slots, slot.Whole protocol cluster)
    (hnone : none ∉ pieces slots) : ∀ slot ∈ slots, slot.reply protocol ≠ none := by
  intro slot hslot hreply
  have hne := (foldl_deliver_incomplete protocol (hwhole slot hslot) hreply []).1
  rw [ne_eq, Reorder.outstanding_eq_nil, not_not] at hne
  exact hnone (List.mem_flatMap.2 ⟨slot, hslot, hne⟩)

end Deliver

end RedisProxy
