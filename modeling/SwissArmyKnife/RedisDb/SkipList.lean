import Mathlib.Data.List.Pairwise
import Mathlib.Order.Basic
import Mathlib.Tactic.Common

/-!
# Skip lists

`SkipList` and its iterator.  Nodes are named by the order of their creation, and the head is the first.  There is no
result when an assertion fails or a link outside of the array of a node is read or set.  The list of each level is a
sublist of the one below (`Levels`), whatever the heights of the nodes; every search is one descent through the levels
(`descend_spec`).
-/

namespace RedisDb

/-- A node has an array of links of its height, the lowest level first; the head has no key. -/
structure SkipList.Node (κ : Type) where
  key : Option κ
  nextnode : List (Option ℕ)

structure SkipList (κ : Type) where
  nodes : List (SkipList.Node κ)
  /-- Height of the entire list. -/
  maxheight : ℕ

namespace SkipList

variable {κ : Type}

def kMaxHeight : ℕ := 12

def head : ℕ := 0

def new : SkipList κ := ⟨[⟨none, List.replicate kMaxHeight none⟩], 1⟩

def key (s : SkipList κ) (x : ℕ) : Option κ := s.nodes[x]?.bind Node.key

def Next (s : SkipList κ) (x level : ℕ) : Option (Option ℕ) := s.nodes[x]?.bind fun n => n.nextnode[level]?

def setNext (s : SkipList κ) (x level : ℕ) (y : Option ℕ) : Option (SkipList κ) := do
  let n ← s.nodes[x]?
  if level < n.nextnode.length then
    return { s with nodes := s.nodes.set x { n with nextnode := n.nextnode.set level y } }
  else none

/-- The list with the node, and the node; its links are not set yet. -/
def NewNode (s : SkipList κ) (key : κ) (height : ℕ) : SkipList κ × ℕ :=
  ({ s with nodes := s.nodes ++ [⟨some key, List.replicate height none⟩] }, s.nodes.length)

/-- The height increases as long as the draws say so. -/
def RandomHeight (draws : List Bool) : ℕ := ((draws.take (kMaxHeight - 1)).takeWhile id).length + 1

theorem randomHeight_bounds (draws : List Bool) : 1 ≤ RandomHeight draws ∧ RandomHeight draws ≤ kMaxHeight := by
  have htake := (List.takeWhile_sublist id (l := draws.take (kMaxHeight - 1))).length_le
  rw [List.length_take] at htake
  rw [RandomHeight, kMaxHeight]
  rw [kMaxHeight] at htake
  omega

/-- The loop of the searches: to the next node when its key passes the test, and otherwise a level down.  `check` is
an assertion about the node at the top of the loop.  The result is the last node, the one after it, and the last node
of each level. -/
def descend (test check : κ → Bool) (s : SkipList κ) : ℕ → ℕ → ℕ → List ℕ → Option (ℕ × Option ℕ × List ℕ)
  | 0, _, _, _ => none
  | fuel + 1, x, level, prev =>
    if x = head ∨ (s.key x).any check then do
      let next ← s.Next x level
      let down :=
        match level with
        | 0 => some (x, next, x :: prev)
        | level + 1 => descend test check s fuel x level (x :: prev)
      match next with
      | none => down
      | some n => do
        let k ← s.key n
        if test k then descend test check s fuel n level prev else down
    else none

/-- More passes than a search makes. -/
def passes (s : SkipList κ) : ℕ := s.maxheight * s.nodes.length

variable (compare : κ → κ → Ordering)

/-- The earliest node that comes at or after the key, and the last node before the key on each level. -/
def FindGreaterOrEqual (s : SkipList κ) (key : κ) : Option (Option ℕ × List ℕ) := do
  let (_, next, prev) ← s.descend (fun k => compare k key = .lt) (fun _ => true) s.passes head (s.maxheight - 1) []
  return (next, prev)

/-- The latest node with a smaller key, or the head. -/
def FindLessThan (s : SkipList κ) (key : κ) : Option ℕ := do
  let (x, _) ← s.descend (fun k => compare k key = .lt)
      (fun k => compare k key = .lt) s.passes head (s.maxheight - 1) []
  return x

/-- The last node, or the head. -/
def FindLast (s : SkipList κ) : Option ℕ := do
  let (x, _) ← s.descend (fun _ => true) (fun _ => true) s.passes head (s.maxheight - 1) []
  return x

/-- The loop of `Insert`, from a level on: the node `x` is put after the node of each level. -/
def link (s : SkipList κ) (x : ℕ) : ℕ → List ℕ → Option (SkipList κ)
  | _, [] => some s
  | level, p :: prev => do
    let next ← s.Next p level
    let s ← s.setNext x level next
    let s ← s.setNext p level (some x)
    s.link x (level + 1) prev

def Insert (s : SkipList κ) (key : κ) (draws : List Bool) : Option (SkipList κ) := do
  let (x, prev) ← s.FindGreaterOrEqual compare key
  if (x.bind s.key).any fun k => compare key k = .eq then none
  else
    let height := RandomHeight draws
    -- On the levels that the list did not have, the node comes after the head.
    let prev := prev ++ List.replicate (height - s.maxheight) head
    let (s, x) := { s with maxheight := max s.maxheight height }.NewNode key height
    s.link x 0 (prev.take height)

/-! ### The iterator, which is a node or null -/

namespace Iterator

def Valid (node : Option ℕ) : Bool := node.isSome

def key (s : SkipList κ) (node : Option ℕ) : Option κ := node.bind s.key

def Next (s : SkipList κ) (node : Option ℕ) : Option (Option ℕ) := node.bind fun x => s.Next x 0

def Prev (s : SkipList κ) (node : Option ℕ) : Option (Option ℕ) := do
  let k ← key s node
  let x ← s.FindLessThan compare k
  return if x = head then none else some x

def Seek (s : SkipList κ) (target : κ) : Option (Option ℕ) := do
  let (x, _) ← s.FindGreaterOrEqual compare target
  return x

def SeekToFirst (s : SkipList κ) : Option (Option ℕ) := s.Next head 0

def SeekToLast (s : SkipList κ) : Option (Option ℕ) := do
  let x ← s.FindLast
  return if x = head then none else some x

end Iterator

/-! ### The lists of the levels -/

/-- The nodes with their keys that follow a node on a level. -/
def Linked (s : SkipList κ) (level : ℕ) : ℕ → List (ℕ × κ) → Prop
  | x, [] => s.Next x level = some none
  | x, (y, k) :: l => s.Next x level = some (some y) ∧ s.key y = some k ∧ Linked s level y l

/-- The last node of a list that follows `x`. -/
def lastNode (x : ℕ) (l : List (ℕ × κ)) : ℕ := (l.getLast?.map Prod.fst).getD x

theorem lastNode_cons (x : ℕ) (e : ℕ × κ) (l : List (ℕ × κ)) : lastNode x (e :: l) = lastNode e.1 l := by
  rw [lastNode, lastNode, List.getLast?_cons]
  cases l.getLast? <;> rfl

@[simp] theorem lastNode_concat (x : ℕ) (l : List (ℕ × κ)) (e : ℕ × κ) : lastNode x (l ++ [e]) = e.1 := by
  rw [lastNode, List.getLast?_concat]
  rfl

theorem lastNode_mem (x : ℕ) (l : List (ℕ × κ)) : lastNode x l ∈ x :: l.map Prod.fst := by
  induction l generalizing x with
  | nil => exact List.mem_cons_self ..
  | cons e l ih =>
    rw [lastNode_cons]
    exact List.mem_cons_of_mem _ (ih e.1)

variable {compare} {s s' : SkipList κ} {level x : ℕ}

theorem Linked.tail {l l' : List (ℕ × κ)} (h : s.Linked level x (l ++ l')) : s.Linked level (lastNode x l) l' := by
  induction l generalizing x with
  | nil => exact h
  | cons e l ih =>
    rw [lastNode_cons]
    exact ih h.2.2

theorem Linked.key {l : List (ℕ × κ)} (h : s.Linked level x l) : ∀ e ∈ l, s.key e.1 = some e.2 := by
  induction l generalizing x with
  | nil => simp
  | cons e l ih =>
    intro e' he'
    rcases List.mem_cons.1 he' with rfl | he'
    · exact h.2.1
    · exact ih h.2.2 e' he'

theorem Linked.next {l : List (ℕ × κ)} (h : s.Linked level x l) :
    s.Next x level = some (l.head?.map Prod.fst) := by
  cases l with
  | nil => exact h
  | cons e l => exact h.1

theorem Linked.congr {l : List (ℕ × κ)} (h : s.Linked level x l)
    (hnext : ∀ y ∈ x :: l.map Prod.fst, s'.Next y level = s.Next y level)
    (hkey : ∀ e ∈ l, s'.key e.1 = s.key e.1) : s'.Linked level x l := by
  induction l generalizing x with
  | nil => exact (hnext x (List.mem_cons_self ..)).trans h
  | cons e l ih =>
    refine ⟨(hnext x (List.mem_cons_self ..)).trans h.1, (hkey e (List.mem_cons_self ..)).trans h.2.1, ?_⟩
    exact ih h.2.2 (fun y hy => hnext y (List.mem_cons_of_mem _ hy)) fun e' he' =>
      hkey e' (List.mem_cons_of_mem _ he')

variable (compare) in
/-- The lists of the levels: each is a sublist of the one below, and the keys increase. -/
structure Levels (s : SkipList κ) (chain : ℕ → List (ℕ × κ)) : Prop where
  linked : ∀ level < kMaxHeight, s.Linked level head (chain level)
  sublist : ∀ level, (chain (level + 1)).Sublist (chain level)
  increasing : ∀ level, (chain level).Pairwise fun a b => compare a.2 b.2 = .lt

variable (compare) in
/-- What holds of a list: the lowest level has all nodes but the head. -/
structure Sound (s : SkipList κ) (chain : ℕ → List (ℕ × κ)) : Prop extends Levels compare s chain where
  top : ∀ level, s.maxheight ≤ level → chain level = []
  maxheight : 1 ≤ s.maxheight ∧ s.maxheight ≤ kMaxHeight
  nodes : (head :: (chain 0).map Prod.fst).Perm (List.range s.nodes.length)

theorem sound_new : Sound compare (new : SkipList κ) fun _ => [] where
  linked := by
    intro level hlevel
    simp [Linked, Next, new, head, hlevel]
  sublist _ := List.Sublist.refl _
  increasing _ := List.Pairwise.nil
  top _ _ := rfl
  maxheight := ⟨Nat.le_refl 1, show 1 ≤ 12 by omega⟩
  nodes := List.Perm.refl _

/-! ### Searches -/

variable {chain : ℕ → List (ℕ × κ)}

theorem Levels.sublist_of_le (h : Levels compare s chain) {i j : ℕ} (hij : i ≤ j) : (chain j).Sublist (chain i) := by
  induction hij with
  | refl => exact List.Sublist.refl _
  | step _ ih => exact (h.sublist _).trans ih

theorem Sound.length_lt (h : Sound compare s chain) (level : ℕ) : (chain level).length < s.nodes.length := by
  have hlength := h.nodes.length_eq
  have hsublist := (h.sublist_of_le (Nat.zero_le level)).length_le
  rw [List.length_cons, List.length_map, List.length_range] at hlength
  omega

theorem Sound.nodup (h : Sound compare s chain) (level : ℕ) : (head :: (chain level).map Prod.fst).Nodup :=
  (h.nodes.nodup_iff.2 List.nodup_range).sublist
    (((h.sublist_of_le (Nat.zero_le level)).map Prod.fst).cons_cons head)

theorem Sound.lt_of_mem (h : Sound compare s chain) {level x : ℕ} (hx : x ∈ head :: (chain level).map Prod.fst) :
    x < s.nodes.length := by
  have hmem : x ∈ head :: (chain 0).map Prod.fst :=
    (((h.sublist_of_le (Nat.zero_le level)).map Prod.fst).cons_cons head).subset hx
  exact List.mem_range.1 (h.nodes.mem_iff.1 hmem)

/-- A prefix of a level ends where a prefix of the level below does. -/
theorem Levels.exists_below (h : Levels compare s chain) {test : κ → Bool}
    (hclosed : ∀ level, (chain level).Pairwise fun a b => test b.2 = true → test a.2 = true) {level : ℕ}
    {pre post : List (ℕ × κ)} (hchain : chain (level + 1) = pre ++ post) (hpre : ∀ e ∈ pre, test e.2 = true) :
    ∃ pre' post', chain level = pre' ++ post' ∧ (∀ e ∈ pre', test e.2 = true) ∧
      lastNode head pre' = lastNode head pre := by
  rcases List.eq_nil_or_concat pre with rfl | ⟨before, e, rfl⟩
  · exact ⟨[], chain level, rfl, by simp, rfl⟩
  rw [List.concat_eq_append] at hchain hpre ⊢
  have he : e ∈ chain level := (h.sublist level).subset (by rw [hchain]; simp)
  obtain ⟨pre', post', hsplit⟩ := List.append_of_mem he
  have htest := hpre e (by simp)
  have hcross := List.pairwise_append.1 (hsplit ▸ hclosed level)
  refine ⟨pre' ++ [e], post', by rw [hsplit, List.append_assoc]; rfl, ?_, by rw [lastNode_concat, lastNode_concat]⟩
  intro e' he'
  rcases List.mem_append.1 he' with he' | he'
  · exact hcross.2.2 e' he' e (List.mem_cons_self ..) htest
  · rw [List.mem_singleton.1 he']
    exact htest

/-- The assertion at the top of the loop holds where a prefix of a level ends. -/
theorem Linked.check_lastNode {l pre post : List (ℕ × κ)} (h : s.Linked level head l) (hl : l = pre ++ post)
    {check : κ → Bool} (hcheck : ∀ e ∈ pre, check e.2 = true) :
    lastNode head pre = head ∨ (s.key (lastNode head pre)).any check = true := by
  rcases List.eq_nil_or_concat pre with rfl | ⟨before, e, rfl⟩
  · exact Or.inl rfl
  · right
    rw [List.concat_eq_append] at hl hcheck ⊢
    rw [lastNode_concat, h.key e (by rw [hl]; simp)]
    exact hcheck e (by simp)

private theorem filter_of_split {α : Type} {p : α → Bool} {l pre post : List α} (hl : l = pre ++ post)
    (hpre : ∀ e ∈ pre, p e = true) (hpost : ∀ e ∈ post, p e = false) : l.filter p = pre := by
  rw [hl, List.filter_append, List.filter_eq_self.2 hpre, List.filter_eq_nil_iff.2 fun e he => by simp [hpost e he],
    List.append_nil]

private theorem find?_of_split {α : Type} {p : α → Bool} {l pre post : List α} (hl : l = pre ++ post)
    (hpre : ∀ e ∈ pre, p e = true) (hpost : ∀ e ∈ post, p e = false) : l.find? (fun e => !p e) = post.head? := by
  rw [hl, List.find?_append, List.find?_eq_none.2 fun e he => by simp [hpre e he], Option.none_or]
  cases post with
  | nil => rfl
  | cons e post => rw [List.find?_cons_of_pos (by simp [hpost e]), List.head?_cons]

/-- What a descent from a level finds: on each level the last node whose key passes the test. -/
def found (test : κ → Bool) (chain : ℕ → List (ℕ × κ)) (level : ℕ) (prev : List ℕ) : ℕ × Option ℕ × List ℕ :=
  (lastNode head ((chain 0).filter fun e => test e.2), ((chain 0).find? fun e => !test e.2).map Prod.fst,
    (List.range (level + 1)).map (fun j => lastNode head ((chain j).filter fun e => test e.2)) ++ prev)

theorem found_zero {test : κ → Bool} {pre post : List (ℕ × κ)} (hchain : chain 0 = pre ++ post)
    (hpre : ∀ e ∈ pre, test e.2 = true) (hpost : ∀ e ∈ post, test e.2 = false) (prev : List ℕ) :
    found test chain 0 prev = (lastNode head pre, post.head?.map Prod.fst, lastNode head pre :: prev) := by
  have hfilter : (chain 0).filter (fun e => test e.2) = pre := filter_of_split hchain hpre hpost
  have hfind : (chain 0).find? (fun e => !test e.2) = post.head? := find?_of_split hchain hpre hpost
  rw [found, hfind]
  simp [hfilter]

theorem found_succ {test : κ → Bool} {level : ℕ} {pre post : List (ℕ × κ)} (hchain : chain (level + 1) = pre ++ post)
    (hpre : ∀ e ∈ pre, test e.2 = true) (hpost : ∀ e ∈ post, test e.2 = false) (prev : List ℕ) :
    found test chain (level + 1) prev = found test chain level (lastNode head pre :: prev) := by
  have hfilter : (chain (level + 1)).filter (fun e => test e.2) = pre := filter_of_split hchain hpre hpost
  rw [found, found, List.range_succ (n := level + 1), List.map_append, List.map_singleton, hfilter, List.append_assoc]
  rfl

/-- A descent ends between the keys that pass the test and those that do not, on each level. -/
theorem descend_spec (h : Sound compare s chain) {test check : κ → Bool}
    (hclosed : ∀ level, (chain level).Pairwise fun a b => test b.2 = true → test a.2 = true)
    (hcheck : ∀ k, test k = true → check k = true) {fuel level : ℕ} (hlevel : level < kMaxHeight)
    {pre post : List (ℕ × κ)} (hchain : chain level = pre ++ post) (hpre : ∀ e ∈ pre, test e.2 = true)
    (hfuel : post.length + level * s.nodes.length < fuel) (prev : List ℕ) :
    s.descend test check fuel (lastNode head pre) level prev = some (found test chain level prev) := by
  -- `pre` has been passed on this level; the fuel is for the rest of it and all nodes on each level below.
  induction fuel generalizing level pre post prev with
  | zero => omega
  | succ fuel ih =>
    have hlinked := h.linked level hlevel
    have hnext := (hchain ▸ hlinked).tail.next
    have htop := hlinked.check_lastNode hchain fun e he => hcheck e.2 (hpre e he)
    -- what the loop does when no later key of the level passes
    have hdown : ∀ result, (∀ e ∈ post, test e.2 = false) →
        (level = 0 → result = some (lastNode head pre, post.head?.map Prod.fst, lastNode head pre :: prev)) →
        (∀ l, level = l + 1 →
          result = s.descend test check fuel (lastNode head pre) l (lastNode head pre :: prev)) →
        result = some (found test chain level prev) := by
      intro result hpost hzero hsucc
      cases level with
      | zero => rw [hzero rfl, found_zero hchain hpre hpost]
      | succ level =>
        obtain ⟨pre', post', hchain', hpre', hlast⟩ := h.exists_below hclosed hchain hpre
        have hlength := h.length_lt level
        rw [hchain', List.length_append] at hlength
        rw [Nat.add_mul] at hfuel
        have hrun := ih (by omega) hchain' hpre' (by omega) (lastNode head pre :: prev)
        rw [hlast] at hrun
        rw [hsucc level rfl, hrun, found_succ hchain hpre hpost]
    rw [descend, if_pos htop, hnext]
    cases post with
    | nil => exact hdown _ (by simp) (by rintro rfl; rfl) (by rintro l rfl; rfl)
    | cons e post =>
      have hsome : s.key e.1 = some e.2 := hlinked.key e (by rw [hchain]; simp)
      simp only [List.head?_cons, Option.map_some, Option.bind_eq_bind, Option.bind_some, hsome]
      by_cases htest : test e.2 = true
      · rw [if_pos htest]
        have hrun := ih hlevel (show chain level = (pre ++ [e]) ++ post by rw [hchain, List.append_assoc]; rfl)
          (fun e' he' => (List.mem_append.1 he').elim
            (hpre e') fun he' => by rw [List.mem_singleton.1 he']; exact htest)
          (by rw [List.length_cons] at hfuel; omega) prev
        rw [lastNode_concat] at hrun
        exact hrun
      · rw [if_neg htest]
        have hcross := (List.pairwise_cons.1 (List.pairwise_append.1 (hchain ▸ hclosed level)).2.1).1
        refine hdown _ (fun e' he' => ?_) (by rintro rfl; rfl) (by rintro l rfl; rfl)
        rcases List.mem_cons.1 he' with rfl | he'
        · simpa using htest
        · by_contra hne
          exact htest (hcross e' he' (by simpa using hne))

/-- A search of the whole list. -/
theorem descend_passes (h : Sound compare s chain) {test check : κ → Bool}
    (hclosed : ∀ level, (chain level).Pairwise fun a b => test b.2 = true → test a.2 = true)
    (hcheck : ∀ k, test k = true → check k = true) :
    s.descend test check s.passes head (s.maxheight - 1) [] =
      some (lastNode head ((chain 0).filter fun e => test e.2),
        ((chain 0).find? fun e => !test e.2).map Prod.fst,
        (List.range s.maxheight).map fun j => lastNode head ((chain j).filter fun e => test e.2)) := by
  obtain ⟨hpos, hle⟩ := h.maxheight
  have hlength := h.length_lt (s.maxheight - 1)
  have hpasses : s.passes = s.nodes.length + (s.maxheight - 1) * s.nodes.length := by
    obtain ⟨m, hm⟩ := Nat.exists_eq_add_of_le' hpos
    rw [passes, hm, Nat.add_sub_cancel, Nat.add_mul, Nat.one_mul, Nat.add_comm]
  have hrun := descend_spec h hclosed hcheck (show s.maxheight - 1 < kMaxHeight by omega)
    (List.nil_append (chain (s.maxheight - 1))).symm (by simp) (show _ < s.passes by omega) []
  rw [found, Nat.sub_add_cancel hpos, List.append_nil] at hrun
  exact hrun

section Order

variable [Std.TransCmp compare]

theorem Levels.closed (h : Levels compare s chain) (key : κ) (level : ℕ) : (chain level).Pairwise fun a b =>
    decide (compare b.2 key = .lt) = true → decide (compare a.2 key = .lt) = true :=
  (h.increasing level).imp fun hlt hb => decide_eq_true (Std.TransCmp.lt_trans hlt (of_decide_eq_true hb))

private theorem not_lt_eq_isGE (r : Ordering) : (!decide (r = .lt)) = r.isGE := by
  cases r <;> rfl

theorem findGreaterOrEqual_eq (h : Sound compare s chain) (key : κ) : s.FindGreaterOrEqual compare key =
    some (((chain 0).find? fun e => (compare e.2 key).isGE).map Prod.fst, (List.range s.maxheight).map fun j =>
      lastNode head ((chain j).filter fun e => compare e.2 key = .lt)) := by
  rw [FindGreaterOrEqual, descend_passes h (h.closed key) fun _ _ => rfl]
  simp only [not_lt_eq_isGE]
  rfl

theorem findLessThan_eq (h : Sound compare s chain) (key : κ) : s.FindLessThan compare key =
    some (lastNode head ((chain 0).filter fun e => compare e.2 key = .lt)) := by
  rw [FindLessThan, descend_passes h (h.closed key) fun _ => id]
  rfl

omit [Std.TransCmp compare] in
theorem findLast_eq (h : Sound compare s chain) : s.FindLast = some (lastNode head (chain 0)) := by
  rw [FindLast, descend_passes h (fun level => (h.increasing level).imp fun _ _ => rfl) fun _ => id]
  show some (lastNode head ((chain 0).filter fun _ => true)) = _
  rw [List.filter_eq_self.2 fun _ _ => rfl]

end Order

/-! ### The iterator over a list -/

variable (compare) in
/-- What an iterator over a list with these nodes and keys does. -/
structure Iterates (s : SkipList κ) (l : List (ℕ × κ)) : Prop where
  seek : ∀ target, Iterator.Seek compare s target = some ((l.find? fun e => (compare e.2 target).isGE).map Prod.fst)
  seekToFirst : Iterator.SeekToFirst s = some (l.head?.map Prod.fst)
  seekToLast : Iterator.SeekToLast s = some (l.getLast?.map Prod.fst)
  key : ∀ e ∈ l, Iterator.key s (some e.1) = some e.2
  next : ∀ before e after, l = before ++ e :: after → Iterator.Next s (some e.1) = some (after.head?.map Prod.fst)
  prev : ∀ before e after, l = before ++ e :: after →
    Iterator.Prev compare s (some e.1) = some (before.getLast?.map Prod.fst)

/-- The head stands for null. -/
theorem lastNode_head {l : List (ℕ × κ)} (h : (head :: l.map Prod.fst).Nodup) :
    (if lastNode head l = head then none else some (lastNode head l)) = l.getLast?.map Prod.fst := by
  rcases List.eq_nil_or_concat l with rfl | ⟨l, e, rfl⟩
  · rfl
  · rw [List.concat_eq_append] at h ⊢
    have hne : e.1 ≠ head := by
      rintro heq
      exact (List.nodup_cons.1 h).1 (by simp [heq])
    rw [lastNode_concat, if_neg hne, List.getLast?_concat]
    rfl

theorem Sound.iterates [Std.TransCmp compare] (h : Sound compare s chain) : Iterates compare s (chain 0) := by
  have hlinked := h.linked 0 (by decide)
  refine ⟨fun target => ?_, hlinked.next, ?_, hlinked.key, fun before e after hchain => ?_,
    fun before e after hchain => ?_⟩
  · rw [Iterator.Seek, findGreaterOrEqual_eq h]
    rfl
  · rw [Iterator.SeekToLast, findLast_eq h]
    exact congrArg some (lastNode_head (h.nodup 0))
  · have hsplit : chain 0 = (before ++ [e]) ++ after := by rw [hchain, List.append_assoc]; rfl
    have htail := (hsplit ▸ hlinked).tail
    rw [lastNode_concat] at htail
    exact htail.next
  · have hkey : Iterator.key s (some e.1) = some e.2 := hlinked.key e (by rw [hchain]; simp)
    obtain ⟨-, hafter, hcross⟩ := List.pairwise_append.1 (hchain ▸ h.increasing 0)
    have hfilter : (chain 0).filter (fun a => compare a.2 e.2 = .lt) = before := by
      have hself : compare e.2 e.2 = .eq := Std.ReflCmp.compare_self
      rw [hchain, List.filter_append, List.filter_eq_self.2 fun a ha =>
        decide_eq_true (hcross a ha e (List.mem_cons_self ..)),
        List.filter_eq_nil_iff.2, List.append_nil]
      intro a ha
      rcases List.mem_cons.1 ha with rfl | ha
      · simp [hself]
      · simp [Std.OrientedCmp.gt_of_lt ((List.pairwise_cons.1 hafter).1 a ha)]
    have hnodup : (head :: before.map Prod.fst).Nodup :=
      (h.nodup 0).sublist (((hchain ▸ List.sublist_append_left before _).map Prod.fst).cons_cons head)
    rw [Iterator.Prev, hkey]
    simp only [Option.bind_eq_bind, Option.bind_some, findLessThan_eq h, hfilter]
    exact congrArg some (lastNode_head hnodup)

/-! ### Insertions -/

theorem next_setNext {y : Option ℕ} (h : s.setNext x level y = some s') :
    (∀ a b, s'.Next a b = if a = x ∧ b = level then some y else s.Next a b) ∧ (∀ a, s'.key a = s.key a) ∧
      s'.nodes.length = s.nodes.length ∧ s'.maxheight = s.maxheight := by
  simp only [setNext, Option.bind_eq_bind, Option.bind_eq_some_iff] at h
  obtain ⟨n, hn, h⟩ := h
  split at h
  · rename_i hlevel
    obtain rfl := Option.some.inj h
    obtain ⟨hx, rfl⟩ := List.getElem?_eq_some_iff.1 hn
    refine ⟨fun a b => ?_, fun a => ?_, by rw [List.length_set], rfl⟩
    · simp only [Next, List.getElem?_set]
      by_cases ha : x = a
      · subst ha
        by_cases hb : b = level
        · subst hb
          simp [hx, hlevel]
        · simp [hx, hb, Ne.symm hb]
      · simp [ha, Ne.symm ha]
    · simp only [key, List.getElem?_set]
      by_cases ha : x = a
      · subst ha
        simp [hx]
      · simp [ha]
  · cases h

/-- A link that can be read can be set. -/
theorem exists_setNext {v : Option ℕ} (h : s.Next x level = some v) (y : Option ℕ) :
    ∃ s', s.setNext x level y = some s' := by
  obtain ⟨n, hn, hlevel⟩ := Option.bind_eq_some_iff.1 h
  obtain ⟨hlt, -⟩ := List.getElem?_eq_some_iff.1 hlevel
  simp only [setNext, hn, Option.bind_eq_bind, Option.bind_some, if_pos hlt]
  exact ⟨_, rfl⟩

/-- One pass of the loop of `Insert` sets two links. -/
theorem exists_linkAfter {n p : ℕ} {v next : Option ℕ} (hn : s.Next n level = some v)
    (hp : s.Next p level = some next)
    (hpn : p ≠ n) : ∃ s₁ s₂, s.setNext n level next = some s₁ ∧ s₁.setNext p level (some n) = some s₂ ∧
      s₂.Next p level = some (some n) ∧ s₂.Next n level = some next ∧
      (∀ a b, b ≠ level ∨ a ≠ p ∧ a ≠ n → s₂.Next a b = s.Next a b) ∧ (∀ a, s₂.key a = s.key a) ∧
      s₂.nodes.length = s.nodes.length ∧ s₂.maxheight = s.maxheight := by
  obtain ⟨s₁, hs₁⟩ := exists_setNext hn next
  obtain ⟨hnext₁, hkey₁, hlength₁, hmax₁⟩ := next_setNext hs₁
  obtain ⟨s₂, hs₂⟩ := exists_setNext (show s₁.Next p level = _ by rw [hnext₁, if_neg (by simp [hpn]), hp]) (some n)
  obtain ⟨hnext₂, hkey₂, hlength₂, hmax₂⟩ := next_setNext hs₂
  refine ⟨s₁, s₂, hs₁, hs₂, ?_, ?_, fun a b hab => ?_, fun a => (hkey₂ a).trans (hkey₁ a), hlength₂.trans hlength₁,
    hmax₂.trans hmax₁⟩
  · rw [hnext₂, if_pos ⟨rfl, rfl⟩]
  · rw [hnext₂, if_neg (by simp [Ne.symm hpn]), hnext₁, if_pos ⟨rfl, rfl⟩]
  · rw [hnext₂, if_neg (by rintro ⟨rfl, rfl⟩; simp at hab), hnext₁, if_neg (by rintro ⟨rfl, rfl⟩; simp at hab)]

theorem Linked.insert {n : ℕ} {k : κ} {before after : List (ℕ × κ)} (h : s.Linked level x (before ++ after))
    (hnodup : (x :: (before ++ after).map Prod.fst).Nodup) (hn : n ∉ x :: (before ++ after).map Prod.fst)
    (hnext : ∀ y, y ≠ lastNode x before → y ≠ n → s'.Next y level = s.Next y level)
    (hlast : s'.Next (lastNode x before) level = some (some n))
    (hnew : s'.Next n level = s.Next (lastNode x before) level) (hkey : ∀ e ∈ before ++ after, s'.key e.1 = s.key e.1)
    (hk : s'.key n = some k) : s'.Linked level x (before ++ (n, k) :: after) := by
  induction before generalizing x with
  | nil =>
    have hx : ∀ y ∈ after.map Prod.fst, y ≠ x := by
      rintro y hy rfl
      exact (List.nodup_cons.1 hnodup).1 hy
    refine ⟨hlast, hk, ?_⟩
    cases after with
    | nil => exact hnew.trans h
    | cons e after =>
      refine ⟨hnew.trans h.1, (hkey e (List.mem_cons_self ..)).trans h.2.1, ?_⟩
      refine h.2.2.congr (fun y hy => hnext y (hx y hy) ?_) fun e' he' => hkey e' (List.mem_cons_of_mem _ he')
      rintro rfl
      exact hn (List.mem_cons_of_mem _ hy)
  | cons e before ih =>
    rw [lastNode_cons] at hnext hlast hnew
    have hmem := lastNode_mem e.1 before
    have hx : x ≠ lastNode e.1 before := by
      rintro rfl
      refine (List.nodup_cons.1 hnodup).1 ?_
      simp only [List.cons_append, List.map_cons, List.map_append]
      rw [← List.cons_append]
      exact List.mem_append_left _ hmem
    have hxn : x ≠ n := by
      rintro rfl
      exact hn (List.mem_cons_self ..)
    refine ⟨(hnext x hx hxn).trans h.1, (hkey e (List.mem_cons_self ..)).trans h.2.1, ?_⟩
    exact ih h.2.2 (List.nodup_cons.1 hnodup).2 (fun hmem => hn (List.mem_cons_of_mem _ hmem)) hnext hlast hnew
      fun e' he' => hkey e' (List.mem_cons_of_mem _ he')

/-- The loop of `Insert` puts the node between `before` and `after` on the levels below its height. -/
theorem link_spec {n : ℕ} {k : κ} {before after : ℕ → List (ℕ × κ)} {height : ℕ} (hheight : height ≤ kMaxHeight)
    (hnodup : ∀ j, (head :: (before j ++ after j).map Prod.fst).Nodup)
    (hn : ∀ j, n ∉ head :: (before j ++ after j).map Prod.fst) {count level : ℕ} (hcount : level + count = height)
    (hlinked : ∀ j < kMaxHeight,
      s.Linked j head (if j < level then before j ++ (n, k) :: after j else before j ++ after j))
    (hopen : ∀ j, level ≤ j → j < height → ∃ v, s.Next n j = some v) (hk : s.key n = some k) : ∃ s',
      s.link n level ((List.range' level count).map fun j => lastNode head (before j)) = some s' ∧
      (∀ j < kMaxHeight,
        s'.Linked j head (if j < height then before j ++ (n, k) :: after j else before j ++ after j)) ∧
      s'.nodes.length = s.nodes.length ∧ s'.maxheight = s.maxheight := by
  -- On the levels below `level` the node is already in the list; `count` levels are left.
  induction count generalizing level s with
  | zero =>
    obtain rfl : level = height := by omega
    exact ⟨s, rfl, hlinked, rfl, rfl⟩
  | succ count ih =>
    obtain ⟨p, hp⟩ : ∃ p, p = lastNode head (before level) := ⟨_, rfl⟩
    have hlevel := hlinked level (by omega)
    rw [if_neg (Nat.lt_irrefl _)] at hlevel
    have hnext : s.Next p level = some ((after level).head?.map Prod.fst) := by
      rw [hp]
      exact hlevel.tail.next
    have hpn : p ≠ n := by
      rintro rfl
      refine hn level ?_
      rw [List.map_append, ← List.cons_append]
      exact List.mem_append_left _ (hp ▸ lastNode_mem head (before level))
    obtain ⟨v, hv⟩ := hopen level (Nat.le_refl _) (by omega)
    obtain ⟨s₁, s₂, hs₁, hs₂, hlast, hnew, hother, hkey, hlength₂, hmax₂⟩ := exists_linkAfter hv hnext hpn
    obtain ⟨s', hlink, hlinked', hlength, hmax⟩ := @ih s₂ (level + 1) (by omega) (by
      intro j hj
      by_cases hjl : j = level
      · subst hjl
        rw [if_pos (Nat.lt_succ_self j)]
        refine hlevel.insert (hnodup j) (hn j) (fun y hy hyn => ?_) (hp ▸ hlast) ?_ (fun e _ => hkey e.1)
          ((hkey n).trans hk)
        · exact hother y j (Or.inr ⟨hp ▸ hy, hyn⟩)
        · rw [← hp, hnew, hnext]
      · have hif : (j < level + 1) = (j < level) := propext (by omega)
        simp only [hif]
        exact (hlinked j hj).congr (fun y _ => hother y j (Or.inl hjl)) fun e _ => hkey e.1)
      (fun j hj hjh => by
        obtain ⟨v, hv⟩ := hopen j (by omega) hjh
        exact ⟨v, (hother n j (Or.inl (by omega))).trans hv⟩)
      ((hkey n).trans hk)
    refine ⟨s', ?_, hlinked', by omega, by omega⟩
    rw [List.range'_succ, List.map_cons, link, ← hp, hnext]
    simp only [Option.bind_eq_bind, Option.bind_some, hs₁, hs₂]
    exact hlink

/-- A test that is not passed any more after some element cuts a list in two. -/
theorem filter_append_filter_not {α : Type} {test : α → Bool} {l : List α}
    (h : l.Pairwise fun a b => test b = true → test a = true) :
    l.filter test ++ l.filter (fun a => !test a) = l := by
  induction l with
  | nil => rfl
  | cons a l ih =>
    obtain ⟨ha, hl⟩ := List.pairwise_cons.1 h
    by_cases htest : test a = true
    · rw [List.filter_cons_of_pos htest, List.filter_cons_of_neg (by simp [htest]), List.cons_append, ih hl]
    · have hlater : ∀ b ∈ l, test b = false := fun b hb => by
        by_contra hne
        exact htest (ha b hb (by simpa using hne))
      rw [List.filter_cons_of_neg htest, List.filter_eq_nil_iff.2 fun b hb => by simp [hlater b hb], List.nil_append,
        List.filter_cons_of_pos (by simpa using htest), List.filter_eq_self.2 fun b hb => by simp [hlater b hb]]

/-- The last nodes of the levels below a height, when those of the levels from `m` on are the head. -/
theorem take_prev {f : ℕ → ℕ} {m : ℕ} (h : ∀ j, m ≤ j → f j = head) (height : ℕ) :
    ((List.range m).map f ++ List.replicate (height - m) head).take height = (List.range height).map f := by
  apply List.ext_getElem
  · simp
    omega
  · intro j hj hj'
    rw [List.length_map, List.length_range] at hj'
    rw [List.getElem_take, List.getElem_map, List.getElem_range, List.getElem_append]
    split
    · rw [List.getElem_map, List.getElem_range]
    · rename_i hm
      rw [List.length_map, List.length_range] at hm
      rw [List.getElem_replicate, h j (by omega)]

variable (compare) in
/-- The lists of the levels after a node with this key and height has been put in. -/
def inserted (n : ℕ) (k : κ) (height : ℕ) (chain : ℕ → List (ℕ × κ)) (level : ℕ) : List (ℕ × κ) :=
  if level < height then
    (chain level).filter (fun e => compare e.2 k = .lt) ++
      (n, k) :: (chain level).filter (fun e => !decide (compare e.2 k = .lt))
  else chain level

theorem newNode_spec (s : SkipList κ) (k : κ) (height : ℕ) :
    (∀ x < s.nodes.length, ∀ level, (s.NewNode k height).1.Next x level = s.Next x level) ∧
      (∀ x < s.nodes.length, (s.NewNode k height).1.key x = s.key x) ∧
      (∀ level < height, (s.NewNode k height).1.Next s.nodes.length level = some none) ∧
      (s.NewNode k height).1.key s.nodes.length = some k := by
  refine ⟨fun x hx level => ?_, fun x hx => ?_, fun level hlevel => ?_, ?_⟩
  · simp only [Next, NewNode, List.getElem?_append_left hx]
  · simp only [key, NewNode, List.getElem?_append_left hx]
  · simp [Next, NewNode, hlevel]
  · simp [key, NewNode]

section Insert

variable [Std.TransCmp compare]

theorem Levels.split (h : Levels compare s chain) (k : κ) (level : ℕ) :
    (chain level).filter (fun e => compare e.2 k = .lt) ++
      (chain level).filter (fun e => !decide (compare e.2 k = .lt)) = chain level :=
  filter_append_filter_not (h.closed k level)

theorem Levels.sublist_inserted (h : Levels compare s chain) (n : ℕ) (k : κ) (height level : ℕ) :
    (inserted compare n k height chain (level + 1)).Sublist (inserted compare n k height chain level) := by
  have hbelow := h.sublist level
  rw [inserted, inserted]
  by_cases hlevel : level + 1 < height
  · rw [if_pos hlevel, if_pos (by omega)]
    exact (hbelow.filter _).append ((hbelow.filter _).cons_cons _)
  rw [if_neg hlevel]
  split
  · refine hbelow.trans ?_
    conv => lhs; rw [← h.split k level]
    exact (List.Sublist.refl _).append (List.sublist_cons_self ..)
  · exact hbelow

theorem Levels.increasing_inserted (h : Levels compare s chain) {k : κ} (hne : ∀ e ∈ chain 0, compare e.2 k ≠ .eq)
    (n height level : ℕ) : (inserted compare n k height chain level).Pairwise fun a b => compare a.2 b.2 = .lt := by
  have hlevel := h.increasing level
  rw [inserted]
  split
  · refine List.pairwise_append.2 ⟨hlevel.filter _, List.pairwise_cons.2 ⟨fun b hb => ?_, hlevel.filter _⟩, ?_⟩
    · obtain ⟨hb, hnot⟩ := List.mem_filter.1 hb
      have hneq := hne b ((h.sublist_of_le (Nat.zero_le level)).subset hb)
      apply Std.OrientedCmp.gt_iff_lt.1
      cases hcmp : compare b.2 k with
      | lt => simp [hcmp] at hnot
      | eq => exact absurd hcmp hneq
      | gt => rfl
    · intro a ha b hb
      have hlt : compare a.2 k = .lt := of_decide_eq_true (List.mem_filter.1 ha).2
      rcases List.mem_cons.1 hb with rfl | hb
      · exact hlt
      · have hnot := (List.mem_filter.1 hb).2
        have hge : (compare b.2 k).isGE = true := by rwa [not_lt_eq_isGE] at hnot
        exact Std.TransCmp.lt_of_lt_of_isLE hlt (Std.OrientedCmp.isGE_iff_isLE.1 hge)
  · exact hlevel

theorem Levels.perm_inserted (h : Levels compare s chain) (n : ℕ) (k : κ) {height : ℕ} (hpos : 1 ≤ height) :
    (inserted compare n k height chain 0).Perm ((n, k) :: chain 0) := by
  rw [inserted, if_pos (show 0 < height from hpos)]
  conv => rhs; rw [← h.split k 0]
  exact List.perm_middle

/-- An insertion keeps what holds of a list, whatever the draws are. -/
theorem Sound.insert (h : Sound compare s chain) {k : κ}
    (hne : ∀ e ∈ chain 0, compare e.2 k ≠ .eq) (draws : List Bool) :
    ∃ s', s.Insert compare k draws = some s' ∧
      Sound compare s' (inserted compare s.nodes.length k (RandomHeight draws) chain) := by
  obtain ⟨hpos, hheight⟩ := randomHeight_bounds draws
  obtain ⟨height, hdraws⟩ : ∃ height, height = RandomHeight draws := ⟨_, rfl⟩
  rw [← hdraws] at hpos hheight ⊢
  obtain ⟨s₁, hs₁⟩ : ∃ s₁ : SkipList κ, s₁ = { s with maxheight := max s.maxheight height } := ⟨_, rfl⟩
  have hnodes : s₁.nodes = s.nodes := by rw [hs₁]
  obtain ⟨hnext, hkey, hopen, hk⟩ := newNode_spec s₁ k height
  rw [hnodes] at hnext hkey hopen hk
  have hnotmem : ∀ j, s.nodes.length ∉ head :: (chain j).map Prod.fst := fun j hmem =>
    Nat.lt_irrefl _ (h.lt_of_mem hmem)
  have hlinked : ∀ j < kMaxHeight, (s₁.NewNode k height).1.Linked j head (chain j) := by
    intro j hj
    refine (h.linked j hj).congr (fun y hy => ?_) fun e he => ?_
    · rw [hnext y (h.lt_of_mem hy), hs₁]
      rfl
    · rw [hkey e.1 (h.lt_of_mem (List.mem_cons_of_mem _ (List.mem_map_of_mem he))), hs₁]
      rfl
  obtain ⟨s', hlink, hlinked', hlength', hmax'⟩ := @link_spec κ (s₁.NewNode k height).1 s.nodes.length k
    (fun j => (chain j).filter fun e => compare e.2 k = .lt)
    (fun j => (chain j).filter fun e => !decide (compare e.2 k = .lt)) height hheight
    (fun j => by rw [h.split]; exact h.nodup j) (fun j => by rw [h.split]; exact hnotmem j) height 0 (Nat.zero_add _)
    (fun j hj => by rw [if_neg (Nat.not_lt_zero j), h.split]; exact hlinked j hj)
    (fun j _ hj => ⟨none, hopen j hj⟩) hk
  simp only [h.split] at hlinked'
  have hmax : s'.maxheight = max s.maxheight height := hmax'.trans (by rw [hs₁]; rfl)
  have hlength : s'.nodes.length = s.nodes.length + 1 := hlength'.trans (by simp [NewNode, hnodes])
  refine ⟨s', ?_, ⟨⟨hlinked', h.sublist_inserted _ k height, h.increasing_inserted hne _ height⟩, ?_, ?_, ?_⟩⟩
  · -- The node at or after the key has another key, as the assertion asks.
    have hassert : ((((chain 0).find? fun e => (compare e.2 k).isGE).map Prod.fst).bind s.key).any
        (fun a => compare k a = .eq) = false := by
      cases hfind : (chain 0).find? fun e => (compare e.2 k).isGE with
      | none => rfl
      | some e =>
        have he := List.mem_of_find?_eq_some hfind
        rw [Option.map_some, Option.bind_some, (h.linked 0 (by decide)).key e he, Option.any_some]
        exact decide_eq_false fun heq => hne e he (Std.OrientedCmp.eq_symm heq)
    have hprev := @take_prev (fun j => lastNode head ((chain j).filter fun e => compare e.2 k = .lt)) s.maxheight
      (fun j hj => by rw [h.top j hj]; rfl) height
    rw [Insert, findGreaterOrEqual_eq h]
    simp only [Option.bind_eq_bind, Option.bind_some, hassert, Bool.false_eq_true, if_false, ← hdraws, ← hs₁, hprev]
    have hnew : (s₁.NewNode k height).2 = s.nodes.length := congrArg List.length hnodes
    rw [hnew, List.range_eq_range']
    exact hlink
  · intro level hlevel
    rw [hmax] at hlevel
    rw [inserted, if_neg (by omega)]
    exact h.top level (by omega)
  · have := h.maxheight
    omega
  · -- The new node has the next number.
    rw [hlength, List.range_succ]
    refine (((h.perm_inserted s.nodes.length k hpos).map Prod.fst).cons head).trans ?_
    refine (List.Perm.swap ..).trans ?_
    exact (h.nodes.cons s.nodes.length).trans (List.perm_append_singleton ..).symm

end Insert

end SkipList

end RedisDb
