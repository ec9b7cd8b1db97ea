import SwissArmyKnife.Lib.Calls
import SwissArmyKnife.RedisDb.Coding
import SwissArmyKnife.RedisDb.Env

/-!
# Iterators

The interface `Iterator` and the wrapper that caches `Valid` and `key`.  An iterator shows a list when it does on
every call what a cursor over the list does (`Iterator.Shows`); the wrapper of an iterator shows the same list.
-/

namespace RedisDb

open Cursor (Place Call)

variable {σ δ κ ν : Type*}

/-- The interface, for iterators with states in `σ`.  A call has no result when an assertion fails or when the call
does not end. -/
structure Iterator (σ κ ν : Type*) where
  Valid : σ → Bool
  key : σ → Option κ
  value : σ → Option ν
  status : σ → Status
  Seek : σ → κ → Option σ
  SeekToFirst : σ → Option σ
  SeekToLast : σ → Option σ
  Next : σ → Option σ
  Prev : σ → Option σ

namespace Iterator

def call (it : Iterator σ κ ν) (s : σ) : Call κ → Option σ
  | .Seek target => it.Seek s target
  | .SeekToFirst => it.SeekToFirst s
  | .SeekToLast => it.SeekToLast s
  | .Next => it.Next s
  | .Prev => it.Prev s

def run (it : Iterator σ κ ν) (s : σ) : List (Call κ) → Option σ
  | [] => some s
  | c :: calls => (it.call s c).bind fun s' => it.run s' calls

/-- In the states that `R` relates to a place the iterator shows the element of the place, and every call that is
allowed leads to a state of the place to which it leads a cursor over the list. -/
structure Shows (cmp : κ → κ → Ordering) (it : Iterator σ κ ν) (l : List (κ × ν))
    (R : σ → Option (Place (κ × ν)) → Prop) : Prop where
  valid : ∀ s p, R s p → it.Valid s = p.isSome
  key : ∀ s p, R s (some p) → it.key s = some p.current.1
  value : ∀ s p, R s (some p) → it.value s = some p.current.2
  call : ∀ s p c p', R s p → Cursor.call cmp l p c = some p' → ∃ s', it.call s c = some s' ∧ R s' p'

/-- What a client sees of the iterator is what it sees of the cursor. -/
structure Looks (it : Iterator σ κ ν) (s : σ) (p : Option (Place (κ × ν))) : Prop where
  valid : it.Valid s = p.isSome
  key : ∀ q ∈ p, it.key s = some q.current.1
  value : ∀ q ∈ p, it.value s = some q.current.2

variable {cmp : κ → κ → Ordering} {it : Iterator σ κ ν} {l : List (κ × ν)} {R : σ → Option (Place (κ × ν)) → Prop}

theorem Shows.looks (h : it.Shows cmp l R) {s : σ} {p : Option (Place (κ × ν))} (hR : R s p) : it.Looks s p where
  valid := h.valid s p hR
  key := by
    rintro q rfl
    exact h.key s q hR
  value := by
    rintro q rfl
    exact h.value s q hR

theorem Shows.run (h : it.Shows cmp l R) {s : σ} {p p' : Option (Place (κ × ν))} (hR : R s p) {calls : List (Call κ)}
    (hrun : Cursor.run cmp l p calls = some p') : ∃ s', it.run s calls = some s' ∧ R s' p' := by
  induction calls generalizing s p with
  | nil =>
    cases hrun
    exact ⟨s, rfl, hR⟩
  | cons c calls ih =>
    obtain ⟨p₁, hcall, hrest⟩ := Option.bind_eq_some_iff.1 hrun
    obtain ⟨s₁, hs₁, hR₁⟩ := h.call s p c p₁ hR hcall
    obtain ⟨s', hs', hR'⟩ := ih hR₁ hrest
    exact ⟨s', by rw [Iterator.run, hs₁, Option.bind_some, hs'], hR'⟩

/-- As the interface asks, an error that has occurred is returned from then on. -/
def Sticky (it : Iterator σ κ ν) : Prop :=
  ∀ s c s', it.call s c = some s' → (it.status s).ok = false → (it.status s').ok = false

/-- An iterator over a list. -/
structure OfList (κ ν : Type*) where
  entries : List (κ × ν)
  status : Status
  place : Option (Place (κ × ν))

/-- Iterators over lists are cursors. -/
def ofList (cmp : κ → κ → Ordering) : Iterator (OfList κ ν) κ ν where
  Valid s := s.place.isSome
  key s := s.place.map fun q => q.current.1
  value s := s.place.map fun q => q.current.2
  status := OfList.status
  Seek s target := (Cursor.call cmp s.entries s.place (.Seek target)).map fun p => { s with place := p }
  SeekToFirst s := (Cursor.call cmp s.entries s.place .SeekToFirst).map fun p => { s with place := p }
  SeekToLast s := (Cursor.call cmp s.entries s.place .SeekToLast).map fun p => { s with place := p }
  Next s := (Cursor.call cmp s.entries s.place .Next).map fun p => { s with place := p }
  Prev s := (Cursor.call cmp s.entries s.place .Prev).map fun p => { s with place := p }

theorem ofList_shows (cmp : κ → κ → Ordering) (l : List (κ × ν)) (status : Status) :
    (ofList cmp).Shows cmp l fun s p => s = ⟨l, status, p⟩ where
  valid := by
    rintro _ p rfl
    rfl
  key := by
    rintro _ p rfl
    rfl
  value := by
    rintro _ p rfl
    rfl
  call := by
    rintro _ p c p' rfl hcall
    refine ⟨⟨l, status, p'⟩, ?_, rfl⟩
    cases c
    all_goals exact congrArg (Option.map _) hcall

theorem ofList_sticky (cmp : κ → κ → Ordering) : (ofList cmp : Iterator (OfList κ ν) κ ν).Sticky := by
  intro s c s' hcall hs
  have hmap : (Cursor.call cmp s.entries s.place c).map (fun p => { s with place := p }) = some s' := by
    cases c <;> exact hcall
  obtain ⟨p, -, rfl⟩ := Option.map_eq_some_iff.1 hmap
  exact hs

end Iterator

/-! ### The wrapper -/

structure IteratorWrapper (σ κ : Type*) where
  iter : Option σ
  vali : Bool
  k : Option κ

namespace IteratorWrapper

variable (it : Iterator σ κ ν)

def Update (w : IteratorWrapper σ κ) (s : σ) : IteratorWrapper σ κ :=
  { iter := some s, vali := it.Valid s, k := if it.Valid s then it.key s else w.k }

def Set (w : IteratorWrapper σ κ) : Option σ → IteratorWrapper σ κ
  | none => { w with iter := none, vali := false }
  | some s => w.Update it s

/-- A wrapper without an iterator. -/
def null : IteratorWrapper σ κ := ⟨none, false, none⟩

/-- A wrapper around the iterator. -/
def new (s : σ) : IteratorWrapper σ κ := null.Set it (some s)

def Valid (w : IteratorWrapper σ κ) : Bool := w.vali

def key (w : IteratorWrapper σ κ) : Option κ := if w.vali then w.k else none

def value (w : IteratorWrapper σ κ) : Option ν := if w.vali then w.iter.bind it.value else none

def status (w : IteratorWrapper σ κ) : Option Status := w.iter.map it.status

def Next (w : IteratorWrapper σ κ) : Option (IteratorWrapper σ κ) := (w.iter.bind it.Next).map (w.Update it)

def Prev (w : IteratorWrapper σ κ) : Option (IteratorWrapper σ κ) := (w.iter.bind it.Prev).map (w.Update it)

def Seek (w : IteratorWrapper σ κ) (k : κ) : Option (IteratorWrapper σ κ) :=
  (w.iter.bind fun s => it.Seek s k).map (w.Update it)

def SeekToFirst (w : IteratorWrapper σ κ) : Option (IteratorWrapper σ κ) :=
  (w.iter.bind it.SeekToFirst).map (w.Update it)

def SeekToLast (w : IteratorWrapper σ κ) : Option (IteratorWrapper σ κ) :=
  (w.iter.bind it.SeekToLast).map (w.Update it)

def call (w : IteratorWrapper σ κ) : Call κ → Option (IteratorWrapper σ κ)
  | .Seek target => w.Seek it target
  | .SeekToFirst => w.SeekToFirst it
  | .SeekToLast => w.SeekToLast it
  | .Next => w.Next it
  | .Prev => w.Prev it

/-- The wrapper holds an iterator at the place, and what it caches is up to date. -/
structure At (R : σ → Option (Place (κ × ν)) → Prop) (w : IteratorWrapper σ κ) (p : Option (Place (κ × ν))) :
    Prop where
  iter : ∃ s, w.iter = some s ∧ R s p
  vali : w.vali = p.isSome
  k : ∀ q ∈ p, w.k = some q.current.1

variable {it} {cmp : κ → κ → Ordering} {l : List (κ × ν)} {R : σ → Option (Place (κ × ν)) → Prop}
  {w : IteratorWrapper σ κ} {p : Option (Place (κ × ν))}

theorem at_update (h : it.Shows cmp l R) (w : IteratorWrapper σ κ) {s : σ} (hR : R s p) : At R (w.Update it s) p where
  iter := ⟨s, rfl, hR⟩
  vali := h.valid s p hR
  k := by
    rintro q rfl
    simp [Update, h.valid s _ hR, h.key s q hR]

theorem At.call (h : it.Shows cmp l R) (hw : At R w p) {c : Call κ} {p' : Option (Place (κ × ν))}
    (hc : Cursor.call cmp l p c = some p') : ∃ w', w.call it c = some w' ∧ At R w' p' := by
  obtain ⟨s, hs, hR⟩ := hw.iter
  obtain ⟨s', hs', hR'⟩ := h.call s p c p' hR hc
  refine ⟨w.Update it s', ?_, at_update h w hR'⟩
  cases c
  all_goals
    simp only [Iterator.call] at hs'
    simp [IteratorWrapper.call, Seek, SeekToFirst, SeekToLast, Next, Prev, hs, hs']

theorem At.key_eq {q : Place (κ × ν)} (hw : At R w (some q)) : w.key = some q.current.1 := by
  simp [key, hw.vali, hw.k q rfl]

theorem At.value_eq (h : it.Shows cmp l R) {q : Place (κ × ν)} (hw : At R w (some q)) :
    w.value it = some q.current.2 := by
  obtain ⟨s, hs, hR⟩ := hw.iter
  simp [value, hw.vali, hs, h.value s q hR]

end IteratorWrapper

end RedisDb
