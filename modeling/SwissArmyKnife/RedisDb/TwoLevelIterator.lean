import SwissArmyKnife.RedisDb.Iterator

/-!
# The two-level iterator

`TwoLevelIterator` walks through an index and opens the data iterator of each of its entries, skipping those that are
empty.  It shows the concatenation of what the data iterators show.  The errors of data iterators that were left are
lost, since `SaveError` never saves one: `status` is an error after a run in which no data iterator with an error was
left, when one has reported an error (`run_twoLevel`).
-/

namespace RedisDb

open Cursor (Place Call ahead behind lift)

variable {ι δ κ ν : Type*}

structure TwoLevelIterator (ι δ κ : Type*) where
  s : Status
  indexIter : IteratorWrapper ι κ
  dataIter : IteratorWrapper δ κ
  datablockhandle : Slice
  /-- Whether a data iterator has reported an error after it was opened or moved; not in the source. -/
  reported : Bool
  /-- Whether `SaveError` was given an error; not in the source. -/
  dropped : Bool

namespace TwoLevelIterator

variable (indexIt : Iterator ι κ Slice) (dataIt : Iterator δ κ ν) (callback : Slice → Option δ)

def new (index : ι) : TwoLevelIterator ι δ κ := ⟨.OK, .new indexIt index, .null, [], false, false⟩

def Valid (t : TwoLevelIterator ι δ κ) : Bool := t.dataIter.Valid

def key (t : TwoLevelIterator ι δ κ) : Option κ := t.dataIter.key

def value (t : TwoLevelIterator ι δ κ) : Option ν := t.dataIter.value dataIt

/-- Whether the wrapper has an iterator that reports an error. -/
def failed {σ : Type*} (it : Iterator σ κ ν) (w : IteratorWrapper σ κ) : Bool :=
  w.iter.any fun s => !(it.status s).ok

def status (t : TwoLevelIterator ι δ κ) : Status :=
  match (t.indexIter.status indexIt).filter (!·.ok), (t.dataIter.status dataIt).filter (!·.ok) with
  | some s, _ => s
  | none, some s => s
  | none, none => t.s

/-- The parameter hides the member of the same name, so the test is of the parameter twice. -/
def SaveError (t : TwoLevelIterator ι δ κ) (s : Status) : TwoLevelIterator ι δ κ :=
  let t := { t with dropped := t.dropped || !s.ok }
  if s.ok && !s.ok then { t with s := s } else t

/-- A data iterator was opened or moved. -/
def setData (t : TwoLevelIterator ι δ κ) (w : IteratorWrapper δ κ) : TwoLevelIterator ι δ κ :=
  { t with dataIter := w, reported := t.reported || failed dataIt w }

def SetDataIterator (t : TwoLevelIterator ι δ κ) (iter : Option δ) : TwoLevelIterator ι δ κ :=
  let t := match t.dataIter.status dataIt with
    | some s => t.SaveError s
    | none => t
  t.setData dataIt (t.dataIter.Set dataIt iter)

def InitDataBlock (t : TwoLevelIterator ι δ κ) : Option (TwoLevelIterator ι δ κ) :=
  if t.indexIter.Valid then
    (t.indexIter.value indexIt).map fun handle =>
      -- The data iterator is already that of the handle.
      if t.dataIter.iter.isSome && handle = t.datablockhandle then t
      else SetDataIterator dataIt { t with datablockhandle := handle } (callback handle)
  else some (t.SetDataIterator dataIt none)

def moveIndex (t : TwoLevelIterator ι δ κ) (c : Call κ) : Option (TwoLevelIterator ι δ κ) :=
  (t.indexIter.call indexIt c).map fun w => { t with indexIter := w }

def moveData (t : TwoLevelIterator ι δ κ) (c : Call κ) : Option (TwoLevelIterator ι δ κ) :=
  if t.dataIter.iter.isSome then (t.dataIter.call dataIt c).map (t.setData dataIt) else some t

/-- The index is moved, and then the data iterator of its entry. -/
def load (t : TwoLevelIterator ι δ κ) (c c' : Call κ) : Option (TwoLevelIterator ι δ κ) :=
  ((t.moveIndex indexIt c).bind (InitDataBlock indexIt dataIt callback)).bind fun t => t.moveData dataIt c'

/-- The two loops that skip empty data iterators; there is no result when they run out of fuel. -/
def SkipEmptyDataBlocks (c c' : Call κ) : ℕ → TwoLevelIterator ι δ κ → Option (TwoLevelIterator ι δ κ)
  | 0, _ => none
  | fuel + 1, t =>
    if t.dataIter.iter.isNone || !t.dataIter.Valid then
      if t.indexIter.Valid then
        (t.load indexIt dataIt callback c c').bind (SkipEmptyDataBlocks c c' fuel)
      else some (t.SetDataIterator dataIt none)
    else some t

def SkipEmptyDataBlocksForward (fuel : ℕ) (t : TwoLevelIterator ι δ κ) : Option (TwoLevelIterator ι δ κ) :=
  SkipEmptyDataBlocks indexIt dataIt callback .Next .SeekToFirst fuel t

def SkipEmptyDataBlocksBackward (fuel : ℕ) (t : TwoLevelIterator ι δ κ) : Option (TwoLevelIterator ι δ κ) :=
  SkipEmptyDataBlocks indexIt dataIt callback .Prev .SeekToLast fuel t

def Seek (fuel : ℕ) (t : TwoLevelIterator ι δ κ) (target : κ) : Option (TwoLevelIterator ι δ κ) :=
  (t.load indexIt dataIt callback (.Seek target) (.Seek target)).bind
    (SkipEmptyDataBlocksForward indexIt dataIt callback fuel)

def SeekToFirst (fuel : ℕ) (t : TwoLevelIterator ι δ κ) : Option (TwoLevelIterator ι δ κ) :=
  (t.load indexIt dataIt callback .SeekToFirst .SeekToFirst).bind
    (SkipEmptyDataBlocksForward indexIt dataIt callback fuel)

def SeekToLast (fuel : ℕ) (t : TwoLevelIterator ι δ κ) : Option (TwoLevelIterator ι δ κ) :=
  (t.load indexIt dataIt callback .SeekToLast .SeekToLast).bind
    (SkipEmptyDataBlocksBackward indexIt dataIt callback fuel)

/-- `Next`; there is no result when the assertion fails. -/
def Next (fuel : ℕ) (t : TwoLevelIterator ι δ κ) : Option (TwoLevelIterator ι δ κ) :=
  if t.Valid then (t.moveData dataIt .Next).bind (SkipEmptyDataBlocksForward indexIt dataIt callback fuel) else none

/-- `Prev`; there is no result when the assertion fails. -/
def Prev (fuel : ℕ) (t : TwoLevelIterator ι δ κ) : Option (TwoLevelIterator ι δ κ) :=
  if t.Valid then (t.moveData dataIt .Prev).bind (SkipEmptyDataBlocksBackward indexIt dataIt callback fuel) else none

/-- The two-level iterator is an iterator again. -/
def iterator (fuel : ℕ) : Iterator (TwoLevelIterator ι δ κ) κ ν where
  Valid := Valid
  key := key
  value := value dataIt
  status := status indexIt dataIt
  Seek := Seek indexIt dataIt callback fuel
  SeekToFirst := SeekToFirst indexIt dataIt callback fuel
  SeekToLast := SeekToLast indexIt dataIt callback fuel
  Next := Next indexIt dataIt callback fuel
  Prev := Prev indexIt dataIt callback fuel

/-! ### The place in the concatenation -/

section Stands

open IteratorWrapper (At)

variable {indexIt dataIt callback} {cmp : κ → κ → Ordering} {index : List (κ × Slice)} {D : Slice → List (κ × ν)}
  {RI : ι → Option (Place (κ × Slice)) → Prop} {RD : Slice → δ → Option (Place (κ × ν)) → Prop}

/-- The entries of the index lead to data iterators, and each of its keys is at least the keys of its data and less
than those of the data after it. -/
structure Indexes (indexIt : Iterator ι κ Slice) (dataIt : Iterator δ κ ν) (callback : Slice → Option δ)
    (cmp : κ → κ → Ordering) (index : List (κ × Slice)) (D : Slice → List (κ × ν))
    (RI : ι → Option (Place (κ × Slice)) → Prop) (RD : Slice → δ → Option (Place (κ × ν)) → Prop) : Prop where
  indexShows : indexIt.Shows cmp index RI
  dataShows : ∀ e ∈ index, dataIt.Shows cmp (D e.2) (RD e.2)
  opened : ∀ e ∈ index, ∃ d, callback e.2 = some d ∧ ∃ q, RD e.2 d q
  own : ∀ e ∈ index, ∀ a ∈ D e.2, (cmp a.1 e.1).isLE
  below : index.Pairwise fun e e' => ∀ a ∈ D e'.2, cmp e.1 a.1 = .lt

/-- What the data iterators show one after the other. -/
def concatenation (index : List (κ × Slice)) (D : Slice → List (κ × ν)) : List (κ × ν) := index.flatMap fun e => D e.2

/-- The data iterator, if there is one, is that of the handle. -/
def Opened (index : List (κ × Slice)) (RD : Slice → δ → Option (Place (κ × ν)) → Prop)
    (t : TwoLevelIterator ι δ κ) : Prop :=
  t.dataIter.iter = none ∨ ∃ e ∈ index, t.datablockhandle = e.2 ∧ ∃ q, At (RD e.2) t.dataIter q

/-- The index iterator is at the place `p` and the data iterator of its entry at `q`. -/
def Loaded (index : List (κ × Slice)) (D : Slice → List (κ × ν)) (RI : ι → Option (Place (κ × Slice)) → Prop)
    (RD : Slice → δ → Option (Place (κ × ν)) → Prop) (t : TwoLevelIterator ι δ κ) :
    Option (Place (κ × Slice)) → Option (Place (κ × ν)) → Prop
  | none, _ => At RI t.indexIter none ∧ t.dataIter.iter = none ∧ t.dataIter.vali = false
  | some p, q => At RI t.indexIter (some p) ∧ p.toList = index ∧ t.datablockhandle = p.current.2 ∧
      At (RD p.current.2) t.dataIter q ∧ ∀ Q ∈ q, Q.toList = D p.current.2

/-- Where the two iterators stand when the two-level iterator is at the place. -/
def Stands (index : List (κ × Slice)) (D : Slice → List (κ × ν)) (RI : ι → Option (Place (κ × Slice)) → Prop)
    (RD : Slice → δ → Option (Place (κ × ν)) → Prop) (t : TwoLevelIterator ι δ κ) : Option (Place (κ × ν)) → Prop
  | none => t.dataIter.iter = none ∧ t.dataIter.vali = false ∧
      ∃ p, At RI t.indexIter p ∧ ∀ P ∈ p, P.toList = index
  | some P => ∃ p q, Loaded index D RI RD t (some p) (some q) ∧ P = lift (fun e => D e.2) p q

theorem indexIter_setData (t : TwoLevelIterator ι δ κ) (w : IteratorWrapper δ κ) :
    (t.setData dataIt w).indexIter = t.indexIter := rfl

/-- Setting the data iterator leaves the index iterator and the handle. -/
private theorem setDataIterator_same (dataIt : Iterator δ κ ν) (t : TwoLevelIterator ι δ κ) (iter : Option δ) :
    (t.SetDataIterator dataIt iter).indexIter = t.indexIter ∧
      (t.SetDataIterator dataIt iter).datablockhandle = t.datablockhandle ∧
      (t.SetDataIterator dataIt iter).dataIter = t.dataIter.Set dataIt iter := by
  unfold SetDataIterator
  cases t.dataIter.status dataIt with
  | none => exact ⟨rfl, rfl, rfl⟩
  | some s =>
    have hsave : (t.SaveError s).indexIter = t.indexIter ∧ (t.SaveError s).datablockhandle = t.datablockhandle ∧
        (t.SaveError s).dataIter = t.dataIter := by
      unfold SaveError
      split <;> exact ⟨rfl, rfl, rfl⟩
    exact ⟨hsave.1, hsave.2.1, by simp [setData, hsave.2.2]⟩

private theorem initDataBlock_some (h : Indexes indexIt dataIt callback cmp index D RI RD)
    {t : TwoLevelIterator ι δ κ} {p : Place (κ × Slice)} (hindex : At RI t.indexIter (some p)) (hp : p.toList = index)
    (hopened : Opened index RD t) : ∃ t', t.InitDataBlock indexIt dataIt callback = some t' ∧
      t'.indexIter = t.indexIter ∧ t'.datablockhandle = p.current.2 ∧ ∃ q, At (RD p.current.2) t'.dataIter q := by
  have hmem : p.current ∈ index := hp ▸ by simp [Place.toList]
  rw [InitDataBlock, if_pos (by simp [IteratorWrapper.Valid, hindex.vali]),
    hindex.value_eq h.indexShows, Option.map_some]
  refine ⟨_, rfl, ?_⟩
  by_cases hsame : (t.dataIter.iter.isSome && decide (p.current.2 = t.datablockhandle)) = true
  · rw [if_pos hsame]
    obtain ⟨hsome, hhandle⟩ := Bool.and_eq_true_iff.1 hsame
    rcases hopened with hnone | ⟨e, -, hhandle', q, hat⟩
    · simp [hnone] at hsome
    · have heq : p.current.2 = e.2 := (of_decide_eq_true hhandle).trans hhandle'
      exact ⟨rfl, (of_decide_eq_true hhandle).symm, q, heq ▸ hat⟩
  · rw [if_neg hsame]
    obtain ⟨d, hd, q, hR⟩ := h.opened _ hmem
    obtain ⟨hindexIter, hhandle, hdata⟩ := setDataIterator_same dataIt
      { t with datablockhandle := p.current.2 } (callback p.current.2)
    refine ⟨hindexIter, hhandle, q, ?_⟩
    rw [hdata, hd]
    exact IteratorWrapper.at_update (h.dataShows _ hmem) _ hR

private theorem load_loaded (h : Indexes indexIt dataIt callback cmp index D RI RD) {t : TwoLevelIterator ι δ κ}
    {p p' : Option (Place (κ × Slice))} (hindex : At RI t.indexIter p) (hp : ∀ P ∈ p, P.toList = index)
    (hopened : Opened index RD t) (c c' : Call κ) (hc : Cursor.call cmp index p c = some p')
    {g : List (κ × ν) → Option (Place (κ × ν))} (hc' : ∀ l q, Cursor.call cmp l q c' = some (g l)) :
    ∃ t', t.load indexIt dataIt callback c c' = some t' ∧
      Loaded index D RI RD t' p' (p'.bind fun P => g (D P.current.2)) := by
  obtain ⟨w, hw, hat⟩ := hindex.call h.indexShows hc
  have hmoved : t.moveIndex indexIt c = some { t with indexIter := w } := congrArg (Option.map _) hw
  have hlist := Cursor.call_toList hp hc
  rw [load, hmoved, Option.bind_some]
  cases p' with
  | none =>
    have hinit : InitDataBlock indexIt dataIt callback { t with indexIter := w } =
        some (SetDataIterator dataIt { t with indexIter := w } none) :=
      if_neg (by simp [IteratorWrapper.Valid, hat.vali])
    obtain ⟨hindexIter, -, hdata⟩ := setDataIterator_same dataIt { t with indexIter := w } none
    rw [hinit, Option.bind_some]
    refine ⟨_, if_neg (by simp [hdata, IteratorWrapper.Set]), ?_⟩
    exact ⟨by rwa [hindexIter], by simp [hdata, IteratorWrapper.Set], by simp [hdata, IteratorWrapper.Set]⟩
  | some P =>
    have hmem : P.current ∈ index := hlist P rfl ▸ by simp [Place.toList]
    obtain ⟨t', hinit, hindexIter, hhandle, q, hatq⟩ :=
      initDataBlock_some h (t := { t with indexIter := w }) hat (hlist P rfl) hopened
    obtain ⟨w', hw', hat'⟩ := hatq.call (h.dataShows _ hmem) (hc' _ q)
    rw [hinit, Option.bind_some]
    obtain ⟨d, hd, -⟩ := hatq.iter
    refine ⟨t'.setData dataIt w', ?_, ?_⟩
    · rw [moveData, if_pos (by simp [hd]), hw', Option.map_some]
    · exact ⟨by rwa [indexIter_setData, hindexIter], hlist P rfl, hhandle, hat',
        Cursor.call_toList (p := none) (by simp) (hc' _ none)⟩

/-- A loop that skips empty data iterators goes to the nearest place in its direction. -/
private theorem skip_stands (h : Indexes indexIt dataIt callback cmp index D RI RD) {c c' : Call κ}
    (step : Place (κ × Slice) → Option (Place (κ × Slice))) {g : List (κ × ν) → Option (Place (κ × ν))}
    {toward : Option (Place (κ × Slice)) → Option (Place (κ × ν)) → Option (Place (κ × ν))}
    (remaining : Place (κ × Slice) → ℕ) (hc : ∀ p, Cursor.call cmp index (some p) c = some (step p))
    (hc' : ∀ l q, Cursor.call cmp l q c' = some (g l)) (hremaining : ∀ p, ∀ p' ∈ step p, remaining p' < remaining p)
    (hnone : ∀ q, toward none q = none) (hsome : ∀ p q, toward (some p) (some q) = some (lift (fun e => D e.2) p q))
    (hstep : ∀ p, toward (some p) none = toward (step p) ((step p).bind fun P => g (D P.current.2))) (fuel : ℕ)
    {t : TwoLevelIterator ι δ κ} {p : Option (Place (κ × Slice))} {q : Option (Place (κ × ν))}
    (ht : Loaded index D RI RD t p q) (hfuel : ∀ P ∈ p, remaining P + 1 < fuel) (hpos : 0 < fuel) :
    ∃ t', t.SkipEmptyDataBlocks indexIt dataIt callback c c' fuel = some t' ∧
      Stands index D RI RD t' (toward p q) := by
  induction fuel generalizing t p q with
  | zero => omega
  | succ fuel ih =>
    rw [SkipEmptyDataBlocks]
    match p, q with
    | none, q =>
      obtain ⟨hindex, hiter, hvali⟩ := ht
      obtain ⟨hindexIter, -, hdata⟩ := setDataIterator_same dataIt t none
      rw [if_pos (by simp [hiter]), if_neg (by simp [IteratorWrapper.Valid, hindex.vali]), hnone]
      exact ⟨_, rfl, by simp [hdata, IteratorWrapper.Set], by simp [hdata, IteratorWrapper.Set], none,
        by rwa [hindexIter], by simp⟩
    | some P, some Q =>
      have hat := ht.2.2.2.1
      obtain ⟨d, hd, -⟩ := hat.iter
      rw [if_neg (by simp [IteratorWrapper.Valid, hat.vali, hd]), hsome]
      exact ⟨t, rfl, P, Q, ht, rfl⟩
    | some P, none =>
      obtain ⟨hindex, hlist, hhandle, hat, -⟩ := ht
      rw [if_pos (by simp [IteratorWrapper.Valid, hat.vali]), if_pos (by simp [IteratorWrapper.Valid, hindex.vali])]
      have hmem : P.current ∈ index := hlist ▸ by simp [Place.toList]
      obtain ⟨t', ht', hloaded⟩ := load_loaded h hindex (by simpa using hlist)
        (.inr ⟨P.current, hmem, hhandle, none, hat⟩) _ _ (hc P) hc'
      have hP := hfuel P rfl
      obtain ⟨t'', ht'', hstands⟩ := ih hloaded (fun P' hP' => by have := hremaining P P' hP'; omega) (by omega)
      exact ⟨t'', by rw [ht', Option.bind_some, ht''], hstep P ▸ hstands⟩

private theorem skipForward_stands (h : Indexes indexIt dataIt callback cmp index D RI RD) {fuel : ℕ}
    (hfuel : index.length < fuel) {t : TwoLevelIterator ι δ κ} {p : Option (Place (κ × Slice))}
    {q : Option (Place (κ × ν))} (ht : Loaded index D RI RD t p q) :
    ∃ t', t.SkipEmptyDataBlocksForward indexIt dataIt callback fuel = some t' ∧
      Stands index D RI RD t' (ahead (fun e => D e.2) p q) := by
  refine skip_stands h Place.next (g := Cursor.first) (fun P => P.after.length)
    (fun _ => rfl) (fun _ _ => rfl) ?_ (fun _ => rfl) (fun _ _ => rfl) (fun P => Cursor.ahead_none P) fuel ht ?_
    (by omega)
  · intro P P' hP'
    cases hafter : P.after with
    | nil => simp [Place.next, hafter, Cursor.front] at hP'
    | cons a after =>
      rw [Place.next, hafter] at hP'
      cases hP'
      simp
  · rintro P rfl
    have hlist : P.toList = index := ht.2.1
    have : index.length = P.before.length + (P.after.length + 1) := by simp [← hlist, Place.toList]
    omega

private theorem skipBackward_stands (h : Indexes indexIt dataIt callback cmp index D RI RD) {fuel : ℕ}
    (hfuel : index.length < fuel) {t : TwoLevelIterator ι δ κ} {p : Option (Place (κ × Slice))}
    {q : Option (Place (κ × ν))} (ht : Loaded index D RI RD t p q) :
    ∃ t', t.SkipEmptyDataBlocksBackward indexIt dataIt callback fuel = some t' ∧
      Stands index D RI RD t' (behind (fun e => D e.2) p q) := by
  refine skip_stands h Place.prev (g := Cursor.last) (fun P => P.before.length)
    (fun _ => rfl) (fun _ _ => rfl) ?_ (fun _ => rfl) (fun _ _ => rfl) (fun P => Cursor.behind_none P) fuel ht ?_
    (by omega)
  · intro P P' hP'
    cases hbefore : P.before with
    | nil => simp [Place.prev, hbefore, Cursor.back] at hP'
    | cons a before =>
      rw [Place.prev, hbefore] at hP'
      cases hP'
      simp
  · rintro P rfl
    have hlist : P.toList = index := ht.2.1
    have : index.length = P.before.length + (P.after.length + 1) := by simp [← hlist, Place.toList]
    omega

/-- What is known of the two iterators wherever the two-level iterator stands. -/
private theorem Stands.opened {t : TwoLevelIterator ι δ κ} {p : Option (Place (κ × ν))}
    (ht : Stands index D RI RD t p) :
    Opened index RD t ∧ ∃ P, At RI t.indexIter P ∧ ∀ Q ∈ P, Q.toList = index := by
  cases p with
  | none => exact ⟨.inl ht.1, ht.2.2⟩
  | some P =>
    obtain ⟨p, q, ⟨hindex, hlist, hhandle, hat, -⟩, -⟩ := ht
    exact ⟨.inr ⟨p.current, hlist ▸ by simp [Place.toList], hhandle, _, hat⟩, some p, hindex, by simpa using hlist⟩

/-- A call moves the data iterator. -/
private theorem moveData_loaded (h : Indexes indexIt dataIt callback cmp index D RI RD) {t : TwoLevelIterator ι δ κ}
    {p : Place (κ × Slice)} {q : Place (κ × ν)} (ht : Loaded index D RI RD t (some p) (some q)) {c : Call κ}
    {q' : Option (Place (κ × ν))} (hc : Cursor.call cmp (D p.current.2) (some q) c = some q') :
    t.Valid = true ∧ ∃ t', t.moveData dataIt c = some t' ∧ Loaded index D RI RD t' (some p) q' := by
  obtain ⟨hindex, hlist, hhandle, hat, hq⟩ := ht
  have hmem : p.current ∈ index := hlist ▸ by simp [Place.toList]
  obtain ⟨d, hd, -⟩ := hat.iter
  obtain ⟨w, hw, hat'⟩ := hat.call (h.dataShows _ hmem) hc
  refine ⟨by simp [Valid, IteratorWrapper.Valid, hat.vali], t.setData dataIt w, ?_, ?_⟩
  · rw [moveData, if_pos (by simp [hd]), hw, Option.map_some]
  · exact ⟨hindex, hlist, hhandle, hat', Cursor.call_toList hq hc⟩

/-- The two-level iterator shows the concatenation. -/
theorem iterator_shows [Std.TransCmp cmp] (h : Indexes indexIt dataIt callback cmp index D RI RD) {fuel : ℕ}
    (hfuel : index.length < fuel) :
    (iterator indexIt dataIt callback fuel).Shows cmp (concatenation index D) (Stands index D RI RD) where
  valid := by
    rintro t (_ | P) ht
    · exact ht.2.1
    · obtain ⟨p, q, ⟨-, -, -, hat, -⟩, -⟩ := ht
      exact hat.vali
  key := by
    rintro t P ⟨p, q, ⟨-, -, -, hat, -⟩, rfl⟩
    exact hat.key_eq
  value := by
    rintro t P ⟨p, q, ⟨-, hlist, -, hat, -⟩, rfl⟩
    exact hat.value_eq (h.dataShows p.current (hlist ▸ by simp [Place.toList]))
  call := by
    intro t p c p' ht hcall
    obtain ⟨hopened, P, hindex, hP⟩ := ht.opened
    cases c with
    | Seek target =>
      cases hcall
      obtain ⟨t₁, ht₁, hloaded⟩ := load_loaded h hindex hP hopened (.Seek target) (.Seek target) rfl fun _ _ => rfl
      obtain ⟨t₂, ht₂, hstands⟩ := skipForward_stands h hfuel hloaded
      refine ⟨t₂, by simp only [Iterator.call, iterator, Seek, ht₁, Option.bind_some, ht₂], ?_⟩
      rw [concatenation, Cursor.seek_flatMap fun e => (cmp e.1 target).isGE]
      · exact hstands
      · -- The keys of a block are at most its index key.
        intro e he hge a ha
        have hlt : cmp e.1 target = .lt := by
          rw [← Ordering.isLT_iff_eq_lt, ← Ordering.not_isGE_eq_isLT, hge]
          rfl
        rw [Std.TransCmp.lt_of_isLE_of_lt (h.own e he a ha) hlt]
        rfl
      · refine h.below.imp fun hbelow hge a ha => ?_
        exact Ordering.isGE_of_eq_gt (Std.TransCmp.gt_of_gt_of_isGE (Std.OrientedCmp.gt_of_lt (hbelow a ha)) hge)
    | SeekToFirst =>
      cases hcall
      obtain ⟨t₁, ht₁, hloaded⟩ := load_loaded h hindex hP hopened .SeekToFirst .SeekToFirst rfl fun _ _ => rfl
      obtain ⟨t₂, ht₂, hstands⟩ := skipForward_stands h hfuel hloaded
      refine ⟨t₂, by simp only [Iterator.call, iterator, SeekToFirst, ht₁, Option.bind_some, ht₂], ?_⟩
      rwa [concatenation, Cursor.first_flatMap]
    | SeekToLast =>
      cases hcall
      obtain ⟨t₁, ht₁, hloaded⟩ := load_loaded h hindex hP hopened .SeekToLast .SeekToLast rfl fun _ _ => rfl
      obtain ⟨t₂, ht₂, hstands⟩ := skipBackward_stands h hfuel hloaded
      refine ⟨t₂, by simp only [Iterator.call, iterator, SeekToLast, ht₁, Option.bind_some, ht₂], ?_⟩
      rwa [concatenation, Cursor.last_flatMap]
    | Next =>
      obtain ⟨Q, rfl, rfl⟩ := Option.map_eq_some_iff.1 hcall
      obtain ⟨p, q, hloaded, rfl⟩ := ht
      obtain ⟨hvalid, t₁, ht₁, hloaded'⟩ := moveData_loaded h hloaded (c := .Next) rfl
      obtain ⟨t₂, ht₂, hstands⟩ := skipForward_stands h hfuel hloaded'
      refine ⟨t₂, by simp only [Iterator.call, iterator, Next, hvalid, if_true, ht₁, Option.bind_some, ht₂], ?_⟩
      rwa [Cursor.lift_next (hloaded.2.2.2.2 q rfl)]
    | Prev =>
      obtain ⟨Q, rfl, rfl⟩ := Option.map_eq_some_iff.1 hcall
      obtain ⟨p, q, hloaded, rfl⟩ := ht
      obtain ⟨hvalid, t₁, ht₁, hloaded'⟩ := moveData_loaded h hloaded (c := .Prev) rfl
      obtain ⟨t₂, ht₂, hstands⟩ := skipBackward_stands h hfuel hloaded'
      refine ⟨t₂, by simp only [Iterator.call, iterator, Prev, hvalid, if_true, ht₁, Option.bind_some, ht₂], ?_⟩
      rwa [Cursor.lift_prev (hloaded.2.2.2.2 q rfl)]

end Stands

/-! ### Errors -/

section Errors

variable {indexIt dataIt callback} {t t' : TwoLevelIterator ι δ κ}

/-- No error is saved.  As long as none was dropped, an error that was reported is that of the data iterator. -/
structure Keeps (dataIt : Iterator δ κ ν) (t : TwoLevelIterator ι δ κ) : Prop where
  saved : t.s = .OK
  current : t.dropped = false → t.reported = true → failed dataIt t.dataIter = true

private theorem failed_call (hsticky : dataIt.Sticky) {w w' : IteratorWrapper δ κ} {c : Call κ}
    (hcall : w.call dataIt c = some w') (hw : failed dataIt w = true) : failed dataIt w' = true := by
  unfold failed at hw ⊢
  cases hiter : w.iter with
  | none => simp [hiter] at hw
  | some d =>
    have hd : (dataIt.status d).ok = false := by simpa [hiter] using hw
    obtain ⟨d', hd', hw'⟩ : ∃ d', dataIt.call d c = some d' ∧ w'.iter = some d' := by
      cases c
      all_goals
        obtain ⟨d', hd', rfl⟩ := Option.map_eq_some_iff.1 hcall
        rw [hiter] at hd'
        exact ⟨d', hd', rfl⟩
    simp [hw', hsticky d c d' hd' hd]

private theorem Keeps.setData (ht : Keeps dataIt t) {w : IteratorWrapper δ κ}
    (hw : t.dropped = false → failed dataIt t.dataIter = true → failed dataIt w = true) :
    Keeps dataIt (t.setData dataIt w) where
  saved := ht.saved
  current := by
    intro hdropped hreported
    rcases Bool.or_eq_true_iff.1 hreported with hreported | hfailed
    · exact hw hdropped (ht.current hdropped hreported)
    · exact hfailed

private theorem Keeps.moveData (hsticky : dataIt.Sticky) (ht : Keeps dataIt t) {c : Call κ}
    (hmove : t.moveData dataIt c = some t') : Keeps dataIt t' := by
  rw [TwoLevelIterator.moveData] at hmove
  split at hmove
  · obtain ⟨w, hw, rfl⟩ := Option.map_eq_some_iff.1 hmove
    exact ht.setData fun _ => failed_call hsticky hw
  · cases hmove
    exact ht

/-- When the data iterator that is left has an error, the error is dropped. -/
private theorem Keeps.setDataIterator (ht : Keeps dataIt t) (iter : Option δ) :
    Keeps dataIt (t.SetDataIterator dataIt iter) := by
  unfold SetDataIterator
  cases hiter : t.dataIter.iter with
  | none =>
    simp only [IteratorWrapper.status, hiter, Option.map_none]
    exact ht.setData fun _ hfailed => by simp [failed, hiter] at hfailed
  | some d =>
    simp only [IteratorWrapper.status, hiter, Option.map_some]
    have hsave : t.SaveError (dataIt.status d) = { t with dropped := t.dropped || !(dataIt.status d).ok } := by
      simp [SaveError]
    have hkeeps : Keeps dataIt { t with dropped := t.dropped || !(dataIt.status d).ok } :=
      ⟨ht.saved, fun hdropped => ht.current (Bool.or_eq_false_iff.1 hdropped).1⟩
    rw [hsave]
    refine hkeeps.setData ?_
    intro hdropped hfailed
    have hok := (Bool.or_eq_false_iff.1 hdropped).2
    simp [failed, hiter] at hfailed
    simp [hfailed] at hok

private theorem Keeps.initDataBlock (ht : Keeps dataIt t)
    (hinit : t.InitDataBlock indexIt dataIt callback = some t') : Keeps dataIt t' := by
  rw [InitDataBlock] at hinit
  split at hinit
  · obtain ⟨handle, -, rfl⟩ := Option.map_eq_some_iff.1 hinit
    split
    · exact ht
    · have hkeeps : Keeps dataIt { t with datablockhandle := handle } := ⟨ht.saved, ht.current⟩
      exact hkeeps.setDataIterator _
  · cases hinit
    exact ht.setDataIterator none

private theorem Keeps.load (hsticky : dataIt.Sticky) (ht : Keeps dataIt t) {c c' : Call κ}
    (hload : t.load indexIt dataIt callback c c' = some t') : Keeps dataIt t' := by
  obtain ⟨t₂, hload, hmove⟩ := Option.bind_eq_some_iff.1 hload
  obtain ⟨t₁, hindex, hinit⟩ := Option.bind_eq_some_iff.1 hload
  obtain ⟨w, -, rfl⟩ := Option.map_eq_some_iff.1 hindex
  have hkeeps : Keeps dataIt { t with indexIter := w } := ⟨ht.saved, ht.current⟩
  exact (hkeeps.initDataBlock hinit).moveData hsticky hmove

private theorem Keeps.skip (hsticky : dataIt.Sticky) (ht : Keeps dataIt t) {c c' : Call κ} {fuel : ℕ}
    (hskip : t.SkipEmptyDataBlocks indexIt dataIt callback c c' fuel = some t') : Keeps dataIt t' := by
  induction fuel generalizing t with
  | zero => simp [SkipEmptyDataBlocks] at hskip
  | succ fuel ih =>
    rw [SkipEmptyDataBlocks] at hskip
    split at hskip
    · split at hskip
      · obtain ⟨t₁, hload, hskip⟩ := Option.bind_eq_some_iff.1 hskip
        exact ih (ht.load hsticky hload) hskip
      · cases hskip
        exact ht.setDataIterator none
    · cases hskip
      exact ht

private theorem Keeps.call (hsticky : dataIt.Sticky) (ht : Keeps dataIt t) {c : Call κ} {fuel : ℕ}
    (hcall : (iterator indexIt dataIt callback fuel).call t c = some t') : Keeps dataIt t' := by
  cases c with
  | Seek target =>
    obtain ⟨t₁, hload, hskip⟩ := Option.bind_eq_some_iff.1 hcall
    exact (ht.load hsticky hload).skip hsticky hskip
  | SeekToFirst =>
    obtain ⟨t₁, hload, hskip⟩ := Option.bind_eq_some_iff.1 hcall
    exact (ht.load hsticky hload).skip hsticky hskip
  | SeekToLast =>
    obtain ⟨t₁, hload, hskip⟩ := Option.bind_eq_some_iff.1 hcall
    exact (ht.load hsticky hload).skip hsticky hskip
  | Next =>
    simp only [Iterator.call, iterator, Next] at hcall
    split at hcall
    · obtain ⟨t₁, hmove, hskip⟩ := Option.bind_eq_some_iff.1 hcall
      exact (ht.moveData hsticky hmove).skip hsticky hskip
    · cases hcall
  | Prev =>
    simp only [Iterator.call, iterator, Prev] at hcall
    split at hcall
    · obtain ⟨t₁, hmove, hskip⟩ := Option.bind_eq_some_iff.1 hcall
      exact (ht.moveData hsticky hmove).skip hsticky hskip
    · cases hcall

theorem run_keeps (hsticky : dataIt.Sticky) {fuel : ℕ} {calls : List (Call κ)} (ht : Keeps dataIt t)
    (hrun : (iterator indexIt dataIt callback fuel).run t calls = some t') : Keeps dataIt t' := by
  induction calls generalizing t with
  | nil =>
    cases hrun
    exact ht
  | cons c calls ih =>
    obtain ⟨t₁, hcall, hrest⟩ := Option.bind_eq_some_iff.1 hrun
    exact ih (ht.call hsticky hcall) hrest

/-- The status is that of the two iterators. -/
theorem Keeps.status_ok (ht : Keeps dataIt t) :
    (t.status indexIt dataIt).ok = true ↔ failed indexIt t.indexIter = false ∧ failed dataIt t.dataIter = false := by
  unfold status failed IteratorWrapper.status
  cases t.indexIter.iter with
  | none =>
    cases t.dataIter.iter with
    | none => simp [ht.saved]
    | some d => cases hd : (dataIt.status d).ok <;> simp [hd, ht.saved, Option.filter]
  | some i =>
    cases hi : (indexIt.status i).ok with
    | false => simp [hi, Option.filter]
    | true =>
      cases t.dataIter.iter with
      | none => simp [hi, ht.saved, Option.filter]
      | some d => cases hd : (dataIt.status d).ok <;> simp [hi, hd, ht.saved, Option.filter]

end Errors

/-! ### Runs -/

section Runs

variable {indexIt dataIt callback} {cmp : κ → κ → Ordering} [Std.TransCmp cmp] {index : List (κ × Slice)}
  {D : Slice → List (κ × ν)} {RI : ι → Option (Place (κ × Slice)) → Prop}
  {RD : Slice → δ → Option (Place (κ × ν)) → Prop}

/-- After any calls the two-level iterator is where a cursor over the concatenation is, and its status is an error
when a data iterator has reported one, as long as no data iterator with an error was left. -/
theorem run_twoLevel (h : Indexes indexIt dataIt callback cmp index D RI RD) (hsticky : dataIt.Sticky) {i : ι}
    {pi : Option (Place (κ × Slice))} (hi : RI i pi) (hpi : ∀ P ∈ pi, P.toList = index) {fuel : ℕ}
    (hfuel : index.length < fuel) {calls : List (Call κ)} {p : Option (Place (κ × ν))}
    (hrun : Cursor.run cmp (concatenation index D) none calls = some p) :
    ∃ t, (iterator indexIt dataIt callback fuel).run (new indexIt i) calls = some t ∧
      (iterator indexIt dataIt callback fuel).Looks t p ∧
      (t.dropped = false → t.reported = true → (t.status indexIt dataIt).ok = false) := by
  have hnew : Stands index D RI RD (new indexIt i : TwoLevelIterator ι δ κ) none :=
    ⟨rfl, rfl, pi, IteratorWrapper.at_update h.indexShows _ hi, hpi⟩
  obtain ⟨t, ht, hstands⟩ := (iterator_shows h hfuel).run hnew hrun
  have hkeeps : Keeps dataIt t := run_keeps hsticky ⟨rfl, by simp [new]⟩ ht
  refine ⟨t, ht, (iterator_shows h hfuel).looks hstands, fun hdropped hreported => ?_⟩
  by_contra hok
  have hfailed := hkeeps.current hdropped hreported
  rw [Bool.not_eq_false, hkeeps.status_ok] at hok
  simp [hok.2] at hfailed

/-- The data iterators of two blocks, of which the first one cannot be read. -/
def twoBlocks (handle : Slice) : Iterator.OfList ℕ ℕ :=
  if handle = [1] then ⟨[], .Corruption "block checksum mismatch", none⟩ else ⟨[(2, 20), (3, 30)], .OK, none⟩

theorem indexes_twoBlocks : Indexes (.ofList compare) (.ofList compare) (fun handle => some (twoBlocks handle))
    compare [(1, [1]), (3, [2])] (fun handle => (twoBlocks handle).entries)
    (fun i p => i = ⟨[(1, [1]), (3, [2])], .OK, p⟩)
    (fun handle d q => d = ⟨(twoBlocks handle).entries, (twoBlocks handle).status, q⟩) where
  indexShows := Iterator.ofList_shows ..
  dataShows := fun e _ => Iterator.ofList_shows ..
  opened := fun e _ => ⟨_, rfl, none, by unfold twoBlocks; split <;> rfl⟩
  own := by decide
  below := by decide

theorem run_twoLevel_next :
    ∃ t, (iterator (.ofList compare) (.ofList compare) (fun handle => some (twoBlocks handle)) 3).run
        (new (.ofList compare) ⟨[(1, [1]), (3, [2])], .OK, none⟩) [.Seek 2, .Next, .Prev] = some t ∧
      (iterator (.ofList compare) (.ofList compare) (fun handle => some (twoBlocks handle)) 3).Looks t
        (some ⟨[], (2, 20), [(3, 30)]⟩) ∧
      (t.dropped = false → t.reported = true → (t.status (.ofList compare) (.ofList compare)).ok = false) :=
  run_twoLevel indexes_twoBlocks (Iterator.ofList_sticky compare) rfl (by simp) (by decide) (by decide)

/-- The error of the first block is forgotten when the iterator has moved to the second one. -/
theorem status_forgets_error :
    ∃ t, (iterator (.ofList compare) (.ofList compare) (fun handle => some (twoBlocks handle)) 3).run
        (new (.ofList compare) ⟨[(1, [1]), (3, [2])], .OK, none⟩) [.SeekToFirst] = some t ∧
      t.reported = true ∧ t.status (.ofList compare) (.ofList compare) = .OK :=
  ⟨_, rfl, rfl, rfl⟩

end Runs

end TwoLevelIterator

end RedisDb
