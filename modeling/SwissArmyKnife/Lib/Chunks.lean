import Mathlib.Data.List.Basic
import Mathlib.Tactic.Common

/-!
# Reading a byte queue

A reader looks at the bytes that wait in a queue and takes some of them off its front, again and again until it has to
wait for more (`drain`).  A reader is resumable along a stream when a step that it takes with only a part of the
stream at hand leads to where it gets with the whole stream.  Then it does not matter into which chunks the stream is
cut (`feedAll_eq_drain`).
-/

namespace Chunks

variable {σ α : Type*}

/-- What a reader does with the bytes at hand: it waits for more, it gives up, or it goes on with what it has left. -/
inductive Step (σ α : Type*) where
  | wait
  | stop (s : σ)
  | next (s : σ) (rest : List α)
deriving DecidableEq, Repr

variable (step : σ → List α → Step σ α)

/-- Steps are taken as long as there are bytes. -/
def drainFuel : ℕ → σ → List α → σ × List α
  | 0, s, buf => (s, buf)
  | fuel + 1, s, buf =>
    match buf with
    | [] => (s, [])
    | _ :: _ =>
      match step s buf with
      | .wait => (s, buf)
      | .stop s' => (s', buf)
      | .next s' rest => drainFuel fuel s' rest

def drain (s : σ) (buf : List α) : σ × List α := drainFuel step buf.length s buf

/-- A chunk arrives. -/
def feed (p : σ × List α) (chunk : List α) : σ × List α := drain step p.1 (p.2 ++ chunk)

def feedAll (p : σ × List α) (chunks : List (List α)) : σ × List α := chunks.foldl (feed step) p

/-- A step that goes on takes at least one byte, and stays in the domain. -/
def Shrinks (Dom : σ → List α → Prop) : Prop :=
  ∀ s buf s' rest, Dom s buf → buf ≠ [] → step s buf = .next s' rest → Dom s' rest ∧ rest.length < buf.length

variable {step} {Dom : σ → List α → Prop}

theorem drainFuel_nil (fuel : ℕ) (s : σ) : drainFuel step fuel s [] = (s, []) := by
  cases fuel <;> rfl

/-- As long as there is fuel for each byte, its amount makes no difference. -/
private theorem drainFuel_congr (hshrinks : Shrinks step Dom) {m n : ℕ} {s : σ} {buf : List α} (hdom : Dom s buf)
    (hm : buf.length ≤ m) (hn : buf.length ≤ n) : drainFuel step m s buf = drainFuel step n s buf := by
  induction m generalizing n s buf with
  | zero =>
    obtain rfl := List.length_eq_zero_iff.1 (Nat.le_zero.1 hm)
    rw [drainFuel_nil, drainFuel_nil]
  | succ m ih =>
    cases buf with
    | nil => rw [drainFuel_nil, drainFuel_nil]
    | cons a buf =>
      cases n with
      | zero => simp at hn
      | succ n =>
        rw [drainFuel, drainFuel]
        cases hstep : step s (a :: buf) with
        | wait => rfl
        | stop s' => rfl
        | next s' rest =>
          obtain ⟨hdom', hlt⟩ := hshrinks s (a :: buf) s' rest hdom (List.cons_ne_nil a buf) hstep
          rw [List.length_cons] at hlt hm hn
          exact ih hdom' (by omega) (by omega)

theorem drain_of_wait {s : σ} {buf : List α} (h : step s buf = .wait) : drain step s buf = (s, buf) := by
  cases buf with
  | nil => rfl
  | cons a buf => rw [drain, List.length_cons, drainFuel, h]

theorem drain_of_stop {s s' : σ} {buf : List α} (hne : buf ≠ []) (h : step s buf = .stop s') :
    drain step s buf = (s', buf) := by
  cases buf with
  | nil => exact absurd rfl hne
  | cons a buf => rw [drain, List.length_cons, drainFuel, h]

theorem drain_of_next (hshrinks : Shrinks step Dom) {s s' : σ} {buf rest : List α} (hdom : Dom s buf) (hne : buf ≠ [])
    (h : step s buf = .next s' rest) : drain step s buf = drain step s' rest := by
  obtain ⟨hdom', hlt⟩ := hshrinks s buf s' rest hdom hne h
  cases buf with
  | nil => exact absurd rfl hne
  | cons a buf =>
    rw [drain, List.length_cons, drainFuel, h]
    rw [List.length_cons] at hlt
    exact drainFuel_congr hshrinks hdom' (by omega) (Nat.le_refl _)

/-- A step with a part of the stream leads to where the reader gets with the whole stream.  The domain speaks of a
state and what is read in it. -/
structure Resumable (step : σ → List α → Step σ α) (Dom : σ → List α → Prop) : Prop where
  shrinks : ∀ s buf s' rest, Dom s buf → buf ≠ [] → step s buf = .next s' rest → rest.length < buf.length
  of_front : ∀ s buf more, Dom s (buf ++ more) → Dom s buf
  not_stop : ∀ s buf s', Dom s buf → buf ≠ [] → step s buf ≠ .stop s'
  next : ∀ s buf more s' rest, Dom s (buf ++ more) → buf ≠ [] → step s buf = .next s' rest →
    Dom s' (rest ++ more) ∧ drain step s (buf ++ more) = drain step s' (rest ++ more)

namespace Resumable

theorem toShrinks (h : Resumable step Dom) : Shrinks step Dom := by
  intro s buf s' rest hdom hne hstep
  rw [← List.append_nil buf] at hdom
  have hnext := (h.next s buf [] s' rest hdom hne hstep).1
  rw [List.append_nil] at hdom hnext
  exact ⟨hnext, h.shrinks s buf s' rest hdom hne hstep⟩

/-- Draining a part of a stream, then what is left of it with the rest of the stream. -/
theorem drain_append (h : Resumable step Dom) {s : σ} {buf more : List α} (hdom : Dom s (buf ++ more)) :
    drain step s (buf ++ more) = drain step (drain step s buf).1 ((drain step s buf).2 ++ more) := by
  induction hn : buf.length using Nat.strongRecOn generalizing s buf with
  | _ n ih =>
    subst hn
    by_cases hne : buf = []
    · subst hne
      rfl
    · cases hstep : step s buf with
      | wait => rw [drain_of_wait hstep]
      | stop s' => exact absurd hstep (h.not_stop s buf s' (h.of_front s buf more hdom) hne)
      | next s' rest =>
        obtain ⟨hdom', hmore⟩ := h.next s buf more s' rest hdom hne hstep
        have hfront := h.of_front s buf more hdom
        rw [drain_of_next h.toShrinks hfront hne hstep, hmore]
        exact ih rest.length (h.shrinks s buf s' rest hfront hne hstep) hdom' rfl

/-- The chunks of a stream are read like the stream. -/
theorem feedAll_eq_drain (h : Resumable step Dom) {s : σ} {chunks : List (List α)} (hdom : Dom s chunks.flatten) :
    feedAll step (s, []) chunks = drain step s chunks.flatten := by
  suffices hgen : ∀ (chunks : List (List α)) (before : List α), Dom s (before ++ chunks.flatten) →
      feedAll step (drain step s before) chunks = drain step s (before ++ chunks.flatten) from hgen chunks [] hdom
  intro chunks
  induction chunks with
  | nil =>
    intro before _
    rw [List.flatten_nil, List.append_nil]
    rfl
  | cons chunk chunks ih =>
    intro before hdom
    rw [List.flatten_cons, ← List.append_assoc] at hdom ⊢
    rw [feedAll, List.foldl_cons, feed, ← h.drain_append (h.of_front s _ _ hdom)]
    exact ih (before ++ chunk) hdom

end Resumable

/-- A reader that waits for whole units, and at the end of the stream for something that does not come. -/
structure Framed (step : σ → List α → Step σ α) {υ : Type*} (enc : υ → List α) (act : σ → υ → σ)
    (units : List υ) (tail : List α) : Prop where
  shrinks : Shrinks step fun _ _ => True
  ne_nil : ∀ u ∈ units, enc u ≠ []
  whole : ∀ s, ∀ u ∈ units, ∀ rest, step s (enc u ++ rest) = .next (act s u) rest
  part : ∀ s, ∀ u ∈ units, ∀ buf, buf <+: enc u → buf.length < (enc u).length → step s buf = .wait
  tail : ∀ s buf, buf <+: tail → step s buf = .wait

namespace Framed

variable {υ : Type*} {enc : υ → List α} {act : σ → υ → σ} {units : List υ} {tail : List α}

theorem of_cons {u : υ} (h : Framed step enc act (u :: units) tail) : Framed step enc act units tail where
  shrinks := h.shrinks
  ne_nil v hv := h.ne_nil v (List.mem_cons_of_mem u hv)
  whole s v hv := h.whole s v (List.mem_cons_of_mem u hv)
  part s v hv := h.part s v (List.mem_cons_of_mem u hv)
  tail := h.tail

/-- A reader waits, or a whole unit is at hand. -/
private theorem step_cases (h : Framed step enc act units tail) (s : σ) {buf more : List α}
    (hstream : buf ++ more = (units.map enc).flatten ++ tail) :
    step s buf = .wait ∨ ∃ u us rest, units = u :: us ∧ buf = enc u ++ rest ∧ step s buf = .next (act s u) rest ∧
      rest ++ more = (us.map enc).flatten ++ tail := by
  cases units with
  | nil => exact .inl (h.tail s buf ⟨more, hstream⟩)
  | cons u us =>
    rw [List.map_cons, List.flatten_cons, List.append_assoc] at hstream
    have hunit := List.prefix_append (enc u) ((us.map enc).flatten ++ tail)
    rcases Nat.lt_or_ge buf.length (enc u).length with hlt | hge
    · have hpart := List.prefix_of_prefix_length_le ⟨more, hstream⟩ hunit (Nat.le_of_lt hlt)
      exact .inl (h.part s u (List.mem_cons_self ..) buf hpart hlt)
    · obtain ⟨rest, rfl⟩ := List.prefix_of_prefix_length_le hunit ⟨more, hstream⟩ hge
      rw [List.append_assoc] at hstream
      exact .inr ⟨u, us, rest, rfl, rfl, h.whole s u (List.mem_cons_self ..) rest, List.append_cancel_left hstream⟩

theorem drain_eq (h : Framed step enc act units tail) (s : σ) :
    drain step s ((units.map enc).flatten ++ tail) = (units.foldl act s, tail) := by
  induction units generalizing s with
  | nil => exact drain_of_wait (h.tail s tail (List.prefix_refl tail))
  | cons u us ih =>
    have hne := h.ne_nil u (List.mem_cons_self ..)
    rw [List.map_cons, List.flatten_cons, List.append_assoc,
      drain_of_next h.shrinks trivial (by simp [hne]) (h.whole s u (List.mem_cons_self ..) _),
        ih h.of_cons, List.foldl_cons]

theorem resumable (h : Framed step enc act units tail) : Resumable step fun _ stream =>
    ∃ us more, us <:+ units ∧ stream ++ more = (us.map enc).flatten ++ tail := by
  have hsuffix : ∀ us, us <:+ units → Framed step enc act us tail := by
    intro us hus
    exact ⟨h.shrinks, fun u hu => h.ne_nil u (hus.subset hu), fun s u hu => h.whole s u (hus.subset hu),
      fun s u hu => h.part s u (hus.subset hu), h.tail⟩
  refine ⟨fun s buf s' rest _ hne hstep => (h.shrinks s buf s' rest trivial hne hstep).2, ?_, ?_, ?_⟩
  · rintro s buf more ⟨us, more', hus, hstream⟩
    exact ⟨us, more ++ more', hus, by rw [← List.append_assoc, hstream]⟩
  · rintro s buf s' ⟨us, more, hus, hstream⟩ _ hstep
    rcases (hsuffix us hus).step_cases s hstream with hwait | ⟨u, us', rest, -, -, hnext, -⟩
    · rw [hwait] at hstep
      cases hstep
    · rw [hnext] at hstep
      cases hstep
  · rintro s buf more s' rest ⟨us, more', hus, hstream⟩ hne hstep
    rw [List.append_assoc] at hstream
    rcases (hsuffix us hus).step_cases s hstream with hwait | ⟨u, us', rest', rfl, rfl, hnext, hrest⟩
    · rw [hwait] at hstep
      cases hstep
    · rw [hnext] at hstep
      cases hstep
      refine ⟨⟨us', more', (List.suffix_cons u us').trans hus, by rw [List.append_assoc, hrest]⟩, ?_⟩
      rw [List.append_assoc]
      exact drain_of_next h.shrinks trivial (by simp [h.ne_nil u (hus.subset (List.mem_cons_self ..))])
        (h.whole s u (hus.subset (List.mem_cons_self ..)) _)

/-- Every chunking gives the units in turn. -/
theorem feedAll_eq (h : Framed step enc act units tail) {s : σ} {chunks : List (List α)}
    (hflatten : chunks.flatten = (units.map enc).flatten ++ tail) :
    feedAll step (s, []) chunks = (units.foldl act s, tail) := by
  rw [h.resumable.feedAll_eq_drain ⟨units, [], List.suffix_refl units, by rw [List.append_nil, hflatten]⟩, hflatten]
  exact h.drain_eq s

end Framed

/-! ### A script -/

section Script

variable {υ : Type*} {enc : υ → List α} {act : σ → υ → σ} {s : σ} {units : List υ}

/-- The units are read one after another, each in the state that those before it lead to. -/
inductive Script (step : σ → List α → Step σ α) (enc : υ → List α) (act : σ → υ → σ) : σ → List υ → Prop where
  | nil (s : σ) : Script step enc act s []
  | cons {s : σ} {u : υ} {us : List υ} (hne : enc u ≠ [])
      (hwhole : ∀ rest, step s (enc u ++ rest) = .next (act s u) rest)
      (hpart : ∀ buf, buf <+: enc u → buf.length < (enc u).length → step s buf = .wait)
      (h : Script step enc act (act s u) us) : Script step enc act s (u :: us)

namespace Script

theorem drain_append (hshrinks : Shrinks step fun _ _ => True) (h : Script step enc act s units) (more : List α) :
    drain step s ((units.map enc).flatten ++ more) = drain step (units.foldl act s) more := by
  induction h with
  | nil s => rfl
  | @cons s u us hne hwhole hpart h ih =>
    rw [List.map_cons, List.flatten_cons, List.append_assoc,
      drain_of_next hshrinks trivial (by simp [hne]) (hwhole _), ih, List.foldl_cons]

/-- A part of the units: the reader waits for the end of one of them. -/
theorem drain_part (hshrinks : Shrinks step fun _ _ => True) (h : Script step enc act s units) {buf : List α}
    (hbuf : buf <+: (units.map enc).flatten) (hlt : buf.length < (units.map enc).flatten.length) :
    ∃ front u back rest, units = front ++ u :: back ∧ buf = (front.map enc).flatten ++ rest ∧
      drain step s buf = (front.foldl act s, rest) ∧
      ∀ more, drain step s (buf ++ more) = drain step (front.foldl act s) (rest ++ more) := by
  induction h generalizing buf with
  | nil s => simp at hlt
  | @cons s u us hne hwhole hpart h ih =>
    rw [List.map_cons, List.flatten_cons] at hbuf hlt
    have hunit := List.prefix_append (enc u) (us.map enc).flatten
    rcases Nat.lt_or_ge buf.length (enc u).length with hshort | hge
    · have hwait := hpart buf (List.prefix_of_prefix_length_le hbuf hunit (Nat.le_of_lt hshort)) hshort
      exact ⟨[], u, us, buf, rfl, rfl, drain_of_wait hwait, fun more => rfl⟩
    · obtain ⟨buf, rfl⟩ := List.prefix_of_prefix_length_le hunit hbuf hge
      rw [List.length_append, List.length_append] at hlt
      obtain ⟨front, u', back, rest, rfl, rfl, hdrain, hmore⟩ :=
        ih ((List.prefix_append_right_inj _).1 hbuf) (by omega)
      have hfirst : ∀ rest', drain step s (enc u ++ rest') = drain step (act s u) rest' := fun rest' =>
        drain_of_next hshrinks trivial (by simp [hne]) (hwhole rest')
      refine ⟨u :: front, u', back, rest, rfl, by simp, (hfirst _).trans hdrain, fun more => ?_⟩
      rw [List.append_assoc, hfirst]
      exact hmore more

end Script

end Script

/-! ### Lines and blocks -/

/-- The bytes of a block are taken in any pieces; `f` is the state with the front of it, and `t` the one after it. -/
structure Takes (step : σ → List α → Step σ α) (f : List α → σ) (data : List α) (t : σ) : Prop where
  part : ∀ front piece back, data = front ++ piece ++ back → piece ≠ [] → back ≠ [] →
    step (f front) piece = .next (f (front ++ piece)) []
  whole : ∀ front back, data = front ++ back → back ≠ [] → ∀ rest, step (f front) (back ++ rest) = .next t rest

/-- A stream is read from one state to another, by lines for which the reader waits and by blocks. -/
inductive Reads (step : σ → List α → Step σ α) (t : σ) : σ → List α → Prop where
  | done : Reads step t t []
  | line {s s' : σ} {u stream : List α} (hne : u ≠ []) (hwhole : ∀ rest, step s (u ++ rest) = .next s' rest)
      (hpart : ∀ buf, buf <+: u → buf.length < u.length → step s buf = .wait) (hreads : Reads step t s' stream) :
      Reads step t s (u ++ stream)
  | block {s s' : σ} {f : List α → σ} {front data stream : List α} (hs : s = f front)
      (htakes : Takes step f (front ++ data) s') (hne : data ≠ []) (hreads : Reads step t s' stream) :
      Reads step t s (data ++ stream)

namespace Reads

variable {s t : σ}

/-- The reader waits, or it goes on, as far as it would with more at hand or as far as it can with that. -/
private theorem step_cases {buf more stream : List α} (h : Reads step t s stream) (hstream : buf ++ more = stream)
    (hne : buf ≠ []) :
    step s buf = .wait ∨ ∃ s' rest, step s buf = .next s' rest ∧ rest.length < buf.length ∧
    Reads step t s' (rest ++ more) ∧
      ∀ front back, more = front ++ back → front ≠ [] →
        step s (buf ++ front) = .next s' (rest ++ front) ∨
          ∃ s'' rest', step s (buf ++ front) = .next s'' rest' ∧ step s' (rest ++ front) = .next s'' rest' := by
  cases h with
  | done => exact absurd (List.append_eq_nil_iff.1 hstream).1 hne
  | @line _ s' u stream hu hwhole hpart hreads =>
    have hunit := List.prefix_append u stream
    rcases Nat.lt_or_ge buf.length u.length with hlt | hge
    · exact .inl (hpart buf (List.prefix_of_prefix_length_le ⟨more, hstream⟩ hunit (Nat.le_of_lt hlt)) hlt)
    · obtain ⟨rest, rfl⟩ := List.prefix_of_prefix_length_le hunit ⟨more, hstream⟩ hge
      rw [List.append_assoc] at hstream
      have hpos := List.length_pos_of_ne_nil hu
      refine .inr ⟨s', rest, hwhole rest, by rw [List.length_append]; omega, ?_, fun front _ _ _ => .inl ?_⟩
      · rwa [List.append_cancel_left hstream]
      · rw [List.append_assoc]
        exact hwhole (rest ++ front)
  | @block _ s' f taken data stream hs htakes hdata hreads =>
    subst hs
    rcases Nat.lt_or_ge buf.length data.length with hlt | hge
    · -- a piece of the block
      obtain ⟨back, rfl⟩ := List.prefix_of_prefix_length_le ⟨more, hstream⟩ (List.prefix_append data stream)
        (Nat.le_of_lt hlt)
      rw [List.append_assoc] at hstream
      obtain rfl := List.append_cancel_left hstream
      have hback : back ≠ [] := by
        rintro rfl
        simp at hlt
      have hpiece := htakes.part taken buf back (List.append_assoc ..).symm hne hback
      rw [← List.append_assoc] at htakes
      have hrest : Reads step t (f (taken ++ buf)) (back ++ stream) := .block rfl htakes hback hreads
      refine .inr ⟨f (taken ++ buf), [], hpiece, List.length_pos_of_ne_nil hne, hrest, ?_⟩
      intro front back' hmore hfront
      right
      rw [List.nil_append]
      rcases Nat.lt_or_ge front.length back.length with hlt' | hge'
      · obtain ⟨last, rfl⟩ := List.prefix_of_prefix_length_le ⟨back', hmore.symm⟩ (List.prefix_append back stream)
          (Nat.le_of_lt hlt')
        have hlast : last ≠ [] := by
          rintro rfl
          simp at hlt'
        refine ⟨f (taken ++ buf ++ front), [], ?_, ?_⟩
        · rw [List.append_assoc taken]
          exact htakes.part taken (buf ++ front) last (by simp) (by simp [hne]) hlast
        · exact htakes.part (taken ++ buf) front last (by simp) hfront hlast
      · obtain ⟨rest, rfl⟩ :=
          List.prefix_of_prefix_length_le (List.prefix_append back stream) ⟨back', hmore.symm⟩ hge'
        refine ⟨s', rest, ?_, htakes.whole (taken ++ buf) back rfl hback rest⟩
        rw [← List.append_assoc]
        exact htakes.whole taken (buf ++ back) (by simp) (by simp [hne]) rest
    · obtain ⟨rest, rfl⟩ := List.prefix_of_prefix_length_le (List.prefix_append data stream) ⟨more, hstream⟩ hge
      rw [List.append_assoc] at hstream
      have hpos := List.length_pos_of_ne_nil hdata
      refine .inr ⟨s', rest, htakes.whole taken data rfl hdata rest, by rw [List.length_append]; omega, ?_,
        fun front _ _ _ => .inl ?_⟩
      · rwa [List.append_cancel_left hstream]
      · rw [List.append_assoc]
        exact htakes.whole taken data rfl hdata (rest ++ front)

theorem resumable (step : σ → List α → Step σ α) (t : σ) :
    Resumable step fun s buf => ∃ more, Reads step t s (buf ++ more) := by
  have hshrinks : Shrinks step fun s buf => ∃ more, Reads step t s (buf ++ more) := by
    rintro s buf s' rest ⟨more, hreads⟩ hne hstep
    rcases hreads.step_cases rfl hne with hwait | ⟨s'', rest', hnext, hlt, hreads', -⟩
    · rw [hwait] at hstep
      cases hstep
    · rw [hnext] at hstep
      cases hstep
      exact ⟨⟨more, hreads'⟩, hlt⟩
  refine ⟨fun s buf s' rest hdom hne hstep => (hshrinks s buf s' rest hdom hne hstep).2, ?_, ?_, ?_⟩
  · rintro s buf more ⟨more', hreads⟩
    exact ⟨more ++ more', by rwa [← List.append_assoc]⟩
  · rintro s buf s' ⟨more, hreads⟩ hne hstep
    rcases hreads.step_cases rfl hne with hwait | ⟨_, _, hnext, -⟩
    · rw [hwait] at hstep
      cases hstep
    · rw [hnext] at hstep
      cases hstep
  · rintro s buf more s' rest ⟨more', hreads⟩ hne hstep
    have hwhole := hreads
    rw [List.append_assoc] at hreads
    rcases hreads.step_cases rfl hne with hwait | ⟨s'', rest', hnext, -, hreads', hmore⟩
    · rw [hwait] at hstep
      cases hstep
    rw [hnext] at hstep
    cases hstep
    rw [← List.append_assoc] at hreads'
    refine ⟨⟨more', hreads'⟩, ?_⟩
    by_cases hnil : more = []
    · subst hnil
      rw [List.append_nil] at hwhole ⊢
      rw [List.append_nil]
      exact drain_of_next hshrinks ⟨more', hwhole⟩ hne hnext
    · have hne' : buf ++ more ≠ [] := by simp [hne]
      have hne'' : rest ++ more ≠ [] := by simp [hnil]
      rcases hmore more more' rfl hnil with hsame | ⟨s'', rest', hfar, hfar'⟩
      · exact drain_of_next hshrinks ⟨more', hwhole⟩ hne' hsame
      · rw [drain_of_next hshrinks ⟨more', hwhole⟩ hne' hfar, drain_of_next hshrinks ⟨more', hreads'⟩ hne'' hfar']

theorem drain_eq {stream : List α} (h : Reads step t s stream) : drain step s stream = (t, []) := by
  have hshrinks := (resumable step t).toShrinks
  induction h with
  | done => rfl
  | @line s s' u stream hne hwhole hpart hreads ih =>
    have hdom : ∃ more, Reads step t s (u ++ stream ++ more) :=
      ⟨[], by rw [List.append_nil]; exact .line hne hwhole hpart hreads⟩
    rw [drain_of_next hshrinks hdom (by simp [hne]) (hwhole stream), ih]
  | @block s s' f front data stream hs htakes hne hreads ih =>
    have hdom : ∃ more, Reads step t s (data ++ stream ++ more) :=
      ⟨[], by rw [List.append_nil]; exact .block hs htakes hne hreads⟩
    subst hs
    rw [drain_of_next hshrinks hdom (by simp [hne]) (htakes.whole front data rfl hne stream), ih]

/-- However the stream is cut, it is read to its end. -/
theorem feedAll_eq {chunks : List (List α)} (h : Reads step t s chunks.flatten) :
    feedAll step (s, []) chunks = (t, []) := by
  rw [(resumable step t).feedAll_eq_drain ⟨[], by rwa [List.append_nil]⟩, h.drain_eq]

end Reads

/-! ### What has arrived -/

/-- The units that are whole in the first `n` bytes. -/
def arrived {υ : Type*} (enc : υ → List α) (n : ℕ) : List υ → List υ
  | [] => []
  | u :: us => if (enc u).length ≤ n then u :: arrived enc (n - (enc u).length) us else []

section Arrived

variable {υ : Type*} {enc : υ → List α} {act : σ → υ → σ} {units : List υ}

theorem arrived_all (enc : υ → List α) (units : List υ) :
    arrived enc (units.map enc).flatten.length units = units := by
  induction units with
  | nil => rfl
  | cons u us ih =>
    rw [arrived, List.map_cons, List.flatten_cons, List.length_append, if_pos (Nat.le_add_right ..),
      Nat.add_sub_cancel_left, ih]

theorem mem_of_mem_arrived {n : ℕ} {u : υ} (h : u ∈ arrived enc n units) : u ∈ units := by
  induction units generalizing n with
  | nil => exact h
  | cons v us ih =>
    rw [arrived] at h
    split_ifs at h with hlength
    · rcases List.mem_cons.1 h with rfl | h
      · exact List.mem_cons_self ..
      · exact List.mem_cons_of_mem v (ih h)
    · cases h

/-- With the front of a stream at hand, the units that have arrived are whole and the next one is not. -/
theorem Framed.arrived (h : Framed step enc act units []) {buf : List α} (hbuf : buf <+: (units.map enc).flatten) :
    ∃ tail, buf = ((Chunks.arrived enc buf.length units).map enc).flatten ++ tail ∧
      Framed step enc act (Chunks.arrived enc buf.length units) tail := by
  induction units generalizing buf with
  | nil =>
    obtain rfl := List.prefix_nil.1 hbuf
    exact ⟨[], rfl, h⟩
  | cons u us ih =>
    rw [List.map_cons, List.flatten_cons] at hbuf
    have hunit := List.prefix_append (enc u) (us.map enc).flatten
    rw [Chunks.arrived]
    rcases Nat.lt_or_ge buf.length (enc u).length with hlt | hge
    · have hpart := List.prefix_of_prefix_length_le hbuf hunit (Nat.le_of_lt hlt)
      rw [if_neg (by omega)]
      refine ⟨buf, rfl, h.shrinks, nofun, nofun, nofun, fun s front hfront => ?_⟩
      exact h.part s u (List.mem_cons_self ..) front (hfront.trans hpart) (Nat.lt_of_le_of_lt hfront.length_le hlt)
    · obtain ⟨rest, rfl⟩ := List.prefix_of_prefix_length_le hunit hbuf hge
      rw [if_pos hge, List.length_append, Nat.add_sub_cancel_left]
      obtain ⟨tail, hrest, hframed⟩ := ih h.of_cons ((List.prefix_append_right_inj _).1 hbuf)
      refine ⟨tail, ?_, hframed.shrinks, ?_, ?_, ?_, hframed.tail⟩
      · rw [List.map_cons, List.flatten_cons, List.append_assoc, ← hrest]
      · exact List.forall_mem_cons.2 ⟨h.ne_nil u (List.mem_cons_self ..), hframed.ne_nil⟩
      · exact fun s => List.forall_mem_cons.2 ⟨h.whole s u (List.mem_cons_self ..), hframed.whole s⟩
      · exact fun s => List.forall_mem_cons.2 ⟨h.part s u (List.mem_cons_self ..), hframed.part s⟩

/-- However the stream is cut, a unit takes effect as soon as its last byte has arrived. -/
theorem Framed.feedAll_arrived (h : Framed step enc act units []) {chunks : List (List α)}
    (hchunks : chunks.flatten <+: (units.map enc).flatten) (s : σ) :
    (feedAll step (s, []) chunks).1 = (Chunks.arrived enc chunks.flatten.length units).foldl act s := by
  obtain ⟨tail, hflatten, hframed⟩ := h.arrived hchunks
  rw [hframed.feedAll_eq hflatten]

end Arrived

end Chunks
