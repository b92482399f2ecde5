/-!
# `Lib.Run` — finite runs of a labelled transition system

A system is a step relation `Step : σ → ε → σ → Prop` over any state and event types. `Run` is its
reflexive–transitive closure with the list of events made visible; it grows at the end, so an induction
peels the *last* step and has the whole past as its hypothesis.

`Guarded Ok Step` keeps the steps whose event is admissible in the state it starts from: a run of it is a
run all of whose steps meet the condition.

Three rules carry the results about runs in this development:

* `Run.invariant`: what one step keeps, every run keeps.
* `throughout_iff_everyStep`: where an invariant is carried along and each step keeps a property exactly under a
  condition, a run keeps the property all along exactly when each of its steps meets the condition. This is how the
  exact condition of a property of runs is proved: the work is about one step only.
* `Run.since_iff`: what a state remembers of the run that led to it, for flags that some events set and others clear.
-/

namespace MyUnix.Lib

variable {σ ε : Type}

/-- `Run Step s es t`: the events `es`, in order, lead from `s` to `t`. -/
inductive Run (Step : σ → ε → σ → Prop) : σ → List ε → σ → Prop where
  | refl {s} : Run Step s [] s
  | tail {s t u es e} : Run Step s es t → Step t e u → Run Step s (es ++ [e]) u

/-- The steps of `Step` that start in a state where the event meets the condition `Ok`. -/
def Guarded (Ok : σ → ε → Prop) (Step : σ → ε → σ → Prop) (s : σ) (e : ε) (t : σ) : Prop :=
  Ok s e ∧ Step s e t

/-- `P` holds at the start and after every step of the events, however the steps come out. -/
def Throughout (Step : σ → ε → σ → Prop) (P : σ → Prop) : σ → List ε → Prop
  | s, []      => P s
  | s, e :: es => P s ∧ ∀ t, Step s e t → Throughout Step P t es

/-- Every step of the events meets the condition `Ok` in the state it starts from. -/
def EveryStep (Step : σ → ε → σ → Prop) (Ok : σ → ε → Prop) : σ → List ε → Prop
  | _, []      => True
  | s, e :: es => ∀ t, Step s e t → Ok s e ∧ EveryStep Step Ok t es

/-- The step relation of a partial step function. -/
def Graph (step : σ → ε → Option σ) (s : σ) (e : ε) (t : σ) : Prop := step s e = some t

/-- The state a partial step function reaches on a list of events that it gets through. -/
def after (step : σ → ε → Option σ) (s : σ) (es : List ε) : σ := (es.foldlM step s).getD s

theorem step_after {step : σ → ε → Option σ} {s : σ} {es : List ε} {e : ε}
    (h : ((es ++ [e]).foldlM step s).isSome) :
    step (after step s es) e = some (after step s (es ++ [e])) := by
  obtain ⟨u, hu⟩ := Option.isSome_iff_exists.mp h
  have hsplit := hu
  rw [List.foldlM_append] at hsplit
  obtain ⟨t, ht, hstep⟩ := Option.bind_eq_some_iff.mp hsplit
  have hlast : step t e = some u := by
    simpa using hstep
  rw [after, after, ht, hu, Option.getD_some, Option.getD_some, hlast]

namespace Run

variable {Step Step' : σ → ε → σ → Prop} {s t u : σ} {es fs : List ε} {e : ε}

theorem single (h : Step s e t) : Run Step s [e] t := tail refl h

theorem trans (h : Run Step s es t) (h' : Run Step t fs u) : Run Step s (es ++ fs) u := by
  induction h' with
  | refl => simpa using h
  | tail _ hstep ih =>
      rw [← List.append_assoc]
      exact tail ih hstep

/-- **The invariant rule.** What holds at the start and is kept by every step holds at the end. -/
theorem invariant (h : Run Step s es t) (Inv : σ → Prop) (h0 : Inv s)
    (hstep : ∀ s e t, Inv s → Step s e t → Inv t) : Inv t := by
  induction h with
  | refl => exact h0
  | tail _ hs ih => exact hstep _ _ _ ih hs

/-- A partial step function that gets through a list of events makes a run. -/
theorem of_foldlM {step : σ → ε → Option σ} :
    ∀ {es : List ε} {s t : σ}, es.foldlM step s = some t → Run (Graph step) s es t
  | [],      s, t, h => by
    simp only [List.foldlM_nil, Option.pure_def, Option.some.injEq] at h
    subst h
    exact refl
  | e :: es, s, t, h => by
    simp only [List.foldlM_cons, Option.bind_eq_bind, Option.bind_eq_some_iff] at h
    obtain ⟨u, hu, hrest⟩ := h
    exact (single hu).trans (of_foldlM hrest)

theorem of_after {step : σ → ε → Option σ} (h : (es.foldlM step s).isSome) :
    Run (Graph step) s es (after step s es) := by
  obtain ⟨u, hu⟩ := Option.isSome_iff_exists.mp h
  rw [after, hu]
  exact of_foldlM hu

/-- A guarded run, one admissible event longer. -/
theorem tail_after {step : σ → ε → Option σ} {Ok : σ → ε → Prop}
    (h : Run (Guarded Ok (Graph step)) s es (after step s es)) (e : ε) (hok : Ok (after step s es) e)
    (hs : ((es ++ [e]).foldlM step s).isSome) :
    Run (Guarded Ok (Graph step)) s (es ++ [e]) (after step s (es ++ [e])) :=
  tail h ⟨hok, step_after hs⟩

/-- A run whose events are all admissible, in whatever state. -/
theorem guard {Ok : σ → ε → Prop} (h : Run Step s es t) (hok : ∀ s, ∀ e ∈ es, Ok s e) : Run (Guarded Ok Step) s es t := by
  induction h with
  | refl => exact refl
  | tail _ hs ih =>
      refine tail (ih fun s e he => hok s e (List.mem_append_left _ he)) ⟨hok _ _ ?_, hs⟩
      exact List.mem_append_right _ List.mem_cons_self

theorem mono (h : Run Step s es t) (hsub : ∀ s e t, Step s e t → Step' s e t) :
    Run Step' s es t := by
  induction h with
  | refl => exact refl
  | tail _ hs ih => exact tail ih (hsub _ _ _ hs)

end Run

/-! ## Conditions that are exact

A guarded run says that a property holds in all runs whose steps meet a condition. The rules here say the other
direction too. They speak of all runs of a list of events, since a step may have several outcomes: a property holds
throughout if it holds however the steps come out.
-/

section

variable {Step : σ → ε → σ → Prop} {P Inv : σ → Prop} {Ok : σ → ε → Prop} {s : σ}

theorem Throughout.start : ∀ {es : List ε}, Throughout Step P s es → P s
  | [],     h => h
  | _ :: _, h => h.1

theorem EveryStep.cons {e : ε} {es : List ε} {t : σ} (hdet : ∀ t', Step s e t' → t' = t) (hok : Ok s e)
    (h : EveryStep Step Ok t es) : EveryStep Step Ok s (e :: es) := by
  intro t' hs
  rw [hdet t' hs]
  exact ⟨hok, h⟩

/-- **The rule for exact conditions.** Where an invariant holds and `P` with it, a step keeps the invariant, and keeps
    `P` if and only if it meets the condition. Then `P` holds all along exactly on the runs whose steps all meet it. -/
theorem throughout_iff_everyStep
    (hstep : ∀ s e t, Inv s → P s → Step s e t → Inv t ∧ (P t ↔ Ok s e)) (h : Inv s) (h₀ : P s) (es : List ε) :
    Throughout Step P s es ↔ EveryStep Step Ok s es := by
  induction es generalizing s with
  | nil => exact iff_of_true h₀ trivial
  | cons e es ih =>
      constructor
      · rintro ⟨_, hrest⟩ t ht
        obtain ⟨hinv, hiff⟩ := hstep s e t h h₀ ht
        exact ⟨hiff.mp (hrest t ht).start, (ih hinv (hrest t ht).start).mp (hrest t ht)⟩
      · intro hrest
        refine ⟨h₀, fun t ht => ?_⟩
        obtain ⟨hinv, hiff⟩ := hstep s e t h h₀ ht
        obtain ⟨hok, hes⟩ := hrest t ht
        exact (ih hinv (hiff.mpr hok)).mpr hes

/-- Two conditions on steps that agree wherever an invariant holds: the first may be used to carry the invariant on. -/
theorem everyStep_iff {Ok' : σ → ε → Prop} (hstep : ∀ s e t, Inv s → Step s e t → (Ok s e ↔ Ok' s e) ∧ (Ok s e → Inv t))
    (h : Inv s) (es : List ε) : EveryStep Step Ok s es ↔ EveryStep Step Ok' s es := by
  induction es generalizing s with
  | nil => exact Iff.rfl
  | cons e es ih =>
      constructor
      · intro hall t ht
        obtain ⟨hok, hrest⟩ := hall t ht
        obtain ⟨hiff, hinv⟩ := hstep s e t h ht
        exact ⟨hiff.mp hok, (ih (hinv hok)).mp hrest⟩
      · intro hall t ht
        obtain ⟨hok, hrest⟩ := hall t ht
        obtain ⟨hiff, hinv⟩ := hstep s e t h ht
        exact ⟨hiff.mpr hok, (ih (hinv (hiff.mpr hok))).mpr hrest⟩

/-- What holds throughout holds wherever a run of the events leads. -/
theorem Throughout.of_run {es : List ε} {t : σ} (hrun : Run Step s es t) :
    ∀ {fs : List ε}, Throughout Step P s (es ++ fs) → Throughout Step P t fs := by
  induction hrun with
  | refl => exact id
  | tail _ hs ih =>
      intro fs h
      rw [List.append_assoc] at h
      exact (ih h).2 _ hs

theorem Throughout.at_end {es : List ε} {t : σ} (h : Throughout Step P s es) (hrun : Run Step s es t) : P t := by
  have hnil : Throughout Step P t [] := Throughout.of_run hrun (by rwa [List.append_nil])
  exact hnil

end

/-! ## What a run remembers

`Since On Off es` is the temporal "since", on a list of events that grows at its end: something switched it on, and
nothing switched it off afterwards.
-/

section

variable {Step : σ → ε → σ → Prop} {P Inv : σ → Prop} {On Off : σ → ε → Prop} {s t : σ} {es : List ε}

/-- Some event of the run was `On`, and no event after it was `Off`. -/
def Since (Step : σ → ε → σ → Prop) (On Off : σ → ε → Prop) (s : σ) (es : List ε) (t : σ) : Prop :=
  ∃ es₁ e es₂ u v, es = es₁ ++ e :: es₂ ∧ Run Step s es₁ u ∧ Step u e v ∧ On u e ∧
    Run (Guarded (fun s e => ¬Off s e) Step) v es₂ t

theorem Since.last {e : ε} (hrun : Run Step s es t) {u : σ} (hstep : Step t e u) (hon : On t e) :
    Since Step On Off s (es ++ [e]) u :=
  ⟨es, e, [], t, u, rfl, hrun, hstep, hon, .refl⟩

theorem Since.tail {e : ε} {u : σ} (h : Since Step On Off s es t) (hstep : Step t e u) (hoff : ¬Off t e) :
    Since Step On Off s (es ++ [e]) u := by
  obtain ⟨es₁, e₁, es₂, v, w, rfl, hrun, hs, hon, hrest⟩ := h
  exact ⟨es₁, e₁, es₂ ++ [e], v, w, by simp, hrun, hs, hon, hrest.tail ⟨hoff, hstep⟩⟩

/-- **The rule for memory.** What is off at the start, is switched on by some events and off by others holds exactly if it
    was switched on and not off since. Where one event does both it is on. -/
theorem Run.since_iff (hstep : ∀ s e t, Inv s → Step s e t → Inv t ∧ (P t ↔ On s e ∨ P s ∧ ¬Off s e)) (h₀ : Inv s)
    (hoff : ¬P s) (hrun : Run Step s es t) : P t ↔ Since Step On Off s es t := by
  have hinv : ∀ {es t}, Run Step s es t → Inv t := fun h =>
    h.invariant Inv h₀ fun s e t hs hse => (hstep s e t hs hse).1
  constructor
  · intro hP
    induction hrun with
    | refl => exact absurd hP hoff
    | tail hrun hs ih =>
      rcases (hstep _ _ _ (hinv hrun) hs).2.mp hP with hon | ⟨hP, hoff⟩
      · exact .last hrun hs hon
      · exact (ih hP).tail hs hoff
  · rintro ⟨es₁, e, es₂, u, v, rfl, hrun₁, hs, hon, hrest⟩
    have hv : Inv v ∧ P v := by
      obtain ⟨hi, hiff⟩ := hstep u e v (hinv hrun₁) hs
      exact ⟨hi, hiff.mpr (.inl hon)⟩
    refine (hrest.invariant (fun s => Inv s ∧ P s) hv fun s e t hs hse => ?_).2
    obtain ⟨hi, hiff⟩ := hstep s e t hs.1 hse.2
    exact ⟨hi, hiff.mpr (.inr ⟨hs.2, hse.1⟩)⟩

end

end MyUnix.Lib
