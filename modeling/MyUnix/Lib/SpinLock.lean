import Mathlib.Logic.Function.Basic
import MyUnix.Lib.Run

/-!
# `Lib.SpinLock` — data behind a spin lock

Any number of threads call operations on shared data. A call takes the lock by test-and-set, works on the data one
instruction at a time, and clears the lock; between any two instructions the other threads may run.

`Denotes` says that the instructions of a call, run without a break, compute an operation, and a `Contract` what callers
have to see to. Then every interleaving is a run of whole operations, in the order in which the lock was released, each of
them made with what its caller needs (`LockSys.serializable`).

The lock is a boolean that one instruction tests and sets, the weakest thing that the hardware gives. Fairness is not
assumed: a thread may spin for ever, and the result is about calls that are finished. Interrupts are not modelled
apart; a handler that calls the allocator is another thread, and one that interrupts a thread inside the lock on the
same processor would spin, which is a run in which nothing finishes.

`Contract` is there because the operations of a real allocator are not total: a caller may free only what it holds,
and two callers may not free the same frame at the same time. What is needed before a call must still hold when the
call gets the lock, after others have finished in between. `Contract.Kept` is the invariant that carries this.
-/

namespace MyUnix.Lib

/-- The code between taking and clearing the lock: where it starts for a request, and its instructions, the last of which
    has the result. -/
structure LockedCode (Req L R σ : Type) where
  start : Req → L
  instr : L → σ → (L × σ) ⊕ (R × σ)

/-- Where a thread is. -/
inductive LockPc (Req L R : Type) where
  | idle
  | spin (q : Req)
  | inside (q : Req) (l : L)
  | leaving (q : Req) (r : R)

/-- The thread has the lock. -/
def LockPc.holds {Req L R : Type} : LockPc Req L R → Bool
  | .inside .. | .leaving .. => true
  | _ => false

/-- The request a thread is at work on. -/
def LockPc.request {Req L R : Type} : LockPc Req L R → Option Req
  | .idle => none
  | .spin q | .inside q _ | .leaving q _ => some q

/-- The lock, the data, the threads, and the finished calls with their results. -/
structure LockSys (T Req L R σ : Type) where
  locked : Bool
  data   : σ
  pc     : T → LockPc Req L R
  log    : List (T × Req × R)

/-- A step of a thread: it calls, tries the lock, works on what the lock guards, or lets go. -/
inductive LockEvent (T Req : Type) where
  | call (t : T) (q : Req)
  | testAndSet (t : T)
  | instr (t : T)
  | unlock (t : T)
deriving DecidableEq

/-- The step lets go of the lock. -/
def LockEvent.unlocks {T Req : Type} : LockEvent T Req → Bool
  | .unlock _ => true
  | _ => false

section

variable {T Req L R σ : Type} [DecidableEq T]

/-- **One step of one thread.** -/
def lockStep (P : LockedCode Req L R σ) (s : LockSys T Req L R σ) : LockEvent T Req → Option (LockSys T Req L R σ)
  | .call t q =>
    match s.pc t with
    | .idle => some { s with pc := Function.update s.pc t (.spin q) }
    | _ => none
  | .testAndSet t =>
    match s.pc t with
    | .spin q =>
      if s.locked then some s
      else some { s with locked := true, pc := Function.update s.pc t (.inside q (P.start q)) }
    | _ => none
  | .instr t =>
    match s.pc t with
    | .inside q l =>
      match P.instr l s.data with
      | .inl (l, d) => some { s with data := d, pc := Function.update s.pc t (.inside q l) }
      | .inr (r, d) => some { s with data := d, pc := Function.update s.pc t (.leaving q r) }
    | _ => none
  | .unlock t =>
    match s.pc t with
    | .leaving q r =>
      some { s with locked := false, pc := Function.update s.pc t .idle, log := s.log ++ [(t, q, r)] }
    | _ => none

/-- No thread at work, and the lock free. -/
def LockSys.init (d : σ) : LockSys T Req L R σ := ⟨false, d, fun _ => .idle, []⟩

/-- What the callers have to see to, after the calls that are finished: what a call needs, and which calls may be under way
    at the same time, so that none of them takes from another what that needs. -/
structure Contract (T Req R : Type) where
  may   : List (T × Req × R) → Req → Prop
  apart : Req → Req → Prop
  keeps : ∀ {log q q' t r}, may log q → may log q' → apart q q' → may (log ++ [(t, q', r)]) q

/-- The callers keep the contract. -/
def Contract.Admits (C : Contract T Req R) (s : LockSys T Req L R σ) : LockEvent T Req → Prop
  | .call _ q => C.may s.log q ∧ ∀ u q', (s.pc u).request = some q' → C.apart q q' ∧ C.apart q' q
  | _ => True

/-- A whole operation at once, with its result, by a caller with what it needs; the calls so far are part of the state. -/
def Contract.Atomic (C : Contract T Req R) (op : Req → σ → R × σ) (s : List (T × Req × R) × σ) (e : T × Req × R)
    (s' : List (T × Req × R) × σ) : Prop :=
  C.may s.1 e.2.1 ∧ op e.2.1 s.2 = (e.2.2, s'.2) ∧ s'.1 = s.1 ++ [e]

/-- What the rest of a call comes to, said for every point of the code: the instructions keep it, the last one has it, and
    at the start it is the operation. -/
structure Denotes (P : LockedCode Req L R σ) (op : Req → σ → R × σ) (value : L → σ → R × σ) : Prop where
  start : ∀ q s, value (P.start q) s = op q s
  next  : ∀ {l s l' s'}, P.instr l s = .inl (l', s') → value l' s' = value l s
  last  : ∀ {l s r}, P.instr l s = .inr r → r = value l s

/-- It is enough to look at each instruction once. -/
theorem Denotes.of_value {P : LockedCode Req L R σ} {op : Req → σ → R × σ} {value : L → σ → R × σ}
    (start : ∀ q s, value (P.start q) s = op q s)
    (h : ∀ l s, (P.instr l s).elim (fun x => value x.1 x.2) id = value l s) : Denotes P op value where
  start := start
  next {l s l' s'} hi := by
    have hval := h l s
    rw [hi] at hval
    exact hval
  last {l s r} hi := by
    have hval := h l s
    rw [hi] at hval
    exact hval

/-! ## The data between two instructions

The invariant is a statement about two histories at once. `Serial` holds the data as the finished calls have made it,
and what the call inside will make of it is what it makes of the data as they are now. A step of a thread that has not
the lock changes neither; a step of the owner changes the data and its place, and `Denotes` says that the two go
together.
-/

/-- The finished calls have made `d` of the data, and the call of the owner will make of `d` what is left of it to make of
    the data as they are. -/
structure Serial (op : Req → σ → R × σ) (value : L → σ → R × σ) (s : LockSys T Req L R σ) (o : Option T) (d : σ) :
    Prop where
  locked  : s.locked = o.isSome
  owner   : ∀ t, (s.pc t).holds = true ↔ o = some t
  free    : o = none → s.data = d
  inside  : ∀ t q l, s.pc t = .inside q l → value l s.data = op q d
  leaving : ∀ t q r, s.pc t = .leaving q r → (r, s.data) = op q d

/-- What a step does to the finished calls and to what they have made of the data. -/
def Finishes (op : Req → σ → R × σ) (e : LockEvent T Req) (s s' : LockSys T Req L R σ) (d d' : σ) : Prop :=
  (e.unlocks = false ∧ s'.log = s.log ∧ d' = d) ∨
    ∃ t q r, e = .unlock t ∧ s.pc t = .leaving q r ∧ s'.log = s.log ++ [(t, q, r)] ∧ op q d = (r, d')

namespace Serial

variable {P : LockedCode Req L R σ} {op : Req → σ → R × σ} {value : L → σ → R × σ} {d : σ}
  {s s' : LockSys T Req L R σ} {o : Option T}

omit [DecidableEq T] in
theorem init (d : σ) : Serial op value (LockSys.init d : LockSys T Req L R σ) none d where
  locked := rfl
  owner t := by simp [LockSys.init, LockPc.holds]
  free _ := rfl
  inside _ _ _ h := by cases h
  leaving _ _ _ h := by cases h

omit [DecidableEq T] in
/-- Only the owner has a place inside. -/
theorem eq_owner (h : Serial op value s o d) {t t' : T} (ht : (s.pc t).holds = true) (ht' : (s.pc t').holds = true) :
    t = t' := by
  have h1 := (h.owner t).mp ht
  rw [(h.owner t').mp ht'] at h1
  exact (Option.some.inj h1).symm

omit [DecidableEq T] in
theorem others (h : Serial op value s o d) {t : T} (ht : (s.pc t).holds = true) :
    s.locked = true ∧ ∀ u, u ≠ t → (s.pc u).holds = false := by
  refine ⟨?_, fun u hu => ?_⟩
  · rw [h.locked, (h.owner t).mp ht]
    rfl
  · by_contra hin
    exact hu (h.eq_owner (by simpa using hin) ht)

/-- A thread that has not the lock goes on to another such place. -/
theorem outside (h : Serial op value s o d) {t : T} {c : LockPc Req L R} (ht : (s.pc t).holds = false)
    (hc : c.holds = false) : Serial op value { s with pc := Function.update s.pc t c } o d := by
  have hother : ∀ u c', Function.update s.pc t c u = c' → c'.holds = true → s.pc u = c' := by
    intro u c' hu hc'
    by_cases he : u = t
    · rw [he, Function.update_self] at hu
      rw [← hu, hc] at hc'
      cases hc'
    · rwa [Function.update_of_ne he] at hu
  refine ⟨h.locked, fun u => ?_, h.free, fun u q l hu => h.inside u q l (hother u _ hu rfl),
    fun u q r hu => h.leaving u q r (hother u _ hu rfl)⟩
  show (Function.update s.pc t c u).holds = true ↔ _
  rw [← h.owner u]
  by_cases he : u = t
  · rw [he, Function.update_self, hc, ht]
  · rw [Function.update_of_ne he]

/-- The thread `t` is the only one inside, at `c`, with the data `x`. -/
theorem of_owner {t : T} {c : LockPc Req L R} {x : σ} (hout : ∀ u, u ≠ t → (s.pc u).holds = false) (hc : c.holds = true)
    (hin : ∀ q l, c = .inside q l → value l x = op q d) (hleave : ∀ q r, c = .leaving q r → (r, x) = op q d) :
    Serial op value { s with locked := true, data := x, pc := Function.update s.pc t c } (some t) d := by
  have hself : ∀ u c', Function.update s.pc t c u = c' → c'.holds = true → c = c' := by
    intro u c' hu hc'
    by_cases he : u = t
    · rwa [he, Function.update_self] at hu
    · rw [Function.update_of_ne he] at hu
      rw [← hu, hout u he] at hc'
      cases hc'
  refine ⟨rfl, fun u => ?_, (fun h => by cases h), fun u q l hu => hin q l (hself u _ hu rfl),
    fun u q r hu => hleave q r (hself u _ hu rfl)⟩
  show (Function.update s.pc t c u).holds = true ↔ _
  by_cases he : u = t
  · rw [he, Function.update_self, hc]
    simp
  · rw [Function.update_of_ne he, hout u he]
    simp [Ne.symm he]

/-- **One step** of any thread. -/
theorem step (hP : Denotes P op value) (h : Serial op value s o d) {e : LockEvent T Req}
    (hs : lockStep P s e = some s') : ∃ o' d', Serial op value s' o' d' ∧ Finishes op e s s' d d' := by
  cases e with
  | call t q =>
    rw [lockStep] at hs
    split at hs
    next hpc =>
      cases hs
      exact ⟨o, d, h.outside (by rw [hpc]; rfl) rfl, .inl ⟨rfl, rfl, rfl⟩⟩
    next => cases hs
  | testAndSet t =>
    rw [lockStep] at hs
    split at hs
    next q hpc =>
      by_cases hl : s.locked = true
      · rw [if_pos hl] at hs
        cases hs
        exact ⟨o, d, h, .inl ⟨rfl, rfl, rfl⟩⟩
      · rw [if_neg hl] at hs
        cases hs
        -- the lock is free, so nobody is inside and the data are what the finished calls made
        have hnone : o = none := by
          have hlock := h.locked
          cases o with
          | none => rfl
          | some u => exact absurd hlock hl
        have hdata := h.free hnone
        have hout : ∀ u, u ≠ t → (s.pc u).holds = false := by
          intro u _
          by_contra hin
          have := (h.owner u).mp (by simpa using hin)
          rw [hnone] at this
          cases this
        refine ⟨some t, d, of_owner hout rfl (fun q' l hc => ?_) fun q' r hc => ?_, .inl ⟨rfl, rfl, rfl⟩⟩
        · cases hc
          rw [hdata]
          exact hP.start q d
        · cases hc
    next => cases hs
  | instr t =>
    rw [lockStep] at hs
    split at hs
    next q l hpc =>
      have hval := h.inside t q l hpc
      obtain ⟨hlock, hout⟩ := h.others (t := t) (by rw [hpc]; rfl)
      split at hs
      next l' x hinstr =>
        cases hs
        have hnext := hP.next hinstr
        refine ⟨some t, d, hlock ▸ of_owner hout rfl (fun q' l'' hc => ?_) fun q' r hc => ?_, .inl ⟨rfl, rfl, rfl⟩⟩
        · cases hc
          exact hnext.trans hval
        · cases hc
      next r x hinstr =>
        cases hs
        have hlast := hP.last hinstr
        refine ⟨some t, d, hlock ▸ of_owner hout rfl (fun q' l'' hc => ?_) fun q' r' hc => ?_, .inl ⟨rfl, rfl, rfl⟩⟩
        · cases hc
        · cases hc
          exact hlast.trans hval
    next => cases hs
  | unlock t =>
    rw [lockStep] at hs
    split at hs
    next q r hpc =>
      cases hs
      have hres := h.leaving t q r hpc
      obtain ⟨-, hout⟩ := h.others (t := t) (by rw [hpc]; rfl)
      have hidle : ∀ u, (Function.update s.pc t LockPc.idle u).holds = false := by
        intro u
        by_cases he : u = t
        · rw [he, Function.update_self]
          rfl
        · rw [Function.update_of_ne he]
          exact hout u he
      have hnone : ∀ u c, Function.update s.pc t LockPc.idle u = c → c.holds = false := by
        rintro u c rfl
        exact hidle u
      refine ⟨none, s.data, ⟨rfl, fun u => ?_, fun _ => rfl, fun u q' l hu => ?_, fun u q' r' hu => ?_⟩,
        .inr ⟨t, q, r, rfl, hpc, rfl, hres.symm⟩⟩
      · rw [hidle u]
        simp
      · have := hnone u _ hu
        cases this
      · have := hnone u _ hu
        cases this
    next => cases hs

end Serial

/-! ## The callers

A request that is waiting for the lock was admissible when it was made. It still is when the lock is had, because the
calls in between were apart from it.
-/

/-- What a step does to the requests under way. -/
def LockEvent.requests (f : T → Option Req) : LockEvent T Req → T → Option Req
  | .call t q => Function.update f t (some q)
  | .unlock t => Function.update f t none
  | _ => f

theorem lockStep_request {P : LockedCode Req L R σ} {s s' : LockSys T Req L R σ} {e : LockEvent T Req}
    (hs : lockStep P s e = some s') (u : T) :
    (s'.pc u).request = e.requests (fun t => (s.pc t).request) u := by
  have hat : ∀ (t : T) (c : LockPc Req L R), (Function.update s.pc t c u).request =
      Function.update (fun t => (s.pc t).request) t c.request u := by
    intro t c
    by_cases he : u = t
    · rw [he, Function.update_self, Function.update_self]
    · rw [Function.update_of_ne he, Function.update_of_ne he]
  have hsame : ∀ (t : T) (c : LockPc Req L R), c.request = (s.pc t).request →
      (Function.update s.pc t c u).request = (s.pc u).request := by
    intro t c hc
    rw [hat, hc, Function.update_eq_self (f := fun t => (s.pc t).request)]
  cases e with
  | call t q =>
    rw [lockStep] at hs
    split at hs
    next => cases hs; exact hat t _
    next => cases hs
  | testAndSet t =>
    rw [lockStep] at hs
    split at hs
    next q hpc =>
      split at hs
      · cases hs
        rfl
      · cases hs
        exact hsame t _ (by rw [hpc]; rfl)
    next => cases hs
  | instr t =>
    rw [lockStep] at hs
    split at hs
    next q l hpc =>
      split at hs
      · cases hs
        exact hsame t _ (by rw [hpc]; rfl)
      · cases hs
        exact hsame t _ (by rw [hpc]; rfl)
    next => cases hs
  | unlock t =>
    rw [lockStep] at hs
    split at hs
    next => cases hs; exact hat t _
    next => cases hs

/-- Every call under way has what it needs, and is apart from the others. -/
structure Contract.Kept (C : Contract T Req R) (s : LockSys T Req L R σ) : Prop where
  may   : ∀ t q, (s.pc t).request = some q → C.may s.log q
  apart : ∀ t t' q q', t ≠ t' → (s.pc t).request = some q → (s.pc t').request = some q' → C.apart q q'

namespace Contract

variable {C : Contract T Req R} {P : LockedCode Req L R σ} {op : Req → σ → R × σ} {s s' : LockSys T Req L R σ} {d d' : σ}
  {e : LockEvent T Req}

omit [DecidableEq T] in
theorem Kept.init (C : Contract T Req R) (d : σ) : C.Kept (LockSys.init d : LockSys T Req L R σ) where
  may _ _ h := by cases h
  apart _ _ _ _ _ h := by cases h

/-- **One step** of callers who keep the contract. -/
theorem Kept.step (k : C.Kept s) (hok : C.Admits s e) (hs : lockStep P s e = some s') (hf : Finishes op e s s' d d') :
    C.Kept s' := by
  have hreq := lockStep_request hs
  rcases hf with ⟨hne, hlog, -⟩ | ⟨t, q, r, rfl, hpc, hlog, -⟩
  · have hkeep : (∀ u, (s'.pc u).request = (s.pc u).request) → C.Kept s' := by
      intro hsame
      refine ⟨fun u q hu => ?_, fun u u' q q' huu hu hu' => ?_⟩
      · rw [hlog]
        exact k.may u q (hsame u ▸ hu)
      · exact k.apart u u' q q' huu (hsame u ▸ hu) (hsame u' ▸ hu')
    cases e with
    | call t q =>
      obtain ⟨hmay, hapart⟩ := hok
      have hat : ∀ u q', (s'.pc u).request = some q' → u = t ∧ q = q' ∨ u ≠ t ∧ (s.pc u).request = some q' := by
        intro u q' hu
        rw [hreq u] at hu
        by_cases he : u = t
        · rw [LockEvent.requests, he, Function.update_self] at hu
          exact .inl ⟨he, Option.some.inj hu⟩
        · rw [LockEvent.requests, Function.update_of_ne he] at hu
          exact .inr ⟨he, hu⟩
      refine ⟨fun u q' hu => ?_, fun u u' q₁ q₂ huu hu hu' => ?_⟩
      · rw [hlog]
        rcases hat u q' hu with ⟨-, rfl⟩ | ⟨-, hold⟩
        · exact hmay
        · exact k.may u q' hold
      · rcases hat u q₁ hu with ⟨rfl, rfl⟩ | ⟨hut, hold⟩
        · rcases hat u' q₂ hu' with ⟨rfl, -⟩ | ⟨-, hold'⟩
          · exact absurd rfl huu
          · exact (hapart u' q₂ hold').1
        · rcases hat u' q₂ hu' with ⟨rfl, rfl⟩ | ⟨-, hold'⟩
          · exact (hapart u q₁ hold).2
          · exact k.apart u u' q₁ q₂ huu hold hold'
    | testAndSet t => exact hkeep hreq
    | instr t => exact hkeep hreq
    | unlock t => cases hne
  · -- the finished call takes nothing from the others
    have hat : ∀ u q', (s'.pc u).request = some q' → u ≠ t ∧ (s.pc u).request = some q' := by
      intro u q' hu
      rw [hreq u] at hu
      by_cases he : u = t
      · rw [LockEvent.requests, he, Function.update_self] at hu
        cases hu
      · rw [LockEvent.requests, Function.update_of_ne he] at hu
        exact ⟨he, hu⟩
    have hown : (s.pc t).request = some q := by
      rw [hpc]
      rfl
    refine ⟨fun u q' hu => ?_, fun u u' q₁ q₂ huu hu hu' => ?_⟩
    · obtain ⟨hut, hold⟩ := hat u q' hu
      rw [hlog]
      exact C.keeps (k.may u q' hold) (k.may t q hown) (k.apart u t q' q hut hold hown)
    · exact k.apart u u' q₁ q₂ huu (hat u q₁ hu).2 (hat u' q₂ hu').2

end Contract

/-- **Every interleaving is a run of whole operations.** Where the callers keep the contract, the finished calls, in the
    order in which they left and with the results they got, are a run of the operations, each made with what it needs;
    where the lock is free the data are what that run has made of them; and no two threads have the lock. -/
theorem LockSys.serializable {C : Contract T Req R} {P : LockedCode Req L R σ} {op : Req → σ → R × σ}
    {value : L → σ → R × σ} (hP : Denotes P op value) {d₀ : σ} {es : List (LockEvent T Req)} {s : LockSys T Req L R σ}
    (hrun : Run (Guarded C.Admits (Graph (lockStep P))) (LockSys.init d₀) es s) :
    (∃ d, Run (C.Atomic op) ([], d₀) s.log (s.log, d) ∧ (s.locked = false → s.data = d)) ∧
      ∀ t t', (s.pc t).holds = true → (s.pc t').holds = true → t = t' := by
  obtain ⟨o, d, h, -, hlog⟩ := hrun.invariant
    (fun s => ∃ o d, Serial op value s o d ∧ C.Kept s ∧ Run (C.Atomic op) ([], d₀) s.log (s.log, d))
    ⟨none, d₀, Serial.init d₀, Contract.Kept.init C d₀, .refl⟩ (by
      rintro s e t ⟨o, d, h, k, hlog⟩ ⟨hok, hs⟩
      obtain ⟨o', d', h', hf⟩ := h.step hP hs
      refine ⟨o', d', h', k.step hok hs hf, ?_⟩
      rcases hf with ⟨-, hsame, rfl⟩ | ⟨t, q, r, -, hpc, hnew, hop⟩
      · rw [hsame]
        exact hlog
      · rw [hnew]
        exact .tail hlog ⟨k.may t q (by rw [hpc]; rfl), hop, rfl⟩)
  refine ⟨⟨d, hlog, fun hl => h.free ?_⟩, fun _ _ => h.eq_owner⟩
  have hlock := h.locked
  rw [hl] at hlock
  cases o with
  | none => rfl
  | some _ => cases hlock

end

end MyUnix.Lib
