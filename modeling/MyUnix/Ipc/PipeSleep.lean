import MyUnix.Ipc.PipeStream

/-!
# `Ipc.PipeSleep` — who sleeps at a pipe, and why

A reader should sleep only while the buffer is empty and the write end open, a writer only while the buffer is
full and the read end open. Three things break this: `wq_wake_one` wakes one of several sleepers and the chunk it
moves leaves room or bytes for the others; a wake that comes between the test and `wq_wait` finds nobody to wake;
and the loop of `pipe_write_fn` never looks at `read_closed` again. `WakesReach` is the condition that none of them
happens; under it every sleeper has its reason or a wake for its queue is on the way (`SleepInv`).

The invariant has four parts, one for each thing that can be known of a process and a queue: who is linked on it
(`linked`), who is asleep on it (`asleep`), that a sleeper has its reason (`reason`), and what a writer has seen
(`writes`). A signal separates the first two, since it wakes a process without taking its node off the queue.

That a wake is on the way is part of the reason. Between a change of the buffer and the wake that follows it, a
sleeper on that queue has none of its own.
-/

namespace MyUnix.Ipc

open Lib

namespace Pc

/-- The queue a process sleeps on. -/
def asleepOn : Pc → Option End
  | readAsleep _ => some .read
  | writeAsleep _ _ => some .write
  | _ => none

/-- The queue a process may have its node on: that of its sleep, until it has run again. -/
def linkedOn : Pc → Option End
  | readAsleep _ | readWoken _ => some .read
  | writeAsleep _ _ | writeWoken _ _ => some .write
  | _ => none

/-- The queue a process wakes with its next step. -/
def wakesNext : Pc → Option End
  | readWake _ _ _ => some .write
  | writeWake _ _ _ => some .read
  | closing e => some e.other
  | _ => none

/-- A call that was woken and has neither slept again nor returned. -/
def woken : Pc → Bool
  | readWoken _ | writeWoken _ _ => true
  | readLoop _ w | readWake _ _ w | readSleep _ w => w
  | writeLoop _ _ w | writeWake _ _ w | writeSleep _ _ w => w
  | _ => false

/-- Inside `pipe_write_fn`, past the test of `read_closed`. -/
def inWrite : Pc → Bool
  | writeLoop _ _ _ | writeWake _ _ _ | writeSleep _ _ _ | writeAsleep _ _ | writeWoken _ _ => true
  | _ => false

end Pc

/-- Nobody is between a buffer update or a close and the wake call after it, and every woken process has run to
    its next sleep or return. -/
def Quiet (s : PipeSys) : Prop := ∀ p, (s.pc p).wakesNext = none ∧ (s.pc p).woken = false

/-- A process asleep on the queue of `e` has a reason to sleep. -/
def Reason (s : PipeSys) : End → Prop
  | .read  => s.pipe.avail = 0 ∧ s.pipe.closed .write = false
  | .write => s.pipe.avail = pipeBufSize ∧ s.pipe.closed .read = false

/-- **Every sleeper has a reason.** -/
def SleepersOk (s : PipeSys) : Prop := ∀ p e, (s.pc p).asleepOn = some e → Reason s e

/-- The condition on a step: `wq_wake_one` finds at most one sleeper; nothing has changed between the test and the
    sleep; and the read end is not closed with a process inside `pipe_write_fn`. -/
def WakesReach (s : PipeSys) : PipeEv → Prop
  | .close _ .read => ∀ q, (s.pc q).inWrite = false
  | .run p =>
      match s.pc p with
      | .readWake _ _ _ => (s.queue .write).length ≤ 1
      | .writeWake _ _ _ => (s.queue .read).length ≤ 1
      | .readSleep _ _ => s.pipe.avail = 0 ∧ s.pipe.closed .write = false
      | .writeSleep _ _ _ => s.pipe.avail = pipeBufSize
      | _ => True
  | _ => True

/-! ## The invariant

One lemma for each kind of step, by what it does to queues and to the places of processes.
-/

/-- What holds of the sleepers in every state of the run. -/
structure SleepInv (s : PipeSys) : Prop where
  /-- Only sleepers, and processes that a signal has woken, have a node on a queue. -/
  linked : ∀ p e, p ∈ s.queue e → (s.pc p).linkedOn = some e
  /-- Every sleeper has. -/
  asleep : ∀ p e, (s.pc p).asleepOn = some e → p ∈ s.queue e
  /-- Where somebody is asleep there is a reason, or a wake for the queue is on the way. -/
  reason : ∀ p e, (s.pc p).asleepOn = some e → Reason s e ∨ ∃ q, (s.pc q).wakesNext = some e
  writes : ∀ p, (s.pc p).inWrite = true → s.pipe.closed .read = false

theorem SleepInv.init : SleepInv pipeInit where
  linked _ _ h := by cases h
  asleep _ _ h := by cases h
  reason _ _ h := by cases h
  writes _ h := by cases h

theorem SleepInv.sleepersOk {s : PipeSys} (h : SleepInv s) (hq : Quiet s) : SleepersOk s := by
  intro p e hp
  rcases h.reason p e hp with hr | ⟨q, hw⟩
  · exact hr
  · rw [(hq q).1] at hw
    cases hw

namespace Pc

theorem linkedOn_of_wakesNext {c : Pc} {e : End} (h : c.wakesNext = some e) : c.linkedOn = none := by
  cases c <;> first | rfl | cases h

theorem linkedOn_of_asleepOn {c : Pc} {e : End} (h : c.asleepOn = some e) : c.linkedOn = some e := by
  cases c <;> first | exact h | cases h

theorem linkedOn_wake (c : Pc) : c.wake.linkedOn = c.linkedOn := by
  cases c <;> rfl

theorem asleepOn_wake (c : Pc) : c.wake.asleepOn = none := by
  cases c <;> rfl

theorem wakesNext_wake (c : Pc) : c.wake.wakesNext = c.wakesNext := by
  cases c <;> rfl

theorem inWrite_wake (c : Pc) : c.wake.inWrite = c.inWrite := by
  cases c <;> rfl

theorem free_iff {c : Pc} (h : c.free = true) : c.linkedOn = none ∧ c.wakesNext = none := by
  cases c <;> first | exact ⟨rfl, rfl⟩ | cases h

end Pc

/-- With at most one sleeper, waking one is waking all. -/
theorem wqWakeOne_eq_wakeAll {s : PipeSys} {e : End} (hlen : (s.queue e).length ≤ 1) :
    s.wqWakeOne e = s.wqWakeAll e := by
  unfold PipeSys.wqWakeOne PipeSys.wqWakeAll
  split
  · rename_i hnil
    have hq : Function.update s.queue e [] = s.queue := by
      rw [← hnil]
      exact Function.update_eq_self e s.queue
    simp [hnil, hq]
  · rename_i q qs hcons
    have hnil : qs = [] := by
      rw [hcons] at hlen
      exact List.length_eq_zero_iff.mp (by simpa using hlen)
    subst hnil
    have hpc : Function.update s.pc q (s.pc q).wake = fun r => if r ∈ s.queue e then (s.pc r).wake else s.pc r := by
      funext r
      rw [hcons]
      by_cases hr : r = q
      · subst hr
        simp
      · simp [hr]
    rw [hpc]

namespace SleepInv

variable {s : PipeSys} {p : Nat} {c : Pc}

theorem not_linked (h : SleepInv s) (hp : (s.pc p).linkedOn = none) (e : End) : p ∉ s.queue e := by
  intro hmem
  rw [h.linked p e hmem] at hp
  cases hp

/-! ## Steps that neither sleep nor wake

A process goes on in its call. The buffer may change, and then a wake follows, which counts as a reason until it is
made.
-/

/-- **A step inside a call** that neither sleeps nor wakes: the queues stay, the buffer and the flags may change as
    long as the reasons of the sleepers, or a wake by `p`, make up for it. -/
theorem move (h : SleepInv s) {t : PipeSys} (hpc : t.pc = Function.update s.pc p c) (hqueue : t.queue = s.queue)
    (hold : (s.pc p).linkedOn = none) (hwakes : (s.pc p).wakesNext = none) (hnew : c.asleepOn = none)
    (hreason : ∀ e, Reason s e → Reason t e ∨ c.wakesNext = some e)
    (hwrite : c.inWrite = true → t.pipe.closed .read = false)
    (hclosed : ∀ q, q ≠ p → (s.pc q).inWrite = true → s.pipe.closed .read = false → t.pipe.closed .read = false) :
    SleepInv t := by
  -- whoever sleeps after the step is not `p`
  have hother : ∀ q e, (t.pc q).asleepOn = some e → q ≠ p ∧ (s.pc q).asleepOn = some e := by
    intro q e hq
    rw [hpc] at hq
    by_cases hqp : q = p
    · subst hqp
      rw [Function.update_self, hnew] at hq
      cases hq
    · rw [Function.update_of_ne hqp] at hq
      exact ⟨hqp, hq⟩
  constructor
  · intro q e hq
    rw [hqueue] at hq
    have hqp : q ≠ p := by
      rintro rfl
      exact h.not_linked hold e hq
    rw [hpc, Function.update_of_ne hqp]
    exact h.linked q e hq
  · intro q e hq
    rw [hqueue]
    exact h.asleep q e (hother q e hq).2
  · intro q e hq
    rcases h.reason q e (hother q e hq).2 with hr | ⟨r, hr⟩
    · rcases hreason e hr with hr | hw
      · exact Or.inl hr
      · exact Or.inr ⟨p, by rw [hpc, Function.update_self]; exact hw⟩
    · have hrp : r ≠ p := by
        rintro rfl
        rw [hwakes] at hr
        cases hr
      exact Or.inr ⟨r, by rw [hpc, Function.update_of_ne hrp]; exact hr⟩
  · intro q hq
    rw [hpc] at hq
    by_cases hqp : q = p
    · subst hqp
      rw [Function.update_self] at hq
      exact hwrite hq
    · rw [Function.update_of_ne hqp] at hq
      exact hclosed q hqp hq (h.writes q hq)

/-- A step that changes nothing but where `p` is. -/
theorem setPc (h : SleepInv s) (hold : (s.pc p).linkedOn = none) (hwakes : (s.pc p).wakesNext = none)
    (hnew : c.asleepOn = none) (hwrite : c.inWrite = true → s.pipe.closed .read = false) :
    SleepInv (s.setPc p c) :=
  h.move rfl rfl hold hwakes hnew (fun _ hr => Or.inl (by cases ‹End› <;> exact hr)) hwrite fun _ _ _ hc => hc

/-! ## Signals, wakes and sleeps

Each of them changes who is asleep or who is linked.
-/

/-- **A signal** takes nobody off a queue, but a process it wakes sleeps no more. -/
theorem signal (h : SleepInv s) (p : Nat) : SleepInv (s.setPc p (s.pc p).wake) := by
  have hpc : ∀ q, (s.setPc p (s.pc p).wake).pc q = s.pc q ∨ (s.setPc p (s.pc p).wake).pc q = (s.pc q).wake := by
    intro q
    by_cases hqp : q = p
    · subst hqp
      exact Or.inr PipeSys.setPc_self
    · exact Or.inl (PipeSys.setPc_of_ne hqp)
  have hother : ∀ q e, ((s.setPc p (s.pc p).wake).pc q).asleepOn = some e → (s.pc q).asleepOn = some e := by
    intro q e hq
    rcases hpc q with hsame | hwake
    · rwa [hsame] at hq
    · rw [hwake, Pc.asleepOn_wake] at hq
      cases hq
  constructor
  · intro q e hq
    have hlinked := h.linked q e hq
    rcases hpc q with hsame | hwake
    · rw [hsame]
      exact hlinked
    · rw [hwake, Pc.linkedOn_wake]
      exact hlinked
  · intro q e hq
    exact h.asleep q e (hother q e hq)
  · intro q e hq
    rcases h.reason q e (hother q e hq) with hr | ⟨r, hr⟩
    · left
      cases e <;> exact hr
    · refine Or.inr ⟨r, ?_⟩
      rcases hpc r with hsame | hwake
      · rw [hsame]
        exact hr
      · rw [hwake, Pc.wakesNext_wake]
        exact hr
  · intro q hq
    apply h.writes q
    rcases hpc q with hsame | hwake
    · rwa [hsame] at hq
    · rwa [hwake, Pc.inWrite_wake] at hq

/-- **A process that was woken runs**: its node is off the queue then, whoever has woken it. -/
theorem unlink (h : SleepInv s) {e : End} (hold : (s.pc p).linkedOn = some e) (hawake : (s.pc p).asleepOn = none) :
    SleepInv (s.unlink p e) where
  linked q e' hq := by
    apply h.linked q e'
    change q ∈ Function.update s.queue e ((s.queue e).filter fun q => q ≠ p) e' at hq
    by_cases he : e' = e
    · subst he
      rw [Function.update_self] at hq
      exact (List.mem_filter.mp hq).1
    · rwa [Function.update_of_ne he] at hq
  asleep q e' hq := by
    have hmem := h.asleep q e' hq
    have hqp : q ≠ p := by
      rintro rfl
      change (s.pc q).asleepOn = some e' at hq
      rw [hawake] at hq
      cases hq
    show q ∈ Function.update s.queue e ((s.queue e).filter fun q => q ≠ p) e'
    by_cases he : e' = e
    · subst he
      rw [Function.update_self]
      exact List.mem_filter.mpr ⟨hmem, decide_eq_true hqp⟩
    · rwa [Function.update_of_ne he]
  reason q e' hq := (h.reason q e' hq).imp_left fun hr => by cases e' <;> exact hr
  writes := h.writes

/-- And it goes on with its loop, or returns. -/
theorem resume (h : SleepInv s) {e : End} (hold : (s.pc p).linkedOn = some e) (hawake : (s.pc p).asleepOn = none)
    (hwakes : (s.pc p).wakesNext = none) (hnew : c.asleepOn = none)
    (hwrite : c.inWrite = true → s.pipe.closed .read = false) : SleepInv ((s.unlink p e).setPc p c) := by
  have h' := h.unlink hold hawake
  have hoff : ∀ e', p ∉ (s.unlink p e).queue e' := by
    intro e' hmem
    have he : some e = some e' := hold.symm.trans (h'.linked p e' hmem)
    obtain rfl := Option.some.inj he
    change p ∈ Function.update s.queue e ((s.queue e).filter fun q => q ≠ p) e at hmem
    rw [Function.update_self] at hmem
    exact of_decide_eq_true (List.mem_filter.mp hmem).2 rfl
  have hother : ∀ q e', (((s.unlink p e).setPc p c).pc q).asleepOn = some e' → (s.pc q).asleepOn = some e' := by
    intro q e' hq
    by_cases hqp : q = p
    · subst hqp
      rw [PipeSys.setPc_self, hnew] at hq
      cases hq
    · rwa [PipeSys.setPc_of_ne hqp] at hq
  constructor
  · intro q e' hq
    have hqp : q ≠ p := by
      rintro rfl
      exact hoff e' hq
    rw [PipeSys.setPc_of_ne hqp]
    exact h'.linked q e' hq
  · intro q e' hq
    exact h'.asleep q e' (hother q e' hq)
  · intro q e' hq
    rcases h.reason q e' (hother q e' hq) with hr | ⟨r, hr⟩
    · left
      cases e' <;> exact hr
    · have hrp : r ≠ p := by
        rintro rfl
        rw [hwakes] at hr
        cases hr
      exact Or.inr ⟨r, by rw [PipeSys.setPc_of_ne hrp]; exact hr⟩
  · intro q hq
    by_cases hqp : q = p
    · subst hqp
      rw [PipeSys.setPc_self] at hq
      exact hwrite hq
    · rw [PipeSys.setPc_of_ne hqp] at hq
      exact h.writes q hq

/-- **A wake that empties the queue.** -/
theorem wakeAll (h : SleepInv s) {e : End} {t : PipeSys} (hpc : t.pc = Function.update (s.wqWakeAll e).pc p c)
    (hqueue : t.queue = Function.update s.queue e []) (havail : t.pipe.avail = s.pipe.avail)
    (hclosed : t.pipe.closed = s.pipe.closed) (hwakes : (s.pc p).wakesNext = some e) (hnew : c.asleepOn = none)
    (hwrite : c.inWrite = true → (s.pc p).inWrite = true) : SleepInv t := by
  have hold := Pc.linkedOn_of_wakesNext hwakes
  -- whoever sleeps after the step was on the other queue
  have hother : ∀ q e', (t.pc q).asleepOn = some e' → e' ≠ e ∧ (s.pc q).asleepOn = some e' := by
    intro q e' hq
    rw [hpc] at hq
    by_cases hqp : q = p
    · subst hqp
      rw [Function.update_self, hnew] at hq
      cases hq
    · rw [Function.update_of_ne hqp] at hq
      change (if q ∈ s.queue e then (s.pc q).wake else s.pc q).asleepOn = some e' at hq
      split at hq
      · rw [Pc.asleepOn_wake] at hq
        cases hq
      · rename_i hnot
        refine ⟨?_, hq⟩
        rintro rfl
        exact hnot (h.asleep q e' hq)
  constructor
  · intro q e' hq
    rw [hqueue] at hq
    have he : e' ≠ e := by
      rintro rfl
      rw [Function.update_self] at hq
      cases hq
    rw [Function.update_of_ne he] at hq
    have hqp : q ≠ p := by
      rintro rfl
      exact h.not_linked hold e' hq
    rw [hpc, Function.update_of_ne hqp]
    rcases s.wqWakeAll_pc (q := q) (e := e) with hsame | hwake
    · rw [hsame]
      exact h.linked q e' hq
    · rw [hwake, Pc.linkedOn_wake]
      exact h.linked q e' hq
  · intro q e' hq
    obtain ⟨he, hq'⟩ := hother q e' hq
    rw [hqueue, Function.update_of_ne he]
    exact h.asleep q e' hq'
  · intro q e' hq
    obtain ⟨he, hq'⟩ := hother q e' hq
    rcases h.reason q e' hq' with hr | ⟨r, hr⟩
    · left
      cases e' <;> exact ⟨havail.trans hr.1, hclosed ▸ hr.2⟩
    · right
      have hrp : r ≠ p := by
        rintro rfl
        rw [hwakes] at hr
        exact he (Option.some.inj hr).symm
      refine ⟨r, ?_⟩
      rw [hpc, Function.update_of_ne hrp]
      rcases s.wqWakeAll_pc (q := r) (e := e) with hsame | hwake
      · rw [hsame]
        exact hr
      · rw [hwake, Pc.wakesNext_wake]
        exact hr
  · intro q hq
    rw [hclosed]
    rw [hpc] at hq
    by_cases hqp : q = p
    · subst hqp
      rw [Function.update_self] at hq
      exact h.writes q (hwrite hq)
    · rw [Function.update_of_ne hqp] at hq
      rcases s.wqWakeAll_pc (q := q) (e := e) with hsame | hwake
      · rw [hsame] at hq
        exact h.writes q hq
      · rw [hwake, Pc.inWrite_wake] at hq
        exact h.writes q hq

/-- **A process goes to sleep** with a reason. -/
theorem wqWait (h : SleepInv s) {e : End} (hold : (s.pc p).linkedOn = none) (hwakes : (s.pc p).wakesNext = none)
    (hnew : c.asleepOn = some e) (hreason : Reason s e) (hwrite : c.inWrite = true → (s.pc p).inWrite = true) :
    SleepInv (s.wqWait p e c) := by
  constructor
  · intro q e' hq
    change q ∈ Function.update s.queue e (s.queue e ++ [p]) e' at hq
    show (Function.update s.pc p c q).linkedOn = some e'
    by_cases hqp : q = p
    · -- `p` was on no queue before
      subst hqp
      have he : e' = e := by
        by_contra he
        rw [Function.update_of_ne he] at hq
        exact h.not_linked hold e' hq
      rw [Function.update_self, he]
      exact Pc.linkedOn_of_asleepOn hnew
    · rw [Function.update_of_ne hqp]
      apply h.linked q e'
      by_cases he : e' = e
      · subst he
        rw [Function.update_self] at hq
        simpa [hqp] using hq
      · rwa [Function.update_of_ne he] at hq
  · intro q e' hq
    change (Function.update s.pc p c q).asleepOn = some e' at hq
    show q ∈ Function.update s.queue e (s.queue e ++ [p]) e'
    by_cases hqp : q = p
    · subst hqp
      rw [Function.update_self, hnew] at hq
      obtain rfl := Option.some.inj hq
      simp
    · rw [Function.update_of_ne hqp] at hq
      have hmem := h.asleep q e' hq
      by_cases he : e' = e
      · subst he
        rw [Function.update_self]
        exact List.mem_append_left _ hmem
      · rwa [Function.update_of_ne he]
  · intro q e' hq
    change (Function.update s.pc p c q).asleepOn = some e' at hq
    by_cases hqp : q = p
    · subst hqp
      rw [Function.update_self, hnew] at hq
      obtain rfl := Option.some.inj hq
      left
      cases e <;> exact hreason
    · rw [Function.update_of_ne hqp] at hq
      rcases h.reason q e' hq with hr | ⟨r, hr⟩
      · left
        cases e' <;> exact hr
      · have hrp : r ≠ p := by
          rintro rfl
          rw [hwakes] at hr
          cases hr
        refine Or.inr ⟨r, ?_⟩
        show (Function.update s.pc p c r).wakesNext = some e'
        rw [Function.update_of_ne hrp]
        exact hr
  · intro q hq
    show s.pipe.closed .read = false
    change (Function.update s.pc p c q).inWrite = true at hq
    by_cases hqp : q = p
    · subst hqp
      rw [Function.update_self] at hq
      exact h.writes q (hwrite hq)
    · rw [Function.update_of_ne hqp] at hq
      exact h.writes q hq

/-! ## One step

All the places of a call, and then all events.
-/

/-- **The next step of a process inside a call.** -/
theorem advance (h : SleepInv s) (hok : WakesReach s (.run p)) {t : PipeSys} (hs : s.advance p = some t) :
    SleepInv t := by
  unfold PipeSys.advance at hs
  simp only [WakesReach] at hok
  split at hs
  · cases hs
  · cases hs
  · cases hs
  · cases hs
  · -- the locked section of a reader
    rename_i len woken hpc
    cases hs
    unfold PipeSys.readSection
    split
    · rename_i havail
      refine h.move rfl rfl (by rw [hpc]; rfl) (by rw [hpc]; rfl) rfl (fun e hr => ?_) (fun hw => by cases hw)
        fun _ _ _ hc => hc
      cases e with
      | read => exact absurd hr.1 (Nat.ne_of_gt havail)
      | write => exact Or.inr rfl
    · split
      · exact h.setPc (by rw [hpc]; rfl) (by rw [hpc]; rfl) rfl fun hw => by cases hw
      · exact h.setPc (by rw [hpc]; rfl) (by rw [hpc]; rfl) rfl fun hw => by cases hw
  · rename_i len n woken hpc
    rw [hpc] at hok
    cases hs
    rw [wqWakeOne_eq_wakeAll hok]
    exact h.wakeAll rfl rfl rfl rfl (by rw [hpc]; rfl) rfl fun hw => by cases hw
  · rename_i len woken hpc
    rw [hpc] at hok
    cases hs
    exact h.wqWait (by rw [hpc]; rfl) (by rw [hpc]; rfl) rfl hok fun hw => by cases hw
  · rename_i len hpc
    cases hs
    split
    · exact h.resume (by rw [hpc]; rfl) (by rw [hpc]; rfl) (by rw [hpc]; rfl) rfl fun hw => by cases hw
    · exact h.resume (by rw [hpc]; rfl) (by rw [hpc]; rfl) (by rw [hpc]; rfl) rfl fun hw => by cases hw
  · -- one round of a writer
    rename_i rest done woken hpc
    have hopen := h.writes p (by rw [hpc]; rfl)
    cases hs
    simp only [PipeSys.writeSection]
    split
    · exact h.setPc (by rw [hpc]; rfl) (by rw [hpc]; rfl) rfl fun hw => by cases hw
    · split
      · rename_i hspace
        refine h.move rfl rfl (by rw [hpc]; rfl) (by rw [hpc]; rfl) rfl (fun e hr => ?_) (fun _ => hopen)
          fun _ _ _ hc => hc
        cases e with
        | read => exact Or.inr rfl
        | write =>
            rw [hr.1, space_eq (Nat.le_refl _)] at hspace
            omega
      · exact h.setPc (by rw [hpc]; rfl) (by rw [hpc]; rfl) rfl fun _ => hopen
  · rename_i rest done woken hpc
    rw [hpc] at hok
    cases hs
    rw [wqWakeOne_eq_wakeAll hok]
    exact h.wakeAll rfl rfl rfl rfl (by rw [hpc]; rfl) rfl fun _ => by rw [hpc]; rfl
  · rename_i rest done woken hpc
    rw [hpc] at hok
    have hopen := h.writes p (by rw [hpc]; rfl)
    cases hs
    exact h.wqWait (by rw [hpc]; rfl) (by rw [hpc]; rfl) rfl ⟨hok, hopen⟩ fun _ => by rw [hpc]; rfl
  · rename_i rest done hpc
    have hopen := h.writes p (by rw [hpc]; rfl)
    cases hs
    split
    · exact h.resume (by rw [hpc]; rfl) (by rw [hpc]; rfl) (by rw [hpc]; rfl) rfl fun hw => by cases hw
    · exact h.resume (by rw [hpc]; rfl) (by rw [hpc]; rfl) (by rw [hpc]; rfl) rfl fun _ => hopen
  · rename_i e hpc
    cases hs
    exact h.wakeAll rfl rfl rfl rfl (by rw [hpc]; rfl) rfl fun hw => by cases hw

/-- **One step** keeps the invariant. -/
theorem step (h : SleepInv s) {ev : PipeEv} {t : PipeSys} (hok : WakesReach s ev) (hs : pipeStep s ev = some t) :
    SleepInv t := by
  unfold pipeStep at hs
  split at hs
  · cases hs
  · cases ev with
    | read p len =>
        simp only [Option.ite_none_right_eq_some, Option.some.injEq] at hs
        obtain ⟨hfree, rfl⟩ := hs
        obtain ⟨h1, h2⟩ := Pc.free_iff hfree
        exact h.setPc h1 h2 rfl fun hw => by cases hw
    | write p bytes =>
        simp only [Option.ite_none_right_eq_some, Option.some.injEq] at hs
        obtain ⟨hfree, rfl⟩ := hs
        obtain ⟨h1, h2⟩ := Pc.free_iff hfree
        by_cases hclosed : s.pipe.closed .read = true
        · rw [if_pos hclosed]
          exact h.setPc h1 h2 rfl fun hw => by cases hw
        · rw [if_neg hclosed]
          exact h.setPc h1 h2 rfl fun _ => by simpa using hclosed
    | close p e =>
        simp only [Option.ite_none_right_eq_some, Option.some.injEq] at hs
        obtain ⟨⟨hfree, hopen⟩, rfl⟩ := hs
        obtain ⟨h1, h2⟩ := Pc.free_iff hfree
        refine h.move rfl rfl h1 h2 rfl (fun e' hr => ?_) (fun hw => by cases hw) fun q _ hq hc => ?_
        · -- closing `e` takes the reason from the sleepers at the other end, and wakes them next
          by_cases he : e' = e.other
          · exact Or.inr (congrArg some he.symm)
          · left
            cases e <;> cases e' <;> first | exact absurd rfl he | exact hr
        · cases e with
          | read =>
              have := hok q
              rw [hq] at this
              cases this
          | write => exact hc
    | kill p =>
        cases hs
        refine ⟨h.linked, h.asleep, fun q e hq => ?_, h.writes⟩
        exact (h.reason q e hq).imp_left fun hr => by cases e <;> exact hr
    | signal p =>
        cases hs
        exact h.signal p
    | run p => exact h.advance hok hs

end SleepInv

/-! ## Every run

The result, and the two runs that show what the condition is for: one reader that sleeps with reason, and two readers
of which one is never woken.
-/

/-- **Nobody sleeps at a pipe without a reason**: in every run whose steps meet `WakesReach`, in every quiet state
    reached, a process asleep in `pipe_read_fn` finds the buffer empty and the write end open, one asleep in
    `pipe_write_fn` finds the buffer full and the read end open. -/
theorem pipe_sleepers_ok (evs : List PipeEv) (s : PipeSys)
    (hrun : Run (Guarded WakesReach (Graph pipeStep)) pipeInit evs s) (hq : Quiet s) : SleepersOk s := by
  have hinv : SleepInv s := by
    refine hrun.invariant SleepInv SleepInv.init ?_
    intro s ev t hs hstep
    exact hs.step hstep.1 hstep.2
  exact hinv.sleepersOk hq

/-- A process that takes no step stays idle. -/
theorem idle_of_not_actor {evs : List PipeEv} {s : PipeSys} {p : Nat} (hrun : Run (Graph pipeStep) pipeInit evs s)
    (hp : ∀ ev ∈ evs, p ≠ ev.actor) : s.pc p = .idle := by
  generalize hinit : pipeInit = s₀ at hrun
  induction hrun with
  | refl =>
      rw [← hinit]
      rfl
  | tail _ hstep ih =>
      have hidle := ih fun ev hev => hp ev (List.mem_append_left _ hev)
      rcases pipeStep_pc_other hstep (hp _ (by simp)) with hsame | hwake
      · rw [hsame, hidle]
      · rw [hwake, hidle]
        rfl

/-- In a run of few processes, quiet is a check of these. -/
theorem quiet_of_actors {evs : List PipeEv} {s : PipeSys} (hrun : Run (Graph pipeStep) pipeInit evs s)
    (h : ∀ ev ∈ evs, (s.pc ev.actor).wakesNext = none ∧ (s.pc ev.actor).woken = false) : Quiet s := by
  intro p
  by_cases hp : ∃ ev ∈ evs, ev.actor = p
  · obtain ⟨ev, hev, rfl⟩ := hp
    exact h ev hev
  · rw [idle_of_not_actor hrun fun ev hev e => hp ⟨ev, hev, e.symm⟩]
    exact ⟨rfl, rfl⟩

/-- A reader of the empty pipe goes to sleep. -/
theorem pipe_sleepers_ok_reader :
    ∃ s, Run (Guarded WakesReach (Graph pipeStep)) pipeInit [.read 1 4, .run 1, .run 1] s ∧
      s.pc 1 = .readAsleep 4 ∧ SleepersOk s := by
  have h₀ : Run (Guarded WakesReach (Graph pipeStep)) pipeInit [] (after pipeStep pipeInit []) := .refl
  have h₁ := h₀.tail_after (.read 1 4) trivial (by decide +kernel)
  have h₂ := h₁.tail_after (.run 1) trivial (by decide +kernel)
  have hok : WakesReach (after pipeStep pipeInit [.read 1 4, .run 1]) (.run 1) := by
    show (after pipeStep pipeInit [.read 1 4, .run 1]).pipe.avail = 0 ∧ _
    decide +kernel
  have h₃ := h₂.tail_after (.run 1) hok (by decide +kernel)
  have hquiet : Quiet (after pipeStep pipeInit [.read 1 4, .run 1, .run 1]) := by
    refine quiet_of_actors (h₃.mono fun _ _ _ hs => hs.2) ?_
    decide +kernel
  exact ⟨_, h₃, by decide +kernel, pipe_sleepers_ok _ _ h₃ hquiet⟩

/-- Two readers asleep, two bytes written, one reader woken: it takes one byte, and the other sleeps on beside the
    byte that is left. -/
theorem pipe_sleeper_missed :
    ∃ s, Run (Graph pipeStep) pipeInit
        [.read 1 1, .run 1, .run 1, .read 2 1, .run 2, .run 2, .write 3 [5, 6], .run 3, .run 3, .run 3,
          .run 1, .run 1, .run 1] s ∧
      Quiet s ∧ s.pipe.avail = 1 ∧ s.pc 2 = .readAsleep 1 ∧ ¬ SleepersOk s := by
  have hsome : ([PipeEv.read 1 1, .run 1, .run 1, .read 2 1, .run 2, .run 2, .write 3 [5, 6], .run 3, .run 3, .run 3,
      .run 1, .run 1, .run 1].foldlM pipeStep pipeInit).isSome := by decide +kernel
  have hrun := Run.of_after hsome
  have havail : (after pipeStep pipeInit [.read 1 1, .run 1, .run 1, .read 2 1, .run 2, .run 2, .write 3 [5, 6],
      .run 3, .run 3, .run 3, .run 1, .run 1, .run 1]).pipe.avail = 1 := by decide +kernel
  have hasleep : (after pipeStep pipeInit [.read 1 1, .run 1, .run 1, .read 2 1, .run 2, .run 2, .write 3 [5, 6],
      .run 3, .run 3, .run 3, .run 1, .run 1, .run 1]).pc 2 = .readAsleep 1 := by decide +kernel
  have hquiet := quiet_of_actors hrun (by decide +kernel)
  refine ⟨_, hrun, hquiet, havail, hasleep, fun hok => ?_⟩
  have hreason := (hok 2 .read (by rw [hasleep]; rfl)).1
  rw [havail] at hreason
  cases hreason

end MyUnix.Ipc
