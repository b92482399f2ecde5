import MyUnix.Proc.SchedInv

/-!
# `Proc.SchedStep` — one step of the scheduler

The two conditions under which the scheduler does what it relies on, and what a step that meets them does.
`WakesOnce`: no wake pushes a process that is on a run queue already. `WakesNobody`: no wake finds a waiter.
`CoreInv.step` says that a step under the first keeps the invariant, and what a step under the second does to
the wait queues (`WaitEffect`).

The two effects are coarse on purpose. `RunEffect` is what the accounting of time needs, pushes and then possibly a
choice; `WaitEffect` is what the nodes need, one node more or one less, by its own process. A step of the machine has
many cases, and each of them is one of these.
-/

namespace MyUnix.Proc

open Lib

/-- What a step in which no wake finds a waiter can do to the wait queues. -/
inductive WaitEffect (s : Sched) (L : Addr → List Addr) (s' : Sched) (L' : Addr → List Addr) : Prop
  | same (h : SameWaits s L s' L')
  /-- The running process has put a new node on a queue. -/
  | enqueue (p : Pid) (q : Wq) (hp : (s.procs p).pc.waiting = none)
      (hp' : (s'.procs p).pc.waiting = some (q, s.nnodes))
      (hother : ∀ x, x ≠ p → (s'.procs x).pc.waiting = (s.procs x).pc.waiting)
      (hlinked : Addr.wqNode p ∈ L' (.wqHead q)) (hkept : ∀ q x, Addr.wqNode x ∈ L (.wqHead q) → Addr.wqNode x ∈ L' (.wqHead q))
      (hnnodes : s'.nnodes = s.nnodes + 1) (hunlinks : s'.unlinks = s.unlinks) (hpanic : s'.panicked = s.panicked)
  /-- A resumed waiter has unlinked its node, which was on its queue. -/
  | unlink (p : Pid) (q : Wq) (k : Nat) (hp : (s.procs p).pc.waiting = some (q, k))
      (hp' : (s'.procs p).pc.waiting = none)
      (hother : ∀ x, x ≠ p → (s'.procs x).pc.waiting = (s.procs x).pc.waiting)
      (hkept : ∀ q x, x ≠ p → Addr.wqNode x ∈ L (.wqHead q) → Addr.wqNode x ∈ L' (.wqHead q))
      (hnnodes : s'.nnodes = s.nnodes) (hunlinks : s'.unlinks = s.unlinks ++ [⟨k, true⟩])
      (hpanic : s'.panicked = s.panicked)
  /-- A resumed waiter has found its node on no queue. -/
  | twice (p : Pid) (q : Wq) (k : Nat) (hp : (s.procs p).pc.waiting = some (q, k))
      (hoff : Addr.wqNode p ∉ L (.wqHead q))

/-- What a step does to the run queues: pushes, and then `schedule()` if it comes to that. A process that has begun to
    exit does not stop to. -/
inductive RunEffect (s : Sched) (L : Addr → List Addr) (s' : Sched) (L' : Addr → List Addr) : Prop
  | stays (hc : s'.current = s.current) (happ : Appends L L')
      (hpc : (s.procs s.current).pc.exiting = true → (s'.procs s'.current).pc.exiting = true)
  | switches {s₁ : Sched} {L₁ : Addr → List Addr} (h : CoreInv s₁ L₁) (hc : s₁.current = s.current)
      (hprio : ∀ x, s₁.prio x = s.prio x) (happ : Appends L L₁) (hserves : Serves L₁ s' L')

theorem RunEffect.of_pc {s s' : Sched} {L L' : Addr → List Addr} (hc : s'.current = s.current) (happ : Appends L L')
    (hpc : (s'.procs s.current).pc = (s.procs s.current).pc) : RunEffect s L s' L' :=
  .stays hc happ fun he => by rwa [hc, hpc]

/-- What comes before changes no run queue. -/
theorem RunEffect.of_same {s s₁ s' : Sched} {L L' : Addr → List Addr} (h : RunEffect s₁ L s' L')
    (hc : s₁.current = s.current) (hprio : ∀ x, s₁.prio x = s.prio x)
    (hpc : (s.procs s.current).pc.exiting = true → (s₁.procs s.current).pc.exiting = true) : RunEffect s L s' L' := by
  cases h with
  | stays hc' happ hpc' => exact .stays (hc'.trans hc) happ fun he => hpc' (by rw [hc]; exact hpc he)
  | switches h hc' hprio' happ hserves =>
    exact .switches h (hc'.trans hc) (fun x => (hprio' x).trans (hprio x)) happ hserves

/-- A step of the scheduler after which the invariant holds again; `nobody` is the condition that no wake in
    it finds a waiter. -/
def Kept (s : Sched) (L : Addr → List Addr) (k : Kernel Sched) (nobody : Prop) : Prop :=
  ∃ L', CoreInv (Sched.final k) L' ∧ Awake (Sched.final k) ∧ RunEffect s L (Sched.final k) L' ∧
    (nobody → WaitEffect s L (Sched.final k) L')

theorem Kept.ok {s s' : Sched} {L L' : Addr → List Addr} {nobody : Prop} (h : CoreInv s' L') (ha : Awake s')
    (hr : RunEffect s L s' L') (hw : nobody → WaitEffect s L s' L') : Kept s L (.ok s') nobody := ⟨L', h, ha, hr, hw⟩

theorem awake_of_ne {s : Sched} (h : (s.procs s.current).state ≠ .sleeping) : Awake s := fun hs => absurd hs h

section

variable {s : Sched} {L : Addr → List Addr}

theorem beginSleep_same (q : Wq) (c : Caller) :
    (s.beginSleep q c).mem = s.mem ∧ (s.beginSleep q c).bitmap = s.bitmap ∧
    (s.beginSleep q c).total = s.total ∧ (s.beginSleep q c).nprocs = s.nprocs ∧
    (s.beginSleep q c).current = s.current ∧ (s.beginSleep q c).nnodes = s.nnodes ∧
    (s.beginSleep q c).unlinks = s.unlinks ∧ (s.beginSleep q c).panicked = s.panicked ∧
    (∀ x, ((s.beginSleep q c).procs x).priority = (s.procs x).priority) ∧
    ∀ x, x ≠ s.current → (s.beginSleep q c).procs x = s.procs x := by
  cases c with
  | direct => exact ⟨rfl, rfl, rfl, rfl, rfl, rfl, rfl, rfl, fun _ => rfl, fun _ _ => rfl⟩
  | procSleep =>
      refine ⟨rfl, rfl, rfl, rfl, rfl, rfl, rfl, rfl, fun x => ?_, fun x hx => ?_⟩
      · simp only [Sched.beginSleep, Sched.setWaitChannel, Sched.setState]
        rw [Sched.setProc_field _ _ x (·.priority) _ rfl, Sched.setProc_field _ _ x (·.priority) _ rfl]
      · simp only [Sched.beginSleep, Sched.setWaitChannel, Sched.setState]
        rw [Sched.setProc_of_ne _ _ hx, Sched.setProc_of_ne _ _ hx]

/-! ## Going to sleep

A process that waits gives up the processor with its node on the queue and goes on behind `schedule()` later. Both
wait functions begin like this.
-/

/-- **Going to sleep**: the common head of `wq_wait` and `wq_wait_timeout`. -/
theorem CoreInv.goToSleep (h : CoreInv s L) {q : Wq} (pc : Pc) (c : Caller) (hpc : pc.waiting = some (q, s.nnodes))
    (hcur : (s.procs s.current).pc.waiting = none) (hidle : s.current ≠ gIdleProc) :
    ∃ s' L', (s.beginSleep q c).enqueue q pc = .ok s' ∧ CoreInv s' L' ∧ WaitEffect s L s' L' ∧
      s'.current = s.current ∧ (s'.procs s.current).pc = pc ∧ Appends L L' ∧ (∀ x, s'.prio x = s.prio x) ∧
      L' (.wqHead q) = L (.wqHead q) ++ [.wqNode s.current] := by
  obtain ⟨hm, hb, ht, hn, hc, hnn, hul, hpk, hprio, hother⟩ := beginSleep_same (s := s) q c
  have hcurq : ¬ Queued L s.current := fun hq => (h.queued _ hq).2.1 rfl
  have hq₀ : QueueInv (s.beginSleep q c) L := h.toQueueInv.congr hm hb ht hprio
  generalize s.beginSleep q c = b at *
  have hoff := h.not_linked hcur
  obtain ⟨m', hrun, hq, hframe⟩ := hq₀.enqueue (q := q) pc (by rw [hc]; exact hoff)
  generalize hs' : ({ b with mem := m', nnodes := b.nnodes + 1 }.setState b.current .sleeping).setPc b.current pc = s'
    at hrun
  have hL' : Function.update L (.wqHead q) (L (.wqHead q) ++ [.wqNode b.current]) =
      Function.update L (.wqHead q) (L (.wqHead q) ++ [.wqNode s.current]) := by rw [hc]
  rw [hL'] at hq
  -- only the record of the caller changes, and only its queue gets a member more
  have hprocs : ∀ x, x ≠ s.current → s'.procs x = s.procs x := by
    intro x hx
    have hxb : x ≠ b.current := by rw [hc]; exact hx
    rw [← hs', Sched.setPc, Sched.setProc_of_ne _ _ hxb, Sched.setState, Sched.setProc_of_ne _ _ hxb]
    exact hother x hx
  have hself : (s'.procs s.current).pc = pc := by rw [← hs', ← hc]; simp [Sched.setPc]
  have hnp : s'.nprocs = s.nprocs := by rw [← hs']; exact hn
  have hcc : s'.current = s.current := by rw [← hs']; exact hc
  have hmem : s'.mem = m' := by rw [← hs']; rfl
  have hmono : ∀ q' x, Addr.wqNode x ∈ L (.wqHead q') →
      Addr.wqNode x ∈ Function.update L (.wqHead q) (L (.wqHead q) ++ [.wqNode s.current]) (.wqHead q') := by
    intro q' x hx
    by_cases hqq : q' = q
    · subst hqq; rw [Function.update_self]; exact List.mem_append_left _ hx
    · rwa [Function.update_of_ne (by simpa using hqq)]
  refine ⟨s', Function.update L (.wqHead q) (L (.wqHead q) ++ [.wqNode s.current]), hrun,
    ⟨?_, ?_, ?_, ?_, ?_, ?_, ?_, ?_⟩, ?_, hcc, hself, .of_wait (.refl _), fun x => ?_, Function.update_self _ _ _⟩
  · rw [← hs']; exact (hq.setState .sleeping).setPc pc
  · intro x hx
    obtain ⟨h1, h2, h3⟩ := h.queued x (queued_update_wait.mp hx)
    rw [hprocs x h2, hcc, hnp]
    exact ⟨h1, h2, h3⟩
  · intro q' x hx
    -- whose node is on a queue waits there: the caller since now, the others as before
    by_cases hxc : x = s.current
    · subst hxc
      rw [hself, hpc]
      by_cases hqq : q' = q
      · exact ⟨s.nnodes, by rw [hqq]⟩
      · rw [Function.update_of_ne (by simpa using hqq)] at hx
        exact absurd hx (hoff q')
    · rw [hprocs x hxc]
      by_cases hqq : q' = q
      · subst hqq
        rw [Function.update_self, List.mem_append, List.mem_singleton, Addr.wqNode.injEq] at hx
        exact h.waiting q' x (hx.resolve_right hxc)
      · rw [Function.update_of_ne (by simpa using hqq)] at hx
        exact h.waiting q' x hx
  · intro x hx hxoff
    -- who waits without being linked was unlinked before
    have hxc : x ≠ s.current := by
      rintro rfl
      apply hxoff q
      rw [Function.update_self]; simp
    have hxoff' : ∀ q', Addr.wqNode x ∉ L (.wqHead q') := fun q' hm => hxoff q' (hmono q' x hm)
    rw [hprocs x hxc] at hx
    rw [hmem, hframe x (by rw [hc]; exact hxc) hxoff', hm]
    exact h.unlinked x hx hxoff'
  · rw [hprocs _ (Ne.symm hidle)]; exact h.idle
  · intro x hx
    rw [hnp] at hx
    rw [hprocs x (fun he => absurd h.cur_lt (Nat.not_lt.mpr (he ▸ hx)))]
    exact h.fresh x hx
  · rw [hcc, hnp]; exact h.cur_lt
  · rw [hnp]; exact h.idle_lt
  · refine .enqueue s.current q hcur (by rw [hself, hpc]) (fun x hx => by rw [hprocs x hx]) ?_ hmono ?_ ?_ ?_
    · rw [Function.update_self]; simp
    · rw [← hs']; exact congrArg (· + 1) hnn
    · rw [← hs']; exact hul
    · rw [← hs']; exact hpk
  · have hx : (s'.procs x).priority = (s.procs x).priority := by
      rw [← hs', Sched.setPc, Sched.setProc_field _ _ x (·.priority) _ rfl, Sched.setState,
        Sched.setProc_field _ _ x (·.priority) _ rfl]
      exact hprio x
    rw [Sched.prio, Sched.prio, hx]

/-- An effect is the same seen from a state with the same wait queues. -/
theorem SameWaits.trans_effect {s₁ s₂ : Sched} {L₂ : Addr → List Addr} (hs : SameWaits s L s₁ L)
    (h : WaitEffect s₁ L s₂ L₂) : WaitEffect s L s₂ L₂ := by
  cases h with
  | same h => exact .same (hs.trans h)
  | enqueue p q hp hp' hother hlinked hkept hnn hul hpk =>
      exact .enqueue p q ((hs.waiting p).symm.trans hp) (by rw [hp', hs.nnodes])
        (fun x hx => (hother x hx).trans (hs.waiting x)) hlinked hkept (by rw [hnn, hs.nnodes])
        (hul.trans hs.unlinks) (hpk.trans hs.panicked)
  | unlink p q k hp hp' hother hkept hnn hul hpk =>
      exact .unlink p q k ((hs.waiting p).symm.trans hp) hp'
        (fun x hx => (hother x hx).trans (hs.waiting x)) hkept (hnn.trans hs.nnodes)
        (by rw [hul, hs.unlinks]) (hpk.trans hs.panicked)
  | twice p q k hp hoff => exact .twice p q k ((hs.waiting p).symm.trans hp) hoff

theorem WaitEffect.trans_same {s₁ s₂ : Sched} {L₁ L₂ : Addr → List Addr} (h : WaitEffect s L s₁ L₁)
    (hs : SameWaits s₁ L₁ s₂ L₂) : WaitEffect s L s₂ L₂ := by
  cases h with
  | same h => exact .same (h.trans hs)
  | enqueue p q hp hp' hother hlinked hkept hnn hul hpk =>
      refine .enqueue p q hp ((hs.waiting p).trans hp') (fun x hx => (hs.waiting x).trans (hother x hx))
        (by rw [hs.waits]; exact hlinked) (fun q x hx => by rw [hs.waits]; exact hkept q x hx)
        (hs.nnodes.trans hnn) (hs.unlinks.trans hul) (hs.panicked.trans hpk)
  | unlink p q k hp hp' hother hkept hnn hul hpk =>
      refine .unlink p q k hp ((hs.waiting p).trans hp') (fun x hx => (hs.waiting x).trans (hother x hx))
        (fun q x hxp hx => by rw [hs.waits]; exact hkept q x hxp hx)
        (hs.nnodes.trans hnn) (hs.unlinks.trans hul) (hs.panicked.trans hpk)
  | twice p q k hp hoff => exact .twice p q k hp hoff

/-! ## The end of a wait

After `schedule()` the process unlinks its own node. If it is linked this takes it off its queue; if a waker was there
first, it is a fault.
-/

/-- What is left to do after the node has been unlinked changes the running process alone. -/
theorem CoreInv.endWait (h : CoreInv s L) (c : Caller) (hoff : ∀ q, Addr.wqNode s.current ∉ L (.wqHead q)) :
    CoreInv ((s.endSleep c).setPc s.current .user) L ∧
    (((s.endSleep c).setPc s.current .user).procs s.current).pc = .user ∧
    ((s.procs s.current).state ≠ .sleeping →
      (((s.endSleep c).setPc s.current .user).procs s.current).state ≠ .sleeping) ∧
    ∀ x, x ≠ s.current → ((s.endSleep c).setPc s.current .user).procs x = s.procs x := by
  have hcurq : ¬ Queued L s.current := fun hq => (h.queued _ hq).2.1 rfl
  cases c with
  | direct =>
      refine ⟨h.setPc_none rfl hoff, by simp [Sched.setPc], fun hne => ?_, fun x hx => ?_⟩
      · simpa [Sched.endSleep, Sched.setPc] using hne
      · exact Sched.setProc_of_ne _ _ hx
  | procSleep =>
      have h₁ : CoreInv (s.setWaitChannel s.current none) L :=
        h.setProc _ rfl rfl (fun hq => absurd hq hcurq) id
      have h₂ : CoreInv (s.endSleep .procSleep) L := h₁.setState (fun hq => absurd hq hcurq) (by simp)
      refine ⟨h₂.setPc_none rfl hoff, by simp [Sched.setPc], fun _ => ?_, fun x hx => ?_⟩
      · simp [Sched.endSleep, Sched.setPc, Sched.setState, Sched.setWaitChannel]
      · simp only [Sched.endSleep, Sched.setPc, Sched.setState, Sched.setWaitChannel]
        rw [Sched.setProc_of_ne _ _ hx, Sched.setProc_of_ne _ _ hx, Sched.setProc_of_ne _ _ hx]

/-- A linked node of the running process, and the lists after it is gone. -/
theorem CoreInv.delOwn (h : CoreInv s L) {q : Wq} {k : Nat} (hw : (s.procs s.current).pc.waiting = some (q, k))
    (hm : Addr.wqNode s.current ∈ L (.wqHead q)) :
    ∃ (m' : ListMem Addr) (L' : Addr → List Addr),
      s.delNode s.current q k = .ok { s with mem := m', unlinks := s.unlinks ++ [⟨k, true⟩] } ∧
      CoreInv { s with mem := m', unlinks := s.unlinks ++ [⟨k, true⟩] } L' ∧
      (∀ q', Addr.wqNode s.current ∉ L' (.wqHead q')) ∧
      (∀ q' x, x ≠ s.current → Addr.wqNode x ∈ L (.wqHead q') → Addr.wqNode x ∈ L' (.wqHead q')) ∧
      L' (.wqHead q) = (L (.wqHead q)).filter (fun a => a ≠ .wqNode s.current) ∧ Appends L L' := by
  obtain ⟨xs, ys, hL⟩ := List.append_of_mem hm
  obtain ⟨m', hdel, h'⟩ := h.delNode k hL
  have hnd := h.lists.nodup (.wqHead q) trivial
  rw [hL, List.nodup_middle, List.nodup_cons] at hnd
  have hothers : ∀ a ∈ xs ++ ys, decide (a ≠ Addr.wqNode s.current) = true := by
    intro a ha
    rw [decide_eq_true_eq]
    rintro rfl
    exact hnd.1 ha
  refine ⟨m', _, hdel, h', fun q' hm' => ?_, fun q' x hx hxm => ?_, ?_, .of_wait (.refl _)⟩
  · by_cases hqq : q' = q
    · subst hqq
      rw [Function.update_self] at hm'
      exact hnd.1 hm'
    · rw [Function.update_of_ne (by simpa using hqq)] at hm'
      obtain ⟨k', hk'⟩ := h.waiting q' _ hm'
      rw [hw] at hk'
      cases hk'
      exact hqq rfl
  · by_cases hqq : q' = q
    · subst hqq
      rw [hL, List.mem_append, List.mem_cons, Addr.wqNode.injEq] at hxm
      rw [Function.update_self, List.mem_append]
      rcases hxm with hxm | hxm | hxm
      · exact Or.inl hxm
      · exact absurd hxm hx
      · exact Or.inr hxm
    · rwa [Function.update_of_ne (by simpa using hqq)]
  · rw [Function.update_self, hL, List.filter_append, List.filter_cons_of_neg (by simp), ← List.filter_append]
    exact (List.filter_eq_self.mpr hothers).symm

/-- A node that a waker has unlinked: `list_del` goes through a null link. -/
theorem CoreInv.delOwn_fault (h : CoreInv s L) {q : Wq} {k : Nat}
    (hw : (s.procs s.current).pc.waiting = some (q, k)) (hm : Addr.wqNode s.current ∉ L (.wqHead q)) :
    ∃ u, s.delNode s.current q k = .error { s with unlinks := u, panicked := true } := by
  have hoff : ∀ q', Addr.wqNode s.current ∉ L (.wqHead q') := by
    intro q' hm'
    obtain ⟨k', hk'⟩ := h.waiting q' _ hm'
    rw [hw] at hk'
    cases hk'
    exact hm hm'
  have hprev : s.mem.prev (.wqNode s.current) = none := h.unlinked _ (by rw [hw]; simp) hoff
  refine ⟨s.unlinks ++ [⟨k, decide (Addr.wqNode s.current ∈ s.mem.traverse (.wqHead q) s.nprocs)⟩], ?_⟩
  simp [Sched.delNode, Sched.withMem, ListMem.del, hprev, Sched.fault]

theorem CoreInv.scheduleStep (h : CoreInv s L) (nobody : Prop) : Kept s L s.schedule nobody := by
  obtain ⟨s', L', hrun, h', hsame, -, hne, -, hserves⟩ := h.schedule
  rw [hrun]
  exact Kept.ok h' (awake_of_ne hne) (.switches h rfl (fun _ => rfl) (.refl L) hserves) fun _ => .same hsame

/-- A process within a wait does not exit. -/
theorem not_exiting {x : Process} {w : Wq × Nat} {P : Prop} (hw : x.pc.waiting = some w) (he : x.pc.exiting = true) :
    P := by
  cases hpc : x.pc with
  | wait | waitTimeout => simp [hpc, Pc.exiting] at he
  | _ => simp [hpc, Pc.waiting] at hw

theorem setPc_prio (s : Sched) (p : Pid) (pc : Pc) (x : Pid) : (s.setPc p pc).prio x = s.prio x := by
  rw [Sched.prio, Sched.prio, Sched.setPc, s.setProc_field p x (·.priority) _ rfl]

theorem setState_prio (s : Sched) (p : Pid) (st : ProcState) (x : Pid) : (s.setState p st).prio x = s.prio x := by
  rw [Sched.prio, Sched.prio, Sched.setState, s.setProc_field p x (·.priority) _ rfl]

theorem endWait_same (t : Sched) (c : Caller) (p : Pid) :
    ((t.endSleep c).setPc p .user).current = t.current ∧ ((t.endSleep c).setPc p .user).nnodes = t.nnodes ∧
    ((t.endSleep c).setPc p .user).unlinks = t.unlinks ∧
    ((t.endSleep c).setPc p .user).panicked = t.panicked := by
  cases c with
  | direct => exact ⟨rfl, rfl, rfl, rfl⟩
  | procSleep => exact ⟨rfl, rfl, rfl, rfl⟩

/-- The end of a wait, from any of its three exits: `f` is what the exit does between `list_del` and the
    return. -/
theorem CoreInv.waitEnd (h : CoreInv s L) (haw : Awake s) {q : Wq} {k : Nat} (c : Caller)
    (hw : (s.procs s.current).pc.waiting = some (q, k)) (f : Sched → Sched)
    (hf : ∀ t L', CoreInv t L' → t.current = s.current → t.procs = s.procs →
      CoreInv (f t) L' ∧ SameWaits t L' (f t) L' ∧ (f t).current = s.current ∧
      ((f t).procs s.current).state ≠ .sleeping) :
    Kept s L (do
      let t ← s.delNode s.current q k
      pure (((f t).endSleep c).setPc t.current .user)) True := by
  by_cases hm : Addr.wqNode s.current ∈ L (.wqHead q)
  · obtain ⟨m', L', hdel, h₁, hoff, hkept, -, happ⟩ := h.delOwn hw hm
    obtain ⟨h₂, hsame, hcur, hne⟩ := hf _ L' h₁ rfl rfl
    obtain ⟨h₃, hpc, hst, hother⟩ := h₂.endWait c (by rw [hcur]; exact hoff)
    rw [hcur] at h₃ hpc hst hother
    have hkeep := endWait_same (f { s with mem := m', unlinks := s.unlinks ++ [⟨k, true⟩] }) c s.current
    have hrun : (do
        let t ← s.delNode s.current q k
        pure (((f t).endSleep c).setPc t.current .user) : Kernel Sched) =
        .ok (((f { s with mem := m', unlinks := s.unlinks ++ [⟨k, true⟩] }).endSleep c).setPc s.current .user) := by
      rw [hdel]
      rfl
    rw [hrun]
    generalize ((f { s with mem := m', unlinks := s.unlinks ++ [⟨k, true⟩] }).endSleep c).setPc s.current .user
      = s' at *
    refine Kept.ok h₃ (awake_of_ne ?_) (.stays (hkeep.1.trans hcur) happ (not_exiting hw)) fun _ => ?_
    · rw [hkeep.1, hcur]
      exact hst hne
    · refine .unlink s.current q k hw ?_ (fun x hx => ?_) hkept ?_ ?_ ?_
      · rw [hpc]; rfl
      · rw [hother x hx]
        exact hsame.waiting x
      · exact hkeep.2.1.trans hsame.nnodes
      · exact hkeep.2.2.1.trans hsame.unlinks
      · exact hkeep.2.2.2.trans hsame.panicked
  · obtain ⟨u, hfault⟩ := h.delOwn_fault hw hm
    have hrun : (do
        let t ← s.delNode s.current q k
        pure (((f t).endSleep c).setPc t.current .user) : Kernel Sched) =
        .error { s with unlinks := u, panicked := true } := by
      rw [hfault]
      rfl
    rw [hrun]
    exact ⟨L, h.congr rfl rfl rfl rfl rfl rfl, haw, .of_pc rfl (.refl L) rfl, fun _ => .twice s.current q k hw hm⟩

theorem CoreInv.wqWaitEnd (h : CoreInv s L) (haw : Awake s) {q : Wq} {k : Nat} (c : Caller)
    (hw : (s.procs s.current).pc.waiting = some (q, k)) (hne : (s.procs s.current).state ≠ .sleeping) :
    Kept s L (s.wqWaitEnd q k c) True := by
  refine h.waitEnd haw c hw id fun t L' ht hc hp => ⟨ht, .refl t L', hc, ?_⟩
  show (t.procs s.current).state ≠ .sleeping
  rw [hp]; exact hne

/-- **The loop of `wq_wait_timeout`.** -/
theorem CoreInv.wqWaitTimeoutLoop (h : CoreInv s L) (haw : Awake s) {q : Wq} {k : Nat} (d : Nat) (c : Caller)
    (hw : (s.procs s.current).pc.waiting = some (q, k)) : Kept s L (s.wqWaitTimeoutLoop q k d c) True := by
  unfold Sched.wqWaitTimeoutLoop
  split
  · split
    · refine h.waitEnd haw c hw (fun t => t.setState t.current .running) fun t L' ht hc _ => ⟨?_, ?_, hc, ?_⟩
      · exact ht.setState (fun hq => absurd rfl (ht.queued _ hq).2.1) (by simp)
      · exact sameWaits_setProc t L' t.current _ rfl
      · rw [hc]; simp [Sched.setState]
    · exact h.scheduleStep True
  · rename_i hne
    exact h.wqWaitEnd haw c hw hne

/-! ## The conditions

Both are conditions on the state before the event, said with the queues that it will find.
-/

/-- A process `wq_wake_one` on `q` would push is on no run queue (its `run_list` is empty). -/
def FirstOff (s : Sched) (q : Wq) : Prop :=
  ∀ x, s.mem.next (.wqHead q) = some (.wqNode x) → s.mem.isEmpty (.runNode x) = true

/-- No process that waits on `q` is on a run queue. -/
def AllOff (s : Sched) (q : Wq) : Prop :=
  ∀ n x, Addr.wqNode x ∈ s.mem.traverse (.wqHead q) n → s.mem.isEmpty (.runNode x) = true

/-- If `t` sleeps with a wait channel, the first waiter there is another process, and is on no run queue. -/
def SignalOk (s : Sched) (t : Pid) : Prop :=
  (s.procs t).state = .sleeping → ∀ q, (s.procs t).waitChannel = some q →
    FirstOff s q ∧ s.mem.next (.wqHead q) ≠ some (.wqNode t)

/-- If `t` sleeps with a wait channel, nobody waits there. -/
def SignalNobody (s : Sched) (t : Pid) : Prop :=
  (s.procs t).state = .sleeping → ∀ q, (s.procs t).waitChannel = some q → s.mem.isEmpty (.wqHead q) = true

/-- **No wake pushes a process twice.** A wake finds only processes that are on no run queue, and a signal to
    a sleeping process does not find that same process first on its wait channel. -/
def WakesOnce (s : Sched) : Event → Prop
  | .wqWakeOne q => FirstOff s q
  | .wqWakeAll q => AllOff s q
  | .signalSend t _ => SignalOk s t
  | .resume => match (s.procs s.current).pc with
    | .exitFiles => ∀ t, (s.reparent.procs s.current).parent = some t → SignalOk s t
    | .exitWake parent => AllOff s (.child parent)
    | _ => True
  | _ => True

/-- **No wake finds a waiter**: the queue is empty whenever `wq_wake_one` or `wq_wake_all` is called. -/
def WakesNobody (s : Sched) : Event → Prop
  | .wqWakeOne q => s.mem.isEmpty (.wqHead q) = true
  | .wqWakeAll q => s.mem.isEmpty (.wqHead q) = true
  | .signalSend t _ => SignalNobody s t
  | .resume => match (s.procs s.current).pc with
    | .exitFiles => ∀ t, (s.reparent.procs s.current).parent = some t → SignalNobody s t
    | .exitWake parent => s.mem.isEmpty (.wqHead (.child parent)) = true
    | _ => True
  | _ => True

theorem FirstOff.of_empty {q : Wq} (h : s.mem.isEmpty (.wqHead q) = true) : FirstOff s q := by
  intro x hx
  simp [ListMem.isEmpty, hx] at h

theorem CoreInv.allOff_of_empty (h : CoreInv s L) {q : Wq} (he : s.mem.isEmpty (.wqHead q) = true) :
    AllOff s q := by
  have hhead : IsHead (.wqHead q) := trivial
  intro n x hx
  rw [h.lists.traverse_eq hhead, (h.toQueueInv.isEmpty_head_iff hhead).mp he] at hx
  simp at hx

theorem SignalNobody.signalOk {t : Pid} (h : SignalNobody s t) : SignalOk s t := by
  intro hst q hq
  refine ⟨.of_empty (h hst q hq), fun hx => ?_⟩
  have he := h hst q hq
  simp [ListMem.isEmpty, hx] at he

/-- The second condition is the stronger one. -/
theorem CoreInv.wakesOnce_of_nobody (h : CoreInv s L) {e : Event} (hw : WakesNobody s e) : WakesOnce s e := by
  cases e with
  | wqWakeOne q => exact .of_empty hw
  | wqWakeAll q => exact h.allOff_of_empty hw
  | signalSend t _ => exact SignalNobody.signalOk hw
  | resume =>
      simp only [WakesNobody] at hw
      simp only [WakesOnce]
      cases hpc : (s.procs s.current).pc with
      | exitFiles =>
          rw [hpc] at hw
          exact fun t ht => (hw t ht).signalOk
      | exitWake parent =>
          rw [hpc] at hw
          exact h.allOff_of_empty hw
      | _ => trivial
  | _ => trivial

/-! ## One step

Entering from user mode, continuing a kernel path, and the three parts of `proc_exit`, each from the lemmas of
`Proc.SchedInv`.
-/

theorem CoreInv.firstOff (h : CoreInv s L) {q : Wq} (hf : FirstOff s q) (x : Pid)
    (hx : s.mem.next (.wqHead q) = some (.wqNode x)) : ¬ Queued L x :=
  h.toQueueInv.isEmpty_runNode_iff.mp (hf x hx)

theorem CoreInv.allOff (h : CoreInv s L) {q : Wq} (hf : AllOff s q) (x : Pid)
    (hx : Addr.wqNode x ∈ L (.wqHead q)) : ¬ Queued L x := by
  have hhead : IsHead (.wqHead q) := trivial
  refine h.toQueueInv.isEmpty_runNode_iff.mp (hf (L (.wqHead q)).length x ?_)
  rw [h.lists.traverse_eq hhead, List.take_length]
  exact hx

/-- `signal_send` keeps everything, under its condition. -/
theorem CoreInv.signalStep (h : CoreInv s L) (hcur : (s.procs s.current).pc.waiting = none)
    (hawake : (s.procs s.current).state ≠ .sleeping) {t : Pid} (signo : Nat) (hok : SignalOk s t) :
    Kept s L (s.signalSend t signo) (SignalNobody s t) := by
  obtain ⟨s', L', hrun, h', -, hc, hpc, hst, hsame, happ⟩ := h.signalSend hcur hawake signo fun hsl q hq x hx =>
    ⟨fun he => (hok hsl q hq).2 (he ▸ hx), h.firstOff (hok hsl q hq).1 x hx⟩
  rw [hrun]
  refine Kept.ok h' (awake_of_ne ?_) (.of_pc hc happ (hpc _)) fun hno => .same (hsame hno)
  rw [hc, hst]
  exact hawake

/-- `wq_wake_all` keeps everything, under its condition. -/
theorem CoreInv.wakeAllStep (h : CoreInv s L) (hcur : (s.procs s.current).pc.waiting = none)
    (hawake : (s.procs s.current).state ≠ .sleeping) {q : Wq} (hok : AllOff s q) :
    Kept s L (s.wqWakeAll q) (s.mem.isEmpty (.wqHead q) = true) := by
  have hhead : IsHead (.wqHead q) := trivial
  obtain ⟨s', L', hrun, h', -, hc, hpc, hother, hnone, -, happ⟩ := h.wqWakeAll q hcur (h.allOff hok)
  rw [hrun]
  refine Kept.ok h' (awake_of_ne ?_) (.of_pc hc happ (hpc _)) fun he => ?_
  · rw [hc, hother _ (h.not_linked hcur q)]
    exact hawake
  · obtain ⟨rfl, rfl⟩ := hnone ((h.toQueueInv.isEmpty_head_iff hhead).mp he)
    exact .same (.refl _ _)

theorem CoreInv.wakeOneStep (h : CoreInv s L) (hcur : (s.procs s.current).pc.waiting = none)
    (hawake : (s.procs s.current).state ≠ .sleeping) {q : Wq} (hok : FirstOff s q) :
    Kept s L (s.wqWakeOne q) (s.mem.isEmpty (.wqHead q) = true) := by
  obtain ⟨s', L', hrun, h', -, hc, hpc, hother, hnone, -, happ⟩ := h.wqWakeOne q hcur (h.firstOff hok)
  rw [hrun]
  refine Kept.ok h' (awake_of_ne ?_) (.of_pc hc happ (hpc _)) fun he => ?_
  · rw [hc, (hother s.current fun hx => ?_).1]
    · exact hawake
    · exact h.not_linked hcur q (h.toQueueInv.mem_of_next hx)
  · obtain ⟨rfl, rfl⟩ := hnone he
    exact .same (.refl _ _)

/-- What a prefix that leaves the wait queues alone does first does not matter. -/
theorem Kept.of_same {s₁ : Sched} {k : Kernel Sched} {n n₁ : Prop} (hk : Kept s₁ L k n₁) (hn : n → n₁)
    (hsame : SameWaits s L s₁ L) (hc : s₁.current = s.current) (hprio : ∀ x, s₁.prio x = s.prio x)
    (hpc : (s.procs s.current).pc.exiting = true → (s₁.procs s.current).pc.exiting = true) : Kept s L k n := by
  obtain ⟨L', h', ha, hr, hw⟩ := hk
  exact ⟨L', h', ha, hr.of_same hc hprio hpc, fun hno => hsame.trans_effect (hw (hn hno))⟩

/-- The running process moves on inside `proc_exit`. -/
theorem CoreInv.setPcCur (h : CoreInv s L) (pc : Pc) (hcur : (s.procs s.current).pc.waiting = none)
    (hpc : pc.waiting = none) : CoreInv (s.setPc s.current pc) L ∧ SameWaits s L (s.setPc s.current pc) L :=
  ⟨h.setPc_none hpc (h.not_linked hcur), sameWaits_setProc s L s.current _ (hpc.trans hcur.symm)⟩

/-- Reparenting changes no field that the invariant reads. -/
theorem reparent_fields (s : Sched) (x : Pid) :
    (s.reparent.procs x).state = (s.procs x).state ∧ (s.reparent.procs x).priority = (s.procs x).priority ∧
    (s.reparent.procs x).pc = (s.procs x).pc ∧ (s.reparent.procs x).waitChannel = (s.procs x).waitChannel := by
  unfold Sched.reparent
  by_cases hi : s.current = gInitProc
  · simp [hi]
  · by_cases hx : (s.procs x).parent = some s.current
    · simp [hi, hx]
    · simp [hi, hx]

theorem reparent_same (s : Sched) : s.reparent.mem = s.mem ∧ s.reparent.bitmap = s.bitmap ∧
    s.reparent.total = s.total ∧ s.reparent.nprocs = s.nprocs ∧ s.reparent.current = s.current ∧
    s.reparent.nnodes = s.nnodes ∧ s.reparent.unlinks = s.unlinks ∧ s.reparent.panicked = s.panicked := by
  unfold Sched.reparent
  split
  · exact ⟨rfl, rfl, rfl, rfl, rfl, rfl, rfl, rfl⟩
  · exact ⟨rfl, rfl, rfl, rfl, rfl, rfl, rfl, rfl⟩

theorem CoreInv.reparent (h : CoreInv s L) : CoreInv s.reparent L ∧ SameWaits s L s.reparent L := by
  obtain ⟨hm, hb, ht, hn, hc, hnn, hul, hpk⟩ := reparent_same s
  have hq : QueueInv s.reparent L := h.toQueueInv.congr hm hb ht fun x => (reparent_fields s x).2.1
  have hsame : SameWaits s L s.reparent L :=
    ⟨fun _ => rfl, fun _ _ => by rw [hm], fun x => by rw [(reparent_fields s x).2.2.1], hpk, hnn, hul⟩
  refine ⟨h.of_sameWaits hq hsame hn.ge (fun x hx => ?_) (fun x hx => ?_) ?_, hsame⟩
  · rw [(reparent_fields s x).1, hc, hn]; exact h.queued x hx
  · rwa [(reparent_fields s x).1] at hx
  · rw [hc, hn]; exact h.cur_lt

/-! ## The parts of `proc_exit`

Reparenting and the signal to the parent, the wake of its `wait_child`, and leaving the processor.
-/

/-- The middle of `proc_exit`. -/
theorem CoreInv.exitSignal (h : CoreInv s L) (hcur : (s.procs s.current).pc.waiting = none)
    (hawake : (s.procs s.current).state ≠ .sleeping)
    (hok : ∀ t, (s.reparent.procs s.current).parent = some t → SignalOk s t) :
    Kept s L s.exitSignal (∀ t, (s.reparent.procs s.current).parent = some t → SignalNobody s t) := by
  obtain ⟨h₁, hsame₁⟩ := h.reparent
  have hc := (reparent_same s).2.2.2.2.1
  have hm := (reparent_same s).1
  have hfields := reparent_fields s
  unfold Sched.exitSignal
  generalize s.reparent = r at *
  have hcur₁ : (r.procs r.current).pc.waiting = none := by rw [hc, (hfields _).2.2.1]; exact hcur
  have hst₁ : (r.procs r.current).state ≠ .sleeping := by rw [hc, (hfields _).1]; exact hawake
  simp only []
  rw [hc] at hcur₁ hst₁ ⊢
  cases hpar : (r.procs s.current).parent with
  -- no parent: nobody is signalled
  | none =>
      obtain ⟨h₂, hsame₂⟩ := h₁.setPcCur .exitRemove (by rw [hc]; exact hcur₁) rfl
      rw [hc] at h₂ hsame₂
      refine Kept.ok h₂ (awake_of_ne ?_) (.stays hc (.refl L) fun _ => ?_) fun _ => .same (hsame₁.trans hsame₂)
      · show ((r.setPc s.current .exitRemove).procs r.current).state ≠ .sleeping
        rw [hc]
        simpa [Sched.setPc] using hst₁
      · show ((r.setPc s.current .exitRemove).procs r.current).pc.exiting = true
        rw [hc, Sched.setPc, Sched.setProc_self]
        rfl
  | some t =>
      obtain ⟨h₂, hsame₂⟩ := h₁.setPcCur (.exitWake t) (by rw [hc]; exact hcur₁) rfl
      rw [hc] at h₂ hsame₂
      -- the signal finds the states and channels from before the call
      have hfield : ∀ x, ((r.setPc s.current (.exitWake t)).procs x).state = (s.procs x).state ∧
          ((r.setPc s.current (.exitWake t)).procs x).waitChannel = (s.procs x).waitChannel := fun x =>
        ⟨(r.setProc_field s.current x (·.state) _ rfl).trans (hfields x).1,
          (r.setProc_field s.current x (·.waitChannel) _ rfl).trans (hfields x).2.2.2⟩
      have hprio : ∀ x, (r.setPc s.current (.exitWake t)).prio x = s.prio x := fun x =>
        (setPc_prio r s.current _ x).trans (by rw [Sched.prio, Sched.prio, (hfields x).2.1])
      have hmem : (r.setPc s.current (.exitWake t)).mem = s.mem := hm
      have hkept := h₂.signalStep (t := t) (by
          rw [show (r.setPc s.current (.exitWake t)).current = s.current from hc]
          simp [Sched.setPc, Pc.waiting]) (by
          rw [show (r.setPc s.current (.exitWake t)).current = s.current from hc, (hfield _).1]
          exact hawake) sigchld (by
          unfold SignalOk FirstOff
          rw [(hfield t).1, (hfield t).2, hmem]
          exact hok t hpar)
      refine hkept.of_same (fun hno => ?_) (hsame₁.trans hsame₂) hc hprio
        fun _ => by rw [Sched.setPc, Sched.setProc_self]; rfl
      unfold SignalNobody
      rw [(hfield t).1, (hfield t).2, hmem]
      exact hno t rfl

theorem CoreInv.exitWakeStep (h : CoreInv s L) (hcur : (s.procs s.current).pc.waiting = none)
    (hawake : (s.procs s.current).state ≠ .sleeping) {parent : Pid} (hok : AllOff s (.child parent)) :
    Kept s L (s.exitWake parent) (s.mem.isEmpty (.wqHead (.child parent)) = true) := by
  obtain ⟨h₁, hsame₁⟩ := h.setPcCur .exitRemove hcur rfl
  have hkept := h₁.wakeAllStep (q := .child parent) (by
      show ((s.setPc s.current .exitRemove).procs s.current).pc.waiting = none
      simp [Sched.setPc, Pc.waiting]) (by
      show ((s.setPc s.current .exitRemove).procs s.current).state ≠ .sleeping
      simpa [Sched.setPc] using hawake) hok
  exact hkept.of_same id hsame₁ rfl (setPc_prio s _ _) fun _ => by rw [Sched.setPc, Sched.setProc_self]; rfl

/-- The running process is on no run queue, so `sched_remove` in `proc_exit` finds nothing to do. -/
theorem CoreInv.exitRemoveStep (h : CoreInv s L) (hcur : (s.procs s.current).pc.waiting = none) (nobody : Prop) :
    Kept s L s.exitRemove nobody := by
  obtain ⟨h₁, hsame₁⟩ := h.setPcCur .halted hcur rfl
  have hempty : (s.setPc s.current .halted).mem.isEmpty (.runNode s.current) = true :=
    h₁.toQueueInv.isEmpty_runNode_iff.mpr fun hq => (h.queued _ hq).2.1 rfl
  have hcode : s.exitRemove = (s.setPc s.current .halted).schedule := by
    simp [Sched.exitRemove, Sched.runqRemove, hempty, bind, Except.bind, pure, Except.pure]
  rw [hcode]
  exact (h₁.scheduleStep nobody).of_same id hsame₁ rfl (setPc_prio s _ _) fun _ => by rw [Sched.setPc, Sched.setProc_self]; rfl

/-! ## Every event

A kernel path is entered from user mode or continued behind a `schedule()`.
-/

/-- Continuing a kernel path. -/
theorem CoreInv.resumeStep (h : CoreInv s L) (haw : Awake s) {k : Kernel Sched} (hk : s.resume = some k)
    (hok : WakesOnce s .resume) : Kept s L k (WakesNobody s .resume) := by
  unfold Sched.resume at hk
  simp only [WakesOnce, WakesNobody] at hok ⊢
  unfold Awake at haw
  cases hpc : (s.procs s.current).pc with
  | user => simp [hpc] at hk
  | halted => simp [hpc] at hk
  | wait q node c =>
      rw [hpc] at hk
      cases hk
      have hne : (s.procs s.current).state ≠ .sleeping := fun hs => by simp [hpc] at haw; exact haw hs
      obtain ⟨L', h', ha', hr', hw'⟩ := h.wqWaitEnd haw c (q := q) (k := node) (by rw [hpc]; rfl) hne
      exact ⟨L', h', ha', hr', fun _ => hw' trivial⟩
  | waitTimeout q node d c =>
      rw [hpc] at hk
      cases hk
      obtain ⟨L', h', ha', hr', hw'⟩ := h.wqWaitTimeoutLoop haw d c (q := q) (k := node) (by rw [hpc]; rfl)
      exact ⟨L', h', ha', hr', fun _ => hw' trivial⟩
  | exitFiles =>
      rw [hpc] at hk hok
      cases hk
      exact h.exitSignal (by rw [hpc]; rfl) (fun hs => by simp [hpc] at haw; exact haw hs) hok
  | exitWake parent =>
      rw [hpc] at hk hok
      cases hk
      exact h.exitWakeStep (by rw [hpc]; rfl) (fun hs => by simp [hpc] at haw; exact haw hs) hok
  | exitRemove =>
      rw [hpc] at hk
      cases hk
      exact h.exitRemoveStep (by rw [hpc]; rfl) _

/-- Entering the kernel from user mode. -/
theorem CoreInv.entryStep (h : CoreInv s L) (haw : Awake s) (huser : (s.procs s.current).pc = .user)
    (hne : (s.procs s.current).state ≠ .sleeping) {e : Event} {k : Kernel Sched} (hk : s.entry e = some k)
    (hok : WakesOnce s e) : Kept s L k (WakesNobody s e) := by
  have hcur : (s.procs s.current).pc.waiting = none := by rw [huser]; rfl
  have hpc : (s.procs s.current).pc.exiting ≠ true := by rw [huser]; simp [Pc.exiting]
  have hcurq : ¬ Queued L s.current := fun hq => (h.queued _ hq).2.1 rfl
  cases e with
  | resume => cases hk
  | wqWakeAll q =>
      cases hk
      exact h.wakeAllStep hcur hne hok
  | schedule =>
      cases hk
      exact h.scheduleStep _
  | tick =>
      cases hk
      exact Kept.ok (h.congr rfl rfl rfl rfl rfl rfl) haw (.of_pc rfl (.refl L) rfl) fun _ =>
        .same ⟨fun _ => rfl, fun _ _ => rfl, fun _ => rfl, rfl, rfl, rfl⟩
  | fork =>
      cases hk
      obtain ⟨s', L', hrun, h', hsame, hc, hst, hsamePc, happ⟩ := h.fork
      rw [hrun]
      refine Kept.ok h' (awake_of_ne ?_) (.of_pc hc happ hsamePc) fun _ => .same hsame
      rw [hc, hst]; exact hne
  | wqWait q c =>
      simp only [Sched.entry, Option.ite_none_left_eq_some, Option.some.injEq] at hk
      obtain ⟨hidle, rfl⟩ := hk
      -- asleep and linked on the queue, and then away from the processor
      obtain ⟨s₁, L₁, hrun₁, h₁, heff, hc, -, happ, hprio, -⟩ := h.goToSleep (.wait q s.nnodes c) c rfl hcur hidle
      obtain ⟨s', L', hrun, h', hsame, -, hne', -, hserves⟩ := h₁.schedule
      have hcode : s.wqWait q c = .ok s' := by
        simp only [Sched.wqWait, hrun₁, bind, Except.bind]
        exact hrun
      rw [hcode]
      exact Kept.ok h' (awake_of_ne hne') (.switches h₁ hc hprio happ hserves) fun _ => heff.trans_same hsame
  | wqWaitTimeout q ms c =>
      simp only [Sched.entry, Option.ite_none_left_eq_some, Option.some.injEq] at hk
      obtain ⟨hidle, rfl⟩ := hk
      -- the time-out is looked at by the process itself, before it calls `schedule`
      obtain ⟨s₁, L₁, hrun₁, h₁, heff, hc, hpc', happ, -⟩ := h.goToSleep
        (.waitTimeout q s.nnodes ((s.getTimeMs + ms) % 2 ^ 64) c) c rfl hcur hidle
      rw [show s.wqWaitTimeout q ms c = .ok s₁ from hrun₁]
      exact Kept.ok h₁ (fun _ => ⟨_, _, _, _, by rw [hc]; exact hpc'⟩) (.stays hc happ fun he => absurd he hpc)
        fun _ => heff
  | wqWakeOne q =>
      cases hk
      exact h.wakeOneStep hcur hne hok
  | signalSend t signo =>
      simp only [Sched.entry, Option.ite_none_right_eq_some, Option.some.injEq] at hk
      obtain ⟨-, rfl⟩ := hk
      exact h.signalStep hcur hne signo hok
  | sigStop =>
      cases hk
      have h₁ : CoreInv (s.setState s.current .stopped) L := h.setState (fun hq => absurd hq hcurq) (by simp)
      exact (h₁.scheduleStep _).of_same id (sameWaits_setProc s L s.current _ rfl) rfl
        (setState_prio s _ _) fun he => absurd he hpc
  | exit =>
      cases hk
      -- a zombie goes on through the parts of `proc_exit`
      have h₁ : CoreInv (s.setState s.current .zombie) L := h.setState (fun hq => absurd hq hcurq) (by simp)
      have hsame₁ : SameWaits s L (s.setState s.current .zombie) L := sameWaits_setProc s L s.current _ rfl
      obtain ⟨h₂, hsame₂⟩ := h₁.setPcCur .exitFiles ((hsame₁.waiting _).trans hcur) rfl
      refine Kept.ok h₂ (awake_of_ne ?_) (.stays rfl (.refl L) fun he => absurd he hpc) fun _ =>
        .same (hsame₁.trans hsame₂)
      simp [Sched.setPc, Sched.setState]

/-- **One step** keeps the invariant when no wake in it pushes a process twice. -/
theorem CoreInv.step (h : CoreInv s L) (haw : Awake s) {e : Event} {s' : Sched}
    (hs : schedStep s e = some s') (hok : WakesOnce s e) :
    ∃ L', CoreInv s' L' ∧ Awake s' ∧ RunEffect s L s' L' ∧ (WakesNobody s e → WaitEffect s L s' L') := by
  have hpath : ∃ k, s.path e = some k ∧ Sched.final k = s' := by
    unfold schedStep at hs
    split at hs
    · cases hs
    · exact Option.map_eq_some_iff.mp hs
  obtain ⟨k, hk, rfl⟩ := hpath
  have hnosleep : (∀ q n d c, (s.procs s.current).pc ≠ .waitTimeout q n d c) →
      (s.procs s.current).state ≠ .sleeping := by
    intro hnt hsl
    obtain ⟨q, n, d, c, heq⟩ := haw hsl
    exact hnt q n d c heq
  show Kept s L k (WakesNobody s e)
  unfold Sched.path at hk
  split at hk
  · rename_i huser
    exact h.entryStep haw huser (hnosleep (by simp [huser])) hk hok
  · rename_i q hpc
    cases hk
    exact h.wakeAllStep (by rw [hpc]; rfl) (hnosleep (by simp [hpc])) hok
  · exact h.resumeStep haw hk hok
  · cases hk

/-- The state after boot. -/
theorem coreInv_schedInit : CoreInv schedInit (fun _ => []) ∧ Awake schedInit := by
  refine ⟨⟨⟨⟨?_, ?_, ?_, ?_⟩, ?_, ?_, ?_, ?_, ?_⟩, ?_, ?_, ?_, ?_, ?_, ?_, ?_⟩, ?_⟩
  · intro h _
    exact ⟨rfl, rfl, trivial⟩
  · simp
  · simp
  · simp
  · simp
  · simp
  · intro p _; rfl
  · intro i; simp [schedInit]
  · simp [schedInit]
  · simp [Queued]
  · simp
  · intro p hp
    exfalso
    apply hp
    simp only [schedInit]
    split
    · rfl
    · split <;> rfl
  · exact ⟨rfl, by simp [schedInit]⟩
  · intro p hp
    have h2 : 2 ≤ p := hp
    have h0 : p ≠ gIdleProc := by rintro rfl; simp [gIdleProc] at h2
    have h1 : p ≠ gInitProc := by rintro rfl; simp [gInitProc] at h2
    simp [schedInit, h0, h1, createdProc, Pc.waiting]
  · simp [schedInit, gInitProc]
  · simp [schedInit, gIdleProc]
  · apply awake_of_ne
    simp [schedInit, gInitProc, gIdleProc]

end

end MyUnix.Proc
