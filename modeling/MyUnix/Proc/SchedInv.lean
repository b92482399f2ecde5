import MyUnix.Proc.SchedQueues

/-!
# `Proc.SchedInv` — the lists against the processes

`CoreInv` is what ties the lists of the scheduler to its processes: who may be on a run queue, and whose node
may be on a wait queue. Nothing in `sched.c` checks it. Every operation keeps it as long as it pushes only
processes that are on no run queue, and each lemma here asks for exactly that where its operation pushes.

The hypotheses of the lemmas are the point of the module. A process that is queued and pushed again corrupts the ring,
so each lemma that pushes asks that the process is on no queue. For a waker this means that the waiters which it finds
are on none, and for a signal that the sleeper is not its own first waiter. `Proc.SchedStep` makes conditions on
events of them.
-/

namespace MyUnix.Proc

open Lib

/-- The lists against the processes: a queued process is READY and does not run, a linked node belongs to
    a process inside `wq_wait` on that queue, and the node of such a process that is not linked has been
    through `list_del`. -/
structure CoreInv (s : Sched) (L : Addr → List Addr) : Prop extends QueueInv s L where
  queued : ∀ p, Queued L p → (s.procs p).state = .ready ∧ p ≠ s.current ∧ p < s.nprocs
  waiting : ∀ q p, Addr.wqNode p ∈ L (.wqHead q) → ∃ k, (s.procs p).pc.waiting = some (q, k)
  unlinked : ∀ p, (s.procs p).pc.waiting ≠ none → (∀ q, Addr.wqNode p ∉ L (.wqHead q)) →
    s.mem.prev (.wqNode p) = none
  idle : (s.procs gIdleProc).pc.waiting = none ∧ (s.procs gIdleProc).state ≠ .sleeping
  fresh : ∀ p, s.nprocs ≤ p → (s.procs p).pc.waiting = none ∧ (s.procs p).state ≠ .sleeping
  cur_lt : s.current < s.nprocs
  idle_lt : gIdleProc < s.nprocs

/-- The running process is asleep only on its way into the loop of `wq_wait_timeout`. -/
def Awake (s : Sched) : Prop :=
  (s.procs s.current).state = .sleeping → ∃ q k d c, (s.procs s.current).pc = .waitTimeout q k d c

namespace CoreInv

variable {s : Sched} {L : Addr → List Addr} {p : Pid}

theorem setProc_sleeping {f : Process → Process} {x : Pid}
    (hsleep : (f (s.procs p)).state = .sleeping → (s.procs p).state = .sleeping)
    (hs : ((s.setProc p f).procs x).state = .sleeping) : (s.procs x).state = .sleeping := by
  by_cases hxp : x = p
  · subst hxp; rw [Sched.setProc_self] at hs; exact hsleep hs
  · rwa [Sched.setProc_of_ne _ _ hxp] at hs

theorem not_linked (h : CoreInv s L) (hp : (s.procs p).pc.waiting = none) (q : Wq) :
    Addr.wqNode p ∉ L (.wqHead q) := by
  intro hm
  obtain ⟨k, hk⟩ := h.waiting q p hm
  rw [hp] at hk
  cases hk

theorem wait_lt (h : CoreInv s L) {q : Wq} (hm : Addr.wqNode p ∈ L (.wqHead q)) : p < s.nprocs := by
  by_contra hge
  exact h.not_linked (h.fresh p (Nat.not_lt.mp hge)).1 q hm

theorem sleeping_lt (h : CoreInv s L) (hst : (s.procs p).state = .sleeping) : p < s.nprocs := by
  by_contra hge
  exact (h.fresh p (Nat.not_lt.mp hge)).2 hst

theorem length_wait_le' (h : CoreInv s L) (q : Wq) : (L (.wqHead q)).length ≤ s.nprocs :=
  h.toQueueInv.length_wait_le fun _ hm => h.wait_lt hm

/-- What the invariant reads of the processes: an update may wake a process, or change the state of one that
    is not queued. -/
theorem setProc (h : CoreInv s L) (f : Process → Process)
    (hprio : (f (s.procs p)).priority = (s.procs p).priority)
    (hpc : (f (s.procs p)).pc.waiting = (s.procs p).pc.waiting)
    (hst : Queued L p → (f (s.procs p)).state = .ready)
    (hsleep : (f (s.procs p)).state = .sleeping → (s.procs p).state = .sleeping) :
    CoreInv (s.setProc p f) L where
  toQueueInv := h.toQueueInv.setProc f hprio
  queued x hx := by
    obtain ⟨h1, h2, h3⟩ := h.queued x hx
    refine ⟨?_, h2, h3⟩
    by_cases hxp : x = p
    · subst hxp; rw [Sched.setProc_self]; exact hst hx
    · rw [Sched.setProc_of_ne _ _ hxp]; exact h1
  waiting q x hx := by
    obtain ⟨k, hk⟩ := h.waiting q x hx
    exact ⟨k, by rw [s.setProc_field p x (·.pc.waiting) f hpc, hk]⟩
  unlinked x hx := h.unlinked x (by rwa [s.setProc_field p x (·.pc.waiting) f hpc] at hx)
  idle := by
    refine ⟨?_, fun hs => h.idle.2 (setProc_sleeping hsleep hs)⟩
    rw [s.setProc_field p _ (·.pc.waiting) f hpc]; exact h.idle.1
  fresh x hx := by
    refine ⟨?_, fun hs => (h.fresh x hx).2 (setProc_sleeping hsleep hs)⟩
    rw [s.setProc_field p x (·.pc.waiting) f hpc]; exact (h.fresh x hx).1
  cur_lt := h.cur_lt
  idle_lt := h.idle_lt

theorem setState (h : CoreInv s L) {st : ProcState} (hst : Queued L p → st = .ready)
    (hsleep : st ≠ .sleeping) : CoreInv (s.setState p st) L :=
  h.setProc _ rfl rfl hst fun he => absurd he hsleep

/-- The links, the queues and the counters are as before: a change elsewhere keeps the invariant. -/
theorem congr {s' : Sched} (h : CoreInv s L) (hm : s'.mem = s.mem) (hb : s'.bitmap = s.bitmap)
    (ht : s'.total = s.total) (hp : s'.procs = s.procs) (hn : s'.nprocs = s.nprocs)
    (hc : s'.current = s.current) : CoreInv s' L where
  toQueueInv := h.toQueueInv.congr hm hb ht fun p => by rw [hp]
  queued := by rw [hp, hn, hc]; exact h.queued
  waiting := by rw [hp]; exact h.waiting
  unlinked := by rw [hp, hm]; exact h.unlinked
  idle := by rw [hp]; exact h.idle
  fresh := by rw [hp, hn]; exact h.fresh
  cur_lt := by rw [hn, hc]; exact h.cur_lt
  idle_lt := by rw [hn]; exact h.idle_lt

end CoreInv

theorem sameWaits_setProc (s : Sched) (L : Addr → List Addr) (p : Pid) (f : Process → Process)
    (hpc : (f (s.procs p)).pc.waiting = (s.procs p).pc.waiting) : SameWaits s L (s.setProc p f) L :=
  ⟨fun _ => rfl, fun _ _ => rfl, fun x => s.setProc_field p x (·.pc.waiting) f hpc, rfl, rfl, rfl⟩

theorem queued_update_wait {L : Addr → List Addr} {q : Wq} {l : List Addr} {x : Pid} :
    Queued (Function.update L (.wqHead q) l) x ↔ Queued L x := by
  unfold Queued
  simp

/-- What `schedule()` makes of the run queues: the first process of the best one that is not empty runs, and those behind
    it move up. -/
def Serves (L : Addr → List Addr) (s' : Sched) (L' : Addr → List Addr) : Prop :=
  ∀ i p ys, BestFirst L i p ys → s'.current = p ∧ Appends (Function.update L (.runHead i) ys) L'

/-! ## The operations keep the invariant

Who is queued, who runs, and who has a node on a queue, after each of them.
-/

namespace CoreInv

variable {s : Sched} {L : Addr → List Addr} {p : Pid}

/-- Where waiting is untouched and nobody falls asleep, only the queued processes and the running one are to
    be looked at. -/
theorem of_sameWaits {s' : Sched} {L' : Addr → List Addr} (h : CoreInv s L) (hq : QueueInv s' L')
    (hsame : SameWaits s L s' L') (hn : s.nprocs ≤ s'.nprocs)
    (hqueued : ∀ p, Queued L' p → (s'.procs p).state = .ready ∧ p ≠ s'.current ∧ p < s'.nprocs)
    (hsleep : ∀ p, (s'.procs p).state = .sleeping → (s.procs p).state = .sleeping)
    (hcur : s'.current < s'.nprocs) : CoreInv s' L' where
  toQueueInv := hq
  queued := hqueued
  waiting q x hx := by
    rw [hsame.waits] at hx
    rw [hsame.waiting]
    exact h.waiting q x hx
  unlinked x hx hoff := by
    have hoff' : ∀ q, Addr.wqNode x ∉ L (.wqHead q) := fun q => by rw [← hsame.waits]; exact hoff q
    rw [hsame.nodes x hoff']
    exact h.unlinked x (by rwa [hsame.waiting] at hx) hoff'
  idle := ⟨(hsame.waiting _).trans h.idle.1, fun hs => h.idle.2 (hsleep _ hs)⟩
  fresh x hx := ⟨(hsame.waiting x).trans (h.fresh x (hn.trans hx)).1,
    fun hs => (h.fresh x (hn.trans hx)).2 (hsleep x hs)⟩
  cur_lt := hcur
  idle_lt := lt_of_lt_of_le h.idle_lt hn

/-- A push of a READY process that does not run and is on no queue. -/
theorem runqPush (h : CoreInv s L) (hp : ¬ Queued L p) (hst : (s.procs p).state = .ready)
    (hcur : p ≠ s.current) (hlt : p < s.nprocs) :
    ∃ s' L', s.runqPush p = .ok s' ∧ CoreInv s' L' ∧ SameWaits s L s' L' ∧ s'.procs = s.procs ∧
      s'.nprocs = s.nprocs ∧ s'.current = s.current ∧ (∀ x, Queued L' x ↔ Queued L x ∨ x = p) ∧ Appends L L' := by
  obtain ⟨s', L', hrun, hq, hsame, hprocs, hn, hc, hqueued, happ⟩ := h.toQueueInv.runqPush hp
  refine ⟨s', L', hrun, h.of_sameWaits hq hsame hn.ge ?_ ?_ ?_, hsame, hprocs, hn, hc, hqueued, happ⟩
  · intro x hx
    rw [hprocs, hc, hn]
    rcases (hqueued x).mp hx with hx | rfl
    · exact h.queued x hx
    · exact ⟨hst, hcur, hlt⟩
  · rw [hprocs]; exact fun _ => id
  · rw [hc, hn]; exact h.cur_lt

theorem schedAdd (h : CoreInv s L) (hp : ¬ Queued L p) (hst : (s.procs p).state = .ready)
    (hcur : p ≠ s.current) (hlt : p < s.nprocs) :
    ∃ s' L', s.schedAdd p = .ok s' ∧ CoreInv s' L' ∧ SameWaits s L s' L' ∧ s'.procs = s.procs ∧
      s'.nprocs = s.nprocs ∧ s'.current = s.current ∧ (∀ x, Queued L' x ↔ Queued L x ∨ x = p) ∧ Appends L L' := by
  unfold Sched.schedAdd
  rw [if_pos (Or.inl hst)]
  exact h.runqPush hp hst hcur hlt

/-- The hand-over of the CPU in `schedule()` to a process that is on no queue. -/
theorem switchTo (h : CoreInv s L) {n : Pid} (hn : ¬ Queued L n) (hlt : n < s.nprocs) (hne : n ≠ s.current) :
    ∃ s' L', (do
        let s₁ := s.setState n .running
        let s₂ ← if (s₁.procs s.current).state = .running
          then (s₁.setState s.current .ready).runqPush s.current else pure s₁
        pure { s₂ with current := n } : Kernel Sched) = .ok s' ∧
      CoreInv s' L' ∧ SameWaits s L s' L' ∧ s'.nprocs = s.nprocs ∧ (s'.procs s'.current).state = .running ∧
      s'.current = n ∧ (∀ x, (s'.procs x).pc = (s.procs x).pc) ∧ Appends L L' := by
  have hcurq : ¬ Queued L s.current := fun hq => (h.queued _ hq).2.1 rfl
  have hcur₁ : ((s.setState n .running).procs s.current).state = (s.procs s.current).state := by
    rw [Sched.setState, Sched.setProc_of_ne _ _ (Ne.symm hne)]
  have hsame₁ : SameWaits s L (s.setState n .running) L := sameWaits_setProc s L n _ rfl
  have hq₁ : QueueInv (s.setState n .running) L := h.toQueueInv.setState .running
  have hsleep : ∀ x, ((s.setState n .running).procs x).state = .sleeping → (s.procs x).state = .sleeping :=
    fun x => setProc_sleeping (by simp)
  have hold : ∀ x, Queued L x → ((s.setState n .running).procs x).state = .ready ∧ x ≠ n ∧ x < s.nprocs := by
    intro x hx
    obtain ⟨h1, -, h3⟩ := h.queued x hx
    have hxn : x ≠ n := fun he => hn (he ▸ hx)
    refine ⟨?_, hxn, h3⟩
    rw [Sched.setState, Sched.setProc_of_ne _ _ hxn]
    exact h1
  by_cases hrun : (s.procs s.current).state = .running
  · -- the caller goes back on its queue, while it is still the running process
    have hsame₂ : SameWaits s L ((s.setState n .running).setState s.current .ready) L :=
      hsame₁.trans (sameWaits_setProc _ L s.current _ rfl)
    obtain ⟨s', L', hpush, hq', hsame, hprocs, hn', -, hqueued, happ⟩ := (hq₁.setState .ready).runqPush hcurq
    have hother : ∀ x, x ≠ s.current → s'.procs x = (s.setState n .running).procs x := by
      intro x hx
      rw [hprocs, Sched.setState, Sched.setProc_of_ne _ _ hx]
    have hfinal : SameWaits s L { s' with current := n } L' :=
      let ⟨a, b, c, d, e, f⟩ := hsame₂.trans hsame
      ⟨a, b, c, d, e, f⟩
    have hnp : s'.nprocs = s.nprocs := hn'
    refine ⟨{ s' with current := n }, L', ?_,
      h.of_sameWaits (hq'.congr rfl rfl rfl fun _ => rfl) hfinal hnp.ge ?_ ?_ ?_, hfinal, hnp, ?_, rfl, fun x => ?_, happ⟩
    · simp only [hcur₁, hrun, if_true, hpush]
      rfl
    · intro x hx
      show (s'.procs x).state = .ready ∧ x ≠ n ∧ x < s'.nprocs
      rw [hnp]
      rcases (hqueued x).mp hx with hx | rfl
      · rw [hother x (h.queued x hx).2.1]
        exact hold x hx
      · refine ⟨?_, Ne.symm hne, h.cur_lt⟩
        rw [hprocs, Sched.setState, Sched.setProc_self]
    · intro x hx
      have hx' : (((s.setState n .running).setState s.current .ready).procs x).state = .sleeping := by
        rw [← hprocs]; exact hx
      exact hsleep x (setProc_sleeping (by simp) hx')
    · show n < s'.nprocs
      rw [hnp]; exact hlt
    · show (s'.procs n).state = .running
      rw [hother n hne, Sched.setState, Sched.setProc_self]
    · show (s'.procs x).pc = _
      rw [hprocs, Sched.setState, Sched.setProc_field _ _ x (·.pc) _ rfl]
      exact s.setProc_field n x (·.pc) _ rfl
  · have hfinal : SameWaits s L { s.setState n .running with current := n } L :=
      let ⟨a, b, c, d, e, f⟩ := hsame₁
      ⟨a, b, c, d, e, f⟩
    refine ⟨{ s.setState n .running with current := n }, L, ?_,
      h.of_sameWaits (hq₁.congr rfl rfl rfl fun _ => rfl) hfinal le_rfl hold hsleep hlt, hfinal, rfl, ?_, rfl,
      fun x => ?_, .refl L⟩
    · simp only [hcur₁, hrun, if_false]
      rfl
    · show ((s.setState n .running).procs n).state = .running
      simp [Sched.setState]
    · show ((s.setState n .running).procs x).pc = _
      rw [Sched.setState, Sched.setProc_field _ _ x (·.pc) _ rfl]

/-- **`schedule()`** leaves a process running that is not asleep. -/
theorem schedule (h : CoreInv s L) :
    ∃ s' L', s.schedule = .ok s' ∧ CoreInv s' L' ∧ SameWaits s L s' L' ∧ s'.nprocs = s.nprocs ∧
      (s'.procs s'.current).state ≠ .sleeping ∧ (∀ x, (s'.procs x).pc = (s.procs x).pc) ∧ Serves L s' L' := by
  obtain ⟨r, s₁, L₁, hpop, hq₁, hsame₁, hprocs, hn, hc, hqueued, hr, hbest⟩ := h.toQueueInv.runqPopBest
  have h₁ : CoreInv s₁ L₁ := by
    refine h.of_sameWaits hq₁ hsame₁ hn.ge (fun x hx => ?_) ?_ ?_
    · rw [hprocs, hc, hn]; exact h.queued x ((hqueued x).mp hx).1
    · rw [hprocs]; exact fun _ => id
    · rw [hc, hn]; exact h.cur_lt
  -- the process chosen is on no queue any more
  have hnext : ¬ Queued L₁ (r.getD gIdleProc) ∧ r.getD gIdleProc < s₁.nprocs := by
    rcases hr with ⟨rfl, hnone⟩ | ⟨p, rfl, hp⟩
    · exact ⟨fun hq => hnone _ ((hqueued _).mp hq).1, h₁.idle_lt⟩
    · refine ⟨fun hq => ((hqueued _).mp hq).2 rfl, ?_⟩
      rw [hn]; exact (h.queued p hp).2.2
  by_cases heq : r.getD gIdleProc = s.current
  · -- only the idle process can be chosen while it runs
    refine ⟨s₁, L₁, ?_, h₁, hsame₁, hn, ?_, fun x => by rw [hprocs], fun i p ys hfirst => ?_⟩
    · simp only [Sched.schedule, hpop, bind, Except.bind, heq, if_true]
      rfl
    · have hcur : s.current = gIdleProc := by
        rcases hr with ⟨rfl, -⟩ | ⟨p, rfl, hp⟩
        · exact heq.symm
        · exact absurd heq (h.queued p hp).2.1
      rw [hc, hcur]
      exact h₁.idle.2
    · obtain ⟨rfl, rfl⟩ := hbest i p ys hfirst
      exact ⟨hc.trans heq.symm, .refl _⟩
  · obtain ⟨s', L', hrun, h', hsame', hn', hst, hcur', hpc, happ⟩ := h₁.switchTo hnext.1 hnext.2 (by rw [hc]; exact heq)
    refine ⟨s', L', ?_, h', hsame₁.trans hsame', hn'.trans hn, by rw [hst]; simp,
      fun x => by rw [hpc, hprocs], fun i p ys hfirst => ?_⟩
    · rw [← hrun]
      simp only [Sched.schedule, hpop, hc]
      show (if r.getD gIdleProc = s.current then _ else _) = _
      rw [if_neg heq]
    · obtain ⟨rfl, rfl⟩ := hbest i p ys hfirst
      exact ⟨hcur', happ⟩

/-! ### Unlinking and waking

A node that was unlinked stays in the frame of its process with null links. The process is still inside `wq_wait`, and
comes to its own `list_del` later.
-/

/-- After its node has been unlinked a waiter is still inside `wq_wait`, with a node that is off every list. -/
theorem delNode (h : CoreInv s L) {q : Wq} {xs ys : List Addr} (k : Nat)
    (hL : L (.wqHead q) = xs ++ .wqNode p :: ys) :
    ∃ m' : ListMem Addr,
      s.delNode p q k = .ok { s with mem := m', unlinks := s.unlinks ++ [⟨k, true⟩] } ∧
      CoreInv { s with mem := m', unlinks := s.unlinks ++ [⟨k, true⟩] }
        (Function.update L (.wqHead q) (xs ++ ys)) := by
  obtain ⟨m', hdel, hq, hnone, hframe⟩ := h.toQueueInv.delNode k hL (h.length_wait_le' q)
  have hsub : ∀ q' x, Addr.wqNode x ∈ Function.update L (.wqHead q) (xs ++ ys) (.wqHead q') →
      Addr.wqNode x ∈ L (.wqHead q') := by
    intro q' x hx
    by_cases hqq : q' = q
    · subst hqq
      rw [Function.update_self] at hx
      rw [hL]
      rcases List.mem_append.mp hx with hx | hx
      · exact List.mem_append_left _ hx
      · exact List.mem_append_right _ (List.mem_cons_of_mem _ hx)
    · rwa [Function.update_of_ne (by simpa using hqq)] at hx
  refine ⟨m', hdel, ⟨hq, ?_, ?_, ?_, h.idle, h.fresh, h.cur_lt, h.idle_lt⟩⟩
  · intro x hx
    exact h.queued x (queued_update_wait.mp hx)
  · intro q' x hx
    exact h.waiting q' x (hsub q' x hx)
  · intro x hx hoff
    by_cases hxp : x = p
    · subst hxp; exact hnone
    · have hoff' : ∀ q', Addr.wqNode x ∉ L (.wqHead q') := by
        intro q' hm
        apply hoff q'
        by_cases hqq : q' = q
        · subst hqq
          rw [Function.update_self]
          rw [hL, List.mem_append, List.mem_cons, Addr.wqNode.injEq] at hm
          rcases hm with hm | hm | hm
          · exact List.mem_append_left _ hm
          · exact absurd hm hxp
          · exact List.mem_append_right _ hm
        · rwa [Function.update_of_ne (by simpa using hqq)]
      exact (hframe x hoff').trans (h.unlinked x hx hoff')

/-- **Waking a waiter** that is on no run queue. -/
theorem wakeNode (h : CoreInv s L) {q : Wq} {xs ys : List Addr} (hL : L (.wqHead q) = xs ++ .wqNode p :: ys)
    (hp : ¬ Queued L p) (hcur : (s.procs s.current).pc.waiting = none) :
    ∃ s' L', s.wakeNode p q = .ok s' ∧ CoreInv s' L' ∧ s'.nprocs = s.nprocs ∧ s'.current = s.current ∧
      s'.procs = (s.setState p .ready).procs ∧ L' (.wqHead q) = xs ++ ys ∧
      (∀ x, Queued L' x ↔ Queued L x ∨ x = p) ∧ Appends L L' := by
  have hm : Addr.wqNode p ∈ L (.wqHead q) := by rw [hL]; simp
  have hpc : p ≠ s.current := by
    rintro rfl
    exact h.not_linked hcur q hm
  obtain ⟨m', hdel, h₁⟩ := h.delNode (s.nodeOf p) hL
  have h₂ : CoreInv (Sched.setState _ p .ready) _ := h₁.setState (fun _ => rfl) (by simp)
  obtain ⟨s', L', hadd, h', hsame, hprocs, hn, hc, hqueued, happ⟩ :=
    h₂.schedAdd (p := p) (fun hq => hp (queued_update_wait.mp hq)) (by simp [Sched.setState]) hpc (h.wait_lt hm)
  refine ⟨s', L', ?_, h', hn, hc, hprocs, ?_, fun x => ?_, happ.of_wait⟩
  · simp only [Sched.wakeNode, hdel, bind, Except.bind]
    exact hadd
  · rw [hsame.waits, Function.update_self]
  · rw [hqueued, queued_update_wait]

/-- **`wq_wake_one`**, when the process it finds first is on no run queue. -/
theorem wqWakeOne (h : CoreInv s L) (q : Wq) (hcur : (s.procs s.current).pc.waiting = none)
    (hfirst : ∀ p, s.mem.next (.wqHead q) = some (.wqNode p) → ¬ Queued L p) :
    ∃ s' L', s.wqWakeOne q = .ok s' ∧ CoreInv s' L' ∧ s'.nprocs = s.nprocs ∧ s'.current = s.current ∧
      (∀ x, (s'.procs x).pc = (s.procs x).pc) ∧
      (∀ x, s.mem.next (.wqHead q) ≠ some (.wqNode x) →
        s'.procs x = s.procs x ∧ (Queued L' x ↔ Queued L x)) ∧
      (s.mem.isEmpty (.wqHead q) = true → s' = s ∧ L' = L) ∧ L' (.wqHead q) = (L (.wqHead q)).tail ∧
      Appends L L' := by
  have hhead : IsHead (.wqHead q) := trivial
  by_cases hempty : s.mem.isEmpty (.wqHead q) = true
  · have hnil := (h.toQueueInv.isEmpty_head_iff hhead).mp hempty
    refine ⟨s, L, ?_, h, rfl, rfl, fun _ => rfl, fun _ _ => ⟨rfl, Iff.rfl⟩, fun _ => ⟨rfl, rfl⟩, by rw [hnil]; rfl,
      .refl L⟩
    simp only [Sched.wqWakeOne, hempty, if_true]
  · have hne : L (.wqHead q) ≠ [] := fun he => hempty ((h.toQueueInv.isEmpty_head_iff hhead).mpr he)
    obtain ⟨a, ys, hL⟩ := List.exists_cons_of_ne_nil hne
    obtain ⟨p, rfl⟩ := h.wait_node q a (by rw [hL]; simp)
    have hnext := h.lists.next_eq_head hhead hL
    obtain ⟨s', L', hwake, h', hn, hc, hprocs, hrest, hqueued, happ⟩ :=
      h.wakeNode (show L (.wqHead q) = [] ++ .wqNode p :: ys from hL) (hfirst p hnext) hcur
    refine ⟨s', L', ?_, h', hn, hc, fun x => ?_, fun x hx => ?_, fun he => absurd he hempty, by rw [hrest, hL]; rfl,
      happ⟩
    · simp only [Sched.wqWakeOne, hempty, Bool.false_eq_true, if_false, hnext]
      exact hwake
    · rw [hprocs]
      exact s.setProc_field p x (·.pc) _ rfl
    · have hxp : x ≠ p := fun he => hx (he ▸ hnext)
      refine ⟨?_, by simp [hqueued, hxp]⟩
      rw [hprocs, Sched.setState, Sched.setProc_of_ne _ _ hxp]

/-- The loop of `wq_wake_all`, by induction on the waiters it has before it. -/
theorem wqWakeAllFrom {q : Wq} :
    ∀ {l : List Addr} {fuel : Nat} {s : Sched} {L : Addr → List Addr}, CoreInv s L → L (.wqHead q) = l →
      l.length < fuel → (s.procs s.current).pc.waiting = none →
      (∀ p, Addr.wqNode p ∈ l → ¬ Queued L p) →
      ∃ s' L', Sched.wqWakeAllFrom q fuel s (s.mem.next (.wqHead q))
          ((s.mem.next (.wqHead q)).bind s.mem.next) = .ok s' ∧
        CoreInv s' L' ∧ s'.nprocs = s.nprocs ∧ s'.current = s.current ∧
        (∀ x, (s'.procs x).pc = (s.procs x).pc) ∧
        (∀ x, Addr.wqNode x ∉ l → s'.procs x = s.procs x) ∧ (l = [] → s' = s ∧ L' = L) ∧ L' (.wqHead q) = [] ∧
        Appends L L'
  | [],     0,        s, L, _, _,  hfuel, _,    _  => absurd hfuel (by simp)
  | _ :: _, 0,        s, L, _, _,  hfuel, _,    _  => absurd hfuel (by simp)
  | [],     fuel + 1, s, L, h, hL, _,     _,    _  => by
    have hhead : IsHead (.wqHead q) := trivial
    have hnext := (h.lists.next_eq_self_iff hhead).mpr hL
    refine ⟨s, L, ?_, h, rfl, rfl, fun _ => rfl, fun _ _ => rfl, fun _ => ⟨rfl, rfl⟩, hL, .refl L⟩
    simp only [Sched.wqWakeAllFrom, hnext, if_true]
  | a :: l, fuel + 1, s, L, h, hL, hfuel, hcur, hq => by
    have hhead : IsHead (.wqHead q) := trivial
    obtain ⟨p, rfl⟩ := h.wait_node q a (by rw [hL]; simp)
    have hnext := h.lists.next_eq_head hhead hL
    obtain ⟨s₁, L₁, hwake, h₁, hn₁, hc₁, hprocs₁, hL₁, hqueued₁, happ₁⟩ :=
      h.wakeNode (show L (.wqHead q) = [] ++ .wqNode p :: l from hL) (hq p (by simp)) hcur
    have hnd := h.lists.nodup _ hhead
    rw [hL, List.nodup_cons] at hnd
    -- the node the loop has looked up in advance is the one that is first now
    have hsucc : s.mem.next (.wqNode p) = s₁.mem.next (.wqHead q) := by
      have hring := h.lists.ring _ hhead
      have hring₁ := h₁.lists.ring _ hhead
      rw [hL] at hring
      rw [hL₁] at hring₁
      have hlinks : Links s.mem (.wqNode p :: l ++ [.wqHead q]) := hring.2.2
      cases l with
      | nil =>
          have e1 : s.mem.next (.wqNode p) = some (.wqHead q) := hlinks.1
          have e2 : s₁.mem.next (.wqHead q) = some (.wqHead q) := hring₁.1
          rw [e1, e2]
      | cons b l =>
          have e1 : s.mem.next (.wqNode p) = some b := hlinks.1
          have e2 : s₁.mem.next (.wqHead q) = some b := hring₁.1
          rw [e1, e2]
    have hpc₁ : ∀ x, (s₁.procs x).pc = (s.procs x).pc := by
      intro x
      rw [hprocs₁]
      exact s.setProc_field p x (·.pc) _ rfl
    obtain ⟨s', L', hrun, h', hn, hc, hpc, hother, -, hnone, happ⟩ :=
      wqWakeAllFrom h₁ hL₁ (show l.length < fuel by simpa using hfuel) (by rw [hc₁, hpc₁]; exact hcur) (by
        intro x hx
        rw [hqueued₁, not_or]
        refine ⟨hq x (List.mem_cons_of_mem _ hx), ?_⟩
        rintro rfl
        exact hnd.1 hx)
    refine ⟨s', L', ?_, h', hn.trans hn₁, hc.trans hc₁, fun x => (hpc x).trans (hpc₁ x), fun x hx => ?_, by simp,
      hnone, happ₁.trans happ⟩
    · simp only [Sched.wqWakeAllFrom, hnext, Option.some.injEq, reduceCtorEq, if_false, hwake, bind,
        Except.bind, Option.bind_some, hsucc]
      exact hrun
    · rw [List.mem_cons, not_or] at hx
      rw [hother x hx.2, hprocs₁, Sched.setState, Sched.setProc_of_ne]
      exact fun he => hx.1 (by rw [he])

/-- **`wq_wake_all`**, when no process it finds is on a run queue. -/
theorem wqWakeAll (h : CoreInv s L) (q : Wq) (hcur : (s.procs s.current).pc.waiting = none)
    (hall : ∀ p, Addr.wqNode p ∈ L (.wqHead q) → ¬ Queued L p) :
    ∃ s' L', s.wqWakeAll q = .ok s' ∧ CoreInv s' L' ∧ s'.nprocs = s.nprocs ∧ s'.current = s.current ∧
      (∀ x, (s'.procs x).pc = (s.procs x).pc) ∧
      (∀ x, Addr.wqNode x ∉ L (.wqHead q) → s'.procs x = s.procs x) ∧
      (L (.wqHead q) = [] → s' = s ∧ L' = L) ∧ L' (.wqHead q) = [] ∧ Appends L L' :=
  wqWakeAllFrom h rfl (Nat.lt_succ_of_le (h.length_wait_le' q)) hcur hall

/-! ### Signals

`proc_wake` of a sleeping process pushes two processes, or one if nobody waits on its channel.
-/

/-- **`proc_wake`** of a sleeping process that does not run: its wait channel, if it has one, must yield
    another process first, and one that is on no run queue. -/
theorem procWake (h : CoreInv s L) (hcur : (s.procs s.current).pc.waiting = none)
    (hst : (s.procs p).state = .sleeping) (hne : p ≠ s.current)
    (hchan : ∀ q, (s.procs p).waitChannel = some q → ∀ x, s.mem.next (.wqHead q) = some (.wqNode x) →
      x ≠ p ∧ ¬ Queued L x) :
    ∃ s' L', s.procWake p = .ok s' ∧ CoreInv s' L' ∧ s'.nprocs = s.nprocs ∧ s'.current = s.current ∧
      (∀ x, (s'.procs x).pc = (s.procs x).pc) ∧ (s'.procs s.current).state = (s.procs s.current).state ∧
      ((∀ q, (s.procs p).waitChannel = some q → s.mem.isEmpty (.wqHead q) = true) → SameWaits s L s' L') ∧
      Appends L L' := by
  have hlt : p < s.nprocs := h.sleeping_lt hst
  have hnq : ¬ Queued L p := fun hq => by
    have hready := (h.queued p hq).1
    rw [hst] at hready
    cases hready
  have h₁ : CoreInv (s.setState p .ready) L := h.setState (fun _ => rfl) (by simp)
  have hpc₁ : ∀ x, ((s.setState p .ready).procs x).pc = (s.procs x).pc := fun x =>
    s.setProc_field p x (·.pc) _ rfl
  have hcur₁ : ((s.setState p .ready).procs s.current) = s.procs s.current := by
    rw [Sched.setState, Sched.setProc_of_ne _ _ (Ne.symm hne)]
  have hwc : ((s.setState p .ready).procs p).waitChannel = (s.procs p).waitChannel := by simp [Sched.setState]
  have hsame₁ : SameWaits s L (s.setState p .ready) L := sameWaits_setProc s L p _ rfl
  cases hq : (s.procs p).waitChannel with
  -- on no channel: the process is pushed, and no queue is touched
  | none =>
      obtain ⟨s', L', hadd, h', hsame, hprocs, hn, hc, -, happ⟩ :=
        h₁.schedAdd hnq (by simp [Sched.setState]) hne hlt
      refine ⟨s', L', ?_, h', hn, hc, fun x => ?_, ?_, fun _ => hsame₁.trans hsame, happ⟩
      · simp only [Sched.procWake, hst, if_true, hwc, hq]
        exact hadd
      · rw [hprocs]; exact hpc₁ x
      · rw [hprocs, hcur₁]
  | some q =>
      -- on a channel: its first waiter is woken, and then the process is pushed as well
      have hfirst := hchan q hq
      obtain ⟨s₂, L₂, hwake, h₂, hn₂, hc₂, hpc₂, hother₂, hempty₂, -, happ₂⟩ :=
        h₁.wqWakeOne q (by
          show ((s.setState p .ready).procs s.current).pc.waiting = none
          rw [hpc₁]; exact hcur) fun x hx => (hfirst x hx).2
      have hp₂ := hother₂ p fun hx => (hfirst p hx).1 rfl
      have hcur₂ := hother₂ s.current fun hx => by
        exact h.not_linked hcur q (h.toQueueInv.mem_of_next hx)
      obtain ⟨s', L', hadd, h', hsame, hprocs, hn, hc, -, happ⟩ :=
        h₂.schedAdd (p := p) (fun hqd => hnq (hp₂.2.mp hqd)) (by rw [hp₂.1]; simp [Sched.setState])
          (by rw [hc₂]; exact hne) (by rw [hn₂]; exact hlt)
      refine ⟨s', L', ?_, h', hn.trans hn₂, hc.trans hc₂, fun x => ?_, ?_, fun hall => ?_, happ₂.trans happ⟩
      · simp only [Sched.procWake, hst, if_true, hwc, hq, hwake, bind, Except.bind]
        exact hadd
      · rw [hprocs, hpc₂, hpc₁]
      · rw [hprocs, hcur₂.1, hcur₁]
      · obtain ⟨rfl, rfl⟩ := hempty₂ (hall q rfl)
        exact hsame₁.trans hsame

/-- **`signal_send`** from a process that waits for nothing. -/
theorem signalSend (h : CoreInv s L) (hcur : (s.procs s.current).pc.waiting = none)
    (hawake : (s.procs s.current).state ≠ .sleeping) (signo : Nat)
    (hchan : (s.procs p).state = .sleeping → ∀ q, (s.procs p).waitChannel = some q →
      ∀ x, s.mem.next (.wqHead q) = some (.wqNode x) → x ≠ p ∧ ¬ Queued L x) :
    ∃ s' L', s.signalSend p signo = .ok s' ∧ CoreInv s' L' ∧ s'.nprocs = s.nprocs ∧ s'.current = s.current ∧
      (∀ x, (s'.procs x).pc = (s.procs x).pc) ∧ (s'.procs s.current).state = (s.procs s.current).state ∧
      (((s.procs p).state = .sleeping → ∀ q, (s.procs p).waitChannel = some q →
        s.mem.isEmpty (.wqHead q) = true) → SameWaits s L s' L') ∧ Appends L L' := by
  have hstay : ∃ s' L', (Except.ok s : Kernel Sched) = .ok s' ∧ CoreInv s' L' ∧ s'.nprocs = s.nprocs ∧
      s'.current = s.current ∧ (∀ x, (s'.procs x).pc = (s.procs x).pc) ∧
      (s'.procs s.current).state = (s.procs s.current).state ∧
      (((s.procs p).state = .sleeping → ∀ q, (s.procs p).waitChannel = some q →
        s.mem.isEmpty (.wqHead q) = true) → SameWaits s L s' L') ∧ Appends L L' :=
    ⟨s, L, rfl, h, rfl, rfl, fun _ => rfl, rfl, fun _ => .refl s L, .refl L⟩
  -- a number out of range is refused, and so is a process that is gone
  unfold Sched.signalSend
  split
  · exact hstay
  · split
    · exact hstay
    · generalize hf : (fun x : Process =>
        { x with sigPending := x.sigPending ||| BitVec.twoPow 64 (signo - 1) }) = f
      have hfst : ∀ x, (f x).state = x.state ∧ (f x).priority = x.priority ∧ (f x).pc = x.pc ∧
          (f x).waitChannel = x.waitChannel := by
        subst hf
        exact fun _ => ⟨rfl, rfl, rfl, rfl⟩
      have h₁ : CoreInv (s.setProc p f) L := by
        refine h.setProc f (hfst _).2.1 (by rw [(hfst _).2.2.1]) (fun hq => ?_) (fun hs => ?_)
        · rw [(hfst _).1]; exact (h.queued p hq).1
        · rwa [(hfst _).1] at hs
      have hpc₁ : ∀ x, ((s.setProc p f).procs x).pc = (s.procs x).pc := fun x =>
        s.setProc_field p x (·.pc) f (hfst _).2.2.1
      have hst₁ : ∀ x, ((s.setProc p f).procs x).state = (s.procs x).state := fun x =>
        s.setProc_field p x (·.state) f (hfst _).1
      have hwc₁ : ((s.setProc p f).procs p).waitChannel = (s.procs p).waitChannel := by
        rw [Sched.setProc_self, (hfst _).2.2.2]
      have hsame₁ : SameWaits s L (s.setProc p f) L := sameWaits_setProc s L p f (by rw [(hfst _).2.2.1])
      -- only a sleeping process is woken, after the bit was set
      by_cases hsl : (s.procs p).state = .sleeping
      · have hne : p ≠ s.current := by
          rintro rfl
          exact hawake hsl
        obtain ⟨s', L', hwake, h', hn, hc, hpc, hst, hsame, happ⟩ :=
          h₁.procWake (p := p) (by
            show ((s.setProc p f).procs s.current).pc.waiting = none
            rw [hpc₁]; exact hcur) ((hst₁ p).trans hsl) hne (by rw [hwc₁]; exact hchan hsl)
        refine ⟨s', L', ?_, h', hn, hc, fun x => (hpc x).trans (hpc₁ x), hst.trans (hst₁ _), fun hall => ?_,
          happ⟩
        · simp only [hst₁, hsl, if_true]
          exact hwake
        · exact hsame₁.trans (hsame (by rw [hwc₁]; exact hall hsl))
      · refine ⟨s.setProc p f, L, ?_, h₁, rfl, rfl, hpc₁, hst₁ _, fun _ => hsame₁, .refl L⟩
        simp only [hst₁, hsl, if_false]

/-- **Fork**: the child is new, so it is on no queue. -/
theorem fork (h : CoreInv s L) :
    ∃ s' L', s.fork = .ok s' ∧ CoreInv s' L' ∧ SameWaits s L s' L' ∧ s'.current = s.current ∧
      (s'.procs s.current).state = (s.procs s.current).state ∧
      (s'.procs s.current).pc = (s.procs s.current).pc ∧ Appends L L' := by
  have hnew : ¬ Queued L s.nprocs := fun hq => lt_irrefl _ (h.queued _ hq).2.2
  have hcne : s.current ≠ s.nprocs := Nat.ne_of_lt h.cur_lt
  generalize hs₁ : ({ s with
    mem := s.mem.init (.runNode s.nprocs), nprocs := s.nprocs + 1,
    procs := Function.update s.procs s.nprocs s.forkedProc } : Sched) = s₁
  have hprocs₁ : ∀ x, x ≠ s.nprocs → s₁.procs x = s.procs x := by
    subst hs₁
    exact fun x hx => Function.update_of_ne hx _ _
  have hoff := h.toQueueInv.runNode_not_mem hnew
  -- only the run node of the child is initialised, which is on no queue
  have hq₁ : QueueInv s₁ L := by
    subst hs₁
    refine ⟨h.lists.congr fun a ha => ?_, fun i hi a ha => ?_, h.wait_node, fun p hp => ?_, h.bitmap, h.total⟩
    · have hne : a ≠ .runNode s.nprocs := by
        rintro rfl
        rcases ha with ha | ⟨b, hb, hm⟩
        · exact ha
        · exact hoff b hb hm
      simp [hne]
    · obtain ⟨p, rfl, hprio⟩ := h.run_node i hi a ha
      have hp : p ≠ s.nprocs := by
        rintro rfl
        exact hoff _ (show IsHead (.runHead i) from hi) ha
      refine ⟨p, rfl, ?_⟩
      rw [← hprio]
      simp only [Sched.prio, Function.update_of_ne hp]
    · have hself := h.run_off p hp
      by_cases hpn : p = s.nprocs
      · subst hpn; simp
      · simpa [hpn] using hself
  -- a slot that is not in use waits for nothing, and neither does the child
  have hsame₁ : SameWaits s L s₁ L := by
    have hwaiting : ∀ p, (s₁.procs p).pc.waiting = (s.procs p).pc.waiting := by
      intro p
      by_cases hpn : p = s.nprocs
      · subst hpn
        rw [(h.fresh _ le_rfl).1, ← hs₁]
        simp [Sched.forkedProc, Pc.waiting]
      · rw [hprocs₁ p hpn]
    subst hs₁
    exact ⟨fun _ => rfl, fun p _ => by simp, hwaiting, rfl, rfl, rfl⟩
  have hn₁ : s₁.nprocs = s.nprocs + 1 := by subst hs₁; rfl
  have hc₁ : s₁.current = s.current := by subst hs₁; rfl
  have h₁ : CoreInv s₁ L := by
    refine h.of_sameWaits hq₁ hsame₁ (by rw [hn₁]; exact Nat.le_succ _) (fun p hp => ?_) ?_ ?_
    · obtain ⟨h1, h2, h3⟩ := h.queued p hp
      rw [hprocs₁ p (Nat.ne_of_lt h3), hc₁, hn₁]
      exact ⟨h1, h2, Nat.lt_succ_of_lt h3⟩
    · intro p hp
      by_cases hpn : p = s.nprocs
      · subst hpn hs₁
        simp [Sched.forkedProc] at hp
      · rwa [hprocs₁ p hpn] at hp
    · rw [hc₁, hn₁]
      exact Nat.lt_succ_of_lt h.cur_lt
  -- `sched_add`: the child is made READY and pushed
  have h₂ : CoreInv (s₁.setState s.nprocs .ready) L := h₁.setState (fun _ => rfl) (by simp)
  obtain ⟨s', L', hadd, h', hsame, hprocs, -, hc, -, happ⟩ :=
    h₂.schedAdd (p := s.nprocs) hnew (by simp [Sched.setState])
      (by rw [show (s₁.setState s.nprocs .ready).current = s.current from hc₁]; exact Ne.symm hcne)
      (by rw [show (s₁.setState s.nprocs .ready).nprocs = _ from hn₁]; exact Nat.lt_succ_self _)
  refine ⟨s', L', ?_, h', (hsame₁.trans (sameWaits_setProc s₁ L s.nprocs _ rfl)).trans hsame, hc.trans hc₁, ?_, ?_,
    happ⟩
  · rw [← hadd, ← hs₁]
    rfl
  · rw [hprocs, Sched.setState, Sched.setProc_of_ne _ _ hcne, hprocs₁ _ hcne]
  · rw [hprocs, Sched.setState, Sched.setProc_of_ne _ _ hcne, hprocs₁ _ hcne]

/-! ### Entering and leaving a wait

Where a process stands in the kernel matters to the invariant only while it has a node.
-/

/-- A process whose node is on no list may move to any point outside `wq_wait`. -/
theorem setPc_none (h : CoreInv s L) {pc : Pc} (hpc : pc.waiting = none)
    (hoff : ∀ q, Addr.wqNode p ∉ L (.wqHead q)) : CoreInv (s.setPc p pc) L := by
  have hst : ∀ x, ((s.setPc p pc).procs x).state = (s.procs x).state := fun x =>
    s.setProc_field p x (·.state) _ rfl
  have hself : ((s.setPc p pc).procs p).pc.waiting = none := by simp [Sched.setPc, hpc]
  have hother : ∀ x, x ≠ p → (s.setPc p pc).procs x = s.procs x := fun x hx => Sched.setProc_of_ne _ _ hx
  have hnone : ∀ x, (s.procs x).pc.waiting = none → ((s.setPc p pc).procs x).pc.waiting = none := by
    intro x hx
    by_cases hxp : x = p
    · rw [hxp]; exact hself
    · rw [hother x hxp]; exact hx
  refine ⟨h.toQueueInv.setPc pc, ?_, ?_, ?_, ?_, ?_, h.cur_lt, h.idle_lt⟩
  · intro x hx
    rw [hst]
    exact h.queued x hx
  · intro q x hx
    have hxp : x ≠ p := by
      rintro rfl
      exact hoff q hx
    rw [hother x hxp]
    exact h.waiting q x hx
  · intro x hx
    have hxp : x ≠ p := by
      rintro rfl
      exact hx hself
    rw [hother x hxp] at hx
    exact h.unlinked x hx
  · exact ⟨hnone _ h.idle.1, by rw [hst]; exact h.idle.2⟩
  · intro x hx
    exact ⟨hnone _ (h.fresh x hx).1, by rw [hst]; exact (h.fresh x hx).2⟩

end CoreInv

end MyUnix.Proc
