import MyUnix.Lib.Run
import MyUnix.Proc.SchedStep

/-!
# `Proc.WaitQueues` — wait-queue nodes over whole runs

A waker unlinks the node of the process it wakes, and `wq_wait` unlinks its own node after `schedule()`,
whoever made it run again. The second `list_del` finds null links. So the nodes are in order only in runs in
which no wake finds a waiter, where a wait ends by a signal or by its deadline.

In such runs, whoever is inside `wq_wait` has its node on the queue (`NodeInv`), so its own `list_del` is the first
one. The record of all calls of `list_del` is part of the state, and the property is about this record.
-/

namespace MyUnix.Proc

open Lib

/-- **Every node unlinked once**: no `list_del` went through a null link, each hit a node that was on its
    queue, none was applied twice to a node, and a node that has not been unlinked belongs to a wait that
    has not returned. -/
def UnlinksOk (s : Sched) : Prop :=
  s.panicked = false ∧ (∀ u ∈ s.unlinks, u.linked = true) ∧ (s.unlinks.map Unlink.node).Nodup ∧
  ∀ k < s.nnodes, k ∈ s.unlinks.map Unlink.node ∨ ∃ p q, (s.procs p).pc.waiting = some (q, k)

/-- What a run without wakes of waiters keeps: every process inside `wq_wait` has its node on the queue. -/
structure NodeInv (s : Sched) (L : Addr → List Addr) : Prop where
  ok : UnlinksOk s
  linked : ∀ p q k, (s.procs p).pc.waiting = some (q, k) → Addr.wqNode p ∈ L (.wqHead q)
  pending : ∀ p q k, (s.procs p).pc.waiting = some (q, k) → k < s.nnodes ∧ k ∉ s.unlinks.map Unlink.node
  done : ∀ k ∈ s.unlinks.map Unlink.node, k < s.nnodes
  inj : ∀ p p' q q' k, (s.procs p).pc.waiting = some (q, k) → (s.procs p').pc.waiting = some (q', k) → p = p'

section

variable {s s' : Sched} {L L' : Addr → List Addr}

theorem NodeInv.same (h : NodeInv s L) (hs : SameWaits s L s' L') : NodeInv s' L' where
  ok := by
    obtain ⟨h1, h2, h3, h4⟩ := h.ok
    unfold UnlinksOk
    rw [hs.panicked, hs.unlinks, hs.nnodes]
    refine ⟨h1, h2, h3, fun k hk => (h4 k hk).imp id ?_⟩
    rintro ⟨p, q, hp⟩
    exact ⟨p, q, (hs.waiting p).trans hp⟩
  linked p q k hp := by
    rw [hs.waits]
    exact h.linked p q k ((hs.waiting p).symm.trans hp)
  pending p q k hp := by
    rw [hs.nnodes, hs.unlinks]
    exact h.pending p q k ((hs.waiting p).symm.trans hp)
  done := by rw [hs.nnodes, hs.unlinks]; exact h.done
  inj p p' q q' k hp hp' := h.inj p p' q q' k ((hs.waiting p).symm.trans hp) ((hs.waiting p').symm.trans hp')

/-- The running process has put a node on a queue. -/
theorem NodeInv.enqueue (h : NodeInv s L) {p : Pid} {q : Wq} (hp : (s.procs p).pc.waiting = none)
    (hp' : (s'.procs p).pc.waiting = some (q, s.nnodes))
    (hother : ∀ x, x ≠ p → (s'.procs x).pc.waiting = (s.procs x).pc.waiting) (hlinked : Addr.wqNode p ∈ L' (.wqHead q))
    (hkept : ∀ q x, Addr.wqNode x ∈ L (.wqHead q) → Addr.wqNode x ∈ L' (.wqHead q))
    (hnn : s'.nnodes = s.nnodes + 1) (hul : s'.unlinks = s.unlinks) (hpk : s'.panicked = s.panicked) :
    NodeInv s' L' := by
  obtain ⟨h1, h2, h3, h4⟩ := h.ok
  -- the new node has the next number, which no old one has
  have hold : ∀ x q k, x ≠ p → (s'.procs x).pc.waiting = some (q, k) → (s.procs x).pc.waiting = some (q, k) :=
    fun x q k hx hk => (hother x hx).symm.trans hk
  refine ⟨⟨hpk.trans h1, by rw [hul]; exact h2, by rw [hul]; exact h3, fun k hk => ?_⟩, ?_, ?_, ?_, ?_⟩
  · rw [hnn] at hk
    rcases Nat.lt_succ_iff_lt_or_eq.mp hk with hk | rfl
    · rw [hul]
      refine (h4 k hk).imp id ?_
      rintro ⟨x, q', hx⟩
      have hxp : x ≠ p := by
        rintro rfl
        rw [hp] at hx
        cases hx
      exact ⟨x, q', (hother x hxp).trans hx⟩
    · exact Or.inr ⟨p, q, hp'⟩
  · intro x q' k hx
    by_cases hxp : x = p
    · subst hxp
      rw [hp'] at hx
      cases hx
      exact hlinked
    · exact hkept q' x (h.linked x q' k (hold x q' k hxp hx))
  · intro x q' k hx
    rw [hul, hnn]
    by_cases hxp : x = p
    · subst hxp
      rw [hp'] at hx
      cases hx
      exact ⟨Nat.lt_succ_self _, fun hm => lt_irrefl _ (h.done _ hm)⟩
    · obtain ⟨hlt, hnm⟩ := h.pending x q' k (hold x q' k hxp hx)
      exact ⟨Nat.lt_succ_of_lt hlt, hnm⟩
  · intro k hk
    rw [hul] at hk
    rw [hnn]
    exact Nat.lt_succ_of_lt (h.done k hk)
  · have hnew : ∀ x q' k, x ≠ p → (s'.procs x).pc.waiting = some (q', k) → k ≠ s.nnodes := by
      intro x q' k hxp hx
      exact Nat.ne_of_lt (h.pending x q' k (hold x q' k hxp hx)).1
    intro x x' q₁ q₂ k hx hx'
    by_cases hxp : x = p
    · by_cases hxp' : x' = p
      · rw [hxp, hxp']
      · rw [hxp, hp'] at hx
        cases hx
        exact absurd rfl (hnew x' q₂ _ hxp' hx')
    · by_cases hxp' : x' = p
      · rw [hxp', hp'] at hx'
        cases hx'
        exact absurd rfl (hnew x q₁ _ hxp hx)
      · exact h.inj x x' q₁ q₂ k (hold x q₁ k hxp hx) (hold x' q₂ k hxp' hx')

/-- A waiter has unlinked its node, which was on its queue. -/
theorem NodeInv.unlink (h : NodeInv s L) {p : Pid} {q : Wq} {k : Nat} (hp : (s.procs p).pc.waiting = some (q, k))
    (hp' : (s'.procs p).pc.waiting = none)
    (hother : ∀ x, x ≠ p → (s'.procs x).pc.waiting = (s.procs x).pc.waiting)
    (hkept : ∀ q x, x ≠ p → Addr.wqNode x ∈ L (.wqHead q) → Addr.wqNode x ∈ L' (.wqHead q))
    (hnn : s'.nnodes = s.nnodes) (hul : s'.unlinks = s.unlinks ++ [⟨k, true⟩]) (hpk : s'.panicked = s.panicked) :
    NodeInv s' L' := by
  obtain ⟨h1, h2, h3, h4⟩ := h.ok
  obtain ⟨hlt, hnew⟩ := h.pending p q k hp
  -- whoever waits now is not `p`, and waited before
  have hold : ∀ x q' j, (s'.procs x).pc.waiting = some (q', j) →
      x ≠ p ∧ (s.procs x).pc.waiting = some (q', j) := by
    intro x q' j hx
    have hxp : x ≠ p := by
      rintro rfl
      rw [hp'] at hx
      cases hx
    exact ⟨hxp, (hother x hxp).symm.trans hx⟩
  have hmap : s'.unlinks.map Unlink.node = s.unlinks.map Unlink.node ++ [k] := by rw [hul]; simp
  refine ⟨⟨hpk.trans h1, ?_, ?_, fun j hj => ?_⟩, ?_, ?_, ?_, ?_⟩
  · intro u hu
    -- each unlinking of the record found its node linked, this one too
    rw [hul, List.mem_append, List.mem_singleton] at hu
    rcases hu with hu | rfl
    · exact h2 u hu
    · rfl
  · -- no node was unlinked twice: that of `p` was waiting until now
    rw [hmap, (List.perm_append_singleton k _).nodup_iff]
    exact List.nodup_cons.mpr ⟨hnew, h3⟩
  · rw [hmap, List.mem_append, List.mem_singleton]
    rw [hnn] at hj
    rcases h4 j hj with hm | ⟨x, q', hx⟩
    · exact Or.inl (Or.inl hm)
    · by_cases hxp : x = p
      · subst hxp
        rw [hp] at hx
        cases hx
        exact Or.inl (Or.inr rfl)
      · exact Or.inr ⟨x, q', (hother x hxp).trans hx⟩
  · intro x q' j hx
    obtain ⟨hxp, hx⟩ := hold x q' j hx
    exact hkept q' x hxp (h.linked x q' j hx)
  · intro x q' j hx
    -- the node of another waiter is not the one that was unlinked
    obtain ⟨hxp, hx⟩ := hold x q' j hx
    obtain ⟨hlt', hnm⟩ := h.pending x q' j hx
    rw [hnn, hmap, List.mem_append, List.mem_singleton, not_or]
    refine ⟨hlt', hnm, ?_⟩
    rintro rfl
    exact hxp (h.inj x p q' q j hx hp)
  · intro j hj
    rw [hmap, List.mem_append, List.mem_singleton] at hj
    rw [hnn]
    rcases hj with hj | rfl
    · exact h.done j hj
    · exact hlt
  · intro x x' q₁ q₂ j hx hx'
    exact h.inj x x' q₁ q₂ j (hold x q₁ j hx).2 (hold x' q₂ j hx').2

/-- **One step** without a wake of a waiter keeps the nodes in order. -/
theorem NodeInv.step (h : NodeInv s L) (he : WaitEffect s L s' L') : NodeInv s' L' := by
  cases he with
  | same hs => exact h.same hs
  | enqueue p q hp hp' hother hlinked hkept hnn hul hpk => exact h.enqueue hp hp' hother hlinked hkept hnn hul hpk
  | unlink p q k hp hp' hother hkept hnn hul hpk => exact h.unlink hp hp' hother hkept hnn hul hpk
  | twice p q k hp hoff => exact absurd (h.linked p q k hp) hoff

end

/-- **Wait-queue nodes.** In every run in which no wake finds a waiter, every node is unlinked once, while it is
    on its queue. -/
theorem unlinksOk_of_wakesNobody (es : List Event) (s : Sched)
    (hrun : Run (Lib.Guarded WakesNobody (Lib.Graph schedStep)) schedInit es s) : UnlinksOk s := by
  have hinit : NodeInv schedInit (fun _ => []) := by
    have hnone := coreInv_schedInit.1
    have hpc : ∀ p, (schedInit.procs p).pc.waiting = none := by
      intro p
      simp only [schedInit]
      split
      · rfl
      · split <;> rfl
    refine ⟨⟨rfl, by simp [schedInit], by simp [schedInit], fun k hk => absurd hk (by simp [schedInit])⟩,
      ?_, ?_, by simp [schedInit], ?_⟩
    · intro p q k hp; rw [hpc] at hp; cases hp
    · intro p q k hp; rw [hpc] at hp; cases hp
    · intro p p' q q' k hp; rw [hpc] at hp; cases hp
  have hinv : ∃ L, CoreInv s L ∧ Awake s ∧ NodeInv s L := by
    refine hrun.invariant (fun s => ∃ L, CoreInv s L ∧ Awake s ∧ NodeInv s L)
      ⟨_, coreInv_schedInit.1, coreInv_schedInit.2, hinit⟩ ?_
    rintro s e t ⟨L, h, haw, hn⟩ ⟨hno, hstep⟩
    obtain ⟨L', h', haw', -, heff⟩ := h.step haw hstep (h.wakesOnce_of_nobody hno)
    exact ⟨L', h', haw', hn.step (heff hno)⟩
  obtain ⟨L, -, -, hn⟩ := hinv
  exact hn.ok

/-- A wait that a signal ends meets the condition: init waits on a pipe, its child sends it a signal, and init
    unlinks its own node when it runs again. -/
theorem unlinksOk_signalled :
    ∃ s, Run (Lib.Guarded WakesNobody (Lib.Graph schedStep)) schedInit
      [.fork, .wqWait (.other 0) .direct, .signalSend 1 15, .schedule, .resume] s ∧ UnlinksOk s := by
  have hsig : WakesNobody (after schedStep schedInit [.fork, .wqWait (.other 0) .direct]) (.signalSend 1 15) := by
    have hchan : ((after schedStep schedInit [.fork, .wqWait (.other 0) .direct]).procs 1).waitChannel = none := by
      decide +kernel
    intro _ q hq
    rw [hchan] at hq
    cases hq
  have h₀ : Run (Lib.Guarded WakesNobody (Lib.Graph schedStep)) schedInit [] (after schedStep schedInit []) := .refl
  have h₁ := h₀.tail_after .fork trivial (by decide +kernel)
  have h₂ := h₁.tail_after (.wqWait (.other 0) .direct) trivial (by decide +kernel)
  have h₃ := h₂.tail_after (.signalSend 1 15) hsig (by decide +kernel)
  have h₄ : Run (Lib.Guarded WakesNobody (Lib.Graph schedStep)) schedInit
      [.fork, .wqWait (.other 0) .direct, .signalSend 1 15, .schedule] (after schedStep schedInit
      [.fork, .wqWait (.other 0) .direct, .signalSend 1 15, .schedule]) :=
    h₃.tail_after .schedule trivial (by decide +kernel)
  obtain ⟨s₄, hs₄⟩ : ∃ s, s = after schedStep schedInit
    [.fork, .wqWait (.other 0) .direct, .signalSend 1 15, .schedule] := ⟨_, rfl⟩
  have hpc : (s₄.procs s₄.current).pc = .wait (.other 0) 0 .direct := by rw [hs₄]; decide +kernel
  have hstep : (schedStep s₄ .resume).isSome := by rw [hs₄]; decide +kernel
  obtain ⟨s₅, hs₅⟩ := Option.isSome_iff_exists.mp hstep
  have hres : WakesNobody s₄ .resume := by simp only [WakesNobody, hpc]
  rw [← hs₄] at h₄
  have h₅ := h₄.tail (show Lib.Guarded WakesNobody (Lib.Graph schedStep) s₄ .resume s₅ from ⟨hres, hs₅⟩)
  exact ⟨s₅, h₅, unlinksOk_of_wakesNobody _ _ h₅⟩

/-- **A waiter that was woken unlinks its node again.** Init waits on a pipe, its child writes to it
    (`wq_wake_one`) and yields; init resumes in `wq_wait` and runs `list_del` on a node with null links. -/
theorem unlinksOk_fails_wake :
    ∃ s, Run (Graph schedStep) schedInit
      [.fork, .wqWait (.other 0) .direct, .wqWakeOne (.other 0), .schedule, .resume] s ∧ ¬ UnlinksOk s := by
  refine ⟨_, Run.of_after (by decide +kernel), fun hok => ?_⟩
  have hpanic := hok.1
  revert hpanic
  decide +kernel

end MyUnix.Proc
