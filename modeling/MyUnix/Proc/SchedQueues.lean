import Mathlib.Algebra.BigOperators.Group.Finset.Basic
import Mathlib.Tactic.Linarith
import MyUnix.Proc.Sched

/-!
# `Proc.SchedQueues` — the queue operations against lists of processes

`QueueInv s L` ties the pointers of a scheduler state to the sequences `L` of nodes behind each list head:
run queues hold run nodes of their own level, the bitmap marks the levels that are not empty, `total` counts
all members, and a process on no run queue has an empty `run_list`.

Each operation then has one lemma: that it runs through, what it does to `L`, and (`SameWaits`) that the
wait queues are none of its business. Nothing above this module looks at a pointer.

The lemmas about run queues and those about wait queues are of the same kind, an update of one list with its
consequences. What an update of a run queue has to be accompanied by is a bit and a counter; an update of a wait queue
has no such companion. Everything else in the state is framed by `SameWaits` or by the fact that run queues are not
touched.
-/

namespace MyUnix.Proc

open Lib

/-- The list heads. -/
def IsHead : Addr → Prop
  | .wqHead _ => True
  | .runHead i => i < schedPrioMax
  | _ => False

/-- A process is on a run queue. -/
def Queued (L : Addr → List Addr) (p : Pid) : Prop := ∃ i < schedPrioMax, Addr.runNode p ∈ L (.runHead i)

/-- Only pushes: who waits on a run queue keeps his place, and the others come behind. -/
def Appends (L L' : Addr → List Addr) : Prop := ∀ i, L (.runHead i) <+: L' (.runHead i)

theorem Appends.refl (L : Addr → List Addr) : Appends L L := fun _ => List.prefix_rfl

theorem Appends.trans {L₁ L₂ L₃ : Addr → List Addr} (h : Appends L₁ L₂) (h' : Appends L₂ L₃) : Appends L₁ L₃ :=
  fun i => (h i).trans (h' i)

/-- The wait queues are apart from the run queues. -/
theorem Appends.of_wait {L L' : Addr → List Addr} {q : Wq} {l : List Addr}
    (h : Appends (Function.update L (.wqHead q) l) L') : Appends L L' := by
  intro i
  have hi := h i
  rwa [Function.update_of_ne (by simp)] at hi

/-- `p` is the first on the first run queue that is not empty, before `ys`. -/
structure BestFirst (L : Addr → List Addr) (i : Nat) (p : Pid) (ys : List Addr) : Prop where
  level : i < schedPrioMax
  low   : ∀ j < i, L (.runHead j) = []
  queue : L (.runHead i) = .runNode p :: ys

theorem BestFirst.unique {L : Addr → List Addr} {i j : Nat} {p r : Pid} {ys zs : List Addr} (h : BestFirst L j r zs)
    (h' : BestFirst L i p ys) : j = i ∧ r = p ∧ zs = ys := by
  have hij : j = i := by
    rcases Nat.lt_trichotomy j i with hlt | heq | hlt
    · exact absurd (h.queue.symm.trans (h'.low j hlt)) (List.cons_ne_nil _ _)
    · exact heq
    · exact absurd (h'.queue.symm.trans (h.low i hlt)) (List.cons_ne_nil _ _)
  subst hij
  have hq := h.queue.symm.trans h'.queue
  simpa using hq

/-- The pointers of `s` are the lists `L`. -/
structure QueueInv (s : Sched) (L : Addr → List Addr) : Prop where
  lists : Lists s.mem IsHead L
  run_node : ∀ i < schedPrioMax, ∀ a ∈ L (.runHead i), ∃ p, a = .runNode p ∧ s.prio p = i
  wait_node : ∀ q, ∀ a ∈ L (.wqHead q), ∃ p, a = .wqNode p
  run_off : ∀ p, ¬ Queued L p → s.mem.next (.runNode p) = some (.runNode p)
  bitmap : ∀ i, s.bitmap.getLsbD i = true ↔ i < schedPrioMax ∧ L (.runHead i) ≠ []
  total : s.total = ∑ i ∈ Finset.range schedPrioMax, (L (.runHead i)).length

/-- Nothing that concerns waiting has changed: not the wait queues, nor which process waits on which of
    them with which node, nor the links of a node that is on no queue. -/
structure SameWaits (s : Sched) (L : Addr → List Addr) (s' : Sched) (L' : Addr → List Addr) : Prop where
  waits : ∀ q, L' (.wqHead q) = L (.wqHead q)
  nodes : ∀ p, (∀ q, Addr.wqNode p ∉ L (.wqHead q)) → s'.mem.prev (.wqNode p) = s.mem.prev (.wqNode p)
  waiting : ∀ p, (s'.procs p).pc.waiting = (s.procs p).pc.waiting
  panicked : s'.panicked = s.panicked
  nnodes : s'.nnodes = s.nnodes
  unlinks : s'.unlinks = s.unlinks

theorem SameWaits.refl (s : Sched) (L : Addr → List Addr) : SameWaits s L s L :=
  ⟨fun _ => rfl, fun _ _ => rfl, fun _ => rfl, rfl, rfl, rfl⟩

theorem SameWaits.trans {s₁ s₂ s₃ : Sched} {L₁ L₂ L₃ : Addr → List Addr}
    (h : SameWaits s₁ L₁ s₂ L₂) (h' : SameWaits s₂ L₂ s₃ L₃) : SameWaits s₁ L₁ s₃ L₃ where
  waits q := (h'.waits q).trans (h.waits q)
  nodes p hp := (h'.nodes p fun q => by rw [h.waits q]; exact hp q).trans (h.nodes p hp)
  waiting p := (h'.waiting p).trans (h.waiting p)
  panicked := h'.panicked.trans h.panicked
  nnodes := h'.nnodes.trans h.nnodes
  unlinks := h'.unlinks.trans h.unlinks

/-! ## Fields that an update leaves alone

A record update changes one process and one field. The lemmas say so once, for the fields that the invariant reads.
-/

namespace Sched

variable (s : Sched) (p x : Pid)

@[simp] theorem setProc_self (f : Process → Process) : (s.setProc p f).procs p = f (s.procs p) := by
  simp [setProc]

theorem setProc_of_ne (f : Process → Process) {p x : Pid} (h : x ≠ p) :
    (s.setProc p f).procs x = s.procs x := by
  simp [setProc, h]

@[simp] theorem setProc_mem (f : Process → Process) : (s.setProc p f).mem = s.mem := rfl
@[simp] theorem setProc_nprocs (f : Process → Process) : (s.setProc p f).nprocs = s.nprocs := rfl
@[simp] theorem setProc_current (f : Process → Process) : (s.setProc p f).current = s.current := rfl
@[simp] theorem setProc_bitmap (f : Process → Process) : (s.setProc p f).bitmap = s.bitmap := rfl
@[simp] theorem setProc_total (f : Process → Process) : (s.setProc p f).total = s.total := rfl
@[simp] theorem setProc_panicked (f : Process → Process) : (s.setProc p f).panicked = s.panicked := rfl
@[simp] theorem setProc_nnodes (f : Process → Process) : (s.setProc p f).nnodes = s.nnodes := rfl
@[simp] theorem setProc_unlinks (f : Process → Process) : (s.setProc p f).unlinks = s.unlinks := rfl

theorem prio_lt : s.prio p < schedPrioMax := by
  unfold prio schedPrioMax
  by_cases hneg : (s.procs p).priority < 0
  · simp [hneg]
  · by_cases hbig : ((40 : Nat) : Int) ≤ (s.procs p).priority
    · simp only [hneg, hbig, if_true, if_false]
      omega
    · simp only [hneg, hbig, if_false]
      omega

/-- A field that the update keeps is unchanged for every process. -/
theorem setProc_field {β : Type} (g : Process → β) (f : Process → Process) (h : g (f (s.procs p)) = g (s.procs p)) :
    g ((s.setProc p f).procs x) = g (s.procs x) := by
  by_cases hx : x = p
  · subst hx; rw [setProc_self, h]
  · rw [setProc_of_ne s f hx]

end Sched

namespace QueueInv

variable {s : Sched} {L : Addr → List Addr} {p : Pid}

/-- The invariant reads the links, the bitmap, the counter and the priorities. -/
theorem congr {s' : Sched} (h : QueueInv s L) (hm : s'.mem = s.mem) (hb : s'.bitmap = s.bitmap)
    (ht : s'.total = s.total) (hp : ∀ p, (s'.procs p).priority = (s.procs p).priority) : QueueInv s' L where
  lists := by rw [hm]; exact h.lists
  run_node i hi a ha := by
    obtain ⟨p, rfl, hprio⟩ := h.run_node i hi a ha
    exact ⟨p, rfl, by rw [← hprio]; simp only [Sched.prio, hp]⟩
  wait_node := h.wait_node
  run_off p hq := by rw [hm]; exact h.run_off p hq
  bitmap i := by rw [hb]; exact h.bitmap i
  total := by rw [ht]; exact h.total

theorem setProc (h : QueueInv s L) (f : Process → Process)
    (hf : (f (s.procs p)).priority = (s.procs p).priority) : QueueInv (s.setProc p f) L :=
  h.congr rfl rfl rfl fun x => s.setProc_field p x (·.priority) f hf

theorem setState (h : QueueInv s L) (st : ProcState) : QueueInv (s.setState p st) L := h.setProc _ rfl

theorem setPc (h : QueueInv s L) (pc : Pc) : QueueInv (s.setPc p pc) L := h.setProc _ rfl

theorem setWaitChannel (h : QueueInv s L) (q : Option Wq) : QueueInv (s.setWaitChannel p q) L :=
  h.setProc _ rfl

/-- A run node is only ever on the queue of its own level. -/
theorem queued_iff (h : QueueInv s L) : Queued L p ↔ Addr.runNode p ∈ L (.runHead (s.prio p)) := by
  constructor
  · rintro ⟨i, hi, hm⟩
    obtain ⟨p', heq, hprio⟩ := h.run_node i hi _ hm
    cases heq
    rwa [hprio]
  · exact fun hm => ⟨s.prio p, s.prio_lt p, hm⟩

theorem runNode_not_mem (h : QueueInv s L) (hp : ¬ Queued L p) :
    ∀ a, IsHead a → Addr.runNode p ∉ L a := by
  intro a ha hm
  cases a with
  | wqHead q =>
      obtain ⟨p', heq⟩ := h.wait_node q _ hm
      cases heq
  | runHead i => exact hp ⟨i, ha, hm⟩
  | wqNode _ => exact ha
  | runNode _ => exact ha

theorem wqNode_not_mem (h : QueueInv s L) (hp : ∀ q, Addr.wqNode p ∉ L (.wqHead q)) :
    ∀ a, IsHead a → Addr.wqNode p ∉ L a := by
  intro a ha hm
  cases a with
  | wqHead q => exact hp q hm
  | runHead i =>
      obtain ⟨p', heq, -⟩ := h.run_node i ha _ hm
      cases heq
  | wqNode _ => exact ha
  | runNode _ => exact ha

/-- `run_list` is empty exactly off the run queues. -/
theorem isEmpty_runNode_iff (h : QueueInv s L) : s.mem.isEmpty (.runNode p) = true ↔ ¬ Queued L p := by
  unfold ListMem.isEmpty
  rw [decide_eq_true_iff]
  refine ⟨?_, h.run_off p⟩
  rintro hself ⟨i, hi, hm⟩
  have hhead : IsHead (.runHead i) := hi
  exact h.lists.next_ne_self hhead hm hself

end QueueInv

/-! ## Run queues

`runq_push`, `runq_pop_best` and `runq_remove`, each with what it does to the lists. The lowest bit of an exact bitmap
is the best level in use.
-/

theorem sum_length_update (L : Addr → List Addr) {i : Nat} (hi : i < schedPrioMax) (l : List Addr) :
    (∑ j ∈ Finset.range schedPrioMax, (Function.update L (.runHead i) l (.runHead j)).length)
      + (L (.runHead i)).length
    = (∑ j ∈ Finset.range schedPrioMax, (L (.runHead j)).length) + l.length := by
  have hmem : i ∈ Finset.range schedPrioMax := Finset.mem_range.mpr hi
  rw [← Finset.add_sum_erase _ _ hmem, ← Finset.add_sum_erase _ (fun j => (L (.runHead j)).length) hmem]
  have hrest : ∑ j ∈ (Finset.range schedPrioMax).erase i, (Function.update L (.runHead i) l (.runHead j)).length
      = ∑ j ∈ (Finset.range schedPrioMax).erase i, (L (.runHead j)).length := by
    refine Finset.sum_congr rfl fun j hj => ?_
    rw [Function.update_of_ne]
    rintro ⟨⟩
    exact Finset.ne_of_mem_erase hj rfl
  rw [hrest, Function.update_self]
  omega

namespace QueueInv

variable {s : Sched} {L : Addr → List Addr} {p : Pid}

/-- Who is queued after the queue of level `i` has become `l`. -/
theorem queued_update (h : QueueInv s L) {i : Nat} (hi : i < schedPrioMax) {l : List Addr}
    (hl : ∀ a ∈ l, ∃ p, a = Addr.runNode p ∧ s.prio p = i) (x : Pid) :
    Queued (Function.update L (.runHead i) l) x ↔
      if s.prio x = i then Addr.runNode x ∈ l else Queued L x := by
  have hother : ∀ j, j ≠ i → Function.update L (.runHead i) l (.runHead j) = L (.runHead j) := by
    intro j hj
    exact Function.update_of_ne (fun he => hj (Addr.runHead.inj he)) _ _
  split
  · rename_i hx
    constructor
    · rintro ⟨j, hj, hm⟩
      by_cases hji : j = i
      · subst hji; rwa [Function.update_self] at hm
      · rw [hother j hji] at hm
        obtain ⟨p', heq, hprio⟩ := h.run_node j hj _ hm
        cases heq
        exact absurd (hprio.symm.trans hx) hji
    · exact fun hm => ⟨i, hi, by rwa [Function.update_self]⟩
  · rename_i hx
    constructor
    · rintro ⟨j, hj, hm⟩
      by_cases hji : j = i
      · subst hji
        rw [Function.update_self] at hm
        obtain ⟨p', heq, hprio⟩ := hl _ hm
        cases heq
        exact absurd hprio hx
      · rw [hother j hji] at hm
        exact ⟨j, hj, hm⟩
    · rintro ⟨j, hj, hm⟩
      obtain ⟨p', heq, hprio⟩ := h.run_node j hj _ hm
      cases heq
      refine ⟨j, hj, ?_⟩
      rwa [hother j fun hji => hx (hprio.trans hji)]

/-- **A change of one run queue** keeps the invariant when bitmap and counter follow. -/
theorem update (h : QueueInv s L) {s' : Sched} {i : Nat} (hi : i < schedPrioMax) {l : List Addr}
    (hlists : Lists s'.mem IsHead (Function.update L (.runHead i) l))
    (hl : ∀ a ∈ l, ∃ p, a = Addr.runNode p ∧ s.prio p = i) (hprocs : s'.procs = s.procs)
    (hoff : ∀ p, (if s.prio p = i then Addr.runNode p ∉ l else ¬ Queued L p) →
      s'.mem.next (.runNode p) = some (.runNode p))
    (hbit : ∀ j, s'.bitmap.getLsbD j = if j = i then decide (l ≠ []) else s.bitmap.getLsbD j)
    (htotal : s'.total + (L (.runHead i)).length = s.total + l.length) :
    QueueInv s' (Function.update L (.runHead i) l) := by
  have hother : ∀ j, j ≠ i → Function.update L (.runHead i) l (.runHead j) = L (.runHead j) := by
    intro j hj
    exact Function.update_of_ne (fun he => hj (Addr.runHead.inj he)) _ _
  have hprio : ∀ p, s'.prio p = s.prio p := fun p => by simp only [Sched.prio, hprocs]
  refine ⟨hlists, ?_, ?_, ?_, ?_, ?_⟩
  · intro j hj a ha
    simp only [hprio]
    by_cases hji : j = i
    · subst hji; rw [Function.update_self] at ha; exact hl a ha
    · rw [hother j hji] at ha; exact h.run_node j hj a ha
  · intro q a ha
    rw [Function.update_of_ne (by simp)] at ha
    exact h.wait_node q a ha
  · intro p hp
    rw [h.queued_update hi hl] at hp
    exact hoff p (by split <;> simp_all)
  · intro j
    rw [hbit]
    by_cases hji : j = i
    · subst hji; simp [hi]
    · rw [if_neg hji, hother j hji]; exact h.bitmap j
  · have hsum := sum_length_update L hi l
    have hold := h.total
    omega

/-- The lists after `runq_push`. -/
def pushed (s : Sched) (L : Addr → List Addr) (p : Pid) : Addr → List Addr :=
  Function.update L (.runHead (s.prio p)) (L (.runHead (s.prio p)) ++ [.runNode p])

theorem appends_pushed (s : Sched) (L : Addr → List Addr) (p : Pid) : Appends L (pushed s L p) := by
  intro i
  unfold pushed
  by_cases hi : i = s.prio p
  · subst hi
    rw [Function.update_self]
    exact List.prefix_append _ _
  · rw [Function.update_of_ne (by simpa using hi)]

/-! ## `runq_push`

The process comes last in the queue of its priority.
-/

/-- **`runq_push`** of a process that is on no run queue puts it last in the queue of its priority. -/
theorem runqPush_last (h : QueueInv s L) (hp : ¬ Queued L p) :
    ∃ s', s.runqPush p = .ok s' ∧ QueueInv s' (pushed s L p) ∧ SameWaits s L s' (pushed s L p) ∧
      s'.procs = s.procs ∧ s'.nprocs = s.nprocs ∧ s'.current = s.current ∧
      ∀ x, Queued (pushed s L p) x ↔ Queued L x ∨ x = p := by
  have hi := s.prio_lt p
  have hhead : IsHead (.runHead (s.prio p)) := hi
  have hnode : ¬ IsHead (.runNode p) := id
  obtain ⟨m', hadd, hlists, hframe⟩ := h.lists.addTail hhead hnode (h.runNode_not_mem hp)
  have hl : ∀ a ∈ L (.runHead (s.prio p)) ++ [.runNode p], ∃ p', a = Addr.runNode p' ∧ s.prio p' = s.prio p := by
    intro a ha
    rcases List.mem_append.mp ha with ha | ha
    · exact h.run_node _ hi a ha
    · exact ⟨p, List.mem_singleton.mp ha, rfl⟩
  refine ⟨{ s with mem := m', bitmap := s.bitmap ||| BitVec.twoPow 64 (s.prio p), total := s.total + 1 },
    ?_, h.update hi hlists hl rfl ?_ ?_ ?_, ⟨?_, ?_, fun _ => rfl, rfl, rfl, rfl⟩, rfl, rfl, rfl, ?_⟩
  · simp only [Sched.runqPush, hadd, Sched.withMem]
    rfl
  · intro x hx
    -- who is still on no queue was on none before, and is not `p`
    have hxq : ¬ Queued L x ∧ x ≠ p := by
      split at hx
      · rename_i hxp
        rw [List.mem_append, not_or, List.mem_singleton, Addr.runNode.injEq] at hx
        exact ⟨by rw [h.queued_iff, hxp]; exact hx.1, hx.2⟩
      · rename_i hxp
        exact ⟨hx, fun he => hxp (he ▸ rfl)⟩
    have hfr := hframe (.runNode x) id (h.runNode_not_mem hxq.1) (by simp [hxq.2])
    rw [hfr.1]
    exact h.run_off x hxq.1
  · intro j
    -- the bit of the level is set, the others stay
    by_cases hj : j = s.prio p
    · subst hj
      have : s.prio p < 64 := lt_trans hi (by decide)
      simp [this]
    · simp [BitVec.getLsbD_twoPow, hj, Ne.symm hj]
  · simp only [List.length_append, List.length_singleton]
    omega
  · intro q
    exact Function.update_of_ne (by simp) _ _
  · intro x hx
    exact (hframe (.wqNode x) id (h.wqNode_not_mem hx) (by simp)).2
  · intro x
    rw [pushed, h.queued_update hi hl]
    by_cases hx : s.prio x = s.prio p
    · rw [if_pos hx, h.queued_iff, hx]; simp
    · have hne : x ≠ p := fun he => hx (he ▸ rfl)
      simp [hx, hne]

theorem runqPush (h : QueueInv s L) (hp : ¬ Queued L p) :
    ∃ s' L', s.runqPush p = .ok s' ∧ QueueInv s' L' ∧ SameWaits s L s' L' ∧
      s'.procs = s.procs ∧ s'.nprocs = s.nprocs ∧ s'.current = s.current ∧
      (∀ x, Queued L' x ↔ Queued L x ∨ x = p) ∧ Appends L L' := by
  obtain ⟨s', hcode, hinv, hsame, hprocs, hn, hc, hqueued⟩ := h.runqPush_last hp
  exact ⟨s', _, hcode, hinv, hsame, hprocs, hn, hc, hqueued, appends_pushed s L p⟩

theorem levels_nil (h : QueueInv s L) (ht : s.total = 0) : ∀ i < schedPrioMax, L (.runHead i) = [] := by
  intro i hi
  have hsum := h.total
  rw [ht, eq_comm, Finset.sum_eq_zero_iff] at hsum
  exact List.length_eq_zero_iff.mp (hsum i (Finset.mem_range.mpr hi))

/-! ## `runq_pop_best` and `runq_remove`

Both unlink a run node, clear the bit of a level that has become empty and count down. They differ in how the node is
found.
-/

/-- With the bitmap exact, its lowest bit is the lowest level in use. -/
theorem exists_ctz (h : QueueInv s L) (ht : s.total ≠ 0) :
    ∃ i, (BitVec.ctz s.bitmap).toNat = i ∧ i < schedPrioMax ∧ L (.runHead i) ≠ [] ∧
      ∀ j < i, L (.runHead j) = [] := by
  have hne : s.bitmap ≠ 0#64 := by
    intro h0
    apply ht
    rw [h.total]
    refine Finset.sum_eq_zero fun i hi => ?_
    have hb := h.bitmap i
    rw [h0] at hb
    by_contra hlen
    have : L (.runHead i) ≠ [] := fun he => hlen (by rw [he]; rfl)
    simpa using hb.mpr ⟨Finset.mem_range.mp hi, this⟩
  obtain ⟨hlt, hused⟩ := (h.bitmap _).mp (BitVec.getLsbD_true_ctz_of_ne_zero hne)
  refine ⟨_, rfl, hlt, hused, fun j hj => ?_⟩
  have hclear := BitVec.getLsbD_false_of_lt_ctz hj
  by_contra hjne
  rw [(h.bitmap j).mpr ⟨lt_trans hj hlt, hjne⟩] at hclear
  cases hclear

theorem isEmpty_head_iff (h : QueueInv s L) {a : Addr} (ha : IsHead a) :
    s.mem.isEmpty a = true ↔ L a = [] := by
  unfold ListMem.isEmpty
  rw [decide_eq_true_iff]
  exact h.lists.next_eq_self_iff ha

/-- Taking the node of `p` off its run queue and making it a ring of its own: the common part of
    `runq_pop_best` and `runq_remove`. -/
theorem delRun (h : QueueInv s L) {i : Nat} (hi : i < schedPrioMax) {xs ys : List Addr}
    (hL : L (.runHead i) = xs ++ .runNode p :: ys) :
    ∃ m' : ListMem Addr, s.mem.del (.runNode p) = some m' ∧
      Lists (m'.init (.runNode p)) IsHead (Function.update L (.runHead i) (xs ++ ys)) ∧
      (∀ x, x ≠ p → ¬ Queued L x → m'.next (.runNode x) = some (.runNode x)) ∧
      ∀ x, (∀ q, Addr.wqNode x ∉ L (.wqHead q)) → m'.prev (.wqNode x) = s.mem.prev (.wqNode x) := by
  have hhead : IsHead (.runHead i) := hi
  obtain ⟨m', hdel, hlists, -, -, hframe⟩ := h.lists.del hhead hL
  have hnd := h.lists.nodup _ hhead
  rw [hL, List.nodup_middle, List.nodup_cons] at hnd
  refine ⟨m', hdel, hlists.congr fun a ha => ?_, ?_, ?_⟩
  · -- the node itself is on no list any more
    have hne : a ≠ .runNode p := by
      rintro rfl
      rcases ha with ha | ⟨b, hb, hm⟩
      · exact ha
      · by_cases hbi : b = .runHead i
        · subst hbi
          rw [Function.update_self] at hm
          exact hnd.1 hm
        · rw [Function.update_of_ne hbi] at hm
          exact h.lists.disjoint _ hhead b hb (Ne.symm hbi) (.runNode p) (by rw [hL]; simp) hm
    simp [hne]
  · intro x hx hq
    rw [(hframe (.runNode x) id (h.runNode_not_mem hq)).1]
    exact h.run_off x hq
  · intro x hx
    exact (hframe (.wqNode x) id (h.wqNode_not_mem hx)).2

/-- **One process less on a run queue**: the list operations, the bitmap and the counter of `runq_pop_best` and
    `runq_remove` together. -/
theorem takeOff (h : QueueInv s L) {i : Nat} (hi : i < schedPrioMax) {xs ys : List Addr}
    (hL : L (.runHead i) = xs ++ .runNode p :: ys) :
    ∃ m' s', s.mem.del (.runNode p) = some m' ∧ s' =
        { (({ s with mem := m'.init (.runNode p) } : Sched).clearIfEmpty i) with total := s.total - 1 } ∧
      QueueInv s' (Function.update L (.runHead i) (xs ++ ys)) ∧
      SameWaits s L s' (Function.update L (.runHead i) (xs ++ ys)) ∧
      s'.procs = s.procs ∧ s'.nprocs = s.nprocs ∧ s'.current = s.current ∧
      ∀ x, Queued (Function.update L (.runHead i) (xs ++ ys)) x ↔ Queued L x ∧ x ≠ p := by
  have hhead : IsHead (.runHead i) := hi
  have hi64 : i < 64 := lt_trans hi (by decide)
  obtain ⟨m', hdel, hlists, hoff, hnodes⟩ := h.delRun hi hL
  obtain ⟨p', hp', hprio⟩ := h.run_node i hi (.runNode p) (by rw [hL]; simp)
  cases hp'
  have hl : ∀ a ∈ xs ++ ys, ∃ p', a = Addr.runNode p' ∧ s.prio p' = i := fun a ha =>
    h.run_node i hi a (by rw [hL]; exact List.mem_append.mpr ((List.mem_append.mp ha).imp id (List.mem_cons_of_mem _)))
  -- the level is empty if the process was the only one on it
  have hempty : (m'.init (.runNode p)).isEmpty (.runHead i) = decide (xs ++ ys = []) := by
    unfold ListMem.isEmpty
    rw [decide_eq_decide, hlists.next_eq_self_iff hhead, Function.update_self]
  have hused : s.bitmap.getLsbD i = true := (h.bitmap i).mpr ⟨hi, by rw [hL]; simp⟩
  have hclear : ({ s with mem := m'.init (.runNode p) } : Sched).clearIfEmpty i =
      { s with
        mem := m'.init (.runNode p)
        bitmap := if xs ++ ys = [] then s.bitmap &&& ~~~(BitVec.twoPow 64 i) else s.bitmap } := by
    rw [Sched.clearIfEmpty]
    simp only [hempty, decide_eq_true_eq]
    split <;> rfl
  refine ⟨m', _, hdel, rfl, ?_⟩
  rw [hclear]
  refine ⟨h.update hi hlists hl rfl ?_ ?_ ?_, ⟨?_, ?_, fun _ => rfl, rfl, rfl, rfl⟩, rfl, rfl, rfl, ?_⟩
  · intro x hx
    -- the nodes that are on no list have no links to look at
    by_cases hxp : x = p
    · subst hxp; simp
    · have hxq : ¬ Queued L x := by
        split at hx
        · rename_i hpx
          rw [h.queued_iff, hpx, hL]
          simpa [hxp] using hx
        · exact hx
      simpa [hxp] using hoff x hxp hxq
  · intro j
    -- the bitmap: the bit of the level goes if nobody is left
    by_cases hji : j = i
    · subst hji
      by_cases hnil : xs ++ ys = []
      · simp [hnil, hi64]
      · simp [hnil, hused]
    · by_cases hnil : xs ++ ys = []
      · by_cases hj64 : j < 64
        · simp [hnil, hji, hj64]
        · simp [hnil, hji, BitVec.getLsbD_of_ge _ _ (Nat.not_lt.mp hj64)]
      · simp [hnil, hji]
  · -- the total: it was not 0, since somebody was queued
    have hpos : s.total ≠ 0 := by
      intro h0
      have hnil := h.levels_nil h0 i hi
      rw [hL] at hnil
      simp at hnil
    simp only [hL, List.length_append, List.length_cons]
    omega
  · intro q
    exact Function.update_of_ne (by simp) _ _
  · intro x hx
    simpa using hnodes x hx
  · intro x
    -- queued are all but the process, which was on its level once
    have hnd := h.lists.nodup _ hhead
    rw [hL, List.nodup_middle, List.nodup_cons] at hnd
    rw [h.queued_update hi hl, h.queued_iff]
    by_cases hxi : s.prio x = i
    · rw [if_pos hxi, hxi, hL]
      by_cases hxp : x = p
      · subst hxp; simpa using hnd.1
      · simp [hxp]
    · have hxp : x ≠ p := fun he => hxi (he ▸ hprio)
      simp [hxi, hxp]

/-- **`runq_pop_best`** finds nothing queued, or takes the first process off the lowest level in use. -/
theorem runqPopBest_first (h : QueueInv s L) :
    (s.runqPopBest = .ok (none, s) ∧ ∀ i < schedPrioMax, L (.runHead i) = []) ∨
    ∃ p i ys s', s.runqPopBest = .ok (some p, s') ∧ i < schedPrioMax ∧ (∀ j < i, L (.runHead j) = []) ∧
      L (.runHead i) = .runNode p :: ys ∧ QueueInv s' (Function.update L (.runHead i) ys) ∧
      SameWaits s L s' (Function.update L (.runHead i) ys) ∧
      s'.procs = s.procs ∧ s'.nprocs = s.nprocs ∧ s'.current = s.current ∧
      ∀ x, Queued (Function.update L (.runHead i) ys) x ↔ Queued L x ∧ x ≠ p := by
  by_cases ht : s.total = 0
  · exact Or.inl ⟨by simp [Sched.runqPopBest, ht], h.levels_nil ht⟩
  · obtain ⟨i, hctz, hi, hne, hlow⟩ := h.exists_ctz ht
    have hhead : IsHead (.runHead i) := hi
    obtain ⟨a, ys, hL⟩ := List.exists_cons_of_ne_nil hne
    obtain ⟨p, rfl, hprio⟩ := h.run_node i hi a (by rw [hL]; simp)
    have hL₀ : L (.runHead i) = [] ++ .runNode p :: ys := hL
    obtain ⟨m', s', hdel, hs', hrest⟩ := h.takeOff hi hL₀
    refine Or.inr ⟨p, i, ys, s', ?_, hi, hlow, hL, hrest⟩
    have hnext : s.mem.next (.runHead i) = some (.runNode p) := h.lists.next_eq_head hhead hL
    have hne' : s.mem.isEmpty (.runHead i) = false := by simp [ListMem.isEmpty, hnext]
    have hlt : ¬ schedPrioMax ≤ i := Nat.not_le.mpr hi
    have htotal : ∀ t : Sched, (t.clearIfEmpty i).total = t.total := by
      intro t
      rw [Sched.clearIfEmpty]
      split <;> rfl
    simp only [Sched.runqPopBest, ht, if_false, hctz, hlt, hne', Bool.false_eq_true, hnext, hdel, Sched.withMem, hs',
      bind, Except.bind, pure, Except.pure, htotal]

/-- **`runq_pop_best`** takes some queued process off, or finds none. -/
theorem runqPopBest (h : QueueInv s L) :
    ∃ r s' L', s.runqPopBest = .ok (r, s') ∧ QueueInv s' L' ∧ SameWaits s L s' L' ∧
      s'.procs = s.procs ∧ s'.nprocs = s.nprocs ∧ s'.current = s.current ∧
      (∀ x, Queued L' x ↔ Queued L x ∧ r ≠ some x) ∧
      ((r = none ∧ ∀ x, ¬ Queued L x) ∨ ∃ p, r = some p ∧ Queued L p) ∧
      ∀ i p ys, BestFirst L i p ys → r = some p ∧ L' = Function.update L (.runHead i) ys := by
  rcases h.runqPopBest_first with ⟨hcode, hnil⟩ | ⟨p, i, ys, s', hcode, hi, hlow, hL, hq, hw, hp, hn, hc, hx⟩
  · have hnone : ∀ x, ¬ Queued L x := by
      rintro x ⟨i, hi, hm⟩
      rw [hnil i hi] at hm
      cases hm
    refine ⟨none, s, L, hcode, h, .refl s L, rfl, rfl, rfl, ?_, Or.inl ⟨rfl, hnone⟩, fun i p ys hbest => ?_⟩
    · simp [hnone]
    · exact absurd (hbest.queue.symm.trans (hnil i hbest.level)) (List.cons_ne_nil _ _)
  · refine ⟨some p, s', _, hcode, hq, hw, hp, hn, hc, fun x => ?_, Or.inr ⟨p, rfl, i, hi, by rw [hL]; simp⟩,
      fun j r zs hbest => ?_⟩
    · rw [hx, ne_eq, ne_eq, Option.some.injEq, eq_comm]
    · obtain ⟨rfl, rfl, rfl⟩ := hbest.unique ⟨hi, hlow, hL⟩
      exact ⟨rfl, rfl⟩

/-- **`runq_remove`** of a process on no run queue does nothing. -/
theorem runqRemove_off (h : QueueInv s L) (hp : ¬ Queued L p) : s.runqRemove p = .ok s := by
  have hempty := h.isEmpty_runNode_iff.mpr hp
  simp [Sched.runqRemove, hempty, pure, Except.pure]

/-- **`runq_remove`** of a queued process, of a priority there is a level for. -/
theorem runqRemove (h : QueueInv s L) {xs ys : List Addr} (h0 : 0 ≤ (s.procs p).priority)
    (hmax : (s.procs p).priority < (schedPrioMax : Int)) (hL : L (.runHead (s.prio p)) = xs ++ .runNode p :: ys) :
    ∃ s', s.runqRemove p = .ok s' ∧ QueueInv s' (Function.update L (.runHead (s.prio p)) (xs ++ ys)) ∧
      s'.procs = s.procs ∧
      ∀ x, Queued (Function.update L (.runHead (s.prio p)) (xs ++ ys)) x ↔ Queued L x ∧ x ≠ p := by
  have hqp : Queued L p := h.queued_iff.mpr (by rw [hL]; simp)
  obtain ⟨m', s', hdel, hs', hq, -, hprocs, -, -, hx⟩ := h.takeOff (s.prio_lt p) hL
  have hempty : s.mem.isEmpty (.runNode p) = false := by
    rw [← Bool.not_eq_true, h.isEmpty_runNode_iff]
    exact not_not_intro hqp
  have hprio : s.prio p = (s.procs p).priority.toNat := by
    rw [Sched.prio, if_neg (by omega), if_neg (by omega)]
  refine ⟨s', ?_, hq, hprocs, hx⟩
  have hcomm : ∀ (t : Sched) (i n : Nat), ({ t with total := n } : Sched).clearIfEmpty i =
      { (t.clearIfEmpty i) with total := n } := by
    intro t i n
    rw [Sched.clearIfEmpty, Sched.clearIfEmpty]
    split <;> rfl
  simp only [Sched.runqRemove, hempty, Bool.false_eq_true, if_false, hdel, Sched.withMem, bind, Except.bind, pure,
    Except.pure]
  rw [if_pos ⟨h0, hmax⟩, hs', ← hcomm, hprio]

/-! ## Wait queues

A node is put at the end of its queue, and is unlinked wherever it is.
-/

/-- **A change of one wait queue** keeps the invariant. -/
theorem updateWait (h : QueueInv s L) {m' : ListMem Addr} {q : Wq} {l : List Addr}
    (hlists : Lists m' IsHead (Function.update L (.wqHead q) l)) (hl : ∀ a ∈ l, ∃ p, a = Addr.wqNode p)
    (hoff : ∀ p, ¬ Queued L p → m'.next (.runNode p) = some (.runNode p)) :
    QueueInv { s with mem := m' } (Function.update L (.wqHead q) l) where
  lists := hlists
  run_node i hi a ha := by
    rw [Function.update_of_ne (by simp)] at ha
    exact h.run_node i hi a ha
  wait_node q' a ha := by
    by_cases hq : q' = q
    · subst hq; rw [Function.update_self] at ha; exact hl a ha
    · rw [Function.update_of_ne (by simpa using hq)] at ha
      exact h.wait_node q' a ha
  run_off p hp := hoff p fun ⟨i, hi, hm⟩ => hp ⟨i, hi, by rwa [Function.update_of_ne (by simp)]⟩
  bitmap i := by rw [Function.update_of_ne (by simp)]; exact h.bitmap i
  total := by
    rw [show s.total = _ from h.total]
    exact Finset.sum_congr rfl fun i _ => by rw [Function.update_of_ne (by simp)]

/-- **`list_del` of a linked wait-queue node.** -/
theorem delNode (h : QueueInv s L) {q : Wq} {xs ys : List Addr} (k : Nat)
    (hL : L (.wqHead q) = xs ++ .wqNode p :: ys) (hlen : (L (.wqHead q)).length ≤ s.nprocs) :
    ∃ m' : ListMem Addr,
      s.delNode p q k = .ok { s with mem := m', unlinks := s.unlinks ++ [⟨k, true⟩] } ∧
      QueueInv { s with mem := m', unlinks := s.unlinks ++ [⟨k, true⟩] }
        (Function.update L (.wqHead q) (xs ++ ys)) ∧
      m'.prev (.wqNode p) = none ∧
      ∀ x, (∀ q, Addr.wqNode x ∉ L (.wqHead q)) → m'.prev (.wqNode x) = s.mem.prev (.wqNode x) := by
  have hhead : IsHead (.wqHead q) := trivial
  obtain ⟨m', hdel, hlists, -, hprev, hframe⟩ := h.lists.del hhead hL
  have hlinked : Addr.wqNode p ∈ s.mem.traverse (.wqHead q) s.nprocs := by
    rw [h.lists.traverse_eq hhead, List.take_of_length_le hlen, hL]
    simp
  have hl : ∀ a ∈ xs ++ ys, ∃ p, a = Addr.wqNode p := by
    intro a ha
    refine h.wait_node q a ?_
    rw [hL]
    rcases List.mem_append.mp ha with ha | ha
    · exact List.mem_append_left _ ha
    · exact List.mem_append_right _ (List.mem_cons_of_mem _ ha)
  refine ⟨m', ?_, ?_, hprev, ?_⟩
  · simp [Sched.delNode, hlinked, Sched.withMem, hdel]
  · refine (h.updateWait hlists hl fun x hx => ?_).congr rfl rfl rfl fun _ => rfl
    rw [(hframe (.runNode x) id (h.runNode_not_mem hx)).1]
    exact h.run_off x hx
  · intro x hx
    exact (hframe (.wqNode x) id (h.wqNode_not_mem hx)).2

/-- The node a wait queue's head points at is on that queue. -/
theorem mem_of_next (h : QueueInv s L) {q : Wq} (hx : s.mem.next (.wqHead q) = some (.wqNode p)) :
    Addr.wqNode p ∈ L (.wqHead q) := by
  have hhead : IsHead (.wqHead q) := trivial
  cases hL : L (.wqHead q) with
  | nil =>
      have hself := (h.lists.next_eq_self_iff hhead).mpr hL
      rw [hx] at hself
      cases hself
  | cons a l =>
      have ha := h.lists.next_eq_head hhead hL
      rw [hx, Option.some.injEq] at ha
      rw [← ha]; exact List.mem_cons_self

/-- The number of turns of the loop of `wq_wake_all` is bounded by the number of waiters. -/
theorem length_wait_le (h : QueueInv s L) {q : Wq} {n : Nat}
    (hlt : ∀ p, Addr.wqNode p ∈ L (.wqHead q) → p < n) : (L (.wqHead q)).length ≤ n := by
  have hsub : L (.wqHead q) ⊆ (List.range n).map Addr.wqNode := by
    intro a ha
    obtain ⟨p, rfl⟩ := h.wait_node q a ha
    exact List.mem_map_of_mem (List.mem_range.mpr (hlt p ha))
  have hle := (h.lists.nodup (.wqHead q) trivial).length_le_of_subset hsub
  simpa using hle

/-- **The list half of `wq_wait`**: a process that is on no wait queue appends its node to `q`. -/
theorem enqueue (h : QueueInv s L) {q : Wq} (pc : Pc) (hcur : ∀ q, Addr.wqNode s.current ∉ L (.wqHead q)) :
    ∃ m' : ListMem Addr,
      s.enqueue q pc = .ok (({ s with mem := m', nnodes := s.nnodes + 1 }.setState s.current .sleeping).setPc
        s.current pc) ∧
      QueueInv { s with mem := m', nnodes := s.nnodes + 1 }
        (Function.update L (.wqHead q) (L (.wqHead q) ++ [.wqNode s.current])) ∧
      ∀ x, x ≠ s.current → (∀ q, Addr.wqNode x ∉ L (.wqHead q)) →
        m'.prev (.wqNode x) = s.mem.prev (.wqNode x) := by
  have hhead : IsHead (.wqHead q) := trivial
  have hnode : ¬ IsHead (.wqNode s.current) := id
  have hinit : Lists (s.mem.init (.wqNode s.current)) IsHead L := by
    refine h.lists.congr fun a ha => ?_
    have hne : a ≠ .wqNode s.current := by
      rintro rfl
      rcases ha with ha | ⟨b, hb, hm⟩
      · exact ha
      · exact h.wqNode_not_mem hcur b hb hm
    simp [hne]
  obtain ⟨m', hadd, hlists, hframe⟩ := hinit.addTail hhead hnode (h.wqNode_not_mem hcur)
  refine ⟨m', ?_, (h.updateWait hlists ?_ ?_).congr rfl rfl rfl fun _ => rfl, ?_⟩
  · simp [Sched.enqueue, Sched.withMem, hadd, bind, Except.bind, pure, Except.pure]
  · intro a ha
    rcases List.mem_append.mp ha with ha | ha
    · exact h.wait_node q a ha
    · exact ⟨s.current, List.mem_singleton.mp ha⟩
  · intro x hx
    rw [(hframe (.runNode x) id (h.runNode_not_mem hx) (by simp)).1]
    simpa using h.run_off x hx
  · intro x hx hxq
    rw [(hframe (.wqNode x) id (h.wqNode_not_mem hxq) (by simpa using hx)).2]
    simp [hx]

end QueueInv

end MyUnix.Proc
