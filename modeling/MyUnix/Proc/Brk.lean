import MyUnix.Mm.TableCount
import MyUnix.Mm.UserRanges

/-!
# `Proc.Brk` — `sys_brk`

The break moves page by page. Growth takes a frame for each page and maps it; when there is none, the call gives up and
returns the old break, but what was mapped up to then stays. That `vmm_map` found no frame for a table goes unnoticed.
So a call that fails leaves everything as it was only if it fails at the first page. Whether that happens is a matter
of how many frames are free and how many tables are missing.

The condition is exact and counts frames: `k` pages cost `k` frames and the tables on the way to them, and the loop
stops at the first page without a frame. A table that is missing for the last page is not noticed, since what
`vmm_map` returns is not looked at; so the last page costs one frame and the tables of all pages before it.

The page tables are followed with `Mm.Handed` and the counting is that of `Mm.TableCount`.
-/

namespace MyUnix.Proc

open Lib Mm PageAlloc

/-- What `brk` and `mmap` use of a process. -/
structure UserMem (σ : Type) where
  vm       : Vm σ
  pml4     : Nat
  vmas     : List Vma
  brk      : Nat
  brkStart : Nat
  brk_mod  : brk % pageSize = 0
  brk_lt   : brk < 2 ^ 64

variable {σ : Type} [PageAlloc σ]

/-- The loop that grows, with `n` pages to go: whether there was a frame for each page. -/
def growBrk (pml4 : Nat) : Nat → Nat → Vm σ → Bool × Vm σ
  | 0,     _, vm => (true, vm)
  | n + 1, p, vm =>
    let (phys, vm) := vm.alloc
    if phys = 0 then (false, vm)
    else growBrk pml4 n (p + pageSize) (vm.vmmMap pml4 p phys vmmUserRw).2

/-- The loop that shrinks; `none` is the panic of `pmm_free`. -/
def shrinkBrk (pml4 p n : Nat) (vm : Vm σ) : Option (Vm σ) :=
  (List.range n).foldlM (fun vm i => vm.dropPage pml4 (p + i * pageSize)) vm

namespace UserMem

variable (u : UserMem σ)

/-- The end of `sys_brk`. -/
def setBrk (vm : Vm σ) (newBrk : Nat) : UserMem σ :=
  { u with vm, brk := alignUp newBrk, brk_mod := alignUp_mod _, brk_lt := alignUp_lt _ }

/-- `sys_brk`: what it returns, which is also the break that it leaves. -/
def sysBrk (newBrk : Nat) : Option (Nat × UserMem σ) :=
  if newBrk = 0 then some (u.brk, u)
  else if u.brk < alignUp newBrk then
    match growBrk u.pml4 ((alignUp newBrk - u.brk) / pageSize) u.brk u.vm with
    | (false, vm) => some (u.brk, { u with vm })
    | (true, vm)  => some (alignUp newBrk, u.setBrk vm newBrk)
  else if alignUp newBrk < u.brk then
    (shrinkBrk u.pml4 (alignUp newBrk) ((u.brk - alignUp newBrk) / pageSize) u.vm).map fun vm =>
      (alignUp newBrk, u.setBrk vm newBrk)
  else some (alignUp newBrk, u.setBrk u.vm newBrk)

end UserMem

/-! ## A call that fails

What "as before" asks for, and for how many frames. The tables that a call leaves behind are no translation, so they
do not count against it.
-/

/-- Every address is translated as before, and what is free no more is a table. -/
structure AsBefore (vm vm' : Vm σ) (pml4 : Nat) : Prop where
  same {va} : Canonical va → vmmVirtToPhys vm'.mem pml4 va = vmmVirtToPhys vm.mem pml4 va
  free {f} : Free vm'.pmm f → Free vm.pmm f
  taken {f} : Free vm.pmm f → ¬Free vm'.pmm f → ∃ q, IsUser q ∧ tableAt vm'.mem pml4 q = some f

/-- The call does not grow, or finds no frame at all, or finds one for each page and each table but those of the last
    page. -/
def BrkFits (u : UserMem σ) (newBrk : Nat) : Prop :=
  newBrk = 0 ∨ alignUp newBrk ≤ u.brk ∨ (∀ f, ¬Free u.vm.pmm f) ∨
    Room ((alignUp newBrk - u.brk) / pageSize +
      (newTables u.vm.mem u.pml4 u.brk ((alignUp newBrk - u.brk) / pageSize - 1)).length) u.vm.pmm

section

variable {vm₀ vm : Vm σ} {pml4 virt : Nat} {taken : List Nat}

/-- The tables for the first `i` pages. -/
def WayToPages (virt i : Nat) (q : List Nat) : Prop := ∃ j < i, q ∈ wayTo (virt + j * pageSize)

/-! ## The loop that grows

One page, and then the pages of the loop by induction on those that are left. The state in between is that of
`Mm.Handed` with as many pages handed out as rounds were made.
-/

/-- One page of the growth. -/
theorem growPage {i : Nat} (hv : virt % pageSize = 0) (s : Spent vm₀ vm pml4 (WayToPages virt i) taken)
    (h0 : vm.alloc.1 ≠ 0) :
    Spent vm vm.alloc.2 pml4 (fun _ => False) [vm.alloc.1] ∧
    Spent vm₀ (vm.alloc.2.vmmMap pml4 (virt + i * pageSize) vm.alloc.1 vmmUserRw).2 pml4 (WayToPages virt (i + 1))
      (vm.alloc.1 :: taken) ∧
    ((∀ j < i, ∀ q ∈ wayTo (virt + j * pageSize), vacant vm.mem pml4 q = false) →
      (∀ f, ¬Free (vm.alloc.2.vmmMap pml4 (virt + i * pageSize) vm.alloc.1 vmmUserRw).2.pmm f) ∨
      ∀ j < i + 1, ∀ q ∈ wayTo (virt + j * pageSize),
        vacant (vm.alloc.2.vmmMap pml4 (virt + i * pageSize) vm.alloc.1 vmmUserRw).2.mem pml4 q = false) := by
  obtain ⟨-, hfree, -, -⟩ := alloc_frame vm h0
  obtain ⟨-, hal, -⟩ := managed_spec (managed_of_free hfree)
  have hpage : (virt + i * pageSize) % pageSize = 0 := by rw [Nat.add_mul_mod_self_right, hv]
  have sa := Spent.alloc s.tree h0
  obtain ⟨sm, hfilled⟩ := vmmMap_spent sa.tree hpage hal vmmUserRw
  refine ⟨sa, ((s.trans sa).trans sm).mono ?_, fun hdone => hfilled.imp id fun hnew j hj q hq => ?_⟩
  · rintro q ((⟨j, hj, hq⟩ | hq) | hq)
    · exact ⟨j, Nat.lt_succ_of_lt hj, hq⟩
    · exact hq.elim
    · exact ⟨i, Nat.lt_succ_self i, hq⟩
  · rcases Nat.lt_succ_iff_lt_or_eq.1 hj with hj | rfl
    · rw [← Bool.not_eq_true]
      intro hvac
      have hold := (sa.trans sm).back (isPath_way hq) hvac
      rw [hdone j hj q hq] at hold
      cases hold
    · exact hnew q hq

/-- Whether there is a frame for page `i`. -/
theorem growFirst (h₀ : SpaceTree vm₀ pml4) {i : Nat} (s : Spent vm₀ vm pml4 (WayToPages virt i) taken)
    (hlen : taken.length = i)
    (hdone : (∀ f, ¬Free vm.pmm f) ∨ ∀ j < i, ∀ q ∈ wayTo (virt + j * pageSize), vacant vm.mem pml4 q = false) :
    (vm.alloc.1 = 0 → ¬Room (i + 1 + (newTables vm₀.mem pml4 virt i).length) vm₀.pmm) ∧
    (vm.alloc.1 ≠ 0 → Room (i + 1 + (newTables vm₀.mem pml4 virt i).length) vm₀.pmm) := by
  constructor
  · intro h0 hroom
    have hfull : ∀ f, ¬Free vm.pmm f := alloc_full (s := vm.pmm) h0
    refine s.full h₀ hfull (V := newTables vm₀.mem pml4 virt i) (fun q hw hvac => mem_newTables.2 ⟨hw, hvac⟩)
      (hroom.mono ?_)
    omega
  · intro h0
    have hprev := hdone.resolve_left fun hfull => hfull _ (alloc_frame vm h0).2.1
    have sa := Spent.alloc s.tree h0
    have hroom := (s.trans sa).room (V := newTables vm₀.mem pml4 virt i) (newTables_nodup virt i) fun q hq => by
      obtain ⟨⟨j, hj, hway⟩, hvac⟩ := mem_newTables.1 hq
      refine ⟨isPath_way hway, hvac, ?_⟩
      rw [← Bool.not_eq_true]
      intro hvac'
      have hold := sa.back (isPath_way hway) hvac'
      rw [hprev j hj q hway] at hold
      cases hold
    rwa [List.singleton_append, List.length_cons, hlen] at hroom

/-- **Growth finds a frame for each page** exactly when there are enough, also for the tables of all pages but the
    last. -/
theorem growBrk_iff (h₀ : SpaceTree vm₀ pml4) (hv : virt % pageSize = 0) (k : Nat) : ∀ {vm : Vm σ} {i : Nat} {taken : List Nat},
    Spent vm₀ vm pml4 (WayToPages virt i) taken → taken.length = i →
    ((∀ f, ¬Free vm.pmm f) ∨ ∀ j < i, ∀ q ∈ wayTo (virt + j * pageSize), vacant vm.mem pml4 q = false) →
    ((growBrk pml4 (k + 1) (virt + i * pageSize) vm).1 = true ↔
      Room (i + k + 1 + (newTables vm₀.mem pml4 virt (i + k)).length) vm₀.pmm) := by
  induction k with
  | zero =>
    intro vm i taken s hlen hdone
    obtain ⟨hno, hyes⟩ := growFirst h₀ s hlen hdone
    rw [growBrk, Nat.add_zero]
    by_cases h0 : vm.alloc.1 = 0
    · simp only [if_pos h0]
      exact iff_of_false nofun (hno h0)
    · simp only [if_neg h0]
      exact iff_of_true rfl (hyes h0)
  | succ k ih =>
    intro vm i taken s hlen hdone
    rw [growBrk]
    by_cases h0 : vm.alloc.1 = 0
    · simp only [if_pos h0]
      refine iff_of_false nofun fun hroom => (growFirst h₀ s hlen hdone).1 h0 (hroom.mono ?_)
      have hmono := @newTables_mono vm₀.mem pml4 virt i (i + (k + 1)) (Nat.le_add_right _ _)
      omega
    · simp only [if_neg h0]
      obtain ⟨-, s', hdone'⟩ := growPage hv s h0
      have hprev : ∀ j < i, ∀ q ∈ wayTo (virt + j * pageSize), vacant vm.mem pml4 q = false :=
        hdone.resolve_left fun hfull => hfull _ (alloc_frame vm h0).2.1
      have hih := ih s' (by rw [List.length_cons, hlen]) (hdone' hprev)
      rw [Nat.add_assoc virt, ← Nat.succ_mul, hih, show i + 1 + k = i + (k + 1) by omega]

theorem growBrk_spent (hv : virt % pageSize = 0) (k : Nat) : ∀ {vm : Vm σ} {i : Nat} {taken : List Nat},
    Spent vm₀ vm pml4 (WayToPages virt i) taken →
    ∃ W taken', Spent vm₀ (growBrk pml4 k (virt + i * pageSize) vm).2 pml4 W taken' ∧ ∀ f ∈ taken, f ∈ taken' := by
  induction k with
  | zero => exact fun s => ⟨_, _, s, fun _ => id⟩
  | succ k ih =>
    intro vm i taken s
    rw [growBrk]
    by_cases h0 : vm.alloc.1 = 0
    · simp only [if_pos h0]
      obtain ⟨hmem, hfree, -⟩ := alloc_zero vm h0
      have hsame : SameTables vm.mem vm.alloc.2.mem pml4 := fun _ _ _ _ => by rw [hmem]
      exact ⟨_, _, s.trans (Spent.of_same s.tree hsame hfree), fun _ => id⟩
    · simp only [if_neg h0]
      obtain ⟨-, s', -⟩ := growPage hv s h0
      rw [Nat.add_assoc virt, ← Nat.succ_mul]
      obtain ⟨W, taken', hs, hsub⟩ := ih s'
      exact ⟨W, taken', hs, fun f hf => hsub f (List.mem_cons_of_mem _ hf)⟩

/-- Growth that finds a first frame and fails later keeps that frame. -/
theorem growBrk_keeps (h₀ : SpaceTree vm₀ pml4) (hv : virt % pageSize = 0) (k : Nat) (h0 : vm₀.alloc.1 ≠ 0) :
    ¬AsBefore vm₀ (growBrk pml4 (k + 1) virt vm₀).2 pml4 := by
  intro hsame
  have s := Spent.refl h₀ (WayToPages virt 0)
  obtain ⟨-, s', -⟩ := growPage hv s h0
  obtain ⟨W, taken, hs, hsub⟩ := growBrk_spent hv k s'
  obtain ⟨hwas, hnot, hun⟩ := hs.held (hsub _ List.mem_cons_self)
  rw [growBrk] at hsame
  simp only [if_neg h0] at hsame
  rw [Nat.zero_mul, Nat.zero_add, Nat.one_mul, Nat.add_zero] at hnot hun
  obtain ⟨q, hq, ht⟩ := hsame.taken hwas hnot
  exact hun q hq.1 ht

end

/-- **A `brk` that fails** leaves the break, every translation and the free frames as they were exactly when no frame
    is free to begin with, or the frames suffice and it does not fail. -/
theorem brk_undone_iff (u : UserMem σ) (newBrk : Nat) (h : SpaceTree u.vm u.pml4) :
    (∀ r u', u.sysBrk newBrk = some (r, u') → r ≠ alignUp newBrk → u'.brk = u.brk ∧ AsBefore u.vm u'.vm u.pml4) ↔
    BrkFits u newBrk := by
  rw [BrkFits]
  by_cases hz : newBrk = 0
  · -- the break is asked for
    refine iff_of_true (fun r u' hout _ => ?_) (.inl hz)
    rw [UserMem.sysBrk, if_pos hz] at hout
    obtain ⟨-, rfl⟩ := Prod.mk.inj (Option.some.inj hout)
    exact ⟨rfl, fun _ => rfl, id, fun hf hn => absurd hf hn⟩
  rw [or_iff_right hz]
  by_cases hle : alignUp newBrk ≤ u.brk
  · -- it does not grow, and returns what it was asked for
    refine iff_of_true (fun r u' hout hne => ?_) (.inl hle)
    rw [UserMem.sysBrk, if_neg hz, if_neg (Nat.not_lt.2 hle)] at hout
    split at hout
    next =>
      obtain ⟨vm, -, hpair⟩ := Option.map_eq_some_iff.1 hout
      exact absurd (Prod.mk.inj hpair).1.symm hne
    next => exact absurd (Prod.mk.inj (Option.some.inj hout)).1.symm hne
  rw [or_iff_right hle]
  have hlt := Nat.lt_of_not_le hle
  obtain ⟨k, hk⟩ : ∃ k, (alignUp newBrk - u.brk) / pageSize = k + 1 := by
    have hal := alignUp_mod newBrk
    have hbrk := u.brk_mod
    rw [pageSize] at *
    exact ⟨(alignUp newBrk - u.brk) / 4096 - 1, by omega⟩
  have hiff := growBrk_iff h u.brk_mod k (Spent.refl h (WayToPages u.brk 0)) rfl (.inr fun j hj => absurd hj (Nat.not_lt_zero j))
  rw [Nat.zero_mul, Nat.add_zero, Nat.zero_add] at hiff
  rw [hk, Nat.add_sub_cancel, ← hiff, UserMem.sysBrk, if_neg hz, if_pos hlt, hk]
  generalize hgrow : growBrk u.pml4 (k + 1) u.brk u.vm = out at *
  obtain ⟨ok, vm'⟩ := out
  cases ok with
  | true =>
    refine iff_of_true (fun r u' hout hne => ?_) (.inr rfl)
    exact absurd (Prod.mk.inj (Option.some.inj hout)).1.symm hne
  | false =>
    rw [or_iff_left Bool.false_ne_true]
    constructor
    · intro hP f hfree
      obtain ⟨-, hsame⟩ := hP _ _ rfl (Nat.ne_of_lt hlt)
      have h0 : u.vm.alloc.1 ≠ 0 := fun h0 => alloc_full (s := u.vm.pmm) h0 f hfree
      apply growBrk_keeps h u.brk_mod k h0
      rw [hgrow]
      exact hsame
    · intro hfull r u' hout _
      obtain ⟨-, rfl⟩ := Prod.mk.inj (Option.some.inj hout)
      have h0 : u.vm.alloc.1 = 0 := by
        by_contra h0
        exact hfull _ (alloc_frame u.vm h0).2.1
      rw [growBrk] at hgrow
      simp only [if_pos h0] at hgrow
      obtain ⟨-, rfl⟩ := Prod.mk.inj hgrow
      obtain ⟨hmem, hfree, -⟩ := alloc_zero u.vm h0
      exact ⟨rfl, fun _ => by rw [hmem], (hfree _).1, fun hf hn => absurd ((hfree _).2 hf) hn⟩

/-! ## A process without a page

Four free frames are a page with its tables. For two pages they do not suffice, and the first one stays mapped.
-/

/-- A process without a page, its break at `0x400000`. -/
def noPages (pmm : SoundPmm) : UserMem SoundPmm where
  vm := ⟨fun _ => 0, pmm⟩
  pml4 := 0x1000
  vmas := []
  brk := 0x400000
  brkStart := 0x400000
  brk_mod := by decide
  brk_lt := by decide

theorem noPages_tree {pmm : SoundPmm} (h : ¬Free pmm 0x1000) : SpaceTree (noPages pmm).vm 0x1000 where
  aligned := by decide
  unique _ _ hp hq := (tableAt_cleared hp).1.trans (tableAt_cleared hq).1.symm
  flat _ _ ht := by cases (tableAt_cleared ht).1
  apart _ ht hf := by
    rw [(tableAt_cleared ht).2] at hf
    exact h hf

/-- Of 64 frames, 4 to 7 are free. -/
def fourFrames : SoundPmm :=
  ⟨{ bitmap := fun _ => 0xFFFFFFFFFFFFFF0F#64, totalPages := 64, freePages := 4#64, usedPages := 60#64, allocHint := 0 },
    fun _ => by decide, by decide, ⟨by decide, by decide +kernel, by decide, by decide⟩⟩

theorem fourFrames_kept : ¬Free fourFrames 0x1000 := by
  rintro ⟨-, -, hfree⟩
  revert hfree
  decide

/-- Four frames are enough for one page. -/
theorem brk_undone_one : SpaceTree (noPages fourFrames).vm 0x1000 ∧
    ∀ r u', (noPages fourFrames).sysBrk 0x401000 = some (r, u') → r ≠ alignUp 0x401000 →
      u'.brk = (noPages fourFrames).brk ∧ AsBefore (noPages fourFrames).vm u'.vm 0x1000 := by
  refine ⟨noPages_tree fourFrames_kept,
    (brk_undone_iff (noPages fourFrames) 0x401000 (noPages_tree fourFrames_kept)).2 (.inr (.inr (.inr ?_)))⟩
  have hlen : (alignUp 0x401000 - 0x400000) / pageSize + (newTables (fun _ => 0) 0x1000 0x400000
      ((alignUp 0x401000 - 0x400000) / pageSize - 1)).length = 1 := by decide
  rw [show (noPages fourFrames).brk = 0x400000 from rfl, show (noPages fourFrames).vm.mem = fun _ => 0 from rfl]
  rw [show (noPages fourFrames).pml4 = 0x1000 from rfl, hlen]
  refine ⟨[0x4000], by decide, by decide, fun f hf => ?_⟩
  obtain rfl := List.mem_singleton.1 hf
  exact ⟨by decide, by decide, by decide⟩

/-- For two pages they are not: the first page takes them all and stays mapped, and the call returns the old break. -/
theorem brk_half_grown : SpaceTree (noPages fourFrames).vm 0x1000 ∧
    ∃ u', (noPages fourFrames).sysBrk 0x402000 = some (0x400000, u') ∧ 0x400000 ≠ alignUp 0x402000 ∧
      ¬AsBefore (noPages fourFrames).vm u'.vm 0x1000 := by
  have hr : ((noPages fourFrames).sysBrk 0x402000).map (fun out =>
      (out.1, vmmIsMapped out.2.vm.mem 0x1000 0x400000)) = some (0x400000, true) := by decide +kernel
  obtain ⟨⟨r, u'⟩, hout, hpair⟩ := Option.map_eq_some_iff.1 hr
  obtain ⟨rfl, hmapped⟩ := Prod.mk.inj hpair
  refine ⟨noPages_tree fourFrames_kept, u', hout, by decide, fun hsame => ?_⟩
  have hwas : vmmVirtToPhys (noPages fourFrames).vm.mem 0x1000 0x400000 = 0 := by decide +kernel
  rw [vmmIsMapped, hsame.same (.inl (by decide)), hwas] at hmapped
  cases hmapped

end MyUnix.Proc
