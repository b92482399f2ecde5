import MyUnix.Mm.AllocUser
import MyUnix.Mm.Destroy

/-!
# `Mm.Spaces` — all address spaces together

Spaces are made with the tables of the kernel in their upper half, are given frames, and are destroyed, in any order.
No frame of a user half is ever in two of them: `Apart` says so, and every step keeps it. Most of a step concerns one
space (`Within`), for the others it is enough that their tables hold what they held (`TablesKept`).

A single space keeps its tree by what was proved of each function. That two spaces never share a frame is a statement
about all of them at once, and it needs to know where a frame may come from: it was free, or the caller was given it
and has mapped it nowhere (`Loose`). The steps say just that and no more, so any order of making, mapping, freeing and
destroying on any number of spaces is a run.

The kernel's own space is one of them for this purpose. Its tables are in every space, and its frames are none of a
user half.
-/

namespace MyUnix.Mm

open Lib PageAlloc PathClass

/-- The frame is a table of the space, the kernel's half included, or under one of its pages. -/
def InSpace (m : ByteMem) (pml4 f : Nat) : Prop :=
  (∃ q, IsPath q ∧ tableAt m pml4 q = some f) ∨ ∃ p, Maps m pml4 p f

variable {σ : Type} [PageAlloc σ]

/-- The machine with the spaces that were made and not destroyed yet. -/
structure Spaces (σ : Type) where
  vm   : Vm σ
  live : List Space

/-- The tables of the kernel's own space are in use. -/
structure KernelSpace (vm : Vm σ) (kernelPml4 : Nat) : Prop where
  aligned : kernelPml4 % pageSize = 0
  used {q t} : IsPath q → tableAt vm.mem kernelPml4 q = some t → ¬Free vm.pmm t

/-- The frame was given out by `pmm_alloc`, and is mapped nowhere and no table. -/
structure Loose (kernelPml4 : Nat) (s : Spaces σ) (f : Nat) : Prop where
  managed : Managed s.vm.pmm f
  inUse : ¬Free s.vm.pmm f
  kernel : Unused IsPath s.vm.mem kernelPml4 f
  spaces {space} : space ∈ s.live → ¬InSpace s.vm.mem space.pml4 f

/-- What can happen: a space is made; a frame is taken, freed or written to while it is mapped nowhere, or written to
    where it is mapped; on addresses below `VMM_USER_END` a frame is mapped, a page unmapped, a range freed, a VMA
    made; a space is destroyed. -/
inductive SpaceStep (kernelPml4 : Nat) (s : Spaces σ) : Spaces σ → Prop
  | create (kzalloc : Bool) : SpaceStep kernelPml4 s
      { vm := (s.vm.vmmCreateSpace kernelPml4 kzalloc).2
        live := if (s.vm.vmmCreateSpace kernelPml4 kzalloc).1 = 0 then s.live
          else s.live ++ [⟨(s.vm.vmmCreateSpace kernelPml4 kzalloc).1, 1, []⟩] }
  | alloc : SpaceStep kernelPml4 s { s with vm := s.vm.alloc.2 }
  | free {f pmm} (hf : Loose kernelPml4 s f) (hout : pmmFree s.vm.pmm f = some pmm) :
      SpaceStep kernelPml4 s { s with vm := { s.vm with pmm } }
  | store {f m'} (hf : f % pageSize = 0) (hkernel : Unused IsPath s.vm.mem kernelPml4 f)
      (hspaces : ∀ space ∈ s.live, Unused IsPath s.vm.mem space.pml4 f) (ha : AgreeOff f s.vm.mem m') :
      SpaceStep kernelPml4 s { s with vm := { s.vm with mem := m' } }
  | map {space va f flags} (hspace : space ∈ s.live) (hva : va < vmmUserEnd) (hf : Loose kernelPml4 s f)
      (hpres : isPresent flags = true) (hflags : flags &&& 0x000FFFFFFFFFF000#64 = 0#64) :
      SpaceStep kernelPml4 s { s with vm := (s.vm.vmmMap space.pml4 va f flags).2 }
  | unmap {space va} (hspace : space ∈ s.live) (hva : va < vmmUserEnd) :
      SpaceStep kernelPml4 s { s with vm := s.vm.vmmUnmap space.pml4 va }
  | freeUser {space addr size vm'} (hspace : space ∈ s.live) (hend : addr + size ≤ vmmUserEnd)
      (hout : s.vm.vmmFreeUser space.pml4 addr size = some vm') : SpaceStep kernelPml4 s { s with vm := vm' }
  | createVma {before space after start size} (prot mapFlags : Nat) (hlive : s.live = before ++ space :: after)
      (hend : start + size ≤ vmmUserEnd) : SpaceStep kernelPml4 s
        { s with live := before ++ { space with vmas := space.vmas ++ [vmmCreateVma start size prot mapFlags] } :: after }
  | destroy {before space after blocks vm' calls} (hlive : s.live = before ++ space :: after) (hrefs : space.refs = 1)
      (hout : s.vm.vmmDestroySpace space blocks = some (vm', calls)) : SpaceStep kernelPml4 s ⟨vm', before ++ after⟩

/-- The states from a machine with only the kernel's space on. -/
inductive SpacesReach (kernelPml4 : Nat) : Spaces σ → Prop
  | init {vm} (h : KernelSpace vm kernelPml4) : SpacesReach kernelPml4 ⟨vm, []⟩
  | step {s s'} (h : SpacesReach kernelPml4 s) (hstep : SpaceStep kernelPml4 s s') : SpacesReach kernelPml4 s'

/-- No frame of the user half of a space of `L` is in another space, or in the kernel's. -/
structure Apart (vm : Vm σ) (kernelPml4 : Nat) (L : Nat → Prop) : Prop where
  kernel : KernelSpace vm kernelPml4
  space {p} : L p → SpaceInv vm p
  managed {p f} : L p → UserFrame vm.mem p f → Managed vm.pmm f
  kernelApart {p f} : L p → UserFrame vm.mem p f → Unused IsPath vm.mem kernelPml4 f
  apart {p q f} : L p → L q → p ≠ q → UserFrame vm.mem p f → ¬InSpace vm.mem q f

theorem UserFrame.inSpace {m : ByteMem} {pml4 f : Nat} (h : UserFrame m pml4 f) : InSpace m pml4 f :=
  h.imp_left fun ⟨q, hq, ht⟩ => ⟨q, hq.1, ht⟩

/-- A frame of a space in order is not free. -/
theorem SpaceInv.not_free {vm : Vm σ} {pml4 f : Nat} (h : SpaceInv vm pml4) (hf : InSpace vm.mem pml4 f) : ¬Free vm.pmm f := by
  rcases hf with ⟨q, hq, ht⟩ | ⟨p, hm⟩
  · exact h.tree.apart hq ht
  · exact (h.used hm).1

/-! ## Spaces nothing happens to

A space does not notice what happens to frames that are no table of its own. Each lemma takes one such change.
-/

/-- The tables hold what they held. -/
def TablesKept (m m' : ByteMem) (pml4 : Nat) : Prop :=
  ∀ q t, IsPath q → tableAt m pml4 q = some t → ∀ o < pageSize, m' (t + o) = m (t + o)

/-- A change of a frame that is no table. -/
theorem AgreeOff.tablesKept {m m' : ByteMem} {pml4 f : Nat} (ha : AgreeOff f m m') (hpml4 : pml4 % pageSize = 0)
    (hf : f % pageSize = 0) (hun : Unused IsPath m pml4 f) : TablesKept m m' pml4 := by
  intro q t hq ht o ho
  have hne : t ≠ f := fun he => hun q hq (he ▸ ht)
  have hal := tableAt_mod hpml4 ht
  apply ha
  rw [pageSize] at *
  omega

namespace TablesKept

variable {m m' : ByteMem} {pml4 : Nat} (hk : TablesKept m m' pml4)
include hk

theorem entry_eq {q : List Nat} {t i : Nat} (hq : IsPath q) (ht : tableAt m pml4 q = some t) (hi : i < 512) :
    entry m' t i = entry m t i := by
  apply ByteMem.word_eq_word
  intro k hlt
  rw [slot, Nat.add_assoc]
  apply hk q t hq ht
  rw [pageSize]
  omega

theorem tableAt_eq {q : List Nat} (hq : IsPath q) : tableAt m' pml4 q = tableAt m pml4 q := by
  apply walk_congr
  rintro r i r' t rfl ht
  exact hk.entry_eq hq.of_append ht (hq.2 i (by simp))

theorem virtToPhys_eq (va : Nat) : vmmVirtToPhys m' pml4 va = vmmVirtToPhys m pml4 va := by
  apply virtToPhys_congr
  intro q i r t hva ht
  refine hk.entry_eq (isPath_of_path hva) ht (path_lt va ?_)
  rw [hva]
  simp

theorem maps_iff {p f : Nat} : Maps m' pml4 p f ↔ Maps m pml4 p f := by rw [Maps, Maps, hk.virtToPhys_eq]

theorem inSpace_iff {f : Nat} : InSpace m' pml4 f ↔ InSpace m pml4 f := by
  refine or_congr (exists_congr fun q => and_congr_right fun hq => ?_) (exists_congr fun p => hk.maps_iff)
  rw [hk.tableAt_eq hq]

theorem userFrame_iff {f : Nat} : UserFrame m' pml4 f ↔ UserFrame m pml4 f := by
  refine or_congr (exists_congr fun q => and_congr_right fun hq => ?_) (exists_congr fun p => hk.maps_iff)
  rw [hk.tableAt_eq hq.1]

theorem userTree (h : UserTree IsPath m pml4) : UserTree IsPath m' pml4 where
  aligned := h.aligned
  unique hp hq hpt hqt := h.unique hp hq ((hk.tableAt_eq hp.1).symm.trans hpt) ((hk.tableAt_eq hq).symm.trans hqt)
  noHuge hp hne hlen hi ht hpres := by
    rw [hk.tableAt_eq hp.1] at ht
    rw [hk.entry_eq hp.1 ht hi] at hpres ⊢
    exact h.noHuge hp hne hlen hi ht hpres

end TablesKept

/-- A space whose tables hold what they held, and none of whose frames was freed, is in order still. -/
theorem SpaceInv.kept {vm vm' : Vm σ} {pml4 : Nat} (h : SpaceInv vm pml4) (hk : TablesKept vm.mem vm'.mem pml4)
    (hfree : ∀ f, Free vm'.pmm f → Free vm.pmm f ∨ ¬InSpace vm.mem pml4 f) : SpaceInv vm' pml4 := by
  have hnot : ∀ {f}, InSpace vm.mem pml4 f → ¬Free vm'.pmm f := by
    intro f hf hfr
    rcases hfree f hfr with hfr | hout
    · exact h.not_free hf hfr
    · exact hout hf
  exact {
    tree := ⟨hk.userTree h.tree.tree, fun {q t} hq ht => hnot (.inl ⟨q, hq, (hk.tableAt_eq hq).symm.trans ht⟩)⟩
    noZero := fun p hp hmap o ho => by
      rw [hk.virtToPhys_eq]
      rw [vmmIsMapped, hk.virtToPhys_eq] at hmap
      exact h.noZero p hp hmap o ho
    used := fun {p f} hm => by
      rw [hk.maps_iff] at hm
      refine ⟨hnot (.inr ⟨p, hm⟩), fun q hq ht => (h.used hm).2 q hq ?_⟩
      rwa [hk.tableAt_eq hq] at ht
    inj := fun hm hm' => h.inj (hk.maps_iff.1 hm) (hk.maps_iff.1 hm') }

theorem KernelSpace.kept {vm vm' : Vm σ} {kernelPml4 : Nat} (h : KernelSpace vm kernelPml4)
    (hk : TablesKept vm.mem vm'.mem kernelPml4)
    (hfree : ∀ f, Free vm'.pmm f → Free vm.pmm f ∨ Unused IsPath vm.mem kernelPml4 f) : KernelSpace vm' kernelPml4 where
  aligned := h.aligned
  used {q t} hq ht hfr := by
    rw [hk.tableAt_eq hq] at ht
    rcases hfree t hfr with hfr | hun
    · exact h.used hq ht hfr
    · exact hun q hq ht

namespace Apart

variable {vm vm' : Vm σ} {kernelPml4 : Nat} {L L' : Nat → Prop}

theorem mono (a : Apart vm kernelPml4 L) (h : ∀ p, L' p → L p) : Apart vm kernelPml4 L' where
  kernel := a.kernel
  space hp := a.space (h _ hp)
  managed hp := a.managed (h _ hp)
  kernelApart hp := a.kernelApart (h _ hp)
  apart hp hq := a.apart (h _ hp) (h _ hq)

/-- Nothing happens to any space. -/
theorem quiet (a : Apart vm kernelPml4 L) (hk : TablesKept vm.mem vm'.mem kernelPml4)
    (hL : ∀ {p}, L p → TablesKept vm.mem vm'.mem p)
    (hfree : ∀ f, Free vm'.pmm f → Free vm.pmm f ∨
      (Unused IsPath vm.mem kernelPml4 f ∧ ∀ p, L p → ¬InSpace vm.mem p f))
    (hman : ∀ f, Managed vm'.pmm f ↔ Managed vm.pmm f) : Apart vm' kernelPml4 L where
  kernel := a.kernel.kept hk fun f hf => (hfree f hf).imp_right fun h => h.1
  space {p} hp := (a.space hp).kept (hL hp) fun f hf => (hfree f hf).imp_right fun h => h.2 p hp
  managed hp hf := (hman _).2 (a.managed hp ((hL hp).userFrame_iff.1 hf))
  kernelApart hp hf q hq ht := by
    rw [hk.tableAt_eq hq] at ht
    exact a.kernelApart hp ((hL hp).userFrame_iff.1 hf) q hq ht
  apart hp hq hne hf hin := a.apart hp hq hne ((hL hp).userFrame_iff.1 hf) ((hL hq).inSpace_iff.1 hin)

/-- A frame that is free is in no space. -/
theorem free_out (a : Apart vm kernelPml4 L) {f : Nat} (hf : Free vm.pmm f) :
    Unused IsPath vm.mem kernelPml4 f ∧ ∀ p, L p → ¬InSpace vm.mem p f :=
  ⟨fun _ hq ht => a.kernel.used hq ht hf, fun _ hp hin => (a.space hp).not_free hin hf⟩

/-- A change of a frame that is no table. -/
theorem agreeOff (a : Apart vm kernelPml4 L) {f : Nat} {m' : ByteMem} (ha : AgreeOff f vm.mem m') (hf : f % pageSize = 0)
    (hkernel : Unused IsPath vm.mem kernelPml4 f) (hspaces : ∀ p, L p → Unused IsPath vm.mem p f) :
    TablesKept vm.mem m' kernelPml4 ∧ ∀ {p}, L p → TablesKept vm.mem m' p :=
  ⟨ha.tablesKept a.kernel.aligned hf hkernel,
    fun {p} hp => ha.tablesKept (a.space hp).tree.tree.aligned hf (hspaces p hp)⟩

/-- A frame is taken: it was no table, and it is cleared. -/
theorem alloc_kept (a : Apart vm kernelPml4 L) (h0 : vm.alloc.1 ≠ 0) :
    TablesKept vm.mem vm.alloc.2.mem kernelPml4 ∧ ∀ {p}, L p → TablesKept vm.mem vm.alloc.2.mem p := by
  obtain ⟨hmem, hfree, -, -⟩ := alloc_frame vm h0
  have ha : AgreeOff vm.alloc.1 vm.mem vm.alloc.2.mem := by
    rw [hmem]
    exact agreeOff_clear
  obtain ⟨hkernel, hspaces⟩ := a.free_out hfree
  exact a.agreeOff ha (managed_spec (managed_of_free hfree)).2.1 hkernel
    fun p hp q hq ht => hspaces p hp (.inl ⟨q, hq, ht⟩)

/-- **`pmm_alloc`.** -/
theorem alloc (a : Apart vm kernelPml4 L) : Apart vm.alloc.2 kernelPml4 L := by
  by_cases h0 : vm.alloc.1 = 0
  · obtain ⟨hmem, hfree, hman⟩ := alloc_zero vm h0
    have hsame : ∀ p, TablesKept vm.mem vm.alloc.2.mem p := by
      intro p q t _ _ o _
      rw [hmem]
    exact a.quiet (hsame _) (fun _ => hsame _) (fun f hf => .inl ((hfree f).1 hf)) hman
  · obtain ⟨-, -, hfree', hman⟩ := alloc_frame vm h0
    obtain ⟨hk, hL⟩ := a.alloc_kept h0
    exact a.quiet hk hL (fun f hf => .inl ((hfree' f).1 hf).1) hman

/-- There are no spaces but the kernel's. -/
theorem none (h : KernelSpace vm kernelPml4) (hnone : ∀ p, ¬L p) : Apart vm kernelPml4 L where
  kernel := h
  space hp := absurd hp (hnone _)
  managed hp := absurd hp (hnone _)
  kernelApart hp := absurd hp (hnone _)
  apart hp := absurd hp (hnone _)

end Apart

/-! ## Steps on one space

`Within` says what a step may do to the space that it is about, and `Apart.within` what this means for the others.
-/

/-- From `vm` to `vm'` only this space changed: its new tables were free frames, its new pages are in frames of `given`,
    and what was freed was its own. -/
structure Within (vm vm' : Vm σ) (pml4 : Nat) (given : Nat → Prop) : Prop where
  space : SpaceInv vm' pml4
  tables {q t} : IsPath q → tableAt vm'.mem pml4 q = some t → tableAt vm.mem pml4 q = some t ∨ Free vm.pmm t
  pages {p f} : Maps vm'.mem pml4 p f → Maps vm.mem pml4 p f ∨ given f
  outside {x} : (∀ q t, IsUser q → tableAt vm'.mem pml4 q = some t → x < t ∨ t + pageSize ≤ x) → vm'.mem x = vm.mem x
  free {f} : Free vm'.pmm f → Free vm.pmm f ∨ UserFrame vm.mem pml4 f
  managed {f} : Managed vm'.pmm f ↔ Managed vm.pmm f

namespace Within

variable {vm vm' : Vm σ} {pml4 : Nat} {given : Nat → Prop}

theorem refl (h : SpaceInv vm pml4) : Within vm vm pml4 given where
  space := h
  tables _ ht := .inl ht
  pages hm := .inl hm
  outside _ := rfl
  free hf := .inl hf
  managed := Iff.rfl

/-- What is in the user half now was in it, was free, or was given. -/
theorem userFrame (w : Within vm vm' pml4 given) {f : Nat} (h : UserFrame vm'.mem pml4 f) :
    UserFrame vm.mem pml4 f ∨ Free vm.pmm f ∨ given f := by
  rcases h with ⟨q, hq, ht⟩ | ⟨p, hm⟩
  · rcases w.tables hq.1 ht with ht | hfree
    · exact .inl (.inl ⟨q, hq, ht⟩)
    · exact .inr (.inl hfree)
  · rcases w.pages hm with hm | hg
    · exact .inl (.inr ⟨p, hm⟩)
    · exact .inr (.inr hg)

theorem inSpace (w : Within vm vm' pml4 given) {f : Nat} (h : InSpace vm'.mem pml4 f) :
    InSpace vm.mem pml4 f ∨ Free vm.pmm f ∨ given f := by
  rcases h with ⟨q, hq, ht⟩ | ⟨p, hm⟩
  · rcases w.tables hq ht with ht | hfree
    · exact .inl (.inl ⟨q, hq, ht⟩)
    · exact .inr (.inl hfree)
  · rcases w.pages hm with hm | hg
    · exact .inl (.inr ⟨p, hm⟩)
    · exact .inr (.inr hg)

/-- Tables of another space, apart from the user half of this one, hold what they held. -/
theorem kept (w : Within vm vm' pml4 given) {other : Nat} (hal : other % pageSize = 0)
    (hapart : ∀ {q t}, IsPath q → tableAt vm.mem other q = some t → ¬UserFrame vm.mem pml4 t ∧ ¬Free vm.pmm t) :
    TablesKept vm.mem vm'.mem other := by
  intro q t hq ht o ho
  obtain ⟨hout, hused⟩ := hapart hq ht
  refine w.outside fun r t' hr ht' => ?_
  have hne : t' ≠ t := by
    rintro rfl
    rcases w.tables hr.1 ht' with hold | hfree
    · exact hout (.inl ⟨r, hr, hold⟩)
    · exact hused hfree
  have hmod := tableAt_mod hal ht
  have hmod' := tableAt_mod w.space.tree.tree.aligned ht'
  rw [pageSize] at *
  omega

end Within

/-- The kernel and the other spaces keep their tables, since none of these is a frame of `p`. -/
theorem Apart.within_kept {vm vm' : Vm σ} {kernelPml4 : Nat} {L : Nat → Prop} {p : Nat} {given : Nat → Prop}
    (a : Apart vm kernelPml4 L) (hp : L p) (w : Within vm vm' p given) :
    TablesKept vm.mem vm'.mem kernelPml4 ∧ ∀ {q}, L q → p ≠ q → TablesKept vm.mem vm'.mem q :=
  ⟨w.kept a.kernel.aligned fun hq ht => ⟨fun hf => a.kernelApart hp hf _ hq ht, a.kernel.used hq ht⟩,
    fun hq hne => w.kept (a.space hq).tree.tree.aligned fun hr ht =>
      ⟨fun hf => a.apart hp hq hne hf (.inl ⟨_, hr, ht⟩), (a.space hq).tree.apart hr ht⟩⟩

/-- **A step on one space** keeps all of them apart, when what it is given is in none. -/
theorem Apart.within {vm vm' : Vm σ} {kernelPml4 : Nat} {L : Nat → Prop} {p : Nat} {given : Nat → Prop}
    (a : Apart vm kernelPml4 L) (hp : L p) (w : Within vm vm' p given)
    (hgiven : ∀ f, given f → Managed vm.pmm f ∧ ¬Free vm.pmm f ∧ Unused IsPath vm.mem kernelPml4 f ∧
      ∀ q, L q → ¬InSpace vm.mem q f) : Apart vm' kernelPml4 L := by
  obtain ⟨hkernel, hkept⟩ := a.within_kept hp w
  exact {
    kernel := a.kernel.kept hkernel fun f hf => (w.free hf).imp_right fun huf => a.kernelApart hp huf
    space := fun {q} hq => by
      by_cases hne : p = q
      · exact hne ▸ w.space
      · exact (a.space hq).kept (hkept hq hne) fun f hf => (w.free hf).imp_right fun huf => a.apart hp hq hne huf
    managed := fun {q f} hq hf => by
      rw [w.managed]
      by_cases hne : p = q
      · subst hne
        -- a frame of `p` was its own, was free, or was given to it
        rcases w.userFrame hf with hf | hfree | hg
        · exact a.managed hp hf
        · exact managed_of_free hfree
        · exact (hgiven f hg).1
      · exact a.managed hq ((hkept hq hne).userFrame_iff.1 hf)
    kernelApart := fun {q f} hq hf r hr ht => by
      rw [hkernel.tableAt_eq hr] at ht
      by_cases hne : p = q
      · subst hne
        rcases w.userFrame hf with hf | hfree | hg
        · exact a.kernelApart hp hf r hr ht
        · exact a.kernel.used hr ht hfree
        · exact (hgiven f hg).2.2.1 r hr ht
      · exact a.kernelApart hq ((hkept hq hne).userFrame_iff.1 hf) r hr ht
    apart := fun {q r f} hq hr hne hf hin => by
      by_cases hpq : p = q
      · subst hpq
        rw [(hkept hr hne).inSpace_iff] at hin
        rcases w.userFrame hf with hf | hfree | hg
        · exact a.apart hp hr hne hf hin
        · exact (a.space hr).not_free hin hfree
        · exact (hgiven f hg).2.2.2 r hr hin
      · rw [(hkept hq hpq).userFrame_iff] at hf
        by_cases hpr : p = r
        · subst hpr
          rcases w.inSpace hin with hin | hfree | hg
          · exact a.apart hq hp hne hf hin
          · exact (a.space hq).not_free hf.inSpace hfree
          · exact (hgiven f hg).2.2.2 q hq hf.inSpace
        · exact a.apart hq hr hne hf ((hkept hr hpr).inSpace_iff.1 hin) }

section

variable {vm : Vm σ} {pml4 : Nat} {given : Nat → Prop}

/-- Tables are added. -/
theorem Within.grew {vm' : Vm σ} (h : SpaceInv vm pml4) (g : Grew IsPath vm vm' pml4) : Within vm vm' pml4 given := by
  have hsame : ∀ va, vmmVirtToPhys vm'.mem pml4 va = vmmVirtToPhys vm.mem pml4 va := fun va => g.same (reaches_all va)
  have hmaps : ∀ {p f}, Maps vm'.mem pml4 p f → Maps vm.mem pml4 p f :=
    fun ⟨hp, h0, heq⟩ => ⟨hp, h0, (hsame _).symm.trans heq⟩
  exact {
    space := {
      tree := g.inv
      noZero := fun p hp hmap o ho => by
        rw [hsame]
        rw [vmmIsMapped, hsame] at hmap
        exact h.noZero p hp hmap o ho
      used := fun hm => by
        obtain ⟨hused, hun⟩ := h.used (hmaps hm)
        refine ⟨fun hf => hused (g.free.1 hf).1, fun q hq ht => ?_⟩
        rcases g.new hq ht with ht | hfree
        · exact hun q hq ht
        · exact hused hfree
      inj := fun hm hm' => h.inj (hmaps hm) (hmaps hm') }
    tables := g.new
    pages := fun hm => .inl (hmaps hm)
    outside := g.outside
    free := fun hf => .inl (g.free.1 hf).1
    managed := g.managed }

/-- An entry that is absent, or leads to a frame `f` of its own that holds no table. -/
def OwnEntry (vm : Vm σ) (pml4 : Nat) (e : Pte) : Prop :=
  isPresent e = true → pteAddr e ≠ 0 ∧ ¬Free vm.pmm (pteAddr e) ∧ Unused IsPath vm.mem pml4 (pteAddr e) ∧
    ∀ q, ¬Maps vm.mem pml4 q (pteAddr e)

/-! ## One entry is set

To nothing, or to a frame that the space was given.
-/

/-- From `vm` to `vm'` the page `p` got the entry `e`, and no other page or table changed. -/
structure SetsPage (vm vm' : Vm σ) (pml4 p : Nat) (e : Pte) : Prop where
  tree : TreeInv IsPath vm' pml4
  pmm : vm'.pmm = vm.pmm
  tables {q} : IsPath q → tableAt vm'.mem pml4 q = tableAt vm.mem pml4 q
  page {o} : o < pageSize → vmmVirtToPhys vm'.mem pml4 (p * pageSize + o) = if isPresent e then pteAddr e + o else 0
  other {q o} : q ≠ p → q * pageSize < 2 ^ 47 → o < pageSize →
    vmmVirtToPhys vm'.mem pml4 (q * pageSize + o) = vmmVirtToPhys vm.mem pml4 (q * pageSize + o)
  outside {x} : (∀ q t, IsUser q → tableAt vm.mem pml4 q = some t → x < t ∨ t + pageSize ≤ x) → vm'.mem x = vm.mem x

theorem setsPage_store (h : SpaceInv vm pml4) {p t : Nat} (hp : p * pageSize < 2 ^ 47)
    (ht : tableAt vm.mem pml4 (ptPath (p * pageSize)) = some t) (e : Pte) :
    SetsPage vm (vm.store (slot t (ptIdx (p * pageSize))) e) pml4 p e := by
  have hidx : ptIdx (p * pageSize) < 512 := Nat.mod_lt _ (by decide)
  obtain ⟨hinv, hin, hother⟩ := leaf_store h.tree hp ht e
  have sw := SlotWrite.of_store h.tree.tree (ptPath_user hp) hidx ht e
  exact {
    tree := hinv
    pmm := rfl
    tables := fun hq => sw.tableAt_leaf h.tree.tree rfl hq
    page := fun {o} ho => by rw [hin _ (path_page ho), (page_number ho).2]
    other := fun {q o} hqp hq ho => by
      apply hother _ (reaches_all _)
      apply path_ne_page (.inl (page_lt hq ho)) hp
      rwa [(page_number ho).1]
    outside := fun {x} hx => by
      have hout := hx _ t (ptPath_user hp) ht
      refine ByteMem.setWord_out _ _ ?_
      rw [slot]
      rw [pageSize] at hout
      omega }

namespace SetsPage

variable {vm' : Vm σ} {p : Nat} {e : Pte} (s : SetsPage vm vm' pml4 p e)
include s

/-- What is mapped now is the page of the entry, or was mapped before. -/
theorem maps {q f : Nat} (hm : Maps vm'.mem pml4 q f) :
    (q = p ∧ isPresent e = true ∧ f = pteAddr e) ∨ (q ≠ p ∧ Maps vm.mem pml4 q f) := by
  obtain ⟨hq, h0, heq⟩ := hm
  by_cases hqp : q = p
  · have hpage := s.page (o := 0) (by decide)
    rw [Nat.add_zero, Nat.add_zero, ← hqp, heq] at hpage
    split at hpage
    next hpres => exact .inl ⟨hqp, hpres, hpage⟩
    next => exact absurd hpage h0
  · have hsame := s.other hqp hq (o := 0) (by decide)
    rw [Nat.add_zero] at hsame
    exact .inr ⟨hqp, hq, h0, hsame.symm.trans heq⟩

/-- With an entry that is present, the page of it is mapped, and the others as before. -/
theorem maps_iff (hp : p * pageSize < 2 ^ 47) (hpres : isPresent e = true) (h0 : pteAddr e ≠ 0) {q f : Nat} :
    Maps vm'.mem pml4 q f ↔ (q = p ∧ f = pteAddr e) ∨ (q ≠ p ∧ Maps vm.mem pml4 q f) := by
  constructor
  · intro hm
    rcases s.maps hm with ⟨hq, -, hf⟩ | hold
    · exact .inl ⟨hq, hf⟩
    · exact .inr hold
  · rintro (⟨rfl, rfl⟩ | ⟨hqp, hq, hf, heq⟩)
    · have hpage := s.page (o := 0) (by decide)
      rw [Nat.add_zero, Nat.add_zero, if_pos hpres] at hpage
      exact ⟨hp, h0, hpage⟩
    · have hsame := s.other hqp hq (o := 0) (by decide)
      rw [Nat.add_zero] at hsame
      exact ⟨hq, hf, hsame.trans heq⟩

theorem spaceInv (h : SpaceInv vm pml4) (he : OwnEntry vm pml4 e) : SpaceInv vm' pml4 where
  tree := s.tree
  noZero q hq hmap o ho := by
    have hzero : vmmVirtToPhys vm'.mem pml4 (q * pageSize + 0) = 0 := by
      rw [Nat.add_zero]
      rwa [vmmIsMapped, bne_eq_false_iff_eq] at hmap
    by_cases hqp : q = p
    · subst hqp
      rw [s.page (by decide)] at hzero
      rw [s.page ho]
      split
      next hpres =>
        rw [if_pos hpres, Nat.add_zero] at hzero
        exact absurd hzero (he hpres).1
      next => rfl
    · rw [s.other hqp hq (by decide), Nat.add_zero] at hzero
      rw [s.other hqp hq ho]
      exact h.page_none hq hzero ho
  used {q f} hm := by
    have hkept : ¬Free vm.pmm f ∧ Unused IsPath vm.mem pml4 f := by
      rcases s.maps hm with ⟨-, hpres, hf⟩ | ⟨-, hm⟩
      · rw [hf]
        exact ⟨(he hpres).2.1, (he hpres).2.2.1⟩
      · exact h.used hm
    refine ⟨?_, fun r hr htr => hkept.2 r hr ((s.tables hr).symm.trans htr)⟩
    rw [s.pmm]
    exact hkept.1
  inj {q r f} hm hm' := by
    rcases s.maps hm with ⟨hq, hpres, hf⟩ | ⟨-, hm⟩
    · rcases s.maps hm' with ⟨hr, -⟩ | ⟨-, hm'⟩
      · rw [hq, hr]
      · rw [hf] at hm'
        exact absurd hm' ((he hpres).2.2.2 r)
    · rcases s.maps hm' with ⟨-, hpres, hf⟩ | ⟨-, hm'⟩
      · rw [hf] at hm
        exact absurd hm ((he hpres).2.2.2 q)
      · exact h.inj hm hm'

end SetsPage

/-- The entry of one page is set, to nothing or to a frame that was given. -/
theorem Within.leaf {vm' : Vm σ} (w : Within vm vm' pml4 given) (hfree : ∀ {f}, Free vm'.pmm f → Free vm.pmm f)
    {p t : Nat} {e : Pte} (hp : p * pageSize < 2 ^ 47) (ht : tableAt vm'.mem pml4 (ptPath (p * pageSize)) = some t)
    (hgiven : isPresent e = true → given (pteAddr e)) (he : OwnEntry vm' pml4 e) :
    Within vm (vm'.store (slot t (ptIdx (p * pageSize))) e) pml4 given := by
  have s := setsPage_store w.space hp ht e
  exact {
    space := s.spaceInv w.space he
    tables := fun hq hqt => w.tables hq ((s.tables hq).symm.trans hqt)
    pages := fun hm => by
      rcases s.maps hm with ⟨-, hpres, hf⟩ | ⟨-, hm⟩
      · exact .inr (hf ▸ hgiven hpres)
      · exact w.pages hm
    outside := fun {x} hx => by
      have hx' : ∀ q t', IsUser q → tableAt vm'.mem pml4 q = some t' → x < t' ∨ t' + pageSize ≤ x :=
        fun q t' hq hqt => hx q t' hq ((s.tables hq.1).trans hqt)
      exact (s.outside hx').trans (w.outside hx')
    free := fun hf => .inl (hfree hf)
    managed := w.managed }

/-- **`vmm_map`** of a frame that is in no space. -/
theorem Within.map (h : SpaceInv vm pml4) {va f : Nat} {flags : Pte} (hva : va < vmmUserEnd) (hman : Managed vm.pmm f)
    (hused : ¬Free vm.pmm f) (hout : ¬InSpace vm.mem pml4 f) (hflags : flags &&& 0x000FFFFFFFFFF000#64 = 0#64) :
    Within vm (vm.vmmMap pml4 va f flags).2 pml4 (fun g => g = f) := by
  obtain ⟨h0, hal, hlt⟩ := managed_spec hman
  by_cases hmod : va % pageSize = 0
  · obtain ⟨p, rfl⟩ : ∃ p, va = p * pageSize := ⟨va / pageSize, (Nat.div_mul_cancel (Nat.dvd_of_mod_eq_zero hmod)).symm⟩
    have hp : p * pageSize < 2 ^ 47 := Nat.lt_trans hva (by decide)
    rcases vmmMap_cases h.tree hp hmod hal flags with ⟨-, g, -⟩ | ⟨-, vm₁, t, g, ht, hstore⟩
    · exact .grew h g
    · rw [hstore]
      have w : Within vm vm₁ pml4 (fun g => g = f) := .grew h g
      have haddr : pteAddr (BitVec.ofNat 64 f ||| flags) = f := pteAddr_or hal hlt hflags
      refine w.leaf (fun hf => (g.free.1 hf).1) hp ht (fun _ => haddr) fun _ => ?_
      rw [haddr]
      refine ⟨h0, fun hf => hused (g.free.1 hf).1, fun q hq hqt => ?_, fun q hm => ?_⟩
      · rcases g.new hq hqt with hqt | hfree
        · exact hout (.inl ⟨q, hq, hqt⟩)
        · exact hused hfree
      · exact hout (.inr ⟨q, hm.1, hm.2.1, (g.same (reaches_all _)).symm.trans hm.2.2⟩)
  · -- an address inside a page is refused
    rw [Vm.vmmMap, if_pos (.inl hmod)]
    exact .refl h

/-- **`vmm_unmap`**, of the page in which the address lies. -/
theorem Within.unmap (h : SpaceInv vm pml4) {va : Nat} (hva : va < vmmUserEnd) :
    Within vm (vm.vmmUnmap pml4 va) pml4 given := by
  have hlt : va < 2 ^ 47 := Nat.lt_trans hva (by decide)
  have hp : va / pageSize * pageSize < 2 ^ 47 := Nat.lt_of_le_of_lt (Nat.div_mul_le_self va pageSize) hlt
  have hpath : path va = path (va / pageSize * pageSize) := by
    apply path_of_page
    rw [Nat.mul_div_cancel _ (by decide)]
  obtain ⟨hpt, hidx⟩ := path_parts hpath
  rw [Vm.vmmUnmap, vmmGetPte_find h.tree.tree hlt, hpt, hidx]
  rcases Option.eq_none_or_eq_some (tableAt vm.mem pml4 (ptPath (va / pageSize * pageSize))) with hnone | ⟨t, ht⟩
  · rw [hnone]
    exact .refl h
  · rw [ht]
    simp only [Option.map_some]
    split
    · exact (Within.refl h).leaf id hp ht (by intro hpres; cases hpres) (by intro hpres; cases hpres)
    · exact .refl h

/-- **`vmm_free_user`**. -/
theorem Within.freeUser {vm' : Vm σ} (h : SpaceInv vm pml4) {addr size : Nat} (hend : addr + size ≤ vmmUserEnd)
    (hout : vm.vmmFreeUser pml4 addr size = some vm') : Within vm vm' pml4 given := by
  obtain ⟨vm₁, hrun, hd⟩ := vmmFreeUser_dropped h hend
  obtain rfl := Option.some.inj (hrun.symm.trans hout)
  exact {
    space := hd.spaceInv h
    tables := fun hq ht => .inl ((hd.tables hq).symm.trans ht)
    pages := fun hm => .inl (hd.maps hm).2
    outside := hd.outside
    free := fun hf => (hd.free.1 hf).imp_right fun ⟨p, _, hm, _⟩ => .inr ⟨p, hm⟩
    managed := hd.managed }

end

/-! ## Spaces come and go

A new space has its PML4 and nothing else of its own. A space that is destroyed leaves its frames free, and no other
space loses one.
-/

/-- A new space is in order, and stays so while it is loaded. -/
theorem spaceInv_of_pages {vm₀ vm : Vm σ} {pml4 : Nat} {frames : List Nat} (h : Pages vm₀ vm pml4 frames) :
    SpaceInv vm pml4 := by
  have hmem : ∀ {p f}, Maps vm.mem pml4 p f → f ∈ frames := by
    rintro p f ⟨hp, h0, rfl⟩
    exact h.frameOf (pml4Idx_lt hp) (Nat.mul_mod_left p pageSize) h0
  exact {
    tree := h.inv
    noZero := fun p hp hmap o ho => by
      by_contra hne
      have hlt : p * pageSize + o < 2 ^ 47 := page_lt hp ho
      obtain ⟨f, hf, heq⟩ := h.mapped hlt hne
      have hpath : path (p * pageSize) = path (p * pageSize + o) := (path_page ho).symm
      -- the page begins in the same frame
      obtain ⟨hpt, hidx⟩ := path_parts hpath
      rw [vmmIsMapped, bne_eq_false_iff_eq] at hmap
      rcases Option.eq_none_or_eq_some (tableAt vm.mem pml4 (ptPath (p * pageSize + o))) with hnone | ⟨t, ht⟩
      · exact hne (h.inv.tree.virtToPhys_none hlt hnone)
      · have ht' : tableAt vm.mem pml4 (ptPath (p * pageSize)) = some t := by rw [hpt, ht]
        rw [virtToPhys_leaf ht] at hne heq
        rw [virtToPhys_leaf ht', hidx] at hmap
        split at hne
        next hpres =>
          rw [if_pos hpres] at hmap heq
          have := (h.frame_spec hf).1
          omega
        next => exact hne rfl
    used := fun hm => ⟨h.taken (hmem hm), h.apart (hmem hm)⟩
    inj := fun {p q f} hm hm' => by
      have hpage : ∀ {p}, Maps vm.mem pml4 p f → vmmVirtToPhys vm.mem pml4 (p * pageSize) = f + p * pageSize % pageSize := by
        intro p hm
        rw [Nat.mul_mod_left, Nat.add_zero]
        exact hm.2.2
      have heq := h.inj hm.1 hm'.1 hm.2.1 (hpage hm) (hpage hm')
      rwa [Nat.mul_div_cancel p (by decide), Nat.mul_div_cancel q (by decide)] at heq }

section

variable {vm : Vm σ} {kernelPml4 : Nat} {L : Nat → Prop}

/-- The user half of a new space is its PML4. -/
theorem newSpace_own (hk : KernelTables vm kernelPml4) {kzalloc : Bool} (h0 : (vm.vmmCreateSpace kernelPml4 kzalloc).1 ≠ 0)
    {f : Nat} (h : UserFrame (vm.vmmCreateSpace kernelPml4 kzalloc).2.mem (vm.vmmCreateSpace kernelPml4 kzalloc).1 f) :
    f = (vm.vmmCreateSpace kernelPml4 kzalloc).1 := by
  have hpages := newSpace_pages hk h0
  obtain ⟨hf, heq⟩ := vmmCreateSpace_eq h0
  rw [heq] at h hpages ⊢
  rcases h with ⟨q, hq, ht⟩ | ⟨p, hm⟩
  · rcases newSpace_tableAt hk hf rfl hq.1 ht with ⟨-, rfl⟩ | ⟨hne, hker, -⟩
    · rfl
    · cases q with
      | nil => exact absurd rfl hne
      | cons i q =>
        have hlt := hq.2 i rfl
        have hge := hker.2 i rfl
        omega
  · obtain ⟨g, hg, -⟩ := hpages.mapped hm.1 (by rw [hm.2.2]; exact hm.2.1)
    cases hg

/-- Making a space leaves the others alone. -/
theorem Apart.create_kept (a : Apart vm kernelPml4 L) {kzalloc : Bool} (h0 : (vm.vmmCreateSpace kernelPml4 kzalloc).1 ≠ 0) :
    TablesKept vm.mem (vm.vmmCreateSpace kernelPml4 kzalloc).2.mem kernelPml4 ∧
      ∀ {p}, L p → TablesKept vm.mem (vm.vmmCreateSpace kernelPml4 kzalloc).2.mem p := by
  have hkernel : KernelTables vm kernelPml4 := ⟨a.kernel.aligned, fun hq ht => a.kernel.used hq.1 ht⟩
  obtain ⟨hf, heq⟩ := vmmCreateSpace_eq h0
  obtain ⟨-, hfree, -, -⟩ := alloc_frame vm hf
  obtain ⟨hagree, -, -⟩ := newSpace_mem hkernel hf rfl
  obtain ⟨hunk, hout⟩ := a.free_out hfree
  rw [heq]
  exact a.agreeOff hagree (managed_spec (managed_of_free hfree)).2.1 hunk fun p hp q hq ht => hout p hp (.inl ⟨q, hq, ht⟩)

/-! ## Making and destroying

The PML4 of a new space was free; a space that is destroyed frees what is its own.
-/

/-- **`vmm_create_space`.** What the new space has of its own is its PML4, which was free. -/
theorem Apart.create (a : Apart vm kernelPml4 L) {kzalloc : Bool}
    (h0 : (vm.vmmCreateSpace kernelPml4 kzalloc).1 ≠ 0) :
    Free vm.pmm (vm.vmmCreateSpace kernelPml4 kzalloc).1 ∧
    Apart (vm.vmmCreateSpace kernelPml4 kzalloc).2 kernelPml4
      fun p => L p ∨ p = (vm.vmmCreateSpace kernelPml4 kzalloc).1 := by
  have hkernel : KernelTables vm kernelPml4 := ⟨a.kernel.aligned, fun hq ht => a.kernel.used hq.1 ht⟩
  have hpages := newSpace_pages hkernel h0
  have hnew := fun {f} => @newSpace_own σ _ vm kernelPml4 hkernel kzalloc h0 f
  obtain ⟨hk, hL⟩ := a.create_kept h0
  obtain ⟨hf, heq⟩ := vmmCreateSpace_eq h0
  obtain ⟨-, hfree, hfree', hman⟩ := alloc_frame vm hf
  have htab := fun {q t} => newSpace_tableAt hkernel hf (p := q) (t := t) rfl
  obtain ⟨hunk, hout⟩ := a.free_out hfree
  rw [heq] at hpages hnew hk hL ⊢
  generalize vm.alloc.2.mem.write (slot vm.alloc.1 256) (vm.alloc.2.mem.read (slot kernelPml4 256) (256 * 8)) = m' at *
  have a' : Apart { vm.alloc.2 with mem := m' } kernelPml4 L := a.quiet hk hL (fun f hfr => .inl ((hfree' f).1 hfr).1) hman
  -- what the new space can reach is its PML4, and tables of the kernel half
  have hin : ∀ {f}, InSpace m' vm.alloc.1 f → f = vm.alloc.1 ∨ ∃ q, IsPath q ∧ tableAt vm.mem kernelPml4 q = some f := by
    rintro f (⟨q, hq, ht⟩ | ⟨p, hm⟩)
    · rcases htab hq ht with ⟨-, rfl⟩ | ⟨-, -, ht⟩
      · exact .inl rfl
      · exact .inr ⟨q, hq, ht⟩
    · exact .inl (hnew (.inr ⟨p, hm⟩))
  refine ⟨hfree, ?_⟩
  exact {
    kernel := a'.kernel
    space := fun {p} hp => by
      rcases hp with hp | rfl
      · exact a'.space hp
      · exact spaceInv_of_pages hpages
    managed := fun {p f} hp huf => by
      rcases hp with hp | rfl
      · exact a'.managed hp huf
      · rw [hnew huf]
        exact (hman _).2 (managed_of_free hfree)
    kernelApart := fun {p f} hp huf q hq ht => by
      rcases hp with hp | rfl
      · exact a'.kernelApart hp huf q hq ht
      · rw [hk.tableAt_eq hq, hnew huf] at ht
        exact hunk q hq ht
    apart := fun {p q f} hp hq hne huf hinf => by
      rcases hp with hp | rfl
      · rcases hq with hq | rfl
        · exact a'.apart hp hq hne huf hinf
        · rw [(hL hp).userFrame_iff] at huf
          -- a frame of an older space is neither of the two
          rcases hin hinf with rfl | ⟨r, hr, ht⟩
          · exact (a.space hp).not_free huf.inSpace hfree
          · exact a.kernelApart hp huf r hr ht
      · rcases hq with hq | rfl
        · rw [(hL hq).inSpace_iff, hnew huf] at hinf
          exact hout q hq hinf
        · exact hne rfl }

/-- No space is made: at most a frame was looked for. -/
theorem Apart.createNone (a : Apart vm kernelPml4 L) {kzalloc : Bool}
    (h0 : (vm.vmmCreateSpace kernelPml4 kzalloc).1 = 0) : Apart (vm.vmmCreateSpace kernelPml4 kzalloc).2 kernelPml4 L := by
  rw [Vm.vmmCreateSpace] at h0 ⊢
  split at h0
  next hk =>
    rw [if_pos hk]
    exact a
  next hk =>
    rw [if_neg hk]
    simp only at h0 ⊢
    split at h0
    next hf =>
      rw [if_pos hf]
      exact a.alloc
    next hf => exact absurd h0 hf

/-- The kernel and the other spaces keep their tables when a space is destroyed. -/
theorem Apart.destroy_kept {vm' : Vm σ} {space : Space} {calls : List Nat} (a : Apart vm kernelPml4 L) (hp : L space.pml4)
    (h : Destroyed vm vm' space calls) : TablesKept vm.mem vm'.mem kernelPml4 ∧
      ∀ {q}, L q → space.pml4 ≠ q → TablesKept vm.mem vm'.mem q := by
  have hmod := (a.space hp).tree.tree.aligned
  -- the tables of others lie outside those of the space
  have hkept : ∀ {other}, other % pageSize = 0 →
      (∀ {q t}, IsPath q → tableAt vm.mem other q = some t → ¬UserFrame vm.mem space.pml4 t) →
      TablesKept vm.mem vm'.mem other := by
    intro other hal hapart q t hq ht o ho
    refine h.outside fun r t' hr ht' => ?_
    have hne : t' ≠ t := by
      rintro rfl
      exact hapart hq ht (.inl ⟨r, hr, ht'⟩)
    have := tableAt_mod hal ht
    have := tableAt_mod hmod ht'
    rw [pageSize] at *
    omega
  exact ⟨hkept a.kernel.aligned fun hq ht hf => a.kernelApart hp hf _ hq ht,
    fun {q} hq hne => hkept (a.space hq).tree.tree.aligned fun hr ht hf => a.apart hp hq hne hf (.inl ⟨_, hr, ht⟩)⟩

/-- **`vmm_destroy_space`** frees frames of the one space only. -/
theorem Apart.destroy {vm' : Vm σ} {space : Space} {calls : List Nat} (a : Apart vm kernelPml4 L) (hp : L space.pml4)
    (h : Destroyed vm vm' space calls) : Apart vm' kernelPml4 fun q => L q ∧ q ≠ space.pml4 := by
  obtain ⟨hkernel, hkept⟩ := a.destroy_kept hp h
  have hmono : Apart vm kernelPml4 fun q => L q ∧ q ≠ space.pml4 := a.mono fun _ hq => hq.1
  refine hmono.quiet hkernel (fun hq => hkept hq.1 hq.2.symm) (fun f hf => ?_) fun _ => h.managed
  rcases h.free.1 hf with hf | ⟨hmem, -⟩
  · exact .inl hf
  · have huf := h.userFrame hmem
    exact .inr ⟨a.kernelApart hp huf, fun q hq => a.apart hp hq.1 hq.2.symm huf⟩

end

/-! ## Runs

The invariant of all states is that every space is in order, that they are apart, and that their VMAs were made by
`vmm_create_vma`. It discharges the hypotheses of the results about single calls.
-/

/-- The spaces that are there, by their PML4s. -/
def Spaces.Live (s : Spaces σ) (p : Nat) : Prop := ∃ space ∈ s.live, space.pml4 = p

/-- The invariant of all states. -/
structure SpacesInv (kernelPml4 : Nat) (s : Spaces σ) : Prop where
  apart : Apart s.vm kernelPml4 s.Live
  nodup : (s.live.map Space.pml4).Nodup
  vmas {space v} : space ∈ s.live → v ∈ space.vmas → UserVma v

namespace SpacesInv

variable {kernelPml4 : Nat} {s s' : Spaces σ}

theorem space (h : SpacesInv kernelPml4 s) {space : Space} (hspace : space ∈ s.live) : SpaceInv s.vm space.pml4 :=
  h.apart.space ⟨space, hspace, rfl⟩

/-- The spaces are the same, and stay apart. -/
theorem withVm (h : SpacesInv kernelPml4 s) {vm : Vm σ} (a : Apart vm kernelPml4 s.Live) :
    SpacesInv kernelPml4 { s with vm } := ⟨a, h.nodup, h.vmas⟩

/-- A space is made, or there is no memory for one. -/
theorem create (h : SpacesInv kernelPml4 s) (kzalloc : Bool) : SpacesInv kernelPml4
    { vm := (s.vm.vmmCreateSpace kernelPml4 kzalloc).2
      live := if (s.vm.vmmCreateSpace kernelPml4 kzalloc).1 = 0 then s.live
        else s.live ++ [⟨(s.vm.vmmCreateSpace kernelPml4 kzalloc).1, 1, []⟩] } := by
  by_cases h0 : (s.vm.vmmCreateSpace kernelPml4 kzalloc).1 = 0
  · rw [if_pos h0]
    exact h.withVm (h.apart.createNone h0)
  · rw [if_neg h0]
    obtain ⟨hfree, a⟩ := h.apart.create h0
    refine ⟨a.mono ?_, ?_, ?_⟩
    · rintro p ⟨space, hmem, rfl⟩
      rcases List.mem_append.1 hmem with hmem | hlast
      · exact .inl ⟨space, hmem, rfl⟩
      · rw [List.mem_singleton.1 hlast]
        exact .inr rfl
    · rw [List.map_append, List.nodup_append]
      refine ⟨h.nodup, List.nodup_singleton _, ?_⟩
      rintro p hp p' hlast rfl
      obtain ⟨space, hmem, hpml4⟩ := List.mem_map.1 hp
      rw [List.mem_singleton.1 hlast] at hpml4
      -- the new PML4 was free
      apply (h.space hmem).not_free (.inl ⟨[], ⟨Nat.zero_le _, nofun⟩, rfl⟩)
      rw [hpml4]
      exact hfree
    · intro space v hmem hv
      rcases List.mem_append.1 hmem with hmem | hlast
      · exact h.vmas hmem hv
      · rw [List.mem_singleton.1 hlast] at hv
        cases hv

/-- A VMA is made in one of the spaces, which keeps its PML4. -/
theorem createVma (h : SpacesInv kernelPml4 s) {before after : List Space} {space : Space} {start size : Nat}
    (prot mapFlags : Nat) (hlive : s.live = before ++ space :: after) (hend : start + size ≤ vmmUserEnd) :
    SpacesInv kernelPml4 { s with
      live := before ++ { space with vmas := space.vmas ++ [vmmCreateVma start size prot mapFlags] } :: after } := by
  have hmap : (before ++ { space with vmas := space.vmas ++ [vmmCreateVma start size prot mapFlags] } :: after).map
      Space.pml4 = s.live.map Space.pml4 := by rw [hlive, List.map_append, List.map_append, List.map_cons, List.map_cons]
  refine ⟨h.apart.mono ?_, ?_, ?_⟩
  · rintro p ⟨other, hmem, rfl⟩
    have hp := List.mem_map_of_mem (f := Space.pml4) hmem
    rw [hmap] at hp
    exact List.mem_map.1 hp
  · rw [hmap]
    exact h.nodup
  · intro other v hmem hv
    rcases List.mem_append.1 hmem with hmem | hmem
    · exact h.vmas (hlive ▸ List.mem_append_left _ hmem) hv
    · rcases List.mem_cons.1 hmem with rfl | hmem
      · rcases List.mem_append.1 hv with hv | hlast
        · exact h.vmas (hlive ▸ List.mem_append_right _ List.mem_cons_self) hv
        · rw [List.mem_singleton.1 hlast]
          exact userVma_create hend prot mapFlags
      · exact h.vmas (hlive ▸ List.mem_append_right _ (List.mem_cons_of_mem _ hmem)) hv

/-- A space is destroyed. -/
theorem destroy (h : SpacesInv kernelPml4 s) {before after : List Space} {space : Space} {blocks : SpaceBlocks}
    {vm' : Vm σ} {calls : List Nat} (hlive : s.live = before ++ space :: after) (hrefs : space.refs = 1)
    (hout : s.vm.vmmDestroySpace space blocks = some (vm', calls)) : SpacesInv kernelPml4 ⟨vm', before ++ after⟩ := by
  have hmem : space ∈ s.live := hlive ▸ List.mem_append_right _ List.mem_cons_self
  rw [vmmDestroySpace_last hrefs, Option.bind_eq_some_iff] at hout
  obtain ⟨out, hframes, hblock⟩ := hout
  obtain rfl := Option.some.inj (Option.ite_none_right_eq_some.1 hblock).2
  obtain ⟨vm₁, calls₁, hrun, hd⟩ :=
    destroyFrames_spec (h.space hmem) (fun v hv => h.vmas hmem hv) (destroyFrames_headed hframes)
  obtain ⟨rfl, rfl⟩ := Prod.mk.inj (Option.some.inj (hrun.symm.trans hframes))
  have hnodup := h.nodup
  rw [hlive, List.map_append, List.map_cons, List.nodup_middle, List.nodup_cons, ← List.map_append] at hnodup
  have hsub : ∀ {other}, other ∈ before ++ after → other ∈ s.live := by
    intro other hother
    rw [hlive]
    rcases List.mem_append.1 hother with hother | hother
    · exact List.mem_append_left _ hother
    · exact List.mem_append_right _ (List.mem_cons_of_mem _ hother)
  refine ⟨(h.apart.destroy ⟨space, hmem, rfl⟩ hd).mono ?_, hnodup.2, fun hother hv => h.vmas (hsub hother) hv⟩
  rintro p ⟨other, hother, rfl⟩
  refine ⟨⟨other, hsub hother, rfl⟩, fun heq => hnodup.1 ?_⟩
  rw [← heq]
  exact List.mem_map_of_mem hother

/-- **Every step** keeps the spaces apart. -/
theorem step (h : SpacesInv kernelPml4 s) (hstep : SpaceStep kernelPml4 s s') : SpacesInv kernelPml4 s' := by
  have hnone : ∀ {f : Nat}, (fun _ : Nat => False) f → Managed s.vm.pmm f ∧ ¬Free s.vm.pmm f ∧
      Unused IsPath s.vm.mem kernelPml4 f ∧ ∀ q, s.Live q → ¬InSpace s.vm.mem q f := False.elim
  cases hstep with
  | create kzalloc => exact h.create kzalloc
  | alloc => exact h.withVm h.apart.alloc
  | @free f pmm hf hout =>
    obtain ⟨hman, hs⟩ := free_some hout
    have hsame : ∀ p, TablesKept s.vm.mem s.vm.mem p := fun _ _ _ _ _ _ _ => rfl
    refine h.withVm (h.apart.quiet (hsame _) (fun _ => hsame _) (fun g hg => ?_) hman)
    rcases (hs g).1 hg with hg | ⟨rfl, -⟩
    · exact .inl hg
    · refine .inr ⟨hf.kernel, ?_⟩
      rintro p ⟨space, hmem, rfl⟩
      exact hf.spaces hmem
  | store hf hkernel hspaces ha =>
    obtain ⟨hk, hL⟩ := h.apart.agreeOff ha hf hkernel (by
      rintro p ⟨space, hmem, rfl⟩
      exact hspaces space hmem)
    exact h.withVm (h.apart.quiet hk hL (fun _ => .inl) fun _ => Iff.rfl)
  | @map space va f flags hspace hva hf hpres hflags =>
    refine h.withVm (h.apart.within ⟨space, hspace, rfl⟩
      (.map (h.space hspace) hva hf.managed hf.inUse (hf.spaces hspace) hflags) ?_)
    rintro g rfl
    refine ⟨hf.managed, hf.inUse, hf.kernel, ?_⟩
    rintro p ⟨other, hmem, rfl⟩
    exact hf.spaces hmem
  | unmap hspace hva => exact h.withVm (h.apart.within ⟨_, hspace, rfl⟩ (.unmap (h.space hspace) hva) @hnone)
  | freeUser hspace hend hout =>
    exact h.withVm (h.apart.within ⟨_, hspace, rfl⟩ (.freeUser (h.space hspace) hend hout) @hnone)
  | createVma prot mapFlags hlive hend => exact h.createVma prot mapFlags hlive hend
  | destroy hlive hrefs hout => exact h.destroy hlive hrefs hout

/-- **Every state that is reached** has its spaces apart. -/
theorem reach (h : SpacesReach kernelPml4 s) : SpacesInv kernelPml4 s := by
  induction h with
  | init h => exact ⟨.none h fun p ⟨_, hmem, _⟩ => List.not_mem_nil hmem, List.nodup_nil, nofun⟩
  | step _ hstep ih => exact ih.step hstep

/-- A frame fresh from `pmm_alloc` is loose. -/
theorem loose (h : SpacesInv kernelPml4 s) (h0 : s.vm.alloc.1 ≠ 0) :
    Loose kernelPml4 { s with vm := s.vm.alloc.2 } s.vm.alloc.1 := by
  obtain ⟨-, hfree, hfree', hman⟩ := alloc_frame s.vm h0
  obtain ⟨hkernel, hspaces⟩ := h.apart.free_out hfree
  obtain ⟨hk, hL⟩ := h.apart.alloc_kept h0
  exact {
    managed := (hman _).2 (managed_of_free hfree)
    inUse := fun hf => ((hfree' _).1 hf).2 rfl
    kernel := fun q hq ht => hkernel q hq ((hk.tableAt_eq hq).symm.trans ht)
    spaces := fun {space} hmem hin => by
      have hlive : s.Live space.pml4 := ⟨space, hmem, rfl⟩
      exact hspaces _ hlive ((hL hlive).inSpace_iff.1 hin) }

/-- **`vmm_alloc_user` in a space** of any of these states ends, and what fails is undone: no page of the space is at
    frame 0, which the page allocator does not give out. -/
theorem allocUser (h : SpacesInv kernelPml4 s) {space : Space} (hspace : space ∈ s.live) {hint size : Nat} {flags : Pte}
    (hfits : pagesOf hint * pageSize + pagesOf size * pageSize ≤ vmmUserEnd) (hpres : isPresent flags = true)
    (hflags : flags &&& 0x000FFFFFFFFFF000#64 = 0#64) {fuel : Nat} (hfuel : vmmUserEnd < fuel * pageSize) :
    ∃ r vm', s.vm.vmmAllocUser fuel space.pml4 hint size flags = some (r, vm') ∧
      (r = 0 → Undone s.vm vm' space.pml4) :=
  vmmAllocUser_ends (h.space hspace).tree (h.space hspace).noZero hfits hpres hflags hfuel

end SpacesInv

/-! ## Destruction

`vmm_destroy_space` in a state of a run: exactly once, and only its own.
-/

/-- Each table of the user half and the PML4 go to `pmm_free` once, each frame under a page at most once, and nothing
    else does, so no frame of another space and no table of the kernel's. What was handed over is free. -/
structure DestroysOnce (kernelPml4 : Nat) (s : Spaces σ) (space : Space) (vm' : Vm σ) (calls : List Nat) : Prop where
  tables {q f} : IsUser q → tableAt s.vm.mem space.pml4 q = some f → calls.count f = 1
  pml4 : calls.count space.pml4 = 1
  pages {p f} : Maps s.vm.mem space.pml4 p f → calls.count f ≤ 1
  own {f} : f ∈ calls → UserFrame s.vm.mem space.pml4 f
  others {other f} : other ∈ s.live → other.pml4 ≠ space.pml4 → f ∈ calls → ¬InSpace s.vm.mem other.pml4 f
  kernel {f} : f ∈ calls → Unused IsPath s.vm.mem kernelPml4 f
  free {f} : Free vm'.pmm f ↔ Free s.vm.pmm f ∨ f ∈ calls

/-- `vmm_destroy_space` frees all its frames, and has destroyed the space. -/
def Destroys (kernelPml4 : Nat) (s : Spaces σ) (space : Space) (headed : Nat → Bool) : Prop :=
  ∃ vm' calls, s.vm.destroyFrames space headed = some (vm', calls) ∧ DestroysOnce kernelPml4 s space vm' calls

/-- **`vmm_destroy_space`** of any space, in any state that is reached, frees what is its own, each frame once, and does
    not meet the panic of `pmm_free`, exactly when `kfree` finds the headers of the `vma_t`s of the space. What is left of
    the call then is the `kfree` of the `vmm_space_t`. -/
theorem destroy_once_iff (kernelPml4 : Nat) (s : Spaces σ) (space : Space) (blocks : SpaceBlocks)
    (h : SpacesReach kernelPml4 s) (hspace : space ∈ s.live) (hrefs : space.refs = 1) :
    (Destroys kernelPml4 s space blocks.vma ↔ ∀ k < space.vmas.length, blocks.vma k = true) ∧
    s.vm.vmmDestroySpace space blocks = (s.vm.destroyFrames space blocks.vma).bind (kfreeBlock blocks.space) := by
  refine ⟨⟨fun ⟨vm', calls, hrun, _⟩ => destroyFrames_headed hrun, fun hheaded => ?_⟩, vmmDestroySpace_last hrefs⟩
  have hinv := SpacesInv.reach h
  obtain ⟨vm', calls, hrun, hd⟩ :=
    destroyFrames_spec (hinv.space hspace) (fun v hv => hinv.vmas hspace hv) hheaded
  have hlive : s.Live space.pml4 := ⟨space, hspace, rfl⟩
  have htables : ∀ {q f}, IsUser q → tableAt s.vm.mem space.pml4 q = some f → calls.count f = 1 :=
    fun hq ht => List.count_eq_one_of_mem hd.nodup (hd.mem.2 (.inl ⟨_, hq, ht⟩))
  refine ⟨vm', calls, hrun, ?_⟩
  exact {
    tables := htables
    pml4 := htables (q := []) ⟨⟨Nat.zero_le _, nofun⟩, nofun⟩ rfl
    pages := fun _ => List.nodup_iff_count_le_one.1 hd.nodup _
    own := hd.userFrame
    others := fun hother hne hf => hinv.apart.apart hlive ⟨_, hother, rfl⟩ hne.symm (hd.userFrame hf)
    kernel := fun hf => hinv.apart.kernelApart hlive (hd.userFrame hf)
    free := fun {f} => by
      rw [hd.free]
      refine or_congr_right (and_iff_left_of_imp fun hf => ?_)
      exact hinv.apart.managed hlive (hd.userFrame hf) }

/-- A space with one page, under two VMAs that overlap, is reached. -/
theorem overlap_reach : ∃ (s : Spaces SoundPmm) (space : Space),
    SpacesReach 0x1000 s ∧ space ∈ s.live ∧ space.refs = 1 ∧ space.vmas.length = 2 := by
  have hroot : (clearedVm.vmmCreateSpace 0x1000 true).1 = 0x2000 := by decide +kernel
  have hframe : (clearedVm.vmmCreateSpace 0x1000 true).2.alloc.1 ≠ 0 := by decide +kernel
  have r₀ : SpacesReach 0x1000 ⟨clearedVm, []⟩ := .init ⟨by decide, clearedVm_tree.apart⟩
  have r₁ := r₀.step (.create true)
  rw [hroot, if_neg (by decide), List.nil_append] at r₁
  generalize (clearedVm.vmmCreateSpace 0x1000 true).2 = vm at r₁ hframe
  have hva : 0x400000 < vmmUserEnd := by decide
  have r₂ := (r₁.step .alloc).step (@SpaceStep.map _ _ 0x1000 ⟨vm.alloc.2, [⟨0x2000, 1, []⟩]⟩ ⟨0x2000, 1, []⟩ 0x400000
    vm.alloc.1 vmmUserRw List.mem_cons_self hva ((SpacesInv.reach r₁).loose hframe) (by decide) (by decide))
  have hend : 0x400000 + 0x2000 ≤ vmmUserEnd := by decide
  have r₃ := (r₂.step (@SpaceStep.createVma _ _ _ _ [] _ [] 0x400000 0x2000 3 2 rfl hend)).step
    (@SpaceStep.createVma _ _ _ _ [] _ [] 0x400000 0x2000 3 2 rfl hend)
  exact ⟨_, _, r₃, List.mem_cons_self, rfl, rfl⟩

/-- With both `vma_t`s from the free list of the heap the space is destroyed. -/
theorem destroy_once_small : ∃ (s : Spaces SoundPmm) (space : Space), space.refs = 1 ∧ space.vmas.length = 2 ∧
    Destroys 0x1000 s space fun _ => true := by
  obtain ⟨s, space, hreach, hspace, hrefs, hvmas⟩ := overlap_reach
  exact ⟨s, space, hrefs, hvmas, (destroy_once_iff _ s space ⟨_, true⟩ hreach hspace hrefs).1.2 fun _ _ => rfl⟩

/-- With both from their slab cache, as `kmalloc` serves them, `kfree` panics at the first, and no table is freed. -/
theorem destroy_slab_panics : ∃ (s : Spaces SoundPmm) (space : Space), SpacesReach 0x1000 s ∧ space ∈ s.live ∧
    space.refs = 1 ∧ space.vmas.length = 2 ∧ s.vm.vmmDestroySpace space ⟨fun _ => false, false⟩ = none ∧
    ¬Destroys 0x1000 s space fun _ => false := by
  obtain ⟨s, space, hreach, hspace, hrefs, hvmas⟩ := overlap_reach
  have hnone : s.vm.destroyFrames space (fun _ => false) = none := by
    by_contra hsome
    obtain ⟨out, hout⟩ := Option.ne_none_iff_exists'.1 hsome
    exact absurd (destroyFrames_headed hout 0 (by omega)) (by decide)
  refine ⟨s, space, hreach, hspace, hrefs, hvmas, ?_, ?_⟩
  · rw [vmmDestroySpace_last hrefs, hnone]
    rfl
  · rintro ⟨vm', calls, hrun, -⟩
    rw [hnone] at hrun
    cases hrun

end MyUnix.Mm
