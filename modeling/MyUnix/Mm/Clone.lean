import MyUnix.Mm.FrameCost
import MyUnix.Mm.Spaces

/-!
# `Mm.Clone` — `vmm_clone_space`

The pages of the VMAs are copied one after the other, each to a frame of its own in a new space, and each VMA is copied
after its pages. No failure is reported: where there is no frame the page is left out, where there is none for a table
the frame of the page is mapped nowhere, and where there is no memory for the `vma_t` its pages are in no VMA. The heap
may take frames for itself whenever it is asked, and keeps them.

`CopyPlan` follows only how many frames are taken and which pages are mapped. `Copying` relates the machine to it, and
`cloned_destroyed` says when `vmm_destroy_space` gives back all that the copy took.

What a copy comes to is planned without memory (`CopyPlan`): from the list of the pages that are mapped and the number
of frames one can say which pages are copied, how many tables are made and whether a frame is lost. The plan is a fold
with a counter, and the code follows it step by step as long as there are frames; once they have run out, nothing more
is mapped.

The heap takes frames for itself in between, when it has to grow. They are mapped in the kernel's half and belong to
no space, so the copy does not see them except in the number that is left.
-/

namespace MyUnix.Mm

open Lib PageAlloc PathClass

variable {σ : Type} [PageAlloc σ]

/-- What the heap answers to a request: whether it has memory, and how many frames it takes for itself on the way. It
    maps them in the kernel's half, and `kfree` gives none of them back. -/
structure HeapAnswer where
  ok     : Bool
  frames : Nat

/-- The heap takes frames. -/
def Vm.heapTake : Nat → Vm σ → Vm σ
  | 0,     vm => vm
  | n + 1, vm => heapTake n vm.alloc.2

namespace Vm

variable (vm : Vm σ)

/-- The body of the loop over the pages of a VMA. -/
def clonePage (src dst : Nat) (flags : Pte) (addr : Nat) : Vm σ :=
  let srcPhys := vmmVirtToPhys vm.mem src addr
  if srcPhys = 0 then vm
  else
    let (dstPhys, vm) := vm.alloc
    if dstPhys = 0 then vm
    else
      let vm : Vm σ := { vm with mem := vm.mem.write dstPhys (vm.mem.read srcPhys pageSize) }
      (vm.vmmMap dst addr dstPhys flags).2

/-- The loop over the pages of a VMA. -/
def cloneVma (src dst : Nat) (vma : Vma) : Vm σ :=
  (List.range vma.count).foldl (fun vm i => vm.clonePage src dst vma.flags (vma.start + i * pageSize)) vm

/-- The loop over the VMAs, with those of the new space so far. `kmalloc` is what the heap answers for each `vma_t`. -/
def cloneVmas (src dst : Nat) (kmalloc : Nat → HeapAnswer) (vmas : List Vma) : Vm σ × List Vma :=
  vmas.zipIdx.foldl (fun out v =>
    ((out.1.cloneVma src dst v.1).heapTake (kmalloc v.2).frames,
      if (kmalloc v.2).ok then out.2 ++ [v.1] else out.2)) (vm, [])

/-- `vmm_clone_space`. What fails on its way is not reported: the new space then lacks pages. -/
def vmmCloneSpace (kernelPml4 : Nat) (src : Space) (kzalloc : HeapAnswer) (kmalloc : Nat → HeapAnswer) :
    Option Space × Vm σ :=
  let (dst, vm) := (vm.heapTake kzalloc.frames).vmmCreateSpace kernelPml4 kzalloc.ok
  if dst = 0 then (none, vm)
  else
    let (vm, vmas) := vm.cloneVmas src.pml4 dst kmalloc src.vmas
    (some ⟨dst, 1, vmas⟩, vm)

end Vm

/-! ## What copying comes to

`Copying` is the relation of the machine to the plan, and `Lost` what no space has any more.
-/

/-- The frames taken, the tables made, the pages mapped, and whether a frame was lost. -/
structure CopyPlan where
  used   : Nat
  tables : List (List Nat)
  pages  : List Nat
  lost   : Bool

namespace CopyPlan

/-- One page, with `total` frames in all. A page that is copied twice loses its first frame. -/
def step (total : Nat) (plan : CopyPlan) (p : Nat) : CopyPlan :=
  let new := (wayTo (p * pageSize)).filter (· ∉ plan.tables)
  if plan.used = total then plan
  else if total < plan.used + 1 + new.length then { plan with used := total, lost := true }
  else
    { used := plan.used + 1 + new.length, tables := plan.tables ++ new, pages := p :: plan.pages,
      lost := plan.lost || decide (p ∈ plan.pages) }

/-- The heap takes frames: none of them is the new space's. -/
def heap (total : Nat) : Nat → CopyPlan → CopyPlan
  | 0,     plan => plan
  | n + 1, plan =>
    heap total n (if plan.used = total then plan else { plan with used := plan.used + 1, lost := true })

end CopyPlan

/-- The pages that the loop over a VMA goes through. -/
def Vma.pages (vma : Vma) : List Nat := (List.range vma.count).map fun i => vma.start / pageSize + i

/-- Those of them that are mapped. -/
def Vma.mapped (m : ByteMem) (pml4 : Nat) (vma : Vma) : List Nat :=
  vma.pages.filter fun p => vmmVirtToPhys m pml4 (p * pageSize) ≠ 0

/-- All VMAs, numbered. -/
def copyPlan (total : Nat) (m : ByteMem) (src : Nat) (kmalloc : Nat → HeapAnswer) (vmas : List (Vma × Nat))
    (plan : CopyPlan) : CopyPlan :=
  vmas.foldl (fun plan v => ((v.1.mapped m src).foldl (.step total) plan).heap total (kmalloc v.2).frames) plan

/-- The VMAs whose `vma_t` could be had. -/
def keptVmas (kmalloc : Nat → HeapAnswer) (vmas : List Vma) : List Vma :=
  (vmas.zipIdx.filter fun v => (kmalloc v.2).ok).map Prod.fst

/-- A frame that was free, is not free now, and is not in the space. -/
def Lost (vm₀ vm : Vm σ) (dst f : Nat) : Prop := Free vm₀.pmm f ∧ ¬Free vm.pmm f ∧ ¬UserFrame vm.mem dst f

/-- From `vm₀` to `vm` the pages of `plan` were copied from `src` to `dst`. Once no frame is left, only the loss counts. -/
structure Copying (vm₀ vm : Vm σ) (kernelPml4 : Nat) (L : Nat → Prop) (src dst : Nat) (plan : CopyPlan) : Prop where
  apart : Apart vm kernelPml4 fun p => L p ∨ p = dst
  source : TablesKept vm₀.mem vm.mem src
  state : plan.used < freeCount vm₀.pmm → vm.pmm = takeFrames plan.used vm₀.pmm
  left : freeCount vm.pmm + plan.used = freeCount vm₀.pmm
  tables {q} : plan.used < freeCount vm₀.pmm → IsUser q → ((tableAt vm.mem dst q).isSome ↔ q = [] ∨ q ∈ plan.tables)
  own {f} : UserFrame vm.mem dst f → Free vm₀.pmm f
  free {f} : Free vm.pmm f → Free vm₀.pmm f
  pages {p} : (∃ f, Maps vm.mem dst p f) ↔ p ∈ plan.pages
  lost : (∃ f, Lost vm₀ vm dst f) ↔ plan.lost = true

/-! ## One page

A frame, a copy of the page, and `vmm_map` into the new space. There are three outcomes, and two spaces to be kept in
order.
-/

theorem TablesKept.trans {m m' m'' : ByteMem} {pml4 : Nat} (h : TablesKept m m' pml4) (h' : TablesKept m' m'' pml4) :
    TablesKept m m'' pml4 :=
  fun q t hq ht o ho => (h' q t hq ((h.tableAt_eq hq).trans ht) o ho).trans (h q t hq ht o ho)

/-- The tables of the plan are those that are not missing. -/
theorem tableCost_eq {m : ByteMem} {pml4 va : Nat} {tables : List (List Nat)}
    (h : ∀ q ∈ wayTo va, ((tableAt m pml4 q).isSome ↔ q ∈ tables)) :
    tableCost m pml4 va = ((wayTo va).filter (· ∉ tables)).length := by
  rw [tableCost]
  generalize wayTo va = l at *
  induction l with
  | nil => rfl
  | cons q l ih =>
    rw [List.map_cons, List.sum_cons, ih fun r hr => h r (List.mem_cons_of_mem q hr), List.filter_cons, missing]
    by_cases hq : q ∈ tables
    · rw [if_pos ((h q List.mem_cons_self).2 hq), if_neg (by simpa using hq), Nat.zero_add]
    · rw [if_neg (fun hs => hq ((h q List.mem_cons_self).1 hs)), if_pos (by simpa using hq), List.length_cons, Nat.add_comm]

/-- The frame `f` was taken and filled: the spaces stay as they are, and the frame is in none of them. -/
structure Filled (vm vm' : Vm σ) (kernelPml4 : Nat) (L : Nat → Prop) (f : Nat) : Prop where
  apart : Apart vm' kernelPml4 L
  kept {p} : L p → TablesKept vm.mem vm'.mem p
  kernel : Unused IsPath vm'.mem kernelPml4 f
  out {p} : L p → ¬InSpace vm'.mem p f
  fresh : Free vm.pmm f
  managed : Managed vm'.pmm f
  free {g} : Free vm'.pmm g ↔ Free vm.pmm g ∧ g ≠ f
  draws : Draws vm.pmm vm'.pmm 1

section

variable {vm vm' : Vm σ} {kernelPml4 : Nat} {L : Nat → Prop}

theorem Apart.fill (a : Apart vm kernelPml4 L) (h0 : vm.alloc.1 ≠ 0) {bs : List UInt8} (hlen : bs.length = pageSize) :
    Filled vm { vm.alloc.2 with mem := vm.alloc.2.mem.write vm.alloc.1 bs } kernelPml4 L vm.alloc.1 := by
  obtain ⟨hmem, hfree, hfree', hman⟩ := alloc_frame vm h0
  obtain ⟨-, hal, -⟩ := managed_spec (managed_of_free hfree)
  obtain ⟨hkernel, hspaces⟩ := a.free_out hfree
  have ha : AgreeOff vm.alloc.1 vm.mem (vm.alloc.2.mem.write vm.alloc.1 bs) := by
    intro x hx
    have hout : x < vm.alloc.1 ∨ vm.alloc.1 + bs.length ≤ x := by rwa [hlen]
    rw [ByteMem.write_out _ hout, hmem]
    exact agreeOff_clear x hx
  obtain ⟨hk, hL⟩ := a.agreeOff ha hal hkernel fun p hp q hq ht => hspaces p hp (.inl ⟨q, hq, ht⟩)
  exact {
    apart := a.quiet hk hL (fun f hf => .inl ((hfree' f).1 hf).1) hman
    kept := hL
    kernel := fun q hq ht => hkernel q hq ((hk.tableAt_eq hq).symm.trans ht)
    out := fun {p} hp hin => hspaces p hp ((hL hp).inSpace_iff.1 hin)
    fresh := hfree
    managed := (hman _).2 (managed_of_free hfree)
    free := hfree' _
    draws := @Draws.alloc σ _ vm.pmm h0 }

/-- Mapping the frame in one of the spaces. -/
theorem Filled.within {dst p f : Nat} {flags : Pte} (b : Filled vm vm' kernelPml4 L f) (hdst : L dst)
    (hp : p * pageSize < vmmUserEnd) (hflags : flags &&& 0x000FFFFFFFFFF000#64 = 0#64) :
    Within vm' (vm'.vmmMap dst (p * pageSize) f flags).2 dst fun g => g = f :=
  .map (b.apart.space hdst) hp b.managed (fun hf => (b.free.1 hf).2 rfl) (b.out hdst) hflags

end

/-- Page `p` of the user half was mapped to the fresh frame `f`, and tables were made. -/
structure MapsFresh (vm vm' : Vm σ) (pml4 p f : Nat) : Prop where
  fresh : Free vm.pmm f
  old {q t} : IsUser q → tableAt vm.mem pml4 q = some t → tableAt vm'.mem pml4 q = some t
  new {q t} : IsUser q → tableAt vm'.mem pml4 q = some t → tableAt vm.mem pml4 q = some t ∨ (Free vm.pmm t ∧ t ≠ f)
  free {g} : Free vm'.pmm g ↔ Free vm.pmm g ∧ g ≠ f ∧ ∀ q, IsUser q → tableAt vm'.mem pml4 q ≠ some g
  maps {q g} : Maps vm'.mem pml4 q g ↔ (q = p ∧ g = f) ∨ (q ≠ p ∧ Maps vm.mem pml4 q g)

/-- What is lost then was lost before, or is the frame that the page had. -/
theorem MapsFresh.lost_iff {vm₀ vm vm' : Vm σ} {pml4 p f : Nat} (m : MapsFresh vm vm' pml4 p f)
    (hown : ∀ {g}, UserFrame vm.mem pml4 g → Free vm₀.pmm g) (h : SpaceInv vm pml4) {g : Nat} :
    Lost vm₀ vm' pml4 g ↔ Lost vm₀ vm pml4 g ∨ Maps vm.mem pml4 p g := by
  constructor
  · rintro ⟨hwas, hnot, hout⟩
    have hgf : g ≠ f := by
      rintro rfl
      exact hout (.inr ⟨p, m.maps.2 (.inl ⟨rfl, rfl⟩)⟩)
    have hused : ¬Free vm.pmm g := by
      intro hfr
      exact hnot (m.free.2 ⟨hfr, hgf, fun q hq ht => hout (.inl ⟨q, hq, ht⟩)⟩)
    by_cases hin : UserFrame vm.mem pml4 g
    · rcases hin with ⟨q, hq, ht⟩ | ⟨q, hm⟩
      · exact absurd (.inl ⟨q, hq, m.old hq ht⟩) hout
      · by_cases hqp : q = p
        · exact .inr (hqp ▸ hm)
        · exact absurd (.inr ⟨q, m.maps.2 (.inr ⟨hqp, hm⟩)⟩) hout
    · exact .inl ⟨hwas, hused, hin⟩
  · -- neither is free, and neither is a table or under a page now
    intro hor
    have hwas : Free vm₀.pmm g := hor.elim (fun hl => hl.1) fun hm => hown (.inr ⟨p, hm⟩)
    have hused : ¬Free vm.pmm g := hor.elim (fun hl => hl.2.1) fun hm => (h.used hm).1
    have hgf : g ≠ f := by
      rintro rfl
      exact hused m.fresh
    refine ⟨hwas, fun hfr => hused (m.free.1 hfr).1, ?_⟩
    rintro (⟨q, hq, ht⟩ | ⟨q, hm⟩)
    · rcases m.new hq ht with ht | ⟨hfr, -⟩
      · rcases hor with hl | hm
        · exact hl.2.2 (.inl ⟨q, hq, ht⟩)
        · exact (h.used hm).2 q hq.1 ht
      · exact hused hfr
    · rcases m.maps.1 hm with ⟨-, hg⟩ | ⟨hqp, hm⟩
      · exact hgf hg
      · rcases hor with hl | hm'
        · exact hl.2.2 (.inr ⟨q, hm⟩)
        · exact hqp (h.inj hm hm')

/-- The store of the frame that was filled. -/
theorem Filled.mapsFresh {vm vm' vm₁ : Vm σ} {kernelPml4 : Nat} {L : Nat → Prop} {pml4 p t f : Nat} {e : Pte}
    (b : Filled vm vm' kernelPml4 L f) (hL : L pml4) (g : Grew IsPath vm' vm₁ pml4) (hp : p * pageSize < 2 ^ 47)
    (ht : tableAt vm₁.mem pml4 (ptPath (p * pageSize)) = some t) (hpres : isPresent e = true) (haddr : pteAddr e = f) :
    MapsFresh vm (vm₁.store (slot t (ptIdx (p * pageSize))) e) pml4 p f := by
  have hk := b.kept hL
  have w : Within vm' vm₁ pml4 fun _ => False := .grew (b.apart.space hL) g
  have s := setsPage_store w.space hp ht e
  obtain ⟨hnz, -, -⟩ := managed_spec b.managed
  generalize vm₁.store (slot t (ptIdx (p * pageSize))) e = vm'' at *
  exact {
    fresh := b.fresh
    old := fun hq hqt => (s.tables hq.1).trans (g.tables hq.1 ((hk.tableAt_eq hq.1).trans hqt))
    new := fun hq hqt => by
      rw [s.tables hq.1] at hqt
      rcases g.new hq.1 hqt with hqt | hfr
      · exact .inl ((hk.tableAt_eq hq.1).symm.trans hqt)
      · exact .inr (b.free.1 hfr)
    free := fun {f} => by
      rw [s.pmm, g.free, b.free, and_assoc]
      refine and_congr_right fun _ => and_congr_right fun _ => forall_congr' fun q => forall_congr' fun hq => ?_
      rw [s.tables hq.1]
    maps := fun {q f} => by
      have hsame : Maps vm₁.mem pml4 q f ↔ Maps vm.mem pml4 q f := by
        rw [Maps, g.same (reaches_all _), ← hk.maps_iff]
        rfl
      rw [s.maps_iff hp hpres (by rwa [haddr]), haddr, hsame] }

theorem isUser_way {va : Nat} (hva : va < 2 ^ 47) {q : List Nat} (hq : q ∈ wayTo va) : IsUser q ∧ q ≠ [] := by
  simp only [wayTo, List.mem_cons, List.not_mem_nil, or_false] at hq
  rcases hq with rfl | rfl | rfl
  · exact ⟨isUser_pml4 hva, List.cons_ne_nil _ _⟩
  · exact ⟨isUser_pdpt hva, List.cons_ne_nil _ _⟩
  · exact ⟨isUser_pd hva, List.cons_ne_nil _ _⟩

/-- The tables that the plan makes for a page. -/
def CopyPlan.new (plan : CopyPlan) (p : Nat) : List (List Nat) := (wayTo (p * pageSize)).filter (· ∉ plan.tables)

theorem CopyPlan.step_eq {plan : CopyPlan} {total : Nat} (hlt : plan.used < total) (p : Nat) : plan.step total p =
    if total < plan.used + 1 + (plan.new p).length then { plan with used := total, lost := true }
    else
      { used := plan.used + 1 + (plan.new p).length, tables := plan.tables ++ plan.new p, pages := p :: plan.pages,
        lost := plan.lost || decide (p ∈ plan.pages) } := by
  rw [CopyPlan.step, if_neg (by omega)]
  rfl

namespace Copying

variable {vm₀ vm vm' : Vm σ} {kernelPml4 : Nat} {L : Nat → Prop} {src dst p f : Nat} {plan : CopyPlan} {flags : Pte}

/-- Nothing is free: nothing happens. -/
theorem allocNone (h : Copying vm₀ vm kernelPml4 L src dst plan) (h0 : vm.alloc.1 = 0) :
    Copying vm₀ vm.alloc.2 kernelPml4 L src dst plan := by
  obtain ⟨hmem, hfree, -⟩ := alloc_zero vm h0
  have hcount : freeCount vm.pmm = 0 := pmmAlloc_zero_iff.1 h0
  have hleft := h.left
  have hfull : ¬plan.used < freeCount vm₀.pmm := by omega
  exact {
    apart := h.apart.alloc
    source := by
      rw [hmem]
      exact h.source
    state := fun hlt => absurd hlt hfull
    left := by
      rw [freeCount_congr hfree]
      exact h.left
    tables := fun hlt => absurd hlt hfull
    own := fun hf => h.own (hmem ▸ hf)
    free := fun hf => h.free ((hfree _).1 hf)
    pages := by
      rw [hmem]
      exact h.pages
    lost := by
      rw [← h.lost]
      refine exists_congr fun f => ?_
      rw [Lost, Lost, hmem, hfree] }

section

variable (h : Copying vm₀ vm kernelPml4 L src dst plan) (b : Filled vm vm' kernelPml4 (fun p => L p ∨ p = dst) f)
include h b

/-- The tables for the page cost what the plan takes for them. -/
theorem cost (hused : plan.used < freeCount vm₀.pmm) (hp : p * pageSize < 2 ^ 47) :
    tableCost vm'.mem dst (p * pageSize) = (plan.new p).length := by
  refine tableCost_eq fun q hq => ?_
  obtain ⟨huser, hnil⟩ := isUser_way hp hq
  rw [(b.kept (.inr rfl)).tableAt_eq huser.1, h.tables hused huser, or_iff_right hnil]

/-- Whatever comes of mapping the frame, the spaces stay apart, and the source is as it was. -/
theorem mapped {vm'' : Vm σ} (hsrc : L src) (hne : dst ≠ src) (w : Within vm' vm'' dst fun g => g = f) :
    Apart vm'' kernelPml4 (fun p => L p ∨ p = dst) ∧ TablesKept vm₀.mem vm''.mem src ∧
      ∀ {g}, UserFrame vm''.mem dst g → Free vm₀.pmm g := by
  have hdst : L dst ∨ dst = dst := .inr rfl
  have hsrc' : L src ∨ src = dst := .inl hsrc
  refine ⟨b.apart.within hdst w ?_, ?_, fun {g} huf => ?_⟩
  · rintro g rfl
    exact ⟨b.managed, fun hf => (b.free.1 hf).2 rfl, b.kernel, fun q hq => b.out hq⟩
  · refine (h.source.trans (b.kept hsrc')).trans
      (w.kept (b.apart.space hsrc').tree.tree.aligned fun {q t} hq ht => ⟨fun huf => ?_, ?_⟩)
    · exact b.apart.apart hdst hsrc' hne huf (.inl ⟨q, hq, ht⟩)
    · exact (b.apart.space hsrc').tree.apart hq ht
  · rcases w.userFrame huf with huf | hfr | rfl
    · exact h.own ((b.kept hdst).userFrame_iff.1 huf)
    · exact h.free (b.free.1 hfr).1
    · exact h.free b.fresh

/-- No frame for a table: the frame of the page is lost. -/
theorem short {vm'' : Vm σ} (hsrc : L src) (hne : dst ≠ src) (w : Within vm' vm'' dst fun g => g = f)
    (g : Grew IsPath vm' vm'' dst) (hfull : ∀ f, ¬Free vm''.pmm f) :
    Copying vm₀ vm'' kernelPml4 L src dst { plan with used := freeCount vm₀.pmm, lost := true } := by
  obtain ⟨apart, source, own⟩ := h.mapped b hsrc hne w
  have hmaps : ∀ {q f}, Maps vm''.mem dst q f ↔ Maps vm.mem dst q f := by
    intro q f
    rw [Maps, g.same (reaches_all _), ← (b.kept (.inr rfl)).maps_iff]
    rfl
  have hlost : Lost vm₀ vm'' dst f := by
    refine ⟨h.free b.fresh, hfull f, ?_⟩
    rintro (⟨q, hq, ht⟩ | ⟨q, hm⟩)
    · rcases g.new hq.1 ht with ht | hfr
      · exact b.out (.inr rfl) (.inl ⟨q, hq.1, ht⟩)
      · exact (b.free.1 hfr).2 rfl
    · exact b.out (.inr rfl) (.inr ⟨q, (b.kept (.inr rfl)).maps_iff.2 (hmaps.1 hm)⟩)
  exact {
    apart := apart
    source := source
    state := fun hlt => absurd hlt (Nat.lt_irrefl _)
    left := by rw [freeCount_zero.2 hfull, Nat.zero_add]
    tables := fun hlt => absurd hlt (Nat.lt_irrefl _)
    own := own
    free := fun hf => absurd hf (hfull _)
    pages := by
      simp only [hmaps]
      exact h.pages
    lost := iff_of_true ⟨f, hlost⟩ rfl }

/-- The page is mapped. -/
theorem copied {vm'' : Vm σ} {new : List (List Nat)} (hsrc : L src) (hne : dst ≠ src)
    (w : Within vm' vm'' dst fun g => g = f) (m : MapsFresh vm vm'' dst p f)
    (hd : Draws vm'.pmm vm''.pmm new.length) (hused : plan.used < freeCount vm₀.pmm)
    (hadds : ∀ q, IsUser q → ((tableAt vm''.mem dst q).isSome ↔ (q = [] ∨ q ∈ plan.tables) ∨ q ∈ new)) :
    Copying vm₀ vm'' kernelPml4 L src dst
      { used := plan.used + 1 + new.length, tables := plan.tables ++ new, pages := p :: plan.pages,
        lost := plan.lost || decide (p ∈ plan.pages) } := by
  obtain ⟨apart, source, own⟩ := h.mapped b hsrc hne w
  have hdraws := b.draws.trans hd
  exact {
    apart := apart
    source := source
    state := fun _ => by
      rw [hdraws.state, h.state hused, ← takeFrames_add, Nat.add_assoc]
    left := by
      have hleft := h.left
      have hleft' := hdraws.left
      simp only
      omega
    tables := fun {q} _ hq => by rw [hadds q hq, List.mem_append, or_assoc]
    own := own
    free := fun hf => h.free (m.free.1 hf).1
    pages := fun {q} => by
      rw [List.mem_cons, ← h.pages]
      constructor
      · rintro ⟨g, hm⟩
        exact (m.maps.1 hm).imp (fun hq => hq.1) fun hm => ⟨g, hm.2⟩
      · rintro (rfl | ⟨g, hm⟩)
        · exact ⟨f, m.maps.2 (.inl ⟨rfl, rfl⟩)⟩
        · by_cases hqp : q = p
          · exact ⟨f, m.maps.2 (.inl ⟨hqp, rfl⟩)⟩
          · exact ⟨g, m.maps.2 (.inr ⟨hqp, hm⟩)⟩
    lost := by
      simp only [m.lost_iff h.own (h.apart.space (.inr rfl)), exists_or, h.lost, h.pages, Bool.or_eq_true, decide_eq_true_eq] }

end

/-- **A page that is mapped** is copied, or left out, or its frame is lost. -/
theorem page (h : Copying vm₀ vm kernelPml4 L src dst plan) (hsrc : L src) (hne : dst ≠ src) (hp : p * pageSize < vmmUserEnd)
    (hpres : isPresent flags = true) (hflags : flags &&& 0x000FFFFFFFFFF000#64 = 0#64)
    (hmap : vmmVirtToPhys vm₀.mem src (p * pageSize) ≠ 0) :
    Copying vm₀ (vm.clonePage src dst flags (p * pageSize)) kernelPml4 L src dst (plan.step (freeCount vm₀.pmm) p) := by
  have hlt : p * pageSize < 2 ^ 47 := Nat.lt_trans hp (by decide)
  have hleft := h.left
  rw [Vm.clonePage, h.source.virtToPhys_eq]
  simp only
  rw [if_neg hmap]
  by_cases h0 : vm.alloc.1 = 0
  · -- no frame for the page
    have hcount : freeCount vm.pmm = 0 := pmmAlloc_zero_iff.1 h0
    rw [if_pos h0, CopyPlan.step, if_pos (by omega)]
    exact h.allocNone h0
  · rw [if_neg h0]
    have hlen : (vm.alloc.2.mem.read (vmmVirtToPhys vm₀.mem src (p * pageSize)) pageSize).length = pageSize :=
      ByteMem.length_read _
    generalize vm.alloc.2.mem.read (vmmVirtToPhys vm₀.mem src (p * pageSize)) pageSize = bs at *
    have b := h.apart.fill h0 hlen
    generalize ({ vm.alloc.2 with mem := vm.alloc.2.mem.write vm.alloc.1 bs } : Vm σ) = vm' at *
    generalize vm.alloc.1 = f at *
    have w := b.within (.inr rfl) hp hflags
    obtain ⟨-, hal, h52⟩ := managed_spec b.managed
    have hcount := b.draws.left
    have hused : plan.used < freeCount vm₀.pmm := by omega
    have hcost := h.cost b hused hlt
    rw [CopyPlan.step_eq hused]
    rcases vmmMap_draws (b.apart.space (.inr rfl)).tree hlt (Nat.mul_mod_left _ _) hal flags with ⟨hfew, g, hfull⟩ |
      ⟨hle, vm₁, t, g, ht, hstore, hd, hadds⟩
    · rw [if_pos (by omega)]
      exact h.short b hsrc hne w g hfull
    · rw [if_neg (by omega)]
      have haddr : pteAddr (BitVec.ofNat 64 f ||| flags) = f := pteAddr_or hal h52 hflags
      have m := b.mapsFresh (.inr rfl) g hlt ht (isPresent_or hpres) haddr
      have s := setsPage_store (Within.grew (b.apart.space (.inr rfl)) g : Within vm' vm₁ dst fun _ => False).space hlt ht
        (BitVec.ofNat 64 f ||| flags)
      rw [hcost] at hd
      rw [hstore] at w ⊢
      refine h.copied b hsrc hne w m hd hused fun q hq => ?_
      rw [s.tables hq.1, hadds q hq.1, (b.kept (.inr rfl)).tableAt_eq hq.1, h.tables hused hq]
      -- the tables on the way that the plan has already are not new
      rw [CopyPlan.new, List.mem_filter, decide_eq_true_eq]
      tauto

/-! ## All pages

An induction over the pages of a VMA and then over the VMAs, with the heap's answer for each `vma_t` in between.
-/

/-- The pages of a list, those that are mapped in the source. -/
theorem run (hsrc : L src) (hne : dst ≠ src) (hpres : isPresent flags = true)
    (hflags : flags &&& 0x000FFFFFFFFFF000#64 = 0#64) (ps : List Nat) : ∀ {vm : Vm σ} {plan : CopyPlan},
    (∀ p ∈ ps, p * pageSize < vmmUserEnd) → Copying vm₀ vm kernelPml4 L src dst plan →
    Copying vm₀ (ps.foldl (fun vm p => vm.clonePage src dst flags (p * pageSize)) vm) kernelPml4 L src dst
      ((ps.filter fun p => vmmVirtToPhys vm₀.mem src (p * pageSize) ≠ 0).foldl (.step (freeCount vm₀.pmm)) plan) := by
  induction ps with
  | nil => exact fun _ h => h
  | cons p ps ih =>
    intro vm plan hps h
    have hrest : ∀ q ∈ ps, q * pageSize < vmmUserEnd := fun q hq => hps q (List.mem_cons_of_mem p hq)
    rw [List.foldl_cons, List.filter_cons]
    by_cases hmap : vmmVirtToPhys vm₀.mem src (p * pageSize) = 0
    · rw [if_neg (by simpa using hmap)]
      have hsame : vm.clonePage src dst flags (p * pageSize) = vm := by
        rw [Vm.clonePage, h.source.virtToPhys_eq]
        exact if_pos hmap
      rw [hsame]
      exact ih hrest h
    · rw [if_pos (by simpa using hmap), List.foldl_cons]
      exact ih hrest (h.page hsrc hne (hps p List.mem_cons_self) hpres hflags hmap)

/-- The VMA is one of `vmm_create_vma`. -/
theorem vma (hsrc : L src) (hne : dst ≠ src) {v : Vma} (hv : UserVma v) (hpres : isPresent v.flags = true)
    (hflags : v.flags &&& 0x000FFFFFFFFFF000#64 = 0#64) (h : Copying vm₀ vm kernelPml4 L src dst plan) :
    Copying vm₀ (vm.cloneVma src dst v) kernelPml4 L src dst
      ((v.mapped vm₀.mem src).foldl (.step (freeCount vm₀.pmm)) plan) := by
  obtain ⟨a, ha⟩ : ∃ a, v.start = a * pageSize :=
    ⟨v.start / pageSize, (Nat.div_mul_cancel (Nat.dvd_of_mod_eq_zero hv.start_mod)).symm⟩
  have hdiv : v.start / pageSize = a := by rw [ha, Nat.mul_div_cancel _ (by decide)]
  have huser : ∀ p ∈ v.pages, p * pageSize < vmmUserEnd := by
    intro p hp
    obtain ⟨i, hi, rfl⟩ := List.mem_map.1 hp
    have hlt := List.mem_range.1 hi
    have hbelow := hv.below
    rw [Vma.count, pageSize] at hlt
    rw [hdiv, Nat.add_mul, ← ha, pageSize]
    omega
  have hrun := run hsrc hne hpres hflags v.pages huser h
  rw [Vma.pages, List.foldl_map, hdiv] at hrun
  rw [Vm.cloneVma, Vma.mapped, Vma.pages, hdiv, ha]
  simp only [← Nat.add_mul]
  exact hrun

/-- A frame for the heap. -/
theorem heapOne (h : Copying vm₀ vm kernelPml4 L src dst plan) (hsrc : L src) :
    Copying vm₀ vm.alloc.2 kernelPml4 L src dst (if plan.used = freeCount vm₀.pmm then plan
      else { plan with used := plan.used + 1, lost := true }) := by
  have hleft := h.left
  by_cases h0 : vm.alloc.1 = 0
  · have hcount : freeCount vm.pmm = 0 := pmmAlloc_zero_iff.1 h0
    rw [if_pos (by omega)]
    exact h.allocNone h0
  · obtain ⟨-, hfree, hfree', -⟩ := alloc_frame vm h0
    obtain ⟨-, hkept⟩ := h.apart.alloc_kept h0
    have hk : TablesKept vm.mem vm.alloc.2.mem dst := hkept (.inr rfl)
    have hcount := freeCount_remove hfree hfree'
    have hlost : Lost vm₀ vm.alloc.2 dst vm.alloc.1 := by
      refine ⟨h.free hfree, fun hf => ((hfree' _).1 hf).2 rfl, fun huf => ?_⟩
      exact (h.apart.space (.inr rfl)).not_free (hk.userFrame_iff.1 huf).inSpace hfree
    rw [if_neg (by omega)]
    exact {
      apart := h.apart.alloc
      source := h.source.trans (hkept (.inl hsrc))
      state := fun hlt => by
        rw [takeFrames_add, ← h.state (Nat.lt_of_succ_lt hlt)]
        rfl
      left := by
        simp only
        omega
      tables := fun {q} hlt hq => by
        rw [hk.tableAt_eq hq.1]
        exact h.tables (Nat.lt_of_succ_lt hlt) hq
      own := fun hf => h.own (hk.userFrame_iff.1 hf)
      free := fun hf => h.free ((hfree' _).1 hf).1
      pages := fun {p} => by
        simp only [hk.maps_iff]
        exact h.pages
      lost := iff_of_true ⟨_, hlost⟩ rfl }

theorem heap (hsrc : L src) : ∀ (n : Nat) {vm : Vm σ} {plan : CopyPlan}, Copying vm₀ vm kernelPml4 L src dst plan →
    Copying vm₀ (vm.heapTake n) kernelPml4 L src dst (plan.heap (freeCount vm₀.pmm) n)
  | 0,     _, _, h => h
  | n + 1, _, _, h => heap hsrc n (h.heapOne hsrc)

/-- All VMAs. -/
theorem vmas (hsrc : L src) (hne : dst ≠ src) (kmalloc : Nat → HeapAnswer) (vs : List (Vma × Nat)) :
    ∀ {vm : Vm σ} {plan : CopyPlan},
    (∀ v ∈ vs, UserVma v.1 ∧ isPresent v.1.flags = true ∧ v.1.flags &&& 0x000FFFFFFFFFF000#64 = 0#64) →
    Copying vm₀ vm kernelPml4 L src dst plan →
    Copying vm₀ (vs.foldl (fun vm v => (vm.cloneVma src dst v.1).heapTake (kmalloc v.2).frames) vm) kernelPml4 L src dst
      (copyPlan (freeCount vm₀.pmm) vm₀.mem src kmalloc vs plan) := by
  induction vs with
  | nil => exact fun _ h => h
  | cons v vs ih =>
    intro vm plan hvs h
    obtain ⟨hv, hpres, hflags⟩ := hvs v List.mem_cons_self
    rw [List.foldl_cons, copyPlan, List.foldl_cons]
    exact ih (fun w hw => hvs w (List.mem_cons_of_mem v hw)) ((h.vma hsrc hne hv hpres hflags).heap hsrc _)

/-- The new space, before the first page. -/
theorem start {kzalloc : Bool} (a : Apart vm kernelPml4 L) (hsrc : L src)
    (h0 : (vm.vmmCreateSpace kernelPml4 kzalloc).1 ≠ 0) : (vm.vmmCreateSpace kernelPml4 kzalloc).1 ≠ src ∧
    Copying vm (vm.vmmCreateSpace kernelPml4 kzalloc).2 kernelPml4 L src (vm.vmmCreateSpace kernelPml4 kzalloc).1
      ⟨1, [], [], false⟩ := by
  have hkernel : KernelTables vm kernelPml4 := ⟨a.kernel.aligned, fun hq ht => a.kernel.used hq.1 ht⟩
  have hown := fun {f} => @newSpace_own σ _ vm kernelPml4 hkernel kzalloc h0 f
  obtain ⟨hfree, apart⟩ := a.create h0
  obtain ⟨-, hkept⟩ := a.create_kept h0
  have hroot : UserFrame (vm.vmmCreateSpace kernelPml4 kzalloc).2.mem (vm.vmmCreateSpace kernelPml4 kzalloc).1
      (vm.vmmCreateSpace kernelPml4 kzalloc).1 := .inl ⟨[], ⟨⟨Nat.zero_le _, nofun⟩, nofun⟩, rfl⟩
  have hspace := apart.space (.inr rfl)
  obtain ⟨hf, heq⟩ := vmmCreateSpace_eq h0
  have hfree' : ∀ f, Free (vm.vmmCreateSpace kernelPml4 kzalloc).2.pmm f ↔
      Free vm.pmm f ∧ f ≠ (vm.vmmCreateSpace kernelPml4 kzalloc).1 := by
    rw [heq]
    exact (alloc_frame vm hf).2.2.1
  have hstate : (vm.vmmCreateSpace kernelPml4 kzalloc).2.pmm = takeFrames 1 vm.pmm := by
    rw [heq]
    rfl
  generalize (vm.vmmCreateSpace kernelPml4 kzalloc).1 = dst at *
  generalize (vm.vmmCreateSpace kernelPml4 kzalloc).2 = vm' at *
  -- a new space has its PML4, and no page
  have hnone : ∀ {p f}, ¬Maps vm'.mem dst p f := by
    intro p f hm
    obtain rfl := hown (.inr ⟨p, hm⟩)
    exact (hspace.used hm).2 [] ⟨Nat.zero_le _, nofun⟩ rfl
  refine ⟨?_, ?_⟩
  · -- the PML4 of the source was in use before, the new one was free
    rintro rfl
    exact (a.space hsrc).not_free (.inl ⟨[], ⟨Nat.zero_le _, nofun⟩, rfl⟩) hfree
  · exact {
      apart := apart
      source := hkept hsrc
      state := fun _ => hstate
      left := freeCount_remove hfree hfree'
      tables := fun {q} _ hq => by
        rw [Option.isSome_iff_exists]
        constructor
        · rintro ⟨t, ht⟩
          obtain rfl := hown (.inl ⟨q, hq, ht⟩)
          exact .inl (hspace.tree.tree.unique (p := []) ⟨⟨Nat.zero_le _, nofun⟩, nofun⟩ hq.1 rfl ht)
        · rintro (rfl | hmem)
          · exact ⟨dst, rfl⟩
          · cases hmem
      own := fun hf => hown hf ▸ hfree
      free := fun hf => ((hfree' _).1 hf).1
      pages := iff_of_false (fun ⟨_, hm⟩ => hnone hm) List.not_mem_nil
      lost := by
        refine iff_of_false ?_ (by decide)
        rintro ⟨f, hwas, hnot, hout⟩
        apply hnot
        rw [hfree']
        refine ⟨hwas, ?_⟩
        rintro rfl
        exact hout hroot }

end Copying

/-! ## The whole call

The copy is a space in order, and it is asked what `vmm_destroy_space` can give back of it later: this is what a
failing `fork` does.
-/

/-- A VMA that `vmm_create_vma` made for a range below `VMM_USER_END`. -/
def CreatedVma (v : Vma) : Prop :=
  ∃ start size prot mapFlags, start + size ≤ vmmUserEnd ∧ v = vmmCreateVma start size prot mapFlags

theorem CreatedVma.spec {v : Vma} (h : CreatedVma v) :
    UserVma v ∧ isPresent v.flags = true ∧ v.flags &&& 0x000FFFFFFFFFF000#64 = 0#64 := by
  obtain ⟨start, size, prot, mapFlags, hend, rfl⟩ := h
  obtain ⟨hpres, -, hflags⟩ := Refreshed.protFlags_bits prot
  exact ⟨userVma_create hend prot mapFlags, hpres, hflags⟩

/-- A VMA of a space that is there after a step was there before, or was made by `vmm_create_vma`. -/
theorem SpaceStep.created {kernelPml4 : Nat} {s s' : Spaces σ} (hstep : SpaceStep kernelPml4 s s')
    (h : ∀ {space v}, space ∈ s.live → v ∈ space.vmas → CreatedVma v) {space : Space} {v : Vma} (hspace : space ∈ s'.live)
    (hv : v ∈ space.vmas) : CreatedVma v := by
  cases hstep with
  | create kzalloc =>
    simp only at hspace
    split at hspace
    · exact h hspace hv
    · rcases List.mem_append.1 hspace with hspace | hlast
      · exact h hspace hv
      · rw [List.mem_singleton.1 hlast] at hv
        cases hv
  | alloc => exact h hspace hv
  | free hf hout => exact h hspace hv
  | store hf hkernel hspaces ha => exact h hspace hv
  | map hspace' hva hf hpres hflags => exact h hspace hv
  | unmap hspace' hva => exact h hspace hv
  | freeUser hspace' hend hout => exact h hspace hv
  | @createVma before space' after start size prot mapFlags hlive hend =>
    rcases List.mem_append.1 hspace with hspace | hspace
    · exact h (hlive ▸ List.mem_append_left _ hspace) hv
    · rcases List.mem_cons.1 hspace with rfl | hspace
      · rcases List.mem_append.1 hv with hv | hlast
        · exact h (hlive ▸ List.mem_append_right _ List.mem_cons_self) hv
        · exact ⟨start, size, prot, mapFlags, hend, List.mem_singleton.1 hlast⟩
      · exact h (hlive ▸ List.mem_append_right _ (List.mem_cons_of_mem _ hspace)) hv
  | @destroy before space' after blocks vm' calls hlive hrefs hout =>
    refine h ?_ hv
    rw [hlive]
    rcases List.mem_append.1 hspace with hspace | hspace
    · exact List.mem_append_left _ hspace
    · exact List.mem_append_right _ (List.mem_cons_of_mem _ hspace)

/-- The VMAs of the spaces that are there. -/
theorem SpacesReach.created {kernelPml4 : Nat} {s : Spaces σ} (h : SpacesReach kernelPml4 s) {space : Space} {v : Vma}
    (hspace : space ∈ s.live) (hv : v ∈ space.vmas) : CreatedVma v := by
  induction h generalizing space v with
  | init h => cases hspace
  | step _ hstep ih => exact hstep.created ih hspace hv

theorem cloneVmas_eq (vm : Vm σ) (src dst : Nat) (kmalloc : Nat → HeapAnswer) (vmas : List Vma) :
    vm.cloneVmas src dst kmalloc vmas =
      (vmas.zipIdx.foldl (fun vm v => (vm.cloneVma src dst v.1).heapTake (kmalloc v.2).frames) vm,
        keptVmas kmalloc vmas) := by
  have hgen : ∀ (vs : List (Vma × Nat)) (vm : Vm σ) (acc : List Vma), vs.foldl (fun out v =>
      ((out.1.cloneVma src dst v.1).heapTake (kmalloc v.2).frames,
        if (kmalloc v.2).ok then out.2 ++ [v.1] else out.2)) (vm, acc) =
      (vs.foldl (fun vm v => (vm.cloneVma src dst v.1).heapTake (kmalloc v.2).frames) vm,
        acc ++ (vs.filter fun v => (kmalloc v.2).ok).map Prod.fst) := by
    intro vs
    induction vs with
    | nil => exact fun vm acc => by simp
    | cons v vs ih =>
      intro vm acc
      rw [List.foldl_cons, ih, List.foldl_cons, List.filter_cons]
      cases (kmalloc v.2).ok <;> simp
  rw [Vm.cloneVmas, hgen, keptVmas, List.nil_append]

theorem keptVmas_subset {kmalloc : Nat → HeapAnswer} {vmas : List Vma} {v : Vma} (h : v ∈ keptVmas kmalloc vmas) :
    v ∈ vmas := by
  obtain ⟨⟨w, i⟩, hw, rfl⟩ := List.mem_map.1 h
  exact (List.mem_zipIdx' (List.mem_of_mem_filter hw)).2 ▸ List.getElem_mem _

/-- Frames may have been taken, and nothing happened to any space. -/
structure Undisturbed (vm vm' : Vm σ) (kernelPml4 : Nat) (L : Nat → Prop) : Prop where
  kernel : TablesKept vm.mem vm'.mem kernelPml4
  kept {p} : L p → TablesKept vm.mem vm'.mem p
  free {f} : Free vm'.pmm f → Free vm.pmm f
  managed {f} : Managed vm'.pmm f ↔ Managed vm.pmm f

namespace Undisturbed

variable {vm vm' vm'' : Vm σ} {kernelPml4 : Nat} {L : Nat → Prop}

theorem refl (vm : Vm σ) : Undisturbed vm vm kernelPml4 L where
  kernel _ _ _ _ _ _ := rfl
  kept _ _ _ _ _ _ _ := rfl
  free hf := hf
  managed := Iff.rfl

theorem trans (h : Undisturbed vm vm' kernelPml4 L) (h' : Undisturbed vm' vm'' kernelPml4 L) :
    Undisturbed vm vm'' kernelPml4 L where
  kernel := h.kernel.trans h'.kernel
  kept hp := (h.kept hp).trans (h'.kept hp)
  free hf := h.free (h'.free hf)
  managed := h'.managed.trans h.managed

theorem apart (h : Undisturbed vm vm' kernelPml4 L) (a : Apart vm kernelPml4 L) : Apart vm' kernelPml4 L :=
  a.quiet h.kernel h.kept (fun _ hf => .inl (h.free hf)) fun _ => h.managed

theorem alloc (a : Apart vm kernelPml4 L) : Undisturbed vm vm.alloc.2 kernelPml4 L := by
  by_cases h0 : vm.alloc.1 = 0
  · obtain ⟨hmem, hfree, hman⟩ := alloc_zero vm h0
    have hsame : ∀ p, TablesKept vm.mem vm.alloc.2.mem p := by
      intro p q t _ _ o _
      rw [hmem]
    exact ⟨hsame _, fun _ => hsame _, fun {f} => (hfree f).1, fun {f} => hman f⟩
  · obtain ⟨-, -, hfree, hman⟩ := alloc_frame vm h0
    obtain ⟨hk, hL⟩ := a.alloc_kept h0
    exact ⟨hk, hL, fun {f} hf => ((hfree f).1 hf).1, fun {f} => hman f⟩

end Undisturbed

/-- The heap does not take any frame: it asks for none, or none is free. -/
def Spares (n : Nat) (pmm : σ) : Prop := n = 0 ∨ freeCount pmm = 0

theorem heapTake_undisturbed {kernelPml4 : Nat} {L : Nat → Prop} : ∀ (n : Nat) {vm : Vm σ}, Apart vm kernelPml4 L →
    Undisturbed vm (vm.heapTake n) kernelPml4 L
  | 0,     vm, _ => .refl vm
  | n + 1, _,  a => (Undisturbed.alloc a).trans (heapTake_undisturbed n a.alloc)

/-- What is free in `s'` was free in `s`, and all that was is exactly when `P` holds. -/
def GivesBack (s s' : σ) (P : Prop) : Prop := (∀ f, Free s' f → Free s f) ∧ ((∀ f, Free s f → Free s' f) ↔ P)

namespace GivesBack

variable {s s' s'' : σ} {P Q : Prop}

theorem same (h : ∀ f, Free s' f ↔ Free s f) : GivesBack s s' True :=
  ⟨fun f => (h f).1, iff_of_true (fun f => (h f).2) trivial⟩

theorem trans (h : GivesBack s s' P) (h' : GivesBack s' s'' Q) : GivesBack s s'' (P ∧ Q) := by
  refine ⟨fun f hf => h.1 f (h'.1 f hf), fun hall => ⟨h.2.1 fun f hf => ?_, h'.2.1 fun f hf => ?_⟩, ?_⟩
  · exact h'.1 f (hall f hf)
  · exact hall f (h.1 f hf)
  · exact fun ⟨hp, hq⟩ f hf => h'.2.2 hq f (h.2.2 hp f hf)

end GivesBack

theorem heapTake_givesBack {kernelPml4 : Nat} {L : Nat → Prop} {vm : Vm σ} (a : Apart vm kernelPml4 L) (n : Nat) :
    GivesBack vm.pmm (vm.heapTake n).pmm (Spares n vm.pmm) := by
  refine ⟨fun f => (heapTake_undisturbed n a).free, ?_⟩
  cases n with
  | zero => exact iff_of_true (fun _ hf => hf) (.inl rfl)
  | succ n =>
    rw [Spares, or_iff_right (Nat.succ_ne_zero n)]
    constructor
    · intro hall
      by_contra hcount
      have h0 : vm.alloc.1 ≠ 0 := fun h0 => hcount (pmmAlloc_zero_iff.1 h0)
      obtain ⟨-, hfree, hfree', -⟩ := alloc_frame vm h0
      -- the first frame taken is not free after that
      have hlast := (heapTake_undisturbed n a.alloc).free (hall _ hfree)
      exact ((hfree' _).1 hlast).2 rfl
    · exact fun hcount f hf => absurd hf (freeCount_zero.1 hcount f)

section

variable {vm : Vm σ} {kernelPml4 : Nat} {L : Nat → Prop} {src : Space} {kzalloc : HeapAnswer} {kmalloc : Nat → HeapAnswer}

/-- What the copy of `src` comes to. The first frame is that of the PML4. -/
noncomputable def clonePlan (vm : Vm σ) (src : Space) (kmalloc : Nat → HeapAnswer) : CopyPlan :=
  copyPlan (freeCount vm.pmm) vm.mem src.pml4 kmalloc src.vmas.zipIdx ⟨1, [], [], false⟩

/-- **`vmm_clone_space`** makes no space, or follows the plan. -/
theorem vmmCloneSpace_spec (a : Apart vm kernelPml4 L) (hsrc : L src.pml4) (hvmas : ∀ v ∈ src.vmas, CreatedVma v)
    {vm₁ : Vm σ} (hvm₁ : vm.heapTake kzalloc.frames = vm₁) :
    ((kzalloc.ok = false ∨ freeCount vm₁.pmm = 0) ∧ ∃ vm',
      vm.vmmCloneSpace kernelPml4 src kzalloc kmalloc = (none, vm') ∧ GivesBack vm₁.pmm vm'.pmm True) ∨
    (kzalloc.ok = true ∧ freeCount vm₁.pmm ≠ 0 ∧ ∃ dst vm', vm.vmmCloneSpace kernelPml4 src kzalloc kmalloc =
      (some ⟨dst, 1, keptVmas kmalloc src.vmas⟩, vm') ∧
      Copying vm₁ vm' kernelPml4 L src.pml4 dst (clonePlan vm₁ src kmalloc)) := by
  have a₁ := (heapTake_undisturbed kzalloc.frames a).apart a
  rw [Vm.vmmCloneSpace]
  simp only
  rw [hvm₁] at a₁ ⊢
  generalize kzalloc.ok = ok at *
  by_cases h0 : (vm₁.vmmCreateSpace kernelPml4 ok).1 = 0
  · rw [if_pos h0]
    rw [Vm.vmmCreateSpace] at h0 ⊢
    cases ok with
    | false => exact .inl ⟨.inl rfl, vm₁, rfl, .same fun _ => Iff.rfl⟩
    | true =>
      have hf : vm₁.alloc.1 = 0 := by
        by_contra hf
        simp only [Bool.not_true, Bool.false_eq_true, if_false, hf] at h0
      simp only [Bool.not_true, Bool.false_eq_true, if_false, hf, if_true]
      exact .inl ⟨.inr (pmmAlloc_zero_iff.1 hf), vm₁.alloc.2, rfl, .same (alloc_zero vm₁ hf).2.1⟩
  · rw [if_neg h0, cloneVmas_eq]
    obtain ⟨hne, hstart⟩ := Copying.start a₁ hsrc h0
    have hz : ok = true := by
      cases ok with
      | false => exact absurd rfl h0
      | true => rfl
    have hcount : freeCount vm₁.pmm ≠ 0 := fun hc => freeCount_zero.1 hc _ (a₁.create h0).1
    refine .inr ⟨hz, hcount, _, _, rfl, ?_⟩
    refine Copying.vmas hsrc hne kmalloc src.vmas.zipIdx (fun v hv => ?_) hstart
    exact (hvmas _ ((List.mem_zipIdx' hv).2 ▸ List.getElem_mem _)).spec

/-- Nothing of the copy is lost, and every page that was copied is in a VMA of the copy. -/
def CopyPlan.Covered (plan : CopyPlan) (vmas : List Vma) : Prop :=
  plan.lost = false ∧ ∀ p ∈ plan.pages, ∃ v ∈ vmas, v.Has p

/-- **`vmm_destroy_space` gives back** all that the copy took exactly when nothing is lost, the VMAs cover the pages, and
    what was taken for other things since is back. -/
theorem cloned_destroyed {vm₀ vm' vm'' : Vm σ} {src dst : Nat} {plan : CopyPlan} {vmas : List Vma} {calls : List Nat}
    {P : Prop} (h : Copying vm₀ vm kernelPml4 L src dst plan)
    (hu : Undisturbed vm vm' kernelPml4 fun p => L p ∨ p = dst) (hback' : GivesBack vm.pmm vm'.pmm P)
    (hd : Destroyed vm' vm'' ⟨dst, 1, vmas⟩ calls) : GivesBack vm₀.pmm vm''.pmm (plan.Covered vmas ∧ P) := by
  rw [← hback'.2]
  have hspace := h.apart.space (.inr rfl)
  have hk : TablesKept vm.mem vm'.mem dst := hu.kept (.inr rfl)
  have hcalls : ∀ {f}, f ∈ calls → UserFrame vm.mem dst f := fun hf => hk.userFrame_iff.1 (hd.userFrame hf)
  refine ⟨fun f hf => ?_, fun hback => ⟨⟨?_, fun p hp => ?_⟩, fun f hf => ?_⟩, ?_⟩
  · rcases hd.free.1 hf with hfr | ⟨hf, -⟩
    · exact h.free (hu.free hfr)
    · exact h.own (hcalls hf)
  · by_contra hlost
    rw [Bool.not_eq_false] at hlost
    obtain ⟨f, hwas, hnot, hout⟩ := h.lost.2 hlost
    rcases hd.free.1 (hback f hwas) with hfr | ⟨hf, -⟩
    · exact hnot (hu.free hfr)
    · exact hout (hcalls hf)
  · obtain ⟨f, hm⟩ := h.pages.2 hp
    obtain ⟨hused, hun⟩ := hspace.used hm
    rcases hd.free.1 (hback f (h.own (.inr ⟨p, hm⟩))) with hfr | ⟨hf, -⟩
    · exact absurd (hu.free hfr) hused
    · rcases hd.mem.1 hf with ⟨q, hq, ht⟩ | ⟨v, hv, q, hhas, hmq⟩
      · exact absurd ((hk.tableAt_eq hq.1).symm.trans ht) (hun q hq.1)
      · obtain rfl := hspace.inj (hk.maps_iff.1 hmq) hm
        exact ⟨v, hv, hhas⟩
  · rcases hd.free.1 (hback f (h.free hf)) with hfr | ⟨hcall, -⟩
    · exact hfr
    · exact absurd hf (hspace.not_free (hcalls hcall).inSpace)
  · rintro ⟨⟨hlost, hcover⟩, hall⟩ f hwas
    rw [hd.free]
    by_cases hfr : Free vm.pmm f
    · exact .inl (hall f hfr)
    · have huf : UserFrame vm.mem dst f := by
        by_contra hout
        have hyes := h.lost.1 ⟨f, hwas, hfr, hout⟩
        rw [hlost] at hyes
        cases hyes
      refine .inr ⟨hd.mem.2 ?_, hu.managed.2 (h.apart.managed (.inr rfl) huf)⟩
      rcases huf with ⟨q, hq, ht⟩ | ⟨p, hm⟩
      · exact .inl ⟨q, hq, (hk.tableAt_eq hq.1).trans ht⟩
      · obtain ⟨v, hv, hhas⟩ := hcover p (h.pages.1 ⟨f, hm⟩)
        exact .inr ⟨v, hv, p, hhas, hk.maps_iff.2 hm⟩

end

end MyUnix.Mm
