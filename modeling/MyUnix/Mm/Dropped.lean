import MyUnix.Mm.Handed

/-!
# `Mm.Dropped` — pages taken back from the user half of a space

What `vmm_free_user`, `sys_brk` and `vmm_destroy_space` do page by page: a page is unmapped and its frame freed. A space
is in order (`SpaceInv`) when its user half is a tree and each of its pages has a frame of its own, in use and holding no
table. `Dropped` relates the machine before the first step to the machine now: the pages in `gone` are not mapped any
more, their frames are free, and nothing else changed.

The relation is between the machine before the loop and the machine now, so it composes: a page more is one step, and
a page that is not mapped is no step at all. What a loop drops depends on the set of its pages only and not on their
order or on how often each comes.
-/

namespace MyUnix.Mm

open Lib PageAlloc PathClass

variable {σ : Type} [PageAlloc σ]

/-- A loop depends on what its body does at the indices it goes through. -/
theorem foldlM_ext {α β : Type} {f g : β → α → Option β} (l : List α) (h : ∀ a ∈ l, ∀ b, f b a = g b a) :
    ∀ b, l.foldlM f b = l.foldlM g b := by
  induction l with
  | nil => intro b; rfl
  | cons a l ih =>
    intro b
    rw [List.foldlM_cons, List.foldlM_cons, h a List.mem_cons_self]
    congr 1
    funext c
    exact ih (fun a ha => h a (List.mem_cons_of_mem _ ha)) c

/-- Page `i` of a range, as a `uintptr_t`. -/
def pageAt (virt i : Nat) : Nat := (virt + i * pageSize) % 2 ^ 64

theorem pageAt_base {base i : Nat} (h : (base + i) * pageSize < 2 ^ 64) :
    pageAt (base * pageSize) i = (base + i) * pageSize := by
  rw [pageAt, ← Nat.add_mul, Nat.mod_eq_of_lt h]

/-- The body of the loops that take pages back: `vmm_virt_to_phys`, `vmm_unmap`, then `pmm_free` if a page was there. -/
def Vm.dropPage (vm : Vm σ) (pml4 addr : Nat) : Option (Vm σ) :=
  let p := vmmVirtToPhys vm.mem pml4 addr
  let vm := vm.vmmUnmap pml4 addr
  if p ≠ 0 then (pmmFree vm.pmm p).map fun pmm => { vm with pmm } else some vm

/-- `vmm_virt_to_phys` says 0 for nothing mapped: no page is mapped to frame 0. -/
def NoZeroFrame (m : ByteMem) (pml4 : Nat) : Prop :=
  ∀ p, p * pageSize < 2 ^ 47 → vmmIsMapped m pml4 (p * pageSize) = false →
    ∀ o < pageSize, vmmVirtToPhys m pml4 (p * pageSize + o) = 0

/-- Page `p` of the user half is mapped to the frame `f`. -/
def Maps (m : ByteMem) (pml4 p f : Nat) : Prop :=
  p * pageSize < 2 ^ 47 ∧ f ≠ 0 ∧ vmmVirtToPhys m pml4 (p * pageSize) = f

/-- A space in order. -/
structure SpaceInv (vm : Vm σ) (pml4 : Nat) : Prop where
  tree : TreeInv IsPath vm pml4
  noZero : NoZeroFrame vm.mem pml4
  used {p f} : Maps vm.mem pml4 p f → ¬Free vm.pmm f ∧ Unused IsPath vm.mem pml4 f
  inj {p q f} : Maps vm.mem pml4 p f → Maps vm.mem pml4 q f → p = q

/-- From `vm₀` to `vm` the pages of which `gone` holds were dropped, and nothing else happened to the space. -/
structure Dropped (vm₀ vm : Vm σ) (pml4 : Nat) (gone : Nat → Prop) : Prop where
  tree : TreeInv IsPath vm pml4
  tables {q} : IsPath q → tableAt vm.mem pml4 q = tableAt vm₀.mem pml4 q
  same {va} : Canonical va → ¬gone (va / pageSize) → vmmVirtToPhys vm.mem pml4 va = vmmVirtToPhys vm₀.mem pml4 va
  unmapped {p o} : gone p → p * pageSize < 2 ^ 47 → o < pageSize → vmmVirtToPhys vm.mem pml4 (p * pageSize + o) = 0
  free {f} : Free vm.pmm f ↔ Free vm₀.pmm f ∨ ∃ p, gone p ∧ Maps vm₀.mem pml4 p f ∧ Managed vm₀.pmm f
  managed {f} : Managed vm.pmm f ↔ Managed vm₀.pmm f
  outside {x} : (∀ q t, IsUser q → tableAt vm.mem pml4 q = some t → x < t ∨ t + pageSize ≤ x) → vm.mem x = vm₀.mem x

/-! ## `vmm_unmap`

One entry becomes 0. The frame stays in use until it is freed, and is then in no page of the space.
-/

section

variable {vm : Vm σ} {pml4 p : Nat}

/-- `vmm_unmap` writes to one table only, and moves none. -/
theorem vmmUnmap_frame (h : TreeInv IsPath vm pml4) (hp : p * pageSize < 2 ^ 47) :
    (∀ {q}, IsPath q → tableAt (vm.vmmUnmap pml4 (p * pageSize)).mem pml4 q = tableAt vm.mem pml4 q) ∧
    (vm.vmmUnmap pml4 (p * pageSize)).pmm = vm.pmm ∧
    ∀ x, (∀ q t, IsUser q → tableAt vm.mem pml4 q = some t → x < t ∨ t + pageSize ≤ x) →
      (vm.vmmUnmap pml4 (p * pageSize)).mem x = vm.mem x := by
  rw [Vm.vmmUnmap, vmmGetPte_find h.tree hp]
  cases ht : tableAt vm.mem pml4 (ptPath (p * pageSize)) with
  | none => exact ⟨fun _ => rfl, rfl, fun _ _ => rfl⟩
  | some t =>
    simp only [Option.map_some]
    split
    next =>
      have hidx : ptIdx (p * pageSize) < 512 := Nat.mod_lt _ (by decide)
      have w := SlotWrite.of_store h.tree (ptPath_user hp) hidx ht 0
      refine ⟨fun hq => w.tableAt_leaf h.tree rfl hq, rfl, fun x hx => ?_⟩
      have hout := hx _ t (ptPath_user hp) ht
      refine ByteMem.setWord_out _ _ ?_
      rw [slot]
      rw [pageSize] at hout
      omega
    next => exact ⟨fun _ => rfl, rfl, fun _ _ => rfl⟩

end

namespace SpaceInv

variable {vm : Vm σ} {pml4 : Nat}

/-- A page that is not mapped translates to nothing at any offset. -/
theorem page_none (h : SpaceInv vm pml4) {p o : Nat} (hp : p * pageSize < 2 ^ 47)
    (h0 : vmmVirtToPhys vm.mem pml4 (p * pageSize) = 0) (ho : o < pageSize) :
    vmmVirtToPhys vm.mem pml4 (p * pageSize + o) = 0 := by
  apply h.noZero p hp _ o ho
  rw [vmmIsMapped, h0]
  rfl

/-- So does one that is not mapped now and translates as before. -/
theorem page_same {vm₀ : Vm σ} (h₀ : SpaceInv vm₀ pml4) {p o : Nat} (hp : p * pageSize < 2 ^ 47)
    (hsame : ∀ o < pageSize, vmmVirtToPhys vm.mem pml4 (p * pageSize + o) = vmmVirtToPhys vm₀.mem pml4 (p * pageSize + o))
    (hmap : vmmIsMapped vm.mem pml4 (p * pageSize) = false) (ho : o < pageSize) :
    vmmVirtToPhys vm.mem pml4 (p * pageSize + o) = 0 := by
  have hzero := hsame 0 (by decide)
  rw [Nat.add_zero] at hzero
  rw [vmmIsMapped, bne_eq_false_iff_eq, hzero] at hmap
  rw [hsame o ho]
  exact h₀.page_none hp hmap ho

end SpaceInv

/-- **A space that is handed pages stays in order**, also where they replace others. -/
theorem Handed.spaceInv {vm₀ vm : Vm σ} {pml4 : Nat} {frame : Nat → Option Nat} {loose : List Nat}
    (h : Handed vm₀ vm pml4 frame loose) (h₀ : SpaceInv vm₀ pml4) : SpaceInv vm pml4 := by
  -- what is mapped was handed out, or was mapped before
  have hsplit : ∀ {p f}, Maps vm.mem pml4 p f → frame p = some f ∨ (frame p = none ∧ Maps vm₀.mem pml4 p f) := by
    rintro p f ⟨hp, h0, heq⟩
    rcases Option.eq_none_or_eq_some (frame p) with hnone | ⟨g, hg⟩
    · refine .inr ⟨hnone, hp, h0, ?_⟩
      rw [← heq, h.same (.inl hp)]
      rwa [Nat.mul_div_cancel p (by decide)]
    · have hpage := h.page hg (o := 0) (by decide)
      rw [Nat.add_zero, Nat.add_zero, heq] at hpage
      rw [hpage]
      exact .inl hg
  exact {
    tree := h.inv
    noZero := fun p hp hmap o ho => by
      rcases Option.eq_none_or_eq_some (frame p) with hnone | ⟨g, hg⟩
      · exact h₀.page_same hp (fun o ho => h.same (.inl (page_lt hp ho)) (by rwa [(page_number ho).1])) hmap ho
      · have hne := h.page_ne hg (o := 0) (by decide)
        rw [Nat.add_zero] at hne
        rw [vmmIsMapped, bne_eq_false_iff_eq] at hmap
        exact absurd hmap hne
    used := fun {p f} hm => by
      rcases hsplit hm with hg | ⟨-, hm₀⟩
      · exact (h.held (.inr ⟨p, hg⟩)).2
      · obtain ⟨hused, hun⟩ := h₀.used hm₀
        refine ⟨fun hfree => hused (h.free hfree), fun q hq ht => ?_⟩
        rcases h.new hq ht with ht | hfree
        · exact hun q hq ht
        · exact hused hfree
    inj := fun {p q f} hm hm' => by
      rcases hsplit hm with hg | ⟨-, hm₀⟩
      · rcases hsplit hm' with hg' | ⟨-, hm₀'⟩
        · exact h.assigned.inj hg hg'
        · exact absurd (h.held (.inr ⟨p, hg⟩)).1 (h₀.used hm₀').1
      · rcases hsplit hm' with hg' | ⟨-, hm₀'⟩
        · exact absurd (h.held (.inr ⟨q, hg'⟩)).1 (h₀.used hm₀).1
        · exact h₀.inj hm₀ hm₀' }

namespace Dropped

variable {vm₀ vm : Vm σ} {pml4 : Nat} {gone : Nat → Prop}

theorem refl (h : TreeInv IsPath vm pml4) : Dropped vm vm pml4 fun _ => False where
  tree := h
  tables _ := rfl
  same _ _ := rfl
  unmapped hp := hp.elim
  free := ⟨.inl, fun hf => hf.resolve_right fun ⟨_, hp, _⟩ => hp⟩
  managed := Iff.rfl
  outside _ := rfl

/-- Pages that are gone already, or were never mapped, do not count. -/
theorem congr (h₀ : SpaceInv vm₀ pml4) (h : Dropped vm₀ vm pml4 gone) {gone' : Nat → Prop} (hsub : ∀ p, gone p → gone' p)
    (hrest : ∀ p, gone' p → p * pageSize < 2 ^ 47 → ¬gone p → vmmVirtToPhys vm₀.mem pml4 (p * pageSize) = 0) :
    Dropped vm₀ vm pml4 gone' where
  tree := h.tree
  tables := h.tables
  same hc hp := h.same hc fun hg => hp (hsub _ hg)
  unmapped {p o} hp hlt ho := by
    by_cases hg : gone p
    · exact h.unmapped hg hlt ho
    · rw [h.same (.inl (page_lt hlt ho)) (by rwa [(page_number ho).1])]
      exact h₀.page_none hlt (hrest p hp hlt hg) ho
  free {f} := by
    rw [h.free]
    refine or_congr_right ⟨fun ⟨p, hp, hrest'⟩ => ⟨p, hsub p hp, hrest'⟩, fun ⟨p, hp, hmaps, hman⟩ => ?_⟩
    refine ⟨p, ?_, hmaps, hman⟩
    by_contra hg
    exact hmaps.2.1 (hmaps.2.2.symm.trans (hrest p hp hmaps.1 hg))
  managed := h.managed
  outside := h.outside

/-- The page is unmapped. Its frame is not freed yet. -/
theorem unmapPage (h : Dropped vm₀ vm pml4 gone) {p : Nat} (hp : p * pageSize < 2 ^ 47) :
    TreeInv IsPath (vm.vmmUnmap pml4 (p * pageSize)) pml4 ∧
    (∀ {q}, IsPath q → tableAt (vm.vmmUnmap pml4 (p * pageSize)).mem pml4 q = tableAt vm₀.mem pml4 q) ∧
    (∀ {va}, Canonical va → ¬(gone (va / pageSize) ∨ va / pageSize = p) →
      vmmVirtToPhys (vm.vmmUnmap pml4 (p * pageSize)).mem pml4 va = vmmVirtToPhys vm₀.mem pml4 va) ∧
    (∀ {q o}, gone q ∨ q = p → q * pageSize < 2 ^ 47 → o < pageSize →
      vmmVirtToPhys (vm.vmmUnmap pml4 (p * pageSize)).mem pml4 (q * pageSize + o) = 0) ∧
    ∀ {x}, (∀ q t, IsUser q → tableAt (vm.vmmUnmap pml4 (p * pageSize)).mem pml4 q = some t →
      x < t ∨ t + pageSize ≤ x) → (vm.vmmUnmap pml4 (p * pageSize)).mem x = vm₀.mem x := by
  obtain ⟨htree, hpage, hother⟩ := vmmUnmap_spec h.tree hp
  obtain ⟨htables, -, hmem⟩ := vmmUnmap_frame h.tree hp
  refine ⟨htree, fun hq => (htables hq).trans (h.tables hq), fun {va} hc hva => ?_, fun {q o} hq hlt ho => ?_,
    fun {x} hx => ?_⟩
  · rw [not_or] at hva
    rw [hother va (reaches_all va) (path_ne_page hc hp hva.2), h.same hc hva.1]
  · by_cases hqp : q = p
    · rw [hqp] at hlt ⊢
      exact hpage _ (page_lt hlt ho) (path_page ho)
    · have hne : path (q * pageSize + o) ≠ path (p * pageSize) := by
        apply path_ne_page (.inl (page_lt hlt ho)) hp
        rwa [(page_number ho).1]
      rw [hother _ (reaches_all _) hne]
      exact h.unmapped (hq.resolve_right hqp) hlt ho
  · rw [hmem x fun q t hq ht => hx q t hq ((htables hq.1).trans ht)]
    exact h.outside fun q t hq ht => hx q t hq ((htables hq.1).trans ht)

/-- A page that is mapped now was mapped before, and is not gone. -/
theorem maps (h : Dropped vm₀ vm pml4 gone) {p f : Nat} (hm : Maps vm.mem pml4 p f) :
    ¬gone p ∧ Maps vm₀.mem pml4 p f := by
  obtain ⟨hp, h0, heq⟩ := hm
  have hg : ¬gone p := by
    intro hg
    have hzero := h.unmapped hg hp (o := 0) (by decide)
    rw [Nat.add_zero, heq] at hzero
    exact h0 hzero
  refine ⟨hg, hp, h0, ?_⟩
  rw [← heq, h.same (.inl hp)]
  rwa [Nat.mul_div_cancel p (by decide)]

/-- The frame of the page is freed, once it is unmapped. -/
theorem freePage (h₀ : SpaceInv vm₀ pml4) (h : Dropped vm₀ vm pml4 gone) {p f : Nat} (hm : Maps vm.mem pml4 p f) :
    ∃ s, pmmFree vm.pmm f = some s ∧
      Dropped vm₀ { vm.vmmUnmap pml4 (p * pageSize) with pmm := s } pml4 fun q => gone q ∨ q = p := by
  obtain ⟨hg, hm₀⟩ := h.maps hm
  obtain ⟨hused, hunf⟩ := h₀.used hm₀
  have hpmm := (vmmUnmap_frame h.tree hm.1).2.1
  obtain ⟨htree, htables, hsame, hunmapped, houtside⟩ := h.unmapPage hm.1
  have hnot : ¬Free vm.pmm f := by
    intro hfree
    rcases h.free.1 hfree with hfree | ⟨q, hq, hm', -⟩
    · exact hused hfree
    · exact hg (h₀.inj hm₀ hm' ▸ hq)
  cases hout : pmmFree vm.pmm f with
  | none => exact absurd (free_none.1 hout) hnot
  | some s =>
    obtain ⟨hman, hs⟩ := free_some hout
    refine ⟨s, rfl, ?_⟩
    exact {
      tree := ⟨htree.tree, fun hq ht hfr => by
        rcases (hs _).1 hfr with hfr | ⟨rfl, -⟩
        · exact htree.apart hq ht (hpmm ▸ hfr)
        · exact hunf _ hq ((htables hq).symm.trans ht)⟩
      tables := htables
      same := hsame
      unmapped := hunmapped
      free := fun {g} => by
        rw [hs g, h.free]
        constructor
        · rintro ((hfr | ⟨q, hq, hrest⟩) | ⟨rfl, hmg⟩)
          · exact .inl hfr
          · exact .inr ⟨q, .inl hq, hrest⟩
          · exact .inr ⟨p, .inr rfl, hm₀, h.managed.1 hmg⟩
        · rintro (hfr | ⟨q, hq | rfl, hm', hmg⟩)
          · exact .inl (.inl hfr)
          · exact .inl (.inr ⟨q, hq, hm', hmg⟩)
          · obtain rfl : g = f := hm'.2.2.symm.trans hm₀.2.2
            exact .inr ⟨rfl, h.managed.2 hmg⟩
      managed := (hman _).trans h.managed
      outside := houtside }

/-- **One page is dropped.** -/
theorem dropPage (h₀ : SpaceInv vm₀ pml4) (h : Dropped vm₀ vm pml4 gone) {p : Nat} (hp : p * pageSize < 2 ^ 47) :
    ∃ vm', vm.dropPage pml4 (p * pageSize) = some vm' ∧ Dropped vm₀ vm' pml4 fun q => gone q ∨ q = p := by
  have hpmm := (vmmUnmap_frame h.tree hp).2.1
  by_cases h0 : vmmVirtToPhys vm.mem pml4 (p * pageSize) = 0
  · -- nothing is mapped there
    obtain ⟨htree, htables, hsame, hunmapped, houtside⟩ := h.unmapPage hp
    refine ⟨vm.vmmUnmap pml4 (p * pageSize), ?_, ?_⟩
    · rw [Vm.dropPage, h0, if_neg (by simp)]
    · exact {
        tree := htree
        tables := htables
        same := hsame
        unmapped := hunmapped
        free := fun {f} => by
          rw [hpmm, h.free]
          refine or_congr_right ⟨fun ⟨q, hq, hrest⟩ => ⟨q, .inl hq, hrest⟩, fun ⟨q, hq, hm, hman⟩ => ?_⟩
          rcases hq with hq | rfl
          · exact ⟨q, hq, hm, hman⟩
          · refine ⟨q, ?_, hm, hman⟩
            by_contra hg
            have hold := h.same (.inl hp) (by rwa [Nat.mul_div_cancel q (by decide)])
            exact hm.2.1 (hm.2.2.symm.trans (hold.symm.trans h0))
        managed := by
          rw [hpmm]
          exact h.managed
        outside := houtside }
  · obtain ⟨s, hs, h'⟩ := h.freePage h₀ ⟨hp, h0, rfl⟩
    refine ⟨_, ?_, h'⟩
    rw [Vm.dropPage, if_pos h0, hpmm, hs]
    rfl

/-- **Any pages are dropped**, one after the other. -/
theorem dropPages (h₀ : SpaceInv vm₀ pml4) (ps : List Nat) : ∀ {vm : Vm σ} {gone : Nat → Prop},
    (∀ p ∈ ps, p * pageSize < 2 ^ 47) → Dropped vm₀ vm pml4 gone →
    ∃ vm', ps.foldlM (fun vm p => vm.dropPage pml4 (p * pageSize)) vm = some vm' ∧
      Dropped vm₀ vm' pml4 fun q => gone q ∨ q ∈ ps := by
  induction ps with
  | nil =>
    intro vm gone _ h
    refine ⟨vm, rfl, h.congr h₀ (fun _ => .inl) fun p hp _ hg => ?_⟩
    rcases hp with hp | hp
    · exact absurd hp hg
    · cases hp
  | cons p ps ih =>
    intro vm gone hps h
    obtain ⟨vm₁, hdrop, h₁⟩ := h.dropPage h₀ (hps p List.mem_cons_self)
    obtain ⟨vm', hrest, h'⟩ := ih (fun q hq => hps q (List.mem_cons_of_mem _ hq)) h₁
    refine ⟨vm', ?_, ?_⟩
    · rw [List.foldlM_cons, hdrop]
      exact hrest
    · have hiff : (fun q => gone q ∨ q ∈ p :: ps) = fun q => (gone q ∨ q = p) ∨ q ∈ ps := by
        funext q
        rw [List.mem_cons, or_assoc]
      rwa [hiff]

/-- A space stays in order. -/
theorem spaceInv (h₀ : SpaceInv vm₀ pml4) (h : Dropped vm₀ vm pml4 gone) : SpaceInv vm pml4 where
  tree := h.tree
  noZero p hp hmap o ho := by
    by_cases hg : gone p
    · exact h.unmapped hg hp ho
    · exact h₀.page_same hp (fun o ho => h.same (.inl (page_lt hp ho)) (by rwa [(page_number ho).1])) hmap ho
  used {p f} hm := by
    obtain ⟨hg, hm₀⟩ := h.maps hm
    obtain ⟨hused, hunf⟩ := h₀.used hm₀
    refine ⟨fun hfree => ?_, fun q hq ht => hunf q hq ((h.tables hq).symm.trans ht)⟩
    rcases h.free.1 hfree with hfree | ⟨q, hq, hm', -⟩
    · exact hused hfree
    · exact hg (h₀.inj hm₀ hm' ▸ hq)
  inj hm hm' := h₀.inj (h.maps hm).2 (h.maps hm').2

end Dropped

end MyUnix.Mm
