import Mathlib.Data.Set.Card
import MyUnix.Mm.VmmTree

/-!
# `Mm.DirectMap` — the page tables of boot and the direct map

`setup_page_tables` of `boot.asm` and `vmm_init` with `vmm_map_phys_huge`, against `PHYS_TO_VIRT`, through which the page
allocator clears what it hands out. The tables of boot map 8 MB, at 0 and at `KERNEL_VMA_BASE`; `vmm_init` maps all of
physical memory at `PHYS_MAP_BASE`, in pages of 2 MB. `PHYS_TO_VIRT` takes the first of the two windows.

A page of 2 MB is known by its number in the 48 bits that the processor translates. The boot tables share one page
directory between two windows, so pages 0 to 511 are also pages `2 ^ 27 - 1024` and on. `TableKind` says of each table
in use which entries may lead to it.

The kernel looks at physical memory through two windows. `PHYS_TO_VIRT` adds the base of the kernel window, which boot
maps up to 8 MB; `vmm_init` builds another window with pages of 2 MB, from the page allocator's frames, which it has
cleared through the first one. How far the first window reaches decides what is cleared.

The tables are followed by what each is for (`TableKind`) and not by where it lies, because the loop makes them as it
goes along and fails when a frame is missing. How many are made before the loop comes to the slots of the kernel
window is a count, which says how many frames it takes to get that far.
-/

namespace MyUnix.Mm

open Lib

/-- `KERNEL_VMA_BASE`. -/
def kernelVmaBase : Nat := 0xFFFFFFFF80000000

/-- `PHYS_MAP_BASE`. -/
def physMapBase : Nat := 0xFFFF800000000000

/-- `PHYS_TO_VIRT`, as a `uintptr_t`. -/
def physToVirt (p : Nat) : Nat := (p + kernelVmaBase) % 2 ^ 64

/-- The size of a huge page. -/
def hugeSize : Nat := 2 * 1024 * 1024

/-- `PTE_GLOBAL`. -/
def pteGlobal : Pte := 0x100#64

/-- `VMM_KERN_RW`. -/
def vmmKernRw : Pte := ptePresent ||| pteWritable ||| pteGlobal

/-! ## The tables of boot

The stores of the assembly text, in its order.
-/

/-- The four tables of `boot.asm`, one after the other in `.bss`. -/
def bootPml4 (base : Nat) : Nat := base

/-- The PDPT of the identity map. -/
def bootPdptLow (base : Nat) : Nat := base + 4096

/-- The PDPT of the kernel window. -/
def bootPdptHigh (base : Nat) : Nat := base + 8192

/-- The PD that both share. -/
def bootPd (base : Nat) : Nat := base + 12288

/-- `mov [a], eax`. -/
def movDword (m : ByteMem) (a eax : Nat) : ByteMem := m.write a (leBytes 4 eax)

/-- The loop at `.pd_loop`. -/
def pdLoop (base : Nat) (m : ByteMem) : ByteMem :=
  (List.range 4).foldl (fun m ecx => movDword m (bootPd base + ecx * 8) (ecx <<< 21 ||| (1 <<< 7 ||| 3))) m

/-- `setup_page_tables` of `boot.asm`: two windows onto the first 8 MB. -/
def setupPageTables (base : Nat) (m : ByteMem) : ByteMem :=
  let m := movDword m (bootPml4 base) (bootPdptLow base ||| 3)
  let m := movDword m (bootPml4 base + 511 * 8) (bootPdptHigh base ||| 3)
  let m := movDword m (bootPdptLow base) (bootPd base ||| 3)
  let m := movDword m (bootPdptHigh base + 510 * 8) (bootPd base ||| 3)
  pdLoop base m

/-! ## `vmm_init`

The loop makes tables on demand like `vmm_get_pte`, with code of its own and no flag for the user.
-/

variable {σ : Type} [PageAlloc σ]

namespace Vm

variable (vm : Vm σ)

/-- The table behind an entry in `vmm_map_phys_huge`, made when it is not there. -/
def hugeTable (a : Nat) : Option Nat × Vm σ :=
  if !isPresent (vm.mem.word a) then
    let (p, vm) := vm.alloc
    if p = 0 then (none, vm)
    else (some p, vm.store a (BitVec.ofNat 64 p ||| ptePresent ||| pteWritable ||| pteGlobal))
  else (some (pteAddr (vm.mem.word a)), vm)

/-- The page directory for `virt`. -/
def hugePd (pml4 virt : Nat) : Option Nat × Vm σ :=
  match vm.hugeTable (slot pml4 (pml4Idx virt)) with
  | (none, vm) => (none, vm)
  | (some pdpt, vm) => vm.hugeTable (slot pdpt (pdptIdx virt))

/-- The loop of `vmm_map_phys_huge` with `n` pages to go; it breaks off when there is no frame for a table. -/
def mapHuge (pml4 : Nat) (flags : Pte) : Nat → Nat → Nat → Vm σ → Vm σ
  | 0,     _,    _,    vm => vm
  | n + 1, virt, phys, vm =>
    match vm.hugePd pml4 virt with
    | (none, vm) => vm
    | (some pd, vm) =>
      mapHuge pml4 flags n ((virt + hugeSize) % 2 ^ 64) ((phys + hugeSize) % 2 ^ 64)
        (vm.store (slot pd (pdIdx virt)) (BitVec.ofNat 64 phys ||| pteHuge ||| flags))

/-- `ALIGN_UP(size, huge_size) / huge_size`. -/
def hugePages (size : Nat) : Nat := (size + (hugeSize - 1)) % 2 ^ 64 / hugeSize

/-- `vmm_map_phys_huge`. -/
def vmmMapPhysHuge (pml4 virtBase physBase size : Nat) (flags : Pte) : Vm σ :=
  mapHuge pml4 flags (hugePages size) (virtBase / hugeSize * hugeSize) (physBase / hugeSize * hugeSize) vm

/-- `vmm_init`, with the PML4 in CR3 and what `pmm_total_pages` answers. -/
def vmmInit (pml4 totalPages : Nat) : Vm σ :=
  vm.vmmMapPhysHuge pml4 physMapBase 0 (totalPages * pageSize % 2 ^ 64) vmmKernRw

end Vm

/-! ## Entries

The bits of the two kinds of entries that are made.
-/

theorem pteAddr_or_mod {phys : Nat} {flags : Pte} (hal : phys % pageSize = 0)
    (hflags : flags &&& 0x000FFFFFFFFFF000#64 = 0#64) : pteAddr (BitVec.ofNat 64 phys ||| flags) = phys % 2 ^ 52 := by
  have hand : phys % 2 ^ 64 &&& 0x000FFFFFFFFFF000 = phys % 2 ^ 52 := by
    obtain ⟨q, rfl⟩ : ∃ q, phys = q <<< 12 := ⟨phys / 4096, by rw [Nat.shiftLeft_eq, pageSize] at *; omega⟩
    have hmask : (0x000FFFFFFFFFF000 : Nat) = (2 ^ 40 - 1) <<< 12 := by decide
    have hmod : q <<< 12 % 2 ^ 64 = (q % 2 ^ 52) <<< 12 := by
      rw [Nat.shiftLeft_eq, Nat.shiftLeft_eq]
      omega
    rw [hmod, hmask, ← Nat.shiftLeft_and_distrib, Nat.and_two_pow_sub_one_eq_mod, Nat.shiftLeft_eq, Nat.shiftLeft_eq]
    omega
  rw [pteAddr, BitVec.and_or_distrib_right, hflags, BitVec.or_zero, BitVec.toNat_and, BitVec.toNat_ofNat]
  exact hand

/-- The entry of a page of 2 MB. -/
def directEntry (k : Nat) : Pte := BitVec.ofNat 64 (k * hugeSize % 2 ^ 64) ||| pteHuge ||| vmmKernRw

theorem directEntry_bits (k : Nat) : isPresent (directEntry k) = true ∧ isHuge (directEntry k) = true ∧
    pteAddr (directEntry k) = k * hugeSize % 2 ^ 52 := by
  have hp : vmmKernRw.getLsbD 0 = true := by decide
  have hh : pteHuge.getLsbD 7 = true := by decide
  refine ⟨?_, ?_, ?_⟩
  · rw [isPresent_eq, directEntry, BitVec.getLsbD_or, hp, Bool.or_true]
  · rw [isHuge_eq, directEntry, BitVec.getLsbD_or, BitVec.getLsbD_or, hh, Bool.or_true, Bool.true_or]
  · rw [directEntry, BitVec.or_assoc, pteAddr_or_mod (by rw [hugeSize, pageSize]; omega) (by decide)]
    rw [hugeSize]
    omega

/-- The entry that the loop of `setup_page_tables` writes. -/
def bootEntry (l : Nat) : Pte := BitVec.ofNat 64 (l * hugeSize ||| 0x83)

theorem bootEntry_bits {l : Nat} (hl : l < 4) : isPresent (bootEntry l) = true ∧ isHuge (bootEntry l) = true ∧
    pteAddr (bootEntry l) = l * hugeSize := by
  have hall : ∀ l < 4, isPresent (bootEntry l) = true ∧ isHuge (bootEntry l) = true ∧
      pteAddr (bootEntry l) = l * hugeSize := by decide
  exact hall l hl

/-- An entry that leads to a table. -/
theorem table_bits {f : Nat} {flags : Pte} (hal : f % pageSize = 0) (hlt : f < 2 ^ 52) (hp : flags.getLsbD 0 = true)
    (hh : flags.getLsbD 7 = false) (hmask : flags &&& 0x000FFFFFFFFFF000#64 = 0#64) :
    isPresent (BitVec.ofNat 64 f ||| flags) = true ∧ isHuge (BitVec.ofNat 64 f ||| flags) = false ∧
      pteAddr (BitVec.ofNat 64 f ||| flags) = f := by
  have hf : (BitVec.ofNat 64 f).getLsbD 7 = false := by
    have hbit : f.testBit 7 = false := by
      rw [Nat.testBit_eq_decide_div_mod_eq, decide_eq_false_iff_not]
      rw [pageSize] at hal
      omega
    rw [BitVec.getLsbD_ofNat, hbit, Bool.and_false]
  refine ⟨?_, ?_, pteAddr_or hal hlt hmask⟩
  · rw [isPresent_eq, BitVec.getLsbD_or, hp, Bool.or_true]
  · rw [isHuge_eq, BitVec.getLsbD_or, hf, hh, Bool.or_self]

/-! ## What a table is for

A labelling gives each table its kind. Every present entry leads to a table of the kind that its place asks for, so a
walk from the PML4 knows where it is; a directory that serves two windows has two numbers, of which one is taken.
-/

/-- The page directory of boot serves directories 0 and `2 ^ 18 - 2`. -/
def canonPd (u : Nat) : Nat := if u = 0 then 2 ^ 18 - 2 else u

/-- The PML4, the PDPT behind its entry `i`, or the page directory with number `u`. -/
inductive TableKind where
  | pml4
  | pdpt (i : Nat)
  | pd (u : Nat)
deriving DecidableEq

/-- What the entry `i` of a table leads to. -/
def TableKind.child : TableKind → Nat → Option TableKind
  | .pml4,   i => some (.pdpt i)
  | .pdpt i, j => some (.pd (canonPd (i * 512 + j)))
  | .pd _,   _ => none

/-- The number of the page directory for page `k` of the direct map. -/
def pdOf (k : Nat) : Nat := (2 ^ 26 + k) % 2 ^ 27 / 512

/-- What the entry `l` of the page directory at `t`, with number `u`, may be once `done` pages of the direct map are in
    place. -/
def Leaf (base done t u l : Nat) (e : Pte) : Prop :=
  e = 0#64 ∨ (t = bootPd base ∧ l < 4 ∧ done ≤ 2 ^ 26 - 1024 + l ∧ e = bootEntry l) ∨
    ∃ k < done, canonPd (pdOf k) = u ∧ k % 512 = l ∧ e = directEntry k

/-- The tables after `done` pages. -/
structure HugeInv (vm : Vm σ) (base done : Nat) (kind : Nat → Option TableKind) : Prop where
  frame : ∀ t k, kind t = some k → t % pageSize = 0 ∧ ¬ PageAlloc.Free vm.pmm t
  child : ∀ t k i c, kind t = some k → k.child i = some c → i < 512 → isPresent (entry vm.mem t i) = true →
    isHuge (entry vm.mem t i) = false ∧ kind (pteAddr (entry vm.mem t i)) = some c
  leaf  : ∀ t u l, kind t = some (.pd u) → l < 512 → Leaf base done t u l (entry vm.mem t l)
  root  : kind (bootPml4 base) = some .pml4
  high  : isPresent (entry vm.mem (bootPml4 base) 511) = true ∧ pteAddr (entry vm.mem (bootPml4 base) 511) = bootPdptHigh base
  pd    : isPresent (entry vm.mem (bootPdptHigh base) 510) = true ∧
    pteAddr (entry vm.mem (bootPdptHigh base) 510) = bootPd base
  boot  : ∀ l < 4, done ≤ 2 ^ 26 - 1024 + l → entry vm.mem (bootPd base) l = bootEntry l

/-- A fresh frame is linked in as a table. -/
structure Made (vm vm' : Vm σ) (t i f : Nat) : Prop where
  fresh  : PageAlloc.Free vm.pmm f
  free   : ∀ g, PageAlloc.Free vm'.pmm g ↔ PageAlloc.Free vm.pmm g ∧ g ≠ f
  link   : isPresent (entry vm'.mem t i) = true ∧ isHuge (entry vm'.mem t i) = false ∧ pteAddr (entry vm'.mem t i) = f
  empty  : ∀ j < 512, entry vm'.mem f j = 0#64
  others : ∀ t' j, t' % pageSize = 0 → j < 512 → t' ≠ f → (t', j) ≠ (t, i) → entry vm'.mem t' j = entry vm.mem t' j

section

variable {vm vm' : Vm σ} {base done t i f : Nat} {kind : Nat → Option TableKind} {k c : TableKind}

/-- Without a free frame there is none before and none after, and the memory is as it was. -/
theorem alloc_none (h0 : vm.alloc.1 = 0) :
    vm.alloc.2.mem = vm.mem ∧ ∀ f, ¬ PageAlloc.Free vm.pmm f ∧ ¬ PageAlloc.Free vm.alloc.2.pmm f := by
  obtain ⟨hmem, hfree, -⟩ := alloc_zero vm h0
  refine ⟨hmem, fun f => ?_⟩
  have hnone : ¬ PageAlloc.Free vm.pmm f := PageAlloc.alloc_full (s := vm.pmm) h0 f
  exact ⟨hnone, fun hf => hnone ((hfree f).mp hf)⟩

/-- An entry for the frame that `pmm_alloc` gave links it in. -/
theorem Made.of_store (ht : t % pageSize = 0) (hi : i < 512) (hfree : ¬ PageAlloc.Free vm.pmm t) (h0 : vm.alloc.1 ≠ 0)
    {pte : Pte} (hpte : isPresent pte = true ∧ isHuge pte = false ∧ pteAddr pte = vm.alloc.1) :
    Made vm (vm.alloc.2.store (slot t i) pte) t i vm.alloc.1 := by
  obtain ⟨hmem, hfresh, hfree', -⟩ := alloc_frame vm h0
  obtain ⟨-, hal, -⟩ := PageAlloc.managed_spec (PageAlloc.managed_of_free hfresh)
  have hne : t ≠ vm.alloc.1 := fun he => hfree (he ▸ hfresh)
  refine ⟨hfresh, hfree', ?_, fun j hj => ?_, fun t' j ht' hj hf hs => ?_⟩
  · rw [Vm.store, entry_store_same]
    exact hpte
  · rw [Vm.store, entry_store _ hal ht hj hi (by simp [Ne.symm hne]), hmem]
    exact entry_clear_same hj
  · rw [Vm.store, entry_store _ ht' ht hj hi hs, hmem]
    exact agreeOff_clear.entry_eq ht' hal hj hf

/-- The frame is one of a page, below the addresses that an entry can hold. -/
theorem alloc_page (h0 : vm.alloc.1 ≠ 0) : vm.alloc.1 % pageSize = 0 ∧ vm.alloc.1 < 2 ^ 52 := by
  obtain ⟨-, hfresh, -⟩ := alloc_frame vm h0
  obtain ⟨-, hal, hlt⟩ := PageAlloc.managed_spec (PageAlloc.managed_of_free hfresh)
  exact ⟨hal, hlt⟩

/-- **`hugeTable`** finds the table, or makes it, or there is no free frame. -/
theorem hugeTable_cases (ht : t % pageSize = 0) (hi : i < 512) (hfree : ¬ PageAlloc.Free vm.pmm t) :
    (isPresent (entry vm.mem t i) = true ∧ vm.hugeTable (slot t i) = (some (pteAddr (entry vm.mem t i)), vm)) ∨
    (isPresent (entry vm.mem t i) = false ∧ ∃ vm', vm.hugeTable (slot t i) = (none, vm') ∧ vm'.mem = vm.mem ∧
      ∀ f, ¬ PageAlloc.Free vm.pmm f ∧ ¬ PageAlloc.Free vm'.pmm f) ∨
    (isPresent (entry vm.mem t i) = false ∧ ∃ f vm', vm.hugeTable (slot t i) = (some f, vm') ∧ Made vm vm' t i f) := by
  have hword : vm.mem.word (slot t i) = entry vm.mem t i := rfl
  cases hp : isPresent (entry vm.mem t i) with
  | true =>
      refine .inl ⟨rfl, ?_⟩
      rw [Vm.hugeTable, hword, hp]
      rfl
  | false =>
      by_cases h0 : vm.alloc.1 = 0
      · refine .inr (.inl ⟨rfl, vm.alloc.2, ?_, alloc_none h0⟩)
        rw [Vm.hugeTable, hword, hp]
        simp only [Bool.not_false, if_true, h0]
      · refine .inr (.inr ⟨rfl, vm.alloc.1,
          vm.alloc.2.store (slot t i) (BitVec.ofNat 64 vm.alloc.1 ||| ptePresent ||| pteWritable ||| pteGlobal), ?_,
          Made.of_store ht hi hfree h0 ?_⟩)
        · rw [Vm.hugeTable, hword, hp]
          simp only [Bool.not_false, if_true, h0, if_false]
        · obtain ⟨hal, hlt⟩ := alloc_page h0
          rw [BitVec.or_assoc, BitVec.or_assoc]
          exact table_bits hal hlt (by decide) (by decide) (by decide)

/-- The tables that a labelling names are frames in use. -/
def LabelledFrames (vm : Vm σ) (kind : Nat → Option TableKind) : Prop :=
  ∀ t k, kind t = some k → t % pageSize = 0 ∧ ¬ PageAlloc.Free vm.pmm t

/-- A present entry of a labelled table leads to a table with the label that `childOf` gives. -/
def LabelledChildren (childOf : TableKind → Nat → Option TableKind) (vm : Vm σ) (kind : Nat → Option TableKind) : Prop :=
  ∀ t k i c, kind t = some k → childOf k i = some c → i < 512 → isPresent (entry vm.mem t i) = true →
    isHuge (entry vm.mem t i) = false ∧ kind (pteAddr (entry vm.mem t i)) = some c

/-! A table is added to the labelled ones. -/
namespace Made

variable {t' j : Nat} {k' : TableKind} {childOf : TableKind → Nat → Option TableKind}

theorem ne_new (m : Made vm vm' t i f) (hframe : LabelledFrames vm kind) (hk' : kind t' = some k') : t' ≠ f := by
  rintro rfl
  exact (hframe t' k' hk').2 m.fresh

/-- An entry that is there is not the one that is written. -/
theorem keep (m : Made vm vm' t i f) (hframe : LabelledFrames vm kind) (habs : isPresent (entry vm.mem t i) = false)
    (hk' : kind t' = some k') (hj : j < 512) (hp : isPresent (entry vm.mem t' j) = true) :
    entry vm'.mem t' j = entry vm.mem t' j := by
  refine m.others t' j (hframe t' k' hk').1 hj (m.ne_new hframe hk') fun he => ?_
  obtain ⟨rfl, rfl⟩ := Prod.mk.inj he
  rw [habs] at hp
  cases hp

theorem frames (m : Made vm vm' t i f) (hframe : LabelledFrames vm kind) :
    LabelledFrames vm' (Function.update kind f (some c)) := by
  intro t' k' hk'
  by_cases hf : t' = f
  · subst hf
    exact ⟨(PageAlloc.managed_spec (PageAlloc.managed_of_free m.fresh)).2.1, fun hfree => ((m.free t').mp hfree).2 rfl⟩
  · rw [Function.update_of_ne hf] at hk'
    exact ⟨(hframe t' k' hk').1, fun hfree => (hframe t' k' hk').2 ((m.free t').mp hfree).1⟩

theorem children (m : Made vm vm' t i f) (hframe : LabelledFrames vm kind) (hchild : LabelledChildren childOf vm kind)
    (hk : kind t = some k) (hc : childOf k i = some c) :
    LabelledChildren childOf vm' (Function.update kind f (some c)) := by
  intro t' k' j c' hk' hc' hj hp
  by_cases hf : t' = f
  · rw [hf, m.empty j hj] at hp
    exact absurd hp (by decide)
  · rw [Function.update_of_ne hf] at hk'
    by_cases hs : (t', j) = (t, i)
    · obtain ⟨rfl, rfl⟩ := Prod.mk.inj hs
      obtain rfl : k = k' := Option.some.inj (hk.symm.trans hk')
      obtain rfl : c = c' := Option.some.inj (hc.symm.trans hc')
      obtain ⟨-, hsmall, haddr⟩ := m.link
      exact ⟨hsmall, by rw [haddr, Function.update_self]⟩
    · have hsame := m.others t' j (hframe t' k' hk').1 hj hf hs
      rw [hsame] at hp ⊢
      obtain ⟨hsmall, hkind⟩ := hchild t' k' j c' hk' hc' hj hp
      exact ⟨hsmall, by rw [Function.update_of_ne (m.ne_new hframe hkind), hkind]⟩

/-- A page directory is the new table, or its entries are as before. -/
theorem leaf (m : Made vm vm' t i f) (hframe : LabelledFrames vm kind) (hk : kind t = some k) (hpd : ∀ u, k ≠ .pd u)
    {u : Nat} (hk' : Function.update kind f (some c) t' = some (.pd u)) (hj : j < 512) :
    entry vm'.mem t' j = 0#64 ∨ kind t' = some (.pd u) ∧ entry vm'.mem t' j = entry vm.mem t' j := by
  by_cases hf : t' = f
  · rw [hf]
    exact .inl (m.empty j hj)
  · rw [Function.update_of_ne hf] at hk'
    refine .inr ⟨hk', m.others t' j (hframe t' _ hk').1 hj hf fun he => ?_⟩
    obtain ⟨rfl, rfl⟩ := Prod.mk.inj he
    exact hpd u (Option.some.inj (hk.symm.trans hk'))

end Made

namespace HugeInv

theorem kind_high (h : HugeInv vm base done kind) : kind (bootPdptHigh base) = some (.pdpt 511) := by
  have hchild := h.child _ _ 511 _ h.root rfl (by decide) h.high.1
  rw [h.high.2] at hchild
  exact hchild.2

theorem kind_pd (h : HugeInv vm base done kind) : kind (bootPd base) = some (.pd (2 ^ 18 - 2)) := by
  have hchild := h.child _ _ 510 _ h.kind_high rfl (by decide) h.pd.1
  rw [h.pd.2] at hchild
  exact hchild.2

/-- A frame that is not free any more. -/
theorem stop (h : HugeInv vm base done kind) (hmem : vm'.mem = vm.mem) (hfree : ∀ f, ¬ PageAlloc.Free vm'.pmm f) :
    HugeInv vm' base done kind := by
  refine ⟨fun t k hk => ⟨(h.frame t k hk).1, hfree t⟩, ?_, ?_, h.root, ?_, ?_, ?_⟩
  all_goals rw [hmem]
  · exact h.child
  · exact h.leaf
  · exact h.high
  · exact h.pd
  · exact h.boot

/-- A table is added. -/
theorem made (h : HugeInv vm base done kind) (hk : kind t = some k) (hc : k.child i = some c)
    (habs : isPresent (entry vm.mem t i) = false) {f : Nat} (m : Made vm vm' t i f) :
    HugeInv vm' base done (Function.update kind f (some c)) := by
  have hpd : ∀ u, k ≠ .pd u := by
    rintro u rfl
    cases hc
  refine ⟨m.frames h.frame, m.children h.frame h.child hk hc, fun t' u l hk' hl => ?_, ?_, ?_, ?_, ?_⟩
  · rcases m.leaf h.frame hk hpd hk' hl with hzero | ⟨hk', hsame⟩
    · exact .inl hzero
    · rw [hsame]
      exact h.leaf t' u l hk' hl
  · rw [Function.update_of_ne (m.ne_new h.frame h.root)]
    exact h.root
  · rw [m.keep h.frame habs h.root (by decide) h.high.1]
    exact h.high
  · rw [m.keep h.frame habs h.kind_high (by decide) h.pd.1]
    exact h.pd
  · intro l hl hd
    have hb := h.boot l hl hd
    rw [m.keep h.frame habs h.kind_pd (by omega) (by rw [hb]; exact (bootEntry_bits hl).1), hb]

/-- A page of the direct map is written. -/
theorem store (h : HugeInv vm base done kind) (hk : kind t = some (.pd (canonPd (pdOf done))))
    (hboot : pdOf done = 2 ^ 18 - 2 → t = bootPd base) :
    HugeInv (vm.store (slot t (done % 512)) (directEntry done)) base (done + 1) kind := by
  have hl : done % 512 < 512 := Nat.mod_lt _ (by decide)
  have hal := (h.frame t _ hk).1
  have hother : ∀ t' k' j, kind t' = some k' → j < 512 → (t', j) ≠ (t, done % 512) →
      entry (vm.store (slot t (done % 512)) (directEntry done)).mem t' j = entry vm.mem t' j :=
    fun t' k' j hk' hj hs => entry_store _ (h.frame t' k' hk').1 hal hj hl hs
  -- no page directory is another table
  have hup : ∀ t' k' j c', kind t' = some k' → k'.child j = some c' → j < 512 →
      entry (vm.store (slot t (done % 512)) (directEntry done)).mem t' j = entry vm.mem t' j := by
    intro t' k' j c' hk' hc' hj
    refine hother t' k' j hk' hj fun he => ?_
    obtain ⟨rfl, rfl⟩ := Prod.mk.inj he
    obtain rfl := Option.some.inj (hk.symm.trans hk')
    cases hc'
  refine ⟨h.frame, fun t' k' j c' hk' hc' hj hp => ?_, fun t' u l hk' hl' => ?_, h.root, ?_, ?_, fun l hl' hd => ?_⟩
  · rw [hup t' k' j c' hk' hc' hj] at hp ⊢
    exact h.child t' k' j c' hk' hc' hj hp
  · by_cases hs : (t', l) = (t, done % 512)
    · obtain ⟨rfl, rfl⟩ := Prod.mk.inj hs
      obtain ⟨rfl⟩ : TableKind.pd (canonPd (pdOf done)) = .pd u := Option.some.inj (hk.symm.trans hk')
      refine .inr (.inr ⟨done, Nat.lt_succ_self done, rfl, rfl, entry_store_same _⟩)
    · rw [hother t' _ l hk' hl' hs]
      rcases h.leaf t' u l hk' hl' with h0 | ⟨rfl, hlow, hd, he⟩ | ⟨k, hk, hrest⟩
      · exact .inl h0
      · refine .inr (.inl ⟨rfl, hlow, ?_, he⟩)
        by_contra hd'
        -- the entry of the window is the one that is written
        have hdone : done = 2 ^ 26 - 1024 + l := by omega
        refine hs (Prod.ext (hboot ?_).symm ?_)
        · rw [pdOf]
          omega
        · show l = done % 512
          omega
      · exact .inr (.inr ⟨k, Nat.lt_succ_of_lt hk, hrest⟩)
  · rw [hup _ _ 511 _ h.root rfl (by decide)]
    exact h.high
  · rw [hup _ _ 510 _ h.kind_high rfl (by decide)]
    exact h.pd
  · rw [hother _ _ l h.kind_pd (by omega)]
    · exact h.boot l hl' (by omega)
    · intro he
      obtain ⟨rfl, hle⟩ := Prod.mk.inj he
      have hu := TableKind.pd.inj (Option.some.inj (hk.symm.trans h.kind_pd))
      rw [canonPd, pdOf] at hu
      split at hu <;> omega

/-- One level of the walk. -/
theorem hugeTable (h : HugeInv vm base done kind) (hk : kind t = some k) (hc : k.child i = some c) (hi : i < 512) :
    (∃ vm', vm.hugeTable (slot t i) = (none, vm') ∧ HugeInv vm' base done kind ∧ isPresent (entry vm.mem t i) = false ∧
      ∀ f, ¬ PageAlloc.Free vm.pmm f) ∨
    ∃ t' vm' kind', vm.hugeTable (slot t i) = (some t', vm') ∧ HugeInv vm' base done kind' ∧ kind' t' = some c ∧
      (isPresent (entry vm.mem t i) = true ∧ t' = pteAddr (entry vm.mem t i) ∧ vm' = vm ∧ kind' = kind ∨
        isPresent (entry vm.mem t i) = false ∧ Made vm vm' t i t' ∧ kind' = Function.update kind t' (some c)) := by
  obtain ⟨hal, hfree⟩ := h.frame t k hk
  rcases hugeTable_cases hal hi hfree with ⟨hp, hcode⟩ | ⟨hp, vm', hcode, hmem, hfull⟩ | ⟨hp, f, vm', hcode, hmade⟩
  · exact .inr ⟨_, vm, kind, hcode, h, (h.child t k i c hk hc hi hp).2, .inl ⟨hp, rfl, rfl, rfl⟩⟩
  · exact .inl ⟨vm', hcode, h.stop hmem fun f => (hfull f).2, hp, fun f => (hfull f).1⟩
  · exact .inr ⟨f, vm', _, hcode, h.made hk hc hp hmade, Function.update_self _ _ _, .inr ⟨hp, hmade, rfl⟩⟩

end HugeInv

/-! ## Counting the tables

One table for each gigabyte and one for each 512 of these.
-/

/-- As long as the direct map has not come to the window of the kernel: `a` PDPTs and `b` page directories were made,
    and they lie in a row. -/
structure HugeCount (vm : Vm σ) (base a b frames : Nat) (kind : Nat → Option TableKind) : Prop where
  top   : ∀ i < 512, (isPresent (entry vm.mem (bootPml4 base) i) = true ↔ i = 0 ∨ i = 511 ∨ 256 ≤ i ∧ i < 256 + a)
  mid   : ∀ t i j, kind t = some (.pdpt i) → j < 512 → (isPresent (entry vm.mem t j) = true ↔
    i * 512 + j = 0 ∨ i * 512 + j = 2 ^ 18 - 2 ∨ 2 ^ 17 ≤ i * 512 + j ∧ i * 512 + j < 2 ^ 17 + b)
  reach : ∀ t i, kind t = some (.pdpt i) → i < 512 ∧ isPresent (entry vm.mem (bootPml4 base) i) = true ∧
    pteAddr (entry vm.mem (bootPml4 base) i) = t
  free  : {f | PageAlloc.Free vm.pmm f}.ncard + a + b = frames

theorem free_finite (s : σ) : {f | PageAlloc.Free s f}.Finite :=
  (Set.finite_lt_nat (2 ^ 52)).subset fun _ hf => (PageAlloc.managed_spec (PageAlloc.managed_of_free hf)).2.2

/-- One frame less. -/
theorem ncard_free_remove {s s' : σ} {f : Nat} (hf : PageAlloc.Free s f)
    (h : ∀ g, PageAlloc.Free s' g ↔ PageAlloc.Free s g ∧ g ≠ f) :
    {g | PageAlloc.Free s' g}.ncard + 1 = {g | PageAlloc.Free s g}.ncard := by
  have hset : {g | PageAlloc.Free s' g} = {g | PageAlloc.Free s g} \ {f} := by
    ext g
    rw [Set.mem_sdiff, Set.mem_singleton_iff]
    exact h g
  rw [hset]
  exact Set.ncard_sdiff_singleton_add_one hf (free_finite s)

/-- A frame that is made a table is free no longer. -/
theorem Made.ncard {f : Nat} (m : Made vm vm' t i f) :
    {g | PageAlloc.Free vm'.pmm g}.ncard + 1 = {g | PageAlloc.Free vm.pmm g}.ncard :=
  ncard_free_remove m.fresh m.free

namespace HugeCount

variable {a b frames f : Nat}

/-- The next PDPT is made. -/
theorem made_top (h : HugeCount vm base a b frames kind) (hinv : HugeInv vm base done kind) (ha : a < 255)
    (hb : b ≤ 512 * a) (m : Made vm vm' (bootPml4 base) (256 + a) f) :
    HugeCount vm' base (a + 1) b frames (Function.update kind f (some (.pdpt (256 + a)))) := by
  have hnew : ∀ t' k', kind t' = some k' → t' ≠ f := by
    rintro t' k' hk' rfl
    exact (hinv.frame t' k' hk').2 m.fresh
  have hal := (hinv.frame _ _ hinv.root).1
  have hother : ∀ i < 512, i ≠ 256 + a → entry vm'.mem (bootPml4 base) i = entry vm.mem (bootPml4 base) i :=
    fun i hi hne => m.others _ i hal hi (hnew _ _ hinv.root) (by simp [hne])
  refine ⟨fun i hi => ?_, fun t i j ht hj => ?_, fun t i ht => ?_, ?_⟩
  · by_cases he : i = 256 + a
    · rw [he]
      exact iff_of_true m.link.1 (by omega)
    · rw [hother i hi he, h.top i hi]
      omega
  · by_cases hf : t = f
    · subst hf
      rw [Function.update_self] at ht
      cases ht
      rw [m.empty j hj]
      exact iff_of_false (by decide) (by omega)
    · rw [Function.update_of_ne hf] at ht
      have hs : (t, j) ≠ (bootPml4 base, 256 + a) := by
        intro he
        rw [(Prod.mk.inj he).1, hinv.root] at ht
        cases ht
      rw [m.others t j (hinv.frame t _ ht).1 hj hf hs]
      exact h.mid t i j ht hj
  · by_cases hf : t = f
    · subst hf
      rw [Function.update_self] at ht
      cases ht
      exact ⟨by omega, m.link.1, m.link.2.2⟩
    · rw [Function.update_of_ne hf] at ht
      obtain ⟨hi, hp, haddr⟩ := h.reach t i ht
      have hne : i ≠ 256 + a := by
        rintro rfl
        rw [h.top _ hi] at hp
        omega
      rw [hother i hi hne]
      exact ⟨hi, hp, haddr⟩
  · have hcard := m.ncard
    have hfree := h.free
    omega

/-- The next page directory is made. -/
theorem made_mid (h : HugeCount vm base a b frames kind) (hinv : HugeInv vm base done kind) {j u : Nat}
    (ht : kind t = some (.pdpt i)) (hj : j < 512) (hij : i * 512 + j = 2 ^ 17 + b) (m : Made vm vm' t j f) :
    HugeCount vm' base a (b + 1) frames (Function.update kind f (some (.pd u))) := by
  have hnew : ∀ t' k', kind t' = some k' → t' ≠ f := by
    rintro t' k' hk' rfl
    exact (hinv.frame t' k' hk').2 m.fresh
  have hal := (hinv.frame _ _ hinv.root).1
  have htop : ∀ i < 512, entry vm'.mem (bootPml4 base) i = entry vm.mem (bootPml4 base) i := by
    refine fun i hi => m.others _ i hal hi (hnew _ _ hinv.root) fun he => ?_
    rw [← (Prod.mk.inj he).1, hinv.root] at ht
    cases ht
  have hold : ∀ t' i', Function.update kind f (some (TableKind.pd u)) t' = some (.pdpt i') → kind t' = some (.pdpt i') := by
    intro t' i' ht'
    by_cases hf : t' = f
    · subst hf
      rw [Function.update_self] at ht'
      cases ht'
    · rwa [Function.update_of_ne hf] at ht'
  refine ⟨fun i hi => ?_, fun t' i' j' ht' hj' => ?_, fun t' i' ht' => ?_, ?_⟩
  · rw [htop i hi]
    exact h.top i hi
  · have hk := hold t' i' ht'
    by_cases hs : (t', j') = (t, j)
    · obtain ⟨rfl, rfl⟩ := Prod.mk.inj hs
      obtain rfl := TableKind.pdpt.inj (Option.some.inj (ht.symm.trans hk))
      exact iff_of_true m.link.1 (by omega)
    · have hne : i' * 512 + j' ≠ 2 ^ 17 + b := by
        -- another table of the same kind there is not
        intro he
        have hi : i' = i := by omega
        have hjj : j' = j := by omega
        subst hi
        exact hs (by rw [← (h.reach t' i' hk).2.2, ← (h.reach t i' ht).2.2, hjj])
      rw [m.others t' j' (hinv.frame t' _ hk).1 hj' (hnew t' _ hk) hs, h.mid t' i' j' hk hj']
      omega
  · obtain ⟨hi, hp, haddr⟩ := h.reach t' i' (hold t' i' ht')
    rw [htop i' hi]
    exact ⟨hi, hp, haddr⟩
  · have hcard := m.ncard
    have hfree := h.free
    omega

/-- A page of the direct map is no table. -/
theorem store (h : HugeCount vm base a b frames kind) (hinv : HugeInv vm base done kind) {u l : Nat} (e : Pte)
    (ht : kind t = some (.pd u)) (hl : l < 512) : HugeCount (vm.store (slot t l) e) base a b frames kind := by
  have hal := (hinv.frame t _ ht).1
  have hkeep : ∀ t' k' j, kind t' = some k' → (∀ u, k' ≠ .pd u) → j < 512 →
      entry (vm.store (slot t l) e).mem t' j = entry vm.mem t' j := by
    intro t' k' j hk' hne hj
    refine entry_store e (hinv.frame t' k' hk').1 hal hj hl fun he => ?_
    rw [(Prod.mk.inj he).1] at hk'
    exact hne u (Option.some.inj (hk'.symm.trans ht))
  refine ⟨fun i hi => ?_, fun t' i' j ht' hj => ?_, fun t' i' ht' => ?_, h.free⟩
  · rw [hkeep _ _ i hinv.root (fun _ => nofun) hi]
    exact h.top i hi
  · rw [hkeep t' _ j ht' (fun _ => nofun) hj]
    exact h.mid t' i' j ht' hj
  · obtain ⟨hi, hp, haddr⟩ := h.reach t' i' ht'
    rw [hkeep _ _ i' hinv.root (fun _ => nofun) hi]
    exact ⟨hi, hp, haddr⟩

end HugeCount

/-! ## The loop

The invariant of the loop is about the tables and about the number of frames at the same time.
-/

/-- The virtual address of page `k` of the direct map. -/
def directVirt (k : Nat) : Nat := (physMapBase + k * hugeSize) % 2 ^ 64

theorem directVirt_idx (k : Nat) : pml4Idx (directVirt k) = pdOf k / 512 ∧ pdptIdx (directVirt k) = pdOf k % 512 ∧
    pdIdx (directVirt k) = k % 512 := by
  have hpage : directVirt k / 2 ^ 21 = (2 ^ 43 - 2 ^ 26 + k) % 2 ^ 43 := by
    rw [directVirt, physMapBase, hugeSize]
    omega
  rw [pml4Idx, pdptIdx, pdIdx, pdOf, hpage]
  refine ⟨?_, ?_, by omega⟩
  · have hdiv : directVirt k / 2 ^ 39 = directVirt k / 2 ^ 21 / 2 ^ 18 := by omega
    rw [hdiv, hpage]
    omega
  · have hdiv : directVirt k / 2 ^ 30 = directVirt k / 2 ^ 21 / 2 ^ 9 := by omega
    rw [hdiv, hpage]
    omega

theorem directVirt_succ (k : Nat) : (directVirt k + hugeSize) % 2 ^ 64 = directVirt (k + 1) := by
  rw [directVirt, directVirt, hugeSize]
  omega

/-- The PDPTs and the page directories made for the first `k` pages. -/
def topsFor (k : Nat) : Nat := min ((k + (2 ^ 18 - 1)) / 2 ^ 18) 255

/-- How many PDs `k` huge pages need. -/
def pdsFor (k : Nat) : Nat := (k + 511) / 512

/-- The frames that the tables take up to the window of the kernel. -/
def windowTables : Nat := 131325

/-- What holds when `done` pages are in place, of the number of frames that were free at the start. -/
structure HugeRun (vm : Vm σ) (base done frames : Nat) (kind : Nat → Option TableKind) : Prop where
  inv   : HugeInv vm base done kind
  count : done ≤ 2 ^ 26 - 1024 → HugeCount vm base (topsFor done) (pdsFor done) frames kind
  past  : 2 ^ 26 - 1024 < done → windowTables ≤ frames

/-- Where nothing is free, all frames went into tables. -/
theorem HugeCount.full {a b frames : Nat} (h : HugeCount vm base a b frames kind) (hfull : ∀ f, ¬ PageAlloc.Free vm.pmm f) :
    frames = a + b := by
  have hempty : {f | PageAlloc.Free vm.pmm f} = ∅ := Set.eq_empty_iff_forall_notMem.mpr hfull
  have hfree := h.free
  rw [hempty, Set.ncard_empty] at hfree
  omega

namespace HugeRun

variable {frames : Nat}

/-- The PDPT for the next page. -/
theorem top (h : HugeRun vm base done frames kind) :
    (∃ vm', vm.hugeTable (slot (bootPml4 base) (pdOf done / 512)) = (none, vm') ∧ HugeInv vm' base done kind ∧
      pdOf done / 512 ≠ 511 ∧ (done < 2 ^ 26 - 1024 → frames < windowTables)) ∨
    ∃ t vm' kind', vm.hugeTable (slot (bootPml4 base) (pdOf done / 512)) = (some t, vm') ∧ HugeInv vm' base done kind' ∧
      kind' t = some (.pdpt (pdOf done / 512)) ∧ (pdOf done / 512 = 511 → t = bootPdptHigh base) ∧
      (done < 2 ^ 26 - 1024 → HugeCount vm' base (topsFor (done + 1)) (pdsFor done) frames kind') := by
  have hi : pdOf done / 512 < 512 := by
    rw [pdOf]
    omega
  rcases h.inv.hugeTable h.inv.root rfl hi with ⟨vm', hcode, hinv, habs, hfull⟩ | ⟨t, vm', kind', hcode, hinv, hkind, hcase⟩
  · -- no frame: slot 511 has its table from boot, so it is not that one, and all frames are counted
    refine .inl ⟨vm', hcode, hinv, fun he => ?_, fun hd => ?_⟩
    · rw [he, h.inv.high.1] at habs
      cases habs
    · have hcount := h.count (by omega)
      have hframes := hcount.full hfull
      have hno := (not_congr (hcount.top _ hi)).mp (by rw [habs]; decide)
      rw [topsFor, pdsFor] at hframes
      rw [topsFor, pdOf] at hno
      rw [windowTables]
      omega
  · refine .inr ⟨t, vm', kind', hcode, hinv, hkind, fun he => ?_, fun hd => ?_⟩
    · rcases hcase with ⟨-, rfl, -⟩ | ⟨habs, -⟩
      · rw [he]
        exact h.inv.high.2
      · rw [he, h.inv.high.1] at habs
        cases habs
    · have hcount := h.count (by omega)
      rcases hcase with ⟨hp, -, rfl, rfl⟩ | ⟨habs, hmade, rfl⟩
      · -- the table is there: no more tables are needed than before
        have hyes := (hcount.top _ hi).mp hp
        have hsame : topsFor (done + 1) = topsFor done := by
          rw [topsFor, pdOf] at hyes
          rw [topsFor, topsFor]
          omega
        rw [hsame]
        exact hcount
      · -- it was made: the first page of another slot
        have hno := (not_congr (hcount.top _ hi)).mp (by rw [habs]; decide)
        rw [topsFor, pdOf] at hno
        have hnext : topsFor (done + 1) = topsFor done + 1 := by
          rw [topsFor, topsFor]
          omega
        have hidx : pdOf done / 512 = 256 + topsFor done := by
          rw [topsFor, pdOf]
          omega
        rw [hnext, hidx]
        rw [hidx] at hmade
        refine hcount.made_top h.inv ?_ ?_ hmade
        · rw [topsFor]
          omega
        · rw [topsFor, pdsFor]
          omega

/-- **The page directory for the next page**: found or made, or there is no frame for it. This does not happen in the
    window of the kernel, and before the window only when the frames are too few. -/
theorem pd (h : HugeRun vm base done frames kind) :
    (∃ vm', vm.hugePd (bootPml4 base) (directVirt done) = (none, vm') ∧ (∃ kind', HugeInv vm' base done kind') ∧
      (done < 2 ^ 26 - 1024 → frames < windowTables) ∧ (done < 2 ^ 26 - 1024 ∨ 2 ^ 26 - 512 ≤ done)) ∨
    ∃ t vm' kind', vm.hugePd (bootPml4 base) (directVirt done) = (some t, vm') ∧ HugeInv vm' base done kind' ∧
      kind' t = some (.pd (canonPd (pdOf done))) ∧ (pdOf done = 2 ^ 18 - 2 → t = bootPd base) ∧
      (done < 2 ^ 26 - 1024 → HugeCount vm' base (topsFor (done + 1)) (pdsFor (done + 1)) frames kind') := by
  obtain ⟨hidx4, hidx3, -⟩ := directVirt_idx done
  have hwindow : pdOf done ≠ 2 ^ 18 - 2 → done < 2 ^ 26 - 1024 ∨ 2 ^ 26 - 512 ≤ done := by
    rw [pdOf]
    omega
  rw [Vm.hugePd, hidx4, hidx3]
  rcases h.top with ⟨vm₁, hcode₁, hinv₁, hne, hfew⟩ | ⟨t₁, vm₁, kind₁, hcode₁, hinv₁, hkind₁, hhigh, hcount₁⟩
  · rw [hcode₁]
    exact .inl ⟨vm₁, rfl, ⟨kind, hinv₁⟩, hfew, hwindow (by omega)⟩
  · rw [hcode₁]
    have hj : pdOf done % 512 < 512 := Nat.mod_lt _ (by decide)
    have hij : pdOf done / 512 * 512 + pdOf done % 512 = pdOf done := Nat.div_add_mod' _ _
    have hc : (TableKind.pdpt (pdOf done / 512)).child (pdOf done % 512) = some (.pd (canonPd (pdOf done))) := by
      rw [TableKind.child, hij]
    -- in the window the directory is that of boot
    have hboot : pdOf done = 2 ^ 18 - 2 → t₁ = bootPdptHigh base ∧ pdOf done % 512 = 510 := by
      intro he
      exact ⟨hhigh (by omega), by omega⟩
    rcases hinv₁.hugeTable hkind₁ hc hj with
      ⟨vm₂, hcode₂, hinv₂, habs, hfull⟩ | ⟨t₂, vm₂, kind₂, hcode₂, hinv₂, hkind₂, hcase⟩
    · refine .inl ⟨vm₂, hcode₂, ⟨kind₁, hinv₂⟩, fun hd => ?_, hwindow fun he => ?_⟩
      · have hframes := (hcount₁ hd).full hfull
        have hno := (not_congr ((hcount₁ hd).mid t₁ _ _ hkind₁ hj)).mp (by rw [habs]; decide)
        rw [hij, pdsFor, pdOf] at hno
        rw [topsFor, pdsFor] at hframes
        rw [windowTables]
        omega
      · obtain ⟨rfl, hj'⟩ := hboot he
        rw [hj', hinv₁.pd.1] at habs
        cases habs
    · refine .inr ⟨t₂, vm₂, kind₂, hcode₂, hinv₂, hkind₂, fun he => ?_, fun hd => ?_⟩
      · obtain ⟨rfl, hj'⟩ := hboot he
        rcases hcase with ⟨-, rfl, -⟩ | ⟨habs, -⟩
        · rw [hj']
          exact hinv₁.pd.2
        · rw [hj', hinv₁.pd.1] at habs
          cases habs
      · have hmid := (hcount₁ hd).mid t₁ _ _ hkind₁ hj
        rw [hij, pdsFor] at hmid
        rcases hcase with ⟨hp, -, rfl, rfl⟩ | ⟨habs, hmade, rfl⟩
        · have hsame : pdsFor (done + 1) = pdsFor done := by
            have hyes := hmid.mp hp
            rw [pdOf] at hyes
            rw [pdsFor, pdsFor]
            omega
          rw [hsame]
          exact hcount₁ hd
        · have hno := (not_congr hmid).mp (by rw [habs]; decide)
          rw [pdOf] at hno
          have hnext : pdsFor (done + 1) = pdsFor done + 1 := by
            rw [pdsFor, pdsFor]
            omega
          rw [hnext]
          refine (hcount₁ hd).made_mid hinv₁ hkind₁ hj ?_ hmade
          rw [hij, pdsFor, pdOf]
          omega

/-- One round of the loop. -/
theorem store {t : Nat} (h : HugeRun vm base done frames kind) {vm' : Vm σ} {kind' : Nat → Option TableKind}
    (hinv : HugeInv vm' base done kind') (hk : kind' t = some (.pd (canonPd (pdOf done))))
    (hboot : pdOf done = 2 ^ 18 - 2 → t = bootPd base)
    (hcount : done < 2 ^ 26 - 1024 → HugeCount vm' base (topsFor (done + 1)) (pdsFor (done + 1)) frames kind') :
    HugeRun (vm'.store (slot t (done % 512)) (directEntry done)) base (done + 1) frames kind' := by
  refine ⟨hinv.store hk hboot, fun hd => (hcount (by omega)).store hinv _ hk (Nat.mod_lt _ (by decide)), fun hd => ?_⟩
  by_cases hpast : 2 ^ 26 - 1024 < done
  · exact h.past hpast
  · have hfree := (h.count (by omega)).free
    rw [topsFor, pdsFor] at hfree
    rw [windowTables]
    omega

/-- **The loop of `vmm_map_phys_huge`**, by induction on the pages to go: how far it comes. -/
theorem mapHuge (n : Nat) : ∀ {vm : Vm σ} {done : Nat} {kind : Nat → Option TableKind}, HugeRun vm base done frames kind →
    ∃ done' kind', HugeInv (Vm.mapHuge (bootPml4 base) vmmKernRw n (directVirt done) (done * hugeSize % 2 ^ 64) vm) base done' kind' ∧
      done' ≤ done + n ∧ (2 ^ 26 - 1024 < done' → windowTables ≤ frames) ∧
      (done' = done + n ∨ (done' < 2 ^ 26 - 1024 → frames < windowTables) ∧
        (done' < 2 ^ 26 - 1024 ∨ 2 ^ 26 - 512 ≤ done')) := by
  induction n with
  | zero =>
      intro vm done kind h
      exact ⟨done, kind, h.inv, Nat.le_refl _, h.past, .inl rfl⟩
  | succ n ih =>
      intro vm done kind h
      rw [Vm.mapHuge]
      rcases h.pd with ⟨vm', hcode, ⟨kind', hinv⟩, hfew, hwindow⟩ | ⟨t, vm', kind', hcode, hinv, hk, hboot, hcount⟩
      · rw [hcode]
        exact ⟨done, kind', hinv, by omega, h.past, .inr ⟨hfew, hwindow⟩⟩
      · rw [hcode]
        have hnext := h.store hinv hk hboot hcount
        have hphys : (done * hugeSize % 2 ^ 64 + hugeSize) % 2 ^ 64 = (done + 1) * hugeSize % 2 ^ 64 := by
          rw [hugeSize]
          omega
        obtain ⟨done', kind'', hinv', hle, hpast, hend⟩ := ih hnext
        simp only [directVirt_succ, hphys, (directVirt_idx done).2.2]
        exact ⟨done', kind'', hinv', by omega, hpast, hend.imp (fun he => by omega) id⟩

end HugeRun

end

/-! ## Boot

The stores are to words that the loader has cleared, so the tables of boot are known entry by entry. They make the
invariant true before the first page.
-/

/-- Four bytes written over zeroes make a word. -/
theorem word_movDword {m : ByteMem} {a eax : Nat} (hzero : ∀ i < 8, m (a + i) = 0) (heax : eax < 2 ^ 32) :
    (movDword m a eax).word a = BitVec.ofNat 64 eax := by
  have hlow : (movDword m a eax).read a 4 = leBytes 4 eax := by
    have h := @ByteMem.read_write m a (leBytes 4 eax)
    rwa [length_leBytes] at h
  have hhigh : (movDword m a eax).read (a + 4) 4 = List.replicate 4 0 := by
    apply List.ext_getElem? fun i => ?_
    rw [ByteMem.getElem?_read, List.getElem?_replicate]
    split
    next hi =>
      rw [movDword, m.write_out (.inr (by rw [length_leBytes]; omega)), Nat.add_assoc, hzero (4 + i) (by omega)]
    next => rfl
  have hread : (movDword m a eax).read a (4 + 4) = leBytes (4 + 4) eax := by
    rw [ByteMem.read_add, hlow, hhigh, leBytes_add, Nat.div_eq_of_lt (show eax < 256 ^ 4 by omega), leBytes_zero]
  rw [ByteMem.word, hread, ofLe_leBytes, Nat.mod_eq_of_lt (by omega)]

/-- The stores of `setup_page_tables`, in its order. -/
def bootStores (base : Nat) : List (Nat × Nat) :=
  [(slot (bootPml4 base) 0, bootPdptLow base ||| 3), (slot (bootPml4 base) 511, bootPdptHigh base ||| 3),
    (slot (bootPdptLow base) 0, bootPd base ||| 3), (slot (bootPdptHigh base) 510, bootPd base ||| 3),
    (slot (bootPd base) 0, 0x83), (slot (bootPd base) 1, 0x200083), (slot (bootPd base) 2, 0x400083),
    (slot (bootPd base) 3, 0x600083)]

theorem setupPageTables_eq (base : Nat) (m : ByteMem) :
    setupPageTables base m = (bootStores base).foldl (fun m w => movDword m w.1 w.2) m := by
  rfl

/-- Words that are not stored to stay, and those that are get their value, if the memory was zero. -/
theorem word_stores : ∀ (ws : List (Nat × Nat)) (m : ByteMem), (ws.map Prod.fst).Nodup →
    (∀ w ∈ ws, w.1 % 8 = 0 ∧ w.2 < 2 ^ 32 ∧ ∀ i < 8, m (w.1 + i) = 0) →
    (∀ b, b % 8 = 0 → b ∉ ws.map Prod.fst → (ws.foldl (fun m w => movDword m w.1 w.2) m).word b = m.word b) ∧
      ∀ w ∈ ws, (ws.foldl (fun m w => movDword m w.1 w.2) m).word w.1 = BitVec.ofNat 64 w.2 := by
  intro ws
  induction ws with
  | nil => exact fun m _ _ => ⟨fun _ _ _ => rfl, fun w hw => absurd hw List.not_mem_nil⟩
  | cons v ws ih =>
      intro m hnd hws
      obtain ⟨hv, hnd'⟩ := List.nodup_cons.mp hnd
      obtain ⟨hal, hlt, hzero⟩ := hws v List.mem_cons_self
      have hapart : ∀ b, b % 8 = 0 → b ≠ v.1 → ∀ i < 8, movDword m v.1 v.2 (b + i) = m (b + i) := by
        intro b hb hne i hi
        apply m.write_out
        rw [length_leBytes]
        omega
      have hne : ∀ w ∈ ws, w.1 ≠ v.1 := by
        intro w hw he
        exact hv (he ▸ List.mem_map_of_mem hw)
      obtain ⟨hout, hin⟩ := ih (movDword m v.1 v.2) hnd' fun w hw => by
        obtain ⟨hw1, hw2, hw3⟩ := hws w (List.mem_cons_of_mem _ hw)
        exact ⟨hw1, hw2, fun i hi => (hapart w.1 hw1 (hne w hw) i hi).trans (hw3 i hi)⟩
      refine ⟨fun b hb hm => ?_, fun w hw => ?_⟩
      · rw [List.map_cons, List.mem_cons, not_or] at hm
        rw [List.foldl_cons, hout b hb hm.2]
        exact ByteMem.word_eq_word (hapart b hb hm.1)
      · rcases List.mem_cons.mp hw with rfl | hw
        · rw [List.foldl_cons, hout w.1 hal hv]
          exact word_movDword hzero hlt
        · exact hin w hw

/-- What boot hands to `setup_page_tables`: the tables are aligned, in the first 4 GB, in the `.bss` that the loader
    cleared, and the page allocator does not give them away. -/
structure BootBss (vm : Vm σ) (base : Nat) : Prop where
  aligned : base % pageSize = 0
  low     : base + 16384 ≤ 2 ^ 32
  zero    : ∀ x, base ≤ x → x < base + 16384 → vm.mem x = 0
  used    : ∀ t ∈ [bootPml4 base, bootPdptLow base, bootPdptHigh base, bootPd base], ¬ PageAlloc.Free vm.pmm t

/-- What the tables of boot are for. -/
def bootKind (base t : Nat) : Option TableKind :=
  if t = bootPml4 base then some .pml4
  else if t = bootPdptLow base then some (.pdpt 0)
  else if t = bootPdptHigh base then some (.pdpt 511)
  else if t = bootPd base then some (.pd (2 ^ 18 - 2))
  else none

/-- The state after `setup_page_tables`. -/
def Vm.booted (vm : Vm σ) (base : Nat) : Vm σ := { vm with mem := setupPageTables base vm.mem }

namespace BootBss

variable {vm : Vm σ} {base : Nat}

/-- The entries of the tables of boot. -/
theorem entries (h : BootBss vm base) {t i : Nat}
    (ht : t = bootPml4 base ∨ t = bootPdptLow base ∨ t = bootPdptHigh base ∨ t = bootPd base) (hi : i < 512) :
    (slot t i ∉ (bootStores base).map Prod.fst → entry (vm.booted base).mem t i = 0#64) ∧
      ∀ v, (slot t i, v) ∈ bootStores base → entry (vm.booted base).mem t i = BitVec.ofNat 64 v := by
  have hal := h.aligned
  have hlow := h.low
  rw [pageSize] at hal
  have hzero : ∀ a, base ≤ a → a + 8 ≤ base + 16384 → ∀ i < 8, vm.mem (a + i) = 0 :=
    fun a ha hb i hi => h.zero (a + i) (by omega) (by omega)
  have hor : ∀ f, f % 4096 = 0 → f < 2 ^ 32 → f ||| 3 < 2 ^ 32 := fun f _ hf => Nat.or_lt_two_pow hf (by decide)
  have hws : ∀ w ∈ bootStores base, w.1 % 8 = 0 ∧ w.2 < 2 ^ 32 ∧ ∀ i < 8, vm.mem (w.1 + i) = 0 := by
    intro w hw
    simp only [bootStores, List.mem_cons, List.not_mem_nil, or_false] at hw
    rcases hw with rfl | rfl | rfl | rfl | rfl | rfl | rfl | rfl
    all_goals
      simp only [slot, bootPml4, bootPdptLow, bootPdptHigh, bootPd]
      refine ⟨by omega, ?_, hzero _ (by omega) (by omega)⟩
    · exact hor _ (by omega) (by omega)
    · exact hor _ (by omega) (by omega)
    · exact hor _ (by omega) (by omega)
    · exact hor _ (by omega) (by omega)
    all_goals decide
  have hnd : ((bootStores base).map Prod.fst).Nodup := by
    simp only [bootStores, List.map_cons, List.map_nil, slot, bootPml4, bootPdptLow, bootPdptHigh, bootPd, List.nodup_cons,
      List.mem_cons, List.not_mem_nil, or_false, not_or, List.nodup_nil, and_true, not_false_eq_true]
    omega
  obtain ⟨hout, hin⟩ := word_stores (bootStores base) vm.mem hnd hws
  have hslot : base ≤ slot t i ∧ slot t i + 8 ≤ base + 16384 ∧ slot t i % 8 = 0 := by
    simp only [bootPml4, bootPdptLow, bootPdptHigh, bootPd] at ht
    rw [slot]
    omega
  refine ⟨fun hm => ?_, fun v hv => ?_⟩
  · have hword := hout (slot t i) hslot.2.2 hm
    rw [ByteMem.word_zero _ (hzero _ hslot.1 hslot.2.1)] at hword
    rw [entry, Vm.booted, setupPageTables_eq]
    exact hword
  · have hword := hin _ hv
    rw [entry, Vm.booted, setupPageTables_eq]
    exact hword

/-- An entry that `setup_page_tables` makes lead to a table. -/
theorem link_bits {f : Nat} (hal : f % 4096 = 0) (hlt : f < 2 ^ 32) :
    isPresent (BitVec.ofNat 64 (f ||| 3)) = true ∧ isHuge (BitVec.ofNat 64 (f ||| 3)) = false ∧
      pteAddr (BitVec.ofNat 64 (f ||| 3)) = f := by
  rw [BitVec.ofNat_or]
  exact table_bits hal (by omega) (by decide) (by decide) (by decide)

theorem pml4_entry (h : BootBss vm base) {i : Nat} (hi : i < 512) : entry (vm.booted base).mem (bootPml4 base) i =
    if i = 0 then BitVec.ofNat 64 (bootPdptLow base ||| 3)
    else if i = 511 then BitVec.ofNat 64 (bootPdptHigh base ||| 3) else 0#64 := by
  obtain ⟨hout, hin⟩ := h.entries (.inl rfl) hi
  split
  next he =>
    subst he
    exact hin _ (by simp [bootStores])
  next h0 =>
    split
    next he =>
      subst he
      exact hin _ (by simp [bootStores])
    next h511 =>
      apply hout
      simp only [bootStores, List.map_cons, List.map_nil, List.mem_cons, List.not_mem_nil, or_false, slot, bootPml4,
        bootPdptLow, bootPdptHigh, bootPd]
      omega

/-- A table of boot with one entry. -/
theorem one_entry (h : BootBss vm base) {t i j v : Nat} (ht : t = bootPdptLow base ∨ t = bootPdptHigh base) (hi : i < 512)
    (hv : (slot t j, v) ∈ bootStores base)
    (hno : i ≠ j → slot t i ∉ (bootStores base).map Prod.fst) :
    entry (vm.booted base).mem t i = if i = j then BitVec.ofNat 64 v else 0#64 := by
  obtain ⟨hout, hin⟩ := h.entries (ht.elim (fun he => .inr (.inl he)) fun he => .inr (.inr (.inl he))) hi
  split
  next he =>
    subst he
    exact hin v hv
  next he => exact hout (hno he)

theorem pdptLow_entry (h : BootBss vm base) {i : Nat} (hi : i < 512) : entry (vm.booted base).mem (bootPdptLow base) i =
    if i = 0 then BitVec.ofNat 64 (bootPd base ||| 3) else 0#64 := by
  refine h.one_entry (.inl rfl) hi (by simp [bootStores]) fun hne => ?_
  simp only [bootStores, List.map_cons, List.map_nil, List.mem_cons, List.not_mem_nil, or_false, slot, bootPml4,
    bootPdptLow, bootPdptHigh, bootPd]
  omega

theorem pdptHigh_entry (h : BootBss vm base) {i : Nat} (hi : i < 512) : entry (vm.booted base).mem (bootPdptHigh base) i =
    if i = 510 then BitVec.ofNat 64 (bootPd base ||| 3) else 0#64 := by
  refine h.one_entry (.inr rfl) hi (by simp [bootStores]) fun hne => ?_
  simp only [bootStores, List.map_cons, List.map_nil, List.mem_cons, List.not_mem_nil, or_false, slot, bootPml4,
    bootPdptLow, bootPdptHigh, bootPd]
  omega

theorem pd_entry (h : BootBss vm base) {l : Nat} (hl : l < 512) : entry (vm.booted base).mem (bootPd base) l =
    if l < 4 then bootEntry l else 0#64 := by
  obtain ⟨hout, hin⟩ := h.entries (.inr (.inr (.inr rfl))) hl
  split
  next hlow =>
    have hmem : ∀ l < 4, (slot (bootPd base) l, l * hugeSize ||| 0x83) ∈ bootStores base := by
      intro l hl
      have hcases : l = 0 ∨ l = 1 ∨ l = 2 ∨ l = 3 := by omega
      rcases hcases with rfl | rfl | rfl | rfl <;> simp [bootStores, hugeSize]
    exact hin _ (hmem l hlow)
  next hlow =>
    apply hout
    simp only [bootStores, List.map_cons, List.map_nil, List.mem_cons, List.not_mem_nil, or_false, slot, bootPml4,
      bootPdptLow, bootPdptHigh, bootPd]
    omega

theorem bootKind_cases {t : Nat} {k : TableKind} (hk : bootKind base t = some k) :
    t = bootPml4 base ∧ k = .pml4 ∨ t = bootPdptLow base ∧ k = .pdpt 0 ∨
      t = bootPdptHigh base ∧ k = .pdpt 511 ∨ t = bootPd base ∧ k = .pd (2 ^ 18 - 2) := by
  unfold bootKind at hk
  split at hk
  · exact .inl ⟨‹_›, (Option.some.inj hk).symm⟩
  · split at hk
    · exact .inr (.inl ⟨‹_›, (Option.some.inj hk).symm⟩)
    · split at hk
      · exact .inr (.inr (.inl ⟨‹_›, (Option.some.inj hk).symm⟩))
      · split at hk
        · exact .inr (.inr (.inr ⟨‹_›, (Option.some.inj hk).symm⟩))
        · cases hk

theorem bootKind_tables (base : Nat) : bootKind base (bootPml4 base) = some .pml4 ∧
    bootKind base (bootPdptLow base) = some (.pdpt 0) ∧ bootKind base (bootPdptHigh base) = some (.pdpt 511) ∧
    bootKind base (bootPd base) = some (.pd (2 ^ 18 - 2)) := by
  simp [bootKind, bootPml4, bootPdptLow, bootPdptHigh, bootPd]

/-- The links of boot are entries for its tables. -/
theorem link (h : BootBss vm base) {t : Nat} (ht : t = bootPdptLow base ∨ t = bootPdptHigh base ∨ t = bootPd base) :
    isPresent (BitVec.ofNat 64 (t ||| 3)) = true ∧ isHuge (BitVec.ofNat 64 (t ||| 3)) = false ∧
      pteAddr (BitVec.ofNat 64 (t ||| 3)) = t := by
  have hal := h.aligned
  have hlow := h.low
  rw [pageSize] at hal
  rw [bootPdptLow, bootPdptHigh, bootPd] at ht
  exact link_bits (by omega) (by omega)

/-- Boot gives no table away. -/
theorem frames (h : BootBss vm base) : LabelledFrames (vm.booted base) (bootKind base) := by
  intro t k hk
  have hal := h.aligned
  rw [pageSize] at hal
  have hused := h.used t
  simp only [List.mem_cons, List.not_mem_nil, or_false] at hused
  rcases bootKind_cases hk with ⟨rfl, -⟩ | ⟨rfl, -⟩ | ⟨rfl, -⟩ | ⟨rfl, -⟩
  · exact ⟨hal, hused (.inl rfl)⟩
  · exact ⟨by rw [bootPdptLow, pageSize]; omega, hused (.inr (.inl rfl))⟩
  · exact ⟨by rw [bootPdptHigh, pageSize]; omega, hused (.inr (.inr (.inl rfl)))⟩
  · exact ⟨by rw [bootPd, pageSize]; omega, hused (.inr (.inr (.inr rfl)))⟩

theorem children (h : BootBss vm base) : LabelledChildren TableKind.child (vm.booted base) (bootKind base) := by
  intro t k i c hk hc hi hp
  obtain ⟨-, hkindLow, hkindHigh, hkindPd⟩ := bootKind_tables base
  have hpdptLow := h.link (.inl rfl)
  have hpdptHigh := h.link (.inr (.inl rfl))
  have hpd := h.link (.inr (.inr rfl))
  rcases bootKind_cases hk with ⟨ht, rfl⟩ | ⟨rfl, rfl⟩ | ⟨rfl, rfl⟩ | ⟨rfl, rfl⟩
  · rw [ht, h.pml4_entry hi] at hp ⊢
    obtain rfl := Option.some.inj hc
    split at hp
    next he =>
      subst he
      rw [if_pos rfl]
      exact ⟨hpdptLow.2.1, by rw [hpdptLow.2.2]; exact hkindLow⟩
    next h0 =>
      split at hp
      next he =>
        subst he
        rw [if_neg (by decide), if_pos rfl]
        exact ⟨hpdptHigh.2.1, by rw [hpdptHigh.2.2]; exact hkindHigh⟩
      next => exact absurd hp (by decide)
  · rw [h.pdptLow_entry hi] at hp ⊢
    obtain rfl := Option.some.inj hc
    split at hp
    next he =>
      subst he
      rw [if_pos rfl]
      exact ⟨hpd.2.1, by rw [hpd.2.2]; exact hkindPd⟩
    next => exact absurd hp (by decide)
  · rw [h.pdptHigh_entry hi] at hp ⊢
    obtain rfl := Option.some.inj hc
    split at hp
    next he =>
      subst he
      rw [if_pos rfl]
      exact ⟨hpd.2.1, by rw [hpd.2.2]; exact hkindPd⟩
    next => exact absurd hp (by decide)
  · cases hc

theorem hugeInv (h : BootBss vm base) : HugeInv (vm.booted base) base 0 (bootKind base) := by
  obtain ⟨hkind4, -, -, -⟩ := bootKind_tables base
  refine ⟨h.frames, h.children, fun t u l hk hl => ?_, hkind4, ?_, ?_, fun l hl _ => ?_⟩
  · rcases bootKind_cases hk with ⟨-, hne⟩ | ⟨-, hne⟩ | ⟨-, hne⟩ | ⟨rfl, -⟩
    · cases hne
    · cases hne
    · cases hne
    · rw [h.pd_entry hl]
      split
      next hlow => exact .inr (.inl ⟨rfl, hlow, Nat.zero_le _, rfl⟩)
      next => exact .inl rfl
  · rw [h.pml4_entry (by decide), if_neg (by decide), if_pos rfl]
    have hlink := h.link (.inr (.inl rfl))
    exact ⟨hlink.1, hlink.2.2⟩
  · rw [h.pdptHigh_entry (by decide), if_pos rfl]
    have hlink := h.link (.inr (.inr rfl))
    exact ⟨hlink.1, hlink.2.2⟩
  · rw [h.pd_entry (by omega), if_pos hl]

theorem hugeCount (h : BootBss vm base) : HugeCount (vm.booted base) base (topsFor 0) (pdsFor 0)
    {f | PageAlloc.Free vm.pmm f}.ncard (bootKind base) := by
  have hpdptLow := h.link (.inl rfl)
  have hpdptHigh := h.link (.inr (.inl rfl))
  have hpd := h.link (.inr (.inr rfl))
  have habs : isPresent 0#64 = false := by decide
  refine ⟨fun i hi => ?_, fun t i j hk hj => ?_, fun t i hk => ?_, ?_⟩
  · rw [h.pml4_entry hi]
    split
    next h0 => exact iff_of_true hpdptLow.1 (.inl h0)
    next h0 =>
      split
      next h511 => exact iff_of_true hpdptHigh.1 (.inr (.inl h511))
      next h511 =>
        rw [habs]
        exact iff_of_false (by decide) (by rw [topsFor]; omega)
  · rcases bootKind_cases hk with ⟨-, hne⟩ | ⟨rfl, he⟩ | ⟨rfl, he⟩ | ⟨-, hne⟩
    · cases hne
    · obtain rfl := TableKind.pdpt.inj he
      rw [h.pdptLow_entry hj]
      split
      next h0 => exact iff_of_true hpd.1 (by omega)
      next h0 =>
        rw [habs]
        exact iff_of_false (by decide) (by omega)
    · obtain rfl := TableKind.pdpt.inj he
      rw [h.pdptHigh_entry hj]
      split
      next h510 => exact iff_of_true hpd.1 (by omega)
      next h510 =>
        rw [habs]
        exact iff_of_false (by decide) (by rw [pdsFor]; omega)
    · cases hne
  · rcases bootKind_cases hk with ⟨-, hne⟩ | ⟨rfl, he⟩ | ⟨rfl, he⟩ | ⟨-, hne⟩
    · cases hne
    · obtain rfl := TableKind.pdpt.inj he
      rw [h.pml4_entry (by decide), if_pos rfl]
      exact ⟨by decide, hpdptLow.1, hpdptLow.2.2⟩
    · obtain rfl := TableKind.pdpt.inj he
      rw [h.pml4_entry (by decide), if_neg (by decide), if_pos rfl]
      exact ⟨by decide, hpdptHigh.1, hpdptHigh.2.2⟩
    · cases hne
  · rfl

/-- **The tables of boot** are those of a direct map of no pages. -/
theorem hugeRun (h : BootBss vm base) :
    HugeRun (vm.booted base) base 0 {f | PageAlloc.Free vm.pmm f}.ncard (bootKind base) :=
  ⟨h.hugeInv, fun _ => h.hugeCount, fun hd => absurd hd (by decide)⟩

end BootBss

/-! ## Translation

Where an address leads once the loop is done, for all addresses: inside the first window, inside the second one, and
elsewhere.
-/

/-- The number of the page directory that `va` goes through. -/
def pdNumber (va : Nat) : Nat := va / 2 ^ 30 % 2 ^ 18

/-- **Where an address leads**: nowhere, into the first 8 MB through the directory of boot, or where the direct map
    leads. -/
theorem HugeInv.virtToPhys {vm : Vm σ} {base done : Nat} {kind : Nat → Option TableKind} (h : HugeInv vm base done kind)
    (va : Nat) : vmmVirtToPhys vm.mem (bootPml4 base) va = 0 ∨
      (canonPd (pdNumber va) = 2 ^ 18 - 2 ∧ pdIdx va < 4 ∧ done ≤ 2 ^ 26 - 1024 + pdIdx va ∧
        vmmVirtToPhys vm.mem (bootPml4 base) va = pdIdx va * hugeSize + va % 2 ^ 21) ∨
      ∃ k < done, canonPd (pdOf k) = canonPd (pdNumber va) ∧ k % 512 = pdIdx va ∧
        vmmVirtToPhys vm.mem (bootPml4 base) va = k * hugeSize % 2 ^ 52 + va % 2 ^ 21 := by
  have hnumber : pml4Idx va * 512 + pdptIdx va = pdNumber va := by
    rw [pml4Idx, pdptIdx, pdNumber]
    omega
  have hlt : pml4Idx va < 512 ∧ pdptIdx va < 512 ∧ pdIdx va < 512 := by
    rw [pml4Idx, pdptIdx, pdIdx]
    omega
  rw [vmmVirtToPhys]
  dsimp only
  cases h4 : isPresent (entry vm.mem (bootPml4 base) (pml4Idx va)) with
  | false => exact .inl rfl
  | true =>
      obtain ⟨-, hk3⟩ := h.child _ _ _ _ h.root rfl hlt.1 h4
      generalize pteAddr (entry vm.mem (bootPml4 base) (pml4Idx va)) = pdpt at *
      cases h3 : isPresent (entry vm.mem pdpt (pdptIdx va)) with
      | false => exact .inl rfl
      | true =>
          obtain ⟨hsmall, hk2⟩ := h.child _ _ _ _ hk3 rfl hlt.2.1 h3
          rw [hnumber] at hk2
          rw [hsmall]
          generalize pteAddr (entry vm.mem pdpt (pdptIdx va)) = pd at *
          have hleaf := h.leaf pd _ _ hk2 hlt.2.2
          generalize entry vm.mem pd (pdIdx va) = e at *
          rcases hleaf with rfl | ⟨rfl, hlow, hd, rfl⟩ | ⟨k, hk, hu, hl, rfl⟩
          · exact .inl rfl
          · have hu := TableKind.pd.inj (Option.some.inj (hk2.symm.trans h.kind_pd))
            obtain ⟨hp, hhuge, haddr⟩ := bootEntry_bits hlow
            rw [hp, hhuge, haddr]
            exact .inr (.inl ⟨hu, hlow, hd, rfl⟩)
          · obtain ⟨hp, hhuge, haddr⟩ := directEntry_bits k
            rw [hp, hhuge, haddr]
            exact .inr (.inr ⟨k, hk, hu, hl, rfl⟩)

/-- Through the window of the kernel, as far as boot has mapped it and the direct map has not come. -/
theorem HugeInv.virtToPhys_window {vm : Vm σ} {base done : Nat} {kind : Nat → Option TableKind}
    (h : HugeInv vm base done kind) {x : Nat} (hx : x < 4 * hugeSize) (hd : done ≤ 2 ^ 26 - 1024 + x / hugeSize) :
    vmmVirtToPhys vm.mem (bootPml4 base) (physToVirt x) = x := by
  rw [hugeSize] at hx hd
  have hidx : pml4Idx (physToVirt x) = 511 ∧ pdptIdx (physToVirt x) = 510 ∧ pdIdx (physToVirt x) = x / 2 ^ 21 ∧
      physToVirt x % 2 ^ 21 = x % 2 ^ 21 := by
    rw [pml4Idx, pdptIdx, pdIdx, physToVirt, kernelVmaBase]
    omega
  obtain ⟨h4, h3, h2, hoff⟩ := hidx
  have hl : x / 2 ^ 21 < 4 := by omega
  have hsmall := (h.child _ _ 510 _ h.kind_high rfl (by decide) h.pd.1).1
  obtain ⟨hp, hhuge, haddr⟩ := bootEntry_bits hl
  rw [vmmVirtToPhys]
  dsimp only
  rw [h4, h3, h2, hoff, h.high.1, h.high.2, h.pd.1, hsmall, h.pd.2, h.boot _ hl (by omega), hp, hhuge, haddr, hugeSize]
  show x / 2 ^ 21 * (2 * 1024 * 1024) + x % 2 ^ 21 = x
  omega

/-- **Elsewhere it leads astray.** No address but these is what `PHYS_TO_VIRT` takes it for. -/
theorem HugeInv.virtToPhys_astray {vm : Vm σ} {base done : Nat} {kind : Nat → Option TableKind}
    (h : HugeInv vm base done kind) {x : Nat} (h0 : x ≠ 0)
    (heq : vmmVirtToPhys vm.mem (bootPml4 base) (physToVirt x) = x) :
    x < 4 * hugeSize ∧ done ≤ 2 ^ 26 - 1024 + x / hugeSize := by
  have hva : physToVirt x / 2 ^ 21 % 2 ^ 27 = (x / 2 ^ 21 + (2 ^ 27 - 1024)) % 2 ^ 27 ∧
      physToVirt x % 2 ^ 21 = x % 2 ^ 21 := by
    rw [physToVirt, kernelVmaBase]
    omega
  have hnumber : pdNumber (physToVirt x) = (x / 2 ^ 21 + (2 ^ 27 - 1024)) % 2 ^ 27 / 512 ∧
      pdIdx (physToVirt x) = (x / 2 ^ 21 + (2 ^ 27 - 1024)) % 512 := by
    rw [pdNumber, pdIdx]
    omega
  rcases h.virtToPhys (physToVirt x) with hz | ⟨-, hlow, hd, hphys⟩ | ⟨k, -, hu, hl, hphys⟩
  · exact absurd (heq.symm.trans hz) h0
  · rw [heq, hugeSize, hva.2] at hphys
    rw [hnumber.2] at hphys hlow hd
    rw [hugeSize]
    omega
  · -- the two maps are a distance apart that is no multiple of what the tables tell apart
    rw [heq, hugeSize, hva.2] at hphys
    rw [hnumber.1, canonPd, canonPd, pdOf] at hu
    rw [hnumber.2] at hl
    exfalso
    split at hu <;> split at hu <;> omega

/-! ## Clearing

`pmm_alloc` and its relatives clear what they hand out, through `PHYS_TO_VIRT`. So whether a frame is cleared is a
question about the translation of one address.
-/

theorem physToVirt_add (f i : Nat) : (physToVirt f + i) % 2 ^ 64 = physToVirt (f + i) := by
  rw [physToVirt, physToVirt]
  omega

/-- The `memset` of `len` bytes at `PHYS_TO_VIRT(f)` clears physical memory from `f`. -/
def ClearsFrames (m : ByteMem) (pml4 f len : Nat) : Prop :=
  ∀ i < len, vmmVirtToPhys m pml4 ((physToVirt f + i) % 2 ^ 64) = f + i

/-- What a call of the page allocator hands out, and clears: the address and the bytes. -/
def PmmCall.hands (s : Pmm) : PmmCall → Option (Nat × Nat)
  | .alloc          => if s.pmmAlloc.1 = 0 then none else some (s.pmmAlloc.1, pageSize)
  | .allocZone zone => if (s.pmmAllocZone zone).1 = 0 then none else some ((s.pmmAllocZone zone).1, pageSize)
  | .allocN n       => if (s.pmmAllocN n).1 = 0 then none else some ((s.pmmAllocN n).1, n * pageSize)
  | _               => none

theorem PmmCall.hands_pos {s : Pmm} {c : PmmCall} {f len : Nat} (h : c.hands s = some (f, len)) : f ≠ 0 ∧ 0 < len := by
  cases c with
  | alloc =>
      obtain ⟨h0, he⟩ := Option.ite_none_left_eq_some.mp h
      cases he
      exact ⟨h0, by decide⟩
  | allocZone zone =>
      obtain ⟨h0, he⟩ := Option.ite_none_left_eq_some.mp h
      cases he
      exact ⟨h0, by decide⟩
  | allocN n =>
      obtain ⟨h0, he⟩ := Option.ite_none_left_eq_some.mp h
      cases he
      refine ⟨h0, Nat.mul_pos (Nat.pos_of_ne_zero ?_) (by decide)⟩
      rintro rfl
      exact h0 rfl
  | _ => cases h

/-- The pages of 2 MB that `vmm_init` is to map. -/
def directPages (totalPages : Nat) : Nat := Vm.hugePages (totalPages * pageSize % 2 ^ 64)

/-- The tables that `vmm_init` leaves. -/
theorem BootBss.vmmInit {vm : Vm σ} {base : Nat} (h : BootBss vm base) (totalPages : Nat) :
    ∃ done kind, HugeInv ((vm.booted base).vmmInit (bootPml4 base) totalPages) base done kind ∧
      ∀ l < 512, (2 ^ 26 - 1024 + l < done ↔ 2 ^ 26 - 1024 + l < directPages totalPages ∧
        windowTables ≤ {f | PageAlloc.Free vm.pmm f}.ncard) := by
  obtain ⟨done, kind, hinv, hle, hpast, hend⟩ := h.hugeRun.mapHuge (directPages totalPages)
  refine ⟨done, kind, hinv, fun l hl => ⟨fun hd => ⟨by omega, hpast (by omega)⟩, fun ⟨hn, hframes⟩ => ?_⟩⟩
  rcases hend with hdone | ⟨hfew, hwindow⟩
  · omega
  · rcases hwindow with hbefore | hbehind
    · exact absurd (hfew hbefore) (Nat.not_lt.mpr hframes)
    · omega

theorem clearsFrames_iff {vm : Vm σ} {base : Nat} (h : BootBss vm base) (totalPages : Nat) {f len : Nat} (hf : f ≠ 0)
    (hlen : 0 < len) :
    ClearsFrames ((vm.booted base).vmmInit (bootPml4 base) totalPages).mem (bootPml4 base) f len ↔
      f + len ≤ 4 * hugeSize ∧ (directPages totalPages ≤ 2 ^ 26 - 1024 + f / hugeSize ∨
        {f | PageAlloc.Free vm.pmm f}.ncard < windowTables) := by
  obtain ⟨done, kind, hinv, hdone⟩ := h.vmmInit totalPages
  simp only [ClearsFrames, physToVirt_add]
  constructor
  · intro hall
    obtain ⟨hlow, hd⟩ := hinv.virtToPhys_astray hf (hall 0 hlen)
    refine ⟨?_, ?_⟩
    · by_contra hend
      -- the first byte behind the window
      have hlast := hall (4 * hugeSize - f) (by omega)
      rw [show f + (4 * hugeSize - f) = 4 * hugeSize by omega] at hlast
      exact absurd (hinv.virtToPhys_astray (by decide) hlast).1 (Nat.lt_irrefl _)
    · have hpage : f / hugeSize < 512 := by
        rw [hugeSize] at hlow ⊢
        omega
      by_contra hno
      obtain ⟨hn, hframes⟩ := not_or.mp hno
      exact absurd ((hdone _ hpage).mpr ⟨by omega, by omega⟩) (Nat.not_lt.mpr hd)
  · rintro ⟨hlow, hcut⟩ i hi
    refine hinv.virtToPhys_window (by omega) ?_
    have hpage : f / hugeSize ≤ (f + i) / hugeSize := Nat.div_le_div_right (by omega)
    have hlt : f / hugeSize < 512 := by
      rw [hugeSize] at hlow ⊢
      omega
    have hle : ¬ 2 ^ 26 - 1024 + f / hugeSize < done := by
      rw [hdone _ hlt]
      omega
    omega

/-- The tables of boot beside the 64 frames. -/
theorem clearedVm_boot : BootBss clearedVm 0x100000 := by
  refine ⟨by decide, by decide, fun _ _ _ => rfl, fun t ht hfree => ?_⟩
  have hlt : t / pageSize < 64 := hfree.2.1
  clear hfree
  revert t
  decide

/-- **Frames are cleared through the window of the kernel.** What a call of the page allocator hands out is what it
    clears, if and only if it lies in the first 8 MB and the direct map has not run over its page: because there is not
    so much memory, or because there were no frames for the tables. -/
theorem frames_cleared_iff (s : Pmm) (c : PmmCall) (f len : Nat) (hands : c.hands s = some (f, len)) (vm : Vm σ)
    (base : Nat) (h : BootBss vm base) :
    ClearsFrames ((vm.booted base).vmmInit (bootPml4 base) s.totalPages).mem (bootPml4 base) f len ↔
      f + len ≤ 4 * hugeSize ∧ (directPages s.totalPages ≤ 2 ^ 26 - 1024 + f / hugeSize ∨
        {f | PageAlloc.Free vm.pmm f}.ncard < windowTables) := by
  obtain ⟨hf, hlen⟩ := PmmCall.hands_pos hands
  exact clearsFrames_iff h s.totalPages hf hlen

/-- A frame in the first 8 MB is cleared. -/
theorem frames_cleared_low :
    PmmCall.alloc.hands clearedVm.pmm.1 = some (0x2000, pageSize) ∧
      ClearsFrames ((clearedVm.booted 0x100000).vmmInit 0x100000 64).mem 0x100000 0x2000 pageSize := by
  have hands : PmmCall.alloc.hands clearedVm.pmm.1 = some (0x2000, pageSize) := by decide +kernel
  refine ⟨hands, (frames_cleared_iff clearedVm.pmm.1 .alloc 0x2000 pageSize hands clearedVm 0x100000 clearedVm_boot).mpr ?_⟩
  exact ⟨by decide, .inl (by decide)⟩

/-- A machine with one page more than 8 MB, and only this page is free. -/
def highVm : Vm SoundPmm where
  mem := fun _ => 0
  pmm := ⟨{ bitmap := fun w => if w < 32 then BitVec.allOnes 64 else 0#64, totalPages := 2049, freePages := 1#64,
            usedPages := 2048#64, allocHint := 0 },
    fun _ => by decide, by decide, ⟨by decide, by decide +kernel, by decide, .inr rfl⟩⟩

/-- **The page behind the first 8 MB** is handed out, and `PHYS_TO_VIRT` leads nowhere. -/
theorem frames_cleared_high :
    PmmCall.alloc.hands highVm.pmm.1 = some (0x800000, pageSize) ∧ BootBss highVm 0x100000 ∧
      ¬ ClearsFrames ((highVm.booted 0x100000).vmmInit 0x100000 2049).mem 0x100000 0x800000 pageSize := by
  have hboot : BootBss highVm 0x100000 := by
    refine ⟨by decide, by decide, fun _ _ _ => rfl, fun t ht hfree => ?_⟩
    have hused : highVm.pmm.1.bitmapTest (t / pageSize) = false := hfree.2.2
    clear hfree
    revert t
    decide
  refine ⟨by decide +kernel, hboot, fun hall => ?_⟩
  have hlow := ((clearsFrames_iff hboot 2049 (by decide) (by decide)).mp hall).1
  exact absurd hlow (by decide)

end MyUnix.Mm
