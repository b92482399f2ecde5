import MyUnix.Lib.Bytes
import MyUnix.Mm.PmmCount
import MyUnix.Kernel.Errno

/-!
# `Mm.Vmm` — page tables

`vmm.c`: the four-level page tables of an address space, read and written through the direct map of physical memory.
Memory is the byte at every physical address, so a table is 512 little-endian words of a frame like any other, and
what a stray write does to a table shows. Virtual and physical addresses are numbers, with the wrap-around of
`uintptr_t` written out where a sum can reach it; entries are 64-bit words.

The frames come from a page allocator of which only the interface is used (`PageAlloc`): `pmm_alloc` fails when nothing
is free, and what it returns was free. The bitmap allocator is one (`SoundPmm`).

The allocator is a class with the laws that page tables rely on, and no more. A frame that it looks after is aligned,
is not frame 0 and lies below `2 ^ 52`, so that it fits an entry; a call that fails means that nothing is free; a
frame that is free and is freed panics. Every result about page tables holds for any such allocator, and `SoundPmm`
shows that the one of `pmm.c` is of this kind.

The walk trusts what it reads. An entry is followed wherever it leads, a table may be reached on two ways, and the
PDPT level takes a huge page for a table when it looks for the last entry (`vmmGetPte`), though not when it translates
(`vmmVirtToPhys`). Which of these can happen in a space of the kernel is for the invariants to say.
-/

namespace MyUnix.Mm

open Lib

/-! ## The page allocator, from outside

The laws, and the instance. Each law is one of the lemmas of `Mm.Pmm` and `Mm.PmmSearch` read from outside.
-/

/-- `pmm_alloc` (0: no frame) and `pmm_free` (`none`: the double-free panic), with the frames that are free and those
    the allocator looks after at all. -/
class PageAlloc (σ : Type) where
  pmmAlloc : σ → Nat × σ
  pmmFree : σ → Nat → Option σ
  Free : σ → Nat → Prop
  Managed : σ → Nat → Prop
  managed_of_free {s f} : Free s f → Managed s f
  managed_spec {s f} : Managed s f → f ≠ 0 ∧ f % pageSize = 0 ∧ f < 2 ^ 52
  alloc_managed {s f} : Managed (pmmAlloc s).2 f ↔ Managed s f
  alloc_none {s} : (pmmAlloc s).1 = 0 → ∀ f, Free (pmmAlloc s).2 f ↔ Free s f
  alloc_full {s} : (pmmAlloc s).1 = 0 → ∀ f, ¬Free s f
  alloc_some {s} : (pmmAlloc s).1 ≠ 0 →
    Free s (pmmAlloc s).1 ∧ ∀ f, Free (pmmAlloc s).2 f ↔ Free s f ∧ f ≠ (pmmAlloc s).1
  free_none {s f} : pmmFree s f = none ↔ Free s f
  free_some {s f s'} : pmmFree s f = some s' →
    (∀ g, Managed s' g ↔ Managed s g) ∧ ∀ g, Free s' g ↔ Free s g ∨ (g = f ∧ Managed s f)

/-- A bitmap that keeps frame 0 and covers physical addresses below `2 ^ 52`, with its counters right. -/
abbrev SoundPmm := { s : Pmm // ZeroUsed s ∧ s.totalPages ≤ 2 ^ 40 ∧ Counted s }

namespace SoundPmm

/-- Which frames a call of `pmm_alloc` leaves free. -/
theorem alloc_cases (s : SoundPmm) : s.1.pmmAlloc = (0, s.1) ∨
    ∃ f, s.1.pmmAlloc.1 = f * pageSize ∧ f ≠ 0 ∧ Takes s.1 s.1.pmmAlloc.2 [f] := by
  rcases Pmm.pmmAlloc_spec s.2.1 with h | ⟨f, s', h, hf, ht⟩
  · exact .inl h
  · exact .inr ⟨f, by rw [h], hf, by rw [h]; exact ht⟩

theorem alloc_sound (s : SoundPmm) :
    ZeroUsed s.1.pmmAlloc.2 ∧ s.1.pmmAlloc.2.totalPages ≤ 2 ^ 40 ∧ Counted s.1.pmmAlloc.2 := by
  rcases alloc_cases s with h | ⟨f, -, -, ht⟩
  · rw [h]
    exact s.2
  · refine ⟨fun hpos => ?_, by rw [ht.total]; exact s.2.2.1, s.2.2.2.pmmAlloc⟩
    rw [ht.total] at hpos
    rw [ht.test, s.2.1 hpos, Bool.or_true]

/-- `pmm_free` panics on a free frame, ignores what it does not manage, and else releases the frame. -/
theorem free_cases (s : SoundPmm) (f : Nat) :
    (s.1.pmmFree f = none ∧ f % pageSize = 0 ∧ f ≠ 0 ∧ f / pageSize < s.1.totalPages ∧
      s.1.bitmapTest (f / pageSize) = false) ∨
    (s.1.pmmFree f = some s.1 ∧ ¬(f % pageSize = 0 ∧ f ≠ 0 ∧ f / pageSize < s.1.totalPages)) ∨
    (f % pageSize = 0 ∧ f ≠ 0 ∧ f / pageSize < s.1.totalPages ∧ s.1.bitmapTest (f / pageSize) = true ∧
      ∃ s', s.1.pmmFree f = some s' ∧ s'.totalPages = s.1.totalPages ∧
        ∀ x, s'.bitmapTest x = (decide (x ≠ f / pageSize) && s.1.bitmapTest x)) := by
  by_cases hm : f % pageSize = 0 ∧ f ≠ 0 ∧ f / pageSize < s.1.totalPages
  · obtain ⟨hal, h0, hlt⟩ := hm
    have hf : f / pageSize * pageSize = f := Nat.div_mul_cancel (Nat.dvd_of_mod_eq_zero hal)
    have hpfn : f / pageSize ≠ 0 := by
      intro h
      rw [h, Nat.zero_mul] at hf
      exact h0 hf.symm
    cases hb : s.1.bitmapTest (f / pageSize) with
    | false =>
      refine .inl ⟨?_, hal, h0, hlt, rfl⟩
      rw [Pmm.pmmFree, if_neg (by simp [h0, hal])]
      simp only
      rw [if_neg (by omega), if_pos hb]
    | true =>
      refine .inr (.inr ⟨hal, h0, hlt, rfl, ?_⟩)
      have := Pmm.pmmFree_spec hpfn hlt hb
      rwa [hf] at this
  · refine .inr (.inl ⟨?_, hm⟩)
    rw [Pmm.pmmFree]
    split
    · rfl
    next h =>
      simp only
      rw [if_pos]
      have hlow : f / pageSize ≠ 0 → s.1.totalPages ≤ f / pageSize := by
        intro _
        by_contra hlt
        exact hm ⟨by omega, by omega, by omega⟩
      omega

theorem free_sound (s : SoundPmm) (f : Nat) (s' : Pmm) (h : s.1.pmmFree f = some s') :
    ZeroUsed s' ∧ s'.totalPages ≤ 2 ^ 40 ∧ Counted s' := by
  rcases free_cases s f with ⟨h', -⟩ | ⟨h', -⟩ | ⟨hal, h0, hlt, -, s'', h', ht, hb⟩
  · rw [h] at h'
    cases h'
  · obtain rfl := Option.some.inj (h.symm.trans h')
    exact s.2
  · obtain rfl := Option.some.inj (h.symm.trans h')
    refine ⟨fun hpos => ?_, by rw [ht]; exact s.2.2.1, s.2.2.2.pmmFree h⟩
    rw [ht] at hpos
    have hpfn : (0 : Nat) ≠ f / pageSize := by
      have := Nat.div_mul_cancel (Nat.dvd_of_mod_eq_zero hal)
      intro hz
      rw [← hz] at this
      omega
    rw [hb, s.2.1 hpos, decide_eq_true hpfn, Bool.and_true]

theorem zero_not_free (s : SoundPmm) :
    ¬(0 / pageSize < s.1.totalPages ∧ s.1.bitmapTest (0 / pageSize) = false) := by
  rw [Nat.zero_div]
  rintro ⟨hpos, hb⟩
  rw [s.2.1 hpos] at hb
  cases hb

/-- What the bitmap looks after is a frame below `2 ^ 52`, and not frame 0. -/
theorem managed_spec (s : SoundPmm) {f : Nat} (h : f % pageSize = 0 ∧ f ≠ 0 ∧ f / pageSize < s.1.totalPages) :
    f ≠ 0 ∧ f % pageSize = 0 ∧ f < 2 ^ 52 := by
  refine ⟨h.2.1, h.1, ?_⟩
  have ht := s.2.2.1
  have hlt := h.2.2
  rw [pageSize] at hlt
  omega

end SoundPmm

/-- The bitmap of `pmm.c` as a page allocator. -/
instance : PageAlloc SoundPmm where
  pmmAlloc s := (s.1.pmmAlloc.1, ⟨s.1.pmmAlloc.2, s.alloc_sound⟩)
  pmmFree s f := (s.1.pmmFree f).pmap Subtype.mk (s.free_sound f)
  Free s f := f % pageSize = 0 ∧ f / pageSize < s.1.totalPages ∧ s.1.bitmapTest (f / pageSize) = false
  Managed s f := f % pageSize = 0 ∧ f ≠ 0 ∧ f / pageSize < s.1.totalPages
  managed_of_free {s f} h := by
    refine ⟨h.1, ?_, h.2.1⟩
    rintro rfl
    exact s.zero_not_free h.2
  managed_spec {s f} h := s.managed_spec h
  alloc_managed {s f} := by
    rcases s.alloc_cases with h | ⟨g, -, -, ht⟩
    · simp only [h]
    · simp only [ht.total]
  alloc_none {s} h0 f := by
    rcases s.alloc_cases with h | ⟨g, hg, hne, -⟩
    · simp only [h]
    · rw [hg] at h0
      exact absurd h0 (Nat.mul_ne_zero hne (by decide))
  alloc_full {s} h0 f hf := by
    have hused := s.2.2.2.pmmAlloc_full s.2.1 h0 hf.2.1
    rw [hf.2.2] at hused
    cases hused
  alloc_some {s} h0 := by
    rcases s.alloc_cases with h | ⟨g, hg, hne, ht⟩
    · exact absurd (congrArg Prod.fst h) h0
    · have hdiv : g * pageSize / pageSize = g := Nat.mul_div_cancel g (by decide)
      refine ⟨⟨by rw [hg, Nat.mul_mod_left], ?_, ?_⟩, fun f => ?_⟩
      · rw [hg, hdiv]
        exact ht.lt g (List.mem_singleton_self g)
      · rw [hg, hdiv]
        exact ht.free g (List.mem_singleton_self g)
      · simp only [ht.total, ht.test, hg, List.mem_singleton, Bool.or_eq_false_iff, decide_eq_false_iff_not]
        constructor
        · rintro ⟨hal, hlt, hne, hb⟩
          refine ⟨⟨hal, hlt, hb⟩, ?_⟩
          rintro rfl
          exact hne hdiv
        · rintro ⟨⟨hal, hlt, hb⟩, hne⟩
          refine ⟨hal, hlt, fun h => hne ?_, hb⟩
          rw [← h, Nat.div_mul_cancel (Nat.dvd_of_mod_eq_zero hal)]
  free_none {s f} := by
    rw [Option.pmap_eq_none_iff]
    -- the three outcomes of a free: the panic, nothing to be done, and a frame more
    rcases s.free_cases f with ⟨h, hal, h0, hlt, hb⟩ | ⟨h, hm⟩ | ⟨hal, h0, hlt, hb, s', h, -⟩
    · exact iff_of_true h ⟨hal, hlt, hb⟩
    · refine iff_of_false (by simp [h]) fun hf => hm ⟨hf.1, ?_, hf.2.1⟩
      rintro rfl
      exact s.zero_not_free hf.2
    · refine iff_of_false (by simp [h]) fun hf => ?_
      rw [hf.2.2] at hb
      cases hb
  free_some {s f s'} h := by
    rw [Option.pmap_eq_some_iff] at h
    obtain ⟨p, hp, hfree, rfl⟩ := h
    rcases s.free_cases f with ⟨h', -⟩ | ⟨h', hm⟩ | ⟨hal, h0, hlt, hb, s'', h', ht, htest⟩
    · rw [hfree] at h'
      cases h'
    · obtain rfl := Option.some.inj (hfree.symm.trans h')
      exact ⟨fun g => Iff.rfl, fun g => ⟨.inl, fun h => h.resolve_right fun h => hm h.2⟩⟩
    · obtain rfl := Option.some.inj (hfree.symm.trans h')
      refine ⟨fun g => by simp only [ht], fun g => ?_⟩
      simp only [ht, htest, Bool.and_eq_false_iff, decide_eq_false_iff_not, not_not]
      constructor
      · rintro ⟨hal', hlt', heq | hb'⟩
        · refine .inr ⟨?_, hal, h0, hlt⟩
          rw [← Nat.div_mul_cancel (Nat.dvd_of_mod_eq_zero hal'), heq,
            Nat.div_mul_cancel (Nat.dvd_of_mod_eq_zero hal)]
        · exact .inl ⟨hal', hlt', hb'⟩
      · rintro (⟨hal', hlt', hb'⟩ | ⟨rfl, -⟩)
        · exact ⟨hal', hlt', .inr hb'⟩
        · exact ⟨hal, hlt, .inl rfl⟩

/-! ## Entries

The flags and the fields of an entry, and the four indices of an address.
-/

/-- An entry of a page table. -/
abbrev Pte := BitVec 64

/-- `PTE_PRESENT`. -/
def ptePresent : Pte := 0x1#64

/-- `PTE_WRITABLE`. -/
def pteWritable : Pte := 0x2#64

/-- `PTE_USER`. -/
def pteUser : Pte := 0x4#64

/-- `PTE_HUGE`. -/
def pteHuge : Pte := 0x80#64

/-- `PTE_NX`. -/
def pteNx : Pte := 0x8000000000000000#64

/-- `VMM_USER_RW`. -/
def vmmUserRw : Pte := ptePresent ||| pteWritable ||| pteUser

/-- The entry is present. -/
def isPresent (e : Pte) : Bool := e &&& ptePresent != 0#64

/-- The entry is that of a huge page. -/
def isHuge (e : Pte) : Bool := e &&& pteHuge != 0#64

/-- `PTE_ADDR`. -/
def pteAddr (e : Pte) : Nat := (e &&& 0x000FFFFFFFFFF000#64).toNat

/-- `VA_PML4_IDX`. -/
def pml4Idx (va : Nat) : Nat := va / 2 ^ 39 % 512

/-- `VA_PDPT_IDX`. -/
def pdptIdx (va : Nat) : Nat := va / 2 ^ 30 % 512

/-- `VA_PD_IDX`. -/
def pdIdx (va : Nat) : Nat := va / 2 ^ 21 % 512

/-- `VA_PT_IDX`. -/
def ptIdx (va : Nat) : Nat := va / 2 ^ 12 % 512

/-- The address of entry `i` of the table at `t`, and its value. -/
def slot (t i : Nat) : Nat := t + 8 * i

/-- Entry `i` of the table at `t`. -/
def entry (m : ByteMem) (t i : Nat) : Pte := m.word (slot t i)

/-! ## Walking and mapping

Each function takes the machine and returns it changed. The invalidation of the TLB is left out: a translation here is
what a walk through memory gives now.
-/

/-- Physical memory with its allocator. -/
structure Vm (σ : Type) where
  mem : ByteMem
  pmm : σ

variable {σ : Type} [PageAlloc σ]

namespace Vm

variable (vm : Vm σ)

/-- A store to an entry. -/
def store (a : Nat) (e : Pte) : Vm σ := { vm with mem := vm.mem.setWord a e }

/-- `pmm_alloc`, which also clears the frame. -/
def alloc : Nat × Vm σ :=
  let (f, pmm) := PageAlloc.pmmAlloc vm.pmm
  (f, { mem := if f = 0 then vm.mem else vm.mem.write f (List.replicate pageSize 0), pmm })

/-- One level of `vmm_get_pte`: the table behind the entry at `a`, made on demand. -/
def nextTable (a : Nat) (create : Bool) (flags : Pte) : Option Nat × Vm σ :=
  if !isPresent (vm.mem.word a) then
    if !create then (none, vm)
    else
      let (phys, vm) := vm.alloc
      if phys = 0 then (none, vm)
      else (some phys, vm.store a (BitVec.ofNat 64 phys ||| ptePresent ||| pteWritable ||| (flags &&& pteUser)))
  else (some (pteAddr (vm.mem.word a)), vm)

/-- The address of the last-level entry for `virt`. Only the PD level looks at `PTE_HUGE`. -/
def vmmGetPte (pml4 virt : Nat) (create : Bool) (flags : Pte) : Option Nat × Vm σ :=
  match vm.nextTable (slot pml4 (pml4Idx virt)) create flags with
  | (none, vm) => (none, vm)
  | (some pdpt, vm) =>
    match vm.nextTable (slot pdpt (pdptIdx virt)) create flags with
    | (none, vm) => (none, vm)
    | (some pd, vm) =>
      -- only here a huge page is noticed; on the level above it is taken for a table
      let pde := vm.mem.word (slot pd (pdIdx virt))
      if isPresent pde && isHuge pde then (none, vm)
      else match vm.nextTable (slot pd (pdIdx virt)) create flags with
        | (none, vm) => (none, vm)
        | (some pt, vm) => (some (slot pt (ptIdx virt)), vm)

/-- `vmm_map`. -/
def vmmMap (pml4 virt phys : Nat) (flags : Pte) : Int × Vm σ :=
  if virt % pageSize ≠ 0 ∨ phys % pageSize ≠ 0 then (-einval, vm)
  else match vm.vmmGetPte pml4 virt true flags with
    | (none, vm) => (-enomem, vm)
    | (some pte, vm) => (0, vm.store pte (BitVec.ofNat 64 phys ||| flags))

/-- `vmm_create_space`: the PML4 of the new space (0: no space), its upper half that of the kernel's. `kzalloc` is
    what the heap answers for the `vmm_space_t`. -/
def vmmCreateSpace (kernelPml4 : Nat) (kzalloc : Bool) : Nat × Vm σ :=
  if !kzalloc then (0, vm)
  else
    let (phys, vm) := vm.alloc
    if phys = 0 then (0, vm)
    else (phys, { vm with mem := vm.mem.write (slot phys 256) (vm.mem.read (slot kernelPml4 256) (256 * 8)) })

/-- `vmm_unmap`. -/
def vmmUnmap (pml4 virt : Nat) : Vm σ :=
  match vm.vmmGetPte pml4 virt false 0 with
  | (none, vm) => vm
  | (some pte, vm) => if isPresent (vm.mem.word pte) then vm.store pte 0 else vm

end Vm

/-- 0 when nothing is mapped at `virt`. -/
def vmmVirtToPhys (m : ByteMem) (pml4 virt : Nat) : Nat :=
  let e4 := entry m pml4 (pml4Idx virt)
  if !isPresent e4 then 0
  else
    let e3 := entry m (pteAddr e4) (pdptIdx virt)
    if !isPresent e3 then 0
    -- a page of 1 GB
    else if isHuge e3 then pteAddr e3 + virt % 2 ^ 30
    else
      let e2 := entry m (pteAddr e3) (pdIdx virt)
      if !isPresent e2 then 0
      -- a page of 2 MB
      else if isHuge e2 then pteAddr e2 + virt % 2 ^ 21
      else
        let e1 := entry m (pteAddr e2) (ptIdx virt)
        if !isPresent e1 then 0 else pteAddr e1 + virt % pageSize

/-- `vmm_is_mapped`: a page of the frame 0 counts as none. -/
def vmmIsMapped (m : ByteMem) (pml4 virt : Nat) : Bool := vmmVirtToPhys m pml4 virt != 0

/-- `PROT_WRITE`. -/
def protWrite : Nat := 2

/-- `PROT_EXEC`. -/
def protExec : Nat := 4

/-- The flags of a user page with these `PROT_` bits, as `vmm_protect`, `vmm_create_vma` and `sys_mmap` build them. -/
def protFlags (prot : Nat) : Pte :=
  ptePresent ||| pteUser ||| (if prot &&& protWrite ≠ 0 then pteWritable else 0) |||
    (if prot &&& protExec = 0 then pteNx else 0)

namespace Vm

variable (vm : Vm σ)

/-- The body of the loop of `vmm_protect`. -/
def protectPage (pml4 addr prot : Nat) : Vm σ :=
  match vm.vmmGetPte pml4 addr false 0 with
  | (none, vm) => vm
  | (some pte, vm) =>
    if isPresent (vm.mem.word pte) then
      vm.store pte (BitVec.ofNat 64 (pteAddr (vm.mem.word pte)) ||| protFlags prot)
    else vm

/-- The loop runs while `addr < virt + size`; a sum that wraps around ends it at once. -/
def vmmProtect (pml4 virt size prot : Nat) : Vm σ :=
  let virt := alignDown virt
  let stop := (virt + alignUp size) % 2 ^ 64
  (List.range ((stop - virt) / pageSize)).foldl (fun vm i => vm.protectPage pml4 (virt + i * pageSize) prot) vm

end Vm

end MyUnix.Mm
