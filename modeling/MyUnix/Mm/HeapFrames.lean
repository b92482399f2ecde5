import MyUnix.Mm.DirectMap
import MyUnix.Mm.HeapSizes

/-!
# `Mm.HeapFrames` — the kernel heap over frames and page tables

What `Mm.Heap` counts as pages that can be had are here the frames of the page allocator, mapped through the kernel's
page tables. `heap_grow` takes and maps one page at a time; nothing on its way back from a failure, nor on that of
`kmalloc`, gives a frame back or moves `g_heap_end`. A failure of `vmm_get_pte` is not reported at all: `vmm_kmap_phys`
returns nothing, and both callers count the page as mapped.

The new block is recorded with a size of 32 bits, and the number of pages is rounded in 64, so what `heap_grow` adds
need not hold what it was asked for.

The functions are those of `Mm.Heap` with the frames in place of the number `avail`: the same loops, and the mapping
written out. What is proved is about what is left behind, in three parts: after a failure, after a success, and in the
round of the loop that follows it. Frames are only ever taken, so it is enough to follow one frame: the first that
`pmm_alloc` gives in a call that fails in the end is missing afterwards.

Any page allocator that meets `PageAlloc` will do. The page tables are the kernel's, and a table that is missing on
the way costs a frame of its own.
-/

namespace MyUnix.Mm

open Lib PageAlloc

variable {σ : Type} [PageAlloc σ]

/-- `vmm_kmap_phys`. A page without an entry for it stays as it is. -/
def Vm.vmmKmapPhys (vm : Vm σ) (pml4 virt phys size : Nat) (flags : Pte) : Vm σ :=
  (List.range (alignUp size / pageSize)).foldl
    (fun vm i =>
      match vm.vmmGetPte pml4 (virt + i * pageSize) true flags with
      | (none, vm)     => vm
      | (some pte, vm) => vm.store pte (BitVec.ofNat 64 (phys + i * pageSize) ||| flags)) vm

/-- The heap, its frames and the kernel's page tables. The count of pages of `heap` is not used here. `grown` tells how
    often `heap_grow` has returned true. -/
structure KHeap (σ : Type) where
  heap  : Heap
  vm    : Vm σ
  pml4  : Nat
  grown : Nat

namespace KHeap

variable (s : KHeap σ)

/-- The page at `virt` is mapped to the frame `phys`, if a page table can be had for it. A new frame reads as zero. -/
def mapPage (virt phys : Nat) : KHeap σ :=
  let vm := s.vm.vmmKmapPhys s.pml4 virt phys pageSize vmmKernRw
  { s with
    vm := vm
    heap :=
      { s.heap with
        mem :=
          if vmmVirtToPhys vm.mem s.pml4 virt = phys then s.heap.mem.mapZeroed virt (virt + pageSize)
          else s.heap.mem } }

/-- `slab_cache_grow`. The first object is stored into the page, which faults if it is not mapped. -/
def slabCacheGrow (i : Nat) : Option (KHeap σ) :=
  let (phys, vm) := s.vm.alloc
  if phys = 0 then some { s with vm := vm }
  else
    let virt := s.heap.slabNext
    let s := ({ s with vm := vm } : KHeap σ).mapPage virt phys
    let n := pageSize / objSize i
    if n ≠ 0 ∧ vmmIsMapped s.vm.mem s.pml4 virt = false then none
    else
      let (mem, free) := Heap.carve virt (objSize i) n (s.heap.mem, (s.heap.caches i).freeList)
      some { s with
        heap :=
          { s.heap with
            mem := mem
            caches := Function.update s.heap.caches i
              ⟨free, (s.heap.caches i).total + n, (s.heap.caches i).used⟩
            slabVirt := virt + pageSize } }

/-- A cache without an object has a chance to grow. -/
def ready (i : Nat) : Option (KHeap σ) := if (s.heap.caches i).freeList = 0 then s.slabCacheGrow i else some s

/-- `slab_alloc`, over frames. -/
def slabAlloc (i : Nat) : Option (Nat × KHeap σ) := do
  let s ← s.ready i
  let obj := (s.heap.caches i).freeList
  if obj = 0 then some (0, s)
  else
    some (obj, { s with
      heap :=
        { s.heap with
          caches := Function.update s.heap.caches i
            ⟨s.heap.mem obj, (s.heap.caches i).total, (s.heap.caches i).used + 1⟩ } })

/-- `kmalloc`'s first attempt. -/
def slabServe (size : Nat) : Option (Nat × KHeap σ) :=
  match Heap.slabFindCache size with
  | some i => s.slabAlloc i
  | none   => some (0, s)

/-- `g_heap_end += PAGE_SIZE`. -/
def advance : KHeap σ := { s with heap := { s.heap with heapEnd := (s.heap.heapEnd + pageSize) % 2 ^ 64 } }

/-- The loop of `heap_grow`. -/
def mapPages : Nat → KHeap σ → Bool × KHeap σ
  | 0,     s => (true, s)
  | n + 1, s =>
    let (phys, vm) := s.vm.alloc
    if phys = 0 then (false, { s with vm := vm })
    else mapPages n (({ s with vm := vm } : KHeap σ).mapPage s.heap.heapEnd phys).advance

/-- How many pages `heap_grow` maps for `need` bytes. Both sums may wrap around. -/
def pagesFor (need : Nat) : Nat := roundUp ((need + heapBlockHdrSize) % 2 ^ 64) heapGrowSize / pageSize

/-- The new block from `newStart` to the end of the heap, at the head of the free list. -/
def addBlock (newStart : Nat) : KHeap σ :=
  let m := s.heap.mem.newBlock newStart (s.heap.heapEnd + 2 ^ 64 - newStart - heapBlockHdrSize) 0
  { s with
    heap := { s.heap with mem := m.setNext newStart s.heap.freeList, freeList := newStart }
    grown := s.grown + 1 }

/-- `heap_grow`, once the number of pages is known. The header of the new block is stored into the first page, which
    faults if it is not mapped. -/
def growBy (nPages : Nat) : Option (Bool × KHeap σ) :=
  match mapPages nPages s with
  | (false, t) => some (false, t)
  | (true, t)  =>
    if vmmIsMapped t.vm.mem t.pml4 s.heap.heapEnd = false then none
    else some (true, t.addBlock s.heap.heapEnd)

/-- `heap_grow`, page by page. -/
def heapGrow (need : Nat) : Option (Bool × KHeap σ) := s.growBy (pagesFor need)

/-- The loop from `retry`, for so many rounds. -/
def retry (size : Nat) : Nat → KHeap σ → Option (Nat × KHeap σ)
  | 0,        _ => none
  | fuel + 1, s => do
    let best ← Heap.searchBest s.heap.mem size s.heap.walkBound s.heap.freeList 0 sizeMax
    if best = 0 then
      let (ok, s) ← s.heapGrow size
      if ok then retry size fuel s else some (0, s)
    else
      let (ptr, h) ← s.heap.takeBlock best size
      some (ptr, { s with heap := h })

/-- `kmalloc`, with so many rounds of its loop at most. -/
def kmalloc (fuel size : Nat) : Option (Nat × KHeap σ) :=
  if size = 0 then some (0, s)
  else do
    let need := roundUp size heapAlign
    let (ptr, s) ← s.slabServe need
    if ptr ≠ 0 then some (ptr, s) else retry need fuel s

end KHeap

/-! ## Frames are only taken

What is free after any of these functions was free before; and a function that got a frame has taken it.
-/

section

variable {vm : Vm σ} {pml4 virt phys f : Nat} {flags : Pte}

theorem vmmKmapPhys_free {size : Nat} (h : Free (vm.vmmKmapPhys pml4 virt phys size flags).pmm f) : Free vm.pmm f := by
  unfold Vm.vmmKmapPhys at h
  generalize List.range (alignUp size / pageSize) = pages at h
  induction pages generalizing vm with
  | nil => exact h
  | cons i is ih =>
      rw [List.foldl_cons] at h
      apply vmmGetPte_free
      have hrest := ih h
      split at hrest
      next heq => rw [heq]; exact hrest
      next heq => rw [heq]; exact hrest

end

namespace KHeap

variable {s t : KHeap σ} {need size fuel ptr n f i : Nat} {ok : Bool}

theorem mapPage_free {virt phys : Nat} (h : Free (s.mapPage virt phys).vm.pmm f) : Free s.vm.pmm f :=
  vmmKmapPhys_free h

/-- The frame that `pmm_alloc` returned stays taken. -/
theorem alloc_taken {vm : Vm σ} (h0 : vm.alloc.1 ≠ 0) : Free vm.pmm vm.alloc.1 ∧ ¬ Free vm.alloc.2.pmm vm.alloc.1 := by
  obtain ⟨-, hfree, hiff, -⟩ := alloc_frame vm h0
  exact ⟨hfree, fun hf => ((hiff _).mp hf).2 rfl⟩

omit [PageAlloc σ] in
theorem advance_vm : s.advance.vm = s.vm := by
  cases s
  rfl

theorem mapPages_free (h : Free (mapPages n s).2.vm.pmm f) : Free s.vm.pmm f := by
  induction n generalizing s with
  | zero => exact h
  | succ n ih =>
      unfold mapPages at h
      simp only at h
      split at h
      · exact alloc_free h
      · have hmap := ih h
        rw [advance_vm] at hmap
        exact alloc_free (mapPage_free hmap)

/-- Where there is a frame, the first page takes one. -/
theorem mapPages_takes (hn : n ≠ 0) (h0 : s.vm.alloc.1 ≠ 0) : ¬ Free (mapPages n s).2.vm.pmm s.vm.alloc.1 := by
  obtain ⟨n, rfl⟩ := Nat.exists_eq_succ_of_ne_zero hn
  intro h
  unfold mapPages at h
  simp only [if_neg h0] at h
  have hmap := mapPages_free h
  rw [advance_vm] at hmap
  exact (alloc_taken h0).2 (mapPage_free hmap)

/-- Where there is none, nothing is mapped. -/
theorem mapPages_full (hn : n ≠ 0) (h0 : s.vm.alloc.1 = 0) :
    mapPages n s = (false, { s with vm := s.vm.alloc.2 }) := by
  obtain ⟨n, rfl⟩ := Nat.exists_eq_succ_of_ne_zero hn
  unfold mapPages
  simp only [if_pos h0]

/-! ## Growing and searching again

The loop from `retry`. It ends with NULL when growing fails, and growing fails when a page cannot be had.
-/

omit [PageAlloc σ] in
theorem addBlock_vm {a : Nat} : (s.addBlock a).vm = s.vm := by
  cases s
  rfl

theorem growBy_cases (hg : s.growBy n = some (ok, t)) :
    (mapPages n s).1 = ok ∧ t.vm = (mapPages n s).2.vm ∧ (ok = false → t = (mapPages n s).2) := by
  unfold growBy at hg
  split at hg
  next u hu =>
    obtain ⟨rfl, rfl⟩ := Prod.mk.inj (Option.some.inj hg)
    rw [hu]
    exact ⟨rfl, rfl, fun _ => rfl⟩
  next u hu =>
    split at hg
    · cases hg
    · obtain ⟨rfl, rfl⟩ := Prod.mk.inj (Option.some.inj hg)
      rw [hu]
      exact ⟨rfl, addBlock_vm, nofun⟩

theorem retry_free (hr : retry need fuel s = some (ptr, t)) (hf : Free t.vm.pmm f) : Free s.vm.pmm f := by
  induction fuel generalizing s with
  | zero => cases hr
  | succ fuel ih =>
      unfold retry at hr
      obtain ⟨best, -, hr⟩ := Option.bind_eq_some_iff.mp hr
      split at hr
      · obtain ⟨⟨ok, u⟩, hg, hr⟩ := Option.bind_eq_some_iff.mp hr
        have hu : Free u.vm.pmm f := by
          cases ok with
          | false =>
              cases hr
              exact hf
          | true => exact ih hr
        rw [(growBy_cases hg).2.1] at hu
        exact mapPages_free hu
      · obtain ⟨⟨p, h⟩, -, hr⟩ := Option.bind_eq_some_iff.mp hr
        cases hr
        exact hf

/-- **NULL from the free-list heap.** The heap tried to grow, so it took a frame if there was one; otherwise it is as it
    was, and the allocator as its failing call leaves it. -/
theorem retry_null (hr : retry need fuel s = some (0, t)) :
    pagesFor need ≠ 0 ∧ (s.vm.alloc.1 ≠ 0 → ¬ Free t.vm.pmm s.vm.alloc.1) ∧
      (s.vm.alloc.1 = 0 → t = { s with vm := s.vm.alloc.2 }) := by
  induction fuel generalizing s with
  | zero => cases hr
  | succ fuel ih =>
      unfold retry at hr
      obtain ⟨best, -, hr⟩ := Option.bind_eq_some_iff.mp hr
      split at hr
      case isFalse =>
        obtain ⟨⟨p, h⟩, htake, hr⟩ := Option.bind_eq_some_iff.mp hr
        have hptr := Heap.takeBlock_ptr htake
        rw [(Prod.mk.inj (Option.some.inj hr)).1, heapBlockHdrSize] at hptr
        omega
      case isTrue =>
        obtain ⟨⟨ok, u⟩, hg, hr⟩ := Option.bind_eq_some_iff.mp hr
        obtain ⟨hok, hvm, hfail⟩ := growBy_cases hg
        -- without a page to map, growing does not fail, and the loop goes on
        have hpages : pagesFor need ≠ 0 := by
          intro h0
          rw [h0] at hok
          cases ok with
          | false => cases hok
          | true => exact (ih hr).1 h0
        have hmono : ∀ f, Free t.vm.pmm f → Free u.vm.pmm f := by
          intro f hf
          cases ok with
          | false =>
              cases hr
              exact hf
          | true => exact retry_free hr hf
        refine ⟨hpages, fun h0 hf => ?_, fun h0 => ?_⟩
        · have hu := hmono _ hf
          rw [hvm] at hu
          exact mapPages_takes hpages h0 hu
        · have hfull := mapPages_full hpages h0
          rw [hfull] at hok hfail
          obtain rfl : false = ok := hok
          cases hr
          exact hfail rfl

/-- What `slab_cache_grow` leaves of the frames. -/
theorem slabCacheGrow_cases (hg : s.slabCacheGrow i = some t) :
    (s.vm.alloc.1 = 0 ∧ t = { s with vm := s.vm.alloc.2 }) ∨
      (s.vm.alloc.1 ≠ 0 ∧ ∀ f, Free t.vm.pmm f → Free s.vm.alloc.2.pmm f) := by
  unfold slabCacheGrow at hg
  simp only at hg
  split at hg
  case isTrue h0 => exact .inl ⟨h0, (Option.some.inj hg).symm⟩
  case isFalse h0 =>
    split at hg
    · cases hg
    · obtain rfl := Option.some.inj hg
      exact .inr ⟨h0, fun f hf => mapPage_free hf⟩

/-- **No object from the slab caches.** Nothing happened, or the allocator failed, or a frame was taken. -/
theorem slabServe_null (hs : s.slabServe need = some (0, t)) :
    t = s ∨ (s.vm.alloc.1 = 0 ∧ t = { s with vm := s.vm.alloc.2 }) ∨
      (s.vm.alloc.1 ≠ 0 ∧ ∀ f, Free t.vm.pmm f → Free s.vm.alloc.2.pmm f) := by
  unfold slabServe at hs
  split at hs
  case h_2 => exact .inl (Prod.mk.inj (Option.some.inj hs)).2.symm
  case h_1 i _ =>
    unfold slabAlloc at hs
    obtain ⟨u, hu, hs⟩ := Option.bind_eq_some_iff.mp hs
    -- no object was handed out, so this is the state after the attempt to grow
    have hsame : t = u := by
      simp only at hs
      split at hs
      case isTrue => exact (Prod.mk.inj (Option.some.inj hs)).2.symm
      case isFalse hobj => exact absurd (Prod.mk.inj (Option.some.inj hs)).1 hobj
    rw [hsame]
    unfold ready at hu
    split at hu
    case isTrue => exact .inr (slabCacheGrow_cases hu)
    case isFalse => exact .inl (Option.some.inj hu).symm

/-! ## NULL and what is left behind

The two ways to NULL that leave nothing behind are a size of 0, and no frame at all at the start.
-/

/-- The free frames, the end of the heap, its mappings and its free list are as they were. -/
structure SameHeap (s t : KHeap σ) : Prop where
  frames   : ∀ f, Free t.vm.pmm f ↔ Free s.vm.pmm f
  heapEnd  : t.heap.heapEnd = s.heap.heapEnd
  mappings : ∀ va, heapVirtBase ≤ va → va < 2 ^ 64 →
               vmmVirtToPhys t.vm.mem t.pml4 va = vmmVirtToPhys s.vm.mem s.pml4 va
  list     : t.heap.freeList = s.heap.freeList ∧ t.heap.mem = s.heap.mem

/-- A failing call of `pmm_alloc` changes nothing that matters here. -/
theorem SameHeap.alloc (h0 : s.vm.alloc.1 = 0) : SameHeap s { s with vm := s.vm.alloc.2 } := by
  obtain ⟨hmem, hfree, -⟩ := alloc_zero s.vm h0
  refine ⟨hfree, rfl, fun va _ _ => ?_, rfl, rfl⟩
  show vmmVirtToPhys s.vm.alloc.2.mem s.pml4 va = _
  rw [hmem]

theorem SameHeap.refl (s : KHeap σ) : SameHeap s s := ⟨fun _ => Iff.rfl, rfl, fun _ _ _ => rfl, rfl, rfl⟩

theorem SameHeap.trans {u : KHeap σ} (h : SameHeap s t) (h' : SameHeap t u) : SameHeap s u :=
  ⟨fun f => (h'.frames f).trans (h.frames f), h'.heapEnd.trans h.heapEnd,
    fun va hge hlt => (h'.mappings va hge hlt).trans (h.mappings va hge hlt), h'.list.1.trans h.list.1,
    h'.list.2.trans h.list.2⟩

/-- **`kmalloc` that returns NULL leaves everything as it was** exactly if the size was 0 or no frame was free. -/
theorem kmalloc_null_iff (s t : KHeap σ) (fuel size : Nat) (hk : s.kmalloc fuel size = some (0, t)) :
    SameHeap s t ↔ size = 0 ∨ ∀ f, ¬ Free s.vm.pmm f := by
  unfold kmalloc at hk
  split at hk
  case isTrue hsize =>
    obtain rfl := (Prod.mk.inj (Option.some.inj hk)).2
    exact iff_of_true (.refl s) (.inl hsize)
  case isFalse hsize =>
    obtain ⟨⟨ptr, u⟩, hs, hk⟩ := Option.bind_eq_some_iff.mp hk
    simp only at hk
    split at hk
    case isTrue hptr => exact absurd (Prod.mk.inj (Option.some.inj hk)).1 hptr
    case isFalse hptr =>
    obtain rfl := not_not.mp hptr
    obtain ⟨hpages, htakes, hfull⟩ := retry_null hk
    by_cases h0 : s.vm.alloc.1 = 0
    · -- no frame is free: both attempts fail at their first page
      have hnone : ∀ f, ¬ Free s.vm.pmm f := fun f => alloc_full h0 f
      have hsu : SameHeap s u := by
        rcases slabServe_null hs with rfl | ⟨-, rfl⟩ | ⟨hne, -⟩
        · exact .refl u
        · exact .alloc h0
        · exact absurd h0 hne
      have hu0 : u.vm.alloc.1 = 0 := by
        by_contra hne
        exact hnone _ ((hsu.frames _).mp (alloc_taken hne).1)
      rw [hfull hu0]
      exact iff_of_true (hsu.trans (.alloc hu0)) (.inr hnone)
    · -- the frame that `pmm_alloc` has to offer is taken by one of them, and nobody gives it back
      obtain ⟨hfree, htaken⟩ := alloc_taken h0
      have hlost : ¬ Free t.vm.pmm s.vm.alloc.1 := by
        rcases slabServe_null hs with rfl | ⟨h0', -⟩ | ⟨-, hmono⟩
        · exact htakes h0
        · exact absurd h0' h0
        · exact fun hf => htaken (hmono _ (retry_free hk hf))
      refine iff_of_false (fun hsame => hlost ((hsame.frames _).mpr hfree)) ?_
      rintro (hzero | hnone)
      · exact hsize hzero
      · exact hnone _ hfree

/-- A heap of its initial size without a block, on a machine of 64 frames of which `used` are in use. -/
def exhausted (pmm : SoundPmm) : KHeap SoundPmm where
  heap :=
    { mem := fun _ => 0, freeList := 0, heapStart := heapVirtBase, heapEnd := heapVirtBase + heapInitSize,
      caches := fun _ => ⟨0, 0, 0⟩, slabVirt := 0, avail := 0 }
  vm := ⟨fun _ => 0, pmm⟩
  pml4 := 0x1000
  grown := 0

/-- Without a frame. -/
def noFrame : SoundPmm :=
  ⟨{ bitmap := fun _ => BitVec.allOnes 64, totalPages := 64, freePages := 0#64, usedPages := 64#64, allocHint := 0 },
    fun _ => by decide, by decide, ⟨by decide, by decide +kernel, by decide, by decide⟩⟩

/-- With one. -/
def oneFrame : SoundPmm :=
  ⟨{ bitmap := fun _ => 0xFFFFFFFFFFFFFFDF#64, totalPages := 64, freePages := 1#64, usedPages := 63#64, allocHint := 0 },
    fun _ => by decide, by decide, ⟨by decide, by decide +kernel, by decide, by decide⟩⟩

/-- No frame is free, and nothing changes. -/
theorem kmalloc_null_full : ∃ t, (exhausted noFrame).kmalloc 1 40000 = some (0, t) ∧
    (SameHeap (exhausted noFrame) t ↔ (40000 = 0 ∨ ∀ f, ¬ Free (exhausted noFrame).vm.pmm f)) := by
  have hnull : ((exhausted noFrame).kmalloc 1 40000).map Prod.fst = some 0 := by decide +kernel
  obtain ⟨⟨ptr, t⟩, hk, hptr⟩ := Option.map_eq_some_iff.mp hnull
  obtain rfl : ptr = 0 := hptr
  exact ⟨t, hk, kmalloc_null_iff _ t 1 40000 hk⟩

/-- **The only frame is taken and mapped nowhere**, `g_heap_end` has moved, and the caller gets NULL. -/
theorem kmalloc_null_leak : ∃ t, (exhausted oneFrame).kmalloc 1 40000 = some (0, t) ∧
    t.heap.heapEnd = heapVirtBase + heapInitSize + pageSize ∧ ¬ SameHeap (exhausted oneFrame) t := by
  have hnull : ((exhausted oneFrame).kmalloc 1 40000).map (fun r => (r.1, r.2.heap.heapEnd)) =
      some (0, heapVirtBase + heapInitSize + pageSize) := by decide +kernel
  obtain ⟨⟨ptr, t⟩, hk, hr⟩ := Option.map_eq_some_iff.mp hnull
  obtain ⟨rfl, hend⟩ := Prod.mk.inj hr
  refine ⟨t, hk, hend, fun hsame => ?_⟩
  have hkept : t.heap.heapEnd = heapVirtBase + heapInitSize := hsame.heapEnd
  rw [hend] at hkept
  exact absurd hkept (by decide)

/-! ## Growth within one page table

`heap_grow` ends with success where frames enough are free and the three tables that lead to its pages are there. A frame
that is taken is none of these tables, so clearing it leaves them, and the entry that is written for it lies in the last
one.
-/

section

variable {m m' : ByteMem} {pml4 v v' pdpt pd pt : Nat}

/-- The tables that lead to the page at `v`, the last of which is no other one of them. -/
structure Tabled (m : ByteMem) (pml4 v pdpt pd pt : Nat) : Prop where
  upper : isPresent (entry m pml4 (pml4Idx v)) = true ∧ pteAddr (entry m pml4 (pml4Idx v)) = pdpt
  middle : isPresent (entry m pdpt (pdptIdx v)) = true ∧ isHuge (entry m pdpt (pdptIdx v)) = false ∧
    pteAddr (entry m pdpt (pdptIdx v)) = pd
  lower : isPresent (entry m pd (pdIdx v)) = true ∧ isHuge (entry m pd (pdIdx v)) = false ∧
    pteAddr (entry m pd (pdIdx v)) = pt
  aligned : pml4 % pageSize = 0
  last : pt ∉ [pml4, pdpt, pd]

/-- The page that entry `j` of the table at `pt` maps is there. -/
def Filled (m : ByteMem) (pt j : Nat) : Prop := isPresent (entry m pt j) = true ∧ pteAddr (entry m pt j) ≠ 0

namespace Tabled

theorem tables_aligned (h : Tabled m pml4 v pdpt pd pt) : ∀ t ∈ [pml4, pdpt, pd, pt], t % pageSize = 0 := by
  intro t ht
  simp only [List.mem_cons, List.not_mem_nil, or_false] at ht
  rcases ht with rfl | rfl | rfl | rfl
  · exact h.aligned
  · rw [← h.upper.2]
    exact pteAddr_mod _
  · rw [← h.middle.2.2]
    exact pteAddr_mod _
  · rw [← h.lower.2.2]
    exact pteAddr_mod _

/-- One table leads to all the pages of its two megabytes. -/
theorem of_div (h : Tabled m pml4 v pdpt pd pt) (hv : v' / 2 ^ 21 = v / 2 ^ 21) : Tabled m pml4 v' pdpt pd pt := by
  have h4 : pml4Idx v' = pml4Idx v := by
    unfold pml4Idx
    omega
  have h3 : pdptIdx v' = pdptIdx v := by
    unfold pdptIdx
    omega
  have h2 : pdIdx v' = pdIdx v := by
    rw [pdIdx, pdIdx, hv]
  refine ⟨?_, ?_, ?_, h.aligned, h.last⟩
  · rw [h4]
    exact h.upper
  · rw [h3]
    exact h.middle
  · rw [h2]
    exact h.lower

/-- Only the entries on the way count. -/
theorem of_entries (h : Tabled m pml4 v pdpt pd pt)
    (he : ∀ t ∈ [pml4, pdpt, pd], ∀ i < 512, entry m' t i = entry m t i) : Tabled m' pml4 v pdpt pd pt := by
  have h4 := he pml4 (by simp) (pml4Idx v) (Nat.mod_lt _ (by decide))
  have h3 := he pdpt (by simp) (pdptIdx v) (Nat.mod_lt _ (by decide))
  have h2 := he pd (by simp) (pdIdx v) (Nat.mod_lt _ (by decide))
  refine ⟨?_, ?_, ?_, h.aligned, h.last⟩
  · rw [h4]
    exact h.upper
  · rw [h3]
    exact h.middle
  · rw [h2]
    exact h.lower

/-- The walk finds the entry and makes no table. -/
theorem getPte (h : Tabled m pml4 v pdpt pd pt) {vm : Vm σ} (hm : vm.mem = m) (flags : Pte) :
    vm.vmmGetPte pml4 v true flags = (some (slot pt (ptIdx v)), vm) := by
  subst hm
  obtain ⟨h4, h4a⟩ := h.upper
  obtain ⟨h3, -, h3a⟩ := h.middle
  obtain ⟨h2, hhuge, h2a⟩ := h.lower
  unfold entry at h4 h4a h3 h3a h2 h2a hhuge
  simp [Vm.vmmGetPte, Vm.nextTable, h4, h4a, h3, h3a, h2, h2a, hhuge]

/-- A page whose entry is filled is mapped. -/
theorem isMapped (h : Tabled m pml4 v pdpt pd pt) (hf : Filled m pt (ptIdx v)) : vmmIsMapped m pml4 v = true := by
  obtain ⟨h4, h4a⟩ := h.upper
  obtain ⟨h3, h3h, h3a⟩ := h.middle
  obtain ⟨h2, h2h, h2a⟩ := h.lower
  have hne : pteAddr (entry m pt (ptIdx v)) ≠ 0 := hf.2
  simp [vmmIsMapped, vmmVirtToPhys, h4, h4a, h3, h3h, h3a, h2, h2h, h2a, hf.1, hne]

end Tabled

/-- A frame that is cleared leaves the entries of the others. -/
theorem entry_cleared {f t i : Nat} (hf : f % pageSize = 0) (ht : t % pageSize = 0) (hne : t ≠ f) (hi : i < 512) :
    entry (m.write f (List.replicate pageSize 0)) t i = entry m t i := by
  apply m.word_write_out
  rw [List.length_replicate, slot]
  rw [pageSize] at *
  omega

/-- The entry of a kernel page leads to its frame. -/
theorem filled_store {f j : Nat} (hf : f ≠ 0) (hal : f % pageSize = 0) (hlt : f < 2 ^ 52) :
    Filled (m.setWord (slot pt j) (BitVec.ofNat 64 f ||| vmmKernRw)) pt j := by
  unfold Filled
  rw [entry_store_same]
  refine ⟨isPresent_or (by decide), ?_⟩
  rw [pteAddr_or hal hlt (by decide)]
  exact hf

/-- **One page of `heap_grow`**: with a frame left and the tables in place, the page is mapped, and what was mapped
    through the same table still is. -/
theorem mapPage_filled (h : Tabled s.vm.mem s.pml4 s.heap.heapEnd pdpt pd pt)
    (htables : ∀ t ∈ [s.pml4, pdpt, pd, pt], ¬ Free s.vm.pmm t) {f : Nat} (hf : Free s.vm.pmm f) :
    ∃ phys u, s.vm.alloc = (phys, u) ∧ phys ≠ 0 ∧ (∀ g, Free u.pmm g ↔ Free s.vm.pmm g ∧ g ≠ phys) ∧
      ∀ r, r = (({ s with vm := u } : KHeap σ).mapPage s.heap.heapEnd phys).advance →
        r.pml4 = s.pml4 ∧ r.heap.heapEnd = (s.heap.heapEnd + pageSize) % 2 ^ 64 ∧ r.vm.pmm = u.pmm ∧
        Tabled r.vm.mem s.pml4 s.heap.heapEnd pdpt pd pt ∧ Filled r.vm.mem pt (ptIdx s.heap.heapEnd) ∧
        ∀ j < 512, Filled s.vm.mem pt j → Filled r.vm.mem pt j := by
  have hphys : (pmmAlloc s.vm.pmm).1 ≠ 0 := fun hzero => alloc_full hzero f hf
  obtain ⟨hgot, hleft⟩ := alloc_some hphys
  obtain ⟨-, hal, hlt⟩ := managed_spec (managed_of_free hgot)
  have hother : ∀ t ∈ [s.pml4, pdpt, pd, pt], t ≠ (pmmAlloc s.vm.pmm).1 := by
    rintro t ht rfl
    exact htables _ ht hgot
  refine ⟨(pmmAlloc s.vm.pmm).1, s.vm.alloc.2, rfl, hphys, hleft, ?_⟩
  rintro r rfl
  -- the tables after the frame is cleared, and after the entry is written
  have hclear : ∀ t ∈ [s.pml4, pdpt, pd, pt], ∀ i < 512, entry s.vm.alloc.2.mem t i = entry s.vm.mem t i := by
    intro t ht i hi
    simp only [Vm.alloc, if_neg hphys]
    exact entry_cleared hal (h.tables_aligned t ht) (hother t ht) hi
  have hcleared : Tabled s.vm.alloc.2.mem s.pml4 s.heap.heapEnd pdpt pd pt :=
    h.of_entries fun t ht => hclear t (by simp only [List.mem_cons, List.not_mem_nil, or_false] at ht ⊢; tauto)
  have hpt : ptIdx s.heap.heapEnd < 512 := Nat.mod_lt _ (by decide)
  have hmap : s.vm.alloc.2.vmmKmapPhys s.pml4 s.heap.heapEnd (pmmAlloc s.vm.pmm).1 pageSize vmmKernRw =
      s.vm.alloc.2.store (slot pt (ptIdx s.heap.heapEnd)) (BitVec.ofNat 64 (pmmAlloc s.vm.pmm).1 ||| vmmKernRw) := by
    have hone : alignUp pageSize / pageSize = 1 := by decide
    simp [Vm.vmmKmapPhys, hone, hcleared.getPte rfl]
  simp only [mapPage, advance, hmap, Vm.store]
  refine ⟨trivial, trivial, trivial, ?_, filled_store hphys hal hlt, ?_⟩
  · refine hcleared.of_entries fun t ht i hi => ?_
    have hne : t ≠ pt := by
      rintro rfl
      exact h.last ht
    exact entry_store _ (h.tables_aligned t (by simp only [List.mem_cons, List.not_mem_nil, or_false] at ht ⊢; tauto))
      (h.tables_aligned pt (by simp)) hi hpt (fun heq => hne (Prod.mk.inj heq).1)
  · intro j hj hfilled
    by_cases hjeq : j = ptIdx s.heap.heapEnd
    · rw [hjeq]
      exact filled_store hphys hal hlt
    · unfold Filled at hfilled ⊢
      rw [entry_store _ (h.tables_aligned pt (by simp)) (h.tables_aligned pt (by simp)) hj hpt
        (fun heq => hjeq (Prod.mk.inj heq).2), hclear pt (by simp) j hj]
      exact hfilled

/-- **The loop of `heap_grow` comes to its end** where `n` frames are left and one table leads to all the pages. -/
theorem mapPages_filled {F : Finset Nat} (h : Tabled s.vm.mem s.pml4 s.heap.heapEnd pdpt pd pt)
    (hrange : ∀ i < n, (s.heap.heapEnd + i * pageSize) / 2 ^ 21 = s.heap.heapEnd / 2 ^ 21)
    (hend : s.heap.heapEnd + n * pageSize < 2 ^ 64) (htables : ∀ t ∈ [s.pml4, pdpt, pd, pt], ¬ Free s.vm.pmm t)
    (hcard : n ≤ F.card) (hfree : ∀ f ∈ F, Free s.vm.pmm f) :
    ∃ t, mapPages n s = (true, t) ∧ t.pml4 = s.pml4 ∧ Tabled t.vm.mem s.pml4 s.heap.heapEnd pdpt pd pt ∧
      (n ≠ 0 → Filled t.vm.mem pt (ptIdx s.heap.heapEnd)) ∧
      ∀ j < 512, Filled s.vm.mem pt j → Filled t.vm.mem pt j := by
  -- by induction on the pages that are left; the set of frames loses the one that was mapped
  induction n generalizing s F with
  | zero => exact ⟨s, rfl, rfl, h, fun hn => absurd rfl hn, fun _ _ hj => hj⟩
  | succ n ih =>
      obtain ⟨f, hf⟩ := Finset.card_pos.mp (Nat.lt_of_lt_of_le (Nat.succ_pos n) hcard)
      obtain ⟨phys, u, halloc, hphys, hleft, hpage⟩ := mapPage_filled h htables (hfree f hf)
      obtain ⟨hpml4, hadv, hpmm, htabled, hfilled, hkept⟩ := hpage _ rfl
      have hstep : mapPages (n + 1) s =
          mapPages n (({ s with vm := u } : KHeap σ).mapPage s.heap.heapEnd phys).advance := by
        rw [mapPages, halloc]
        exact if_neg hphys
      generalize (({ s with vm := u } : KHeap σ).mapPage s.heap.heapEnd phys).advance = r at *
      rw [Nat.mod_eq_of_lt (by rw [Nat.succ_mul] at hend; omega)] at hadv
      have hshift : ∀ i, r.heap.heapEnd + i * pageSize = s.heap.heapEnd + (i + 1) * pageSize := by
        intro i
        rw [hadv, Nat.succ_mul]
        omega
      rcases Nat.eq_zero_or_pos n with rfl | hn
      · exact ⟨r, hstep, hpml4, htabled, fun _ => hfilled, hkept⟩
      have hdiv : r.heap.heapEnd / 2 ^ 21 = s.heap.heapEnd / 2 ^ 21 := by
        rw [hadv]
        simpa only [Nat.one_mul] using hrange 1 (by omega)
      have hrest : ∀ i < n, (r.heap.heapEnd + i * pageSize) / 2 ^ 21 = r.heap.heapEnd / 2 ^ 21 := by
        intro i hi
        rw [hshift, hdiv]
        exact hrange (i + 1) (by omega)
      have htaken : ∀ t ∈ [r.pml4, pdpt, pd, pt], ¬ Free r.vm.pmm t := by
        intro t ht hfree
        rw [hpml4] at ht
        rw [hpmm, hleft] at hfree
        exact htables t ht hfree.1
      have hleftover : ∀ g ∈ F.erase phys, Free r.vm.pmm g := by
        intro g hg
        rw [hpmm, hleft]
        exact ⟨hfree g (Finset.mem_of_mem_erase hg), Finset.ne_of_mem_erase hg⟩
      obtain ⟨t, ht, htp, httab, -, htkept⟩ := ih (by rw [hpml4]; exact htabled.of_div hdiv) hrest
        (by rw [hshift]; exact hend) htaken (Nat.le_trans (by omega) Finset.pred_card_le_card_erase) hleftover
      rw [hpml4] at htp httab
      exact ⟨t, hstep.trans ht, htp, httab.of_div hdiv.symm, fun _ => htkept _ (Nat.mod_lt _ (by decide)) hfilled,
        fun j hj hj' => htkept j hj (hkept j hj hj')⟩

/-- **`heap_grow` succeeds** where there are frames enough and one table in place for all the pages. -/
theorem heapGrow_served {F : Finset Nat} (h : Tabled s.vm.mem s.pml4 s.heap.heapEnd pdpt pd pt)
    (hrange : ∀ i < pagesFor need, (s.heap.heapEnd + i * pageSize) / 2 ^ 21 = s.heap.heapEnd / 2 ^ 21)
    (hend : s.heap.heapEnd + pagesFor need * pageSize < 2 ^ 64)
    (htables : ∀ t ∈ [s.pml4, pdpt, pd, pt], ¬ Free s.vm.pmm t) (hsome : pagesFor need ≠ 0)
    (hcard : pagesFor need ≤ F.card) (hfree : ∀ f ∈ F, Free s.vm.pmm f) : ∃ t, s.heapGrow need = some (true, t) := by
  obtain ⟨t, ht, hpml4, htabled, hfilled, -⟩ := mapPages_filled h hrange hend htables hcard hfree
  have hmapped : vmmIsMapped t.vm.mem t.pml4 s.heap.heapEnd = true := by
    rw [hpml4]
    exact htabled.isMapped (hfilled hsome)
  refine ⟨t.addBlock s.heap.heapEnd, ?_⟩
  rw [heapGrow, growBy, ht]
  simp [hmapped]

end

/-! ## The block that growing adds

The sum and the rounding are made in 64 bits, the record in 32. Both may wrap, the first for sizes near `2 ^ 64` and
the second from `2 ^ 32 - 32` on.
-/

/-- The block that `heap_grow` has put on the free list is recorded with at least the size asked for, the search finds
    a block in the next round, and so neither the rest of the loop nor the whole loop grows the heap again. -/
structure GrowsOnce (s t : KHeap σ) (need : Nat) : Prop where
  recorded : need ≤ t.heap.mem.size t.heap.freeList
  found    : ∀ best, Heap.searchBest t.heap.mem need t.heap.walkBound t.heap.freeList 0 sizeMax = some best → best ≠ 0
  last     : ∀ fuel ptr u, retry need fuel t = some (ptr, u) → u.grown = t.grown
  once     : ∀ fuel ptr u, retry need fuel s = some (ptr, u) → u.grown ≤ s.grown + 1

/-- What `heap_grow` records as the size, of the `grow` bytes it has mapped. -/
def recordedSize (need : Nat) : Nat := (pagesFor need * pageSize + 2 ^ 64 - heapBlockHdrSize) % 2 ^ 32

omit [PageAlloc σ] in
theorem advance_end : s.advance.heap.heapEnd = (s.heap.heapEnd + pageSize) % 2 ^ 64 := by
  cases s
  rfl

omit [PageAlloc σ] in
theorem advance_grown : s.advance.grown = s.grown := by
  cases s
  rfl

theorem mapPage_end {virt phys : Nat} : (s.mapPage virt phys).heap.heapEnd = s.heap.heapEnd := by
  obtain ⟨heap, vm, pml4, grown⟩ := s
  cases heap
  rfl

theorem mapPages_end (hend : s.heap.heapEnd < 2 ^ 64) (hm : mapPages n s = (true, t)) :
    t.heap.heapEnd = (s.heap.heapEnd + n * pageSize) % 2 ^ 64 ∧ t.grown = s.grown := by
  induction n generalizing s with
  | zero =>
      cases hm
      rw [Nat.zero_mul, Nat.add_zero, Nat.mod_eq_of_lt hend]
      exact ⟨rfl, rfl⟩
  | succ n ih =>
      unfold mapPages at hm
      simp only at hm
      split at hm
      · cases (Prod.mk.inj hm).1
      · generalize hu : (KHeap.mapPage _ _ _ : KHeap σ) = u at hm
        have hu_end : u.heap.heapEnd = s.heap.heapEnd := by
          rw [← hu]
          exact mapPage_end
        have hu_grown : u.grown = s.grown := by
          rw [← hu]
          rfl
        have hlt : u.advance.heap.heapEnd < 2 ^ 64 := by
          rw [advance_end]
          exact Nat.mod_lt _ (by decide)
        obtain ⟨hrest, hgrown⟩ := ih hlt hm
        refine ⟨?_, by rw [hgrown, advance_grown, hu_grown]⟩
        rw [hrest, advance_end, hu_end, Nat.mod_add_mod, Nat.add_assoc, Nat.succ_mul, Nat.add_comm pageSize]

omit [PageAlloc σ] in
theorem addBlock_eq {a : Nat} :
    (s.addBlock a).heap.freeList = a ∧ (s.addBlock a).grown = s.grown + 1 ∧
      (s.addBlock a).heap.mem =
        (s.heap.mem.newBlock a (s.heap.heapEnd + 2 ^ 64 - a - heapBlockHdrSize) 0).setNext a s.heap.freeList := by
  cases s
  exact ⟨rfl, rfl, rfl⟩

omit [PageAlloc σ] in
/-- **The new block.** -/
theorem addBlock_head {a : Nat} (ha : a < 2 ^ 64) (hend : s.heap.heapEnd = (a + n * pageSize) % 2 ^ 64) :
    (s.addBlock a).heap.freeList = a ∧ (s.addBlock a).heap.mem.magic a = heapMagicFree ∧
      (s.addBlock a).heap.mem.size a = (n * pageSize + 2 ^ 64 - heapBlockHdrSize) % 2 ^ 32 ∧
      (s.addBlock a).grown = s.grown + 1 := by
  obtain ⟨hfree, hgrown, hmem⟩ := @addBlock_eq σ s a
  rw [hfree, hgrown, hmem, hend]
  generalize hg : n * pageSize = g
  generalize hbytes : (a + g) % 2 ^ 64 + 2 ^ 64 - a - heapBlockHdrSize = bytes
  obtain ⟨hmagic, hsize⟩ := @Words.newBlock_head s.heap.mem a bytes 0
  have hword : (s.heap.mem.newBlock a bytes 0).setNext a s.heap.freeList a = s.heap.mem.newBlock a bytes 0 a :=
    Words.setNext_of_ne (by omega)
  refine ⟨rfl, (Words.magic_congr hword).trans hmagic, ((Words.size_congr hword).trans hsize).trans ?_, rfl⟩
  rw [← hbytes]
  have hwhole : g % 4096 = 0 := by
    rw [← hg]
    exact Nat.mul_mod_left _ _
  unfold heapBlockHdrSize
  omega

/-- **What `heap_grow` adds.** -/
theorem growBy_block (hend : s.heap.heapEnd < 2 ^ 64) (hg : s.growBy n = some (true, t)) :
    t.heap.freeList = s.heap.heapEnd ∧ t.heap.mem.magic s.heap.heapEnd = heapMagicFree ∧
      t.heap.mem.size s.heap.heapEnd = (n * pageSize + 2 ^ 64 - heapBlockHdrSize) % 2 ^ 32 ∧
      t.grown = s.grown + 1 := by
  unfold growBy at hg
  split at hg
  next u hu => cases (Prod.mk.inj (Option.some.inj hg)).1
  next u hu =>
    split at hg
    · cases hg
    · obtain ⟨-, rfl⟩ := Prod.mk.inj (Option.some.inj hg)
      obtain ⟨hu_end, hu_grown⟩ := mapPages_end hend hu
      rw [← hu_grown]
      exact addBlock_head hend hu_end

theorem roundUp_bounds {x a : Nat} (ha : 0 < a) (hx : x + (a - 1) < 2 ^ 64) :
    x ≤ roundUp x a ∧ roundUp x a ≤ x + (a - 1) ∧ roundUp x a % a = 0 := by
  unfold roundUp
  rw [Nat.mod_eq_of_lt hx]
  have hle := Nat.div_mul_le_self (x + (a - 1)) a
  have hlt := @Nat.lt_div_mul_add (x + (a - 1)) a ha
  exact ⟨by omega, hle, Nat.mul_mod_left _ _⟩

/-- What is mapped, where neither sum wraps. -/
theorem pagesFor_bounds (hneed : need < 2 ^ 32) :
    need + 32 ≤ pagesFor need * pageSize ∧ pagesFor need * pageSize < need + 32 + heapGrowSize ∧
      pagesFor need * pageSize % heapGrowSize = 0 := by
  have hgrow : heapGrowSize = 1048576 := by decide
  unfold pagesFor heapBlockHdrSize pageSize
  rw [Nat.mod_eq_of_lt (show need + 32 < 2 ^ 64 by omega)]
  obtain ⟨hle, hlt, hmod⟩ := @roundUp_bounds (need + 32) heapGrowSize (by decide) (by rw [hgrow]; omega)
  generalize roundUp (need + 32) heapGrowSize = grow at *
  rw [hgrow] at *
  omega

/-- The size recorded suffices exactly for what 32 bits can hold together with the header. -/
theorem recordedSize_iff : need ≤ recordedSize need ↔ need ≤ 2 ^ 32 - 32 := by
  have hmod : recordedSize need < 2 ^ 32 := Nat.mod_lt _ (by decide)
  have hgrow : heapGrowSize = 1048576 := by decide
  by_cases hneed : need < 2 ^ 32
  · unfold recordedSize heapBlockHdrSize
    obtain ⟨hlow, hhigh, hwhole⟩ := pagesFor_bounds hneed
    generalize pagesFor need * pageSize = grow at *
    rw [hgrow] at *
    by_cases hfit : grow ≤ 2 ^ 32
    · omega
    · -- one megabyte beyond what 32 bits can hold
      obtain rfl : grow = 4296015872 := by omega
      omega
  · exact iff_of_false (by omega) (by omega)

/-! ## The next round

The search is made once more after a growth. It finds the new block, which is the first of the list, if its record
suffices; and it then does not grow the heap again.
-/

/-- A search that has found a block ends with a block. -/
theorem searchBest_ne_zero {m : Words} {blk best bestSize r : Nat} (hbest : best ≠ 0)
    (hs : Heap.searchBest m need fuel blk best bestSize = some r) : r ≠ 0 := by
  induction fuel generalizing blk best bestSize with
  | zero => cases hs
  | succ fuel ih =>
      unfold Heap.searchBest at hs
      split at hs
      case isTrue =>
        rw [← Option.some.inj hs]
        exact hbest
      case isFalse hblk =>
        split at hs
        case isTrue => cases hs
        case isFalse =>
          split at hs
          case isTrue =>
            split at hs
            case isTrue =>
              rw [← Option.some.inj hs]
              exact hblk
            case isFalse => exact ih hblk hs
          case isFalse => exact ih hbest hs

/-- A sufficient block at the head of the list is found. -/
theorem searchBest_head {m : Words} {blk r : Nat} (hblk : blk ≠ 0) (hfit : need ≤ m.size blk)
    (hs : Heap.searchBest m need fuel blk 0 sizeMax = some r) : r ≠ 0 := by
  have hsize : m.size blk < sizeMax := Nat.lt_trans Words.size_lt (by decide)
  cases fuel with
  | zero => cases hs
  | succ fuel =>
      unfold Heap.searchBest at hs
      rw [if_neg hblk] at hs
      split at hs
      case isTrue => cases hs
      case isFalse =>
        rw [if_pos ⟨hfit, hsize⟩] at hs
        split at hs
        case isTrue =>
          rw [← Option.some.inj hs]
          exact hblk
        case isFalse => exact searchBest_ne_zero hblk hs

/-- The loop does not grow the heap where the search finds a block. -/
theorem retry_found
    (hfound : ∀ best, Heap.searchBest s.heap.mem need s.heap.walkBound s.heap.freeList 0 sizeMax = some best → best ≠ 0)
    (hr : retry need fuel s = some (ptr, t)) : t.grown = s.grown := by
  cases fuel with
  | zero => cases hr
  | succ fuel =>
      unfold retry at hr
      obtain ⟨best, hbest, hr⟩ := Option.bind_eq_some_iff.mp hr
      rw [if_neg (hfound best hbest)] at hr
      obtain ⟨⟨p, h⟩, -, hr⟩ := Option.bind_eq_some_iff.mp hr
      cases hr
      rfl

/-- **What `heap_grow` adds holds what was asked for**, and the loop of `kmalloc` grows the heap once at most, exactly
    for what a 32-bit size can record together with the header. -/
theorem heap_grow_once_iff (s t : KHeap σ) (need : Nat) (hend : heapVirtBase ≤ s.heap.heapEnd ∧ s.heap.heapEnd < 2 ^ 64)
    (hg : s.heapGrow need = some (true, t)) : GrowsOnce s t need ↔ need ≤ 2 ^ 32 - 32 := by
  obtain ⟨hfree, -, hsize, hgrown⟩ := growBy_block hend.2 hg
  have hrecorded : t.heap.mem.size t.heap.freeList = recordedSize need := by
    rw [hfree]
    exact hsize
  have hne : t.heap.freeList ≠ 0 := by
    have hbase : 0 < heapVirtBase := by decide
    omega
  constructor
  · intro honce
    have hfits := honce.recorded
    rw [hrecorded] at hfits
    exact recordedSize_iff.mp hfits
  · intro hneed
    have hfits : need ≤ t.heap.mem.size t.heap.freeList := by
      rw [hrecorded]
      exact recordedSize_iff.mpr hneed
    have hfound : ∀ best, Heap.searchBest t.heap.mem need t.heap.walkBound t.heap.freeList 0 sizeMax = some best →
        best ≠ 0 := fun _ hbest => searchBest_head hne hfits hbest
    refine ⟨hfits, hfound, fun _ _ _ hr => retry_found hfound hr, fun fuel ptr u hr => ?_⟩
    cases fuel with
    | zero => cases hr
    | succ fuel =>
        unfold retry at hr
        obtain ⟨best, hbest, hr⟩ := Option.bind_eq_some_iff.mp hr
        split at hr
        · -- the heap grows, by the block that suffices
          obtain ⟨⟨ok, v⟩, hv, hr⟩ := Option.bind_eq_some_iff.mp hr
          obtain ⟨rfl, rfl⟩ := Prod.mk.inj (Option.some.inj (hg.symm.trans hv))
          rw [retry_found hfound hr, hgrown]
        · obtain ⟨⟨p, h⟩, -, hr⟩ := Option.bind_eq_some_iff.mp hr
          cases hr
          exact Nat.le_succ s.grown

/-- A heap of its initial size with a slab page behind it, which is where both regions meet. -/
def slabBehind : KHeap SoundPmm where
  heap :=
    { mem := fun _ => 0, freeList := 0, heapStart := heapVirtBase, heapEnd := heapVirtBase + heapInitSize,
      caches := fun _ => ⟨0, 0, 0⟩, slabVirt := heapVirtBase + heapInitSize + pageSize, avail := 0 }
  vm :=
    { mem := ((((ByteMem.setWord (fun _ => 0) (slot 0x1000 480) 0x2003#64).setWord (slot 0x2000 0) 0x3003#64).setWord
        (slot 0x3000 2) 0x4003#64).setWord (slot 0x4000 0) 0x5103#64)
      pmm := noFrame }
  pml4 := 0x1000
  grown := 0

/-- 315 free frames. -/
def mbFrames : SoundPmm :=
  ⟨{ bitmap := fun w => if w = 0 then 0x1F#64 else 0#64, totalPages := 320, freePages := 315#64, usedPages := 5#64,
     allocHint := 0 },
    fun _ => by decide, by decide, ⟨by decide, by decide +kernel, by decide, by decide⟩⟩

/-- Behind this heap nothing is mapped yet; the tables are there, and more than a megabyte of frames. -/
def roomBehind : KHeap SoundPmm where
  heap := (exhausted mbFrames).heap
  vm :=
    { mem := ((ByteMem.setWord (fun _ => 0) (slot 0x1000 480) 0x2003#64).setWord (slot 0x2000 0) 0x3003#64).setWord
        (slot 0x3000 2) 0x4003#64
      pmm := mbFrames }
  pml4 := 0x1000
  grown := 0

/-- The 256 pages are mapped. -/
theorem roomBehind_grows : ∃ t, roomBehind.heapGrow 40000 = some (true, t) := by
  have hpages : pagesFor 40000 = 256 := by decide
  have hclear : ∀ i < 256, mbFrames.1.bitmapTest (i + 5) = false := by decide +kernel
  apply @heapGrow_served _ _ roomBehind 40000 0x2000 0x3000 0x4000 ((Finset.range 256).image fun i => (i + 5) * pageSize)
  case h => exact ⟨by decide +kernel, by decide +kernel, by decide +kernel, by decide, by decide⟩
  case hrange =>
    have hend : roomBehind.heap.heapEnd = 0xFFFFF00000400000 := by decide
    rw [hpages, hend, pageSize]
    omega
  case hend => decide
  case htables =>
    intro t ht hfree
    simp only [List.mem_cons, List.not_mem_nil, or_false] at ht
    rcases ht with rfl | rfl | rfl | rfl <;> exact absurd hfree.2.2 (by decide)
  case hsome => decide
  case hcard =>
    rw [hpages, Finset.card_image_of_injective _ fun i j hij => by
      have hmul : (i + 5) * pageSize = (j + 5) * pageSize := hij
      rw [pageSize] at hmul
      omega]
    exact Nat.le_of_eq (Finset.card_range 256).symm
  case hfree =>
    intro f hf
    obtain ⟨i, hi, rfl⟩ := Finset.mem_image.mp hf
    have hlt : i < 256 := Finset.mem_range.mp hi
    have hdiv : (i + 5) * pageSize / pageSize = i + 5 := Nat.mul_div_cancel _ (by decide)
    refine ⟨Nat.mul_mod_left _ _, ?_, ?_⟩
    · rw [hdiv]
      have htotal : i + 5 < 320 := by omega
      exact htotal
    · rw [hdiv]
      exact hclear i hlt

/-- A request that a megabyte holds, and one whose rounding wraps to no page at all. -/
theorem heap_grow_once_megabyte : (∃ t, roomBehind.heapGrow 40000 = some (true, t) ∧ GrowsOnce roomBehind t 40000) ∧
    ∃ t, slabBehind.heapGrow (2 ^ 64 - 64) = some (true, t) ∧
      (GrowsOnce slabBehind t (2 ^ 64 - 64) ↔ 2 ^ 64 - 64 ≤ 2 ^ 32 - 32) := by
  constructor
  · obtain ⟨t, hg⟩ := roomBehind_grows
    exact ⟨t, hg, (heap_grow_once_iff roomBehind t _ ⟨by decide, by decide⟩ hg).mpr (by decide)⟩
  · have hok : (slabBehind.heapGrow (2 ^ 64 - 64)).map Prod.fst = some true := by decide +kernel
    obtain ⟨⟨ok, t⟩, hg, hr⟩ := Option.map_eq_some_iff.mp hok
    obtain rfl : ok = true := hr
    exact ⟨t, hg, heap_grow_once_iff slabBehind t _ ⟨by decide, by decide⟩ hg⟩

/-- **No page is mapped for `2 ^ 64 - 64` bytes**, and the block that is put on the free list, over the slab page, is
    recorded with `2 ^ 32 - 32`. -/
theorem heap_grow_short : ∃ t, slabBehind.heapGrow (2 ^ 64 - 64) = some (true, t) ∧
    t.heap.heapEnd = slabBehind.heap.heapEnd ∧ t.heap.mem.size t.heap.freeList = 2 ^ 32 - 32 ∧
    ¬ GrowsOnce slabBehind t (2 ^ 64 - 64) := by
  have hresult : (slabBehind.heapGrow (2 ^ 64 - 64)).map
      (fun r => (r.1, r.2.heap.heapEnd, r.2.heap.mem.size r.2.heap.freeList)) =
      some (true, slabBehind.heap.heapEnd, 2 ^ 32 - 32) := by decide +kernel
  obtain ⟨⟨ok, t⟩, hg, hr⟩ := Option.map_eq_some_iff.mp hresult
  obtain ⟨hok, hrest⟩ := Prod.mk.inj hr
  obtain ⟨hend, hsize⟩ := Prod.mk.inj hrest
  obtain rfl : ok = true := hok
  refine ⟨t, hg, hend, hsize, fun honce => ?_⟩
  have hfits : 2 ^ 64 - 64 ≤ t.heap.mem.size t.heap.freeList := honce.recorded
  rw [hsize] at hfits
  exact absurd hfits (by decide)

end KHeap

end MyUnix.Mm
