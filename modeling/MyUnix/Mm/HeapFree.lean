import MyUnix.Mm.HeapPages

/-!
# `Mm.HeapFree` — what `kfree` gives back

`kmalloc` has two allocators and `kfree` one: whatever the pointer, it takes the 32 bytes in front of it for a
block header and puts the block on the free list. `slab_free` is never called, so the objects of the slab caches
stay in use.

The run here keeps both kinds of allocation apart, `live` for those from the free list and `slab` for those from a
cache. A client of a slab object may store anywhere in the slab pages: nothing of the free-list heap lies there as
long as the two regions do not meet.

A run here has both kinds of allocations, with the page allocator's answers in between. An allocation is recorded with
the allocator that served it, which the code itself does not do: `kfree` gets a pointer and nothing else.
`Heap.kfree_returns` is the lemma that other parts of the kernel use of it: a call returns if and only if the header
of a used block stands in front of the pointer.

For blocks of the free list the condition of `Mm.HeapRun` is still needed, since a block that was handed out over
another one's header has lost it.
-/

namespace MyUnix.Mm

open Lib

/-- The heap, with the blocks of the free list and the objects of the caches that callers hold. -/
structure FreeSys where
  heap : Heap
  live : List (Nat × Nat)
  slab : List (Nat × Nat)

/-- A step of the run: an allocation, a release, a store by a holder, or a change of the pages that can be had. -/
inductive FreeOp where
  | kmalloc (size : Nat)
  | kfree (ptr : Nat)
  | store (ptr addr v : Nat)
  | slabStore (addr v : Nat)
  | frames (n : Nat)

/-- What `kmalloc` returned is recorded with its size, or with the cache that served it. -/
def FreeSys.allocated (sys : FreeSys) (size ptr : Nat) (h : Heap) : FreeSys :=
  if ptr = 0 then ⟨h, sys.live, sys.slab⟩
  else if (sys.heap.slabServe (roundUp size heapAlign)).1 ≠ 0 then
    ⟨h, sys.live, (ptr, (Heap.slabFindCache (roundUp size heapAlign)).getD 0) :: sys.slab⟩
  else ⟨h, (ptr, size) :: sys.live, sys.slab⟩

/-- **One step.** A call of `kmalloc`, `kfree` of a pointer that `kmalloc` returned and that was not freed since, a
    store by the owner of a payload or of a slab object, or a change of the number of pages that can be had. -/
def freeStep (sys : FreeSys) : FreeOp → Option FreeSys
  | .kmalloc size =>
      if size < 2 ^ 64 then (sys.heap.kmalloc size).map fun (ptr, h) => sys.allocated size ptr h else none
  | .kfree ptr =>
      if ptr ∈ sys.live.map Prod.fst then
        (sys.heap.kfree ptr).map fun h => ⟨h, sys.live.eraseP fun l => l.1 = ptr, sys.slab⟩
      else if ptr ∈ sys.slab.map Prod.fst then
        (sys.heap.kfree ptr).map fun h => ⟨h, sys.live, sys.slab.eraseP fun o => o.1 = ptr⟩
      else none
  | .store ptr addr v =>
      if ∃ l ∈ sys.live, l.1 = ptr ∧ ptr ≤ addr ∧ addr < ptr + l.2 then
        some { sys with heap := { sys.heap with mem := Function.update sys.heap.mem (addr / 8 * 8) v } }
      else none
  | .slabStore addr v =>
      if heapVirtBase + heapInitSize ≤ addr ∧ addr < sys.heap.slabVirt then
        some { sys with heap := { sys.heap with mem := Function.update sys.heap.mem (addr / 8 * 8) v } }
      else none
  | .frames n =>
      if (sys.heap.heapEnd - sys.heap.heapStart) / pageSize + n ≤ pmmMaxPages then
        some { sys with heap := { sys.heap with avail := n } }
      else none

/-- `kfree` puts the block of `ptr` on the free list. -/
def Heap.GivesBackBlock (h : Heap) (ptr : Nat) : Prop :=
  ∃ h', h.kfree ptr = some h' ∧ h'.OnFreeList (ptr - heapBlockHdrSize)

/-- `kfree` puts the object `ptr` on the free list of its cache. -/
def Heap.GivesBackObject (h : Heap) (ptr i : Nat) : Prop :=
  ∃ h', h.kfree ptr = some h' ∧ (h'.caches i).used + 1 = (h.caches i).used ∧
    Visits h'.mem (h'.caches i).freeList ptr

/-- **Every allocation can be given back** to the allocator that served it. -/
structure AllGivenBack (sys : FreeSys) : Prop where
  blocks  : ∀ l ∈ sys.live, sys.heap.GivesBackBlock l.1
  objects : ∀ o ∈ sys.slab, sys.heap.GivesBackObject o.1 o.2

/-- The condition on a step: `kmalloc` meets no block that reaches over a header and does not extend one region
    over the other, and `kfree` is called for a block of the free-list heap. -/
def FreesBlocks (sys : FreeSys) : FreeOp → Prop
  | .kmalloc size => SizesTrue ⟨sys.heap, sys.live⟩ (.kmalloc size) ∧ sys.heap.RegionsApart size
  | .kfree ptr    => ptr ∈ sys.live.map Prod.fst
  | _             => True

/-- What holds of the heap in every state of the run. -/
structure FreeInv (sys : FreeSys) : Prop where
  rep   : ∃ fl len, HeapRep sys.heap sys.live fl len
  slabs : sys.heap.slabVirt ≠ 0 → heapVirtBase + heapInitSize ≤ sys.heap.slabVirt
  apart : sys.heap.slabVirt ≠ 0 → sys.heap.heapEnd ≤ heapVirtBase + heapInitSize

/-- `kfree` returns if and only if it finds the header of a used block in front of the pointer. -/
theorem Heap.kfree_returns {h : Heap} {ptr : Nat} (hptr : ptr ≠ 0) :
    (∃ h', h.kfree ptr = some h') ↔ h.mem.magic (ptr - heapBlockHdrSize) = heapMagicUsed := by
  rw [Heap.kfree, if_neg hptr]
  by_cases hused : h.mem.magic (ptr - heapBlockHdrSize) = heapMagicUsed
  · simp only [hused]
    rw [if_neg (by decide), if_neg (not_not_intro rfl)]
    exact iff_of_true ⟨_, rfl⟩ trivial
  · refine iff_of_false ?_ hused
    rintro ⟨h', hf⟩
    simp only [if_pos hused, ite_self] at hf
    cases hf

/-- `kfree` accepts the pointer of a live block. -/
theorem HeapRep.kfree_isSome {h : Heap} {live : List (Nat × Nat)} {fl : List Nat} {len : Nat → Nat} {ptr : Nat}
    (r : HeapRep h live fl len) (hptr : ptr ∈ live.map Prod.fst) : ∃ h', h.kfree ptr = some h' := by
  obtain ⟨l, hl, rfl⟩ := List.mem_map.mp hptr
  have hpos := r.ptr_eq hl
  exact (Heap.kfree_returns (by omega)).mpr (r.used _ (hdr_mem hl))

/-- **The invariant decides the property.** Blocks are given back, objects never. -/
theorem FreeInv.allGivenBack_iff {sys : FreeSys} (hi : FreeInv sys) : AllGivenBack sys ↔ sys.slab = [] := by
  obtain ⟨fl, len, r⟩ := hi.rep
  constructor
  · intro hall
    rw [List.eq_nil_iff_forall_not_mem]
    intro o ho
    obtain ⟨h', hf, hused, -⟩ := hall.objects o ho
    obtain ⟨m, free, rfl⟩ := Heap.kfree_keeps hf
    simp only at hused
    omega
  · intro hnil
    refine ⟨fun l hl => ?_, fun o ho => by simp [hnil] at ho⟩
    have hptr : l.1 ∈ sys.live.map Prod.fst := List.mem_map_of_mem hl
    obtain ⟨h', hf⟩ := r.kfree_isSome hptr
    have r' := r.kfree hptr hf
    exact ⟨h', hf, r'.onFreeList_iff.mpr List.mem_cons_self⟩

namespace FreeInv

variable {sys : FreeSys} {size ptr : Nat} {h : Heap}

theorem slabNext_ge (hi : FreeInv sys) : heapVirtBase + heapInitSize ≤ sys.heap.slabNext := by
  unfold Heap.slabNext
  split
  · exact Nat.le_refl _
  · rename_i hne
    exact hi.slabs hne

/-- A slab page is mapped, or none; the free list stays as it is. -/
theorem slabServe {need : Nat} (hi : FreeInv sys)
    (hok : sys.heap.SlabGrows need → sys.heap.heapEnd ≤ heapVirtBase + heapInitSize)
    (hs : sys.heap.slabServe need = (ptr, h)) : FreeInv { sys with heap := h } ∧ sys.heap.SameList h := by
  obtain ⟨fl, len, r⟩ := hi.rep
  obtain ⟨-, hend, -, hstay, hgrow, -⟩ := Heap.slabServe_spec hs
  have hnext := hi.slabNext_ge
  obtain ⟨r', hsizes⟩ := r.slabServe hs fun hg => Nat.le_trans (hok hg) hnext
  have hregions : h.slabVirt ≠ 0 → heapVirtBase + heapInitSize ≤ h.slabVirt ∧
      h.heapEnd ≤ heapVirtBase + heapInitSize := by
    intro hne
    rw [hend]
    by_cases hg : sys.heap.SlabGrows need
    · obtain ⟨hv, -, -⟩ := hgrow hg
      rw [hv]
      exact ⟨Nat.le_trans hnext (Nat.le_add_right _ _), hok hg⟩
    · obtain ⟨hv, -, -⟩ := hstay hg
      rw [hv] at hne ⊢
      exact ⟨hi.slabs hne, hi.apart hne⟩
  exact ⟨⟨⟨fl, len, r'⟩, fun hne => (hregions hne).1, fun hne => (hregions hne).2⟩, r.sameList r' hsizes⟩

/-- The free-list heap serves a request, and may grow for it. -/
theorem retry {fuel : Nat} (hi : FreeInv sys) (htrue : SizesTrue ⟨sys.heap, sys.live⟩ (.kmalloc size))
    (hroom : (∀ b, sys.heap.OnFreeList b → sys.heap.mem.size b < roundUp size heapAlign) → sys.heap.slabVirt = 0 ∨
      sys.heap.heapEnd + min (growPages (roundUp size heapAlign)) sys.heap.avail * pageSize ≤
        heapVirtBase + heapInitSize)
    (hk : Heap.retry (roundUp size heapAlign) fuel sys.heap = some (ptr, h)) :
    FreeInv ⟨h, if ptr = 0 then sys.live else (ptr, size) :: sys.live, sys.slab⟩ := by
  obtain ⟨fl, len, r⟩ := hi.rep
  obtain ⟨hmax, hbest⟩ := (sizesTrue_iff r.chain).mp htrue
  have hreq : size ≤ roundUp size heapAlign := by
    unfold roundUp heapAlign
    rw [Nat.mod_eq_of_lt (by omega)]
    omega
  obtain ⟨-, -, -, -, hv, -, -⟩ := r.retry_pages hk
  obtain ⟨fl', len', r', -⟩ := r.retry hreq (roundUp_mod size) hbest hk
  refine ⟨⟨fl', len', r'⟩, fun hne => ?_, fun hne => ?_⟩
  · show heapVirtBase + heapInitSize ≤ h.slabVirt
    rw [hv]
    exact hi.slabs fun e => hne (hv.trans e)
  · have hne' : sys.heap.slabVirt ≠ 0 := fun e => hne (hv.trans e)
    exact r.retry_below (hi.apart hne') (fun hnone => (hroom hnone).resolve_left hne') hk

/-- **A call of `kmalloc`**, served by a cache or by the free list. -/
theorem kmalloc (hi : FreeInv sys) (hok : FreesBlocks sys (.kmalloc size))
    (hk : sys.heap.kmalloc size = some (ptr, h)) : FreeInv (sys.allocated size ptr h) := by
  obtain ⟨htrue, hregions⟩ := hok
  unfold Heap.kmalloc at hk
  by_cases h0 : size = 0
  · rw [if_pos h0] at hk
    cases hk
    unfold FreeSys.allocated
    rw [if_pos rfl]
    exact hi
  · rw [if_neg h0] at hk
    obtain ⟨p, h₁, hs⟩ : ∃ p h₁, sys.heap.slabServe (roundUp size heapAlign) = (p, h₁) := ⟨_, _, rfl⟩
    obtain ⟨hi₁, hlist⟩ := hi.slabServe (hregions h0).1 hs
    unfold FreeSys.allocated
    simp only [hs] at hk ⊢
    by_cases hp : p = 0
    · subst hp
      rw [if_neg (Decidable.not_not.mpr rfl)] at hk
      have hinv := hi₁.retry (hlist.sizesTrue htrue) (Heap.RegionsApart.room hregions h0 hs hlist) hk
      by_cases hptr : ptr = 0
      · rw [if_pos hptr] at hinv ⊢
        exact hinv
      · rw [if_neg hptr] at hinv ⊢
        rw [if_neg (Decidable.not_not.mpr rfl)]
        exact hinv
    · rw [if_pos hp] at hk
      cases hk
      rw [if_neg hp, if_pos hp]
      exact ⟨hi₁.rep, hi₁.slabs, hi₁.apart⟩

/-- **One step** keeps the invariant. -/
theorem step {sys' : FreeSys} {op : FreeOp} (hi : FreeInv sys) (hok : FreesBlocks sys op)
    (hs : freeStep sys op = some sys') : FreeInv sys' := by
  obtain ⟨fl, len, r⟩ := hi.rep
  cases op with
  | kmalloc size =>
      simp only [freeStep, Option.ite_none_right_eq_some, Option.map_eq_some_iff] at hs
      obtain ⟨-, ⟨ptr, h⟩, hk, rfl⟩ := hs
      exact hi.kmalloc hok hk
  | kfree ptr =>
      have hptr : ptr ∈ sys.live.map Prod.fst := hok
      simp only [freeStep, if_pos hptr, Option.map_eq_some_iff] at hs
      obtain ⟨h, hf, rfl⟩ := hs
      have r' := r.kfree hptr hf
      obtain ⟨m, free, rfl⟩ := Heap.kfree_keeps hf
      exact ⟨⟨_, len, r'⟩, hi.slabs, hi.apart⟩
  | store ptr addr v =>
      simp only [freeStep, Option.ite_none_right_eq_some, Option.some.injEq] at hs
      obtain ⟨⟨l, hl, rfl, hge, hlt⟩, rfl⟩ := hs
      exact ⟨⟨fl, len, r.store hl hge hlt⟩, hi.slabs, hi.apart⟩
  | slabStore addr v =>
      simp only [freeStep, Option.ite_none_right_eq_some, Option.some.injEq] at hs
      obtain ⟨⟨hge, hlt⟩, rfl⟩ := hs
      have hlow := hi.apart (by omega)
      have hmem : ∀ w < sys.heap.heapEnd, Function.update sys.heap.mem (addr / 8 * 8) v w = sys.heap.mem w := by
        intro w hw
        have halign : (heapVirtBase + heapInitSize) % 8 = 0 := by decide
        exact Function.update_of_ne (by omega) _ _
      have r' : HeapRep { sys.heap with mem := Function.update sys.heap.mem (addr / 8 * 8) v } sys.live fl len := by
        refine And.left (r.outside ?_ ?_ ?_ ?_ hmem)
        all_goals simp
      exact ⟨⟨fl, len, r'⟩, hi.slabs, hi.apart⟩
  | frames n =>
      simp only [freeStep, Option.ite_none_right_eq_some, Option.some.injEq] at hs
      obtain ⟨hn, rfl⟩ := hs
      exact ⟨⟨fl, len, r.frames hn⟩, hi.slabs, hi.apart⟩

end FreeInv

/-- **Blocks are given back and objects are not**: in every run from `heap_init` whose steps meet the condition,
    every pointer not freed since can be given back to the allocator that served it, if and only if no slab cache
    served any of them. -/
theorem heap_given_back_iff (mem : Words) (avail : Nat) (h₀ : Heap) (ops : List FreeOp) (sys : FreeSys)
    (havail : avail ≤ pmmMaxPages) (hinit : Heap.heapInit mem avail = some h₀)
    (hrun : Run (Guarded FreesBlocks (Graph freeStep)) ⟨h₀, [], []⟩ ops sys) :
    AllGivenBack sys ↔ sys.slab = [] := by
  have hinv : FreeInv sys := by
    obtain ⟨fl, len, -, r, -, -, -, -, -, hvirt⟩ := heapInit_rep havail hinit
    refine hrun.invariant FreeInv ⟨⟨fl, len, r⟩, fun hne => absurd hvirt hne, fun hne => absurd hvirt hne⟩ ?_
    intro s op t hs hstep
    exact hs.step hstep.1 hstep.2
  exact hinv.allGivenBack_iff

/-- A block of 40000 bytes. -/
theorem heap_given_back_block :
    ∃ h₀ sys, Heap.heapInit (fun _ => 0) 2048 = some h₀ ∧
      Run (Guarded FreesBlocks (Graph freeStep)) ⟨h₀, [], []⟩ [.kmalloc 40000] sys ∧
      sys.live = [(heapVirtBase + 32, 40000)] ∧ AllGivenBack sys := by
  obtain ⟨h₀, hh₀⟩ : ∃ h₀, h₀ = freshHeap := ⟨_, rfl⟩
  have hinit : Heap.heapInit (fun _ => 0) 2048 = some h₀ := hh₀ ▸ freshHeap_init
  have hchain : Chain h₀.mem.next h₀.freeList [heapVirtBase] := by
    rw [hh₀]; decide +kernel
  have hnone : Heap.slabFindCache (roundUp 40000 heapAlign) = none := by decide
  have hok : FreesBlocks (after freeStep ⟨h₀, [], []⟩ []) (.kmalloc 40000) := by
    refine ⟨?_, fun _ => ⟨?_, fun _ hsmall => absurd (hsmall heapVirtBase (hchain.visits_iff.mpr (by simp))) ?_⟩⟩
    · refine (sizesTrue_iff hchain).mpr ?_
      rw [hh₀]; decide +kernel
    · rintro ⟨i, hi, -⟩
      rw [hnone] at hi
      cases hi
    · rw [hh₀]; decide +kernel
  have hrun₀ : Run (Guarded FreesBlocks (Graph freeStep)) ⟨h₀, [], []⟩ [] (after freeStep ⟨h₀, [], []⟩ []) := .refl
  have hrun := hrun₀.tail_after (.kmalloc 40000) hok (by rw [hh₀]; decide +kernel)
  have hlive : (after freeStep ⟨h₀, [], []⟩ [.kmalloc 40000]).live = [(heapVirtBase + 32, 40000)] := by
    rw [hh₀]; decide +kernel
  have hslab : (after freeStep ⟨h₀, [], []⟩ [.kmalloc 40000]).slab = [] := by
    rw [hh₀]; decide +kernel
  exact ⟨h₀, _, hinit, hrun, hlive, (heap_given_back_iff _ 2048 _ _ _ (by decide) hinit hrun).mpr hslab⟩

/-- In front of a slab object lies another one, not a header: `kfree` panics. -/
theorem heap_kfree_object_panics :
    ∃ h₀ sys ptr, Heap.heapInit (fun _ => 0) 2048 = some h₀ ∧
      Run (Graph freeStep) ⟨h₀, [], []⟩ [.kmalloc 8] sys ∧
      sys.slab = [(ptr, 1)] ∧ sys.heap.kfree ptr = none ∧ ¬ AllGivenBack sys := by
  obtain ⟨h₀, hh₀⟩ : ∃ h₀, h₀ = freshHeap := ⟨_, rfl⟩
  have hsome : ([FreeOp.kmalloc 8].foldlM freeStep ⟨h₀, [], []⟩).isSome := by
    rw [hh₀]; decide +kernel
  have hslab : (after freeStep ⟨h₀, [], []⟩ [.kmalloc 8]).slab = [(heapVirtBase + heapInitSize + 255 * 16, 1)] := by
    rw [hh₀]; decide +kernel
  have hpanic : ((after freeStep ⟨h₀, [], []⟩ [.kmalloc 8]).heap.kfree
      (heapVirtBase + heapInitSize + 255 * 16)).isNone := by
    rw [hh₀]; decide +kernel
  have hnone := Option.isNone_iff_eq_none.mp hpanic
  refine ⟨h₀, _, _, hh₀ ▸ freshHeap_init, Run.of_after hsome, hslab, hnone, fun hall => ?_⟩
  obtain ⟨h', hf, -⟩ := hall.objects (heapVirtBase + heapInitSize + 255 * 16, 1) (by rw [hslab]; simp)
  rw [hnone] at hf
  cases hf

end MyUnix.Mm
