import MyUnix.Mm.HeapRun

/-!
# `Mm.HeapPages` — the two regions of the kernel heap

`heap_init` and `heap_grow` map pages from `HEAP_VIRT_BASE` on, `slab_cache_grow` from `HEAP_INIT_SIZE` above it.
Both move a pointer upwards over one address range and neither looks at the other's, so the two regions meet as
soon as the free-list heap grows beyond its initial size while a slab page exists, or a slab page is first needed
after that. `RegionsApart` is the condition on a call of `kmalloc`, in the state before it, under which this does
not happen.

What is recorded in a run is the list of pages that each region has called `vmm_kmap_phys` for. A page that is in the
list twice was mapped twice, and the second mapping has taken the first frame away from whatever lay in it. The heap
of the free list moves `g_heap_end` upwards without a bound, and the slab pointer starts 4 MB above the base, right
behind the initial heap; so the condition is that only one of the two ever moves beyond its start.

`retry_pages` bounds what one call of `kmalloc` can map. It is needed because the loop may grow more than once when a
size does not fit 32 bits.
-/

namespace MyUnix.Mm

open Lib

/-- `n` pages from the address `a` on. -/
def pageRun (a n : Nat) : List Nat := (List.range n).map fun k => a + k * pageSize

theorem mem_pageRun {a n p : Nat} : p ∈ pageRun a n ↔ ∃ k < n, p = a + k * pageSize := by
  simp only [pageRun, List.mem_map, List.mem_range]
  constructor
  · rintro ⟨k, hk, rfl⟩
    exact ⟨k, hk, rfl⟩
  · rintro ⟨k, hk, rfl⟩
    exact ⟨k, hk, rfl⟩

@[simp] theorem pageRun_length (a n : Nat) : (pageRun a n).length = n := by simp [pageRun]

theorem pageRun_append (a n k : Nat) : pageRun a n ++ pageRun (a + n * pageSize) k = pageRun a (n + k) := by
  unfold pageRun
  rw [List.range_add, List.map_append, List.map_map]
  congr 1
  refine List.map_congr_left fun i _ => ?_
  show a + n * pageSize + i * pageSize = a + (n + i) * pageSize
  unfold pageSize
  omega

theorem pageRun_nodup (a n : Nat) : (pageRun a n).Nodup := by
  refine List.Nodup.map_on (fun i _ j _ hij => ?_) List.nodup_range
  unfold pageSize at hij
  omega

/-! ## The slab caches before a call

A call of `kmalloc` first tries a cache, which may map one page, and falls back on the list when it gets none.
-/

namespace Heap

variable {h h₁ : Heap} {need ptr : Nat}

/-- The page the next `slab_cache_grow` maps. -/
def slabNext (h : Heap) : Nat := if h.slabVirt = 0 then heapVirtBase + heapInitSize else h.slabVirt

/-- The cache for `need` is empty and a page can be had for it. -/
def SlabGrows (h : Heap) (need : Nat) : Prop :=
  ∃ i, slabFindCache need = some i ∧ (h.caches i).freeList = 0 ∧ h.avail ≠ 0

/-- The cache for `need` has an object, or gets some; a page holds none of more than 4096 bytes. -/
def SlabServes (h : Heap) (need : Nat) : Prop :=
  ∃ i, slabFindCache need = some i ∧
    ((h.caches i).freeList ≠ 0 ∨ (h.avail ≠ 0 ∧ slabSizes.getD i 0 ≤ pageSize))

/-- The loop that cuts a page into objects. -/
def carve (virt objSize n : Nat) (mf : Words × Nat) : Words × Nat :=
  (List.range n).foldl
    (fun (mf : Words × Nat) k => (Function.update mf.1 (virt + k * objSize) mf.2, virt + k * objSize)) mf

theorem carve_succ (virt objSize n : Nat) (mf : Words × Nat) :
    carve virt objSize (n + 1) mf =
      (Function.update (carve virt objSize n mf).1 (virt + n * objSize) (carve virt objSize n mf).2,
        virt + n * objSize) := by
  simp [carve, List.range_succ, List.foldl_append]

/-- Only words of the objects are written. -/
theorem carve_of_out {virt objSize n w : Nat} {mf : Words × Nat} (hw : w < virt ∨ virt + n * objSize ≤ w)
    (hpos : 0 < objSize) : (carve virt objSize n mf).1 w = mf.1 w := by
  induction n with
  | zero => rfl
  | succ n ih =>
      rw [Nat.succ_mul] at hw
      rw [carve_succ]
      refine (Function.update_of_ne ?_ _ _).trans (ih ?_)
      · omega
      · omega

theorem slabSizes_pos {i : Nat} (hi : slabFindCache need = some i) : 0 < slabSizes.getD i 0 := by
  obtain ⟨hlt, -⟩ := List.findIdx?_eq_some_iff_getElem.mp hi
  have hall : ∀ j < slabSizes.length, 0 < slabSizes.getD j 0 := by decide
  exact hall i hlt

/-- **A cache that grows**: one page appears at the slab pointer; nothing else of the heap changes. -/
theorem slabCacheGrow_spec {i : Nat} (havail : h.avail ≠ 0) (hpos : 0 < slabSizes.getD i 0)
    (hg : h.slabCacheGrow i = h₁) :
    h₁.heapStart = h.heapStart ∧ h₁.heapEnd = h.heapEnd ∧ h₁.freeList = h.freeList ∧
      h₁.slabVirt = h.slabNext + pageSize ∧ h₁.avail = h.avail - 1 ∧
      (∀ w, w < h.slabNext ∨ h.slabNext + pageSize ≤ w → h₁.mem w = h.mem w) ∧
      (slabSizes.getD i 0 ≤ pageSize → (h₁.caches i).freeList ≠ 0) := by
  rw [slabCacheGrow, if_neg havail] at hg
  subst hg
  refine ⟨rfl, rfl, rfl, rfl, rfl, fun w hw => ?_, fun hfit => ?_⟩
  · have hn : pageSize / slabSizes.getD i 0 * slabSizes.getD i 0 ≤ pageSize := Nat.div_mul_le_self _ _
    refine (carve_of_out ?_ hpos).trans (Words.mapZeroed_of_out hw)
    unfold slabNext at hw
    omega
  · -- a page that holds an object leaves the last one at the head of the list
    obtain ⟨n, hn⟩ : ∃ n, pageSize / slabSizes.getD i 0 = n + 1 :=
      Nat.exists_eq_succ_of_ne_zero (Nat.pos_iff_ne_zero.mp (Nat.div_pos hfit hpos))
    have hfree := congrArg Prod.snd (carve_succ h.slabNext (slabSizes.getD i 0) n
      (h.mem.mapZeroed h.slabNext (h.slabNext + pageSize), (h.caches i).freeList))
    rw [← hn] at hfree
    simp only [Function.update_self]
    refine ne_of_eq_of_ne hfree ?_
    have hnext : 0 < h.slabNext := by
      unfold slabNext
      split
      · decide
      · omega
    show h.slabNext + n * slabSizes.getD i 0 ≠ 0
    omega

/-- **The attempt at the slab caches.** -/
theorem slabServe_spec (hs : h.slabServe need = (ptr, h₁)) :
    h₁.heapStart = h.heapStart ∧ h₁.heapEnd = h.heapEnd ∧ h₁.freeList = h.freeList ∧
      (¬ h.SlabGrows need → h₁.slabVirt = h.slabVirt ∧ h₁.avail = h.avail ∧ h₁.mem = h.mem) ∧
      (h.SlabGrows need → h₁.slabVirt = h.slabNext + pageSize ∧ h₁.avail = h.avail - 1 ∧
        ∀ w, w < h.slabNext ∨ h.slabNext + pageSize ≤ w → h₁.mem w = h.mem w) ∧
      (h.SlabServes need → ptr ≠ 0) := by
  unfold slabServe at hs
  cases hi : slabFindCache need with
  | none =>
      rw [hi] at hs
      cases hs
      exact ⟨rfl, rfl, rfl, fun _ => ⟨rfl, rfl, rfl⟩, fun ⟨i, h1, _⟩ => (by simp [hi] at h1),
        fun ⟨i, h1, _⟩ => by simp [hi] at h1⟩
  | some i =>
      rw [hi] at hs
      have hgrows : h.SlabGrows need ↔ (h.caches i).freeList = 0 ∧ h.avail ≠ 0 := by
        simp [SlabGrows, hi]
      have hserves : h.SlabServes need ↔
          (h.caches i).freeList ≠ 0 ∨ (h.avail ≠ 0 ∧ slabSizes.getD i 0 ≤ pageSize) := by
        simp [SlabServes, hi]
      rw [hgrows, hserves]
      simp only [slabAlloc] at hs
      by_cases hfree : (h.caches i).freeList = 0
      · rw [if_pos hfree] at hs
        obtain ⟨t, ht⟩ : ∃ t, h.slabCacheGrow i = t := ⟨_, rfl⟩
        rw [ht] at hs
        by_cases havail : h.avail = 0
        · -- no page: the cache stays empty
          have hsame : t = h := by rw [← ht, slabCacheGrow, if_pos havail]
          subst hsame
          rw [if_pos hfree] at hs
          cases hs
          simp [hfree, havail]
        · obtain ⟨h1, h2, h3, h4, h5, h6, h7⟩ := slabCacheGrow_spec havail (slabSizes_pos hi) ht
          by_cases hobj : (t.caches i).freeList = 0
          · rw [if_pos hobj] at hs
            cases hs
            exact ⟨h1, h2, h3, fun hn => absurd ⟨hfree, havail⟩ hn, fun _ => ⟨h4, h5, h6⟩,
              fun hv => absurd hobj (h7 (hv.resolve_left fun hne => hne hfree).2)⟩
          · rw [if_neg hobj] at hs
            cases hs
            exact ⟨h1, h2, h3, fun hn => absurd ⟨hfree, havail⟩ hn, fun _ => ⟨h4, h5, h6⟩, fun _ => hobj⟩
      · rw [if_neg hfree, if_neg hfree] at hs
        cases hs
        exact ⟨rfl, rfl, rfl, fun _ => ⟨rfl, rfl, rfl⟩, fun hg => absurd hg.1 hfree, fun _ => hfree⟩

end Heap

/-! ## How far `kmalloc` grows the heap

The number of pages that the loop maps, in terms of what is on the list before the call.
-/

/-- The pages `heap_grow` maps for a block of `need` bytes, where the sum does not wrap. -/
def growPages (need : Nat) : Nat :=
  (need + heapBlockHdrSize + (heapGrowSize - 1)) / heapGrowSize * (heapGrowSize / pageSize)

/-- One round of `heap_grow` for a block that a 32-bit size can record. -/
theorem heapGrow_eq {h : Heap} {need : Nat} (hfit : growPages need * pageSize ≤ 2 ^ 32) :
    h.heapGrow need = h.growBy (growPages need) := by
  unfold Heap.heapGrow
  unfold growPages heapBlockHdrSize heapGrowSize pageSize at *
  have hpages : roundUp ((need + 32) % 2 ^ 64) (1024 * 1024) / 4096 =
      (need + 32 + (1024 * 1024 - 1)) / (1024 * 1024) * (1024 * 1024 / 4096) := by
    unfold roundUp
    rw [Nat.mod_eq_of_lt (show need + 32 < 2 ^ 64 by omega), Nat.mod_eq_of_lt (by omega)]
    omega
  exact congrArg h.growBy hpages

/-- The free list of `h'` has the blocks of that of `h`, with their sizes. -/
structure Heap.SameList (h h' : Heap) : Prop where
  on   : ∀ b, h'.OnFreeList b ↔ h.OnFreeList b
  size : ∀ b, h.OnFreeList b → h'.mem.size b = h.mem.size b

namespace Heap.SameList

variable {h h' : Heap} {need a : Nat}

theorem none_suffices (hs : SameList h h') (hnone : ∀ b, h'.OnFreeList b → h'.mem.size b < need) :
    ∀ b, h.OnFreeList b → h.mem.size b < need := by
  intro b hb
  rw [← hs.size b hb]
  exact hnone b ((hs.on b).mpr hb)

theorem bestFits (hs : SameList h h') (hbest : h'.BestFits need a) : h.BestFits need a := by
  obtain ⟨ha, hge, hmin⟩ := hbest
  have ha' := (hs.on a).mp ha
  rw [hs.size a ha'] at hge hmin
  refine ⟨ha', hge, fun b hb hgeb => ?_⟩
  rw [← hs.size b hb] at hgeb ⊢
  exact hmin b ((hs.on b).mpr hb) hgeb

theorem sizesTrue {live : List (Nat × Nat)} {size : Nat} (hs : SameList h h')
    (htrue : SizesTrue ⟨h, live⟩ (.kmalloc size)) : SizesTrue ⟨h', live⟩ (.kmalloc size) := by
  obtain ⟨hmax, htrue⟩ := htrue
  refine ⟨hmax, fun a ha b hb hne => ?_⟩
  have hbest := hs.bestFits ha
  show b < a ∨ a + heapBlockHdrSize + h'.mem.size a ≤ b
  rw [hs.size a hbest.1]
  exact htrue a hbest b (hb.imp_left (hs.on b).mp) hne

end Heap.SameList

namespace HeapRep

variable {h h' : Heap} {live : List (Nat × Nat)} {fl : List Nat} {len : Nat → Nat} {size fuel ptr : Nat}

/-- A block that suffices is taken without growing the heap. -/
theorem retry_served (r : HeapRep h live fl len) (hfit : ∃ a ∈ fl, size ≤ h.mem.size a)
    (hk : Heap.retry size fuel h = some (ptr, h')) : ∃ m free, h' = { h with mem := m, freeList := free } := by
  cases fuel with
  | zero => cases hk
  | succ fuel =>
      unfold Heap.retry at hk
      obtain ⟨best, hbest, hk⟩ := Option.bind_eq_some_iff.mp hk
      rcases Heap.searchBest_spec r.chain hbest with ⟨rfl, hnone⟩ | ⟨hmem, -, -, -⟩
      · obtain ⟨a, ha, hsize⟩ := hfit
        have h1 := hnone a ha hsize
        have h2 := h.mem.size_lt (b := a)
        unfold sizeMax at h1
        omega
      · rw [if_neg (r.chain.ne_zero hmem)] at hk
        exact Heap.takeBlock_keeps hk

/-- **The pages a call maps.** None when a block suffices; as many as the block takes when a 32-bit size can
    record it; in any case no more than can be had. -/
theorem retry_pages (r : HeapRep h live fl len) (hk : Heap.retry size fuel h = some (ptr, h')) :
    ∃ k, k ≤ h.avail ∧ h'.heapEnd = h.heapEnd + k * pageSize ∧ h'.avail = h.avail - k ∧
      h'.slabVirt = h.slabVirt ∧ ((∃ a ∈ fl, size ≤ h.mem.size a) → k = 0) ∧
      (growPages size * pageSize ≤ 2 ^ 32 → k ≤ growPages size) := by
  by_cases hfit : ∃ a ∈ fl, size ≤ h.mem.size a
  · obtain ⟨m, free, rfl⟩ := r.retry_served hfit hk
    exact ⟨0, Nat.zero_le _, by simp, rfl, rfl, fun _ => rfl, fun _ => Nat.zero_le _⟩
  · induction fuel generalizing h fl len with
    | zero => cases hk
    | succ fuel ih =>
        unfold Heap.retry at hk
        obtain ⟨best, hbest, hk⟩ := Option.bind_eq_some_iff.mp hk
        rcases Heap.searchBest_spec r.chain hbest with ⟨rfl, -⟩ | ⟨hmem, hge, -, -⟩
        · rw [if_pos rfl] at hk
          obtain ⟨⟨ok, h₁⟩, hg, hk⟩ := Option.bind_eq_some_iff.mp hk
          obtain ⟨hsizes, -, hdone⟩ := r.grow hg
          obtain ⟨k, hka, -, -, hend, havail, -, hvirt, -⟩ := Heap.growBy_spec r.top_lt hg
          have hone : growPages size * pageSize ≤ 2 ^ 32 → k ≤ growPages size ∧
              (ok = true → size ≤ h₁.mem.size h.heapEnd) := by
            intro hrec
            rw [heapGrow_eq hrec] at hg
            obtain ⟨k', -, hkn, -, hend', -, -, -, -, -, hdone'⟩ := Heap.growBy_spec r.top_lt hg
            have hkk : k' = k := by
              unfold pageSize at hend hend'
              omega
            subst hkk
            refine ⟨hkn, fun hok => ?_⟩
            obtain ⟨hpos, rfl, -, -, -, hsize⟩ := hdone' hok
            rw [hsize, Nat.mod_eq_of_lt (by omega)]
            unfold growPages heapBlockHdrSize heapGrowSize pageSize
            omega
          cases ok with
          | false =>
              cases hk
              exact ⟨k, hka, hend, havail, hvirt, fun hf => absurd hf hfit, fun hrec => (hone hrec).1⟩
          | true =>
              obtain ⟨-, len₁, r₁, -⟩ := hdone rfl
              by_cases hnew : size ≤ h₁.mem.size h.heapEnd
              · -- the new block suffices, so the next round is the last
                obtain ⟨m, free, rfl⟩ := r₁.retry_served ⟨_, List.mem_cons_self, hnew⟩ hk
                exact ⟨k, hka, hend, havail, hvirt, fun hf => absurd hf hfit, fun hrec => (hone hrec).1⟩
              · have hfit₁ : ¬ ∃ a ∈ h.heapEnd :: fl, size ≤ h₁.mem.size a := by
                  rintro ⟨a, ha, hle⟩
                  rcases List.mem_cons.mp ha with rfl | ha
                  · exact hnew hle
                  · exact hfit ⟨a, ha, hsizes a ha ▸ hle⟩
                obtain ⟨k₁, h1, h2, h3, h4, -, -⟩ := ih r₁ hk hfit₁
                refine ⟨k + k₁, by omega, ?_, by omega, h4.trans hvirt, fun hf => absurd hf hfit,
                  fun hrec => absurd ((hone hrec).2 rfl) hnew⟩
                rw [h2, hend]
                unfold pageSize
                omega
        · exact absurd ⟨best, hmem, hge⟩ hfit

/-- A request for which there is room leaves the end of the heap below the first slab page. -/
theorem retry_below (r : HeapRep h live fl len) (hbefore : h.heapEnd ≤ heapVirtBase + heapInitSize)
    (hok : (∀ b, h.OnFreeList b → h.mem.size b < size) →
      h.heapEnd + min (growPages size) h.avail * pageSize ≤ heapVirtBase + heapInitSize)
    (hk : Heap.retry size fuel h = some (ptr, h')) : h'.heapEnd ≤ heapVirtBase + heapInitSize := by
  obtain ⟨n, hn, hend, -, -, hserved, hone⟩ := r.retry_pages hk
  rw [hend]
  by_cases hfit : ∃ a ∈ fl, size ≤ h.mem.size a
  · rw [hserved hfit]
    omega
  · have hbound := hok fun b hb => by
      by_contra hge
      exact hfit ⟨b, r.onFreeList_iff.mp hb, Nat.le_of_not_lt hge⟩
    have hmin : n ≤ min (growPages size) h.avail := by
      refine Nat.le_min.mpr ⟨?_, hn⟩
      by_cases hrec : growPages size * pageSize ≤ 2 ^ 32
      · exact hone hrec
      · -- a size that 32 bits cannot record needs more pages than there is room for, so none are left over
        by_contra hlt
        rw [Nat.min_eq_left (by omega)] at hbound
        have hbottom := r.bottom
        rw [r.start] at hbottom
        have hroom : growPages size * pageSize ≤ heapInitSize := by omega
        have hsmall : heapInitSize ≤ 2 ^ 32 := by decide
        exact hrec (Nat.le_trans hroom hsmall)
    exact Nat.le_trans (Nat.add_le_add_left (Nat.mul_le_mul_right _ hmin) _) hbound

/-- The attempt at the slab caches leaves the free-list heap alone, when the page it maps lies above. -/
theorem slabServe {need : Nat} (r : HeapRep h live fl len) (hs : h.slabServe need = (ptr, h'))
    (hok : h.SlabGrows need → h.heapEnd ≤ h.slabNext) :
    HeapRep h' live fl len ∧ ∀ a ∈ fl, h'.mem.size a = h.mem.size a := by
  obtain ⟨h1, h2, h3, hstay, hgrow, -⟩ := Heap.slabServe_spec hs
  by_cases hg : h.SlabGrows need
  · obtain ⟨-, ha, hm⟩ := hgrow hg
    refine r.outside h1 h2 h3 (by omega) fun w hw => hm w (Or.inl ?_)
    exact Nat.lt_of_lt_of_le hw (hok hg)
  · obtain ⟨-, ha, hm⟩ := hstay hg
    exact r.outside h1 h2 h3 (Nat.le_of_eq ha) fun w _ => congrFun hm w

/-- Two heaps whose free lists have the same blocks with the same sizes. -/
theorem sameList {live' : List (Nat × Nat)} {len' : Nat → Nat} (r : HeapRep h live fl len) (r' : HeapRep h' live' fl len')
    (hsizes : ∀ a ∈ fl, h'.mem.size a = h.mem.size a) : h.SameList h' :=
  ⟨fun _ => r'.onFreeList_iff.trans r.onFreeList_iff.symm, fun b hb => hsizes b (r.onFreeList_iff.mp hb)⟩

end HeapRep

/-! ## The pages mapped in a run

The invariant has the two pointers as the ends of two runs of pages, and the invariant of the heap next to it, since
what a growth does depends on the list.
-/

/-- The heap, with the pages for which `heap_init` and `heap_grow`, and `slab_cache_grow`, have called
    `vmm_kmap_phys`. -/
structure PageSys where
  heap      : Heap
  heapPages : List Nat
  slabPages : List Nat

/-- A step of the run: an allocation, or frames taken by others. -/
inductive PageOp where
  | kmalloc (size : Nat)
  | frames (n : Nat)

/-- After a call that leaves the heap as `h`: each of the two pointers has moved over the pages it was used to
    map, the slab pointer over one at most. -/
def PageSys.record (sys : PageSys) (h : Heap) : PageSys :=
  ⟨h, sys.heapPages ++ pageRun sys.heap.heapEnd ((h.heapEnd - sys.heap.heapEnd) / pageSize),
    sys.slabPages ++ if h.slabVirt = sys.heap.slabVirt then [] else [h.slabVirt - pageSize]⟩

/-- **One step.** A call of `kmalloc`, or a change of the number of pages that can be had. -/
def pageStep (sys : PageSys) : PageOp → Option PageSys
  | .kmalloc size =>
      if size < 2 ^ 64 then (sys.heap.kmalloc size).map fun (_, h) => sys.record h else none
  | .frames n =>
      if sys.heapPages.length + sys.slabPages.length + n ≤ pmmMaxPages then
        some { sys with heap := { sys.heap with avail := n } }
      else none

/-- The state after `heap_init`. -/
def pageInit (h₀ : Heap) : PageSys := ⟨h₀, pageRun h₀.heapStart ((h₀.heapEnd - h₀.heapStart) / pageSize), []⟩

/-- **No page is mapped twice**; in particular no page of the heap is one of the slab caches. -/
def PagesOnce (sys : PageSys) : Prop := (sys.heapPages ++ sys.slabPages).Nodup

/-- The condition on a call of `kmalloc`: a slab page is not mapped into a heap that has grown beyond its initial
    size, and while there is a slab page the heap does not grow beyond it either. -/
def Heap.RegionsApart (h : Heap) (size : Nat) : Prop :=
  let need := roundUp size heapAlign
  size ≠ 0 →
    (h.SlabGrows need → h.heapEnd ≤ heapVirtBase + heapInitSize) ∧
    (¬ h.SlabServes need → (∀ b, h.OnFreeList b → h.mem.size b < need) →
      (h.SlabGrows need →
        h.heapEnd + min (growPages need) (h.avail - 1) * pageSize ≤ heapVirtBase + heapInitSize) ∧
      (¬ h.SlabGrows need → h.slabVirt = 0 ∨
        h.heapEnd + min (growPages need) h.avail * pageSize ≤ heapVirtBase + heapInitSize))

/-- What the condition leaves the heap to grow by, once the attempt at the slab caches has failed. -/
theorem Heap.RegionsApart.room {h h₁ : Heap} {size : Nat} (hok : h.RegionsApart size) (h0 : size ≠ 0)
    (hs : h.slabServe (roundUp size heapAlign) = (0, h₁)) (hlist : h.SameList h₁)
    (hnone : ∀ b, h₁.OnFreeList b → h₁.mem.size b < roundUp size heapAlign) :
    h₁.slabVirt = 0 ∨
      h₁.heapEnd + min (growPages (roundUp size heapAlign)) h₁.avail * pageSize ≤ heapVirtBase + heapInitSize := by
  obtain ⟨-, hend, -, hstay, hgrow, hserves⟩ := Heap.slabServe_spec hs
  obtain ⟨hg, hn⟩ := (hok h0).2 (fun hv => hserves hv rfl) (hlist.none_suffices hnone)
  by_cases hgrows : h.SlabGrows (roundUp size heapAlign)
  · obtain ⟨-, havail, -⟩ := hgrow hgrows
    rw [hend, havail]
    exact Or.inr (hg hgrows)
  · obtain ⟨hvirt, havail, -⟩ := hstay hgrows
    rw [hend, havail, hvirt]
    exact hn hgrows

/-- The pages that the step maps are apart from those mapped before. -/
def RegionsApart (sys : PageSys) : PageOp → Prop
  | .kmalloc size => sys.heap.RegionsApart size
  | .frames _     => True

theorem PageSys.record_slabPages {sys : PageSys} {h : Heap} (hv : h.slabVirt = sys.heap.slabVirt) :
    (sys.record h).slabPages = sys.slabPages := by
  show sys.slabPages ++ (if h.slabVirt = sys.heap.slabVirt then [] else [h.slabVirt - pageSize]) = _
  rw [if_pos hv, List.append_nil]

/-! ## The invariant

The two lists of pages end at the two pointers, so a page is mapped twice only if one pointer has overtaken the start
of the other region.
-/

/-- What holds of the pages in every state of the run. -/
structure PagesInv (sys : PageSys) : Prop where
  rep   : ∃ live fl len, HeapRep sys.heap live fl len ∧ Exact sys.heap fl len
  heap  : ∃ k, sys.heapPages = pageRun heapVirtBase k ∧ sys.heap.heapEnd = heapVirtBase + k * pageSize
  slab  : ∃ j, sys.slabPages = pageRun (heapVirtBase + heapInitSize) j ∧
            (sys.heap.slabVirt = 0 ↔ j = 0) ∧ sys.heap.slabNext = heapVirtBase + heapInitSize + j * pageSize
  apart : sys.heap.slabVirt ≠ 0 → sys.heap.heapEnd ≤ heapVirtBase + heapInitSize
  total : sys.heapPages.length + sys.slabPages.length + sys.heap.avail ≤ pmmMaxPages

/-- **The invariant gives the property.** -/
theorem PagesInv.once {sys : PageSys} (hi : PagesInv sys) : PagesOnce sys := by
  obtain ⟨k, hheap, hend⟩ := hi.heap
  obtain ⟨j, hslab, hvirt, -⟩ := hi.slab
  unfold PagesOnce
  rw [hheap, hslab]
  refine List.nodup_append.mpr ⟨pageRun_nodup _ _, pageRun_nodup _ _, fun p hp q hq hpq => ?_⟩
  obtain ⟨i, hik, rfl⟩ := mem_pageRun.mp hp
  obtain ⟨i', hij, rfl⟩ := mem_pageRun.mp hq
  have hapart := hi.apart fun h0 => by
    have := hvirt.mp h0
    omega
  rw [hend] at hapart
  unfold pageSize at hapart hpq
  omega

namespace PagesInv

variable {sys : PageSys} {h : Heap} {need ptr : Nat}

/-- The slab pages are as before where the slab pointer is. -/
theorem slab_kept (hi : PagesInv sys) (hv : h.slabVirt = sys.heap.slabVirt) :
    ∃ j, (sys.record h).slabPages = pageRun (heapVirtBase + heapInitSize) j ∧
      (h.slabVirt = 0 ↔ j = 0) ∧ h.slabNext = heapVirtBase + heapInitSize + j * pageSize := by
  obtain ⟨j, hslab, hvirt, hnext⟩ := hi.slab
  rw [PageSys.record_slabPages hv, Heap.slabNext, hv]
  exact ⟨j, hslab, hvirt, hnext⟩

/-- A slab page is mapped, or none; the free list stays as it is. -/
theorem slabServe (hi : PagesInv sys) (hok : sys.heap.SlabGrows need → sys.heap.heapEnd ≤ heapVirtBase + heapInitSize)
    (hs : sys.heap.slabServe need = (ptr, h)) :
    PagesInv (sys.record h) ∧ sys.heap.SameList h := by
  obtain ⟨live, fl, len, r, hex⟩ := hi.rep
  obtain ⟨k, hheap, hend⟩ := hi.heap
  obtain ⟨j, hslab, hvirt, hnext⟩ := hi.slab
  have htotal := hi.total
  obtain ⟨-, h2, -, hstay, hgrow, -⟩ := Heap.slabServe_spec hs
  have hpages : (sys.record h).heapPages = sys.heapPages := by
    simp [PageSys.record, h2, pageRun]
  obtain ⟨r', hsizes⟩ := r.slabServe hs fun hg => by
    have := hok hg
    rw [hnext]
    omega
  have hex' : Exact h fl len := by
    intro a ha
    rw [hsizes a ha]
    exact hex a ha
  refine ⟨?_, r.sameList r' hsizes⟩
  by_cases hg : sys.heap.SlabGrows need
  · -- a page is mapped at the slab pointer, behind the initial heap
    obtain ⟨hv, ha, -⟩ := hgrow hg
    have hlow := hok hg
    obtain ⟨i, -, -, havail⟩ := hg
    have hpos : 0 < sys.heap.slabNext := by
      rw [hnext]
      unfold heapVirtBase
      omega
    have hmoved : h.slabVirt ≠ sys.heap.slabVirt := by
      intro he
      rw [hv] at he
      unfold Heap.slabNext at he
      unfold heapVirtBase pageSize at he
      split at he
      · omega
      · omega
    have hslabPages : (sys.record h).slabPages = pageRun (heapVirtBase + heapInitSize) (j + 1) := by
      have hone : [h.slabVirt - pageSize] = pageRun (heapVirtBase + heapInitSize + j * pageSize) 1 := by
        rw [hv, Nat.add_sub_cancel, hnext]
        simp [pageRun]
      show sys.slabPages ++ (if h.slabVirt = sys.heap.slabVirt then [] else [h.slabVirt - pageSize]) = _
      rw [if_neg hmoved, hone, hslab]
      exact pageRun_append _ _ _
    refine ⟨⟨live, fl, len, r', hex'⟩, ⟨k, hpages.trans hheap, h2.trans hend⟩,
      ⟨j + 1, hslabPages, ?_, ?_⟩, fun _ => ?_, ?_⟩
    · show h.slabVirt = 0 ↔ j + 1 = 0
      omega
    · show h.slabNext = _
      unfold Heap.slabNext
      rw [if_neg (by omega), hv, hnext]
      unfold pageSize
      omega
    · show h.heapEnd ≤ _
      rw [h2]
      exact hlow
    · show (sys.record h).heapPages.length + (sys.record h).slabPages.length + h.avail ≤ pmmMaxPages
      rw [hpages, hslabPages, pageRun_length, ha]
      rw [hslab, pageRun_length] at htotal
      omega
  · -- an object was there, or no cache serves the size
    obtain ⟨hv, ha, -⟩ := hstay hg
    refine ⟨⟨live, fl, len, r', hex'⟩, ⟨k, hpages.trans hheap, h2.trans hend⟩, hi.slab_kept hv, fun hne => ?_, ?_⟩
    · show h.heapEnd ≤ _
      rw [h2]
      exact hi.apart (hv ▸ hne)
    · show (sys.record h).heapPages.length + (sys.record h).slabPages.length + h.avail ≤ pmmMaxPages
      rw [hpages, PageSys.record_slabPages hv, ha]
      exact htotal

/-- The free-list heap serves a request, and may grow for it. -/
theorem retry {fuel : Nat} (hi : PagesInv sys) (halign : need % 16 = 0)
    (hok : (∀ b, sys.heap.OnFreeList b → sys.heap.mem.size b < need) → sys.heap.slabVirt = 0 ∨
      sys.heap.heapEnd + min (growPages need) sys.heap.avail * pageSize ≤ heapVirtBase + heapInitSize)
    (hk : Heap.retry need fuel sys.heap = some (ptr, h)) : PagesInv (sys.record h) := by
  obtain ⟨live, fl, len, r, hex⟩ := hi.rep
  obtain ⟨k, hheap, hend⟩ := hi.heap
  have htotal := hi.total
  obtain ⟨n, hn, hend', havail, hv, -, -⟩ := r.retry_pages hk
  have hpages : (sys.record h).heapPages = pageRun heapVirtBase (k + n) := by
    have hmoved : (h.heapEnd - sys.heap.heapEnd) / pageSize = n := by
      rw [hend', Nat.add_sub_cancel_left]
      exact Nat.mul_div_cancel _ (by decide)
    show sys.heapPages ++ pageRun sys.heap.heapEnd ((h.heapEnd - sys.heap.heapEnd) / pageSize) = _
    rw [hmoved, hheap, hend]
    exact pageRun_append _ _ _
  -- blocks that never were on the list do not come back, so sizes are true throughout
  have hroom : ∀ a ∈ fl, need ≤ sys.heap.mem.size a →
      (∀ b ∈ fl, need ≤ sys.heap.mem.size b → sys.heap.mem.size a ≤ sys.heap.mem.size b) →
      ∀ b ∈ fl ++ liveHdrs live, b ≠ a → b < a ∨ a + 32 + sys.heap.mem.size a ≤ b := by
    intro a ha _ _ b hb hne
    have hap := r.packed.apart hb (List.mem_append_left _ ha) hne
    have hlen := hex a ha
    have hpos := (r.block b hb).header
    unfold Apart at hap
    omega
  obtain ⟨fl', len', r', hex'⟩ := r.retry (Nat.zero_le need) halign hroom hk
  refine ⟨⟨_, fl', len', r', hex' hex⟩, ⟨k + n, hpages, ?_⟩, hi.slab_kept hv, fun hne => ?_, ?_⟩
  · show h.heapEnd = _
    rw [hend', hend]
    unfold pageSize
    omega
  · have hne' : sys.heap.slabVirt ≠ 0 := fun e => hne (hv.trans e)
    exact r.retry_below (hi.apart hne') (fun hnone => (hok hnone).resolve_left hne') hk
  · show (sys.record h).heapPages.length + (sys.record h).slabPages.length + h.avail ≤ pmmMaxPages
    rw [hpages, PageSys.record_slabPages hv, pageRun_length, havail]
    rw [hheap, pageRun_length] at htotal
    omega

end PagesInv

/-- Two calls in a row, of which the first moves only the slab pointer and the second only the end of the heap. -/
theorem PageSys.record_record {sys : PageSys} {h₁ h₂ : Heap} (hend : h₁.heapEnd = sys.heap.heapEnd)
    (hvirt : h₂.slabVirt = h₁.slabVirt) : (sys.record h₁).record h₂ = sys.record h₂ := by
  simp [PageSys.record, hend, hvirt, pageRun]

theorem roundUp_mod (size : Nat) : roundUp size heapAlign % 16 = 0 := Nat.mul_mod_left _ _

/-- **A call of `kmalloc`** keeps the invariant. -/
theorem PagesInv.kmalloc {sys : PageSys} {size ptr : Nat} {h : Heap} (hi : PagesInv sys)
    (hok : RegionsApart sys (.kmalloc size)) (hk : sys.heap.kmalloc size = some (ptr, h)) :
    PagesInv (sys.record h) := by
  unfold Heap.kmalloc at hk
  by_cases h0 : size = 0
  · rw [if_pos h0] at hk
    cases hk
    have hsame : sys.record sys.heap = sys := by
      simp [PageSys.record, pageRun]
    rw [hsame]
    exact hi
  · rw [if_neg h0] at hk
    obtain ⟨p, h₁, hs⟩ : ∃ p h₁, sys.heap.slabServe (roundUp size heapAlign) = (p, h₁) := ⟨_, _, rfl⟩
    obtain ⟨hi₁, hlist⟩ := hi.slabServe (hok h0).1 hs
    simp only [hs] at hk
    by_cases hp : p = 0
    · subst hp
      rw [if_neg (Decidable.not_not.mpr rfl)] at hk
      obtain ⟨live, fl, len, r, -⟩ := hi₁.rep
      obtain ⟨-, -, -, -, hv, -⟩ := r.retry_pages hk
      rw [← PageSys.record_record (Heap.slabServe_spec hs).2.1 hv]
      exact hi₁.retry (roundUp_mod size) (Heap.RegionsApart.room hok h0 hs hlist) hk
    · rw [if_pos hp] at hk
      cases hk
      exact hi₁

/-- **One step** keeps the invariant. -/
theorem PagesInv.step {sys sys' : PageSys} {op : PageOp} (hi : PagesInv sys) (hok : RegionsApart sys op)
    (hs : pageStep sys op = some sys') : PagesInv sys' := by
  cases op with
  | kmalloc size =>
      simp only [pageStep, Option.ite_none_right_eq_some, Option.map_eq_some_iff] at hs
      obtain ⟨-, ⟨ptr, h⟩, hk, rfl⟩ := hs
      exact hi.kmalloc hok hk
  | frames n =>
      simp only [pageStep, Option.ite_none_right_eq_some, Option.some.injEq] at hs
      obtain ⟨hn, rfl⟩ := hs
      obtain ⟨live, fl, len, r, hex⟩ := hi.rep
      obtain ⟨k, hheap, hend⟩ := hi.heap
      have hpages : (sys.heap.heapEnd - sys.heap.heapStart) / pageSize + n ≤ pmmMaxPages := by
        rw [hheap, pageRun_length] at hn
        rw [r.start, hend, Nat.add_sub_cancel_left, Nat.mul_div_cancel _ (by decide)]
        omega
      exact ⟨⟨live, fl, len, r.frames hpages, hex⟩, ⟨k, hheap, hend⟩, hi.slab, hi.apart, hn⟩

theorem PagesInv.init {mem : Words} {avail : Nat} {h₀ : Heap} (havail : avail ≤ pmmMaxPages)
    (hinit : Heap.heapInit mem avail = some h₀) : PagesInv (pageInit h₀) := by
  obtain ⟨fl, len, k, r, hex, hk, -, hend, hleft, hvirt⟩ := heapInit_rep havail hinit
  have hcount : (h₀.heapEnd - h₀.heapStart) / pageSize = k := by
    rw [r.start, hend, Nat.add_sub_cancel_left]
    exact Nat.mul_div_cancel _ (by decide)
  have hpages : (pageInit h₀).heapPages = pageRun heapVirtBase k := by
    unfold pageInit
    rw [hcount, r.start]
  refine ⟨⟨[], fl, len, r, hex⟩, ⟨k, hpages, hend⟩, ⟨0, rfl, ?_, ?_⟩, fun hne => absurd hvirt hne, ?_⟩
  · show h₀.slabVirt = 0 ↔ 0 = 0
    simp [hvirt]
  · show h₀.slabNext = _
    unfold Heap.slabNext
    rw [if_pos hvirt, Nat.zero_mul, Nat.add_zero]
  · rw [hpages, pageRun_length]
    show k + 0 + h₀.avail ≤ pmmMaxPages
    omega

/-- **No page of the heap is mapped twice**, in every run from `heap_init` in which neither region is extended
    over the other. -/
theorem heap_pages_once (mem : Words) (avail : Nat) (h₀ : Heap) (ops : List PageOp) (sys : PageSys)
    (havail : avail ≤ pmmMaxPages) (hinit : Heap.heapInit mem avail = some h₀)
    (hrun : Run (Guarded RegionsApart (Graph pageStep)) (pageInit h₀) ops sys) : PagesOnce sys := by
  have hinv : PagesInv sys := by
    refine hrun.invariant PagesInv (PagesInv.init havail hinit) ?_
    intro s op t hs hstep
    exact hs.step hstep.1 hstep.2
  exact hinv.once

/-- A small object and a large one: the slab page lies right above the heap. -/
theorem heap_pages_once_mixed :
    ∃ h₀ sys, Heap.heapInit (fun _ => 0) 2048 = some h₀ ∧
      Run (Guarded RegionsApart (Graph pageStep)) (pageInit h₀) [.kmalloc 8, .kmalloc 40000] sys ∧
      sys.slabPages = [heapVirtBase + heapInitSize] ∧ PagesOnce sys := by
  obtain ⟨h₀, hh₀⟩ : ∃ h₀, h₀ = freshHeap := ⟨_, rfl⟩
  have hinit : Heap.heapInit (fun _ => 0) 2048 = some h₀ := hh₀ ▸ freshHeap_init
  have hok₁ : RegionsApart (after pageStep (pageInit h₀) []) (.kmalloc 8) := by
    refine fun _ => ⟨fun _ => ?_, fun hnot => absurd ?_ hnot⟩
    · rw [hh₀]; decide +kernel
    · refine ⟨1, by decide, Or.inr ⟨?_, by decide⟩⟩
      rw [hh₀]; decide +kernel
  have hok₂ : RegionsApart (after pageStep (pageInit h₀) [.kmalloc 8]) (.kmalloc 40000) := by
    have hnone : Heap.slabFindCache (roundUp 40000 heapAlign) = none := by decide
    have hlist : (after pageStep (pageInit h₀) [.kmalloc 8]).heap.OnFreeList heapVirtBase := by
      have hfirst : (after pageStep (pageInit h₀) [.kmalloc 8]).heap.freeList = heapVirtBase := by
        rw [hh₀]; decide +kernel
      unfold Heap.OnFreeList
      rw [hfirst]
      exact .here (by decide)
    refine fun _ => ⟨?_, fun _ hsmall => absurd (hsmall heapVirtBase hlist) ?_⟩
    · rintro ⟨i, hi, -⟩
      rw [hnone] at hi
      cases hi
    · rw [hh₀]; decide +kernel
  have hrun₀ : Run (Guarded RegionsApart (Graph pageStep)) (pageInit h₀) [] (after pageStep (pageInit h₀) []) := .refl
  have hrun₁ := hrun₀.tail_after (.kmalloc 8) hok₁ (by rw [hh₀]; decide +kernel)
  have hrun₂ := hrun₁.tail_after (.kmalloc 40000) hok₂ (by rw [hh₀]; decide +kernel)
  have hslab : (after pageStep (pageInit h₀) [.kmalloc 8, .kmalloc 40000]).slabPages =
      [heapVirtBase + heapInitSize] := by
    rw [hh₀]; decide +kernel
  exact ⟨h₀, _, hinit, hrun₂, hslab, heap_pages_once _ 2048 _ _ _ (by decide) hinit hrun₂⟩

/-- With a slab page right above the initial heap, the first growth of the heap maps the same page again. -/
theorem heap_page_mapped_twice :
    ∃ h₀ sys, Heap.heapInit (fun _ => 0) 2048 = some h₀ ∧
      Run (Graph pageStep) (pageInit h₀) [.kmalloc 8, .kmalloc 4194272, .kmalloc 40000] sys ∧
      ¬ PagesOnce sys := by
  obtain ⟨h₀, hh₀⟩ : ∃ h₀, h₀ = freshHeap := ⟨_, rfl⟩
  have hsome : ([PageOp.kmalloc 8, .kmalloc 4194272, .kmalloc 40000].foldlM pageStep (pageInit h₀)).isSome := by
    rw [hh₀]; decide +kernel
  have hheap : heapVirtBase + heapInitSize ∈ (after pageStep (pageInit h₀)
      [.kmalloc 8, .kmalloc 4194272, .kmalloc 40000]).heapPages := by
    rw [hh₀]; decide +kernel
  have hslab : heapVirtBase + heapInitSize ∈ (after pageStep (pageInit h₀)
      [.kmalloc 8, .kmalloc 4194272, .kmalloc 40000]).slabPages := by
    rw [hh₀]; decide +kernel
  refine ⟨h₀, _, hh₀ ▸ freshHeap_init, Run.of_after hsome, fun honce => ?_⟩
  exact (List.nodup_append.mp honce).2.2 _ hheap _ hslab rfl

end MyUnix.Mm
