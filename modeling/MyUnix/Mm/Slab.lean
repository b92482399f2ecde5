import MyUnix.Mm.HeapPages

/-!
# `Mm.Slab` — objects of the slab caches

The free list of a cache runs through the objects it lists: the first word of each is its link. Objects are cut out of
pages that all caches take from one pointer, so two objects are apart because they are two slots of one page, which
has one cache (`Slot.apart`), or lie in two pages.

A page is cut into `PAGE_SIZE / obj_size` objects. That is none for the three largest classes: a page taken for one of
them is lost, the list of the cache is as empty as before, and the next request takes a page again.

The invariant for one cache is a chain of slots. Slots are places in pages that were mapped for that cache, so what
keeps the objects of different caches apart is where pages are, and what keeps those of one cache apart is that they
are different slots. Stores of owners go through: an object that is live is on no list, so its first word is no link.

The caches are looked at twice. In the first half they are used by their own functions alone, `slab_free` among them,
and stay in order for ever. In the second half they are used as `kmalloc` uses them, and what is asked is where the
frames go: a class of more than 4096 bytes cuts no object out of a page, and the page is lost.
-/

namespace MyUnix.Mm

open Lib

/-- `SLAB_SIZES[i]`, the `obj_size` of the cache `i`. -/
def objSize (i : Nat) : Nat := slabSizes.getD i 0

/-- What holds of the thirteen sizes. -/
theorem objSize_cases {i : Nat} (hi : i < slabSizes.length) :
    0 < objSize i ∧ objSize i % 8 = 0 ∧ (objSize i ≤ pageSize ↔ pageSize / objSize i * objSize i = pageSize) ∧
      (pageSize < objSize i → pageSize / objSize i = 0) := by
  have hall : ∀ j < slabSizes.length, 0 < objSize j ∧ objSize j % 8 = 0 ∧
      (objSize j ≤ pageSize ↔ pageSize / objSize j * objSize j = pageSize) ∧
      (pageSize < objSize j → pageSize / objSize j = 0) := by decide
  exact hall i hi

/-! ## Slots of pages

Thirteen sizes, from 8 to 32768, each a power of two. A page is cut from its beginning, so slots are aligned to their
size.
-/

/-- `a` is the place of an object of the cache `i` in one of the pages mapped for it. -/
def Slot (pages : List (Nat × Nat)) (a i : Nat) : Prop :=
  ∃ p, (p, i) ∈ pages ∧ ∃ k < pageSize / objSize i, a = p + k * objSize i

/-- The pages in the order they were mapped, the last one first: they follow one another from the first slab address. -/
structure PagesPlaced (pages : List (Nat × Nat)) : Prop where
  place : ∀ p ∈ pages, ∃ k < pages.length, p.1 = heapVirtBase + heapInitSize + k * pageSize
  owner : ∀ p ∈ pages, ∀ q ∈ pages, p.1 = q.1 → p = q

namespace Slot

variable {pages : List (Nat × Nat)} {a b i j : Nat}

theorem mono {p : Nat × Nat} (h : Slot pages a i) : Slot (p :: pages) a i := by
  obtain ⟨q, hq, hk⟩ := h
  exact ⟨q, List.mem_cons_of_mem _ hq, hk⟩

/-- A slot ends within the page. -/
theorem end_le {k : Nat} (hk : k < pageSize / objSize i) : k * objSize i + objSize i ≤ pageSize := by
  rw [← Nat.succ_mul]
  exact Nat.le_trans (Nat.mul_le_mul_right _ hk) (Nat.div_mul_le_self _ _)

/-- Two slots of one page. -/
theorem mul_apart {k k' n : Nat} (hne : k ≠ k') : k * n + n ≤ k' * n ∨ k' * n + n ≤ k * n := by
  rw [← Nat.succ_mul, ← Nat.succ_mul]
  exact (Nat.lt_or_gt_of_ne hne).imp (Nat.mul_le_mul_right n) (Nat.mul_le_mul_right n)

theorem aligned (hpages : PagesPlaced pages) (hi : i < slabSizes.length) (h : Slot pages a i) :
    a % 8 = 0 ∧ 0 < a := by
  obtain ⟨p, hp, k, -, rfl⟩ := h
  obtain ⟨n, -, hplace⟩ := hpages.place _ hp
  have hsize := (objSize_cases hi).2.1
  have hobj : k * objSize i % 8 = 0 := by rw [Nat.mul_mod, hsize, Nat.mul_zero, Nat.zero_mod]
  simp only at hplace
  unfold heapVirtBase heapInitSize pageSize at hplace
  omega

/-- **Two objects are apart.** -/
theorem apart (hpages : PagesPlaced pages) (ha : Slot pages a i) (hb : Slot pages b j) (hne : (a, i) ≠ (b, j)) :
    a + objSize i ≤ b ∨ b + objSize j ≤ a := by
  obtain ⟨p, hp, k, hk, rfl⟩ := ha
  obtain ⟨q, hq, k', hk', rfl⟩ := hb
  by_cases hpq : p = q
  · -- slots of one page, which has one cache
    subst hpq
    obtain rfl : i = j := congrArg Prod.snd (hpages.owner _ hp _ hq rfl)
    have hslots := mul_apart (n := objSize i) (show k ≠ k' from fun heq => hne (by rw [heq]))
    omega
  · have hend := end_le hk
    have hend' := end_le hk'
    obtain ⟨n, -, hn⟩ := hpages.place _ hp
    obtain ⟨n', -, hn'⟩ := hpages.place _ hq
    simp only at hn hn'
    unfold pageSize at *
    omega

/-- An object and the words of another. -/
theorem not_within (hpages : PagesPlaced pages) (ha : Slot pages a i) (hb : Slot pages b j)
    (hj : j < slabSizes.length) (hne : (a, i) ≠ (b, j)) {w : Nat} (hw : a ≤ w) (hlt : w < a + objSize i) : b ≠ w := by
  have hsize := (objSize_cases hj).1
  have happart := ha.apart hpages hb hne
  omega

end Slot

/-! ## Growing a cache

The loop pushes the objects of the new page one after the other, so the last one comes first.
-/

namespace Heap

variable {h h₁ : Heap} {i : Nat}

/-- **The objects of a new page** go onto the list, the last one first. -/
theorem carve_chain {virt size : Nat} {l : List Nat} {mf : Words × Nat} (hvirt : 0 < virt) (hsize : 0 < size) :
    ∀ n, Chain mf.1 mf.2 l → (∀ b ∈ l, b < virt ∨ virt + n * size ≤ b) →
      Chain (carve virt size n mf).1 (carve virt size n mf).2
        ((List.range n).reverse.map (fun k => virt + k * size) ++ l)
  | 0,     hl, _    => hl
  | n + 1, hl, hoff => by
    rw [Nat.succ_mul] at hoff
    have ih := carve_chain hvirt hsize n hl fun b hb => by
      have := hoff b hb
      omega
    rw [carve_succ, List.range_succ, List.reverse_append, List.reverse_singleton, List.singleton_append, List.map_cons,
      List.cons_append]
    refine ⟨rfl, by omega, ?_⟩
    simp only [Function.update_self]
    refine ih.congr fun b hb => Function.update_of_ne ?_ _ _
    rcases List.mem_append.mp hb with hb | hb
    · obtain ⟨k, hk, rfl⟩ := List.mem_map.mp hb
      have hlt := List.mem_range.mp (List.mem_reverse.mp hk)
      have hmul := Nat.mul_le_mul_right size hlt
      rw [Nat.succ_mul] at hmul
      omega
    · have := hoff b hb
      omega

/-- The objects a page of the cache `i` at `virt` is cut into. -/
def cut (virt i : Nat) : List Nat := (List.range (pageSize / objSize i)).reverse.map fun k => virt + k * objSize i

theorem mem_cut {virt a : Nat} : a ∈ cut virt i ↔ ∃ k < pageSize / objSize i, a = virt + k * objSize i := by
  unfold cut
  rw [List.mem_map]
  constructor
  · rintro ⟨k, hk, rfl⟩
    exact ⟨k, List.mem_range.mp (List.mem_reverse.mp hk), rfl⟩
  · rintro ⟨k, hk, rfl⟩
    exact ⟨k, List.mem_reverse.mpr (List.mem_range.mpr hk), rfl⟩

@[simp] theorem cut_length (virt : Nat) : (cut virt i).length = pageSize / objSize i := by
  unfold cut
  rw [List.length_map, List.length_reverse, List.length_range]

theorem cut_nodup (virt : Nat) (hpos : 0 < objSize i) : (cut virt i).Nodup := by
  refine List.Nodup.map (fun k k' heq => ?_) (List.nodup_reverse.mpr List.nodup_range)
  exact Nat.eq_of_mul_eq_mul_right hpos (Nat.add_left_cancel heq)

/-- The page that `slab_cache_grow` cuts up lies above the bottom of the heap. -/
theorem slabNext_pos : 0 < h.slabNext := by
  unfold slabNext
  split
  · decide
  · omega

theorem slabCacheGrow_eq (havail : h.avail ≠ 0) :
    h.slabCacheGrow i =
      let mf := carve h.slabNext (objSize i) (pageSize / objSize i)
        (h.mem.mapZeroed h.slabNext (h.slabNext + pageSize), (h.caches i).freeList)
      { h with
        mem := mf.1
        caches := Function.update h.caches i
          ⟨mf.2, (h.caches i).total + pageSize / objSize i, (h.caches i).used⟩
        slabVirt := h.slabNext + pageSize
        avail := h.avail - 1 } := by
  rw [slabCacheGrow, if_neg havail]
  rfl

/-- The heap once a cache without an object has had its chance to grow. -/
def ready (h : Heap) (i : Nat) : Heap := if (h.caches i).freeList = 0 then h.slabCacheGrow i else h

theorem slabAlloc_eq :
    h.slabAlloc i = if ((h.ready i).caches i).freeList = 0 then (0, h.ready i) else
      (((h.ready i).caches i).freeList, { h.ready i with
        caches := Function.update (h.ready i).caches i
          ⟨(h.ready i).mem ((h.ready i).caches i).freeList, ((h.ready i).caches i).total,
            ((h.ready i).caches i).used + 1⟩ }) := rfl

/-- **The caches after `slab_cache_grow`.** -/
theorem slabCacheGrow_caches (havail : h.avail ≠ 0) {l : List Nat} (hi : i < slabSizes.length)
    (hl : Chain h.mem (h.caches i).freeList l) (hoff : ∀ b ∈ l, b < h.slabNext ∨ h.slabNext + pageSize ≤ b) :
    ((h.slabCacheGrow i).caches i).total = (h.caches i).total + pageSize / objSize i ∧
      ((h.slabCacheGrow i).caches i).used = (h.caches i).used ∧
      Chain (h.slabCacheGrow i).mem ((h.slabCacheGrow i).caches i).freeList (cut h.slabNext i ++ l) ∧
      ∀ j, j ≠ i → (h.slabCacheGrow i).caches j = h.caches j := by
  have hend : pageSize / objSize i * objSize i ≤ pageSize := Nat.div_mul_le_self _ _
  have hzero : Chain (h.mem.mapZeroed h.slabNext (h.slabNext + pageSize)) (h.caches i).freeList l :=
    hl.congr fun b hb => Words.mapZeroed_of_out (hoff b hb)
  have hcarve := @carve_chain h.slabNext (objSize i) l
    (h.mem.mapZeroed h.slabNext (h.slabNext + pageSize), (h.caches i).freeList) h.slabNext_pos (objSize_cases hi).1
    (pageSize / objSize i) hzero fun b hb => by
      have := hoff b hb
      omega
  rw [slabCacheGrow_eq havail]
  simp only [Function.update_self, true_and]
  exact ⟨hcarve, fun j hj => Function.update_of_ne hj _ _⟩

end Heap

/-! ## Runs on the caches alone

The state has the pages that were mapped and the live objects with their caches. A store may hit any word of a live
object, its first one included.
-/

/-- The heap, with the pages `slab_cache_grow` has mapped and the objects not freed since, each with its cache. -/
structure SlabSys where
  heap  : Heap
  pages : List (Nat × Nat)
  live  : List (Nat × Nat)

/-- A step of the run: on a cache, a store, or a change of the pages that can be had. -/
inductive SlabOp where
  | slabAlloc (i : Nat)
  | slabFree (i ptr : Nat)
  | store (i ptr addr v : Nat)
  | storeElsewhere (addr v : Nat)
  | frames (n : Nat)

/-- **One step.** `slab_alloc` on any cache, `slab_free` of a live object to the cache it came from, a store by the owner
    of an object into the word of `addr`, a store off the slab pages, or a change of the number of pages that can be
    had. -/
def slabStep (sys : SlabSys) : SlabOp → Option SlabSys
  | .slabAlloc i =>
      if i < slabSizes.length then
        let (obj, h) := sys.heap.slabAlloc i
        some ⟨h, if h.slabVirt = sys.heap.slabVirt then sys.pages else (h.slabVirt - pageSize, i) :: sys.pages,
          if obj = 0 then sys.live else (obj, i) :: sys.live⟩
      else none
  | .slabFree i ptr =>
      if (ptr, i) ∈ sys.live then some ⟨sys.heap.slabFree i ptr, sys.pages, sys.live.erase (ptr, i)⟩ else none
  | .store i ptr addr v =>
      if (ptr, i) ∈ sys.live ∧ ptr ≤ addr ∧ addr < ptr + objSize i then
        some { sys with heap := { sys.heap with mem := Function.update sys.heap.mem (addr / 8 * 8) v } }
      else none
  | .storeElsewhere addr v =>
      if ∀ p ∈ sys.pages, addr < p.1 ∨ p.1 + pageSize ≤ addr then
        some { sys with heap := { sys.heap with mem := Function.update sys.heap.mem (addr / 8 * 8) v } }
      else none
  | .frames n =>
      if sys.pages.length + n ≤ pmmMaxPages then some { sys with heap := { sys.heap with avail := n } } else none

/-- The object at `a` is on the free list of the cache `i`. -/
def SlabSys.Free (sys : SlabSys) (a i : Nat) : Prop :=
  i < slabSizes.length ∧ Visits sys.heap.mem (sys.heap.caches i).freeList a

/-- **The caches are in order.** Each free list ends and has `total - used` objects, all distinct; a live object is of one
    of the caches and is not on its list; all objects, live and free, lie in mapped pages, and any two of them apart. -/
structure SlabsInOrder (sys : SlabSys) : Prop where
  lists  : ∀ i < slabSizes.length, (sys.heap.caches i).used ≤ (sys.heap.caches i).total ∧
             ∃ l, Chain sys.heap.mem (sys.heap.caches i).freeList l ∧ l.Nodup ∧
               l.length = (sys.heap.caches i).total - (sys.heap.caches i).used
  live   : sys.live.Nodup ∧ ∀ o ∈ sys.live, o.2 < slabSizes.length ∧ ¬ sys.Free o.1 o.2
  inside : ∀ a i, sys.Free a i ∨ (a, i) ∈ sys.live →
             ∃ p, (p, i) ∈ sys.pages ∧ p ≤ a ∧ a + objSize i ≤ p + pageSize ∧ p + pageSize ≤ 2 ^ 64
  apart  : ∀ a i b j, sys.Free a i ∨ (a, i) ∈ sys.live → sys.Free b j ∨ (b, j) ∈ sys.live → (a, i) ≠ (b, j) →
             a + objSize i ≤ b ∨ b + objSize j ≤ a

/-! ## The invariant

Each free list is a chain of slots, none of them live; what is live is a slot of its cache.
-/

/-- The invariant, for the free lists `fl`. -/
structure SlabInv (sys : SlabSys) (fl : Nat → List Nat) : Prop where
  next   : sys.heap.slabNext = heapVirtBase + heapInitSize + sys.pages.length * pageSize
  placed : PagesPlaced sys.pages
  room   : sys.pages.length + sys.heap.avail ≤ pmmMaxPages
  chain  : ∀ i < slabSizes.length, Chain sys.heap.mem (sys.heap.caches i).freeList (fl i)
  count  : ∀ i < slabSizes.length, (sys.heap.caches i).total = (sys.heap.caches i).used + (fl i).length
  used   : ∀ i < slabSizes.length, (sys.heap.caches i).used = sys.live.countP fun o => o.2 = i
  slot   : ∀ i < slabSizes.length, ∀ a, a ∈ fl i ∨ (a, i) ∈ sys.live → Slot sys.pages a i
  known  : ∀ o ∈ sys.live, o.2 < slabSizes.length
  once   : sys.live.Nodup ∧ ∀ i < slabSizes.length, (fl i).Nodup ∧ ∀ a ∈ fl i, (a, i) ∉ sys.live

namespace SlabInv

variable {sys : SlabSys} {h : Heap} {pages live : List (Nat × Nat)} {fl : Nat → List Nat} {i a : Nat} {rest : List Nat}

/-- **The invariant gives the property.** -/
theorem inOrder (hi : SlabInv sys fl) : SlabsInOrder sys := by
  have hfree : ∀ {a i}, sys.Free a i ↔ i < slabSizes.length ∧ a ∈ fl i := by
    intro a i
    refine and_congr_right fun hlt => (hi.chain i hlt).visits_iff
  have hslot : ∀ {a i}, sys.Free a i ∨ (a, i) ∈ sys.live → Slot sys.pages a i := by
    rintro a i (hf | hl)
    · obtain ⟨hlt, ha⟩ := hfree.mp hf
      exact hi.slot i hlt a (.inl ha)
    · exact hi.slot i (hi.known _ hl) a (.inr hl)
  refine ⟨fun i hlt => ?_, ⟨hi.once.1, fun o ho => ⟨hi.known o ho, fun hf => ?_⟩⟩, fun a i ho => ?_,
    fun a i b j ha hb hne => (hslot ha).apart hi.placed (hslot hb) hne⟩
  · have hcount := hi.count i hlt
    exact ⟨by omega, fl i, hi.chain i hlt, (hi.once.2 i hlt).1, by omega⟩
  · obtain ⟨hlt, ha⟩ := hfree.mp hf
    exact (hi.once.2 o.2 hlt).2 o.1 ha ho
  · obtain ⟨p, hp, k, hk, rfl⟩ := hslot ho
    have hend := Slot.end_le hk
    obtain ⟨n, hn, hplace⟩ := hi.placed.place _ hp
    have hroom := hi.room
    refine ⟨p, hp, Nat.le_add_right _ _, by omega, ?_⟩
    simp only at hplace
    unfold pmmMaxPages at hroom
    unfold heapVirtBase heapInitSize at hplace
    unfold pageSize at *
    omega

/-- A store that changes no link of a free object keeps the invariant. -/
theorem store {m : Words} (hi : SlabInv sys fl) (hm : ∀ i < slabSizes.length, ∀ b ∈ fl i, m b = sys.heap.mem b) :
    SlabInv { sys with heap := { sys.heap with mem := m } } fl :=
  { hi with chain := fun i hlt => (hi.chain i hlt).congr (hm i hlt) }

/-- Every object lies below the next slab page. -/
theorem below (hi : SlabInv sys fl) (hlt : i < slabSizes.length) (ha : a ∈ fl i ∨ (a, i) ∈ sys.live) :
    a < sys.heap.slabNext := by
  obtain ⟨p, hp, k, hk, rfl⟩ := hi.slot i hlt a ha
  have hend := Slot.end_le hk
  have hpos := (objSize_cases hlt).1
  obtain ⟨n, hn, hplace⟩ := hi.placed.place _ hp
  rw [hi.next]
  simp only at hplace
  unfold pageSize at *
  omega

/-! ## Growing, taking and giving back

A page adds slots that are on no list, an allocation takes the first of a list, and a free puts a live object in
front.
-/

/-- A page more for the cache `i`. -/
theorem grow (hi : SlabInv ⟨h, pages, live⟩ fl) (hlt : i < slabSizes.length) (havail : h.avail ≠ 0) :
    SlabInv ⟨h.slabCacheGrow i, (h.slabNext, i) :: pages, live⟩
      (Function.update fl i (Heap.cut h.slabNext i ++ fl i)) := by
  obtain ⟨htotal, hused, hchain, hothers⟩ := Heap.slabCacheGrow_caches havail hlt (hi.chain i hlt)
    fun b hb => .inl (hi.below hlt (.inl hb))
  obtain ⟨-, -, -, hvirt, havail', hmem, -⟩ := Heap.slabCacheGrow_spec havail (objSize_cases hlt).1 rfl
  have hnext := hi.next
  have hroom := hi.room
  have hpos := h.slabNext_pos
  have hcut : ∀ b ∈ Heap.cut h.slabNext i, h.slabNext ≤ b := by
    intro b hb
    obtain ⟨k, -, rfl⟩ := Heap.mem_cut.mp hb
    exact Nat.le_add_right _ _
  refine ⟨?_, ⟨fun p hp => ?_, fun p hp q hq hpq => ?_⟩, ?_, fun j hj => ?_, fun j hj => ?_, fun j hj => ?_,
    fun j hj b hb => ?_, hi.known, hi.once.1, fun j hj => ?_⟩
  · -- the pages follow each other without a gap
    show (h.slabCacheGrow i).slabNext = _
    unfold Heap.slabNext
    rw [hvirt, if_neg (by omega), List.length_cons, Nat.succ_mul]
    exact (congrArg (· + pageSize) hnext).trans (Nat.add_assoc _ _ _)
  · rcases List.mem_cons.mp hp with rfl | hp
    · exact ⟨pages.length, by simp, hnext⟩
    · obtain ⟨k, hk, hplace⟩ := hi.placed.place p hp
      exact ⟨k, Nat.lt_succ_of_lt hk, hplace⟩
  · -- the pages mapped before lie below the new one
    have hlow : ∀ q ∈ pages, q.1 ≠ h.slabNext := by
      intro q hq
      obtain ⟨k, hk, hplace⟩ := hi.placed.place q hq
      simp only at hnext hk
      rw [hplace, hnext]
      unfold pageSize
      omega
    rcases List.mem_cons.mp hp with rfl | hp
    · rcases List.mem_cons.mp hq with rfl | hq
      · rfl
      · exact absurd hpq.symm (hlow q hq)
    · rcases List.mem_cons.mp hq with rfl | hq
      · exact absurd hpq (hlow p hp)
      · exact hi.placed.owner p hp q hq hpq
  · show (pages.length + 1) + (h.slabCacheGrow i).avail ≤ pmmMaxPages
    simp only at hroom
    omega
  · -- the list of the cache that grew begins with the objects of the new page
    rcases eq_or_ne j i with rfl | hne
    · rw [Function.update_self]
      exact hchain
    · rw [Function.update_of_ne hne]
      show Chain (h.slabCacheGrow i).mem ((h.slabCacheGrow i).caches j).freeList (fl j)
      rw [hothers j hne]
      exact (hi.chain j hj).congr fun b hb => hmem b (.inl (hi.below hj (.inl hb)))
  · have hcount := hi.count j hj
    show ((h.slabCacheGrow i).caches j).total = ((h.slabCacheGrow i).caches j).used + _
    rcases eq_or_ne j i with rfl | hne
    · rw [Function.update_self, htotal, hused, List.length_append, Heap.cut_length]
      simp only at hcount
      omega
    · rw [Function.update_of_ne hne, hothers j hne]
      exact hcount
  · show ((h.slabCacheGrow i).caches j).used = _
    rcases eq_or_ne j i with rfl | hne
    · exact hused.trans (hi.used j hj)
    · rw [hothers j hne]
      exact hi.used j hj
  · -- an object is a slot of a page it was cut from, or of the new one
    have hold : b ∈ fl j ∨ (b, j) ∈ live → Slot ((h.slabNext, i) :: pages) b j := fun hb => (hi.slot j hj b hb).mono
    rcases hb with hb | hb
    · rcases eq_or_ne j i with rfl | hne
      · rw [Function.update_self] at hb
        rcases List.mem_append.mp hb with hb | hb
        · exact ⟨h.slabNext, List.mem_cons_self, Heap.mem_cut.mp hb⟩
        · exact hold (.inl hb)
      · rw [Function.update_of_ne hne] at hb
        exact hold (.inl hb)
    · exact hold (.inr hb)
  · -- an object of the new page lies above all that is listed or live
    obtain ⟨hnd, hnot⟩ := hi.once.2 j hj
    rcases eq_or_ne j i with rfl | hne
    · rw [Function.update_self]
      refine ⟨List.nodup_append.mpr ⟨Heap.cut_nodup _ (objSize_cases hj).1, hnd, ?_⟩, fun b hb hl => ?_⟩
      · rintro b hb c hc rfl
        exact absurd (hi.below hj (.inl hc)) (Nat.not_lt.mpr (hcut b hb))
      · rcases List.mem_append.mp hb with hb | hb
        · exact absurd (hi.below hj (.inr hl)) (Nat.not_lt.mpr (hcut b hb))
        · exact hnot b hb hl
    · rw [Function.update_of_ne hne]
      exact ⟨hnd, hnot⟩

/-- The first object of a list is handed out. -/
theorem take (hi : SlabInv ⟨h, pages, live⟩ fl) (hlt : i < slabSizes.length) (hfl : fl i = a :: rest) :
    SlabInv ⟨{ h with caches := Function.update h.caches i ⟨h.mem a, (h.caches i).total, (h.caches i).used + 1⟩ },
      pages, (a, i) :: live⟩ (Function.update fl i rest) := by
  have hchain := hi.chain i hlt
  have hcount := hi.count i hlt
  obtain ⟨hnd, hnot⟩ := hi.once.2 i hlt
  rw [hfl] at hchain hcount hnd hnot
  refine ⟨hi.next, hi.placed, hi.room, fun j hj => ?_, fun j hj => ?_, fun j hj => ?_, fun j hj b hb => ?_,
    fun o ho => ?_, List.nodup_cons.mpr ⟨hnot a List.mem_cons_self, hi.once.1⟩, fun j hj => ?_⟩
  · simp only
    -- the list goes on at what the first word of the object said, and the words stay
    rcases eq_or_ne j i with rfl | hne
    · rw [Function.update_self, Function.update_self]
      exact hchain.2.2
    · rw [Function.update_of_ne hne, Function.update_of_ne hne]
      exact hi.chain j hj
  · simp only
    rcases eq_or_ne j i with rfl | hne
    · rw [Function.update_self, Function.update_self]
      simp only [List.length_cons] at hcount
      simp only
      omega
    · rw [Function.update_of_ne hne, Function.update_of_ne hne]
      exact hi.count j hj
  · have hused := hi.used j hj
    simp only at hused ⊢
    rcases eq_or_ne j i with rfl | hne
    · rw [Function.update_self, List.countP_cons_of_pos (by simp), hused]
    · rw [Function.update_of_ne hne, List.countP_cons_of_neg (by simpa using hne.symm), hused]
  · refine hi.slot j hj b ?_
    -- what is live now was on the list before, so it is a slot
    rcases hb with hb | hb
    · rcases eq_or_ne j i with rfl | hne
      · rw [Function.update_self] at hb
        rw [hfl]
        exact .inl (List.mem_cons_of_mem _ hb)
      · rw [Function.update_of_ne hne] at hb
        exact .inl hb
    · rcases List.mem_cons.mp hb with heq | hb
      · obtain ⟨rfl, rfl⟩ := Prod.mk.inj heq
        rw [hfl]
        exact .inl List.mem_cons_self
      · exact .inr hb
  · rcases List.mem_cons.mp ho with rfl | ho
    · exact hlt
    · exact hi.known o ho
  · rcases eq_or_ne j i with rfl | hne
    · rw [Function.update_self]
      obtain ⟨ha, hrest⟩ := List.nodup_cons.mp hnd
      refine ⟨hrest, fun b hb hl => ?_⟩
      rcases List.mem_cons.mp hl with heq | hl
      · obtain ⟨rfl, -⟩ := Prod.mk.inj heq
        exact ha hb
      · exact hnot b (List.mem_cons_of_mem _ hb) hl
    · rw [Function.update_of_ne hne]
      refine ⟨(hi.once.2 j hj).1, fun b hb hl => ?_⟩
      rcases List.mem_cons.mp hl with heq | hl
      · exact hne (Prod.mk.inj heq).2
      · exact (hi.once.2 j hj).2 b hb hl

/-- A live object is put back. -/
theorem give (hi : SlabInv ⟨h, pages, live⟩ fl) (hlive : (a, i) ∈ live) :
    SlabInv ⟨h.slabFree i a, pages, live.erase (a, i)⟩ (Function.update fl i (a :: fl i)) := by
  have hlt := hi.known _ hlive
  have hslot := hi.slot i hlt a (.inr hlive)
  have hpos := (hslot.aligned hi.placed hlt).2
  have hone : 1 ≤ live.countP fun o => o.2 = i := List.countP_pos_iff.mpr ⟨_, hlive, by simp⟩
  -- it is on no list: not on its own, and slots of other caches lie elsewhere
  have hnotFree : ∀ j < slabSizes.length, a ∉ fl j := by
    intro j hj ha
    rcases eq_or_ne i j with rfl | hne
    · exact (hi.once.2 i hj).2 a ha hlive
    · exact hslot.not_within hi.placed (hi.slot j hj a (.inl ha)) hj (fun he => hne (Prod.mk.inj he).2)
        (Nat.le_refl a) (Nat.lt_add_of_pos_right (objSize_cases hlt).1) rfl
  have hchain : ∀ j < slabSizes.length,
      Chain (Function.update h.mem a (h.caches i).freeList) (h.caches j).freeList (fl j) := by
    intro j hj
    refine (hi.chain j hj).congr fun b hb => Function.update_of_ne ?_ _ _
    rintro rfl
    exact hnotFree j hj hb
  refine ⟨hi.next, hi.placed, hi.room, fun j hj => ?_, fun j hj => ?_, fun j hj => ?_, fun j hj b hb => ?_,
    fun o ho => hi.known o (List.mem_of_mem_erase ho), hi.once.1.erase _, fun j hj => ?_⟩
  · -- the link to the rest of the list is written into the object itself
    simp only [Heap.slabFree]
    rcases eq_or_ne j i with rfl | hne
    · rw [Function.update_self, Function.update_self]
      refine ⟨rfl, Nat.ne_of_gt hpos, ?_⟩
      rw [Function.update_self]
      exact hchain j hj
    · rw [Function.update_of_ne hne, Function.update_of_ne hne]
      exact hchain j hj
  · have hcount := hi.count j hj
    have hused := hi.used j hj
    simp only [Heap.slabFree] at hcount hused ⊢
    rcases eq_or_ne j i with rfl | hne
    · rw [Function.update_self, Function.update_self, List.length_cons]
      simp only
      omega
    · rw [Function.update_of_ne hne, Function.update_of_ne hne]
      exact hcount
  · -- one object less is live
    have hused := hi.used j hj
    have hperm := (List.perm_cons_erase hlive).countP_eq fun o => o.2 = j
    simp only [Heap.slabFree] at hused ⊢
    rcases eq_or_ne j i with rfl | hne
    · rw [List.countP_cons_of_pos (by simp)] at hperm
      rw [Function.update_self]
      simp only
      omega
    · rw [List.countP_cons_of_neg (by simpa using hne.symm)] at hperm
      rw [Function.update_of_ne hne, hused, hperm]
  · refine hi.slot j hj b ?_
    rcases hb with hb | hb
    · rcases eq_or_ne j i with rfl | hne
      · rw [Function.update_self] at hb
        rcases List.mem_cons.mp hb with rfl | hb
        · exact .inr hlive
        · exact .inl hb
      · rw [Function.update_of_ne hne] at hb
        exact .inl hb
    · exact .inr (List.mem_of_mem_erase hb)
  · -- it was not free before, and is not live any more
    obtain ⟨hnd, hnot⟩ := hi.once.2 j hj
    rcases eq_or_ne j i with rfl | hne
    · rw [Function.update_self]
      refine ⟨List.nodup_cons.mpr ⟨hnotFree j hj, hnd⟩, fun b hb hl => ?_⟩
      rcases List.mem_cons.mp hb with rfl | hb
      · exact hi.once.1.not_mem_erase hl
      · exact hnot b hb (List.mem_of_mem_erase hl)
    · rw [Function.update_of_ne hne]
      exact ⟨hnd, fun b hb hl => hnot b hb (List.mem_of_mem_erase hl)⟩

end SlabInv

/-- The page that `slab_cache_grow` maps, where it gets one. -/
theorem SlabInv.tryGrow {sys : SlabSys} {fl : Nat → List Nat} {i : Nat} (hi : SlabInv sys fl)
    (hlt : i < slabSizes.length) :
    ∃ fl', SlabInv ⟨sys.heap.slabCacheGrow i, if (sys.heap.slabCacheGrow i).slabVirt = sys.heap.slabVirt then sys.pages
      else ((sys.heap.slabCacheGrow i).slabVirt - pageSize, i) :: sys.pages, sys.live⟩ fl' := by
  by_cases havail : sys.heap.avail = 0
  · have hsame : sys.heap.slabCacheGrow i = sys.heap := by rw [Heap.slabCacheGrow, if_pos havail]
    rw [hsame, if_pos rfl]
    exact ⟨fl, hi⟩
  · obtain ⟨-, -, -, hvirt, -⟩ := Heap.slabCacheGrow_spec havail (objSize_cases hlt).1 rfl
    have hmoved : (sys.heap.slabCacheGrow i).slabVirt ≠ sys.heap.slabVirt := by
      rw [hvirt]
      unfold Heap.slabNext pageSize
      split
      · omega
      · omega
    rw [if_neg hmoved, hvirt, Nat.add_sub_cancel]
    exact ⟨_, hi.grow hlt havail⟩

/-- **One step keeps the invariant.** -/
theorem SlabInv.step {sys sys' : SlabSys} {op : SlabOp} (hi : ∃ fl, SlabInv sys fl)
    (hs : slabStep sys op = some sys') : ∃ fl, SlabInv sys' fl := by
  obtain ⟨fl, hi⟩ := hi
  unfold slabStep at hs
  cases op with
  | slabAlloc i =>
      simp only at hs
      split at hs
      case isFalse => cases hs
      case isTrue hlt =>
      obtain rfl := Option.some.inj hs
      -- a cache that has no object may get some
      obtain ⟨h, hh⟩ : ∃ h, h = sys.heap.ready i := ⟨_, rfl⟩
      obtain ⟨fl₁, h₁⟩ : ∃ fl₁, SlabInv ⟨h, if h.slabVirt = sys.heap.slabVirt then sys.pages
          else (h.slabVirt - pageSize, i) :: sys.pages, sys.live⟩ fl₁ := by
        rw [hh, Heap.ready]
        split
        · exact hi.tryGrow hlt
        · rw [if_pos rfl]
          exact ⟨fl, hi⟩
      have hchain := h₁.chain i hlt
      rw [Heap.slabAlloc_eq, ← hh]
      cases hfl : fl₁ i with
      | nil =>
          rw [hfl] at hchain
          have hnull : (h.caches i).freeList = 0 := hchain
          rw [if_pos hnull]
          exact ⟨fl₁, h₁⟩
      | cons a rest =>
          rw [hfl] at hchain
          obtain ⟨hhead, hne, -⟩ := hchain
          simp only at hhead
          rw [hhead, if_neg hne]
          simp only [if_neg hne]
          exact ⟨_, h₁.take hlt hfl⟩
  | slabFree i ptr =>
      simp only at hs
      split at hs
      case isFalse => cases hs
      case isTrue hlive =>
      obtain rfl := Option.some.inj hs
      exact ⟨_, hi.give hlive⟩
  | store i ptr addr v =>
      simp only at hs
      split at hs
      case isFalse => cases hs
      case isTrue hown =>
      obtain rfl := Option.some.inj hs
      obtain ⟨hlive, hge, hlt⟩ := hown
      have hi' := hi.known _ hlive
      have hslot := hi.slot i hi' ptr (.inr hlive)
      have halign := (hslot.aligned hi.placed hi').1
      refine ⟨fl, hi.store fun j hj b hb => Function.update_of_ne ?_ _ _⟩
      refine hslot.not_within hi.placed (hi.slot j hj b (.inl hb)) hj ?_ (by omega) (by omega)
      intro heq
      obtain ⟨rfl, rfl⟩ := Prod.mk.inj heq
      exact (hi.once.2 i hj).2 ptr hb hlive
  | storeElsewhere addr v =>
      simp only at hs
      split at hs
      case isFalse => cases hs
      case isTrue hoff =>
      obtain rfl := Option.some.inj hs
      refine ⟨fl, hi.store fun j hj b hb => Function.update_of_ne ?_ _ _⟩
      obtain ⟨p, hp, k, hk, rfl⟩ := hi.slot j hj b (.inl hb)
      obtain ⟨n, -, hplace⟩ := hi.placed.place _ hp
      have hout := hoff _ hp
      have hend := Slot.end_le hk
      have hpos := (objSize_cases hj).1
      simp only at hplace hout
      unfold heapVirtBase heapInitSize at hplace
      unfold pageSize at *
      omega
  | frames n =>
      simp only at hs
      split at hs
      case isFalse => cases hs
      case isTrue hroom =>
      obtain rfl := Option.some.inj hs
      exact ⟨fl, { hi with room := hroom }⟩

/-- Mapping pages at the end of the heap leaves the caches alone. -/
theorem Heap.mapPages_caches : ∀ (n : Nat) (h : Heap),
    (mapPages n h).2.caches = h.caches ∧ (mapPages n h).2.slabVirt = h.slabVirt ∧ (mapPages n h).2.avail ≤ h.avail
  | 0,     _ => ⟨rfl, rfl, Nat.le_refl _⟩
  | n + 1, h => by
    unfold mapPages
    split
    · exact ⟨rfl, rfl, Nat.le_refl _⟩
    · obtain ⟨h1, h2, h3⟩ :=
        mapPages_caches n { h with heapEnd := (h.heapEnd + pageSize) % 2 ^ 64, avail := h.avail - 1 }
      exact ⟨h1, h2, Nat.le_trans h3 (Nat.sub_le _ _)⟩

/-- `heap_init` leaves the caches empty. -/
theorem heapInit_caches {mem : Words} {avail : Nat} {h₀ : Heap} (h : Heap.heapInit mem avail = some h₀) :
    h₀.caches = (fun _ => ⟨0, 0, 0⟩) ∧ h₀.slabVirt = 0 ∧ h₀.avail ≤ avail := by
  simp only [Heap.heapInit] at h
  split at h
  · cases h
  · obtain rfl := Option.some.inj h
    exact Heap.mapPages_caches _ _

/-- **The slab caches stay in order** in every run of `slab_alloc` and `slab_free`, whichever pages can be had, with any
    stores through live objects and off the slab pages. -/
theorem slab_objects_apart (mem : Words) (avail : Nat) (h₀ : Heap) (ops : List SlabOp) (sys : SlabSys)
    (havail : avail ≤ pmmMaxPages) (hinit : Heap.heapInit mem avail = some h₀)
    (hrun : Run (Graph slabStep) ⟨h₀, [], []⟩ ops sys) : SlabsInOrder sys := by
  obtain ⟨hcaches, hvirt, hle⟩ := heapInit_caches hinit
  have hstart : SlabInv ⟨h₀, [], []⟩ fun _ => [] := by
    refine ⟨?_, ⟨nofun, nofun⟩, ?_, fun i _ => ?_, fun i _ => ?_, fun i _ => ?_, fun i _ a ha => ?_, nofun,
      List.nodup_nil, fun i _ => ⟨List.nodup_nil, nofun⟩⟩
    · show h₀.slabNext = heapVirtBase + heapInitSize + 0 * pageSize
      unfold Heap.slabNext
      rw [if_pos hvirt, Nat.zero_mul, Nat.add_zero]
    · show 0 + h₀.avail ≤ pmmMaxPages
      omega
    · show (h₀.caches i).freeList = 0
      rw [hcaches]
    · show (h₀.caches i).total = (h₀.caches i).used + 0
      rw [hcaches]
    · show (h₀.caches i).used = 0
      rw [hcaches]
    · exact absurd ha (by simp)
  obtain ⟨fl, hi⟩ := hrun.invariant (fun s => ∃ fl, SlabInv s fl) ⟨_, hstart⟩ fun s op t => SlabInv.step
  exact hi.inOrder

/-- An object of 8 bytes is handed out, written and put back, with one of 64 bytes live. -/
theorem slab_objects_apart_small :
    ∃ h₀ sys, Heap.heapInit (fun _ => 0) 2048 = some h₀ ∧
      Run (Graph slabStep) ⟨h₀, [], []⟩
        [.slabAlloc 0, .slabAlloc 3, .store 0 (heapVirtBase + heapInitSize + 4088) (heapVirtBase + heapInitSize + 4088) 7,
          .slabFree 0 (heapVirtBase + heapInitSize + 4088)] sys ∧
      sys.live = [(heapVirtBase + heapInitSize + 8128, 3)] ∧ SlabsInOrder sys := by
  obtain ⟨h₀, hh₀⟩ : ∃ h₀, h₀ = freshHeap := ⟨_, rfl⟩
  have hinit : Heap.heapInit (fun _ => 0) 2048 = some h₀ := hh₀ ▸ freshHeap_init
  have hsome : ([SlabOp.slabAlloc 0, .slabAlloc 3,
      .store 0 (heapVirtBase + heapInitSize + 4088) (heapVirtBase + heapInitSize + 4088) 7,
      .slabFree 0 (heapVirtBase + heapInitSize + 4088)].foldlM slabStep ⟨h₀, [], []⟩).isSome := by
    rw [hh₀]; decide +kernel
  have hlive : (after slabStep ⟨h₀, [], []⟩ [SlabOp.slabAlloc 0, .slabAlloc 3,
      .store 0 (heapVirtBase + heapInitSize + 4088) (heapVirtBase + heapInitSize + 4088) 7,
      .slabFree 0 (heapVirtBase + heapInitSize + 4088)]).live = [(heapVirtBase + heapInitSize + 8128, 3)] := by
    rw [hh₀]; decide +kernel
  have hrun := Run.of_after hsome
  exact ⟨h₀, _, hinit, hrun, hlive, slab_objects_apart _ 2048 _ _ _ (by decide) hinit hrun⟩

/-! ## Frames in runs of `kmalloc`

Here `kfree` and any stores are steps, too; the counts of frames and objects do not depend on what is in memory.
-/

/-- The heap, with the number of frames `slab_cache_grow` has taken for each cache. -/
structure SlabFrames where
  heap   : Heap
  frames : Nat → Nat

/-- A step of the run over frames. -/
inductive FrameOp where
  | kmalloc (size : Nat)
  | kfree (ptr : Nat)
  | store (addr v : Nat)
  | frames (n : Nat)

/-- The frames after the attempt at the slab caches that a call of `kmalloc` makes: what is gone from those that could
    be had went to the cache of the rounded size. -/
def SlabFrames.taken (sys : SlabFrames) (size : Nat) : Nat → Nat :=
  let need := roundUp size heapAlign
  match Heap.slabFindCache need with
  | some i =>
      if size = 0 then sys.frames else
        Function.update sys.frames i (sys.frames i + (sys.heap.avail - (sys.heap.slabServe need).2.avail))
  | none => sys.frames

/-- **One step.** A call of `kmalloc` or `kfree`, a store to any word, or a change of the number of pages that can be
    had. -/
def frameStep (sys : SlabFrames) : FrameOp → Option SlabFrames
  | .kmalloc size => (sys.heap.kmalloc size).map fun (_, h) => ⟨h, sys.taken size⟩
  | .kfree ptr    => (sys.heap.kfree ptr).map fun h => { sys with heap := h }
  | .store addr v => some { sys with heap := { sys.heap with mem := Function.update sys.heap.mem (addr / 8 * 8) v } }
  | .frames n     => some { sys with heap := { sys.heap with avail := n } }

/-- **Every frame becomes objects**: the objects of each cache are as large together as the frames taken for it. -/
def FramesUsed (sys : SlabFrames) : Prop :=
  ∀ i < slabSizes.length, (sys.heap.caches i).total * objSize i = pageSize * sys.frames i

/-- No call asks for more than a page and at most the largest class while a frame can be had. -/
def FitsPage (sys : SlabFrames) : FrameOp → Prop
  | .kmalloc size =>
      ¬ (pageSize < roundUp size heapAlign ∧ roundUp size heapAlign ≤ 32768 ∧ sys.heap.avail ≠ 0)
  | _ => True

namespace Heap

variable {h h' : Heap} {size need fuel ptr i : Nat}

theorem growBy_caches {ok : Bool} {n : Nat} (hg : h.growBy n = some (ok, h')) : h'.caches = h.caches := by
  unfold growBy at hg
  have hkeep := (mapPages_caches n h).1
  simp only at hg
  split at hg
  · rw [← (Prod.mk.inj (Option.some.inj hg)).2]
    exact hkeep
  · split at hg
    · cases hg
    · rw [← (Prod.mk.inj (Option.some.inj hg)).2]
      exact hkeep

/-- The free-list heap leaves the caches alone. -/
theorem retry_caches (hr : retry need fuel h = some (ptr, h')) : h'.caches = h.caches := by
  induction fuel generalizing h with
  | zero => cases hr
  | succ fuel ih =>
      unfold retry at hr
      obtain ⟨best, -, hr⟩ := Option.bind_eq_some_iff.mp hr
      split at hr
      · obtain ⟨⟨ok, h₁⟩, hg, hr⟩ := Option.bind_eq_some_iff.mp hr
        have hkeep := growBy_caches hg
        cases ok with
        | false =>
            cases hr
            exact hkeep
        | true => exact (ih hr).trans hkeep
      · obtain ⟨m, free, rfl⟩ := takeBlock_keeps hr
        rfl

/-- What `kmalloc` does to the caches, the attempt at them does. -/
theorem kmalloc_caches (hsize : size ≠ 0) (hk : h.kmalloc size = some (ptr, h')) :
    h'.caches = (h.slabServe (roundUp size heapAlign)).2.caches := by
  unfold kmalloc at hk
  rw [if_neg hsize] at hk
  simp only at hk
  split at hk
  · rw [← (Prod.mk.inj (Option.some.inj hk)).2]
  · exact retry_caches hk

/-- The lists of the classes larger than a page are empty. -/
def LargeEmpty (h : Heap) : Prop := ∀ j < slabSizes.length, pageSize < objSize j → (h.caches j).freeList = 0

/-! ## Where frames go

The counts of a cache before and after the attempt that a call of `kmalloc` makes.
-/

/-- **What a chance to grow does to the counts.** -/
theorem ready_counts (hlarge : h.LargeEmpty) :
    (∀ j, ((h.ready i).caches j).total = if j = i ∧ (h.caches i).freeList = 0 ∧ h.avail ≠ 0
      then (h.caches j).total + pageSize / objSize i else (h.caches j).total) ∧
    h.avail - (h.ready i).avail = (if (h.caches i).freeList = 0 ∧ h.avail ≠ 0 then 1 else 0) ∧
    (h.ready i).LargeEmpty := by
  unfold ready
  by_cases hfree : (h.caches i).freeList = 0
  · by_cases havail : h.avail = 0
    · rw [if_pos hfree, slabCacheGrow, if_pos havail]
      exact ⟨fun j => by rw [if_neg fun hc => hc.2.2 havail], by simp [havail], hlarge⟩
    · rw [if_pos hfree, slabCacheGrow_eq havail, if_pos ⟨hfree, havail⟩]
      refine ⟨fun j => ?_, by simp only; omega, fun j hj hsize => ?_⟩
      · rcases eq_or_ne j i with rfl | hne
        · rw [if_pos ⟨rfl, hfree, havail⟩]
          simp only [Function.update_self]
        · rw [if_neg fun hc => hne hc.1]
          simp only [Function.update_of_ne hne]
      · rcases eq_or_ne j i with rfl | hne
        · -- no object fits the page
          simp only [Function.update_self, (objSize_cases hj).2.2.2 hsize]
          exact hlarge j hj hsize
        · simp only [Function.update_of_ne hne]
          exact hlarge j hj hsize
  · rw [if_neg hfree, if_neg fun hc => hfree hc.1]
    exact ⟨fun j => by rw [if_neg fun hc => hfree hc.2.1], Nat.sub_self _, hlarge⟩

/-- **What `slab_alloc` does to the counts.** -/
theorem slabAlloc_counts (hlarge : h.LargeEmpty) :
    (∀ j, ((h.slabAlloc i).2.caches j).total = if j = i ∧ (h.caches i).freeList = 0 ∧ h.avail ≠ 0
      then (h.caches j).total + pageSize / objSize i else (h.caches j).total) ∧
    h.avail - (h.slabAlloc i).2.avail = (if (h.caches i).freeList = 0 ∧ h.avail ≠ 0 then 1 else 0) ∧
    (h.slabAlloc i).2.LargeEmpty := by
  obtain ⟨htotal, havail, hempty⟩ := ready_counts (i := i) hlarge
  rw [slabAlloc_eq]
  split
  case isTrue => exact ⟨htotal, havail, hempty⟩
  case isFalse hobj =>
    refine ⟨fun j => ?_, havail, fun j hj hsize => ?_⟩
    · rw [← htotal j]
      rcases eq_or_ne j i with rfl | hne
      · simp only [Function.update_self]
      · simp only [Function.update_of_ne hne]
    · rcases eq_or_ne j i with rfl | hne
      · exact absurd (hempty j hj hsize) hobj
      · simp only [Function.update_of_ne hne]
        exact hempty j hj hsize

/-- The class found for a size. -/
theorem slabFindCache_spec (hi : slabFindCache need = some i) :
    i < slabSizes.length ∧ need ≤ objSize i ∧ ∀ j < i, objSize j < need := by
  obtain ⟨hlt, hfit, hmin⟩ := List.findIdx?_eq_some_iff_getElem.mp hi
  have hget : ∀ j (hj : j < slabSizes.length), objSize j = slabSizes[j] := fun j hj => List.getElem_eq_getD 0 ▸ rfl
  refine ⟨hlt, ?_, fun j hj => ?_⟩
  · rw [hget i hlt]
    exact of_decide_eq_true hfit
  · rw [hget j (Nat.lt_trans hj hlt)]
    have hno := hmin j hj
    simp only [decide_eq_true_eq, Nat.not_le] at hno
    exact hno

/-- It is larger than a page exactly for a size that is. -/
theorem slabFindCache_large (hi : slabFindCache need = some i) :
    pageSize < objSize i ↔ pageSize < need ∧ need ≤ 32768 := by
  obtain ⟨hlt, hfit, hmin⟩ := slabFindCache_spec hi
  have htable : ∀ j < slabSizes.length, objSize j ≤ 32768 ∧ (pageSize < objSize j → 9 < j) := by decide
  have hpage : objSize 9 = pageSize := rfl
  constructor
  · intro hsize
    have hprev := hmin 9 ((htable i hlt).2 hsize)
    exact ⟨hpage ▸ hprev, Nat.le_trans hfit (htable i hlt).1⟩
  · rintro ⟨hneed, -⟩
    exact Nat.lt_of_lt_of_le hneed hfit

theorem slabFindCache_none (hi : slabFindCache need = none) : 32768 < need := by
  have hno := List.findIdx?_eq_none_iff.mp hi 32768 (by decide)
  simp only [decide_eq_false_iff_not, Nat.not_le] at hno
  exact hno

end Heap

/-- The attempt at the slab caches keeps the frames used exactly if no frame goes to a class larger than a page. -/
theorem framesUsed_serve {sys : SlabFrames} {h : Heap} {size : Nat} (hlarge : sys.heap.LargeEmpty)
    (hused : FramesUsed sys) (hsize : size ≠ 0)
    (hcaches : h.caches = (sys.heap.slabServe (roundUp size heapAlign)).2.caches) :
    h.LargeEmpty ∧ (FramesUsed ⟨h, sys.taken size⟩ ↔ FitsPage sys (.kmalloc size)) := by
  unfold Heap.LargeEmpty FramesUsed FitsPage SlabFrames.taken
  rw [hcaches]
  simp only [if_neg hsize]
  generalize roundUp size heapAlign = need
  unfold Heap.slabServe
  cases hi : Heap.slabFindCache need with
  | none =>
      have hbig := Heap.slabFindCache_none hi
      exact ⟨hlarge, iff_of_true hused fun hbad => absurd hbad.2.1 (Nat.not_le.mpr hbig)⟩
  | some i =>
      obtain ⟨hlt, -, -⟩ := Heap.slabFindCache_spec hi
      obtain ⟨htotal, havail, hempty⟩ := Heap.slabAlloc_counts (i := i) hlarge
      refine ⟨hempty, ?_⟩
      simp only [havail]
      rw [← and_assoc, ← Heap.slabFindCache_large hi]
      by_cases hgrows : (sys.heap.caches i).freeList = 0 ∧ sys.heap.avail ≠ 0
      · -- the cache takes a frame, which is all objects or none
        have hcut := (objSize_cases hlt).2.2.1
        have hiff : ¬ (pageSize < objSize i ∧ sys.heap.avail ≠ 0) ↔ pageSize / objSize i * objSize i = pageSize := by
          rw [← hcut]
          constructor
          · exact fun hno => Nat.not_lt.mp fun hsize => hno ⟨hsize, hgrows.2⟩
          · exact fun hle hbad => absurd hbad.1 (Nat.not_lt.mpr hle)
        rw [if_pos hgrows, hiff]
        constructor
        · intro hall
          have hone := hall i hlt
          have hold := hused i hlt
          rw [htotal, if_pos ⟨rfl, hgrows⟩, Function.update_self, Nat.add_mul, Nat.mul_succ, hold] at hone
          exact Nat.add_left_cancel hone
        · intro hpage j hj
          have hold := hused j hj
          rw [htotal]
          rcases eq_or_ne j i with rfl | hne
          · rw [if_pos ⟨rfl, hgrows⟩, Function.update_self, Nat.add_mul, Nat.mul_succ, hold, hpage]
          · rw [if_neg fun hc => hne hc.1, Function.update_of_ne hne]
            exact hold
      · rw [if_neg hgrows]
        refine iff_of_true (fun j hj => ?_) fun hbad => hgrows ⟨hlarge i hlt hbad.1, hbad.2⟩
        rw [htotal, if_neg fun hc => hgrows hc.2, Nat.add_zero, Function.update_eq_self]
        exact hused j hj

/-- **One step.** It keeps the lists of the large classes empty, and the frames used exactly if it fits the page. -/
theorem framesUsed_step {sys sys' : SlabFrames} {op : FrameOp} (hlarge : sys.heap.LargeEmpty) (hused : FramesUsed sys)
    (hs : Graph frameStep sys op sys') : sys'.heap.LargeEmpty ∧ (FramesUsed sys' ↔ FitsPage sys op) := by
  cases op with
  | kmalloc size =>
      obtain ⟨⟨ptr, h⟩, hk, rfl⟩ := Option.map_eq_some_iff.mp hs
      by_cases hsize : size = 0
      · subst hsize
        obtain ⟨-, rfl⟩ := Prod.mk.inj (Option.some.inj hk)
        have hsame : sys.taken 0 = sys.frames := by
          unfold SlabFrames.taken
          simp only [if_true]
          split
          · rfl
          · rfl
        simp only [hsame]
        exact ⟨hlarge, iff_of_true hused fun hbad => absurd hbad.1 (by decide)⟩
      · have hcaches := Heap.kmalloc_caches hsize hk
        exact framesUsed_serve hlarge hused hsize hcaches
  | kfree ptr =>
      obtain ⟨h, hk, rfl⟩ := Option.map_eq_some_iff.mp hs
      obtain ⟨m, free, rfl⟩ := Heap.kfree_keeps hk
      exact ⟨hlarge, iff_of_true hused trivial⟩
  | store addr v =>
      obtain rfl := Option.some.inj hs
      exact ⟨hlarge, iff_of_true hused trivial⟩
  | frames n =>
      obtain rfl := Option.some.inj hs
      exact ⟨hlarge, iff_of_true hused trivial⟩

/-- **All frames of the slab caches become objects** exactly in the runs in which no call asks for more than a page and
    at most the largest class while a frame can be had. -/
theorem slab_frames_used_iff (mem : Words) (avail : Nat) (h₀ : Heap) (ops : List FrameOp)
    (hinit : Heap.heapInit mem avail = some h₀) :
    Throughout (Graph frameStep) FramesUsed ⟨h₀, fun _ => 0⟩ ops ↔
      EveryStep (Graph frameStep) FitsPage ⟨h₀, fun _ => 0⟩ ops := by
  obtain ⟨hcaches, -⟩ := heapInit_caches hinit
  have hstep : ∀ sys op sys', sys.heap.LargeEmpty → FramesUsed sys → Graph frameStep sys op sys' →
      sys'.heap.LargeEmpty ∧ (FramesUsed sys' ↔ FitsPage sys op) :=
    fun _ _ _ => framesUsed_step
  refine throughout_iff_everyStep hstep (fun j _ _ => ?_) (fun j _ => ?_) ops
  · show (h₀.caches j).freeList = 0
    rw [hcaches]
  · show (h₀.caches j).total * objSize j = pageSize * 0
    rw [hcaches, Nat.zero_mul, Nat.mul_zero]

/-- A small request takes a frame, and all of it becomes objects. -/
theorem slab_frames_used_small :
    ∃ h₀, Heap.heapInit (fun _ => 0) 2048 = some h₀ ∧
      Throughout (Graph frameStep) FramesUsed ⟨h₀, fun _ => 0⟩ [.kmalloc 100] := by
  refine ⟨freshHeap, freshHeap_init, (slab_frames_used_iff _ 2048 _ _ freshHeap_init).mpr fun t _ => ⟨?_, trivial⟩⟩
  exact fun hbad => absurd hbad.1 (by decide)

/-- A request for 5000 bytes takes a frame for the objects of 8192 bytes, of which a page holds none. -/
theorem slab_frames_lost :
    ∃ h₀ sys, Heap.heapInit (fun _ => 0) 2048 = some h₀ ∧
      Run (Graph frameStep) ⟨h₀, fun _ => 0⟩ [.kmalloc 5000] sys ∧
      (sys.heap.caches 10).total = 0 ∧ sys.frames 10 = 1 ∧ ¬ FramesUsed sys := by
  obtain ⟨h₀, hh₀⟩ : ∃ h₀, h₀ = freshHeap := ⟨_, rfl⟩
  have hsome : ([FrameOp.kmalloc 5000].foldlM frameStep ⟨h₀, fun _ => 0⟩).isSome := by
    rw [hh₀]; decide +kernel
  have htotal : ((after frameStep ⟨h₀, fun _ => 0⟩ [.kmalloc 5000]).heap.caches 10).total = 0 := by
    rw [hh₀]; decide +kernel
  have hframes : (after frameStep ⟨h₀, fun _ => 0⟩ [.kmalloc 5000]).frames 10 = 1 := by
    rw [hh₀]; decide +kernel
  refine ⟨h₀, _, hh₀ ▸ freshHeap_init, Run.of_after hsome, htotal, hframes, fun hused => ?_⟩
  have hlost := hused 10 (by decide)
  rw [htotal, hframes] at hlost
  exact absurd hlost (by decide)

end MyUnix.Mm
