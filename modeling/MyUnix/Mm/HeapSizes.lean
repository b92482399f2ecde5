import MyUnix.Mm.Slab

/-!
# `Mm.HeapSizes` — the object behind a pointer

`kmalloc` rounds the size up to a multiple of 16 in 64 bits before it looks for an object. Whatever it finds is at
least as large as the rounded size, which is at least as large as the size, unless the rounding wraps: the last
fifteen sizes become 0, for which any object will do.

The statement is about the call and not about a state, so it needs no invariant: the search compares recorded sizes,
and what it returns has passed the comparison. That a recorded size may be larger than the block is a different
matter, which belongs to `Mm.HeapRun`.
-/

namespace MyUnix.Mm

open Lib

/-! ## Rounding

`ALIGN_UP` in 64 bits wraps exactly for the numbers above `2 ^ 64 - 16`.
-/

theorem le_roundUp {size : Nat} (h : size ≤ 2 ^ 64 - 16) : size ≤ roundUp size heapAlign := by
  unfold roundUp heapAlign
  rw [Nat.mod_eq_of_lt (by omega)]
  omega

theorem roundUp_wraps {size : Nat} (h : 2 ^ 64 - 16 < size) (hlt : size < 2 ^ 64) : roundUp size heapAlign = 0 := by
  unfold roundUp heapAlign
  omega

namespace Heap

variable {h h' : Heap} {size need fuel ptr best : Nat}

/-- Whatever the state of memory, the block the search ends with is recorded with at least the size. -/
theorem searchBest_fits {m : Words} {blk bestSize r : Nat}
    (hs : searchBest m size fuel blk best bestSize = some r) : r = best ∨ size ≤ m.size r := by
  induction fuel generalizing blk best bestSize with
  | zero => cases hs
  | succ fuel ih =>
      unfold searchBest at hs
      split at hs
      case isTrue => exact .inl (Option.some.inj hs).symm
      case isFalse =>
      split at hs
      case isTrue => cases hs
      case isFalse =>
      split at hs
      case isTrue hfit =>
          split at hs
          case isTrue => exact .inr (Option.some.inj hs ▸ hfit.1)
          case isFalse =>
              rcases ih hs with rfl | hr
              · exact .inr hfit.1
              · exact .inr hr
      case isFalse => exact ih hs

/-- The heap in which the search finds a block, after what it has grown by until then. -/
def searched (need : Nat) : Nat → Heap → Option Heap
  | 0,        _ => none
  | fuel + 1, s => do
    let best ← searchBest s.mem need s.walkBound s.freeList 0 sizeMax
    if best = 0 then
      let (ok, s) ← s.heapGrow need
      if ok then searched need fuel s else none
    else some s

/-- The size of the object that `kmalloc(size)` hands out at `ptr`: of an object of the cache, or as recorded of a
    block of the free list when the search took it. -/
def objectSize (h : Heap) (size ptr : Nat) : Nat :=
  let need := roundUp size heapAlign
  let (obj, s) := h.slabServe need
  if obj ≠ 0 then
    match slabFindCache need with
    | some i => objSize i
    | none   => 0
  else
    match searched need (s.avail + 1) s with
    | some s => s.mem.size (ptr - heapBlockHdrSize)
    | none   => 0

theorem takeBlock_ptr (ht : h.takeBlock best size = some (ptr, h')) : ptr = best + heapBlockHdrSize := by
  unfold takeBlock at ht
  split at ht
  · obtain ⟨s, -, ht⟩ := Option.bind_eq_some_iff.mp ht
    exact (Prod.mk.inj (Option.some.inj ht)).1.symm
  · obtain ⟨s, -, ht⟩ := Option.bind_eq_some_iff.mp ht
    exact (Prod.mk.inj (Option.some.inj ht)).1.symm

/-- The block taken is recorded with at least the size. -/
theorem retry_fits (hr : retry need fuel h = some (ptr, h')) (hptr : ptr ≠ 0) :
    ∃ t, searched need fuel h = some t ∧ need ≤ t.mem.size (ptr - heapBlockHdrSize) := by
  induction fuel generalizing h with
  | zero => cases hr
  | succ fuel ih =>
      unfold retry at hr
      unfold searched
      obtain ⟨best, hbest, hr⟩ := Option.bind_eq_some_iff.mp hr
      rw [hbest, Option.bind_eq_bind, Option.bind_some]
      split at hr
      case isTrue hnone =>
          rw [if_pos hnone]
          obtain ⟨⟨ok, t⟩, hg, hr⟩ := Option.bind_eq_some_iff.mp hr
          rw [hg, Option.bind_eq_bind, Option.bind_some]
          cases ok with
          | false =>
              -- the heap could not grow
              exact absurd (Prod.mk.inj (Option.some.inj hr)).1.symm hptr
          | true => exact ih hr
      case isFalse hsome =>
          rw [if_neg hsome]
          refine ⟨h, rfl, ?_⟩
          rw [takeBlock_ptr hr, Nat.add_sub_cancel]
          exact (searchBest_fits hbest).resolve_left hsome

/-- An object of a cache is as large as the rounded size at least. -/
theorem slabServe_fits (hs : h.slabServe need = (ptr, h')) (hptr : ptr ≠ 0) :
    ∃ i, slabFindCache need = some i ∧ need ≤ objSize i := by
  unfold slabServe at hs
  cases hi : slabFindCache need with
  | none =>
      rw [hi] at hs
      exact absurd (Prod.mk.inj hs).1.symm hptr
  | some i => exact ⟨i, rfl, (slabFindCache_spec hi).2.1⟩

/-- **The object is as large as the rounded size at least**, whatever the state of the heap. -/
theorem kmalloc_fits (hk : h.kmalloc size = some (ptr, h')) (hptr : ptr ≠ 0) :
    roundUp size heapAlign ≤ h.objectSize size ptr := by
  unfold kmalloc at hk
  split at hk
  case isTrue => exact absurd (Prod.mk.inj (Option.some.inj hk)).1.symm hptr
  case isFalse =>
  unfold objectSize
  obtain ⟨obj, s, hs⟩ : ∃ obj s, h.slabServe (roundUp size heapAlign) = (obj, s) := ⟨_, _, rfl⟩
  simp only [hs] at hk ⊢
  by_cases hobj : obj ≠ 0
  · obtain ⟨i, hi, hfit⟩ := slabServe_fits hs hobj
    rw [if_pos hobj, hi]
    exact hfit
  · rw [if_neg hobj] at hk ⊢
    obtain ⟨t, ht, hfit⟩ := retry_fits hk hptr
    rw [ht]
    exact hfit

/-! ## Sizes that round to 0

The size 0 fits everything: the smallest cache serves it, or any block of the list.
-/

/-- There is something to hand out for the size 0: an object of the smallest cache, a page for it, or a block of the
    free list that can be taken. -/
def HandsOut (h : Heap) : Prop :=
  (h.caches 0).freeList ≠ 0 ∨ h.avail ≠ 0 ∨
    ∃ best, searchBest h.mem 0 h.walkBound h.freeList 0 sizeMax = some best ∧ best ≠ 0 ∧ (h.takeBlock best 0).isSome

theorem slabFindCache_zero : slabFindCache 0 = some 0 := rfl

theorem slabServes_zero : h.SlabServes 0 ↔ (h.caches 0).freeList ≠ 0 ∨ h.avail ≠ 0 := by
  unfold SlabServes
  rw [slabFindCache_zero]
  constructor
  · rintro ⟨i, hi, hserve⟩
    obtain rfl := Option.some.inj hi
    exact hserve.imp_right And.left
  · intro hserve
    exact ⟨0, rfl, hserve.imp_right fun havail => ⟨havail, by decide⟩⟩

theorem growBy_none (n : Nat) (havail : h.avail = 0) :
    h.growBy (n + 1) = some (false, { h with mem := h.mem.mapZeroed h.heapEnd h.heapEnd }) := by
  have hmap : mapPages (n + 1) h = (false, h) := by rw [mapPages, if_pos havail]
  unfold growBy
  simp only [hmap, if_true]

/-- The last round of the search, when no page can be had. -/
theorem retry_last (havail : h.avail = 0) (hneed : need = 0) :
    (∃ ptr h', retry need 1 h = some (ptr, h') ∧ ptr ≠ 0) ↔
      ∃ best, searchBest h.mem need h.walkBound h.freeList 0 sizeMax = some best ∧ best ≠ 0 ∧
        (h.takeBlock best need).isSome := by
  constructor
  · rintro ⟨ptr, h', hr, hptr⟩
    unfold retry at hr
    obtain ⟨best, hbest, hr⟩ := Option.bind_eq_some_iff.mp hr
    split at hr
    case isTrue =>
        -- the heap cannot grow
        have hpages : h.heapGrow need = h.growBy (255 + 1) := by
          rw [hneed]
          rfl
        rw [hpages, growBy_none 255 havail] at hr
        exact absurd (Prod.mk.inj (Option.some.inj hr)).1.symm hptr
    case isFalse hsome => exact ⟨best, hbest, hsome, by rw [hr]; rfl⟩
  · rintro ⟨best, hbest, hsome, htake⟩
    obtain ⟨⟨ptr, h'⟩, ht⟩ := Option.isSome_iff_exists.mp htake
    refine ⟨ptr, h', ?_, ?_⟩
    · unfold retry
      rw [hbest, Option.bind_eq_bind, Option.bind_some, if_neg hsome]
      exact ht
    · rw [takeBlock_ptr ht]
      unfold heapBlockHdrSize
      omega

/-- The smallest cache or the free list then serves the request, if they can. -/
theorem kmalloc_wraps_iff (hsize : size ≠ 0) (hneed : roundUp size heapAlign = 0) :
    (∃ ptr h', h.kmalloc size = some (ptr, h') ∧ ptr ≠ 0) ↔ h.HandsOut := by
  unfold kmalloc HandsOut
  rw [if_neg hsize, hneed]
  obtain ⟨obj, s, hs⟩ : ∃ obj s, h.slabServe 0 = (obj, s) := ⟨_, _, rfl⟩
  simp only [hs]
  by_cases hserve : (h.caches 0).freeList ≠ 0 ∨ h.avail ≠ 0
  · have hobj : obj ≠ 0 := (slabServe_spec hs).2.2.2.2.2 (slabServes_zero.mpr hserve)
    rw [if_pos hobj]
    exact iff_of_true ⟨obj, s, rfl, hobj⟩ (or_assoc.mp (.inl hserve))
  · obtain ⟨hfree, havail⟩ := not_or.mp hserve
    rw [ne_eq, not_not] at hfree havail
    have hempty : h.slabServe 0 = (0, h) := by
      show h.slabAlloc 0 = (0, h)
      rw [slabAlloc_eq, ready, if_pos hfree, slabCacheGrow, if_pos havail, if_pos hfree]
    obtain ⟨rfl, rfl⟩ := Prod.mk.inj (hempty.symm.trans hs)
    rw [if_neg (by simp), havail, ← or_assoc, or_iff_right (by simp [hfree])]
    exact retry_last havail rfl

/-- What they hand out is an object of 8 bytes or a block whose size is recorded in 32 bits. -/
theorem objectSize_wraps (hneed : roundUp size heapAlign = 0) : h.objectSize size ptr < 2 ^ 32 := by
  unfold objectSize
  rw [hneed]
  simp only [slabFindCache_zero]
  split
  · decide
  · split
    · exact Words.size_lt
    · decide

end Heap

end MyUnix.Mm
