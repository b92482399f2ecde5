import MyUnix.Mm.Pmm
import MyUnix.Lib.Blocks

/-!
# `Mm.Heap` — the kernel heap

`heap.c`: thirteen slab caches for small objects, and for the rest a singly linked list of free blocks, each
with a 32-byte header in front of its payload. `kmalloc` takes the smallest sufficient block of the list, cuts
the remainder off as a block of its own, and grows the heap when no block suffices; `kfree` puts a block back
at the head of the list.

Memory is a function from the address of an aligned 64-bit word to its value, so headers that overlap one
another, or payload, are seen to. Every block address is a multiple of 16. The frames behind the heap only
matter by their number: `avail` is how many more pages `pmm_alloc` and `vmm_kmap_phys` can provide; a page that is
mapped reads as zero, also where another page was mapped before. A call
that panics, faults on a page that is not mapped, or walks a cyclic list is `none`.

The memory is the heap's words at any address, so a header that is written over another one changes it, as it would.
Fields that share a word are written through the word (`setMagic`, `setSize`), and the recorded size has its 32 bits.
Nothing in the definitions keeps two blocks apart or a size true; that is for the invariants of the modules above to
say, each under the condition that it needs.

What the code does without a fault is `some`; a walk that does not end, a header written to memory that is not mapped,
and the panic of `kfree` are `none`. Walks are bounded by the number of headers that the heap has room for: a walk of
more steps has met a block twice. How many pages can still be had is a number here, `avail`; `Mm.HeapFrames` has the
frames and the page tables in its place.
-/

namespace MyUnix.Mm

open Lib

/-- The memory of the heap, word by word. -/
abbrev Words := Nat → Nat

/-- `ALIGN_UP(x, a)` in 64 bits, for a power of two `a`. -/
def roundUp (x a : Nat) : Nat := (x + (a - 1)) % 2 ^ 64 / a * a

/-- `HEAP_MAGIC_FREE`. -/
def heapMagicFree : Nat := 0xDEADBEEF

/-- `HEAP_MAGIC_USED`. -/
def heapMagicUsed : Nat := 0xCAFEBABE

/-- `HEAP_BLOCK_HDR_SIZE`. -/
def heapBlockHdrSize : Nat := 32

/-- `HEAP_MIN_SIZE`. -/
def heapMinSize : Nat := 16

/-- `HEAP_ALIGN`. -/
def heapAlign : Nat := 16

/-- `HEAP_INIT_SIZE`. -/
def heapInitSize : Nat := 4 * 1024 * 1024

/-- `HEAP_GROW_SIZE`. -/
def heapGrowSize : Nat := 1024 * 1024

/-- `HEAP_VIRT_BASE`. -/
def heapVirtBase : Nat := 0xFFFFF00000000000

/-- `SIZE_MAX`. -/
def sizeMax : Nat := 2 ^ 64 - 1

/-- `g_slab_sizes`. -/
def slabSizes : List Nat := [8, 16, 32, 64, 128, 256, 512, 1024, 2048, 4096, 8192, 16384, 32768]

/-- `g_slab_caches[i]`; its `obj_size` is `slabSizes[i]`. -/
structure SlabCache where
  freeList : Nat
  total    : Nat
  used     : Nat

/-- The heap: its memory, the free list, the slab caches, and the pages that can still be had. -/
structure Heap where
  mem       : Words
  freeList  : Nat
  heapStart : Nat
  heapEnd   : Nat
  caches    : Nat → SlabCache
  slabVirt  : Nat
  avail     : Nat

/-! ## Block headers

The accessors of `heap_block_t`, at the offsets that the structure gives them.
-/

namespace Words

variable (m : Words) (b : Nat)

-- `magic` and `size` are the two halves of the first word of the header.

/-- The magic number of the header at `b`, the lower half of its first word. -/
def magic : Nat := m b % 2 ^ 32

/-- The size of the block, the upper half. -/
def size : Nat := m b / 2 ^ 32 % 2 ^ 32

/-- The block before it in the free list. -/
def prev : Nat := m (b + 8)

/-- The block behind it in the free list. -/
def next : Nat := m (b + 16)

/-- The magic number is set; the size shares its word. -/
def setMagic (v : Nat) : Words := Function.update m b (v + m.size b * 2 ^ 32)

/-- The size is set; the magic number shares its word. -/
def setSize (v : Nat) : Words := Function.update m b (m.magic b + v * 2 ^ 32)

/-- The block before it is set. -/
def setPrev (v : Nat) : Words := Function.update m (b + 8) v

/-- The block behind it is set. -/
def setNext (v : Nat) : Words := Function.update m (b + 16) v

/-- `blk->checksum = block_checksum(blk)`. -/
def setChecksum : Words := Function.update m (b + 24) (m.magic b ^^^ m.size b ^^^ m.prev b)

/-- Zeroed frames mapped from `start` to `stop`, over whatever was mapped there. -/
def mapZeroed (start stop : Nat) : Words := fun w => if start ≤ w ∧ w < stop then 0 else m w

/-- A new free block, up to its link. -/
def newBlock (size prev : Nat) : Words :=
  ((((m.setMagic b heapMagicFree).setSize b (size % 2 ^ 32)).setPrev b prev).setChecksum b)

end Words

namespace Heap

variable (s : Heap)

/-! ## Slab caches

A slab page is cut into objects that are strung together by their first words. `slab_free` has a caller of its own
nowhere in the kernel; it is modelled as it is written.
-/

/-- The first cache whose objects are large enough. -/
def slabFindCache (size : Nat) : Option Nat := slabSizes.findIdx? fun objSize => size ≤ objSize

/-- `slab_cache_grow`: a page at `slab_virt`, cut into objects that go onto the free list of the cache. -/
def slabCacheGrow (i : Nat) : Heap :=
  if s.avail = 0 then s else
    let objSize := slabSizes.getD i 0
    let virt := if s.slabVirt = 0 then heapVirtBase + heapInitSize else s.slabVirt
    let n := pageSize / objSize
    let (mem, free) := (List.range n).foldl
      (fun (mf : Words × Nat) k => (Function.update mf.1 (virt + k * objSize) mf.2, virt + k * objSize))
      (s.mem.mapZeroed virt (virt + pageSize), (s.caches i).freeList)
    { s with
      mem := mem
      caches := Function.update s.caches i ⟨free, (s.caches i).total + n, (s.caches i).used⟩
      slabVirt := virt + pageSize
      avail := s.avail - 1 }

/-- `slab_alloc`, which lets an empty cache grow. -/
def slabAlloc (i : Nat) : Nat × Heap :=
  let s := if (s.caches i).freeList = 0 then s.slabCacheGrow i else s
  let obj := (s.caches i).freeList
  if obj = 0 then (0, s) else
    (obj, { s with caches :=
              Function.update s.caches i ⟨s.mem obj, (s.caches i).total, (s.caches i).used + 1⟩ })

/-- `slab_free`; the caller says which cache the object came from. -/
def slabFree (i ptr : Nat) : Heap :=
  { s with
    mem := Function.update s.mem ptr (s.caches i).freeList
    caches := Function.update s.caches i ⟨ptr, (s.caches i).total, (s.caches i).used - 1⟩ }

/-- `kmalloc`'s first attempt: an object of the slab cache for the rounded size. -/
def slabServe (size : Nat) : Nat × Heap :=
  match slabFindCache size with
  | some i => s.slabAlloc i
  | none   => (0, s)

/-! ## Growing the heap

Whole megabytes at a time. A growth that fails half way keeps its pages, without a block over them.
-/

/-- Map up to `n` more pages at the end of the heap; whether all of them could be had. -/
def mapPages : Nat → Heap → Bool × Heap
  | 0,     s => (true, s)
  | n + 1, s =>
    if s.avail = 0 then (false, s)
    else mapPages n { s with heapEnd := (s.heapEnd + pageSize) % 2 ^ 64, avail := s.avail - 1 }

/-- `heap_init`, on memory with any content and with `avail` pages to be had. Without any page the first
    header cannot be written. -/
def heapInit (mem : Words) (avail : Nat) : Option Heap :=
  let s : Heap :=
    { mem := mem, freeList := 0, heapStart := heapVirtBase, heapEnd := heapVirtBase,
      caches := fun _ => ⟨0, 0, 0⟩, slabVirt := 0, avail := avail }
  let s := (mapPages (heapInitSize / pageSize) s).2
  if s.heapEnd = s.heapStart then none else
    let blk := s.heapStart
    let m := s.mem.mapZeroed s.heapStart s.heapEnd
    let m := (((m.setMagic blk heapMagicFree).setSize blk
      ((s.heapEnd - s.heapStart - heapBlockHdrSize) % 2 ^ 32)).setPrev blk 0).setNext blk 0
    some { s with freeList := blk, mem := m.setChecksum blk }

/-- `heap_grow`, once the number of pages is known. When a page cannot be had the pages mapped before it stay at
    the end of the heap. Without any page, writing the new header faults. -/
def growBy (nPages : Nat) : Option (Bool × Heap) :=
  let newStart := s.heapEnd
  let (ok, s) := mapPages nPages s
  let m := s.mem.mapZeroed newStart s.heapEnd
  if ok = false then some (false, { s with mem := m })
  else if nPages = 0 then none
  else
    let m := m.newBlock newStart (s.heapEnd - newStart - heapBlockHdrSize) 0
    some (true, { s with mem := m.setNext newStart s.freeList, freeList := newStart })

/-- `heap_grow`. The rounding may wrap, to no page at all. -/
def heapGrow (need : Nat) : Option (Bool × Heap) :=
  let grow := roundUp ((need + heapBlockHdrSize) % 2 ^ 64) heapGrowSize
  s.growBy (grow / pageSize)

/-! ## `kmalloc` and `kfree`

The best-fit search, the second walk that finds the link to the block, and the cut. The header of the block that is
handed out keeps the size of the block before it was cut; that is the one slip from which most of what goes wrong in
the heap follows.
-/

/-- A bound on the steps of a walk of the free list: a longer one meets a block again. -/
def walkBound : Nat := (s.heapEnd - s.heapStart) / heapAlign + 1

/-- The best-fit loop of `kmalloc`: `best` (0 for none) and `best_size` after the walk from `blk`. -/
def searchBest (m : Words) (size : Nat) : Nat → Nat → Nat → Nat → Option Nat
  | 0,        _,   _,    _        => none
  | fuel + 1, blk, best, bestSize =>
    if blk = 0 then some best
    else if m.magic blk ≠ heapMagicFree then none
    else if size ≤ m.size blk ∧ m.size blk < bestSize then
      if m.size blk = size then some blk
      else searchBest m size fuel (m.next blk) blk (m.size blk)
    else searchBest m size fuel (m.next blk) best bestSize

/-- The loop `while (*pp && *pp != best) pp = &(*pp)->next`, from the `next` field of `p` on: the block whose
    `next` field `pp` points to in the end. -/
def findLink (m : Words) (best : Nat) : Nat → Nat → Option Nat
  | 0,        _ => none
  | fuel + 1, p =>
    if m.next p = 0 ∨ m.next p = best then some p
    else findLink m best fuel (m.next p)

/-- Find the link to `best`, in `g_free_list` or in a block, and replace it by `repl`. -/
def relink (best repl : Nat) : Option Heap :=
  if s.freeList = 0 then some s
  else if s.freeList = best then some { s with freeList := repl }
  else do
    let p ← findLink s.mem best s.walkBound s.freeList
    if s.mem.next p = best then some { s with mem := s.mem.setNext p repl } else some s

/-- Take `best` off the free list; a remainder that can hold a block takes its place there. The header of
    `best` keeps its `size` either way. -/
def takeBlock (best size : Nat) : Option (Nat × Heap) := do
  let s ←
    if size + heapBlockHdrSize + heapMinSize ≤ s.mem.size best then do
      -- the remainder becomes a block of its own, in the place of `best` on the list
      let split := best + heapBlockHdrSize + size
      let m := s.mem.newBlock split (s.mem.size best - size - heapBlockHdrSize) best
      let s ← relink { s with mem := m.setNext split (m.next best) } best split
      pure { s with mem := s.mem.setNext split (s.mem.next best) }
    else
      s.relink best (s.mem.next best)
  let m := ((s.mem.setMagic best heapMagicUsed).setNext best 0).setChecksum best
  pure (best + heapBlockHdrSize, { s with mem := m })

/-- The loop from `retry`. Every round but the last maps a page, so `avail + 1` rounds are enough. -/
def retry (size : Nat) : Nat → Heap → Option (Nat × Heap)
  | 0,        _ => none
  | fuel + 1, s => do
    let best ← searchBest s.mem size s.walkBound s.freeList 0 sizeMax
    if best = 0 then
      let (ok, s) ← s.heapGrow size
      if ok then retry size fuel s else some (0, s)
    else
      s.takeBlock best size

/-- `kmalloc`: the slab caches first, then the free list. -/
def kmalloc (size : Nat) : Option (Nat × Heap) :=
  if size = 0 then some (0, s) else
    let size := roundUp size heapAlign
    let (ptr, s) := s.slabServe size
    if ptr ≠ 0 then some (ptr, s) else retry size (s.avail + 1) s

/-- `kfree`; none is the panic over a header that is not one of a used block. -/
def kfree (ptr : Nat) : Option Heap :=
  if ptr = 0 then some s else
    let blk := ptr - heapBlockHdrSize
    if s.mem.magic blk = heapMagicFree then none
    else if s.mem.magic blk ≠ heapMagicUsed then none
    else
      let m := (s.mem.setMagic blk heapMagicFree).setChecksum blk
      some { s with mem := m.setNext blk s.freeList, freeList := blk }

end Heap

end MyUnix.Mm
