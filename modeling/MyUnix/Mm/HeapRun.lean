import MyUnix.Mm.HeapSpec
import MyUnix.Lib.Run

/-!
# `Mm.HeapRun` — payloads of the free-list heap

The heap together with its clients: `live` lists the allocations not freed since, with the size each was asked
for, and clients store into the payloads they own. Between calls the rest of the kernel takes and returns
frames, so the number of pages the heap can still get changes too.

The header of a block that was split keeps recording the size from before, so after `kfree` the list may hold a
block that reaches over its neighbours. The representation invariant `HeapRep` therefore carries for every block
the length `len` it really has, at most what its header records. As long as `kmalloc` meets no block of the
smallest sufficient size that reaches over a header (`SizesTrue`), every block it hands out is as long as its
header says, and payloads stay disjoint.

The representation (`HeapRep`) is a packed row of blocks. Each of them has its real length, which only the proof
knows, next to the length that its header records; the two agree for the blocks of the list except for those that
`kmalloc` has cut and that have come back since. `SizesTrue` is the condition on a call under which a wrong record
does no harm: the block that the search prefers must not reach, by its record, over another header.

The three parts of an operation are proved apart: what the words are afterwards is `Mm.HeapSpec`, that the row stays
packed is `Lib.Blocks`, and that the two fit together is done here, for each operation once.
-/

namespace MyUnix.Mm

open Lib

/-- `PMM_MAX_PAGES`, 4 TB of memory. -/
def pmmMaxPages : Nat := 2 ^ 30

/-- The heap, with the blocks that callers hold. -/
structure HeapSys where
  heap : Heap
  live : List (Nat × Nat)

/-- A step of the run: an allocation, a release, a store by a holder, or a change of the pages that can be had. -/
inductive HeapOp where
  | kmalloc (size : Nat)
  | kfree (ptr : Nat)
  | store (ptr addr v : Nat)
  | frames (n : Nat)

/-- **One step.** A call of `kmalloc` that the slab caches do not serve, `kfree` of a live pointer, a store by
    the owner of a payload into the word of `addr`, or a change of the number of pages that can be had. -/
def heapStep (sys : HeapSys) : HeapOp → Option HeapSys
  | .kmalloc size =>
      if 32768 < size ∧ size < 2 ^ 64 ∧ (sys.heap.slabServe (roundUp size heapAlign)).1 = 0 then
        (sys.heap.kmalloc size).map fun (ptr, h) => ⟨h, if ptr = 0 then sys.live else (ptr, size) :: sys.live⟩
      else none
  | .kfree ptr =>
      if ptr ∈ sys.live.map Prod.fst then
        (sys.heap.kfree ptr).map fun h => ⟨h, sys.live.eraseP fun l => l.1 = ptr⟩
      else none
  | .store ptr addr v =>
      if ∃ l ∈ sys.live, l.1 = ptr ∧ ptr ≤ addr ∧ addr < ptr + l.2 then
        some { sys with heap := { sys.heap with mem := Function.update sys.heap.mem (addr / 8 * 8) v } }
      else none
  | .frames n =>
      if (sys.heap.heapEnd - sys.heap.heapStart) / pageSize + n ≤ pmmMaxPages then
        some { sys with heap := { sys.heap with avail := n } }
      else none

/-- `b` is the header of a block on the free list. -/
def Heap.OnFreeList (h : Heap) (b : Nat) : Prop := Visits h.mem.next h.freeList b

/-- **Payload ranges are disjoint**, from one another and from the headers on the free list. -/
structure HeapSafe (sys : HeapSys) : Prop where
  payloads : sys.live.Pairwise fun x y => x.1 + x.2 ≤ y.1 ∨ y.1 + y.2 ≤ x.1
  headers  : ∀ l ∈ sys.live, ∀ b, sys.heap.OnFreeList b → b + heapBlockHdrSize ≤ l.1 ∨ l.1 + l.2 ≤ b

/-- The headers of the live blocks. -/
def liveHdrs (live : List (Nat × Nat)) : List Nat := live.map fun l => l.1 - heapBlockHdrSize

/-- `a` is a block of the free list whose recorded size is the smallest that suffices. -/
def Heap.BestFits (h : Heap) (size a : Nat) : Prop :=
  h.OnFreeList a ∧ size ≤ h.mem.size a ∧ ∀ b, h.OnFreeList b → size ≤ h.mem.size b → h.mem.size a ≤ h.mem.size b

/-- The condition on a step: the size asked for can be rounded up in 64 bits, and no block of the smallest
    sufficient size reaches, by its recorded size, over the header of another block. -/
def SizesTrue (sys : HeapSys) : HeapOp → Prop
  | .kmalloc size =>
      size ≤ 2 ^ 64 - 16 ∧
      ∀ a, sys.heap.BestFits (roundUp size heapAlign) a →
        ∀ b, (sys.heap.OnFreeList b ∨ b ∈ liveHdrs sys.live) → b ≠ a →
          b < a ∨ a + heapBlockHdrSize + sys.heap.mem.size a ≤ b
  | _ => True

/-- The condition, read off the members of the list. -/
theorem sizesTrue_iff {sys : HeapSys} {size : Nat} {fl : List Nat}
    (hc : Chain sys.heap.mem.next sys.heap.freeList fl) :
    SizesTrue sys (.kmalloc size) ↔ size ≤ 2 ^ 64 - 16 ∧
      ∀ a ∈ fl, roundUp size heapAlign ≤ sys.heap.mem.size a →
        (∀ b ∈ fl, roundUp size heapAlign ≤ sys.heap.mem.size b → sys.heap.mem.size a ≤ sys.heap.mem.size b) →
        ∀ b ∈ fl ++ liveHdrs sys.live, b ≠ a → b < a ∨ a + heapBlockHdrSize + sys.heap.mem.size a ≤ b := by
  simp only [SizesTrue, Heap.BestFits, Heap.OnFreeList, hc.visits_iff, and_imp, List.mem_append]

/-! ## The representation invariant

`BlockRep` is what holds of one block and `HeapRep` of all. The free list is a permutation-invariant set as far as
packing goes, and a chain as far as walking goes.
-/

/-- What holds of a block whose real length is `len`, header included. -/
structure BlockRep (h : Heap) (len : Nat → Nat) (a : Nat) : Prop where
  above   : h.heapStart ≤ a
  aligned : a % 16 = 0
  header  : 32 ≤ len a
  real    : len a ≤ 32 + h.mem.size a
  below   : a + 32 + h.mem.size a ≤ h.heapEnd

/-- A header is the same after a change elsewhere. -/
theorem BlockRep.congr {h h' : Heap} {len : Nat → Nat} {a : Nat} (hb : BlockRep h len a) (hm : h'.mem a = h.mem a)
    (hs : h'.heapStart = h.heapStart) (he : h.heapEnd ≤ h'.heapEnd) : BlockRep h' len a := by
  have hsize := Words.size_congr hm
  refine ⟨hs ▸ hb.above, hb.aligned, hb.header, ?_, ?_⟩
  · rw [hsize]
    exact hb.real
  · rw [hsize]
    exact Nat.le_trans hb.below he

/-- Every block of the list is as long as its header says. -/
def Exact (h : Heap) (fl : List Nat) (len : Nat → Nat) : Prop := ∀ a ∈ fl, len a = 32 + h.mem.size a

/-- The words of the heap are those of a packed row of blocks, with `fl` in the free list and `live` held. -/
structure HeapRep (h : Heap) (live : List (Nat × Nat)) (fl : List Nat) (len : Nat → Nat) : Prop where
  chain   : Chain h.mem.next h.freeList fl
  packed  : Packed len (fl ++ liveHdrs live)
  block   : ∀ a ∈ fl ++ liveHdrs live, BlockRep h len a
  free    : ∀ a ∈ fl, h.mem.magic a = heapMagicFree
  used    : ∀ a ∈ liveHdrs live, h.mem.magic a = heapMagicUsed
  payload : ∀ l ∈ live, 32 + l.2 ≤ len (l.1 - 32)
  start   : h.heapStart = heapVirtBase
  aligned : h.heapEnd % pageSize = 0
  bottom  : h.heapStart ≤ h.heapEnd
  top     : h.heapEnd + h.avail * pageSize ≤ heapVirtBase + pmmMaxPages * pageSize

namespace HeapRep

variable {h h' : Heap} {live : List (Nat × Nat)} {fl : List Nat} {len : Nat → Nat} {a b : Nat}

theorem hdr_mem {l : Nat × Nat} (hl : l ∈ live) : l.1 - 32 ∈ liveHdrs live := List.mem_map_of_mem hl

/-- The pointer of a live block is 32 above its header. -/
theorem ptr_eq (r : HeapRep h live fl len) {l : Nat × Nat} (hl : l ∈ live) : l.1 = l.1 - 32 + 32 := by
  have := (r.block _ (List.mem_append_right _ (hdr_mem hl))).above
  rw [r.start] at this
  unfold heapVirtBase at this
  omega

theorem onFreeList_iff (r : HeapRep h live fl len) : h.OnFreeList b ↔ b ∈ fl := r.chain.visits_iff

theorem nodup (r : HeapRep h live fl len) : (fl ++ liveHdrs live).Nodup :=
  r.packed.nodup fun a ha => by
    have := (r.block a ha).header
    omega

/-! ## What the invariant says of headers

No two overlap, a payload is behind its own header, and a block of the list is as long as its header says unless it
was cut.
-/

/-- Two headers do not overlap. -/
theorem hdr_apart (r : HeapRep h live fl len) (ha : a ∈ fl ++ liveHdrs live) (hb : b ∈ fl ++ liveHdrs live)
    (hne : a ≠ b) : a + 32 ≤ b ∨ b + 32 ≤ a := by
  have h1 := (r.block a ha).header
  have h2 := (r.block b hb).header
  have h3 := r.packed.apart ha hb hne
  unfold Apart at h3
  omega

/-- **The invariant gives the property.** -/
theorem safe (r : HeapRep h live fl len) : HeapSafe ⟨h, live⟩ := by
  constructor
  · have hp : (liveHdrs live).Pairwise (Apart len) := (List.pairwise_append.mp r.packed).2.1
    rw [liveHdrs, List.pairwise_map] at hp
    refine List.Pairwise.imp_of_mem (fun {x y} hx hy hxy => ?_) hp
    have h1 := r.payload x hx
    have h2 := r.payload y hy
    have h3 := r.ptr_eq hx
    have h4 := r.ptr_eq hy
    unfold Apart heapBlockHdrSize at hxy
    omega
  · intro l hl b hb
    have hb' : b ∈ fl := r.onFreeList_iff.mp hb
    have hcross := (List.pairwise_append.mp r.packed).2.2 b hb' (l.1 - 32) (hdr_mem hl)
    have h1 := r.payload l hl
    have h2 := r.ptr_eq hl
    have h3 := (r.block b (List.mem_append_left _ hb')).header
    unfold Apart at hcross
    unfold heapBlockHdrSize
    omega

/-! ### Taking a block

The block is taken whole or cut. In both cases its header is rewritten in place; a cut also writes a header within it,
where no other block begins.
-/

theorem take_perm (live : List (Nat × Nat)) (l rest : List Nat) (best ptr size : Nat) (hptr : ptr = best + 32) :
    ((l ++ best :: rest) ++ liveHdrs live).Perm (best :: (l ++ rest ++ liveHdrs live)) ∧
    ((l ++ rest) ++ liveHdrs ((ptr, size) :: live)).Perm (best :: (l ++ rest ++ liveHdrs live)) := by
  have hhdr : liveHdrs ((ptr, size) :: live) = best :: liveHdrs live := by
    simp [liveHdrs, heapBlockHdrSize, hptr]
  rw [hhdr]
  constructor
  · rw [List.append_assoc, List.append_assoc]
    exact List.perm_middle
  · exact List.perm_middle

/-! The headers other than that of the block `best` of the list. -/

section

variable {l rest : List Nat} {best : Nat}

theorem mem_others (ha : a ∈ l ++ rest ++ liveHdrs live) : a ∈ (l ++ best :: rest) ++ liveHdrs live :=
  (take_perm live l rest best (best + 32) 0 rfl).1.mem_iff.mpr (List.mem_cons_of_mem _ ha)

theorem best_mem : best ∈ (l ++ best :: rest) ++ liveHdrs live := List.mem_append_left _ (by simp)

theorem best_notMem (r : HeapRep h live (l ++ best :: rest) len) : best ∉ l ++ rest ++ liveHdrs live := by
  have hnodup := (take_perm live l rest best (best + 32) 0 rfl).1.nodup_iff.mp r.nodup
  exact (List.nodup_cons.mp hnodup).1

theorem ne_best (r : HeapRep h live (l ++ best :: rest) len) (ha : a ∈ l ++ rest ++ liveHdrs live) : a ≠ best :=
  fun e => r.best_notMem (e ▸ ha)

theorem apart_best (r : HeapRep h live (l ++ best :: rest) len) (ha : a ∈ l ++ rest ++ liveHdrs live) :
    a + 32 ≤ best ∨ best + 32 ≤ a :=
  r.hdr_apart (mem_others ha) best_mem (r.ne_best ha)

/-- The first word of a header is no link of a block before `best`. -/
theorem ne_link (r : HeapRep h live (l ++ best :: rest) len) (ha : a ∈ l ++ rest ++ liveHdrs live) {c : Nat}
    (hc : c ∈ l) : a ≠ c + 16 := by
  by_cases hac : a = c
  · omega
  · have := r.hdr_apart (mem_others ha) (List.mem_append_left _ (List.mem_append_left _ hc)) hac
    omega

/-- The header of a free block lies off every other header of the list. -/
theorem hdrOff (r : HeapRep h live (l ++ best :: rest) len) : Heap.HdrOff best (l ++ rest) :=
  fun _ hc => r.apart_best (List.mem_append_left _ hc)

/-- Nothing else begins within a block, so the header of a remainder is off all headers. -/
theorem hdrOff_split (r : HeapRep h live (l ++ best :: rest) len) {size : Nat} (hsize : size + 64 ≤ len best) :
    Heap.HdrOff (best + 32 + size) (best :: (l ++ rest ++ liveHdrs live)) := by
  intro c hc
  rcases List.mem_cons.mp hc with rfl | hc
  · omega
  · have hap := r.packed.apart (mem_others hc) best_mem (r.ne_best hc)
    have hhdr := (r.block c (mem_others hc)).header
    unfold Apart at hap
    omega

end

/-- A block that reaches over no header is as long as its header says. -/
theorem refresh {l rest : List Nat} {best : Nat} (r : HeapRep h live (l ++ best :: rest) len)
    (hroom : ∀ b ∈ (l ++ best :: rest) ++ liveHdrs live, b ≠ best → b < best ∨ best + 32 + h.mem.size best ≤ b) :
    HeapRep h live (l ++ best :: rest) (Function.update len best (32 + h.mem.size best)) := by
  have hperm := (take_perm live l rest best (best + 32) 0 rfl).1
  have hpk := r.packed.perm hperm
  have hnot := r.best_notMem
  refine { r with packed := ?_, block := fun a ha => ?_, payload := fun p hp => ?_ }
  · refine (hpk.resize hnot fun b hb => ?_).perm hperm.symm
    have := hroom b (hperm.mem_iff.mpr (List.mem_cons_of_mem _ hb)) fun e => hnot (e ▸ hb)
    omega
  · have hb := r.block a ha
    by_cases hab : a = best
    · subst hab
      refine ⟨hb.above, hb.aligned, ?_, ?_, hb.below⟩
      · rw [Function.update_self]
        omega
      · exact Nat.le_of_eq (Function.update_self _ _ _)
    · refine ⟨hb.above, hb.aligned, ?_, ?_, hb.below⟩
      · rw [Function.update_of_ne hab]
        exact hb.header
      · rw [Function.update_of_ne hab]
        exact hb.real
  · have hne : p.1 - 32 ≠ best := by
      intro e
      exact hnot (List.mem_append_right _ (e ▸ hdr_mem hp))
    rw [Function.update_of_ne hne]
    exact r.payload p hp

/-- **A whole block handed out.** -/
theorem takeWhole {l rest : List Nat} {best size ptr req : Nat} (r : HeapRep h live (l ++ best :: rest) len)
    (hlen : len best = 32 + h.mem.size best) (hfit : req ≤ h.mem.size best) (hsize : h.mem.size best < size + 48)
    (ht : h.takeBlock best size = some (ptr, h')) :
    ptr ≠ 0 ∧ HeapRep h' ((ptr, req) :: live) (l ++ rest) len ∧
      (Exact h (l ++ best :: rest) len → Exact h' (l ++ rest) len) := by
  obtain ⟨rfl, m, free, rfl, hchain, hmagic, hsz, hframe⟩ :=
    Heap.takeBlock_whole r.chain (List.nodup_append.mp r.nodup).1 r.hdrOff hsize ht
  obtain ⟨hperm, hperm'⟩ := take_perm live l rest best (best + 32) req rfl
  -- the first word of every other header is as before
  have hword : ∀ a ∈ l ++ rest ++ liveHdrs live, m a = h.mem a := by
    intro a ha
    have hoff := r.apart_best ha
    exact hframe a (by omega) fun c hc => r.ne_link ha hc
  have hbest := r.block best best_mem
  refine ⟨by omega, ⟨hchain, (r.packed.perm hperm).perm hperm'.symm, fun a ha => ?_, fun a ha => ?_,
    fun a ha => ?_, fun p hp => ?_, r.start, r.aligned, r.bottom, r.top⟩, fun hex a ha => ?_⟩
  · rcases List.mem_cons.mp (hperm'.mem_iff.mp ha) with rfl | ha
    · exact ⟨hbest.above, hbest.aligned, hbest.header, hsz ▸ hbest.real, hsz ▸ hbest.below⟩
    · exact (r.block a (mem_others ha)).congr (hword a ha) rfl (Nat.le_refl _)
  · rw [Words.magic_congr (hword a (List.mem_append_left _ ha))]
    exact r.free a (mem_middle ha)
  · rcases List.mem_cons.mp ha with rfl | ha
    · simpa [heapBlockHdrSize] using hmagic
    · rw [Words.magic_congr (hword a (List.mem_append_right _ ha))]
      exact r.used a ha
  · rcases List.mem_cons.mp hp with rfl | hp
    · simp only [Nat.add_sub_cancel, hlen]
      omega
    · exact r.payload p hp
  · show len a = 32 + m.size a
    rw [Words.size_congr (hword a (List.mem_append_left _ ha))]
    exact hex a (mem_middle ha)

/-- **A block split and its front handed out.** -/
theorem takeSplit {l rest : List Nat} {best size ptr req : Nat} (r : HeapRep h live (l ++ best :: rest) len)
    (hlen : len best = 32 + h.mem.size best) (hreq : req ≤ size) (halign : size % 16 = 0)
    (hsize : size + 48 ≤ h.mem.size best) (ht : h.takeBlock best size = some (ptr, h')) :
    ptr ≠ 0 ∧ ∃ split len', HeapRep h' ((ptr, req) :: live) (l ++ split :: rest) len' ∧
      (Exact h (l ++ best :: rest) len → Exact h' (l ++ split :: rest) len') := by
  obtain ⟨hperm, -⟩ := take_perm live l rest best (best + 32) req rfl
  have hbest := r.block best best_mem
  obtain ⟨split, hsplit⟩ : ∃ split, split = best + 32 + size := ⟨_, rfl⟩
  obtain ⟨hnew, hcut⟩ := (r.packed.perm hperm).cut (b := split) (n := 32 + size) r.best_notMem (by omega)
    (show 0 < h.mem.size best - size by omega) (by omega) (by omega)
  have hsplitOff : Heap.HdrOff split (best :: (l ++ rest ++ liveHdrs live)) := hsplit ▸ r.hdrOff_split (by omega)
  obtain ⟨rfl, m, free, rfl, hchain, hmagic, hsz, hmagic', hsz', hframe⟩ :=
    Heap.takeBlock_split r.chain (List.nodup_append.mp r.nodup).1 r.hdrOff hsize hsplit
      (fun c hc => hsplitOff c (hperm.mem_iff.mp (List.mem_append_left _ hc))) ht
  -- the two headers that are written are those of `best` and of the remainder; all others keep their words
  have hword : ∀ a ∈ l ++ rest ++ liveHdrs live, m a = h.mem a := by
    intro a ha
    have hoff := r.apart_best ha
    have hoff' := hsplitOff a (List.mem_cons_of_mem _ ha)
    exact hframe a (by omega) (by omega) fun c hc => r.ne_link ha hc
  have hlenOther : ∀ a ∈ l ++ rest ++ liveHdrs live,
      Function.update (Function.update len best (32 + size)) split (h.mem.size best - size) a = len a := by
    intro a ha
    have h1 : a ≠ split := by
      rintro rfl
      exact hnew (List.mem_cons_of_mem _ ha)
    have h2 := r.ne_best ha
    rw [Function.update_of_ne h1, Function.update_of_ne h2]
  have hlenBest : Function.update (Function.update len best (32 + size)) split (h.mem.size best - size) best =
      32 + size := by
    have h1 : best ≠ split := by omega
    rw [Function.update_of_ne h1, Function.update_self]
  have hperm' : ((l ++ split :: rest) ++ liveHdrs ((best + 32, req) :: live)).Perm
      (split :: best :: (l ++ rest ++ liveHdrs live)) := by
    have hhdr : liveHdrs ((best + 32, req) :: live) = best :: liveHdrs live := by
      simp [liveHdrs, heapBlockHdrSize]
    rw [hhdr, List.append_assoc, List.cons_append]
    refine List.perm_middle.trans (List.Perm.cons split ?_)
    rw [← List.append_assoc]
    exact List.perm_middle
  refine ⟨by omega, split, _, ⟨hchain, hcut.perm hperm'.symm, fun a ha => ?_, fun a ha => ?_,
    fun a ha => ?_, fun p hp => ?_, r.start, r.aligned, r.bottom, r.top⟩, fun hex a ha => ?_⟩
  · have h1 := hbest.above
    have h2 := hbest.aligned
    have h3 := hbest.below
    -- the remainder, the block that is handed out, and the others
    rcases List.mem_cons.mp (hperm'.mem_iff.mp ha) with rfl | ha
    · refine ⟨?_, ?_, ?_, ?_, ?_⟩
      · show h.heapStart ≤ a
        omega
      · omega
      · rw [Function.update_self]
        omega
      · rw [Function.update_self]
        show h.mem.size best - size ≤ 32 + m.size a
        omega
      · show a + 32 + m.size a ≤ h.heapEnd
        omega
    · rcases List.mem_cons.mp ha with rfl | ha
      · -- its record is the old one
        refine ⟨h1, h2, ?_, ?_, hsz ▸ h3⟩
        · rw [hlenBest]
          omega
        · rw [hlenBest]
          show 32 + size ≤ 32 + m.size a
          omega
      · -- the others are where and what they were
        have hb := r.block a (mem_others ha)
        have hsame := Words.size_congr (hword a ha)
        refine ⟨hb.above, hb.aligned, ?_, ?_, hsame ▸ hb.below⟩
        · rw [hlenOther a ha]
          exact hb.header
        · rw [hlenOther a ha]
          exact hsame ▸ hb.real
  · -- on the list: the others and the remainder are marked free
    have hold : ∀ c ∈ l ++ rest, m.magic c = heapMagicFree := by
      intro c hc
      rw [Words.magic_congr (hword c (List.mem_append_left _ hc))]
      exact r.free c (mem_middle hc)
    rcases List.mem_append.mp ha with ha | ha
    · exact hold a (List.mem_append_left _ ha)
    · rcases List.mem_cons.mp ha with rfl | ha
      · exact hmagic'
      · exact hold a (List.mem_append_right _ ha)
  · rcases List.mem_cons.mp ha with rfl | ha
    · simpa [heapBlockHdrSize] using hmagic
    · rw [Words.magic_congr (hword a (List.mem_append_right _ ha))]
      exact r.used a ha
  · rcases List.mem_cons.mp hp with rfl | hp
    · simp only [Nat.add_sub_cancel, hlenBest]
      omega
    · rw [hlenOther _ (List.mem_append_right _ (hdr_mem hp))]
      exact r.payload p hp
  · -- lengths and records of the list agree if they did before; the remainder is recorded as long as it is
    have hold : ∀ c ∈ l ++ rest,
        Function.update (Function.update len best (32 + size)) split (h.mem.size best - size) c = 32 + m.size c := by
      intro c hc
      rw [hlenOther c (List.mem_append_left _ hc), Words.size_congr (hword c (List.mem_append_left _ hc))]
      exact hex c (mem_middle hc)
    rcases List.mem_append.mp ha with ha | ha
    · exact hold a (List.mem_append_left _ ha)
    · rcases List.mem_cons.mp ha with rfl | ha
      · rw [Function.update_self]
        show h.mem.size best - size = 32 + m.size a
        omega
      · exact hold a (List.mem_append_right _ ha)

/-! ### Growing, freeing, storing

What else may happen between two allocations: pages appear at the end, a block comes to the front of the list, a
client writes to what it owns, and frames come and go.
-/

theorem top_lt (r : HeapRep h live fl len) : h.heapEnd + h.avail * pageSize < 2 ^ 64 := by
  have := r.top
  unfold heapVirtBase pmmMaxPages at this
  unfold pageSize at this ⊢
  omega

/-- **The heap grown**, with or without a new block. -/
theorem grow (r : HeapRep h live fl len) {need : Nat} {ok : Bool} (hg : h.heapGrow need = some (ok, h')) :
    (∀ a ∈ fl, h'.mem.size a = h.mem.size a) ∧ (ok = false → HeapRep h' live fl len) ∧
    (ok = true → h.heapEnd + 32 + h'.mem.size h.heapEnd ≤ h'.heapEnd ∧
      ∃ len', HeapRep h' live (h.heapEnd :: fl) len' ∧ (Exact h fl len → Exact h' (h.heapEnd :: fl) len')) := by
  obtain ⟨k, hk, -, hstart, hend, havail, -, -, hbelow, hfail, hdone⟩ := Heap.growBy_spec r.top_lt hg
  have htop : h'.heapEnd + h'.avail * pageSize = h.heapEnd + h.avail * pageSize := by
    rw [hend, havail]
    unfold pageSize
    omega
  have haligned : h'.heapEnd % pageSize = 0 := by
    rw [hend, Nat.add_mul_mod_self_right]
    exact r.aligned
  have hle : h.heapEnd ≤ h'.heapEnd := by
    rw [hend]
    exact Nat.le_add_right _ _
  have hbottom : h'.heapStart ≤ h'.heapEnd := by
    rw [hstart]
    exact Nat.le_trans r.bottom hle
  -- every block lies below the old end of the heap
  have hlow : ∀ a ∈ fl ++ liveHdrs live, a + 32 ≤ h.heapEnd ∧ a + len a ≤ h.heapEnd := by
    intro a ha
    have hb := r.block a ha
    have h1 := hb.header
    have h2 := hb.real
    have h3 := hb.below
    omega
  have hword : ∀ a ∈ fl ++ liveHdrs live, h'.mem a = h.mem a := by
    intro a ha
    have := hlow a ha
    exact hbelow a (by omega)
  have hlink : ∀ a ∈ fl, h'.mem.next a = h.mem.next a := by
    intro a ha
    have := hlow a (List.mem_append_left _ ha)
    exact hbelow (a + 16) (by omega)
  have hsizes : ∀ a ∈ fl, h'.mem.size a = h.mem.size a :=
    fun a ha => Words.size_congr (hword a (List.mem_append_left _ ha))
  refine ⟨hsizes, ?_, ?_⟩
  · intro hok
    have hfree := hfail hok
    exact ⟨hfree ▸ r.chain.congr hlink, r.packed,
      fun a ha => (r.block a ha).congr (hword a ha) hstart hle,
      fun a ha => (Words.magic_congr (hword a (List.mem_append_left _ ha))).trans (r.free a ha),
      fun a ha => (Words.magic_congr (hword a (List.mem_append_right _ ha))).trans (r.used a ha),
      r.payload, hstart.trans r.start, haligned, hbottom, htop ▸ r.top⟩
  · intro hok
    obtain ⟨hk0, -, hfree, hnext, hmagic, hsize⟩ := hdone hok
    have hnew : h.heapEnd ∉ fl ++ liveHdrs live := by
      intro hm
      have := hlow _ hm
      omega
    have hlenOther : ∀ a ∈ fl ++ liveHdrs live,
        Function.update len h.heapEnd (32 + h'.mem.size h.heapEnd) a = len a := by
      intro a ha
      have hne : a ≠ h.heapEnd := fun e => hnew (e ▸ ha)
      rw [Function.update_of_ne hne]
    have hfits : h.heapEnd + 32 + h'.mem.size h.heapEnd ≤ h'.heapEnd := by
      rw [hsize, hend]
      have := Nat.mod_le (k * pageSize - 32) (2 ^ 32)
      unfold pageSize at this ⊢
      omega
    refine ⟨hfits, Function.update len h.heapEnd (32 + h'.mem.size h.heapEnd),
      ⟨?_, ?_, fun a ha => ?_, fun a ha => ?_,
        fun a ha => ?_, fun p hp => ?_, hstart.trans r.start, haligned, hbottom, htop ▸ r.top⟩, fun hex a ha => ?_⟩
    · refine ⟨hfree, ?_, ?_⟩
      · have := r.bottom
        rw [r.start] at this
        unfold heapVirtBase at this
        omega
      · rw [hnext]
        exact r.chain.congr hlink
    · refine Packed.cons_iff.mpr ⟨fun b hb => ?_, r.packed.congr hlenOther⟩
      have := hlow b hb
      unfold Apart
      rw [hlenOther b hb]
      omega
    · rcases List.mem_cons.mp ha with rfl | ha
      · refine ⟨hstart ▸ r.bottom, ?_, ?_, ?_, hfits⟩
        · have := r.aligned
          unfold pageSize at this
          omega
        · rw [Function.update_self]
          omega
        · exact Nat.le_of_eq (Function.update_self _ _ _)
      · have hb : BlockRep h' len a := (r.block a ha).congr (hword a ha) hstart hle
        exact ⟨hb.above, hb.aligned, (hlenOther a ha).symm ▸ hb.header, (hlenOther a ha).symm ▸ hb.real, hb.below⟩
    · rcases List.mem_cons.mp ha with rfl | ha
      · exact hmagic
      · rw [Words.magic_congr (hword a (List.mem_append_left _ ha))]
        exact r.free a ha
    · rw [Words.magic_congr (hword a (List.mem_append_right _ ha))]
      exact r.used a ha
    · rw [hlenOther _ (List.mem_append_right _ (hdr_mem hp))]
      exact r.payload p hp
    · rcases List.mem_cons.mp ha with rfl | ha
      · rw [Function.update_self]
      · rw [hlenOther a (List.mem_append_left _ ha), hsizes a ha]
        exact hex a ha

/-- **The loop of `kmalloc`**, when no smallest sufficient block reaches over another header. -/
theorem retry {size req fuel ptr : Nat} (r : HeapRep h live fl len) (hreq : req ≤ size) (halign : size % 16 = 0)
    (hroom : ∀ a ∈ fl, size ≤ h.mem.size a → (∀ b ∈ fl, size ≤ h.mem.size b → h.mem.size a ≤ h.mem.size b) →
      ∀ b ∈ fl ++ liveHdrs live, b ≠ a → b < a ∨ a + 32 + h.mem.size a ≤ b)
    (hk : Heap.retry size fuel h = some (ptr, h')) :
    ∃ fl' len', HeapRep h' (if ptr = 0 then live else (ptr, req) :: live) fl' len' ∧
      (Exact h fl len → Exact h' fl' len') := by
  induction fuel generalizing h fl len with
  | zero => cases hk
  | succ fuel ih =>
      unfold Heap.retry at hk
      obtain ⟨best, hbest, hk⟩ := Option.bind_eq_some_iff.mp hk
      rcases Heap.searchBest_spec r.chain hbest with ⟨rfl, hnone⟩ | ⟨hmem, hge, -, hmin⟩
      · -- no block suffices: grow, and if that worked try again with the new block in front
        rw [if_pos rfl] at hk
        obtain ⟨⟨ok, h₁⟩, hg, hk⟩ := Option.bind_eq_some_iff.mp hk
        obtain ⟨hsizes, hfail, hdone⟩ := r.grow hg
        cases ok with
        | false =>
            cases hk
            rw [if_pos rfl]
            refine ⟨fl, len, hfail rfl, fun hex a ha => ?_⟩
            rw [hsizes a ha]
            exact hex a ha
        | true =>
            obtain ⟨hfits, len₁, r₁, hex₁⟩ := hdone rfl
            have hroom₁ : ∀ a ∈ h.heapEnd :: fl, size ≤ h₁.mem.size a →
                (∀ b ∈ h.heapEnd :: fl, size ≤ h₁.mem.size b → h₁.mem.size a ≤ h₁.mem.size b) →
                ∀ b ∈ h.heapEnd :: fl ++ liveHdrs live, b ≠ a → b < a ∨ a + 32 + h₁.mem.size a ≤ b := by
              intro a ha hsize _ b hb hne
              rcases List.mem_cons.mp ha with rfl | ha
              · -- all other blocks lie below the new one
                rcases List.mem_cons.mp hb with rfl | hb
                · exact absurd rfl hne
                · have hbl := r.block b hb
                  have h1 := hbl.below
                  omega
              · rw [hsizes a ha] at hsize
                have h1 := hnone a ha hsize
                have h2 := h.mem.size_lt (b := a)
                unfold sizeMax at h1
                omega
            obtain ⟨fl', len', r', hex'⟩ := ih r₁ hroom₁ hk
            exact ⟨fl', len', r', fun hex => hex' (hex₁ hex)⟩
      · have hne : best ≠ 0 := r.chain.ne_zero hmem
        rw [if_neg hne] at hk
        have hroom' := hroom best hmem hge hmin
        obtain ⟨l, rest, rfl⟩ := List.append_of_mem hmem
        have r' := r.refresh hroom'
        have hex₀ : Exact h (l ++ best :: rest) len →
            Exact h (l ++ best :: rest) (Function.update len best (32 + h.mem.size best)) := by
          intro hex a ha
          by_cases hab : a = best
          · rw [hab, Function.update_self]
          · rw [Function.update_of_ne hab]
            exact hex a ha
        by_cases hsplit : size + 48 ≤ h.mem.size best
        · obtain ⟨hptr, split, len', hrep, hex'⟩ := r'.takeSplit (Function.update_self _ _ _) hreq halign hsplit hk
          rw [if_neg hptr]
          exact ⟨_, len', hrep, fun hex => hex' (hex₀ hex)⟩
        · obtain ⟨hptr, hrep, hex'⟩ := r'.takeWhole (Function.update_self _ _ _) (Nat.le_trans hreq hge) (by omega) hk
          rw [if_neg hptr]
          exact ⟨_, _, hrep, fun hex => hex' (hex₀ hex)⟩

/-! ### Giving back and storing

A freed block comes to the front of the list with the length that it has. A store to a payload and changes above the
heap reach no header.
-/

/-- **A block freed** goes to the front of the list with the length it has. -/
theorem kfree {ptr : Nat} (r : HeapRep h live fl len) (hptr : ptr ∈ live.map Prod.fst)
    (hf : h.kfree ptr = some h') :
    HeapRep h' (live.eraseP fun l => l.1 = ptr) ((ptr - 32) :: fl) len := by
  obtain ⟨l, hl, hlp⟩ := List.mem_map.mp hptr
  obtain ⟨q, l₁, l₂, -, hq, rfl, herase⟩ := List.exists_of_eraseP hl (p := fun l => l.1 = ptr) (by simp [hlp])
  have hqp : q.1 = ptr := by simpa using hq
  subst hqp
  rw [herase]
  have hqm : q ∈ l₁ ++ q :: l₂ := by simp
  have hperm : (fl ++ liveHdrs (l₁ ++ q :: l₂)).Perm ((q.1 - 32) :: (fl ++ liveHdrs (l₁ ++ l₂))) := by
    simp only [liveHdrs, List.map_append, List.map_cons, ← List.append_assoc]
    exact List.perm_middle
  have hnot := (List.nodup_cons.mp (hperm.nodup_iff.mp r.nodup)).1
  have hblk := r.block _ (hperm.mem_iff.mpr List.mem_cons_self)
  have hptr32 := r.ptr_eq hqm
  -- the tests of `kfree`: the pointer is not null, and the header is that of a used block
  unfold Heap.kfree at hf
  rw [if_neg (by omega)] at hf
  simp only [heapBlockHdrSize, r.used _ (hdr_mem hqm)] at hf
  rw [if_neg (by decide), if_neg (by simp)] at hf
  cases hf
  generalize hm : ((h.mem.setMagic (q.1 - 32) heapMagicFree).setChecksum (q.1 - 32)).setNext (q.1 - 32) h.freeList = m
  -- nothing is written outside the header of the block
  have hout : ∀ w, w < q.1 - 32 ∨ q.1 - 32 + 32 ≤ w → m w = h.mem w := by
    intro w hw
    rw [← hm, Words.setNext_of_ne (by omega), Words.setChecksum_of_ne (by omega), Words.setMagic_of_ne (by omega)]
  have hhead : m (q.1 - 32) = h.mem.setMagic (q.1 - 32) heapMagicFree (q.1 - 32) := by
    rw [← hm, Words.setNext_of_ne (by omega), Words.setChecksum_of_ne (by omega)]
  have hoff : ∀ a ∈ fl ++ liveHdrs (l₁ ++ l₂), a + 32 ≤ q.1 - 32 ∨ q.1 - 32 + 32 ≤ a := by
    intro a ha
    have hne : a ≠ q.1 - 32 := fun e => hnot (e ▸ ha)
    exact r.hdr_apart (hperm.mem_iff.mpr (List.mem_cons_of_mem _ ha)) (hperm.mem_iff.mpr List.mem_cons_self) hne
  have hword : ∀ a ∈ fl ++ liveHdrs (l₁ ++ l₂), m a = h.mem a := by
    intro a ha
    have := hoff a ha
    exact hout a (by omega)
  refine ⟨⟨rfl, ?_, ?_⟩, r.packed.perm hperm, fun a ha => ?_, fun a ha => ?_, fun a ha => ?_,
    fun p hp => r.payload p (mem_middle hp), r.start, r.aligned, r.bottom, r.top⟩
  · have := hblk.above
    rw [r.start] at this
    unfold heapVirtBase at this
    omega
  · -- its link leads to what was the first block; the links of the list are as they were
    have hnext : m.next (q.1 - 32) = h.freeList := by
      rw [← hm]
      exact Words.next_setNext
    show Chain m.next (m.next (q.1 - 32)) fl
    rw [hnext]
    exact Heap.chain_of_out r.chain (fun a ha => hoff a (List.mem_append_left _ ha)) hout
  · rcases List.mem_cons.mp ha with rfl | ha
    · have hsize : m.size (q.1 - 32) = h.mem.size (q.1 - 32) := by
        rw [Words.size_congr hhead]
        exact Words.size_setMagic (by decide)
      exact ⟨hblk.above, hblk.aligned, hblk.header, hsize ▸ hblk.real, hsize ▸ hblk.below⟩
    · exact (r.block a (hperm.mem_iff.mpr (List.mem_cons_of_mem _ ha))).congr (hword a ha) rfl (Nat.le_refl _)
  · rcases List.mem_cons.mp ha with rfl | ha
    · show m.magic (q.1 - 32) = heapMagicFree
      rw [Words.magic_congr hhead]
      exact Words.magic_setMagic (by decide)
    · show m.magic a = heapMagicFree
      rw [Words.magic_congr (hword a (List.mem_append_left _ ha))]
      exact r.free a ha
  · show m.magic a = heapMagicUsed
    rw [Words.magic_congr (hword a (List.mem_append_right _ ha))]
    obtain ⟨p, hp, rfl⟩ := List.mem_map.mp ha
    exact r.used _ (hdr_mem (mem_middle hp))

/-- A store into a payload reaches no header. -/
theorem store (r : HeapRep h live fl len) {l : Nat × Nat} (hl : l ∈ live) {addr v : Nat} (hge : l.1 ≤ addr)
    (hlt : addr < l.1 + l.2) :
    HeapRep { h with mem := Function.update h.mem (addr / 8 * 8) v } live fl len := by
  have hptr := r.ptr_eq hl
  have hown := hdr_mem hl
  have hblk := r.block _ (List.mem_append_right fl hown)
  have hlen := r.payload l hl
  have halign := hblk.aligned
  have hout : ∀ a ∈ fl ++ liveHdrs live, ∀ w, a ≤ w → w < a + 32 →
      Function.update h.mem (addr / 8 * 8) v w = h.mem w := by
    intro a ha w h1 h2
    refine Function.update_of_ne ?_ _ _
    by_cases hne : a = l.1 - 32
    · omega
    · have hap := r.packed.apart ha (List.mem_append_right fl hown) hne
      have hhdr := (r.block a ha).header
      have haal := (r.block a ha).aligned
      unfold Apart at hap
      omega
  have hword : ∀ a ∈ fl ++ liveHdrs live, Function.update h.mem (addr / 8 * 8) v a = h.mem a :=
    fun a ha => hout a ha a (Nat.le_refl _) (by omega)
  refine ⟨r.chain.congr fun a ha => ?_, r.packed, fun a ha => (r.block a ha).congr (hword a ha) rfl (Nat.le_refl _),
    fun a ha => ?_, fun a ha => ?_, r.payload, r.start, r.aligned, r.bottom, r.top⟩
  · exact hout a (List.mem_append_left _ ha) (a + 16) (by omega) (by omega)
  · exact (Words.magic_congr (hword a (List.mem_append_left _ ha))).trans (r.free a ha)
  · exact (Words.magic_congr (hword a (List.mem_append_right _ ha))).trans (r.used a ha)

/-- Another number of pages that can be had. -/
theorem frames (r : HeapRep h live fl len) {n : Nat}
    (hn : (h.heapEnd - h.heapStart) / pageSize + n ≤ pmmMaxPages) :
    HeapRep { h with avail := n } live fl len := by
  have h1 := r.start
  have h2 := r.aligned
  have h3 := r.bottom
  refine { r with top := ?_, block := fun a ha => (r.block a ha).congr rfl rfl (Nat.le_refl _) }
  show h.heapEnd + n * pageSize ≤ heapVirtBase + pmmMaxPages * pageSize
  unfold heapVirtBase at h1 ⊢
  unfold pmmMaxPages pageSize at *
  omega

/-- Memory above the heap changes, and pages are taken for other uses. -/
theorem outside (r : HeapRep h live fl len) (hstart : h'.heapStart = h.heapStart) (hend : h'.heapEnd = h.heapEnd)
    (hfree : h'.freeList = h.freeList) (havail : h'.avail ≤ h.avail)
    (hmem : ∀ w < h.heapEnd, h'.mem w = h.mem w) :
    HeapRep h' live fl len ∧ ∀ a ∈ fl, h'.mem.size a = h.mem.size a := by
  have hlow : ∀ a ∈ fl ++ liveHdrs live, ∀ o < 32, h'.mem (a + o) = h.mem (a + o) := by
    intro a ha o ho
    have := (r.block a ha).below
    exact hmem (a + o) (by omega)
  have hword : ∀ a ∈ fl ++ liveHdrs live, h'.mem a = h.mem a := fun a ha => hlow a ha 0 (by decide)
  have htop : h'.heapEnd + h'.avail * pageSize ≤ h.heapEnd + h.avail * pageSize := by
    rw [hend]
    exact Nat.add_le_add_left (Nat.mul_le_mul_right _ havail) _
  refine ⟨⟨?_, r.packed, fun a ha => ?_, fun a ha => ?_, fun a ha => ?_, r.payload, hstart.trans r.start, ?_, ?_, ?_⟩,
    fun a ha => Words.size_congr (hword a (List.mem_append_left _ ha))⟩
  · rw [hfree]
    exact r.chain.congr fun a ha => hlow a (List.mem_append_left _ ha) 16 (by decide)
  · exact (r.block a ha).congr (hword a ha) hstart (Nat.le_of_eq hend.symm)
  · exact (Words.magic_congr (hword a (List.mem_append_left _ ha))).trans (r.free a ha)
  · exact (Words.magic_congr (hword a (List.mem_append_right _ ha))).trans (r.used a ha)
  · rw [hend]
    exact r.aligned
  · rw [hstart, hend]
    exact r.bottom
  · exact Nat.le_trans htop r.top

end HeapRep

/-! ### The start

One free block over the whole initial heap.
-/

/-- **`heap_init`** makes one free block. -/
theorem heapInit_rep {mem : Words} {avail : Nat} {h : Heap} (havail : avail ≤ pmmMaxPages)
    (hi : Heap.heapInit mem avail = some h) :
    ∃ fl len k, HeapRep h [] fl len ∧ Exact h fl len ∧ k ≤ avail ∧ k ≤ heapInitSize / pageSize ∧
      h.heapEnd = heapVirtBase + k * pageSize ∧ h.avail = avail - k ∧ h.slabVirt = 0 := by
  simp only [Heap.heapInit] at hi
  generalize hs : Heap.mk mem 0 heapVirtBase heapVirtBase (fun _ => ⟨0, 0, 0⟩) 0 avail = s at hi
  obtain ⟨ok, t, ht⟩ : ∃ ok t, Heap.mapPages (heapInitSize / pageSize) s = (ok, t) := ⟨_, _, rfl⟩
  have htop : s.heapEnd + s.avail * pageSize < 2 ^ 64 := by
    rw [← hs]
    unfold pmmMaxPages at havail
    simp only [heapVirtBase, pageSize]
    omega
  obtain ⟨k, hk, hkn, rfl, -⟩ := Heap.mapPages_spec htop ht
  rw [ht] at hi
  subst hs
  simp only at hi hk
  split at hi
  · cases hi
  · rename_i hpages
    -- no page at all is the panic of `heap_init`; with fewer than asked for it goes on
    have hk0 : 0 < k := by
      rcases Nat.eq_zero_or_pos k with rfl | hpos
      · simp at hpages
      · exact hpos
    cases hi
    -- the header of the one block, field by field
    generalize hm : (((((mem.mapZeroed heapVirtBase (heapVirtBase + k * pageSize)).setMagic heapVirtBase
      heapMagicFree).setSize heapVirtBase
      ((heapVirtBase + k * pageSize - heapVirtBase - heapBlockHdrSize) % 2 ^ 32)).setPrev heapVirtBase 0).setNext
        heapVirtBase 0).setChecksum heapVirtBase = m
    have hword : m heapVirtBase = (((mem.mapZeroed heapVirtBase
        (heapVirtBase + k * pageSize)).setMagic heapVirtBase heapMagicFree).setSize heapVirtBase
        ((heapVirtBase + k * pageSize - heapVirtBase - heapBlockHdrSize) % 2 ^ 32)) heapVirtBase := by
      rw [← hm, Words.setChecksum_of_ne (by omega), Words.setNext_of_ne (by omega), Words.setPrev_of_ne (by omega)]
    have hnext : m.next heapVirtBase = 0 := by
      have h1 : m.next heapVirtBase = ((((mem.mapZeroed heapVirtBase
          (heapVirtBase + k * pageSize)).setMagic heapVirtBase heapMagicFree).setSize heapVirtBase
          ((heapVirtBase + k * pageSize - heapVirtBase - heapBlockHdrSize) % 2 ^ 32)).setPrev heapVirtBase 0).setNext
            heapVirtBase 0 (heapVirtBase + 16) := by
        rw [← hm]
        exact Words.setChecksum_of_ne (by omega)
      rw [h1]
      exact Words.next_setNext
    -- the record has 32 bits, so it is the room of the block or less
    have hsize : m.size heapVirtBase + 32 ≤ k * pageSize := by
      rw [Words.size_congr hword, Words.size_setSize (Nat.mod_lt _ (by decide))]
      have := Nat.mod_le (heapVirtBase + k * pageSize - heapVirtBase - heapBlockHdrSize) (2 ^ 32)
      unfold pageSize heapBlockHdrSize at this
      unfold pageSize heapBlockHdrSize
      omega
    refine ⟨[heapVirtBase], fun _ => 32 + m.size heapVirtBase, k, ⟨⟨rfl, by decide, hnext⟩,
      List.pairwise_singleton _ _, fun a ha => ?_, fun a ha => ?_, by simp [liveHdrs], by simp, rfl, ?_, ?_, ?_⟩,
      fun a ha => ?_, hk, hkn, rfl, rfl, rfl⟩
    · obtain rfl : a = heapVirtBase := by simpa [liveHdrs] using ha
      refine ⟨Nat.le_refl _, by decide, by omega, Nat.le_refl _, ?_⟩
      show heapVirtBase + 32 + m.size heapVirtBase ≤ heapVirtBase + k * pageSize
      omega
    · obtain rfl : a = heapVirtBase := by simpa using ha
      show m.magic heapVirtBase = heapMagicFree
      rw [Words.magic_congr hword, Words.magic_setSize]
      exact Words.magic_setMagic (by decide)
    · show (heapVirtBase + k * pageSize) % pageSize = 0
      rw [Nat.add_mul_mod_self_right]
      decide
    · exact Nat.le_add_right _ _
    · show heapVirtBase + k * pageSize + (avail - k) * pageSize ≤ heapVirtBase + pmmMaxPages * pageSize
      unfold pageSize
      omega
    · obtain rfl : a = heapVirtBase := by simpa using ha
      rfl

/-! ## Runs

The induction over a run is `Run.invariant`; the examples behind it are a run that meets the condition although a
block with a wrong record is on the list, and the shortest one that does not.
-/

/-- Sizes beyond the largest slab object go past the slab caches. -/
theorem slabServe_large {h : Heap} {size : Nat} (hs : 32768 < size) : h.slabServe size = (0, h) := by
  have hnone : Heap.slabFindCache size = none := by
    simp only [Heap.slabFindCache, slabSizes, List.findIdx?_eq_none_iff]
    intro x hx
    simp only [List.mem_cons, List.not_mem_nil, or_false] at hx
    simp only [decide_eq_false_iff_not]
    omega
  rw [Heap.slabServe, hnone]

/-- **One step** keeps the invariant. -/
theorem HeapRep.step {sys sys' : HeapSys} {op : HeapOp} (hr : ∃ fl len, HeapRep sys.heap sys.live fl len)
    (hok : SizesTrue sys op) (hs : heapStep sys op = some sys') :
    ∃ fl len, HeapRep sys'.heap sys'.live fl len := by
  obtain ⟨fl, len, r⟩ := hr
  cases op with
  | kmalloc size =>
      simp only [heapStep, Option.ite_none_right_eq_some, Option.map_eq_some_iff] at hs
      obtain ⟨⟨hbig, -, -⟩, ⟨ptr, h'⟩, hk, rfl⟩ := hs
      obtain ⟨hmax, hroom⟩ := (sizesTrue_iff r.chain).mp hok
      have hround : roundUp size heapAlign = (size + 15) / 16 * 16 := by
        unfold roundUp heapAlign
        rw [Nat.mod_eq_of_lt (by omega)]
      unfold Heap.kmalloc at hk
      rw [if_neg (by omega)] at hk
      simp only [slabServe_large (show 32768 < roundUp size heapAlign by omega)] at hk
      have hreq : size ≤ roundUp size heapAlign := by omega
      obtain ⟨fl', len', r', -⟩ := r.retry hreq (by omega) hroom hk
      exact ⟨fl', len', r'⟩
  | kfree ptr =>
      simp only [heapStep, Option.ite_none_right_eq_some, Option.map_eq_some_iff] at hs
      obtain ⟨hptr, h', hf, rfl⟩ := hs
      exact ⟨_, len, r.kfree hptr hf⟩
  | store ptr addr v =>
      simp only [heapStep, Option.ite_none_right_eq_some, Option.some.injEq] at hs
      obtain ⟨⟨l, hl, rfl, hge, hlt⟩, rfl⟩ := hs
      exact ⟨fl, len, r.store hl hge hlt⟩
  | frames n =>
      simp only [heapStep, Option.ite_none_right_eq_some, Option.some.injEq] at hs
      obtain ⟨hn, rfl⟩ := hs
      exact ⟨fl, len, r.frames hn⟩

/-- **Payloads stay apart.** In every run from `heap_init` in which `kmalloc` never meets a block of the smallest
    sufficient size that reaches over another header, the payloads of the live allocations overlap neither one
    another nor a header on the free list. -/
theorem heap_payloads_apart (mem : Words) (avail : Nat) (h₀ : Heap) (ops : List HeapOp) (sys : HeapSys)
    (havail : avail ≤ pmmMaxPages) (hinit : Heap.heapInit mem avail = some h₀)
    (hrun : Run (Guarded SizesTrue (Graph heapStep)) ⟨h₀, []⟩ ops sys) : HeapSafe sys := by
  have hinv : ∃ fl len, HeapRep sys.heap sys.live fl len := by
    obtain ⟨fl, len, -, r, -⟩ := heapInit_rep havail hinit
    refine hrun.invariant (fun s => ∃ fl len, HeapRep s.heap s.live fl len) ⟨fl, len, r⟩ ?_
    intro s op t hs hstep
    exact HeapRep.step hs hstep.1 hstep.2
  obtain ⟨fl, len, r⟩ := hinv
  exact r.safe

/-- The heap right after `heap_init` on a machine with memory enough. -/
def freshHeap : Heap := (Heap.heapInit (fun _ => 0) 2048).get (by decide +kernel)

theorem freshHeap_init : Heap.heapInit (fun _ => 0) 2048 = some freshHeap := by
  simp [freshHeap]

/-- 40000 bytes allocated, freed and allocated again: the second time there is an oversized block on the list,
    but a smaller one suffices. -/
theorem heap_payloads_apart_again :
    ∃ h₀ sys, Heap.heapInit (fun _ => 0) 2048 = some h₀ ∧
      Run (Guarded SizesTrue (Graph heapStep)) ⟨h₀, []⟩
        [.kmalloc 40000, .kfree (heapVirtBase + 32), .kmalloc 40000] sys ∧
      sys.live = [(heapVirtBase + 40064, 40000)] ∧ HeapSafe sys := by
  obtain ⟨h₀, hh₀⟩ : ∃ h₀, h₀ = freshHeap := ⟨_, rfl⟩
  have hinit : Heap.heapInit (fun _ => 0) 2048 = some h₀ := hh₀ ▸ freshHeap_init
  have hok₁ : SizesTrue (after heapStep ⟨h₀, []⟩ []) (.kmalloc 40000) := by
    have hchain : Chain h₀.mem.next h₀.freeList [heapVirtBase] := by
      rw [hh₀]; decide +kernel
    refine (sizesTrue_iff hchain).mpr ?_
    rw [hh₀]; decide +kernel
  have hok₃ : SizesTrue (after heapStep ⟨h₀, []⟩ [.kmalloc 40000, .kfree (heapVirtBase + 32)]) (.kmalloc 40000) := by
    have hchain : Chain (after heapStep ⟨h₀, []⟩ [.kmalloc 40000, .kfree (heapVirtBase + 32)]).heap.mem.next
        (after heapStep ⟨h₀, []⟩ [.kmalloc 40000, .kfree (heapVirtBase + 32)]).heap.freeList
        [heapVirtBase, heapVirtBase + 40032] := by
      rw [hh₀]; decide +kernel
    refine (sizesTrue_iff hchain).mpr ?_
    rw [hh₀]; decide +kernel
  have hrun₀ : Run (Guarded SizesTrue (Graph heapStep)) ⟨h₀, []⟩ [] (after heapStep ⟨h₀, []⟩ []) := .refl
  have hrun₁ := hrun₀.tail_after (.kmalloc 40000) hok₁ (by rw [hh₀]; decide +kernel)
  have hrun₂ := hrun₁.tail_after (.kfree (heapVirtBase + 32)) trivial (by rw [hh₀]; decide +kernel)
  have hrun₃ := hrun₂.tail_after (.kmalloc 40000) hok₃ (by rw [hh₀]; decide +kernel)
  have hlive : (after heapStep ⟨h₀, []⟩ [.kmalloc 40000, .kfree (heapVirtBase + 32), .kmalloc 40000]).live =
      [(heapVirtBase + 40064, 40000)] := by
    rw [hh₀]; decide +kernel
  exact ⟨h₀, _, hinit, hrun₃, hlive, heap_payloads_apart _ 2048 _ _ _ (by decide) hinit hrun₃⟩

/-- The first block is split for 40000 bytes and freed with its old size recorded; asked for that size, `kmalloc`
    hands it out over the remainder that is still on the list. -/
theorem heap_payload_over_free_header :
    ∃ h₀ sys, Heap.heapInit (fun _ => 0) 2048 = some h₀ ∧
      Run (Graph heapStep) ⟨h₀, []⟩
        [.kmalloc 40000, .kfree (heapVirtBase + 32), .kmalloc 4194272] sys ∧ ¬ HeapSafe sys := by
  obtain ⟨h₀, hh₀⟩ : ∃ h₀, h₀ = freshHeap := ⟨_, rfl⟩
  have hsome : ([HeapOp.kmalloc 40000, .kfree (heapVirtBase + 32), .kmalloc 4194272].foldlM heapStep
      ⟨h₀, []⟩).isSome := by
    rw [hh₀]; decide +kernel
  have hlive : (heapVirtBase + 32, 4194272) ∈ (after heapStep ⟨h₀, []⟩
      [.kmalloc 40000, .kfree (heapVirtBase + 32), .kmalloc 4194272]).live := by
    rw [hh₀]; decide +kernel
  have hchain : ∃ fl, Chain (after heapStep ⟨h₀, []⟩
        [.kmalloc 40000, .kfree (heapVirtBase + 32), .kmalloc 4194272]).heap.mem.next
      (after heapStep ⟨h₀, []⟩ [.kmalloc 40000, .kfree (heapVirtBase + 32), .kmalloc 4194272]).heap.freeList fl ∧
      heapVirtBase + 40032 ∈ fl := by
    rw [hh₀]; exact ⟨[heapVirtBase + 40032], by decide +kernel, by decide⟩
  obtain ⟨fl, hchain, hmem⟩ := hchain
  refine ⟨h₀, _, hh₀ ▸ freshHeap_init, Run.of_after hsome, fun hsafe => ?_⟩
  have hhdr := hsafe.headers _ hlive (heapVirtBase + 40032) (hchain.visits_iff.mpr hmem)
  simp only [heapBlockHdrSize] at hhdr
  omega

end MyUnix.Mm
