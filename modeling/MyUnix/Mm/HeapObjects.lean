import MyUnix.Mm.HeapBytes

/-!
# `Mm.HeapObjects` — the heap as separate objects

What the kernel wants of its heap: an allocation is an object of its own, its bytes are what its owner stored there last,
`kzalloc` and `kcalloc` hand out zeros, and `krealloc` takes the bytes along. `Objects` says this without any address
arithmetic; the heap of `heap.c` does it as long as `kmalloc` meets no block that reaches over another one (`SizesTrue`),
for the requests that go to its free list.

`Objects` is the purpose of a heap: a map from pointers to the sizes asked for and the bytes known. A byte is known
when its owner has stored it, or when the heap has promised it (`kzalloc`). The simulation (`Sim`) says that what is
known is what is read. It holds in the runs in which the free list serves the requests and no block reaches over a
header, which is the condition of `Mm.HeapRun`; a request that a cache serves is left to `Mm.Slab`, since `kfree` does
not take such an object back.

`krealloc` is the interesting call: it reads the size of the old block from its header, which may be more than was
asked for, and copies the smaller of that and the new size. The bytes that are copied beyond what was asked for are
known to nobody.
-/

namespace MyUnix.Mm

open Lib Lib.ByteStore

namespace Heap

variable (s : Heap)

/-- `kzalloc`. -/
def kzalloc (size : Nat) : Option (Nat × Heap) := do
  let (p, s) ← s.kmalloc size
  pure (p, if p = 0 then s else { s with mem := Kernel.memset s.mem p 0 size })

/-- `kcalloc`, which looks for a product that does not fit. -/
def kcalloc (n size : Nat) : Option (Nat × Heap) :=
  if n = 0 ∨ size = 0 then some (0, s)
  else if sizeMax / size < n then some (0, s)
  else s.kzalloc (n * size)

/-- The size recorded in the header bounds what is copied. -/
def krealloc (ptr newSize : Nat) : Option (Nat × Heap) :=
  if ptr = 0 then s.kmalloc newSize
  else if newSize = 0 then (s.kfree ptr).map fun s => (0, s)
  else do
    let blk := ptr - heapBlockHdrSize
    let (newPtr, s) ← s.kmalloc newSize
    if newPtr = 0 then pure (0, s)
    else
      -- the size of the old block is read from its header, where that looks like one
      let copySize := if s.mem.magic blk = heapMagicUsed ∧ s.mem.size blk < newSize then s.mem.size blk else newSize
      let s ← { s with mem := Kernel.memcpy s.mem newPtr ptr copySize }.kfree ptr
      pure (newPtr, s)

end Heap

/-- A call, or a store by the owner of an object. -/
inductive AllocOp where
  | kmalloc (size : Nat)
  | kzalloc (size : Nat)
  | kcalloc (n size : Nat)
  | krealloc (ptr size : Nat)
  | kfree (ptr : Nat)
  | store (ptr addr : Nat) (b : UInt8)
  | frames (n : Nat)
deriving DecidableEq

/-- What `kmalloc` is asked for. -/
def AllocOp.request : AllocOp → Option Nat
  | .kmalloc size | .kzalloc size => some size
  | .kcalloc n size => if n = 0 ∨ size = 0 ∨ sizeMax / size < n then none else some (n * size)
  | .krealloc ptr size => if ptr ≠ 0 ∧ size = 0 then none else some size
  | _ => none

/-- The live allocations when `p` has been returned for a request of `size` bytes. -/
def addLive (p size : Nat) (live : List (Nat × Nat)) : List (Nat × Nat) := if p = 0 then live else (p, size) :: live

/-- The object at `p` is no longer held. -/
def dropLive (p : Nat) (live : List (Nat × Nat)) : List (Nat × Nat) := live.eraseP fun l => l.1 = p

/-- The live allocations after a call that returned `p`. -/
def AllocOp.liveAfter (live : List (Nat × Nat)) (p : Nat) : AllocOp → List (Nat × Nat)
  | .kmalloc size | .kzalloc size => addLive p size live
  | .kcalloc n size => addLive p (n * size) live
  | .krealloc ptr size =>
    if ptr = 0 then addLive p size live
    else if size = 0 then dropLive ptr live
    else if p = 0 then live
    else addLive p size (dropLive ptr live)
  | .kfree ptr => dropLive ptr live
  | .store .. | .frames _ => live

/-- What a call returns and does to the heap; only live pointers are freed and reallocated, and only live objects are
    written. -/
def AllocOp.call (sys : HeapSys) : AllocOp → Option (Nat × Heap)
  | .kmalloc size => sys.heap.kmalloc size
  | .kzalloc size => sys.heap.kzalloc size
  | .kcalloc n size => sys.heap.kcalloc n size
  | .krealloc ptr size => if ptr = 0 ∨ ptr ∈ sys.live.map Prod.fst then sys.heap.krealloc ptr size else none
  | .kfree ptr => if ptr ∈ sys.live.map Prod.fst then (sys.heap.kfree ptr).map fun h => (0, h) else none
  | .store ptr addr b =>
    if ∃ l ∈ sys.live, l.1 = ptr ∧ ptr ≤ addr ∧ addr < ptr + l.2 then
      some (0, { sys.heap with mem := sys.heap.mem.setByte addr b })
    else none
  | .frames n =>
    if (sys.heap.heapEnd - sys.heap.heapStart) / pageSize + n ≤ pmmMaxPages then
      some (0, { sys.heap with avail := n })
    else none

/-- **One step**: a call with the pointer that it returned. -/
def allocStep (sys : HeapSys) (e : AllocOp × Nat) : Option HeapSys := do
  let (p, h) ← e.1.call sys
  if p = e.2 then some ⟨h, e.1.liveAfter sys.live p⟩ else none

/-- The condition on a step: the request goes to the free list, and no best block reaches over a header. -/
def AllocOk (sys : HeapSys) (e : AllocOp × Nat) : Prop :=
  ∀ size, e.1.request = some size → size = 0 ∨ 32768 < size ∧ SizesTrue sys (.kmalloc size)

/-! ## The purpose

The abstract side, without addresses other than as names.
-/

/-- The objects, and what their owners know of each byte: nothing, as long as it was not written. -/
structure Objects where
  live  : List (Nat × Nat)
  bytes : Nat → Option UInt8

namespace Objects

variable (o : Objects)

/-- A new object, unless the pointer is `NULL`. -/
def alloc (p size : Nat) (init : Nat → Option UInt8) : Objects :=
  if p = 0 then o else ⟨(p, size) :: o.live, fun x => if p ≤ x ∧ x < p + size then init (x - p) else o.bytes x⟩

/-- The object at `p` is given back. -/
def free (p : Nat) : Objects := { o with live := dropLive p o.live }

/-- The size that was asked for at `p`. -/
def sizeOf (p : Nat) : Nat := ((o.live.find? fun l => l.1 = p).map Prod.snd).getD 0

/-- What is known of the byte `i` of an object. -/
def byteOf (p i : Nat) : Option UInt8 := if i < o.sizeOf p then o.bytes (p + i) else none

/-- What each call is for, when it returned `p`. -/
def step (p : Nat) : AllocOp → Objects
  | .kmalloc size => o.alloc p size fun _ => none
  | .kzalloc size => o.alloc p size fun _ => some 0
  | .kcalloc n size => o.alloc p (n * size) fun _ => some 0
  | .krealloc ptr size =>
    if ptr = 0 then o.alloc p size fun _ => none
    else if size = 0 then o.free ptr
    else if p = 0 then o
    else (o.free ptr).alloc p size (o.byteOf ptr)
  | .kfree ptr => o.free ptr
  | .store _ addr b => { o with bytes := Function.update o.bytes addr (some b) }
  | .frames _ => o

/-- The objects after a list of calls, each with the address that it returned. -/
def run (o : Objects) (es : List (AllocOp × Nat)) : Objects := es.foldl (fun o e => o.step e.2 e.1) o

end Objects

/-- The heap shows the objects: a byte that an owner knows is the byte that is read there. -/
def Shows (sys : HeapSys) (o : Objects) : Prop :=
  sys.live = o.live ∧
    ∀ l ∈ sys.live, ∀ x, l.1 ≤ x → x < l.1 + l.2 → ∀ b, o.bytes x = some b → get sys.heap.mem x = b

/-! ## Each call

One simulation lemma for each call, put together in one step and then in a run.
-/

/-- The simulation relation. -/
structure Sim (sys : HeapSys) (o : Objects) : Prop where
  rep   : ∃ fl len, HeapRep sys.heap sys.live fl len
  shows : Shows sys o

namespace Sim

variable {h h' : Heap} {live : List (Nat × Nat)} {o : Objects} {p size : Nat}

/-- The heap has changed, but no payload of a live object. -/
theorem keep {live' : List (Nat × Nat)} (s : Sim ⟨h, live⟩ o) (r : ∃ fl len, HeapRep h' live' fl len)
    (hsub : ∀ l ∈ live', l ∈ live ∧ KeepsPayload l h.mem h'.mem) : Sim ⟨h', live'⟩ { o with live := live' } where
  rep := r
  shows := by
    refine ⟨rfl, fun l hl x hge hlt b hb => ?_⟩
    obtain ⟨hlive, hkeep⟩ := hsub l hl
    exact (hkeep x hge hlt).trans (s.shows.2 l hlive x hge hlt b hb)

theorem same (s : Sim ⟨h, live⟩ o) : ({ o with live := live } : Objects) = o := by
  have := s.shows.1
  simp only at this
  rw [this]

/-- A new object has appeared, and the bytes its owner knows are there. -/
theorem alloc {init : Nat → Option UInt8} (s : Sim ⟨h, live⟩ o) (hp : p ≠ 0)
    (r : ∃ fl len, HeapRep h' ((p, size) :: live) fl len) (hkeep : ∀ l ∈ live, KeepsPayload l h.mem h'.mem)
    (hinit : ∀ i < size, ∀ b, init i = some b → get h'.mem (p + i) = b) :
    Sim ⟨h', (p, size) :: live⟩ (o.alloc p size init) where
  rep := r
  shows := by
    obtain ⟨fl, len, r⟩ := r
    rw [Objects.alloc, if_neg hp]
    refine ⟨congrArg _ s.shows.1, fun l hl x hge hlt b hb => ?_⟩
    simp only at hb
    rcases List.mem_cons.mp hl with rfl | hl
    · rw [if_pos ⟨hge, hlt⟩] at hb
      have hx := hinit (x - p) (by omega) b hb
      rwa [Nat.add_sub_cancel' hge] at hx
    · -- the new object is apart from the old ones
      have hap := List.rel_of_pairwise_cons r.safe.payloads hl
      rw [if_neg (by simp only at hap; omega)] at hb
      exact (hkeep l hl x hge hlt).trans (s.shows.2 l hl x hge hlt b hb)

/-- What a call of `kmalloc` leaves for its caller to go on with. -/
theorem kmalloc (s : Sim ⟨h, live⟩ o) (hok : size = 0 ∨ 32768 < size ∧ SizesTrue ⟨h, live⟩ (.kmalloc size))
    (hk : h.kmalloc size = some (p, h')) :
    (p = 0 → Sim ⟨h', live⟩ o) ∧
      (p ≠ 0 → (∃ fl len, HeapRep h' ((p, size) :: live) fl len) ∧ ∀ l ∈ live, KeepsPayload l h.mem h'.mem) := by
  rcases hok with rfl | ⟨hlarge, htrue⟩
  · rw [Heap.kmalloc, if_pos rfl] at hk
    cases hk
    exact ⟨fun _ => s, fun hp => absurd rfl hp⟩
  · obtain ⟨fl, len, r⟩ := s.rep
    obtain ⟨hrep, hkeep⟩ := r.kmalloc_large hlarge htrue hk
    constructor
    · intro hp
      rw [if_pos hp] at hrep
      have hs := s.keep hrep fun l hl => ⟨hl, hkeep l hl⟩
      rwa [s.same] at hs
    · intro hp
      rw [if_neg hp] at hrep
      exact ⟨hrep, hkeep⟩

/-- The owner writes into a new object only, and what is to be known of its bytes. -/
structure Writes (h : Heap) (live : List (Nat × Nat)) (p size : Nat) (init : Nat → Option UInt8) (m : Words) : Prop where
  rep  : ∀ {fl len}, HeapRep h ((p, size) :: live) fl len → HeapRep { h with mem := m } ((p, size) :: live) fl len
  out  : ∀ x, x < p ∨ p + size ≤ x → get m x = get h.mem x
  init : ∀ i < size, ∀ b, init i = some b → get m (p + i) = b

/-! ### Allocations

`kmalloc`, `kzalloc` and `kcalloc`: a new object, and which of its bytes are known.
-/

/-- An allocation whose bytes are written by its caller. -/
theorem allocated {init : Nat → Option UInt8} {m : Words} (s : Sim ⟨h, live⟩ o)
    (hok : size = 0 ∨ 32768 < size ∧ SizesTrue ⟨h, live⟩ (.kmalloc size)) (hk : h.kmalloc size = some (p, h'))
    (hnone : p = 0 → m = h'.mem) (hsome : p ≠ 0 → Writes h' live p size init m) :
    Sim ⟨{ h' with mem := m }, addLive p size live⟩ (o.alloc p size init) := by
  obtain ⟨hnull, hnew⟩ := s.kmalloc hok hk
  by_cases hp : p = 0
  · rw [addLive, if_pos hp, Objects.alloc, if_pos hp, hnone hp]
    exact hnull hp
  · obtain ⟨⟨fl, len, r⟩, hkeep⟩ := hnew hp
    have hw := hsome hp
    rw [addLive, if_neg hp]
    refine s.alloc hp ⟨fl, len, hw.rep r⟩ (fun l hl => (hkeep l hl).trans fun x hge hlt => hw.out x ?_) hw.init
    have hap := List.rel_of_pairwise_cons r.safe.payloads hl
    simp only at hap
    omega

theorem kmalloc_call (s : Sim ⟨h, live⟩ o) (hok : size = 0 ∨ 32768 < size ∧ SizesTrue ⟨h, live⟩ (.kmalloc size))
    (hk : h.kmalloc size = some (p, h')) : Sim ⟨h', addLive p size live⟩ (o.alloc p size fun _ => none) := by
  refine s.allocated hok hk (fun _ => rfl) fun _ => ⟨id, fun _ _ => rfl, ?_⟩
  intro _ _ _ hb
  cases hb

theorem kzalloc_call (s : Sim ⟨h, live⟩ o) (hok : size = 0 ∨ 32768 < size ∧ SizesTrue ⟨h, live⟩ (.kmalloc size))
    (hz : h.kzalloc size = some (p, h')) : Sim ⟨h', addLive p size live⟩ (o.alloc p size fun _ => some 0) := by
  obtain ⟨⟨q, h₁⟩, hk, heq⟩ := Option.bind_eq_some_iff.mp hz
  obtain ⟨rfl, rfl⟩ := Prod.mk.inj (Option.some.inj heq)
  by_cases hp : q = 0
  · rw [if_pos hp]
    exact s.allocated hok hk (fun _ => rfl) fun hne => absurd hp hne
  · rw [if_neg hp]
    refine s.allocated hok hk (fun h0 => absurd h0 hp) fun _ => ⟨fun r => ?_, fun x hx => ?_, fun i hi b hb => ?_⟩
    · exact HeapRep.memset List.mem_cons_self 0 size q r le_rfl le_rfl
    · rw [Kernel.get_memset, if_neg (by omega)]
    · rw [Kernel.get_memset, if_pos (by omega)]
      exact Option.some.inj hb

/-- A live object is freed. -/
theorem kfree_call (s : Sim ⟨h, live⟩ o) (hptr : p ∈ live.map Prod.fst) (hf : h.kfree p = some h') :
    Sim ⟨h', dropLive p live⟩ (o.free p) := by
  obtain ⟨fl, len, r⟩ := s.rep
  have hs := s.keep ⟨_, len, r.kfree hptr hf⟩ fun l hl =>
    ⟨List.mem_of_mem_eraseP hl, r.kfree_keeps hptr hf (List.mem_of_mem_eraseP hl)⟩
  have hlive : live = o.live := s.shows.1
  rw [Objects.free, ← hlive]
  exact hs

theorem sizeOf_eq (s : Sim ⟨h, live⟩ o) (hptr : p ∈ live.map Prod.fst) : ∃ l ∈ live, l.1 = p ∧ o.sizeOf p = l.2 := by
  obtain ⟨q, hq, rfl⟩ := List.mem_map.mp hptr
  have hsome : (live.find? fun l => l.1 = q.1).isSome := List.find?_isSome.mpr ⟨q, hq, by simp⟩
  obtain ⟨l, hl⟩ := Option.isSome_iff_exists.mp hsome
  have hlp : l.1 = q.1 := by simpa using List.find?_some hl
  refine ⟨l, List.mem_of_find?_eq_some hl, hlp, ?_⟩
  have hlive : live = o.live := s.shows.1
  rw [Objects.sizeOf, ← hlive, hl]
  rfl

/-! ### `krealloc`, stores, and a whole run

The copy takes along what fits, and the old object is freed behind it.
-/

/-- **`krealloc`** takes along every byte that the owner knows and that the new object has room for. -/
theorem krealloc_call (s : Sim ⟨h, live⟩ o) {ptr : Nat} (hptr0 : ptr ≠ 0) (hsize : size ≠ 0)
    (hptr : ptr ∈ live.map Prod.fst) (hok : size = 0 ∨ 32768 < size ∧ SizesTrue ⟨h, live⟩ (.kmalloc size))
    (hre : h.krealloc ptr size = some (p, h')) :
    Sim ⟨h', if p = 0 then live else addLive p size (dropLive ptr live)⟩ (o.step p (.krealloc ptr size)) := by
  rw [Heap.krealloc, if_neg hptr0, if_neg hsize] at hre
  obtain ⟨⟨q, h₁⟩, hk, hre⟩ := Option.bind_eq_some_iff.mp hre
  simp only at hre
  rw [Objects.step, if_neg hptr0, if_neg hsize]
  by_cases hq : q = 0
  · rw [if_pos hq] at hre
    obtain ⟨rfl, rfl⟩ := Prod.mk.inj (Option.some.inj hre)
    rw [if_pos rfl, if_pos rfl]
    exact (s.kmalloc hok hk).1 hq
  · rw [if_neg hq] at hre
    obtain ⟨h₂, hf, heq⟩ := Option.bind_eq_some_iff.mp hre
    obtain ⟨rfl, rfl⟩ := Prod.mk.inj (Option.some.inj heq)
    rw [if_neg hq, if_neg hq, addLive, if_neg hq]
    obtain ⟨⟨fl, len, r⟩, hkeep⟩ := (s.kmalloc hok hk).2 hq
    obtain ⟨l, hl, rfl, hsizeOf⟩ := s.sizeOf_eq hptr
    have hold : l ∈ (q, size) :: live := List.mem_cons_of_mem _ hl
    -- the two objects
    have hap := List.rel_of_pairwise_cons r.safe.payloads hl
    simp only at hap
    have hne : q ≠ l.1 := by
      intro he
      have hnd := (List.nodup_append.mp r.nodup).2.1
      rw [liveHdrs, List.map_cons, List.nodup_cons] at hnd
      refine hnd.1 ?_
      show q - heapBlockHdrSize ∈ _
      rw [he]
      exact HeapRep.hdr_mem hl
    -- the recorded size is at least the size of the object
    have hrec : l.2 ≤ h₁.mem.size (l.1 - heapBlockHdrSize) := by
      have h1 := r.payload l hold
      have h2 := (r.block _ (List.mem_append_right fl (HeapRep.hdr_mem hold))).real
      unfold heapBlockHdrSize
      omega
    obtain ⟨copySize, hcopy⟩ : ∃ n, n = if h₁.mem.magic (l.1 - heapBlockHdrSize) = heapMagicUsed ∧
      h₁.mem.size (l.1 - heapBlockHdrSize) < size then h₁.mem.size (l.1 - heapBlockHdrSize) else size := ⟨_, rfl⟩
    rw [← hcopy] at hf
    have hle : copySize ≤ size ∧ (copySize = size ∨ l.2 ≤ copySize) := by
      rw [hcopy]
      split <;> omega
    have hs : Sim ⟨{ h₁ with mem := Kernel.memcpy h₁.mem q l.1 copySize }, addLive q size live⟩
        (o.alloc q size (o.byteOf l.1)) := by
      refine s.allocated hok hk (fun h0 => absurd h0 hq) fun _ => ⟨fun r => ?_, fun x hx => ?_, fun i hi b hb => ?_⟩
      · exact HeapRep.memcpy List.mem_cons_self copySize q l.1 r le_rfl (Nat.add_le_add_left hle.1 q)
      · exact Kernel.get_memcpy_out copySize h₁.mem q l.1 x (by omega)
      · rw [Objects.byteOf, hsizeOf] at hb
        split at hb
        next hil =>
          rw [Kernel.get_memcpy_before h₁.mem (by omega) (by omega), hkeep l hl _ (Nat.le_add_right _ _) (by omega)]
          exact s.shows.2 l hl _ (Nat.le_add_right _ _) (Nat.add_lt_add_left hil _) b hb
        next => cases hb
    rw [addLive, if_neg hq] at hs
    have hfree := hs.kfree_call (p := l.1) (by simp only [List.map_cons]; exact List.mem_cons_of_mem _ hptr) hf
    have hdrop : dropLive l.1 ((q, size) :: live) = (q, size) :: dropLive l.1 live := by
      rw [dropLive, List.eraseP_cons, decide_eq_false (show ¬(q, size).1 = l.1 from hne), cond_false]
      rfl
    have hobj : (o.alloc q size (o.byteOf l.1)).free l.1 = (o.free l.1).alloc q size (o.byteOf l.1) := by
      have hlive : live = o.live := s.shows.1
      rw [Objects.alloc, if_neg hq, Objects.alloc, if_neg hq, Objects.free, Objects.free, ← hlive]
      simp only [hdrop]
    rw [hdrop, hobj] at hfree
    exact hfree

/-- The owner of an object stores a byte. -/
theorem store_call (s : Sim ⟨h, live⟩ o) {l : Nat × Nat} (hl : l ∈ live) {addr : Nat} (hge : l.1 ≤ addr)
    (hlt : addr < l.1 + l.2) (b : UInt8) :
    Sim ⟨{ h with mem := h.mem.setByte addr b }, live⟩ { o with bytes := Function.update o.bytes addr (some b) } where
  rep := by
    obtain ⟨fl, len, r⟩ := s.rep
    exact ⟨fl, len, r.setByte hl hge hlt b⟩
  shows := by
    refine ⟨s.shows.1, fun l' hl' x hge' hlt' c hc => ?_⟩
    show get (set h.mem addr b) x = c
    simp only at hc
    by_cases hx : x = addr
    · rw [hx, Function.update_self] at hc
      rw [hx, get_set_self, Option.some.inj hc]
    · rw [Function.update_of_ne hx] at hc
      rw [get_set_of_ne _ _ _ _ hx]
      exact s.shows.2 l' hl' x hge' hlt' c hc

/-- **One step** does to the objects what it is for. -/
theorem step {sys sys' : HeapSys} {e : AllocOp × Nat} (s : Sim sys o) (hok : AllocOk sys e)
    (hs : allocStep sys e = some sys') : Sim sys' (o.step e.2 e.1) := by
  obtain ⟨h, live⟩ := sys
  obtain ⟨op, p⟩ := e
  obtain ⟨⟨q, h'⟩, hcall, hs⟩ := Option.bind_eq_some_iff.mp hs
  obtain ⟨rfl, hend⟩ := Option.ite_none_right_eq_some.mp hs
  obtain rfl := Option.some.inj hend
  simp only at hcall ⊢
  cases op with
  | kmalloc size => exact s.kmalloc_call (hok size rfl) hcall
  | kzalloc size => exact s.kzalloc_call (hok size rfl) hcall
  | kcalloc n size =>
    simp only [AllocOp.call, Heap.kcalloc] at hcall
    -- no objects, or a product that does not fit: NULL, and no call of `kzalloc`
    by_cases h0 : n = 0 ∨ size = 0
    · rw [if_pos h0] at hcall
      cases hcall
      exact s
    · rw [if_neg h0] at hcall
      by_cases hover : sizeMax / size < n
      · rw [if_pos hover] at hcall
        cases hcall
        exact s
      · rw [if_neg hover] at hcall
        refine s.kzalloc_call (hok (n * size) ?_) hcall
        rw [AllocOp.request, if_neg (by tauto)]
  | krealloc ptr size =>
    obtain ⟨hptr, hcall⟩ := Option.ite_none_right_eq_some.mp hcall
    -- NULL is allocated, size 0 is freed, anything else is moved
    by_cases h0 : ptr = 0
    · rw [Heap.krealloc, if_pos h0] at hcall
      have hreq : (AllocOp.krealloc ptr size).request = some size := by rw [AllocOp.request, if_neg (by tauto)]
      rw [AllocOp.liveAfter, if_pos h0, Objects.step, if_pos h0]
      exact s.kmalloc_call (hok size hreq) hcall
    · have hlive := hptr.resolve_left h0
      by_cases hz : size = 0
      · rw [Heap.krealloc, if_neg h0, if_pos hz] at hcall
        obtain ⟨h₁, hf, heq⟩ := Option.map_eq_some_iff.mp hcall
        obtain ⟨rfl, rfl⟩ := Prod.mk.inj heq
        rw [AllocOp.liveAfter, if_neg h0, if_pos hz, Objects.step, if_neg h0, if_pos hz]
        exact s.kfree_call hlive hf
      · have hreq : (AllocOp.krealloc ptr size).request = some size := by rw [AllocOp.request, if_neg (by tauto)]
        rw [AllocOp.liveAfter, if_neg h0, if_neg hz]
        exact s.krealloc_call h0 hz hlive (hok size hreq) hcall
  | kfree ptr =>
    obtain ⟨hptr, hcall⟩ := Option.ite_none_right_eq_some.mp hcall
    obtain ⟨h₁, hf, heq⟩ := Option.map_eq_some_iff.mp hcall
    obtain ⟨rfl, rfl⟩ := Prod.mk.inj heq
    exact s.kfree_call hptr hf
  | store ptr addr b =>
    obtain ⟨⟨l, hl, rfl, hge, hlt⟩, hret⟩ := Option.ite_none_right_eq_some.mp hcall
    obtain ⟨rfl, rfl⟩ := Prod.mk.inj (Option.some.inj hret)
    exact s.store_call hl hge hlt b
  | frames n =>
    obtain ⟨hn, hret⟩ := Option.ite_none_right_eq_some.mp hcall
    obtain ⟨rfl, rfl⟩ := Prod.mk.inj (Option.some.inj hret)
    obtain ⟨fl, len, r⟩ := s.rep
    exact ⟨⟨fl, len, r.frames hn⟩, s.shows⟩

end Sim

/-- **The heap refines the objects.** In every run from `heap_init` whose requests go to the free list and meet no best
    block that reaches over a header, the live allocations are the objects, apart from one another, and every byte that
    an owner knows, stored by it, zeroed by `kzalloc` or `kcalloc` or taken along by `krealloc`, is what is read there. -/
theorem heap_refines_objects (mem : Words) (avail : Nat) (h₀ : Heap) (es : List (AllocOp × Nat)) (sys : HeapSys)
    (havail : avail ≤ pmmMaxPages) (hinit : Heap.heapInit mem avail = some h₀)
    (hrun : Run (Guarded AllocOk (Graph allocStep)) ⟨h₀, []⟩ es sys) :
    Shows sys (Objects.run ⟨[], fun _ => none⟩ es) ∧ HeapSafe sys := by
  have hsim : Sim sys (Objects.run ⟨[], fun _ => none⟩ es) := by
    induction hrun with
    | refl =>
      obtain ⟨fl, len, -, r, -⟩ := heapInit_rep havail hinit
      exact ⟨⟨fl, len, r⟩, rfl, fun l hl => absurd hl List.not_mem_nil⟩
    | tail _ hstep ih =>
      rw [Objects.run, List.foldl_append]
      exact Sim.step ih hstep.1 hstep.2
  obtain ⟨fl, len, r⟩ := hsim.rep
  exact ⟨hsim.shows, r.safe⟩

/-- A byte stored in an object is read there after another object came and went. -/
theorem heap_refines_objects_again :
    ∃ h₀ sys, Heap.heapInit (fun _ => 0) 2048 = some h₀ ∧
      Run (Guarded AllocOk (Graph allocStep)) ⟨h₀, []⟩
        [(.kmalloc 40000, heapVirtBase + 32), (.store (heapVirtBase + 32) (heapVirtBase + 39) 65, 0),
          (.kcalloc 0 8, 0), (.kmalloc 50000, heapVirtBase + 40064), (.kfree (heapVirtBase + 40064), 0)] sys ∧
      sys.live = [(heapVirtBase + 32, 40000)] ∧ get sys.heap.mem (heapVirtBase + 39) = 65 := by
  obtain ⟨h₀, hh₀⟩ : ∃ h₀, h₀ = freshHeap := ⟨_, rfl⟩
  have hinit : Heap.heapInit (fun _ => 0) 2048 = some h₀ := hh₀ ▸ freshHeap_init
  have hok₁ : AllocOk (after allocStep ⟨h₀, []⟩ []) (.kmalloc 40000, heapVirtBase + 32) := by
    intro size hsize
    obtain rfl := Option.some.inj hsize
    have hchain : Chain h₀.mem.next h₀.freeList [heapVirtBase] := by
      rw [hh₀]; decide +kernel
    refine .inr ⟨by decide, (sizesTrue_iff hchain).mpr ?_⟩
    rw [hh₀]; decide +kernel
  have hok₄ : AllocOk (after allocStep ⟨h₀, []⟩ [(.kmalloc 40000, heapVirtBase + 32),
      (.store (heapVirtBase + 32) (heapVirtBase + 39) 65, 0), (.kcalloc 0 8, 0)])
      (.kmalloc 50000, heapVirtBase + 40064) := by
    intro size hsize
    obtain rfl := Option.some.inj hsize
    have hchain : Chain (after allocStep ⟨h₀, []⟩ [(.kmalloc 40000, heapVirtBase + 32),
          (.store (heapVirtBase + 32) (heapVirtBase + 39) 65, 0), (.kcalloc 0 8, 0)]).heap.mem.next
        (after allocStep ⟨h₀, []⟩ [(.kmalloc 40000, heapVirtBase + 32),
          (.store (heapVirtBase + 32) (heapVirtBase + 39) 65, 0), (.kcalloc 0 8, 0)]).heap.freeList
        [heapVirtBase + 40032] := by
      rw [hh₀]; decide +kernel
    refine .inr ⟨by decide, (sizesTrue_iff hchain).mpr ?_⟩
    rw [hh₀]; decide +kernel
  have hnone : ∀ {sys : HeapSys} {e : AllocOp × Nat}, e.1.request = none → AllocOk sys e := by
    intro sys e he size hsize
    rw [he] at hsize
    cases hsize
  have hrun₀ : Run (Guarded AllocOk (Graph allocStep)) ⟨h₀, []⟩ [] (after allocStep ⟨h₀, []⟩ []) := .refl
  have hrun₁ := hrun₀.tail_after (.kmalloc 40000, heapVirtBase + 32) hok₁ (by rw [hh₀]; decide +kernel)
  have hrun₂ := hrun₁.tail_after (.store (heapVirtBase + 32) (heapVirtBase + 39) 65, 0) (hnone rfl)
    (by rw [hh₀]; decide +kernel)
  have hrun₃ := hrun₂.tail_after (.kcalloc 0 8, 0) (hnone rfl) (by rw [hh₀]; decide +kernel)
  have hrun₄ := hrun₃.tail_after (.kmalloc 50000, heapVirtBase + 40064) hok₄ (by rw [hh₀]; decide +kernel)
  have hrun₅ := hrun₄.tail_after (.kfree (heapVirtBase + 40064), 0) (hnone rfl) (by rw [hh₀]; decide +kernel)
  obtain ⟨⟨hlive, hshows⟩, -⟩ := heap_refines_objects _ 2048 _ _ _ (by decide) hinit hrun₅
  have hobj : (Objects.run ⟨[], fun _ => none⟩
      [(.kmalloc 40000, heapVirtBase + 32), (.store (heapVirtBase + 32) (heapVirtBase + 39) 65, 0),
        (.kcalloc 0 8, 0), (.kmalloc 50000, heapVirtBase + 40064), (.kfree (heapVirtBase + 40064), 0)]).live =
      [(heapVirtBase + 32, 40000)] := by decide
  have hone := hlive.trans hobj
  refine ⟨h₀, _, hinit, hrun₅, hone, hshows (heapVirtBase + 32, 40000) ?_ _ (by decide) (by decide) 65 (by decide)⟩
  exact hone ▸ List.mem_cons_self

end MyUnix.Mm
