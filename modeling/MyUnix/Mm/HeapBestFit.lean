import MyUnix.Mm.HeapSpec

/-!
# `Mm.HeapBestFit` — which block `kmalloc` takes, and what it leaves on the list

`kmalloc` walks the free list once to choose a block, stopping early at an exact fit, and a second time to find the link
to it. On a list of free blocks that do not overlap the first walk yields the earliest of the smallest blocks that
suffice (`EarliestBest`), and the second one edits the list in that place alone.

`Mm.HeapSpec` says what the loops leave when they end; here it is added that they end, within the bound that the size of
the heap gives.

Nothing is said about lengths that are recorded wrongly: `FreeList` asks for a list as it should be, and the claim of
best fit is a claim about such lists. The bound on the walks comes from the room that the blocks take, so termination
is a consequence of their being apart.
-/

namespace MyUnix.Mm

open Lib

/-- **The free list is `fl`**: finite and acyclic, its blocks marked free, inside the heap and apart from each other. -/
structure FreeList (s : Heap) (fl : List Nat) : Prop where
  chain  : Chain s.mem.next s.freeList fl
  packed : Packed (fun a => 32 + s.mem.size a) fl
  free   : ∀ a ∈ fl, s.mem.magic a = heapMagicFree
  inHeap : ∀ a ∈ fl, s.heapStart ≤ a ∧ a + (32 + s.mem.size a) ≤ s.heapEnd

/-- `best` suffices, no block of the list is smaller and suffices, and those before it that suffice are larger. -/
structure EarliestBest (m : Words) (size : Nat) (l : List Nat) (best : Nat) (rest : List Nat) : Prop where
  fits   : size ≤ m.size best
  before : ∀ b ∈ l, size ≤ m.size b → m.size best < m.size b
  after  : ∀ b ∈ rest, size ≤ m.size b → m.size best ≤ m.size b

namespace Heap

variable {m : Words} {s : Heap} {size best : Nat}

/-! ## The first walk

An exact fit ends the walk. It is the earliest one, and no block behind it can be better.
-/

/-- **The walk ends**, with what it was given or with the earliest of the smallest sufficient blocks. -/
theorem searchBest_earliest {l : List Nat} : ∀ {fuel blk best bestSize : Nat}, Chain m.next blk l → l.length < fuel →
    (∀ b ∈ l, m.magic b = heapMagicFree) →
    ∃ r, searchBest m size fuel blk best bestSize = some r ∧
      ((r = best ∧ ∀ b ∈ l, size ≤ m.size b → bestSize ≤ m.size b) ∨
        ∃ l₁ l₂, l = l₁ ++ r :: l₂ ∧ EarliestBest m size l₁ r l₂ ∧ m.size r < bestSize) := by
  induction l with
  | nil =>
    intro fuel blk best bestSize hc hfuel _
    obtain ⟨fuel, rfl⟩ := Nat.exists_eq_succ_of_ne_zero (Nat.ne_of_gt hfuel)
    have h0 : blk = 0 := hc
    refine ⟨best, ?_, .inl ⟨rfl, fun b hb => absurd hb List.not_mem_nil⟩⟩
    rw [searchBest, if_pos h0]
  | cons b l ih =>
    intro fuel blk best bestSize hc hfuel hfree
    obtain ⟨rfl, hb0, hl⟩ := hc
    rw [List.length_cons] at hfuel
    obtain ⟨fuel, rfl⟩ := Nat.exists_eq_succ_of_ne_zero (show fuel ≠ 0 by omega)
    have hmagic := hfree blk List.mem_cons_self
    have hrest : ∀ c ∈ l, m.magic c = heapMagicFree := fun c hc => hfree c (List.mem_cons_of_mem _ hc)
    rw [searchBest, if_neg hb0, if_neg (not_not.mpr hmagic)]
    by_cases hfit : size ≤ m.size blk ∧ m.size blk < bestSize
    · rw [if_pos hfit]
      by_cases hexact : m.size blk = size
      · -- nothing behind an exact fit can be smaller
        rw [if_pos hexact]
        refine ⟨blk, rfl, .inr ⟨[], l, rfl, ⟨hfit.1, ?_, ?_⟩, hfit.2⟩⟩
        · exact fun c hc => absurd hc List.not_mem_nil
        · exact fun c _ hsize => hexact ▸ hsize
      · rw [if_neg hexact]
        obtain ⟨r, hr, ⟨rfl, hmin⟩ | ⟨l₁, l₂, rfl, hearly, hlt⟩⟩ := @ih fuel _ blk (m.size blk) hl (by omega) hrest
        · refine ⟨r, hr, .inr ⟨[], l, rfl, ⟨hfit.1, ?_, hmin⟩, hfit.2⟩⟩
          exact fun c hc => absurd hc List.not_mem_nil
        · refine ⟨r, hr, .inr ⟨blk :: l₁, l₂, rfl, ⟨hearly.fits, ?_, hearly.after⟩, by omega⟩⟩
          intro c hc hsize
          rcases List.mem_cons.mp hc with rfl | hc
          · exact hlt
          · exact hearly.before c hc hsize
    · rw [if_neg hfit]
      obtain ⟨r, hr, ⟨rfl, hmin⟩ | ⟨l₁, l₂, rfl, hearly, hlt⟩⟩ := @ih fuel _ best bestSize hl (by omega) hrest
      · refine ⟨r, hr, .inl ⟨rfl, fun c hc hsize => ?_⟩⟩
        rcases List.mem_cons.mp hc with rfl | hc
        · omega
        · exact hmin c hc hsize
      · refine ⟨r, hr, .inr ⟨blk :: l₁, l₂, rfl, ⟨hearly.fits, ?_, hearly.after⟩, hlt⟩⟩
        intro c hc hsize
        rcases List.mem_cons.mp hc with rfl | hc
        · omega
        · exact hearly.before c hc hsize

/-! ## The second walk

It looks for the block that the first one chose, and finds it since the list has not changed in between.
-/

theorem findLink_isSome {l rest : List Nat} : ∀ {fuel p : Nat}, Chain m.next (m.next p) (l ++ best :: rest) →
    l.length < fuel → ∃ r, findLink m best fuel p = some r := by
  induction l with
  | nil =>
    intro fuel p hc hfuel
    obtain ⟨fuel, rfl⟩ := Nat.exists_eq_succ_of_ne_zero (Nat.ne_of_gt hfuel)
    have hbest : m.next p = best := hc.1
    exact ⟨p, by rw [findLink, if_pos (.inr hbest)]⟩
  | cons c l ih =>
    intro fuel p hc hfuel
    rw [List.length_cons] at hfuel
    obtain ⟨fuel, rfl⟩ := Nat.exists_eq_succ_of_ne_zero (show fuel ≠ 0 by omega)
    rw [findLink]
    by_cases hstop : m.next p = 0 ∨ m.next p = best
    · exact ⟨p, by rw [if_pos hstop]⟩
    · obtain ⟨hpc, -, hl⟩ := hc
      rw [if_neg hstop, hpc]
      exact ih hl (by omega)

theorem relink_isSome {l rest : List Nat} {repl : Nat} (hc : Chain s.mem.next s.freeList (l ++ best :: rest))
    (hlen : l.length < s.walkBound) : ∃ s', s.relink best repl = some s' := by
  rw [relink]
  split
  · exact ⟨_, rfl⟩
  · split
    · exact ⟨_, rfl⟩
    next hne =>
      cases l with
      | nil => exact absurd hc.1 hne
      | cons p l =>
        obtain ⟨hp, -, hl⟩ := hc
        rw [List.length_cons] at hlen
        obtain ⟨r, hr⟩ := findLink_isSome hl (show l.length < s.walkBound by omega)
        rw [hp, hr]
        simp only [Option.bind_eq_bind, Option.bind_some]
        split
        · exact ⟨_, rfl⟩
        · exact ⟨_, rfl⟩

/-- **Taking a block of the list succeeds**, whole or split: the header of the remainder is off the list, so the second
    walk meets the list as it was. -/
theorem takeBlock_isSome {l rest : List Nat} (hc : Chain s.mem.next s.freeList (l ++ best :: rest))
    (hlen : l.length < s.walkBound)
    (hsplit : size + 48 ≤ s.mem.size best → HdrOff (best + 32 + size) (l ++ best :: rest)) :
    ∃ ptr s', s.takeBlock best size = some (ptr, s') := by
  rw [takeBlock]
  split
  next hfit =>
    have hoff := hsplit hfit
    simp only [heapBlockHdrSize]
    generalize hm : (s.mem.newBlock (best + 32 + size) (s.mem.size best - size - 32) best).setNext (best + 32 + size)
      ((s.mem.newBlock (best + 32 + size) (s.mem.size best - size - 32) best).next best) = m₁
    have hc₁ : Chain m₁.next s.freeList (l ++ best :: rest) := by
      refine chain_of_out hc hoff fun w hw => ?_
      rw [← hm, Words.setNext_of_ne (by omega), Words.newBlock_of_out hw]
    obtain ⟨s', hs'⟩ := @relink_isSome { s with mem := m₁ } best l rest (best + 32 + size) hc₁ hlen
    rw [hs']
    exact ⟨_, _, rfl⟩
  next =>
    obtain ⟨s', hs'⟩ := @relink_isSome s best l rest (s.mem.next best) hc hlen
    rw [hs']
    exact ⟨_, _, rfl⟩

end Heap

/-! ## The list before and after

Where the block was, there is nothing or the remainder; the order of the others is kept.
-/

namespace FreeList

variable {s s' : Heap} {l rest : List Nat} {size best : Nat}

/-- A walk of the list stays within the bound that the size of the heap gives. -/
theorem length_lt {fl : List Nat} (h : FreeList s fl) : fl.length < s.walkBound := by
  have hle : fl.length ≤ (s.heapEnd - s.heapStart) / 16 := by
    refine h.packed.length_le (by decide) fun a ha => ?_
    obtain ⟨hlo, hhi⟩ := h.inHeap a ha
    exact ⟨hlo, by omega, hhi⟩
  rw [Heap.walkBound, heapAlign]
  omega

theorem nodup {fl : List Nat} (h : FreeList s fl) : fl.Nodup := h.packed.nodup fun a _ => by omega

theorem apart {fl : List Nat} (h : FreeList s fl) {a b : Nat} (ha : a ∈ fl) (hb : b ∈ fl) (hne : a ≠ b) :
    a + (32 + s.mem.size a) ≤ b ∨ b + (32 + s.mem.size b) ≤ a :=
  h.packed.apart ha hb hne

theorem ne_best (h : FreeList s (l ++ best :: rest)) {c : Nat} (hc : c ∈ l ++ rest) : c ≠ best := by
  rintro rfl
  exact (List.nodup_cons.mp (List.nodup_middle.mp h.nodup)).1 hc

/-- Another block of the list lies apart from the whole of `best`. -/
theorem apart_best (h : FreeList s (l ++ best :: rest)) {c : Nat} (hc : c ∈ l ++ rest) :
    c + (32 + s.mem.size c) ≤ best ∨ best + (32 + s.mem.size best) ≤ c :=
  h.apart (mem_middle hc) (by simp) (h.ne_best hc)

theorem hdrOff_best (h : FreeList s (l ++ best :: rest)) : Heap.HdrOff best (l ++ rest) := by
  intro c hc
  have hapart := h.apart_best hc
  omega

theorem hdrOff_split (h : FreeList s (l ++ best :: rest)) (hfit : size + 48 ≤ s.mem.size best) :
    Heap.HdrOff (best + 32 + size) (l ++ best :: rest) := by
  intro c hc
  by_cases hcb : c = best
  · subst hcb
    omega
  · have hc' : c ∈ l ++ rest := by
      rcases List.mem_append.mp hc with hc | hc
      · exact List.mem_append_left _ hc
      · exact List.mem_append_right _ ((List.mem_cons.mp hc).resolve_left hcb)
    have hapart := h.apart_best hc'
    omega

/-- The first word of another block of the list is no link of a block before `best`. -/
theorem ne_link (h : FreeList s (l ++ best :: rest)) {c d : Nat} (hc : c ∈ l ++ rest) (hd : d ∈ l) : c ≠ d + 16 := by
  by_cases hcd : c = d
  · omega
  · have hapart := h.apart (mem_middle hc) (mem_middle (List.mem_append_left rest hd)) hcd
    omega

/-- **Taken whole**: the list without the block. -/
theorem takeWhole (h : FreeList s (l ++ best :: rest)) (hsmall : s.mem.size best < size + 48) {ptr : Nat}
    (ht : s.takeBlock best size = some (ptr, s')) :
    ptr = best + 32 ∧ (∃ m free, s' = { s with mem := m, freeList := free }) ∧ FreeList s' (l ++ rest) ∧
      ∀ c ∈ l ++ rest, s'.mem.size c = s.mem.size c := by
  obtain ⟨rfl, m, free, rfl, hchain, -, -, hframe⟩ := Heap.takeBlock_whole h.chain h.nodup h.hdrOff_best hsmall ht
  have hword : ∀ c ∈ l ++ rest, m c = s.mem c := by
    intro c hc
    have hapart := h.apart_best hc
    exact hframe c (by omega) fun d hd => h.ne_link hc hd
  have hsize : ∀ c ∈ l ++ rest, m.size c = s.mem.size c := fun c hc => Words.size_congr (hword c hc)
  refine ⟨rfl, ⟨m, free, rfl⟩, ⟨hchain, ?_, fun c hc => ?_, fun c hc => ?_⟩, hsize⟩
  · have hpacked := (Packed.cons_iff.mp (h.packed.perm List.perm_middle)).2
    exact hpacked.congr fun c hc => congrArg (32 + ·) (hsize c hc)
  · rw [Words.magic_congr (hword c hc)]
    exact h.free c (mem_middle hc)
  · have hin := h.inHeap c (mem_middle hc)
    rwa [← hsize c hc] at hin

/-- **Split**: the list with the remainder in the place of the block. -/
theorem takeSplit (h : FreeList s (l ++ best :: rest)) (hfit : size + 48 ≤ s.mem.size best) {ptr : Nat}
    (ht : s.takeBlock best size = some (ptr, s')) :
    ptr = best + 32 ∧ (∃ m free, s' = { s with mem := m, freeList := free }) ∧
      FreeList s' (l ++ (best + 32 + size) :: rest) ∧
      s'.mem.size (best + 32 + size) = s.mem.size best - size - 32 ∧
      ∀ c ∈ l ++ rest, s'.mem.size c = s.mem.size c := by
  obtain ⟨rfl, m, free, rfl, hchain, -, -, hmagic, hrem, hframe⟩ :=
    Heap.takeBlock_split h.chain h.nodup h.hdrOff_best hfit rfl (h.hdrOff_split hfit) ht
  have hword : ∀ c ∈ l ++ rest, m c = s.mem c := by
    intro c hc
    have hapart := h.apart_best hc
    have hoff := h.hdrOff_split hfit c (mem_middle hc)
    exact hframe c (by omega) (by omega) fun d hd => h.ne_link hc hd
  have hsize : ∀ c ∈ l ++ rest, m.size c = s.mem.size c := fun c hc => Words.size_congr (hword c hc)
  have hsplit : ∀ c ∈ l ++ (best + 32 + size) :: rest, c = best + 32 + size ∨ c ∈ l ++ rest := by
    intro c hc
    rcases List.mem_append.mp hc with hc | hc
    · exact .inr (List.mem_append_left _ hc)
    · exact (List.mem_cons.mp hc).imp_right fun hc => List.mem_append_right _ hc
  have hbest := h.inHeap best (by simp)
  refine ⟨rfl, ⟨m, free, rfl⟩, ⟨hchain, ?_, fun c hc => ?_, fun c hc => ?_⟩, hrem, hsize⟩
  · refine h.packed.exchange (by omega) ?_ fun c hc => congrArg (32 + ·) (hsize c hc)
    simp only [hrem]
    omega
  · rcases hsplit c hc with rfl | hc
    · exact hmagic
    · rw [Words.magic_congr (hword c hc)]
      exact h.free c (mem_middle hc)
  · rcases hsplit c hc with rfl | hc
    · simp only [hrem]
      omega
    · have hin := h.inHeap c (mem_middle hc)
      rwa [← hsize c hc] at hin

end FreeList

/-- **Best fit.** When a block of the list suffices, the search of `kmalloc` yields the earliest of the smallest ones, and
    the call takes it in one round: the heap does not grow, and the list keeps its other blocks in their order, with the
    remainder in the place of the block where at least `size + 48` bytes were there. -/
theorem kmalloc_best_fit (s : Heap) (fl : List Nat) (h : FreeList s fl) (size : Nat)
    (hsome : ∃ a ∈ fl, size ≤ s.mem.size a) :
    ∃ l best rest s', fl = l ++ best :: rest ∧ EarliestBest s.mem size l best rest ∧
      Heap.searchBest s.mem size s.walkBound s.freeList 0 sizeMax = some best ∧
      Heap.retry size (s.avail + 1) s = some (best + 32, s') ∧ (∃ m free, s' = { s with mem := m, freeList := free }) ∧
      (size + 48 ≤ s.mem.size best →
        FreeList s' (l ++ (best + 32 + size) :: rest) ∧
          s'.mem.size (best + 32 + size) = s.mem.size best - size - 32) ∧
      (s.mem.size best < size + 48 → FreeList s' (l ++ rest)) ∧
      ∀ c ∈ l ++ rest, s'.mem.size c = s.mem.size c := by
  obtain ⟨a, ha, hfits⟩ := hsome
  obtain ⟨best, hsearch, ⟨-, hmin⟩ | ⟨l, rest, rfl, hearly, -⟩⟩ :=
    @Heap.searchBest_earliest s.mem size fl s.walkBound s.freeList 0 sizeMax h.chain h.length_lt h.free
  · -- a size has 32 bits, so the block that suffices is below the start value
    have hlt := s.mem.size_lt (b := a)
    have hge := hmin a ha hfits
    rw [sizeMax] at hge
    omega
  · have hlen := h.length_lt
    rw [List.length_append, List.length_cons] at hlen
    obtain ⟨ptr, s', ht⟩ := Heap.takeBlock_isSome h.chain (by omega) fun hfit => h.hdrOff_split hfit
    have hne : best ≠ 0 := h.chain.ne_zero (by simp)
    have hretry : Heap.retry size (s.avail + 1) s = some (ptr, s') := by
      rw [Heap.retry, hsearch]
      simp only [Option.bind_eq_bind, Option.bind_some, if_neg hne]
      exact ht
    by_cases hfit : size + 48 ≤ s.mem.size best
    · obtain ⟨rfl, hkeep, hlist, hrem, hsize⟩ := h.takeSplit hfit ht
      refine ⟨l, best, rest, s', rfl, hearly, hsearch, hretry, hkeep, fun _ => ⟨hlist, hrem⟩, fun hlt => ?_, hsize⟩
      exact absurd hfit (Nat.not_le.mpr hlt)
    · obtain ⟨rfl, hkeep, hlist, hsize⟩ := h.takeWhole (Nat.not_le.mp hfit) ht
      exact ⟨l, best, rest, s', rfl, hearly, hsearch, hretry, hkeep, fun hle => absurd hle hfit, fun _ => hlist, hsize⟩

/-- A heap of two free blocks of 64 bytes, at `0x1000` and `0x2000`. -/
def twoBlocks : Heap where
  mem w :=
    if w = 0x1000 ∨ w = 0x2000 then heapMagicFree + 64 * 2 ^ 32 else if w = 0x1010 then 0x2000 else 0
  freeList := 0x1000
  heapStart := 0x1000
  heapEnd := 0x3000
  caches _ := ⟨0, 0, 0⟩
  slabVirt := 0
  avail := 0

/-- Of two blocks that fit exactly the first is taken, whole. -/
theorem kmalloc_best_fit_two :
    ∃ s', Heap.retry 64 1 twoBlocks = some (0x1020, s') ∧ FreeList s' [0x2000] := by
  have hsize : ∀ a ∈ [0x1000, 0x2000], twoBlocks.mem.size a = 64 := by decide
  have hlist : FreeList twoBlocks [0x1000, 0x2000] := by
    refine ⟨by decide, ?_, by decide, by decide⟩
    rw [Packed, List.pairwise_pair]
    exact .inl (by decide)
  obtain ⟨l, best, rest, s', hsplit, -, hsearch, hretry, -, -, hwhole, -⟩ :=
    kmalloc_best_fit twoBlocks [0x1000, 0x2000] hlist 64 ⟨0x1000, by decide, by decide⟩
  have hfirst : Heap.searchBest twoBlocks.mem 64 twoBlocks.walkBound twoBlocks.freeList 0 sizeMax = some 0x1000 := by
    decide +kernel
  obtain rfl : 0x1000 = best := Option.some.inj (hfirst.symm.trans hsearch)
  cases l with
  | nil =>
    obtain ⟨-, rfl⟩ := List.cons.inj hsplit
    exact ⟨s', hretry, hwhole (by decide)⟩
  | cons c l =>
    obtain ⟨-, htail⟩ := List.cons.inj hsplit
    have hmem : 0x1000 ∈ [0x2000] := htail ▸ List.mem_append_right l List.mem_cons_self
    exact absurd hmem (by decide)

end MyUnix.Mm
