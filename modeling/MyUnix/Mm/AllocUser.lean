import MyUnix.Mm.Dropped

/-!
# `Mm.AllocUser` — `vmm_alloc_user`

The search for a free range of the user half, and the mapping of fresh frames with its rollback. Hint and size come
from `mmap` unchecked. Both are rounded up and added in 64 bits before the test against `VMM_USER_END`, so a range that
wraps around passes it. The search moves past the first occupied page of a range, and misses no free range by that.

Two results, about what is returned and about what is left behind. The first one has an exact condition, since a range
that wraps around is found for some hints and sizes (`RangeFits`). The second one has none: at whatever point frames
run out, all pages are taken back and only tables stay, which translate nothing. It is proved with the end of the
search, so it says that the call comes back.

The pages that the call handed out are followed with `Handed`; the range of the search is a matter of arithmetic and
of translations before the call.
-/

namespace MyUnix.Mm

open Lib PageAlloc PathClass

/-- `VMM_USER_START`. -/
def vmmUserStart : Nat := 0x400000

/-- `VMM_USER_END`. -/
def vmmUserEnd : Nat := 0x7FFFFFFFF000

/-- The first of `n` pages from `virt` that is mapped. -/
def firstMapped (m : ByteMem) (pml4 virt n : Nat) : Option Nat :=
  (List.range n).find? fun i => vmmIsMapped m pml4 (pageAt virt i)

variable {σ : Type} [PageAlloc σ]

namespace Vm

variable (vm : Vm σ)

/-- The first `i` pages from `virt` are taken back. -/
def rollback (pml4 virt i : Nat) : Option (Vm σ) :=
  (List.range i).foldlM (fun vm j => vm.dropPage pml4 (pageAt virt j)) vm

/-- The loop that maps, from page `i`, so many pages more: whether all of them were mapped. -/
def mapFresh (pml4 virt : Nat) (flags : Pte) : Nat → Nat → Vm σ → Option (Bool × Vm σ)
  | 0,     _, vm => some (true, vm)
  | k + 1, i, vm =>
    let (phys, vm) := vm.alloc
    -- no frame for the page, or `vmm_map` fails: all pages so far are taken back
    if phys = 0 then (vm.rollback pml4 virt i).map (false, ·)
    else
      let (r, vm) := vm.vmmMap pml4 (pageAt virt i) phys flags
      if r < 0 then do
        let pmm ← pmmFree vm.pmm phys
        let vm ← ({ vm with pmm } : Vm σ).rollback pml4 virt i
        some (false, vm)
      else mapFresh pml4 virt flags k (i + 1) vm

/-- The loop of `vmm_alloc_user`, for so many rounds. -/
def searchUser (pml4 size : Nat) (flags : Pte) : Nat → Nat → Option (Nat × Vm σ)
  | 0,        _    => none
  | fuel + 1, virt =>
    if (virt + size) % 2 ^ 64 ≤ vmmUserEnd then
      match firstMapped vm.mem pml4 virt (size / pageSize) with
      | some i => searchUser pml4 size flags fuel (pageAt virt (i + 1))
      | none   => (mapFresh pml4 virt flags (size / pageSize) 0 vm).map fun (ok, vm) => (if ok then virt else 0, vm)
    else some (0, vm)

/-- Where the search begins. -/
def userHint (hint : Nat) : Nat := alignUp (if hint = 0 then vmmUserStart else hint)

/-- `vmm_alloc_user`, with so many rounds of its search at most; `none` also stands for the panic of `pmm_free`. -/
def vmmAllocUser (fuel pml4 hint size : Nat) (flags : Pte) : Option (Nat × Vm σ) :=
  vm.searchUser pml4 (alignUp size) flags fuel (userHint hint)

end Vm

/-! ## The search

A range is free when none of its pages is mapped. The search moves on to the page behind the first one that is, and
gives up when a range ends above `VMM_USER_END`; the sums are made in 64 bits, so the end may be small.
-/

section

variable {m : ByteMem} {pml4 virt size n : Nat}

/-- One of the `n` pages from `virt` is mapped. -/
def Occupied (m : ByteMem) (pml4 n virt : Nat) : Prop := ∃ i < n, vmmIsMapped m pml4 (pageAt virt i) = true

instance : Decidable (Occupied m pml4 n virt) :=
  inferInstanceAs (Decidable (∃ i < n, vmmIsMapped m pml4 (pageAt virt i) = true))

theorem firstMapped_none (h : firstMapped m pml4 virt n = none) :
    ∀ i < n, vmmIsMapped m pml4 (pageAt virt i) = false := by
  intro i hi
  rw [firstMapped, List.find?_eq_none] at h
  simpa using h i (List.mem_range.2 hi)

theorem firstMapped_some {i : Nat} (h : firstMapped m pml4 virt n = some i) :
    i < n ∧ vmmIsMapped m pml4 (pageAt virt i) = true :=
  ⟨List.mem_range.1 (List.mem_of_find?_eq_some h), by simpa using List.find?_some h⟩

/-- Every range that begins between `virt` and its page `i` holds that page. -/
theorem occupied_of_page {v i : Nat} (hi : i < n) (hmapped : vmmIsMapped m pml4 (pageAt virt i) = true)
    (hvirt : virt % pageSize = 0) (hv : v % pageSize = 0) (hle : virt ≤ v) (hup : v < virt + (i + 1) * pageSize) :
    Occupied m pml4 n v := by
  obtain ⟨a, rfl⟩ := Nat.dvd_of_mod_eq_zero hvirt
  obtain ⟨b, rfl⟩ := Nat.dvd_of_mod_eq_zero hv
  have hpos : 0 < pageSize := by decide
  have hab : a ≤ b := Nat.le_of_mul_le_mul_left hle hpos
  have hbi : b < a + (i + 1) := by
    rw [Nat.mul_comm (i + 1), ← Nat.mul_add] at hup
    exact Nat.lt_of_mul_lt_mul_left hup
  refine ⟨a + i - b, by omega, ?_⟩
  have heq : pageSize * b + (a + i - b) * pageSize = pageSize * a + i * pageSize := by
    rw [Nat.mul_comm _ pageSize, Nat.mul_comm i, ← Nat.mul_add, ← Nat.mul_add]
    congr 1
    omega
  rw [pageAt, heq]
  exact hmapped

end

/-- Which range the search settles for: below `VMM_USER_END`, and then nothing above `virt` was free that wraps
    around; or one that does. -/
inductive Settles (m : ByteMem) (pml4 size virt r : Nat) : Prop
  | below (hle : r + size ≤ vmmUserEnd)
      (hpassed : virt + size < 2 ^ 64 ∨
        ∀ v, v % pageSize = 0 → virt ≤ v → v < 2 ^ 64 → Occupied m pml4 (size / pageSize) v)
  | wraps (hvirt : 2 ^ 64 ≤ virt + size) (hle : virt ≤ r) (hlt : r < 2 ^ 64)

section

variable {vm vm' : Vm σ} {pml4 size virt r : Nat} {flags : Pte}

/-- The search gives up, or it settles for a range without a page in it. -/
theorem searchUser_settles (hsize : size % pageSize = 0) (hle : size ≤ vmmUserEnd) : ∀ (fuel : Nat) {virt : Nat},
    virt % pageSize = 0 → virt < 2 ^ 64 → vm.searchUser pml4 size flags fuel virt = some (r, vm') →
    (r = 0 ∧ vm' = vm) ∨ ∃ v ok, v % pageSize = 0 ∧
      (∀ i < size / pageSize, vmmIsMapped vm.mem pml4 (pageAt v i) = false) ∧
      Vm.mapFresh pml4 v flags (size / pageSize) 0 vm = some (ok, vm') ∧ Settles vm.mem pml4 size virt v ∧
      r = if ok then v else 0 := by
  intro fuel
  induction fuel with
  | zero => intro virt _ _ h; cases h
  | succ fuel ih =>
    intro virt hal hlt h
    rw [Vm.searchUser] at h
    split at h
    case isFalse =>
      cases h
      exact .inl ⟨rfl, rfl⟩
    case isTrue htest =>
      split at h
      case h_1 i hfound =>
        obtain ⟨hi, hmapped⟩ := firstMapped_some hfound
        have hend : vmmUserEnd + vmmUserEnd < 2 ^ 64 := by decide
        have hstep : (i + 1) * pageSize ≤ size := by
          rw [← Nat.div_mul_cancel (Nat.dvd_of_mod_eq_zero hsize)]
          exact Nat.mul_le_mul_right _ hi
        have hnext : (virt + (i + 1) * pageSize) % pageSize = 0 := by rw [Nat.add_mul_mod_self_right, hal]
        -- no range that begins before the next start is free
        have hskip : ∀ v, v % pageSize = 0 → virt ≤ v → v < virt + (i + 1) * pageSize →
            Occupied vm.mem pml4 (size / pageSize) v :=
          fun v hv hle' hlt' => occupied_of_page hi hmapped hal hv hle' hlt'
        have hmod : pageAt virt (i + 1) % pageSize = 0 := by
          rw [pageAt, Nat.mod_mod_of_dvd _ (by decide), hnext]
        refine (ih hmod (Nat.mod_lt _ (by decide)) h).imp_right ?_
        rintro ⟨v, ok, hv, hfree, hmap, hsettles, hr⟩
        refine ⟨v, ok, hv, hfree, hmap, ?_, hr⟩
        rw [pageAt] at hsettles
        generalize (i + 1) * pageSize = s at hstep hskip hsettles
        by_cases hwrap : 2 ^ 64 ≤ virt + size
        · by_cases hover : 2 ^ 64 ≤ virt + s
          · cases hsettles with
            | below hle' _ => exact .below hle' (.inr fun v hv hle'' hlt' => hskip v hv hle'' (by omega))
            | wraps hvirt => omega
          · rw [Nat.mod_eq_of_lt (Nat.lt_of_not_le hover)] at hsettles
            cases hsettles with
            | below hle' hpassed =>
              refine .below hle' (.inr fun v hv hle'' hlt' => ?_)
              by_cases hv' : v < virt + s
              · exact hskip v hv hle'' hv'
              · exact hpassed.resolve_left (by omega) v hv (by omega) hlt'
            | wraps hvirt hle' hlt' => exact .wraps hwrap (by omega) hlt'
        · rw [Nat.mod_eq_of_lt (Nat.lt_of_not_le hwrap)] at htest
          rw [Nat.mod_eq_of_lt (by omega)] at hsettles
          cases hsettles with
          | below hle' _ => exact .below hle' (.inl (Nat.lt_of_not_le hwrap))
          | wraps hvirt => omega
      case h_2 hnone =>
        rw [Option.map_eq_some_iff] at h
        obtain ⟨⟨ok, vm''⟩, hmap, hout⟩ := h
        obtain ⟨hr, rfl⟩ := Prod.mk.inj hout
        refine .inr ⟨virt, ok, hal, firstMapped_none hnone, hmap, ?_, hr.symm⟩
        by_cases hwrap : 2 ^ 64 ≤ virt + size
        · exact .wraps hwrap (Nat.le_refl _) hlt
        · rw [Nat.mod_eq_of_lt (Nat.lt_of_not_le hwrap)] at htest
          exact .below htest (.inl (Nat.lt_of_not_le hwrap))

theorem searchUser_spec (hsize : size % pageSize = 0) (hle : size ≤ vmmUserEnd) (fuel : Nat) (hal : virt % pageSize = 0)
    (hlt : virt < 2 ^ 64) (h : vm.searchUser pml4 size flags fuel virt = some (r, vm')) (h0 : r ≠ 0) :
    r % pageSize = 0 ∧ (∀ i < size / pageSize, vmmIsMapped vm.mem pml4 (pageAt r i) = false) ∧
    Vm.mapFresh pml4 r flags (size / pageSize) 0 vm = some (true, vm') ∧ Settles vm.mem pml4 size virt r := by
  rcases searchUser_settles hsize hle fuel hal hlt h with ⟨hr, -⟩ | ⟨v, ok, hv, hfree, hmap, hsettles, hr⟩
  · exact absurd hr h0
  · cases ok with
    | false => exact absurd hr h0
    | true =>
      obtain rfl : r = v := hr
      exact ⟨hv, hfree, hmap, hsettles⟩

end

/-! ## Mapping and rollback

Pages are handed out one after the other, and taken back from the first one on. When a frame was found and could not
be mapped, it is given back on its own.
-/

/-- Of the pages handed out, exactly those from `lo` to before `hi` have a frame. -/
def Covers (frame : Nat → Option Nat) (lo hi : Nat) : Prop := ∀ p, (∃ f, frame p = some f) ↔ lo ≤ p ∧ p < hi

namespace Covers

variable {frame : Nat → Option Nat} {lo hi p : Nat}

theorem empty (lo : Nat) : Covers (fun _ => none) lo lo := by
  intro p
  refine iff_of_false nofun ?_
  omega

theorem none_of (h : Covers frame lo hi) (hp : ¬(lo ≤ p ∧ p < hi)) : frame p = none := by
  rw [← Option.not_isSome_iff_eq_none, Option.isSome_iff_exists, h p]
  exact hp

theorem eq_none (h : Covers frame lo lo) : frame = fun _ => none := by
  funext p
  apply h.none_of
  omega

theorem push (h : Covers frame lo hi) (hle : lo ≤ hi) (f : Nat) :
    Covers (Function.update frame hi (some f)) lo (hi + 1) := by
  intro p
  by_cases hp : p = hi
  · rw [hp, Function.update_self]
    exact iff_of_true ⟨f, rfl⟩ ⟨hle, Nat.lt_succ_self hi⟩
  · rw [Function.update_of_ne hp, h p]
    omega

theorem pop (h : Covers frame lo hi) : Covers (Function.update frame lo none) (lo + 1) hi := by
  intro p
  by_cases hp : p = lo
  · rw [hp, Function.update_self]
    refine iff_of_false nofun ?_
    omega
  · rw [Function.update_of_ne hp, h p]
    omega

end Covers

section

variable {vm₀ vm : Vm σ} {pml4 base : Nat} {frame : Nat → Option Nat} {loose : List Nat} {flags : Pte}

/-- A page that was handed out is taken back. -/
theorem Handed.dropPage (h : Handed vm₀ vm pml4 frame loose) {p f : Nat} (hf : frame p = some f)
    (hzero : ∀ o < pageSize, vmmVirtToPhys vm₀.mem pml4 (p * pageSize + o) = 0) :
    ∃ vm', vm.dropPage pml4 (p * pageSize) = some vm' ∧
      Handed vm₀ vm' pml4 (Function.update frame p none) loose := by
  have hphys := h.page hf (o := 0) (by decide)
  rw [Nat.add_zero, Nat.add_zero] at hphys
  have hf0 : f ≠ 0 := (h.frame_spec (.inr ⟨p, hf⟩)).1
  obtain ⟨s, hs, h'⟩ := (h.unmap hf hzero).release
  refine ⟨_, ?_, h'⟩
  rw [Vm.dropPage, hphys, if_pos hf0, hs]
  rfl

/-- The loop of the rollback, from any page on. -/
theorem Handed.dropPages (hzero : NoZeroFrame vm₀.mem pml4) (k : Nat) : ∀ {vm : Vm σ} {frame : Nat → Option Nat} {j : Nat},
    Handed vm₀ vm pml4 frame loose → Covers frame (base + j) (base + j + k) →
    (∀ p, base + j ≤ p → p < base + j + k → vmmIsMapped vm₀.mem pml4 (p * pageSize) = false) →
    ∃ vm', (List.range' j k).foldlM (fun vm j => vm.dropPage pml4 (pageAt (base * pageSize) j)) vm = some vm' ∧
      Handed vm₀ vm' pml4 (fun _ => none) loose := by
  induction k with
  | zero =>
    intro vm frame j h hc _
    refine ⟨vm, rfl, ?_⟩
    rwa [hc.eq_none] at h
  | succ k ih =>
    intro vm frame j h hc hun
    obtain ⟨f, hf⟩ := (hc (base + j)).2 ⟨Nat.le_refl _, by omega⟩
    have huser := h.assigned.user hf
    have hfree := hun (base + j) (Nat.le_refl _) (by omega)
    obtain ⟨vm₁, hdrop, h₁⟩ := h.dropPage hf (hzero _ huser hfree)
    have hc₁ := hc.pop
    rw [show base + j + (k + 1) = base + (j + 1) + k by omega, Nat.add_assoc base j 1] at hc₁
    obtain ⟨vm', hrest, h'⟩ := ih h₁ hc₁ fun p hlo hhi =>
      hun p (by omega) (by omega)
    refine ⟨vm', ?_, h'⟩
    rw [List.range'_succ, List.foldlM_cons, pageAt_base (Nat.lt_trans huser (by decide)), hdrop]
    exact hrest

/-- **Rollback.** All pages are taken back. -/
theorem Handed.rollback (h : Handed vm₀ vm pml4 frame loose) (hzero : NoZeroFrame vm₀.mem pml4) {i : Nat}
    (hc : Covers frame base (base + i))
    (hun : ∀ p, base ≤ p → p < base + i → vmmIsMapped vm₀.mem pml4 (p * pageSize) = false) :
    ∃ vm', vm.rollback pml4 (base * pageSize) i = some vm' ∧ Handed vm₀ vm' pml4 (fun _ => none) loose := by
  rw [Vm.rollback, List.range_eq_range']
  exact h.dropPages (j := 0) hzero i hc hun

/-- **The loop that maps**: all pages are mapped, or none is and what is gone are the tables. -/
theorem Handed.mapFresh (hpres : isPresent flags = true) (hflags : flags &&& 0x000FFFFFFFFFF000#64 = 0#64) {n : Nat}
    (hend : (base + n) * pageSize ≤ vmmUserEnd) (k : Nat) : ∀ {vm : Vm σ} {frame : Nat → Option Nat} {i : Nat}, i + k = n →
    Handed vm₀ vm pml4 frame [] → Covers frame base (base + i) →
    (∀ {vm'}, Vm.mapFresh pml4 (base * pageSize) flags k i vm = some (true, vm') →
      ∃ frame', Handed vm₀ vm' pml4 frame' [] ∧ Covers frame' base (base + n)) ∧
    (NoZeroFrame vm₀.mem pml4 → (∀ p, base ≤ p → p < base + n → vmmIsMapped vm₀.mem pml4 (p * pageSize) = false) →
      ∃ ok vm', Vm.mapFresh pml4 (base * pageSize) flags k i vm = some (ok, vm') ∧
        (ok = false → Handed vm₀ vm' pml4 (fun _ => none) [])) := by
  induction k with
  | zero =>
    intro vm frame i hi h hc
    obtain rfl : i = n := hi
    refine ⟨fun {vm'} hout => ?_, fun _ _ => ⟨true, vm, rfl, nofun⟩⟩
    obtain ⟨-, rfl⟩ := Prod.mk.inj (Option.some.inj hout)
    exact ⟨frame, h, hc⟩
  | succ k ih =>
    intro vm frame i hi h hc
    have hpage : (base + i) * pageSize < 2 ^ 47 := by
      have hlt : (base + i) * pageSize < (base + n) * pageSize := Nat.mul_lt_mul_of_pos_right (by omega) (by decide)
      exact Nat.lt_of_lt_of_le (Nat.lt_of_lt_of_le hlt hend) (by decide)
    have haddr := pageAt_base (Nat.lt_trans hpage (show (2 : Nat) ^ 47 < 2 ^ 64 by decide))
    have hnone : frame (base + i) = none := hc.none_of (by omega)
    rw [Vm.mapFresh]
    by_cases h0 : vm.alloc.1 = 0
    · -- no frame for the page
      simp only [if_pos h0]
      refine ⟨fun hout => ?_, fun hzero hun => ?_⟩
      · obtain ⟨vm', -, hpair⟩ := Option.map_eq_some_iff.1 hout
        cases hpair
      · obtain ⟨vm', hroll, h'⟩ := (h.allocNone h0).rollback hzero hc fun p hlo hhi => hun p hlo (by omega)
        exact ⟨false, vm', by rw [hroll]; rfl, fun _ => h'⟩
    · simp only [if_neg h0, haddr]
      rcases (h.alloc h0).map hpage hnone hpres hflags with ⟨hr, h'⟩ | ⟨hr, -, h'⟩
      · rw [hr, if_neg (by decide)]
        have hc' := hc.push (Nat.le_add_right _ _) vm.alloc.1
        exact ih (by omega) h' hc'
      · -- no frame for a table
        rw [hr, if_pos (by decide)]
        obtain ⟨s, hs, h''⟩ := h'.release
        rw [hs]
        simp only [Option.bind_eq_bind, Option.bind_some]
        refine ⟨fun hout => ?_, fun hzero hun => ?_⟩
        · obtain ⟨vm', -, hpair⟩ := Option.bind_eq_some_iff.1 hout
          cases hpair
        · obtain ⟨vm', hroll, hdone⟩ := h''.rollback hzero hc fun p hlo hhi => hun p hlo (by omega)
          exact ⟨false, vm', by rw [hroll, Option.bind_some], fun _ => hdone⟩

end

/-! ## A range that is returned

The three conditions that a range of the user half has to meet, and when the range that is returned meets them.
-/

/-- How many pages hold `size` bytes from the start of a page. -/
def pagesOf (size : Nat) : Nat := (size + (pageSize - 1)) / pageSize

/-- The range `[r, r + size)`, rounded up to pages, is below `VMM_USER_END`, and of the addresses the processor accepts
    exactly its pages changed: they were not mapped and now have a fresh frame each. -/
structure UserRange (vm vm' : Vm σ) (pml4 r size : Nat) : Prop where
  aligned : r % pageSize = 0
  below : r + pagesOf size * pageSize ≤ vmmUserEnd
  unmapped : ∀ i < pagesOf size, vmmIsMapped vm.mem pml4 (r + i * pageSize) = false
  fresh : ∀ i < pagesOf size, ∃ f, Free vm.pmm f ∧ ¬Free vm'.pmm f ∧ Unused IsPath vm'.mem pml4 f ∧
    ∀ o < pageSize, vmmVirtToPhys vm'.mem pml4 (r + i * pageSize + o) = f + o
  own : ∀ i < pagesOf size, ∀ j < pagesOf size,
    vmmVirtToPhys vm'.mem pml4 (r + i * pageSize) = vmmVirtToPhys vm'.mem pml4 (r + j * pageSize) → i = j
  others : ∀ va, Canonical va → va < r ∨ r + pagesOf size * pageSize ≤ va →
    vmmVirtToPhys vm'.mem pml4 va = vmmVirtToPhys vm.mem pml4 va

/-- The size is one of the user half, and from the hint on no range that wraps around is free. -/
def RangeFits (m : ByteMem) (pml4 hint size : Nat) : Prop :=
  size ≤ vmmUserEnd ∧ (Vm.userHint hint + alignUp size < 2 ^ 64 ∨
    ∀ v, v % pageSize = 0 → Vm.userHint hint ≤ v → v < 2 ^ 64 → Occupied m pml4 (alignUp size / pageSize) v)

theorem alignUp_mod (x : Nat) : alignUp x % pageSize = 0 := alignDown_mod _

theorem alignUp_lt (x : Nat) : alignUp x < 2 ^ 64 := by
  rw [alignUp, alignDown]
  exact Nat.lt_of_le_of_lt (Nat.div_mul_le_self _ _) (Nat.mod_lt _ (by decide))

/-- Without wrap-around `ALIGN_UP` gives the pages that hold the bytes. -/
theorem alignUp_eq {x : Nat} (h : x + (pageSize - 1) < 2 ^ 64) : alignUp x = pagesOf x * pageSize := by
  rw [alignUp, Nat.mod_eq_of_lt h]
  rfl

theorem pagesOf_le {x y : Nat} (hy : y % pageSize = 0) : pagesOf x * pageSize ≤ y ↔ x ≤ y := by
  rw [pagesOf, pageSize] at *
  omega

theorem alignUp_of_le {size : Nat} (h : size ≤ vmmUserEnd) : alignUp size = pagesOf size * pageSize := by
  apply alignUp_eq
  exact Nat.lt_of_le_of_lt (Nat.add_le_add_right h _) (by decide)

section

variable {vm vm' : Vm σ} {pml4 base n size r : Nat} {frame : Nat → Option Nat}

theorem pageAt_mul {i : Nat} : base * pageSize + i * pageSize = (base + i) * pageSize := (Nat.add_mul ..).symm

/-- All pages of a range were mapped. -/
theorem Handed.userRange (h : Handed vm vm' pml4 frame []) (hc : Covers frame base (base + pagesOf size))
    (hend : (base + pagesOf size) * pageSize ≤ vmmUserEnd)
    (hun : ∀ i < pagesOf size, vmmIsMapped vm.mem pml4 ((base + i) * pageSize) = false) :
    UserRange vm vm' pml4 (base * pageSize) size := by
  have hframe : ∀ i < pagesOf size, ∃ f, frame (base + i) = some f := fun i hi => (hc _).2 (by omega)
  have hzero : ∀ {p f}, frame p = some f → vmmVirtToPhys vm'.mem pml4 (p * pageSize) = f := by
    intro p f hf
    have := h.page hf (o := 0) (by decide)
    rwa [Nat.add_zero, Nat.add_zero] at this
  exact {
    aligned := Nat.mul_mod_left _ _
    below := by rwa [pageAt_mul]
    unmapped := fun i hi => by
      rw [pageAt_mul]
      exact hun i hi
    fresh := fun i hi => by
      obtain ⟨f, hf⟩ := hframe i hi
      obtain ⟨hwas, hnot, hunf⟩ := h.held (.inr ⟨_, hf⟩)
      refine ⟨f, hwas, hnot, hunf, fun o ho => ?_⟩
      rw [pageAt_mul]
      exact h.page hf ho
    own := fun i hi j hj heq => by
      obtain ⟨f, hf⟩ := hframe i hi
      obtain ⟨g, hg⟩ := hframe j hj
      rw [pageAt_mul, pageAt_mul, hzero hf, hzero hg] at heq
      subst heq
      have := h.assigned.inj hf hg
      omega
    others := fun va hva hout => by
      apply h.same hva
      apply hc.none_of
      rintro ⟨hlo, hhi⟩
      rw [pageAt_mul] at hout
      rcases hout with hout | hout
      · exact Nat.not_lt.2 hlo (Nat.div_lt_of_lt_mul (by rwa [Nat.mul_comm]))
      · exact Nat.not_le.2 hhi ((Nat.le_div_iff_mul_le (by decide)).2 hout) }

end

section

variable {vm vm' : Vm σ} {fuel pml4 hint size r : Nat} {flags : Pte}

/-- A range that stays in the user half was not found by a sum that wraps around. -/
theorem alloc_user_fits (hout : vm.vmmAllocUser fuel pml4 hint size flags = some (r, vm')) (h0 : r ≠ 0)
    (hbelow : r + pagesOf size * pageSize ≤ vmmUserEnd) : RangeFits vm.mem pml4 hint size := by
  have hend : vmmUserEnd % pageSize = 0 := by decide
  have hsize : size ≤ vmmUserEnd := (pagesOf_le hend).1 (Nat.le_trans (Nat.le_add_left _ _) hbelow)
  have halign := alignUp_of_le hsize
  have hle : alignUp size ≤ vmmUserEnd := by
    rw [halign]
    exact (pagesOf_le hend).2 hsize
  obtain ⟨-, -, -, hsettles⟩ := searchUser_spec (alignUp_mod size) hle fuel (alignUp_mod _) (alignUp_lt _) hout h0
  refine ⟨hsize, ?_⟩
  cases hsettles with
  | below _ hpassed => exact hpassed
  | wraps hvirt hrle =>
    -- the range lies above the hint, and the hint's own range wraps around
    exfalso
    rw [← halign] at hbelow
    have : vmmUserEnd < 2 ^ 64 := by decide
    change 2 ^ 64 ≤ Vm.userHint hint + alignUp size at hvirt
    change Vm.userHint hint ≤ r at hrle
    omega

omit [PageAlloc σ] in
/-- Otherwise the range that the search settles for is one of the user half. -/
theorem RangeFits.below (h : RangeFits vm.mem pml4 hint size)
    (hfree : ∀ i < alignUp size / pageSize, vmmIsMapped vm.mem pml4 (pageAt r i) = false) (hal : r % pageSize = 0)
    (hsettles : Settles vm.mem pml4 (alignUp size) (Vm.userHint hint) r) :
    ∃ base, r = base * pageSize ∧ (base + pagesOf size) * pageSize ≤ vmmUserEnd ∧
      ∀ i < pagesOf size, vmmIsMapped vm.mem pml4 ((base + i) * pageSize) = false := by
  obtain ⟨hsize, hpassed⟩ := h
  have halign := alignUp_of_le hsize
  have hn : alignUp size / pageSize = pagesOf size := by rw [halign, Nat.mul_div_cancel _ (by decide)]
  have hbelow : r + pagesOf size * pageSize ≤ vmmUserEnd := by
    rw [← halign]
    cases hsettles with
    | below hle' => exact hle'
    | wraps hvirt hrle hlt =>
      rcases hpassed with hnowrap | hocc
      · exact absurd hvirt (Nat.not_le.2 hnowrap)
      · obtain ⟨i, hi, hmapped⟩ := hocc r hal hrle hlt
        rw [hfree i hi] at hmapped
        cases hmapped
  obtain ⟨base, rfl⟩ : ∃ base, r = base * pageSize := ⟨r / pageSize, (Nat.div_mul_cancel (Nat.dvd_of_mod_eq_zero hal)).symm⟩
  rw [pageAt_mul] at hbelow
  refine ⟨base, rfl, hbelow, fun i hi => ?_⟩
  rw [← pageAt_base]
  · exact hfree i (by rwa [hn])
  · have hlt : (base + i) * pageSize < (base + pagesOf size) * pageSize :=
      Nat.mul_lt_mul_of_pos_right (by omega) (by decide)
    exact Nat.lt_of_lt_of_le hlt (Nat.le_trans hbelow (by decide))

/-- All pages of the range were handed out. -/
theorem alloc_user_handed (hinv : TreeInv IsPath vm pml4) (hpres : isPresent flags = true)
    (hflags : flags &&& 0x000FFFFFFFFFF000#64 = 0#64)
    (hout : vm.vmmAllocUser fuel pml4 hint size flags = some (r, vm')) (h0 : r ≠ 0)
    (hfits : RangeFits vm.mem pml4 hint size) :
    ∃ base frame, r = base * pageSize ∧ (base + pagesOf size) * pageSize ≤ vmmUserEnd ∧
      Handed vm vm' pml4 frame [] ∧ Covers frame base (base + pagesOf size) ∧
      ∀ i < pagesOf size, vmmIsMapped vm.mem pml4 ((base + i) * pageSize) = false := by
  have halign := alignUp_of_le hfits.1
  have hle : alignUp size ≤ vmmUserEnd := by
    rw [halign]
    exact (pagesOf_le (by decide)).2 hfits.1
  obtain ⟨hal, hfree, hmap, hsettles⟩ :=
    searchUser_spec (alignUp_mod size) hle fuel (alignUp_mod _) (alignUp_lt _) hout h0
  obtain ⟨base, rfl, hbelow, hun⟩ := hfits.below hfree hal hsettles
  rw [halign, Nat.mul_div_cancel _ (by decide)] at hmap
  obtain ⟨hdone, -⟩ := (Handed.refl hinv).mapFresh hpres hflags hbelow (pagesOf size) (Nat.zero_add _) (Covers.empty base)
  obtain ⟨frame, h, hc⟩ := hdone hmap
  exact ⟨base, frame, rfl, hbelow, h, hc, hun⟩

/-- Whatever comes out, only pages that were not mapped were handed out. -/
theorem alloc_user_any (hinv : TreeInv IsPath vm pml4) (hzero : NoZeroFrame vm.mem pml4) (hpres : isPresent flags = true)
    (hflags : flags &&& 0x000FFFFFFFFFF000#64 = 0#64)
    (hout : vm.vmmAllocUser fuel pml4 hint size flags = some (r, vm')) (hfits : RangeFits vm.mem pml4 hint size) :
    ∃ frame, Handed vm vm' pml4 frame [] ∧
      ∀ p f, frame p = some f → vmmIsMapped vm.mem pml4 (p * pageSize) = false := by
  have halign := alignUp_of_le hfits.1
  have hle : alignUp size ≤ vmmUserEnd := by
    rw [halign]
    exact (pagesOf_le (by decide)).2 hfits.1
  rcases searchUser_settles (alignUp_mod size) hle fuel (alignUp_mod _) (alignUp_lt _) hout with
    ⟨-, rfl⟩ | ⟨v, ok, hal, hfree, hmap, hsettles, -⟩
  · exact ⟨_, Handed.refl hinv, nofun⟩
  · obtain ⟨base, rfl, hbelow, hun⟩ := hfits.below hfree hal hsettles
    rw [halign, Nat.mul_div_cancel _ (by decide)] at hmap
    have hpages : ∀ p, base ≤ p → p < base + pagesOf size → vmmIsMapped vm.mem pml4 (p * pageSize) = false := by
      intro p hlo hhi
      have hp := hun (p - base) (by omega)
      rwa [Nat.add_sub_cancel' hlo] at hp
    obtain ⟨hdone, hall⟩ := (Handed.refl hinv).mapFresh hpres hflags hbelow (pagesOf size) (Nat.zero_add _)
      (Covers.empty base)
    cases ok with
    | true =>
      obtain ⟨frame, h, hc⟩ := hdone hmap
      refine ⟨frame, h, fun p f hf => ?_⟩
      obtain ⟨hlo, hhi⟩ := (hc p).1 ⟨f, hf⟩
      exact hpages p hlo hhi
    | false =>
      obtain ⟨ok, vm'', hmap', hundone⟩ := hall hzero hpages
      rw [hmap] at hmap'
      obtain ⟨rfl, rfl⟩ := Prod.mk.inj (Option.some.inj hmap')
      exact ⟨_, hundone rfl, nofun⟩

end

/-- **Ranges of `vmm_alloc_user`.** What is returned is a range of the user half with a fresh frame under each page
    exactly when the size is one of the user half and no free range wraps around. -/
theorem user_range_iff (vm vm' : Vm σ) (fuel pml4 hint size r : Nat) (flags : Pte) (hinv : TreeInv IsPath vm pml4)
    (hpres : isPresent flags = true) (hflags : flags &&& 0x000FFFFFFFFFF000#64 = 0#64)
    (hout : vm.vmmAllocUser fuel pml4 hint size flags = some (r, vm')) (h0 : r ≠ 0) :
    UserRange vm vm' pml4 r size ↔ RangeFits vm.mem pml4 hint size := by
  constructor
  · exact fun hr => alloc_user_fits hout h0 hr.below
  · intro hfits
    obtain ⟨base, frame, rfl, hbelow, h, hc, hun⟩ := alloc_user_handed hinv hpres hflags hout h0 hfits
    exact h.userRange hc hbelow hun

theorem clearedVm_tree : TreeInv IsPath clearedVm 0x1000 := by
  refine .of_cleared rfl (by decide) ?_
  rintro ⟨-, -, hfree⟩
  revert hfree
  decide

theorem user_range_small : ∃ vm', clearedVm.vmmAllocUser 1 0x1000 0 0x1000 vmmUserRw = some (0x400000, vm') ∧
    UserRange clearedVm vm' 0x1000 0x400000 0x1000 := by
  have hr : (clearedVm.vmmAllocUser 1 0x1000 0 0x1000 vmmUserRw).map Prod.fst = some 0x400000 := by decide +kernel
  obtain ⟨⟨r, vm'⟩, hout, rfl⟩ := Option.map_eq_some_iff.1 hr
  exact ⟨vm', hout, (user_range_iff clearedVm vm' 1 0x1000 0 0x1000 0x400000 vmmUserRw clearedVm_tree (by decide)
    (by decide) hout (by decide)).2 ⟨by decide, .inl (by decide)⟩⟩

/-- Two pages from the last page of the address space on: the sum wraps around to `0x1000`. -/
theorem user_range_wraps : ∃ vm',
    clearedVm.vmmAllocUser 1 0x1000 0xFFFFFFFFFFFFF000 0x2000 vmmUserRw = some (0xFFFFFFFFFFFFF000, vm') ∧
    ¬UserRange clearedVm vm' 0x1000 0xFFFFFFFFFFFFF000 0x2000 := by
  have hr : (clearedVm.vmmAllocUser 1 0x1000 0xFFFFFFFFFFFFF000 0x2000 vmmUserRw).map Prod.fst =
      some 0xFFFFFFFFFFFFF000 := by decide +kernel
  obtain ⟨⟨r, vm'⟩, hout, rfl⟩ := Option.map_eq_some_iff.1 hr
  refine ⟨vm', hout, fun h => absurd h.below (by decide)⟩

/-! ## Failure

The rounds of the search are bounded by the number of pages of the user half.
-/

/-- Nothing is left of a call but tables: every address is translated as before, and each frame that is not free any
    more is a new table of the space. -/
structure Undone (vm vm' : Vm σ) (pml4 : Nat) : Prop where
  tree : TreeInv IsPath vm' pml4
  same {va} : Canonical va → vmmVirtToPhys vm'.mem pml4 va = vmmVirtToPhys vm.mem pml4 va
  free {f} : Free vm'.pmm f → Free vm.pmm f
  taken {f} : Free vm.pmm f → ¬Free vm'.pmm f →
    ∃ q, IsUser q ∧ tableAt vm'.mem pml4 q = some f ∧ tableAt vm.mem pml4 q ≠ some f

theorem Handed.undone {vm vm' : Vm σ} {pml4 : Nat} (h : Handed vm vm' pml4 (fun _ => none) [])
    (hinv : TreeInv IsPath vm pml4) : Undone vm vm' pml4 where
  tree := h.inv
  same hc := h.same hc rfl
  free := h.free
  taken hwas hnot := by
    rcases h.kept hwas with hfree | ⟨q, hq, ht⟩ | hheld
    · exact absurd hfree hnot
    · exact ⟨q, hq, ht, fun ht' => hinv.apart hq.1 ht' hwas⟩
    · rcases hheld with hmem | ⟨p, hp⟩ <;> contradiction

section

variable {vm vm' : Vm σ} {pml4 size : Nat} {flags : Pte}

/-- From a start that does not wrap around, the search ends and never panics. What fails is undone. -/
theorem searchUser_ends (hinv : TreeInv IsPath vm pml4) (hzero : NoZeroFrame vm.mem pml4) (hpres : isPresent flags = true)
    (hflags : flags &&& 0x000FFFFFFFFFF000#64 = 0#64) (hsize : size % pageSize = 0) (hle : size ≤ vmmUserEnd) :
    ∀ (fuel : Nat) {virt : Nat}, virt % pageSize = 0 → 0 < virt → virt ≤ vmmUserEnd →
      vmmUserEnd - virt < fuel * pageSize →
      ∃ r vm', vm.searchUser pml4 size flags fuel virt = some (r, vm') ∧ (r = 0 → Undone vm vm' pml4) := by
  have hend : vmmUserEnd + vmmUserEnd < 2 ^ 64 := by decide
  -- by induction on the rounds: each of them moves on by a page at least
  intro fuel
  induction fuel with
  | zero =>
    intro virt _ _ _ hfuel
    rw [Nat.zero_mul] at hfuel
    exact absurd hfuel (Nat.not_lt_zero _)
  | succ fuel ih =>
    intro virt hal hpos hvirt hfuel
    rw [Vm.searchUser, Nat.mod_eq_of_lt (by omega)]
    split
    case isFalse => exact ⟨0, vm, rfl, fun _ => (Handed.refl hinv).undone hinv⟩
    case isTrue htest =>
      split
      case h_1 i hfound =>
        -- a page is mapped in the range: the search goes on behind it
        obtain ⟨hi, -⟩ := firstMapped_some hfound
        have hstep : (i + 1) * pageSize ≤ size := by
          rw [← Nat.div_mul_cancel (Nat.dvd_of_mod_eq_zero hsize)]
          exact Nat.mul_le_mul_right _ hi
        have hnext : (virt + (i + 1) * pageSize) % pageSize = 0 := by rw [Nat.add_mul_mod_self_right, hal]
        have hmove : pageSize ≤ (i + 1) * pageSize := Nat.le_mul_of_pos_left _ (Nat.succ_pos i)
        rw [Nat.succ_mul] at hfuel
        rw [pageAt, Nat.mod_eq_of_lt (by omega)]
        exact ih hnext (by omega) (by omega) (by omega)
      case h_2 hnone =>
        -- the range is free: its pages are handed out, or taken back when one cannot be had
        obtain ⟨base, rfl⟩ : ∃ base, virt = base * pageSize :=
          ⟨virt / pageSize, (Nat.div_mul_cancel (Nat.dvd_of_mod_eq_zero hal)).symm⟩
        have hbelow : (base + size / pageSize) * pageSize ≤ vmmUserEnd := by
          rw [Nat.add_mul, Nat.div_mul_cancel (Nat.dvd_of_mod_eq_zero hsize)]
          exact htest
        have hun : ∀ p, base ≤ p → p < base + size / pageSize → vmmIsMapped vm.mem pml4 (p * pageSize) = false := by
          intro p hlo hhi
          have hlt : p * pageSize < (base + size / pageSize) * pageSize := Nat.mul_lt_mul_of_pos_right hhi (by decide)
          have := firstMapped_none hnone (p - base) (by omega)
          rwa [pageAt_base, Nat.add_sub_cancel' hlo] at this
          rw [Nat.add_sub_cancel' hlo]
          exact Nat.lt_of_lt_of_le hlt (Nat.le_trans hbelow (by decide))
        obtain ⟨-, hall⟩ := (Handed.refl hinv).mapFresh hpres hflags hbelow (size / pageSize) (Nat.zero_add _)
          (Covers.empty base)
        obtain ⟨ok, vm', hmap, hfail⟩ := hall hzero hun
        rw [hmap]
        refine ⟨_, vm', rfl, fun hr => ?_⟩
        cases ok with
        | false => exact (hfail rfl).undone hinv
        | true => exact absurd hr (Nat.ne_of_gt hpos)

end

/-- The search starts at the hint, or where user programs start. -/
theorem vmmAllocUser_ends {vm : Vm σ} {pml4 hint size : Nat} {flags : Pte} (hinv : TreeInv IsPath vm pml4)
    (hzero : NoZeroFrame vm.mem pml4) (hfits : pagesOf hint * pageSize + pagesOf size * pageSize ≤ vmmUserEnd)
    (hpres : isPresent flags = true) (hflags : flags &&& 0x000FFFFFFFFFF000#64 = 0#64) {fuel : Nat}
    (hfuel : vmmUserEnd < fuel * pageSize) :
    ∃ r vm', vm.vmmAllocUser fuel pml4 hint size flags = some (r, vm') ∧ (r = 0 → Undone vm vm' pml4) := by
  have hend : vmmUserEnd % pageSize = 0 := by decide
  have hhint : hint ≤ vmmUserEnd := (pagesOf_le hend).1 (by omega)
  have hsize : size ≤ vmmUserEnd := (pagesOf_le hend).1 (by omega)
  have hstart : 0 < Vm.userHint hint ∧ Vm.userHint hint ≤ vmmUserEnd := by
    rw [Vm.userHint]
    split
    next => decide
    next h0 =>
      rw [alignUp_of_le hhint]
      refine ⟨Nat.pos_of_ne_zero fun hz => h0 ?_, (pagesOf_le hend).2 hhint⟩
      exact Nat.le_zero.1 ((pagesOf_le (Nat.zero_mod _)).1 (Nat.le_of_eq hz))
  have hle : alignUp size ≤ vmmUserEnd := by
    rw [alignUp_of_le hsize]
    exact (pagesOf_le hend).2 hsize
  exact searchUser_ends hinv hzero hpres hflags (alignUp_mod size) hle fuel (alignUp_mod _) hstart.1 hstart.2 (by omega)

/-- **Failure of `vmm_alloc_user`** leaves every translation as it was and only new tables taken, wherever frames run
    out. The call ends, and the rollback does not panic. -/
theorem alloc_user_undone (vm : Vm σ) (pml4 hint size : Nat) (flags : Pte) (hinv : TreeInv IsPath vm pml4)
    (hzero : NoZeroFrame vm.mem pml4) (hfits : pagesOf hint * pageSize + pagesOf size * pageSize ≤ vmmUserEnd)
    (hpres : isPresent flags = true) (hflags : flags &&& 0x000FFFFFFFFFF000#64 = 0#64) (fuel : Nat)
    (hfuel : vmmUserEnd < fuel * pageSize) :
    ∃ r vm', vm.vmmAllocUser fuel pml4 hint size flags = some (r, vm') ∧ (r = 0 → Undone vm vm' pml4) :=
  vmmAllocUser_ends hinv hzero hfits hpres hflags hfuel

/-- Nothing is mapped in cleared memory. -/
theorem virtToPhys_cleared {vm : Vm σ} {pml4 va : Nat} (hmem : vm.mem = fun _ => 0) (hinv : TreeInv IsPath vm pml4)
    (h : va < 2 ^ 47) : vmmVirtToPhys vm.mem pml4 va = 0 := by
  apply hinv.tree.virtToPhys_none h
  rcases Option.eq_none_or_eq_some (tableAt vm.mem pml4 (ptPath va)) with ht | ⟨t, ht⟩
  · exact ht
  · rw [hmem] at ht
    exact absurd (tableAt_cleared ht).1 (by simp [ptPath])

theorem clearedVm_none {va : Nat} (h : va < 2 ^ 47) : vmmVirtToPhys clearedVm.mem 0x1000 va = 0 :=
  virtToPhys_cleared rfl clearedVm_tree h

theorem clearedVm_noZero : NoZeroFrame clearedVm.mem 0x1000 := fun _ hp _ _ ho => clearedVm_none (page_lt hp ho)

theorem clearedVm_space : SpaceInv clearedVm 0x1000 where
  tree := clearedVm_tree
  noZero := clearedVm_noZero
  used hm := absurd hm.2.2 (by rw [clearedVm_none hm.1]; exact hm.2.1.symm)
  inj hm := absurd hm.2.2 (by rw [clearedVm_none hm.1]; exact hm.2.1.symm)

/-- A machine of six frames: those of the three tables and of one page are free. -/
def sixFramesVm : Vm SoundPmm where
  mem := fun _ => 0
  pmm := ⟨{ bitmap := fun _ => 3#64, totalPages := 6, freePages := 4#64, usedPages := 2#64, allocHint := 0 },
    fun _ => by decide, by decide, ⟨by decide, by decide +kernel, by decide, by decide⟩⟩

/-- Two pages do not fit: the first one is mapped and given back. -/
theorem alloc_user_undone_small : ∃ vm', sixFramesVm.vmmAllocUser (2 ^ 35) 0x1000 0x400000 0x2000 vmmUserRw = some (0, vm') ∧
    Undone sixFramesVm vm' 0x1000 := by
  have hr : (sixFramesVm.vmmAllocUser (2 ^ 35) 0x1000 0x400000 0x2000 vmmUserRw).map Prod.fst = some 0 := by decide +kernel
  have htree : TreeInv IsPath sixFramesVm 0x1000 := by
    refine .of_cleared rfl (by decide) ?_
    rintro ⟨-, -, hfree⟩
    revert hfree
    decide
  have hzero : NoZeroFrame sixFramesVm.mem 0x1000 := fun _ hp _ _ ho => virtToPhys_cleared rfl htree (page_lt hp ho)
  obtain ⟨r, vm', hout, hundone⟩ := alloc_user_undone sixFramesVm 0x1000 0x400000 0x2000 vmmUserRw htree hzero (by decide)
    (by decide) (by decide) (2 ^ 35) (by decide)
  rw [hout, Option.map_some, Option.some.injEq] at hr
  subst hr
  exact ⟨vm', hout, hundone rfl⟩

end MyUnix.Mm
