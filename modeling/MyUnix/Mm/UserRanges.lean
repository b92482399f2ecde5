import MyUnix.Mm.AllocUser

/-!
# `Mm.UserRanges` — the pages of a range

`vmm_protect`, `vmm_free_user` and `vmm_create_vma` round a range `[addr, addr + size)` to pages. The first two round
the start down and the length up, one by one; the third rounds the end up. The start's offset in its page is lost in the
first way, so the last page of the range can be missed, and no other page is treated differently.

For a page-aligned start all three agree. A start in the middle of a page makes a difference exactly when offset and
length together run into a page that the length alone would not reach.
-/

namespace MyUnix.Mm

open Lib PageAlloc PathClass

/-- The part of `vma_t` that is read. -/
structure Vma where
  start     : Nat
  stop      : Nat
  prot      : Nat
  flags     : Pte
  mmapFlags : Nat

/-- What `vmm_create_vma` puts into the record. -/
def vmmCreateVma (start size prot mapFlags : Nat) : Vma where
  start := alignDown start
  stop := alignUp ((start + size) % 2 ^ 64)
  prot := prot
  flags := protFlags prot
  mmapFlags := mapFlags

variable {σ : Type} [PageAlloc σ]

/-- `vmm_free_user`; `none` is the panic of `pmm_free`. -/
def Vm.vmmFreeUser (vm : Vm σ) (pml4 virt size : Nat) : Option (Vm σ) :=
  let virt := alignDown virt
  let size := alignUp size
  (List.range (size / pageSize)).foldlM (fun vm i => vm.dropPage pml4 (pageAt virt i)) vm

/-! ## Pages of a range

The pages that a byte of the range lies in, those that the loops of the two functions go through, and those between
the bounds of the VMA.
-/

/-- The page contains a byte of `[addr, addr + size)`. -/
def Touches (addr size p : Nat) : Prop := ∃ b, addr ≤ b ∧ b < addr + size ∧ b / pageSize = p

/-- The page is one of the VMA's. -/
def Vma.Has (vma : Vma) (p : Nat) : Prop := vma.start ≤ p * pageSize ∧ p * pageSize < vma.stop

/-- The rounded length reaches as far as the range. -/
def Reached (addr size : Nat) : Prop := addr % pageSize + size ≤ pagesOf size * pageSize

instance (addr size : Nat) : Decidable (Reached addr size) := Nat.decLe _ _

/-- The last page of the VMA for the range. -/
def lastPage (addr size : Nat) : Nat := (addr + size + (pageSize - 1)) / pageSize - 1

theorem touches_iff (addr size p : Nat) :
    Touches addr size p ↔ 0 < size ∧ addr / pageSize ≤ p ∧ p * pageSize < addr + size := by
  rw [Touches]
  simp only [pageSize]
  constructor
  · rintro ⟨b, hlo, hhi, rfl⟩
    omega
  · rintro ⟨hpos, hlo, hhi⟩
    by_cases h : addr ≤ p * 4096
    · exact ⟨p * 4096, h, hhi, Nat.mul_div_cancel p (by decide)⟩
    · exact ⟨addr, Nat.le_refl _, by omega, by omega⟩

/-- The pages that start and length, rounded one by one, make. -/
theorem touches_of_rounded {addr size p : Nat} (h : addr / pageSize ≤ p ∧ p < addr / pageSize + pagesOf size) :
    Touches addr size p := by
  rw [touches_iff]
  rw [pagesOf] at h
  simp only [pageSize] at *
  omega

/-- The pages of a range are those, and the last page of the VMA if they do not reach it. -/
theorem touches_cases {addr size p : Nat} (h : Touches addr size p) :
    (addr / pageSize ≤ p ∧ p < addr / pageSize + pagesOf size) ∨ (¬Reached addr size ∧ p = lastPage addr size) := by
  rw [touches_iff] at h
  rw [Reached, lastPage, pagesOf]
  simp only [pageSize] at *
  omega

theorem lastPage_not_rounded {addr size : Nat} (h : ¬Reached addr size) :
    ¬(addr / pageSize ≤ lastPage addr size ∧ lastPage addr size < addr / pageSize + pagesOf size) := by
  rw [Reached, pagesOf] at h
  rw [lastPage, pagesOf]
  simp only [pageSize] at *
  omega

/-- The VMA has the pages of the range, and its last page also for an empty range inside a page. -/
theorem vma_has_iff {addr size p prot mapFlags : Nat} (hend : addr + size ≤ vmmUserEnd) :
    (vmmCreateVma addr size prot mapFlags).Has p ↔ Touches addr size p ∨ (¬Reached addr size ∧ p = lastPage addr size) := by
  have hlt : addr + size < 2 ^ 64 := Nat.lt_of_le_of_lt hend (by decide)
  have hup : addr + size + (pageSize - 1) < 2 ^ 64 :=
    Nat.lt_of_le_of_lt (Nat.add_le_add_right hend _) (by decide)
  rw [Vma.Has, vmmCreateVma, Nat.mod_eq_of_lt hlt, alignUp_eq hup, touches_iff, alignDown, Reached, lastPage, pagesOf, pagesOf]
  simp only [pageSize]
  omega

/-- The pages that the two loops go through. -/
def rangePages (addr size : Nat) : List Nat := List.range' (addr / pageSize) (pagesOf size)

theorem mem_rangePages {addr size p : Nat} :
    p ∈ rangePages addr size ↔ addr / pageSize ≤ p ∧ p < addr / pageSize + pagesOf size := by
  rw [rangePages, List.mem_range'_1]

section

variable {addr size p : Nat}

theorem page_user (hend : addr + size ≤ vmmUserEnd) (h : Touches addr size p) : p * pageSize < 2 ^ 47 := by
  have hlt := ((touches_iff addr size p).1 h).2.2
  exact Nat.lt_of_lt_of_le hlt (Nat.le_trans hend (by decide))

theorem lastPage_user (hend : addr + size ≤ vmmUserEnd) : lastPage addr size * pageSize < 2 ^ 47 := by
  have hlt : lastPage addr size * pageSize ≤ addr + size := by
    rw [lastPage]
    simp only [pageSize]
    omega
  exact Nat.lt_of_le_of_lt (Nat.le_trans hlt hend) (by decide)

/-- Start and length fit the machine. -/
theorem range_eq (hend : addr + size ≤ vmmUserEnd) : alignUp size = pagesOf size * pageSize ∧
    ∀ i < pagesOf size, (addr / pageSize + i) * pageSize < 2 ^ 64 := by
  refine ⟨alignUp_of_le (Nat.le_trans (Nat.le_add_left _ _) hend), fun i hi => ?_⟩
  have huser := page_user hend (touches_of_rounded ⟨Nat.le_add_right _ i, Nat.add_lt_add_left hi _⟩)
  exact Nat.lt_trans huser (by decide)

end

/-! ## `vmm_free_user`

The loop in terms of page numbers; what it does to them is `Mm.Dropped`.
-/

section

variable {vm : Vm σ} {pml4 addr size : Nat}

/-- The loop of `vmm_free_user`, by page numbers. -/
theorem vmmFreeUser_eq (hend : addr + size ≤ vmmUserEnd) : vm.vmmFreeUser pml4 addr size =
    (rangePages addr size).foldlM (fun vm p => vm.dropPage pml4 (p * pageSize)) vm := by
  obtain ⟨halign, hfits⟩ := range_eq hend
  rw [Vm.vmmFreeUser, halign, Nat.mul_div_cancel _ (by decide), rangePages, List.range'_eq_map_range, List.foldlM_map]
  apply foldlM_ext
  intro i hi vm
  rw [alignDown, pageAt_base (hfits i (List.mem_range.1 hi))]

/-- **`vmm_free_user`** drops the pages that its rounding makes. -/
theorem vmmFreeUser_dropped (h : SpaceInv vm pml4) (hend : addr + size ≤ vmmUserEnd) :
    ∃ vm', vm.vmmFreeUser pml4 addr size = some vm' ∧ Dropped vm vm' pml4 fun p => p ∈ rangePages addr size := by
  obtain ⟨vm', hrun, h'⟩ := (Dropped.refl h.tree).dropPages h (rangePages addr size) fun p hp =>
    page_user hend (touches_of_rounded (mem_rangePages.1 hp))
  refine ⟨vm', (vmmFreeUser_eq hend).trans hrun, ?_⟩
  have hiff : (fun p => p ∈ rangePages addr size) = fun p => False ∨ p ∈ rangePages addr size := by
    funext p
    rw [false_or]
  rwa [hiff]

end

/-! ## `vmm_protect`

Each page is looked up anew, and its entry is rewritten in place.
-/

/-- The last-level entry of a page of the user half, where there is a table for it. -/
def pteOf (m : ByteMem) (pml4 p : Nat) : Option Pte :=
  (tableAt m pml4 (ptPath (p * pageSize))).map fun t => entry m t (ptIdx (p * pageSize))

/-- What `vmm_protect` makes of an entry. -/
def reprotect (prot : Nat) (e : Pte) : Pte :=
  if isPresent e then BitVec.ofNat 64 (pteAddr e) ||| protFlags prot else e

/-- From `vm₀` to `vm` the entries of the pages in `done` were rewritten, and nothing else was. -/
structure Protected (vm₀ vm : Vm σ) (pml4 prot : Nat) (done : Nat → Prop) : Prop where
  tree : TreeInv IsPath vm pml4
  tables {q} : IsPath q → tableAt vm.mem pml4 q = tableAt vm₀.mem pml4 q
  set {p} : done p → p * pageSize < 2 ^ 47 → pteOf vm.mem pml4 p = (pteOf vm₀.mem pml4 p).map (reprotect prot)
  same {p} : ¬done p → p * pageSize < 2 ^ 47 → pteOf vm.mem pml4 p = pteOf vm₀.mem pml4 p
  pmm : vm.pmm = vm₀.pmm
  outside {x} : (∀ q t, IsUser q → tableAt vm.mem pml4 q = some t → x < t ∨ t + pageSize ≤ x) → vm.mem x = vm₀.mem x

/-- A store to the entry of one page changes no entry of another. -/
theorem pteOf_store {vm : Vm σ} {pml4 p q t : Nat} (h : TreeInv IsPath vm pml4) (hp : p * pageSize < 2 ^ 47)
    (ht : tableAt vm.mem pml4 (ptPath (p * pageSize)) = some t) (e : Pte) (hq : q * pageSize < 2 ^ 47) :
    pteOf (vm.store (slot t (ptIdx (p * pageSize))) e).mem pml4 q = if q = p then some e else pteOf vm.mem pml4 q := by
  have hidx : ∀ va, ptIdx va < 512 := fun va => Nat.mod_lt _ (by decide)
  have w := SlotWrite.of_store h.tree (ptPath_user hp) (hidx (p * pageSize)) ht e
  have htab : tableAt (vm.store (slot t (ptIdx (p * pageSize))) e).mem pml4 (ptPath (q * pageSize)) =
      tableAt vm.mem pml4 (ptPath (q * pageSize)) := w.tableAt_leaf h.tree rfl (ptPath_user hq).1
  -- one slot of one table means one page
  have hentry : q ≠ p → ∀ t', tableAt vm.mem pml4 (ptPath (q * pageSize)) = some t' →
      entry (vm.store (slot t (ptIdx (p * pageSize))) e).mem t' (ptIdx (q * pageSize)) =
        entry vm.mem t' (ptIdx (q * pageSize)) := by
    intro hqp t' ht'
    refine entry_store e (tableAt_mod h.tree.aligned ht') (tableAt_mod h.tree.aligned ht) (hidx _) (hidx _) fun hslot => ?_
    obtain ⟨rfl, hix⟩ := Prod.mk.inj hslot
    have hpath : path (q * pageSize) = path (p * pageSize) := by
      rw [path_eq, path_eq, hix, h.tree.unique (ptPath_user hp) (ptPath_user hq).1 ht ht']
    have hpage := page_eq_of_path (.inl hq) hp hpath
    rw [Nat.mul_div_cancel _ (by decide), Nat.mul_div_cancel _ (by decide)] at hpage
    exact hqp hpage
  rw [pteOf, htab]
  split
  next hqp =>
    subst hqp
    rw [ht, Option.map_some, Vm.store, entry_store_same]
  next hqp =>
    rw [pteOf]
    rcases Option.eq_none_or_eq_some (tableAt vm.mem pml4 (ptPath (q * pageSize))) with ht' | ⟨t', ht'⟩
    · rw [ht', Option.map_none, Option.map_none]
    · rw [ht', Option.map_some, Option.map_some, hentry hqp t' ht']

namespace Protected

variable {vm₀ vm : Vm σ} {pml4 prot : Nat} {done : Nat → Prop}

theorem refl (h : TreeInv IsPath vm pml4) : Protected vm vm pml4 prot fun _ => False where
  tree := h
  tables _ := rfl
  set hp := hp.elim
  same _ _ := rfl
  pmm := rfl
  outside _ := rfl

/-- **One page.** -/
theorem protectPage (h : Protected vm₀ vm pml4 prot done) {p : Nat} (hp : p * pageSize < 2 ^ 47) (hnew : ¬done p) :
    Protected vm₀ (vm.protectPage pml4 (p * pageSize) prot) pml4 prot fun q => done q ∨ q = p := by
  have hold := h.same hnew hp
  rw [Vm.protectPage, vmmGetPte_find h.tree.tree hp]
  cases ht : tableAt vm.mem pml4 (ptPath (p * pageSize)) with
  | none =>
    -- there is no table for the page, and nothing is written
    rw [pteOf, ht, Option.map_none] at hold
    change Protected vm₀ vm pml4 prot fun q => done q ∨ q = p
    exact {
      tree := h.tree
      tables := h.tables
      set := fun {q} hq hlt => by
        by_cases hqp : q = p
        · rw [hqp, ← hold, pteOf, ht]
          rfl
        · exact h.set (hq.resolve_right hqp) hlt
      same := fun hq hlt => h.same (fun hd => hq (.inl hd)) hlt
      pmm := h.pmm
      outside := h.outside }
  | some t =>
    simp only [Option.map_some]
    rw [pteOf, ht, Option.map_some, entry] at hold
    split
    next hpres =>
      -- the entry is present: it gets its own frame back, with the new flags
      obtain ⟨htree, -, -⟩ := leaf_store h.tree hp ht
        (BitVec.ofNat 64 (pteAddr (vm.mem.word (slot t (ptIdx (p * pageSize))))) ||| protFlags prot)
      have hidx : ptIdx (p * pageSize) < 512 := Nat.mod_lt _ (by decide)
      have w := SlotWrite.of_store h.tree.tree (ptPath_user hp) hidx ht
        (BitVec.ofNat 64 (pteAddr (vm.mem.word (slot t (ptIdx (p * pageSize))))) ||| protFlags prot)
      have hpte := fun {q} => @pteOf_store _ _ vm pml4 p q t h.tree hp ht
        (BitVec.ofNat 64 (pteAddr (vm.mem.word (slot t (ptIdx (p * pageSize))))) ||| protFlags prot)
      have htables := fun {q} (hq : IsPath q) => (w.tableAt_leaf h.tree.tree rfl hq).trans (h.tables hq)
      exact {
        tree := htree
        tables := htables
        set := fun {q} hq hlt => by
          rw [hpte hlt]
          split
          next hqp =>
            rw [hqp, ← hold, Option.map_some, reprotect, if_pos hpres]
          next hqp => exact h.set (hq.resolve_right hqp) hlt
        same := fun {q} hq hlt => by
          rw [not_or] at hq
          rw [hpte hlt, if_neg hq.2]
          exact h.same hq.1 hlt
        pmm := h.pmm
        outside := fun {x} hx => by
          have hslot := hx _ t (ptPath_user hp) ((w.tableAt_leaf h.tree.tree rfl (ptPath_user hp).1).trans ht)
          rw [← h.outside fun q t' hq ht' => hx q t' hq ((w.tableAt_leaf h.tree.tree rfl hq.1).trans ht')]
          refine ByteMem.setWord_out _ _ ?_
          rw [slot]
          rw [pageSize] at hslot
          omega }
    -- an entry that is not present is left alone
    next habs =>
      exact {
        tree := h.tree
        tables := h.tables
        set := fun {q} hq hlt => by
          by_cases hqp : q = p
          · rw [hqp, ← hold, Option.map_some, reprotect, if_neg habs, pteOf, ht]
            rfl
          · exact h.set (hq.resolve_right hqp) hlt
        same := fun hq hlt => h.same (fun hd => hq (.inl hd)) hlt
        pmm := h.pmm
        outside := h.outside }

/-- **Any pages**, each once. -/
theorem protectPages (ps : List Nat) : ∀ {vm : Vm σ} {done : Nat → Prop}, Protected vm₀ vm pml4 prot done →
    (∀ p ∈ ps, p * pageSize < 2 ^ 47 ∧ ¬done p) → ps.Nodup →
    Protected vm₀ (ps.foldl (fun vm p => vm.protectPage pml4 (p * pageSize) prot) vm) pml4 prot fun q => done q ∨ q ∈ ps := by
  induction ps with
  | nil =>
    intro vm done h _ _
    have hiff : (fun q => done q ∨ q ∈ ([] : List Nat)) = done := by
      funext q
      rw [eq_iff_iff]
      exact ⟨fun hq => hq.resolve_right List.not_mem_nil, .inl⟩
    rw [hiff]
    exact h
  | cons p ps ih =>
    intro vm done h hps hnodup
    obtain ⟨hpnot, hnodup⟩ := List.nodup_cons.1 hnodup
    obtain ⟨hp, hnew⟩ := hps p List.mem_cons_self
    have hiff : (fun q => done q ∨ q ∈ p :: ps) = fun q => (done q ∨ q = p) ∨ q ∈ ps := by
      funext q
      rw [List.mem_cons, or_assoc]
    rw [hiff, List.foldl_cons]
    refine ih (h.protectPage hp hnew) (fun q hq => ⟨(hps q (List.mem_cons_of_mem _ hq)).1, ?_⟩) hnodup
    rintro (hd | rfl)
    · exact (hps q (List.mem_cons_of_mem _ hq)).2 hd
    · exact hpnot hq

end Protected

section

variable {vm : Vm σ} {pml4 addr size prot : Nat}

/-- The loop of `vmm_protect`, by page numbers. -/
theorem vmmProtect_eq (hend : addr + size ≤ vmmUserEnd) : vm.vmmProtect pml4 addr size prot =
    (rangePages addr size).foldl (fun vm p => vm.protectPage pml4 (p * pageSize) prot) vm := by
  obtain ⟨halign, -⟩ := range_eq hend
  have hstop : alignDown addr + pagesOf size * pageSize < 2 ^ 64 := by
    rw [alignDown, pagesOf]
    rw [vmmUserEnd] at hend
    simp only [pageSize]
    omega
  rw [Vm.vmmProtect, halign, Nat.mod_eq_of_lt hstop, Nat.add_sub_cancel_left, Nat.mul_div_cancel _ (by decide),
    rangePages, List.range'_eq_map_range, List.foldl_map]
  apply List.foldl_ext
  intro vm i _
  rw [alignDown, Nat.add_mul]

/-- **`vmm_protect`** rewrites the entries of the pages that its rounding makes. -/
theorem vmmProtect_protected (h : SpaceInv vm pml4) (hend : addr + size ≤ vmmUserEnd) :
    Protected vm (vm.vmmProtect pml4 addr size prot) pml4 prot fun p => p ∈ rangePages addr size := by
  have h' := (@Protected.refl σ _ vm pml4 prot h.tree).protectPages (rangePages addr size)
    (fun p hp => ⟨page_user hend (touches_of_rounded (mem_rangePages.1 hp)), not_false⟩) List.nodup_range'
  have hiff : (fun p => p ∈ rangePages addr size) = fun p => False ∨ p ∈ rangePages addr size := by
    funext p
    rw [false_or]
  rwa [hiff, vmmProtect_eq hend]

end

/-! ## The three against the range

The pages treated are compared with the pages of the range, in both directions.
-/

/-- The entry of a page that is not mapped stays as it is. -/
theorem reprotect_unmapped {vm : Vm σ} {pml4 p prot : Nat} (h : SpaceInv vm pml4) (hp : p * pageSize < 2 ^ 47)
    (h0 : vmmVirtToPhys vm.mem pml4 (p * pageSize) = 0) :
    (pteOf vm.mem pml4 p).map (reprotect prot) = pteOf vm.mem pml4 p := by
  rw [pteOf]
  rcases Option.eq_none_or_eq_some (tableAt vm.mem pml4 (ptPath (p * pageSize))) with ht | ⟨t, ht⟩
  · rw [ht, Option.map_none, Option.map_none]
  · rw [ht, Option.map_some, Option.map_some, reprotect, if_neg]
    -- a present entry would translate the second byte of the page
    intro hpres
    obtain ⟨o, ho, hne⟩ : ∃ o, o < pageSize ∧ o ≠ 0 := ⟨1, by decide, by decide⟩
    have hzero := h.page_none hp h0 ho
    obtain ⟨hpt, hidx⟩ := path_parts (path_page (p := p) ho)
    rw [← hpt] at ht
    rw [virtToPhys_leaf ht, hidx, if_pos hpres, (page_number ho).2] at hzero
    exact hne (Nat.add_eq_zero_iff.1 hzero).2

theorem Protected.congr {vm₀ vm : Vm σ} {pml4 prot : Nat} {done done' : Nat → Prop} (h₀ : SpaceInv vm₀ pml4)
    (h : Protected vm₀ vm pml4 prot done) (hsub : ∀ p, done p → done' p)
    (hrest : ∀ p, done' p → p * pageSize < 2 ^ 47 → ¬done p → vmmVirtToPhys vm₀.mem pml4 (p * pageSize) = 0) :
    Protected vm₀ vm pml4 prot done' where
  tree := h.tree
  tables := h.tables
  set {p} hp hlt := by
    by_cases hd : done p
    · exact h.set hd hlt
    · rw [h.same hd hlt, reprotect_unmapped h₀ hlt (hrest p hp hlt hd)]
  same hp hlt := h.same (fun hd => hp (hsub _ hd)) hlt
  pmm := h.pmm
  outside := h.outside

/-- What `vmm_protect` (to `vmP`) and `vmm_free_user` (to `vmF`) do from `vm` concerns the pages with a byte of the range
    only, and those are the mapped pages of the VMA for it. -/
structure RangeExact (vm vmP vmF : Vm σ) (pml4 addr size prot mapFlags : Nat) : Prop where
  protect : Protected vm vmP pml4 prot (Touches addr size)
  free : Dropped vm vmF pml4 (Touches addr size)
  vma {p} : p * pageSize < 2 ^ 47 → vmmIsMapped vm.mem pml4 (p * pageSize) = true →
    ((vmmCreateVma addr size prot mapFlags).Has p ↔ Touches addr size p)

/-- **Rounding of ranges.** The three functions treat the same pages exactly when the rounded length reaches the end of
    the range, or the page it does not reach is not mapped. -/
theorem range_pages_iff (vm : Vm σ) (pml4 addr size prot mapFlags : Nat) (h : SpaceInv vm pml4)
    (hend : addr + size ≤ vmmUserEnd) :
    ∃ vm', vm.vmmFreeUser pml4 addr size = some vm' ∧
      (RangeExact vm (vm.vmmProtect pml4 addr size prot) vm' pml4 addr size prot mapFlags ↔
        Reached addr size ∨ vmmIsMapped vm.mem pml4 (lastPage addr size * pageSize) = false) := by
  obtain ⟨vm', hrun, hdropped⟩ := vmmFreeUser_dropped h hend
  refine ⟨vm', hrun, fun hexact => ?_, fun hcond => ?_⟩
  · by_contra hno
    rw [not_or, Bool.not_eq_false] at hno
    obtain ⟨hreach, hmapped⟩ := hno
    have hlast := @lastPage_user addr size hend
    have htouch := (hexact.vma hlast hmapped).1 ((vma_has_iff hend).2 (.inr ⟨hreach, rfl⟩))
    -- the last page is to be unmapped, and is not
    have hgone := hexact.free.unmapped htouch hlast (o := 0) (by decide)
    have hout : ¬lastPage addr size * pageSize / pageSize ∈ rangePages addr size := by
      rw [Nat.mul_div_cancel _ (by decide), mem_rangePages]
      exact lastPage_not_rounded hreach
    have hkept := hdropped.same (.inl hlast) hout
    rw [Nat.add_zero, hkept] at hgone
    rw [vmmIsMapped, hgone] at hmapped
    cases hmapped
  · have hsub : ∀ p, p ∈ rangePages addr size → Touches addr size p :=
      fun p hp => touches_of_rounded (mem_rangePages.1 hp)
    have hlast : ¬Reached addr size → vmmVirtToPhys vm.mem pml4 (lastPage addr size * pageSize) = 0 := by
      intro hreach
      have hun := hcond.resolve_left hreach
      rwa [vmmIsMapped, bne_eq_false_iff_eq] at hun
    have hrest : ∀ p, Touches addr size p → p * pageSize < 2 ^ 47 → ¬p ∈ rangePages addr size →
        vmmVirtToPhys vm.mem pml4 (p * pageSize) = 0 := by
      intro p hp _ hnot
      rcases touches_cases hp with hin | ⟨hreach, rfl⟩
      · exact absurd (mem_rangePages.2 hin) hnot
      · exact hlast hreach
    exact {
      protect := (vmmProtect_protected h hend).congr h hsub hrest
      free := hdropped.congr h hsub hrest
      vma := fun {p} _ hmapped => by
        rw [vma_has_iff hend, or_iff_left]
        rintro ⟨hreach, rfl⟩
        rw [vmmIsMapped, hlast hreach] at hmapped
        cases hmapped }

/-- The cleared machine with a page mapped at `0x401000`. -/
def onePageVm : Vm SoundPmm := (clearedVm.alloc.2.vmmMap 0x1000 (0x401 * pageSize) clearedVm.alloc.1 vmmUserRw).2

theorem onePageVm_space : SpaceInv onePageVm 0x1000 := by
  have h := (Handed.refl clearedVm_tree).alloc (by decide +kernel)
  rcases h.map (p := 0x401) (by decide) rfl (show isPresent vmmUserRw = true by decide) (by decide) with ⟨-, h'⟩ | ⟨hr, -⟩
  · exact h'.spaceInv clearedVm_space
  · exact absurd hr (by decide +kernel)

theorem range_pages_one : ∃ vm', onePageVm.vmmFreeUser 0x1000 0x400800 0x1800 = some vm' ∧
    RangeExact onePageVm (onePageVm.vmmProtect 0x1000 0x400800 0x1800 1) vm' 0x1000 0x400800 0x1800 1 0 := by
  obtain ⟨vm', hrun, hiff⟩ := range_pages_iff onePageVm 0x1000 0x400800 0x1800 1 0 onePageVm_space (by decide)
  exact ⟨vm', hrun, hiff.2 (.inl (by decide))⟩

/-- The range from `0x400800` to `0x401800` begins in one page and ends in the next; only the first is looked at. -/
theorem range_pages_missed : ∃ vm', onePageVm.vmmFreeUser 0x1000 0x400800 0x1000 = some vm' ∧
    ¬RangeExact onePageVm (onePageVm.vmmProtect 0x1000 0x400800 0x1000 1) vm' 0x1000 0x400800 0x1000 1 0 := by
  have hr : (onePageVm.vmmFreeUser 0x1000 0x400800 0x1000).map (fun vm => vmmVirtToPhys vm.mem 0x1000 0x401000 != 0) =
      some true := by decide +kernel
  obtain ⟨vm', hrun, hmapped⟩ := Option.map_eq_some_iff.1 hr
  refine ⟨vm', hrun, fun hexact => ?_⟩
  have hgone := hexact.free.unmapped (p := 0x401) (o := 0) ⟨0x401000, by decide, by decide, by decide⟩ (by decide)
    (by decide)
  rw [show 0x401 * pageSize + 0 = 0x401000 by decide] at hgone
  rw [hgone] at hmapped
  cases hmapped

end MyUnix.Mm
