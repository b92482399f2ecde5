import MyUnix.Mm.SpacePages

/-!
# `Mm.Handed` — pages handed to the user half of a space

What `vmm_alloc_user` and `sys_brk` do page by page: a frame is taken, mapped at a page of the user half, and on failure
unmapped and given back. `Handed` relates the machine before the first step to the machine now. `frame` says which pages
were mapped since, and to which frames; `loose` lists the frames that were taken and are mapped nowhere. All of these
were free before and are still clear; every other frame that was free and is not is now a table of the space; every
page that was not handed out is translated as before.

Nothing is assumed about the pages the space already has, only that its user half is a tree.

The frame that is taken next to the ones that are mapped (`loose`) is what a failing `vmm_map` leaves in the hands of
its caller. All clauses are about what has changed since the first step, so the same relation serves a loop that goes
on, one that is rolled back, and one that breaks off and keeps its pages.
-/

namespace MyUnix.Mm

open Lib PageAlloc PathClass

variable {σ : Type} [PageAlloc σ]

/-- The frames that were taken and hold no table: mapped, or not mapped yet. -/
def Held (frame : Nat → Option Nat) (loose : List Nat) (f : Nat) : Prop := f ∈ loose ∨ ∃ p, frame p = some f

/-- One frame for one page, all pages in the user half. -/
structure Assigned (frame : Nat → Option Nat) (loose : List Nat) : Prop where
  user {p f} : frame p = some f → p * pageSize < 2 ^ 47
  inj {p q f} : frame p = some f → frame q = some f → p = q
  nodup : loose.Nodup
  apart {p f} : frame p = some f → f ∉ loose

/-- From `vm₀` to `vm` pages were given frames: `frame` says which page has which, and the frames `loose` are taken and
    not mapped. -/
structure Handed (vm₀ vm : Vm σ) (pml4 : Nat) (frame : Nat → Option Nat) (loose : List Nat) : Prop where
  inv : TreeInv IsPath vm pml4
  assigned : Assigned frame loose
  tables {q t} : IsPath q → tableAt vm₀.mem pml4 q = some t → tableAt vm.mem pml4 q = some t
  new {q t} : IsPath q → tableAt vm.mem pml4 q = some t → tableAt vm₀.mem pml4 q = some t ∨ Free vm₀.pmm t
  same {va} : Canonical va → frame (va / pageSize) = none →
    vmmVirtToPhys vm.mem pml4 va = vmmVirtToPhys vm₀.mem pml4 va
  page {p f o} : frame p = some f → o < pageSize → vmmVirtToPhys vm.mem pml4 (p * pageSize + o) = f + o
  free {f} : Free vm.pmm f → Free vm₀.pmm f
  held {f} : Held frame loose f → Free vm₀.pmm f ∧ ¬Free vm.pmm f ∧ Unused IsPath vm.mem pml4 f
  kept {f} : Free vm₀.pmm f →
    Free vm.pmm f ∨ (∃ q, IsUser q ∧ tableAt vm.mem pml4 q = some f) ∨ Held frame loose f
  managed {f} : Managed vm.pmm f ↔ Managed vm₀.pmm f
  clear {f o} : Held frame loose f → o < pageSize → vm.mem (f + o) = 0

/-! ## Page numbers

Pages are addressed by their numbers, and what `assign` and `unassign` do to the frames is arithmetic of finite sets.
-/

theorem page_number {p o : Nat} (ho : o < pageSize) :
    (p * pageSize + o) / pageSize = p ∧ (p * pageSize + o) % pageSize = o := by
  rw [Nat.mul_comm]
  exact ⟨by rw [Nat.mul_add_div (by decide), Nat.div_eq_of_lt ho, Nat.add_zero],
    by rw [Nat.mul_add_mod, Nat.mod_eq_of_lt ho]⟩

theorem page_lt {p o : Nat} (hp : p * pageSize < 2 ^ 47) (ho : o < pageSize) : p * pageSize + o < 2 ^ 47 := by
  have hlt : p < 2 ^ 35 := Nat.lt_of_mul_lt_mul_right (a := pageSize) hp
  have hle : (p + 1) * pageSize ≤ 2 ^ 35 * pageSize := Nat.mul_le_mul_right _ hlt
  rw [Nat.succ_mul] at hle
  exact Nat.lt_of_lt_of_le (Nat.add_lt_add_left ho _) hle

theorem path_page {p o : Nat} (ho : o < pageSize) : path (p * pageSize + o) = path (p * pageSize) := by
  apply path_of_page
  rw [(page_number ho).1, Nat.mul_div_cancel p (by decide)]

/-- Another page has another path. -/
theorem path_ne_page {va p : Nat} (hc : Canonical va) (hp : p * pageSize < 2 ^ 47) (h : va / pageSize ≠ p) :
    path va ≠ path (p * pageSize) := by
  intro hpath
  apply h
  rw [page_eq_of_path hc hp hpath, Nat.mul_div_cancel p (by decide)]

theorem held_update {frame : Nat → Option Nat} {loose : List Nat} {p f g : Nat} (hnone : frame p = none) :
    Held (Function.update frame p (some f)) loose g ↔ Held frame (f :: loose) g := by
  constructor
  · rintro (hmem | ⟨q, hq⟩)
    · exact .inl (List.mem_cons_of_mem _ hmem)
    · by_cases hqp : q = p
      · rw [hqp, Function.update_self] at hq
        obtain rfl := Option.some.inj hq
        exact .inl List.mem_cons_self
      · rw [Function.update_of_ne hqp] at hq
        exact .inr ⟨q, hq⟩
  · rintro (hmem | ⟨q, hq⟩)
    · rcases List.mem_cons.1 hmem with rfl | hmem
      · exact .inr ⟨p, Function.update_self ..⟩
      · exact .inl hmem
    · refine .inr ⟨q, ?_⟩
      rw [Function.update_of_ne]
      · exact hq
      · rintro rfl
        rw [hnone] at hq
        cases hq

/-- A page that is taken back leaves its frame loose. -/
theorem held_clear {frame : Nat → Option Nat} {loose : List Nat} {p f g : Nat} (hp : frame p = some f) :
    Held (Function.update frame p none) (f :: loose) g ↔ Held frame loose g := by
  rw [← held_update (Function.update_self ..), Function.update_idem, Function.update_eq_self_iff.2 hp.symm]

namespace Assigned

variable {frame : Nat → Option Nat} {loose : List Nat} {p f : Nat}

/-- A loose frame gets a page. -/
theorem assign (a : Assigned frame (f :: loose)) (hp : p * pageSize < 2 ^ 47) :
    Assigned (Function.update frame p (some f)) loose := by
  obtain ⟨hnew, hnodup⟩ := List.nodup_cons.1 a.nodup
  -- the frame under a page is `f`, or it is the one that was there
  have hsplit : ∀ {q g}, Function.update frame p (some f) q = some g → (q = p ∧ g = f) ∨ frame q = some g := by
    intro q g hq
    by_cases hqp : q = p
    · rw [hqp, Function.update_self] at hq
      exact .inl ⟨hqp, (Option.some.inj hq).symm⟩
    · rw [Function.update_of_ne hqp] at hq
      exact .inr hq
  have hnot : ∀ {q}, frame q ≠ some f := fun hq => a.apart hq List.mem_cons_self
  exact {
    user := fun hq => by
      rcases hsplit hq with ⟨rfl, -⟩ | hq
      · exact hp
      · exact a.user hq
    inj := fun hq hq' => by
      rcases hsplit hq with ⟨hqp, hg⟩ | hold
      · rcases hsplit hq' with ⟨hqp', -⟩ | hold'
        · exact hqp.trans hqp'.symm
        · exact absurd (hg ▸ hold') hnot
      · rcases hsplit hq' with ⟨-, hg⟩ | hold'
        · exact absurd (hg ▸ hold) hnot
        · exact a.inj hold hold'
    nodup := hnodup
    apart := fun hq hmem => by
      rcases hsplit hq with ⟨-, rfl⟩ | hq
      · exact hnew hmem
      · exact a.apart hq (List.mem_cons_of_mem _ hmem) }

/-- A page loses its frame. -/
theorem unassign (a : Assigned frame loose) (hf : frame p = some f) :
    Assigned (Function.update frame p none) (f :: loose) := by
  have hsplit : ∀ {q g}, Function.update frame p none q = some g → q ≠ p ∧ frame q = some g := by
    intro q g hq
    have hqp : q ≠ p := by
      rintro rfl
      rw [Function.update_self] at hq
      cases hq
    rw [Function.update_of_ne hqp] at hq
    exact ⟨hqp, hq⟩
  exact {
    user := fun hq => a.user (hsplit hq).2
    inj := fun hq hq' => a.inj (hsplit hq).2 (hsplit hq').2
    nodup := List.nodup_cons.2 ⟨a.apart hf, a.nodup⟩
    apart := fun hq hmem => by
      obtain ⟨hqp, hq⟩ := hsplit hq
      rcases List.mem_cons.1 hmem with rfl | hmem
      · exact hqp (a.inj hq hf)
      · exact a.apart hq hmem }

/-- A loose frame is given back. -/
theorem drop (a : Assigned frame (f :: loose)) : Assigned frame loose where
  user := a.user
  inj := a.inj
  nodup := (List.nodup_cons.1 a.nodup).2
  apart hp hmem := a.apart hp (List.mem_cons_of_mem _ hmem)

end Assigned

/-! ## The steps

Each of them is one call of the page allocator or of `vmm_map` and `vmm_unmap`, and each keeps the relation.
-/

namespace Handed

variable {vm₀ vm : Vm σ} {pml4 : Nat} {frame : Nat → Option Nat} {loose : List Nat} {f : Nat}

/-- Before the first step. -/
theorem refl (h : TreeInv IsPath vm pml4) : Handed vm vm pml4 (fun _ => none) [] where
  inv := h
  assigned := { user := nofun, inj := nofun, nodup := List.nodup_nil, apart := nofun }
  tables _ ht := ht
  new _ ht := .inl ht
  same _ _ := rfl
  page := nofun
  free hf := hf
  held hf := by rcases hf with hf | ⟨p, hp⟩ <;> contradiction
  kept hf := .inl hf
  managed := Iff.rfl
  clear hf := by rcases hf with hf | ⟨p, hp⟩ <;> contradiction

theorem frame_spec (h : Handed vm₀ vm pml4 frame loose) (hf : Held frame loose f) :
    f ≠ 0 ∧ f % pageSize = 0 ∧ f < 2 ^ 52 := managed_spec (managed_of_free (h.held hf).1)

/-- A page that was handed out is mapped. -/
theorem page_ne (h : Handed vm₀ vm pml4 frame loose) {p o : Nat} (hp : frame p = some f) (ho : o < pageSize) :
    vmmVirtToPhys vm.mem pml4 (p * pageSize + o) ≠ 0 := by
  rw [h.page hp ho]
  have h0 := (h.frame_spec (.inr ⟨p, hp⟩)).1
  omega

/-- Only the memory and the free frames matter. -/
theorem congr (h : Handed vm₀ vm pml4 frame loose) {vm' : Vm σ} (hmem : vm'.mem = vm.mem)
    (hfree : ∀ f, Free vm'.pmm f ↔ Free vm.pmm f) (hman : ∀ f, Managed vm'.pmm f ↔ Managed vm.pmm f) :
    Handed vm₀ vm' pml4 frame loose where
  inv := ⟨hmem ▸ h.inv.tree, fun hq ht hf => h.inv.apart hq (hmem ▸ ht) ((hfree _).1 hf)⟩
  assigned := h.assigned
  tables hq ht := hmem ▸ h.tables hq ht
  new hq ht := h.new hq (hmem ▸ ht)
  same hc hp := hmem ▸ h.same hc hp
  page hp ho := hmem ▸ h.page hp ho
  free hf := h.free ((hfree _).1 hf)
  held hf := ⟨(h.held hf).1, fun hfr => (h.held hf).2.1 ((hfree _).1 hfr), hmem ▸ (h.held hf).2.2⟩
  kept hf := (h.kept hf).imp (hfree _).2 fun hor => hor.imp_left fun ⟨q, hq, ht⟩ => ⟨q, hq, hmem ▸ ht⟩
  managed := (hman _).trans h.managed
  clear hf ho := hmem ▸ h.clear hf ho

/-- No frame is left. -/
theorem allocNone (h : Handed vm₀ vm pml4 frame loose) (h0 : vm.alloc.1 = 0) :
    Handed vm₀ vm.alloc.2 pml4 frame loose := by
  obtain ⟨hmem, hfree, hman⟩ := alloc_zero vm h0
  exact h.congr hmem hfree hman

/-- A frame is taken. -/
theorem alloc (h : Handed vm₀ vm pml4 frame loose) (h0 : vm.alloc.1 ≠ 0) :
    Handed vm₀ vm.alloc.2 pml4 frame (vm.alloc.1 :: loose) := by
  obtain ⟨hmem, hfree, hfree', hman⟩ := alloc_frame vm h0
  obtain ⟨-, hal, -⟩ := managed_spec (managed_of_free hfree)
  have hun : Unused IsPath vm.mem pml4 vm.alloc.1 := fun q hq ht => h.inv.apart hq ht hfree
  have ha : AgreeOff vm.alloc.1 vm.mem vm.alloc.2.mem := by
    rw [hmem]
    exact agreeOff_clear
  have hsame : ∀ va, vmmVirtToPhys vm.alloc.2.mem pml4 va = vmmVirtToPhys vm.mem pml4 va :=
    fun va => ha.virtToPhys_eq h.inv.tree hal hun (reaches_all va)
  have htab : ∀ {q}, IsPath q → tableAt vm.alloc.2.mem pml4 q = tableAt vm.mem pml4 q :=
    fun hq => ha.tableAt_eq h.inv.tree hal hun hq
  have hnew : ¬Held frame loose vm.alloc.1 := fun hheld => (h.held hheld).2.1 hfree
  -- what is held now is the new frame or was held before
  have hsplit : ∀ {f}, Held frame (vm.alloc.1 :: loose) f → f = vm.alloc.1 ∨ (f ≠ vm.alloc.1 ∧ Held frame loose f) := by
    intro f hf
    by_cases hne : f = vm.alloc.1
    · exact .inl hne
    · refine .inr ⟨hne, hf.imp_left fun hmem => ?_⟩
      exact (List.mem_cons.1 hmem).resolve_left hne
  exact {
    inv := ⟨ha.tree h.inv.tree hal hun, fun hq ht hf => h.inv.apart hq (htab hq ▸ ht) ((hfree' _).1 hf).1⟩
    assigned := {
      user := h.assigned.user
      inj := h.assigned.inj
      nodup := List.nodup_cons.2 ⟨fun hmem => hnew (.inl hmem), h.assigned.nodup⟩
      apart := fun {p f} hp hf => by
        rcases List.mem_cons.1 hf with rfl | hf
        · exact hnew (.inr ⟨p, hp⟩)
        · exact h.assigned.apart hp hf }
    tables := fun hq ht => (htab hq).trans (h.tables hq ht)
    new := fun hq ht => h.new hq (htab hq ▸ ht)
    same := fun hc hp => (hsame _).trans (h.same hc hp)
    page := fun hp ho => (hsame _).trans (h.page hp ho)
    free := fun hf => h.free ((hfree' _).1 hf).1
    held := fun hf => by
      rcases hsplit hf with rfl | ⟨-, hf⟩
      · exact ⟨h.free hfree, fun hfr => ((hfree' _).1 hfr).2 rfl, fun q hq ht => hun q hq (htab hq ▸ ht)⟩
      · obtain ⟨hwas, hnot, hunf⟩ := h.held hf
        exact ⟨hwas, fun hfr => hnot ((hfree' _).1 hfr).1, fun q hq ht => hunf q hq (htab hq ▸ ht)⟩
    kept := fun {f} hf => by
      by_cases hne : f = vm.alloc.1
      · exact .inr (.inr (.inl (hne ▸ List.mem_cons_self)))
      · rcases h.kept hf with hfr | ⟨q, hq, ht⟩ | hheld
        · exact .inl ((hfree' f).2 ⟨hfr, hne⟩)
        · exact .inr (.inl ⟨q, hq, (htab (of_user hq)).trans ht⟩)
        · exact .inr (.inr (hheld.imp_left (List.mem_cons_of_mem _)))
    managed := (hman _).trans h.managed
    clear := fun {f o} hf ho => by
      rcases hsplit hf with rfl | ⟨hne, hf⟩
      · have hlt : o < (List.replicate pageSize (0 : UInt8)).length := by rwa [List.length_replicate]
        rw [hmem, ByteMem.write_in _ hlt, List.getElem_replicate]
      · have hfal := (h.frame_spec hf).2.1
        rw [ha, h.clear hf ho]
        rw [pageSize] at *
        omega }

/-- Tables are added. -/
theorem grew (h : Handed vm₀ vm pml4 frame loose) {vm' : Vm σ} (g : Grew IsPath vm vm' pml4) :
    Handed vm₀ vm' pml4 frame loose := by
  have hsame : ∀ va, vmmVirtToPhys vm'.mem pml4 va = vmmVirtToPhys vm.mem pml4 va := fun va => g.same (reaches_all va)
  have hun : ∀ {f}, Held frame loose f → Unused IsPath vm'.mem pml4 f := by
    intro f hf q hq ht
    obtain ⟨-, hnot, hunf⟩ := h.held hf
    rcases g.new hq ht with ht | hfree
    · exact hunf q hq ht
    · exact hnot hfree
  exact {
    inv := g.inv
    assigned := h.assigned
    tables := fun hq ht => g.tables hq (h.tables hq ht)
    new := fun hq ht => (g.new hq ht).elim (h.new hq) fun hfree => .inr (h.free hfree)
    same := fun hc hp => (hsame _).trans (h.same hc hp)
    page := fun hp ho => (hsame _).trans (h.page hp ho)
    free := fun hf => h.free (g.free.1 hf).1
    held := fun hf => ⟨(h.held hf).1, fun hfr => (h.held hf).2.1 (g.free.1 hfr).1, hun hf⟩
    kept := fun {f} hf => by
      rcases h.kept hf with hfr | ⟨q, hq, ht⟩ | hheld
      · by_cases htab : ∃ q, IsUser q ∧ tableAt vm'.mem pml4 q = some f
        · exact .inr (.inl htab)
        · exact .inl (g.free.2 ⟨hfr, fun q hq ht => htab ⟨q, hq, ht⟩⟩)
      · exact .inr (.inl ⟨q, hq, g.tables (of_user hq) ht⟩)
      · exact .inr (.inr hheld)
    managed := g.managed.trans h.managed
    clear := fun {f o} hf ho => by
      rw [g.outside, h.clear hf ho]
      intro q t hq ht
      have hne : t ≠ f := fun he => hun hf q hq.1 (he ▸ ht)
      have hal := tableAt_mod g.inv.tree.aligned ht
      have hfal := (h.frame_spec hf).2.1
      rw [pageSize] at *
      omega }

/-- The entry of one page is set. -/
theorem leaf (h : Handed vm₀ vm pml4 frame loose) {frame' : Nat → Option Nat} {loose' : List Nat} {p t : Nat} {e : Pte}
    (hp : p * pageSize < 2 ^ 47) (ht : tableAt vm.mem pml4 (ptPath (p * pageSize)) = some t)
    (a : Assigned frame' loose') (hheld : ∀ f, Held frame' loose' f ↔ Held frame loose f)
    (hoff : ∀ q, q ≠ p → frame' q = frame q)
    (hsome : ∀ f, frame' p = some f → isPresent e = true ∧ pteAddr e = f)
    (hnone : frame' p = none → isPresent e = false ∧ ∀ o < pageSize, vmmVirtToPhys vm₀.mem pml4 (p * pageSize + o) = 0) :
    Handed vm₀ (vm.store (slot t (ptIdx (p * pageSize))) e) pml4 frame' loose' := by
  have hidx : ptIdx (p * pageSize) < 512 := Nat.mod_lt _ (by decide)
  obtain ⟨hinv, hin, hother⟩ := leaf_store h.inv hp ht e
  have w := SlotWrite.of_store h.inv.tree (ptPath_user hp) hidx ht e
  have htab : ∀ {q}, IsPath q →
      tableAt (vm.store (slot t (ptIdx (p * pageSize))) e).mem pml4 q = tableAt vm.mem pml4 q :=
    fun hq => w.tableAt_leaf h.inv.tree rfl hq
  exact {
    inv := hinv
    assigned := a
    tables := fun hq hqt => (htab hq).trans (h.tables hq hqt)
    new := fun hq hqt => h.new hq (htab hq ▸ hqt)
    same := fun {va} hc hva => by
      by_cases hpage : va / pageSize = p
      · -- the page that was taken back translates to nothing, as it did
        rw [hpage] at hva
        obtain ⟨habs, hzero⟩ := hnone hva
        have hsplit : p * pageSize + va % pageSize = va := by
          rw [← hpage, Nat.mul_comm]
          exact Nat.div_add_mod va pageSize
        have ho : va % pageSize < pageSize := Nat.mod_lt _ (by decide)
        rw [← hsplit, hzero _ ho, hin _ (path_page ho), habs]
        rfl
      · rw [hoff _ hpage] at hva
        rw [hother va (reaches_all va) (path_ne_page hc hp hpage), h.same hc hva]
    page := fun {q f o} hq ho => by
      by_cases hqp : q = p
      · subst hqp
        obtain ⟨hpres, haddr⟩ := hsome f hq
        rw [hin _ (path_page ho), if_pos hpres, haddr, (page_number ho).2]
      · rw [hoff q hqp] at hq
        have hcan : Canonical (q * pageSize + o) := .inl (page_lt (h.assigned.user hq) ho)
        rw [hother _ (reaches_all _), h.page hq ho]
        apply path_ne_page hcan hp
        rwa [(page_number ho).1]
    free := h.free
    held := fun hf => by
      obtain ⟨hwas, hnot, hunf⟩ := h.held ((hheld _).1 hf)
      exact ⟨hwas, hnot, fun q hq hqt => hunf q hq (htab hq ▸ hqt)⟩
    kept := fun hf => by
      rcases h.kept hf with hfr | ⟨q, hq, hqt⟩ | hf'
      · exact .inl hfr
      · exact .inr (.inl ⟨q, hq, (htab (of_user hq)).trans hqt⟩)
      · exact .inr (.inr ((hheld _).2 hf'))
    managed := h.managed
    clear := fun {f o} hf ho => by
      have hf' := (hheld _).1 hf
      have hne : t ≠ f := fun he => (h.held hf').2.2 _ (ptPath_user hp).1 (he ▸ ht)
      have htal := tableAt_mod h.inv.tree.aligned ht
      have hfal := (h.frame_spec hf').2.1
      rw [← h.clear hf' ho]
      refine ByteMem.setWord_out _ _ ?_
      rw [slot, pageSize] at *
      omega }

/-- **`vmm_map` of a loose frame** maps it, or finds no frame for a table and changes nothing. -/
theorem map (h : Handed vm₀ vm pml4 frame (f :: loose)) {p : Nat} {flags : Pte} (hp : p * pageSize < 2 ^ 47)
    (hfree : frame p = none) (hpres : isPresent flags = true) (hflags : flags &&& 0x000FFFFFFFFFF000#64 = 0#64) :
    ((vm.vmmMap pml4 (p * pageSize) f flags).1 = 0 ∧
      Handed vm₀ (vm.vmmMap pml4 (p * pageSize) f flags).2 pml4 (Function.update frame p (some f)) loose) ∨
    ((vm.vmmMap pml4 (p * pageSize) f flags).1 = -enomem ∧
      (∀ g, ¬Free (vm.vmmMap pml4 (p * pageSize) f flags).2.pmm g) ∧
      Handed vm₀ (vm.vmmMap pml4 (p * pageSize) f flags).2 pml4 frame (f :: loose)) := by
  obtain ⟨-, hal, hlt⟩ := h.frame_spec (.inl List.mem_cons_self)
  rcases vmmMap_cases h.inv hp (Nat.mul_mod_left _ _) hal flags with ⟨hr, g, hfull⟩ | ⟨hr, vm₁, t, g, ht, hout⟩
  · exact .inr ⟨hr, hfull, h.grew g⟩
  · refine .inl ⟨hr, ?_⟩
    rw [hout]
    refine (h.grew g).leaf hp ht (h.assigned.assign hp) (fun _ => held_update hfree)
      (fun q hq => Function.update_of_ne hq _ _) (fun f' hf' => ?_) (fun hn => ?_)
    · rw [Function.update_self] at hf'
      obtain rfl := Option.some.inj hf'
      exact ⟨isPresent_or hpres, pteAddr_or hal hlt hflags⟩
    · rw [Function.update_self] at hn
      cases hn

/-- **`vmm_unmap` of a page that was handed out**, where nothing was mapped before. -/
theorem unmap (h : Handed vm₀ vm pml4 frame loose) {p : Nat} (hf : frame p = some f)
    (hzero : ∀ o < pageSize, vmmVirtToPhys vm₀.mem pml4 (p * pageSize + o) = 0) :
    Handed vm₀ (vm.vmmUnmap pml4 (p * pageSize)) pml4 (Function.update frame p none) (f :: loose) := by
  have hp := h.assigned.user hf
  have hne := h.page_ne hf (o := 0) (by decide)
  rw [Nat.add_zero] at hne
  rw [Vm.vmmUnmap, vmmGetPte_find h.inv.tree hp]
  cases ht : tableAt vm.mem pml4 (ptPath (p * pageSize)) with
  | none => exact absurd (h.inv.tree.virtToPhys_none hp ht) hne
  | some t =>
    have hpres : isPresent (vm.mem.word (slot t (ptIdx (p * pageSize)))) = true := by
      by_contra habs
      rw [virtToPhys_leaf ht, entry, if_neg habs] at hne
      exact hne rfl
    simp only [Option.map_some]
    rw [if_pos hpres]
    refine h.leaf hp ht (h.assigned.unassign hf) (fun _ => held_clear hf) (fun q hq => Function.update_of_ne hq _ _)
      (fun f' hf' => ?_) (fun _ => ⟨isPresent_zero, hzero⟩)
    rw [Function.update_self] at hf'
    cases hf'

/-- **`pmm_free` of a loose frame.** -/
theorem release (h : Handed vm₀ vm pml4 frame (f :: loose)) :
    ∃ s, pmmFree vm.pmm f = some s ∧ Handed vm₀ { vm with pmm := s } pml4 frame loose := by
  have hheld : Held frame (f :: loose) f := .inl List.mem_cons_self
  obtain ⟨hwas, hnot, hun⟩ := h.held hheld
  cases hout : pmmFree vm.pmm f with
  | none => exact absurd (free_none.1 hout) hnot
  | some s =>
    obtain ⟨hman, hs⟩ := free_some hout
    have hmore : ∀ {g}, Held frame loose g → Held frame (f :: loose) g := fun hg => hg.imp_left (List.mem_cons_of_mem _)
    have hne : ∀ {g}, Held frame loose g → g ≠ f := by
      rintro g (hmem | ⟨p, hp⟩) rfl
      · exact (List.nodup_cons.1 h.assigned.nodup).1 hmem
      · exact h.assigned.apart hp List.mem_cons_self
    refine ⟨s, rfl, ?_⟩
    exact {
      inv := ⟨h.inv.tree, fun hq ht hfr => by
        rcases (hs _).1 hfr with hfr | ⟨rfl, -⟩
        · exact h.inv.apart hq ht hfr
        · exact hun _ hq ht⟩
      assigned := h.assigned.drop
      tables := h.tables
      new := h.new
      same := h.same
      page := h.page
      free := fun hfr => by
        rcases (hs _).1 hfr with hfr | ⟨rfl, -⟩
        · exact h.free hfr
        · exact hwas
      held := fun hg => by
        obtain ⟨hwas', hnot', hun'⟩ := h.held (hmore hg)
        refine ⟨hwas', fun hfr => ?_, hun'⟩
        rcases (hs _).1 hfr with hfr | ⟨he, -⟩
        · exact hnot' hfr
        · exact hne hg he
      kept := fun {g} hg => by
        rcases h.kept hg with hfr | htab | hg'
        · exact .inl ((hs _).2 (.inl hfr))
        · exact .inr (.inl htab)
        · by_cases he : g = f
          · exact .inl ((hs _).2 (.inr ⟨he, h.managed.2 (managed_of_free hwas)⟩))
          · refine .inr (.inr (hg'.imp_left fun hmem => ?_))
            exact (List.mem_cons.1 hmem).resolve_left he
      managed := (hman _).trans h.managed
      clear := fun hg => h.clear (hmore hg) }

end Handed

end MyUnix.Mm
