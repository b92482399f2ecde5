import MyUnix.Mm.Clone
import MyUnix.Mm.HeapFrames

/-!
# `Mm.HeapTables` — the kernel's tables under the entry of the heap

The kernel heap lies under one entry of the PML4, from `HEAP_VIRT_BASE` on for 2 ^ 39 bytes. `heap_init`, `heap_grow` and
`slab_cache_grow` map their pages there through `g_kernel_pml4`, and make tables as they need them.

The kernel's tables are no tree: boot has one page directory in two places, and the windows on physical memory are made
of huge pages, which `vmm_get_pte` takes for tables on its second level. So the invariant asks for less than that of a
user half does (`KernelReady`). A table may be met on several paths if these are of one length, and only under the entry
of the heap there is no huge page. A walk then knows on which level it is, an entry of the last level is in no table of
another, and a table that is added was a free frame.

`HeapGrew` says what a mapping under the entry may do, in terms of the entries of tables that are not the kernel's. It is
kept by each part of `vmm_get_pte`, and therefore by a loop of `vmm_kmap_phys` however far it gets. At the end boot and
`vmm_init` are shown to leave the kernel's tables as the invariant wants them.
-/

namespace MyUnix.Mm

open Lib PageAlloc PathClass

variable {σ : Type} [PageAlloc σ]

/-! ## The invariant

Levels instead of a tree, and what growing does.
-/

/-- The entry of a PML4 under which the kernel heap lies. -/
def heapSlot : Nat := pml4Idx heapVirtBase

/-- The paths to tables of the kernel heap, and the one to the PML4. -/
def IsHeap (q : List Nat) : Prop := IsPath q ∧ ∀ i, q.head? = some i → i = heapSlot

/-- The kernel's tables are in use, each is met at one depth only, and under the entry of the heap there is no huge page. -/
structure KernelReady (vm : Vm σ) (kernelPml4 : Nat) : Prop where
  space : KernelSpace vm kernelPml4
  level {p q t} : IsPath p → IsPath q → tableAt vm.mem kernelPml4 p = some t → tableAt vm.mem kernelPml4 q = some t →
    p.length = q.length
  small {q t i} : IsHeap q → q ≠ [] → q.length ≤ 2 → i < 512 → tableAt vm.mem kernelPml4 q = some t →
    isPresent (entry vm.mem t i) = true → isHuge (entry vm.mem t i) = false

/-- From `vm` to `vm'` the kernel's tables under the entry of the heap changed, and tables were added that were free
    frames. -/
structure HeapGrew (vm vm' : Vm σ) (kernelPml4 : Nat) : Prop where
  ready : KernelReady vm' kernelPml4
  top {i} : i < 512 → i ≠ heapSlot ∨ isPresent (entry vm.mem kernelPml4 i) = true →
    entry vm'.mem kernelPml4 i = entry vm.mem kernelPml4 i
  new {q t} : IsPath q → tableAt vm'.mem kernelPml4 q = some t → tableAt vm.mem kernelPml4 q = some t ∨ Free vm.pmm t
  entries {t i} : t % pageSize = 0 → ¬Free vm.pmm t → Unused IsPath vm.mem kernelPml4 t → i < 512 →
    entry vm'.mem t i = entry vm.mem t i
  free {f} : Free vm'.pmm f → Free vm.pmm f
  managed {f} : Managed vm'.pmm f ↔ Managed vm.pmm f

namespace HeapGrew

variable {vm vm' vm'' : Vm σ} {kernelPml4 : Nat}

theorem refl (h : KernelReady vm kernelPml4) : HeapGrew vm vm kernelPml4 where
  ready := h
  top _ _ := rfl
  new _ ht := .inl ht
  entries _ _ _ _ := rfl
  free hf := hf
  managed := Iff.rfl

theorem trans (h : HeapGrew vm vm' kernelPml4) (h' : HeapGrew vm' vm'' kernelPml4) : HeapGrew vm vm'' kernelPml4 where
  ready := h'.ready
  top {i} hi hor := by
    have heq := h.top hi hor
    rw [h'.top hi (by rwa [heq]), heq]
  new hq ht := by
    rcases h'.new hq ht with ht | hf
    · exact h.new hq ht
    · exact .inr (h.free hf)
  entries {t i} hal hused hun hi := by
    rw [h'.entries hal (fun hf => hused (h.free hf)) (fun q hq ht => ?_) hi, h.entries hal hused hun hi]
    rcases h.new hq ht with ht | hf
    · exact hun q hq ht
    · exact hused hf
  free hf := h.free (h'.free hf)
  managed := h'.managed.trans h.managed

end HeapGrew

/-! ## Entries and tables

An entry is set, in a table of the last level or with a new table. Nothing that was a table ceases to be one, and none
comes up on a second level.
-/

section

variable {vm : Vm σ} {kernelPml4 : Nat}

theorem isHeap_parts {q : List Nat} {i : Nat} (h : IsHeap (q ++ [i])) : IsPath q ∧ i < 512 :=
  ⟨h.1.of_append, h.1.2 i (by simp)⟩

/-! The table `f` is linked at the absent entry `i₀` of the table `t₀`, which is met at `q₀`. -/

section

variable {vm' : Vm σ} {q₀ : List Nat} {t₀ i₀ f : Nat} (h : KernelReady vm kernelPml4) (m : Made vm vm' t₀ i₀ f)
include h m

theorem KernelReady.ne_made {q : List Nat} {t : Nat} (hq : IsPath q) (ht : tableAt vm.mem kernelPml4 q = some t) : t ≠ f := by
  rintro rfl
  exact h.space.used hq ht m.fresh

/-- Another entry of one of the tables. -/
theorem KernelReady.entry_made {q : List Nat} {t i : Nat} (hq : IsPath q) (ht : tableAt vm.mem kernelPml4 q = some t)
    (hi : i < 512) (hslot : ¬(t = t₀ ∧ i = i₀)) : entry vm'.mem t i = entry vm.mem t i :=
  m.others _ _ (tableAt_mod h.space.aligned ht) hi (h.ne_made m hq ht) fun he => hslot (Prod.mk.inj he)

variable (hq₀ : IsPath q₀) (ht₀ : tableAt vm.mem kernelPml4 q₀ = some t₀)

include hq₀ ht₀ in
/-- A table is an old one, or the new one at its depth. -/
theorem KernelReady.tables_made (q : List Nat) : ∀ {t : Nat}, IsPath q → tableAt vm'.mem kernelPml4 q = some t →
    tableAt vm.mem kernelPml4 q = some t ∨ (t = f ∧ q.length = q₀.length + 1) := by
  induction q using List.reverseRecOn with
  | nil =>
    intro t _ ht
    rw [tableAt_nil] at ht ⊢
    exact .inl ht
  | append_singleton q i ih =>
    intro t hq ht
    obtain ⟨t', ht', hnext⟩ := tableAt_prefix ht
    have hi : i < 512 := hq.2 i (by simp)
    rcases ih hq.of_append ht' with hwas | ⟨hnew, -⟩
    · by_cases hslot : t' = t₀ ∧ i = i₀
      · obtain ⟨rfl, rfl⟩ := hslot
        have hlen : q.length = q₀.length := h.level hq.of_append hq₀ hwas ht₀
        rw [List.length_append, List.length_singleton, hlen]
        exact .inr ⟨(nextOf_eq_some hnext).2.1.symm.trans m.link.2.2, rfl⟩
      · rw [h.entry_made m hq.of_append hwas hi hslot] at hnext
        exact .inl ((tableAt_snoc hwas).trans hnext)
    · -- behind the new table there is nothing
      rw [hnew, m.empty i hi, nextOf_absent isPresent_zero] at hnext
      cases hnext

/-- The old tables are there. -/
theorem KernelReady.kept_made (habs : isPresent (entry vm.mem t₀ i₀) = false) (q : List Nat) :
    ∀ {t : Nat}, IsPath q → tableAt vm.mem kernelPml4 q = some t → tableAt vm'.mem kernelPml4 q = some t := by
  induction q using List.reverseRecOn with
  | nil =>
    intro t _ ht
    rwa [tableAt_nil] at ht ⊢
  | append_singleton q i ih =>
    intro t hq ht
    obtain ⟨t', ht', hnext⟩ := tableAt_prefix ht
    have hslot : ¬(t' = t₀ ∧ i = i₀) := by
      rintro ⟨rfl, rfl⟩
      rw [nextOf_absent habs] at hnext
      cases hnext
    rw [tableAt_snoc (ih hq.of_append ht'), h.entry_made m hq.of_append ht' (hq.2 i (by simp)) hslot, hnext]

include hq₀ ht₀ in
/-- The tables are in order still. -/
theorem KernelReady.made : KernelReady vm' kernelPml4 where
  space := {
    aligned := h.space.aligned
    used := fun hq ht hfree => by
      obtain ⟨hfree, hnew⟩ := (m.free _).1 hfree
      rcases h.tables_made m hq₀ ht₀ _ hq ht with ht | ⟨he, -⟩
      · exact h.space.used hq ht hfree
      · exact hnew he }
  level {p q t} hp hq hpt hqt := by
    rcases h.tables_made m hq₀ ht₀ p hp hpt with hpt | ⟨hpf, hpl⟩
    · rcases h.tables_made m hq₀ ht₀ q hq hqt with hqt | ⟨hqf, -⟩
      · exact h.level hp hq hpt hqt
      · exact absurd hqf (h.ne_made m hp hpt)
    · rcases h.tables_made m hq₀ ht₀ q hq hqt with hqt | ⟨-, hql⟩
      · exact absurd hpf (h.ne_made m hq hqt)
      · rw [hpl, hql]
  small {q t i} hq hnil hlen hi ht hp := by
    rcases h.tables_made m hq₀ ht₀ q hq.1 ht with ht | ⟨rfl, -⟩
    · by_cases hslot : t = t₀ ∧ i = i₀
      · obtain ⟨rfl, rfl⟩ := hslot
        exact m.link.2.1
      · rw [h.entry_made m hq.1 ht hi hslot] at hp ⊢
        exact h.small hq hnil hlen hi ht hp
    · rw [m.empty i hi, isPresent_zero] at hp
      cases hp

end

/-- **A new table** is linked under the entry of the heap. -/
theorem KernelReady.link {vm' : Vm σ} (h : KernelReady vm kernelPml4) {q₀ : List Nat} {t₀ i₀ f : Nat}
    (hq₀ : IsHeap (q₀ ++ [i₀])) (ht₀ : tableAt vm.mem kernelPml4 q₀ = some t₀)
    (habs : isPresent (entry vm.mem t₀ i₀) = false) (m : Made vm vm' t₀ i₀ f)
    (hman : ∀ g, Managed vm'.pmm g ↔ Managed vm.pmm g) :
    HeapGrew vm vm' kernelPml4 ∧ tableAt vm'.mem kernelPml4 (q₀ ++ [i₀]) = some f := by
  obtain ⟨hpath₀, hi₀⟩ := isHeap_parts hq₀
  obtain ⟨hpres, hsmall, haddr⟩ := m.link
  refine ⟨?_, ?_⟩
  · exact {
      ready := h.made m hpath₀ ht₀
      top := fun {i} hi hor => by
        refine h.entry_made m (q := []) isUser_nil.1 rfl hi fun ⟨hk, hslot⟩ => ?_
        subst hk hslot
        -- the entry would be the absent one of the heap
        have hlen := h.level hpath₀ isUser_nil.1 ht₀ (tableAt_nil (m := vm.mem))
        obtain rfl := List.eq_nil_of_length_eq_zero hlen
        rcases hor with hne | hp
        · exact hne (hq₀.2 i rfl)
        · rw [habs] at hp
          cases hp
      new := fun hq ht => (h.tables_made m hpath₀ ht₀ _ hq ht).imp_right fun ⟨he, _⟩ => he ▸ m.fresh
      entries := fun {t i} hal hused hun hi => by
        refine m.others t i hal hi ?_ fun hslot => ?_
        · rintro rfl
          exact hused m.fresh
        · rw [(Prod.mk.inj hslot).1] at hun
          exact hun q₀ hpath₀ ht₀
      free := fun hf => ((m.free _).1 hf).1
      managed := hman _ }
  · rw [tableAt_snoc (h.kept_made m habs q₀ hpath₀ ht₀), nextOf_table hpres hsmall, haddr]

/-- **An entry of a last table** is set: no table is another one after that. -/
theorem KernelReady.leaf (h : KernelReady vm kernelPml4) {q₀ : List Nat} {t₀ i₀ : Nat} (hq₀ : IsPath q₀)
    (hlen : q₀.length = 3) (ht₀ : tableAt vm.mem kernelPml4 q₀ = some t₀) (hi₀ : i₀ < 512) (e : Pte) :
    HeapGrew vm (vm.store (slot t₀ i₀) e) kernelPml4 := by
  have hal₀ := tableAt_mod h.space.aligned ht₀
  have hentry : ∀ {q t i}, IsPath q → q.length ≤ 2 → tableAt vm.mem kernelPml4 q = some t → i < 512 →
      entry (vm.store (slot t₀ i₀) e).mem t i = entry vm.mem t i := by
    intro q t i hq hle ht hi
    refine entry_store e (tableAt_mod h.space.aligned ht) hal₀ hi hi₀ fun hslot => ?_
    obtain ⟨rfl, rfl⟩ := Prod.mk.inj hslot
    have := h.level hq hq₀ ht ht₀
    omega
  have htable : ∀ {q}, IsPath q → tableAt (vm.store (slot t₀ i₀) e).mem kernelPml4 q = tableAt vm.mem kernelPml4 q := by
    intro q hq
    apply walk_congr
    rintro r i r' t rfl ht
    have hle : r.length ≤ 2 := by
      have := hq.1
      rw [List.length_append, List.length_cons] at this
      omega
    exact hentry hq.of_append hle ht (hq.2 i (by simp))
  exact {
    ready := {
      space := ⟨h.space.aligned, fun hq ht => h.space.used hq ((htable hq).symm.trans ht)⟩
      level := fun hp hq hpt hqt => h.level hp hq ((htable hp).symm.trans hpt) ((htable hq).symm.trans hqt)
      small := fun {q t i} hq hnil hle hi ht hp => by
        rw [htable hq.1] at ht
        rw [hentry hq.1 hle ht hi] at hp ⊢
        exact h.small hq hnil hle hi ht hp }
    top := fun hi _ => hentry (q := []) isUser_nil.1 (Nat.zero_le _) rfl hi
    new := fun hq ht => .inl ((htable hq).symm.trans ht)
    entries := fun {t i} hal _ hun hi => by
      refine entry_store e hal hal₀ hi hi₀ fun hslot => ?_
      obtain ⟨rfl, rfl⟩ := Prod.mk.inj hslot
      exact hun q₀ hq₀ ht₀
    free := id
    managed := Iff.rfl }

/-- The tables hold what they held, and none of them was freed. -/
theorem KernelReady.kept {vm' : Vm σ} (h : KernelReady vm kernelPml4) (hk : TablesKept vm.mem vm'.mem kernelPml4)
    (hspace : KernelSpace vm' kernelPml4) : KernelReady vm' kernelPml4 where
  space := hspace
  level hp hq hpt hqt := h.level hp hq ((hk.tableAt_eq hp).symm.trans hpt) ((hk.tableAt_eq hq).symm.trans hqt)
  small {q t i} hq hnil hle hi ht hp := by
    rw [hk.tableAt_eq hq.1] at ht
    rw [hk.entry_eq hq.1 ht hi] at hp ⊢
    exact h.small hq hnil hle hi ht hp

/-- **`pmm_alloc`** clears a frame that was no table. -/
theorem KernelReady.alloc (h : KernelReady vm kernelPml4) : HeapGrew vm vm.alloc.2 kernelPml4 := by
  obtain ⟨hk, -, hfree, hman⟩ := Undisturbed.alloc (Apart.none (L := fun _ => False) h.space fun _ => id)
  exact {
    ready := h.kept hk (h.space.kept hk fun _ hf => .inl (hfree hf))
    top := fun hi _ => hk.entry_eq isUser_nil.1 rfl hi
    new := fun hq ht => .inl ((hk.tableAt_eq hq).symm.trans ht)
    entries := fun {t i} ht hused _ hi => by
      by_cases h0 : vm.alloc.1 = 0
      · rw [(alloc_zero vm h0).1]
      · obtain ⟨hmem, hfresh, -, -⟩ := alloc_frame vm h0
        rw [hmem]
        refine agreeOff_clear.entry_eq ht (alloc_page h0).1 hi ?_
        rintro rfl
        exact hused hfresh
    free := hfree
    managed := hman }

/-! ## `vmm_get_pte` and `vmm_kmap_phys`

Three levels, each of which may add a table, and the store to the last.
-/

/-- **One level of `vmm_get_pte`** finds the table, makes it, or there is no frame for it. -/
theorem KernelReady.nextTable (h : KernelReady vm kernelPml4) {q₀ : List Nat} {t₀ i₀ : Nat} (hq₀ : IsHeap (q₀ ++ [i₀]))
    (ht₀ : tableAt vm.mem kernelPml4 q₀ = some t₀) (flags : Pte) :
    HeapGrew vm (vm.nextTable (slot t₀ i₀) true flags).2 kernelPml4 ∧
      ∀ t, (vm.nextTable (slot t₀ i₀) true flags).1 = some t →
        tableAt (vm.nextTable (slot t₀ i₀) true flags).2.mem kernelPml4 (q₀ ++ [i₀]) = some t := by
  obtain ⟨hpath₀, hi₀⟩ := isHeap_parts hq₀
  have hword : vm.mem.word (slot t₀ i₀) = entry vm.mem t₀ i₀ := rfl
  rw [Vm.nextTable, hword]
  cases hp : isPresent (entry vm.mem t₀ i₀) with
  | true =>
    refine ⟨.refl h, ?_⟩
    rintro t ⟨⟩
    refine (tableAt_snoc ht₀).trans ?_
    cases q₀ with
    | nil => exact nextOf_root hp
    | cons j q =>
      -- below the PML4 the entry is not that of a huge page
      have hle : (j :: q).length ≤ 2 := by
        have := hq₀.1.1
        rw [List.length_append, List.length_singleton] at this
        omega
      exact nextOf_table hp (h.small ⟨hpath₀, fun i hi => hq₀.2 i hi⟩ (List.cons_ne_nil j q) hle hi₀ ht₀ hp)
  | false =>
    simp only [Bool.not_false, Bool.not_true, if_true, Bool.false_eq_true, if_false]
    by_cases h0 : vm.alloc.1 = 0
    · rw [if_pos h0]
      refine ⟨h.alloc, ?_⟩
      rintro t ⟨⟩
    · rw [if_neg h0]
      obtain ⟨hal, hlt⟩ := alloc_page h0
      have hbits := table_entry flags hal hlt
      obtain ⟨g, htab⟩ := h.link hq₀ ht₀ hp
        (Made.of_store (tableAt_mod h.space.aligned ht₀) hi₀ (h.space.used hpath₀ ht₀) h0 hbits)
        (alloc_frame vm h0).2.2.2
      refine ⟨g, ?_⟩
      rintro t ⟨⟩
      exact htab

/-- **`vmm_get_pte`** under the entry of the heap. -/
theorem KernelReady.vmmGetPte (h : KernelReady vm kernelPml4) {virt : Nat} (hv : pml4Idx virt = heapSlot) (flags : Pte) :
    HeapGrew vm (vm.vmmGetPte kernelPml4 virt true flags).2 kernelPml4 ∧
      ∀ a, (vm.vmmGetPte kernelPml4 virt true flags).1 = some a →
        ∃ t, tableAt (vm.vmmGetPte kernelPml4 virt true flags).2.mem kernelPml4 (ptPath virt) = some t ∧
          a = slot t (ptIdx virt) := by
  have hlt : ∀ i ∈ path virt, i < 512 := fun i => path_lt virt
  have hheap : ∀ q r, q ++ r = ptPath virt → IsHeap q := by
    intro q r hqr
    have hin : ∀ i ∈ q, i < 512 := fun i hi => hlt i (by
      rw [path_eq, ← hqr]
      simp [hi])
    have hlen := congrArg List.length hqr
    rw [List.length_append] at hlen
    simp only [ptPath, List.length_cons, List.length_nil] at hlen
    refine ⟨⟨by omega, hin⟩, fun i hi => ?_⟩
    cases q with
    | nil => cases hi
    | cons j q =>
      obtain rfl := Option.some.inj hi
      exact (List.cons.inj hqr).1.trans hv
  have hroot : IsHeap ([] ++ [pml4Idx virt]) := hheap [pml4Idx virt] _ rfl
  obtain ⟨g₁, ht₁⟩ := h.nextTable hroot rfl flags
  rw [Vm.vmmGetPte]
  generalize vm.nextTable (slot kernelPml4 (pml4Idx virt)) true flags = r₁ at *
  obtain ⟨pdpt, vm₁⟩ := r₁
  cases pdpt with
  | none =>
    refine ⟨g₁, ?_⟩
    rintro a ⟨⟩
  | some pdpt =>
    obtain ⟨g₂, ht₂⟩ := g₁.ready.nextTable (hheap [pml4Idx virt, pdptIdx virt] _ rfl) (ht₁ pdpt rfl) flags
    dsimp only at *
    generalize vm₁.nextTable (slot pdpt (pdptIdx virt)) true flags = r₂ at *
    obtain ⟨pd, vm₂⟩ := r₂
    cases pd with
    | none =>
      refine ⟨g₁.trans g₂, ?_⟩
      rintro a ⟨⟩
    | some pd =>
      obtain ⟨g₃, ht₃⟩ := g₂.ready.nextTable (hheap (ptPath virt) [] rfl) (ht₂ pd rfl) flags
      dsimp only at *
      split
      · refine ⟨g₁.trans g₂, ?_⟩
        rintro a ⟨⟩
      · generalize vm₂.nextTable (slot pd (pdIdx virt)) true flags = r₃ at *
        obtain ⟨pt, vm₃⟩ := r₃
        cases pt with
        | none =>
          refine ⟨(g₁.trans g₂).trans g₃, ?_⟩
          rintro a ⟨⟩
        | some pt =>
          refine ⟨(g₁.trans g₂).trans g₃, ?_⟩
          rintro a ⟨⟩
          exact ⟨pt, ht₃ pt rfl, rfl⟩

/-- **`vmm_kmap_phys`** of one page of the heap. -/
theorem KernelReady.vmmKmapPhys (h : KernelReady vm kernelPml4) {virt : Nat} (hv : pml4Idx virt = heapSlot) (phys : Nat)
    (flags : Pte) : HeapGrew vm (vm.vmmKmapPhys kernelPml4 virt phys pageSize flags) kernelPml4 := by
  have hone : alignUp pageSize / pageSize = 1 := by decide
  obtain ⟨g, hpte⟩ := h.vmmGetPte hv flags
  rw [Vm.vmmKmapPhys, hone, List.range_one, List.foldl_cons, List.foldl_nil, Nat.zero_mul, Nat.add_zero, Nat.add_zero]
  generalize vm.vmmGetPte kernelPml4 virt true flags = r at *
  obtain ⟨pte, vm₁⟩ := r
  cases pte with
  | none => exact g
  | some pte =>
    obtain ⟨t, ht, rfl⟩ := hpte pte rfl
    exact g.trans (g.ready.leaf (isPath_of_path (path_eq virt)) rfl ht (path_lt virt (by rw [path_eq]; simp)) _)

end

/-! ## The pages of the heap

`heap_init` and `heap_grow` map page after page at `g_heap_end`, and `slab_cache_grow` maps one behind the slab pages
before it. As long as these addresses lie below `heapTop`, all of them are under the one entry.
-/

namespace KHeap

/-- The heap lies under one entry of the PML4 up to this address. -/
def heapTop : Nat := heapVirtBase + 2 ^ 39

theorem pml4Idx_heap {va : Nat} (hlo : heapVirtBase ≤ va) (hhi : va < heapTop) : pml4Idx va = heapSlot := by
  unfold heapTop at hhi
  unfold heapSlot pml4Idx
  unfold heapVirtBase at *
  omega

/-- The pages that the loop maps, as far as it gets, lie below `heapTop`. -/
def PagesBelow : Nat → KHeap σ → Prop
  | 0,     _ => True
  | n + 1, s => s.vm.alloc.1 ≠ 0 → s.heap.heapEnd < heapTop ∧
    PagesBelow n (({ s with vm := s.vm.alloc.2 } : KHeap σ).mapPage s.heap.heapEnd s.vm.alloc.1).advance

/-- So they do where there is room for all of them. -/
theorem pagesBelow_of_le (n : Nat) : ∀ {s : KHeap σ}, s.heap.heapEnd + n * pageSize ≤ heapTop → PagesBelow n s := by
  induction n with
  | zero => exact fun _ => trivial
  | succ n ih =>
    intro s hle _
    rw [Nat.succ_mul] at hle
    have hpage : 0 < pageSize := by decide
    refine ⟨by omega, ih ?_⟩
    have hmod := Nat.mod_le (s.heap.heapEnd + pageSize) (2 ^ 64)
    have hnext : ∀ t : KHeap σ, t.heap.heapEnd = s.heap.heapEnd → t.advance.heap.heapEnd ≤ s.heap.heapEnd + pageSize := by
      intro t ht
      rwa [advance_end, ht]
    have hle' := hnext (({ s with vm := s.vm.alloc.2 } : KHeap σ).mapPage s.heap.heapEnd s.vm.alloc.1) mapPage_end
    omega

/-- From `s` to `t` the heap grew in its place. -/
structure Grows (s t : KHeap σ) : Prop where
  tables : HeapGrew s.vm t.vm s.pml4
  pml4 : t.pml4 = s.pml4
  heapStart : t.heap.heapStart = s.heap.heapStart
  heapEnd : heapVirtBase ≤ t.heap.heapEnd
  slabNext : t.heap.slabNext = s.heap.slabNext

/-- **The loop of `heap_grow`**, however far it gets. -/
theorem mapPages_grows (n : Nat) : ∀ {s : KHeap σ}, KernelReady s.vm s.pml4 → heapVirtBase ≤ s.heap.heapEnd →
    PagesBelow n s → Grows s (mapPages n s).2 := by
  induction n with
  | zero => exact fun h hend _ => ⟨.refl h, rfl, rfl, hend, rfl⟩
  | succ n ih =>
    intro s h hend hbelow
    unfold mapPages
    by_cases h0 : s.vm.alloc.1 = 0
    · simp only [if_pos h0]
      exact ⟨h.alloc, rfl, rfl, hend, rfl⟩
    · simp only [if_neg h0]
      obtain ⟨hlt, hrest⟩ := hbelow h0
      have g : HeapGrew s.vm
          (({ s with vm := s.vm.alloc.2 } : KHeap σ).mapPage s.heap.heapEnd s.vm.alloc.1).advance.vm s.pml4 :=
        h.alloc.trans (h.alloc.ready.vmmKmapPhys (pml4Idx_heap hend hlt) s.vm.alloc.1 vmmKernRw)
      have hnext : heapVirtBase ≤
          (({ s with vm := s.vm.alloc.2 } : KHeap σ).mapPage s.heap.heapEnd s.vm.alloc.1).advance.heap.heapEnd := by
        have htop : heapTop + pageSize < 2 ^ 64 := by decide
        have hfits : s.heap.heapEnd + pageSize < 2 ^ 64 := by omega
        rw [advance_end, mapPage_end, Nat.mod_eq_of_lt hfits]
        omega
      obtain ⟨gn, hpml4, hstart, hlast, hslab⟩ := ih g.ready hnext hrest
      exact ⟨g.trans gn, hpml4, hstart, hlast, hslab⟩

/-- **`heap_grow`.** -/
theorem heapGrow_grows {s t : KHeap σ} {need : Nat} {ok : Bool} (h : KernelReady s.vm s.pml4)
    (hend : heapVirtBase ≤ s.heap.heapEnd) (hbelow : PagesBelow (pagesFor need) s)
    (hg : s.heapGrow need = some (ok, t)) : Grows s t := by
  have hpages := mapPages_grows (pagesFor need) h hend hbelow
  rw [heapGrow, growBy] at hg
  split at hg
  next u hu =>
    obtain ⟨-, rfl⟩ := Prod.mk.inj (Option.some.inj hg)
    rwa [hu] at hpages
  next u hu =>
    split at hg
    · cases hg
    · obtain ⟨-, rfl⟩ := Prod.mk.inj (Option.some.inj hg)
      rw [hu] at hpages
      exact ⟨hpages.tables, hpages.pml4, hpages.heapStart, hpages.heapEnd, hpages.slabNext⟩

/-- **`slab_cache_grow`** maps one page behind the slab pages before it. -/
theorem slabCacheGrow_grows {s t : KHeap σ} {i : Nat} (h : KernelReady s.vm s.pml4)
    (hslab : heapVirtBase ≤ s.heap.slabNext) (hbelow : s.vm.alloc.1 ≠ 0 → s.heap.slabNext < heapTop)
    (hg : s.slabCacheGrow i = some t) : HeapGrew s.vm t.vm s.pml4 ∧ t.pml4 = s.pml4 ∧
      t.heap.heapEnd = s.heap.heapEnd ∧ heapVirtBase ≤ t.heap.slabNext := by
  unfold slabCacheGrow at hg
  by_cases h0 : s.vm.alloc.1 = 0
  · simp only [if_pos h0] at hg
    obtain rfl := Option.some.inj hg
    exact ⟨h.alloc, rfl, rfl, hslab⟩
  · simp only [if_neg h0] at hg
    have g := h.alloc.trans (h.alloc.ready.vmmKmapPhys (pml4Idx_heap hslab (hbelow h0)) s.vm.alloc.1 vmmKernRw)
    split at hg
    · cases hg
    · obtain rfl := Option.some.inj hg
      refine ⟨g, rfl, rfl, ?_⟩
      have hnext : 0 < s.heap.slabNext + pageSize := Nat.add_pos_right _ (by decide)
      rw [Heap.slabNext, if_neg hnext.ne']
      exact Nat.le_trans hslab (Nat.le_add_right _ _)

/-- The heap before its first page. -/
def bare (mem : Words) (vm : Vm σ) (pml4 : Nat) : KHeap σ where
  heap :=
    { mem := mem, freeList := 0, heapStart := heapVirtBase, heapEnd := heapVirtBase,
      caches := fun _ => ⟨0, 0, 0⟩, slabVirt := 0, avail := 0 }
  vm := vm
  pml4 := pml4
  grown := 0

/-- `heap_init`. The header of the first block is stored into the first page, which faults if it is not mapped. -/
def heapInit (mem : Words) (vm : Vm σ) (pml4 : Nat) : Option (KHeap σ) :=
  let s := (mapPages (heapInitSize / pageSize) (bare mem vm pml4)).2
  if vmmIsMapped s.vm.mem s.pml4 s.heap.heapStart = false then none
  else
    let blk := s.heap.heapStart
    let m := (((s.heap.mem.setMagic blk heapMagicFree).setSize blk
      ((s.heap.heapEnd - s.heap.heapStart - heapBlockHdrSize) % 2 ^ 32)).setPrev blk 0).setNext blk 0
    some { s with heap := { s.heap with freeList := blk, mem := m.setChecksum blk } }

/-- What is mapped has its entry in the PML4. -/
theorem present_of_mapped {m : ByteMem} {pml4 va : Nat} (h : vmmIsMapped m pml4 va = true) :
    isPresent (entry m pml4 (pml4Idx va)) = true := by
  by_contra habs
  rw [vmmIsMapped, vmmVirtToPhys, if_pos (by simpa using habs)] at h
  cases h

/-- **`heap_init`** that does not fault leaves the entry of the heap present. -/
theorem heapInit_grows {mem : Words} {vm : Vm σ} {pml4 : Nat} {t : KHeap σ} (h : KernelReady vm pml4)
    (hinit : heapInit mem vm pml4 = some t) :
    Grows (bare mem vm pml4) t ∧ isPresent (entry t.vm.mem pml4 heapSlot) = true := by
  have hbare : (bare mem vm pml4).heap.heapEnd = heapVirtBase := rfl
  have hroom : heapVirtBase + heapInitSize / pageSize * pageSize ≤ heapTop := by decide
  have g := mapPages_grows (heapInitSize / pageSize) (s := bare mem vm pml4) h (Nat.le_of_eq hbare.symm)
    (pagesBelow_of_le _ (hbare ▸ hroom))
  rw [heapInit] at hinit
  generalize (mapPages (heapInitSize / pageSize) (bare mem vm pml4)).2 = u at g hinit
  dsimp only at hinit
  split at hinit
  · cases hinit
  next hmapped =>
    obtain rfl := Option.some.inj hinit
    have hpml4 : u.pml4 = pml4 := g.pml4
    have hstart : u.heap.heapStart = heapVirtBase := g.heapStart
    rw [hpml4, hstart, Bool.not_eq_false] at hmapped
    exact ⟨⟨g.tables, g.pml4, g.heapStart, g.heapEnd, g.slabNext⟩, present_of_mapped hmapped⟩

end KHeap

/-! ## After boot

The labels of `Mm.DirectMap` give each table its level. The direct map of the largest memory ends long before the entry
of the heap.
-/

/-- What the tables of boot and of the direct map are for, by their paths; there is no table of the last level. -/
theorem HugeInv.tableAt_kind {vm : Vm σ} {base done : Nat} {kind : Nat → Option TableKind} (h : HugeInv vm base done kind)
    {q : List Nat} {t : Nat} (hq : IsPath q) (ht : tableAt vm.mem (bootPml4 base) q = some t) :
    (q = [] ∧ kind t = some .pml4) ∨ (∃ i, q = [i] ∧ kind t = some (.pdpt i)) ∨
      ∃ i j, q = [i, j] ∧ j < 512 ∧ kind t = some (.pd (canonPd (i * 512 + j))) := by
  induction q using List.reverseRecOn generalizing t with
  | nil =>
    obtain rfl := Option.some.inj ht
    exact .inl ⟨rfl, h.root⟩
  | append_singleton q i ih =>
    obtain ⟨t', ht', hnext⟩ := tableAt_prefix ht
    obtain ⟨hpres, haddr, hsmall⟩ := nextOf_eq_some hnext
    have hi : i < 512 := hq.2 i (by simp)
    rcases ih hq.of_append ht' with ⟨rfl, hk⟩ | ⟨j, rfl, hk⟩ | ⟨j, l, rfl, -, hk⟩
    · exact .inr (.inl ⟨i, rfl, haddr ▸ (h.child _ _ i _ hk rfl hi hpres).2⟩)
    · exact .inr (.inr ⟨j, i, rfl, hi, haddr ▸ (h.child _ _ i _ hk rfl hi hpres).2⟩)
    · -- what a page directory maps are pages of 2 MB
      exfalso
      have hleaf := h.leaf _ _ i hk hi
      rcases hleaf with he | ⟨-, hlow, -, he⟩ | ⟨k, -, -, -, he⟩
      · rw [he, isPresent_zero] at hpres
        cases hpres
      · have hhuge := (bootEntry_bits hlow).2.1
        rw [← he, hsmall (by simp)] at hhuge
        cases hhuge
      · have hhuge := (directEntry_bits k).2.1
        rw [← he, hsmall (by simp)] at hhuge
        cases hhuge

/-- Under the entry of the heap the direct map has nothing: it is too short. -/
theorem HugeInv.kernelReady {vm : Vm σ} {base done : Nat} {kind : Nat → Option TableKind} (h : HugeInv vm base done kind)
    (hdone : done ≤ 2 ^ 22) : KernelReady vm (bootPml4 base) where
  space := {
    aligned := (h.frame _ _ h.root).1
    used := fun hq ht => by
      rcases h.tableAt_kind hq ht with ⟨-, hk⟩ | ⟨_, -, hk⟩ | ⟨_, _, -, -, hk⟩
      · exact (h.frame _ _ hk).2
      · exact (h.frame _ _ hk).2
      · exact (h.frame _ _ hk).2 }
  level {p q t} hp hq hpt hqt := by
    rcases h.tableAt_kind hp hpt with ⟨rfl, hk⟩ | ⟨_, rfl, hk⟩ | ⟨_, _, rfl, -, hk⟩ <;>
      rcases h.tableAt_kind hq hqt with ⟨rfl, hk'⟩ | ⟨_, rfl, hk'⟩ | ⟨_, _, rfl, -, hk'⟩ <;>
      first
        | rfl
        | cases hk.symm.trans hk'
  small {q t i} hq hnil _ hi ht hpres := by
    have hslot : heapSlot = 480 := by decide
    rcases h.tableAt_kind hq.1 ht with ⟨rfl, -⟩ | ⟨j, rfl, hk⟩ | ⟨j, l, rfl, hl, hk⟩
    · exact absurd rfl hnil
    · exact (h.child _ _ i _ hk rfl hi hpres).1
    · obtain rfl := hq.2 j rfl
      have hcanon : canonPd (heapSlot * 512 + l) = 480 * 512 + l := by
        rw [hslot, canonPd, if_neg (by omega)]
      rw [hcanon] at hk
      rcases h.leaf _ _ i hk hi with he | ⟨rfl, -, -, -⟩ | ⟨k, hlt, hu, -, -⟩
      · rw [he, isPresent_zero] at hpres
        cases hpres
      · have hu := TableKind.pd.inj (Option.some.inj (hk.symm.trans h.kind_pd))
        omega
      · rw [canonPd, pdOf] at hu
        split at hu <;> omega

/-- **The state that `vmm_init` leaves**, with as many pages as the page allocator can have. -/
theorem BootBss.kernelReady {vm : Vm σ} {base : Nat} (h : BootBss vm base) {totalPages : Nat}
    (hpages : totalPages ≤ pmmMaxPages) :
    KernelReady ((vm.booted base).vmmInit (bootPml4 base) totalPages) (bootPml4 base) := by
  obtain ⟨done, kind, hinv, hle, -, -⟩ := h.hugeRun.mapHuge (directPages totalPages)
  refine hinv.kernelReady (Nat.le_trans hle ?_)
  rw [directPages, Vm.hugePages, hugeSize]
  rw [pmmMaxPages] at hpages
  rw [pageSize]
  omega

end MyUnix.Mm
