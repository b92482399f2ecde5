import MyUnix.Mm.VmmTree

/-!
# `Mm.SpacePages` — the pages given to a space

What a call does to a space while it takes frames, maps them in the user half and writes to them through the direct
map: `Pages` relates the machine before the call to the machine now. The frames taken were free before, no table lies
in them, every page of the user half is one of them and no two pages share one, and the kernel half translates as
before. `vmm_create_space` establishes it; taking a frame, mapping it, writing to it and giving it back keep it.

The relation is used by `elf_load`, whose stack and segments are mapped page by page into a new space while bytes are
copied through physical addresses. It says which frames a byte may be written to without touching a table, and that
what was written stays: a page that is mapped later comes from a frame that was free.
-/

namespace MyUnix.Mm

open Lib PageAlloc PathClass

/-! ## Addresses the walk does not tell apart

The walk looks at 48 bits. An address of a program header is any number of 64, so it is first brought to the page that
the walk takes it for.
-/

theorem idx_low (va : Nat) : pml4Idx (va % 2 ^ 48) = pml4Idx va ∧ pdptIdx (va % 2 ^ 48) = pdptIdx va ∧
    pdIdx (va % 2 ^ 48) = pdIdx va ∧ ptIdx (va % 2 ^ 48) = ptIdx va := by
  simp only [pml4Idx, pdptIdx, pdIdx, ptIdx]
  omega

theorem path_low (va : Nat) : path (va % 2 ^ 48) = path va := by
  obtain ⟨h4, h3, h2, h1⟩ := idx_low va
  rw [path, path, h4, h3, h2, h1]

theorem alignDown_mod (va : Nat) : alignDown va % pageSize = 0 := Nat.mul_mod_left _ _

theorem alignDown_add_mod (va : Nat) : alignDown va + va % pageSize = va := by
  rw [alignDown, Nat.mul_comm]
  exact Nat.div_add_mod va pageSize

theorem path_alignDown (va : Nat) : path (alignDown va) = path va := by
  apply path_of_page
  rw [alignDown, Nat.mul_div_cancel _ (by decide)]

theorem pml4Idx_of_path {va va' : Nat} (h : path va = path va') : pml4Idx va = pml4Idx va' := (List.cons.inj h).1

theorem low_mod (va : Nat) : va % 2 ^ 48 % pageSize = va % pageSize := by
  rw [pageSize]
  omega

/-- An address whose PML4 index is in the lower half is walked as one of the user half. -/
theorem low_lt {va : Nat} (h : pml4Idx va < 256) : va % 2 ^ 48 < 2 ^ 47 := by
  rw [pml4Idx] at h
  omega

theorem virtToPhys_low (m : ByteMem) (pml4 va : Nat) :
    vmmVirtToPhys m pml4 (va % 2 ^ 48) = vmmVirtToPhys m pml4 va := by
  obtain ⟨h4, h3, h2, h1⟩ := idx_low va
  have h30 : va % 2 ^ 48 % 2 ^ 30 = va % 2 ^ 30 := Nat.mod_mod_of_dvd _ (Nat.pow_dvd_pow 2 (by decide))
  have h21 : va % 2 ^ 48 % 2 ^ 21 = va % 2 ^ 21 := Nat.mod_mod_of_dvd _ (Nat.pow_dvd_pow 2 (by decide))
  simp only [vmmVirtToPhys, h4, h3, h2, h1, h30, h21, low_mod]

variable {σ : Type} [PageAlloc σ]

theorem vmmMap_low (vm : Vm σ) (pml4 va phys : Nat) (flags : Pte) :
    vm.vmmMap pml4 (va % 2 ^ 48) phys flags = vm.vmmMap pml4 va phys flags := by
  obtain ⟨h4, h3, h2, h1⟩ := idx_low va
  simp only [Vm.vmmMap, Vm.vmmGetPte, h4, h3, h2, h1, low_mod]

/-! ## The tables of the kernel half

A change to the user half leaves every entry of the kernel half alone, since no table is met in both.
-/

/-- The paths into the upper half of a PML4. -/
def IsKernel (p : List Nat) : Prop := IsPath p ∧ ∀ i, p.head? = some i → 256 ≤ i

/-- The entries of the kernel half are the same. -/
def KernelSame (m m' : ByteMem) (pml4 : Nat) : Prop :=
  ∀ p t i, IsKernel p → tableAt m pml4 p = some t → i < 512 → (p = [] → 256 ≤ i) → entry m' t i = entry m t i

theorem IsKernel.of_append {p q : List Nat} (h : IsKernel (p ++ q)) : IsKernel p := by
  refine ⟨h.1.of_append, fun i hi => h.2 i ?_⟩
  cases p with
  | nil => cases hi
  | cons j p => exact hi

/-- A path into both halves is the empty one. -/
theorem IsKernel.nil_of_user {p : List Nat} (h : IsKernel p) (hu : IsUser p) : p = [] := by
  cases p with
  | nil => rfl
  | cons i p =>
    have hlo := h.2 i rfl
    have hlt := hu.2 i rfl
    omega

namespace KernelSame

variable {m m' m'' : ByteMem} {pml4 : Nat}

theorem refl (m : ByteMem) (pml4 : Nat) : KernelSame m m pml4 := fun _ _ _ _ _ _ _ => rfl

theorem tableAt_eq (h : KernelSame m m' pml4) {p : List Nat} (hp : IsKernel p) :
    tableAt m' pml4 p = tableAt m pml4 p := by
  apply walk_congr
  rintro q i r t rfl htq
  refine h q t i hp.of_append htq (hp.1.2 i (by simp)) ?_
  rintro rfl
  exact hp.2 i rfl

theorem trans (h : KernelSame m m' pml4) (h' : KernelSame m' m'' pml4) : KernelSame m m'' pml4 := by
  intro p t i hp ht hi hroot
  rw [h' p t i hp (by rwa [h.tableAt_eq hp]) hi hroot, h p t i hp ht hi hroot]

/-- A frame that no table lies in was written to. -/
theorem of_agree (hal : pml4 % pageSize = 0) {f : Nat} (ha : AgreeOff f m m') (hf : f % pageSize = 0)
    (hun : Unused IsPath m pml4 f) : KernelSame m m' pml4 := by
  intro p t i hp ht hi _
  refine ha.entry_eq (tableAt_mod hal ht) hf hi ?_
  rintro rfl
  exact hun p hp.1 ht

/-- An entry of a last table of the user half was set. -/
theorem of_leaf (ht : UserTree IsPath m pml4) {p₀ : List Nat} {t₀ i₀ : Nat} (w : SlotWrite m m' pml4 p₀ t₀ i₀)
    (hlen : p₀.length = 3) : KernelSame m m' pml4 := by
  intro p t i hp htp hi _
  refine w.entries (tableAt_mod ht.aligned htp) hi ?_
  rintro ⟨⟩
  obtain rfl := ht.unique w.user hp.1 w.table htp
  rw [hp.nil_of_user w.user] at hlen
  cases hlen

end KernelSame

/-- Tables that are added for the user half are none of the kernel half. -/
theorem Grew.kernelSame {vm vm' : Vm σ} {pml4 : Nat} (g : Grew IsPath vm vm' pml4)
    (h : TreeInv IsPath vm pml4) : KernelSame vm.mem vm'.mem pml4 := by
  intro p t i hp ht hi hroot
  by_cases hnil : p = []
  · subst hnil
    obtain rfl := Option.some.inj ht
    exact g.upper (hroot rfl) hi
  · have ht' := g.tables hp.1 ht
    have hal := tableAt_mod h.tree.aligned ht
    apply ByteMem.word_eq_word
    intro k hk
    refine g.outside fun q u hq hu => ?_
    have hne : u ≠ t := by
      rintro rfl
      have heq := g.inv.tree.unique hq hp.1 hu ht'
      exact hnil (hp.nil_of_user (heq ▸ hq))
    have hal' := tableAt_mod g.inv.tree.aligned hu
    rw [slot, pageSize] at *
    omega

/-! ## The invariant

One lemma for each thing that may happen: a frame is taken or given back, a table is added, an entry is set, memory of
the space is written.
-/

/-- From `vm₀` to `vm` the space was given the frames `frames`, and nothing else happened that it or the kernel half
    could see. -/
structure Pages (vm₀ vm : Vm σ) (pml4 : Nat) (frames : List Nat) : Prop where
  inv : TreeInv IsPath vm pml4
  kernel {va} : 256 ≤ pml4Idx va → vmmVirtToPhys vm.mem pml4 va = vmmVirtToPhys vm₀.mem pml4 va
  upper : KernelSame vm₀.mem vm.mem pml4
  free {f} : Free vm.pmm f → Free vm₀.pmm f
  wasFree {f} : f ∈ frames → Free vm₀.pmm f
  taken {f} : f ∈ frames → ¬Free vm.pmm f
  apart {f} : f ∈ frames → Unused IsPath vm.mem pml4 f
  mapped {va} : va < 2 ^ 47 → vmmVirtToPhys vm.mem pml4 va ≠ 0 →
    ∃ f ∈ frames, vmmVirtToPhys vm.mem pml4 va = f + va % pageSize
  inj {va va' f} : va < 2 ^ 47 → va' < 2 ^ 47 → f ≠ 0 → vmmVirtToPhys vm.mem pml4 va = f + va % pageSize →
    vmmVirtToPhys vm.mem pml4 va' = f + va' % pageSize → va / pageSize = va' / pageSize

/-- The bytes of the frames `frames` are the same. -/
def Keeps (frames : List Nat) (m m' : ByteMem) : Prop := ∀ f ∈ frames, ∀ o < pageSize, m' (f + o) = m (f + o)

/-- No page of the user half is in the frame `f`. -/
def Unmapped (m : ByteMem) (pml4 f : Nat) : Prop := ∀ va < 2 ^ 47, vmmVirtToPhys m pml4 va ≠ f + va % pageSize

theorem Keeps.refl (frames : List Nat) (m : ByteMem) : Keeps frames m m := fun _ _ _ _ => rfl

theorem Keeps.trans {frames : List Nat} {m m' m'' : ByteMem} (h : Keeps frames m m') (h' : Keeps frames m' m'') :
    Keeps frames m m'' := fun f hf o ho => (h' f hf o ho).trans (h f hf o ho)

/-- Two frames that share an address are the same. -/
theorem frame_eq {f g o o' : Nat} (hf : f % pageSize = 0) (hg : g % pageSize = 0) (ho : o < pageSize)
    (ho' : o' < pageSize) (h : f + o = g + o') : f = g := by
  rw [pageSize] at *
  omega

namespace Pages

variable {vm₀ vm : Vm σ} {pml4 : Nat} {frames : List Nat}

theorem frame_spec (h : Pages vm₀ vm pml4 frames) {f : Nat} (hf : f ∈ frames) :
    f ≠ 0 ∧ f % pageSize = 0 ∧ f < 2 ^ 52 := managed_spec (managed_of_free (h.wasFree hf))

/-- A frame fresh from `pmm_alloc` is none of those given before, and nothing is mapped in it. -/
theorem alloc_new (h : Pages vm₀ vm pml4 frames) (hf : vm.alloc.1 ≠ 0) :
    vm.alloc.1 ∉ frames ∧ Unmapped vm.mem pml4 vm.alloc.1 := by
  obtain ⟨-, hfree, -, -⟩ := alloc_frame vm hf
  obtain ⟨h0, hal, -⟩ := managed_spec (managed_of_free hfree)
  have hnot : vm.alloc.1 ∉ frames := fun hmem => h.taken hmem hfree
  refine ⟨hnot, fun va hva heq => ?_⟩
  obtain ⟨g, hg, hmap⟩ := h.mapped hva (by omega)
  have ho : va % pageSize < pageSize := Nat.mod_lt _ (by decide)
  rw [frame_eq hal (h.frame_spec hg).2.1 ho ho (heq.symm.trans hmap)] at hnot
  exact hnot hg

/-! ## Frames, tables and entries

What can happen to a space between two steps of its caller.
-/

/-- A change of memory inside a frame of the space. -/
theorem ofAgree (h : Pages vm₀ vm pml4 frames) {f : Nat} (hf : f ∈ frames) {m' : ByteMem} (ha : AgreeOff f vm.mem m') :
    Pages vm₀ { vm with mem := m' } pml4 frames ∧ ∀ va, vmmVirtToPhys m' pml4 va = vmmVirtToPhys vm.mem pml4 va := by
  obtain ⟨-, hal, -⟩ := h.frame_spec hf
  have hun := h.apart hf
  have hsame : ∀ va, vmmVirtToPhys m' pml4 va = vmmVirtToPhys vm.mem pml4 va :=
    fun va => ha.virtToPhys_eq h.inv.tree hal hun (reaches_all va)
  have htab : ∀ {p}, IsPath p → tableAt m' pml4 p = tableAt vm.mem pml4 p :=
    fun hp => ha.tableAt_eq h.inv.tree hal hun hp
  refine ⟨?_, hsame⟩
  exact {
    inv := ⟨ha.tree h.inv.tree hal hun, fun hp ht => h.inv.apart hp (by rwa [htab hp] at ht)⟩
    kernel := fun hva => (hsame _).trans (h.kernel hva)
    upper := h.upper.trans (.of_agree h.inv.tree.aligned ha hal hun)
    free := h.free
    wasFree := h.wasFree
    taken := h.taken
    apart := fun hg p hp ht => h.apart hg p hp (by rwa [htab hp] at ht)
    mapped := fun hva hne => by
      simp only [hsame] at hne ⊢
      exact h.mapped hva hne
    inj := fun hva hva' h0 heq heq' => by
      simp only [hsame] at heq heq'
      exact h.inj hva hva' h0 heq heq' }

/-- A frame is taken. -/
theorem alloc (h : Pages vm₀ vm pml4 frames) (hf : vm.alloc.1 ≠ 0) :
    Pages vm₀ vm.alloc.2 pml4 (vm.alloc.1 :: frames) ∧
    (∀ va, vmmVirtToPhys vm.alloc.2.mem pml4 va = vmmVirtToPhys vm.mem pml4 va) ∧
    (∀ o < pageSize, vm.alloc.2.mem (vm.alloc.1 + o) = 0) ∧ Keeps frames vm.mem vm.alloc.2.mem := by
  obtain ⟨hmem, hfree, hfree', hman⟩ := alloc_frame vm hf
  obtain ⟨h0, hal, -⟩ := managed_spec (managed_of_free hfree)
  obtain ⟨hnot, hunmapped⟩ := h.alloc_new hf
  have hun : Unused IsPath vm.mem pml4 vm.alloc.1 := fun p hp ht => h.inv.apart hp ht hfree
  -- only the frame itself was cleared, and no walk comes through it
  have ha : AgreeOff vm.alloc.1 vm.mem vm.alloc.2.mem := by
    rw [hmem]
    exact agreeOff_clear
  have hsame : ∀ va, vmmVirtToPhys vm.alloc.2.mem pml4 va = vmmVirtToPhys vm.mem pml4 va :=
    fun va => ha.virtToPhys_eq h.inv.tree hal hun (reaches_all va)
  have htab : ∀ {p}, IsPath p → tableAt vm.alloc.2.mem pml4 p = tableAt vm.mem pml4 p :=
    fun hp => ha.tableAt_eq h.inv.tree hal hun hp
  refine ⟨?_, hsame, fun o ho => ?_, fun g hg o ho => ha _ ?_⟩
  · exact {
      inv := ⟨ha.tree h.inv.tree hal hun, fun hp ht hfr => h.inv.apart hp (by rwa [htab hp] at ht) ((hfree' _).1 hfr).1⟩
      kernel := fun hva => (hsame _).trans (h.kernel hva)
      upper := h.upper.trans (.of_agree h.inv.tree.aligned ha hal hun)
      free := fun hfr => h.free ((hfree' _).1 hfr).1
      wasFree := fun hg => by
        rcases List.mem_cons.1 hg with rfl | hg
        · exact h.free hfree
        · exact h.wasFree hg
      taken := fun hg hfr => by
        rcases List.mem_cons.1 hg with rfl | hg
        · exact ((hfree' _).1 hfr).2 rfl
        · exact h.taken hg ((hfree' _).1 hfr).1
      apart := fun hg p hp ht => by
        rw [htab hp] at ht
        rcases List.mem_cons.1 hg with rfl | hg
        · exact hun p hp ht
        · exact h.apart hg p hp ht
      mapped := fun hva hne => by
        simp only [hsame] at hne ⊢
        obtain ⟨g, hg, hmap⟩ := h.mapped hva hne
        exact ⟨g, List.mem_cons_of_mem _ hg, hmap⟩
      inj := fun hva hva' h0 heq heq' => by
        simp only [hsame] at heq heq'
        exact h.inj hva hva' h0 heq heq' }
  · rw [hmem]
    have hlt : o < (List.replicate pageSize (0 : UInt8)).length := by rwa [List.length_replicate]
    rw [ByteMem.write_in _ hlt, List.getElem_replicate]
  · -- the frames that were taken before are others
    have hgal := (h.frame_spec hg).2.1
    have hne : g ≠ vm.alloc.1 := fun he => hnot (he ▸ hg)
    rw [pageSize] at *
    omega

/-- Tables are added. -/
theorem grew (h : Pages vm₀ vm pml4 frames) {vm' : Vm σ} (g : Grew IsPath vm vm' pml4) :
    Pages vm₀ vm' pml4 frames ∧ Keeps frames vm.mem vm'.mem := by
  have hsame : ∀ va, vmmVirtToPhys vm'.mem pml4 va = vmmVirtToPhys vm.mem pml4 va := fun va => g.same (reaches_all va)
  have hapart : ∀ {f}, f ∈ frames → Unused IsPath vm'.mem pml4 f := by
    intro f hf p hp ht
    rcases g.new hp ht with ht | hfree
    · exact h.apart hf p hp ht
    · exact h.taken hf hfree
  refine ⟨?_, fun f hf o ho => g.outside fun p t hp ht => ?_⟩
  · exact {
      inv := g.inv
      kernel := fun hva => (hsame _).trans (h.kernel hva)
      upper := h.upper.trans (g.kernelSame h.inv)
      free := fun hfr => h.free (g.free.1 hfr).1
      wasFree := h.wasFree
      taken := fun hf hfr => h.taken hf (g.free.1 hfr).1
      apart := hapart
      mapped := fun hva hne => by
        simp only [hsame] at hne ⊢
        exact h.mapped hva hne
      inj := fun hva hva' h0 heq heq' => by
        simp only [hsame] at heq heq'
        exact h.inj hva hva' h0 heq heq' }
  · have hne : t ≠ f := fun he => hapart hf p hp.1 (he ▸ ht)
    have hal := tableAt_mod g.inv.tree.aligned ht
    have hfal := (h.frame_spec hf).2.1
    rw [pageSize] at *
    omega

/-- The entry of a page is set to a frame in which nothing is mapped. -/
theorem leaf (h : Pages vm₀ vm pml4 frames) {f virt t : Nat} {flags : Pte} (hf : f ∈ frames)
    (hun : Unmapped vm.mem pml4 f) (hv : virt < 2 ^ 47) (ht : tableAt vm.mem pml4 (ptPath virt) = some t)
    (hpres : isPresent flags = true) (hflags : flags &&& 0x000FFFFFFFFFF000#64 = 0#64) :
    Pages vm₀ (vm.store (slot t (ptIdx virt)) (BitVec.ofNat 64 f ||| flags)) pml4 frames ∧
    Keeps frames vm.mem (vm.store (slot t (ptIdx virt)) (BitVec.ofNat 64 f ||| flags)).mem ∧
    ∀ va, vmmVirtToPhys (vm.store (slot t (ptIdx virt)) (BitVec.ofNat 64 f ||| flags)).mem pml4 va =
      if path va = path virt then f + va % pageSize else vmmVirtToPhys vm.mem pml4 va := by
  obtain ⟨h0, hal, hlt⟩ := h.frame_spec hf
  have hidx : ptIdx virt < 512 := Nat.mod_lt _ (by decide)
  obtain ⟨hinv, hin, hother⟩ := leaf_store h.inv hv ht (BitVec.ofNat 64 f ||| flags)
  have w := SlotWrite.of_store h.inv.tree (ptPath_user hv) hidx ht (BitVec.ofNat 64 f ||| flags)
  have htab : ∀ {p}, IsPath p →
      tableAt (vm.store (slot t (ptIdx virt)) (BitVec.ofNat 64 f ||| flags)).mem pml4 p = tableAt vm.mem pml4 p :=
    fun hp => w.tableAt_leaf h.inv.tree rfl hp
  have htrans : ∀ va, vmmVirtToPhys (vm.store (slot t (ptIdx virt)) (BitVec.ofNat 64 f ||| flags)).mem pml4 va =
      if path va = path virt then f + va % pageSize else vmmVirtToPhys vm.mem pml4 va := by
    intro va
    split
    next hpath => rw [hin va hpath, if_pos (isPresent_or hpres), pteAddr_or hal hlt hflags]
    next hpath => exact hother va (reaches_all va) hpath
  refine ⟨?_, fun g hg o ho => ?_, htrans⟩
  · exact {
      inv := hinv
      kernel := fun {va} hva => by
        rw [htrans, if_neg]
        · exact h.kernel hva
        · intro hpath
          have := pml4Idx_lt hv
          rw [← (List.cons.inj hpath).1] at this
          omega
      upper := h.upper.trans (.of_leaf h.inv.tree w rfl)
      free := h.free
      wasFree := h.wasFree
      taken := h.taken
      apart := fun hg p hp ht' => h.apart hg p hp (by rwa [htab hp] at ht')
      mapped := fun {va} hva hne => by
        rw [htrans] at hne ⊢
        split at hne
        next hpath => exact ⟨f, hf, if_pos hpath⟩
        next hpath =>
          rw [if_neg hpath]
          exact h.mapped hva hne
      inj := fun {va va' g} hva hva' hg heq heq' => by
        rw [htrans] at heq heq'
        -- of two pages in one frame, either both are the new one or none is
        split at heq <;> split at heq'
        next hpath hpath' => exact page_eq_of_path (.inl hva) hva' (hpath.trans hpath'.symm)
        next =>
          obtain rfl : f = g := by omega
          exact absurd heq' (hun va' hva')
        next =>
          obtain rfl : f = g := by omega
          exact absurd heq (hun va hva)
        next => exact h.inj hva hva' hg heq heq' }
  · have hne : t ≠ g := fun he => h.apart hg (ptPath virt) (ptPath_user hv).1 (he ▸ ht)
    have htal := tableAt_mod h.inv.tree.aligned ht
    have hgal := (h.frame_spec hg).2.1
    refine ByteMem.setWord_out _ _ ?_
    rw [slot, pageSize] at *
    omega

/-- **`vmm_map` of a frame of the space.** It sets the page, or it finds no frame for a table and changes nothing. -/
theorem map (h : Pages vm₀ vm pml4 frames) {f virt : Nat} {flags : Pte} (hf : f ∈ frames)
    (hun : Unmapped vm.mem pml4 f) (hv : virt < 2 ^ 47) (hal : virt % pageSize = 0)
    (hpres : isPresent flags = true) (hflags : flags &&& 0x000FFFFFFFFFF000#64 = 0#64) :
    Pages vm₀ (vm.vmmMap pml4 virt f flags).2 pml4 frames ∧
    Keeps frames vm.mem (vm.vmmMap pml4 virt f flags).2.mem ∧
    (((vm.vmmMap pml4 virt f flags).1 = 0 ∧
        ∀ va, vmmVirtToPhys (vm.vmmMap pml4 virt f flags).2.mem pml4 va =
          if path va = path virt then f + va % pageSize else vmmVirtToPhys vm.mem pml4 va) ∨
      ((vm.vmmMap pml4 virt f flags).1 = -enomem ∧ (∀ g, ¬Free (vm.vmmMap pml4 virt f flags).2.pmm g) ∧
        ∀ va, vmmVirtToPhys (vm.vmmMap pml4 virt f flags).2.mem pml4 va = vmmVirtToPhys vm.mem pml4 va)) := by
  rcases vmmMap_cases h.inv hv hal (h.frame_spec hf).2.1 flags with ⟨hr, g, hfull⟩ | ⟨hr, vm₁, t, g, ht, hout⟩
  · obtain ⟨hpages, hkeeps⟩ := h.grew g
    exact ⟨hpages, hkeeps, .inr ⟨hr, hfull, fun va => g.same (reaches_all va)⟩⟩
  · obtain ⟨hpages, hkeeps⟩ := h.grew g
    have hun' : Unmapped vm₁.mem pml4 f := fun va hva => by
      rw [g.same (reaches_all va)]
      exact hun va hva
    obtain ⟨hleaf, hkeeps', htrans⟩ := hpages.leaf hf hun' hv ht hpres hflags
    rw [hout]
    refine ⟨hleaf, hkeeps.trans hkeeps', .inl ⟨hr, fun va => ?_⟩⟩
    rw [htrans, g.same (reaches_all va)]

/-- The last frame is given back, with nothing mapped in it. -/
theorem release {f : Nat} (h : Pages vm₀ vm pml4 (f :: frames)) (hnot : f ∉ frames) (hun : Unmapped vm.mem pml4 f) :
    ∃ s, pmmFree vm.pmm f = some s ∧ Pages vm₀ { vm with pmm := s } pml4 frames := by
  have hmem : f ∈ f :: frames := List.mem_cons_self
  cases hfree : pmmFree vm.pmm f with
  | none => exact absurd (free_none.1 hfree) (h.taken hmem)
  | some s =>
    obtain ⟨-, hs⟩ := free_some hfree
    refine ⟨s, rfl, ?_⟩
    exact {
      inv := ⟨h.inv.tree, fun hp ht hfr => by
        rcases (hs _).1 hfr with hfr | ⟨rfl, -⟩
        · exact h.inv.apart hp ht hfr
        · exact h.apart hmem _ hp ht⟩
      kernel := h.kernel
      upper := h.upper
      free := fun hfr => by
        rcases (hs _).1 hfr with hfr | ⟨rfl, -⟩
        · exact h.free hfr
        · exact h.wasFree hmem
      wasFree := fun hg => h.wasFree (List.mem_cons_of_mem _ hg)
      taken := fun hg hfr => by
        rcases (hs _).1 hfr with hfr | ⟨rfl, -⟩
        · exact h.taken (List.mem_cons_of_mem _ hg) hfr
        · exact hnot hg
      apart := fun hg => h.apart (List.mem_cons_of_mem _ hg)
      mapped := fun hva hne => by
        obtain ⟨g, hg, hmap⟩ := h.mapped hva hne
        rcases List.mem_cons.1 hg with rfl | hg
        · exact absurd hmap (hun _ hva)
        · exact ⟨g, hg, hmap⟩
      inj := h.inj }

/-- Only the memory and the free frames matter. -/
theorem congr (h : Pages vm₀ vm pml4 frames) {vm' : Vm σ} (hmem : vm'.mem = vm.mem)
    (hfree : ∀ f, Free vm'.pmm f ↔ Free vm.pmm f) : Pages vm₀ vm' pml4 frames where
  inv := ⟨hmem ▸ h.inv.tree, fun hp ht hf => h.inv.apart hp (hmem ▸ ht) ((hfree _).1 hf)⟩
  kernel hva := hmem ▸ h.kernel hva
  upper := hmem ▸ h.upper
  free hf := h.free ((hfree _).1 hf)
  wasFree := h.wasFree
  taken hf hfr := h.taken hf ((hfree _).1 hfr)
  apart hf p hp ht := h.apart hf p hp (hmem ▸ ht)
  mapped := by
    rw [hmem]
    exact h.mapped
  inj := by
    rw [hmem]
    exact h.inj

end Pages

/-! ## Every address the walk takes to the user half

All bytes of a page are in one frame, and a page fresh from `pmm_alloc` reads as zero.
-/

/-- All addresses of a page are translated alike. -/
theorem translate_page {m : ByteMem} {pml4 : Nat} (h : UserTree IsPath m pml4) {va va' : Nat} (hu : pml4Idx va < 256)
    (hpath : path va' = path va) (hal : va % pageSize = 0) (hne : vmmVirtToPhys m pml4 va ≠ 0) :
    vmmVirtToPhys m pml4 va' = vmmVirtToPhys m pml4 va + va' % pageSize := by
  obtain ⟨hpt, hidx⟩ := path_parts hpath
  cases ht : tableAt m pml4 (ptPath va) with
  | none =>
    rw [← virtToPhys_low] at hne
    refine absurd (h.virtToPhys_none (low_lt hu) ?_) hne
    rwa [(path_parts (path_low va)).1]
  | some t =>
    rw [virtToPhys_leaf ht] at hne ⊢
    rw [virtToPhys_leaf (hpt ▸ ht), hidx]
    split at hne
    next hpres => rw [if_pos hpres, if_pos hpres, hal, Nat.add_zero]
    next => exact absurd rfl hne

namespace Pages

variable {vm₀ vm : Vm σ} {pml4 : Nat} {frames : List Nat}

/-- The frame under a page. -/
theorem frameOf (h : Pages vm₀ vm pml4 frames) {va : Nat} (hu : pml4Idx va < 256) (hal : va % pageSize = 0)
    (hne : vmmVirtToPhys vm.mem pml4 va ≠ 0) : vmmVirtToPhys vm.mem pml4 va ∈ frames := by
  rw [← virtToPhys_low] at hne ⊢
  obtain ⟨f, hf, heq⟩ := h.mapped (low_lt hu) hne
  rwa [heq, low_mod, hal, Nat.add_zero]

/-- No frame is left: nothing happens. -/
theorem allocNone (h : Pages vm₀ vm pml4 frames) (h0 : vm.alloc.1 = 0) : Pages vm₀ vm.alloc.2 pml4 frames := by
  obtain ⟨hmem, hfree, -⟩ := alloc_zero vm h0
  exact h.congr hmem hfree

/-- What `vmm_map` of the fresh frame `f` makes of `vm`: the page is mapped and empty, or there was no frame left for
    a table. -/
inductive Mapping (vm vm' : Vm σ) (pml4 va f : Nat) : Int → Prop
  | mapped (htrans : ∀ va', vmmVirtToPhys vm'.mem pml4 va' =
        if path va' = path va then f + va' % pageSize else vmmVirtToPhys vm.mem pml4 va')
      (hzero : ∀ o < pageSize, vm'.mem (f + o) = 0) : Mapping vm vm' pml4 va f 0
  | noTable (htrans : ∀ va', vmmVirtToPhys vm'.mem pml4 va' = vmmVirtToPhys vm.mem pml4 va')
      (hun : Unmapped vm'.mem pml4 f) (hfull : ∀ g, ¬Free vm'.pmm g) : Mapping vm vm' pml4 va f (-enomem)

/-- `pmm_alloc` and then `vmm_map` of the frame. -/
theorem allocMap (h : Pages vm₀ vm pml4 frames) {va : Nat} (hu : pml4Idx va < 256) (hal : va % pageSize = 0)
    (flags : Pte) (hpres : isPresent flags = true) (hflags : flags &&& 0x000FFFFFFFFFF000#64 = 0#64)
    (h0 : vm.alloc.1 ≠ 0) : vm.alloc.1 ∉ frames ∧
    Pages vm₀ (vm.alloc.2.vmmMap pml4 va vm.alloc.1 flags).2 pml4 (vm.alloc.1 :: frames) ∧
    Keeps frames vm.mem (vm.alloc.2.vmmMap pml4 va vm.alloc.1 flags).2.mem ∧
    Mapping vm (vm.alloc.2.vmmMap pml4 va vm.alloc.1 flags).2 pml4 va vm.alloc.1
      (vm.alloc.2.vmmMap pml4 va vm.alloc.1 flags).1 := by
  obtain ⟨hpages, hsame, hzero, hkeeps⟩ := h.alloc h0
  obtain ⟨hnew, hun⟩ := h.alloc_new h0
  have hun' : Unmapped vm.alloc.2.mem pml4 vm.alloc.1 := fun va hva => by
    rw [hsame]
    exact hun va hva
  have hlow : va % 2 ^ 48 % pageSize = 0 := by rw [low_mod, hal]
  obtain ⟨hpages', hkeeps', hmap⟩ := hpages.map List.mem_cons_self hun' (low_lt hu) hlow hpres hflags
  rw [vmmMap_low] at hpages' hkeeps' hmap
  refine ⟨hnew, hpages', hkeeps.trans fun f hf => hkeeps' f (List.mem_cons_of_mem _ hf), ?_⟩
  rcases hmap with ⟨hr, htrans⟩ | ⟨hr, hfull, htrans⟩
  · rw [hr]
    refine .mapped (fun va' => ?_) (fun o ho => ?_)
    · rw [htrans, hsame, path_low]
    · rw [hkeeps' _ List.mem_cons_self o ho, hzero o ho]
  · rw [hr]
    refine .noTable (fun va' => (htrans va').trans (hsame va')) (fun va' hva' => ?_) hfull
    rw [htrans]
    exact hun' va' hva'

end Pages

/-! ## How many frames are left

Four frames are enough for one page, whatever tables are missing.
-/

/-- At least `n` frames are free. -/
def Room (n : Nat) (s : σ) : Prop := ∃ fs : List Nat, fs.Nodup ∧ n ≤ fs.length ∧ ∀ f ∈ fs, Free s f

namespace Room

variable {vm : Vm σ} {n : Nat}

theorem mono {s : σ} {k : Nat} (h : Room n s) (hle : k ≤ n) : Room k s :=
  have ⟨fs, hnodup, hlen, hfree⟩ := h
  ⟨fs, hnodup, Nat.le_trans hle hlen, hfree⟩

theorem alloc (h : Room (n + 1) vm.pmm) : vm.alloc.1 ≠ 0 ∧ Room n vm.alloc.2.pmm := by
  obtain ⟨fs, hnodup, hlen, hfree⟩ := h
  have h0 : vm.alloc.1 ≠ 0 := by
    intro h0
    obtain ⟨f, hf⟩ := List.exists_mem_of_length_pos (show 0 < fs.length by omega)
    exact alloc_full h0 f (hfree f hf)
  obtain ⟨-, -, hrest, -⟩ := alloc_frame vm h0
  refine ⟨h0, fs.erase vm.alloc.1, hnodup.erase _, ?_, fun f hf => ?_⟩
  · have := List.le_length_erase (a := vm.alloc.1) (l := fs)
    omega
  · obtain ⟨hne, hmem⟩ := hnodup.mem_erase_iff.1 hf
    exact (hrest f).2 ⟨hfree f hmem, hne⟩

/-- A level of a walk takes at most one frame. -/
theorem nextTable (h : Room (n + 1) vm.pmm) (a : Nat) (create : Bool) (flags : Pte) :
    Room n (vm.nextTable a create flags).2.pmm := by
  rw [Vm.nextTable]
  split
  · split
    · exact h.mono (Nat.le_succ n)
    · simp only
      rw [if_neg h.alloc.1]
      exact h.alloc.2
  · exact h.mono (Nat.le_succ n)

theorem vmmGetPte (h : Room (n + 3) vm.pmm) (pml4 virt : Nat) (create : Bool) (flags : Pte) :
    Room n (vm.vmmGetPte pml4 virt create flags).2.pmm := by
  rw [Vm.vmmGetPte]
  have h₁ := h.nextTable (slot pml4 (pml4Idx virt)) create flags
  generalize vm.nextTable _ create flags = out at h₁
  obtain ⟨pdpt, vm₁⟩ := out
  cases pdpt with
  | none => exact h₁.mono (by omega)
  | some pdpt =>
    have h₂ := h₁.nextTable (slot pdpt (pdptIdx virt)) create flags
    simp only
    generalize vm₁.nextTable _ create flags = out at h₂
    obtain ⟨pd, vm₂⟩ := out
    cases pd with
    | none => exact h₂.mono (by omega)
    | some pd =>
      simp only
      split
      · exact h₂.mono (by omega)
      · have h₃ := h₂.nextTable (slot pd (pdIdx virt)) create flags
        generalize vm₂.nextTable _ create flags = out at h₃
        obtain ⟨pt, vm₃⟩ := out
        cases pt with
        | none => exact h₃
        | some pt => exact h₃

theorem vmmMap (h : Room (n + 3) vm.pmm) (pml4 virt phys : Nat) (flags : Pte) :
    Room n (vm.vmmMap pml4 virt phys flags).2.pmm := by
  rw [Vm.vmmMap]
  split
  · exact h.mono (by omega)
  · have h₁ := h.vmmGetPte pml4 virt true flags
    generalize vm.vmmGetPte pml4 virt true flags = out at h₁
    obtain ⟨pte, vm₁⟩ := out
    cases pte with
    | none => exact h₁
    | some pte => exact h₁

end Room

/-! ## `vmm_create_space`

The PML4 of a new space is the kernel's in its upper half and empty below.
-/

/-- The tables of the kernel half are in use. -/
structure KernelTables (vm : Vm σ) (kernelPml4 : Nat) : Prop where
  aligned : kernelPml4 % pageSize = 0
  used {p t} : IsKernel p → tableAt vm.mem kernelPml4 p = some t → ¬Free vm.pmm t

section

variable {vm : Vm σ} {kernelPml4 : Nat}

theorem vmmCreateSpace_eq {kzalloc : Bool} (h : (vm.vmmCreateSpace kernelPml4 kzalloc).1 ≠ 0) : vm.alloc.1 ≠ 0 ∧
    vm.vmmCreateSpace kernelPml4 kzalloc = (vm.alloc.1, { vm.alloc.2 with
      mem := vm.alloc.2.mem.write (slot vm.alloc.1 256) (vm.alloc.2.mem.read (slot kernelPml4 256) (256 * 8)) }) := by
  rw [Vm.vmmCreateSpace] at h ⊢
  split at h
  next => exact absurd rfl h
  next hk =>
    rw [if_neg hk] at ⊢
    simp only at h ⊢
    split at h
    next => exact absurd rfl h
    next h0 => exact ⟨h0, if_neg h0⟩

section

variable (hk : KernelTables vm kernelPml4) (hf : vm.alloc.1 ≠ 0)
include hk hf

/-- The memory of a new space: nothing outside its PML4 changes, of which the lower half is empty and the upper half the
    kernel's. -/
theorem newSpace_mem {m' : ByteMem}
    (hm' : m' = vm.alloc.2.mem.write (slot vm.alloc.1 256) (vm.alloc.2.mem.read (slot kernelPml4 256) (256 * 8))) :
    AgreeOff vm.alloc.1 vm.mem m' ∧ (∀ i < 256, entry m' vm.alloc.1 i = 0#64) ∧
    ∀ i, 256 ≤ i → i < 512 → entry m' vm.alloc.1 i = entry vm.mem kernelPml4 i := by
  obtain ⟨hmem, hfree, -, -⟩ := alloc_frame vm hf
  obtain ⟨-, hal, -⟩ := managed_spec (managed_of_free hfree)
  have hne : kernelPml4 ≠ vm.alloc.1 := by
    rintro rfl
    exact hk.used (p := []) ⟨⟨by simp, by simp⟩, by simp⟩ tableAt_nil hfree
  have hclear : AgreeOff vm.alloc.1 vm.mem vm.alloc.2.mem := by
    rw [hmem]
    exact agreeOff_clear
  have hlen : (vm.alloc.2.mem.read (slot kernelPml4 256) (256 * 8)).length = 2048 := ByteMem.length_read _
  subst hm'
  refine ⟨fun x hx => ?_, fun i hi => ?_, fun i hlo hi => ?_⟩
  · rw [ByteMem.write_out _ (by rw [hlen, slot]; rw [pageSize] at hx; omega), hclear x hx]
  · rw [entry, ByteMem.word_write_out _ (by rw [hlen, slot, slot]; omega), hmem]
    exact entry_clear_same (by omega)
  · rw [entry, ← hclear.entry_eq hk.aligned hal hi hne]
    -- the copy puts entry `i` of the kernel at entry `i`
    have hbyte : ∀ k < 8, vm.alloc.2.mem.write (slot vm.alloc.1 256)
        (vm.alloc.2.mem.read (slot kernelPml4 256) (256 * 8)) (slot vm.alloc.1 i + k) =
        vm.alloc.2.mem (slot kernelPml4 i + k) := by
      intro k hk8
      have hlt : 8 * (i - 256) + k < (vm.alloc.2.mem.read (slot kernelPml4 256) (256 * 8)).length := by
        rw [hlen]
        omega
      have hpos : slot vm.alloc.1 i + k = slot vm.alloc.1 256 + (8 * (i - 256) + k) := by
        rw [slot, slot]
        omega
      have hsrc : slot kernelPml4 256 + (8 * (i - 256) + k) = slot kernelPml4 i + k := by
        rw [slot, slot]
        omega
      rw [hpos, ByteMem.write_in _ hlt]
      apply Option.some.inj
      rw [← List.getElem?_eq_getElem hlt, ByteMem.getElem?_read, if_pos (by omega), hsrc]
    exact ByteMem.word_eq_word hbyte

/-- The tables of a new space: its PML4, and those of the kernel half. -/
theorem newSpace_tableAt {m' : ByteMem}
    (hm' : m' = vm.alloc.2.mem.write (slot vm.alloc.1 256) (vm.alloc.2.mem.read (slot kernelPml4 256) (256 * 8)))
    {p : List Nat} {t : Nat} (hp : IsPath p) (ht : tableAt m' vm.alloc.1 p = some t) :
    (p = [] ∧ t = vm.alloc.1) ∨ (p ≠ [] ∧ IsKernel p ∧ tableAt vm.mem kernelPml4 p = some t) := by
  obtain ⟨hagree, hlow, hhigh⟩ := newSpace_mem hk hf hm'
  obtain ⟨-, hfree, -, -⟩ := alloc_frame vm hf
  obtain ⟨-, hal, -⟩ := managed_spec (managed_of_free hfree)
  cases p with
  | nil => exact .inl ⟨rfl, (Option.some.inj ht).symm⟩
  | cons i p =>
    have hi : i < 512 := hp.2 i (by simp)
    by_cases hlo : i < 256
    · rw [tableAt, walk_cons, hlow i hlo, nextOf_absent isPresent_zero] at ht
      cases ht
    · have hker : IsKernel (i :: p) := by
        refine ⟨hp, ?_⟩
        rintro j ⟨⟩
        omega
      refine .inr ⟨by simp, hker, ?_⟩
      rw [tableAt, walk_cons, hhigh i (by omega) hi] at ht
      rw [tableAt, walk_cons]
      cases hn : nextOf 0 (entry vm.mem kernelPml4 i) with
      | none =>
        rw [hn] at ht
        cases ht
      | some t₁ =>
        rw [hn, Option.bind_some] at ht
        rw [Option.bind_some, ← ht]
        symm
        apply walk_congr
        -- the tables on the way are the kernel's, and none of them is the new PML4
        intro q j r t' hpq hwalk
        have hreach : tableAt vm.mem kernelPml4 (i :: q) = some t' := by
          rw [tableAt, walk_cons, hn]
          exact hwalk
        have hq : IsKernel (i :: q) := by
          refine ⟨IsPath.of_append (q := j :: r) ?_, ?_⟩
          · rw [List.cons_append, ← hpq]
            exact hp
          · rintro j' ⟨⟩
            omega
        apply hagree.entry_eq (tableAt_mod hk.aligned hreach) hal
        · exact hp.2 j (by rw [hpq]; simp)
        · rintro rfl
          exact hk.used hq hreach hfree

end

/-- **A new space** has no user pages and the kernel's upper half. -/
theorem newSpace_pages (hk : KernelTables vm kernelPml4) {kzalloc : Bool}
    (h : (vm.vmmCreateSpace kernelPml4 kzalloc).1 ≠ 0) :
    Pages (vm.vmmCreateSpace kernelPml4 kzalloc).2 (vm.vmmCreateSpace kernelPml4 kzalloc).2
      (vm.vmmCreateSpace kernelPml4 kzalloc).1 [] := by
  obtain ⟨hf, heq⟩ := vmmCreateSpace_eq h
  obtain ⟨-, hfree, hfree', -⟩ := alloc_frame vm hf
  obtain ⟨-, hal, -⟩ := managed_spec (managed_of_free hfree)
  rw [heq]
  have htab := fun {p t} => newSpace_tableAt hk hf (p := p) (t := t) rfl
  obtain ⟨-, hlow, -⟩ := newSpace_mem hk hf rfl
  -- the lower half of the PML4 is cleared, the upper half is copied
  have hnone : ∀ va < 2 ^ 47, vmmVirtToPhys (vm.alloc.2.mem.write (slot vm.alloc.1 256)
      (vm.alloc.2.mem.read (slot kernelPml4 256) (256 * 8))) vm.alloc.1 va = 0 := by
    intro va hva
    apply virtToPhys_absent (q := []) rfl tableAt_nil
    rw [hlow _ (pml4Idx_lt hva)]
    exact isPresent_zero
  have huser : ∀ {p t}, IsUser p → tableAt (vm.alloc.2.mem.write (slot vm.alloc.1 256)
      (vm.alloc.2.mem.read (slot kernelPml4 256) (256 * 8))) vm.alloc.1 p = some t → p = [] ∧ t = vm.alloc.1 := by
    intro p t hp ht
    rcases htab hp.1 ht with hroot | ⟨hne, hker, -⟩
    · exact hroot
    · cases p with
      | nil => exact absurd rfl hne
      | cons i p =>
        have hlt := hp.2 i rfl
        have hge := hker.2 i rfl
        omega
  exact {
    inv := {
      tree := {
        aligned := hal
        unique := fun {p q t} hp hq hpt hqt => by
          obtain ⟨rfl, rfl⟩ := huser hp hpt
          -- the PML4 is no table of the kernel half, since it was free
          rcases htab hq hqt with ⟨rfl, -⟩ | ⟨-, hker, ht⟩
          · rfl
          · exact absurd hfree (hk.used hker ht)
        noHuge := fun hp hne _ _ hpt => absurd (huser hp hpt).1 hne }
      apart := fun {p t} hp ht hfr => by
        rcases htab hp ht with ⟨-, rfl⟩ | ⟨-, hker, ht⟩
        · exact ((hfree' _).1 hfr).2 rfl
        · exact hk.used hker ht ((hfree' _).1 hfr).1 }
    kernel := fun _ => rfl
    upper := .refl _ _
    free := id
    wasFree := fun hg => by cases hg
    taken := fun hg => by cases hg
    apart := fun hg => by cases hg
    mapped := fun hva hne => absurd (hnone _ hva) hne
    inj := fun {va va' f} hva _ h0 heq _ => by
      rw [hnone va hva] at heq
      omega }

end

end MyUnix.Mm
