import MyUnix.Mm.HeapTables

/-!
# `Mm.KernelHalf` — kernel mappings are the same in all spaces

`vmm_create_space` copies the upper half of the kernel's PML4, 256 entries, and nothing keeps the copies up to date
afterwards. That later mappings of the kernel are seen in all spaces is due to where they go: below an entry that was
there before the first space was made, into tables that all of them share.

Three things have to be shown for this. The heap never writes to a PML4 once its entry is present, which it is after a
`heap_init` that did not fault (`Mm.HeapTables`). What is done in a user half reaches no table of the kernel half
(`KernelSame`), and no PML4 of another space. And the shared tables are never freed: `vmm_destroy_space` frees what is
of the user half, and no frame of a user half is one of the kernel's tables (`Apart`).

The runs are those of `Mm.Spaces` with the heap beside them. Steps are small, so that the heap may grow between any two
of them, also in the middle of a `vmm_clone_space`; a whole call of it is a step as well.
-/

namespace MyUnix.Mm

open Lib PageAlloc PathClass

variable {σ : Type} [PageAlloc σ]

/-! ## What the spaces see of the heap

A walk that begins in the upper half leaves the PML4 of the space with its first step. What the heap changes behind that
it changes for all of them; in their own tables it changes nothing.
-/

/-- The upper half of the PML4 is the kernel's. -/
def SharesKernel (m : ByteMem) (kernelPml4 pml4 : Nat) : Prop :=
  ∀ i, 256 ≤ i → i < 512 → entry m pml4 i = entry m kernelPml4 i

namespace SharesKernel

variable {m m' : ByteMem} {kernelPml4 pml4 : Nat} (h : SharesKernel m kernelPml4 pml4)
include h

/-- A walk that begins in the upper half goes on in the same tables. -/
theorem tableAt_eq {i : Nat} {q : List Nat} (hlo : 256 ≤ i) (hi : i < 512) :
    tableAt m pml4 (i :: q) = tableAt m kernelPml4 (i :: q) := by
  rw [tableAt, tableAt, walk_cons, walk_cons, h i hlo hi]

theorem virtToPhys_eq {va : Nat} (hlo : 256 ≤ pml4Idx va) : vmmVirtToPhys m pml4 va = vmmVirtToPhys m kernelPml4 va := by
  rw [vmmVirtToPhys, vmmVirtToPhys, h _ hlo (Nat.mod_lt _ (by decide))]

/-- Nothing happened to the kernel half, of this space or of the kernel's. -/
theorem kept (hk : TablesKept m m' kernelPml4) (hp : KernelSame m m' pml4) : SharesKernel m' kernelPml4 pml4 := by
  intro i hlo hi
  rw [hp [] pml4 i ⟨isUser_nil.1, nofun⟩ rfl hi fun _ => hlo, h i hlo hi, hk.entry_eq isUser_nil.1 rfl hi]

end SharesKernel

theorem TablesKept.kernelSame {m m' : ByteMem} {pml4 : Nat} (hk : TablesKept m m' pml4) : KernelSame m m' pml4 :=
  fun _ _ _ hp ht hi _ => hk.entry_eq hp.1 ht hi

/-- A path is one of the user half, or begins in the upper one. -/
theorem isUser_or_kernel {q : List Nat} (hq : IsPath q) : IsUser q ∨ ∃ i r, q = i :: r ∧ 256 ≤ i ∧ i < 512 := by
  cases q with
  | nil => exact .inl isUser_nil
  | cons i r =>
    rcases Nat.lt_or_ge i 256 with hlt | hge
    · refine .inl ⟨hq, ?_⟩
      rintro j ⟨⟩
      exact hlt
    · exact .inr ⟨i, r, rfl, hge, hq.2 i List.mem_cons_self⟩

section

variable {vm vm' : Vm σ} {kernelPml4 p : Nat} {L : Nat → Prop} (a : Apart vm kernelPml4 L) (g : HeapGrew vm vm' kernelPml4)
  (hp : L p)
include a g hp

/-- The tables of a user half are none of the kernel's, and were not free. -/
theorem Apart.heap_entry {q : List Nat} {t i : Nat} (hq : IsUser q) (ht : tableAt vm.mem p q = some t) (hi : i < 512) :
    entry vm'.mem t i = entry vm.mem t i :=
  g.entries (tableAt_mod (a.space hp).tree.tree.aligned ht) ((a.space hp).tree.apart hq.1 ht)
    (a.kernelApart hp (.inl ⟨q, hq, ht⟩)) hi

theorem Apart.heap_table {q : List Nat} (hq : IsUser q) : tableAt vm'.mem p q = tableAt vm.mem p q := by
  apply walk_congr
  rintro r i r' t rfl ht
  exact a.heap_entry g hp hq.of_append ht (hq.1.2 i (by simp))

theorem Apart.heap_phys {va : Nat} (hva : va < 2 ^ 47) : vmmVirtToPhys vm'.mem p va = vmmVirtToPhys vm.mem p va := by
  apply virtToPhys_congr
  intro q i r t hpath ht
  exact a.heap_entry g hp (reaches_user hva q i r hpath) ht (path_lt va (by rw [hpath]; simp))

theorem Apart.heap_maps {q f : Nat} : Maps vm'.mem p q f ↔ Maps vm.mem p q f :=
  and_congr_right fun hq => and_congr_right fun _ => by rw [a.heap_phys g hp hq]

theorem Apart.heap_userFrame {f : Nat} : UserFrame vm'.mem p f ↔ UserFrame vm.mem p f := by
  refine or_congr (exists_congr fun q => and_congr_right fun hq => ?_) (exists_congr fun q => a.heap_maps g hp)
  rw [a.heap_table g hp hq]

variable (hs : SharesKernel vm.mem kernelPml4 p) (hslot : isPresent (entry vm.mem kernelPml4 heapSlot) = true)
include hs hslot

/-- The upper half of the space is the kernel's still. -/
theorem Apart.heap_shares : SharesKernel vm'.mem kernelPml4 p := by
  intro i hlo hi
  have htop : i ≠ heapSlot ∨ isPresent (entry vm.mem kernelPml4 i) = true := by
    by_cases heq : i = heapSlot
    · exact .inr (heq ▸ hslot)
    · exact .inl heq
  rw [a.heap_entry g hp isUser_nil rfl hi, hs i hlo hi, g.top hi htop]

/-- A table of the space is an old one, or was a free frame. -/
theorem Apart.heap_new {q : List Nat} {t : Nat} (hq : IsPath q) (ht : tableAt vm'.mem p q = some t) :
    tableAt vm.mem p q = some t ∨ Free vm.pmm t := by
  rcases isUser_or_kernel hq with hu | ⟨i, r, rfl, hlo, hi⟩
  · exact .inl ((a.heap_table g hp hu).symm.trans ht)
  · rw [(a.heap_shares g hp hs hslot).tableAt_eq hlo hi] at ht
    rw [hs.tableAt_eq hlo hi]
    exact g.new hq ht

/-- The space is in order still. -/
theorem Apart.heap_space : SpaceInv vm' p := by
  have h := a.space hp
  have hused : ∀ {q t}, IsPath q → tableAt vm'.mem p q = some t → ¬Free vm'.pmm t := by
    intro q t hq ht hf
    rcases isUser_or_kernel hq with hu | ⟨i, r, rfl, hlo, hi⟩
    · exact h.tree.apart hq ((a.heap_table g hp hu).symm.trans ht) (g.free hf)
    · rw [(a.heap_shares g hp hs hslot).tableAt_eq hlo hi] at ht
      exact g.ready.space.used hq ht hf
  exact {
    tree := {
      tree := {
        aligned := h.tree.tree.aligned
        unique := fun {q r t} hq hr hqt hrt => by
          rw [a.heap_table g hp hq] at hqt
          rcases a.heap_new g hp hs hslot hr hrt with hrt | hfree
          · exact h.tree.tree.unique hq hr hqt hrt
          · exact absurd hfree (h.tree.apart hq.1 hqt)
        noHuge := fun {q t i} hq hnil hle hi ht hpres => by
          rw [a.heap_table g hp hq] at ht
          rw [a.heap_entry g hp hq ht hi] at hpres ⊢
          exact h.tree.tree.noHuge hq hnil hle hi ht hpres }
      apart := hused }
    noZero := fun q hq hmap o ho => by
      rw [a.heap_phys g hp (page_lt hq ho)]
      rw [vmmIsMapped, a.heap_phys g hp hq] at hmap
      exact h.noZero q hq hmap o ho
    used := fun {q f} hm => by
      rw [a.heap_maps g hp] at hm
      obtain ⟨hnot, hun⟩ := h.used hm
      refine ⟨fun hf => hnot (g.free hf), fun r hr ht => ?_⟩
      rcases a.heap_new g hp hs hslot hr ht with ht | hfree
      · exact hun r hr ht
      · exact hnot hfree
    inj := fun hm hm' => h.inj ((a.heap_maps g hp).1 hm) ((a.heap_maps g hp).1 hm') }

end

/-- **The heap grows** under the entry of its own: the spaces stay apart, and none sees a change of its own half. -/
theorem Apart.heapGrew {vm vm' : Vm σ} {kernelPml4 : Nat} {L : Nat → Prop} (a : Apart vm kernelPml4 L)
    (g : HeapGrew vm vm' kernelPml4) (hs : ∀ {p}, L p → SharesKernel vm.mem kernelPml4 p)
    (hslot : isPresent (entry vm.mem kernelPml4 heapSlot) = true) : Apart vm' kernelPml4 L where
  kernel := g.ready.space
  space hp := a.heap_space g hp (hs hp) hslot
  managed hp hf := g.managed.2 (a.managed hp ((a.heap_userFrame g hp).1 hf))
  kernelApart {p f} hp hf q hq ht := by
    rw [a.heap_userFrame g hp] at hf
    rcases g.new hq ht with ht | hfree
    · exact a.kernelApart hp hf q hq ht
    · exact (a.space hp).not_free hf.inSpace hfree
  apart {p q f} hp hq hne hf hin := by
    rw [a.heap_userFrame g hp] at hf
    rcases hin with ⟨r, hr, ht⟩ | ⟨r, hm⟩
    · rcases a.heap_new g hq (hs hq) hslot hr ht with ht | hfree
      · exact a.apart hp hq hne hf (.inl ⟨r, hr, ht⟩)
      · exact (a.space hp).not_free hf.inSpace hfree
    · exact a.apart hp hq hne hf (.inr ⟨r, (a.heap_maps g hq).1 hm⟩)

/-! ## What user steps leave of the kernel half

Each of them writes to last tables of one user half, and links tables there.
-/

section

variable {vm vm' : Vm σ} {kernelPml4 p : Nat} {L : Nat → Prop}

/-- The entry of a user page is in no table of the kernel half. -/
theorem kernelSame_store (h : TreeInv IsPath vm p) {va t : Nat} (hva : va < 2 ^ 47)
    (ht : tableAt vm.mem p (ptPath va) = some t) (e : Pte) :
    KernelSame vm.mem (vm.store (slot t (ptIdx va)) e).mem p :=
  .of_leaf h.tree (.of_store h.tree (ptPath_user hva) (Nat.mod_lt _ (by decide)) ht e) rfl

theorem vmmUnmap_kernelSame (h : TreeInv IsPath vm p) {va : Nat} (hva : va < 2 ^ 47) :
    KernelSame vm.mem (vm.vmmUnmap p va).mem p := by
  rw [Vm.vmmUnmap, vmmGetPte_find h.tree hva]
  rcases Option.eq_none_or_eq_some (tableAt vm.mem p (ptPath va)) with hnone | ⟨t, ht⟩
  · rw [hnone]
    exact .refl vm.mem p
  · rw [ht]
    simp only [Option.map_some]
    split
    · exact kernelSame_store h hva ht 0
    · exact .refl vm.mem p

theorem vmmMap_kernelSame (h : TreeInv IsPath vm p) {va f : Nat} {flags : Pte} (hva : va < 2 ^ 47)
    (hf : f % pageSize = 0) : KernelSame vm.mem (vm.vmmMap p va f flags).2.mem p := by
  by_cases hmod : va % pageSize = 0
  · rcases vmmMap_cases h hva hmod hf flags with ⟨-, g, -⟩ | ⟨-, vm₁, t, g, ht, hstore⟩
    · exact g.kernelSame h
    · rw [hstore]
      exact (g.kernelSame h).trans (kernelSame_store g.inv hva ht _)
  · rw [Vm.vmmMap, if_pos (.inl hmod)]
    exact .refl vm.mem p

theorem dropPage_mem {addr : Nat} (h : vm.dropPage p addr = some vm') : vm'.mem = (vm.vmmUnmap p addr).mem := by
  rw [Vm.dropPage] at h
  split at h
  · obtain ⟨pmm, -, rfl⟩ := Option.map_eq_some_iff.1 h
    rfl
  · obtain rfl := Option.some.inj h
    rfl

theorem dropPages_kernelSame {vm₀ : Vm σ} (h₀ : SpaceInv vm₀ p) (ps : List Nat) : ∀ {vm : Vm σ} {gone : Nat → Prop},
    (∀ q ∈ ps, q * pageSize < 2 ^ 47) → Dropped vm₀ vm p gone →
    ps.foldlM (fun vm q => vm.dropPage p (q * pageSize)) vm = some vm' → KernelSame vm.mem vm'.mem p := by
  induction ps with
  | nil =>
    intro vm gone _ _ hrun
    obtain rfl := Option.some.inj hrun
    exact .refl vm.mem p
  | cons q ps ih =>
    intro vm gone hps hd hrun
    have hq := hps q List.mem_cons_self
    obtain ⟨vm₁, hone, hd₁⟩ := hd.dropPage h₀ hq
    rw [List.foldlM_cons, hone] at hrun
    have hsame : KernelSame vm.mem vm₁.mem p := by
      rw [dropPage_mem hone]
      exact vmmUnmap_kernelSame hd.tree hq
    exact hsame.trans (ih (fun r hr => hps r (List.mem_cons_of_mem q hr)) hd₁ hrun)

theorem vmmFreeUser_kernelSame (h : SpaceInv vm p) {addr size : Nat} (hend : addr + size ≤ vmmUserEnd)
    (hout : vm.vmmFreeUser p addr size = some vm') : KernelSame vm.mem vm'.mem p := by
  rw [vmmFreeUser_eq hend] at hout
  exact dropPages_kernelSame h _ (fun q hq => page_user hend (touches_of_rounded (mem_rangePages.1 hq)))
    (Dropped.refl h.tree) hout

end

/-- No space is made: at most a frame was looked for. -/
theorem Undisturbed.createNone {vm : Vm σ} {kernelPml4 : Nat} {L : Nat → Prop} (a : Apart vm kernelPml4 L) {kzalloc : Bool}
    (h0 : (vm.vmmCreateSpace kernelPml4 kzalloc).1 = 0) :
    Undisturbed vm (vm.vmmCreateSpace kernelPml4 kzalloc).2 kernelPml4 L := by
  rw [Vm.vmmCreateSpace] at h0 ⊢
  split
  · exact .refl vm
  next hk =>
    rw [if_neg hk] at h0
    simp only at h0 ⊢
    split
    · exact .alloc a
    next hf =>
      rw [if_neg hf] at h0
      exact absurd h0 hf

/-- **A step on the spaces** leaves the kernel's tables, and the kernel half of the spaces that stay. -/
theorem SpaceStep.kept {kernelPml4 : Nat} {s s' : Spaces σ} (hstep : SpaceStep kernelPml4 s s')
    (h : SpacesInv kernelPml4 s) : TablesKept s.vm.mem s'.vm.mem kernelPml4 ∧
      ∀ {p}, s.Live p → s'.Live p → KernelSame s.vm.mem s'.vm.mem p := by
  have hwithin : ∀ {vm' : Vm σ} {given : Nat → Prop} {space : Space}, space ∈ s.live → Within s.vm vm' space.pml4 given →
      KernelSame s.vm.mem vm'.mem space.pml4 → TablesKept s.vm.mem vm'.mem kernelPml4 ∧
        ∀ {p}, s.Live p → KernelSame s.vm.mem vm'.mem p := by
    intro vm' given space hspace w hsame
    obtain ⟨hk, hL⟩ := h.apart.within_kept ⟨space, hspace, rfl⟩ w
    refine ⟨hk, fun {p} hp => ?_⟩
    by_cases hne : space.pml4 = p
    · exact hne ▸ hsame
    · exact (hL hp hne).kernelSame
  have hrefl : ∀ p, TablesKept s.vm.mem s.vm.mem p := fun _ _ _ _ _ _ _ => rfl
  cases hstep with
  | create kzalloc =>
    by_cases h0 : (s.vm.vmmCreateSpace kernelPml4 kzalloc).1 = 0
    · have hu := Undisturbed.createNone h.apart h0
      exact ⟨hu.kernel, fun hp _ => (hu.kept hp).kernelSame⟩
    · obtain ⟨hk, hL⟩ := h.apart.create_kept h0
      exact ⟨hk, fun hp _ => (hL hp).kernelSame⟩
  | alloc =>
    have hu := Undisturbed.alloc h.apart
    exact ⟨hu.kernel, fun hp _ => (hu.kept hp).kernelSame⟩
  | free hf hout => exact ⟨hrefl _, fun _ _ => (hrefl _).kernelSame⟩
  | store hf hkernel hspaces ha =>
    obtain ⟨hk, hL⟩ := h.apart.agreeOff ha hf hkernel (by
      rintro p ⟨space, hmem, rfl⟩
      exact hspaces space hmem)
    exact ⟨hk, fun hp _ => (hL hp).kernelSame⟩
  | @map space va f flags hspace hva hf hpres hflags =>
    obtain ⟨-, hal, -⟩ := managed_spec hf.managed
    obtain ⟨hk, hL⟩ := hwithin hspace (.map (h.space hspace) hva hf.managed hf.inUse (hf.spaces hspace) hflags)
      (vmmMap_kernelSame (h.space hspace).tree (Nat.lt_trans hva (by decide)) hal)
    exact ⟨hk, fun hp _ => hL hp⟩
  | @unmap space va hspace hva =>
    have w : Within s.vm (s.vm.vmmUnmap space.pml4 va) space.pml4 fun _ => False := .unmap (h.space hspace) hva
    obtain ⟨hk, hL⟩ := hwithin hspace w (vmmUnmap_kernelSame (h.space hspace).tree (Nat.lt_trans hva (by decide)))
    exact ⟨hk, fun hp _ => hL hp⟩
  | @freeUser space addr size vm' hspace hend hout =>
    have w : Within s.vm vm' space.pml4 fun _ => False := .freeUser (h.space hspace) hend hout
    obtain ⟨hk, hL⟩ := hwithin hspace w (vmmFreeUser_kernelSame (h.space hspace) hend hout)
    exact ⟨hk, fun hp _ => hL hp⟩
  | createVma prot mapFlags hlive hend => exact ⟨hrefl _, fun _ _ => (hrefl _).kernelSame⟩
  | @destroy before space after blocks vm' calls hlive hrefs hout =>
    have hmem : space ∈ s.live := hlive ▸ List.mem_append_right _ List.mem_cons_self
    rw [vmmDestroySpace_last hrefs, Option.bind_eq_some_iff] at hout
    obtain ⟨out, hframes, hblock⟩ := hout
    obtain rfl := Option.some.inj (Option.ite_none_right_eq_some.1 hblock).2
    obtain ⟨vm₁, calls₁, hrun, hd⟩ :=
      destroyFrames_spec (h.space hmem) (fun v hv => h.vmas hmem hv) (destroyFrames_headed hframes)
    obtain ⟨rfl, rfl⟩ := Prod.mk.inj (Option.some.inj (hrun.symm.trans hframes))
    obtain ⟨hk, hL⟩ := h.apart.destroy_kept ⟨space, hmem, rfl⟩ hd
    refine ⟨hk, fun {p} hp hp' => (hL hp ?_).kernelSame⟩
    -- the space that is gone is none of those that stay
    obtain ⟨other, hother, rfl⟩ := hp'
    have hnodup := h.nodup
    rw [hlive, List.map_append, List.map_cons, List.nodup_middle, List.nodup_cons, ← List.map_append] at hnodup
    intro heq
    apply hnodup.1
    rw [heq]
    exact List.mem_map_of_mem hother

/-! ## `vmm_protect`

It rewrites entries in place, with the frames that they had.
-/

section

variable {vm : Vm σ} {p addr size prot : Nat}

theorem protectPage_kernelSame (h : TreeInv IsPath vm p) {q : Nat} (hq : q * pageSize < 2 ^ 47) :
    KernelSame vm.mem (vm.protectPage p (q * pageSize) prot).mem p := by
  rw [Vm.protectPage, vmmGetPte_find h.tree hq]
  rcases Option.eq_none_or_eq_some (tableAt vm.mem p (ptPath (q * pageSize))) with hnone | ⟨t, ht⟩
  · rw [hnone]
    exact .refl vm.mem p
  · rw [ht]
    simp only [Option.map_some]
    split
    · exact kernelSame_store h hq ht _
    · exact .refl vm.mem p

theorem protectPages_kernelSame {vm₀ : Vm σ} (ps : List Nat) : ∀ {vm : Vm σ} {done : Nat → Prop},
    Protected vm₀ vm p prot done → (∀ q ∈ ps, q * pageSize < 2 ^ 47 ∧ ¬done q) → ps.Nodup →
    KernelSame vm.mem (ps.foldl (fun vm q => vm.protectPage p (q * pageSize) prot) vm).mem p := by
  induction ps with
  | nil => exact fun {vm} _ _ _ _ => .refl vm.mem p
  | cons q ps ih =>
    intro vm done h hps hnodup
    obtain ⟨hnot, hnodup⟩ := List.nodup_cons.1 hnodup
    obtain ⟨hq, hnew⟩ := hps q List.mem_cons_self
    rw [List.foldl_cons]
    refine (protectPage_kernelSame h.tree hq).trans (ih (h.protectPage hq hnew) (fun r hr => ?_) hnodup)
    obtain ⟨hlt, hd⟩ := hps r (List.mem_cons_of_mem q hr)
    refine ⟨hlt, ?_⟩
    rintro (hd' | rfl)
    · exact hd hd'
    · exact hnot hr

theorem vmmProtect_kernelSame (h : SpaceInv vm p) (hend : addr + size ≤ vmmUserEnd) :
    KernelSame vm.mem (vm.vmmProtect p addr size prot).mem p := by
  rw [vmmProtect_eq hend]
  exact protectPages_kernelSame (rangePages addr size) (.refl h.tree)
    (fun q hq => ⟨page_user hend (touches_of_rounded (mem_rangePages.1 hq)), not_false⟩) List.nodup_range'

/-- **`vmm_protect`** moves no page and no table. -/
theorem Within.protect {given : Nat → Prop} (h : SpaceInv vm p) (hend : addr + size ≤ vmmUserEnd) :
    Within vm (vm.vmmProtect p addr size prot) p given := by
  have hp := @vmmProtect_protected σ _ vm p addr size prot h hend
  have huser : UserTree IsUser vm.mem p := ⟨h.tree.tree.aligned, fun hq hr => h.tree.tree.unique hq hr.1, h.tree.tree.noHuge⟩
  have hsame : ∀ {va}, va < 2 ^ 47 → vmmVirtToPhys (vm.vmmProtect p addr size prot).mem p va = vmmVirtToPhys vm.mem p va :=
    fun hva => (vmmProtect_refreshed vm p addr size prot).virtToPhys_eq huser hva
  have hmaps : ∀ {q f}, Maps (vm.vmmProtect p addr size prot).mem p q f → Maps vm.mem p q f :=
    fun ⟨hq, h0, heq⟩ => ⟨hq, h0, (hsame hq).symm.trans heq⟩
  exact {
    space := {
      tree := hp.tree
      noZero := fun q hq hmap o ho => by
        rw [hsame (page_lt hq ho)]
        rw [vmmIsMapped, hsame hq] at hmap
        exact h.noZero q hq hmap o ho
      used := fun hm => by
        obtain ⟨hused, hun⟩ := h.used (hmaps hm)
        refine ⟨?_, fun r hr ht => hun r hr ((hp.tables hr).symm.trans ht)⟩
        rw [hp.pmm]
        exact hused
      inj := fun hm hm' => h.inj (hmaps hm) (hmaps hm') }
    tables := fun hq ht => .inl ((hp.tables hq).symm.trans ht)
    pages := fun hm => .inl (hmaps hm)
    outside := hp.outside
    free := fun hf => .inl (hp.pmm ▸ hf)
    managed := by rw [hp.pmm] }

end

/-! ## Runs

From `heap_init` on, in any order.
-/

/-- The kernel heap, with the machine and the kernel's PML4, and the spaces that were made and not destroyed yet. -/
structure KernelSys (σ : Type) where
  heap : KHeap σ
  live : List Space

/-- The spaces without the heap. -/
def KernelSys.spaces (s : KernelSys σ) : Spaces σ := ⟨s.heap.vm, s.live⟩

/-- What can happen: a step on the spaces; a `vmm_clone_space`; the heap grows, through `heap_grow` or `slab_cache_grow`,
    below `heapTop`; or its blocks and objects change in any other way. -/
inductive KernelStep (kernelPml4 : Nat) (s : KernelSys σ) : KernelSys σ → Prop
  | space {t} (h : SpaceStep kernelPml4 s.spaces t) : KernelStep kernelPml4 s ⟨{ s.heap with vm := t.vm }, t.live⟩
  | protect {space addr size} (prot : Nat) (hspace : space ∈ s.live) (hend : addr + size ≤ vmmUserEnd) :
      KernelStep kernelPml4 s ⟨{ s.heap with vm := s.heap.vm.vmmProtect space.pml4 addr size prot }, s.live⟩
  | clone {src} (kzalloc : HeapAnswer) (kmalloc : Nat → HeapAnswer) (hsrc : src ∈ s.live) : KernelStep kernelPml4 s
      ⟨{ s.heap with vm := (s.heap.vm.vmmCloneSpace kernelPml4 src kzalloc kmalloc).2 },
        s.live ++ (s.heap.vm.vmmCloneSpace kernelPml4 src kzalloc kmalloc).1.toList⟩
  | heapGrow {need n ok t} (hg : s.heap.heapGrow need = some (ok, t)) (hn : KHeap.pagesFor need = n)
      (hbelow : KHeap.PagesBelow n s.heap) : KernelStep kernelPml4 s ⟨t, s.live⟩
  | slabCacheGrow {i t} (hg : s.heap.slabCacheGrow i = some t)
      (hbelow : s.heap.vm.alloc.1 ≠ 0 → s.heap.heap.slabNext < KHeap.heapTop) : KernelStep kernelPml4 s ⟨t, s.live⟩
  | blocks {heap} (hend : heap.heapEnd = s.heap.heap.heapEnd) (hslab : heap.slabVirt = s.heap.heap.slabVirt) :
      KernelStep kernelPml4 s ⟨{ s.heap with heap }, s.live⟩

/-- The states from a `heap_init` that did not fault. -/
inductive KernelReach (kernelPml4 : Nat) : KernelSys σ → Prop
  | init {mem vm t} (h : KernelReady vm kernelPml4) (hinit : KHeap.heapInit mem vm kernelPml4 = some t) :
      KernelReach kernelPml4 ⟨t, []⟩
  | step {s s'} (h : KernelReach kernelPml4 s) (hstep : KernelStep kernelPml4 s s') : KernelReach kernelPml4 s'

/-- The invariant, as far as it is about the spaces: the heap's entry of the kernel's PML4 is present, and the upper
    halves of all spaces are the kernel's. -/
structure HalfInv (kernelPml4 : Nat) (s : Spaces σ) : Prop where
  ready : KernelReady s.vm kernelPml4
  slot : isPresent (entry s.vm.mem kernelPml4 heapSlot) = true
  spaces : SpacesInv kernelPml4 s
  created {space v} : space ∈ s.live → v ∈ space.vmas → CreatedVma v
  shares {p} : s.Live p → SharesKernel s.vm.mem kernelPml4 p

namespace HalfInv

variable {kernelPml4 : Nat} {s s' : Spaces σ}

/-- The spaces that are there after a step were there before, but one that was just made. -/
theorem liveStep (hstep : SpaceStep kernelPml4 s s') {p : Nat} (hp : s'.Live p) : s.Live p ∨
    ∃ kzalloc, (s.vm.vmmCreateSpace kernelPml4 kzalloc).1 ≠ 0 ∧ p = (s.vm.vmmCreateSpace kernelPml4 kzalloc).1 ∧
      s'.vm = (s.vm.vmmCreateSpace kernelPml4 kzalloc).2 := by
  obtain ⟨space, hspace, rfl⟩ := hp
  cases hstep with
  | create kzalloc =>
    simp only at hspace
    split at hspace
    · exact .inl ⟨space, hspace, rfl⟩
    next h0 =>
      rcases List.mem_append.1 hspace with hspace | hlast
      · exact .inl ⟨space, hspace, rfl⟩
      · rw [List.mem_singleton.1 hlast]
        exact .inr ⟨kzalloc, h0, rfl, rfl⟩
  | alloc => exact .inl ⟨space, hspace, rfl⟩
  | free hf hout => exact .inl ⟨space, hspace, rfl⟩
  | store hf hkernel hspaces ha => exact .inl ⟨space, hspace, rfl⟩
  | map hspace' hva hf hpres hflags => exact .inl ⟨space, hspace, rfl⟩
  | unmap hspace' hva => exact .inl ⟨space, hspace, rfl⟩
  | freeUser hspace' hend hout => exact .inl ⟨space, hspace, rfl⟩
  | @createVma before space' after start size prot mapFlags hlive hend =>
    rcases List.mem_append.1 hspace with hspace | hspace
    · exact .inl ⟨space, hlive ▸ List.mem_append_left _ hspace, rfl⟩
    · rcases List.mem_cons.1 hspace with rfl | hspace
      · exact .inl ⟨space', hlive ▸ List.mem_append_right _ List.mem_cons_self, rfl⟩
      · exact .inl ⟨space, hlive ▸ List.mem_append_right _ (List.mem_cons_of_mem _ hspace), rfl⟩
  | @destroy before space' after blocks vm' calls hlive hrefs hout =>
    rcases List.mem_append.1 hspace with hspace | hspace
    · exact .inl ⟨space, hlive ▸ List.mem_append_left _ hspace, rfl⟩
    · exact .inl ⟨space, hlive ▸ List.mem_append_right _ (List.mem_cons_of_mem _ hspace), rfl⟩

/-- **Every step on the spaces** keeps the invariant. -/
theorem step (h : HalfInv kernelPml4 s) (hstep : SpaceStep kernelPml4 s s') : HalfInv kernelPml4 s' := by
  obtain ⟨hk, hsame⟩ := hstep.kept h.spaces
  have hspaces := h.spaces.step hstep
  exact {
    ready := h.ready.kept hk hspaces.apart.kernel
    slot := by rw [hk.entry_eq isUser_nil.1 rfl (by decide), h.slot]
    spaces := hspaces
    created := hstep.created h.created
    shares := fun {p} hp => by
      rcases liveStep hstep hp with hlive | ⟨kzalloc, h0, rfl, hvm⟩
      · exact (h.shares hlive).kept hk (hsame hlive hp)
      · -- the upper half of a new PML4 is a copy
        obtain ⟨hf, heq⟩ := vmmCreateSpace_eq h0
        obtain ⟨-, -, hcopy⟩ := newSpace_mem ⟨h.ready.space.aligned, fun hq ht => h.ready.space.used hq.1 ht⟩ hf rfl
        intro i hlo hi
        rw [hk.entry_eq isUser_nil.1 rfl hi, hvm, heq]
        exact hcopy i hlo hi }

/-- The pages of a range get other flags. -/
theorem protect (h : HalfInv kernelPml4 s) {space : Space} (hspace : space ∈ s.live) {addr size : Nat} (prot : Nat)
    (hend : addr + size ≤ vmmUserEnd) :
    HalfInv kernelPml4 { s with vm := s.vm.vmmProtect space.pml4 addr size prot } := by
  have w : Within s.vm (s.vm.vmmProtect space.pml4 addr size prot) space.pml4 fun _ => False :=
    .protect (h.spaces.space hspace) hend
  obtain ⟨hk, hL⟩ := h.spaces.apart.within_kept ⟨space, hspace, rfl⟩ w
  have hspaces := h.spaces.withVm (h.spaces.apart.within ⟨space, hspace, rfl⟩ w fun _ hf => hf.elim)
  exact {
    ready := h.ready.kept hk hspaces.apart.kernel
    slot := by rw [hk.entry_eq isUser_nil.1 rfl (by decide), h.slot]
    spaces := hspaces
    created := h.created
    shares := fun {p} hp => by
      refine (h.shares hp).kept hk ?_
      by_cases hne : space.pml4 = p
      · exact hne ▸ vmmProtect_kernelSame (h.spaces.space hspace) hend
      · exact (hL hp hne).kernelSame }

/-- The heap grew. -/
theorem heapGrew (h : HalfInv kernelPml4 s) {vm : Vm σ} (g : HeapGrew s.vm vm kernelPml4) :
    HalfInv kernelPml4 { s with vm } where
  ready := g.ready
  slot := by rw [g.top (by decide) (.inr h.slot), h.slot]
  spaces := h.spaces.withVm (h.spaces.apart.heapGrew g h.shares h.slot)
  created := h.created
  shares hp := h.spaces.apart.heap_shares g hp (h.shares hp) h.slot

end HalfInv

/-! ## `vmm_clone_space`, in single steps

A space is made; each page is a frame that is taken, filled and mapped; the VMAs are entered. The heap takes frames in
between.
-/

namespace HalfInv

variable {kernelPml4 : Nat} {vm : Vm σ} {live : List Space}

theorem heapTake (n : Nat) : ∀ {vm : Vm σ}, HalfInv kernelPml4 ⟨vm, live⟩ → HalfInv kernelPml4 ⟨vm.heapTake n, live⟩ := by
  induction n with
  | zero => exact fun h => h
  | succ n ih => exact fun h => ih (h.step .alloc)

/-- One page: a frame is taken, filled and mapped. -/
theorem clonePage (h : HalfInv kernelPml4 ⟨vm, live⟩) {dst : Space} (hdst : dst ∈ live) {src addr : Nat} {flags : Pte}
    (haddr : addr < vmmUserEnd) (hpres : isPresent flags = true) (hflags : flags &&& 0x000FFFFFFFFFF000#64 = 0#64) :
    HalfInv kernelPml4 ⟨vm.clonePage src dst.pml4 flags addr, live⟩ := by
  rw [Vm.clonePage]
  simp only
  split
  · exact h
  · by_cases h0 : vm.alloc.1 = 0
    · rw [if_pos h0]
      exact h.step .alloc
    · rw [if_neg h0]
      have hlen : (vm.alloc.2.mem.read (vmmVirtToPhys vm.mem src addr) pageSize).length = pageSize := ByteMem.length_read _
      generalize vm.alloc.2.mem.read (vmmVirtToPhys vm.mem src addr) pageSize = bs at *
      have hloose := h.spaces.loose h0
      obtain ⟨-, hal, -⟩ := managed_spec hloose.managed
      have h₁ : HalfInv kernelPml4 ⟨vm.alloc.2, live⟩ := h.step .alloc
      have ha : AgreeOff vm.alloc.1 vm.alloc.2.mem (vm.alloc.2.mem.write vm.alloc.1 bs) :=
        agreeOff_write (Nat.le_refl _) (by rw [hlen])
      have hstore : SpaceStep kernelPml4 ⟨vm.alloc.2, live⟩
          ⟨{ vm.alloc.2 with mem := vm.alloc.2.mem.write vm.alloc.1 bs }, live⟩ :=
        .store hal hloose.kernel (fun space hspace q hq ht => hloose.spaces hspace (.inl ⟨q, hq, ht⟩)) ha
      -- the frame is in no space before it is mapped
      have b := h.spaces.apart.fill h0 hlen
      exact (h₁.step hstore).step (.map hdst haddr ⟨b.managed, fun hf => (b.free.1 hf).2 rfl, b.kernel,
        fun hspace => b.out ⟨_, hspace, rfl⟩⟩ hpres hflags)

/-- The pages of a VMA. -/
theorem cloneVma (h : HalfInv kernelPml4 ⟨vm, live⟩) {dst : Space} (hdst : dst ∈ live) {src : Nat} {v : Vma}
    (hv : CreatedVma v) : HalfInv kernelPml4 ⟨vm.cloneVma src dst.pml4 v, live⟩ := by
  obtain ⟨hv, hpres, hflags⟩ := hv.spec
  have huser : ∀ i ∈ List.range v.count, v.start + i * pageSize < vmmUserEnd := by
    intro i hi
    have hlt := List.mem_range.1 hi
    have hbelow := hv.below
    rw [Vma.count, pageSize] at hlt
    rw [pageSize]
    omega
  rw [Vm.cloneVma]
  generalize List.range v.count = is at huser
  induction is generalizing vm with
  | nil => exact h
  | cons i is ih =>
    rw [List.foldl_cons]
    exact ih (h.clonePage hdst (huser i List.mem_cons_self) hpres hflags) fun j hj => huser j (List.mem_cons_of_mem i hj)

/-- All VMAs. -/
theorem cloneVmas (h : HalfInv kernelPml4 ⟨vm, live⟩) {dst : Space} (hdst : dst ∈ live) {src : Nat}
    {kmalloc : Nat → HeapAnswer} {vmas : List Vma} (hvmas : ∀ v ∈ vmas, CreatedVma v) :
    HalfInv kernelPml4 ⟨(vm.cloneVmas src dst.pml4 kmalloc vmas).1, live⟩ := by
  have hall : ∀ v ∈ vmas.zipIdx, CreatedVma v.1 := fun v hv => hvmas _ ((List.mem_zipIdx' hv).2 ▸ List.getElem_mem _)
  rw [cloneVmas_eq]
  generalize vmas.zipIdx = vs at hall
  induction vs generalizing vm with
  | nil => exact h
  | cons v vs ih =>
    rw [List.foldl_cons]
    exact ih ((h.cloneVma hdst (hall v List.mem_cons_self)).heapTake _) fun w hw => hall w (List.mem_cons_of_mem v hw)

/-- The last space is given its VMAs. -/
theorem withVmas {pml4 refs : Nat} (h : HalfInv kernelPml4 ⟨vm, live ++ [⟨pml4, refs, []⟩]⟩) {vmas : List Vma}
    (hvmas : ∀ v ∈ vmas, CreatedVma v) : HalfInv kernelPml4 ⟨vm, live ++ [⟨pml4, refs, vmas⟩]⟩ := by
  have hlive : ∀ {p}, Spaces.Live ⟨vm, live ++ [⟨pml4, refs, vmas⟩]⟩ p →
      Spaces.Live ⟨vm, live ++ [⟨pml4, refs, []⟩]⟩ p := by
    rintro p ⟨space, hspace, rfl⟩
    rcases List.mem_append.1 hspace with hspace | hlast
    · exact ⟨space, List.mem_append_left _ hspace, rfl⟩
    · rw [List.mem_singleton.1 hlast]
      exact ⟨_, List.mem_append_right _ (List.mem_singleton_self _), rfl⟩
  have hcreated : ∀ {space v}, space ∈ live ++ [⟨pml4, refs, vmas⟩] → v ∈ space.vmas → CreatedVma v := by
    intro space v hspace hv
    rcases List.mem_append.1 hspace with hspace | hlast
    · exact h.created (List.mem_append_left _ hspace) hv
    · rw [List.mem_singleton.1 hlast] at hv
      exact hvmas v hv
  exact {
    ready := h.ready
    slot := h.slot
    spaces := {
      apart := h.spaces.apart.mono fun _ => hlive
      nodup := by
        have hnodup := h.spaces.nodup
        rw [List.map_append] at hnodup ⊢
        exact hnodup
      vmas := fun hspace hv => (hcreated hspace hv).spec.1 }
    created := hcreated
    shares := fun hp => h.shares (hlive hp) }

/-- **`vmm_clone_space`**, whatever the heap answers. -/
theorem clone (h : HalfInv kernelPml4 ⟨vm, live⟩) {src : Space} (hsrc : src ∈ live) (kzalloc : HeapAnswer)
    (kmalloc : Nat → HeapAnswer) : HalfInv kernelPml4 ⟨(vm.vmmCloneSpace kernelPml4 src kzalloc kmalloc).2,
      live ++ (vm.vmmCloneSpace kernelPml4 src kzalloc kmalloc).1.toList⟩ := by
  have h₁ := (h.heapTake kzalloc.frames).step (.create kzalloc.ok)
  rw [Vm.vmmCloneSpace]
  generalize vm.heapTake kzalloc.frames = vm₁ at *
  dsimp only at *
  by_cases h0 : (vm₁.vmmCreateSpace kernelPml4 kzalloc.ok).1 = 0
  · rw [if_pos h0] at h₁
    simp only [if_pos h0, Option.toList_none, List.append_nil]
    exact h₁
  · rw [if_neg h0] at h₁
    simp only [if_neg h0, Option.toList_some]
    have hvmas : ∀ v ∈ src.vmas, CreatedVma v := fun v hv => h.created hsrc hv
    have hlast : (⟨(vm₁.vmmCreateSpace kernelPml4 kzalloc.ok).1, 1, []⟩ : Space) ∈
        live ++ [⟨(vm₁.vmmCreateSpace kernelPml4 kzalloc.ok).1, 1, []⟩] :=
      List.mem_append_right live (List.mem_singleton_self _)
    refine (h₁.cloneVmas hlast hvmas).withVmas fun v hv => ?_
    rw [cloneVmas_eq] at hv
    exact hvmas v (keptVmas_subset hv)

end HalfInv

/-! ## All reachable states

The invariant of the spaces, with the place of the heap.
-/

/-- The invariant of all states. -/
structure KernelInv (kernelPml4 : Nat) (s : KernelSys σ) : Prop where
  half : HalfInv kernelPml4 s.spaces
  pml4 : s.heap.pml4 = kernelPml4
  heapEnd : heapVirtBase ≤ s.heap.heap.heapEnd
  slabNext : heapVirtBase ≤ s.heap.heap.slabNext

namespace KernelInv

variable {kernelPml4 : Nat} {s s' : KernelSys σ}

/-- **After `heap_init`.** The page that is mapped lies under the entry of the heap, which is present therefore. -/
theorem init {mem : Words} {vm : Vm σ} {t : KHeap σ} (h : KernelReady vm kernelPml4)
    (hinit : KHeap.heapInit mem vm kernelPml4 = some t) : KernelInv kernelPml4 ⟨t, []⟩ := by
  obtain ⟨g, hslot⟩ := KHeap.heapInit_grows h hinit
  have hslab : t.heap.slabNext = heapVirtBase + heapInitSize := g.slabNext
  exact {
    half := {
      ready := g.tables.ready
      slot := hslot
      spaces := ⟨.none g.tables.ready.space fun p ⟨_, hmem, _⟩ => List.not_mem_nil hmem, List.nodup_nil, nofun⟩
      created := nofun
      shares := fun ⟨_, hmem, _⟩ => absurd hmem List.not_mem_nil }
    pml4 := g.pml4
    heapEnd := g.heapEnd
    slabNext := Nat.le_trans (Nat.le_add_right _ _) (Nat.le_of_eq hslab.symm) }

/-- **Every step** keeps the invariant. -/
theorem step (h : KernelInv kernelPml4 s) (hstep : KernelStep kernelPml4 s s') : KernelInv kernelPml4 s' := by
  have hready : KernelReady s.heap.vm s.heap.pml4 := h.pml4.symm ▸ h.half.ready
  cases hstep with
  | space hstep => exact ⟨h.half.step hstep, h.pml4, h.heapEnd, h.slabNext⟩
  | protect prot hspace hend => exact ⟨h.half.protect hspace prot hend, h.pml4, h.heapEnd, h.slabNext⟩
  | clone kzalloc kmalloc hsrc => exact ⟨h.half.clone hsrc kzalloc kmalloc, h.pml4, h.heapEnd, h.slabNext⟩
  | heapGrow hg hn hbelow =>
    subst hn
    have g := KHeap.heapGrow_grows hready h.heapEnd hbelow hg
    exact ⟨h.half.heapGrew (h.pml4 ▸ g.tables), g.pml4.trans h.pml4, g.heapEnd,
      Nat.le_trans h.slabNext (Nat.le_of_eq g.slabNext.symm)⟩
  | slabCacheGrow hg hbelow =>
    obtain ⟨g, hpml4, hend, hslab⟩ := KHeap.slabCacheGrow_grows hready h.slabNext hbelow hg
    exact ⟨h.half.heapGrew (h.pml4 ▸ g), hpml4.trans h.pml4, Nat.le_trans h.heapEnd (Nat.le_of_eq hend.symm), hslab⟩
  | blocks hend hslab =>
    refine ⟨h.half, h.pml4, Nat.le_trans h.heapEnd (Nat.le_of_eq hend.symm), ?_⟩
    rw [Heap.slabNext, hslab]
    exact h.slabNext

/-- **Every state that is reached** has it. -/
theorem reach (h : KernelReach kernelPml4 s) : KernelInv kernelPml4 s := by
  induction h with
  | init h hinit => exact .init h hinit
  | step _ hstep ih => exact ih.step hstep

end KernelInv

/-- **Kernel mappings are the same in all address spaces**: in every state that is reached, each address from
    `0xFFFF800000000000` on translates through the PML4 of a space as through the kernel's, and by the same tables. -/
theorem kernel_half_shared (kernelPml4 : Nat) (s : KernelSys σ) (h : KernelReach kernelPml4 s) (space : Space)
    (hspace : space ∈ s.live) (va : Nat) (hva : 0xFFFF800000000000 ≤ va) (hlt : va < 2 ^ 64) :
    vmmVirtToPhys s.heap.vm.mem space.pml4 va = vmmVirtToPhys s.heap.vm.mem kernelPml4 va ∧
      entry s.heap.vm.mem space.pml4 (pml4Idx va) = entry s.heap.vm.mem kernelPml4 (pml4Idx va) := by
  have hshares := (KernelInv.reach h).half.shares ⟨space, hspace, rfl⟩
  have hidx : 256 ≤ pml4Idx va ∧ pml4Idx va < 512 := by
    unfold pml4Idx
    omega
  exact ⟨hshares.virtToPhys_eq hidx.1, hshares _ hidx.1 hidx.2⟩

/-- A machine of nine frames, four of them free: what the first page of the heap takes. -/
def nineFrames : Vm SoundPmm where
  mem := fun _ => 0
  pmm := ⟨{ bitmap := fun _ => 0x1C3#64, totalPages := 9, freePages := 4#64, usedPages := 5#64, allocHint := 0 },
    fun _ => by decide, by decide, ⟨by decide, by decide +kernel, by decide, by decide⟩⟩

/-- An empty PML4 has no table behind it. -/
theorem nineFrames_tables {q : List Nat} {t : Nat} (ht : tableAt nineFrames.mem 0x1000 q = some t) :
    q = [] ∧ t = 0x1000 := by
  rcases List.eq_nil_or_concat q with rfl | ⟨r, i, rfl⟩
  · exact ⟨rfl, (Option.some.inj ht).symm⟩
  · rw [List.concat_eq_append] at ht
    obtain ⟨t', -, hnext⟩ := tableAt_prefix ht
    have hzero : entry nineFrames.mem t' i = 0#64 := ByteMem.word_zero _ fun _ _ => rfl
    rw [hzero, nextOf_absent isPresent_zero] at hnext
    cases hnext

theorem nineFrames_ready : KernelReady nineFrames 0x1000 where
  space := ⟨by decide, fun _ ht hfree => by
    rw [(nineFrames_tables ht).2] at hfree
    exact absurd hfree.2.2 (by decide)⟩
  level _ _ hp hq := by rw [(nineFrames_tables hp).1, (nineFrames_tables hq).1]
  small _ hnil _ _ ht := absurd (nineFrames_tables ht).1 hnil

/-- Three frames that others have given back, a space, and a slab page after it. -/
theorem nineFrames_run : ∃ t p₁ p₂ p₃ u, KHeap.heapInit (fun _ => 0) nineFrames 0x1000 = some t ∧
    pmmFree t.vm.pmm 0x6000 = some p₁ ∧ pmmFree p₁ 0x7000 = some p₂ ∧ pmmFree p₂ 0x8000 = some p₃ ∧
    (({ t.vm with pmm := p₃ } : Vm SoundPmm).vmmCreateSpace 0x1000 true).1 = 0x6000 ∧
    ({ t with vm := (({ t.vm with pmm := p₃ } : Vm SoundPmm).vmmCreateSpace 0x1000 true).2 } :
      KHeap SoundPmm).slabCacheGrow 0 = some u ∧
    vmmVirtToPhys u.vm.mem 0x1000 (heapVirtBase + heapInitSize) = 0x7000 := by
  have hrun : (do
      let t ← KHeap.heapInit (fun _ => 0) nineFrames 0x1000
      let p₁ ← pmmFree t.vm.pmm 0x6000
      let p₂ ← pmmFree p₁ 0x7000
      let p₃ ← pmmFree p₂ 0x8000
      let out := ({ t.vm with pmm := p₃ } : Vm SoundPmm).vmmCreateSpace 0x1000 true
      let u ← ({ t with vm := out.2 } : KHeap SoundPmm).slabCacheGrow 0
      some (out.1, vmmVirtToPhys u.vm.mem 0x1000 (heapVirtBase + heapInitSize))) = some (0x6000, 0x7000) := by
    decide +kernel
  obtain ⟨t, ht, hrun⟩ := Option.bind_eq_some_iff.1 hrun
  obtain ⟨p₁, hp₁, hrun⟩ := Option.bind_eq_some_iff.1 hrun
  obtain ⟨p₂, hp₂, hrun⟩ := Option.bind_eq_some_iff.1 hrun
  obtain ⟨p₃, hp₃, hrun⟩ := Option.bind_eq_some_iff.1 hrun
  obtain ⟨u, hu, hrun⟩ := Option.bind_eq_some_iff.1 hrun
  obtain ⟨hroot, hphys⟩ := Prod.mk.inj (Option.some.inj hrun)
  exact ⟨t, p₁, p₂, p₃, u, ht, hp₁, hp₂, hp₃, hroot, hu, hphys⟩

/-- A slab page that is mapped after the space was made is seen in the space. -/
theorem kernel_half_shared_slab : ∃ (s : KernelSys SoundPmm) (space : Space), KernelReach 0x1000 s ∧ space ∈ s.live ∧
    vmmVirtToPhys s.heap.vm.mem 0x1000 0xFFFFF00000400000 = 0x7000 ∧
    vmmVirtToPhys s.heap.vm.mem space.pml4 0xFFFFF00000400000 = 0x7000 := by
  obtain ⟨t, p₁, p₂, p₃, u, ht, hp₁, hp₂, hp₃, hroot, hu, hphys⟩ := nineFrames_run
  obtain ⟨g, -⟩ := KHeap.heapInit_grows nineFrames_ready ht
  -- a frame that was in use from the beginning and is given back
  have hfree : ∀ {f : Nat} {pmm pmm' : SoundPmm}, KernelReach 0x1000 ⟨{ t with vm := { t.vm with pmm } }, []⟩ →
      f ≠ 0x1000 → ¬Free nineFrames.pmm f → (∀ h, Managed pmm h ↔ Managed nineFrames.pmm h) → Managed nineFrames.pmm f →
      pmmFree pmm f = some pmm' → KernelReach 0x1000 ⟨{ t with vm := { t.vm with pmm := pmm' } }, []⟩ ∧
        ∀ h, Managed pmm' h ↔ Managed nineFrames.pmm h := by
    intro f pmm pmm' hr hne hused hman hf hout
    refine ⟨hr.step (.space (.free ⟨(hman f).2 hf, fun hfr => ?_, fun q hq hqt => ?_,
      fun hs => absurd hs List.not_mem_nil⟩ hout)),
      fun h => ((free_some hout).1 h).trans (hman h)⟩
    · have hnone : pmmFree pmm f = none := free_none.2 hfr
      rw [hnone] at hout
      cases hout
    · rcases g.tables.new hq hqt with hold | hfresh
      · exact hne (nineFrames_tables hold).2
      · exact hused hfresh
  have hused : ∀ f ∈ [0x6000, 0x7000, 0x8000], f ≠ 0x1000 ∧ ¬Free nineFrames.pmm f ∧ Managed nineFrames.pmm f := by
    intro f hf
    simp only [List.mem_cons, List.not_mem_nil, or_false] at hf
    rcases hf with rfl | rfl | rfl <;>
      exact ⟨by decide, fun hfr => absurd hfr.2.2 (by decide), by decide, by decide, by decide⟩
  obtain ⟨hn₁, hu₁, hm₁⟩ := hused 0x6000 (by simp)
  obtain ⟨hn₂, hu₂, hm₂⟩ := hused 0x7000 (by simp)
  obtain ⟨hn₃, hu₃, hm₃⟩ := hused 0x8000 (by simp)
  obtain ⟨r₁, hman₁⟩ := hfree (.init nineFrames_ready ht) hn₁ hu₁ (fun _ => g.tables.managed) hm₁ hp₁
  obtain ⟨r₂, hman₂⟩ := hfree r₁ hn₂ hu₂ hman₁ hm₂ hp₂
  obtain ⟨r₃, -⟩ := hfree r₂ hn₃ hu₃ hman₂ hm₃ hp₃
  have r₄ := r₃.step (.space (.create true))
  simp only [KernelSys.spaces, hroot] at r₄
  rw [if_neg (by decide), List.nil_append] at r₄
  have hnext : t.heap.slabNext < KHeap.heapTop := by
    have hslab : t.heap.slabNext = heapVirtBase + heapInitSize := g.slabNext
    rw [hslab]
    decide
  have r₅ := r₄.step (.slabCacheGrow hu fun _ => hnext)
  have hva : heapVirtBase + heapInitSize = 0xFFFFF00000400000 := by decide
  rw [hva] at hphys
  exact ⟨_, ⟨0x6000, 1, []⟩, r₅, List.mem_singleton_self _, hphys,
    (kernel_half_shared 0x1000 _ r₅ _ (List.mem_singleton_self _) 0xFFFFF00000400000 (by decide) (by decide)).1.trans hphys⟩

end MyUnix.Mm
