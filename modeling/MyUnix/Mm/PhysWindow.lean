import MyUnix.Mm.DirectMap

/-!
# `Mm.PhysWindow` — the direct map up to `PHYS_MAP_END`

What `vmm_map_phys_huge` does to any set of page tables with nothing in the slots of the window, when its frames
suffice: page `k` of the window leads to page `k` of physical memory, and translation is the same everywhere else.

`WindowInv` is the invariant of the loop. Its `kind` names the tables that the loop made; an entry of one of them leads
to another or, in a page directory, to the page that its place stands for.

`Mm.DirectMap` follows the loop from boot, with its frames running out. Here the frames suffice and the page tables
are any, which makes the invariant one about each slot of the window alone: which directory page `k` goes through, and
what its entry is.
-/

namespace MyUnix.Mm

open Lib

/-- `PHYS_MAP_END`. -/
def physMapEnd : Nat := 0xFFFFFF0000000000

/-- A size rounded up to 2 MB. -/
def hugeRoundUp (size : Nat) : Nat := (size + (hugeSize - 1)) / hugeSize * hugeSize

variable {σ : Type} [PageAlloc σ]

/-- Every `pmm_alloc` in `n` rounds of `mapHuge` returns a frame. -/
def Vm.hugeServed (pml4 : Nat) (flags : Pte) : Nat → Nat → Nat → Vm σ → Bool
  | 0,     _,    _,    _  => true
  | n + 1, virt, phys, vm =>
    match vm.hugePd pml4 virt with
    | (none, _) => false
    | (some pd, vm) =>
      hugeServed pml4 flags n ((virt + hugeSize) % 2 ^ 64) ((phys + hugeSize) % 2 ^ 64)
        (vm.store (slot pd (pdIdx virt)) (BitVec.ofNat 64 phys ||| pteHuge ||| flags))

/-- Page tables that nothing was ever mapped through in the slots of the window. The PML4 is no other table, and no
    table is a free frame. -/
structure WindowFree (vm : Vm σ) (pml4 : Nat) : Prop where
  aligned : pml4 % pageSize = 0
  own {p} : IsPath p → p ≠ [] → tableAt vm.mem pml4 p ≠ some pml4
  used {p t} : IsPath p → tableAt vm.mem pml4 p = some t → ¬ PageAlloc.Free vm.pmm t
  empty {i} : 256 ≤ i → i ≤ 510 → isPresent (entry vm.mem pml4 i) = false

/-- What the entry `i` of a table of the window leads to. -/
def TableKind.windowChild : TableKind → Nat → Option TableKind
  | .pml4,   i => if 256 ≤ i ∧ i ≤ 510 then some (.pdpt i) else none
  | .pdpt i, j => some (.pd (i * 512 + j))
  | .pd _,   _ => none

/-- The entries of page directory number `u` are at `pd`. -/
def LeadsTo (m : ByteMem) (pml4 u pd : Nat) : Prop :=
  isPresent (entry m pml4 (u / 512)) = true ∧
    isPresent (entry m (pteAddr (entry m pml4 (u / 512))) (u % 512)) = true ∧
    pteAddr (entry m (pteAddr (entry m pml4 (u / 512))) (u % 512)) = pd

/-! ## The invariant of the loop

Before the first page, when a table is added, and when an entry of 2 MB is written.
-/

/-- The tables after `done` pages, from those of `vm₀`. -/
structure WindowInv (vm₀ vm : Vm σ) (pml4 done : Nat) (kind : Nat → Option TableKind) : Prop where
  frame : ∀ t k, kind t = some k → t % pageSize = 0 ∧ ¬ PageAlloc.Free vm.pmm t
  fresh : ∀ t k, kind t = some k → t ≠ pml4 → PageAlloc.Free vm₀.pmm t
  free  : ∀ f, PageAlloc.Free vm.pmm f → PageAlloc.Free vm₀.pmm f
  old   : ∀ t i, t % pageSize = 0 → i < 512 → ¬ PageAlloc.Free vm₀.pmm t → (t = pml4 → i < 256 ∨ 510 < i) →
    entry vm.mem t i = entry vm₀.mem t i
  root  : kind pml4 = some .pml4
  child : ∀ t k i c, kind t = some k → k.windowChild i = some c → i < 512 → isPresent (entry vm.mem t i) = true →
    isHuge (entry vm.mem t i) = false ∧ kind (pteAddr (entry vm.mem t i)) = some c
  leaf  : ∀ t u l, kind t = some (.pd u) → l < 512 → entry vm.mem t l = 0#64 ∨
    ∃ k < done, pdOf k = u ∧ k % 512 = l ∧ entry vm.mem t l = directEntry k
  there : ∀ k < done, ∃ pd, LeadsTo vm.mem pml4 (pdOf k) pd ∧ entry vm.mem pd (k % 512) = directEntry k

namespace WindowInv

variable {vm₀ vm vm' : Vm σ} {pml4 done t i f : Nat} {kind : Nat → Option TableKind} {k c : TableKind}

/-- Before the first page. -/
theorem start (h : WindowFree vm pml4) :
    WindowInv vm vm pml4 0 (Function.update (fun _ => none) pml4 (some .pml4)) := by
  have honly : ∀ t k, Function.update (fun _ => none) pml4 (some TableKind.pml4) t = some k → t = pml4 ∧ k = .pml4 := by
    intro t k hk
    by_cases ht : t = pml4
    · rw [ht, Function.update_self] at hk
      exact ⟨ht, (Option.some.inj hk).symm⟩
    · rw [Function.update_of_ne ht] at hk
      cases hk
  refine ⟨fun t k hk => ?_, fun t k hk hne => absurd (honly t k hk).1 hne, fun _ hf => hf, fun _ _ _ _ _ _ => rfl,
    Function.update_self _ _ _, fun t k i c hk hc _ hp => ?_, fun t u l hk _ => ?_, fun k hk => absurd hk (Nat.not_lt_zero k)⟩
  · obtain ⟨rfl, -⟩ := honly t k hk
    exact ⟨h.aligned, h.used ⟨by decide, by simp⟩ tableAt_nil⟩
  · obtain ⟨rfl, rfl⟩ := honly t k hk
    obtain ⟨hi, -⟩ := Option.ite_none_right_eq_some.mp hc
    rw [h.empty hi.1 hi.2] at hp
    cases hp
  · cases (honly t _ hk).2

/-- The directory of a page that is in place has its kind. -/
theorem kind_of_leadsTo (h : WindowInv vm₀ vm pml4 done kind) {u pd : Nat} (hu : 256 ≤ u / 512 ∧ u / 512 ≤ 510)
    (hl : LeadsTo vm.mem pml4 u pd) : isHuge (entry vm.mem (pteAddr (entry vm.mem pml4 (u / 512))) (u % 512)) = false ∧
      kind (pteAddr (entry vm.mem pml4 (u / 512))) = some (.pdpt (u / 512)) ∧ kind pd = some (.pd u) := by
  obtain ⟨htop, hmid, rfl⟩ := hl
  obtain ⟨-, hk⟩ := h.child _ _ _ _ h.root (if_pos hu) (by omega) htop
  obtain ⟨hsmall, hpd⟩ := h.child _ _ _ _ hk rfl (Nat.mod_lt _ (by decide)) hmid
  rw [Nat.div_add_mod'] at hpd
  exact ⟨hsmall, hk, hpd⟩

/-- What the loop has linked stays, where the entries of the tables above stay. -/
theorem leadsTo_keep (h : WindowInv vm₀ vm pml4 done kind) {u pd : Nat} (hu : 256 ≤ u / 512 ∧ u / 512 ≤ 510)
    (hl : LeadsTo vm.mem pml4 u pd) (hkeep : ∀ t k i c, kind t = some k → k.windowChild i = some c → i < 512 →
      isPresent (entry vm.mem t i) = true → entry vm'.mem t i = entry vm.mem t i) : LeadsTo vm'.mem pml4 u pd := by
  obtain ⟨-, hk, -⟩ := h.kind_of_leadsTo hu hl
  obtain ⟨htop, hmid, hpd⟩ := hl
  have htop' := hkeep _ _ _ _ h.root (if_pos hu) (by omega) htop
  have hmid' := hkeep _ _ _ _ hk rfl (Nat.mod_lt _ (by decide)) hmid
  rw [LeadsTo, htop', hmid']
  exact ⟨htop, hmid, hpd⟩

/-- The numbers of the page directories of the window. -/
theorem pdOf_window {n : Nat} (hn : n < 254 * 2 ^ 18) : 256 ≤ pdOf n / 512 ∧ pdOf n / 512 ≤ 510 := by
  rw [pdOf]
  omega

/-- A table is added. -/
theorem made (h : WindowInv vm₀ vm pml4 done kind) (hdone : done ≤ 254 * 2 ^ 18) (hk : kind t = some k)
    (hc : k.windowChild i = some c) (habs : isPresent (entry vm.mem t i) = false) (m : Made vm vm' t i f) :
    WindowInv vm₀ vm' pml4 done (Function.update kind f (some c)) := by
  have hpd : ∀ u, k ≠ .pd u := by
    rintro u rfl
    cases hc
  refine ⟨m.frames h.frame, fun t' k' hk' hne => ?_, fun g hg => h.free g ((m.free g).mp hg).1,
    fun t' j ht' hj hused hout => ?_, ?_, m.children h.frame h.child hk hc, fun t' u l hk' hl => ?_, fun n hn => ?_⟩
  · by_cases hf : t' = f
    · rw [hf]
      exact h.free f m.fresh
    · rw [Function.update_of_ne hf] at hk'
      exact h.fresh t' k' hk' hne
  · have hf : t' ≠ f := by
      rintro rfl
      exact hused (h.free t' m.fresh)
    refine (m.others t' j ht' hj hf fun he => ?_).trans (h.old t' j ht' hj hused hout)
    -- a table that was there before can only be the PML4, and its entry is one of the window
    obtain ⟨rfl, rfl⟩ := Prod.mk.inj he
    by_cases hroot : t' = pml4
    · rw [hroot, h.root] at hk
      obtain rfl := Option.some.inj hk
      obtain ⟨hi, -⟩ := Option.ite_none_right_eq_some.mp hc
      have hlow := hout hroot
      omega
    · exact hused (h.fresh t' k hk hroot)
  · rw [Function.update_of_ne (m.ne_new h.frame h.root)]
    exact h.root
  · rcases m.leaf h.frame hk hpd hk' hl with hzero | ⟨hk', hsame⟩
    · exact .inl hzero
    · rw [hsame]
      exact h.leaf t' u l hk' hl
  · obtain ⟨pd, hlead, he⟩ := h.there n hn
    have hu := pdOf_window (show n < 254 * 2 ^ 18 by omega)
    obtain ⟨-, -, hkind⟩ := h.kind_of_leadsTo hu hlead
    refine ⟨pd, h.leadsTo_keep hu hlead fun t' k' j _ hk' _ => m.keep h.frame habs hk', ?_⟩
    rw [m.keep h.frame habs hkind (Nat.mod_lt _ (by decide)) (by rw [he]; exact (directEntry_bits n).1), he]

/-- A page is written. -/
theorem store (h : WindowInv vm₀ vm pml4 done kind) (hdone : done < 254 * 2 ^ 18) (hk : kind t = some (.pd (pdOf done)))
    (hlead : LeadsTo vm.mem pml4 (pdOf done) t) :
    WindowInv vm₀ (vm.store (slot t (done % 512)) (directEntry done)) pml4 (done + 1) kind := by
  have hl : done % 512 < 512 := Nat.mod_lt _ (by decide)
  have hal := (h.frame t _ hk).1
  have hroot : t ≠ pml4 := by
    rintro rfl
    rw [h.root] at hk
    cases hk
  have hother : ∀ t' j, t' % pageSize = 0 → j < 512 → (t', j) ≠ (t, done % 512) →
      entry (vm.store (slot t (done % 512)) (directEntry done)).mem t' j = entry vm.mem t' j :=
    fun t' j ht' hj hs => entry_store _ ht' hal hj hl hs
  -- no page directory is another table
  have hup : ∀ t' k' j c', kind t' = some k' → k'.windowChild j = some c' → j < 512 →
      entry (vm.store (slot t (done % 512)) (directEntry done)).mem t' j = entry vm.mem t' j := by
    intro t' k' j c' hk' hc' hj
    refine hother t' j (h.frame t' k' hk').1 hj fun he => ?_
    obtain ⟨rfl, rfl⟩ := Prod.mk.inj he
    obtain rfl := Option.some.inj (hk.symm.trans hk')
    cases hc'
  have hkeep : ∀ n < 254 * 2 ^ 18, ∀ pd, LeadsTo vm.mem pml4 (pdOf n) pd →
      LeadsTo (vm.store (slot t (done % 512)) (directEntry done)).mem pml4 (pdOf n) pd :=
    fun n hn pd hl => h.leadsTo_keep (pdOf_window hn) hl fun t' k' j c' hk' hc' hj _ => hup t' k' j c' hk' hc' hj
  refine ⟨h.frame, h.fresh, h.free, fun t' j ht' hj hused hout => ?_, h.root, fun t' k' j c' hk' hc' hj hp => ?_,
    fun t' u l hk' hl' => ?_, fun n hn => ?_⟩
  · refine (hother t' j ht' hj fun he => ?_).trans (h.old t' j ht' hj hused hout)
    rw [(Prod.mk.inj he).1] at hused
    exact hused (h.fresh t _ hk hroot)
  · rw [hup t' k' j c' hk' hc' hj] at hp ⊢
    exact h.child t' k' j c' hk' hc' hj hp
  · by_cases hs : (t', l) = (t, done % 512)
    · obtain ⟨rfl, rfl⟩ := Prod.mk.inj hs
      obtain rfl := TableKind.pd.inj (Option.some.inj (hk.symm.trans hk'))
      exact .inr ⟨done, Nat.lt_succ_self done, rfl, rfl, entry_store_same _⟩
    · rw [hother t' l (h.frame t' _ hk').1 hl' hs]
      refine (h.leaf t' u l hk' hl').imp_right ?_
      rintro ⟨n, hn, hrest⟩
      exact ⟨n, Nat.lt_succ_of_lt hn, hrest⟩
  · rcases Nat.lt_succ_iff_lt_or_eq.mp hn with hlt | rfl
    · have hn' : n < 254 * 2 ^ 18 := Nat.lt_trans hlt hdone
      obtain ⟨pd, hlead', he⟩ := h.there n hlt
      obtain ⟨-, -, hpd⟩ := h.kind_of_leadsTo (pdOf_window hn') hlead'
      refine ⟨pd, hkeep n hn' pd hlead', ?_⟩
      rw [hother pd _ (h.frame pd _ hpd).1 (Nat.mod_lt _ (by decide)), he]
      -- two pages with one place are one page
      intro hs
      obtain ⟨rfl, hoff⟩ := Prod.mk.inj hs
      have hdir := TableKind.pd.inj (Option.some.inj (hpd.symm.trans hk))
      rw [pdOf, pdOf] at hdir
      omega
    · exact ⟨t, hkeep n hdone t hlead, entry_store_same _⟩

/-- One level of the walk, when there is a frame for it. -/
theorem hugeTable (h : WindowInv vm₀ vm pml4 done kind) (hdone : done ≤ 254 * 2 ^ 18) (hk : kind t = some k)
    (hc : k.windowChild i = some c) (hi : i < 512) (hs : (vm.hugeTable (slot t i)).1 ≠ none) :
    ∃ t' vm' kind', vm.hugeTable (slot t i) = (some t', vm') ∧ WindowInv vm₀ vm' pml4 done kind' ∧ kind' t' = some c ∧
      isPresent (entry vm'.mem t i) = true ∧ pteAddr (entry vm'.mem t i) = t' ∧
      ∀ s k' j, kind s = some k' → j < 512 → isPresent (entry vm.mem s j) = true → entry vm'.mem s j = entry vm.mem s j := by
  obtain ⟨hal, hfree⟩ := h.frame t k hk
  rcases hugeTable_cases hal hi hfree with ⟨hp, hcode⟩ | ⟨-, vm', hcode, -⟩ | ⟨hp, f, vm', hcode, hmade⟩
  · exact ⟨_, vm, kind, hcode, h, (h.child t k i c hk hc hi hp).2, hp, rfl, fun _ _ _ _ _ _ => rfl⟩
  · rw [hcode] at hs
    exact absurd rfl hs
  · refine ⟨f, vm', _, hcode, h.made hdone hk hc hp hmade, Function.update_self _ _ _, hmade.link.1, hmade.link.2.2,
      fun s k' j hks hj hps => hmade.others s j (h.frame s k' hks).1 hj ?_ fun he => ?_⟩
    · rintro rfl
      exact (h.frame s k' hks).2 hmade.fresh
    · obtain ⟨rfl, rfl⟩ := Prod.mk.inj he
      rw [hp] at hps
      cases hps

/-- **The page directory for the next page**, when there are frames for it. -/
theorem hugePd (h : WindowInv vm₀ vm pml4 done kind) (hdone : done < 254 * 2 ^ 18)
    (hs : (vm.hugePd pml4 (directVirt done)).1 ≠ none) :
    ∃ pd vm' kind', vm.hugePd pml4 (directVirt done) = (some pd, vm') ∧ WindowInv vm₀ vm' pml4 done kind' ∧
      kind' pd = some (.pd (pdOf done)) ∧ LeadsTo vm'.mem pml4 (pdOf done) pd := by
  obtain ⟨hidx4, hidx3, -⟩ := directVirt_idx done
  have hu := pdOf_window hdone
  have hj : pdOf done % 512 < 512 := Nat.mod_lt _ (by decide)
  rw [Vm.hugePd, hidx4, hidx3] at hs ⊢
  have hs₁ : (vm.hugeTable (slot pml4 (pdOf done / 512))).1 ≠ none := by
    intro hnone
    cases hcode : vm.hugeTable (slot pml4 (pdOf done / 512)) with
    | mk o vm₁ =>
        rw [hcode] at hnone hs
        obtain rfl : o = none := hnone
        exact hs rfl
  obtain ⟨t₁, vm₁, kind₁, hcode₁, h₁, hk₁, hp₁, ha₁, -⟩ := h.hugeTable hdone.le h.root (if_pos hu) (by omega) hs₁
  rw [hcode₁] at hs ⊢
  obtain ⟨t₂, vm₂, kind₂, hcode₂, h₂, hk₂, hp₂, ha₂, hkeep⟩ := h₁.hugeTable hdone.le hk₁ rfl hj hs
  refine ⟨t₂, vm₂, kind₂, hcode₂, h₂, ?_, ?_⟩
  · rw [hk₂, Nat.div_add_mod']
  · have htop := hkeep pml4 _ (pdOf done / 512) h₁.root (by omega) hp₁
    rw [LeadsTo, htop, ha₁]
    exact ⟨hp₁, hp₂, ha₂⟩

/-- **The loop of `vmm_map_phys_huge`**, by induction on the pages to go. -/
theorem mapHuge (n : Nat) : ∀ {vm : Vm σ} {done : Nat} {kind : Nat → Option TableKind}, WindowInv vm₀ vm pml4 done kind →
    done + n ≤ 254 * 2 ^ 18 → Vm.hugeServed pml4 vmmKernRw n (directVirt done) (done * hugeSize % 2 ^ 64) vm = true →
    ∃ kind', WindowInv vm₀ (Vm.mapHuge pml4 vmmKernRw n (directVirt done) (done * hugeSize % 2 ^ 64) vm) pml4 (done + n)
      kind' := by
  induction n with
  | zero =>
      intro vm done kind h _ _
      exact ⟨kind, h⟩
  | succ n ih =>
      intro vm done kind h hle hserved
      have hdone : done < 254 * 2 ^ 18 := by omega
      rw [Vm.hugeServed] at hserved
      have hs : (vm.hugePd pml4 (directVirt done)).1 ≠ none := by
        intro hnone
        cases hcode : vm.hugePd pml4 (directVirt done) with
        | mk o vm' =>
            rw [hcode] at hnone hserved
            obtain rfl : o = none := hnone
            cases hserved
      obtain ⟨pd, vm', kind', hcode, hinv, hk, hlead⟩ := h.hugePd hdone hs
      have hphys : (done * hugeSize % 2 ^ 64 + hugeSize) % 2 ^ 64 = (done + 1) * hugeSize % 2 ^ 64 := by
        rw [hugeSize]
        omega
      rw [hcode] at hserved
      simp only [directVirt_succ, hphys, (directVirt_idx done).2.2] at hserved
      obtain ⟨kind'', hend⟩ := ih (hinv.store hdone hk hlead) (by omega) hserved
      rw [Vm.mapHuge, hcode]
      simp only [directVirt_succ, hphys, (directVirt_idx done).2.2]
      refine ⟨kind'', ?_⟩
      rw [Nat.add_right_comm, Nat.add_assoc] at hend
      exact hend

/-! ## Translation

Inside the pages in place, behind them within the slots of the window, and through all other slots.
-/

/-- The number of the page of 2 MB that `va` lies in. -/
def hugePage (va : Nat) : Nat := va / 2 ^ 21 % 2 ^ 27

theorem idx_hugePage (va : Nat) : pml4Idx va = hugePage va / 512 / 512 ∧ pdptIdx va = hugePage va / 512 % 512 ∧
    pdIdx va = hugePage va % 512 := by
  rw [pml4Idx, pdptIdx, pdIdx, hugePage]
  omega

/-- **In the window** every page is in its place. -/
theorem virtToPhys_in (h : WindowInv vm₀ vm pml4 done kind) (hdone : done ≤ 254 * 2 ^ 18) {va k : Nat} (hk : k < done)
    (hva : hugePage va = 2 ^ 26 + k) : vmmVirtToPhys vm.mem pml4 va = k * hugeSize + va % 2 ^ 21 := by
  obtain ⟨h4, h3, h2⟩ := idx_hugePage va
  have hu : pdOf k = hugePage va / 512 := by
    rw [pdOf, hva]
    omega
  have hl : k % 512 = hugePage va % 512 := by
    omega
  obtain ⟨pd, hlead, he⟩ := h.there k hk
  obtain ⟨hsmall, -, -⟩ := h.kind_of_leadsTo (pdOf_window (by omega)) hlead
  obtain ⟨htop, hmid, rfl⟩ := hlead
  rw [hu] at htop hmid hsmall he
  rw [hl] at he
  obtain ⟨hp, hhuge, haddr⟩ := directEntry_bits k
  rw [vmmVirtToPhys]
  dsimp only
  rw [h4, h3, h2, htop, hmid, hsmall, he, hp, hhuge, haddr, hugeSize]
  show k * (2 * 1024 * 1024) % 2 ^ 52 + va % 2 ^ 21 = k * (2 * 1024 * 1024) + va % 2 ^ 21
  omega

/-- **Behind the slots of the window**, nothing is mapped but the pages in place. -/
theorem virtToPhys_behind (h : WindowInv vm₀ vm pml4 done kind) {va : Nat} (hslot : 256 ≤ pml4Idx va ∧ pml4Idx va ≤ 510)
    (hout : ∀ k < done, hugePage va ≠ (2 ^ 26 + k) % 2 ^ 27) : vmmVirtToPhys vm.mem pml4 va = 0 := by
  obtain ⟨h4, h3, h2⟩ := idx_hugePage va
  have hlt : pml4Idx va < 512 ∧ pdptIdx va < 512 ∧ pdIdx va < 512 := by
    rw [pml4Idx, pdptIdx, pdIdx]
    omega
  rw [vmmVirtToPhys]
  dsimp only
  cases htop : isPresent (entry vm.mem pml4 (pml4Idx va)) with
  | false => rfl
  | true =>
      obtain ⟨-, hpdpt⟩ := h.child _ _ _ _ h.root (if_pos hslot) hlt.1 htop
      generalize pteAddr (entry vm.mem pml4 (pml4Idx va)) = pdpt at *
      cases hmid : isPresent (entry vm.mem pdpt (pdptIdx va)) with
      | false => rfl
      | true =>
          obtain ⟨hsmall, hpd⟩ := h.child _ _ _ _ hpdpt rfl hlt.2.1 hmid
          rw [hsmall]
          generalize pteAddr (entry vm.mem pdpt (pdptIdx va)) = pd at *
          rcases h.leaf pd _ _ hpd hlt.2.2 with he | ⟨k, hk, hdir, hl, -⟩
          · rw [he]
            rfl
          · rw [pdOf] at hdir
            exact absurd (by omega) (hout k hk)

/-- **Through the other slots** translation is what it was. -/
theorem virtToPhys_other (h : WindowInv vm₀ vm pml4 done kind) (h₀ : WindowFree vm₀ pml4) {va : Nat}
    (hslot : pml4Idx va < 256 ∨ 510 < pml4Idx va) : vmmVirtToPhys vm.mem pml4 va = vmmVirtToPhys vm₀.mem pml4 va := by
  apply virtToPhys_congr
  intro q i r t hpath ht
  have hq := isPath_of_path hpath
  have hi : i < 512 := path_lt va (by rw [hpath]; simp)
  refine h.old t i (tableAt_mod h₀.aligned ht) hi (h₀.used hq ht) fun hroot => ?_
  -- the PML4 is met at the first entry only
  cases q with
  | nil =>
      obtain ⟨rfl, -⟩ := List.cons.inj hpath
      exact hslot
  | cons j q =>
      rw [hroot] at ht
      exact absurd ht (h₀.own hq (List.cons_ne_nil j q))

/-- **Outside the pages in place** translation is what it was. -/
theorem virtToPhys_out (h : WindowInv vm₀ vm pml4 done kind) (h₀ : WindowFree vm₀ pml4) {va : Nat}
    (hout : ∀ k < done, hugePage va ≠ (2 ^ 26 + k) % 2 ^ 27) : vmmVirtToPhys vm.mem pml4 va = vmmVirtToPhys vm₀.mem pml4 va := by
  by_cases hslot : 256 ≤ pml4Idx va ∧ pml4Idx va ≤ 510
  · rw [h.virtToPhys_behind hslot hout, virtToPhys_absent rfl tableAt_nil (h₀.empty hslot.1 hslot.2)]
  · exact h.virtToPhys_other h₀ (by omega)

end WindowInv

/-- What `vmm_map_phys_huge` leaves at `PHYS_MAP_BASE`, when it does not break off. -/
theorem vmmMapPhysHuge_window {vm : Vm σ} {pml4 size : Nat} (h : WindowFree vm pml4)
    (hsize : size ≤ physMapEnd - physMapBase)
    (hserved : Vm.hugeServed pml4 vmmKernRw (Vm.hugePages size) physMapBase 0 vm = true) :
    ∃ n kind, WindowInv vm (vm.vmmMapPhysHuge pml4 physMapBase 0 size vmmKernRw) pml4 n kind ∧ n ≤ 254 * 2 ^ 18 ∧
      hugeRoundUp size = n * hugeSize := by
  rw [physMapEnd, physMapBase] at hsize
  have hround : hugeRoundUp size = Vm.hugePages size * hugeSize := by
    rw [hugeRoundUp, Vm.hugePages, Nat.mod_eq_of_lt]
    rw [hugeSize]
    omega
  have hpages : Vm.hugePages size ≤ 254 * 2 ^ 18 := by
    rw [Vm.hugePages, hugeSize]
    omega
  obtain ⟨kind, hinv⟩ := (WindowInv.start h).mapHuge (Vm.hugePages size) (by omega) hserved
  rw [Nat.zero_add] at hinv
  exact ⟨Vm.hugePages size, kind, hinv, hpages, hround⟩

/-- **The direct map is the identity, and nothing else changes.** When every frame for a table is found,
    `PHYS_MAP_BASE + p` leads to `p` for each `p` below the size rounded up to 2 MB, and the other addresses lead where
    they led. -/
theorem direct_map_exact (vm : Vm σ) (pml4 size : Nat) (h : WindowFree vm pml4) (hsize : size ≤ physMapEnd - physMapBase)
    (hserved : Vm.hugeServed pml4 vmmKernRw (Vm.hugePages size) physMapBase 0 vm = true) :
    (∀ p < hugeRoundUp size,
      vmmVirtToPhys (vm.vmmMapPhysHuge pml4 physMapBase 0 size vmmKernRw).mem pml4 (physMapBase + p) = p) ∧
    ∀ va, Canonical va → ¬ (physMapBase ≤ va ∧ va < physMapBase + hugeRoundUp size) →
      vmmVirtToPhys (vm.vmmMapPhysHuge pml4 physMapBase 0 size vmmKernRw).mem pml4 va = vmmVirtToPhys vm.mem pml4 va := by
  obtain ⟨n, kind, hinv, hn, hround⟩ := vmmMapPhysHuge_window h hsize hserved
  generalize vm.vmmMapPhysHuge pml4 physMapBase 0 size vmmKernRw = vm' at *
  rw [hround, hugeSize, physMapBase]
  refine ⟨fun p hp => ?_, fun va hva hout => ?_⟩
  · have hpage : WindowInv.hugePage (0xFFFF800000000000 + p) = 2 ^ 26 + p / 2 ^ 21 := by
      rw [WindowInv.hugePage]
      omega
    rw [hinv.virtToPhys_in hn (by omega) hpage, hugeSize]
    omega
  · refine hinv.virtToPhys_out h fun k hk he => ?_
    rw [WindowInv.hugePage] at he
    rw [Canonical] at hva
    omega

/-! ## Boot

The tables of boot have nothing in the slots of the window, which is the hypothesis of the result.
-/

/-- The level of a table. -/
def TableKind.depth : TableKind → Nat
  | .pml4   => 0
  | .pdpt _ => 1
  | .pd _   => 2

/-- The walk keeps to the kinds. -/
theorem HugeInv.walk_kind {vm : Vm σ} {base done : Nat} {kind : Nat → Option TableKind} (h : HugeInv vm base done kind)
    (p : List Nat) (hp : ∀ i ∈ p, i < 512) : ∀ (k : TableKind) (t t' : Nat), kind t = some k →
    walk nextOf (entry vm.mem) k.depth t p = some t' → ∃ k', kind t' = some k' ∧ k'.depth = k.depth + p.length := by
  induction p with
  | nil =>
      intro k t t' hk ht'
      obtain rfl := Option.some.inj ht'
      exact ⟨k, hk, rfl⟩
  | cons i p ih =>
      intro k t t' hk ht'
      have hi : i < 512 := hp i List.mem_cons_self
      rw [walk_cons] at ht'
      obtain ⟨t₁, hnext, hrest⟩ := Option.bind_eq_some_iff.mp ht'
      obtain ⟨hpres, rfl, hsmall⟩ := nextOf_eq_some hnext
      cases hc : k.child i with
      | some c =>
          have hdepth : c.depth = k.depth + 1 := by
            cases k <;> cases hc <;> rfl
          obtain ⟨-, hkind⟩ := h.child t k i c hk hc hi hpres
          rw [← hdepth] at hrest
          obtain ⟨k', hk', hd'⟩ := ih (fun j hj => hp j (List.mem_cons_of_mem i hj)) c _ t' hkind hrest
          exact ⟨k', hk', by rw [hd', hdepth, List.length_cons, Nat.add_assoc, Nat.add_comm 1]⟩
      | none =>
          -- below a page directory there are no tables
          cases k with
          | pml4 => cases hc
          | pdpt j => cases hc
          | pd u =>
              have hhuge := hsmall (Nat.succ_ne_zero 1)
              rcases h.leaf t u i hk hi with he | ⟨-, hlow, -, he⟩ | ⟨n, -, -, -, he⟩
              · rw [he] at hpres
                cases hpres
              · rw [he, (bootEntry_bits hlow).2.1] at hhuge
                cases hhuge
              · rw [he, (directEntry_bits n).2.1] at hhuge
                cases hhuge

/-- The tables of boot have nothing in the window. -/
theorem BootBss.windowFree {vm : Vm σ} {base : Nat} (h : BootBss vm base) : WindowFree (vm.booted base) (bootPml4 base) := by
  have hrun := h.hugeRun
  have hinv := hrun.inv
  have hwalk : ∀ {p t}, IsPath p → tableAt (vm.booted base).mem (bootPml4 base) p = some t →
      ∃ k, bootKind base t = some k ∧ k.depth = 0 + p.length :=
    fun hp ht => hinv.walk_kind _ hp.2 .pml4 _ _ hinv.root ht
  refine ⟨(hinv.frame _ _ hinv.root).1, fun hp hne ht => ?_, fun hp ht => ?_, fun {i} hlo hhi => ?_⟩
  · obtain ⟨k, hk, hdepth⟩ := hwalk hp ht
    obtain rfl := Option.some.inj (hk.symm.trans hinv.root)
    rw [TableKind.depth, Nat.zero_add] at hdepth
    exact hne (List.length_eq_zero_iff.mp hdepth.symm)
  · obtain ⟨k, hk, -⟩ := hwalk hp ht
    exact (hinv.frame _ k hk).2
  · have htop := (hrun.count (Nat.zero_le _)).top i (by omega)
    rw [← Bool.not_eq_true, htop, topsFor]
    omega

/-- A machine of 64 frames: one page of 2 MB. -/
theorem direct_map_exact_boot :
    (∀ p < hugeRoundUp 0x40000,
      vmmVirtToPhys ((clearedVm.booted 0x100000).vmmMapPhysHuge 0x100000 physMapBase 0 0x40000 vmmKernRw).mem 0x100000
        (physMapBase + p) = p) ∧
    ∀ va, Canonical va → ¬ (physMapBase ≤ va ∧ va < physMapBase + hugeRoundUp 0x40000) →
      vmmVirtToPhys ((clearedVm.booted 0x100000).vmmMapPhysHuge 0x100000 physMapBase 0 0x40000 vmmKernRw).mem 0x100000 va =
        vmmVirtToPhys (clearedVm.booted 0x100000).mem 0x100000 va := by
  refine direct_map_exact (clearedVm.booted 0x100000) 0x100000 0x40000 clearedVm_boot.windowFree (by decide) ?_
  decide +kernel

end MyUnix.Mm
