import MyUnix.Mm.Spaces
import MyUnix.Proc.ElfEntry
import MyUnix.Proc.Mmap

/-!
# `Proc.BrkFrame` — what `sys_brk` leaves alone

The break of a process is moved by `sys_brk` alone, but nothing keeps it from where the program, its stack or a mapping
is: neither is the new break compared with `brk_start`, nor is a page looked at before another frame is put there. The
states after exec and any calls of `brk` and `mmap` are reached step by step; each step keeps the space in order.

What `sys_brk` leaves alone depends on where the break may be. `BrkConfined` asks of a call that the pages which it
gives or takes lie in the user half, not below `brk_start`, and hold nothing when they are given; it is written with
the state before the call and with the number of frames that are free, since a growth touches only the pages that it
finds a frame for.

The states are those that a process can be in: after exec, and then after any stores to its pages and any calls of
`brk` and `mmap` that meet the condition. Each of them has its space in order, so the statement about one call is
about all of them.
-/

namespace MyUnix.Proc

open Lib Mm PageAlloc PathClass Elf

variable {σ : Type} [PageAlloc σ]

/-- The break that is asked for. -/
def UserMem.target (u : UserMem σ) (newBrk : Nat) : Nat := if newBrk = 0 then u.brk else alignUp newBrk

/-- Below `brk_start`, and outside the range between the old and the new break, every address is translated as before;
    no page that was mapped gets another frame. -/
structure BrkFrame (u u' : UserMem σ) (newBrk : Nat) : Prop where
  space : u'.pml4 = u.pml4
  program {va} : Canonical va → va < u.brkStart →
    vmmVirtToPhys u'.vm.mem u.pml4 va = vmmVirtToPhys u.vm.mem u.pml4 va
  outside {va} : Canonical va → va < min u.brk (u.target newBrk) ∨ max u.brk (u.target newBrk) ≤ va →
    vmmVirtToPhys u'.vm.mem u.pml4 va = vmmVirtToPhys u.vm.mem u.pml4 va
  kept {va} : Canonical va → vmmIsMapped u.vm.mem u.pml4 va = true →
    vmmVirtToPhys u'.vm.mem u.pml4 va = vmmVirtToPhys u.vm.mem u.pml4 va ∨ vmmVirtToPhys u'.vm.mem u.pml4 va = 0

/-- The pages for which a growth finds a frame lie in the user half, not below `brk_start`, and none is mapped; what a
    shrinking takes back lies in the user half, and below `brk_start` nothing is mapped any more. -/
structure BrkConfined (u : UserMem σ) (newBrk : Nat) : Prop where
  grow {i} : u.brk + i * pageSize < u.target newBrk →
    Room (i + 1 + (newTables u.vm.mem u.pml4 u.brk i).length) u.vm.pmm →
    u.brk + i * pageSize < 2 ^ 47 ∧ u.brkStart ≤ u.brk + i * pageSize ∧
      vmmIsMapped u.vm.mem u.pml4 (u.brk + i * pageSize) = false
  shrink {i} : u.target newBrk + i * pageSize < u.brk → u.target newBrk + i * pageSize < 2 ^ 47 ∧
    (u.target newBrk + i * pageSize < u.brkStart →
      vmmIsMapped u.vm.mem u.pml4 (u.target newBrk + i * pageSize) = false)

/-! ## The states

Exec leaves a space fresh from `elf_load` and the break at the end of the program. Frames may have been freed since,
as the old space was destroyed after the new one was made.
-/

/-- After `proc_exec`: the file was loaded into a new space, and the break is at its end. What was freed since, with the
    old space, is no part of the new one. -/
inductive AfterExec (u : UserMem σ) : Prop
  | exec {vm : Vm σ} {kernelPml4 : Nat} {kzalloc : Bool} {env : ElfEnv} {file : Except Int (List UInt8)}
      {argv envp : List (List UInt8)} {info : ElfInfo} {l : Load σ} (hk : KernelTables vm kernelPml4)
      (hspace : (vm.vmmCreateSpace kernelPml4 kzalloc).1 = u.pml4) (h0 : u.pml4 ≠ 0)
      (hin : StaysInUserHalf (vm.vmmCreateSpace kernelPml4 kzalloc).2.mem u.pml4 file argv envp)
      (hload : elfLoad env u.pml4 file argv envp ⟨(vm.vmmCreateSpace kernelPml4 kzalloc).2, []⟩ =
        some (.ok info, l))
      (hmem : u.vm.mem = l.vm.mem) (hfree : ∀ f, Free u.vm.pmm f → Free l.vm.pmm f ∨ ¬InSpace l.vm.mem u.pml4 f)
      (hbrk : u.brk = info.brk) (hstart : u.brkStart = info.brk) : AfterExec u

/-- The states after exec, stores of the program to its pages, and calls of `brk` and `mmap` that are confined. -/
inductive MemReach : UserMem σ → Prop
  | exec {u} (h : AfterExec u) : MemReach u
  | store {u : UserMem σ} {p f m'} (h : MemReach u) (hm : Maps u.vm.mem u.pml4 p f) (ha : AgreeOff f u.vm.mem m') :
      MemReach { u with vm := { u.vm with mem := m' } }
  | brk {u u' newBrk r} (h : MemReach u) (hin : BrkConfined u newBrk) (hout : u.sysBrk newBrk = some (r, u')) :
      MemReach u'
  | mmap {u u' env addr length prot flags fd off r} (h : MemReach u)
      (hin : length = 0 ∨ RangeFits u.vm.mem u.pml4 addr length)
      (hout : u.sysMmap env addr length prot flags fd off = some (r, u')) : MemReach u'

/-! ## Contents of pages

A program writes to its own pages, which are no tables.
-/

section

variable {vm : Vm σ} {pml4 p f : Nat}

omit [PageAlloc σ] in
/-- Pages of the user half are mapped to whole frames. -/
theorem maps_aligned (h : UserTree IsPath vm.mem pml4) (hm : Maps vm.mem pml4 p f) : f % pageSize = 0 := by
  obtain ⟨hp, h0, rfl⟩ := hm
  rcases Option.eq_none_or_eq_some (tableAt vm.mem pml4 (ptPath (p * pageSize))) with hnone | ⟨t, ht⟩
  · exact absurd (h.virtToPhys_none hp hnone) h0
  · rw [virtToPhys_leaf ht] at h0 ⊢
    split at h0
    next hpres =>
      rw [if_pos hpres, Nat.mul_mod_left, Nat.add_zero]
      exact pteAddr_mod _
    next => exact absurd rfl h0

/-- A space stays in order when what its pages hold changes. -/
theorem spaceInv_agree (h : SpaceInv vm pml4) (hm : Maps vm.mem pml4 p f) {m' : ByteMem} (ha : AgreeOff f vm.mem m') :
    SpaceInv { vm with mem := m' } pml4 :=
  h.kept (ha.tablesKept h.tree.tree.aligned (maps_aligned h.tree.tree hm) (h.used hm).2) fun _ => .inl

/-- No more is written than a page. -/
theorem pageBytes_le (tmp : List UInt8) (n len i : Nat) : (pageBytes tmp n len i).length ≤ pageSize := by
  rw [pageBytes]
  simp only [List.length_append, List.length_take, List.length_drop, List.length_replicate]
  split <;> omega

/-- One page of a file is copied. -/
theorem fillPage_space (h : SpaceInv vm pml4) {base k : Nat} (hk : (base + k) * pageSize < 2 ^ 47) (len n : Nat)
    (tmp : List UInt8) : SpaceInv (fillPage pml4 (base * pageSize) len n tmp vm k) pml4 := by
  rw [fillPage, pageAt_base (Nat.lt_trans hk (by decide))]
  by_cases h0 : vmmVirtToPhys vm.mem pml4 ((base + k) * pageSize) = 0
  · simp only [h0, ne_eq, not_true_eq_false, if_false]
    exact h
  · simp only [ne_eq, h0, not_false_eq_true, if_true]
    exact spaceInv_agree h ⟨hk, h0, rfl⟩
      (agreeOff_write (Nat.le_refl _) (Nat.add_le_add_left (pageBytes_le tmp n len _) _))

theorem fillPages_space {base len n : Nat} {tmp : List UInt8} (ks : List Nat) : ∀ {vm : Vm σ}, SpaceInv vm pml4 →
    (∀ k ∈ ks, (base + k) * pageSize < 2 ^ 47) →
    SpaceInv (ks.foldl (fillPage pml4 (base * pageSize) len n tmp) vm) pml4 := by
  induction ks with
  | nil => exact fun h _ => h
  | cons k ks ih =>
    intro vm h hks
    rw [List.foldl_cons]
    exact ih (fillPage_space h (hks k List.mem_cons_self) len n tmp) fun j hj => hks j (List.mem_cons_of_mem _ hj)

end

/-! ## `mmap`

Its pages come from `vmm_alloc_user`, which has found them unmapped. The file is read into them page by page.
-/

section

variable {u u' : UserMem σ} {env : MmapEnv} {addr length prot flags fd v : Nat} {off : BitVec 64}

theorem alloc_user_space {vm vm' : Vm σ} {pml4 fuel : Nat} (h : SpaceInv vm pml4)
    (hfits : RangeFits vm.mem pml4 addr length)
    (halloc : vm.vmmAllocUser fuel pml4 addr (alignUp length) (protFlags prot) = some (v, vm')) :
    SpaceInv vm' pml4 := by
  obtain ⟨hpres, -, hflags⟩ := Refreshed.protFlags_bits prot
  obtain ⟨frame, hh, -⟩ := alloc_user_any h.tree h.noZero hpres hflags halloc (rangeFits_alignUp hfits)
  exact hh.spaceInv h

/-- The range that was found lies in the user half. -/
theorem alloc_user_pages {vm vm' : Vm σ} {pml4 fuel : Nat} (h : SpaceInv vm pml4)
    (hfits : RangeFits vm.mem pml4 addr length)
    (halloc : vm.vmmAllocUser fuel pml4 addr (alignUp length) (protFlags prot) = some (v, vm')) (h0 : v ≠ 0) :
    ∃ base, v = base * pageSize ∧ ∀ k ∈ List.range (alignUp length / pageSize), (base + k) * pageSize < 2 ^ 47 := by
  obtain ⟨hpres, -, hflags⟩ := Refreshed.protFlags_bits prot
  have hfits' := rangeFits_alignUp hfits
  obtain ⟨base, frame, rfl, hbelow, -⟩ := alloc_user_handed h.tree hpres hflags halloc h0 hfits'
  refine ⟨base, rfl, fun k hk => ?_⟩
  have hn : alignUp length / pageSize = pagesOf (alignUp length) := by
    rw [alignUp_of_le hfits.1, Nat.mul_div_cancel _ (by decide), pagesOf, pagesOf, pageSize]
    omega
  rw [List.mem_range, hn] at hk
  have hlt : (base + k) * pageSize < (base + pagesOf (alignUp length)) * pageSize :=
    Nat.mul_lt_mul_of_pos_right (Nat.add_lt_add_left hk base) (by decide)
  exact Nat.lt_of_lt_of_le hlt (Nat.le_trans hbelow (by decide))

/-- **`mmap` keeps the space in order**, whatever it returns. -/
theorem sysMmap_space (h : SpaceInv u.vm u.pml4) (hin : length = 0 ∨ RangeFits u.vm.mem u.pml4 addr length)
    {r : Except Int Nat} (hout : u.sysMmap env addr length prot flags fd off = some (r, u')) :
    SpaceInv u'.vm u'.pml4 := by
  rw [UserMem.sysMmap] at hout
  split at hout
  next =>
    obtain ⟨-, rfl⟩ := Prod.mk.inj (Option.some.inj hout)
    exact h
  next hlen =>
    have hfits := hin.resolve_left hlen
    split at hout
    next =>
      obtain ⟨⟨v, vm⟩, halloc, hrest⟩ := Option.bind_eq_some_iff.1 hout
      have hvm := alloc_user_space h hfits halloc
      simp only at hrest
      split at hrest <;>
        obtain ⟨-, rfl⟩ := Prod.mk.inj (Option.some.inj hrest) <;>
        exact hvm
    next =>
      split at hout
      next =>
        obtain ⟨-, rfl⟩ := Prod.mk.inj (Option.some.inj hout)
        exact h
      next =>
        obtain ⟨⟨v, vm⟩, halloc, hrest⟩ := Option.bind_eq_some_iff.1 hout
        have hvm := alloc_user_space h hfits halloc
        simp only at hrest
        split at hrest
        next =>
          obtain ⟨-, rfl⟩ := Prod.mk.inj (Option.some.inj hrest)
          exact hvm
        next h0 =>
          obtain ⟨-, rfl⟩ := Prod.mk.inj (Option.some.inj hrest)
          obtain ⟨base, rfl, hpages⟩ := alloc_user_pages h hfits halloc h0
          simp only
          split
          · exact fillPages_space _ hvm hpages
          · exact hvm

end

/-! ## Growth

For which pages the loop finds a frame: it stops at the first one without, and `growBrk_handed` says that every page
that was handed out had as many frames as it needed.
-/

/-- All tables on the way to a page that is mapped are there. -/
theorem way_mapped {m : ByteMem} {pml4 va : Nat} (h : UserTree IsPath m pml4) (hva : va < 2 ^ 47)
    (hne : vmmVirtToPhys m pml4 va ≠ 0) {q : List Nat} (hq : q ∈ wayTo va) :
    IsUser q ∧ ∃ t, tableAt m pml4 q = some t := by
  have hprefix : ∃ r, ptPath va = q ++ r := by
    simp only [wayTo, List.mem_cons, List.not_mem_nil, or_false] at hq
    rcases hq with rfl | rfl | rfl
    · exact ⟨[pdptIdx va, pdIdx va], rfl⟩
    · exact ⟨[pdIdx va], rfl⟩
    · exact ⟨[], rfl⟩
  obtain ⟨r, hr⟩ := hprefix
  refine ⟨⟨isPath_way hq, fun i hi => (ptPath_user hva).2 i ?_⟩, ?_⟩
  · cases q with
    | nil => cases hi
    | cons j q =>
      rw [hr]
      exact hi
  · rcases Option.eq_none_or_eq_some (tableAt m pml4 q) with hnone | hsome
    · refine absurd (h.virtToPhys_none hva ?_) hne
      rw [hr]
      exact tableAt_append_none hnone
    · exact hsome

section

variable {vm₀ vm : Vm σ} {pml4 base i : Nat} {frame : Nat → Option Nat} {loose : List Nat}

/-- A frame for page `i`, after pages were mapped for all before it: that many frames were free, and as many as the
    tables for these pages take. -/
theorem handed_room (h : Handed vm₀ vm pml4 frame []) (hc : Covers frame base (base + i)) (h0 : vm.alloc.1 ≠ 0) :
    Room (i + 1 + (newTables vm₀.mem pml4 (base * pageSize) i).length) vm₀.pmm := by
  obtain ⟨-, hfree, -, -⟩ := alloc_frame vm h0
  have hframe : ∀ j ∈ List.range i, ∃ f, frame (base + j) = some f := fun j hj =>
    (hc (base + j)).2 ⟨Nat.le_add_right _ _, Nat.add_lt_add_left (List.mem_range.1 hj) base⟩
  have htab : ∀ q ∈ newTables vm₀.mem pml4 (base * pageSize) i,
      IsUser q ∧ ∃ t, tableAt vm.mem pml4 q = some t ∧ Free vm₀.pmm t := by
    intro q hq
    obtain ⟨⟨j, hj, hway⟩, hvac⟩ := mem_newTables.1 hq
    obtain ⟨f, hf⟩ := hframe j (List.mem_range.2 hj)
    have hne := h.page_ne hf (o := 0) (by decide)
    rw [Nat.add_zero] at hne
    rw [← Nat.add_mul] at hway
    obtain ⟨huser, t, ht⟩ := way_mapped h.inv.tree (h.assigned.user hf) hne hway
    refine ⟨huser, t, ht, (h.new huser.1 ht).resolve_left fun hold => ?_⟩
    rw [vacant_none hvac] at hold
    cases hold
  -- the frame, those under the pages, and the tables
  refine ⟨vm.alloc.1 :: ((List.range i).map (fun j => (frame (base + j)).getD 0) ++
    (newTables vm₀.mem pml4 (base * pageSize) i).map fun q => (tableAt vm.mem pml4 q).getD 0), ?_, ?_, ?_⟩
  · refine List.nodup_cons.2 ⟨fun hmem => ?_, List.nodup_append'.2 ⟨?_, ?_, ?_⟩⟩
    · rcases List.mem_append.1 hmem with hmem | hmem
      · obtain ⟨j, hj, heq⟩ := List.mem_map.1 hmem
        obtain ⟨f, hf⟩ := hframe j hj
        simp only [hf, Option.getD_some] at heq
        exact (h.held (.inr ⟨_, hf⟩)).2.1 (heq ▸ hfree)
      · obtain ⟨q, hq, heq⟩ := List.mem_map.1 hmem
        obtain ⟨huser, t, ht, -⟩ := htab q hq
        simp only [ht, Option.getD_some] at heq
        exact h.inv.apart huser.1 ht (heq ▸ hfree)
    · refine List.Nodup.map_on (fun j hj k hk heq => ?_) List.nodup_range
      obtain ⟨f, hf⟩ := hframe j hj
      obtain ⟨g, hg⟩ := hframe k hk
      simp only [hf, hg, Option.getD_some] at heq
      subst heq
      have := h.assigned.inj hf hg
      omega
    · refine List.Nodup.map_on (fun q hq r hr heq => ?_) (newTables_nodup _ _)
      obtain ⟨huser, t, ht, -⟩ := htab q hq
      obtain ⟨huser', t', ht', -⟩ := htab r hr
      simp only [ht, ht', Option.getD_some] at heq
      subst heq
      exact h.inv.tree.unique huser' huser.1 ht' ht
    · intro f hf hf'
      obtain ⟨j, hj, heq⟩ := List.mem_map.1 hf
      obtain ⟨q, hq, heq'⟩ := List.mem_map.1 hf'
      obtain ⟨g, hg⟩ := hframe j hj
      obtain ⟨huser, t, ht, -⟩ := htab q hq
      simp only [hg, ht, Option.getD_some] at heq heq'
      obtain rfl := heq.trans heq'.symm
      exact (h.held (.inr ⟨_, hg⟩)).2.2 q huser.1 ht
  · simp only [List.length_cons, List.length_append, List.length_map, List.length_range]
    omega
  · intro f hf
    rcases List.mem_cons.1 hf with rfl | hf
    · exact h.free hfree
    · rcases List.mem_append.1 hf with hf | hf
      · obtain ⟨j, hj, rfl⟩ := List.mem_map.1 hf
        obtain ⟨g, hg⟩ := hframe j hj
        simp only [hg, Option.getD_some]
        exact (h.held (.inr ⟨_, hg⟩)).1
      · obtain ⟨q, hq, rfl⟩ := List.mem_map.1 hf
        obtain ⟨-, t, ht, hwas⟩ := htab q hq
        simp only [ht, Option.getD_some]
        exact hwas

/-- Nothing is free: the loop stops. -/
theorem growBrk_full (h : Handed vm₀ vm pml4 frame loose) (hfull : ∀ f, ¬Free vm.pmm f) (k p : Nat) :
    Handed vm₀ (growBrk pml4 k p vm).2 pml4 frame loose := by
  cases k with
  | zero => exact h
  | succ k =>
    have h0 : vm.alloc.1 = 0 := by
      by_contra h0
      exact hfull _ (alloc_frame vm h0).2.1
    rw [growBrk]
    simp only [if_pos h0]
    exact h.allocNone h0

/-- **The loop that grows** hands out pages of the range only for which there was a frame. -/
theorem growBrk_handed (k : Nat) : ∀ {vm : Vm σ} {i : Nat} {frame : Nat → Option Nat},
    Handed vm₀ vm pml4 frame [] → Covers frame base (base + i) →
    (∀ j < i + k, Room (j + 1 + (newTables vm₀.mem pml4 (base * pageSize) j).length) vm₀.pmm →
      (base + j) * pageSize < 2 ^ 47) →
    ∃ frame' loose', Handed vm₀ (growBrk pml4 k ((base + i) * pageSize) vm).2 pml4 frame' loose' ∧
      ∀ p f, frame' p = some f → frame p = some f ∨ ∃ j < i + k, p = base + j ∧
        Room (j + 1 + (newTables vm₀.mem pml4 (base * pageSize) j).length) vm₀.pmm := by
  induction k with
  | zero => exact fun h _ _ => ⟨_, _, h, fun p f hf => .inl hf⟩
  | succ k ih =>
    intro vm i frame h hc huser
    rw [growBrk]
    by_cases h0 : vm.alloc.1 = 0
    · simp only [if_pos h0]
      exact ⟨frame, [], h.allocNone h0, fun p f hf => .inl hf⟩
    · simp only [if_neg h0]
      have hroom := handed_room h hc h0
      have hp := huser i (by omega) hroom
      have hnone : frame (base + i) = none := hc.none_of (by omega)
      have hpres : isPresent vmmUserRw = true := by decide
      rcases (h.alloc h0).map hp hnone hpres (by decide) with ⟨-, h'⟩ | ⟨-, hfull, h'⟩
      · have hc' := hc.push (Nat.le_add_right base i) vm.alloc.1
        have hi : base + (i + 1) = base + i + 1 := rfl
        rw [← Nat.succ_mul, Nat.succ_eq_add_one, ← hi]
        obtain ⟨frame', loose', hh, hsub⟩ := @ih _ (i + 1) _ h' hc' fun j hj => huser j (by omega)
        refine ⟨frame', loose', hh, fun p f hf => ?_⟩
        rcases hsub p f hf with hold | ⟨j, hj, hrest⟩
        · by_cases hpi : p = base + i
          · exact .inr ⟨i, by omega, hpi, hroom⟩
          · rw [Function.update_of_ne hpi] at hold
            exact .inl hold
        · exact .inr ⟨j, by omega, hrest⟩
      · exact ⟨frame, [vm.alloc.1], growBrk_full h' hfull k _, fun p f hf => .inl hf⟩

end

/-! ## One call

Growing, shrinking, and the cases in which nothing happens.
-/

section

variable {u : UserMem σ} {newBrk : Nat}

/-- A call that grows. -/
theorem brk_grow (hs : SpaceInv u.vm u.pml4) (hin : BrkConfined u newBrk) (h0 : newBrk ≠ 0)
    (hlt : u.brk < alignUp newBrk) : ∃ vm' frame loose,
    (growBrk u.pml4 ((alignUp newBrk - u.brk) / pageSize) u.brk u.vm).2 = vm' ∧
    Handed u.vm vm' u.pml4 frame loose ∧
    ∀ p f, frame p = some f → u.brkStart ≤ p * pageSize ∧ u.brk ≤ p * pageSize ∧ p * pageSize < alignUp newBrk ∧
      vmmIsMapped u.vm.mem u.pml4 (p * pageSize) = false := by
  obtain ⟨base, hbase⟩ : ∃ base, u.brk = base * pageSize :=
    ⟨u.brk / pageSize, (Nat.div_mul_cancel (Nat.dvd_of_mod_eq_zero u.brk_mod)).symm⟩
  have htarget : u.target newBrk = alignUp newBrk := if_neg h0
  have hpages : ∀ j < (alignUp newBrk - u.brk) / pageSize, (base + j) * pageSize < alignUp newBrk := by
    intro j hj
    have hal := alignUp_mod newBrk
    rw [pageSize] at *
    omega
  have hgrow := @hin.grow
  rw [htarget, hbase] at hgrow
  simp only [← Nat.add_mul] at hgrow
  obtain ⟨frame, loose, h, hsub⟩ := growBrk_handed ((alignUp newBrk - u.brk) / pageSize) (Handed.refl hs.tree)
    (Covers.empty base) (i := 0) fun j hj hroom => (hgrow (hpages j (by omega)) hroom).1
  rw [Nat.add_zero, ← hbase] at h
  refine ⟨_, frame, loose, rfl, h, fun p f hf => ?_⟩
  rcases hsub p f hf with hnone | ⟨j, hj, rfl, hroom⟩
  · cases hnone
  · have hlt' := hpages j (by omega)
    obtain ⟨-, hstart, hun⟩ := hgrow hlt' hroom
    have hge : u.brk ≤ (base + j) * pageSize := by
      rw [hbase]
      exact Nat.mul_le_mul_right _ (Nat.le_add_right base j)
    exact ⟨hstart, hge, hlt', hun⟩

/-- A call that shrinks. -/
theorem brk_shrink (hs : SpaceInv u.vm u.pml4) (hin : BrkConfined u newBrk) (h0 : newBrk ≠ 0)
    (hlt : alignUp newBrk < u.brk) : ∃ vm',
    shrinkBrk u.pml4 (alignUp newBrk) ((u.brk - alignUp newBrk) / pageSize) u.vm = some vm' ∧
    Dropped u.vm vm' u.pml4 fun p => alignUp newBrk ≤ p * pageSize ∧ p * pageSize < u.brk := by
  obtain ⟨base, hbase⟩ : ∃ base, alignUp newBrk = base * pageSize :=
    ⟨alignUp newBrk / pageSize, (Nat.div_mul_cancel (Nat.dvd_of_mod_eq_zero (alignUp_mod newBrk))).symm⟩
  obtain ⟨stop, hstop⟩ : ∃ stop, u.brk = stop * pageSize :=
    ⟨u.brk / pageSize, (Nat.div_mul_cancel (Nat.dvd_of_mod_eq_zero u.brk_mod)).symm⟩
  have htarget : u.target newBrk = alignUp newBrk := if_neg h0
  have hle : base ≤ stop := by
    rw [hbase, hstop] at hlt
    exact Nat.le_of_lt (Nat.lt_of_mul_lt_mul_right hlt)
  have hn : (u.brk - alignUp newBrk) / pageSize = stop - base := by
    rw [hbase, hstop, ← Nat.sub_mul, Nat.mul_div_cancel _ (by decide)]
  have hshrink := @hin.shrink
  rw [htarget, hbase, hstop] at hshrink
  simp only [← Nat.add_mul] at hshrink
  have hmem : ∀ p ∈ List.range' base (stop - base), p * pageSize < 2 ^ 47 := by
    intro p hp
    rw [List.mem_range'_1] at hp
    obtain ⟨i, rfl⟩ := Nat.exists_eq_add_of_le hp.1
    exact (hshrink (Nat.mul_lt_mul_of_pos_right (by omega) (by decide))).1
  obtain ⟨vm', hfold, hd⟩ := (Dropped.refl hs.tree).dropPages hs (List.range' base (stop - base)) hmem
  refine ⟨vm', ?_, ?_⟩
  · rw [shrinkBrk, hn, hbase, ← hfold, List.range'_eq_map_range, List.foldlM_map]
    refine foldlM_ext _ (fun j _ vm => ?_) u.vm
    rw [← Nat.add_mul]
  · have hiff : (fun p => alignUp newBrk ≤ p * pageSize ∧ p * pageSize < u.brk) =
        fun p => False ∨ p ∈ List.range' base (stop - base) := by
      funext p
      rw [false_or, List.mem_range'_1, hbase, hstop, Nat.mul_le_mul_right_iff (by decide),
        Nat.mul_lt_mul_right (by decide), Nat.add_sub_cancel' hle]
    rwa [hiff]

/-- A page that is not mapped translates to nothing at any of its addresses. -/
theorem page_of_unmapped {vm : Vm σ} {pml4 va : Nat} (hs : SpaceInv vm pml4) (hp : va / pageSize * pageSize < 2 ^ 47)
    (hun : vmmIsMapped vm.mem pml4 (va / pageSize * pageSize) = false) : vmmVirtToPhys vm.mem pml4 va = 0 := by
  have h := hs.noZero _ hp hun (va % pageSize) (Nat.mod_lt _ (by decide))
  rwa [Nat.mul_comm, Nat.div_add_mod] at h

theorem page_le (va : Nat) : va / pageSize * pageSize ≤ va := Nat.div_mul_le_self va pageSize

theorem lt_page (va : Nat) : va < va / pageSize * pageSize + pageSize := by
  have hdiv := Nat.div_add_mod va pageSize
  have hlt : va % pageSize < pageSize := Nat.mod_lt _ (by decide)
  rw [Nat.mul_comm] at hdiv
  omega

/-- Pages were handed out, all of them unmapped before and in the range. -/
theorem frame_of_handed {u' : UserMem σ} (hs : SpaceInv u.vm u.pml4) {frame : Nat → Option Nat} {loose : List Nat}
    (hpml4 : u'.pml4 = u.pml4) (hlt : u.brk < u.target newBrk) (h : Handed u.vm u'.vm u.pml4 frame loose)
    (hsub : ∀ p f, frame p = some f → u.brkStart ≤ p * pageSize ∧ u.brk ≤ p * pageSize ∧
      p * pageSize < u.target newBrk ∧ vmmIsMapped u.vm.mem u.pml4 (p * pageSize) = false)
    (htarget : u.target newBrk % pageSize = 0) : BrkFrame u u' newBrk where
  space := hpml4
  program {va} hc hva := by
    apply h.same hc
    by_contra hne
    obtain ⟨f, hf⟩ := Option.ne_none_iff_exists'.1 hne
    have := (hsub _ f hf).1
    have := page_le va
    omega
  outside {va} hc hva := by
    apply h.same hc
    by_contra hne
    obtain ⟨f, hf⟩ := Option.ne_none_iff_exists'.1 hne
    obtain ⟨-, hlo, hhi, -⟩ := hsub _ f hf
    have := page_le va
    have := lt_page va
    rw [Nat.min_eq_left (Nat.le_of_lt hlt), Nat.max_eq_right (Nat.le_of_lt hlt)] at hva
    rw [pageSize] at *
    omega
  kept {va} hc hmap := by
    left
    apply h.same hc
    by_contra hne
    obtain ⟨f, hf⟩ := Option.ne_none_iff_exists'.1 hne
    have hzero := page_of_unmapped hs (h.assigned.user hf) (hsub _ f hf).2.2.2
    rw [vmmIsMapped, hzero] at hmap
    cases hmap

/-- Pages were taken back, and below `brk_start` there were none. -/
theorem frame_of_dropped {u' : UserMem σ} (hs : SpaceInv u.vm u.pml4) (hin : BrkConfined u newBrk)
    (hpml4 : u'.pml4 = u.pml4) (hlt : u.target newBrk < u.brk) (htarget : u.target newBrk % pageSize = 0)
    (h : Dropped u.vm u'.vm u.pml4 fun p => u.target newBrk ≤ p * pageSize ∧ p * pageSize < u.brk) :
    BrkFrame u u' newBrk := by
  -- a page of the range, as the loop meets it
  have hpage : ∀ {p}, u.target newBrk ≤ p * pageSize ∧ p * pageSize < u.brk → p * pageSize < 2 ^ 47 ∧
      (p * pageSize < u.brkStart → vmmIsMapped u.vm.mem u.pml4 (p * pageSize) = false) := by
    rintro p ⟨hlo, hhi⟩
    obtain ⟨i, hi⟩ : ∃ i, p * pageSize = u.target newBrk + i * pageSize := by
      refine ⟨(p * pageSize - u.target newBrk) / pageSize, ?_⟩
      rw [pageSize] at *
      omega
    rw [hi] at hhi ⊢
    exact hin.shrink hhi
  have hzero : ∀ {va}, u.target newBrk ≤ va / pageSize * pageSize ∧ va / pageSize * pageSize < u.brk →
      vmmVirtToPhys u'.vm.mem u.pml4 va = 0 := by
    intro va hgone
    have hun := h.unmapped hgone (hpage hgone).1 (Nat.mod_lt va (show 0 < pageSize by decide))
    rwa [Nat.mul_comm, Nat.div_add_mod] at hun
  exact {
    space := hpml4
    program := fun {va} hc hva => by
      by_cases hgone : u.target newBrk ≤ va / pageSize * pageSize ∧ va / pageSize * pageSize < u.brk
      · obtain ⟨hp, hun⟩ := hpage hgone
        rw [hzero hgone, page_of_unmapped hs hp (hun (Nat.lt_of_le_of_lt (page_le va) hva))]
      · exact h.same hc hgone
    outside := fun {va} hc hva => by
      apply h.same hc
      have := page_le va
      have := lt_page va
      have := u.brk_mod
      rw [Nat.min_eq_right (Nat.le_of_lt hlt), Nat.max_eq_left (Nat.le_of_lt hlt)] at hva
      rw [pageSize] at *
      omega
    kept := fun {va} hc _ => by
      by_cases hgone : u.target newBrk ≤ va / pageSize * pageSize ∧ va / pageSize * pageSize < u.brk
      · exact .inr (hzero hgone)
      · exact .inl (h.same hc hgone) }

omit [PageAlloc σ] in
/-- Nothing happens to the space. -/
theorem frame_of_same {u' : UserMem σ} (hpml4 : u'.pml4 = u.pml4) (hvm : u'.vm = u.vm) : BrkFrame u u' newBrk where
  space := hpml4
  program _ _ := by rw [hvm]
  outside _ _ := by rw [hvm]
  kept _ _ := by
    left
    rw [hvm]

/-- **One confined call** on a space in order. -/
theorem sysBrk_step (hs : SpaceInv u.vm u.pml4) (hin : BrkConfined u newBrk) :
    ∃ r u', u.sysBrk newBrk = some (r, u') ∧ BrkFrame u u' newBrk ∧ SpaceInv u'.vm u'.pml4 := by
  rw [UserMem.sysBrk]
  by_cases h0 : newBrk = 0
  · rw [if_pos h0]
    exact ⟨u.brk, u, rfl, frame_of_same rfl rfl, hs⟩
  rw [if_neg h0]
  have htarget : u.target newBrk = alignUp newBrk := if_neg h0
  have hmod : u.target newBrk % pageSize = 0 := by rw [htarget, alignUp_mod]
  by_cases hlt : u.brk < alignUp newBrk
  · rw [if_pos hlt]
    obtain ⟨vm', frame, loose, hgrow, h, hsub⟩ := brk_grow hs hin h0 hlt
    rw [← htarget] at hlt hsub
    generalize growBrk u.pml4 ((alignUp newBrk - u.brk) / pageSize) u.brk u.vm = out at hgrow
    obtain ⟨ok, vm⟩ := out
    obtain rfl : vm = vm' := hgrow
    cases ok with
    | false => exact ⟨_, _, rfl, frame_of_handed hs rfl hlt h hsub hmod, h.spaceInv hs⟩
    | true => exact ⟨_, _, rfl, frame_of_handed hs rfl hlt h hsub hmod, h.spaceInv hs⟩
  · rw [if_neg hlt]
    by_cases hlt' : alignUp newBrk < u.brk
    · rw [if_pos hlt']
      obtain ⟨vm', hshrink, h⟩ := brk_shrink hs hin h0 hlt'
      rw [hshrink]
      rw [← htarget] at hlt' h
      exact ⟨_, _, rfl, frame_of_dropped hs hin rfl hlt' hmod h, h.spaceInv hs⟩
    · rw [if_neg hlt']
      exact ⟨_, _, rfl, frame_of_same rfl rfl, hs⟩

end

/-! ## Runs

The induction over the calls after exec.
-/

theorem afterExec_space {u : UserMem σ} (h : AfterExec u) : SpaceInv u.vm u.pml4 := by
  cases h with
  | @exec vm kernelPml4 kzalloc env file argv envp info l hk hspace h0 hin hload hmem hfree hbrk hstart =>
    have hne : (vm.vmmCreateSpace kernelPml4 kzalloc).1 ≠ 0 := by rwa [hspace]
    have hpages := newSpace_pages hk hne
    rw [hspace] at hpages
    obtain ⟨r, l', frames, hout, hl, -⟩ := elfLoad_outcome env hpages hin
    rw [hload] at hout
    obtain ⟨-, rfl⟩ := Prod.mk.inj (Option.some.inj hout)
    have hkept : TablesKept l.vm.mem u.vm.mem u.pml4 := by
      intro q t _ _ o _
      rw [hmem]
    exact (spaceInv_of_pages hl.pages).kept hkept hfree

/-- **Every state that is reached** has its space in order. -/
theorem reach_space {u : UserMem σ} (h : MemReach u) : SpaceInv u.vm u.pml4 := by
  induction h with
  | exec h => exact afterExec_space h
  | store _ hm ha ih => exact spaceInv_agree ih hm ha
  | brk _ hin hout ih =>
    obtain ⟨r, u', hout', -, hs⟩ := sysBrk_step ih hin
    rw [hout] at hout'
    obtain ⟨-, rfl⟩ := Prod.mk.inj (Option.some.inj hout')
    exact hs
  | mmap _ hin hout ih => exact sysMmap_space ih hin hout

/-- **`sys_brk` leaves alone** what lies below `brk_start` and outside its range, and replaces no page, in every state
    that confined calls reach, if it is confined itself. -/
theorem brk_frame (u : UserMem σ) (newBrk : Nat) (h : MemReach u) (hin : BrkConfined u newBrk) :
    ∃ r u', u.sysBrk newBrk = some (r, u') ∧ BrkFrame u u' newBrk := by
  obtain ⟨r, u', hout, hframe, -⟩ := sysBrk_step (reach_space h) hin
  exact ⟨r, u', hout, hframe⟩

/-! ### A program with one page

A whole load on a machine with 64 MB, so that the hypotheses about reachable states are seen to hold.
-/

/-- A page without contents at `0x400000`. -/
def bssSegment : Phdr := ⟨ptLoad, 6, 0, 0x400000, 0, 0x1000⟩

/-- A program with that segment only. -/
def bssFile : List UInt8 := elfFile 0x400000 [bssSegment]

theorem bssFile_header : headerOf bssFile = some ⟨2, 0x400000, 64, 56, 1⟩ ∧
    phdrsOf bssFile ⟨2, 0x400000, 64, 56, 1⟩ = some [bssSegment] := by decide +kernel

theorem bssFile_user {m : ByteMem} {pml4 : Nat} : StaysInUserHalf m pml4 (.ok bssFile) [] [] := by
  rintro content ehdr phs ⟨⟩ hhead hphdrs
  obtain rfl := Option.some.inj (bssFile_header.1.symm.trans hhead)
  obtain rfl := Option.some.inj (bssFile_header.2.symm.trans hphdrs)
  have hpage : ∀ i < bssSegment.nPages 0, pml4Idx (bssSegment.page 0 i) < 256 := by decide
  have hbyte : ∀ o < bssSegment.filesz, pml4Idx ((bssSegment.start 0 + o) % 2 ^ 64) < 256 := nofun
  rw [InUserHalf, if_pos (by decide), InUserHalf]
  exact ⟨⟨fun i hi => .inl (hpage i hi), fun o ho _ => hbyte o ho⟩,
    fun _ => ⟨by decide, by decide, by decide, by decide⟩⟩

/-- Below the stack the space has the page `va` with the frame `f`, and nothing else. -/
def OnlyPage (m : ByteMem) (pml4 page f : Nat) : Prop :=
  ∀ va < stackTop - stackSize, vmmVirtToPhys m pml4 va = if path va = path page then f + va % pageSize else 0

section

variable {vm₀ : Vm σ} {pml4 : Nat}

/-- The page of the segment is mapped. -/
theorem bss_segment (hnew : Pages vm₀ vm₀ pml4 []) {n : Nat} (hroom : Room (n + 5) vm₀.pmm) :
    ∃ l f frames, loadSegments pml4 bssFile plenty 0 [bssSegment] 0 ⟨vm₀, []⟩ Ranges.empty =
        some (0, l, Ranges.empty.add bssSegment 0) ∧
      Loaded vm₀ l pml4 frames ∧ Room n l.vm.pmm ∧ f ≠ 0 ∧ OnlyPage l.vm.mem pml4 0x400000 f := by
  have hnone : ∀ va < 2 ^ 47, vmmVirtToPhys vm₀.mem pml4 va = 0 := by
    intro va hva
    by_contra hne
    obtain ⟨f, hf, -⟩ := hnew.mapped hva hne
    cases hf
  have hun : vmmIsMapped vm₀.mem pml4 0x400000 = false := by
    rw [vmmIsMapped, hnone _ (by decide)]
    rfl
  obtain ⟨h0, hroom₁⟩ := hroom.alloc
  have hroom₂ := hroom₁.vmmMap pml4 0x400000 vm₀.alloc.1 (segFlags 6)
  obtain ⟨hpres, hflags⟩ := segFlags_spec 6
  obtain ⟨-, hpages, -, hmap⟩ := hnew.allocMap (by decide : pml4Idx 0x400000 < 256) (by decide) (segFlags 6) hpres hflags h0
  have hf0 : vm₀.alloc.1 ≠ 0 := h0
  rw [loadSegments, if_neg (by decide), elfMapSegment, if_neg (by decide)]
  have hn : bssSegment.nPages 0 = 1 := by decide
  have hstart : alignDown (bssSegment.start 0) = 0x400000 := by decide
  rw [hn, hstart, show bssSegment.flags = 6 from rfl, mapPages]
  simp only [hun, Bool.false_eq_true, if_false, if_neg h0]
  generalize vm₀.alloc.2.vmmMap pml4 0x400000 vm₀.alloc.1 (segFlags 6) = out at hroom₂ hpages hmap ⊢
  obtain ⟨r, vm⟩ := out
  simp only at hroom₂ hpages hmap ⊢
  cases hmap with
  | noTable _ _ hfull =>
    -- there are frames left
    obtain ⟨h0', -⟩ := (show Room (n + 1) vm.pmm from hroom₂).alloc
    exact absurd (alloc_frame vm h0').2.1 (hfull _)
  | mapped htrans _ =>
    refine ⟨⟨vm, []⟩, vm₀.alloc.1, _, rfl, ⟨hpages, fun _ hw => by cases hw⟩, hroom₂.mono (Nat.le_succ n), hf0, ?_⟩
    intro va hva
    have hlt : va < 2 ^ 47 := Nat.lt_trans hva (by decide)
    change vmmVirtToPhys vm.mem pml4 va = _
    rw [htrans, hnone va hlt]

/-- The whole load. -/
theorem bss_loads (hnew : Pages vm₀ vm₀ pml4 []) (hroom : Room 8197 vm₀.pmm) :
    ∃ info l f, elfLoad plenty pml4 (.ok bssFile) [] [] ⟨vm₀, []⟩ = some (.ok info, l) ∧ info.brk = 0x401000 ∧ f ≠ 0 ∧
      OnlyPage l.vm.mem pml4 0x400000 f := by
  obtain ⟨l₁, f, frames, hsegs, hl₁, hroom₁, hf0, honly⟩ := bss_segment hnew (n := 8192) hroom
  have hok := stackPages_ok pml4 (stackSize / pageSize) (stackTop - stackSize) l₁ hroom₁
  obtain ⟨r, l₂, frames₂, hstack, hl₂, -, -, hlow, hzero⟩ := stackPages_loaded (stackSize / pageSize)
    (stackTop - stackSize) l₁ frames hl₁ (by decide) (by decide)
  rw [hstack] at hok
  obtain rfl : r = 0 := hok
  obtain ⟨hmapped, -⟩ := zero_stack hl₂ (hzero (by decide))
  have hfits : Fits [] [] := by decide
  obtain ⟨-, hshows⟩ := buildFrame_shows ⟨2, 0x400000, 64, 56, 1⟩ hl₂ hmapped hfits ⟨by decide, by decide, by decide⟩
  have hload : elfLoad plenty pml4 (.ok bssFile) [] [] ⟨vm₀, []⟩ =
      some (.ok (infoOf ⟨2, 0x400000, 64, 56, 1⟩ (Ranges.empty.add bssSegment 0) [] []),
        buildFrame pml4 ⟨2, 0x400000, 64, 56, 1⟩ [] [] l₂) := by
    rw [elfLoad]
    simp only [bssFile_header.1, bssFile_header.2]
    rw [show loadBias ⟨2, 0x400000, 64, 56, 1⟩ = 0 from rfl, hsegs]
    simp only [hstack]
    rfl
  refine ⟨_, _, f, hload, by decide, hf0, fun va hva => ?_⟩
  rw [hshows.same, hlow va hva]
  exact honly va hva

end

/-- The process after exec of that file. -/
def afterBss (vm : Vm SoundPmm) : UserMem SoundPmm where
  vm := vm
  pml4 := 0x4000
  vmas := []
  brk := 0x401000
  brkStart := 0x401000
  brk_mod := by decide
  brk_lt := by decide

/-- On a machine with 16384 frames. -/
theorem bss_exec : ∃ vm f, AfterExec (afterBss vm) ∧ f ≠ 0 ∧ OnlyPage vm.mem 0x4000 0x400000 f := by
  have hk : KernelTables manyVm 0x1000 := directVm_tables rfl
  have hpages := newSpace_pages hk manyVm_space_ne
  rw [manyVm_space] at hpages
  have hmany := manyFrames_room (by omega : 8197 ≤ 16379)
  have hroom : Room 8197 (manyVm.vmmCreateSpace 0x1000 true).2.pmm := by
    rw [manyVm]
    exact hmany
  obtain ⟨info, l, f, hload, hbrk, hf0, honly⟩ := bss_loads hpages hroom
  refine ⟨l.vm, f, ?_, hf0, honly⟩
  have hfree : ∀ g, Free l.vm.pmm g → Free l.vm.pmm g ∨ ¬InSpace l.vm.mem 0x4000 g := fun g hg => .inl hg
  exact .exec hk manyVm_space (show 0x4000 ≠ 0 by decide) bssFile_user hload rfl hfree hbrk.symm hbrk.symm

/-- One page more: no other page is near. -/
theorem brk_frame_one : ∃ vm r u', (afterBss vm).sysBrk 0x402000 = some (r, u') ∧
    BrkFrame (afterBss vm) u' 0x402000 := by
  obtain ⟨vm, f, hexec, -, honly⟩ := bss_exec
  refine ⟨vm, brk_frame (afterBss vm) 0x402000 (.exec hexec) { grow := ?_, shrink := ?_ }⟩
  · intro i hi _
    change 0x401000 + i * pageSize < 0x402000 at hi
    obtain rfl : i = 0 := by
      rw [pageSize] at hi
      omega
    have hun : vmmVirtToPhys vm.mem 0x4000 0x401000 = 0 := by
      rw [honly _ (by decide)]
      exact if_neg (by decide)
    refine ⟨(by decide : 0x401000 < 2 ^ 47), Nat.le_refl 0x401000, ?_⟩
    change (vmmVirtToPhys vm.mem 0x4000 0x401000 != 0) = false
    rw [hun]
    rfl
  · intro i hi
    change 0x402000 + i * pageSize < 0x401000 at hi
    omega

/-- The break goes below where it was after exec, and the page of the program is gone. -/
theorem brk_below_start : ∃ vm r u', MemReach (afterBss vm) ∧ (afterBss vm).sysBrk 0x400000 = some (r, u') ∧
    ¬BrkFrame (afterBss vm) u' 0x400000 := by
  obtain ⟨vm, f, hexec, hf0, honly⟩ := bss_exec
  have hs : SpaceInv vm 0x4000 := afterExec_space hexec
  obtain ⟨vm', hdrop, h⟩ := (Dropped.refl hs.tree).dropPage hs (show 0x400 * pageSize < 2 ^ 47 by decide)
  have hshrink : shrinkBrk 0x4000 0x400000 1 vm = some vm' := by
    rw [shrinkBrk, List.range_one, List.foldlM_cons]
    change (vm.dropPage 0x4000 (0x400 * pageSize)).bind _ = _
    rw [hdrop]
    rfl
  have hout : (afterBss vm).sysBrk 0x400000 = some (0x400000, (afterBss vm).setBrk vm' 0x400000) := by
    have htarget : alignUp 0x400000 = 0x400000 := by decide
    have hbrk : (afterBss vm).brk = 0x401000 := rfl
    have hge : ¬(afterBss vm).brk < 0x400000 := by
      rw [hbrk]
      decide
    have hlt : 0x400000 < (afterBss vm).brk := by
      rw [hbrk]
      decide
    have hn : ((afterBss vm).brk - 0x400000) / pageSize = 1 := by
      rw [hbrk]
      rfl
    have hdo : shrinkBrk (afterBss vm).pml4 0x400000 1 (afterBss vm).vm = some vm' := hshrink
    rw [UserMem.sysBrk, if_neg (by decide), htarget, if_neg hge, if_pos hlt, hn, hdo]
    rfl
  refine ⟨vm, _, _, .exec hexec, hout, fun hframe => ?_⟩
  have hsame := hframe.program (.inl (by decide : 0x400000 < 2 ^ 47)) (by decide : 0x400000 < 0x401000)
  have hgone := h.unmapped (.inr rfl) (by decide) (show 0 < pageSize by decide)
  have hwas := honly 0x400000 (by decide)
  change vmmVirtToPhys vm'.mem 0x4000 0x400000 = vmmVirtToPhys vm.mem 0x4000 0x400000 at hsame
  change vmmVirtToPhys vm'.mem 0x4000 0x400000 = 0 at hgone
  rw [hgone, hwas, if_pos rfl] at hsame
  exact hf0 (Nat.eq_zero_of_add_eq_zero_right hsame.symm)

end MyUnix.Proc
