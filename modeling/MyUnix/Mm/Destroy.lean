import MyUnix.Mm.UserRanges

/-!
# `Mm.Destroy` — `vmm_destroy_space`

A space is taken apart in two phases. The pages of its VMAs are unmapped and their frames freed, page by page; VMAs may
overlap, so a page may be gone already. Then a walk over the user half frees every table it meets, and the PML4 last.
The frames that go to `pmm_free` are listed on the way, so that it can be said how often each of them does.

After the pages of a VMA its `vma_t` goes to `kfree`, and the `vmm_space_t` at the very end. In front of a block from a
slab cache `kfree` finds no header and panics (`Heap.kfree_returns`): where a `vma_t` is such a block, the walk over the
tables is not reached. `SpaceBlocks` says what `kfree` finds.

Which frames are freed is a list, in the order of the calls of `pmm_free`. That the list has no repetition is the
whole of "exactly once": a second free of the same frame would meet the panic, so a call that comes to its end has
freed each of them once. The first phase skips a page that is gone, and the second one frees what the tree has, each
table once because each is met on one path.

The blocks of the space itself go to `kfree`, between the pages of one VMA and those of the next. `SpaceBlocks` is
what `kfree` finds in front of them; where it finds no header the call ends there (`reapVmas_headed`), with the tables
still in place.
-/

namespace MyUnix.Mm

open Lib PageAlloc PathClass

/-- `vmm_space_t`: the frame of its PML4, its reference count and its VMAs. -/
structure Space where
  pml4 : Nat
  refs : Nat
  vmas : List Vma

/-- The frames that the walk frees, in this order. Entries that are huge are skipped, but not in the PML4. -/
def tableFrees (m : ByteMem) (pml4 : Nat) : List Nat :=
  (List.range 256).flatMap (fun i4 =>
    let e4 := entry m pml4 i4
    if !isPresent e4 then []
    else (List.range 512).flatMap (fun i3 =>
      let e3 := entry m (pteAddr e4) i3
      if !isPresent e3 || isHuge e3 then []
      else (List.range 512).flatMap (fun i2 =>
        let e2 := entry m (pteAddr e3) i2
        if !isPresent e2 || isHuge e2 then [] else [pteAddr e2]) ++ [pteAddr e3]) ++ [pteAddr e4]) ++ [pml4]

/-- The loop over the pages of a VMA goes through so many. -/
def Vma.count (vma : Vma) : Nat := (vma.stop - vma.start + (pageSize - 1)) / pageSize

variable {σ : Type} [PageAlloc σ]

/-- A call of `pmm_free`, with the frames freed so far; `none` is its panic. -/
def freeFrame (out : Vm σ × List Nat) (f : Nat) : Option (Vm σ × List Nat) :=
  (pmmFree out.1.pmm f).map fun pmm => ({ out.1 with pmm }, out.2 ++ [f])

/-- The body of the loop over the pages of a VMA. -/
def reapPage (pml4 : Nat) (out : Vm σ × List Nat) (addr : Nat) : Option (Vm σ × List Nat) :=
  let phys := vmmVirtToPhys out.1.mem pml4 addr
  if phys ≠ 0 then freeFrame (out.1.vmmUnmap pml4 addr, out.2) phys else some out

/-- The loop over the pages of a VMA. -/
def reapPages (pml4 : Nat) (out : Vm σ × List Nat) (vma : Vma) : Option (Vm σ × List Nat) :=
  (List.range vma.count).foldlM (fun out i => reapPage pml4 out (vma.start + i * pageSize)) out

/-- Whether `kfree` finds its header in front of the blocks of a space: its `vma_t`s, by their places in the list, and the
    `vmm_space_t`. -/
structure SpaceBlocks where
  vma   : Nat → Bool
  space : Bool

/-- A call of `kfree`, after what led to `out`; `none` is its panic. -/
def kfreeBlock (headed : Bool) (out : Vm σ × List Nat) : Option (Vm σ × List Nat) :=
  if headed then some out else none

/-- The body of the loop over the VMAs, each with its place in the list. -/
def reapVma (pml4 : Nat) (headed : Nat → Bool) (out : Vm σ × List Nat) (vma : Vma × Nat) : Option (Vm σ × List Nat) := do
  let out ← reapPages pml4 out vma.1
  kfreeBlock (headed vma.2) out

/-- What `vmm_destroy_space` does once the count is 0, up to the last `pmm_free`: the machine, and the frames that were
    freed. -/
def Vm.destroyFrames (vm : Vm σ) (space : Space) (headed : Nat → Bool) : Option (Vm σ × List Nat) := do
  let out ← space.vmas.zipIdx.foldlM (reapVma space.pml4 headed) (vm, [])
  (tableFrees out.1.mem space.pml4).foldlM freeFrame out

/-- `vmm_destroy_space`. While there are other references nothing happens but that the count goes down. -/
def Vm.vmmDestroySpace (vm : Vm σ) (space : Space) (blocks : SpaceBlocks) : Option (Vm σ × List Nat) :=
  if space.refs ≠ 1 then some (vm, [])
  else do
    let out ← vm.destroyFrames space blocks.vma
    kfreeBlock blocks.space out

/-! ## The walk

Postorder over the lower half of the PML4: tables of the last level first, each with its entries ignored, and the PML4
at the end.
-/

/-- The indices that the walk goes through at each depth. -/
def userIdx (d : Nat) : List Nat := List.range (if d = 0 then 256 else 512)

theorem tableFrees_eq (m : ByteMem) (pml4 : Nat) : tableFrees m pml4 = postorder nextOf (entry m) userIdx 3 0 pml4 := by
  have helim : ∀ (d : Nat) (e : Pte) (g : Nat → List Nat), (nextOf d e).elim [] g =
      if isPresent e && (d == 0 || !isHuge e) then g (pteAddr e) else [] := by
    intro d e g
    rw [nextOf]
    split <;> rfl
  -- an entry below the PML4, read as the walk reads it
  have hdeep : ∀ (d : Nat) (e : Pte) (g : Nat → List Nat), (nextOf (d + 1) e).elim [] g =
      if !isPresent e || isHuge e then [] else g (pteAddr e) := by
    intro d e g
    rw [helim]
    cases isPresent e <;> cases isHuge e <;> rfl
  have hpd : ∀ t, postorder nextOf (entry m) userIdx 1 2 t = (List.range 512).flatMap (fun i2 =>
      if !isPresent (entry m t i2) || isHuge (entry m t i2) then [] else [pteAddr (entry m t i2)]) ++ [t] := by
    intro t
    rw [postorder]
    refine congrArg (· ++ [t]) (List.flatMap_congr fun i2 _ => ?_)
    exact hdeep 1 _ _
  have hpdpt : ∀ t, postorder nextOf (entry m) userIdx 2 1 t = (List.range 512).flatMap (fun i3 =>
      if !isPresent (entry m t i3) || isHuge (entry m t i3) then []
      else postorder nextOf (entry m) userIdx 1 2 (pteAddr (entry m t i3))) ++ [t] := by
    intro t
    rw [postorder]
    refine congrArg (· ++ [t]) (List.flatMap_congr fun i3 _ => ?_)
    exact hdeep 0 _ _
  rw [postorder, tableFrees]
  refine congrArg (· ++ [pml4]) (List.flatMap_congr fun i4 _ => ?_)
  rw [helim, hpdpt]
  simp only [hpd]
  cases isPresent (entry m pml4 i4) <;> rfl

theorem along_user {p : List Nat} : p.length ≤ 3 ∧ Along userIdx 0 p ↔ IsUser p := by
  have hdeep : ∀ (p : List Nat) (d : Nat), Along userIdx (d + 1) p ↔ ∀ i ∈ p, i < 512 := by
    intro p
    induction p with
    | nil => exact fun _ => iff_of_true trivial nofun
    | cons i p ih =>
      intro d
      rw [Along, ih, List.forall_mem_cons, userIdx, if_neg (Nat.succ_ne_zero d), List.mem_range]
  cases p with
  | nil => exact iff_of_true ⟨Nat.zero_le _, trivial⟩ ⟨⟨Nat.zero_le _, nofun⟩, nofun⟩
  | cons i p =>
    rw [Along, hdeep, show userIdx 0 = List.range 256 from rfl, List.mem_range, IsUser, IsPath, List.forall_mem_cons]
    constructor
    · rintro ⟨hlen, hi, hp⟩
      refine ⟨⟨hlen, Nat.lt_trans hi (by decide), hp⟩, ?_⟩
      rintro j ⟨⟩
      exact hi
    · rintro ⟨⟨hlen, -, hp⟩, hi⟩
      exact ⟨hlen, hi i rfl, hp⟩

/-- **The walk** frees the tables of the user half. -/
theorem mem_tableFrees {m : ByteMem} {pml4 f : Nat} :
    f ∈ tableFrees m pml4 ↔ ∃ q, IsUser q ∧ tableAt m pml4 q = some f := by
  rw [tableFrees_eq, mem_postorder]
  constructor
  · rintro ⟨p, hlen, halong, hp⟩
    exact ⟨p, along_user.1 ⟨hlen, halong⟩, hp⟩
  · rintro ⟨q, hq, ht⟩
    obtain ⟨hlen, halong⟩ := along_user.2 hq
    exact ⟨q, hlen, halong, ht⟩

/-- It frees each of them once. -/
theorem tableFrees_nodup {m : ByteMem} {pml4 : Nat} (h : UserTree IsPath m pml4) : (tableFrees m pml4).Nodup := by
  rw [tableFrees_eq]
  refine nodup_postorder (fun d => List.nodup_range) 3 0 pml4 fun {p q t} hp hq hap haq hwp hwq => ?_
  have huser := along_user.1 ⟨hp, hap⟩
  have huser' := along_user.1 ⟨hq, haq⟩
  exact h.unique huser' huser.1 hwq hwp

/-- Frames in use, none of them twice, are freed. -/
theorem freeFrames (fs : List Nat) : ∀ {vm : Vm σ} {calls : List Nat}, fs.Nodup → (∀ f ∈ fs, ¬Free vm.pmm f) →
    ∃ pmm, fs.foldlM freeFrame (vm, calls) = some ({ vm with pmm }, calls ++ fs) ∧
      (∀ g, Managed pmm g ↔ Managed vm.pmm g) ∧ ∀ g, Free pmm g ↔ Free vm.pmm g ∨ (g ∈ fs ∧ Managed vm.pmm g) := by
  induction fs with
  | nil =>
    intro vm calls _ _
    refine ⟨vm.pmm, by rw [List.append_nil]; rfl, fun _ => Iff.rfl, fun g => ?_⟩
    simp
  | cons f fs ih =>
    intro vm calls hnodup hused
    obtain ⟨hnew, hnodup⟩ := List.nodup_cons.1 hnodup
    rw [List.foldlM_cons]
    cases hout : pmmFree vm.pmm f with
    | none => exact absurd (free_none.1 hout) (hused f List.mem_cons_self)
    | some s =>
      obtain ⟨hman, hs⟩ := free_some hout
      have hused' : ∀ g ∈ fs, ¬Free s g := by
        intro g hg hfree
        rcases (hs g).1 hfree with hfree | ⟨rfl, -⟩
        · exact hused g (List.mem_cons_of_mem _ hg) hfree
        · exact hnew hg
      obtain ⟨pmm, hrun, hman', hfree'⟩ := @ih { vm with pmm := s } (calls ++ [f]) hnodup hused'
      refine ⟨pmm, ?_, fun g => (hman' g).trans (hman g), fun g => ?_⟩
      · have hstep : freeFrame (vm, calls) f = some ({ vm with pmm := s }, calls ++ [f]) := by
          rw [freeFrame, hout]
          rfl
        rw [hstep, Option.bind_eq_bind, Option.bind_some, hrun, List.append_assoc, List.singleton_append]
      · rw [hfree' g, hs g, hman g, List.mem_cons]
        constructor
        · rintro ((hfree | ⟨rfl, hm⟩) | ⟨hg, hm⟩)
          · exact .inl hfree
          · exact .inr ⟨.inl rfl, hm⟩
          · exact .inr ⟨.inr hg, hm⟩
        · rintro (hfree | ⟨rfl | hg, hm⟩)
          · exact .inl (.inl hfree)
          · exact .inl (.inr ⟨rfl, hm⟩)
          · exact .inr ⟨hg, hm⟩

/-! ## The pages of the VMAs

What is dropped and what was freed are followed together, one page at a time, over all VMAs. A VMA that overlaps
another one finds some of its pages gone.
-/

/-- Pages were dropped, and `out.2` lists the frames of those that were mapped, each once. -/
structure Reaped (vm₀ : Vm σ) (out : Vm σ × List Nat) (pml4 : Nat) (gone : Nat → Prop) : Prop where
  dropped : Dropped vm₀ out.1 pml4 gone
  nodup : out.2.Nodup
  mem {f} : f ∈ out.2 ↔ ∃ p, gone p ∧ Maps vm₀.mem pml4 p f

/-- The VMA is one of whole pages below `VMM_USER_END`. -/
structure UserVma (vma : Vma) : Prop where
  start_mod : vma.start % pageSize = 0
  stop_mod : vma.stop % pageSize = 0
  below : vma.stop ≤ vmmUserEnd

/-- Such are those of ranges below `VMM_USER_END`. -/
theorem userVma_create {start size : Nat} (hend : start + size ≤ vmmUserEnd) (prot mapFlags : Nat) :
    UserVma (vmmCreateVma start size prot mapFlags) where
  start_mod := alignDown_mod start
  stop_mod := alignUp_mod _
  below := by
    have hlt : start + size < 2 ^ 64 := Nat.lt_of_le_of_lt hend (by decide)
    rw [vmmCreateVma, Nat.mod_eq_of_lt hlt, alignUp_of_le hend]
    exact (pagesOf_le (by decide)).2 hend

namespace Reaped

variable {vm₀ : Vm σ} {out : Vm σ × List Nat} {pml4 : Nat} {gone : Nat → Prop}

theorem refl (h : SpaceInv vm₀ pml4) : Reaped vm₀ (vm₀, []) pml4 fun _ => False where
  dropped := Dropped.refl h.tree
  nodup := List.nodup_nil
  mem := iff_of_false nofun fun ⟨_, hp, _⟩ => hp

theorem congr (h : Reaped vm₀ out pml4 gone) {gone' : Nat → Prop} (hiff : ∀ p, gone' p ↔ gone p) :
    Reaped vm₀ out pml4 gone' := by
  obtain rfl : gone' = gone := by
    funext p
    exact propext (hiff p)
  exact h

variable (h₀ : SpaceInv vm₀ pml4)
include h₀

/-- One page: its frame is freed if it is still mapped. -/
theorem page (h : Reaped vm₀ out pml4 gone) {p : Nat} (hp : p * pageSize < 2 ^ 47) :
    ∃ out', reapPage pml4 out (p * pageSize) = some out' ∧ Reaped vm₀ out' pml4 fun q => gone q ∨ q = p := by
  rw [reapPage]
  by_cases hphys : vmmVirtToPhys out.1.mem pml4 (p * pageSize) = 0
  · -- not mapped, or gone already
    have hnone : ¬gone p → vmmVirtToPhys vm₀.mem pml4 (p * pageSize) = 0 := by
      intro hg
      rw [← hphys, h.dropped.same (.inl hp)]
      rwa [Nat.mul_div_cancel p (by decide)]
    refine ⟨out, if_neg (not_not_intro hphys), ?_⟩
    exact {
      dropped := by
        refine h.dropped.congr h₀ (fun _ => .inl) fun q hq _ hg => ?_
        obtain rfl := hq.resolve_left hg
        exact hnone hg
      nodup := h.nodup
      mem := fun {f} => by
        rw [h.mem]
        refine ⟨fun ⟨q, hq, hm⟩ => ⟨q, .inl hq, hm⟩, fun ⟨q, hq, hm⟩ => ?_⟩
        by_cases hg : gone q
        · exact ⟨q, hg, hm⟩
        · obtain rfl := hq.resolve_left hg
          exact absurd (hm.2.2.symm.trans (hnone hg)) hm.2.1 }
  · have hm : Maps out.1.mem pml4 p _ := ⟨hp, hphys, rfl⟩
    obtain ⟨hg, hm₀⟩ := h.dropped.maps hm
    obtain ⟨s, hs, hd⟩ := h.dropped.freePage h₀ hm
    have hpmm := (vmmUnmap_frame h.dropped.tree hp).2.1
    refine ⟨({ out.1.vmmUnmap pml4 (p * pageSize) with pmm := s },
      out.2 ++ [vmmVirtToPhys out.1.mem pml4 (p * pageSize)]), ?_, ?_⟩
    · simp only
      rw [if_pos hphys, freeFrame, hpmm, hs]
      rfl
    · generalize vmmVirtToPhys out.1.mem pml4 (p * pageSize) = f at hm₀
      exact {
        dropped := hd
        nodup := by
          refine List.nodup_append.2 ⟨h.nodup, List.nodup_singleton f, ?_⟩
          rintro g hmem g' hlast rfl
          obtain rfl := List.mem_singleton.1 hlast
          obtain ⟨q, hq, hmq⟩ := h.mem.1 hmem
          exact hg (h₀.inj hm₀ hmq ▸ hq)
        mem := fun {g} => by
          rw [List.mem_append, List.mem_singleton, h.mem]
          constructor
          · rintro (⟨q, hq, hmq⟩ | rfl)
            · exact ⟨q, .inl hq, hmq⟩
            · exact ⟨p, .inr rfl, hm₀⟩
          · rintro ⟨q, hq | rfl, hmq⟩
            · exact .inl ⟨q, hq, hmq⟩
            · exact .inr (hmq.2.2.symm.trans hm₀.2.2) }

/-- Pages one after the other. -/
theorem pages (ps : List Nat) : ∀ {out : Vm σ × List Nat} {gone : Nat → Prop}, (∀ p ∈ ps, p * pageSize < 2 ^ 47) →
    Reaped vm₀ out pml4 gone → ∃ out', ps.foldlM (fun out p => reapPage pml4 out (p * pageSize)) out = some out' ∧
      Reaped vm₀ out' pml4 fun q => gone q ∨ q ∈ ps := by
  induction ps with
  | nil =>
    intro out gone _ h
    exact ⟨out, rfl, h.congr fun p => or_iff_left (List.not_mem_nil)⟩
  | cons p ps ih =>
    intro out gone hps h
    obtain ⟨out₁, hpage, h₁⟩ := h.page h₀ (hps p List.mem_cons_self)
    obtain ⟨out', hrest, h'⟩ := ih (fun q hq => hps q (List.mem_cons_of_mem _ hq)) h₁
    refine ⟨out', ?_, h'.congr fun q => ?_⟩
    · rw [List.foldlM_cons, hpage]
      exact hrest
    · rw [List.mem_cons, or_assoc]

/-- The pages of a VMA. -/
theorem vma (h : Reaped vm₀ out pml4 gone) {vma : Vma} (hv : UserVma vma) :
    ∃ out', reapPages pml4 out vma = some out' ∧ Reaped vm₀ out' pml4 fun q => gone q ∨ vma.Has q := by
  obtain ⟨a, ha⟩ : ∃ a, vma.start = a * pageSize :=
    ⟨vma.start / pageSize, (Nat.div_mul_cancel (Nat.dvd_of_mod_eq_zero hv.start_mod)).symm⟩
  obtain ⟨b, hb⟩ : ∃ b, vma.stop = b * pageSize :=
    ⟨vma.stop / pageSize, (Nat.div_mul_cancel (Nat.dvd_of_mod_eq_zero hv.stop_mod)).symm⟩
  have hcount : vma.count = b - a := by
    rw [Vma.count, ha, hb, pageSize]
    omega
  have hhas : ∀ q, vma.Has q ↔ q ∈ List.range' a (b - a) := by
    intro q
    rw [Vma.Has, ha, hb, List.mem_range'_1, Nat.mul_le_mul_right_iff (by decide), Nat.mul_lt_mul_right (by decide)]
    omega
  have huser : ∀ p ∈ List.range' a (b - a), p * pageSize < 2 ^ 47 := by
    intro p hp
    have hlt : p * pageSize < vma.stop := ((hhas p).2 hp).2
    exact Nat.lt_of_lt_of_le hlt (Nat.le_trans hv.below (by decide))
  obtain ⟨out', hrun, h'⟩ := pages h₀ (List.range' a (b - a)) huser h
  refine ⟨out', ?_, h'.congr fun q => or_congr_right (hhas q)⟩
  rw [reapPages, hcount, ← hrun, List.range'_eq_map_range, List.foldlM_map, ha]
  refine foldlM_ext _ (fun i _ out => ?_) out
  rw [← Nat.add_mul]

/-- All VMAs, in their order, with headers in front of all of their blocks. -/
theorem vmas {headed : Nat → Bool} (vs : List Vma) : ∀ {n : Nat} {out : Vm σ × List Nat} {gone : Nat → Prop},
    (∀ v ∈ vs, UserVma v) → (∀ k < vs.length, headed (n + k) = true) → Reaped vm₀ out pml4 gone →
    ∃ out', (vs.zipIdx n).foldlM (reapVma pml4 headed) out = some out' ∧
      Reaped vm₀ out' pml4 fun q => gone q ∨ ∃ v ∈ vs, v.Has q := by
  induction vs with
  | nil =>
    intro n out gone _ _ h
    exact ⟨out, rfl, h.congr fun p => or_iff_left fun ⟨v, hv, _⟩ => List.not_mem_nil hv⟩
  | cons v vs ih =>
    intro n out gone hvs hheaded h
    obtain ⟨out₁, hvma, h₁⟩ := h.vma h₀ (hvs v List.mem_cons_self)
    obtain ⟨out', hrest, h'⟩ := @ih (n + 1) _ _ (fun w hw => hvs w (List.mem_cons_of_mem _ hw)) (fun k hk => by
      rw [Nat.add_assoc, Nat.add_comm 1 k]
      exact hheaded (k + 1) (Nat.succ_lt_succ hk)) h₁
    refine ⟨out', ?_, h'.congr fun q => ?_⟩
    · have hblock : headed n = true := hheaded 0 (Nat.succ_pos _)
      have hstep : reapVma pml4 headed out (v, n) = some out₁ := by
        rw [reapVma, hvma, Option.bind_eq_bind, Option.bind_some, kfreeBlock, if_pos hblock]
      rw [List.zipIdx_cons, List.foldlM_cons, hstep]
      exact hrest
    · simp only [List.mem_cons, exists_eq_or_imp, or_assoc]

end Reaped

/-! ## The whole call

The two phases one after the other, and the count.
-/

/-- A frame of the user half: one of its tables, or under one of its pages. -/
def UserFrame (m : ByteMem) (pml4 f : Nat) : Prop :=
  (∃ q, IsUser q ∧ tableAt m pml4 q = some f) ∨ ∃ p, Maps m pml4 p f

/-- A space was destroyed: its tables and the frames under the pages of its VMAs were freed, each once, and nothing else
    happened. -/
structure Destroyed (vm vm' : Vm σ) (space : Space) (calls : List Nat) : Prop where
  nodup : calls.Nodup
  mem {f} : f ∈ calls ↔ (∃ q, IsUser q ∧ tableAt vm.mem space.pml4 q = some f) ∨
    ∃ v ∈ space.vmas, ∃ p, v.Has p ∧ Maps vm.mem space.pml4 p f
  free {f} : Free vm'.pmm f ↔ Free vm.pmm f ∨ (f ∈ calls ∧ Managed vm.pmm f)
  managed {f} : Managed vm'.pmm f ↔ Managed vm.pmm f
  outside {x} : (∀ q t, IsUser q → tableAt vm.mem space.pml4 q = some t → x < t ∨ t + pageSize ≤ x) →
    vm'.mem x = vm.mem x

/-- Only frames of its user half are freed. -/
theorem Destroyed.userFrame {vm vm' : Vm σ} {space : Space} {calls : List Nat} (h : Destroyed vm vm' space calls) {f : Nat}
    (hf : f ∈ calls) : UserFrame vm.mem space.pml4 f := by
  rcases h.mem.1 hf with htab | ⟨v, -, p, -, hm⟩
  · exact .inl htab
  · exact .inr ⟨p, hm⟩

/-- **The frames of a space in order are freed** without a panic, if `kfree` finds the headers of its `vma_t`s. -/
theorem destroyFrames_spec {vm : Vm σ} {space : Space} {headed : Nat → Bool} (h : SpaceInv vm space.pml4)
    (hvmas : ∀ v ∈ space.vmas, UserVma v) (hheaded : ∀ k < space.vmas.length, headed k = true) :
    ∃ vm' calls, vm.destroyFrames space headed = some (vm', calls) ∧ Destroyed vm vm' space calls := by
  obtain ⟨out, hrun, hr⟩ := @Reaped.vmas σ _ _ _ h headed space.vmas 0 _ _ hvmas (fun k hk => by
    rw [Nat.zero_add]
    exact hheaded k hk) (Reaped.refl h)
  have hd := hr.dropped
  -- what the first phase has dropped are pages, so the tables are those from before
  have htab : ∀ {f}, f ∈ tableFrees out.1.mem space.pml4 ↔ ∃ q, IsUser q ∧ tableAt vm.mem space.pml4 q = some f := by
    intro f
    rw [mem_tableFrees]
    refine exists_congr fun q => and_congr_right fun hq => ?_
    rw [hd.tables hq.1]
  have hused : ∀ f ∈ tableFrees out.1.mem space.pml4, ¬Free out.1.pmm f := by
    intro f hf
    obtain ⟨q, hq, ht⟩ := htab.1 hf
    exact hd.tree.apart hq.1 ((hd.tables hq.1).trans ht)
  obtain ⟨pmm, hfrees, hman, hfree⟩ := @freeFrames σ _ (tableFrees out.1.mem space.pml4) out.1 out.2
    (tableFrees_nodup hd.tree.tree) hused
  have hmem : ∀ {f}, f ∈ out.2 ++ tableFrees out.1.mem space.pml4 ↔
      (∃ q, IsUser q ∧ tableAt vm.mem space.pml4 q = some f) ∨
        ∃ v ∈ space.vmas, ∃ p, v.Has p ∧ Maps vm.mem space.pml4 p f := by
    intro f
    rw [List.mem_append, htab, hr.mem, or_comm]
    refine or_congr_right ⟨?_, ?_⟩
    · rintro ⟨p, hp, hm⟩
      obtain ⟨v, hv, hhas⟩ := hp.resolve_left id
      exact ⟨v, hv, p, hhas, hm⟩
    · rintro ⟨v, hv, p, hhas, hm⟩
      exact ⟨p, .inr ⟨v, hv, hhas⟩, hm⟩
  refine ⟨{ out.1 with pmm }, out.2 ++ tableFrees out.1.mem space.pml4, ?_, ?_⟩
  · rw [Vm.destroyFrames, hrun]
    exact hfrees
  · exact {
      nodup := by
        -- a frame of a page is no table, and each of the two phases frees a frame once
        refine List.nodup_append.2 ⟨hr.nodup, tableFrees_nodup hd.tree.tree, ?_⟩
        rintro f hf g hg rfl
        obtain ⟨p, -, hm⟩ := hr.mem.1 hf
        obtain ⟨q, hq, ht⟩ := htab.1 hg
        exact (h.used hm).2 q hq.1 ht
      mem := hmem
      free := fun {f} => by
        rw [hfree f, hd.free, hd.managed, List.mem_append, hr.mem]
        constructor
        · rintro ((hfr | ⟨p, hp, hm, hmf⟩) | ⟨ht, hmf⟩)
          · exact .inl hfr
          · exact .inr ⟨.inl ⟨p, hp, hm⟩, hmf⟩
          · exact .inr ⟨.inr ht, hmf⟩
        · rintro (hfr | ⟨⟨p, hp, hm⟩ | ht, hmf⟩)
          · exact .inl (.inl hfr)
          · exact .inl (.inr ⟨p, hp, hm, hmf⟩)
          · exact .inr ⟨ht, hmf⟩
      managed := fun {f} => (hman f).trans hd.managed
      outside := fun {x} hx => hd.outside fun q t hq ht => hx q t hq ((hd.tables hq.1).symm.trans ht) }

/-- Where one of them has no header, the walk over the tables is not reached. -/
theorem reapVmas_headed {pml4 : Nat} {headed : Nat → Bool} (vs : List Vma) : ∀ {n : Nat} {out out' : Vm σ × List Nat},
    (vs.zipIdx n).foldlM (reapVma pml4 headed) out = some out' → ∀ k < vs.length, headed (n + k) = true := by
  induction vs with
  | nil =>
    intro n out out' _ k hk
    exact absurd hk (Nat.not_lt_zero k)
  | cons v vs ih =>
    intro n out out' hrun k hk
    rw [List.zipIdx_cons, List.foldlM_cons, Option.bind_eq_bind, Option.bind_eq_some_iff] at hrun
    obtain ⟨out₁, hstep, hrest⟩ := hrun
    cases k with
    | zero =>
      rw [reapVma, Option.bind_eq_bind, Option.bind_eq_some_iff] at hstep
      obtain ⟨out₂, -, hfree⟩ := hstep
      exact (Option.ite_none_right_eq_some.1 hfree).1
    | succ k =>
      rw [Nat.add_comm k 1, ← Nat.add_assoc]
      exact ih hrest k (Nat.lt_of_succ_lt_succ hk)

theorem destroyFrames_headed {vm : Vm σ} {space : Space} {headed : Nat → Bool} {out : Vm σ × List Nat}
    (hout : vm.destroyFrames space headed = some out) : ∀ k < space.vmas.length, headed k = true := by
  rw [Vm.destroyFrames, Option.bind_eq_bind, Option.bind_eq_some_iff] at hout
  obtain ⟨reaped, hreaped, -⟩ := hout
  intro k hk
  rw [← Nat.zero_add k]
  exact reapVmas_headed space.vmas hreaped k hk

/-- At the last reference the call frees the frames, and then `vmm_space_t`. -/
theorem vmmDestroySpace_last {vm : Vm σ} {space : Space} {blocks : SpaceBlocks} (hrefs : space.refs = 1) :
    vm.vmmDestroySpace space blocks = (vm.destroyFrames space blocks.vma).bind (kfreeBlock blocks.space) := by
  rw [Vm.vmmDestroySpace, if_neg (not_not_intro hrefs)]
  rfl

end MyUnix.Mm
