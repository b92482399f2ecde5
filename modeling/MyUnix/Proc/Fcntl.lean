import MyUnix.Arch.Machine
import MyUnix.Proc.FdRefs
import MyUnix.Proc.UserAccess

/-!
# `Proc.Fcntl` — the descriptor flags

`sys_fcntl` of `syscall_impl.c`. Its first argument has 64 bits. `get_file` sees the low 32 of them, as an `int`, and
checks these against the table; `F_GETFD` and `F_SETFD` then index the flags of the table with all 64.

A call gives back, with its result, the indices into the flags of the caller's table that it read or wrote. What lies
behind the `FD_MAX` bytes of flags is memory like any other, and `FdTable.flags` is total.

What is stated is about the two indices of one call, the one that was checked and the one that is used. They are the
same number for every argument of 32 bits. `F_DUPFD` and the status flags go through the file and touch no flag of the
table except that of the new descriptor, which `fd_alloc` has found.
-/

namespace MyUnix.Proc

open Arch

/-- `F_DUPFD`, `F_GETFD` and the rest, as `switch` compares them. -/
def fDupfd : Int := 0

/-- `F_GETFD`. -/
def fGetfd : Int := 1

/-- `F_SETFD`. -/
def fSetfd : Int := 2

/-- `F_GETFL`. -/
def fGetfl : Int := 3

/-- `F_SETFL`. -/
def fSetfl : Int := 4

/-- `F_DUPFD_CLOEXEC`. -/
def fDupfdCloexec : Int := 1030

/-- The files with `f->flags`. -/
structure FileSys where
  fds    : FdSys
  fflags : Nat → BitVec 32

namespace FileSys

/-- `get_file`: `none` for `fdt` is a process that has no table, or no process. -/
def getFile (s : FileSys) (fdt : Option Nat) (fd : BitVec 32) : Option (Nat × Nat) × FileSys :=
  match fdt with
  | none   => (none, s)
  | some t => ((s.fds.fdGet t fd.toInt).1.map fun f => (t, f), { s with fds := (s.fds.fdGet t fd.toInt).2 })

/-- The `switch` of `sys_fcntl` for file `f`: the result, and the flags that are touched. -/
def fcntlCmd (s : FileSys) (t f : Nat) (fd cmd arg : Word) : Word × List Nat × FileSys :=
  let c := (cmd.setWidth 32).toInt
  let flags := (s.fds.tables t).flags fd.toNat
  if c = fGetfd then (if flags &&& fdFlagCloexec ≠ 0 then 1 else 0, [fd.toNat], s)
  else if c = fSetfd then
    let flags := if arg &&& 1 ≠ 0 then flags ||| fdFlagCloexec else flags &&& 0xFE
    (0, [fd.toNat], { s with fds := s.fds.setFlags t fd.toNat flags })
  else if c = fGetfl then ((s.fflags f).signExtend 64, [], s)
  else if c = fSetfl then (0, [], { s with fflags := Function.update s.fflags f (arg.setWidth 32) })
  else if c = fDupfd ∨ c = fDupfdCloexec then
    let (newFd, fds) := s.fds.fdAlloc t f
    -- this comparison is made with all 64 bits of `cmd`
    if 0 ≤ newFd ∧ cmd = BitVec.ofInt 64 fDupfdCloexec then
      let flags := (fds.tables t).flags newFd.toNat ||| fdFlagCloexec
      (BitVec.ofInt 64 newFd, [newFd.toNat], { s with fds := fds.setFlags t newFd.toNat flags })
    else (BitVec.ofInt 64 newFd, [], { s with fds })
  else (BitVec.ofInt 64 (-einval), [], s)

/-- `sys_fcntl`. -/
def sysFcntl (s : FileSys) (fdt : Option Nat) (fd cmd arg : Word) : Word × List Nat × FileSys :=
  match s.getFile fdt (fd.setWidth 32) with
  | (none, s)        => (BitVec.ofInt 64 (-ebadf), [], s)
  | (some (t, f), s) =>
    let (r, touched, s) := s.fcntlCmd t f fd cmd arg
    (r, touched, { s with fds := { s.fds.filePut f with held := Function.update s.fds.held f (s.fds.held f - 1) } })

/-! ## The slot that is meant

`(int)fd` as a number with a sign, and when it is the argument.
-/

variable {s : FileSys} {fdt : Option Nat} {fd cmd arg : Word} {t f : Nat}

/-- The file comes from a slot of the table. -/
theorem getFile_some {n : BitVec 32} (h : (s.getFile fdt n).1 = some (t, f)) :
    fdt = some t ∧ 0 ≤ n.toInt ∧ n.toInt < fdMax ∧ (s.fds.tables t).fds n.toInt.toNat = some f := by
  cases fdt with
  | none => cases h
  | some t' =>
    obtain ⟨f', hget, hpair⟩ := Option.map_eq_some_iff.mp (show (s.fds.fdGet t' n.toInt).1.map _ = some (t, f) from h)
    obtain ⟨rfl, rfl⟩ := Prod.mk.inj hpair
    rw [FdSys.fdGet] at hget
    split at hget
    next => cases hget
    next hin =>
      rw [not_or, not_lt, not_le] at hin
      split at hget
      next g hslot =>
        cases hget
        exact ⟨rfl, hin.1, hin.2, hslot⟩
      next => cases hget

theorem fdAlloc_lt (s : FdSys) (t f : Nat) (h : 0 ≤ (s.fdAlloc t f).1) : (s.fdAlloc t f).1.toNat < fdMax := by
  revert h
  unfold FdSys.fdAlloc
  split
  next i hfind =>
    intro _
    exact List.mem_range.mp (List.mem_of_find?_eq_some hfind)
  next =>
    intro h
    exact absurd (show (0 : Int) ≤ -emfile from h) (by decide)

theorem touched_of_fd (h : (cmd.setWidth 32).toInt = fGetfd ∨ (cmd.setWidth 32).toInt = fSetfd) :
    (s.fcntlCmd t f fd cmd arg).2.1 = [fd.toNat] := by
  rw [fcntlCmd]
  rcases h with h | h
  · rw [h, if_pos rfl]
  · rw [h, if_neg (by decide), if_pos rfl]

theorem touched_of_not_fd (h : ¬((cmd.setWidth 32).toInt = fGetfd ∨ (cmd.setWidth 32).toInt = fSetfd)) :
    ∀ i ∈ (s.fcntlCmd t f fd cmd arg).2.1, i < fdMax := by
  rw [not_or] at h
  intro i hi
  rw [fcntlCmd, if_neg h.1, if_neg h.2] at hi
  split at hi
  next => cases hi
  next =>
    split at hi
    next => cases hi
    next =>
      split at hi
      next =>
        split at hi
        next newFd fds halloc =>
          split at hi
          next hnew =>
            rw [List.mem_singleton.mp hi]
            have hlt := fdAlloc_lt s.fds t f
            rw [halloc] at hlt
            exact hlt hnew.1
          next => cases hi
      next => cases hi

theorem touched_eq (h : (s.getFile fdt (fd.setWidth 32)).1 = some (t, f)) :
    (s.sysFcntl fdt fd cmd arg).2.1 = ((s.getFile fdt (fd.setWidth 32)).2.fcntlCmd t f fd cmd arg).2.1 := by
  rw [sysFcntl]
  split
  next s' heq =>
    rw [heq] at h
    cases h
  next t' f' s' heq =>
    rw [heq] at h ⊢
    cases h
    rfl

theorem touched_nil (h : (s.getFile fdt (fd.setWidth 32)).1 = none) : (s.sysFcntl fdt fd cmd arg).2.1 = [] := by
  rw [sysFcntl]
  split
  next => rfl
  next t' f' s' heq =>
    rw [heq] at h
    cases h

end FileSys

/-- An argument whose low half is a descriptor: with 32 bits it is the descriptor. -/
theorem toInt_of_lt {fd : Word} (h : fd.toNat < 2 ^ 32) (hpos : 0 ≤ (fd.setWidth 32).toInt) :
    (fd.setWidth 32).toInt = fd.toNat := by
  rw [BitVec.toInt_eq_toNat_cond, BitVec.toNat_setWidth, Nat.mod_eq_of_lt h] at hpos ⊢
  have hlt := h
  split
  next => rfl
  next hbig =>
    rw [if_neg hbig] at hpos
    omega

/-- Each of the flags that the call touches belongs to the table, and for `F_GETFD` and `F_SETFD` to the slot with the file
    that `get_file` has found. -/
def FlagsInside (s : FileSys) (fdt : Option Nat) (fd cmd arg : Word) : Prop :=
  ∀ i ∈ (s.sysFcntl fdt fd cmd arg).2.1, i < fdMax ∧
    ((cmd.setWidth 32).toInt = fGetfd ∨ (cmd.setWidth 32).toInt = fSetfd →
      (i : Int) = (fd.setWidth 32).toInt ∧
      ∃ t f, (s.getFile fdt (fd.setWidth 32)).1 = some (t, f) ∧ (s.fds.tables t).fds i = some f)

/-- **When `sys_fcntl` stays inside the flags of the table**: the argument has 32 bits, or there is no such file, or the
    command is not about the flags of a descriptor. -/
theorem fcntl_flags_iff (s : FileSys) (fdt : Option Nat) (fd cmd arg : Word) :
    FlagsInside s fdt fd cmd arg ↔
      (s.getFile fdt (fd.setWidth 32)).1 = none ∨
      ((cmd.setWidth 32).toInt ≠ fGetfd ∧ (cmd.setWidth 32).toInt ≠ fSetfd) ∨ fd.toNat < 2 ^ 32 := by
  rcases hfile : (s.getFile fdt (fd.setWidth 32)).1 with _ | ⟨t, f⟩
  · refine iff_of_true (fun i hi => ?_) (.inl rfl)
    rw [FileSys.touched_nil hfile] at hi
    cases hi
  obtain ⟨-, hpos, hlt, hslot⟩ := FileSys.getFile_some hfile
  by_cases hcmd : (cmd.setWidth 32).toInt = fGetfd ∨ (cmd.setWidth 32).toInt = fSetfd
  · have htouched : (s.sysFcntl fdt fd cmd arg).2.1 = [fd.toNat] := by
      rw [FileSys.touched_eq hfile, FileSys.touched_of_fd hcmd]
    constructor
    · intro h
      have hin := (h fd.toNat (htouched ▸ List.mem_singleton_self _)).1
      refine .inr (.inr (hin.trans (by decide)))
    · rintro (hno | ⟨hne, hne'⟩ | hsmall) i hi
      · cases hno
      · exact absurd hcmd (not_or.mpr ⟨hne, hne'⟩)
      · rw [htouched, List.mem_singleton] at hi
        subst hi
        have hsame := toInt_of_lt hsmall hpos
        rw [hsame] at hlt hslot
        rw [Int.toNat_natCast] at hslot
        exact ⟨by omega, fun _ => ⟨hsame.symm, t, f, hfile, hslot⟩⟩
  · refine iff_of_true (fun i hi => ⟨?_, fun h => absurd h hcmd⟩) (.inr (.inl (not_or.mp hcmd)))
    rw [FileSys.touched_eq hfile] at hi
    exact FileSys.touched_of_not_fd hcmd i hi

/-- A table whose slot 0 has a file. -/
def oneFile : FileSys := ⟨((fdInit.fileAlloc .none).fdTableCreate.fdAlloc 0 0).2, fun _ => 0⟩

/-- **The descriptor 2 ^ 32** passes for descriptor 0, and `F_GETFD` reads 4 GiB behind the table. -/
theorem fcntl_reads_behind :
    (oneFile.getFile (some 0) ((0x100000000#64).setWidth 32)).1 = some (0, 0) ∧
    (oneFile.sysFcntl (some 0) 0x100000000#64 1#64 0#64).2.1 = [2 ^ 32] ∧
    ¬FlagsInside oneFile (some 0) 0x100000000#64 1#64 0#64 := by
  have htouched : (oneFile.sysFcntl (some 0) 0x100000000#64 1#64 0#64).2.1 = [2 ^ 32] := by decide +kernel
  refine ⟨by decide +kernel, htouched, fun h => ?_⟩
  have hin := (h (2 ^ 32) (htouched ▸ List.mem_singleton_self _)).1
  exact absurd hin (by decide)

end MyUnix.Proc
