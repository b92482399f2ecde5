import MyUnix.Mm.Vmm
import MyUnix.Proc.FdRefs
import MyUnix.Proc.UserCopies

/-!
# `Proc.SysPipe` — a pipe and its two descriptors

`pipe_create` of `main.c`, the two close callbacks as far as they release the pipe, and `sys_pipe`, over the descriptor
tables of `Proc.FdTable`. `kzalloc` answers each request as it likes. A pipe is made of five blocks of the heap: the
`pipe_t`, its two queues and its two files.

`sys_pipe` gives up its own references before its last step, which can still fail: `copy_to_user`. Nothing takes the two
descriptors out of the table then. Where the table has no room for both, the first one is taken out again, and what
is left of the slot is an empty slot with its flags cleared.

The call has five requests to the heap, two descriptors and a copy to the user, each of which can fail. The outcomes
are told apart by how much room the table has (`freeSlots`): none, one slot, or two and more. In each of them it is
said what the table and the blocks are afterwards, and the equivalence puts these together.

`close` follows the two callbacks as far as they release anything. The queue of the other end is woken through its
pointer, and is null when it could not be had.
-/

namespace MyUnix.Proc

open Arch Ipc Lib

/-- The blocks of a pipe: `rq` is the queue of the read end. -/
inductive PipeBlock where
  | pipe
  | queue (e : End)
  | file (e : End)
deriving DecidableEq

/-- `pipe_t`, and which of its blocks are allocated. -/
structure PipeObj where
  live     : PipeBlock → Bool
  closed   : End → Bool
  refcount : Int

namespace PipeObj

/-- A block is given back: what `kfree` leaves where it returns. -/
def giveBack (o : PipeObj) (b : PipeBlock) : PipeObj := { o with live := Function.update o.live b false }

/-- `pipe_close_read` and `pipe_close_write`. A queue that could not be had is a null pointer to `wq_wake_all`. -/
def close (o : PipeObj) (e : End) : Option PipeObj :=
  if o.live (.queue e.other) then
    let o := { o with closed := Function.update o.closed e true, refcount := o.refcount - 1 }
    some (if o.refcount = 0 then ((o.giveBack (.queue .read)).giveBack (.queue .write)).giveBack .pipe else o)
  else none

end PipeObj

/-- The files with the pipes behind them. -/
structure PipeFds where
  fds    : FdSys
  npipes : Nat
  pipes  : Nat → PipeObj
  /-- `f->private` and `f->ops` of a file that is an end of a pipe. -/
  endOf  : Nat → Option (Nat × End)

namespace PipeFds

variable (s : PipeFds) (t f p : Nat) (e : End)

/-- The pipe object `p` becomes `o`. -/
def setPipe (o : PipeObj) : PipeFds := { s with pipes := Function.update s.pipes p o }

/-- `file_put`. The close callbacks of other files leave the pipes alone. -/
def filePut : Option PipeFds :=
  let s' := { s with fds := s.fds.filePut f }
  if s.fds.refs f - 1 = 0 then
    match s.endOf f with
    | some (p, e) => ((s.pipes p).close e).map fun o => s'.setPipe p (o.giveBack (.file e))
    | none        => some s'
  else some s'

/-- `file_put` of a reference that the caller holds. -/
def callerPut : Option PipeFds :=
  (s.filePut f).map fun s' => { s' with fds := { s'.fds with held := Function.update s.fds.held f (s.fds.held f - 1) } }

/-- `fd_alloc`. -/
def fdAlloc : Int × PipeFds := ((s.fds.fdAlloc t f).1, { s with fds := (s.fds.fdAlloc t f).2 })

/-- `fd_close`, with the close of a pipe end. -/
def fdClose (fd : Int) : Option (Int × PipeFds) :=
  if fd < 0 ∨ fdMax ≤ fd then some (-ebadf, s)
  else match (s.fds.tables t).fds fd.toNat with
    | some f => (({ s with fds := s.fds.setSlot t fd.toNat none 0 } : PipeFds).filePut f).map fun s => (0, s)
    | none   => some (-ebadf, s)

/-- The two files of `pipe_create`, set up: the read end first. -/
def setUp : PipeFds :=
  { s with fds := (s.fds.fileAlloc .ops).fileAlloc .ops
           endOf := Function.update (Function.update s.endOf s.fds.nfiles (some (p, .read))) (s.fds.nfiles + 1)
             (some (p, .write)) }

/-- `pipe_create`: the files of the two ends, or the error. -/
def pipeCreate (mem : PipeBlock → Bool) : Except Int (Nat × Nat) × PipeFds :=
  if mem .pipe then
    let o : PipeObj := { live := mem, closed := fun _ => false, refcount := 2 }
    let s' := { s with npipes := s.npipes + 1, pipes := Function.update s.pipes s.npipes o }
    if mem (.file .read) ∧ mem (.file .write) then (.ok (s.fds.nfiles, s.fds.nfiles + 1), s'.setUp s.npipes)
    else (.error (-enomem), s'.setPipe s.npipes (((o.giveBack (.file .read)).giveBack (.file .write)).giveBack .pipe))
  else (.error (-enomem), s)

/-- `if (fd >= 0) fd_close(FDT, fd);` -/
def closeIf (fd : Int) : Option PipeFds := if 0 ≤ fd then (s.fdClose t fd).map Prod.snd else some s

/-- `sys_pipe`, for a process with descriptor table `t`: `none` if it faults in the kernel. -/
def sysPipe (u : User) (pipefdPtr : Word) (mem : PipeBlock → Bool) : Option (Int × PipeFds × User) :=
  match s.pipeCreate mem with
  | (.error r, s) => some (r, s, u)
  | (.ok (readF, writeF), s) =>
    let (fd0, s) := s.fdAlloc t readF
    let (fd1, s) := s.fdAlloc t writeF
    do
      -- the references of the call are given back before the two results are looked at
      let s ← s.callerPut readF
      let s ← s.callerPut writeF
      if fd0 < 0 ∨ fd1 < 0 then
        let s ← s.closeIf t fd0
        let s ← s.closeIf t fd1
        return (-emfile, s, u)
      else
        -- nothing takes the descriptors back where this copy fails
        let (u, r) := copyToUser u (.arg 0) pipefdPtr (leBytes 4 fd0.toNat ++ leBytes 4 fd1.toNat)
        return (if r < 0 then -efault else 0, s, u)

end PipeFds

/-! ## Empty slots

The lowest one is taken, so the list of empty slots loses its head.
-/

/-- The empty slots of a table, the lowest first. -/
def freeSlots (table : FdTable) : List Nat := (List.range fdMax).filter fun i => table.fds i = none

theorem find?_eq_head? (table : FdTable) :
    ((List.range fdMax).find? fun i => table.fds i = none) = (freeSlots table).head? := by
  rw [freeSlots, List.head?_filter]

theorem fdAlloc_of_nil {s : FdSys} {t : Nat} (f : Nat) (h : freeSlots (s.tables t) = []) : s.fdAlloc t f = (-emfile, s) := by
  have hfind := find?_eq_head? (s.tables t)
  rw [h] at hfind
  unfold FdSys.fdAlloc
  rw [hfind]
  rfl

theorem fdAlloc_of_cons {s : FdSys} {t i : Nat} {free : List Nat} (f : Nat) (h : freeSlots (s.tables t) = i :: free) :
    s.fdAlloc t f = ((i : Int), (s.setSlot t i (some f) 0).fileGet f) := by
  have hfind := find?_eq_head? (s.tables t)
  rw [h] at hfind
  unfold FdSys.fdAlloc
  rw [hfind]
  rfl

/-- The lowest slot is taken. -/
theorem freeSlots_fill {s : FdSys} {t i : Nat} {free : List Nat} (f flags : Nat) (h : freeSlots (s.tables t) = i :: free) :
    freeSlots ((s.setSlot t i (some f) flags).tables t) = free := by
  have hnodup : (i :: free).Nodup := by
    rw [← h]
    exact List.nodup_range.filter _
  have hsplit : freeSlots ((s.setSlot t i (some f) flags).tables t) = (freeSlots (s.tables t)).filter fun j => j ≠ i := by
    rw [freeSlots, freeSlots, List.filter_filter]
    refine List.filter_congr fun j _ => ?_
    by_cases hj : j = i
    · simp [hj, FdSys.setSlot, FdSys.setTable]
    · simp [hj, FdSys.setSlot, FdSys.setTable]
  rw [hsplit, h, List.filter_cons_of_neg (by simp)]
  refine List.filter_eq_self.mpr fun j hj => ?_
  have hne : j ≠ i := by
    rintro rfl
    exact (List.nodup_cons.mp hnodup).1 hj
  simpa using hne

theorem mem_freeSlots {table : FdTable} {i : Nat} : i ∈ freeSlots table ↔ i < fdMax ∧ table.fds i = none := by
  simp [freeSlots]

/-! ## The ends are closed

In whichever order; the second close releases the pipe with its queues.
-/

/-- **Both ends closed**, in either order: nothing is left of the pipe. -/
theorem PipeObj.close_both (o : PipeObj) (e : End) (h : o.refcount = 2) :
    ((o.close e).bind fun o => ((o.giveBack (.file e)).close e.other).map fun o => o.giveBack (.file e.other)) =
      if o.live (.queue .read) ∧ o.live (.queue .write) then some ⟨fun _ => false, fun _ => true, 0⟩ else none := by
  have hlive : Function.update (Function.update (Function.update (Function.update (Function.update o.live (.file e) false)
      (.queue .read) false) (.queue .write) false) .pipe false) (.file e.other) false = fun _ => false := by
    funext b
    rcases b with _ | d | d <;> cases e <;> try cases d
    all_goals simp [Function.update, End.other]
  have hclosed : Function.update (Function.update o.closed e true) e.other true = fun _ => true := by
    funext d
    cases e <;> cases d <;> simp [Function.update, End.other]
  have hother : e.other.other = e := by cases e <;> rfl
  by_cases hq : o.live (.queue e.other) = true
  · by_cases hq' : o.live (.queue e) = true
    · have hboth : o.live (.queue .read) = true ∧ o.live (.queue .write) = true := by
        cases e
        · exact ⟨hq', hq⟩
        · exact ⟨hq, hq'⟩
      rw [if_pos hboth]
      simp [close, hq, hq', giveBack, h, hother, hlive, hclosed]
    · have hnot : ¬(o.live (.queue .read) = true ∧ o.live (.queue .write) = true) := by
        rintro ⟨hr, hw⟩
        cases e
        · exact hq' hr
        · exact hq' hw
      rw [if_neg hnot]
      simp [close, hq, hq', giveBack, h, hother]
  · have hnot : ¬(o.live (.queue .read) = true ∧ o.live (.queue .write) = true) := by
      rintro ⟨hr, hw⟩
      cases e
      · exact hq hw
      · exact hq hr
    rw [if_neg hnot]
    simp [close, hq]

/-- The pipe as it is made, with its ends closed one after the other: it goes, or a queue is missing. -/
theorem PipeObj.close_both_cases {mem : PipeBlock → Bool} {e : End} {o : PipeObj} (ho : o = ⟨mem, fun _ => false, 2⟩) :
    (o.close e = none ∧ ¬(mem (.queue .read) = true ∧ mem (.queue .write) = true)) ∨
    ∃ o₁, o.close e = some o₁ ∧
      (((o₁.giveBack (.file e)).close e.other = none ∧ ¬(mem (.queue .read) = true ∧ mem (.queue .write) = true)) ∨
      ∃ o₂, (o₁.giveBack (.file e)).close e.other = some o₂ ∧ (mem (.queue .read) = true ∧ mem (.queue .write) = true) ∧
        ∀ b, (o₂.giveBack (.file e.other)).live b = false) := by
  subst ho
  have hboth := PipeObj.close_both ⟨mem, fun _ => false, 2⟩ e rfl
  rcases h₁ : PipeObj.close ⟨mem, fun _ => false, 2⟩ e with _ | o₁
  · refine .inl ⟨rfl, fun hq => ?_⟩
    rw [h₁, if_pos hq] at hboth
    cases hboth
  · refine .inr ⟨o₁, rfl, ?_⟩
    rw [h₁, Option.bind_some] at hboth
    rcases h₂ : (o₁.giveBack (.file e)).close e.other with _ | o₂
    · refine .inl ⟨rfl, fun hq => ?_⟩
      rw [h₂, if_pos hq] at hboth
      cases hboth
    · rw [h₂, Option.map_some] at hboth
      split at hboth
      next hq => exact .inr ⟨o₂, rfl, hq, fun b => by rw [Option.some.inj hboth]⟩
      next => cases hboth

namespace PipeFds

variable {s : PipeFds} {t f p : Nat} {e : End}

/-- What giving back a reference to `f` leaves alone. -/
structure Put (s s' : PipeFds) (f : Nat) : Prop where
  tables : s'.fds.tables = s.fds.tables
  nfiles : s'.fds.nfiles = s.fds.nfiles
  npipes : s'.npipes = s.npipes
  endOf  : s'.endOf = s.endOf
  refs   : s'.fds.refs = Function.update s.fds.refs f (s.fds.refs f - 1)
  freed  : ∀ g, g ≠ f → s'.fds.freed g = s.fds.freed g

theorem put_fds (fds : FdSys) (f : Nat) (pipes : Nat → PipeObj) (hfds : fds = s.fds.filePut f) :
    Put s { s with fds, pipes } f := by
  subst hfds
  refine ⟨rfl, rfl, rfl, rfl, rfl, fun g hg => ?_⟩
  simp only [FdSys.filePut]
  split
  · exact Function.update_of_ne hg ..
  · rfl

theorem filePut_kept (h : s.fds.refs f ≠ 1) : ∃ s', s.filePut f = some s' ∧ Put s s' f ∧ s'.pipes = s.pipes := by
  refine ⟨{ s with fds := s.fds.filePut f }, ?_, put_fds _ f s.pipes rfl, rfl⟩
  rw [filePut, if_neg (by omega)]

/-- The last reference to an end of a pipe. -/
theorem filePut_last {o : PipeObj} (h : s.fds.refs f = 1) (hend : s.endOf f = some (p, e)) (ho : (s.pipes p).close e = some o) :
    ∃ s', s.filePut f = some s' ∧ Put s s' f ∧ s'.pipes p = o.giveBack (.file e) ∧ s'.fds.freed f = true := by
  refine ⟨{ s with fds := s.fds.filePut f, pipes := Function.update s.pipes p (o.giveBack (.file e)) }, ?_,
    put_fds _ f _ rfl, Function.update_self .., ?_⟩
  · rw [filePut, if_pos (by omega), hend]
    simp only [ho, Option.map_some, setPipe]
  · simp [FdSys.filePut, h]

/-- It faults without the queue of the other end. -/
theorem filePut_faults (h : s.fds.refs f = 1) (hend : s.endOf f = some (p, e)) (ho : (s.pipes p).close e = none) :
    s.filePut f = none := by
  rw [filePut, if_pos (by omega), hend]
  simp only [ho, Option.map_none]

/-- The caller's references are counted apart. -/
theorem callerPut_of_filePut {s' : PipeFds} (h : s.filePut f = some s') (hput : Put s s' f) :
    ∃ s'', s.callerPut f = some s'' ∧ Put s s'' f ∧ s''.pipes = s'.pipes ∧ s''.fds.freed = s'.fds.freed := by
  rw [callerPut, h]
  exact ⟨_, rfl, ⟨hput.tables, hput.nfiles, hput.npipes, hput.endOf, hput.refs, hput.freed⟩, rfl, rfl⟩

theorem callerPut_kept (h : s.fds.refs f ≠ 1) : ∃ s', s.callerPut f = some s' ∧ Put s s' f ∧ s'.pipes = s.pipes := by
  obtain ⟨s₁, hput₁, hs₁, hpipes⟩ := filePut_kept h
  obtain ⟨s₂, hput₂, hs₂, hpipes₂, -⟩ := callerPut_of_filePut hput₁ hs₁
  exact ⟨s₂, hput₂, hs₂, hpipes₂.trans hpipes⟩

theorem callerPut_last {o : PipeObj} (h : s.fds.refs f = 1) (hend : s.endOf f = some (p, e)) (ho : (s.pipes p).close e = some o) :
    ∃ s', s.callerPut f = some s' ∧ Put s s' f ∧ s'.pipes p = o.giveBack (.file e) ∧ s'.fds.freed f = true := by
  obtain ⟨s₁, hput₁, hs₁, hobj, hfreed⟩ := filePut_last h hend ho
  obtain ⟨s₂, hput₂, hs₂, hpipes₂, hfreed₂⟩ := callerPut_of_filePut hput₁ hs₁
  exact ⟨s₂, hput₂, hs₂, by rw [hpipes₂, hobj], by rw [hfreed₂, hfreed]⟩

theorem callerPut_faults (h : s.fds.refs f = 1) (hend : s.endOf f = some (p, e)) (ho : (s.pipes p).close e = none) :
    s.callerPut f = none := by
  rw [callerPut, filePut_faults h hend ho, Option.map_none]

/-- What `fd_alloc` does when slot `i` is the lowest empty one. -/
structure Took (s s' : PipeFds) (t f i : Nat) : Prop where
  slots  : (s'.fds.tables t).fds = Function.update (s.fds.tables t).fds i (some f)
  flags  : (s'.fds.tables t).flags = Function.update (s.fds.tables t).flags i 0
  refs   : s'.fds.refs = Function.update s.fds.refs f (s.fds.refs f + 1)
  freed  : s'.fds.freed = s.fds.freed
  nfiles : s'.fds.nfiles = s.fds.nfiles
  npipes : s'.npipes = s.npipes
  endOf  : s'.endOf = s.endOf
  pipes  : s'.pipes = s.pipes

theorem fdAlloc_took {i : Nat} {free : List Nat} (f : Nat) (h : freeSlots (s.fds.tables t) = i :: free) :
    ∃ s', s.fdAlloc t f = ((i : Int), s') ∧ Took s s' t f i ∧ freeSlots (s'.fds.tables t) = free := by
  refine ⟨{ s with fds := (s.fds.setSlot t i (some f) 0).fileGet f }, ?_, ?_, freeSlots_fill f 0 h⟩
  · rw [fdAlloc, fdAlloc_of_cons f h]
  · refine ⟨?_, ?_, rfl, rfl, rfl, rfl, rfl, rfl⟩
    · simp [FdSys.fileGet, FdSys.setSlot, FdSys.setTable]
    · simp [FdSys.fileGet, FdSys.setSlot, FdSys.setTable]

theorem fdAlloc_full (f : Nat) (h : freeSlots (s.fds.tables t) = []) : s.fdAlloc t f = (-emfile, s) := by
  rw [fdAlloc, fdAlloc_of_nil f h]

/-- `fd_close` of the slot with file `f`, up to `file_put`. -/
theorem fdClose_eq {i : Nat} (hi : i < fdMax) (h : (s.fds.tables t).fds i = some f) :
    s.fdClose t i = (({ s with fds := s.fds.setSlot t i none 0 } : PipeFds).filePut f).map fun s => (0, s) := by
  have hin : ¬((i : Int) < 0 ∨ (fdMax : Int) ≤ i) := by omega
  rw [fdClose, if_neg hin, Int.toNat_natCast, h]

/-! ## `sys_pipe` with its files made

Three outcomes, by the number of empty slots, and the one without files.
-/

variable {u : User} {ptr : Word} {mem : PipeBlock → Bool}

/-- The pipe, before it has descriptors. -/
def created (s : PipeFds) (mem : PipeBlock → Bool) : PipeFds :=
  ({ s with npipes := s.npipes + 1, pipes := Function.update s.pipes s.npipes ⟨mem, fun _ => false, 2⟩ } :
    PipeFds).setUp s.npipes

theorem pipeCreate_ok (hp : mem .pipe = true) (hr : mem (.file .read) = true) (hw : mem (.file .write) = true) :
    s.pipeCreate mem = (.ok (s.fds.nfiles, s.fds.nfiles + 1), s.created mem) := by
  rw [pipeCreate, if_pos hp, if_pos ⟨hr, hw⟩]
  rfl

theorem sysPipe_made (hp : mem .pipe = true) (hr : mem (.file .read) = true) (hw : mem (.file .write) = true) :
    s.sysPipe t u ptr mem =
      (let (fd0, s') := (s.created mem).fdAlloc t s.fds.nfiles
       let (fd1, s') := s'.fdAlloc t (s.fds.nfiles + 1)
       do
        let s' ← s'.callerPut s.fds.nfiles
        let s' ← s'.callerPut (s.fds.nfiles + 1)
        if fd0 < 0 ∨ fd1 < 0 then
          let s' ← s'.closeIf t fd0
          let s' ← s'.closeIf t fd1
          return (-emfile, s', u)
        else
          let (u, r) := copyToUser u (.arg 0) ptr (leBytes 4 fd0.toNat ++ leBytes 4 fd1.toNat)
          return (if r < 0 then -efault else 0, s', u)) := by
  rw [sysPipe, pipeCreate_ok hp hr hw]

theorem created_refs (s : PipeFds) (mem : PipeBlock → Bool) :
    (s.created mem).fds.refs s.fds.nfiles = 1 ∧ (s.created mem).fds.refs (s.fds.nfiles + 1) = 1 := by
  simp [created, setUp, FdSys.fileAlloc]

theorem created_endOf (s : PipeFds) (mem : PipeBlock → Bool) :
    (s.created mem).endOf s.fds.nfiles = some (s.npipes, .read) ∧
    (s.created mem).endOf (s.fds.nfiles + 1) = some (s.npipes, .write) := by
  simp [created, setUp]

theorem created_pipes (s : PipeFds) (mem : PipeBlock → Bool) :
    (s.created mem).pipes s.npipes = ⟨mem, fun _ => false, 2⟩ := Function.update_self ..

/-- Nothing is left of the pipe. -/
structure Gone (s s' : PipeFds) : Prop where
  nfiles : s'.fds.nfiles = s.fds.nfiles + 2
  npipes : s'.npipes = s.npipes + 1
  read   : s'.fds.freed s.fds.nfiles = true
  write  : s'.fds.freed (s.fds.nfiles + 1) = true
  blocks : ∀ b, (s'.pipes s.npipes).live b = false

/-! ## The outcomes

By the number of empty slots before the call.
-/

/-- **No empty slot**: both files are closed. -/
theorem sysPipe_full (hp : mem .pipe = true) (hr : mem (.file .read) = true) (hw : mem (.file .write) = true)
    (hfree : freeSlots (s.fds.tables t) = []) :
    if mem (.queue .read) = true ∧ mem (.queue .write) = true then
      ∃ s', s.sysPipe t u ptr mem = some (-emfile, s', u) ∧ s'.fds.tables = s.fds.tables ∧ Gone s s'
    else s.sysPipe t u ptr mem = none := by
  have hfd : ∀ f, (s.created mem).fdAlloc t f = (-emfile, s.created mem) := fun f => fdAlloc_full f hfree
  have hclose : ∀ s' : PipeFds, s'.closeIf t (-emfile) = some s' := fun s' => if_neg (by decide)
  rw [sysPipe_made hp hr hw, hfd]
  simp only [hfd]
  rcases PipeObj.close_both_cases (e := .read) (s.created_pipes mem) with ⟨h₁, hq⟩ | ⟨o₁, h₁, hcases⟩
  · rw [if_neg hq, callerPut_faults (s.created_refs mem).1 (s.created_endOf mem).1 h₁]
    rfl
  obtain ⟨s₁, hput₁, hs₁, hobj₁, hfreed₁⟩ := callerPut_last (s.created_refs mem).1 (s.created_endOf mem).1 h₁
  have hrefs : s₁.fds.refs (s.fds.nfiles + 1) = 1 := by
    rw [hs₁.refs, Function.update_of_ne (by omega), (s.created_refs mem).2]
  have hend : s₁.endOf (s.fds.nfiles + 1) = some (s.npipes, .write) := by rw [hs₁.endOf, (s.created_endOf mem).2]
  rw [← hobj₁] at hcases
  rcases hcases with ⟨h₂, hq⟩ | ⟨o₂, h₂, hq, hgone⟩
  · rw [if_neg hq, hput₁, Option.bind_eq_bind, Option.bind_some, callerPut_faults hrefs hend h₂]
    rfl
  · obtain ⟨s₂, hput₂, hs₂, hobj₂, hfreed₂⟩ := callerPut_last hrefs hend h₂
    rw [if_pos hq]
    refine ⟨s₂, ?_, ?_, ?_, ?_, ?_, hfreed₂, fun b => ?_⟩
    · have hneg : -emfile < 0 ∨ -emfile < 0 := by decide
      simp only [hput₁, hput₂, hclose, hneg, if_true, Option.bind_eq_bind, Option.bind_some]
      rfl
    · rw [hs₂.tables, hs₁.tables]
      rfl
    · rw [hs₂.nfiles, hs₁.nfiles]
      rfl
    · rw [hs₂.npipes, hs₁.npipes]
      rfl
    · rw [hs₂.freed _ (by omega), hfreed₁]
    · rw [hobj₂]
      exact hgone b

/-- **One empty slot**: the read end gets it, and gives it back with its flags cleared. -/
theorem sysPipe_single {i : Nat} (hp : mem .pipe = true) (hr : mem (.file .read) = true) (hw : mem (.file .write) = true)
    (hfree : freeSlots (s.fds.tables t) = [i]) :
    if mem (.queue .read) = true ∧ mem (.queue .write) = true then
      ∃ s', s.sysPipe t u ptr mem = some (-emfile, s', u) ∧ (s'.fds.tables t).fds = (s.fds.tables t).fds ∧
        (s'.fds.tables t).flags = Function.update (s.fds.tables t).flags i 0 ∧ Gone s s'
    else s.sysPipe t u ptr mem = none := by
  obtain ⟨hi, hempty⟩ := mem_freeSlots.mp (hfree ▸ List.mem_singleton_self i)
  obtain ⟨s₁, hfd₁, hs₁, hfree₁⟩ := fdAlloc_took (s := s.created mem) s.fds.nfiles hfree
  have hobj : s₁.pipes s.npipes = ⟨mem, fun _ => false, 2⟩ := by rw [hs₁.pipes, created_pipes]
  have hrefs₁ : s₁.fds.refs s.fds.nfiles ≠ 1 := by
    rw [hs₁.refs, Function.update_self, (s.created_refs mem).1]
    decide
  obtain ⟨s₂, hput₂, hs₂, hpipes₂⟩ := callerPut_kept hrefs₁
  have hrefs₂ : s₂.fds.refs (s.fds.nfiles + 1) = 1 := by
    rw [hs₂.refs, Function.update_of_ne (by omega), hs₁.refs, Function.update_of_ne (by omega), (s.created_refs mem).2]
  have hend₂ : s₂.endOf = (s.created mem).endOf := by rw [hs₂.endOf, hs₁.endOf]
  have hclose : ∀ s' : PipeFds, s'.closeIf t (-emfile) = some s' := fun s' => if_neg (by decide)
  have hneg : (i : Int) < 0 ∨ -emfile < 0 := .inr (by decide)
  rw [sysPipe_made hp hr hw, hfd₁]
  simp only [fdAlloc_full _ hfree₁, hput₂, hclose, hneg, if_true, Option.bind_eq_bind, Option.bind_some]
  rw [← hpipes₂] at hobj
  rcases PipeObj.close_both_cases (e := .write) hobj with ⟨h₁, hq⟩ | ⟨o₁, h₁, hcases⟩
  · rw [if_neg hq, callerPut_faults hrefs₂ (hend₂ ▸ (s.created_endOf mem).2) h₁]
    rfl
  obtain ⟨s₃, hput₃, hs₃, hobj₃, hfreed₃⟩ := callerPut_last hrefs₂ (hend₂ ▸ (s.created_endOf mem).2) h₁
  -- the slot holds the last reference to the read end
  have hslot : (s₃.fds.tables t).fds i = some s.fds.nfiles := by
    rw [hs₃.tables, hs₂.tables, hs₁.slots, Function.update_self]
  have hrefs₃ : s₃.fds.refs s.fds.nfiles = 1 := by
    rw [hs₃.refs, Function.update_of_ne (by omega), hs₂.refs, Function.update_self, hs₁.refs, Function.update_self,
      (s.created_refs mem).1]
    rfl
  have hend₃ : s₃.endOf s.fds.nfiles = some (s.npipes, .read) := by rw [hs₃.endOf, hend₂, (s.created_endOf mem).1]
  have hback : s₃.closeIf t i = ((({ s₃ with fds := s₃.fds.setSlot t i none 0 } : PipeFds).filePut s.fds.nfiles).map
      fun s => ((0 : Int), s)).map Prod.snd := by
    rw [closeIf, if_pos (by omega), fdClose_eq hi hslot]
  rw [← hobj₃] at hcases
  simp only [hput₃, hback, Option.bind_some]
  rcases hcases with ⟨h₂, hq⟩ | ⟨o₂, h₂, hq, hgone⟩
  · rw [if_neg hq, @filePut_faults { s₃ with fds := s₃.fds.setSlot t i none 0 } s.fds.nfiles s.npipes .read hrefs₃ hend₃ h₂]
    rfl
  · obtain ⟨s₄, hput₄, hs₄, hobj₄, hfreed₄⟩ :=
      @filePut_last { s₃ with fds := s₃.fds.setSlot t i none 0 } s.fds.nfiles s.npipes .read o₂ hrefs₃ hend₃ h₂
    rw [if_pos hq, hput₄]
    refine ⟨s₄, rfl, ?_, ?_, ?_, ?_, hfreed₄, ?_, fun b => ?_⟩
    · rw [hs₄.tables]
      simp only [FdSys.setSlot, FdSys.setTable, Function.update_self]
      rw [hs₃.tables, hs₂.tables, hs₁.slots, Function.update_idem]
      exact Function.update_eq_self_iff.mpr hempty.symm
    · rw [hs₄.tables]
      simp only [FdSys.setSlot, FdSys.setTable, Function.update_self]
      rw [hs₃.tables, hs₂.tables, hs₁.flags, Function.update_idem]
      rfl
    · rw [hs₄.nfiles]
      exact (hs₃.nfiles.trans hs₂.nfiles).trans hs₁.nfiles
    · rw [hs₄.npipes]
      exact (hs₃.npipes.trans hs₂.npipes).trans hs₁.npipes
    · rw [hs₄.freed _ (by omega)]
      exact hfreed₃
    · rw [hobj₄]
      exact hgone b

/-- **Room for both**: they stay, whatever `copy_to_user` says. -/
theorem sysPipe_room {i j : Nat} {free : List Nat} (hp : mem .pipe = true) (hr : mem (.file .read) = true)
    (hw : mem (.file .write) = true) (hfree : freeSlots (s.fds.tables t) = i :: j :: free) :
    ∃ s' u' r, s.sysPipe t u ptr mem = some (r, s', u') ∧ (s'.fds.tables t).fds i = some s.fds.nfiles ∧
      (r < 0 ↔ ¬accessOk ptr 8 = true) := by
  obtain ⟨s₁, hfd₁, hs₁, hfree₁⟩ := fdAlloc_took (s := s.created mem) s.fds.nfiles hfree
  obtain ⟨s₂, hfd₂, hs₂, -⟩ := fdAlloc_took (s := s₁) (s.fds.nfiles + 1) hfree₁
  have hne : i ≠ j := by
    rintro rfl
    have hnodup : (i :: i :: free).Nodup := by
      rw [← hfree]
      exact List.nodup_range.filter _
    exact (List.nodup_cons.mp hnodup).1 (List.mem_cons_self ..)
  have hrefs₂ : s₂.fds.refs s.fds.nfiles ≠ 1 := by
    rw [hs₂.refs, Function.update_of_ne (by omega), hs₁.refs, Function.update_self, (s.created_refs mem).1]
    decide
  obtain ⟨s₃, hput₃, hs₃, -⟩ := callerPut_kept hrefs₂
  have hrefs₃ : s₃.fds.refs (s.fds.nfiles + 1) ≠ 1 := by
    rw [hs₃.refs, Function.update_of_ne (by omega), hs₂.refs, Function.update_self, hs₁.refs,
      Function.update_of_ne (by omega), (s.created_refs mem).2]
    decide
  obtain ⟨s₄, hput₄, hs₄, -⟩ := callerPut_kept hrefs₃
  have hpos : ¬((i : Int) < 0 ∨ (j : Int) < 0) := by omega
  obtain ⟨-, hcopy⟩ := copyToUser_spec u (.arg 0) ptr (leBytes 4 (i : Int).toNat ++ leBytes 4 (j : Int).toNat)
  rw [sysPipe_made hp hr hw, hfd₁]
  simp only [hfd₂, hput₃, hput₄, hpos, if_false, Option.bind_eq_bind, Option.bind_some]
  refine ⟨s₄, _, _, rfl, ?_, ?_⟩
  · rw [hs₄.tables, hs₃.tables, hs₂.slots, Function.update_of_ne hne, hs₁.slots, Function.update_self]
  · rw [List.length_append, length_leBytes, length_leBytes] at hcopy
    split
    next h => exact iff_of_true (by decide) (hcopy.mp h)
    next h => exact iff_of_false (by decide) (mt hcopy.mpr h)

/-- **No files**: the `pipe_t` goes again, its queues do not. -/
theorem sysPipe_unmade (hmem : ¬(mem .pipe = true ∧ mem (.file .read) = true ∧ mem (.file .write) = true)) :
    ∃ s', s.sysPipe t u ptr mem = some (-enomem, s', u) ∧ s'.fds = s.fds ∧
      s'.npipes = s.npipes + (if mem .pipe = true then 1 else 0) ∧
      (mem .pipe = true → ∀ b, (s'.pipes s.npipes).live b = match b with
        | .queue e => mem (.queue e)
        | _ => false) := by
  rw [sysPipe, pipeCreate]
  by_cases hp : mem .pipe = true
  · have hfiles : ¬(mem (.file .read) = true ∧ mem (.file .write) = true) := fun h => hmem ⟨hp, h⟩
    rw [if_pos hp, if_pos hp]
    simp only [hfiles, if_false]
    refine ⟨_, rfl, rfl, rfl, fun _ b => ?_⟩
    simp only [setPipe, Function.update_self]
    rcases b with _ | d | d <;> try cases d
    all_goals simp [PipeObj.giveBack, Function.update]
  · rw [if_neg hp, if_neg hp]
    exact ⟨s, rfl, rfl, rfl, fun h => absurd h hp⟩

/-! ## The references stay right

The call keeps the invariant of `Proc.FdRefs`, whatever its outcome.
-/

theorem filePut_fds {s' : PipeFds} (h : s.filePut f = some s') : s'.fds = s.fds.filePut f := by
  rw [filePut] at h
  split at h
  · split at h
    · obtain ⟨o, -, rfl⟩ := Option.map_eq_some_iff.mp h
      rfl
    · cases h
      rfl
  · cases h
    rfl

theorem callerPut_fds {s' : PipeFds} (h : s.callerPut f = some s') :
    s'.fds = { s.fds.filePut f with held := Function.update s.fds.held f (s.fds.held f - 1) } := by
  obtain ⟨s₁, h₁, rfl⟩ := Option.map_eq_some_iff.mp h
  rw [filePut_fds h₁]

theorem closeIf_fds {s' : PipeFds} {fd : Int} (h : s.closeIf t fd = some s') :
    s'.fds = s.fds ∨ s'.fds = (s.fds.fdClose t fd).2 := by
  rw [closeIf] at h
  split at h
  · obtain ⟨⟨r, s₁⟩, h₁, rfl⟩ := Option.map_eq_some_iff.mp h
    rw [fdClose] at h₁
    split at h₁
    next hout =>
      cases h₁
      exact .inl rfl
    next hin =>
      cases hslot : (s.fds.tables t).fds fd.toNat with
      | some f =>
        simp only [hslot] at h₁
        obtain ⟨s₂, h₂, hs₂⟩ := Option.map_eq_some_iff.mp h₁
        cases hs₂
        right
        rw [FdSys.fdClose, if_neg hin, hslot]
        exact filePut_fds h₂
      | none =>
        simp only [hslot] at h₁
        cases h₁
        exact .inl rfl
  · cases h
    exact .inl rfl

theorem fdAlloc_inv (hinv : FdInv s.fds) (ht : s.fds.live t = true) (hf : 0 < s.fds.held f) :
    FdInv (s.fdAlloc t f).2.fds := by
  have hinv' := hinv.fdAlloc ht hf
  simp only [fdAlloc]
  exact hinv'

/-- `fd_alloc` gives no reference of the caller away. -/
theorem fdAlloc_held (s : PipeFds) (t f : Nat) : (s.fdAlloc t f).2.fds.held = s.fds.held ∧
    (s.fdAlloc t f).2.fds.live = s.fds.live := by
  unfold fdAlloc FdSys.fdAlloc
  split
  · exact ⟨rfl, rfl⟩
  · exact ⟨rfl, rfl⟩

/-- A close of `sys_pipe` is a close of the table. -/
theorem closeIf_inv {s' : PipeFds} {fd : Int} (hinv : FdInv s.fds) (ht : s.fds.live t = true) (h : s.closeIf t fd = some s') :
    FdInv s'.fds ∧ s'.fds.live t = true := by
  rcases closeIf_fds h with hfds | hfds
  · rw [hfds]
    exact ⟨hinv, ht⟩
  · rw [hfds]
    refine ⟨hinv.fdClose ht fd, ?_⟩
    unfold FdSys.fdClose
    split
    · exact ht
    · split
      · exact ht
      · exact ht

/-- **`sys_pipe` keeps the counts** of `Proc.FdRefs`, with its own references given back. -/
theorem sysPipe_inv {s' : PipeFds} {u' : User} {r : Int} (hinv : FdInv s.fds) (ht : s.fds.live t = true)
    (h : s.sysPipe t u ptr mem = some (r, s', u')) : FdInv s'.fds := by
  by_cases hmade : mem .pipe = true ∧ mem (.file .read) = true ∧ mem (.file .write) = true
  · obtain ⟨hp, hr, hw⟩ := hmade
    rw [sysPipe_made hp hr hw] at h
    simp only [Option.bind_eq_bind, Option.bind_eq_some_iff] at h
    obtain ⟨s₁, h₁, s₂, h₂, h⟩ := h
    -- two files, two slots, and then the two references of the call are given back
    have hcreated : FdInv (s.created mem).fds := (hinv.fileAlloc .ops).fileAlloc .ops
    have hheld : (s.created mem).fds.held s.fds.nfiles = 1 ∧ (s.created mem).fds.held (s.fds.nfiles + 1) = 1 := by
      simp [created, setUp, FdSys.fileAlloc]
    obtain ⟨hheld₁, hlive₁⟩ := fdAlloc_held (s.created mem) t s.fds.nfiles
    obtain ⟨hheld₂, hlive₂⟩ := fdAlloc_held ((s.created mem).fdAlloc t s.fds.nfiles).2 t (s.fds.nfiles + 1)
    have hinv₁ : FdInv ((s.created mem).fdAlloc t s.fds.nfiles).2.fds :=
      fdAlloc_inv hcreated ht (by omega)
    have hinv₂ : FdInv (((s.created mem).fdAlloc t s.fds.nfiles).2.fdAlloc t (s.fds.nfiles + 1)).2.fds :=
      fdAlloc_inv hinv₁ (by rw [hlive₁]; exact ht) (by rw [hheld₁]; omega)
    have hfds₁ := callerPut_fds h₁
    have hinv₃ : FdInv s₁.fds := by
      rw [hfds₁]
      exact hinv₂.callerPut (by rw [hheld₂, hheld₁]; omega)
    have hfds₂ := callerPut_fds h₂
    have hinv₄ : FdInv s₂.fds := by
      rw [hfds₂]
      refine hinv₃.callerPut ?_
      rw [hfds₁]
      simp only [Function.update_of_ne (show s.fds.nfiles + 1 ≠ s.fds.nfiles by omega)]
      rw [hheld₂, hheld₁]
      omega
    have hlive : s₂.fds.live t = true := by
      simp only [hfds₂, FdSys.filePut, hfds₁]
      rw [hlive₂, hlive₁]
      exact ht
    split at h
    · simp only [Option.bind_eq_some_iff] at h
      obtain ⟨s₃, h₃, s₄, h₄, h⟩ := h
      -- where the table had no room, what was installed is closed again
      obtain ⟨hinv₅, hlive₅⟩ := closeIf_inv hinv₄ hlive h₃
      obtain ⟨hinv₆, -⟩ := closeIf_inv hinv₅ hlive₅ h₄
      cases h
      exact hinv₆
    · cases h
      exact hinv₄
  · obtain ⟨s₁, h₁, hfds, -⟩ := @sysPipe_unmade s t u ptr mem hmade
    rw [h₁] at h
    cases h
    rw [hfds]
    exact hinv

end PipeFds

/-! ## What an error leaves behind

The condition, with the room of the table and the answers of the heap and of `copy_to_user`.
-/

/-- The table of the caller is as before the call, and the `pipe_t` and the files of the call are released. -/
structure PipeUndone (s s' : PipeFds) (t : Nat) : Prop where
  slots  : (s'.fds.tables t).fds = (s.fds.tables t).fds
  flags  : (s'.fds.tables t).flags = (s.fds.tables t).flags
  files  : ∀ f, s.fds.nfiles ≤ f → f < s'.fds.nfiles → s'.fds.freed f = true
  pipe   : ∀ p, s.npipes ≤ p → p < s'.npipes → (s'.pipes p).live .pipe = false
  ends   : ∀ p, s.npipes ≤ p → p < s'.npipes → ∀ e, (s'.pipes p).live (.file e) = false

/-- The queues of the call are released, too. -/
def QueuesGone (s s' : PipeFds) : Prop := ∀ p, s.npipes ≤ p → p < s'.npipes → ∀ e, (s'.pipes p).live (.queue e) = false

/-- The heap has memory for the `pipe_t` and the two files. -/
def PipeMade (mem : PipeBlock → Bool) : Prop := mem .pipe = true ∧ mem (.file .read) = true ∧ mem (.file .write) = true

/-- No descriptor stays behind: there is no room for two, and a slot that is taken and given back had no flags; or there
    is room, and the array of the caller is in user memory. -/
def NoneLeft (table : FdTable) (ptr : Word) (mem : PipeBlock → Bool) : Prop :=
  match freeSlots table with
  | []  => True
  | [i] => table.flags i = 0 ∨ ¬(mem (.queue .read) = true ∧ mem (.queue .write) = true)
  | _   => accessOk ptr 8 = true

/-- `sys_pipe` comes back with an error, and then this holds. -/
def PipeFails (s : PipeFds) (t : Nat) (u : User) (ptr : Word) (mem : PipeBlock → Bool) (after : PipeFds → Prop) : Prop :=
  ∀ r s' u', s.sysPipe t u ptr mem = some (r, s', u') → r < 0 → after s'

namespace PipeFds.Gone

variable {s s' : PipeFds} {t p : Nat}

theorem eq_of_new (h : s.Gone s') (hle : s.npipes ≤ p) (hlt : p < s'.npipes) : p = s.npipes := by
  rw [h.npipes] at hlt
  omega

theorem queuesGone (h : s.Gone s') : QueuesGone s s' := by
  intro p hle hlt e
  rw [h.eq_of_new hle hlt]
  exact h.blocks _

theorem undone (h : s.Gone s') (hslots : (s'.fds.tables t).fds = (s.fds.tables t).fds)
    (hflags : (s'.fds.tables t).flags = (s.fds.tables t).flags) : PipeUndone s s' t := by
  refine ⟨hslots, hflags, fun f hle hlt => ?_, fun p hle hlt => ?_, fun p hle hlt e => ?_⟩
  · rw [h.nfiles] at hlt
    obtain rfl | rfl : f = s.fds.nfiles ∨ f = s.fds.nfiles + 1 := by omega
    · exact h.read
    · exact h.write
  · rw [h.eq_of_new hle hlt]
    exact h.blocks _
  · rw [h.eq_of_new hle hlt]
    exact h.blocks _

end PipeFds.Gone

section

variable {s : PipeFds} {t : Nat} {u : User} {ptr : Word} {mem : PipeBlock → Bool}

theorem pipeFails_of_none {after : PipeFds → Prop} (h : s.sysPipe t u ptr mem = none) : PipeFails s t u ptr mem after := by
  intro r s' u' hr
  rw [h] at hr
  cases hr

theorem pipeFails_iff {after : PipeFds → Prop} {r : Int} {s' : PipeFds} {u' : User}
    (h : s.sysPipe t u ptr mem = some (r, s', u')) : PipeFails s t u ptr mem after ↔ (r < 0 → after s') := by
  constructor
  · intro hf
    exact hf r s' u' h
  · intro hf r₁ s₁ u₁ h₁ hneg
    obtain ⟨rfl, rfl, rfl⟩ : r = r₁ ∧ s' = s₁ ∧ u' = u₁ := by simpa using h.symm.trans h₁
    exact hf hneg

/-- Without the files. -/
theorem unmade_undone (hmade : ¬PipeMade mem) :
    PipeFails s t u ptr mem (fun s' => PipeUndone s s' t) ∧
    (PipeFails s t u ptr mem (QueuesGone s) ↔ (mem .pipe = true → ∀ e, mem (.queue e) = false)) := by
  obtain ⟨s', h, hfds, hn, hlive⟩ := @PipeFds.sysPipe_unmade s t u ptr mem hmade
  have hnew : ∀ p, s.npipes ≤ p → p < s'.npipes → p = s.npipes ∧ mem .pipe = true := by
    intro p hle hlt
    rw [hn] at hlt
    split at hlt
    next hp => exact ⟨by omega, hp⟩
    next => omega
  rw [pipeFails_iff h, pipeFails_iff h]
  refine ⟨fun _ => ⟨by rw [hfds], by rw [hfds], fun f hle hlt => ?_, fun p hle hlt => ?_, fun p hle hlt e => ?_⟩, ?_⟩
  · rw [hfds] at hlt
    omega
  · obtain ⟨rfl, hp⟩ := hnew p hle hlt
    exact hlive hp .pipe
  · obtain ⟨rfl, hp⟩ := hnew p hle hlt
    exact hlive hp (.file e)
  · constructor
    · intro hq hp e
      refine (hlive hp (.queue e)).symm.trans (hq (by decide) s.npipes le_rfl ?_ e)
      rw [hn, if_pos hp]
      omega
    · intro hq _ p hle hlt e
      obtain ⟨rfl, hp⟩ := hnew p hle hlt
      exact (hlive hp (.queue e)).trans (hq hp e)

/-- With the files. -/
theorem made_undone_iff (hmade : PipeMade mem) :
    (PipeFails s t u ptr mem (fun s' => PipeUndone s s' t) ↔ NoneLeft (s.fds.tables t) ptr mem) ∧
    (PipeFails s t u ptr mem (fun s' => PipeUndone s s' t) → PipeFails s t u ptr mem (QueuesGone s)) := by
  obtain ⟨hp, hr, hw⟩ := hmade
  unfold NoneLeft
  rcases hfree : freeSlots (s.fds.tables t) with _ | ⟨i, _ | ⟨j, free⟩⟩
  · have hfull := @PipeFds.sysPipe_full s t u ptr mem hp hr hw hfree
    split at hfull
    · obtain ⟨s', h, htables, hgone⟩ := hfull
      rw [pipeFails_iff h, pipeFails_iff h]
      refine ⟨iff_of_true (fun _ => hgone.undone ?_ ?_) trivial, fun _ _ => hgone.queuesGone⟩
      · rw [htables]
      · rw [htables]
    · exact ⟨iff_of_true (pipeFails_of_none hfull) trivial, fun _ => pipeFails_of_none hfull⟩
  · have hsingle := @PipeFds.sysPipe_single s t u ptr mem i hp hr hw hfree
    split at hsingle
    next hq =>
      obtain ⟨s', h, hslots, hflags, hgone⟩ := hsingle
      rw [pipeFails_iff h, pipeFails_iff h]
      refine ⟨⟨fun hu => .inl ?_, fun hc _ => hgone.undone hslots ?_⟩, fun _ _ => hgone.queuesGone⟩
      · have hsame := (hu (by decide)).flags
        rw [hflags] at hsame
        exact (Function.update_eq_self_iff.mp hsame).symm
      · rw [hflags]
        exact Function.update_eq_self_iff.mpr (hc.resolve_right (not_not_intro hq)).symm
    next hq => exact ⟨iff_of_true (pipeFails_of_none hsingle) (.inr hq), fun _ => pipeFails_of_none hsingle⟩
  · obtain ⟨s', u', r, h, hslot, hneg⟩ := @PipeFds.sysPipe_room s t u ptr mem i j free hp hr hw hfree
    have hempty := (mem_freeSlots.mp (hfree ▸ List.mem_cons_self ..)).2
    have hleft : ¬PipeUndone s s' t := by
      intro hu
      rw [hu.slots, hempty] at hslot
      cases hslot
    rw [pipeFails_iff h, pipeFails_iff h]
    refine ⟨⟨fun hu => ?_, fun hok hr => absurd hok (hneg.mp hr)⟩, fun hu hr => absurd (hu hr) hleft⟩
    by_contra hbad
    exact hleft (hu (hneg.mpr hbad))

end

/-- **When an error of `sys_pipe` leaves no trace**: the files could not be had, or no descriptor stays behind. The queues
    go with the rest unless there were queues and no files. -/
theorem sys_pipe_undone_iff (s : PipeFds) (t : Nat) (u : User) (ptr : Word) (mem : PipeBlock → Bool) :
    (PipeFails s t u ptr mem (fun s' => PipeUndone s s' t) ↔ (PipeMade mem → NoneLeft (s.fds.tables t) ptr mem)) ∧
    (PipeFails s t u ptr mem (fun s' => PipeUndone s s' t ∧ QueuesGone s s') ↔
      (PipeMade mem → NoneLeft (s.fds.tables t) ptr mem) ∧
      (¬PipeMade mem → mem .pipe = true → ∀ e, mem (.queue e) = false)) := by
  have hand : PipeFails s t u ptr mem (fun s' => PipeUndone s s' t ∧ QueuesGone s s') ↔
      PipeFails s t u ptr mem (fun s' => PipeUndone s s' t) ∧ PipeFails s t u ptr mem (QueuesGone s) := by
    constructor
    · intro h
      exact ⟨fun r s' u' hr hneg => (h r s' u' hr hneg).1, fun r s' u' hr hneg => (h r s' u' hr hneg).2⟩
    · rintro ⟨hu, hq⟩ r s' u' hr hneg
      exact ⟨hu r s' u' hr hneg, hq r s' u' hr hneg⟩
  rw [hand]
  by_cases hmade : PipeMade mem
  · obtain ⟨hiff, hqueues⟩ := @made_undone_iff s t u ptr mem hmade
    rw [hiff] at hqueues ⊢
    simp only [hmade, true_implies, not_true_eq_false, false_implies, and_true, true_and]
    exact and_iff_left_of_imp hqueues
  · obtain ⟨hundone, hiff⟩ := @unmade_undone s t u ptr mem hmade
    rw [hiff]
    simp [hmade, hundone]

/-- A process with an empty table. -/
def emptyTable : PipeFds := ⟨fdInit.fdTableCreate, 0, fun _ => ⟨fun _ => false, fun _ => false, 0⟩, fun _ => none⟩

/-- **A bad pointer**: the call fails with `EFAULT`, and descriptor 0 is the read end of a pipe. -/
theorem sys_pipe_keeps_descriptors :
    ∃ s' u', emptyTable.sysPipe 0 ⟨fun _ => 0, []⟩ 0xFFFFFFFFFFFFFFF0#64 (fun _ => true) = some (-14, s', u') ∧
      (s'.fds.tables 0).fds 0 = some 0 ∧ ¬PipeUndone emptyTable s' 0 := by
  have hanswer : (emptyTable.sysPipe 0 ⟨fun _ => 0, []⟩ 0xFFFFFFFFFFFFFFF0#64 (fun _ => true)).map
      (fun out => (out.1, (out.2.1.fds.tables 0).fds 0)) = some (-14, some 0) := by decide +kernel
  obtain ⟨⟨r, s', u'⟩, h, hanswer⟩ := Option.map_eq_some_iff.mp hanswer
  obtain ⟨rfl, hslot⟩ := Prod.mk.inj hanswer
  refine ⟨s', u', h, hslot, fun hu => ?_⟩
  rw [hu.slots] at hslot
  cases hslot

end MyUnix.Proc
