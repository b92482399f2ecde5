import MyUnix.Fs.OpenUnlink
import MyUnix.Proc.UserAccess

/-!
# `Proc.FileViews` — an open file, seen from three sides

The same code is modelled from three sides, each with the part of a `file_t` that its questions are about:

* `Fs.OpenUnlink` has the vnode behind the file and the buffer behind that, and asks what stays reachable;
* `Proc.FdTable` has the references and what was freed, and asks whether the counts are right;
* `Proc.UserAccess` has the bytes that a system call moves to or from memory of the user, and asks where they go.

Where two of them run the same function they agree: `file_get` and `file_put` on the counts (`FilesView`), `tmpfs_read`
and `sys_read` on the bytes (`nodeView`).

No module builds on this one. It is there so that the three descriptions of one function cannot drift apart: a change
of `vfs.c` that is followed in one of them only would break a lemma below.
-/

namespace MyUnix.Proc

open Arch Fs Lib

/-! ## References

The counter of `Fs.OpenUnlink` is a natural number that never comes to 0, the one of `Proc.FdTable` an integer. -/

/-- Every file of `st` is there in `s`, with as many references. -/
def FilesView (st : OpenSys) (s : FdSys) : Prop :=
  ∀ i f, st.files i = some f → s.freed i = false ∧ s.refs i = f.refcount ∧ 0 < f.refcount

/-- **`file_get`.** -/
theorem FilesView.fileGet {st st' : OpenSys} {s : FdSys} {i : Nat} (h : FilesView st s) (hget : st.fileGet i = some st') :
    FilesView st' (s.fileGet i) := by
  obtain ⟨f, hf, hout⟩ := Option.bind_eq_some_iff.mp hget
  cases hout
  intro j g hg
  by_cases hj : j = i
  · subst hj
    obtain ⟨hlive, hrefs, -⟩ := h j f hf
    simp only [Function.update_self, Option.some.injEq] at hg
    subst hg
    refine ⟨hlive, ?_, Nat.succ_pos _⟩
    simp [FdSys.fileGet, hrefs]
  · simp only [Function.update_of_ne hj] at hg
    obtain ⟨hlive, hrefs, hpos⟩ := h j g hg
    refine ⟨hlive, ?_, hpos⟩
    simp only [FdSys.fileGet, Function.update_of_ne hj]
    exact hrefs

/-- **`file_put`**: both count the reference down, and free the file with the last one. -/
theorem FilesView.filePut {st st' : OpenSys} {s : FdSys} {i : Nat} (h : FilesView st s) (hput : st.filePut i = some st') :
    FilesView st' (s.filePut i) ∧ (st'.files i = none ↔ (s.filePut i).freed i = true) := by
  obtain ⟨f, hf, hout⟩ := Option.bind_eq_some_iff.mp hput
  obtain ⟨hlive, hrefs, hpos⟩ := h i f hf
  split at hout
  next hone =>
    -- the last reference: the vnode has its own counter
    obtain ⟨vfs, -, hst⟩ := Option.bind_eq_some_iff.mp hout
    cases hst
    have hzero : s.refs i - 1 = 0 := by omega
    refine ⟨fun j g hg => ?_, ?_⟩
    · have hj : j ≠ i := by
        rintro rfl
        simp at hg
      simp only [Function.update_of_ne hj] at hg
      obtain ⟨hlive', hrefs', hpos'⟩ := h j g hg
      simp only [FdSys.filePut, hzero, if_true, Function.update_of_ne hj]
      exact ⟨hlive', hrefs', hpos'⟩
    · simp [FdSys.filePut, hzero]
  next hmore =>
    cases hout
    have hnot : s.refs i - 1 ≠ 0 := by omega
    refine ⟨fun j g hg => ?_, ?_⟩
    · simp only [FdSys.filePut, if_neg hnot]
      by_cases hj : j = i
      · subst hj
        simp only [Function.update_self, Option.some.injEq] at hg
        subst hg
        refine ⟨hlive, ?_, ?_⟩
        · show Function.update s.refs j (s.refs j - 1) j = ((f.refcount - 1 : Nat) : Int)
          rw [Function.update_self, hrefs]
          omega
        · show 0 < f.refcount - 1
          omega
      · simp only [Function.update_of_ne hj] at hg ⊢
        exact h j g hg
    · simp [FdSys.filePut, hnot, hlive]

/-! ## Bytes

A buffer of a tmpfs file may be longer than the file. What a read can see of it is the part below the size. -/

/-- The node of a file as the system calls have it. -/
def nodeView (f : TmpfsFile) (room : Bool) : Option TmpfsNode :=
  f.priv.map fun data => ⟨decide (f.type = .dir), data.take f.size, data.length, room⟩

/-- What a call that stores the bytes of `r` at `buf` leaves, or the error. A call that moves nothing may leave no
    entry in the log. -/
def Delivers (u : User) (p : Ptr) (buf : Word) (r : Except Fs.Errno (List UInt8)) (out : User × Option Int) : Prop :=
  match r with
  | .ok bytes => out.2 = some (bytes.length : Int) ∧ (out.1 = u.store p buf bytes ∨ bytes = [] ∧ out.1 = u)
  | .error _  => out = (u, some (-eisdir))

/-- **`tmpfs_read`** where it stays in its buffer. -/
theorem tmpfsRead_view {f : TmpfsFile} {len : Word} {off : Nat} {r : Except Fs.Errno (List UInt8)}
    (hoff : off < 2 ^ 64) (h : f.tmpfsRead len.toNat off = some r) (room : Bool) (u : User) (p : Ptr) (buf : Word) :
    Delivers u p buf r (tmpfsRead u p buf len (nodeView f room) off) := by
  have hsize : sizeT off = off := by
    rw [sizeT]
    omega
  unfold TmpfsFile.tmpfsRead at h
  unfold nodeView
  cases hpriv : f.priv with
  | none =>
    rw [hpriv] at h
    cases h
    rfl
  | some data =>
    rw [hpriv] at h
    simp only [hsize] at h
    simp only [Option.map_some, tmpfsRead]
    by_cases hdir : f.type = .dir
    · rw [if_pos hdir] at h
      cases h
      rw [if_pos (decide_eq_true hdir)]
      rfl
    · rw [if_neg hdir] at h
      rw [if_neg (by simp [hdir])]
      have hlen : ((data.take f.size).length : Int) = min f.size data.length := by rw [List.length_take]
      rw [hlen]
      split at h
      next hend =>
        cases h
        rw [if_pos (by omega)]
        exact ⟨rfl, .inr ⟨rfl, rfl⟩⟩
      next hin =>
        obtain ⟨bytes, hcopy, hr⟩ := Option.map_eq_some_iff.mp h
        subst hr
        unfold copyOut at hcopy
        split at hcopy
        next hroom =>
          cases hcopy
          simp only [Int.toNat_natCast] at hroom ⊢
          split
          next hpast =>
            -- the size is past the end of the buffer, and nothing was asked for
            have hnil : (data.drop off).take (min len.toNat (f.size - off)) = [] := by
              apply List.eq_nil_of_length_eq_zero
              rw [List.length_take, List.length_drop]
              omega
            rw [hnil]
            exact ⟨rfl, .inr ⟨rfl, rfl⟩⟩
          next hbelow =>
            have hcount : min len.toNat ((data.take f.size).length - off) = min len.toNat (f.size - off) := by
              rw [List.length_take]
              omega
            have hbytes : ((data.take f.size).drop off).take (min len.toNat (f.size - off)) =
                (data.drop off).take (min len.toNat (f.size - off)) := by
              rw [List.drop_take, List.take_take]
              congr 1
              omega
            have hlength : ((data.drop off).take (min len.toNat (f.size - off))).length = min len.toNat (f.size - off) := by
              rw [List.length_take, List.length_drop]
              omega
            simp only [readAt, Int.toNat_natCast, hcount, hbytes]
            exact ⟨by rw [hlength], .inl rfl⟩
        next => cases hcopy

/-- **`sys_read`** of a tmpfs file: the call stores the bytes that the file system read. -/
theorem sysRead_view {io : OtherIo} {st st' : OpenSys} {i : Nat} {f : Fs.File} {v : Fs.Vnode} {file : TmpfsFile}
    {env : Env} {t : Task} {fd buf len : Word} {vn : Vnode} {room : Bool} {bytes : List UInt8}
    (hf : st.files i = some f) (hv : st.vfs.vnodes f.vnode = some v) (hops : v.data.ops = .tmpfs)
    (hfile : st.view f.vnode = some file) (hoff : f.offset < 2 ^ 64)
    (henv : getFile env fd = some ⟨.none, some vn, f.offset⟩) (hvn : vn.ops = .tmpfs (nodeView file room))
    (hok : accessOk buf len = true) (h : st.sysRead io i len.toNat = some (.ok bytes, st')) :
    (sysRead env t fd buf len).2 = some (bytes.length : Int) ∧
      ((sysRead env t fd buf len).1.user = t.user.store (.arg 1) buf bytes ∨
        bytes = [] ∧ (sysRead env t fd buf len).1.user = t.user) := by
  have hread : file.tmpfsRead len.toNat f.offset = some (.ok bytes) := by
    rw [OpenSys.sysRead, hf] at h
    simp only [Option.bind_eq_bind, Option.bind_some] at h
    obtain ⟨r, hcall, hout⟩ := Option.bind_eq_some_iff.mp h
    rw [OpenSys.callRead, hv] at hcall
    simp only [Option.bind_eq_bind, Option.bind_some, hops, hfile] at hcall
    cases r with
    | error e => cases hout
    | ok bs =>
      obtain ⟨hbs, -⟩ := Prod.mk.inj (Option.some.inj hout)
      cases hbs
      exact hcall
  have hview := tmpfsRead_view hoff hread room t.user (.arg 1) buf
  rw [sysRead, hok, henv]
  simp only [Bool.not_true, Bool.false_eq_true, if_false, vnodeRead, hvn]
  exact hview

end MyUnix.Proc
