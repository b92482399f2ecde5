import MyUnix.Lib.ZeroFill
import MyUnix.Proc.Brk
import MyUnix.Proc.UserAccess

/-!
# `Proc.Mmap` — `sys_mmap`

A file is mapped by copying: `vmm_alloc_user` finds a range and puts fresh frames under it, the file is read into a
buffer of the kernel, and the buffer goes to the frames page by page, the rest of the last page filled with zeros. When
there is no memory for the buffer the call still succeeds, with pages of zeros.

A call is followed through four things: the range, the frames below it, the buffer and the pages. `ReadsFile` is what
the driver has put into the buffer, for any kind of file that has bytes at offsets. The condition for the file to be
found in memory has one part for each of them that can go wrong without an error: the range may wrap around, and the
buffer may not be had.
-/

namespace MyUnix.Proc

open Lib Mm PageAlloc PathClass

/-- `MAP_ANONYMOUS`. -/
def mapAnonymous : Nat := 0x20

/-- `MAP_FAILED`. -/
def mapFailed : Int := -1

/-- How `initrd_vn_read` and `tmpfs_read` end: the result, and the bytes that are put at the start of the buffer. -/
def copyData (data : List UInt8) (len off : Nat) : Int × List UInt8 :=
  ((min len (data.length - off) : Nat), (data.drop off).take len)

/-- `f->vnode->ops->read`, `.none` where the file has no such operation. What comes from the terminal is given. -/
def readVnode (tty : Int × List UInt8) (len : Nat) (off : Int) : VnodeOps → Int × List UInt8
  | .none => (0, [])
  | .initrd none => (-eisdir, [])
  | .initrd (some ent) =>
    if ent.isDir then (-eisdir, [])
    else if off < 0 then (-einval, [])
    else if ent.data.length ≤ off.toNat then (0, [])
    else copyData ent.data len off.toNat
  | .tmpfs none => (-eisdir, [])
  | .tmpfs (some node) =>
    if node.isDir then (-eisdir, [])
    else if off < 0 ∨ node.data.length ≤ off.toNat then (0, [])
    else copyData node.data len off.toNat
  | .devnull   => (0, [])
  | .devzero   => (len, List.replicate len 0)
  | .devrand x => (len, randBytes len x)
  | .tty       => tty

/-- The bytes of a file that has bytes at offsets. -/
def fileData : VnodeOps → Option (List UInt8)
  | .initrd (some ent) => some (if ent.isDir then [] else ent.data)
  | .tmpfs (some node) => some (if node.isDir then [] else node.data)
  | .none | .initrd none | .tmpfs none | .devnull | .devzero => some []
  | .devrand _ | .tty => none

/-- What the call finds in the kernel: the rounds of the search, `get_file`, the terminal, and whether `kmalloc` has
    memory for the buffer and for the VMA. -/
structure MmapEnv where
  fuel  : Nat
  files : BitVec 32 → Option VnodeOps
  tty   : Int × List UInt8
  bufOk : Bool
  vmaOk : Bool

variable {σ : Type} [PageAlloc σ]

/-- What goes to the page at offset `i` of the range: `n` bytes were read, and `tmp` begins with them. -/
def pageBytes (tmp : List UInt8) (n len i : Nat) : List UInt8 :=
  let sz := min pageSize (len - i)
  let copySz := if i < n then min sz (n - i) else 0
  (tmp.drop i).take copySz ++ List.replicate (sz - copySz) 0

/-- The body of the loop that copies, for page `k`. -/
def fillPage (pml4 v len n : Nat) (tmp : List UInt8) (vm : Vm σ) (k : Nat) : Vm σ :=
  let phys := vmmVirtToPhys vm.mem pml4 (pageAt v k)
  if phys ≠ 0 then { vm with mem := vm.mem.write phys (pageBytes tmp n len (k * pageSize)) } else vm

namespace UserMem

variable (u : UserMem σ)

/-- `vmm_create_vma`, whose result is not looked at. -/
def addVma (env : MmapEnv) (v len prot flags : Nat) : List Vma :=
  if env.vmaOk then u.vmas ++ [vmmCreateVma v len (prot % 2 ^ 32) (flags % 2 ^ 32)] else u.vmas

/-- `sys_mmap`. -/
def sysMmap (env : MmapEnv) (addr length prot flags fd : Nat) (offset : BitVec 64) :
    Option (Except Int Nat × UserMem σ) :=
  if length = 0 then some (.error mapFailed, u)
  else
    let len := alignUp length
    if flags &&& mapAnonymous ≠ 0 then do
      let (v, vm) ← u.vm.vmmAllocUser env.fuel u.pml4 addr len (protFlags prot)
      if v = 0 then some (.error mapFailed, { u with vm })
      else some (.ok v, { u with vm, vmas := u.addVma env v len prot flags })
    else match env.files (BitVec.ofNat 32 fd) with
    | none     => some (.error (-ebadf), u)
    | some ops => do
      let (v, vm) ← u.vm.vmmAllocUser env.fuel u.pml4 addr len (protFlags prot)
      if v = 0 then some (.error mapFailed, { u with vm })
      else
        let vm := if env.bufOk then
            -- one read of the whole length; without a buffer the pages stay as they are, zero
            let (r, tmp) := readVnode env.tty len offset.toInt ops
            (List.range (len / pageSize)).foldl (fillPage u.pml4 v len r.toNat tmp) vm
          else vm
        some (.ok v, { u with vm, vmas := u.addVma env v len prot flags })

end UserMem

/-- The bytes of the process from `v` on, below `VMM_USER_END`, are those of the file from `offset` on, zeros behind
    its end. -/
def MapsFile (m : ByteMem) (pml4 v len offset : Nat) (data : List UInt8) : Prop :=
  ∀ i < len, v + i < vmmUserEnd ∧ vmmIsMapped m pml4 (v + i) = true ∧
    m (vmmVirtToPhys m pml4 (v + i)) = data.getD (offset + i) 0

/-! ## What is read

The drivers of the two file systems end the same way, by a copy of at most so many bytes.
-/

/-- The buffer holds the bytes of the file from `off` on, as many as there are. -/
def ReadsFile (out : Int × List UInt8) (len off : Nat) (data : List UInt8) : Prop :=
  out.2.length = out.1.toNat ∧ ∀ i < len, out.2.getD i 0 = data.getD (off + i) 0

theorem readsFile_copyData (data : List UInt8) (len off : Nat) : ReadsFile (copyData data len off) len off data := by
  refine ⟨?_, fun i hi => ?_⟩
  · rw [copyData, List.length_take, List.length_drop, Int.toNat_natCast]
  · rw [copyData, getD_take, if_pos hi, List.getD_eq_getElem?_getD, List.getD_eq_getElem?_getD, List.getElem?_drop]

/-- Nothing is read behind the end. -/
theorem readsFile_end {data : List UInt8} {r : Int} {len off : Nat} (hr : r ≤ 0) (h : data.length ≤ off) :
    ReadsFile (r, []) len off data := by
  refine ⟨(Int.toNat_of_nonpos hr).symm, fun i _ => ?_⟩
  have hout : data[off + i]? = none := List.getElem?_eq_none (Nat.le_trans h (Nat.le_add_right _ _))
  rw [List.getD_eq_getElem?_getD, List.getD_eq_getElem?_getD, hout]
  rfl

theorem readVnode_spec (tty : Int × List UInt8) (len : Nat) (offset : BitVec 64) {ops : VnodeOps} {data : List UInt8}
    (hdata : fileData ops = some data) (hsize : data.length ≤ 2 ^ 63) :
    ReadsFile (readVnode tty len offset.toInt ops) len offset.toNat data := by
  -- an offset that is negative as an `off_t` lies behind the end of every file
  have hneg : offset.toInt < 0 → data.length ≤ offset.toNat := by
    intro hneg
    rw [BitVec.toInt_eq_toNat_cond] at hneg
    split at hneg <;> omega
  have hpos : ¬offset.toInt < 0 → offset.toInt.toNat = offset.toNat := by
    intro hpos
    rw [BitVec.toInt_eq_toNat_cond] at hpos ⊢
    split at hpos <;> omega
  have hempty : ∀ r ≤ 0, some [] = some data → ReadsFile (r, []) len offset.toNat data := by
    rintro r hr ⟨⟩
    exact readsFile_end hr (Nat.zero_le _)
  have heisdir : -eisdir ≤ 0 := by decide
  cases ops with
  | none => exact hempty 0 (Int.le_refl 0) hdata
  | initrd ent =>
    cases ent with
    | none => exact hempty _ heisdir hdata
    | some ent =>
      rw [fileData] at hdata
      rw [readVnode]
      split
      next hdir => exact hempty _ heisdir (by rwa [if_pos hdir] at hdata)
      next hdir =>
        rw [if_neg hdir] at hdata
        obtain rfl := Option.some.inj hdata
        split
        next hlt => exact readsFile_end (by decide) (hneg hlt)
        next hge =>
          rw [hpos hge]
          split
          next hle => exact readsFile_end (Int.le_refl 0) hle
          next => exact readsFile_copyData _ _ _
  | tmpfs node =>
    cases node with
    | none => exact hempty _ heisdir hdata
    | some node =>
      rw [fileData] at hdata
      rw [readVnode]
      split
      next hdir => exact hempty _ heisdir (by rwa [if_pos hdir] at hdata)
      next hdir =>
        rw [if_neg hdir] at hdata
        obtain rfl := Option.some.inj hdata
        by_cases hlt : offset.toInt < 0
        · rw [if_pos (.inl hlt)]
          exact readsFile_end (Int.le_refl 0) (hneg hlt)
        · rw [hpos hlt]
          split
          next hle => exact readsFile_end (Int.le_refl 0) (hle.resolve_left hlt)
          next => exact readsFile_copyData _ _ _
  | devnull => exact hempty 0 (Int.le_refl 0) hdata
  | devzero =>
    obtain rfl := Option.some.inj hdata
    refine ⟨by rw [readVnode, List.length_replicate, Int.toNat_natCast], fun i hi => ?_⟩
    rw [readVnode, List.getD_eq_getElem?_getD, List.getElem?_replicate_of_lt hi]
    rfl
  | devrand x => cases hdata
  | tty => cases hdata

/-! ## Page by page

A page of the buffer, with zeros behind its end; the induction is on the pages that are filled.
-/

section

variable {vm₀ vm : Vm σ} {pml4 base n : Nat} {frame : Nat → Option Nat} {tmp : List UInt8}

/-- The first `k` pages hold what is in the buffer, and zeros behind it; the tables are the same. -/
structure Filled (vm₀ vm : Vm σ) (pml4 base : Nat) (frame : Nat → Option Nat) (tmp : List UInt8) (k : Nat) : Prop where
  tree : UserTree IsPath vm.mem pml4
  tables {q} : IsPath q → tableAt vm.mem pml4 q = tableAt vm₀.mem pml4 q
  same (va) : vmmVirtToPhys vm.mem pml4 va = vmmVirtToPhys vm₀.mem pml4 va
  bytes {j o f} : j < k → o < pageSize → frame (base + j) = some f → vm.mem (f + o) = tmp.getD (j * pageSize + o) 0

/-- A page of the buffer, and zeros where it ends. -/
theorem pageBytes_spec (tmp : List UInt8) {k : Nat} (hk : k < n) :
    (pageBytes tmp tmp.length (n * pageSize) (k * pageSize)).length = pageSize ∧
    ∀ o < pageSize, (pageBytes tmp tmp.length (n * pageSize) (k * pageSize)).getD o 0 = tmp.getD (k * pageSize + o) 0 := by
  have hsz : min pageSize (n * pageSize - k * pageSize) = pageSize := by
    have hle : (k + 1) * pageSize ≤ n * pageSize := Nat.mul_le_mul_right _ hk
    rw [Nat.succ_mul] at hle
    omega
  have hcopy : (if k * pageSize < tmp.length then min pageSize (tmp.length - k * pageSize) else 0) =
      min pageSize (tmp.length - k * pageSize) := by
    split <;> omega
  rw [pageBytes]
  simp only [hsz, hcopy]
  generalize k * pageSize = i
  constructor
  · rw [List.length_append, List.length_take, List.length_drop, List.length_replicate]
    omega
  · intro o ho
    rw [List.getD_eq_getElem?_getD, List.getD_eq_getElem?_getD]
    by_cases hin : o < tmp.length - i
    · rw [List.getElem?_append_left (by rw [List.length_take, List.length_drop]; omega),
        List.getElem?_take_of_lt (by omega), List.getElem?_drop]
    · have hout : tmp[i + o]? = none := List.getElem?_eq_none (by omega)
      have hlen : ((tmp.drop i).take (min pageSize (tmp.length - i))).length = tmp.length - i := by
        rw [List.length_take, List.length_drop]
        omega
      rw [hout, List.getElem?_append_right (by omega), hlen, List.getElem?_replicate_of_lt (by omega)]
      rfl

variable (h : Handed vm₀ vm pml4 frame []) (hc : Covers frame base (base + n))
include h hc

/-- One page is filled. -/
theorem Filled.step {vm' : Vm σ} {k : Nat} (hk : k < n) (f : Filled vm vm' pml4 base frame tmp k) :
    Filled vm (fillPage pml4 (base * pageSize) (n * pageSize) tmp.length tmp vm' k) pml4 base frame tmp (k + 1) := by
  obtain ⟨g, hg⟩ := (hc (base + k)).2 ⟨Nat.le_add_right _ _, Nat.add_lt_add_left hk _⟩
  obtain ⟨h0, hal, -⟩ := h.frame_spec (.inr ⟨_, hg⟩)
  have hphys : vmmVirtToPhys vm'.mem pml4 (pageAt (base * pageSize) k) = g := by
    have hpage := h.page hg (o := 0) (by decide)
    rw [Nat.add_zero, Nat.add_zero] at hpage
    rw [pageAt_base (Nat.lt_trans (h.assigned.user hg) (by decide)), f.same, hpage]
  obtain ⟨hlen, hbytes⟩ := pageBytes_spec tmp hk
  have ha : AgreeOff g vm'.mem (vm'.mem.write g (pageBytes tmp tmp.length (n * pageSize) (k * pageSize))) :=
    agreeOff_write (Nat.le_refl g) (by rw [hlen])
  have hun : Unused IsPath vm'.mem pml4 g := fun q hq ht =>
    (h.held (.inr ⟨_, hg⟩)).2.2 q hq ((f.tables hq).symm.trans ht)
  rw [fillPage, hphys]
  simp only [if_pos h0]
  exact {
    tree := ha.tree f.tree hal hun
    tables := fun hq => (ha.tableAt_eq f.tree hal hun hq).trans (f.tables hq)
    same := fun va => (ha.virtToPhys_eq f.tree hal hun (reaches_all va)).trans (f.same va)
    bytes := fun {j o g'} hj ho hg' => by
      rcases Nat.lt_succ_iff_lt_or_eq.1 hj with hj | rfl
      · -- a page that was filled before has another frame
        have hne : g' ≠ g := by
          rintro rfl
          have := h.assigned.inj hg hg'
          omega
        have hal' := (h.frame_spec (.inr ⟨_, hg'⟩)).2.1
        refine (ha (g' + o) ?_).trans (f.bytes hj ho hg')
        rw [pageSize] at *
        omega
      · obtain rfl : g = g' := Option.some.inj (hg.symm.trans hg')
        have hlt : o < (pageBytes tmp tmp.length (n * pageSize) (j * pageSize)).length := by rwa [hlen]
        refine (ByteMem.write_in _ hlt).trans ?_
        rw [← hbytes o ho, List.getD_eq_getElem?_getD, List.getElem?_eq_getElem hlt]
        rfl }

/-- All pages are filled. -/
theorem Filled.run : ∀ k ≤ n, Filled vm
    ((List.range k).foldl (fillPage pml4 (base * pageSize) (n * pageSize) tmp.length tmp) vm) pml4 base frame tmp k := by
  intro k
  induction k with
  | zero =>
    intro _
    exact { tree := h.inv.tree, tables := fun _ => rfl, same := fun _ => rfl, bytes := nofun }
  | succ k ih =>
    intro hk
    rw [List.range_succ, List.foldl_append]
    exact (ih (Nat.le_of_succ_le hk)).step h hc hk

end

/-! ## The call

From frames to addresses of the process, and the equivalence.
-/

section

variable {m : ByteMem} {pml4 base n v len offset : Nat} {data : List UInt8}

/-- Where pages are mapped to frames, it is the bytes of the frames that count. -/
theorem mapsFile_iff {frame : Nat → Option Nat} (hend : (base + n) * pageSize ≤ vmmUserEnd)
    (hframe : ∀ k < n, ∃ f, frame (base + k) = some f ∧ f ≠ 0 ∧
      ∀ o < pageSize, vmmVirtToPhys m pml4 ((base + k) * pageSize + o) = f + o) :
    MapsFile m pml4 (base * pageSize) (n * pageSize) offset data ↔
      ∀ k < n, ∀ o < pageSize, ∀ f, frame (base + k) = some f →
        m (f + o) = data.getD (offset + (k * pageSize + o)) 0 := by
  constructor
  · intro h k hk o ho f hf
    obtain ⟨g, hg, -, hpage⟩ := hframe k hk
    obtain rfl : g = f := Option.some.inj (hg.symm.trans hf)
    have hlt : k * pageSize + o < n * pageSize := by
      have hle : (k + 1) * pageSize ≤ n * pageSize := Nat.mul_le_mul_right _ hk
      rw [Nat.succ_mul] at hle
      omega
    obtain ⟨-, -, hbyte⟩ := h _ hlt
    rw [← Nat.add_assoc, ← Nat.add_mul, hpage o ho] at hbyte
    exact hbyte
  · intro h i hi
    have hk : i / pageSize < n := Nat.div_lt_of_lt_mul (by rwa [Nat.mul_comm])
    have ho : i % pageSize < pageSize := Nat.mod_lt _ (by decide)
    have hsplit : i / pageSize * pageSize + i % pageSize = i := by
      rw [Nat.mul_comm]
      exact Nat.div_add_mod i pageSize
    obtain ⟨f, hf, h0, hpage⟩ := hframe _ hk
    have hphys : vmmVirtToPhys m pml4 (base * pageSize + i) = f + i % pageSize := by
      rw [← hpage _ ho, Nat.add_mul, Nat.add_assoc, hsplit]
    refine ⟨?_, ?_, ?_⟩
    · rw [Nat.add_mul] at hend
      omega
    · rw [vmmIsMapped, hphys, bne_iff_ne]
      omega
    · rw [hphys, h _ hk _ ho f hf, hsplit]

/-- Lengths are rounded once. -/
theorem rangeFits_alignUp {hint length : Nat} (h : RangeFits m pml4 hint length) :
    RangeFits m pml4 hint (alignUp length) := by
  have halign := alignUp_of_le h.1
  have hle : alignUp length ≤ vmmUserEnd := by
    rw [halign]
    exact (pagesOf_le (by decide)).2 h.1
  have htwice : alignUp (alignUp length) = alignUp length := by
    rw [alignUp_of_le hle, halign, pagesOf, pageSize]
    omega
  refine ⟨hle, ?_⟩
  rw [htwice]
  exact h.2

/-- Bytes of the process are found in the user half only. -/
theorem mapsFile_range {vm vm' : Vm σ} {fuel hint length : Nat} {flags : Pte} (hpos : 0 < length)
    (halloc : vm.vmmAllocUser fuel pml4 hint (alignUp length) flags = some (v, vm')) (h0 : v ≠ 0)
    (h : MapsFile m pml4 v (pagesOf length * pageSize) offset data) : RangeFits vm.mem pml4 hint length := by
  have hpages : 0 < pagesOf length * pageSize := by
    rw [pagesOf, pageSize]
    omega
  have hbelow : v + pagesOf length * pageSize ≤ vmmUserEnd := by
    obtain ⟨hlast, -, -⟩ := h (pagesOf length * pageSize - 1) (by omega)
    omega
  have hlen : length ≤ vmmUserEnd := (pagesOf_le (by decide)).1 (Nat.le_trans (Nat.le_add_left _ _) hbelow)
  have halign := alignUp_of_le hlen
  have hn : pagesOf (alignUp length) = pagesOf length := by
    rw [halign, pagesOf, pageSize]
    omega
  obtain ⟨hle, hpassed⟩ := alloc_user_fits halloc h0 (by rwa [hn])
  have htwice : alignUp (alignUp length) = alignUp length := by
    rw [alignUp_of_le hle, hn, halign]
  rw [htwice] at hpassed
  exact ⟨hlen, hpassed⟩

/-- What a successful call on a file did. -/
theorem sysMmap_file {u u' : UserMem σ} {env : MmapEnv} {addr length prot flags fd : Nat} {off : BitVec 64} {ops : VnodeOps}
    (hfile : flags &&& mapAnonymous = 0) (hops : env.files (BitVec.ofNat 32 fd) = some ops)
    (hout : u.sysMmap env addr length prot flags fd off = some (.ok v, u')) :
    0 < length ∧ v ≠ 0 ∧ u'.pml4 = u.pml4 ∧ ∃ vm,
      u.vm.vmmAllocUser env.fuel u.pml4 addr (alignUp length) (protFlags prot) = some (v, vm) ∧
      u'.vm = if env.bufOk then (List.range (alignUp length / pageSize)).foldl
        (fillPage u.pml4 v (alignUp length) (readVnode env.tty (alignUp length) off.toInt ops).1.toNat
          (readVnode env.tty (alignUp length) off.toInt ops).2) vm else vm := by
  rw [UserMem.sysMmap] at hout
  split at hout
  next => cases hout
  next hlen =>
    simp only [hfile, ne_eq, not_true_eq_false, if_false, hops] at hout
    obtain ⟨⟨w, vm⟩, halloc, hrest⟩ := Option.bind_eq_some_iff.1 hout
    simp only at hrest
    split at hrest
    next => cases hrest
    next h0 =>
      cases hrest
      exact ⟨Nat.pos_of_ne_zero hlen, h0, rfl, vm, halloc, rfl⟩

end

/-- What the pages hold, for a range that stays in the user half. -/
theorem mapsFile_fits {vm vm' : Vm σ} {pml4 fuel addr length v offset : Nat} {flags : Pte} {out : Int × List UInt8}
    {data : List UInt8} (bufOk : Bool) (hinv : Mm.TreeInv IsPath vm pml4) (hpres : isPresent flags = true)
    (hflags : flags &&& 0x000FFFFFFFFFF000#64 = 0#64)
    (halloc : vm.vmmAllocUser fuel pml4 addr (alignUp length) flags = some (v, vm')) (h0 : v ≠ 0)
    (hfits : RangeFits vm.mem pml4 addr length) (hread : ReadsFile out (alignUp length) offset data) :
    MapsFile (if bufOk then (List.range (alignUp length / pageSize)).foldl
        (fillPage pml4 v (alignUp length) out.1.toNat out.2) vm' else vm').mem pml4 v (pagesOf length * pageSize) offset data ↔
      bufOk = true ∨ ∀ i < pagesOf length * pageSize, data.getD (offset + i) 0 = 0 := by
  have halign := alignUp_of_le hfits.1
  have hfits' := rangeFits_alignUp hfits
  have hn : pagesOf (alignUp length) = pagesOf length := by
    rw [halign, pagesOf, pageSize]
    omega
  obtain ⟨base, frame, rfl, hbelow, h, hc, -⟩ := alloc_user_handed hinv hpres hflags halloc h0 hfits'
  rw [hn] at hbelow hc
  rw [halign] at hread ⊢
  rw [Nat.mul_div_cancel _ (show 0 < pageSize by decide), ← hread.1]
  have hframe : ∀ {m : ByteMem}, (∀ va, vmmVirtToPhys m pml4 va = vmmVirtToPhys vm'.mem pml4 va) → ∀ k < pagesOf length,
      ∃ f, frame (base + k) = some f ∧ f ≠ 0 ∧
        ∀ o < pageSize, vmmVirtToPhys m pml4 ((base + k) * pageSize + o) = f + o := by
    intro m hsame k hk
    obtain ⟨f, hf⟩ := (hc (base + k)).2 ⟨Nat.le_add_right _ _, Nat.add_lt_add_left hk _⟩
    exact ⟨f, hf, (h.frame_spec (.inr ⟨_, hf⟩)).1, fun o ho => (hsame _).trans (h.page hf ho)⟩
  cases bufOk with
  | true =>
    have f : Filled vm' _ pml4 base frame out.2 _ := Filled.run h hc (pagesOf length) (Nat.le_refl _)
    refine iff_of_true ((mapsFile_iff hbelow (hframe f.same)).2 fun k hk o ho g hg => ?_) (.inl rfl)
    have hlt : k * pageSize + o < pagesOf length * pageSize := by
      have hle : (k + 1) * pageSize ≤ pagesOf length * pageSize := Nat.mul_le_mul_right _ hk
      rw [Nat.succ_mul] at hle
      omega
    exact (f.bytes hk ho hg).trans (hread.2 _ hlt)
  | false =>
    -- the pages are as `pmm_alloc` cleared them
    rw [or_iff_right Bool.false_ne_true]
    refine (mapsFile_iff hbelow (hframe fun _ => rfl)).trans ⟨fun hP i hi => ?_, fun hzero k hk o ho g hg => ?_⟩
    · have hk : i / pageSize < pagesOf length := Nat.div_lt_of_lt_mul (by rwa [Nat.mul_comm])
      have ho : i % pageSize < pageSize := Nat.mod_lt _ (by decide)
      obtain ⟨g, hg, -⟩ := hframe (fun _ => rfl) _ hk
      have hbyte := hP _ hk _ ho g hg
      rw [Nat.mul_comm (i / pageSize), Nat.div_add_mod] at hbyte
      rw [← hbyte]
      exact h.clear (.inr ⟨_, hg⟩) ho
    · have hlt : k * pageSize + o < pagesOf length * pageSize := by
        have hle : (k + 1) * pageSize ≤ pagesOf length * pageSize := Nat.mul_le_mul_right _ hk
        rw [Nat.succ_mul] at hle
        omega
      rw [hzero _ hlt]
      exact h.clear (.inr ⟨_, hg⟩) ho

/-- **A file that is mapped** is found in the memory of the process exactly when the range stays in the user half, and
    there was memory for the buffer or the file has only zeros there. -/
theorem mmap_file_iff (u u' : UserMem σ) (env : MmapEnv) (addr length prot flags fd v : Nat) (off : BitVec 64)
    (ops : VnodeOps) (data : List UInt8) (hinv : Mm.TreeInv IsPath u.vm u.pml4) (hfile : flags &&& mapAnonymous = 0)
    (hops : env.files (BitVec.ofNat 32 fd) = some ops) (hdata : fileData ops = some data) (hsize : data.length ≤ 2 ^ 63)
    (hout : u.sysMmap env addr length prot flags fd off = some (.ok v, u')) :
    MapsFile u'.vm.mem u'.pml4 v (pagesOf length * pageSize) off.toNat data ↔
      RangeFits u.vm.mem u.pml4 addr length ∧
        (env.bufOk = true ∨ ∀ i < pagesOf length * pageSize, data.getD (off.toNat + i) 0 = 0) := by
  obtain ⟨hpos, h0, hpml4, vm, halloc, hvm⟩ := sysMmap_file hfile hops hout
  obtain ⟨hpres, -, hflags⟩ := Refreshed.protFlags_bits prot
  have hread := readVnode_spec env.tty (alignUp length) off hdata hsize
  rw [hvm, hpml4]
  constructor
  · intro hP
    have hfits := mapsFile_range hpos halloc h0 hP
    exact ⟨hfits, (mapsFile_fits env.bufOk hinv hpres hflags halloc h0 hfits hread).1 hP⟩
  · rintro ⟨hfits, hor⟩
    exact (mapsFile_fits env.bufOk hinv hpres hflags halloc h0 hfits hread).2 hor

/-- A kernel with one file, of three bytes, under the descriptor 3. -/
def threeBytes (bufOk : Bool) : MmapEnv where
  fuel := 1
  files fd := if fd = 3 then some (.initrd (some ⟨false, [7, 8, 9]⟩)) else none
  tty := (0, [])
  bufOk := bufOk
  vmaOk := true

/-- The file from its second byte on, privately and for reading. -/
theorem mmap_file_small : ∃ u', (noPages clearedVm.pmm).sysMmap (threeBytes true) 0 5 1 2 3 1 = some (.ok 0x400000, u') ∧
    MapsFile u'.vm.mem u'.pml4 0x400000 0x1000 1 [7, 8, 9] := by
  have hr : ((noPages clearedVm.pmm).sysMmap (threeBytes true) 0 5 1 2 3 1).map (fun out => out.1.toOption) =
      some (some 0x400000) := by decide +kernel
  obtain ⟨⟨r, u'⟩, hout, hv⟩ := Option.map_eq_some_iff.1 hr
  cases r with
  | error e => cases hv
  | ok v =>
    obtain rfl : v = 0x400000 := Option.some.inj hv
    exact ⟨u', hout, (mmap_file_iff (noPages clearedVm.pmm) u' (threeBytes true) 0 5 1 2 3 0x400000 1
      (.initrd (some ⟨false, [7, 8, 9]⟩)) [7, 8, 9] clearedVm_tree (by decide) rfl rfl (by decide) hout).2
      ⟨⟨by decide, .inl (by decide)⟩, .inl rfl⟩⟩

/-- Without memory for the buffer the call succeeds all the same, and the page is zero. -/
theorem mmap_file_zeros : ∃ u', (noPages clearedVm.pmm).sysMmap (threeBytes false) 0 5 1 2 3 1 = some (.ok 0x400000, u') ∧
    ¬MapsFile u'.vm.mem u'.pml4 0x400000 0x1000 1 [7, 8, 9] := by
  have hr : ((noPages clearedVm.pmm).sysMmap (threeBytes false) 0 5 1 2 3 1).map (fun out =>
      (out.1.toOption, out.2.vm.mem (vmmVirtToPhys out.2.vm.mem out.2.pml4 0x400000))) = some (some 0x400000, 0) := by
    decide +kernel
  obtain ⟨⟨r, u'⟩, hout, hpair⟩ := Option.map_eq_some_iff.1 hr
  obtain ⟨hv, hbyte⟩ := Prod.mk.inj hpair
  cases r with
  | error e => cases hv
  | ok v =>
    obtain rfl : v = 0x400000 := Option.some.inj hv
    refine ⟨u', hout, fun h => ?_⟩
    obtain ⟨-, -, hfile⟩ := h 0 (by decide)
    rw [Nat.add_zero, hbyte] at hfile
    revert hfile
    decide

end MyUnix.Proc
