import Mathlib.Algebra.GroupWithZero.Nat
import MyUnix.Mm.SpacePages

/-!
# `Proc.Elf` — loading a program

`elf_load` of `elf.c`: the headers of the file, its segments, the stack, and the frame on the stack from which the
program reads its arguments. Data reaches the pages of the new space through the direct map, at the physical address
that `vmm_virt_to_phys` gives; `wrote` records where.

What the kernel heap answers is a parameter (`ElfEnv`): whether there is memory, and for the buffer of a segment also
what was in it before. The interpreter a file names (`PT_INTERP`) is read and not used, so it is left out.

Everything that the loader reads is a list of bytes, the file, and every number in it is any number of its width. The
functions keep the order of the source: pages of a segment first, then its bytes, header after header, and the frame
of the stack downwards from its strings. `none` is the panic of `pmm_free`, which a failing `vmm_map` leads to when
its frame is given back.

What is proved of the load stands in the modules behind this one: `Proc.ElfPages` and `Proc.ElfConfined` where it
writes, `Proc.ElfBytes` what a segment then looks like, `Proc.ElfStack` and `Proc.ElfFrame` the stack, `Proc.ElfEntry`
what the program reads there, and `Proc.ElfPhdr` what it is told about its headers.
-/

namespace MyUnix.Elf

open Lib Mm PageAlloc

/-- `VMM_STACK_TOP`. -/
def stackTop : Nat := 0x7FFFFFFFE000

/-- `VMM_STACK_SIZE`. -/
def stackSize : Nat := 8 * 1024 * 1024

/-- `PT_LOAD`. -/
def ptLoad : Nat := 1

/-- `ET_DYN`. -/
def etDyn : Nat := 3

/-- A difference of `uintptr_t`s. -/
def sub64 (a b : Nat) : Nat := (a + (2 ^ 64 - b % 2 ^ 64)) % 2 ^ 64

/-- `ALIGN_DOWN(x, 16)`. -/
def alignDown16 (x : Nat) : Nat := x / 16 * 16

/-! ## The file

Fields are little-endian and are read from a copy of the headers. A read beyond the end gives fewer bytes.
-/

/-- `vnode->ops->read`. -/
def readAt (content : List UInt8) (off len : Nat) : List UInt8 := (content.drop off).take len

/-- A little-endian field of `n` bytes. -/
def field (bs : List UInt8) (off n : Nat) : Nat := ofLe (readAt bs off n)

/-- `Elf64_Ehdr`, as far as it is looked at. -/
structure Ehdr where
  type      : Nat
  entry     : Nat
  phoff     : Nat
  phentsize : Nat
  phnum     : Nat
  deriving DecidableEq

/-- The header in the first bytes of a file. -/
def ehdrOf (bs : List UInt8) : Ehdr where
  type := field bs 16 2
  entry := field bs 24 8
  phoff := field bs 32 8
  phentsize := field bs 54 2
  phnum := field bs 56 2

/-- `elf_check_header`: magic, class, byte order, type and machine. -/
def elfCheckHeader (bs : List UInt8) : Bool :=
  field bs 0 4 = 0x464C457F ∧ field bs 4 1 = 2 ∧ field bs 5 1 = 1 ∧
    (field bs 16 2 = 2 ∨ field bs 16 2 = etDyn) ∧ field bs 18 2 = 62

/-- `Elf64_Phdr`, as far as it is looked at. -/
structure Phdr where
  type   : Nat
  flags  : Nat
  offset : Nat
  vaddr  : Nat
  filesz : Nat
  memsz  : Nat
  deriving DecidableEq

/-- The program header with the number `i` of a table. -/
def phdrAt (bs : List UInt8) (i : Nat) : Phdr where
  type := field bs (56 * i) 4
  flags := field bs (56 * i + 4) 4
  offset := field bs (56 * i + 8) 8
  vaddr := field bs (56 * i + 16) 8
  filesz := field bs (56 * i + 32) 8
  memsz := field bs (56 * i + 40) 8

/-- The header of a file that `elf_load` accepts so far. -/
def headerOf (content : List UInt8) : Option Ehdr :=
  let head := readAt content 0 64
  if head.length < 64 ∨ elfCheckHeader head = false ∨ (ehdrOf head).phnum = 0 ∨ (ehdrOf head).phentsize < 56 then none
  else some (ehdrOf head)

/-- The program headers, unless the file ends before them. -/
def phdrsOf (content : List UInt8) (ehdr : Ehdr) : Option (List Phdr) :=
  let table := readAt content ehdr.phoff (ehdr.phnum * 56)
  if table.length < ehdr.phnum * 56 then none else some ((List.range ehdr.phnum).map (phdrAt table))

/-- The base address of a position-independent program. -/
def loadBias (ehdr : Ehdr) : Nat := if ehdr.type = etDyn then 0x400000 else 0

/-! ## Segments

Two loops, one that maps pages and one that fills them. The second one starts at the address of the segment, goes to
the end of the page, and from there on page by page; it stops at a page that is not there.
-/

/-- The machine, with the physical ranges that data was written to. -/
structure Load (σ : Type) where
  vm    : Vm σ
  wrote : List (Nat × Nat)

variable {σ : Type} [PageAlloc σ]

/-- `memcpy` to a physical address, through the direct map. -/
def Load.memcpy (l : Load σ) (pa : Nat) (bs : List UInt8) : Load σ :=
  { vm := { l.vm with mem := l.vm.mem.write pa bs }, wrote := (pa, bs.length) :: l.wrote }

/-- The flags of a page of a segment (`PF_W` is 2, `PF_X` is 1). -/
def segFlags (flags : Nat) : Pte :=
  ptePresent ||| pteUser ||| (if flags &&& 2 ≠ 0 then pteWritable else 0) ||| (if flags &&& 1 = 0 then pteNx else 0)

/-- The first loop of `elf_map_segment`, with `n` pages left. A page that is mapped already is used as it is. `none`:
    the panic of `pmm_free`. -/
def mapPages (pml4 : Nat) (flags : Pte) : Nat → Nat → Load σ → Option (Int × Load σ)
  | 0,     _,    l => some (0, l)
  | n + 1, addr, l =>
    -- a page that is there already is used as it is, whatever is in it
    if vmmIsMapped l.vm.mem pml4 addr then mapPages pml4 flags n ((addr + pageSize) % 2 ^ 64) l
    else
      let (phys, vm) := l.vm.alloc
      if phys = 0 then some (-enomem, { l with vm })
      else
        let (r, vm) := vm.vmmMap pml4 addr phys flags
        if r < 0 then (pmmFree vm.pmm phys).map fun pmm => (r, { l with vm := { vm with pmm } })
        else mapPages pml4 flags n ((addr + pageSize) % 2 ^ 64) { l with vm }

/-- Every round of the second loop writes something. -/
theorem sub_written_lt {off filesz : Nat} (h : off < filesz) (target : Nat) :
    filesz - (off + min (pageSize - target % pageSize) (filesz - off)) < filesz - off := by
  have hlt : target % pageSize < pageSize := Nat.mod_lt _ (by decide)
  omega

/-- The second loop: `filesz` bytes of the buffer to the pages from `vaddr` on. -/
def writeSegment (pml4 vaddr filesz : Nat) (buf : ByteMem) (off : Nat) (l : Load σ) : Int × Load σ :=
  if off < filesz then
    let target := (vaddr + off) % 2 ^ 64
    let phys := vmmVirtToPhys l.vm.mem pml4 (alignDown target)
    if phys = 0 then (-efault, l)
    else
      -- up to the end of the page, or of the data
      let n := min (pageSize - target % pageSize) (filesz - off)
      writeSegment pml4 vaddr filesz buf (off + n) (l.memcpy (phys + target % pageSize) (buf.read off n))
  else (0, l)
termination_by filesz - off
decreasing_by exact sub_written_lt ‹_› _

/-- What `kmalloc` answers: for the program headers, for the buffer of each segment, with what is in it, and for the
    two arrays of pointers. -/
structure ElfEnv where
  phdrs    : Bool
  segment  : Nat → Option ByteMem
  argvPtrs : Bool
  envpPtrs : Bool

/-- The buffer after the file was read into it. -/
def segmentBuf (content : List UInt8) (ph : Phdr) (junk : ByteMem) : ByteMem :=
  fun i => ((readAt content ph.offset ph.filesz)[i]?).getD (junk i)

/-- Where a segment goes. -/
def Phdr.start (ph : Phdr) (bias : Nat) : Nat := (ph.vaddr + bias) % 2 ^ 64

/-- How many pages `elf_map_segment` maps. -/
def Phdr.nPages (ph : Phdr) (bias : Nat) : Nat :=
  alignUp ((ph.memsz + ph.start bias % pageSize) % 2 ^ 64) / pageSize

/-- `elf_map_segment`. -/
def elfMapSegment (pml4 : Nat) (content : List UInt8) (buf : Option ByteMem) (ph : Phdr) (bias : Nat) (l : Load σ) :
    Option (Int × Load σ) :=
  if ph.memsz = 0 then some (0, l)
  else
    match mapPages pml4 (segFlags ph.flags) (ph.nPages bias) (alignDown (ph.start bias)) l with
    | none        => none
    | some (r, l) =>
      if r < 0 then some (r, l)
      else if ph.filesz = 0 then some (0, l)
      else
        match buf with
        | none      => some (-enomem, l)
        | some junk => some (writeSegment pml4 (ph.start bias) ph.filesz (segmentBuf content ph junk) 0 l)

/-- The address ranges that `elf_load` reports. -/
structure Ranges where
  textStart : Nat
  textEnd   : Nat
  dataStart : Nat
  dataEnd   : Nat
  brk       : Nat

/-- The ranges before the first segment. -/
def Ranges.empty : Ranges := ⟨2 ^ 64 - 1, 0, 2 ^ 64 - 1, 0, 0⟩

/-- The ranges with one more segment. -/
def Ranges.add (g : Ranges) (ph : Phdr) (bias : Nat) : Ranges :=
  let start := ph.start bias
  let stop := (start + ph.memsz) % 2 ^ 64
  let g := { g with brk := max g.brk stop }
  if ph.flags &&& 1 ≠ 0 then { g with textStart := min g.textStart start, textEnd := max g.textEnd stop }
  else { g with dataStart := min g.dataStart start, dataEnd := max g.dataEnd stop }

/-- The loop over the program headers, at the one with the number `i`. -/
def loadSegments (pml4 : Nat) (content : List UInt8) (env : ElfEnv) (bias : Nat) :
    List Phdr → Nat → Load σ → Ranges → Option (Int × Load σ × Ranges)
  | [],        _, l, g => some (0, l, g)
  | ph :: phs, i, l, g =>
    if ph.type ≠ ptLoad then loadSegments pml4 content env bias phs (i + 1) l g
    else
      match elfMapSegment pml4 content (env.segment i) ph bias l with
      | none        => none
      | some (r, l) =>
        if r < 0 then some (r, l, g) else loadSegments pml4 content env bias phs (i + 1) l (g.add ph bias)

/-! ## The stack

The strings are put down one by one, and the arrays through `WRITE_USER`, which looks up one address and writes all
bytes from there on.
-/

/-- The loop that gives the stack its pages, with `n` left. What `vmm_map` returns is not looked at. -/
def stackPages (pml4 : Nat) : Nat → Nat → Load σ → Int × Load σ
  | 0,     _, l => (0, l)
  | n + 1, p, l =>
    let (phys, vm) := l.vm.alloc
    if phys = 0 then (-enomem, { l with vm })
    else stackPages pml4 n (p + pageSize) { l with vm := (vm.vmmMap pml4 p phys vmmUserRw).2 }

/-- The bytes of the strings, each with its zero. -/
def stringBytes (ss : List (List UInt8)) : Nat := (ss.map fun s => s.length + 1).sum

/-- The loop that puts strings on the stack from `ptr` on. Of a string that does not fit into its page the rest is left
    out. -/
def writeStrings (pml4 : Nat) : List (List UInt8) → Nat → Load σ → Load σ
  | [],      _,   l => l
  | s :: ss, ptr, l =>
    let phys := vmmVirtToPhys l.vm.mem pml4 (alignDown ptr)
    let l := if phys = 0 then l
      else l.memcpy (phys + ptr % pageSize) ((s ++ [0]).take (pageSize - ptr % pageSize))
    writeStrings pml4 ss ((ptr + (s.length + 1)) % 2 ^ 64) l

/-- The addresses of the strings, as the loop notes them. -/
def stringPtrs : List (List UInt8) → Nat → List Nat
  | [],      _   => []
  | s :: ss, ptr => ptr :: stringPtrs ss ((ptr + (s.length + 1)) % 2 ^ 64)

/-- Words in memory. -/
def wordsBytes (ws : List Nat) : List UInt8 := ws.flatMap (leBytes 8)

/-- `WRITE_USER`: no check that the page is there, nor that the data ends in it. -/
def writeUser (pml4 addr : Nat) (bs : List UInt8) (l : Load σ) : Load σ :=
  l.memcpy (vmmVirtToPhys l.vm.mem pml4 (alignDown addr) + addr % pageSize) bs

/-- The auxiliary vector: the types are `AT_PAGESZ`, `AT_PHDR`, `AT_PHENT`, `AT_PHNUM`, `AT_ENTRY`, `AT_UID`, `AT_EUID`,
    `AT_GID`, `AT_EGID` and `AT_NULL`. -/
def auxv (ehdr : Ehdr) : List (Nat × Nat) :=
  [(6, pageSize), (3, (loadBias ehdr + ehdr.phoff) % 2 ^ 64), (4, ehdr.phentsize), (5, ehdr.phnum),
    (9, (ehdr.entry + loadBias ehdr) % 2 ^ 64), (11, 0), (12, 0), (13, 0), (14, 0), (0, 0)]

/-- The auxiliary vector in memory. -/
def auxBytes (aux : List (Nat × Nat)) : List UInt8 := wordsBytes (aux.flatMap fun p => [p.1, p.2])

/-! The places on the stack, from the strings downwards. -/

section
variable (argv envp : List (List UInt8))

/-- Where the strings of the arguments begin. -/
def strSp : Nat := alignDown16 (sub64 stackTop (stringBytes argv + stringBytes envp + pathMax))

/-- Where the auxiliary vector begins. -/
def auxSp : Nat := sub64 (alignDown16 (sub64 (strSp argv envp) 8)) (10 * 16)

/-- Where the pointers to the environment begin. -/
def envpSp : Nat := sub64 (auxSp argv envp) ((envp.length + 1) * 8)

/-- Where the pointers to the arguments begin. -/
def argvSp : Nat := sub64 (envpSp argv envp) ((argv.length + 1) * 8)

/-- Where `argc` is. -/
def argcSp : Nat := sub64 (argvSp argv envp) 8

/-- `info->stack_top`. -/
def finalSp : Nat := alignDown16 (argcSp argv envp)

/-- Where the strings of the environment begin. -/
def envStr : Nat := (strSp argv envp + stringBytes argv) % 2 ^ 64

end

/-- The part of `elf_load` that builds the frame. -/
def buildFrame (pml4 : Nat) (ehdr : Ehdr) (argv envp : List (List UInt8)) (l : Load σ) : Load σ :=
  let l := writeStrings pml4 argv (strSp argv envp) l
  let l := writeStrings pml4 envp (envStr argv envp) l
  let l := writeUser pml4 (argcSp argv envp) (leBytes 8 argv.length) l
  let l := writeUser pml4 (argvSp argv envp) (wordsBytes (stringPtrs argv (strSp argv envp) ++ [0])) l
  let l := writeUser pml4 (envpSp argv envp) (wordsBytes (stringPtrs envp (envStr argv envp) ++ [0])) l
  writeUser pml4 (auxSp argv envp) (auxBytes (auxv ehdr)) l

/-- `elf_load_info_t`. -/
structure ElfInfo where
  entry     : Nat
  stackTop  : Nat
  textStart : Nat
  textEnd   : Nat
  dataStart : Nat
  dataEnd   : Nat
  brk       : Nat

/-- What `elf_load` reports of a load. -/
def infoOf (ehdr : Ehdr) (g : Ranges) (argv envp : List (List UInt8)) : ElfInfo where
  entry := (ehdr.entry + loadBias ehdr) % 2 ^ 64
  stackTop := finalSp argv envp
  textStart := if g.textStart = 2 ^ 64 - 1 then 0 else g.textStart
  textEnd := g.textEnd
  dataStart := if g.dataStart = 2 ^ 64 - 1 then 0 else g.dataStart
  dataEnd := g.dataEnd
  brk := alignUp g.brk

/-- `elf_load`, for a path that `vfs_open` answers with `file`. -/
def elfLoad (env : ElfEnv) (pml4 : Nat) (file : Except Int (List UInt8)) (argv envp : List (List UInt8)) (l : Load σ) :
    Option (Except Int ElfInfo × Load σ) :=
  match file with
  | .error e    => some (.error e, l)
  | .ok content =>
    match headerOf content with
    | none      => some (.error (-enoexec), l)
    | some ehdr =>
      if env.phdrs = false then some (.error (-enomem), l)
      else
        match phdrsOf content ehdr with
        | none     => some (.error (-enoexec), l)
        | some phs =>
          -- the segments in the order of the headers; the first that fails ends the load
          match loadSegments pml4 content env (loadBias ehdr) phs 0 l Ranges.empty with
          | none           => none
          | some (r, l, g) =>
            if r < 0 then some (.error r, l)
            else
              match stackPages pml4 (stackSize / pageSize) (stackTop - stackSize) l with
              | (r, l) =>
                if r < 0 then some (.error r, l)
                -- the two arrays of pointers come from the heap, the second one when the strings are written
                else if env.argvPtrs = false then some (.error (-enomem), l)
                else if env.envpPtrs = false then
                  some (.error (-enomem), writeStrings pml4 argv (strSp argv envp) l)
                else some (.ok (infoOf ehdr g argv envp), buildFrame pml4 ehdr argv envp l)

end MyUnix.Elf
