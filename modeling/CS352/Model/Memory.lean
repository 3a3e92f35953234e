import Mathlib.Algebra.Group.Int.Defs
import Mathlib.Algebra.GroupWithZero.Nat
import Mathlib.Data.Int.Order.Basic
import Mathlib.Data.List.Basic
import Mathlib.Logic.Function.Basic

/-! # Address spaces

`kernel/kalloc.c`, `kernel/vm.c`, `kernel/exec.c` and the calls of `kernel/proc.c` that change
the memory of a process, of the MLFQ kernel. Calls are atomic. A virtual address is a number of
bytes, a physical page is its page number. Of the contents of memory only page tables are kept:
a page is the list of its entries. -/

namespace CS352.Memory

open Function

/-- `PGSIZE`. -/
def pgsize : ℕ := 4096

/-- `MAXVA`. -/
def maxva : ℕ := 2 ^ 38

/-- `TRAMPOLINE`. -/
def trampolineVa : ℕ := maxva - pgsize

/-- `TRAPFRAME`. -/
def trapframeVa : ℕ := trampolineVa - pgsize

/-- The page of `KERNBASE`. -/
def kernbase : ℕ := 0x80000

/-- The page of `PHYSTOP`. -/
def phystop : ℕ := kernbase + 128 * 1024 * 1024 / pgsize

/-- `NPROC`. -/
def nproc : ℕ := 64

/-- `NOFILE`. -/
def nofile : ℕ := 16

/-- `ROOTINO`. -/
def rootino : ℕ := 1

/-- `MAXARG`. -/
def maxarg : ℕ := 32

/-- `ELF_MAGIC`. -/
def elfMagic : UInt32 := 0x464C457F

/-- `ELF_PROG_LOAD`. -/
def elfProgLoad : UInt32 := 1

/-- Where the linker puts the kernel: the page of the trampoline code, and the first page
after `end`. -/
class Image where
  trampoline : ℕ
  endPage : ℕ
  kernbase_le : kernbase ≤ trampoline
  trampoline_lt : trampoline < endPage

/-- The value that a `uint64` holds after storing `n`. -/
def uint64 (n : ℕ) : ℕ := n % 2 ^ 64

/-- The value of the `uint64` that is made from an `int` which stores `n`. -/
def viaInt (n : ℕ) : ℕ :=
  if n % 2 ^ 32 < 2 ^ 31 then n % 2 ^ 32 else n % 2 ^ 32 + (2 ^ 64 - 2 ^ 32)

/-- `sz + n` for an `int`. -/
def addInt (sz : ℕ) (n : ℤ) : ℕ := ((sz + n) % 2 ^ 64).toNat

/-- `PGROUNDUP`. -/
def pgroundup (sz : ℕ) : ℕ := uint64 (sz + (pgsize - 1)) / pgsize * pgsize

/-- `PGROUNDDOWN`. -/
def pgrounddown (a : ℕ) : ℕ := a / pgsize * pgsize

/-- `PTE_R`, `PTE_W`, `PTE_X` and `PTE_U`. -/
structure Perm where
  r : Bool
  w : Bool
  x : Bool
  u : Bool
  deriving DecidableEq, Repr

/-- A page-table entry, with its page number and `PTE_V`. -/
structure Pte where
  ppn : ℕ
  v : Bool
  perm : Perm
  deriving DecidableEq, Repr

/-- No permission. -/
def Perm.none : Perm := ⟨false, false, false, false⟩

def Pte.zero : Pte := ⟨0, false, .none⟩

/-- The entry has none of `PTE_R`, `PTE_W` and `PTE_X`, and points to a page table. -/
def Pte.inner (e : Pte) : Bool := !(e.perm.r || e.perm.w || e.perm.x)

/-- The states of `enum procstate`; `running` stands for those of a process that has neither
exited nor is being made. -/
inductive Procstate where
  | unused
  | used
  | running
  | zombie
  deriving DecidableEq, Repr

/-- Files are indices of `ftable`, inodes of `itable`. -/
structure Proc where
  state : Procstate
  pid : Int32
  parent : Option ℕ
  trapframe : Option ℕ
  pagetable : Option ℕ
  sz : ℕ
  ofile : ℕ → Option ℕ
  cwd : Option ℕ

/-- The fields that `freeproc` sets. -/
def Proc.freed (q : Proc) : Proc :=
  { q with
    state := .unused, pid := 0, parent := none, trapframe := none, pagetable := none, sz := 0 }

/-- The process table, and the `ref` of every file and inode. -/
structure Procs where
  proc : ℕ → Proc
  nextpid : Int32
  fileRef : ℕ → ℕ
  inodeRef : ℕ → ℕ

/-- `free` is `kmem.freelist`; `deny` tells which of the next calls of `kalloc` fail because
others have taken the memory. -/
structure State extends Procs where
  mem : ℕ → ℕ → Pte
  free : List ℕ
  deny : List Bool

inductive Panic where
  | kfree
  | walk
  | mappagesSize
  | mappagesRemap
  | uvmunmapAligned
  | uvmunmapWalk
  | uvmunmapNotMapped
  | uvmunmapNotLeaf
  | uvmfirst
  | freewalkLeaf
  | freewalkDepth
  | uvmcopyPte
  | uvmcopyPresent
  | uvmclear
  | loadseg
  | initExiting
  | filedup
  | fileclose
  | kerneltrap
  deriving DecidableEq, Repr

abbrev Kernel := StateT State (Except Panic)

/-- `page[i] = e`. -/
def setPte (page i : ℕ) (e : Pte) : Kernel Unit :=
  modify fun s => { s with mem := update s.mem page (update (s.mem page) i e) }

/-- `memset(page, 0, PGSIZE)`. -/
def zeroPage (page : ℕ) : Kernel Unit :=
  modify fun s => { s with mem := update s.mem page fun _ => Pte.zero }

def setProc (p : ℕ) (q : Proc) : Kernel Unit :=
  modify fun s => { s with proc := update s.proc p q }

/-! ## Pages -/

def kalloc : Kernel (Option ℕ) := do
  let s ← get
  match s.deny, s.free with
  | true :: deny, _ => do
    set { s with deny := deny }
    return none
  | _, [] => do
    set { s with deny := s.deny.tail }
    return none
  | _, r :: free => do
    set { s with free := free, deny := s.deny.tail }
    return some r

def kfree [Image] (pa : ℕ) : Kernel Unit :=
  if pa < Image.endPage ∨ pa ≥ phystop then throw .kfree
  else modify fun s => { s with free := pa :: s.free }

/-! ## Page tables -/

/-- `PX`. -/
def px (level va : ℕ) : ℕ := va / 2 ^ (12 + 9 * level) % 512

/-- The loop of `walk`, from `level` on. -/
def walkFrom (va : ℕ) (alloc : Bool) : ℕ → ℕ → Kernel (Option (ℕ × ℕ))
  | 0, pagetable => return some (pagetable, px 0 va)
  | level + 1, pagetable => do
    let s ← get
    let pte := s.mem pagetable (px (level + 1) va)
    if pte.v then walkFrom va alloc level pte.ppn
    else if alloc = false then return none
    else
      match ← kalloc with
      | none => return none
      | some page => do
        zeroPage page
        setPte pagetable (px (level + 1) va) ⟨page, true, .none⟩
        walkFrom va alloc level page

/-- The page and the index of the entry for `va`. -/
def walk (pagetable va : ℕ) (alloc : Bool) : Kernel (Option (ℕ × ℕ)) :=
  if va ≥ maxva then throw .walk else walkFrom va alloc 2 pagetable

/-- The result 0 stands for an address that is not mapped. -/
def walkaddr (pagetable va : ℕ) : Kernel ℕ := do
  if va ≥ maxva then return 0
  else
    match ← walk pagetable va false with
    | none => return 0
    | some (page, i) => do
      let s ← get
      if (s.mem page i).v = false then return 0
      else if (s.mem page i).perm.u = false then return 0
      else return (s.mem page i).ppn

/-- One round of the loop of `mappages`. -/
def mapPage (pagetable a pa : ℕ) (perm : Perm) : Kernel Bool := do
  match ← walk pagetable a true with
  | none => return false
  | some (page, i) => do
    let s ← get
    if (s.mem page i).v then throw .mappagesRemap
    else do
      setPte page i ⟨pa, true, perm⟩
      return true

/-- The loop of `mappages`, with `n` pages after the first one. -/
def mapLoop (pagetable : ℕ) (perm : Perm) : ℕ → ℕ → ℕ → Kernel Bool
  | 0, a, pa => mapPage pagetable a pa perm
  | n + 1, a, pa => do
    if ← mapPage pagetable a pa perm then mapLoop pagetable perm n (a + pgsize) (pa + 1)
    else return false

def mappages (pagetable va size pa : ℕ) (perm : Perm) : Kernel Bool :=
  if size = 0 then throw .mappagesSize
  else mapLoop pagetable perm ((pgrounddown (va + size - 1) - pgrounddown va) / pgsize)
    (pgrounddown va) pa

/-- The loop of `uvmunmap`, for `n` pages. -/
def unmapLoop [Image] (pagetable : ℕ) (doFree : Bool) : ℕ → ℕ → Kernel Unit
  | 0, _ => pure ()
  | n + 1, a => do
    match ← walk pagetable a false with
    | none => throw .uvmunmapWalk
    | some (page, i) => do
      let s ← get
      let pte := s.mem page i
      if pte.v = false then throw .uvmunmapNotMapped
      else if pte.perm = .none then throw .uvmunmapNotLeaf
      else do
        (if doFree then kfree pte.ppn else pure ())
        setPte page i .zero
        unmapLoop pagetable doFree n (a + pgsize)

def uvmunmap [Image] (pagetable va npages : ℕ) (doFree : Bool) : Kernel Unit :=
  if va % pgsize ≠ 0 then throw .uvmunmapAligned else unmapLoop pagetable doFree npages va

def uvmcreate : Kernel (Option ℕ) := do
  match ← kalloc with
  | none => return none
  | some pagetable => do
    zeroPage pagetable
    return some pagetable

/-- The result of `kalloc` and of `mappages` is not checked. -/
def uvmfirst (pagetable sz : ℕ) : Kernel Unit := do
  if sz ≥ pgsize then throw .uvmfirst
  else
    match ← kalloc with
    | none => throw .kerneltrap
    | some page => do
      let _ ← mappages pagetable 0 pgsize page ⟨true, true, true, true⟩
      return ()

def uvmdealloc [Image] (pagetable oldsz newsz : ℕ) : Kernel ℕ := do
  if newsz ≥ oldsz then return oldsz
  else if pgroundup newsz < pgroundup oldsz then do
    uvmunmap pagetable (pgroundup newsz)
      (viaInt ((pgroundup oldsz - pgroundup newsz) / pgsize)) true
    return newsz
  else return newsz

/-- The loop of `uvmalloc`, where `oldsz` has been rounded up. -/
def allocLoop [Image] (pagetable oldsz newsz : ℕ) (xperm : Perm) (a : ℕ) : Kernel ℕ :=
  if a < newsz then do
    match ← kalloc with
    | none => do
      let _ ← uvmdealloc pagetable a oldsz
      return 0
    | some page => do
      if ← mappages pagetable a pgsize page { xperm with r := true, u := true } then
        allocLoop pagetable oldsz newsz xperm (a + pgsize)
      else do
        kfree page
        let _ ← uvmdealloc pagetable a oldsz
        return 0
  else return newsz
termination_by newsz - a
decreasing_by
  unfold pgsize
  omega

def uvmalloc [Image] (pagetable oldsz newsz : ℕ) (xperm : Perm) : Kernel ℕ := do
  if newsz < oldsz then return oldsz
  else allocLoop pagetable (pgroundup oldsz) newsz xperm (pgroundup oldsz)

/-- The loop of `freewalk` over the entries in a list of indices. -/
def freeEntries (freeChild : ℕ → Kernel Unit) (pagetable : ℕ) : List ℕ → Kernel Unit
  | [] => pure ()
  | i :: is => do
    let s ← get
    let pte := s.mem pagetable i
    if pte.v ∧ pte.inner then do
      freeChild pte.ppn
      setPte pagetable i .zero
      freeEntries freeChild pagetable is
    else if pte.v then throw .freewalkLeaf
    else freeEntries freeChild pagetable is

/-- The number of entries in a page table. -/
@[irreducible] def npte : ℕ := 512

/-- `freewalk` with a bound on the depth of the recursion. -/
def freewalk [Image] : ℕ → ℕ → Kernel Unit
  | 0, _ => throw .freewalkDepth
  | depth + 1, pagetable => do
    freeEntries (freewalk depth) pagetable (List.range npte)
    kfree pagetable

/-- Sv39 has three levels. -/
def uvmfree [Image] (pagetable sz : ℕ) : Kernel Unit := do
  (if sz > 0 then uvmunmap pagetable 0 (pgroundup sz / pgsize) true else pure ())
  freewalk 3 pagetable

/-- The loop of `uvmcopy`; `false` is the result -1. -/
def copyLoop [Image] (old new sz i : ℕ) : Kernel Bool :=
  if i < sz then do
    match ← walk old i false with
    | none => throw .uvmcopyPte
    | some (page, j) => do
      let s ← get
      let pte := s.mem page j
      if pte.v = false then throw .uvmcopyPresent
      else
        match ← kalloc with
        | none => do
          uvmunmap new 0 (i / pgsize) true
          return false
        | some page => do
          if ← mappages new i pgsize page pte.perm then copyLoop old new sz (i + pgsize)
          else do
            kfree page
            uvmunmap new 0 (i / pgsize) true
            return false
  else return true
termination_by sz - i
decreasing_by
  unfold pgsize
  omega

def uvmcopy [Image] (old new sz : ℕ) : Kernel Bool := copyLoop old new sz 0

def uvmclear (pagetable va : ℕ) : Kernel Unit := do
  match ← walk pagetable va false with
  | none => throw .uvmclear
  | some (page, i) => do
    let s ← get
    setPte page i { s.mem page i with perm := { (s.mem page i).perm with u := false } }

/-- Whether all the bytes can be copied. -/
def copyout (pagetable dstva len : ℕ) : Kernel Bool :=
  if 0 < len then do
    let pa0 ← walkaddr pagetable (pgrounddown dstva)
    if pa0 = 0 then return false
    else
      copyout pagetable (uint64 (pgrounddown dstva + pgsize))
        (len - min (pgsize - (dstva - pgrounddown dstva)) len)
  else return true
termination_by len
decreasing_by
  unfold pgrounddown pgsize
  omega

/-! ## Processes -/

def procPagetable [Image] (trapframe : ℕ) : Kernel (Option ℕ) := do
  match ← uvmcreate with
  | none => return none
  | some pagetable => do
    if ← mappages pagetable trampolineVa pgsize Image.trampoline ⟨true, false, true, false⟩ then
      if ← mappages pagetable trapframeVa pgsize trapframe ⟨true, true, false, false⟩ then
        return some pagetable
      else do
        uvmunmap pagetable trampolineVa 1 false
        uvmfree pagetable 0
        return none
    else do
      uvmfree pagetable 0
      return none

def procFreepagetable [Image] (pagetable sz : ℕ) : Kernel Unit := do
  uvmunmap pagetable trampolineVa 1 false
  uvmunmap pagetable trapframeVa 1 false
  uvmfree pagetable sz

def freeproc [Image] (p : ℕ) : Kernel Unit := do
  let s ← get
  (match (s.proc p).trapframe with
    | some pa => kfree pa
    | none => pure ())
  (match (s.proc p).pagetable with
    | some pagetable => procFreepagetable pagetable (s.proc p).sz
    | none => pure ())
  let s ← get
  setProc p (s.proc p).freed

def allocproc [Image] : Kernel (Option ℕ) := do
  let s ← get
  match (List.range nproc).find? fun p => (s.proc p).state = .unused with
  | none => return none
  | some p => do
    set { s with nextpid := s.nextpid + 1 }
    setProc p { s.proc p with pid := s.nextpid, state := .used }
    match ← kalloc with
    | none => do
      freeproc p
      return none
    | some trapframe => do
      let s ← get
      setProc p { s.proc p with trapframe := some trapframe }
      match ← procPagetable trapframe with
      | none => do
        freeproc p
        return none
      | some pagetable => do
        let s ← get
        setProc p { s.proc p with pagetable := some pagetable }
        return some p

/-! ## Files -/

def filedup (f : ℕ) : Kernel Unit := do
  let s ← get
  if s.fileRef f < 1 then throw .filedup
  else set { s with fileRef := update s.fileRef f (s.fileRef f + 1) }

/-- What the last close of a file does to its pipe or inode is left out. -/
def fileclose (f : ℕ) : Kernel Unit := do
  let s ← get
  if s.fileRef f < 1 then throw .fileclose
  else set { s with fileRef := update s.fileRef f (s.fileRef f - 1) }

def idup (ip : ℕ) : Kernel Unit :=
  modify fun s => { s with inodeRef := update s.inodeRef ip (s.inodeRef ip + 1) }

/-- What the last `iput` of an inode does on the disk is left out. -/
def iput (ip : ℕ) : Kernel Unit :=
  modify fun s => { s with inodeRef := update s.inodeRef ip (s.inodeRef ip - 1) }

/-- The loop of `fork` over the open files. -/
def dupFiles (p np : ℕ) : List ℕ → Kernel Unit
  | [] => pure ()
  | fd :: fds => do
    let s ← get
    match (s.proc p).ofile fd with
    | none => dupFiles p np fds
    | some f => do
      filedup f
      let s ← get
      setProc np { s.proc np with ofile := update (s.proc np).ofile fd (some f) }
      dupFiles p np fds

/-- The loop of `exit` over the open files. -/
def closeFiles (p : ℕ) : List ℕ → Kernel Unit
  | [] => pure ()
  | fd :: fds => do
    let s ← get
    match (s.proc p).ofile fd with
    | none => closeFiles p fds
    | some f => do
      fileclose f
      let s ← get
      setProc p { s.proc p with ofile := update (s.proc p).ofile fd none }
      closeFiles p fds

/-! ## Calls -/

/-- `sizeof(initcode)`. -/
def initcodeSize : ℕ := 52

def userinit [Image] : Kernel Unit := do
  match ← allocproc with
  | none => throw .kerneltrap
  | some p => do
    let s ← get
    uvmfirst ((s.proc p).pagetable.getD 0) initcodeSize
    idup rootino
    let s ← get
    setProc p { s.proc p with sz := pgsize, cwd := some rootino, state := .running }

/-- `false` is the result -1. -/
def growproc [Image] (p : ℕ) (n : Int32) : Kernel Bool := do
  let s ← get
  let q := s.proc p
  if n.toInt > 0 then do
    let sz ← uvmalloc (q.pagetable.getD 0) q.sz (addInt q.sz n.toInt) { Perm.none with w := true }
    if sz = 0 then return false
    else do
      setProc p { q with sz := sz }
      return true
  else if n.toInt < 0 then do
    let sz ← uvmdealloc (q.pagetable.getD 0) q.sz (addInt q.sz n.toInt)
    setProc p { q with sz := sz }
    return true
  else return true

def sysSbrk [Image] (p : ℕ) (n : Int32) : Kernel ℤ := do
  let s ← get
  if ← growproc p n then return (s.proc p).sz else return -1

def fork [Image] (p : ℕ) : Kernel ℤ := do
  match ← allocproc with
  | none => return -1
  | some np => do
    let s ← get
    let q := s.proc p
    if ← uvmcopy (q.pagetable.getD 0) ((s.proc np).pagetable.getD 0) q.sz then do
      let s ← get
      setProc np { s.proc np with sz := q.sz }
      dupFiles p np (List.range nofile)
      match q.cwd with
      | none => throw .kerneltrap
      | some ip => do
        idup ip
        let s ← get
        setProc np { s.proc np with cwd := some ip, parent := some p, state := .running }
        return (s.proc np).pid.toInt
    else do
      freeproc np
      return -1

/-- Children go to `initproc`. -/
def reparent (p : ℕ) (q : Proc) : Proc :=
  if q.parent = some p then { q with parent := some 0 } else q

/-- The first process is `initproc`. -/
def exit (p : ℕ) : Kernel ℤ := do
  if p = 0 then throw .initExiting
  else do
    closeFiles p (List.range nofile)
    let s ← get
    (match (s.proc p).cwd with
      | none => throw .kerneltrap
      | some ip => iput ip)
    setProc p { s.proc p with cwd := none }
    modify fun s => { s with proc := fun pp => reparent p (s.proc pp) }
    let s ← get
    setProc p { s.proc p with state := .zombie }
    return 0

/-- A process without exited children gets -1 or goes to sleep. -/
def wait [Image] (p addr : ℕ) : Kernel ℤ := do
  let s ← get
  match (List.range nproc).find? fun pp =>
      (s.proc pp).parent = some p ∧ (s.proc pp).state = .zombie with
  | none => return -1
  | some pp => do
    let ok ← (if addr ≠ 0 then copyout ((s.proc p).pagetable.getD 0) addr 4 else pure true)
    if ok then do
      freeproc pp
      return (s.proc pp).pid.toInt
    else return -1

/-! ## exec -/

/-- `struct proghdr`. -/
structure Proghdr where
  type : UInt32
  flags : UInt32
  off : UInt64
  vaddr : UInt64
  filesz : UInt64
  memsz : UInt64
  deriving DecidableEq, Repr

/-- What `readi` finds in the file: the magic number and `phnum` of the header, the program
headers, and whether `n` bytes can be read at an offset. -/
structure Exe where
  header : Option (UInt32 × UInt16)
  phdr : ℕ → Option Proghdr
  readable : ℕ → ℕ → Bool

def flags2perm (flags : UInt32) : Perm :=
  { r := false, w := flags &&& 2 ≠ 0, x := flags &&& 1 ≠ 0, u := false }

/-- The loop of `loadseg`; `false` is the result -1. -/
def loadLoop (pagetable va : ℕ) (exe : Exe) (offset sz i : ℕ) : Kernel Bool :=
  if i < sz then do
    let pa ← walkaddr pagetable (uint64 (va + i))
    if pa = 0 then throw .loadseg
    else if exe.readable ((offset + i) % 2 ^ 32) (if sz - i < pgsize then sz - i else pgsize) then
      loadLoop pagetable va exe offset sz (i + pgsize)
    else return false
  else return true
termination_by sz - i
decreasing_by
  unfold pgsize
  omega

/-- `offset` and `sz` are of type `uint`. -/
def loadseg (pagetable va : ℕ) (exe : Exe) (offset sz : ℕ) : Kernel Bool :=
  loadLoop pagetable va exe (offset % 2 ^ 32) (sz % 2 ^ 32) 0

/-- The loop of `exec` over the program headers, from number `i` on with `n` to go. The result
is `sz`, and whether the loop has reached its end. -/
def loadHeaders [Image] (exe : Exe) (pagetable : ℕ) : ℕ → ℕ → ℕ → Kernel (Bool × ℕ)
  | 0, _, sz => return (true, sz)
  | n + 1, i, sz => do
    match exe.phdr i with
    | none => return (false, sz)
    | some ph =>
      let last := uint64 (ph.vaddr.toNat + ph.memsz.toNat)
      if ph.type ≠ elfProgLoad then loadHeaders exe pagetable n (i + 1) sz
      else if ph.memsz < ph.filesz then return (false, sz)
      else if last < ph.vaddr.toNat then return (false, sz)
      else if ph.vaddr.toNat % pgsize ≠ 0 then return (false, sz)
      else do
        let sz1 ← uvmalloc pagetable sz last (flags2perm ph.flags)
        if sz1 = 0 then return (false, sz)
        else if ← loadseg pagetable ph.vaddr.toNat exe ph.off.toNat ph.filesz.toNat then
          loadHeaders exe pagetable n (i + 1) sz1
        else return (false, sz1)

/-- The stack pointer after a push of `n` bytes. -/
def push (sp n : ℕ) : ℕ :=
  let sp' := uint64 (sp + 2 ^ 64 - n)
  sp' - sp' % 16

/-- The loop of `exec` over the lengths of the arguments, from number `argc` on. -/
def pushArgs (pagetable stackbase : ℕ) : List ℕ → ℕ → ℕ → Kernel (Option (ℕ × ℕ))
  | [], argc, sp => return some (argc, sp)
  | len :: lens, argc, sp => do
    if argc ≥ maxarg then return none
    else if push sp (len + 1) < stackbase then return none
    else if ← copyout pagetable (push sp (len + 1)) (len + 1) then
      pushArgs pagetable stackbase lens (argc + 1) (push sp (len + 1))
    else return none

/-- The part of `exec` after the label `bad`. -/
def execBad [Image] (pagetable sz : ℕ) : Kernel ℤ := do
  procFreepagetable pagetable sz
  return -1

/-- The end of `exec`, which commits to the new image. -/
def execCommit [Image] (p pagetable sz argc : ℕ) : Kernel ℤ := do
  let s ← get
  let q := s.proc p
  setProc p { q with pagetable := some pagetable, sz := sz }
  procFreepagetable (q.pagetable.getD 0) q.sz
  return argc

/-- The part of `exec` after the segments have been loaded. -/
def execStack [Image] (p pagetable sz : ℕ) (lens : List ℕ) : Kernel ℤ := do
  let sz1 ← uvmalloc pagetable (pgroundup sz) (uint64 (pgroundup sz + 2 * pgsize))
    { Perm.none with w := true }
  if sz1 = 0 then execBad pagetable (pgroundup sz)
  else do
    uvmclear pagetable (sz1 - 2 * pgsize)
    match ← pushArgs pagetable (sz1 - pgsize) lens 0 sz1 with
    | none => execBad pagetable sz1
    | some (argc, sp) =>
      if push sp ((argc + 1) * 8) < sz1 - pgsize then execBad pagetable sz1
      else if ← copyout pagetable (push sp ((argc + 1) * 8)) ((argc + 1) * 8) then
        execCommit p pagetable sz1 argc
      else execBad pagetable sz1

/-- `exec` of a file, if the path names one, with the lengths of the arguments. -/
def exec [Image] (p : ℕ) (file : Option Exe) (lens : List ℕ) : Kernel ℤ := do
  match file with
  | none => return -1
  | some exe =>
    match exe.header with
    | none => return -1
    | some (magic, phnum) =>
      if magic ≠ elfMagic then return -1
      else do
        let s ← get
        match ← procPagetable ((s.proc p).trapframe.getD 0) with
        | none => return -1
        | some pagetable => do
          let r ← loadHeaders exe pagetable phnum.toNat 0 0
          if r.1 then execStack p pagetable r.2 lens else execBad pagetable r.2

/-- An element of the array `argv`: its address cannot be read, or its string cannot, or the
string has a length. -/
inductive Arg where
  | addrFault
  | strFault
  | str (len : ℕ)
  deriving DecidableEq, Repr

/-- The loop of `sys_exec`, from number `i` on: the lengths if all strings have been fetched,
and the pages that have been allocated. -/
def fetchArgs (i : ℕ) : List Arg → Kernel (Option (List ℕ) × List ℕ)
  | [] => if i ≥ maxarg then return (none, []) else return (some [], [])
  | arg :: args => do
    if i ≥ maxarg then return (none, [])
    else
      match arg with
      | .addrFault => return (none, [])
      | .strFault => do
        match ← kalloc with
        | none => return (none, [])
        | some page => return (none, [page])
      | .str len => do
        match ← kalloc with
        | none => return (none, [])
        | some page => do
          let r ← fetchArgs (i + 1) args
          return (r.1.map (len :: ·), page :: r.2)

def freeArgs [Image] : List ℕ → Kernel Unit
  | [] => pure ()
  | page :: pages => do
    kfree page
    freeArgs pages

def sysExec [Image] (p : ℕ) (file : Option Exe) (args : List Arg) : Kernel ℤ := do
  let r ← fetchArgs 0 args
  match r.1 with
  | none => do
    freeArgs r.2
    return -1
  | some lens => do
    let ret ← exec p file lens
    freeArgs r.2
    return ret

/-! ## Sequences of calls -/

inductive Call where
  | fork
  | exec (file : Option Exe) (args : List Arg)
  | sbrk (n : Int32)
  | exit
  | wait (addr : ℕ)

def syscall [Image] (p : ℕ) : Call → Kernel ℤ
  | .fork => fork p
  | .exec file args => sysExec p file args
  | .sbrk n => sysSbrk p n
  | .exit => exit p
  | .wait addr => wait p addr

/-- The result of a call of process `p`, with the calls of `kalloc` that fail. -/
def run [Image] (s : State) (p : ℕ) (c : Call) (deny : List Bool) : Except Panic (ℤ × State) :=
  syscall p c { s with deny := deny }

/-- A running process makes a call; a panic ends the run. -/
def vmStep [Image] (s : State) (a : ℕ × Call × List Bool) : Option State :=
  if (s.proc a.1).state = .running then (run s a.1 a.2.1 a.2.2).toOption.map Prod.snd else none

/-- A process in zeroed memory. -/
def Proc.none : Proc where
  state := .unused
  pid := 0
  parent := .none
  trapframe := .none
  pagetable := .none
  sz := 0
  ofile := fun _ => .none
  cwd := .none

/-- The kernel before `userinit`, with the free pages that `kinit` and `kvminit` leave. -/
def start (mem : ℕ → ℕ → Pte) (free : List ℕ) : State where
  mem := mem
  free := free
  deny := []
  proc := fun _ => .none
  nextpid := 1
  fileRef := fun _ => 0
  inodeRef := fun _ => 0

end CS352.Memory
