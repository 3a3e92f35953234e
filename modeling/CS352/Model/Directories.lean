import CS352.Model.Blocks
import Mathlib.Order.Basic

/-! # Directories and path names

The directory layer of `kernel/fs.c` with the calls of `kernel/sysfile.c` and `kernel/file.c`
that change it, of the MLFQ kernel. Calls are atomic. A modified inode is always written back
by `iupdate`, so each inode has one value; `ref` and `valid` are those of its entry in the
inode table. The content of a directory is the list of its entries. -/

namespace CS352.Directories

open Function

open Blocks (FileType)

/-- `ROOTINO`. -/
def rootino : ℕ := 1

/-- `NINODES` of `mkfs`. -/
def ninodes : ℕ := 200

/-- `NFILE`. -/
def nfile : ℕ := 100

/-- `NOFILE`. -/
def nofile : ℕ := 16

/-- `NPROC`. -/
def nproc : ℕ := 64

/-- `NDEV`. -/
def ndev : ℤ := 10

/-- `DIRSIZ`. -/
def dirsiz : ℕ := 14

/-- `sizeof(struct dirent)`. -/
def direntSize : ℕ := 16

/-- The value that a `short` holds after storing `x`. -/
def short (x : ℤ) : ℤ := x.bmod (2 ^ 16)

abbrev Name := List Char

/-- The entry of a directory for itself. -/
def dot : Name := ['.']

/-- The entry of a directory for its parent. -/
def dotdot : Name := ['.', '.']

/-- `struct dirent`; the entry is empty if `inum` is 0. -/
structure Dirent where
  inum : ℕ
  name : Name
  deriving DecidableEq, Repr

structure Node where
  type : FileType
  major : ℤ
  minor : ℤ
  nlink : ℤ
  entries : List Dirent
  deriving DecidableEq, Repr

/-- `struct file`; `ip` is the inode of an open file or device. -/
structure File where
  ref : ℕ
  ip : Option ℕ
  deriving DecidableEq, Repr

structure Proc where
  cwd : ℕ
  ofile : ℕ → Option ℕ

structure State where
  node : ℕ → Node
  ref : ℕ → ℕ
  valid : ℕ → Bool
  file : ℕ → File
  proc : ℕ → Option Proc

inductive Panic where
  | igetNoInodes
  | ilock
  | ilockNoType
  | dirlookupNotDir
  | unlinkNlink
  | filedup
  | fileclose
  | initExiting
  deriving DecidableEq, Repr

/-- A computation of the kernel; a panic ends it. -/
abbrev Kernel := StateT State (Except Panic)

def setNode (i : ℕ) (x : Node) : Kernel Unit :=
  modify fun s => { s with node := update s.node i x }

def setRef (i n : ℕ) : Kernel Unit :=
  modify fun s => { s with ref := update s.ref i n }

def setValid (i : ℕ) (valid : Bool) : Kernel Unit :=
  modify fun s => { s with valid := update s.valid i valid }

def setFile (f : ℕ) (x : File) : Kernel Unit :=
  modify fun s => { s with file := update s.file f x }

def setProc (p : ℕ) (x : Option Proc) : Kernel Unit :=
  modify fun s => { s with proc := update s.proc p x }

/-! ## Inodes -/

/-- Every entry of the inode table is taken. -/
def tableFull (s : State) : Bool :=
  Blocks.ninode ≤ ((List.range ninodes).filter fun i => 0 < s.ref i).length

def iget (i : ℕ) : Kernel Unit := do
  let s ← get
  if 0 < s.ref i then setRef i (s.ref i + 1)
  else if tableFull s then throw .igetNoInodes
  else do
    setRef i 1
    setValid i false

def idup (i : ℕ) : Kernel Unit := do
  let s ← get
  setRef i (s.ref i + 1)

def ilock (i : ℕ) : Kernel Unit := do
  let s ← get
  if s.ref i = 0 then throw .ilock
  else if s.valid i then pure ()
  else if (s.node i).type = .free then throw .ilockNoType
  else setValid i true

/-- The inode as `iput` leaves it on disk when it frees it. -/
def freed (x : Node) : Node := { x with type := .free, entries := [] }

def iput (i : ℕ) : Kernel Unit := do
  let s ← get
  if s.ref i = 1 ∧ s.valid i ∧ (s.node i).nlink = 0 then do
    setNode i (freed (s.node i))
    setValid i false
  else pure ()
  setRef i (s.ref i - 1)

/-- The inode that `ialloc` finds. -/
def freeInode (s : State) : Option ℕ :=
  (List.range ninodes).find? fun i => 1 ≤ i ∧ (s.node i).type = .free

def ialloc (type : FileType) : Kernel (Option ℕ) := do
  match freeInode (← get) with
  | some i => do
    setNode i { type := type, major := 0, minor := 0, nlink := 0, entries := [] }
    iget i
    return some i
  | none => return none

/-! ## Directories -/

/-- The first entry with the given name: its position and its inode number. -/
def lookup (name : Name) : List Dirent → Option (ℕ × ℕ)
  | [] => none
  | e :: es =>
    if e.inum ≠ 0 ∧ e.name = name then some (0, e.inum)
    else (lookup name es).map fun r => (r.1 + 1, r.2)

/-- The position and the inode, which is referenced. -/
def dirlookup (dp : ℕ) (name : Name) : Kernel (Option (ℕ × ℕ)) := do
  let s ← get
  if (s.node dp).type ≠ .dir then throw .dirlookupNotDir
  else
    match lookup name (s.node dp).entries with
    | some r => do
      iget r.2
      return some r
    | none => return none

/-- The entries after `writei` of one entry at position `k`. -/
def writeEntry (es : List Dirent) (k : ℕ) (e : Dirent) : List Dirent :=
  es.take k ++ e :: es.drop (k + 1)

/-- `room` tells whether `writei` finds the block it needs. -/
def dirlink (room : Bool) (dp : ℕ) (name : Name) (inum : ℕ) : Kernel Bool := do
  match ← dirlookup dp name with
  | some r => do
    iput r.2
    return false
  | none => do
    let s ← get
    let es := (s.node dp).entries
    let k := es.findIdx fun e => e.inum = 0
    if (k + 1) * direntSize > Blocks.maxfile * Blocks.bsize ∨ room = false then return false
    else do
      setNode dp { s.node dp with entries := writeEntry es k ⟨inum, name⟩ }
      return true

/-! ## Paths -/

/-- The next path element, and the path after it. -/
def skipelem (path : List Char) : Option (Name × List Char) :=
  match path.dropWhile fun c => c = '/' with
  | [] => none
  | c :: s =>
    some (((c :: s).takeWhile fun c => c ≠ '/').take dirsiz,
      ((c :: s).dropWhile fun c => c ≠ '/').dropWhile fun c => c = '/')

theorem skipelem_length {path rest : List Char} {name : Name}
    (h : skipelem path = some (name, rest)) : rest.length < path.length := by
  unfold skipelem at h
  split at h
  · cases h
  · rename_i c s hs
    have hpath : (c :: s).length ≤ path.length :=
      hs ▸ (List.dropWhile_sublist fun c => decide (c = '/')).length_le
    have hc : c ≠ '/' := by
      have hhead := List.head_dropWhile_not (p := fun c => decide (c = '/')) (l := path)
        (by simp [hs])
      simpa [hs] using hhead
    have htail : (c :: s).dropWhile (fun c => decide (c ≠ '/')) =
        s.dropWhile fun c => decide (c ≠ '/') := by simp [List.dropWhile, hc]
    have hsub := (List.dropWhile_sublist (l := s) fun c => decide (c ≠ '/')).length_le
    have hrest := (List.dropWhile_sublist (l := s.dropWhile fun c => decide (c ≠ '/'))
      fun c => decide (c = '/')).length_le
    simp only [Option.some.injEq, Prod.mk.injEq, htail] at h
    rw [← h.2]
    simp only [List.length_cons] at hpath
    omega

/-- The loop of `namex` from inode `ip`; `name` is the last element copied. -/
def namexLoop (parent : Bool) (ip : ℕ) (path : List Char) (name : Name) :
    Kernel (Option (ℕ × Name)) :=
  match h : skipelem path with
  | none =>
    if parent then do
      iput ip
      return none
    else return some (ip, name)
  | some (name, rest) => do
    ilock ip
    let s ← get
    if (s.node ip).type ≠ .dir then do
      iput ip
      return none
    else if parent ∧ rest = [] then return some (ip, name)
    else
      match ← dirlookup ip name with
      | none => do
        iput ip
        return none
      | some r => do
        iput ip
        namexLoop parent r.2 rest name
termination_by path.length
decreasing_by exact skipelem_length h

def namex (cwd : ℕ) (parent : Bool) (path : List Char) : Kernel (Option (ℕ × Name)) :=
  if path.head? = some '/' then do
    iget rootino
    namexLoop parent rootino path []
  else do
    idup cwd
    namexLoop parent cwd path []

def namei (cwd : ℕ) (path : List Char) : Kernel (Option ℕ) := do
  return (← namex cwd false path).map Prod.fst

def nameiparent (cwd : ℕ) (path : List Char) : Kernel (Option (ℕ × Name)) := namex cwd true path

/-! ## Files -/

def filealloc : Kernel (Option ℕ) := do
  let s ← get
  match (List.range nfile).find? fun f => (s.file f).ref = 0 with
  | some f => do
    setFile f { s.file f with ref := 1 }
    return some f
  | none => return none

def filedup (f : ℕ) : Kernel Unit := do
  let s ← get
  if (s.file f).ref < 1 then throw .filedup
  else setFile f { s.file f with ref := (s.file f).ref + 1 }

def fileclose (f : ℕ) : Kernel Unit := do
  let s ← get
  let ff := s.file f
  if ff.ref < 1 then throw .fileclose
  else if ff.ref - 1 > 0 then setFile f { ff with ref := ff.ref - 1 }
  else do
    setFile f { ref := 0, ip := none }
    match ff.ip with
    | some i => iput i
    | none => pure ()

/-- The file of a descriptor. -/
def argfd (q : Proc) (fd : ℤ) : Option (ℕ × ℕ) :=
  if fd < 0 ∨ fd ≥ nofile then none else (q.ofile fd.toNat).map fun f => (fd.toNat, f)

/-- The descriptor is returned, and set in the process. -/
def fdalloc (p : ℕ) (q : Proc) (f : ℕ) : Kernel (Option ℕ) := do
  match (List.range nofile).find? fun fd => q.ofile fd = none with
  | some fd => do
    setProc p (some { q with ofile := update q.ofile fd (some f) })
    return some fd
  | none => return none

/-! ## Calls -/

/-- The entries of a new directory. -/
def createDots (room : ℕ → Bool) (dp ip : ℕ) : Kernel Bool := do
  if ← dirlink (room 0) ip dot ip then dirlink (room 1) ip dotdot dp else return false

/-- The entries that `create` writes; `false` is `goto fail`. -/
def createEntries (room : ℕ → Bool) (dp ip : ℕ) (name : Name) (type : FileType) :
    Kernel Bool := do
  let dots ← (if type = .dir then createDots room dp ip else pure true)
  if dots then dirlink (room 2) dp name ip else return false

/-- The part of `create` that makes a new inode in the locked directory `dp`; `room` tells
which of the entries find a block. -/
def createNew (dp : ℕ) (name : Name) (type : FileType) (major minor : ℤ) (room : ℕ → Bool) :
    Kernel (Option ℕ) := do
  match ← ialloc type with
  | none => do
    iput dp
    return none
  | some ip => do
    ilock ip
    let s ← get
    setNode ip { s.node ip with major := short major, minor := short minor, nlink := 1 }
    if ← createEntries room dp ip name type then do
      let s ← get
      if type = .dir then setNode dp { s.node dp with nlink := short ((s.node dp).nlink + 1) }
      else pure ()
      iput dp
      return some ip
    else do
      let s ← get
      setNode ip { s.node ip with nlink := 0 }
      iput ip
      iput dp
      return none

def create (cwd : ℕ) (path : List Char) (type : FileType) (major minor : ℤ)
    (room : ℕ → Bool) : Kernel (Option ℕ) := do
  match ← nameiparent cwd path with
  | none => return none
  | some (dp, name) => do
    ilock dp
    match ← dirlookup dp name with
    | some r => do
      iput dp
      ilock r.2
      let s ← get
      if type = .file ∧ ((s.node r.2).type = .file ∨ (s.node r.2).type = .device) then
        return some r.2
      else do
        iput r.2
        return none
    | none => createNew dp name type major minor room

/-- `O_CREATE`. -/
def oCreate : UInt32 := 0x200

/-- The part of `sys_open` that finds the inode. -/
def openInode (cwd : ℕ) (path : List Char) (omode : UInt32) (room : ℕ → Bool) :
    Kernel (Option ℕ) := do
  if omode &&& oCreate ≠ 0 then create cwd path .file 0 0 room
  else
    match ← namei cwd path with
    | none => return none
    | some ip => do
      ilock ip
      let s ← get
      if (s.node ip).type = .dir ∧ omode ≠ 0 then do
        iput ip
        return none
      else return some ip

def sysOpen (p : ℕ) (q : Proc) (path : List Char) (omode : UInt32) (room : ℕ → Bool) :
    Kernel ℤ := do
  match ← openInode q.cwd path omode room with
  | none => return -1
  | some ip => do
    let s ← get
    if (s.node ip).type = .device ∧ ((s.node ip).major < 0 ∨ (s.node ip).major ≥ ndev) then do
      iput ip
      return -1
    else
      match ← filealloc with
      | none => do
        iput ip
        return -1
      | some f => do
        match ← fdalloc p q f with
        | none => do
          fileclose f
          iput ip
          return -1
        | some fd => do
          let s ← get
          setFile f { s.file f with ip := some ip }
          return fd

def sysMkdir (q : Proc) (path : List Char) (room : ℕ → Bool) : Kernel ℤ := do
  match ← create q.cwd path .dir 0 0 room with
  | none => return -1
  | some ip => do
    iput ip
    return 0

def sysMknod (q : Proc) (path : List Char) (major minor : ℤ) (room : ℕ → Bool) :
    Kernel ℤ := do
  match ← create q.cwd path .device major minor room with
  | none => return -1
  | some ip => do
    iput ip
    return 0

/-- The part of `sys_link` after the label `bad`. -/
def linkBad (ip : ℕ) : Kernel ℤ := do
  ilock ip
  let s ← get
  setNode ip { s.node ip with nlink := short ((s.node ip).nlink - 1) }
  iput ip
  return -1

def sysLink (q : Proc) (old new : List Char) (room : Bool) : Kernel ℤ := do
  match ← namei q.cwd old with
  | none => return -1
  | some ip => do
    ilock ip
    let s ← get
    if (s.node ip).type = .dir then do
      iput ip
      return -1
    else do
      setNode ip { s.node ip with nlink := short ((s.node ip).nlink + 1) }
      match ← nameiparent q.cwd new with
      | none => linkBad ip
      | some (dp, name) => do
        ilock dp
        if ← dirlink room dp name ip then do
          iput dp
          iput ip
          return 0
        else do
          iput dp
          linkBad ip

def isdirempty (x : Node) : Bool := (x.entries.drop 2).all fun e => e.inum = 0

/-- The end of `sys_unlink`, from the first `iunlockput(dp)` on. -/
def unlinkDone (dp ip : ℕ) : Kernel ℤ := do
  iput dp
  let s ← get
  setNode ip { s.node ip with nlink := short ((s.node ip).nlink - 1) }
  iput ip
  return 0

def sysUnlink (q : Proc) (path : List Char) : Kernel ℤ := do
  match ← nameiparent q.cwd path with
  | none => return -1
  | some (dp, name) => do
    ilock dp
    if name = dot ∨ name = dotdot then do
      iput dp
      return -1
    else
      match ← dirlookup dp name with
      | none => do
        iput dp
        return -1
      | some r => do
        ilock r.2
        let s ← get
        if (s.node r.2).nlink < 1 then throw .unlinkNlink
        else if (s.node r.2).type = .dir ∧ isdirempty (s.node r.2) = false then do
          iput r.2
          iput dp
          return -1
        else do
          setNode dp { s.node dp with entries := writeEntry (s.node dp).entries r.1 ⟨0, []⟩ }
          let s ← get
          if (s.node r.2).type = .dir then do
            setNode dp { s.node dp with nlink := short ((s.node dp).nlink - 1) }
            unlinkDone dp r.2
          else unlinkDone dp r.2

def sysChdir (p : ℕ) (q : Proc) (path : List Char) : Kernel ℤ := do
  match ← namei q.cwd path with
  | none => return -1
  | some ip => do
    ilock ip
    let s ← get
    if (s.node ip).type ≠ .dir then do
      iput ip
      return -1
    else do
      iput q.cwd
      setProc p (some { q with cwd := ip })
      return 0

def sysClose (p : ℕ) (q : Proc) (fd : ℤ) : Kernel ℤ := do
  match argfd q fd with
  | none => return -1
  | some (fd, f) => do
    setProc p (some { q with ofile := update q.ofile fd none })
    fileclose f
    return 0

def sysDup (p : ℕ) (q : Proc) (fd : ℤ) : Kernel ℤ := do
  match argfd q fd with
  | none => return -1
  | some (_, f) =>
    match ← fdalloc p q f with
    | none => return -1
    | some fd => do
      filedup f
      return fd

/-- The loop of `fork` over the descriptors. -/
def dupFiles (q : Proc) : List ℕ → Kernel Unit
  | [] => pure ()
  | fd :: fds => do
    match q.ofile fd with
    | some f => filedup f
    | none => pure ()
    dupFiles q fds

/-- A `fork` that finds a process slot `child` and memory. -/
def fork (q : Proc) (child : ℕ) : Kernel ℤ := do
  dupFiles q (List.range nofile)
  idup q.cwd
  setProc child (some q)
  return child

/-- The loop of `exit` over the descriptors. -/
def closeFiles (q : Proc) : List ℕ → Kernel Unit
  | [] => pure ()
  | fd :: fds => do
    match q.ofile fd with
    | some f => fileclose f
    | none => pure ()
    closeFiles q fds

/-- The first process is `initproc`. -/
def exit (p : ℕ) (q : Proc) : Kernel ℤ := do
  if p = 0 then throw .initExiting
  else do
    closeFiles q (List.range nofile)
    iput q.cwd
    setProc p none
    return 0

/-! ## Sequences of calls -/

inductive Call where
  | openFile (path : List Char) (omode : UInt32) (room : ℕ → Bool)
  | mkdir (path : List Char) (room : ℕ → Bool)
  | mknod (path : List Char) (major minor : ℤ) (room : ℕ → Bool)
  | link (old new : List Char) (room : Bool)
  | unlink (path : List Char)
  | chdir (path : List Char)
  | close (fd : ℤ)
  | dup (fd : ℤ)
  | fork (child : ℕ)
  | exit

/-- The call of process `p`, whose record is `q`. -/
def syscall (p : ℕ) (q : Proc) : Call → Kernel ℤ
  | .openFile path omode room => sysOpen p q path omode room
  | .mkdir path room => sysMkdir q path room
  | .mknod path major minor room => sysMknod q path major minor room
  | .link old new room => sysLink q old new room
  | .unlink path => sysUnlink q path
  | .chdir path => sysChdir p q path
  | .close fd => sysClose p q fd
  | .dup fd => sysDup p q fd
  | .fork child => fork q child
  | .exit => exit p q

/-- A child gets a slot that is not in use. -/
def slotFree (s : State) : Call → Bool
  | .fork child => child < nproc ∧ (s.proc child).isNone
  | _ => true

/-- Process `a.1` makes the call `a.2`; a panic ends the run. -/
def dirStep (s : State) (a : ℕ × Call) : Option State :=
  match s.proc a.1 with
  | some q => if slotFree s a.2 then (syscall a.1 q a.2 s).toOption.map Prod.snd else none
  | none => none

/-! ## The image -/

/-- A file of the image. -/
def imageFile : Node :=
  { type := .file, major := 0, minor := 0, nlink := 1, entries := [] }

/-- The entries of the root directory that `mkfs` writes for the given files. The size is
rounded up to the next block. -/
def imageEntries (files : List Name) : List Dirent :=
  [⟨rootino, dot⟩, ⟨rootino, dotdot⟩] ++
    (files.zipIdx.map fun f => ⟨f.2 + 2, f.1.take dirsiz⟩) ++
    List.replicate
      ((((files.length + 2) * direntSize / Blocks.bsize + 1) * Blocks.bsize) / direntSize -
        (files.length + 2)) ⟨0, []⟩

def imageNode (files : List Name) (i : ℕ) : Node :=
  if i = rootino then
    { type := .dir, major := 0, minor := 0, nlink := 1, entries := imageEntries files }
  else if 2 ≤ i ∧ i < files.length + 2 then imageFile
  else { type := .free, major := 0, minor := 0, nlink := 0, entries := [] }

/-- The kernel after `userinit`, with the first process in the root directory. -/
def boot (files : List Name) : State where
  node := imageNode files
  ref i := if i = rootino then 1 else 0
  valid _ := false
  file _ := { ref := 0, ip := none }
  proc p := if p = 0 then some { cwd := rootino, ofile := fun _ => none } else none

end CS352.Directories
