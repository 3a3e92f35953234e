import Mathlib.Algebra.GroupWithZero.Nat
import Mathlib.Data.Int.Order.Basic
import Mathlib.Data.List.Basic
import Mathlib.Logic.Function.Basic

/-! # Disk blocks and inodes

The block and inode layers of `kernel/fs.c` of the MLFQ kernel. The in-memory inodes are
indexed by their inode number; one with `ref = 0` is not in the table. A block is a function
from word index to word, so that an indirect block is its own list of addresses. -/

namespace CS352.Blocks

open Function

/-- `BSIZE`. -/
def bsize : ℕ := 1024

/-- `NDIRECT`. -/
def ndirect : ℕ := 12

/-- `NINDIRECT`. -/
def nindirect : ℕ := 256

/-- `MAXFILE`. -/
def maxfile : ℕ := ndirect + nindirect

/-- `NINODE`, the size of the inode table. -/
def ninode : ℕ := 50

/-- The value that a `uint` holds after storing `x`. -/
def uint (x : ℕ) : ℕ := x % 2 ^ 32

/-- The `type` of an inode; a free one has type 0. -/
inductive FileType where
  | free
  | dir
  | file
  | device
  deriving DecidableEq, Repr

/-- `struct dinode`. -/
structure Dinode where
  type : FileType
  major : ℤ
  minor : ℤ
  nlink : ℤ
  size : ℕ
  addrs : ℕ → ℕ

/-- `struct inode`; `copy` holds the fields that it shares with `struct dinode`. -/
structure Inode where
  ref : ℕ
  valid : Bool
  copy : Dinode

/-- The fields of `struct superblock` that matter here. -/
structure Superblock where
  size : ℕ
  nblocks : ℕ
  ninodes : ℕ

structure Disk where
  bitmap : ℕ → Bool
  block : ℕ → ℕ → ℕ
  dinode : ℕ → Dinode
  inode : ℕ → Inode

inductive Panic where
  | freeingFreeBlock
  | bmapOutOfRange
  | igetNoInodes
  | ilock
  | ilockNoType
  deriving DecidableEq, Repr

namespace Disk

def setInode (d : Disk) (i : ℕ) (ip : Inode) : Disk :=
  { d with inode := update d.inode i ip }

def setCopy (d : Disk) (i : ℕ) (copy : Dinode) : Disk :=
  d.setInode i { d.inode i with copy := copy }

/-- `ip->addrs[k] = addr`. -/
def setAddr (d : Disk) (i k addr : ℕ) : Disk :=
  d.setCopy i { (d.inode i).copy with addrs := update (d.inode i).copy.addrs k addr }

def setBlock (d : Disk) (b : ℕ) (data : ℕ → ℕ) : Disk :=
  { d with block := update d.block b data }

end Disk

variable (sb : Superblock)

/-! ## Blocks -/

/-- The first free block, marked and cleared; 0 if there is none. -/
def balloc (d : Disk) : Disk × ℕ :=
  match (List.range sb.size).find? fun b => d.bitmap b = false with
  | some b => (({ d with bitmap := update d.bitmap b true }).setBlock b fun _ => 0, b)
  | none => (d, 0)

def bfree (d : Disk) (b : ℕ) : Except Panic Disk :=
  if d.bitmap b = false then .error .freeingFreeBlock
  else .ok { d with bitmap := update d.bitmap b false }

/-! ## Inodes -/

def iupdate (d : Disk) (i : ℕ) : Disk :=
  { d with dinode := update d.dinode i (d.inode i).copy }

/-- Every entry of the inode table is taken. -/
def tableFull (d : Disk) : Bool :=
  ninode ≤ ((List.range sb.ninodes).filter fun i => 0 < (d.inode i).ref).length

def iget (d : Disk) (i : ℕ) : Except Panic Disk :=
  if 0 < (d.inode i).ref then .ok (d.setInode i { d.inode i with ref := (d.inode i).ref + 1 })
  else if tableFull sb d then .error .igetNoInodes
  else .ok (d.setInode i { d.inode i with ref := 1, valid := false })

def ilock (d : Disk) (i : ℕ) : Except Panic Disk :=
  if (d.inode i).ref = 0 then .error .ilock
  else if (d.inode i).valid then .ok d
  else if (d.dinode i).type = .free then .error .ilockNoType
  else .ok (d.setInode i { d.inode i with valid := true, copy := d.dinode i })

/-- The dinode that `ialloc` writes. -/
def newDinode (type : FileType) : Dinode :=
  { type := type, major := 0, minor := 0, nlink := 0, size := 0, addrs := fun _ => 0 }

/-- The inode number that `ialloc` finds. -/
def freeInode (d : Disk) : Option ℕ :=
  (List.range sb.ninodes).find? fun i => 1 ≤ i ∧ (d.dinode i).type = .free

/-- The second component is the number of the new inode, if there is one. -/
def ialloc (d : Disk) (type : FileType) : Except Panic (Disk × Option ℕ) :=
  match freeInode sb d with
  | some i =>
    (iget sb { d with dinode := update d.dinode i (newDinode type) } i).map
      fun d => (d, some i)
  | none => .ok (d, none)

/-! ## Content -/

/-- A slot of `ip->addrs`, allocated if it is empty; 0 if there is no free block. -/
def addrSlot (d : Disk) (i k : ℕ) : Disk × ℕ :=
  if (d.inode i).copy.addrs k = 0 then
    let r := balloc sb d
    if r.2 = 0 then (r.1, 0) else (r.1.setAddr i k r.2, r.2)
  else (d, (d.inode i).copy.addrs k)

/-- A slot of the indirect block `a`, allocated if it is empty. -/
def entrySlot (d : Disk) (a j : ℕ) : Disk × ℕ :=
  if d.block a j = 0 then
    let r := balloc sb d
    if r.2 = 0 then (r.1, 0)
    else (r.1.setBlock a (update (r.1.block a) j r.2), r.2)
  else (d, d.block a j)

def bmap (d : Disk) (i bn : ℕ) : Except Panic (Disk × ℕ) :=
  if bn < ndirect then .ok (addrSlot sb d i bn)
  else if bn - ndirect < nindirect then
    let r := addrSlot sb d i ndirect
    if r.2 = 0 then .ok (r.1, 0) else .ok (entrySlot sb r.1 r.2 (bn - ndirect))
  else .error .bmapOutOfRange

/-- The first loop of `itrunc`, over the given slots. -/
def freeDirect (d : Disk) (i : ℕ) : List ℕ → Except Panic Disk
  | [] => .ok d
  | k :: ks =>
    if (d.inode i).copy.addrs k = 0 then freeDirect d i ks
    else (bfree d ((d.inode i).copy.addrs k)).bind fun d => freeDirect (d.setAddr i k 0) i ks

/-- The second loop of `itrunc`, over the given entries of the indirect block. -/
def freeEntries (d : Disk) (a : ℕ → ℕ) : List ℕ → Except Panic Disk
  | [] => .ok d
  | j :: js => if a j = 0 then freeEntries d a js else (bfree d (a j)).bind (freeEntries · a js)

def freeIndirect (d : Disk) (i : ℕ) : Except Panic Disk :=
  let a := (d.inode i).copy.addrs ndirect
  if a = 0 then .ok d
  else do
    let d ← freeEntries d (d.block a) (List.range nindirect)
    let d ← bfree d a
    return d.setAddr i ndirect 0

def itrunc (d : Disk) (i : ℕ) : Except Panic Disk := do
  let d ← freeDirect d i (List.range ndirect)
  let d ← freeIndirect d i
  return iupdate (d.setCopy i { (d.inode i).copy with size := 0 }) i

def iput (d : Disk) (i : ℕ) : Except Panic Disk := do
  let d ←
    if (d.inode i).ref = 1 ∧ (d.inode i).valid ∧ (d.inode i).copy.nlink = 0 then do
      let d ← itrunc d i
      let d := iupdate (d.setCopy i { (d.inode i).copy with type := .free }) i
      pure (d.setInode i { d.inode i with valid := false })
    else pure d
  return d.setInode i { d.inode i with ref := (d.inode i).ref - 1 }

/-- The bytes that one pass of the loop in `readi` or `writei` is about. -/
def chunk (off tot n : ℕ) : ℕ := min (n - tot) (bsize - off % bsize)

theorem chunk_pos (off : ℕ) {tot n : ℕ} (h : tot < n) : 0 < chunk off tot n := by
  have hmod : off % bsize < bsize := Nat.mod_lt _ (by decide)
  unfold chunk
  omega

/-- The loop of `readi`; `copyout` tells for each `tot` whether the copy succeeds. -/
def readLoop (d : Disk) (i : ℕ) (copyout : ℕ → Bool) (n off tot : ℕ) : Except Panic (Disk × ℤ) :=
  if h : tot < n then
    (bmap sb d i (off / bsize)).bind fun r =>
      if r.2 = 0 then .ok (r.1, tot)
      else if copyout tot = false then .ok (r.1, -1)
      else readLoop r.1 i copyout n (off + chunk off tot n) (tot + chunk off tot n)
  else .ok (d, tot)
termination_by n - tot
decreasing_by
  have := chunk_pos off h
  omega

def readi (d : Disk) (i : ℕ) (copyout : ℕ → Bool) (off n : ℕ) : Except Panic (Disk × ℤ) :=
  let size := (d.inode i).copy.size
  if off > size ∨ uint (off + n) < off then .ok (d, 0)
  else readLoop sb d i copyout (if uint (off + n) > size then size - off else n) off 0

/-- What `either_copyin` leaves in the block, and whether it succeeds. -/
structure Copyin where
  data : ℕ → ℕ
  ok : Bool

/-- The loop of `writei`; the result has the values of `off` and `tot` after it. -/
def writeLoop (d : Disk) (i : ℕ) (copyin : ℕ → Copyin) (n off tot : ℕ) :
    Except Panic (Disk × ℕ × ℕ) :=
  if h : tot < n then
    (bmap sb d i (off / bsize)).bind fun r =>
      if r.2 = 0 then .ok (r.1, off, tot)
      else
        let d := r.1.setBlock r.2 (copyin tot).data
        if (copyin tot).ok = false then .ok (d, off, tot)
        else writeLoop d i copyin n (off + chunk off tot n) (tot + chunk off tot n)
  else .ok (d, off, tot)
termination_by n - tot
decreasing_by
  have := chunk_pos off h
  omega

def writei (d : Disk) (i : ℕ) (copyin : ℕ → Copyin) (off n : ℕ) : Except Panic (Disk × ℤ) :=
  if off > (d.inode i).copy.size ∨ uint (off + n) < off then .ok (d, -1)
  else if uint (off + n) > maxfile * bsize then .ok (d, -1)
  else
    (writeLoop sb d i copyin n off 0).map fun r =>
      let copy := (r.1.inode i).copy
      (iupdate (r.1.setCopy i
        { copy with size := if r.2.1 > copy.size then r.2.1 else copy.size }) i, (r.2.2 : ℤ))

/-! ## Sequences of calls -/

inductive Op where
  | iget (i : ℕ)
  | ilock (i : ℕ)
  | ialloc (type : FileType)
  | readi (i : ℕ) (copyout : ℕ → Bool) (off n : ℕ)
  | writei (i : ℕ) (copyin : ℕ → Copyin) (off n : ℕ)
  | itrunc (i : ℕ)
  | iput (i : ℕ)
  /-- The assignments to the other fields of a locked inode, followed by `iupdate`. -/
  | setFields (i : ℕ) (major minor nlink : ℤ)

/-- The inode is referenced, and read from disk where the call needs it. New inodes get a
type other than 0. -/
def enabled (d : Disk) : Op → Prop
  | .iget i => i < sb.ninodes
  | .ilock i | .iput i => 0 < (d.inode i).ref
  | .ialloc type => type ≠ .free
  | .readi i _ _ _ | .writei i _ _ _ | .itrunc i | .setFields i _ _ _ =>
    0 < (d.inode i).ref ∧ (d.inode i).valid = true

instance (d : Disk) : ∀ op, Decidable (enabled sb d op)
  | .iget _ | .ilock _ | .iput _ => inferInstanceAs (Decidable (_ < _))
  | .ialloc _ => inferInstanceAs (Decidable (_ ≠ _))
  | .readi .. | .writei .. | .itrunc _ | .setFields .. => inferInstanceAs (Decidable (_ ∧ _))

/-- One call; offsets and counts are `uint` arguments. -/
def call (d : Disk) : Op → Except Panic Disk
  | .iget i => iget sb d i
  | .ilock i => ilock d i
  | .ialloc type => (ialloc sb d type).map Prod.fst
  | .readi i copyout off n => (readi sb d i copyout (uint off) (uint n)).map Prod.fst
  | .writei i copyin off n => (writei sb d i copyin (uint off) (uint n)).map Prod.fst
  | .itrunc i => itrunc d i
  | .iput i => iput d i
  | .setFields i major minor nlink =>
    .ok (iupdate (d.setCopy i
      { (d.inode i).copy with major := major, minor := minor, nlink := nlink }) i)

/-- A call that panics ends the run. -/
def blockStep (d : Disk) (op : Op) : Option Disk :=
  if enabled sb d op then (call sb d op).toOption else none

end CS352.Blocks
