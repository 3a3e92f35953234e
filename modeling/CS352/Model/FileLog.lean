import Mathlib.Data.Int.Notation
import Mathlib.Data.Nat.Notation
import Mathlib.Logic.Function.Basic

/-! # The file-system log

`kernel/log.c` of the MLFQ kernel, over the buffer cache of `kernel/bio.c` and a disk that
keeps its blocks when the machine loses power. One step is a critical section of `log.lock`,
a call that takes or releases a buffer, or one pass of a loop of `commit` and of
`recover_from_log`, which writes one block. A crash may fall between any two steps. -/

namespace CS352.FileLog

/-- `MAXOPBLOCKS`. -/
def maxOpBlocks : ℕ := 10

/-- `LOGSIZE`. -/
def logSize : ℕ := maxOpBlocks * 3

/-- A disk block, as words of four bytes. -/
abbrev Block := ℕ → ℕ

structure Superblock where
  nlog : ℕ
  logstart : ℕ

/-- The log in the superblock that `mkfs` writes. -/
def mkfsSuperblock : Superblock := { nlog := logSize, logstart := 2 }

/-- The block is the header of the log or one of the log blocks. -/
def inLog (sb : Superblock) (b : ℕ) : Prop :=
  b = sb.logstart ∨ (sb.logstart < b ∧ b < sb.logstart + sb.nlog)

instance (sb : Superblock) (b : ℕ) : Decidable (inLog sb b) :=
  inferInstanceAs (Decidable (_ ∨ _))

/-! ## Buffers -/

/-- The buffer that carries a block. A block that no buffer carries has `refcnt = 0` and
`valid = false`. -/
structure Buf where
  valid : Bool
  refcnt : ℕ
  /-- The process that holds the sleep lock. -/
  lock : Option ℕ
  data : Block

structure Store where
  disk : ℕ → Block
  buf : ℕ → Buf

def Store.setBuf (s : Store) (b : ℕ) (buf : Buf) : Store :=
  { s with buf := Function.update s.buf b buf }

/-- `memmove` to the data of a buffer. -/
def Store.setData (s : Store) (b : ℕ) (data : Block) : Store :=
  s.setBuf b { s.buf b with data := data }

def bread (s : Store) (p b : ℕ) : Store :=
  let buf := s.buf b
  s.setBuf b
    { valid := true, refcnt := buf.refcnt + 1, lock := some p,
      data := if buf.valid then buf.data else s.disk b }

def bwrite (s : Store) (b : ℕ) : Store :=
  { s with disk := Function.update s.disk b (s.buf b).data }

def brelse (s : Store) (b : ℕ) : Store :=
  s.setBuf b { s.buf b with lock := none, refcnt := (s.buf b).refcnt - 1 }

def bpin (s : Store) (b : ℕ) : Store :=
  s.setBuf b { s.buf b with refcnt := (s.buf b).refcnt + 1 }

def bunpin (s : Store) (b : ℕ) : Store :=
  s.setBuf b { s.buf b with refcnt := (s.buf b).refcnt - 1 }

/-- `bget` recycles the buffer of the block for another one. -/
def recycle (s : Store) (b : ℕ) : Store :=
  s.setBuf b { s.buf b with valid := false }

/-! ## The log -/

/-- `struct logheader`. -/
structure LogHeader where
  n : ℕ
  block : ℕ → ℕ

/-- `struct log`. -/
structure Log where
  start : ℕ
  size : ℕ
  outstanding : ℤ
  committing : Bool
  lh : LogHeader

inductive Panic where
  /-- `panic("too big a transaction")`. -/
  | tooBigATransaction
  /-- `panic("log_write outside of trans")`. -/
  | logWriteOutsideOfTrans
  /-- `panic("log.committing")`. -/
  | logCommitting
  deriving DecidableEq, Repr

/-- One pass of the loop of `install_trans`. -/
def installTrans (s : Store) (log : Log) (p tail : ℕ) (recovering : Bool) : Store :=
  let lbuf := log.start + tail + 1
  let dbuf := log.lh.block tail
  let s := bread s p lbuf
  let s := bread s p dbuf
  let s := s.setData dbuf (s.buf lbuf).data
  let s := bwrite s dbuf
  let s := if recovering then s else bunpin s dbuf
  let s := brelse s lbuf
  brelse s dbuf

/-- The header that the buffer of the header block holds, over the one in memory. -/
def headOf (data : Block) (lh : LogHeader) : LogHeader :=
  { n := data 0, block := fun i => if i < data 0 then data (i + 1) else lh.block i }

def readHead (s : Store) (log : Log) (p : ℕ) : LogHeader × Store :=
  let s := bread s p log.start
  (headOf (s.buf log.start).data log.lh, brelse s log.start)

/-- The header block with the header from memory written to it. The entries from `n` on stay
as they are. -/
def withHead (data : Block) (lh : LogHeader) : Block := fun w =>
  if w = 0 then lh.n else if w ≤ lh.n then lh.block (w - 1) else data w

def writeHead (s : Store) (log : Log) (p : ℕ) : Store :=
  let s := bread s p log.start
  let s := s.setData log.start (withHead (s.buf log.start).data log.lh)
  let s := bwrite s log.start
  brelse s log.start

/-- One pass of the loop of `write_log`. -/
def writeLog (s : Store) (log : Log) (p tail : ℕ) : Store :=
  let dst := log.start + tail + 1
  let src := log.lh.block tail
  let s := bread s p dst
  let s := bread s p src
  let s := s.setData dst (s.buf src).data
  let s := bwrite s dst
  let s := brelse s src
  brelse s dst

/-- Where `log_write` records the block: at the entry that has it, or at a new one. -/
def logSlot (lh : LogHeader) (b : ℕ) : ℕ :=
  ((List.range lh.n).find? fun i => lh.block i = b).getD lh.n

def logWrite (s : Store) (log : Log) (b : ℕ) : Except Panic (Log × Store) :=
  if log.lh.n ≥ logSize ∨ log.lh.n ≥ log.size - 1 then .error .tooBigATransaction
  else if log.outstanding < 1 then .error .logWriteOutsideOfTrans
  else
    let i := logSlot log.lh b
    let block := Function.update log.lh.block i b
    if i = log.lh.n then .ok ({ log with lh := ⟨log.lh.n + 1, block⟩ }, bpin s b)
    else .ok ({ log with lh := ⟨log.lh.n, block⟩ }, s)

/-! ## Machine -/

/-- Where a process is in `commit`. -/
inductive Stage where
  /-- At the test of `log.lh.n`. -/
  | enter
  | writeLog (tail : ℕ)
  | writeHead
  | installTrans (tail : ℕ)
  /-- At the `write_head` that erases the transaction. -/
  | clear
  deriving DecidableEq, Repr

/-- Where a process is in its file-system call. -/
inductive Place where
  | out
  /-- Asleep in `begin_op`. -/
  | asleep
  /-- Woken in `begin_op`. -/
  | woken
  /-- Between `begin_op` and `end_op`; `blocks` are the distinct blocks that it passed to
  `log_write` so far, which the code does not keep. -/
  | inside (blocks : List ℕ)
  | committing (stage : Stage)
  /-- In `end_op` after `commit`. -/
  | finishing
  deriving DecidableEq, Repr

def Place.isInside : Place → Bool
  | .inside _ => true
  | _ => false

def Place.blocks : Place → List ℕ
  | .inside blocks => blocks
  | _ => []

/-- Where the boot is in `recover_from_log`. -/
inductive Recovery where
  | readHead
  | installTrans (tail : ℕ)
  /-- At the `write_head` that clears the log. -/
  | clear
  | done
  deriving DecidableEq, Repr

structure Machine where
  store : Store
  log : Log
  place : ℕ → Place
  recovery : Recovery
  panicked : Option Panic
  /-- The blocks that operations have written since the last commit, in order. No modelled
  function reads this field or the next one. -/
  pending : List (ℕ × Block)
  /-- The transactions whose header has reached the disk. -/
  committed : List (List (ℕ × Block))

namespace Machine

def moveTo (m : Machine) (p : ℕ) (place : Place) : Machine :=
  { m with place := Function.update m.place p place }

def setStore (m : Machine) (s : Store) : Machine := { m with store := s }

/-- `wakeup(&log)`. -/
def wakeup (m : Machine) : Machine :=
  { m with place := fun q => if m.place q = .asleep then .woken else m.place q }

/-- The machine has booted and has not stopped. -/
def Live (m : Machine) : Prop := m.panicked = none ∧ m.recovery = .done

instance (m : Machine) : Decidable m.Live := inferInstanceAs (Decidable (_ ∧ _))

/-- `acquiresleep` of the buffer does not wait. -/
def unlocked (m : Machine) (b : ℕ) : Bool := (m.store.buf b).lock.isNone

end Machine

/-- The machine after power on, in `initlog` before `recover_from_log`. -/
def boot (sb : Superblock) (disk : ℕ → Block) : Machine where
  store := { disk := disk, buf := fun _ => ⟨false, 0, none, fun _ => 0⟩ }
  log := ⟨sb.logstart, sb.nlog, 0, false, ⟨0, fun _ => 0⟩⟩
  place := fun _ => .out
  recovery := .readHead
  panicked := none
  pending := []
  committed := []

/-! ## Steps -/

/-- The pass of the loop in `begin_op`. -/
def beginOp (m : Machine) (p : ℕ) : Machine :=
  if m.log.committing then m.moveTo p .asleep
  else if (m.log.lh.n : ℤ) + (m.log.outstanding + 1) * maxOpBlocks > logSize then
    m.moveTo p .asleep
  else
    { m with log := { m.log with outstanding := m.log.outstanding + 1 } }.moveTo p (.inside [])

/-- `end_op` up to the first `release(&log.lock)`. -/
def endOp (m : Machine) (p : ℕ) : Machine :=
  let log := { m.log with outstanding := m.log.outstanding - 1 }
  if log.committing then { m with log := log, panicked := some .logCommitting }
  else if log.outstanding = 0 then
    { m with log := { log with committing := true } }.moveTo p (.committing .enter)
  else { m with log := log }.wakeup.moveTo p .out

/-- `end_op` after `commit`. -/
def afterCommit (m : Machine) (p : ℕ) : Machine :=
  { m with log := { m.log with committing := false } }.wakeup.moveTo p .out

/-- The caller changes the data of a buffer that it holds and calls `log_write`. -/
def update (m : Machine) (p b : ℕ) (data : Block) : Machine :=
  let s := m.store.setData b data
  match logWrite s m.log b with
  | .error e => { m with store := s, panicked := some e }
  | .ok (log, s) =>
    { m with store := s, log := log, pending := m.pending ++ [(b, data)] }.moveTo p
      (.inside ((m.place p).blocks.insert b))

/-- One block write of `commit`, or the end of one of its loops. -/
def commit (m : Machine) (p : ℕ) : Stage → Option Machine
  | .enter =>
    if m.log.lh.n > 0 then some (m.moveTo p (.committing (.writeLog 0)))
    else some (m.moveTo p .finishing)
  | .writeLog tail =>
    if tail < m.log.lh.n then
      if m.unlocked (m.log.start + tail + 1) ∧ m.unlocked (m.log.lh.block tail) then
        some ((m.setStore (writeLog m.store m.log p tail)).moveTo p
          (.committing (.writeLog (tail + 1))))
      else none
    else some (m.moveTo p (.committing .writeHead))
  | .writeHead =>
    if m.unlocked m.log.start then
      some ({ m with
          store := writeHead m.store m.log p
          committed := m.committed ++ [m.pending]
          pending := [] }.moveTo p (.committing (.installTrans 0)))
    else none
  | .installTrans tail =>
    if tail < m.log.lh.n then
      if m.unlocked (m.log.start + tail + 1) ∧ m.unlocked (m.log.lh.block tail) then
        some ((m.setStore (installTrans m.store m.log p tail false)).moveTo p
          (.committing (.installTrans (tail + 1))))
      else none
    else some (m.moveTo p (.committing .clear))
  | .clear =>
    if m.unlocked m.log.start then
      let log := { m.log with lh := { m.log.lh with n := 0 } }
      some ({ m with store := writeHead m.store log p, log := log }.moveTo p .finishing)
    else none

/-- One block write of `recover_from_log`, or the end of its loop. There are no other
processes yet. -/
def recoverFromLog (m : Machine) (p : ℕ) : Option Machine :=
  match m.recovery with
  | .readHead =>
    let (lh, s) := readHead m.store m.log p
    some { m with store := s, log := { m.log with lh := lh }, recovery := .installTrans 0 }
  | .installTrans tail =>
    if tail < m.log.lh.n then
      some { m with
        store := installTrans m.store m.log p tail true, recovery := .installTrans (tail + 1) }
    else some { m with recovery := .clear }
  | .clear =>
    let log := { m.log with lh := { m.log.lh with n := 0 } }
    some { m with store := writeHead m.store log p, log := log, recovery := .done }
  | .done => none

inductive Action where
  | crash
  | recover (p : ℕ)
  | beginOp (p : ℕ)
  /-- The process is woken for another reason than `wakeup(&log)`, such as `kill`. -/
  | wake (p : ℕ)
  | bread (p b : ℕ)
  | brelse (p b : ℕ)
  | recycle (b : ℕ)
  /-- The process changes the block to `data` and passes it to `log_write`. -/
  | update (p b : ℕ) (data : Block)
  | endOp (p : ℕ)
  | commit (p : ℕ)
  | afterCommit (p : ℕ)

def step (sb : Superblock) (m : Machine) : Action → Option Machine
  | .crash => some { boot sb m.store.disk with committed := m.committed }
  | .recover p => if m.panicked = none then recoverFromLog m p else none
  | .beginOp p =>
    if m.Live ∧ (m.place p = .out ∨ m.place p = .woken) then some (beginOp m p) else none
  | .wake p => if m.Live ∧ m.place p = .asleep then some (m.moveTo p .woken) else none
  | .bread p b =>
    if m.Live ∧ m.unlocked b then some (m.setStore (bread m.store p b)) else none
  | .brelse p b =>
    if m.Live ∧ (m.store.buf b).lock = some p then some (m.setStore (brelse m.store b)) else none
  | .recycle b =>
    if m.Live ∧ (m.store.buf b).refcnt = 0 then some (m.setStore (recycle m.store b)) else none
  | .update p b data =>
    if m.Live ∧ (m.place p).isInside ∧ (m.store.buf b).lock = some p then
      some (update m p b data)
    else none
  | .endOp p => if m.Live ∧ (m.place p).isInside then some (endOp m p) else none
  | .commit p =>
    match m.place p with
    | .committing stage => if m.Live then commit m p stage else none
    | _ => none
  | .afterCommit p =>
    if m.Live ∧ m.place p = .finishing then some (afterCommit m p) else none

/-- Operations write blocks outside the log region. -/
def WritesHome (sb : Superblock) (_ : Machine) : Action → Prop
  | .update _ b _ => ¬ inLog sb b
  | _ => True

instance (sb : Superblock) (m : Machine) : (a : Action) → Decidable (WritesHome sb m a)
  | .update _ b _ => inferInstanceAs (Decidable (¬ inLog sb b))
  | .crash | .recover _ | .beginOp _ | .wake _ | .bread _ _ | .brelse _ _ | .recycle _
  | .endOp _ | .commit _ | .afterCommit _ => inferInstanceAs (Decidable True)

/-- An operation passes at most `limit` distinct blocks to `log_write`. -/
def WithinLimit (limit : ℕ) (m : Machine) : Action → Prop
  | .update p b _ => ((m.place p).blocks.insert b).length ≤ limit
  | _ => True

instance (limit : ℕ) (m : Machine) : (a : Action) → Decidable (WithinLimit limit m a)
  | .update p b _ => inferInstanceAs (Decidable (((m.place p).blocks.insert b).length ≤ limit))
  | .crash | .recover _ | .beginOp _ | .wake _ | .bread _ _ | .brelse _ _ | .recycle _
  | .endOp _ | .commit _ | .afterCommit _ => inferInstanceAs (Decidable True)

end CS352.FileLog
