import Mathlib.Data.Int.Basic
import Mathlib.Data.List.Basic
import Mathlib.Logic.Function.Basic

/-! # The metadata journaling service

`journal.c` moves write requests through three circular buffers: clients call
`request_write`, and the threads `metaDataWrite`, `journalCommit` and
`journalCommitComplete` take each request through its three phases. One step of a thread
is one `sem_wait`, one `sem_post`, one buffer operation or one call to the block service
of `block_service.c`. The printing is left out. -/

namespace CS352.Journal

open Function

/-- `BUFFER_SIZE`. -/
def bufferSize : ℕ := 8

structure WriteRequest where
  bitmap : String
  inode : String
  data : String
  bitmapIdx : ℤ
  inodeIdx : ℤ
  dataIdx : ℤ
  deriving DecidableEq, Repr, Inhabited

/-! ## Circular buffers -/

/-- `circ_buff_t`; `Ptr` is the type of `struct write_request *`. -/
structure CircBuff (Ptr : Type*) where
  buffer : ℕ → Ptr
  head : ℕ
  tail : ℕ
  size : ℤ

def enqueue {Ptr : Type*} (b : CircBuff Ptr) (wr : Ptr) : CircBuff Ptr :=
  let nextHead := b.head + 1
  let nextHead := if nextHead ≥ bufferSize then 0 else nextHead
  { b with buffer := update b.buffer b.head wr, head := nextHead, size := b.size + 1 }

def dequeue {Ptr : Type*} (b : CircBuff Ptr) : Ptr × CircBuff Ptr :=
  let nextTail := b.tail + 1
  let nextTail := if nextTail ≥ bufferSize then 0 else nextTail
  (b.buffer b.tail, { b with tail := nextTail, size := b.size - 1 })

/-- The buffer read from tail to head. -/
def CircBuff.contents {Ptr : Type*} (b : CircBuff Ptr) : List Ptr :=
  (List.range b.size.toNat).map fun j => b.buffer ((b.tail + j) % bufferSize)

/-! ## Calls to the block service and the file system -/

/-- The calls that the threads make, with their arguments. -/
inductive Call where
  | issueWriteData (data : String) (idx : ℤ)
  | issueJournalTxb
  | issueJournalBitmap (bitmap : String) (idx : ℤ)
  | issueJournalInode (inode : String) (idx : ℤ)
  | issueJournalTxe
  | issueWriteBitmap (bitmap : String) (idx : ℤ)
  | issueWriteInode (inode : String) (idx : ℤ)
  | writeComplete
  deriving DecidableEq, Repr

/-- The callbacks that the block service makes before an `issue` call returns. -/
inductive Callback where
  | writeDataComplete
  | journalTxbComplete
  | journalBitmapComplete
  | journalInodeComplete
  | writeBitmapComplete
  | writeInodeComplete
  deriving DecidableEq, Repr

/-- History of the service. `wr` is the request that the calling thread holds. -/
inductive Event (Ptr : Type*) where
  | call (wr : Ptr) (c : Call)
  | callback (wr : Ptr) (c : Callback)
  /-- `journal_txe_complete`, called by the thread that the `k`-th call of
  `issue_journal_txe` started, counting from 0. -/
  | journalTxeComplete (k : ℕ)
  deriving DecidableEq, Repr

/-! ## Threads -/

/-- Where a client is in `request_write`. -/
inductive ClientPc (Ptr : Type*) where
  | idle
  | waitHasSpace (wr : Ptr)
  | waitMutex (wr : Ptr)
  | enqueue (wr : Ptr)
  | postMutex
  | postNotEmpty
  deriving DecidableEq, Repr

/-- Where thread 1 is in `metaDataWrite`. -/
inductive MetaPc (Ptr : Type*) where
  | waitNotEmpty
  | waitMutex
  | dequeue
  | issueWriteData (wr : Ptr)
  | issueJournalTxb (wr : Ptr)
  | issueJournalBitmap (wr : Ptr)
  | issueJournalInode (wr : Ptr)
  | postMutex (wr : Ptr)
  | postHasSpace (wr : Ptr)
  | waitHasSpace (wr : Ptr)
  | waitMutexNext (wr : Ptr)
  | enqueue (wr : Ptr)
  | postNotEmpty
  | postMutexNext
  deriving DecidableEq, Repr

/-- Where thread 2 is in `journalCommit`. It posts the mutex before the next buffer's
semaphore, unlike thread 1. -/
inductive CommitPc (Ptr : Type*) where
  | waitNotEmpty
  | waitMutex
  | dequeue
  | issueJournalTxe (wr : Ptr)
  | postMutex (wr : Ptr)
  | postHasSpace (wr : Ptr)
  | waitHasSpace (wr : Ptr)
  | waitMutexNext (wr : Ptr)
  | enqueue (wr : Ptr)
  | postMutexNext
  | postNotEmpty
  deriving DecidableEq, Repr

/-- Where thread 3 is in `journalCommitComplete`. -/
inductive CheckpointPc (Ptr : Type*) where
  | waitNotEmpty
  | waitMutex
  | dequeue
  | issueWriteBitmap (wr : Ptr)
  | issueWriteInode (wr : Ptr)
  | postMutex (wr : Ptr)
  | postHasSpace (wr : Ptr)
  | writeComplete (wr : Ptr)
  deriving DecidableEq, Repr

/-- The globals of `journal.c`, the position of every thread, and the history. -/
structure State (Ptr Client : Type*) where
  requestBuffer : CircBuff Ptr
  metaDataBuffer : CircBuff Ptr
  commitCompletedBuffer : CircBuff Ptr
  mutex : ℕ
  requestBufferHasSpace : ℕ
  requestBufferNotEmpty : ℕ
  metaDataBufferHasSpace : ℕ
  metaDataBufferNotEmpty : ℕ
  commitCompletedBufferHasSpace : ℕ
  commitCompletedBufferNotEmpty : ℕ
  client : Client → ClientPc Ptr
  metaData : MetaPc Ptr
  commit : CommitPc Ptr
  checkpoint : CheckpointPc Ptr
  /-- The completion threads of `issue_journal_txe` that have not run yet. -/
  pending : List ℕ
  /-- The requests in the order in which `request_write` enqueued them. -/
  accepted : List Ptr
  /-- The requests whose `write_complete` has been called. -/
  completed : List Ptr
  /-- The number of calls of `issue_journal_txe`. -/
  commits : ℕ
  trace : List (Event Ptr)

inductive Action (Ptr Client : Type*) where
  /-- An idle client calls `request_write`. -/
  | request (c : Client) (wr : Ptr)
  | client (c : Client)
  | metaData
  | commit
  | checkpoint
  | txeComplete (k : ℕ)
  deriving DecidableEq, Repr

/-- `sem_wait` on a semaphore of the given value; `none` blocks. -/
def semWait : ℕ → Option ℕ
  | 0 => none
  | v + 1 => some v

section Step

variable {Ptr Client : Type*}

def State.record (s : State Ptr Client) (es : List (Event Ptr)) : State Ptr Client :=
  { s with trace := s.trace ++ es }

def clientStep [DecidableEq Client] (s : State Ptr Client) (c : Client) :
    Option (State Ptr Client) :=
  match s.client c with
  | .idle => none
  | .waitHasSpace wr => (semWait s.requestBufferHasSpace).map fun v =>
    { s with requestBufferHasSpace := v, client := update s.client c (.waitMutex wr) }
  | .waitMutex wr => (semWait s.mutex).map fun v =>
    { s with mutex := v, client := update s.client c (.enqueue wr) }
  | .enqueue wr => some
      { s with
        requestBuffer := enqueue s.requestBuffer wr, accepted := s.accepted ++ [wr]
        client := update s.client c .postMutex }
  | .postMutex => some
      { s with mutex := s.mutex + 1, client := update s.client c .postNotEmpty }
  | .postNotEmpty => some
      { s with
        requestBufferNotEmpty := s.requestBufferNotEmpty + 1
        client := update s.client c .idle }

/-- `mem` is the memory that `struct write_request *` points into. The fields of a
request do not change while the service holds it. -/
def metaDataStep (mem : Ptr → WriteRequest) (s : State Ptr Client) : Option (State Ptr Client) :=
  match s.metaData with
  | .waitNotEmpty => (semWait s.requestBufferNotEmpty).map fun v =>
    { s with requestBufferNotEmpty := v, metaData := .waitMutex }
  | .waitMutex => (semWait s.mutex).map fun v => { s with mutex := v, metaData := .dequeue }
  | .dequeue => some
      { s with
        requestBuffer := (dequeue s.requestBuffer).2
        metaData := .issueWriteData (dequeue s.requestBuffer).1 }
  | .issueWriteData wr => some
      { s.record [.call wr (.issueWriteData (mem wr).data (mem wr).dataIdx),
          .callback wr .writeDataComplete] with
        metaData := .issueJournalTxb wr }
  | .issueJournalTxb wr => some
      { s.record [.call wr .issueJournalTxb, .callback wr .journalTxbComplete] with
        metaData := .issueJournalBitmap wr }
  | .issueJournalBitmap wr => some
      { s.record [.call wr (.issueJournalBitmap (mem wr).bitmap (mem wr).bitmapIdx),
          .callback wr .journalBitmapComplete] with
        metaData := .issueJournalInode wr }
  | .issueJournalInode wr => some
      { s.record [.call wr (.issueJournalInode (mem wr).inode (mem wr).inodeIdx),
          .callback wr .journalInodeComplete] with
        metaData := .postMutex wr }
  | .postMutex wr => some { s with mutex := s.mutex + 1, metaData := .postHasSpace wr }
  | .postHasSpace wr => some
      { s with
        requestBufferHasSpace := s.requestBufferHasSpace + 1, metaData := .waitHasSpace wr }
  | .waitHasSpace wr => (semWait s.metaDataBufferHasSpace).map fun v =>
    { s with metaDataBufferHasSpace := v, metaData := .waitMutexNext wr }
  | .waitMutexNext wr => (semWait s.mutex).map fun v =>
    { s with mutex := v, metaData := .enqueue wr }
  | .enqueue wr => some
      { s with metaDataBuffer := enqueue s.metaDataBuffer wr, metaData := .postNotEmpty }
  | .postNotEmpty => some
      { s with
        metaDataBufferNotEmpty := s.metaDataBufferNotEmpty + 1, metaData := .postMutexNext }
  | .postMutexNext => some { s with mutex := s.mutex + 1, metaData := .waitNotEmpty }

/-- `issue_journal_txe` only starts a thread that will call `journal_txe_complete`. -/
def commitStep (s : State Ptr Client) : Option (State Ptr Client) :=
  match s.commit with
  | .waitNotEmpty => (semWait s.metaDataBufferNotEmpty).map fun v =>
    { s with metaDataBufferNotEmpty := v, commit := .waitMutex }
  | .waitMutex => (semWait s.mutex).map fun v => { s with mutex := v, commit := .dequeue }
  | .dequeue => some
      { s with
        metaDataBuffer := (dequeue s.metaDataBuffer).2
        commit := .issueJournalTxe (dequeue s.metaDataBuffer).1 }
  | .issueJournalTxe wr => some
      { s.record [.call wr .issueJournalTxe] with
        pending := s.pending ++ [s.commits], commits := s.commits + 1, commit := .postMutex wr }
  | .postMutex wr => some { s with mutex := s.mutex + 1, commit := .postHasSpace wr }
  | .postHasSpace wr => some
      { s with
        metaDataBufferHasSpace := s.metaDataBufferHasSpace + 1, commit := .waitHasSpace wr }
  | .waitHasSpace wr => (semWait s.commitCompletedBufferHasSpace).map fun v =>
    { s with commitCompletedBufferHasSpace := v, commit := .waitMutexNext wr }
  | .waitMutexNext wr => (semWait s.mutex).map fun v =>
    { s with mutex := v, commit := .enqueue wr }
  | .enqueue wr => some
      { s with
        commitCompletedBuffer := enqueue s.commitCompletedBuffer wr, commit := .postMutexNext }
  | .postMutexNext => some { s with mutex := s.mutex + 1, commit := .postNotEmpty }
  | .postNotEmpty => some
      { s with
        commitCompletedBufferNotEmpty := s.commitCompletedBufferNotEmpty + 1
        commit := .waitNotEmpty }

def checkpointStep (mem : Ptr → WriteRequest) (s : State Ptr Client) :
    Option (State Ptr Client) :=
  match s.checkpoint with
  | .waitNotEmpty => (semWait s.commitCompletedBufferNotEmpty).map fun v =>
    { s with commitCompletedBufferNotEmpty := v, checkpoint := .waitMutex }
  | .waitMutex => (semWait s.mutex).map fun v => { s with mutex := v, checkpoint := .dequeue }
  | .dequeue => some
      { s with
        commitCompletedBuffer := (dequeue s.commitCompletedBuffer).2
        checkpoint := .issueWriteBitmap (dequeue s.commitCompletedBuffer).1 }
  | .issueWriteBitmap wr => some
      { s.record [.call wr (.issueWriteBitmap (mem wr).bitmap (mem wr).bitmapIdx),
          .callback wr .writeBitmapComplete] with
        checkpoint := .issueWriteInode wr }
  | .issueWriteInode wr => some
      { s.record [.call wr (.issueWriteInode (mem wr).inode (mem wr).inodeIdx),
          .callback wr .writeInodeComplete] with
        checkpoint := .postMutex wr }
  | .postMutex wr => some { s with mutex := s.mutex + 1, checkpoint := .postHasSpace wr }
  | .postHasSpace wr => some
      { s with
        commitCompletedBufferHasSpace := s.commitCompletedBufferHasSpace + 1
        checkpoint := .writeComplete wr }
  | .writeComplete wr => some
      { s.record [.call wr .writeComplete] with
        completed := s.completed ++ [wr], checkpoint := .waitNotEmpty }

/-- One step of one thread. -/
def step [DecidableEq Client] (mem : Ptr → WriteRequest) (s : State Ptr Client) :
    Action Ptr Client → Option (State Ptr Client)
  | .request c wr =>
    match s.client c with
    | .idle => some { s with client := update s.client c (.waitHasSpace wr) }
    | _ => none
  | .client c => clientStep s c
  | .metaData => metaDataStep mem s
  | .commit => commitStep s
  | .checkpoint => checkpointStep mem s
  | .txeComplete k =>
    if k ∈ s.pending then
      some { s.record [.journalTxeComplete k] with pending := s.pending.erase k }
    else none

/-- The state that `init_journal` sets up; the pointers in the buffers are null. -/
def initState (null : Ptr) : State Ptr Client :=
  { requestBuffer := ⟨fun _ => null, 0, 0, 0⟩
    metaDataBuffer := ⟨fun _ => null, 0, 0, 0⟩
    commitCompletedBuffer := ⟨fun _ => null, 0, 0, 0⟩
    mutex := 1
    requestBufferHasSpace := 8
    requestBufferNotEmpty := 0
    metaDataBufferHasSpace := 8
    metaDataBufferNotEmpty := 0
    commitCompletedBufferHasSpace := 8
    commitCompletedBufferNotEmpty := 0
    client := fun _ => .idle
    metaData := .waitNotEmpty
    commit := .waitNotEmpty
    checkpoint := .waitNotEmpty
    pending := []
    accepted := []
    completed := []
    commits := 0
    trace := [] }

end Step

end CS352.Journal
