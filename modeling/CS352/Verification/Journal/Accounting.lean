import CS352.Library.BoundedBuffer
import CS352.Library.RingBuffer
import CS352.Library.Transition
import CS352.Model.Journal

/-! # Semaphore accounting and FIFO order of the journaling service -/

namespace CS352.Journal

open RingBuffer BoundedBuffer Transition

variable {Ptr Client : Type*}

/-! ## Buffers -/

/-- The buffer is well formed and its size field counts its contents. -/
structure CircBuff.Ok (b : CircBuff Ptr) : Prop where
  represents : Represents bufferSize b.buffer b.tail b.head b.contents
  size_eq : b.size = b.contents.length

theorem CircBuff.contents_eq {b : CircBuff Ptr} {xs : List Ptr}
    (h : Represents bufferSize b.buffer b.tail b.head xs) (hsize : b.size = xs.length) :
    b.contents = xs := by
  conv_rhs => rw [h.eq_map]
  rw [CircBuff.contents, hsize, Int.toNat_natCast]
  apply List.map_congr_left
  intro j hj
  have hle : j ≤ bufferSize := (List.mem_range.mp hj).le.trans h.length_le
  rw [slot_eq_mod h.tail_lt hle]

theorem CircBuff.ok_of_represents {b : CircBuff Ptr} {xs : List Ptr}
    (h : Represents bufferSize b.buffer b.tail b.head xs) (hsize : b.size = xs.length) :
    b.Ok := by
  have hc := CircBuff.contents_eq h hsize
  exact ⟨hc ▸ h, hc ▸ hsize⟩

theorem CircBuff.Ok.enqueue_represents {b : CircBuff Ptr} (h : b.Ok) (wr : Ptr)
    (hlen : b.contents.length < bufferSize) :
    Represents bufferSize (enqueue b wr).buffer (enqueue b wr).tail (enqueue b wr).head
      (b.contents ++ [wr]) :=
  h.represents.push hlen

/-- `enqueue` on a buffer with room appends. -/
theorem CircBuff.Ok.enqueue {b : CircBuff Ptr} (h : b.Ok) (wr : Ptr)
    (hlen : b.contents.length < bufferSize) :
    (enqueue b wr).Ok ∧ (enqueue b wr).contents = b.contents ++ [wr] := by
  have hrep := h.enqueue_represents wr hlen
  have hsize : (Journal.enqueue b wr).size = ((b.contents ++ [wr]).length : ℕ) := by
    simp [Journal.enqueue, h.size_eq]
  exact ⟨ok_of_represents hrep hsize, contents_eq hrep hsize⟩

/-- `dequeue` on a buffer with an entry takes the first. -/
theorem CircBuff.Ok.dequeue {b : CircBuff Ptr} (h : b.Ok) (hpos : 0 < b.contents.length) :
    (dequeue b).2.Ok ∧ b.contents = (dequeue b).1 :: (dequeue b).2.contents := by
  cases hb : b.contents with
  | nil => simp [hb] at hpos
  | cons x xs =>
    have hrep := h.represents
    rw [hb] at hrep
    obtain ⟨hx, hrep⟩ := hrep.pop
    have hrep' : Represents bufferSize (Journal.dequeue b).2.buffer (Journal.dequeue b).2.tail
        (Journal.dequeue b).2.head xs := hrep
    have hsize : (Journal.dequeue b).2.size = (xs.length : ℕ) := by
      have := h.size_eq
      simp only [hb, List.length_cons] at this
      simp only [Journal.dequeue]
      omega
    refine ⟨ok_of_represents hrep' hsize, ?_⟩
    rw [contents_eq hrep' hsize]
    exact congrArg (· :: xs) hx.symm

theorem ok_null (null : Ptr) : (⟨fun _ => null, 0, 0, 0⟩ : CircBuff Ptr).Ok :=
  CircBuff.ok_of_represents (represents_nil (show 0 < bufferSize by decide)) rfl

/-! ## Where the threads stand between the semaphore operations -/

@[simp] def ClientPc.reserved : ClientPc Ptr → ℕ
  | .waitMutex _ | .enqueue _ => 1
  | _ => 0

@[simp] def ClientPc.unannounced : ClientPc Ptr → ℕ
  | .postMutex | .postNotEmpty => 1
  | _ => 0

@[simp] def ClientPc.holdsMutex : ClientPc Ptr → ℕ
  | .enqueue _ | .postMutex => 1
  | _ => 0

def MetaPc.claimed : MetaPc Ptr → ℕ
  | .waitMutex | .dequeue => 1
  | _ => 0

def MetaPc.unreturned : MetaPc Ptr → ℕ
  | .issueWriteData _ | .issueJournalTxb _ | .issueJournalBitmap _ | .issueJournalInode _
  | .postMutex _ | .postHasSpace _ => 1
  | _ => 0

def MetaPc.reserved : MetaPc Ptr → ℕ
  | .waitMutexNext _ | .enqueue _ => 1
  | _ => 0

def MetaPc.unannounced : MetaPc Ptr → ℕ
  | .postNotEmpty => 1
  | _ => 0

def MetaPc.holdsMutex : MetaPc Ptr → ℕ
  | .dequeue | .issueWriteData _ | .issueJournalTxb _ | .issueJournalBitmap _
  | .issueJournalInode _ | .postMutex _ | .enqueue _ | .postNotEmpty | .postMutexNext => 1
  | _ => 0

/-- The request that thread 1 has dequeued and not yet passed on. -/
@[simp] def MetaPc.hand : MetaPc Ptr → List Ptr
  | .issueWriteData wr | .issueJournalTxb wr | .issueJournalBitmap wr | .issueJournalInode wr
  | .postMutex wr | .postHasSpace wr | .waitHasSpace wr | .waitMutexNext wr | .enqueue wr => [wr]
  | _ => []

def CommitPc.claimed : CommitPc Ptr → ℕ
  | .waitMutex | .dequeue => 1
  | _ => 0

def CommitPc.unreturned : CommitPc Ptr → ℕ
  | .issueJournalTxe _ | .postMutex _ | .postHasSpace _ => 1
  | _ => 0

def CommitPc.reserved : CommitPc Ptr → ℕ
  | .waitMutexNext _ | .enqueue _ => 1
  | _ => 0

def CommitPc.unannounced : CommitPc Ptr → ℕ
  | .postMutexNext | .postNotEmpty => 1
  | _ => 0

def CommitPc.holdsMutex : CommitPc Ptr → ℕ
  | .dequeue | .issueJournalTxe _ | .postMutex _ | .enqueue _ | .postMutexNext => 1
  | _ => 0

@[simp] def CommitPc.hand : CommitPc Ptr → List Ptr
  | .issueJournalTxe wr | .postMutex wr | .postHasSpace wr | .waitHasSpace wr
  | .waitMutexNext wr | .enqueue wr => [wr]
  | _ => []

def CheckpointPc.claimed : CheckpointPc Ptr → ℕ
  | .waitMutex | .dequeue => 1
  | _ => 0

def CheckpointPc.unreturned : CheckpointPc Ptr → ℕ
  | .issueWriteBitmap _ | .issueWriteInode _ | .postMutex _ | .postHasSpace _ => 1
  | _ => 0

def CheckpointPc.holdsMutex : CheckpointPc Ptr → ℕ
  | .dequeue | .issueWriteBitmap _ | .issueWriteInode _ | .postMutex _ => 1
  | _ => 0

@[simp] def CheckpointPc.hand : CheckpointPc Ptr → List Ptr
  | .issueWriteBitmap wr | .issueWriteInode wr | .postMutex wr | .postHasSpace wr
  | .writeComplete wr => [wr]
  | _ => []

/-! ## The invariant -/

/-- The requests that have left the request buffer, oldest first. -/
def State.taken (s : State Ptr Client) : List Ptr :=
  s.completed ++ s.checkpoint.hand ++ s.commitCompletedBuffer.contents ++ s.commit.hand ++
    s.metaDataBuffer.contents ++ s.metaData.hand

structure Inv [Fintype Client] (s : State Ptr Client) : Prop where
  requestOk : s.requestBuffer.Ok
  metaDataOk : s.metaDataBuffer.Ok
  commitOk : s.commitCompletedBuffer.Ok
  mutex : s.mutex + ∑ c, (s.client c).holdsMutex + s.metaData.holdsMutex +
    s.commit.holdsMutex + s.checkpoint.holdsMutex = 1
  request : Ledger bufferSize s.requestBufferHasSpace s.requestBufferNotEmpty
    s.requestBuffer.contents.length (∑ c, (s.client c).reserved) (∑ c, (s.client c).unannounced)
    s.metaData.claimed s.metaData.unreturned
  metaData : Ledger bufferSize s.metaDataBufferHasSpace s.metaDataBufferNotEmpty
    s.metaDataBuffer.contents.length s.metaData.reserved s.metaData.unannounced
    s.commit.claimed s.commit.unreturned
  commit : Ledger bufferSize s.commitCompletedBufferHasSpace s.commitCompletedBufferNotEmpty
    s.commitCompletedBuffer.contents.length s.commit.reserved s.commit.unannounced
    s.checkpoint.claimed s.checkpoint.unreturned
  fifo : s.accepted = s.taken ++ s.requestBuffer.contents

variable [Fintype Client]

theorem inv_initState (null : Ptr) : Inv (initState null : State Ptr Client) where
  requestOk := ok_null null
  metaDataOk := ok_null null
  commitOk := ok_null null
  mutex := by simp [initState, MetaPc.holdsMutex, CommitPc.holdsMutex, CheckpointPc.holdsMutex]
  request := ⟨by simp [initState, CircBuff.contents, ClientPc.reserved, MetaPc.unreturned,
    bufferSize], by simp [initState, CircBuff.contents, ClientPc.unannounced, MetaPc.claimed]⟩
  metaData := ⟨rfl, rfl⟩
  commit := ⟨rfl, rfl⟩
  fifo := rfl

theorem semWait_eq_some {v w : ℕ} : semWait v = some w ↔ v = w + 1 := by
  cases v with
  | zero => simp [semWait]
  | succ v => simp [semWait]

theorem Inv.request_length_lt {s : State Ptr Client} (h : Inv s) {c : Client} {wr : Ptr}
    (hc : s.client c = .enqueue wr) : s.requestBuffer.contents.length < bufferSize := by
  have hle := le_sum ClientPc.reserved s.client c
  rw [hc] at hle
  exact h.request.length_lt hle

/-! ## What the invariant guarantees -/

/-- What the semaphores guarantee about the buffers: no overflow, no underflow, indices
in range, and first-in first-out order through the whole pipeline. -/
structure Orderly (s : State Ptr Client) : Prop where
  enqueue_request : ∀ c wr, s.client c = .enqueue wr → s.requestBuffer.size < bufferSize
  enqueue_metaData : ∀ wr, s.metaData = .enqueue wr → s.metaDataBuffer.size < bufferSize
  enqueue_commit : ∀ wr, s.commit = .enqueue wr → s.commitCompletedBuffer.size < bufferSize
  dequeue_request : s.metaData = .dequeue → 1 ≤ s.requestBuffer.size
  dequeue_metaData : s.commit = .dequeue → 1 ≤ s.metaDataBuffer.size
  dequeue_commit : s.checkpoint = .dequeue → 1 ≤ s.commitCompletedBuffer.size
  in_range : ∀ b ∈ [s.requestBuffer, s.metaDataBuffer, s.commitCompletedBuffer],
    b.head < bufferSize ∧ b.tail < bufferSize
  fifo : s.accepted = s.completed ++ s.checkpoint.hand ++ s.commitCompletedBuffer.contents ++
    s.commit.hand ++ s.metaDataBuffer.contents ++ s.metaData.hand ++ s.requestBuffer.contents

theorem CircBuff.Ok.size_lt {b : CircBuff Ptr} (h : b.Ok)
    (hlen : b.contents.length < bufferSize) : b.size < bufferSize := by
  rw [h.size_eq]
  exact_mod_cast hlen

theorem CircBuff.Ok.one_le_size {b : CircBuff Ptr} (h : b.Ok)
    (hlen : 0 < b.contents.length) : 1 ≤ b.size := by
  rw [h.size_eq]
  exact_mod_cast hlen

theorem CircBuff.Ok.in_range {b : CircBuff Ptr} (h : b.Ok) :
    b.head < bufferSize ∧ b.tail < bufferSize :=
  ⟨h.represents.head_lt, h.represents.tail_lt⟩

theorem Inv.orderly {s : State Ptr Client} (h : Inv s) : Orderly s where
  enqueue_request := fun _ _ hc => h.requestOk.size_lt (h.request_length_lt hc)
  enqueue_metaData := fun wr hpc => h.metaDataOk.size_lt <| h.metaData.length_lt <| by
    simp [hpc, MetaPc.reserved]
  enqueue_commit := fun wr hpc => h.commitOk.size_lt <| h.commit.length_lt <| by
    simp [hpc, CommitPc.reserved]
  dequeue_request := fun hpc => h.requestOk.one_le_size <| h.request.length_pos <| by
    simp [hpc, MetaPc.claimed]
  dequeue_metaData := fun hpc => h.metaDataOk.one_le_size <| h.metaData.length_pos <| by
    simp [hpc, CommitPc.claimed]
  dequeue_commit := fun hpc => h.commitOk.one_le_size <| h.commit.length_pos <| by
    simp [hpc, CheckpointPc.claimed]
  in_range := by
    intro b hb
    simp only [List.mem_cons, List.not_mem_nil, or_false] at hb
    rcases hb with rfl | rfl | rfl
    · exact h.requestOk.in_range
    · exact h.metaDataOk.in_range
    · exact h.commitOk.in_range
  fifo := h.fifo

/-! ## Preservation, thread by thread -/

theorem Inv.metaDataStep {mem : Ptr → WriteRequest} {s s' : State Ptr Client} (h : Inv s)
    (hs : metaDataStep mem s = some s') : Inv s' := by
  obtain ⟨rb, mb, cb, mutex, rSpace, rItems, mSpace, mItems, cSpace, cItems, client, pc, pc2, pc3,
    pending, accepted, completed, commits, trace⟩ := s
  have hm := h.mutex
  cases pc with
  | waitNotEmpty =>
    obtain ⟨v, hv, rfl⟩ := Option.map_eq_some_iff.mp hs
    obtain rfl : rItems = v + 1 := semWait_eq_some.mp hv
    exact { h with request := h.request.claim }
  | waitMutex | waitMutexNext wr =>
    obtain ⟨v, hv, rfl⟩ := Option.map_eq_some_iff.mp hs
    obtain rfl : mutex = v + 1 := semWait_eq_some.mp hv
    exact { h with mutex := by simp only [MetaPc.holdsMutex] at hm ⊢; omega }
  | dequeue =>
    obtain rfl := Option.some.inj hs
    obtain ⟨hok, hc⟩ := h.requestOk.dequeue (h.request.length_pos Nat.one_pos)
    have hr := h.request
    simp only [hc, List.length_cons] at hr
    exact { h with
      requestOk := hok, request := hr.take
      fifo := by simpa [State.taken, hc] using h.fifo }
  | issueWriteData wr => obtain rfl := Option.some.inj hs; exact { h with }
  | issueJournalTxb wr => obtain rfl := Option.some.inj hs; exact { h with }
  | issueJournalBitmap wr => obtain rfl := Option.some.inj hs; exact { h with }
  | issueJournalInode wr => obtain rfl := Option.some.inj hs; exact { h with }
  | postMutex wr | postMutexNext =>
    obtain rfl := Option.some.inj hs
    exact { h with mutex := by simp only [MetaPc.holdsMutex] at hm ⊢; omega }
  | postHasSpace wr =>
    obtain rfl := Option.some.inj hs
    exact { h with request := h.request.giveBack }
  | waitHasSpace wr =>
    obtain ⟨v, hv, rfl⟩ := Option.map_eq_some_iff.mp hs
    obtain rfl : mSpace = v + 1 := semWait_eq_some.mp hv
    exact { h with metaData := h.metaData.reserve }
  | enqueue wr =>
    obtain rfl := Option.some.inj hs
    obtain ⟨hok, hc⟩ := h.metaDataOk.enqueue wr (h.metaData.length_lt Nat.one_pos)
    exact { h with
      metaDataOk := hok
      metaData := by
        simp only [hc, List.length_append, List.length_singleton]
        exact h.metaData.put
      fifo := by simpa [State.taken, hc] using h.fifo }
  | postNotEmpty =>
    obtain rfl := Option.some.inj hs
    exact { h with metaData := h.metaData.announce }

theorem Inv.commitStep {s s' : State Ptr Client} (h : Inv s)
    (hs : commitStep s = some s') : Inv s' := by
  obtain ⟨rb, mb, cb, mutex, rSpace, rItems, mSpace, mItems, cSpace, cItems, client, pc1, pc, pc3,
    pending, accepted, completed, commits, trace⟩ := s
  have hm := h.mutex
  cases pc with
  | waitNotEmpty =>
    obtain ⟨v, hv, rfl⟩ := Option.map_eq_some_iff.mp hs
    obtain rfl : mItems = v + 1 := semWait_eq_some.mp hv
    exact { h with metaData := h.metaData.claim }
  | waitMutex | waitMutexNext wr =>
    obtain ⟨v, hv, rfl⟩ := Option.map_eq_some_iff.mp hs
    obtain rfl : mutex = v + 1 := semWait_eq_some.mp hv
    exact { h with mutex := by simp only [CommitPc.holdsMutex] at hm ⊢; omega }
  | dequeue =>
    obtain rfl := Option.some.inj hs
    obtain ⟨hok, hc⟩ := h.metaDataOk.dequeue (h.metaData.length_pos Nat.one_pos)
    have hr := h.metaData
    simp only [hc, List.length_cons] at hr
    exact { h with
      metaDataOk := hok, metaData := hr.take
      fifo := by simpa [State.taken, hc] using h.fifo }
  | issueJournalTxe wr => obtain rfl := Option.some.inj hs; exact { h with }
  | postMutex wr | postMutexNext =>
    obtain rfl := Option.some.inj hs
    exact { h with mutex := by simp only [CommitPc.holdsMutex] at hm ⊢; omega }
  | postHasSpace wr =>
    obtain rfl := Option.some.inj hs
    exact { h with metaData := h.metaData.giveBack }
  | waitHasSpace wr =>
    obtain ⟨v, hv, rfl⟩ := Option.map_eq_some_iff.mp hs
    obtain rfl : cSpace = v + 1 := semWait_eq_some.mp hv
    exact { h with commit := h.commit.reserve }
  | enqueue wr =>
    obtain rfl := Option.some.inj hs
    obtain ⟨hok, hc⟩ := h.commitOk.enqueue wr (h.commit.length_lt Nat.one_pos)
    exact { h with
      commitOk := hok
      commit := by
        simp only [hc, List.length_append, List.length_singleton]
        exact h.commit.put
      fifo := by simpa [State.taken, hc] using h.fifo }
  | postNotEmpty =>
    obtain rfl := Option.some.inj hs
    exact { h with commit := h.commit.announce }

theorem Inv.checkpointStep {mem : Ptr → WriteRequest} {s s' : State Ptr Client} (h : Inv s)
    (hs : checkpointStep mem s = some s') : Inv s' := by
  obtain ⟨rb, mb, cb, mutex, rSpace, rItems, mSpace, mItems, cSpace, cItems, client, pc1, pc2, pc,
    pending, accepted, completed, commits, trace⟩ := s
  have hm := h.mutex
  cases pc with
  | waitNotEmpty =>
    obtain ⟨v, hv, rfl⟩ := Option.map_eq_some_iff.mp hs
    obtain rfl : cItems = v + 1 := semWait_eq_some.mp hv
    exact { h with commit := h.commit.claim }
  | waitMutex =>
    obtain ⟨v, hv, rfl⟩ := Option.map_eq_some_iff.mp hs
    obtain rfl : mutex = v + 1 := semWait_eq_some.mp hv
    exact { h with mutex := by simp only [CheckpointPc.holdsMutex] at hm ⊢; omega }
  | dequeue =>
    obtain rfl := Option.some.inj hs
    obtain ⟨hok, hc⟩ := h.commitOk.dequeue (h.commit.length_pos Nat.one_pos)
    have hr := h.commit
    simp only [hc, List.length_cons] at hr
    exact { h with
      commitOk := hok, commit := hr.take
      fifo := by simpa [State.taken, hc] using h.fifo }
  | issueWriteBitmap wr => obtain rfl := Option.some.inj hs; exact { h with }
  | issueWriteInode wr => obtain rfl := Option.some.inj hs; exact { h with }
  | postMutex wr =>
    obtain rfl := Option.some.inj hs
    exact { h with mutex := by simp only [CheckpointPc.holdsMutex] at hm ⊢; omega }
  | postHasSpace wr =>
    obtain rfl := Option.some.inj hs
    exact { h with commit := h.commit.giveBack }
  | writeComplete wr =>
    obtain rfl := Option.some.inj hs
    exact { h with fifo := by simpa [State.taken, State.record] using h.fifo }

variable [DecidableEq Client]

/-- One client moves to `pc`: its contribution to the three client counts changes. -/
theorem Inv.moveClient {s : State Ptr Client} (h : Inv s) (c : Client) {pc : ClientPc Ptr}
    {mutex' space' items' : ℕ} {rb : CircBuff Ptr} {accepted : List Ptr} (hok : rb.Ok)
    (hmutex : mutex' + pc.holdsMutex = s.mutex + (s.client c).holdsMutex)
    (hspace : space' + rb.contents.length + pc.reserved =
      s.requestBufferHasSpace + s.requestBuffer.contents.length + (s.client c).reserved)
    (hitems : items' + pc.unannounced + s.requestBuffer.contents.length =
      s.requestBufferNotEmpty + (s.client c).unannounced + rb.contents.length)
    (hfifo : accepted = s.taken ++ rb.contents) :
    Inv { s with
      requestBuffer := rb, mutex := mutex', requestBufferHasSpace := space'
      requestBufferNotEmpty := items', client := Function.update s.client c pc
      accepted := accepted } := by
  have hhold := sum_update ClientPc.holdsMutex s.client c pc
  have hres := sum_update ClientPc.reserved s.client c pc
  have hun := sum_update ClientPc.unannounced s.client c pc
  obtain ⟨hs, hi⟩ := h.request
  have hm := h.mutex
  exact { h with
    requestOk := hok
    mutex := by simp only; omega
    request := ⟨by simp only; omega, by simp only; omega⟩
    fifo := hfifo }

theorem Inv.clientStep {s s' : State Ptr Client} {c : Client} (h : Inv s)
    (hs : clientStep s c = some s') : Inv s' := by
  unfold Journal.clientStep at hs
  cases hc : s.client c with
  | idle => simp [hc] at hs
  | waitHasSpace wr =>
    simp only [hc] at hs
    obtain ⟨v, hv, rfl⟩ := Option.map_eq_some_iff.mp hs
    have hv := semWait_eq_some.mp hv
    exact h.moveClient c h.requestOk (by simp [hc]) (by simp [hc]; omega) (by simp [hc]) h.fifo
  | waitMutex wr =>
    simp only [hc] at hs
    obtain ⟨v, hv, rfl⟩ := Option.map_eq_some_iff.mp hs
    have hv := semWait_eq_some.mp hv
    exact h.moveClient c h.requestOk (by simp [hc]; omega) (by simp [hc]) (by simp [hc]) h.fifo
  | enqueue wr =>
    simp only [hc, Option.some.injEq] at hs
    subst hs
    obtain ⟨hok, hcont⟩ := h.requestOk.enqueue wr (h.request_length_lt hc)
    exact h.moveClient c hok (by simp [hc]) (by simp [hc, hcont]; omega)
      (by simp [hc, hcont]; omega) (by rw [hcont, h.fifo, List.append_assoc])
  | postMutex | postNotEmpty =>
    simp only [hc, Option.some.injEq] at hs
    subst hs
    exact h.moveClient c h.requestOk (by simp [hc]) (by simp [hc]) (by simp [hc]) h.fifo

theorem Inv.step {mem : Ptr → WriteRequest} {s s' : State Ptr Client} {a : Action Ptr Client}
    (h : Inv s) (hs : step mem s a = some s') : Inv s' := by
  cases a with
  | request c wr =>
    simp only [Journal.step] at hs
    cases hc : s.client c with
    | idle =>
      simp only [hc, Option.some.injEq] at hs
      subst hs
      exact h.moveClient c h.requestOk (by simp [hc]) (by simp [hc]) (by simp [hc]) h.fifo
    | _ => simp [hc] at hs
  | client c => exact h.clientStep hs
  | metaData => exact h.metaDataStep hs
  | commit => exact h.commitStep hs
  | checkpoint => exact h.checkpointStep hs
  | txeComplete k =>
    simp only [Journal.step] at hs
    split at hs
    · obtain rfl := Option.some.inj hs
      exact { h with }
    · cases hs

theorem reach_inv {mem : Ptr → WriteRequest} {null : Ptr} {s : State Ptr Client}
    (h : Reach (step mem) (initState null) s) : Inv s :=
  h.invariant (inv_initState null) fun _ _ _ hi _ hs => hi.step hs

/-! ## Main result -/

/-- Under every interleaving of any number of clients with the three threads, no request
is lost, duplicated, overwritten or reordered. -/
theorem reachable_orderly (mem : Ptr → WriteRequest) (null : Ptr) (s : State Ptr Client)
    (h : Reach (step mem) (initState null) s) : Orderly s :=
  (reach_inv h).orderly

/-- Two clients of which the first has a request in the commit buffer and the second one
in the request buffer. -/
def twoRequests : List (Action ℕ (Fin 2)) :=
  .request 0 10 :: .request 1 20 :: List.replicate 5 (.client 0) ++
    List.replicate 14 .metaData ++ List.replicate 4 (.client 1) ++ List.replicate 11 .commit

theorem reachable_orderly_twoRequests : ∃ s : State ℕ (Fin 2),
    exec (step fun _ => default) (initState 0) twoRequests = some s ∧ s.accepted = [10, 20] ∧
      s.commitCompletedBuffer.contents = [10] ∧ s.requestBuffer.contents = [20] ∧ Orderly s := by
  have hrun : ∃ s : State ℕ (Fin 2),
      exec (step fun _ => default) (initState 0) twoRequests = some s ∧ s.accepted = [10, 20] ∧
        s.commitCompletedBuffer.contents = [10] ∧ s.requestBuffer.contents = [20] :=
    ⟨_, rfl, rfl, rfl, rfl⟩
  obtain ⟨s, hs, hacc, hc, hr⟩ := hrun
  exact ⟨s, hs, hacc, hc, hr, reachable_orderly (fun _ => default) 0 s (reach_of_exec hs)⟩

end CS352.Journal
