import CS352.Library.History
import CS352.Verification.Journal.Accounting

/-! # The calls that the journaling service makes

Every kind of call goes through the accepted requests in order. `State.done` reads off
the buffers and the threads' hands for which requests a kind of call has been made. -/

namespace CS352.Journal

open Transition History

variable {Ptr Client : Type*}

/-! ## Kinds of calls -/

/-- The calls made for one request, in pipeline order. -/
inductive Kind where
  | writeData
  | journalTxb
  | journalBitmap
  | journalInode
  | journalTxe
  | writeBitmap
  | writeInode
  | writeComplete
  deriving DecidableEq, Repr

@[simp] def Kind.index : Kind → ℕ
  | .writeData => 0
  | .journalTxb => 1
  | .journalBitmap => 2
  | .journalInode => 3
  | .journalTxe => 4
  | .writeBitmap => 5
  | .writeInode => 6
  | .writeComplete => 7

/-- The call of the given kind for a request, with the request's contents and indices. -/
def Kind.call (r : WriteRequest) : Kind → Call
  | .writeData => .issueWriteData r.data r.dataIdx
  | .journalTxb => .issueJournalTxb
  | .journalBitmap => .issueJournalBitmap r.bitmap r.bitmapIdx
  | .journalInode => .issueJournalInode r.inode r.inodeIdx
  | .journalTxe => .issueJournalTxe
  | .writeBitmap => .issueWriteBitmap r.bitmap r.bitmapIdx
  | .writeInode => .issueWriteInode r.inode r.inodeIdx
  | .writeComplete => .writeComplete

def Call.kind : Call → Kind
  | .issueWriteData _ _ => .writeData
  | .issueJournalTxb => .journalTxb
  | .issueJournalBitmap _ _ => .journalBitmap
  | .issueJournalInode _ _ => .journalInode
  | .issueJournalTxe => .journalTxe
  | .issueWriteBitmap _ _ => .writeBitmap
  | .issueWriteInode _ _ => .writeInode
  | .writeComplete => .writeComplete

@[simp] theorem Kind.kind_call (r : WriteRequest) (κ : Kind) : (κ.call r).kind = κ := by
  cases κ <;> rfl

/-- The kind of call that makes a callback. -/
def Callback.kind : Callback → Kind
  | .writeDataComplete => .writeData
  | .journalTxbComplete => .journalTxb
  | .journalBitmapComplete => .journalBitmap
  | .journalInodeComplete => .journalInode
  | .writeBitmapComplete => .writeBitmap
  | .writeInodeComplete => .writeInode

/-- The callbacks that the block service makes before a call returns. -/
def Kind.callbacks : Kind → List Callback
  | .writeData => [.writeDataComplete]
  | .journalTxb => [.journalTxbComplete]
  | .journalBitmap => [.journalBitmapComplete]
  | .journalInode => [.journalInodeComplete]
  | .writeBitmap => [.writeBitmapComplete]
  | .writeInode => [.writeInodeComplete]
  | .journalTxe | .writeComplete => []

/-- The calls of one kind in a history. -/
def calls (κ : Kind) (tr : List (Event Ptr)) : List (Ptr × Call) :=
  tr.filterMap fun
    | .call wr c => if c.kind = κ then some (wr, c) else none
    | _ => none

/-- The calls to the block service in a history. -/
def issues (tr : List (Event Ptr)) : List (Ptr × Call) :=
  tr.filterMap fun
    | .call wr c => if c.kind = .writeComplete then none else some (wr, c)
    | _ => none

/-- The requests of the callbacks of one kind in a history. -/
def callbacks (cb : Callback) (tr : List (Event Ptr)) : List Ptr :=
  tr.filterMap fun
    | .callback wr c => if c = cb then some wr else none
    | _ => none

/-- What a call of kind `κ` for `wr` adds to the history. -/
def issued (mem : Ptr → WriteRequest) (κ : Kind) (wr : Ptr) : List (Event Ptr) :=
  .call wr (κ.call (mem wr)) :: κ.callbacks.map (.callback wr)

section Filters

variable (mem : Ptr → WriteRequest) (κ : Kind) (wr : Ptr) (tr es : List (Event Ptr)) (k : ℕ)

@[simp] theorem calls_append (κ' : Kind) : calls κ' (tr ++ es) = calls κ' tr ++ calls κ' es :=
  List.filterMap_append

@[simp] theorem issues_append : issues (tr ++ es) = issues tr ++ issues es :=
  List.filterMap_append

@[simp] theorem callbacks_append (cb : Callback) :
    callbacks cb (tr ++ es) = callbacks cb tr ++ callbacks cb es :=
  List.filterMap_append

@[simp] theorem calls_issued (κ' : Kind) :
    calls κ' (issued mem κ wr) = if κ = κ' then [(wr, κ.call (mem wr))] else [] := by
  cases κ <;> cases κ' <;> rfl

@[simp] theorem issues_issued :
    issues (issued mem κ wr) = if κ = .writeComplete then [] else [(wr, κ.call (mem wr))] := by
  cases κ <;> rfl

@[simp] theorem callbacks_issued (cb : Callback) :
    callbacks cb (issued mem κ wr) = if κ = cb.kind then [wr] else [] := by
  cases κ <;> cases cb <;> rfl

end Filters

/-! ## For which requests a call has been made -/

/-- The request in thread 1's hands, if its call of kind `κ` has been made. -/
@[simp] def MetaPc.after (κ : Kind) : MetaPc Ptr → List Ptr
  | .issueWriteData _ => []
  | .issueJournalTxb wr => if κ.index < 1 then [wr] else []
  | .issueJournalBitmap wr => if κ.index < 2 then [wr] else []
  | .issueJournalInode wr => if κ.index < 3 then [wr] else []
  | pc => pc.hand

theorem MetaPc.after_prefix (κ : Kind) (pc : MetaPc Ptr) : pc.after κ <+: pc.hand := by
  cases pc <;> simp only [MetaPc.after, MetaPc.hand] <;> (try split) <;> simp

@[simp] def CommitPc.after : CommitPc Ptr → List Ptr
  | .issueJournalTxe _ => []
  | pc => pc.hand

theorem CommitPc.after_prefix (pc : CommitPc Ptr) : pc.after <+: pc.hand := by
  cases pc <;> simp

@[simp] def CheckpointPc.after (κ : Kind) : CheckpointPc Ptr → List Ptr
  | .issueWriteBitmap _ => []
  | .issueWriteInode wr => if κ.index < 6 then [wr] else []
  | pc => pc.hand

theorem CheckpointPc.after_prefix (κ : Kind) (pc : CheckpointPc Ptr) :
    pc.after κ <+: pc.hand := by
  cases pc <;> simp only [CheckpointPc.after, CheckpointPc.hand] <;> (try split) <;> simp

/-- The requests that thread 2 has handed over, oldest first. -/
def State.handedOver (s : State Ptr Client) : List Ptr :=
  s.completed ++ s.checkpoint.hand ++ s.commitCompletedBuffer.contents

/-- The requests that thread 1 has handed over. -/
def State.journaled (s : State Ptr Client) : List Ptr :=
  s.handedOver ++ s.commit.hand ++ s.metaDataBuffer.contents

/-- The requests whose call of kind `κ` has been made. -/
def State.done (s : State Ptr Client) : Kind → List Ptr
  | .writeComplete => s.completed
  | .writeInode => s.completed ++ s.checkpoint.after .writeInode
  | .writeBitmap => s.completed ++ s.checkpoint.after .writeBitmap
  | .journalTxe => s.handedOver ++ s.commit.after
  | κ => s.journaled ++ s.metaData.after κ

/-- The phase-one calls that thread 1 has still to make in its critical section. -/
def MetaPc.rest (mem : Ptr → WriteRequest) : MetaPc Ptr → List (Ptr × Call)
  | .issueJournalTxb wr => [Kind.journalTxb, .journalBitmap, .journalInode].map
      fun κ => (wr, κ.call (mem wr))
  | .issueJournalBitmap wr => [Kind.journalBitmap, .journalInode].map
      fun κ => (wr, κ.call (mem wr))
  | .issueJournalInode wr => [(wr, Kind.journalInode.call (mem wr))]
  | _ => []

theorem MetaPc.rest_eq_nil {mem : Ptr → WriteRequest} {pc : MetaPc Ptr}
    (h : pc.holdsMutex = 0) : pc.rest mem = [] := by
  cases pc with
  | issueJournalTxb | issueJournalBitmap | issueJournalInode => cases h
  | _ => rfl

/-! ## Blocks of phase-one calls -/

/-- The phase-one calls that follow `issue_write_data` for `wr`. -/
def block (mem : Ptr → WriteRequest) (wr : Ptr) : List (Ptr × Call) :=
  [Kind.journalTxb, .journalBitmap, .journalInode].map fun κ => (wr, κ.call (mem wr))

/-- `Blocked mem l rest` says that `l` consists of calls of later phases and of whole
blocks of phase-one calls, the last of which still lacks `rest`. -/
inductive Blocked (mem : Ptr → WriteRequest) :
    List (Ptr × Call) → List (Ptr × Call) → Prop where
  | nil : Blocked mem [] []
  | start {l : List (Ptr × Call)} (wr : Ptr) : Blocked mem l [] →
      Blocked mem (l ++ [(wr, Kind.writeData.call (mem wr))]) (block mem wr)
  | next {l rest : List (Ptr × Call)} {e : Ptr × Call} : Blocked mem l (e :: rest) →
      Blocked mem (l ++ [e]) rest
  | later {l : List (Ptr × Call)} (κ : Kind) (wr : Ptr) : Blocked mem l [] → 3 < κ.index →
      Blocked mem (l ++ [(wr, κ.call (mem wr))]) []

theorem Blocked.rest_kind {mem : Ptr → WriteRequest} {l rest : List (Ptr × Call)}
    (h : Blocked mem l rest) : ∀ e ∈ rest, e.2.kind ≠ .writeData := by
  induction h with
  | nil => simp
  | start wr _ _ => simp [block]
  | next _ ih => exact fun e he => ih e (List.mem_cons_of_mem _ he)
  | later => simp

/-- The three calls after a call of `issue_write_data` are the rest of its block, as far
as they have been made. -/
theorem Blocked.take_eq {mem : Ptr → WriteRequest} {l rest : List (Ptr × Call)}
    (h : Blocked mem l rest) {pre post : List (Ptr × Call)} {e : Ptr × Call}
    (hsplit : l = pre ++ e :: post) (he : e.2.kind = .writeData) :
    (post ++ rest).take 3 = block mem e.1 := by
  -- A block that was complete stays complete: three calls of it have been made already.
  have hgrow : ∀ (q q' : List (Ptr × Call)), (q ++ []).take 3 = block mem e.1 →
      (q ++ q').take 3 = block mem e.1 := by
    intro q q' hq
    have hlen : 3 ≤ q.length := by
      have := congrArg List.length hq
      simp [block] at this
      omega
    rw [List.take_append_of_le_length hlen]
    simpa using hq
  induction h generalizing post with
  | nil => simp at hsplit
  | start wr _ ih =>
    rcases split_concat hsplit with ⟨-, rfl, rfl⟩ | ⟨post', rfl, hl⟩
    · rfl
    · simpa using hgrow post' _ (ih hl)
  | next hl ih =>
    rcases split_concat hsplit with ⟨-, rfl, rfl⟩ | ⟨post', rfl, hl⟩
    · exact absurd he (hl.rest_kind _ (by simp))
    · simpa using ih hl
  | later κ wr _ hκ ih =>
    rcases split_concat hsplit with ⟨-, rfl, rfl⟩ | ⟨post', rfl, hl⟩
    · simp only [Kind.kind_call] at he
      simp [he] at hκ
    · simpa using hgrow post' _ (ih hl)

/-- Threads 2 and 3 make their calls while thread 1 is outside its block. -/
theorem Blocked.later_of_free {mem : Ptr → WriteRequest} {l : List (Ptr × Call)}
    {pc : MetaPc Ptr} {κ : Kind} {wr : Ptr} (h : Blocked mem l (pc.rest mem))
    (hfree : pc.holdsMutex = 0) (hκ : 3 < κ.index) :
    Blocked mem (l ++ issues (issued mem κ wr)) (pc.rest mem) := by
  rw [MetaPc.rest_eq_nil hfree] at h ⊢
  rw [issues_issued]
  split
  · simpa using h
  · exact h.later κ wr hκ

/-! ## What a step adds to the history -/

/-- What a step does to the history. It is silent, runs a completion thread, or makes one
call for the next request of its kind, for which all earlier kinds of calls have been
made. Only the step with which thread 2 hands a request over changes `handedOver`. -/
inductive Effect (mem : Ptr → WriteRequest) (s : State Ptr Client) (a : Action Ptr Client)
    (s' : State Ptr Client) : Prop where
  | silent (trace : s'.trace = s.trace) (commits : s'.commits = s.commits)
      (pending : s'.pending = s.pending) (done : s'.done = s.done)
      (rest : s'.metaData.rest mem = s.metaData.rest mem)
      (handedOver : s'.handedOver = s.handedOver ∨ a = .commit ∧ ∃ wr, s.commit = .enqueue wr)
  | complete (k : ℕ) (trace : s'.trace = s.trace ++ [.journalTxeComplete k])
      (commits : s'.commits = s.commits) (pending : s'.pending = s.pending.erase k)
      (done : s'.done = s.done) (rest : s'.metaData.rest mem = s.metaData.rest mem)
      (handedOver : s'.handedOver = s.handedOver)
  | call (κ : Kind) (wr : Ptr) (trace : s'.trace = s.trace ++ issued mem κ wr)
      (commits : s'.commits = if κ = .journalTxe then s.commits + 1 else s.commits)
      (pending : s'.pending = if κ = .journalTxe then s.pending ++ [s.commits] else s.pending)
      (done : s'.done κ = s.done κ ++ [wr]) (others : ∀ κ' ≠ κ, s'.done κ' = s.done κ')
      (earlier : ∀ κ', κ'.index < κ.index → s.done κ ++ [wr] <+: s.done κ')
      (blocked : ∀ l, Blocked mem l (s.metaData.rest mem) →
        Blocked mem (l ++ issues (issued mem κ wr)) (s'.metaData.rest mem))
      (handedOver : s'.handedOver = s.handedOver)
      (checkpoint : 4 < κ.index → s.done κ ++ [wr] <+: s.handedOver)

section Effects

variable [Fintype Client] {mem : Ptr → WriteRequest} {s s' : State Ptr Client}

theorem metaDataStep_effect (h : Inv s) (hs : metaDataStep mem s = some s') :
    Effect mem s .metaData s' := by
  obtain ⟨rb, mb, cb, mutex, rSpace, rItems, mSpace, mItems, cSpace, cItems, client, pc, pc2, pc3,
    pending, accepted, completed, commits, trace⟩ := s
  cases pc with
  | waitNotEmpty | waitMutex | waitHasSpace | waitMutexNext =>
    obtain ⟨v, -, rfl⟩ := Option.map_eq_some_iff.mp hs
    exact .silent rfl rfl rfl rfl rfl (.inl rfl)
  | dequeue | postMutex | postHasSpace | postNotEmpty | postMutexNext =>
    obtain rfl := Option.some.inj hs
    exact .silent rfl rfl rfl rfl rfl (.inl rfl)
  | enqueue wr =>
    obtain rfl := Option.some.inj hs
    obtain ⟨-, hc⟩ := h.metaDataOk.enqueue wr (h.metaData.length_lt Nat.one_pos)
    refine .silent rfl rfl rfl ?_ rfl (.inl rfl)
    funext κ
    cases κ <;> simp [State.done, State.journaled, State.handedOver, hc]
  | issueWriteData wr =>
    obtain rfl := Option.some.inj hs
    refine .call .writeData wr rfl rfl rfl ?_ ?_ ?_ (fun l hl => hl.start wr) rfl
      (absurd · (by decide))
    · simp [State.done, State.journaled, State.handedOver, State.record]
    · intro κ' hκ
      cases κ' <;> first | rfl | exact absurd rfl hκ
    · intro κ' hκ
      cases κ' <;> cases hκ
  | issueJournalTxb wr =>
    obtain rfl := Option.some.inj hs
    refine .call .journalTxb wr rfl rfl rfl ?_ ?_ ?_ (fun l hl => hl.next) rfl
      (absurd · (by decide))
    · simp [State.done, State.journaled, State.handedOver, State.record]
    · intro κ' hκ
      cases κ' <;> first | rfl | exact absurd rfl hκ
    · intro κ' hκ
      cases κ' <;> simp [State.done] at hκ ⊢
  | issueJournalBitmap wr =>
    obtain rfl := Option.some.inj hs
    refine .call .journalBitmap wr rfl rfl rfl ?_ ?_ ?_ (fun l hl => hl.next) rfl
      (absurd · (by decide))
    · simp [State.done, State.journaled, State.handedOver, State.record]
    · intro κ' hκ
      cases κ' <;> first | rfl | exact absurd rfl hκ
    · intro κ' hκ
      cases κ' <;> simp [State.done] at hκ ⊢
  | issueJournalInode wr =>
    obtain rfl := Option.some.inj hs
    refine .call .journalInode wr rfl rfl rfl ?_ ?_ ?_ (fun l hl => hl.next) rfl
      (absurd · (by decide))
    · simp [State.done, State.journaled, State.handedOver, State.record]
    · intro κ' hκ
      cases κ' <;> first | rfl | exact absurd rfl hκ
    · intro κ' hκ
      cases κ' <;> simp [State.done] at hκ ⊢

theorem commitStep_effect (h : Inv s) (hs : commitStep s = some s') : Effect mem s .commit s' := by
  obtain ⟨rb, mb, cb, mutex, rSpace, rItems, mSpace, mItems, cSpace, cItems, client, pc1, pc, pc3,
    pending, accepted, completed, commits, trace⟩ := s
  have hm := h.mutex
  cases pc with
  | waitNotEmpty | waitMutex | waitHasSpace | waitMutexNext =>
    obtain ⟨v, -, rfl⟩ := Option.map_eq_some_iff.mp hs
    exact .silent rfl rfl rfl rfl rfl (.inl rfl)
  | postMutex | postHasSpace | postNotEmpty | postMutexNext =>
    obtain rfl := Option.some.inj hs
    exact .silent rfl rfl rfl rfl rfl (.inl rfl)
  | dequeue =>
    obtain rfl := Option.some.inj hs
    obtain ⟨-, hc⟩ := h.metaDataOk.dequeue (h.metaData.length_pos Nat.one_pos)
    refine .silent rfl rfl rfl ?_ rfl (.inl rfl)
    funext κ
    cases κ <;> simp [State.done, State.journaled, State.handedOver, hc]
  | enqueue wr =>
    obtain rfl := Option.some.inj hs
    obtain ⟨-, hc⟩ := h.commitOk.enqueue wr (h.commit.length_lt Nat.one_pos)
    refine .silent rfl rfl rfl ?_ rfl (.inr ⟨rfl, wr, rfl⟩)
    funext κ
    cases κ <;> simp [State.done, State.journaled, State.handedOver, hc]
  | issueJournalTxe wr =>
    obtain rfl := Option.some.inj hs
    have hfree : pc1.holdsMutex = 0 := by simp only [CommitPc.holdsMutex] at hm; omega
    refine .call .journalTxe wr rfl rfl rfl ?_ ?_ ?_ ?_ rfl (absurd · (by decide))
    · simp [State.done, State.handedOver, State.record]
    · intro κ' hκ
      cases κ' <;> first | rfl | exact absurd rfl hκ
    · intro κ' hκ
      cases κ' <;> simp [State.done, State.journaled] at hκ ⊢
    · exact fun l hl => hl.later_of_free hfree (by decide)

theorem checkpointStep_effect (h : Inv s) (hs : checkpointStep mem s = some s') :
    Effect mem s .checkpoint s' := by
  obtain ⟨rb, mb, cb, mutex, rSpace, rItems, mSpace, mItems, cSpace, cItems, client, pc1, pc2, pc,
    pending, accepted, completed, commits, trace⟩ := s
  have hm := h.mutex
  cases pc with
  | waitNotEmpty | waitMutex =>
    obtain ⟨v, -, rfl⟩ := Option.map_eq_some_iff.mp hs
    exact .silent rfl rfl rfl rfl rfl (.inl rfl)
  | postMutex | postHasSpace =>
    obtain rfl := Option.some.inj hs
    exact .silent rfl rfl rfl rfl rfl (.inl rfl)
  | dequeue =>
    obtain rfl := Option.some.inj hs
    obtain ⟨-, hc⟩ := h.commitOk.dequeue (h.commit.length_pos Nat.one_pos)
    refine .silent rfl rfl rfl ?_ rfl (.inl ?_)
    · funext κ
      cases κ <;> simp [State.done, State.journaled, State.handedOver, hc]
    · simp [State.handedOver, hc]
  | issueWriteBitmap wr =>
    obtain rfl := Option.some.inj hs
    have hfree : pc1.holdsMutex = 0 := by simp only [CheckpointPc.holdsMutex] at hm; omega
    refine .call .writeBitmap wr rfl rfl rfl ?_ ?_ ?_ ?_ rfl ?_
    · simp [State.done, State.record]
    · intro κ' hκ
      cases κ' <;> first | rfl | exact absurd rfl hκ
    · intro κ' hκ
      cases κ' <;> simp [State.done, State.journaled, State.handedOver] at hκ ⊢
    · exact fun l hl => hl.later_of_free hfree (by decide)
    · simp [State.done, State.handedOver]
  | issueWriteInode wr =>
    obtain rfl := Option.some.inj hs
    have hfree : pc1.holdsMutex = 0 := by simp only [CheckpointPc.holdsMutex] at hm; omega
    refine .call .writeInode wr rfl rfl rfl ?_ ?_ ?_ ?_ rfl ?_
    · simp [State.done, State.record]
    · intro κ' hκ
      cases κ' <;> first | rfl | exact absurd rfl hκ
    · intro κ' hκ
      cases κ' <;> simp [State.done, State.journaled, State.handedOver] at hκ ⊢
    · exact fun l hl => hl.later_of_free hfree (by decide)
    · simp [State.done, State.handedOver]
  | writeComplete wr =>
    obtain rfl := Option.some.inj hs
    refine .call .writeComplete wr rfl rfl rfl rfl ?_ ?_ ?_ ?_ ?_
    · intro κ' hκ
      cases κ' <;> first
        | exact absurd rfl hκ
        | simp [State.done, State.journaled, State.handedOver, State.record]
    · intro κ' hκ
      cases κ' <;> simp [State.done, State.journaled, State.handedOver] at hκ ⊢
    · intro l hl
      simpa [State.record] using hl
    · simp [State.handedOver, State.record]
    · simp [State.done, State.handedOver]

variable [DecidableEq Client]

omit [Fintype Client] in
theorem clientStep_effect {c : Client} (hs : clientStep s c = some s') :
    Effect mem s (.client c) s' := by
  unfold clientStep at hs
  split at hs
  · cases hs
  · obtain ⟨v, -, rfl⟩ := Option.map_eq_some_iff.mp hs
    exact .silent rfl rfl rfl rfl rfl (.inl rfl)
  · obtain ⟨v, -, rfl⟩ := Option.map_eq_some_iff.mp hs
    exact .silent rfl rfl rfl rfl rfl (.inl rfl)
  all_goals
    obtain rfl := Option.some.inj hs
    exact .silent rfl rfl rfl rfl rfl (.inl rfl)

theorem step_effect {a : Action Ptr Client} (h : Inv s) (hs : step mem s a = some s') :
    Effect mem s a s' := by
  cases a with
  | request c wr =>
    simp only [step] at hs
    split at hs
    · obtain rfl := Option.some.inj hs
      exact .silent rfl rfl rfl rfl rfl (.inl rfl)
    · cases hs
  | client c => exact clientStep_effect hs
  | metaData => exact metaDataStep_effect h hs
  | commit => exact commitStep_effect h hs
  | checkpoint => exact checkpointStep_effect h hs
  | txeComplete k =>
    simp only [step] at hs
    split at hs
    · obtain rfl := Option.some.inj hs
      exact .complete k rfl rfl rfl rfl rfl rfl
    · cases hs

end Effects

/-! ## The invariant of the history -/

/-- A call comes after every earlier kind of call for the same request: when it is the
`n`-th of its kind, more than `n` calls of each earlier kind have been made. -/
def CallAfter (pre : List (Event Ptr)) (ev : Event Ptr) : Prop :=
  ∀ wr c, ev = .call wr c → ∀ κ : Kind, κ.index < c.kind.index →
    (calls c.kind pre).length < (calls κ pre).length

theorem callAfter_callback (pre : List (Event Ptr)) (wr : Ptr) (cb : Callback) :
    CallAfter pre (.callback wr cb) := by
  intro wr' c h
  cases h

theorem callAfter_journalTxeComplete (pre : List (Event Ptr)) (k : ℕ) :
    CallAfter pre (.journalTxeComplete k) := by
  intro wr' c h
  cases h

structure TraceInv (mem : Ptr → WriteRequest) (s : State Ptr Client) : Prop where
  calls_eq : ∀ κ, calls κ s.trace = (s.done κ).map fun wr => (wr, κ.call (mem wr))
  callbacks_eq : ∀ cb, callbacks cb s.trace = s.done cb.kind
  commits_eq : s.commits = (s.done .journalTxe).length
  ordered : Guarded CallAfter s.trace
  blocked : Blocked mem (issues s.trace) (s.metaData.rest mem)

variable {mem : Ptr → WriteRequest} {s s' : State Ptr Client}

theorem TraceInv.length_calls (h : TraceInv mem s) (κ : Kind) :
    (calls κ s.trace).length = (s.done κ).length := by
  rw [h.calls_eq, List.length_map]

theorem TraceInv.callAfter (h : TraceInv mem s) {κ : Kind} {wr : Ptr}
    (hearlier : ∀ κ', κ'.index < κ.index → s.done κ ++ [wr] <+: s.done κ') :
    CallAfter s.trace (.call wr (κ.call (mem wr))) := by
  intro wr' c hev κ' hκ
  cases hev
  rw [Kind.kind_call] at hκ ⊢
  have hle := (hearlier κ' hκ).length_le
  rw [List.length_append, List.length_singleton] at hle
  rw [h.length_calls, h.length_calls]
  omega

theorem TraceInv.effect (h : TraceInv mem s) {a : Action Ptr Client}
    (he : Effect mem s a s') : TraceInv mem s' := by
  cases he with
  | silent trace commits _ done rest _ =>
    constructor <;> simp only [trace, commits, done, rest]
    exacts [h.calls_eq, h.callbacks_eq, h.commits_eq, h.ordered, h.blocked]
  | complete k trace commits _ done rest _ =>
    constructor <;> simp only [trace, commits, done, rest]
    · simpa [calls] using h.calls_eq
    · simpa [callbacks] using h.callbacks_eq
    · exact h.commits_eq
    · exact h.ordered.concat (callAfter_journalTxeComplete _ k)
    · simpa [issues] using h.blocked
  | call κ wr trace commits _ done others earlier blocked _ _ =>
    constructor
    · intro κ'
      rw [trace, calls_append, calls_issued, h.calls_eq]
      by_cases hκ : κ = κ'
      · subst κ'
        simp [done]
      · simp [hκ, others κ' (Ne.symm hκ)]
    · intro cb
      rw [trace, callbacks_append, callbacks_issued, h.callbacks_eq]
      by_cases hκ : κ = cb.kind
      · rw [if_pos hκ, ← hκ, done]
      · simp [hκ, others cb.kind (Ne.symm hκ)]
    · rw [commits]
      by_cases hκ : κ = .journalTxe
      · subst hκ
        simp [done, h.commits_eq]
      · simp [hκ, others .journalTxe (Ne.symm hκ), h.commits_eq]
    · have hcall := h.ordered.concat (h.callAfter earlier)
      have hsplit : s.trace ++ issued mem κ wr =
          s.trace ++ [.call wr (κ.call (mem wr))] ++ κ.callbacks.map (.callback wr) := by
        simp [issued]
      rw [trace, hsplit]
      refine hcall.append ?_
      intro ev hev pre
      obtain ⟨cb, -, rfl⟩ := List.mem_map.mp hev
      exact callAfter_callback pre wr cb
    · rw [trace, issues_append]
      exact blocked _ h.blocked

theorem traceInv_initState (null : Ptr) : TraceInv mem (initState null : State Ptr Client) where
  calls_eq := by intro κ; cases κ <;> rfl
  callbacks_eq := by intro cb; cases cb <;> rfl
  commits_eq := rfl
  ordered := guarded_nil
  blocked := .nil

variable [Fintype Client] [DecidableEq Client]

theorem reach_traceInv {null : Ptr} (h : Reach (step mem) (initState null) s) :
    Inv s ∧ TraceInv mem s := by
  refine h.invariant (I := fun s => Inv s ∧ TraceInv mem s)
    ⟨inv_initState null, traceInv_initState null⟩ ?_
  rintro t a u ⟨hinv, htrace⟩ - hs
  exact ⟨hinv.step hs, htrace.effect (step_effect hinv hs)⟩

/-! ## Main result -/

omit [DecidableEq Client] in
theorem Inv.done_prefix (h : Inv s) (κ : Kind) : s.done κ <+: s.accepted := by
  have hgrow : ∀ {xs ys zs : List Ptr} (ws : List Ptr), ys <+: zs → xs ++ ys <+: xs ++ zs ++ ws :=
    fun ws hyz => ((List.prefix_append_right_inj _).mpr hyz).trans (List.prefix_append _ ws)
  have hcheckpoint : s.accepted = s.completed ++ s.checkpoint.hand ++
      (s.commitCompletedBuffer.contents ++ s.commit.hand ++ s.metaDataBuffer.contents ++
        s.metaData.hand ++ s.requestBuffer.contents) := by
    simp [h.fifo, State.taken]
  have hcommit : s.accepted = s.handedOver ++ s.commit.hand ++
      (s.metaDataBuffer.contents ++ s.metaData.hand ++ s.requestBuffer.contents) := by
    simp [h.fifo, State.taken, State.handedOver]
  have hmeta : s.accepted = s.journaled ++ s.metaData.hand ++ s.requestBuffer.contents := by
    simp [h.fifo, State.taken, State.journaled, State.handedOver]
  cases κ with
  | writeComplete =>
    rw [hcheckpoint, List.append_assoc]
    exact List.prefix_append _ _
  | writeInode | writeBitmap =>
    rw [hcheckpoint]
    exact hgrow _ (s.checkpoint.after_prefix _)
  | journalTxe =>
    rw [hcommit]
    exact hgrow _ s.commit.after_prefix
  | writeData | journalTxb | journalBitmap | journalInode =>
    rw [hmeta]
    exact hgrow _ (s.metaData.after_prefix _)

/-- The calls of the service: each kind goes through the accepted requests in order, with
their contents and indices; the calls for one request come in pipeline order; and no call
to the block service separates the four phase-one calls of one request. -/
structure CallOrder (mem : Ptr → WriteRequest) (s : State Ptr Client) : Prop where
  belongs : ∀ κ, calls κ s.trace <+: s.accepted.map fun wr => (wr, κ.call (mem wr))
  ordered : ∀ pre wr c post, s.trace = pre ++ .call wr c :: post →
    ∀ κ : Kind, κ.index < c.kind.index → (calls c.kind pre).length < (calls κ pre).length
  contiguous : ∀ pre wr c post, issues s.trace = pre ++ (wr, c) :: post →
    c.kind = .writeData → post.take 3 <+:
      [(wr, .issueJournalTxb), (wr, .issueJournalBitmap (mem wr).bitmap (mem wr).bitmapIdx),
        (wr, .issueJournalInode (mem wr).inode (mem wr).inodeIdx)]

/-- Under every interleaving the `k`-th call of each kind is made for the `k`-th accepted
request, in pipeline order. -/
theorem reachable_callOrder (mem : Ptr → WriteRequest) (null : Ptr) (s : State Ptr Client)
    (h : Reach (step mem) (initState null) s) : CallOrder mem s := by
  obtain ⟨hinv, htrace⟩ := reach_traceInv h
  constructor
  · intro κ
    rw [htrace.calls_eq]
    exact (hinv.done_prefix κ).map _
  · intro pre wr c post hsplit
    exact htrace.ordered pre _ post hsplit wr c rfl
  · intro pre wr c post hsplit hc
    have htake := htrace.blocked.take_eq hsplit hc
    rw [List.take_append] at htake
    exact ⟨_, htake⟩

theorem reachable_callOrder_twoRequests : ∃ s : State ℕ (Fin 2),
    exec (step fun _ => default) (initState 0) twoRequests = some s ∧
      (calls .journalTxe s.trace).map Prod.fst = [10] ∧ CallOrder (fun _ => default) s := by
  have hrun : ∃ s : State ℕ (Fin 2),
      exec (step fun _ => default) (initState 0) twoRequests = some s ∧
        (calls .journalTxe s.trace).map Prod.fst = [10] := ⟨_, rfl, rfl⟩
  obtain ⟨s, hs, htxe⟩ := hrun
  exact ⟨s, hs, htxe, reachable_callOrder (fun _ => default) 0 s (reach_of_exec hs)⟩

end CS352.Journal
