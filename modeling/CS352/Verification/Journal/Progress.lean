import CS352.Verification.Journal.Accounting

/-! # The journaling service does not deadlock

A blocked thread does not hold the mutex, so when all threads are blocked the mutex is
free and every thread waits for a buffer. The ledgers then empty the buffers one after
the other, starting from the last. -/

namespace CS352.Journal

open Transition BoundedBuffer

variable {Ptr Client : Type*}

theorem semWait_eq_none {v : ℕ} : semWait v = none ↔ v = 0 := by
  cases v with
  | zero => simp [semWait]
  | succ v => simp [semWait]

/-! ## Where blocked threads are -/

section Blocked

variable {mem : Ptr → WriteRequest} {s : State Ptr Client}

theorem metaDataStep_eq_none (h : metaDataStep mem s = none) :
    s.metaData.holdsMutex = 0 ∧ (s.mutex ≠ 0 →
      s.metaData = .waitNotEmpty ∧ s.requestBufferNotEmpty = 0 ∨
      ∃ wr, s.metaData = .waitHasSpace wr ∧ s.metaDataBufferHasSpace = 0) := by
  unfold metaDataStep at h
  cases hpc : s.metaData with
  | waitNotEmpty =>
    simp only [hpc, Option.map_eq_none_iff, semWait_eq_none] at h
    exact ⟨rfl, fun _ => .inl ⟨rfl, h⟩⟩
  | waitHasSpace wr =>
    simp only [hpc, Option.map_eq_none_iff, semWait_eq_none] at h
    exact ⟨rfl, fun _ => .inr ⟨wr, rfl, h⟩⟩
  | waitMutex | waitMutexNext wr =>
    simp only [hpc, Option.map_eq_none_iff, semWait_eq_none] at h
    exact ⟨rfl, fun hmutex => absurd h hmutex⟩
  | _ => simp [hpc] at h

theorem commitStep_eq_none (h : commitStep s = none) :
    s.commit.holdsMutex = 0 ∧ (s.mutex ≠ 0 →
      s.commit = .waitNotEmpty ∧ s.metaDataBufferNotEmpty = 0 ∨
      ∃ wr, s.commit = .waitHasSpace wr ∧ s.commitCompletedBufferHasSpace = 0) := by
  unfold commitStep at h
  cases hpc : s.commit with
  | waitNotEmpty =>
    simp only [hpc, Option.map_eq_none_iff, semWait_eq_none] at h
    exact ⟨rfl, fun _ => .inl ⟨rfl, h⟩⟩
  | waitHasSpace wr =>
    simp only [hpc, Option.map_eq_none_iff, semWait_eq_none] at h
    exact ⟨rfl, fun _ => .inr ⟨wr, rfl, h⟩⟩
  | waitMutex | waitMutexNext wr =>
    simp only [hpc, Option.map_eq_none_iff, semWait_eq_none] at h
    exact ⟨rfl, fun hmutex => absurd h hmutex⟩
  | _ => simp [hpc] at h

theorem checkpointStep_eq_none (h : checkpointStep mem s = none) :
    s.checkpoint.holdsMutex = 0 ∧ (s.mutex ≠ 0 →
      s.checkpoint = .waitNotEmpty ∧ s.commitCompletedBufferNotEmpty = 0) := by
  unfold checkpointStep at h
  cases hpc : s.checkpoint with
  | waitNotEmpty =>
    simp only [hpc, Option.map_eq_none_iff, semWait_eq_none] at h
    exact ⟨rfl, fun _ => ⟨rfl, h⟩⟩
  | waitMutex =>
    simp only [hpc, Option.map_eq_none_iff, semWait_eq_none] at h
    exact ⟨rfl, fun hmutex => absurd h hmutex⟩
  | _ => simp [hpc] at h

theorem clientStep_eq_none [DecidableEq Client] {c : Client} (h : clientStep s c = none) :
    (s.client c).holdsMutex = 0 ∧ (s.mutex ≠ 0 →
      s.client c = .idle ∨ ∃ wr, s.client c = .waitHasSpace wr ∧ s.requestBufferHasSpace = 0) := by
  unfold clientStep at h
  cases hpc : s.client c with
  | idle => exact ⟨rfl, fun _ => .inl rfl⟩
  | waitHasSpace wr =>
    simp only [hpc, Option.map_eq_none_iff, semWait_eq_none] at h
    exact ⟨rfl, fun _ => .inr ⟨wr, rfl, h⟩⟩
  | waitMutex wr =>
    simp only [hpc, Option.map_eq_none_iff, semWait_eq_none] at h
    exact ⟨rfl, fun hmutex => absurd h hmutex⟩
  | _ => simp [hpc] at h

end Blocked

/-! ## Stuck states are quiet -/

variable [Fintype Client] [DecidableEq Client] {mem : Ptr → WriteRequest} {s : State Ptr Client}

/-- No thread inside the service can take a step. -/
structure Stuck (mem : Ptr → WriteRequest) (s : State Ptr Client) : Prop where
  client : ∀ c, clientStep s c = none
  metaData : metaDataStep mem s = none
  commit : commitStep s = none
  checkpoint : checkpointStep mem s = none

theorem Inv.mutex_ne_zero (h : Inv s) (hs : Stuck mem s) : s.mutex ≠ 0 := by
  have hmutex := h.mutex
  have hclients : ∑ c, (s.client c).holdsMutex = 0 :=
    Finset.sum_eq_zero fun c _ => (clientStep_eq_none (hs.client c)).1
  rw [hclients, (metaDataStep_eq_none hs.metaData).1, (commitStep_eq_none hs.commit).1,
    (checkpointStep_eq_none hs.checkpoint).1] at hmutex
  omega

/-- In a stuck state every accepted request is complete and every client is outside
`request_write`. -/
theorem Inv.quiet_of_stuck (h : Inv s) (hs : Stuck mem s) :
    s.completed = s.accepted ∧ ∀ c, s.client c = .idle := by
  have hmutex := h.mutex_ne_zero hs
  obtain ⟨hcheckpoint, hcItems⟩ := (checkpointStep_eq_none hs.checkpoint).2 hmutex
  have hcommit := (commitStep_eq_none hs.commit).2 hmutex
  have hmeta := (metaDataStep_eq_none hs.metaData).2 hmutex
  have hclient := fun c => (clientStep_eq_none (hs.client c)).2 hmutex
  -- The commit buffer is empty, so thread 2 does not wait for space in it.
  have hcBuffer : s.commitCompletedBuffer.contents.length = 0 ∧
      s.commitCompletedBufferHasSpace = bufferSize := by
    have hledger := h.commit
    rw [hcheckpoint, hcItems] at hledger
    rcases hcommit with ⟨hpc, -⟩ | ⟨wr, hpc, -⟩
    · rw [hpc] at hledger
      exact hledger.idle
    · rw [hpc] at hledger
      exact hledger.idle
  obtain ⟨hcommit, hmItems⟩ := hcommit.resolve_right <| by
    rintro ⟨wr, -, hspace⟩
    simp [hcBuffer.2, bufferSize] at hspace
  -- Then the metadata buffer is empty, and thread 1 waits for a request.
  have hmBuffer : s.metaDataBuffer.contents.length = 0 ∧
      s.metaDataBufferHasSpace = bufferSize := by
    have hledger := h.metaData
    rw [hcommit, hmItems] at hledger
    rcases hmeta with ⟨hpc, -⟩ | ⟨wr, hpc, -⟩
    · rw [hpc] at hledger
      exact hledger.idle
    · rw [hpc] at hledger
      exact hledger.idle
  obtain ⟨hmeta, hrItems⟩ := hmeta.resolve_right <| by
    rintro ⟨wr, -, hspace⟩
    simp [hmBuffer.2, bufferSize] at hspace
  -- Then the request buffer is empty, and no client waits for space in it.
  have hreserved : ∑ c, (s.client c).reserved = 0 := Finset.sum_eq_zero fun c _ => by
    rcases hclient c with hpc | ⟨wr, hpc, -⟩ <;> rw [hpc] <;> rfl
  have hunannounced : ∑ c, (s.client c).unannounced = 0 := Finset.sum_eq_zero fun c _ => by
    rcases hclient c with hpc | ⟨wr, hpc, -⟩ <;> rw [hpc] <;> rfl
  have hrBuffer : s.requestBuffer.contents.length = 0 ∧
      s.requestBufferHasSpace = bufferSize := by
    have hledger := h.request
    rw [hmeta, hrItems, hreserved, hunannounced] at hledger
    exact hledger.idle
  have hidle : ∀ c, s.client c = .idle := by
    intro c
    refine (hclient c).resolve_right ?_
    rintro ⟨wr, -, hspace⟩
    simp [hrBuffer.2, bufferSize] at hspace
  refine ⟨?_, hidle⟩
  rw [h.fifo, State.taken, hcheckpoint, hcommit, hmeta,
    List.eq_nil_of_length_eq_zero hcBuffer.1, List.eq_nil_of_length_eq_zero hmBuffer.1,
    List.eq_nil_of_length_eq_zero hrBuffer.1]
  simp

/-! ## Main result -/

/-- While a request is incomplete or a client is inside `request_write`, some thread of
the service can take a step. -/
theorem reachable_progress (mem : Ptr → WriteRequest) (null : Ptr) (s : State Ptr Client)
    (h : Reach (step mem) (initState null) s)
    (hbusy : s.completed ≠ s.accepted ∨ ∃ c, s.client c ≠ .idle) :
    (∃ c, s.client c ≠ .idle ∧ (step mem s (.client c)).isSome) ∨
      (step mem s .metaData).isSome ∨ (step mem s .commit).isSome ∨
      (step mem s .checkpoint).isSome := by
  by_contra hnone
  simp only [not_or, not_exists, not_and, Option.not_isSome_iff_eq_none] at hnone
  obtain ⟨hclient, hmeta, hcommit, hcheckpoint⟩ := hnone
  have hstuck : Stuck mem s := by
    refine ⟨fun c => ?_, hmeta, hcommit, hcheckpoint⟩
    by_cases hidle : s.client c = .idle
    · simp [clientStep, hidle]
    · exact hclient c hidle
  obtain ⟨hcompleted, hidle⟩ := (reach_inv h).quiet_of_stuck hstuck
  rcases hbusy with hne | ⟨c, hc⟩
  · exact hne hcompleted
  · exact hc (hidle c)

theorem reachable_progress_twoRequests : ∃ s : State ℕ (Fin 2),
    exec (step fun _ => default) (initState 0) twoRequests = some s ∧ s.completed ≠ s.accepted ∧
      ((∃ c, s.client c ≠ .idle ∧ (step (fun _ => default) s (.client c)).isSome) ∨
        (step (fun _ => default) s .metaData).isSome ∨
        (step (fun _ => default) s .commit).isSome ∨
        (step (fun _ => default) s .checkpoint).isSome) := by
  have hrun : ∃ s : State ℕ (Fin 2),
      exec (step fun _ => default) (initState 0) twoRequests = some s ∧ s.accepted = [10, 20] ∧
        s.completed = [] := ⟨_, rfl, rfl, rfl⟩
  obtain ⟨s, hs, haccepted, hcompleted⟩ := hrun
  have hne : s.completed ≠ s.accepted := by simp [haccepted, hcompleted]
  exact ⟨s, hs, hne, reachable_progress (fun _ => default) 0 s (reach_of_exec hs) (.inl hne)⟩

end CS352.Journal
