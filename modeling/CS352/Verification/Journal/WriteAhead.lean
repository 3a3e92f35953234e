import CS352.Verification.Journal.Trace

/-! # The write-ahead rule

A request's checkpoint writes may be issued only when its whole journal transaction has
been reported complete. `journal_txe_complete` does nothing, so thread 2 hands a request
over without waiting for it, and the rule holds only for runs in which it happens to wait. -/

namespace CS352.Journal

open Transition History

variable {Ptr Client : Type*}

/-! ## The rule -/

/-- A checkpoint write that is the `k`-th of its kind, counting from 0, comes after
`journal_txe_complete` of the `k`-th commit block and after the other completions of the
same request's journal transaction. -/
def WriteAhead (pre : List (Event Ptr)) (ev : Event Ptr) : Prop :=
  ∀ wr c, ev = .call wr c → c.kind = .writeBitmap ∨ c.kind = .writeInode →
    .journalTxeComplete (calls c.kind pre).length ∈ pre ∧
    ∀ cb ∈ [Callback.journalTxbComplete, .journalBitmapComplete, .journalInodeComplete],
      (callbacks cb pre)[(calls c.kind pre).length]? = some wr

/-- Thread 2 puts a request into the commit buffer only when no completion thread of
`issue_journal_txe` is pending. -/
def CommitWaits (s : State Ptr Client) (a : Action Ptr Client) : Prop :=
  a = .commit → ∀ wr, s.commit = .enqueue wr → s.pending = []

/-! ## The invariant -/

structure WriteAheadInv (s : State Ptr Client) : Prop where
  completed : ∀ k < s.commits, k ∈ s.pending ∨ .journalTxeComplete k ∈ s.trace
  pending_ge : ∀ k ∈ s.pending, s.handedOver.length ≤ k
  writeAhead : Guarded WriteAhead s.trace

variable {mem : Ptr → WriteRequest} {s s' : State Ptr Client} {a : Action Ptr Client}

theorem writeAhead_callback (pre : List (Event Ptr)) (wr : Ptr) (cb : Callback) :
    WriteAhead pre (.callback wr cb) := by
  intro wr' c h
  cases h

theorem State.handedOver_prefix_done (s : State Ptr Client) :
    s.handedOver <+: s.done .journalTxe :=
  List.prefix_append _ _

/-- A request that thread 2 has handed over is committed, and its completion thread is
not pending. -/
theorem WriteAheadInv.journalTxeComplete_mem (h : WriteAheadInv s) (ht : TraceInv mem s) {k : ℕ}
    (hk : k < s.handedOver.length) : .journalTxeComplete k ∈ s.trace := by
  have hcommits : k < s.commits := by
    rw [ht.commits_eq]
    exact hk.trans_le s.handedOver_prefix_done.length_le
  rcases h.completed k hcommits with hpending | hmem
  · exact absurd (h.pending_ge k hpending) (by omega)
  · exact hmem

theorem WriteAheadInv.call (h : WriteAheadInv s) (ht : TraceInv mem s) {κ : Kind} {wr : Ptr}
    (earlier : ∀ κ', κ'.index < κ.index → s.done κ ++ [wr] <+: s.done κ')
    (checkpoint : 4 < κ.index → s.done κ ++ [wr] <+: s.handedOver) :
    WriteAhead s.trace (.call wr (κ.call (mem wr))) := by
  intro wr' c hev hκ
  cases hev
  rw [Kind.kind_call] at hκ ⊢
  have hindex : 4 < κ.index := by rcases hκ with rfl | rfl <;> decide
  have hlen : (s.done κ).length < s.handedOver.length := by
    have hle := (checkpoint hindex).length_le
    simp only [List.length_append, List.length_singleton] at hle
    omega
  rw [ht.length_calls]
  refine ⟨h.journalTxeComplete_mem ht hlen, ?_⟩
  intro cb hcb
  have hcbκ : cb.kind.index < κ.index := by
    have hjournal : cb.kind.index ≤ 3 := by
      simp only [List.mem_cons, List.not_mem_nil, or_false] at hcb
      rcases hcb with rfl | rfl | rfl <;> decide
    omega
  obtain ⟨rest, hrest⟩ := earlier cb.kind hcbκ
  rw [ht.callbacks_eq, ← hrest]
  simp

theorem WriteAheadInv.effect (h : WriteAheadInv s) (ht : TraceInv mem s)
    (hwait : CommitWaits s a) (he : Effect mem s a s') : WriteAheadInv s' := by
  cases he with
  | silent trace commits pending done rest handedOver =>
    constructor
    · rw [trace, commits, pending]
      exact h.completed
    · rw [pending]
      rcases handedOver with hsame | ⟨ha, wr, hwr⟩
      · rw [hsame]
        exact h.pending_ge
      · simp [hwait ha wr hwr]
    · rw [trace]
      exact h.writeAhead
  | complete k trace commits pending done rest handedOver =>
    constructor
    · intro j hj
      rw [commits] at hj
      rw [trace, pending]
      by_cases hjk : j = k
      · exact Or.inr (by simp [hjk])
      · rcases h.completed j hj with hpending | hmem
        · exact Or.inl ((List.mem_erase_of_ne hjk).mpr hpending)
        · exact Or.inr (List.mem_append_left _ hmem)
    · rw [pending, handedOver]
      exact fun j hj => h.pending_ge j (List.mem_of_mem_erase hj)
    · rw [trace]
      refine h.writeAhead.concat ?_
      intro wr c hev
      cases hev
  | call κ wr trace commits pending done others earlier blocked handedOver checkpoint =>
    constructor
    · intro j hj
      rw [trace, pending]
      rw [commits] at hj
      by_cases hκ : κ = .journalTxe
      · rw [if_pos hκ] at hj ⊢
        rcases Nat.lt_succ_iff_lt_or_eq.mp hj with hlt | rfl
        · rcases h.completed j hlt with hpending | hmem
          · exact Or.inl (List.mem_append_left _ hpending)
          · exact Or.inr (List.mem_append_left _ hmem)
        · exact Or.inl (by simp)
      · rw [if_neg hκ] at hj ⊢
        rcases h.completed j hj with hpending | hmem
        · exact Or.inl hpending
        · exact Or.inr (List.mem_append_left _ hmem)
    · rw [pending, handedOver]
      split
      · intro j hj
        rcases List.mem_append.mp hj with hold | hnew
        · exact h.pending_ge j hold
        · rw [List.mem_singleton.mp hnew, ht.commits_eq]
          exact s.handedOver_prefix_done.length_le
      · exact h.pending_ge
    · have hsplit : s.trace ++ issued mem κ wr =
          s.trace ++ [.call wr (κ.call (mem wr))] ++ κ.callbacks.map (.callback wr) := by
        simp [issued]
      rw [trace, hsplit]
      refine (h.writeAhead.concat (h.call ht earlier checkpoint)).append ?_
      intro ev hev pre
      obtain ⟨cb, -, rfl⟩ := List.mem_map.mp hev
      exact writeAhead_callback pre wr cb

theorem writeAheadInv_initState (null : Ptr) :
    WriteAheadInv (initState null : State Ptr Client) where
  completed := by simp [initState]
  pending_ge := by simp [initState]
  writeAhead := guarded_nil

/-! ## Main result -/

variable [Fintype Client] [DecidableEq Client]

/-- In every run in which thread 2 waits for the completion of the commit block before it
hands a request over, no checkpoint write precedes the completion of its journal
transaction. -/
theorem reachWhere_writeAhead (mem : Ptr → WriteRequest) (null : Ptr) (s : State Ptr Client)
    (h : ReachWhere (step mem) CommitWaits (initState null) s) : Guarded WriteAhead s.trace := by
  have hall : Inv s ∧ TraceInv mem s ∧ WriteAheadInv s := by
    refine h.invariant (I := fun s => Inv s ∧ TraceInv mem s ∧ WriteAheadInv s)
      ⟨inv_initState null, traceInv_initState null, writeAheadInv_initState null⟩ ?_
    rintro t a u ⟨hinv, htrace, hahead⟩ hwait hs
    have heffect := step_effect hinv hs
    exact ⟨hinv.step hs, htrace.effect heffect, hahead.effect htrace hwait heffect⟩
  exact hall.2.2.writeAhead

/-- One request goes through the whole service; its completion thread runs at once. -/
def waitingRun : List (Action ℕ (Fin 1)) :=
  .request 0 10 :: List.replicate 5 (.client 0) ++ List.replicate 14 .metaData ++
    List.replicate 4 .commit ++ .txeComplete 0 :: List.replicate 7 .commit ++
    List.replicate 8 .checkpoint

theorem reachWhere_writeAhead_waitingRun : ∃ s : State ℕ (Fin 1),
    exec (step fun _ => default) (initState 0) waitingRun = some s ∧ s.completed = [10] ∧
      Guarded WriteAhead s.trace := by
  have hrun : ∃ s : State ℕ (Fin 1),
      exec (fun s a => if a = .commit → s.pending = [] then step (fun _ => default) s a else none)
        (initState 0) waitingRun = some s ∧
      exec (step fun _ => default) (initState 0) waitingRun = some s ∧ s.completed = [10] :=
    ⟨_, rfl, rfl, rfl⟩
  obtain ⟨s, hwait, hs, hcompleted⟩ := hrun
  have hreach : ReachWhere (step fun _ => default) CommitWaits (initState 0) s :=
    (reachWhere_of_exec hwait).mono fun u a hua ha _ _ => hua ha
  exact ⟨s, hs, hcompleted, reachWhere_writeAhead (fun _ => default) 0 s hreach⟩

/-- The same request, with a completion thread that is still asleep when thread 3 issues
the first checkpoint write. -/
def unwaitedRun : List (Action ℕ (Fin 1)) :=
  .request 0 10 :: List.replicate 5 (.client 0) ++ List.replicate 14 .metaData ++
    List.replicate 11 .commit ++ List.replicate 4 .checkpoint

theorem unwaitedRun_not_writeAhead : ∃ s : State ℕ (Fin 1),
    exec (step fun _ => default) (initState 0) unwaitedRun = some s ∧ s.pending = [0] ∧
      ¬ Guarded WriteAhead s.trace := by
  have hrun : ∃ s : State ℕ (Fin 1),
      exec (step fun _ => default) (initState 0) unwaitedRun = some s ∧ s.pending = [0] ∧
        s.trace = issued (fun _ => default) .writeData 10 ++
          issued (fun _ => default) .journalTxb 10 ++
          issued (fun _ => default) .journalBitmap 10 ++
          issued (fun _ => default) .journalInode 10 ++
          issued (fun _ => default) .journalTxe 10 ++
          issued (fun _ => default) .writeBitmap 10 := ⟨_, rfl, rfl, rfl⟩
  obtain ⟨s, hs, hpending, htrace⟩ := hrun
  refine ⟨s, hs, hpending, fun hguarded => ?_⟩
  obtain ⟨hmem, -⟩ := hguarded _ _ [.callback 10 .writeBitmapComplete] htrace 10 _ rfl (.inl rfl)
  revert hmem
  decide

end CS352.Journal
