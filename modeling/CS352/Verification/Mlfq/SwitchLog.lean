import CS352.Library.Recorder
import CS352.Model.Mlfq.Logging
import CS352.Verification.Mlfq.Runnable

/-! # The log of context switches

`dequeue` offers the process that has switched back to a recorder of capacity `LOG_SIZE`;
no other operation touches the log. -/

namespace CS352.Mlfq

open Transition

variable {k k' : Kernel} {p x : ℕ}

/-! ## Operations that leave the log alone -/

/-- The globals of the log. -/
def Kernel.switchLog (k : Kernel) : (ℤ → LogEntry) × ℤ × Bool × ℤ :=
  (k.schedlog, k.numLogged, k.isLogging, k.time)

@[simp] theorem setProc_switchLog (q : Proc) : (k.setProc x q).switchLog = k.switchLog := rfl
@[simp] theorem freeproc_switchLog : (freeproc k x).switchLog = k.switchLog := rfl
@[simp] theorem sleep_switchLog (chan : Chan) : (sleep k x chan).switchLog = k.switchLog := rfl
@[simp] theorem assignNice_switchLog (v : ℤ) :
    (assignNice k x v).switchLog = k.switchLog := rfl

@[simp] theorem enqueue_switchLog : (enqueue k x).switchLog = k.switchLog := by
  rw [enqueue_eq]
  rfl

@[simp] theorem ensureQueue_switchLog : (ensureQueue k).switchLog = k.switchLog := by
  unfold ensureQueue
  split <;> rfl

@[simp] theorem makeRunnable_switchLog : (makeRunnable k x).switchLog = k.switchLog := by
  simp [makeRunnable]

@[simp] theorem yield_switchLog : (yield k x).switchLog = k.switchLog := by
  have hready : (ensureQueue (k.setProc x { k.proc x with state := .runnable })).switchLog =
      k.switchLog := by simp
  exact enqueue_switchLog.trans hready

theorem foldl_switchLog {f : Kernel → ℕ → Kernel} (h : ∀ k x, (f k x).switchLog = k.switchLog)
    (xs : List ℕ) (k : Kernel) : (xs.foldl f k).switchLog = k.switchLog := by
  induction xs generalizing k with
  | nil => rfl
  | cons x xs ih => rw [List.foldl_cons, ih, h]

@[simp] theorem wakeup_switchLog (me : Option ℕ) (chan : Chan) :
    (wakeup k me chan).switchLog = k.switchLog := by
  refine foldl_switchLog ?_ _ k
  intro k x
  split
  · exact makeRunnable_switchLog
  · rfl

@[simp] theorem kill_switchLog (pid : ℤ) : (kill k pid).1.switchLog = k.switchLog := by
  unfold kill
  split
  · rfl
  · dsimp only
    split <;> simp

@[simp] theorem allocproc_switchLog (mem : Memory) :
    (allocproc k mem).1.switchLog = k.switchLog := by
  unfold allocproc
  split
  · rfl
  · dsimp only
    split
    · rfl
    · split <;> rfl

theorem userinit_switchLog {mem : Memory} (h : userinit k mem = some k') :
    k'.switchLog = k.switchLog := by
  unfold userinit at h
  have halloc := allocproc_switchLog (k := k) mem
  generalize allocproc k mem = r at h halloc
  obtain ⟨k₁, slot⟩ := r
  cases slot with
  | none => simp at h
  | some x =>
    simp only [Option.some.injEq] at h
    subst h
    exact makeRunnable_switchLog.trans halloc

@[simp] theorem fork_switchLog (mem : Memory) : (fork k p mem).1.switchLog = k.switchLog := by
  unfold fork
  have halloc := allocproc_switchLog (k := k) mem
  generalize allocproc k mem = r at halloc
  obtain ⟨k₁, slot⟩ := r
  cases slot with
  | none => exact halloc
  | some x =>
    dsimp only
    split
    · simpa using halloc
    · simpa using halloc

@[simp] theorem reparent_switchLog : (reparent k p).switchLog = k.switchLog := by
  refine foldl_switchLog ?_ _ k
  intro k x
  split <;> simp

theorem exit_switchLog {status : ℤ} (h : exit k p status = some k') :
    k'.switchLog = k.switchLog := by
  unfold exit at h
  split at h
  · cases h
  · simp only [Option.some.injEq] at h
    subst h
    simp

@[simp] theorem wait_switchLog (addr : ℕ) (copyoutOk : Bool) :
    (wait k p addr copyoutOk).1.switchLog = k.switchLog := by
  unfold wait
  split
  · split <;> simp
  · dsimp only
    split <;> simp

@[simp] theorem boostCheck_switchLog : (boostCheck k).switchLog = k.switchLog := by
  unfold boostCheck
  split
  · refine priorityBoost_keep (P := fun k₁ => k₁.switchLog = k.switchLog) rfl ?_ fun _ h => h
    intro k₁ x _ h
    simpa using h
  · rfl

/-! ## The log as a recorder -/

/-- `schedlog[0..num_logged)`. -/
def Kernel.logged (k : Kernel) : List LogEntry := Recorder.entries k.schedlog k.numLogged

/-- The stores of one entry. -/
def storeEntry (k : Kernel) (n : ℤ) (e : LogEntry) : Kernel :=
  { k.setEntry n e with numLogged := int (n + 1) }

/-- The test and the assignments of `dequeue` after `is_logging`. -/
def offer (k : Kernel) (pid : ℤ) : Kernel :=
  if (k.numLogged = 0 ∨ (k.schedlog (k.numLogged - 1)).pid ≠ pid) ∧ k.numLogged < logSize then
    storeEntry k k.numLogged ⟨pid, k.time⟩
  else k

theorem afterSwitch_eq_offer (k : Kernel) (i : ℕ) :
    afterSwitch k i = if k.isLogging then offer k (k.proc i).pid else k := by
  by_cases hlog : k.isLogging
  · rw [afterSwitch, if_pos hlog, offer]
    simp only [hlog, true_and, storeEntry, Kernel.setEntry]
  · rw [afterSwitch, if_neg fun h => hlog h.1, if_neg hlog]

theorem storeEntry_logged (h0 : 0 ≤ k.numLogged) (hlt : k.numLogged < logSize) (e : LogEntry) :
    (storeEntry k k.numLogged e).numLogged = k.numLogged + 1 ∧
      (storeEntry k k.numLogged e).logged = k.logged ++ [e] := by
  have hint : int (k.numLogged + 1) = k.numLogged + 1 := by
    unfold logSize at hlt
    exact int_of_small (by omega) (by omega)
  refine ⟨hint, ?_⟩
  dsimp only [Kernel.logged, storeEntry, Kernel.setEntry]
  rw [hint, Recorder.entries_update h0]

/-- The entry is offered to a recorder of capacity `LOG_SIZE`. -/
theorem offer_logged (h0 : 0 ≤ k.numLogged) (pid : ℤ) :
    (offer k pid).logged = Recorder.record OtherPid 100 k.logged ⟨pid, k.time⟩ := by
  have hlogged : k.logged = Recorder.entries k.schedlog k.numLogged := rfl
  rw [hlogged, Recorder.record_entries 100 h0, offer]
  split
  · rename_i htest
    rw [(storeEntry_logged h0 htest.2 _).2, Recorder.entries_update h0]
    exact (if_pos htest).symm
  · rename_i htest
    exact (if_neg htest).symm

/-! ## What holds along a run -/

/-- `D` lists the entries that were offered while logging was on, `ticks` counts the timer
interrupts and `calls` lists the results of `sys_startlog`. -/
structure LogGood (k : Kernel) (D : List LogEntry) (ticks : ℕ) (calls : List ℤ) : Prop where
  nonneg : 0 ≤ k.numLogged
  le : k.numLogged ≤ logSize
  logged : k.logged = (D.destutter OtherPid).take 100
  time : ticks < 2 ^ 31 → k.time = ticks
  sorted : ticks < 2 ^ 31 → D.Pairwise (fun a b => a.time ≤ b.time) ∧ ∀ e ∈ D, e.time ≤ ticks
  calls : (k.isLogging = false ∧ calls = []) ∨
    (k.isLogging = true ∧ ∃ n, calls = 0 :: List.replicate n (-1))

variable {D : List LogEntry} {ticks : ℕ} {calls : List ℤ}

theorem LogGood.congr (h : LogGood k D ticks calls) (hk : k'.switchLog = k.switchLog) :
    LogGood k' D ticks calls := by
  simp only [Kernel.switchLog, Prod.mk.injEq] at hk
  obtain ⟨hlog, hnum, his, htime⟩ := hk
  refine ⟨?_, ?_, ?_, ?_, h.sorted, ?_⟩
  · rw [hnum]
    exact h.nonneg
  · rw [hnum]
    exact h.le
  · rw [Kernel.logged, hlog, hnum]
    exact h.logged
  · rw [htime]
    exact h.time
  · rw [his]
    exact h.calls

theorem LogGood.offer (h : LogGood k D ticks calls) (pid : ℤ) :
    LogGood (offer k pid) (D ++ [⟨pid, k.time⟩]) ticks calls := by
  have hlogged : (Mlfq.offer k pid).logged =
      ((D ++ [LogEntry.mk pid k.time]).destutter OtherPid).take 100 := by
    rw [offer_logged h.nonneg, h.logged, Recorder.record_take_destutter]
  have hsorted : ticks < 2 ^ 31 →
      (D ++ [LogEntry.mk pid k.time]).Pairwise (fun a b => a.time ≤ b.time) ∧
      ∀ e ∈ D ++ [LogEntry.mk pid k.time], e.time ≤ ticks := by
    intro hticks
    obtain ⟨hsorted, hbound⟩ := h.sorted hticks
    rw [h.time hticks]
    refine ⟨List.pairwise_append.mpr ⟨hsorted, List.pairwise_singleton _ _, ?_⟩, ?_⟩
    · intro a ha b hb
      obtain rfl := List.mem_singleton.mp hb
      exact hbound a ha
    · intro e he
      rcases List.mem_append.mp he with he | he
      · exact hbound e he
      · obtain rfl := List.mem_singleton.mp he
        exact le_rfl
  unfold Mlfq.offer at hlogged ⊢
  split
  · rename_i htest
    rw [if_pos htest] at hlogged
    have hnum := (storeEntry_logged h.nonneg htest.2 ⟨pid, k.time⟩).1
    have h0 := h.nonneg
    have hlt := htest.2
    exact ⟨by omega, by omega, hlogged, h.time, hsorted, h.calls⟩
  · rename_i htest
    rw [if_neg htest] at hlogged
    exact ⟨h.nonneg, h.le, hlogged, h.time, hsorted, h.calls⟩

theorem LogGood.startlog (h : LogGood k D ticks calls) :
    LogGood (sysStartlog k).1 D ticks (calls ++ [(sysStartlog k).2]) := by
  unfold sysStartlog
  rcases h.calls with ⟨hoff, hcalls⟩ | ⟨hon, n, hcalls⟩
  · simp only [hoff, Bool.false_eq_true, if_false]
    exact ⟨h.nonneg, h.le, h.logged, h.time, h.sorted, .inr ⟨rfl, 0, by simp [hcalls]⟩⟩
  · simp only [hon, if_true]
    refine ⟨h.nonneg, h.le, h.logged, h.time, h.sorted, .inr ⟨hon, n + 1, ?_⟩⟩
    rw [hcalls, List.replicate_succ']
    rfl

theorem LogGood.tick (h : LogGood k D ticks calls) :
    LogGood { k with time := int (k.time + 1) } D (ticks + 1) calls := by
  refine ⟨h.nonneg, h.le, h.logged, ?_, ?_, h.calls⟩
  · intro hticks
    have hnow : int ((ticks : ℤ) + 1) = ticks + 1 := int_of_small (by omega) (by omega)
    dsimp only
    rw [h.time (by omega), hnow]
    push_cast
    rfl
  · intro hticks
    obtain ⟨hsorted, hbound⟩ := h.sorted (by omega)
    refine ⟨hsorted, ?_⟩
    intro e he
    have := hbound e he
    omega

theorem logGood_boot {mem : Memory} (h : userinit bootKernel mem = some k) :
    LogGood k [] 0 [] := by
  have hboot : LogGood bootKernel [] 0 [] :=
    ⟨le_rfl, by decide, rfl, fun _ => rfl, fun _ => ⟨.nil, by simp⟩, .inl ⟨rfl, rfl⟩⟩
  exact hboot.congr (userinit_switchLog h)

end CS352.Mlfq
