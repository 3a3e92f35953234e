import CS352.Verification.Mlfq.Runnable

/-! # A process that has the processor to itself

While one process is the only runnable one and no boost is due, the scheduler runs it again
after each of its `yield` calls. -/

namespace CS352.Mlfq

open Transition

variable {k : Kernel} {p : ℕ}

/-- `p` is the only runnable process. -/
structure Solo (k : Kernel) (p : ℕ) : Prop where
  sync : Sync (fun _ => False) k
  lt : p < nproc
  runnable_iff : ∀ x, (k.proc x).state = .runnable ↔ x = p

theorem Solo.firstProcess (h : Solo k p) : firstProcess k.qtable = some p := by
  obtain ⟨L, hL, hmem⟩ := h.sync.queued
  have honly : ∀ x < nproc, (∃ i, x ∈ L i) ↔ x = p := by
    intro x hx
    rw [hmem x hx, h.runnable_iff x]
    simp
  cases hfirst : Mlfq.firstProcess k.qtable with
  | none =>
    rw [hL.toWellFormed.firstProcess_eq] at hfirst
    obtain ⟨i, hi⟩ := (honly p h.lt).mpr rfl
    fin_cases i <;> simp_all
  | some x =>
    obtain ⟨i, xs, hi, -⟩ := hL.toWellFormed.firstProcess_cons hfirst
    have hx : x ∈ L i := by simp [hi]
    rw [(honly x (hL.bound i x hx)).mp ⟨i, hx⟩]

/-- The process is switched to and calls `yield`. -/
def turn (k : Kernel) (p : ℕ) : Kernel := yield (resume (markRunning (unlinkProc k p) p) p) p

/-- The record with which `yield` calls `enqueue`. -/
def yielded (q : Proc) : Proc :=
  { q with state := .runnable, chan := .null, quanta := int (q.quanta + 1) }

theorem turn_proc : (turn k p).proc p =
    { yielded (k.proc p) with
      quanta := assignedQuanta (yielded (k.proc p))
      queue := (assignedLevel (yielded (k.proc p))).val } := by
  simp [turn, yield, resume, markRunning, unlinkProc, yielded]

theorem turn_trace : (turn k p).trace = k.trace ++ [.dispatch p] ++
    [.enqueue p (yielded (k.proc p)) (assignedLevel (yielded (k.proc p)))] := by
  simp [turn, yield, resume, markRunning, unlinkProc, yielded]

theorem turn_timeSincePriorityBoost :
    (turn k p).timeSincePriorityBoost = int (k.timeSincePriorityBoost + 1) := by
  simp [turn, yield, resume, markRunning, unlinkProc]

theorem yield_isLogging : (yield k p).isLogging = k.isLogging := by
  simp only [yield, enqueue_eq, insertInto, ensureQueue]
  split <;> rfl

theorem turn_isLogging : (turn k p).isLogging = k.isLogging := yield_isLogging

theorem afterSwitch_turn (h : k.isLogging = false) : afterSwitch (turn k p) p = turn k p := by
  simp [afterSwitch, turn_isLogging, h]

theorem Solo.turn (h : Solo k p) : Solo (turn k p) p := by
  obtain ⟨-, -, -, hsync⟩ := h.sync.unlinkProc h.firstProcess
  refine ⟨?_, h.lt, ?_⟩
  · have hready := (hsync.markRunning (.inl rfl)).resume (x := p)
    exact (hready.yield h.lt (by simp [resume, markRunning])).of_iff (by grind)
  · intro x
    by_cases hx : x = p
    · simp [Mlfq.turn, yield, hx]
    · simp [Mlfq.turn, yield, resume, markRunning, unlinkProc, hx, h.runnable_iff x]

theorem enqueueRunnable_only {xs : List ℕ} (hnodup : xs.Nodup)
    (honly : ∀ x, (k.proc x).state = .runnable ↔ x = p) :
    enqueueRunnable k xs = if p ∈ xs then enqueue k p else k := by
  induction xs generalizing k with
  | nil => rfl
  | cons x xs ih =>
    obtain ⟨hx, hxs⟩ := List.nodup_cons.mp hnodup
    rw [enqueueRunnable_cons]
    by_cases hxp : x = p
    · subst x
      have honly' : ∀ y, ((enqueue k p).proc y).state = .runnable ↔ y = p := by
        intro y
        rw [← honly y]
        by_cases hyp : y = p <;> simp [hyp]
      rw [if_pos ((honly p).mpr rfl), ih hxs honly', if_neg hx, if_pos (by simp)]
    · rw [if_neg fun hs => hxp ((honly x).mp hs), ih hxs honly]
      simp [Ne.symm hxp]

/-- The boost finds one process to enqueue. -/
theorem Solo.priorityBoost_eq (h : Solo k p) : Mlfq.priorityBoost k =
    { enqueue { k.record .boost with qtable := setupQueue k.qtable } p with
      timeSincePriorityBoost := 0 } := by
  have hloop := enqueueRunnable_only (k := { k.record .boost with qtable := setupQueue k.qtable })
    (List.nodup_range (n := nproc)) h.runnable_iff
  rw [if_pos (List.mem_range.mpr h.lt)] at hloop
  rw [← hloop]
  rfl

theorem Solo.priorityBoost (h : Solo k p) {k' : Kernel}
    (hset : k'.isQueueSetup = k.isQueueSetup)
    (hs : ∀ x, (k'.proc x).state = (k.proc x).state) : Solo (priorityBoost k') p := by
  refine ⟨sync_priorityBoost (hset.trans h.sync.setup), h.lt, ?_⟩
  intro x
  rw [priorityBoost_state, hs, h.runnable_iff]

/-! ## Turn after turn -/

/-- `n` turns in a row. -/
def turns (k : Kernel) (p n : ℕ) : Kernel := (turn · p)^[n] k

theorem turns_succ (n : ℕ) : turns k p (n + 1) = turns (turn k p) p n := rfl

theorem turns_add (m n : ℕ) : turns k p (m + n) = turns (turns k p m) p n := by
  rw [Nat.add_comm]
  exact Function.iterate_add_apply _ n m k

theorem turns_concat (n : ℕ) : turns k p (n + 1) = turn (turns k p n) p := by
  rw [turns_add]
  rfl

theorem Solo.turns (h : Solo k p) (n : ℕ) : Solo (turns k p n) p := by
  induction n generalizing k with
  | zero => exact h
  | succ n ih => exact ih h.turn

theorem turns_timeSincePriorityBoost {n : ℕ} (h : 0 ≤ k.timeSincePriorityBoost)
    (hn : k.timeSincePriorityBoost + n < 2 ^ 31) :
    (turns k p n).timeSincePriorityBoost = k.timeSincePriorityBoost + n := by
  induction n generalizing k with
  | zero => simp [turns]
  | succ n ih =>
    push_cast at hn ⊢
    have hturn : (turn k p).timeSincePriorityBoost = k.timeSincePriorityBoost + 1 :=
      turn_timeSincePriorityBoost.trans (int_of_small (by omega) (by omega))
    rw [turns_succ, ih (by omega) (by omega), hturn]
    omega

theorem turns_isLogging (n : ℕ) : (turns k p n).isLogging = k.isLogging := by
  induction n generalizing k with
  | zero => rfl
  | succ n ih => exact ih.trans turn_isLogging

/-- A pass of the scheduler runs the process, which calls `yield`. -/
theorem Solo.exec_turn (h : Solo k p) (hlog : k.isLogging = false)
    (htime : k.timeSincePriorityBoost ≤ 60) :
    exec step ⟨k, none⟩ [.schedule, .yield] = some ⟨Mlfq.turn k p, none⟩ := by
  have hcheck : boostCheck k = k := if_neg (by omega)
  have hswitch : afterSwitch (yield (resume (markRunning (unlinkProc k p) p) p) p) p =
      Mlfq.turn k p := afterSwitch_turn hlog
  simp [exec, step, hcheck, dequeue, h.firstProcess, sched, hswitch]

theorem Solo.exec_turns {n : ℕ} (h : Solo k p) (hlog : k.isLogging = false)
    (hstart : 0 ≤ k.timeSincePriorityBoost) (htime : k.timeSincePriorityBoost + n ≤ 61) :
    exec step ⟨k, none⟩ (List.replicate n [.schedule, .yield]).flatten =
      some ⟨Mlfq.turns k p n, none⟩ := by
  refine exec_replicate (f := fun j => (⟨Mlfq.turns k p j, none⟩ : Machine)) ?_
  intro j hj
  have hnow := turns_timeSincePriorityBoost (p := p) (n := j) hstart (by omega)
  rw [turns_concat]
  exact (h.turns j).exec_turn ((turns_isLogging j).trans hlog) (by omega)

theorem Solo.priorityBoost_fields (h : Solo k p) :
    (Mlfq.priorityBoost k).timeSincePriorityBoost = 0 ∧
      (Mlfq.priorityBoost k).isLogging = k.isLogging := by
  rw [h.priorityBoost_eq, enqueue_eq]
  exact ⟨rfl, rfl⟩

/-- The same when the first pass starts with a boost. -/
theorem Solo.exec_boost_turns {n : ℕ} (h : Solo k p) (hlog : k.isLogging = false)
    (htime : k.timeSincePriorityBoost > 60) (hn : n < 61) :
    exec step ⟨k, none⟩ (List.replicate (n + 1) [.schedule, .yield]).flatten =
      some ⟨Mlfq.turns (Mlfq.priorityBoost k) p (n + 1), none⟩ := by
  obtain ⟨hzero, hlog'⟩ := h.priorityBoost_fields
  have hsolo : Solo (Mlfq.priorityBoost k) p := h.priorityBoost rfl fun _ => rfl
  have hturns := hsolo.exec_turns (n := n + 1) (hlog'.trans hlog) (by omega) (by omega)
  have hcheck : boostCheck k = Mlfq.priorityBoost k := if_pos htime
  have hcheck' : boostCheck (Mlfq.priorityBoost k) = Mlfq.priorityBoost k :=
    if_neg (by omega)
  rw [← hturns, List.replicate_succ, List.flatten_cons]
  simp only [List.cons_append, exec, step, if_true, hcheck, hcheck']

theorem solo_boot : Solo (makeRunnable initKernel 0) 0 := by
  have hboot : Booted ⟨makeRunnable initKernel 0, none⟩ := ⟨⟨true, true, true⟩, _, rfl, rfl⟩
  refine ⟨hboot.inv.sync, by decide, ?_⟩
  intro x
  by_cases hx : x = 0 <;> simp [hx, initKernel_state]

end CS352.Mlfq
