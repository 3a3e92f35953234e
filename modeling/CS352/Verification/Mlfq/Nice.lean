import CS352.Verification.Mlfq.Runnable

/-! # `sys_nice` and the queues

`sys_nice` unlinks and enqueues its caller whenever the queue number it computes differs
from the recorded one. The caller is running, so it is on no queue before the call. -/

namespace CS352.Mlfq

open Transition

/-- What the call should keep: well-formed queues, every runnable process on exactly one
of them, and the running caller on none. -/
def KeepsQueues (k k' : Kernel) (p : ℕ) : Prop :=
  ∃ L, WellFormed k'.qtable L ∧
    (∀ x < nproc, (k.proc x).state = .runnable → ∃! i, x ∈ L i) ∧ ∀ i, p ∉ L i

/-- `sys_nice` leaves the queues alone exactly when the number it computes from the new
nice value is the recorded queue number. -/
def LeavesQueues (p : Proc) (inc : ℤ) : Prop := tempQueue (clampNice p.nice inc) = p.queue

instance (p : Proc) (inc : ℤ) : Decidable (LeavesQueues p inc) :=
  inferInstanceAs (Decidable (_ = _))

theorem sysNice_of_leaves {k : Kernel} {p : ℕ} {inc : ℤ} (h : LeavesQueues (k.proc p) inc) :
    (sysNice k p inc).1 = assignNice k p (clampNice (k.proc p).nice inc) := by
  have hq : tempQueue (clampNice (k.proc p).nice inc) = (k.proc p).queue := h
  simp [sysNice, assignNice, hq]

/-- Once `enqueue` has run, the tail of the assigned level points back at the caller. -/
theorem sysNice_prev_tail {k : Kernel} {p : ℕ} {inc : ℤ}
    (h : ¬ LeavesQueues (k.proc p) inc) :
    ∃ i, (sysNice k p inc).1.qtable.prev (tailQ i) = p := by
  have hq : tempQueue (clampNice (k.proc p).nice inc) ≠ (k.proc p).queue := h
  refine ⟨assignedLevel ((unlinkProc (assignNice k p (clampNice (k.proc p).nice inc)) p).proc p),
    ?_⟩
  simp [sysNice, assignNice, hq, appendTo]

/-- In a well-formed table the process before a tail is on that queue. -/
theorem WellFormed.mem_of_prev_tail {q : QTable} {L : Level → List ℕ} (h : WellFormed q L)
    {i : Level} {p : ℕ} (hp : p < nproc) (htail : q.prev (tailQ i) = p) : p ∈ L i := by
  have hmem := h.lanes.prev_tail_mem i
  rw [htail] at hmem
  rcases List.mem_cons.mp hmem with hmem | hmem
  · exact absurd hmem (ne_headQ hp i)
  · exact hmem

theorem WellFormed.existsUnique {q : QTable} {L : Level → List ℕ} (h : WellFormed q L)
    {x : ℕ} (hx : ∃ i, x ∈ L i) : ∃! i, x ∈ L i := by
  obtain ⟨i, hi⟩ := hx
  refine ⟨i, hi, ?_⟩
  intro j hj
  by_contra hji
  exact h.lanes.disjoint j i hji hj hi

/-! ## Runs with `sys_nice` -/

/-- The machine with `sys_nice inc` as a further operation of the running process. -/
def niceStep (m : Machine) : Action ⊕ ℤ → Option Machine
  | .inl a => step m a
  | .inr inc => m.cpu.map fun p => ⟨(sysNice m.kernel p inc).1, m.cpu⟩

/-- A call of `sys_nice` in `m` leaves the queues alone; other operations are free. -/
def CallsLeaveQueues (m : Machine) : Action ⊕ ℤ → Prop
  | .inl _ => True
  | .inr inc => ∀ p, m.cpu = some p → LeavesQueues (m.kernel.proc p) inc

theorem Inv.niceStep {m m' : Machine} (h : Inv m) {a : Action ⊕ ℤ}
    (ha : CallsLeaveQueues m a) (hs : niceStep m a = some m') : Inv m' := by
  cases a with
  | inl a => exact h.move (step_move hs)
  | inr inc =>
    obtain ⟨k, cpu⟩ := m
    obtain ⟨p, rfl, rfl⟩ := Option.map_eq_some_iff.mp hs
    rw [sysNice_of_leaves (ha p rfl)]
    exact h.move (.nice _)

/-- In a run all of whose calls are of this kind the queues stay exact. -/
theorem reachWhere_niceStep_queues {s m : Machine} (hboot : Booted s)
    (hreach : ReachWhere niceStep CallsLeaveQueues s m) :
    ∃ L, Queues m.kernel L ∧
      ∀ x < nproc, (∃ i, x ∈ L i) ↔ (m.kernel.proc x).state = .runnable := by
  have hinv : Inv m := hreach.invariant hboot.inv fun _ _ _ hi hc hs => hi.niceStep hc hs
  obtain ⟨L, hL, hmem⟩ := hinv.sync.queued
  exact ⟨L, hL, by simpa using hmem⟩

/-! ## Main result -/

/-- For every state with exact queues, every running caller and every increment, the call
keeps the queues if and only if the queue number it computes is the recorded one. -/
theorem sysNice_keepsQueues_iff {k : Kernel} {L : Level → List ℕ} (hL : Queues k L)
    (hmem : ∀ x < nproc, (∃ i, x ∈ L i) ↔ (k.proc x).state = .runnable) {p : ℕ}
    (hp : p < nproc) (hrun : (k.proc p).state = .running) (inc : ℤ) :
    KeepsQueues k (sysNice k p inc).1 p ↔ LeavesQueues (k.proc p) inc := by
  constructor
  · rintro ⟨L', hL', _, hoff⟩
    by_contra hmove
    obtain ⟨i, hi⟩ := sysNice_prev_tail hmove
    exact hoff i (hL'.mem_of_prev_tail hp hi)
  · intro hleave
    rw [sysNice_of_leaves hleave]
    refine ⟨L, hL.toWellFormed, ?_, ?_⟩
    · intro x hx hs
      exact hL.toWellFormed.existsUnique ((hmem x hx).mpr hs)
    · intro i hi
      have := (hmem p hp).mp ⟨i, hi⟩
      simp [hrun] at this

/-- Boot, then one pass of the scheduler. -/
def initRunning : Machine := dequeue (boostCheck (makeRunnable initKernel 0))

theorem initRunning_reachable : Reachable initRunning := by
  refine ⟨⟨makeRunnable initKernel 0, none⟩, ⟨⟨true, true, true⟩, _, rfl, rfl⟩, ?_⟩
  exact .tail (a := .schedule) .refl trivial rfl

theorem initRunning_cpu : initRunning.cpu = some 0 := by decide

theorem initRunning_proc :
    initRunning.kernel.proc 0 =
      { bootProc with pid := 1, state := .running, queue := 1 } := by decide

/-- The first process has forked three children and has yielded, and its first child runs:
`nice(-11)` computes queue 1, where the caller is recorded, and keeps the queues. -/
theorem sysNice_keepsQueues_family : ∃ m : Machine, Reachable m ∧ m.cpu = some 1 ∧
    (List.range 4).map (fun x => (m.kernel.proc x).state) =
      [.runnable, .running, .runnable, .runnable] ∧
    KeepsQueues m.kernel (sysNice m.kernel 1 (-11)).1 1 := by
  have hrun : (exec step ⟨makeRunnable initKernel 0, none⟩
      [.schedule, .fork ⟨true, true, true⟩, .fork ⟨true, true, true⟩, .fork ⟨true, true, true⟩,
        .yield, .schedule]).map (fun m : Machine =>
        (m.cpu, (List.range 4).map (fun x => (m.kernel.proc x).state),
          (m.kernel.proc 1).state, decide (LeavesQueues (m.kernel.proc 1) (-11)))) =
      some (some 1, [.runnable, .running, .runnable, .runnable], .running, true) := by
    decide +kernel
  obtain ⟨m, hm, hview⟩ := Option.map_eq_some_iff.mp hrun
  simp only [Prod.mk.injEq, decide_eq_true_eq] at hview
  obtain ⟨hcpu, hstates, hrunning, hleaves⟩ := hview
  have hreach : Reachable m := ⟨_, ⟨⟨true, true, true⟩, _, rfl, rfl⟩, reach_of_exec hm⟩
  obtain ⟨L, hL, hmem⟩ := hreach.inv.sync.queued
  exact ⟨m, hreach, hcpu, hstates, (sysNice_keepsQueues_iff hL (by simpa using hmem) (by decide)
    hrunning (-11)).mpr hleaves⟩

/-- `nice(0)` by the first process: the queues are exact before the call, and afterwards
no well-formed reading of them leaves the running caller out. -/
theorem sysNice_zero_enqueues_caller :
    Reachable initRunning ∧ initRunning.cpu = some 0 ∧
      (∃ L, Queues initRunning.kernel L ∧
        ∀ x < nproc, (∃ i, x ∈ L i) ↔ (initRunning.kernel.proc x).state = .runnable) ∧
      ¬ KeepsQueues initRunning.kernel (sysNice initRunning.kernel 0 0).1 0 := by
  obtain ⟨L, hL, hmem⟩ := initRunning_reachable.inv.sync.queued
  have hexact : ∀ x < nproc, (∃ i, x ∈ L i) ↔ (initRunning.kernel.proc x).state = .runnable := by
    simpa using hmem
  refine ⟨initRunning_reachable, initRunning_cpu, ⟨L, hL, hexact⟩, ?_⟩
  rintro ⟨L', hL', -, hoff⟩
  have hmove : ¬ LeavesQueues (initRunning.kernel.proc 0) 0 := by decide
  obtain ⟨i, hi⟩ := sysNice_prev_tail hmove
  exact hoff i (hL'.mem_of_prev_tail (by decide) hi)

end CS352.Mlfq
