import CS352.Verification.Mlfq.Table

/-! # The priority boost as a fresh start

The boost throws the links away and enqueues the runnable processes in the order of the
process table. Each of them has been through `enqueue` with its present nice value, so
`enqueue` finds no quanta beyond the allotment and puts it on the level of that value. -/

namespace CS352.Mlfq

open Transition

variable {k : Kernel}

/-- The runnable processes by the level that their nice values select, in the order of the
process table. -/
def niceLists (k : Kernel) (i : Level) : List ℕ :=
  (List.range nproc).filter fun x =>
    (k.proc x).state = .runnable ∧ niceLevel (k.proc x).nice = i

/-- The boost puts every runnable process of a table in order on its nice level. -/
theorem TableInv.boosted_eq (h : TableInv k) : boosted k (List.range nproc) = niceLists k := by
  funext i
  refine List.filter_congr ?_
  intro x _
  by_cases hs : (k.proc x).state = .runnable
  · simp [hs, assignedLevel_of_not_exceeds ((h x).settled hs)]
  · simp [hs]

/-- What the boost should make of `k`. -/
structure Rebuilt (k k' : Kernel) : Prop where
  queues : Queues k' (niceLists k)
  /-- Every other process is marked. -/
  others : ∀ x < nproc, (k.proc x).state ≠ .runnable → k'.qtable.queue x = empty
  /-- No process is below its nice level. -/
  level : ∀ x < nproc, (k.proc x).state = .runnable →
    (k'.proc x).queue = (niceLevel (k'.proc x).nice).val
  kept : ∀ x, (k'.proc x).state = (k.proc x).state ∧ (k'.proc x).nice = (k.proc x).nice
  restarted : k'.timeSincePriorityBoost = 0

/-- The boost needs nothing of the queue table. -/
theorem TableInv.rebuilt (h : TableInv k) (q : QTable) :
    Rebuilt k (priorityBoost { k with qtable := q }) := by
  obtain ⟨hqueues, hproc, -, -⟩ := priorityBoost_spec { k with qtable := q }
  have hlists : boosted { k with qtable := q } (List.range nproc) = niceLists k := h.boosted_eq
  rw [hlists] at hqueues
  refine ⟨hqueues, ?_, ?_, ?_, rfl⟩
  · intro x hx hs
    refine hqueues.unqueued x hx ?_
    intro i hi
    simp only [niceLists, List.mem_filter, decide_eq_true_eq] at hi
    exact hs hi.2.1
  · intro x hx hs
    have hrecord := hproc x
    rw [if_pos ⟨hx, hs⟩] at hrecord
    rw [hrecord]
    exact congrArg (fun l : Level => (l.val : ℤ))
      (assignedLevel_of_not_exceeds ((h x).settled hs))
  · intro x
    rw [hproc x]
    split <;> exact ⟨rfl, rfl⟩

/-- For every reachable process table and whatever the queue table holds, the boost branch
of the scheduler rebuilds the queues from the nice values. -/
theorem priorityBoost_rebuilds (h : TableReachable k) (q : QTable) :
    Rebuilt k (priorityBoost { k with qtable := q }) :=
  h.inv.rebuilt q

/-- Four processes that have taken turns with different nice values, and every link of the
table points at slot 7. -/
theorem priorityBoost_rebuilds_family : ∃ k, TableReachable k ∧
    (List.range 4).map (fun x => ((k.proc x).state, (k.proc x).nice, (k.proc x).quanta)) =
      [(.runnable, 15, 1), (.runnable, 0, 2), (.runnable, -15, 1), (.runnable, 0, 0)] ∧
    niceLists k 0 = [0] ∧ niceLists k 1 = [1, 3] ∧ niceLists k 2 = [2] ∧
    Rebuilt k (priorityBoost { k with qtable := ⟨fun _ => 7, fun _ => 7, fun _ => 7⟩ }) := by
  have hrun : (exec tableStep (makeRunnable initKernel 0)
      [.dispatch 0, .fork 0 ⟨true, true, true⟩, .fork 0 ⟨true, true, true⟩,
        .fork 0 ⟨true, true, true⟩, .nice 0 15, .yield 0, .dispatch 1, .yield 1, .dispatch 1,
        .yield 1, .dispatch 2, .nice 2 (-15), .yield 2]).map (fun k =>
      ((List.range 4).map (fun x => ((k.proc x).state, (k.proc x).nice, (k.proc x).quanta)),
        niceLists k 0, niceLists k 1, niceLists k 2)) =
      some ([(.runnable, 15, 1), (.runnable, 0, 2), (.runnable, -15, 1), (.runnable, 0, 0)],
        [0], [1, 3], [2]) := by
    decide +kernel
  obtain ⟨k, hk, hview⟩ := Option.map_eq_some_iff.mp hrun
  simp only [Prod.mk.injEq] at hview
  have hreach : TableReachable k := ⟨⟨true, true, true⟩, _, rfl, reach_of_exec hk⟩
  exact ⟨k, hreach, hview.1, hview.2.1, hview.2.2.1, hview.2.2.2,
    priorityBoost_rebuilds hreach _⟩

end CS352.Mlfq
