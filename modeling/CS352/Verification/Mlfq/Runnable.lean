import CS352.Library.Transition
import CS352.Verification.Mlfq.Operations
import CS352.Verification.Mlfq.Queues

/-! # The queues hold exactly the runnable processes -/

namespace CS352.Mlfq

open Transition Function

/-! ## States that updates leave alone -/

/-- An update leaves the state of a process alone, or the process was neither running
nor runnable and does not run now. -/
theorem Update.state {k k' : Kernel} (h : Update k k') (x : ℕ) :
    (k'.proc x).state = (k.proc x).state ∨
      ((k.proc x).state ≠ .running ∧ (k.proc x).state ≠ .runnable ∧
        (k'.proc x).state ≠ .running) := by
  cases h with
  | start y hy hs | free y hy hs =>
    by_cases hxy : x = y
    · subst x
      right
      rcases hs with hs | hs <;> simp [hs]
    · simp [hxy]
  | alloc y hy hs =>
    by_cases hxy : x = y
    · subst x
      simp [hs]
    · simp [hxy]
  | killed y =>
    left
    by_cases hxy : x = y <;> simp [hxy]
  | parent y q =>
    left
    by_cases hxy : x = y <;> simp [hxy]
  | initproc | log => exact .inl rfl

/-- No update starts, stops or preempts a running process. -/
theorem Update.running_iff {k k' : Kernel} (h : Update k k') (x : ℕ) :
    (k'.proc x).state = .running ↔ (k.proc x).state = .running := by
  rcases h.state x with heq | ⟨hbefore, _, hafter⟩
  · rw [heq]
  · exact iff_of_false hafter hbefore

theorem Update.runnable {k k' : Kernel} (h : Update k k') {x : ℕ}
    (hx : (k.proc x).state = .runnable) : (k'.proc x).state = .runnable := by
  rcases h.state x with heq | ⟨_, hne, _⟩
  · rw [heq, hx]
  · exact absurd hx hne

theorem Updates.running_iff {k k' : Kernel} (h : Updates k k') (x : ℕ) :
    (k'.proc x).state = .running ↔ (k.proc x).state = .running := by
  induction h with
  | refl => exact Iff.rfl
  | tail _ hu ih => exact (hu.running_iff x).trans ih

theorem Updates.runnable {k k' : Kernel} (h : Updates k k') {x : ℕ}
    (hx : (k.proc x).state = .runnable) : (k'.proc x).state = .runnable :=
  Updates.keep (P := fun k => (k.proc x).state = .runnable) (fun _ _ hu => hu.runnable) h hx

/-! ## The invariant of the kernel -/

/-- The queues hold the runnable processes, each once. A process in `out` is runnable
but has already been taken off by a `dequeue` that has not yet marked it. -/
structure Sync (out : ℕ → Prop) (k : Kernel) : Prop where
  setup : k.isQueueSetup = true
  queued : ∃ L, Queues k L ∧
    ∀ x < nproc, (∃ i, x ∈ L i) ↔ ((k.proc x).state = .runnable ∧ ¬ out x)
  out_runnable : ∀ x, out x → (k.proc x).state = .runnable

variable {out : ℕ → Prop} {k k' : Kernel} {x : ℕ}

/-- Only the table, the guard, and the state and queue number of each process matter. -/
theorem Sync.congr (h : Sync out k) (hq : k'.qtable = k.qtable)
    (hset : k'.isQueueSetup = k.isQueueSetup)
    (hs : ∀ y, (k'.proc y).state = .runnable ↔ (k.proc y).state = .runnable)
    (hn : ∀ y, (k.proc y).state = .runnable → (k'.proc y).queue = (k.proc y).queue) :
    Sync out k' := by
  obtain ⟨hsetup, ⟨L, hL, hmem⟩, hout⟩ := h
  refine ⟨hset.trans hsetup, ⟨L, hL.congr hq ?_, ?_⟩, ?_⟩
  · intro i y hy
    exact hn y ((hmem y (hL.bound i y hy)).mp ⟨i, hy⟩).1
  · intro y hy
    rw [hmem y hy, hs y]
  · intro y hy
    exact (hs y).mpr (hout y hy)

theorem Sync.of_iff {out' : ℕ → Prop} (h : Sync out k) (ho : ∀ y, out y ↔ out' y) :
    Sync out' k := by
  obtain rfl : out = out' := funext fun y => propext (ho y)
  exact h

/-- Replacing the record of a process that is not runnable, before and after. -/
theorem Sync.setProc (h : Sync out k) {p : Proc} (hx : (k.proc x).state ≠ .runnable)
    (hp : p.state ≠ .runnable) : Sync out (k.setProc x p) := by
  refine h.congr rfl rfl ?_ ?_
  · intro y
    by_cases hyx : y = x
    · simp [hyx, hx, hp]
    · simp [hyx]
  · intro y hy
    have hyx : y ≠ x := by
      rintro rfl
      exact hx hy
    simp [hyx]

/-- Replacing the record of a process by one with the same state and queue number. -/
theorem Sync.setProc_same (h : Sync out k) {p : Proc} (hs : p.state = (k.proc x).state)
    (hq : p.queue = (k.proc x).queue) : Sync out (k.setProc x p) := by
  refine h.congr rfl rfl ?_ ?_
  · intro y
    by_cases hyx : y = x <;> simp [hyx, hs]
  · intro y _
    by_cases hyx : y = x <;> simp [hyx, hq]

theorem mem_update_append {L : Level → List ℕ} {l : Level} {y : ℕ} :
    (∃ i, y ∈ update L l (L l ++ [x]) i) ↔ (∃ i, y ∈ L i) ∨ y = x := by
  constructor
  · rintro ⟨i, hi⟩
    by_cases hil : i = l
    · subst i
      simp only [update_self, List.mem_append, List.mem_singleton] at hi
      rcases hi with hi | hi
      · exact .inl ⟨l, hi⟩
      · exact .inr hi
    · exact .inl ⟨i, by simpa [hil] using hi⟩
  · rintro (⟨i, hi⟩ | rfl)
    · by_cases hil : i = l
      · exact ⟨l, by simp [hil ▸ hi]⟩
      · exact ⟨i, by simpa [hil] using hi⟩
    · exact ⟨l, by simp⟩

/-- A process that was not runnable has just been made so in `k'`; enqueuing it
restores the invariant. -/
theorem Sync.enqueue (h : Sync out k) (hx : x < nproc) (hs : (k.proc x).state ≠ .runnable)
    (hq : k'.qtable = k.qtable) (hset : k'.isQueueSetup = k.isQueueSetup)
    (hother : ∀ y, y ≠ x → k'.proc y = k.proc y) (hnow : (k'.proc x).state = .runnable) :
    Sync out (enqueue k' x) := by
  obtain ⟨hsetup, ⟨L, hL, hmem⟩, hout⟩ := h
  have hfresh : ∀ i, x ∉ L i := fun i hi => hs ((hmem x hx).mp ⟨i, hi⟩).1
  have hxout : ¬ out x := fun hcontra => hs (hout x hcontra)
  have hL' : Queues k' L := by
    refine hL.congr hq ?_
    intro i y hy
    rw [hother y (fun hyx => hfresh i (hyx ▸ hy))]
  refine ⟨by simp [hset, hsetup], ⟨_, hL'.enqueue hx hfresh, ?_⟩, ?_⟩
  · intro y hy
    rw [mem_update_append, hmem y hy]
    by_cases hyx : y = x
    · simp [hyx, hnow, hxout]
    · simp [hyx, hother y hyx]
  · intro y hy
    have hyx : y ≠ x := fun hyx => hxout (hyx ▸ hy)
    simpa [hyx, hother y hyx] using hout y hy

theorem Sync.makeRunnable (h : Sync out k) (hx : x < nproc)
    (hs : (k.proc x).state ≠ .runnable) : Sync out (makeRunnable k x) := by
  rw [Mlfq.makeRunnable, ensureQueue_of_setup _ (by simpa using h.setup)]
  refine h.enqueue hx hs rfl rfl ?_ (by simp)
  intro y hy
  simp [hy]

theorem Sync.yield (h : Sync out k) (hx : x < nproc) (hs : (k.proc x).state ≠ .runnable) :
    Sync out (yield k x) := by
  rw [Mlfq.yield, ensureQueue_of_setup _ (by simpa using h.setup)]
  refine h.enqueue hx hs rfl rfl ?_ (by simp)
  intro y hy
  simp [hy]

theorem Sync.update (h : Sync out k) (hu : Update k k') : Sync out k' := by
  cases hu with
  | start x hx hs =>
    refine h.makeRunnable hx ?_
    rcases hs with hs | hs <;> simp [hs]
  | alloc x hx hs =>
    exact (h.setProc (x := x) (by simp [hs]) (by simp)).congr rfl rfl (fun _ => Iff.rfl)
      (fun _ _ => rfl)
  | free x hx hs =>
    have hne : (k.proc x).state ≠ .runnable := by
      rcases hs with hs | hs <;> simp [hs]
    exact (h.setProc hne (by simp)).congr rfl rfl (fun _ => Iff.rfl) (fun _ _ => rfl)
  | killed x => exact h.setProc_same rfl rfl
  | parent x q => exact h.setProc_same rfl rfl
  | initproc | log => exact h.congr rfl rfl (fun _ => Iff.rfl) (fun _ _ => rfl)

theorem Sync.updates (h : Sync out k) (hu : Updates k k') : Sync out k' :=
  Updates.keep (fun _ _ hu h => h.update hu) hu h

/-! ## The scheduler -/

theorem enqueueRunnable_cons (k : Kernel) (x : ℕ) (xs : List ℕ) :
    enqueueRunnable k (x :: xs) =
      enqueueRunnable (if (k.proc x).state = .runnable then enqueue k x else k) xs := rfl

/-- What each call of `enqueue` for a runnable process keeps, the whole loop keeps. -/
theorem enqueueRunnable_keep {P : Kernel → Prop}
    (h : ∀ k x, (k.proc x).state = .runnable → P k → P (enqueue k x)) (xs : List ℕ)
    {k : Kernel} (hk : P k) : P (enqueueRunnable k xs) := by
  induction xs generalizing k with
  | nil => exact hk
  | cons x xs ih =>
    rw [enqueueRunnable_cons]
    split
    · rename_i hs
      exact ih (h k x hs hk)
    · exact ih hk

/-- The boost empties the queues, enqueues the runnable processes and restarts its
counter. -/
theorem priorityBoost_keep {P : Kernel → Prop} {k : Kernel}
    (hstart : P { k.record .boost with qtable := setupQueue (k.record .boost).qtable })
    (henqueue : ∀ k x, (k.proc x).state = .runnable → P k → P (enqueue k x))
    (hend : ∀ k, P k → P { k with timeSincePriorityBoost := 0 }) : P (priorityBoost k) := by
  have hloop := enqueueRunnable_keep henqueue (List.range nproc) hstart
  simp only [priorityBoost]
  generalize enqueueRunnable _ (List.range nproc) = k₁ at hloop ⊢
  exact hend k₁ hloop

/-- The record of a process that `enqueue` has put on a queue. -/
def enqueued (q : Proc) : Proc :=
  { q with quanta := assignedQuanta q, queue := (assignedLevel q).val }

/-- The processes of `xs` that the boost puts on a level, in the order of the loop. -/
def boosted (k : Kernel) (xs : List ℕ) (i : Level) : List ℕ :=
  xs.filter fun x => (k.proc x).state = .runnable ∧ assignedLevel (k.proc x) = i

theorem mem_boosted {xs : List ℕ} {i : Level} {y : ℕ} : y ∈ boosted k xs i ↔
    y ∈ xs ∧ (k.proc y).state = .runnable ∧ assignedLevel (k.proc y) = i := by
  simp [boosted]

theorem enqueue_proc_of_ne {y : ℕ} (h : y ≠ x) : (enqueue k x).proc y = k.proc y := by
  simp [h]

/-- What the loop of the boost makes of the queues `L`. -/
structure BoostLoop (k : Kernel) (xs : List ℕ) (L : Level → List ℕ) (k' : Kernel) : Prop where
  queues : Queues k' fun i => L i ++ boosted k xs i
  proc : ∀ y, k'.proc y =
    if y ∈ xs ∧ (k.proc y).state = .runnable then enqueued (k.proc y) else k.proc y
  trace : k'.trace = k.trace ++ (xs.filter fun x => (k.proc x).state = .runnable).map
    fun x => .enqueue x (k.proc x) (assignedLevel (k.proc x))
  setup : k'.isQueueSetup = k.isQueueSetup

theorem boosted_congr {xs : List ℕ} (h : ∀ y ∈ xs, k'.proc y = k.proc y) :
    boosted k' xs = boosted k xs := by
  funext i
  refine List.filter_congr ?_
  intro y hy
  rw [h y hy]

theorem enqueueRunnable_spec (xs : List ℕ) (k : Kernel) (L : Level → List ℕ)
    (hL : Queues k L) (hlt : ∀ x ∈ xs, x < nproc) (hnodup : xs.Nodup)
    (hfresh : ∀ x ∈ xs, ∀ i, x ∉ L i) : BoostLoop k xs L (enqueueRunnable k xs) := by
  induction xs generalizing k L with
  | nil =>
    exact ⟨by simpa [enqueueRunnable, boosted] using hL, by simp [enqueueRunnable],
      by simp [enqueueRunnable], rfl⟩
  | cons x xs ih =>
    have hx := hlt x (by simp)
    have hxs : ∀ y ∈ xs, y < nproc := fun y hy => hlt y (by simp [hy])
    obtain ⟨hxnot, hnodup⟩ := List.nodup_cons.mp hnodup
    by_cases hs : (k.proc x).state = .runnable
    · have hL' := hL.enqueue hx (hfresh x (by simp))
      have hfresh' : ∀ y ∈ xs, ∀ i, y ∉ update L (assignedLevel (k.proc x))
          (L (assignedLevel (k.proc x)) ++ [x]) i := by
        intro y hy i hi
        rcases mem_update_append.mp ⟨i, hi⟩ with ⟨j, hj⟩ | rfl
        · exact hfresh y (by simp [hy]) j hj
        · exact hxnot hy
      have hsame : ∀ y ∈ xs, (enqueue k x).proc y = k.proc y := by
        intro y hy
        refine enqueue_proc_of_ne ?_
        rintro rfl
        exact hxnot hy
      obtain ⟨hq, hproc, htr, hset⟩ := ih (enqueue k x) _ hL' hxs hnodup hfresh'
      rw [enqueueRunnable_cons, if_pos hs]
      refine ⟨?_, ?_, ?_, by simpa using hset⟩
      · convert hq using 2 with i
        rw [boosted_congr hsame]
        by_cases hi : i = assignedLevel (k.proc x)
        · subst i
          simp [boosted, hs]
        · simp [boosted, hs, hi, Ne.symm hi]
      · intro y
        rw [hproc y]
        by_cases hyx : y = x
        · subst y
          simp [hxnot, hs, enqueued]
        · simp [hyx]
      · have hfilter : (xs.filter fun y => ((enqueue k x).proc y).state = .runnable) =
            xs.filter fun y => (k.proc y).state = .runnable :=
          List.filter_congr fun y hy => by rw [hsame y hy]
        have hmap : ((xs.filter fun y => (k.proc y).state = .runnable).map fun y =>
            Event.enqueue y ((enqueue k x).proc y) (assignedLevel ((enqueue k x).proc y))) =
            (xs.filter fun y => (k.proc y).state = .runnable).map fun y =>
            Event.enqueue y (k.proc y) (assignedLevel (k.proc y)) := by
          refine List.map_congr_left ?_
          intro y hy
          rw [hsame y (List.mem_of_mem_filter hy)]
        rw [htr, hfilter, hmap]
        simp [hs]
    · obtain ⟨hq, hproc, htr, hset⟩ :=
        ih k L hL hxs hnodup (fun y hy => hfresh y (by simp [hy]))
      rw [enqueueRunnable_cons, if_neg hs]
      refine ⟨?_, ?_, ?_, hset⟩
      · convert hq using 3 with i
        simp [boosted, hs]
      · intro y
        rw [hproc y]
        by_cases hyx : y = x
        · subst y
          simp [hxnot, hs]
        · simp [hyx]
      · rw [htr]
        simp [hs]

/-- The boost as a whole: the queues start empty, and every runnable process joins the
level that `enqueue` assigns to it, in the order of the process table. -/
theorem priorityBoost_spec (k : Kernel) :
    Queues (priorityBoost k) (boosted k (List.range nproc)) ∧
    (∀ y, (priorityBoost k).proc y =
      if y < nproc ∧ (k.proc y).state = .runnable then enqueued (k.proc y) else k.proc y) ∧
    (priorityBoost k).trace = k.trace ++ [.boost] ++
      ((List.range nproc).filter fun x => (k.proc x).state = .runnable).map
        (fun x => .enqueue x (k.proc x) (assignedLevel (k.proc x))) ∧
    (priorityBoost k).isQueueSetup = k.isQueueSetup := by
  have hempty := queues_of_setup
    (k := { k.record .boost with qtable := setupQueue (k.record .boost).qtable }) rfl
  obtain ⟨hq, hproc, htr, hset⟩ := enqueueRunnable_spec (List.range nproc) _ _ hempty
    (by simp) List.nodup_range (by simp)
  simp only [priorityBoost]
  generalize enqueueRunnable _ (List.range nproc) = k₁ at hq hproc htr hset ⊢
  refine ⟨?_, ?_, htr, hset⟩
  · exact hq.congr rfl (fun _ _ _ => rfl)
  · simpa using hproc

theorem priorityBoost_state (k : Kernel) (x : ℕ) :
    ((priorityBoost k).proc x).state = (k.proc x).state := by
  rw [(priorityBoost_spec k).2.1 x]
  split <;> rfl

/-- The boost rebuilds the queues from the process states alone, whatever the table
held. -/
theorem sync_priorityBoost (hset : k.isQueueSetup = true) :
    Sync (fun _ => False) (priorityBoost k) := by
  obtain ⟨hq, -, -, hsetup⟩ := priorityBoost_spec k
  refine ⟨hsetup.trans hset, ⟨_, hq, ?_⟩, by simp⟩
  intro x hx
  rw [priorityBoost_state]
  simp [mem_boosted, hx]

theorem boostCheck_state (k : Kernel) (x : ℕ) :
    ((boostCheck k).proc x).state = (k.proc x).state := by
  unfold boostCheck
  split
  · exact priorityBoost_state k x
  · rfl

theorem Sync.boostCheck (h : Sync (fun _ => False) k) :
    Sync (fun _ => False) (boostCheck k) := by
  unfold Mlfq.boostCheck
  split
  · exact sync_priorityBoost h.setup
  · exact h

/-- The first process of a queue is runnable, and taking it off leaves the others where
they are. -/
theorem Sync.unlinkFront (h : Sync out k) {L : Level → List ℕ} (hL : Queues k L) {i : Level}
    {xs : List ℕ} (hi : L i = x :: xs) :
    x < nproc ∧ (k.proc x).state = .runnable ∧ ¬ out x ∧
      Sync (fun y => y = x ∨ out y) (unlinkProc k x) := by
  obtain ⟨hsetup, ⟨L', hL', hmem⟩, hout⟩ := h
  obtain rfl := hL'.toWellFormed.unique hL.toWellFormed
  have hlt : x < nproc := hL.bound i x (by simp [hi])
  obtain ⟨hrun, hxout⟩ := (hmem x hlt).mp ⟨i, by simp [hi]⟩
  have hfirst : L' i = [] ++ x :: xs := hi
  refine ⟨hlt, hrun, hxout, hsetup, ⟨_, hL.unlinkProc hfirst, ?_⟩, ?_⟩
  · intro y hy
    have hnodup := hL.lanes.nodup i
    rw [hi] at hnodup
    have hsplit : (∃ j, y ∈ Function.update L' i ([] ++ xs) j) ↔ (∃ j, y ∈ L' j) ∧ y ≠ x := by
      constructor
      · rintro ⟨j, hj⟩
        by_cases hji : j = i
        · subst j
          simp only [List.nil_append, update_self] at hj
          exact ⟨⟨i, by simp [hi, hj]⟩, by grind⟩
        · rw [update_of_ne hji] at hj
          refine ⟨⟨j, hj⟩, ?_⟩
          rintro rfl
          exact hL.lanes.disjoint j i hji hj (by simp [hi])
      · rintro ⟨⟨j, hj⟩, hyx⟩
        by_cases hji : j = i
        · subst j
          exact ⟨i, by simpa [hi, hyx] using hj⟩
        · exact ⟨j, by simpa [hji] using hj⟩
    rw [hsplit, hmem y hy]
    simp only [Mlfq.unlinkProc]
    grind
  · rintro y (rfl | hy)
    · exact hrun
    · exact hout y hy

/-- The same for the process that `dequeue` chooses. -/
theorem Sync.unlinkProc (h : Sync out k) (hx : firstProcess k.qtable = some x) :
    x < nproc ∧ (k.proc x).state = .runnable ∧ ¬ out x ∧
      Sync (fun y => y = x ∨ out y) (unlinkProc k x) := by
  obtain ⟨L, hL, _⟩ := h.queued
  obtain ⟨i, xs, hi, -⟩ := hL.toWellFormed.firstProcess_cons hx
  exact h.unlinkFront hL hi

/-- Marking a process that is off the queues as running. -/
theorem Sync.markRunning (h : Sync out k) (hx : out x) :
    Sync (fun y => out y ∧ y ≠ x) (markRunning k x) := by
  obtain ⟨hsetup, ⟨L, hL, hmem⟩, hout⟩ := h
  refine ⟨hsetup, ⟨L, hL.congr rfl ?_, ?_⟩, ?_⟩
  · intro i y hy
    by_cases hyx : y = x <;> simp [Mlfq.markRunning, hyx]
  · intro y hy
    rw [hmem y hy]
    by_cases hyx : y = x
    · simp [Mlfq.markRunning, hyx, hx]
    · simp [Mlfq.markRunning, hyx]
  · rintro y ⟨hy, hyx⟩
    simpa [Mlfq.markRunning, hyx] using hout y hy

theorem Sync.resume (h : Sync out k) : Sync out (resume k x) := h.setProc_same rfl rfl

theorem Sync.assignNice (h : Sync out k) (v : ℤ) : Sync out (assignNice k x v) := by
  have hset : Sync out (k.setProc x { k.proc x with nice := v }) := h.setProc_same rfl rfl
  exact hset.congr rfl rfl (fun _ => Iff.rfl) (fun _ _ => rfl)

/-! ## Boot -/

/-- The first process finds no queues and sets them up. -/
theorem sync_makeRunnable_of_fresh (hset : k.isQueueSetup = false)
    (hs : ∀ y, (k.proc y).state ≠ .runnable) (hx : x < nproc) :
    Sync (fun _ => False) (makeRunnable k x) := by
  have hready : Sync (fun _ => False)
      { k with qtable := setupQueue k.qtable, isQueueSetup := true } :=
    ⟨rfl, ⟨_, queues_of_setup rfl, by simp [hs]⟩, by simp⟩
  refine hready.enqueue hx (hs x) ?_ ?_ ?_ (by simp)
  · simp [ensureQueue, hset]
  · simp [ensureQueue, hset]
  · intro y hy
    simp [hy]

/-- The kernel at boot once `userinit` has taken slot 0. -/
def initKernel : Kernel :=
  { bootKernel.setProc 0 { bootProc with pid := 1, state := .used } with
    nextpid := int 2, initproc := some 0 }

theorem initKernel_state (y : ℕ) :
    (initKernel.proc y).state = if y = 0 then .used else .unused := by
  by_cases hy : y = 0 <;> simp [initKernel, hy, bootKernel, bootProc]

theorem userinit_boot {mem : Memory} (h : userinit bootKernel mem = some k) :
    k = makeRunnable initKernel 0 := by
  have hfirst : (List.range nproc).find? (fun i => (bootKernel.proc i).state = .unused) =
      some 0 := rfl
  obtain ⟨trapframe, pagetable, image⟩ := mem
  cases trapframe <;> cases pagetable <;>
    simp only [userinit, allocproc, hfirst, if_true, if_false, reduceCtorEq,
      Option.some.injEq] at h
  exact h.symm

/-- The states in which `main` on hart 0 calls `scheduler` after `userinit`. -/
def Booted (m : Machine) : Prop :=
  ∃ mem k, userinit bootKernel mem = some k ∧ m = ⟨k, none⟩

/-- Reachable from boot by any sequence of operations. -/
def Reachable (m : Machine) : Prop := ∃ s, Booted s ∧ Reach step s m

/-! ## The invariant of the machine -/

structure Inv (m : Machine) : Prop where
  sync : Sync (fun _ => False) m.kernel
  running_iff : ∀ x, (m.kernel.proc x).state = .running ↔ m.cpu = some x
  cpu_lt : ∀ x, m.cpu = some x → x < nproc

theorem Booted.inv {m : Machine} (h : Booted m) : Inv m := by
  obtain ⟨mem, k, hk, rfl⟩ := h
  rw [userinit_boot hk]
  refine ⟨sync_makeRunnable_of_fresh (k := initKernel) (x := 0) rfl ?_ (by decide), ?_, by simp⟩
  · intro y
    rw [initKernel_state]
    split <;> simp
  · intro y
    by_cases hy : y = 0 <;> simp [hy, initKernel_state]

theorem Inv.move {m m' : Machine} {a : Action} (h : Inv m) (hm : Move a m m') : Inv m' := by
  obtain ⟨hsync, hrun, hcpu⟩ := h
  cases hm with
  | updates ha hu =>
    exact ⟨hsync.updates hu, fun x => (hu.running_iff x).trans (hrun x), hcpu⟩
  | nice v =>
    rename_i k p
    refine ⟨hsync.assignNice v, ?_, hcpu⟩
    intro x
    rw [← hrun x]
    by_cases hx : x = p <;> simp [assignNice, hx]
  | yield hu =>
    rename_i k k' p
    have hp : (k.proc p).state = .running := (hrun p).mpr rfl
    refine ⟨(hsync.yield (hcpu p rfl) (by simp [hp])).updates hu, ?_, by simp⟩
    intro x
    rw [hu.running_iff x]
    have := hrun x
    by_cases hx : x = p <;> simp_all [Mlfq.yield]
    exact Ne.symm hx
  | block ha chan status s hs hbefore hafter =>
    rename_i k k₁ k' p
    have hp : (k₁.proc p).state = .running :=
      (hbefore.running_iff p).mpr ((hrun p).mpr rfl)
    refine ⟨((hsync.updates hbefore).setProc (by simp [hp]) ?_).updates hafter, ?_, by simp⟩
    · rcases hs with rfl | rfl <;> simp
    · intro x
      rw [hafter.running_iff x]
      have hx := (hbefore.running_iff x).trans (hrun x)
      by_cases hxp : x = p
      · rcases hs with rfl | rfl <;> simp [hxp]
      · simp [hxp, hx, Ne.symm hxp]
  | idle hnone =>
    refine ⟨hsync.boostCheck, ?_, by simp⟩
    intro x
    rw [boostCheck_state]
    exact hrun x
  | dispatch hfirst =>
    rename_i k x
    obtain ⟨hlt, _, _, hsync'⟩ := hsync.boostCheck.unlinkProc hfirst
    refine ⟨(hsync'.markRunning (.inl rfl)).resume.of_iff (by grind), ?_, ?_⟩
    · intro y
      have hy : (k.proc y).state ≠ .running := by simpa using hrun y
      by_cases hyx : y = x
      · simp [resume, markRunning, hyx]
      · simp [resume, markRunning, unlinkProc, boostCheck_state, hyx, hy, Ne.symm hyx]
    · intro y hy
      cases hy
      exact hlt

theorem Reachable.inv {m : Machine} (h : Reachable m) : Inv m := by
  obtain ⟨s, hboot, hreach⟩ := h
  exact hreach.invariant hboot.inv fun _ _ _ hi _ hs => hi.move (step_move hs)

/-! ## Facts about the queues

A fact about the table and the history is kept by every operation that does not run the
scheduler, if calls of `enqueue` for unqueued processes keep it. -/

structure QueueFact (P : Kernel → Prop) : Prop where
  congr : ∀ {k k' : Kernel}, P k → k'.qtable = k.qtable → k'.trace = k.trace → P k'
  record : ∀ {k k' : Kernel} {e : Event}, P k → k'.qtable = k.qtable →
    k'.trace = k.trace ++ [e] → (∃ x, e = .free x ∨ e = .nice x) → P k'
  enqueue : ∀ {k : Kernel} {L : Level → List ℕ} {x : ℕ}, P k → Queues k L → x < nproc →
    (∀ i, x ∉ L i) → P (enqueue k x)

variable {P : Kernel → Prop}

/-- The process was not runnable, so it was on no queue. -/
theorem QueueFact.enqueue_of_sync (hP : QueueFact P) (h : Sync out k) (hx : x < nproc)
    (hs : (k.proc x).state ≠ .runnable) (hq : k'.qtable = k.qtable) (htr : k'.trace = k.trace)
    (hother : ∀ y, y ≠ x → k'.proc y = k.proc y) (hk : P k) : P (Mlfq.enqueue k' x) := by
  obtain ⟨L, hL, hmem⟩ := h.queued
  have hfresh : ∀ i, x ∉ L i := fun i hi => hs ((hmem x hx).mp ⟨i, hi⟩).1
  have hL' : Queues k' L := by
    refine hL.congr hq ?_
    intro i y hy
    rw [hother y (fun hyx => hfresh i (hyx ▸ hy))]
  exact hP.enqueue (hP.congr hk hq htr) hL' hx hfresh

theorem QueueFact.makeRunnable (hP : QueueFact P) (h : Sync out k) (hx : x < nproc)
    (hs : (k.proc x).state ≠ .runnable) (hk : P k) : P (makeRunnable k x) := by
  rw [Mlfq.makeRunnable, ensureQueue_of_setup _ (by simpa using h.setup)]
  refine hP.enqueue_of_sync h hx hs rfl rfl ?_ hk
  intro y hy
  simp [hy]

theorem QueueFact.yield (hP : QueueFact P) (h : Sync out k) (hx : x < nproc)
    (hs : (k.proc x).state ≠ .runnable) (hk : P k) : P (yield k x) := by
  rw [Mlfq.yield, ensureQueue_of_setup _ (by simpa using h.setup)]
  refine hP.enqueue_of_sync h hx hs rfl rfl ?_ hk
  intro y hy
  simp [hy]

theorem QueueFact.update (hP : QueueFact P) (h : Sync out k) (hu : Update k k') (hk : P k) :
    P k' := by
  cases hu with
  | start x hx hs =>
    refine hP.makeRunnable h hx ?_ hk
    rcases hs with hs | hs <;> simp [hs]
  | free x hx hs => exact hP.record hk rfl rfl ⟨x, .inl rfl⟩
  | alloc | killed | parent | initproc | log => exact hP.congr hk rfl rfl

theorem QueueFact.updates (hP : QueueFact P) (h : Sync out k) (hu : Updates k k') (hk : P k) :
    P k' :=
  (Updates.keep (P := fun k => Sync out k ∧ P k)
    (fun _ _ hu h => ⟨h.1.update hu, hP.update h.1 hu h.2⟩) hu ⟨h, hk⟩).2

/-- Only a pass of the scheduler needs an argument of its own. -/
theorem QueueFact.move (hP : QueueFact P) {m m' : Machine} {a : Action} (hinv : Inv m)
    (hm : Move a m m') (hk : P m.kernel) :
    P m'.kernel ∨ a = .schedule ∧ m' = dequeue (Mlfq.boostCheck m.kernel) := by
  obtain ⟨hsync, hrun, hcpu⟩ := hinv
  cases hm with
  | updates ha hu => exact .inl (hP.updates hsync hu hk)
  | nice v => exact .inl (hP.record hk rfl rfl ⟨_, .inr rfl⟩)
  | yield hu =>
    rename_i k k' p
    have hrunning : (k.proc p).state = .running := (hrun p).mpr rfl
    have hp : (k.proc p).state ≠ .runnable := by simp [hrunning]
    exact .inl (hP.updates (hsync.yield (hcpu p rfl) hp) hu
      (hP.yield hsync (hcpu p rfl) hp hk))
  | block ha chan status s hs hbefore hafter =>
    rename_i k k₁ k' p
    have hp : (k₁.proc p).state ≠ .runnable := by
      simp [(hbefore.running_iff p).mpr ((hrun p).mpr rfl)]
    have hstop : s ≠ .runnable := by rcases hs with rfl | rfl <;> simp
    refine .inl (hP.updates ((hsync.updates hbefore).setProc hp hstop) hafter ?_)
    exact hP.congr (hP.updates hsync hbefore hk) rfl rfl
  | idle hnone => exact .inr ⟨rfl, by simp only [dequeue, hnone]⟩
  | dispatch hfirst => exact .inr ⟨rfl, by simp only [dequeue, hfirst]⟩

/-! ## Main result -/

/-- In every reachable state the links of the table spell out three disjoint lists of
process indices whose members are exactly the runnable processes, the queue numbers agree
with them, and the next pass of the scheduler can only dispatch a runnable process. -/
theorem reachable_queues_runnable {m : Machine} (h : Reachable m) :
    (∃ L, Queues m.kernel L ∧
      ∀ x < nproc, (∃ i, x ∈ L i) ↔ (m.kernel.proc x).state = .runnable) ∧
    ∀ m' x, step m .schedule = some m' → m'.cpu = some x →
      x < nproc ∧ (m.kernel.proc x).state = .runnable := by
  have hinv := h.inv
  refine ⟨?_, ?_⟩
  · obtain ⟨L, hL, hmem⟩ := hinv.sync.queued
    exact ⟨L, hL, by simpa using hmem⟩
  · intro m' x hstep hx
    obtain ⟨k, cpu⟩ := m
    simp only [step] at hstep
    split at hstep
    · cases hstep
      unfold dequeue at hx
      split at hx
      · cases hx
      · rename_i y hfirst
        cases hx
        obtain ⟨hlt, hrun, _⟩ := hinv.sync.boostCheck.unlinkProc hfirst
        exact ⟨hlt, by simpa [boostCheck_state] using hrun⟩
    · cases hstep

/-- The first process forks three times and goes to sleep, the first child yields, the second
wakes its parent and yields, the third goes to sleep. -/
def busyRun : List Action :=
  [.schedule, .fork ⟨true, true, true⟩, .fork ⟨true, true, true⟩, .fork ⟨true, true, true⟩,
    .sleep (.object 7), .schedule, .yield, .schedule, .wakeup (.object 7), .yield, .schedule,
    .sleep .ticks]

/-- Afterwards three processes are queued, in the order in which they became runnable, and the
next pass of the scheduler dispatches the first of them. -/
theorem reachable_queues_runnable_busyRun : ∃ m m' : Machine, ∃ L,
    exec step ⟨makeRunnable initKernel 0, none⟩ busyRun = some m ∧
    (List.range 5).map (fun x => (m.kernel.proc x).state) =
      [.runnable, .runnable, .runnable, .sleeping, .unused] ∧
    Queues m.kernel L ∧
    (∀ x < nproc, (∃ i, x ∈ L i) ↔ (m.kernel.proc x).state = .runnable) ∧
    step m .schedule = some m' ∧ m'.cpu = some 1 ∧ (m.kernel.proc 1).state = .runnable := by
  have hrun : (exec step ⟨makeRunnable initKernel 0, none⟩ busyRun).bind (fun m : Machine =>
      (step m .schedule).map fun m' : Machine =>
        ((List.range 5).map (fun x => (m.kernel.proc x).state), m'.cpu)) =
      some ([.runnable, .runnable, .runnable, .sleeping, .unused], some 1) := by
    decide +kernel
  obtain ⟨m, hm, hnext⟩ := Option.bind_eq_some_iff.mp hrun
  obtain ⟨m', hm', hview⟩ := Option.map_eq_some_iff.mp hnext
  obtain ⟨hstates, hcpu⟩ := Prod.mk.inj hview
  have hreach : Reachable m := ⟨_, ⟨⟨true, true, true⟩, _, rfl, rfl⟩, reach_of_exec hm⟩
  obtain ⟨⟨L, hL, hmem⟩, hdispatch⟩ := reachable_queues_runnable hreach
  exact ⟨m, m', L, hm, hstates, hL, hmem, hm', hcpu, (hdispatch m' 1 hm' hcpu).2⟩

end CS352.Mlfq
