import CS352.Model.Mlfq.Table
import CS352.Verification.Mlfq.Counters
import CS352.Verification.Mlfq.Nice

/-! # Invariants of the process table

What holds of the records in `proc[]` whatever the queues look like: the quanta are within
the allotment of the level, a runnable process has been through `enqueue` with its present
nice value, and a free slot has nice value 0. -/

namespace CS352.Mlfq

open Transition

variable {k k' : Kernel} {p x : ℕ}

/-! ## What one operation can do -/

/-- Everything an operation on the process table can do. -/
inductive TableMove : Kernel → Kernel → Prop where
  | updates {k k' : Kernel} (h : Updates k k') : TableMove k k'
  | yield {k : Kernel} (p : ℕ) (hs : (k.proc p).state = .running) : TableMove k (yield k p)
  /-- `sleep`, `exit` and a `wait` that has to sleep. -/
  | block {k k₁ : Kernel} (p : ℕ) (chan : Chan) (status : ℤ) (s : ProcState)
      (hstop : s = .sleeping ∨ s = .zombie) (hs : (k.proc p).state = .running)
      (h : Updates k k₁) :
      TableMove k (k₁.setProc p { k₁.proc p with chan := chan, xstate := status, state := s })
  | nice {k : Kernel} (p : ℕ) (inc : ℤ) (hs : (k.proc p).state = .running) :
      TableMove k (sysNice k p inc).1
  | boost {k : Kernel} : TableMove k (priorityBoost k)
  | dispatch {k : Kernel} (p : ℕ) :
      TableMove k (resume (markRunning (unlinkProc k p) p) p)
  | relink {k : Kernel} (q : QTable) : TableMove k { k with qtable := q }

theorem byRunning_eq_some {k'' : Kernel} :
    byRunning k p k' = some k'' ↔ (p < nproc ∧ (k.proc p).state = .running) ∧ k' = k'' :=
  Option.ite_none_right_eq_some.trans (by simp)

theorem tableStep_move {a : TableAction} (h : tableStep k a = some k') : TableMove k k' := by
  cases a with
  | fork p mem =>
    obtain ⟨-, rfl⟩ := byRunning_eq_some.mp h
    exact .updates (fork_updates k p mem)
  | yield p =>
    obtain ⟨⟨-, hs⟩, rfl⟩ := byRunning_eq_some.mp h
    exact .yield p hs
  | sleep p chan =>
    obtain ⟨⟨-, hs⟩, rfl⟩ := byRunning_eq_some.mp h
    exact .block p chan (k.proc p).xstate .sleeping (.inl rfl) hs .refl
  | wakeup me chan =>
    cases h
    exact .updates (wakeup_updates k me chan)
  | kill pid =>
    cases h
    exact .updates (kill_updates k pid)
  | fault p =>
    obtain ⟨-, rfl⟩ := byRunning_eq_some.mp h
    exact .updates (.single (.killed p))
  | exit p status =>
    obtain ⟨k₂, hexit, hrun⟩ := Option.bind_eq_some_iff.mp h
    obtain ⟨⟨-, hs⟩, rfl⟩ := byRunning_eq_some.mp hrun
    obtain ⟨k₁, hup, rfl⟩ := exit_eq hexit
    exact .block p _ status .zombie (.inr rfl) hs hup
  | wait p addr copyoutOk =>
    obtain ⟨⟨-, hs⟩, rfl⟩ := byRunning_eq_some.mp h
    rcases wait_cases k p addr copyoutOk with ⟨k₁, r, hw, hup⟩ | hw
    · rw [hw]
      exact .updates hup
    · rw [hw]
      exact .block p (.proc p) (k.proc p).xstate .sleeping (.inl rfl) hs .refl
  | nice p inc =>
    obtain ⟨⟨-, hs⟩, rfl⟩ := byRunning_eq_some.mp h
    exact .nice p inc hs
  | switched p =>
    cases h
    exact .updates (afterSwitch_updates k p)
  | startlog =>
    cases h
    exact .updates (sysStartlog_updates k)
  | tick =>
    cases h
    exact .updates (.single (.log k.schedlog (int (k.time + 1)) k.numLogged k.isLogging))
  | boost =>
    rw [← Option.some.inj h]
    exact .boost
  | dispatch p =>
    obtain ⟨-, hk⟩ := Option.ite_none_right_eq_some.mp h
    cases hk
    exact .dispatch p
  | relink q =>
    cases h
    exact .relink q

/-! ## Records -/

/-- What `enqueue` leaves behind does not exceed the allotment if it is enqueued again. -/
theorem not_exceeds_enqueued (q : Proc) : ¬ Exceeds (enqueued q) := by
  have hzero := allotment_nonneg (niceLevel q.nice)
  unfold Exceeds
  change ¬ allotment (niceLevel q.nice) < countedQuanta (enqueued q)
  by_cases hx : Exceeds q
  · have hcount : countedQuanta (enqueued q) = 0 := by
      simp [countedQuanta, enqueued, assignedQuanta, hx]
    omega
  · have hcount : countedQuanta (enqueued q) = countedQuanta q := by
      simp [countedQuanta, enqueued, assignedQuanta, assignedLevel, hx]
    rw [hcount]
    exact hx

theorem assignedLevel_of_not_exceeds {q : Proc} (h : ¬ Exceeds q) :
    assignedLevel q = niceLevel q.nice :=
  if_neg h

/-- The facts about one record. -/
structure RecordOk (q : Proc) : Prop where
  allotted : InAllotment q
  settled : q.state = .runnable → ¬ Exceeds q
  nice_ge : -20 ≤ q.nice
  nice_le : q.nice ≤ 19
  unused : q.state = .unused → q.nice = 0

/-- Every record of the process table is in order. -/
def TableInv (k : Kernel) : Prop := ∀ x, RecordOk (k.proc x)

theorem RecordOk.enqueued {q : Proc} (hq : 0 ≤ q.quanta) (hlow : -20 ≤ q.nice)
    (hhigh : q.nice ≤ 19) (hfree : q.state = .unused → q.nice = 0) : RecordOk (enqueued q) :=
  ⟨⟨assignedLevel q, rfl, assigned_in_allotment hq⟩, fun _ => not_exceeds_enqueued q, hlow,
    hhigh, hfree⟩

theorem RecordOk.quanta_nonneg {q : Proc} (h : RecordOk q) : 0 ≤ q.quanta := by
  obtain ⟨l, -, h0, -⟩ := h.allotted
  exact h0

/-- A record with the same scheduling fields, in a state that is neither runnable nor
free. -/
theorem RecordOk.restate {q q' : Proc} (h : RecordOk q) (hquanta : q'.quanta = q.quanta)
    (hqueue : q'.queue = q.queue) (hnice : q'.nice = q.nice) (hrun : q'.state ≠ .runnable)
    (hfree : q'.state ≠ .unused) : RecordOk q' := by
  refine ⟨?_, fun hs => absurd hs hrun, ?_, ?_, fun hs => absurd hs hfree⟩
  · simpa only [InAllotment, hquanta, hqueue] using h.allotted
  · simpa only [hnice] using h.nice_ge
  · simpa only [hnice] using h.nice_le

theorem TableInv.setProc (h : TableInv k) {q : Proc} (hq : RecordOk q) :
    TableInv (k.setProc x q) := by
  intro y
  by_cases hyx : y = x
  · simpa [hyx] using hq
  · simpa [hyx] using h y

theorem TableInv.enqueue (h : TableInv k) (x : ℕ) : TableInv (enqueue k x) := by
  have hx := h x
  intro y
  rw [enqueue_proc]
  by_cases hyx : y = x
  · subst y
    simpa [enqueued] using RecordOk.enqueued hx.quanta_nonneg hx.nice_ge hx.nice_le hx.unused
  · simpa [hyx] using h y

theorem TableInv.makeRunnable (h : TableInv k) (x : ℕ) : TableInv (makeRunnable k x) := by
  have hx := h x
  intro y
  rw [makeRunnable_proc]
  by_cases hyx : y = x
  · subst y
    rw [Function.update_self]
    exact RecordOk.enqueued (q := { k.proc x with state := .runnable }) hx.quanta_nonneg
      hx.nice_ge hx.nice_le (by simp)
  · simpa [hyx] using h y

theorem TableInv.update (h : TableInv k) (hu : Update k k') : TableInv k' := by
  cases hu with
  | start x hx hs => exact h.makeRunnable x
  | alloc x hx hs =>
    exact h.setProc (x := x) ((h x).restate rfl rfl rfl (by simp) (by simp))
  | free x hx hs =>
    exact h.setProc (x := x) ⟨(h x).allotted, by simp, by simp, by simp, by simp⟩
  | killed x => exact h.setProc ⟨(h x).allotted, (h x).settled, (h x).nice_ge, (h x).nice_le,
      (h x).unused⟩
  | parent x q => exact h.setProc ⟨(h x).allotted, (h x).settled, (h x).nice_ge, (h x).nice_le,
      (h x).unused⟩
  | initproc | log => exact h

theorem TableInv.updates (h : TableInv k) (hu : Updates k k') : TableInv k' :=
  Updates.keep (fun _ _ hu h => h.update hu) hu h

theorem clampNice_bounds (nice inc : ℤ) : -20 ≤ clampNice nice inc ∧ clampNice nice inc ≤ 19 := by
  unfold clampNice
  dsimp only
  split <;> split <;> omega

theorem TableInv.assignNice (h : TableInv k) (hs : (k.proc p).state = .running) (inc : ℤ) :
    TableInv (assignNice k p (clampNice (k.proc p).nice inc)) := by
  obtain ⟨hlow, hhigh⟩ := clampNice_bounds (k.proc p).nice inc
  exact h.setProc ⟨(h p).allotted, by simp [hs], hlow, hhigh, by simp [hs]⟩

theorem TableInv.yield (h : TableInv k) (p : ℕ) : TableInv (yield k p) := by
  have hp := h p
  have hallot : Allotted k := fun y => (h y).allotted
  intro y
  by_cases hyp : y = p
  · subst y
    have hquanta : 0 ≤ (k.proc p).quanta + 1 := by
      have := hp.quanta_nonneg
      omega
    simpa [Mlfq.yield, enqueued, hallot.int_quanta] using RecordOk.enqueued
      (q := { k.proc p with state := .runnable, quanta := (k.proc p).quanta + 1 }) hquanta
      hp.nice_ge hp.nice_le (by simp)
  · simpa [Mlfq.yield, hyp] using h y

theorem TableInv.move (h : TableInv k) (hm : TableMove k k') : TableInv k' := by
  cases hm with
  | updates hu => exact h.updates hu
  | yield p hs => exact h.yield p
  | block p chan status s hstop hs hu =>
    refine (h.updates hu).setProc (((h.updates hu) p).restate rfl rfl rfl ?_ ?_)
    · rcases hstop with rfl | rfl <;> simp
    · rcases hstop with rfl | rfl <;> simp
  | nice p inc hs =>
    have hassign := h.assignNice hs inc
    simp only [sysNice]
    split
    · exact TableInv.enqueue
        (k := unlinkProc (Mlfq.assignNice k p (clampNice (k.proc p).nice inc)) p) hassign p
    · exact hassign
  | boost =>
    exact priorityBoost_keep (P := TableInv) h (fun _ x _ hk => hk.enqueue x) fun _ hk => hk
  | dispatch p =>
    have hrun : TableInv (markRunning (unlinkProc k p) p) :=
      h.setProc ((h p).restate rfl rfl rfl (by simp) (by simp))
    exact hrun.setProc ((hrun p).restate rfl rfl rfl (by simp [markRunning])
      (by simp [markRunning]))
  | relink q => exact h

/-! ## Reachable tables -/

/-- Reachable from boot by any sequence of operations. -/
def TableReachable (k : Kernel) : Prop :=
  ∃ mem k₀, userinit bootKernel mem = some k₀ ∧ Reach tableStep k₀ k

theorem tableInv_bootKernel : TableInv bootKernel := by
  intro x
  refine ⟨⟨0, ?_⟩, ?_, ?_, ?_, ?_⟩ <;> simp [bootKernel, bootProc, allotment]

theorem TableReachable.inv (h : TableReachable k) : TableInv k := by
  obtain ⟨mem, k₀, hk, hreach⟩ := h
  refine hreach.invariant (tableInv_bootKernel.updates (userinit_updates hk)) ?_
  intro _ _ _ hi _ hs
  exact hi.move (tableStep_move hs)

/-! ## The machine of one hart

Its runs are runs of the table as long as `sys_nice` leaves the queues alone. -/

/-- The operations of the table: boot is over, and nice values change in `sys_nice` only. -/
def IsTableOperation (m : Machine) : Action ⊕ ℤ → Prop
  | .inl (.userinit _) | .inl (.setNice _) => False
  | a => CallsLeaveQueues m a

theorem TableReachable.step (h : TableReachable k) {a : TableAction}
    (hs : tableStep k a = some k') : TableReachable k' := by
  obtain ⟨mem, k₀, hk, hreach⟩ := h
  exact ⟨mem, k₀, hk, hreach.tail trivial hs⟩

theorem TableReachable.byRunning (h : TableReachable k) {a : TableAction}
    (ha : tableStep k a = byRunning k p k') (hp : p < nproc)
    (hs : (k.proc p).state = .running) : TableReachable k' :=
  h.step (ha.trans (byRunning_eq_some.mpr ⟨⟨hp, hs⟩, rfl⟩))

theorem TableReachable.niceStep {m m' : Machine} {a : Action ⊕ ℤ} (h : TableReachable m.kernel)
    (hinv : Inv m) (ha : IsTableOperation m a) (hs : niceStep m a = some m') :
    TableReachable m'.kernel := by
  obtain ⟨k, cpu⟩ := m
  have hrunning : ∀ p, cpu = some p → p < nproc ∧ (k.proc p).state = .running :=
    fun p hp => ⟨hinv.cpu_lt p hp, (hinv.running_iff p).mpr hp⟩
  cases a with
  | inr inc =>
    obtain ⟨p, rfl, rfl⟩ := Option.map_eq_some_iff.mp hs
    obtain ⟨hp, hrun⟩ := hrunning p rfl
    exact h.byRunning (a := .nice p inc) rfl hp hrun
  | inl a =>
    cases a with
    | userinit mem => exact absurd ha id
    | setNice v => exact absurd ha id
    | fork mem =>
      obtain ⟨p, rfl, rfl⟩ := Option.map_eq_some_iff.mp hs
      obtain ⟨hp, hrun⟩ := hrunning p rfl
      exact h.byRunning (a := .fork p mem) rfl hp hrun
    | yield =>
      obtain ⟨p, rfl, rfl⟩ := Option.map_eq_some_iff.mp hs
      obtain ⟨hp, hrun⟩ := hrunning p rfl
      exact (h.byRunning (a := .yield p) rfl hp hrun).step (a := .switched p) rfl
    | sleep chan =>
      obtain ⟨p, rfl, rfl⟩ := Option.map_eq_some_iff.mp hs
      obtain ⟨hp, hrun⟩ := hrunning p rfl
      exact (h.byRunning (a := .sleep p chan) rfl hp hrun).step (a := .switched p) rfl
    | wakeup chan =>
      cases hs
      exact h.step (a := .wakeup cpu chan) (by simp only [tableStep])
    | kill pid =>
      obtain ⟨p, rfl, rfl⟩ := Option.map_eq_some_iff.mp hs
      exact h.step (a := .kill pid) rfl
    | exit status =>
      obtain ⟨p, rfl, hexit⟩ := Option.bind_eq_some_iff.mp hs
      obtain ⟨k', hk, rfl⟩ := Option.map_eq_some_iff.mp hexit
      obtain ⟨hp, hrun⟩ := hrunning p rfl
      refine (h.byRunning (a := .exit p status) ?_ hp hrun).step (a := .switched p) rfl
      simp only [tableStep, hk, Option.bind_some]
    | wait addr copyoutOk =>
      obtain ⟨p, rfl, rfl⟩ := Option.map_eq_some_iff.mp hs
      obtain ⟨hp, hrun⟩ := hrunning p rfl
      have hwait := h.byRunning (a := .wait p addr copyoutOk) rfl hp hrun
      dsimp only
      split
      · rename_i k' r hw
        rwa [hw] at hwait
      · rename_i k' hw
        rw [hw] at hwait
        exact hwait.step (a := .switched p) rfl
    | startlog =>
      obtain ⟨p, rfl, rfl⟩ := Option.map_eq_some_iff.mp hs
      exact h.step (a := .startlog) rfl
    | tick =>
      cases hs
      exact h.step (a := .tick) rfl
    | schedule =>
      obtain ⟨hcpu, hdequeue⟩ := Option.ite_none_right_eq_some.mp hs
      cases hcpu
      rw [← Option.some.inj hdequeue]
      have hboost : TableReachable (boostCheck k) := by
        unfold boostCheck
        split
        · exact h.step (a := .boost) (by simp only [tableStep])
        · exact h
      unfold dequeue
      split
      · exact hboost
      · rename_i x hfirst
        have hx := (hinv.sync.boostCheck.unlinkProc hfirst).1
        exact hboost.step (a := .dispatch x) (if_pos hx)

/-- What one hart reaches without disturbing the queues is reachable as a table. -/
theorem tableReachable_of_machine {s m : Machine} (hboot : Booted s)
    (hreach : ReachWhere niceStep IsTableOperation s m) : TableReachable m.kernel := by
  have hcalls : ∀ m a, IsTableOperation m a → CallsLeaveQueues m a := by
    intro m a ha
    rcases a with a | inc
    · trivial
    · exact ha
  have hstart : Inv s ∧ TableReachable s.kernel := by
    refine ⟨hboot.inv, ?_⟩
    obtain ⟨mem, k, hk, rfl⟩ := hboot
    exact ⟨mem, k, hk, .refl⟩
  refine (hreach.invariant (I := fun m => Inv m ∧ TableReachable m.kernel) hstart ?_).2
  rintro u a v ⟨hinv, htable⟩ ha hs
  exact ⟨hinv.niceStep (hcalls u a ha) hs, htable.niceStep hinv ha hs⟩

end CS352.Mlfq
