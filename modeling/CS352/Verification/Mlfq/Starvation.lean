import CS352.Verification.Mlfq.Counters
import CS352.Verification.Mlfq.Solo

/-! # How long a runnable process waits

A boost comes after 61 calls of `yield` and puts the runnable processes on queue 1 in the
order of the process table. A process with at most 60 others before it is dispatched before
the next boost; one with more can wait for good. -/

namespace CS352.Mlfq

open Transition Function

variable {k k' : Kernel} {m m' : Machine} {p x : ℕ} {n : ℕ} {L : Level → List ℕ}

/-! ## The property -/

/-- The nice values keep their default. -/
def KeepsNice (_ : Machine) (a : Action) : Prop := ∀ v, a = .setNice v → v = 0

/-- The run takes `as` from `m` to `m'`, and `p` is runnable in every state on the way. -/
structure Waits (p : ℕ) (m : Machine) (as : List Action) (m' : Machine) : Prop where
  run : exec step m as = some m'
  waiting : Along step (fun m _ => (m.kernel.proc p).state = .runnable) m as
  last : (m'.kernel.proc p).state = .runnable

/-- The number of boosts so far. -/
def boosts (k : Kernel) : ℕ := k.trace.count .boost

/-- The runnable processes in the order of the process table. -/
def runnables (k : Kernel) : List ℕ :=
  (List.range nproc).filter fun x => (k.proc x).state = .runnable

/-- A boost finds at most 61 runnable processes. -/
def BoostsFewer (m : Machine) (a : Action) : Prop :=
  a = .schedule → m.kernel.timeSincePriorityBoost > 60 → (runnables m.kernel).length ≤ 61

/-! ## Default nice values -/

/-- All nice values are 0, and no runnable process is on queue 0. -/
structure ZeroNice (k : Kernel) : Prop where
  nice : ∀ x, (k.proc x).nice = 0
  queue : ∀ x, (k.proc x).state = .runnable → (k.proc x).queue ≠ 0

theorem assignedLevel_ne_zero {q : Proc} (hn : q.nice = 0) :
    ((assignedLevel q).val : ℤ) ≠ 0 := by
  obtain ⟨hlow, hhigh⟩ := assigned_of_nice_zero q hn
  by_cases hle : countedQuanta q ≤ 10
  · simp [(hlow hle).1]
  · simp [(hhigh (not_le.mp hle)).1]

theorem ZeroNice.congr (h : ZeroNice k) (hn : ∀ x, (k'.proc x).nice = (k.proc x).nice)
    (hq : ∀ x, (k'.proc x).state = .runnable →
      (k'.proc x).queue ≠ 0 ∨
        (k.proc x).state = .runnable ∧ (k'.proc x).queue = (k.proc x).queue) :
    ZeroNice k' := by
  refine ⟨fun x => (hn x).trans (h.nice x), ?_⟩
  intro x hx
  rcases hq x hx with hne | ⟨hrun, heq⟩
  · exact hne
  · rw [heq]
    exact h.queue x hrun

/-- A new record with nice value 0 that is not runnable, or as runnable as before. -/
theorem ZeroNice.setProc (h : ZeroNice k) {q : Proc} (hk : k'.proc = Function.update k.proc x q)
    (hn : q.nice = 0)
    (hq : q.state = .runnable → (k.proc x).state = .runnable ∧ q.queue = (k.proc x).queue) :
    ZeroNice k' := by
  refine h.congr ?_ ?_
  · intro y
    by_cases hyx : y = x <;> simp [hk, hyx, hn, h.nice]
  · intro y hy
    rw [hk] at hy ⊢
    by_cases hyx : y = x
    · subst y
      rw [update_self] at hy ⊢
      exact .inr (hq hy)
    · rw [update_of_ne hyx] at hy ⊢
      exact .inr ⟨hy, rfl⟩

/-- `enqueue` repairs the queue number of the process it is called for. -/
theorem zeroNice_enqueue (hn : ∀ y, (k.proc y).nice = 0)
    (hq : ∀ y, y ≠ x → (k.proc y).state = .runnable → (k.proc y).queue ≠ 0) :
    ZeroNice (enqueue k x) := by
  refine ⟨?_, ?_⟩
  · intro y
    by_cases hyx : y = x <;> simp [hyx, hn]
  · intro y hy
    by_cases hyx : y = x
    · subst y
      simpa using assignedLevel_ne_zero (hn x)
    · simpa [hyx] using hq y hyx (by simpa [hyx] using hy)

theorem ZeroNice.makeRunnable (h : ZeroNice k) (x : ℕ) : ZeroNice (makeRunnable k x) := by
  refine zeroNice_enqueue ?_ ?_
  · intro y
    by_cases hyx : y = x <;> simp [hyx, h.nice]
  · intro y hyx
    simpa [hyx] using h.queue y

theorem ZeroNice.yield (h : ZeroNice k) (x : ℕ) : ZeroNice (yield k x) := by
  refine zeroNice_enqueue ?_ ?_
  · intro y
    by_cases hyx : y = x <;> simp [hyx, h.nice]
  · intro y hyx
    simpa [hyx] using h.queue y

theorem ZeroNice.update (h : ZeroNice k) (hu : Update k k') : ZeroNice k' := by
  cases hu with
  | start x hx hs => exact h.makeRunnable x
  | alloc x hx hs => exact h.setProc rfl (h.nice x) (by simp)
  | free x hx hs => exact h.setProc rfl rfl (by simp)
  | killed x => exact h.setProc rfl (h.nice x) (fun hx => ⟨hx, rfl⟩)
  | parent x q => exact h.setProc rfl (h.nice x) (fun hx => ⟨hx, rfl⟩)
  | initproc | log => exact ⟨h.nice, h.queue⟩

theorem ZeroNice.updates (h : ZeroNice k) (hu : Updates k k') : ZeroNice k' :=
  Updates.keep (fun _ _ hu h => h.update hu) hu h

theorem ZeroNice.boostCheck (h : ZeroNice k) : ZeroNice (boostCheck k) := by
  unfold Mlfq.boostCheck
  split
  · refine priorityBoost_keep ⟨h.nice, h.queue⟩ ?_ fun _ hk => ⟨hk.nice, hk.queue⟩
    intro k x _ hk
    exact zeroNice_enqueue hk.nice fun y _ => hk.queue y
  · exact h

theorem ZeroNice.move {a : Action} (h : ZeroNice m.kernel) (hm : Move a m m')
    (ha : KeepsNice m a) : ZeroNice m'.kernel := by
  cases hm with
  | updates _ hu => exact h.updates hu
  | nice v =>
    obtain rfl := ha v rfl
    exact h.setProc rfl rfl (fun hx => ⟨hx, rfl⟩)
  | yield hu => exact (h.yield _).updates hu
  | block _ chan status s hs hbefore hafter =>
    have hmid := h.updates hbefore
    refine ZeroNice.updates (hmid.setProc rfl ?_ ?_) hafter
    · exact hmid.nice _
    · intro hrun
      rcases hs with rfl | rfl <;> cases hrun
  | idle hnone => exact h.boostCheck
  | dispatch hfirst =>
    rename_i k x
    have hrun : ZeroNice (markRunning (unlinkProc (Mlfq.boostCheck k) x) x) :=
      h.boostCheck.setProc rfl (h.boostCheck.nice x) (by simp)
    exact hrun.setProc rfl (hrun.nice x) (fun hx => ⟨hx, rfl⟩)

/-! ## Processes ahead on queue 1 -/

/-- `p` is on queue 1 with at most `n` processes before it. -/
def Ahead (p n : ℕ) (k : Kernel) : Prop :=
  ∃ L A B, WellFormed k.qtable L ∧ L 1 = A ++ p :: B ∧ A.length ≤ n

theorem Ahead.congr (h : Ahead p n k) (hq : k'.qtable = k.qtable) : Ahead p n k' := by
  obtain ⟨L, A, B, hL, hsplit, hle⟩ := h
  exact ⟨L, A, B, hq ▸ hL, hsplit, hle⟩

/-- Whoever is enqueued later comes after `p`. -/
theorem queueFact_ahead (p n : ℕ) : QueueFact (Ahead p n) := by
  refine ⟨fun h hq _ => h.congr hq, fun h hq _ _ => h.congr hq, ?_⟩
  · rintro k L' x ⟨L, A, B, hL, hsplit, hle⟩ hL' hx hfresh
    obtain rfl := hL.unique hL'.toWellFormed
    have hnext := (hL'.enqueue hx hfresh).toWellFormed
    by_cases hl : assignedLevel (k.proc x) = 1
    · exact ⟨_, A, B ++ [x], hnext, by simp [hl, hsplit], hle⟩
    · exact ⟨_, A, B, hnext, by simp [Ne.symm hl, hsplit], hle⟩

theorem queueFact_boosts (b : ℕ) : QueueFact fun k => boosts k = b := by
  refine ⟨?_, ?_, ?_⟩
  · intro k k' h _ htr
    rw [boosts, htr]
    exact h
  · rintro k k' e h - htr ⟨x, rfl | rfl⟩
    · simpa [boosts, htr] using h
    · simpa [boosts, htr] using h
  · intro k L x h _ _ _
    simpa [boosts] using h

/-- Nothing is on queue 0, so `dequeue` takes a process from the front of queue 1. -/
theorem Ahead.unlinkProc (h : Ahead p n k) (hs : Sync (fun _ => False) k) (hz : ZeroNice k)
    (hfirst : firstProcess k.qtable = some x) (hxp : x ≠ p) :
    1 ≤ n ∧ Ahead p (n - 1) (unlinkProc k x) := by
  obtain ⟨L, A, B, hL, hsplit, hle⟩ := h
  obtain ⟨L', hq, hmem⟩ := hs.queued
  obtain rfl := hL.unique hq.toWellFormed
  have hzero : L 0 = [] := by
    refine List.eq_nil_iff_forall_not_mem.mpr fun y hy => ?_
    have hrun := ((hmem y (hL.bound 0 y hy)).mp ⟨0, hy⟩).1
    exact hz.queue y hrun (hq.level 0 y hy).2
  obtain ⟨i, xs, hi, habove⟩ := hL.firstProcess_cons hfirst
  have hone : i = 1 := by
    have hle1 : i ≤ 1 := by
      by_contra hlt
      have := habove 1 (not_le.mp hlt)
      simp [hsplit] at this
    have hne0 : i ≠ 0 := by
      rintro rfl
      simp [hzero] at hi
    fin_cases i
    · exact absurd rfl hne0
    · rfl
    · simp at hle1
  subst i
  cases A with
  | nil =>
    rw [hsplit] at hi
    exact absurd (List.cons.inj hi).1.symm hxp
  | cons y A =>
    have hyx : y = x := by
      rw [hsplit] at hi
      exact (List.cons.inj hi).1
    subst y
    have hlen : A.length + 1 ≤ n := by simpa using hle
    have hsplit' : L 1 = [] ++ x :: (A ++ p :: B) := hsplit
    refine ⟨by omega, _, A, B, (hq.unlinkProc hsplit').toWellFormed, by simp, ?_⟩
    omega

/-- After the boost all runnable processes are on queue 1. -/
theorem assignedLevel_eq_one {q : Proc} (ha : InAllotment q) (hn : q.nice = 0)
    (hq : q.queue ≠ 0) : assignedLevel q = 1 := by
  obtain ⟨l, hl, -, hle⟩ := ha
  refine ((assigned_of_nice_zero q hn).1 ?_).1
  unfold countedQuanta
  split
  · decide
  · rename_i hnot
    have hl1 : l = 1 := by
      have hlevel : niceLevel q.nice = 1 := by
        rw [hn]
        rfl
      rw [hlevel, hl] at hnot
      fin_cases l
      · exact absurd hl hq
      · rfl
      · exact absurd ⟨by decide, by decide⟩ hnot
    rw [hl1] at hle
    exact hle

theorem boosted_one (hz : ZeroNice k) (ha : Allotted k) :
    boosted k (List.range nproc) 1 = runnables k := by
  refine List.filter_congr ?_
  intro x _
  by_cases hrun : (k.proc x).state = .runnable
  · simp [hrun, assignedLevel_eq_one (ha x) (hz.nice x) (hz.queue x hrun)]
  · simp [hrun]

theorem ahead_priorityBoost (hz : ZeroNice k) (ha : Allotted k) (hp : p < nproc)
    (hrun : (k.proc p).state = .runnable) (hle : (runnables k).length ≤ n + 1) :
    Ahead p n (priorityBoost k) := by
  obtain ⟨hq, -⟩ := priorityBoost_spec k
  have hmem : p ∈ runnables k := by simp [runnables, hp, hrun]
  obtain ⟨A, B, hsplit⟩ := List.append_of_mem hmem
  refine ⟨_, A, B, hq.toWellFormed, (boosted_one hz ha).trans hsplit, ?_⟩
  rw [hsplit, List.length_append, List.length_cons] at hle
  omega

/-! ## Waiting from one boost to the next -/

/-- What every run with default nice values keeps. -/
structure Settled (m : Machine) : Prop where
  inv : Inv m
  bounded : Bounded m
  zero : ZeroNice m.kernel

theorem Settled.step {a : Action} (h : Settled m) (hs : step m a = some m')
    (ha : KeepsNice m a) : Settled m' :=
  ⟨h.inv.move (step_move hs), h.bounded.move (step_move hs), h.zero.move (step_move hs) ha⟩

theorem Booted.settled (h : Booted m) : Settled m := by
  refine ⟨h.inv, h.bounded, ?_⟩
  obtain ⟨mem, k, hk, rfl⟩ := h
  have hboot : ZeroNice bootKernel := ⟨fun _ => rfl, fun _ h => by cases h⟩
  exact hboot.updates (userinit_updates hk)

/-- The dispatches that are certain to come before the next boost. -/
def slack (m : Machine) : ℤ :=
  (if m.cpu = none then 60 else 59) - m.kernel.timeSincePriorityBoost

/-- Only the scheduler uses up slack: a process that yields has been dispatched before. -/
theorem Move.slack_le {a : Action} (hm : Move a m m') (ha : a ≠ .schedule) (hb : Bounded m) :
    slack m ≤ slack m' := by
  cases hm with
  | updates _ hu => simp [slack, hu.timeSincePriorityBoost]
  | nice v => exact le_rfl
  | yield hu =>
    have hint := hb.int_boost
    dsimp only at hint
    simp only [slack, hu.timeSincePriorityBoost, yield_timeSincePriorityBoost, hint,
      reduceCtorEq, if_false, if_true]
    omega
  | block _ chan status s hs hbefore hafter =>
    simp only [slack, hafter.timeSincePriorityBoost, setProc_timeSincePriorityBoost,
      hbefore.timeSincePriorityBoost, reduceCtorEq, if_false, if_true]
    omega
  | idle | dispatch => exact absurd rfl ha

/-- Since the number of boosts was `b` there has been none, or one after which `p` has few
enough processes before it. -/
def Phase (p b : ℕ) (m : Machine) : Prop :=
  boosts m.kernel = b ∨ boosts m.kernel = b + 1 ∧ ∃ n : ℕ, Ahead p n m.kernel ∧ n ≤ slack m

theorem boosts_priorityBoost (k : Kernel) : boosts (priorityBoost k) = boosts k + 1 := by
  obtain ⟨-, -, htr, -⟩ := priorityBoost_spec k
  have hnone : ((runnables k).map fun x =>
      Event.enqueue x (k.proc x) (assignedLevel (k.proc x))).count .boost = 0 := by
    rw [List.count_eq_zero]
    simp
  rw [boosts, htr, List.count_append, List.count_append, boosts]
  simpa [runnables] using hnone

theorem dequeue_of_first (h : firstProcess k.qtable = some x) :
    dequeue k = ⟨resume (markRunning (unlinkProc k x) x) x, some x⟩ := by
  simp only [dequeue, h]

theorem boosts_dispatch (k : Kernel) (x : ℕ) :
    boosts (resume (markRunning (unlinkProc k x) x) x) = boosts k := by
  simp [boosts, resume, markRunning, unlinkProc]

/-- The scheduler passes `p` over only for a process before it. -/
theorem Phase.schedule {b : ℕ} (hph : Phase p b m) (h : Settled m) (hcpu : m.cpu = none)
    (hc : BoostsFewer m .schedule) (hp : p < nproc) (hrun : (m.kernel.proc p).state = .runnable)
    (hrun' : ((dequeue (boostCheck m.kernel)).kernel.proc p).state = .runnable) :
    Phase p b (dequeue (boostCheck m.kernel)) := by
  obtain ⟨k, cpu⟩ := m
  obtain rfl : cpu = none := hcpu
  have hsync := h.inv.sync.boostCheck
  have hzero := h.zero.boostCheck
  dsimp only at hsync hzero hrun hrun' ⊢
  cases hfirst : firstProcess (boostCheck k).qtable with
  | none =>
    obtain ⟨L, hL, hmem⟩ := hsync.queued
    obtain ⟨i, hi⟩ := (hmem p hp).mpr ⟨by rw [boostCheck_state]; exact hrun, fun hout => hout⟩
    rw [hL.toWellFormed.firstProcess_none hfirst i] at hi
    cases hi
  | some x =>
    have hxp : x ≠ p := by
      rintro rfl
      simp [dequeue_of_first hfirst, resume, markRunning] at hrun'
    have hdispatch : ∀ n : ℕ, Ahead p n (boostCheck k) →
        (n : ℤ) + (boostCheck k).timeSincePriorityBoost ≤ 60 →
        ∃ n' : ℕ, Ahead p n' (dequeue (boostCheck k)).kernel ∧
          (n' : ℤ) ≤ slack (dequeue (boostCheck k)) := by
      intro n hahead hle
      obtain ⟨hpos, hnext⟩ := hahead.unlinkProc hsync hzero hfirst hxp
      rw [dequeue_of_first hfirst]
      refine ⟨n - 1, hnext.congr rfl, ?_⟩
      simp only [slack, reduceCtorEq, if_false]
      have htime : (resume (markRunning (unlinkProc (boostCheck k) x) x) x).timeSincePriorityBoost
          = (boostCheck k).timeSincePriorityBoost := rfl
      omega
    have hboosts : boosts (dequeue (boostCheck k)).kernel = boosts (boostCheck k) := by
      rw [dequeue_of_first hfirst]
      exact boosts_dispatch _ x
    by_cases hboost : k.timeSincePriorityBoost > 60
    · have hcheck : boostCheck k = priorityBoost k := if_pos hboost
      rcases hph with hb | ⟨-, n, -, hslack⟩
      · have hahead : Ahead p 60 (boostCheck k) := by
          rw [hcheck]
          exact ahead_priorityBoost h.zero h.bounded.allotted hp hrun (hc rfl hboost)
        have htime : (boostCheck k).timeSincePriorityBoost = 0 := by
          rw [hcheck]
          rfl
        refine .inr ⟨?_, hdispatch 60 hahead (by omega)⟩
        rw [hboosts, hcheck, boosts_priorityBoost, ← hb]
      · simp only [slack, if_true] at hslack
        omega
    · have hcheck : boostCheck k = k := if_neg hboost
      rw [hcheck] at hdispatch hboosts ⊢
      rcases hph with hb | ⟨hb, n, hahead, hslack⟩
      · exact .inl (hboosts.trans hb)
      · refine .inr ⟨hboosts.trans hb, hdispatch n hahead ?_⟩
        simp only [slack, if_true] at hslack
        omega

theorem Phase.step {a : Action} {b : ℕ} (hph : Phase p b m) (h : Settled m)
    (hs : step m a = some m') (hc : BoostsFewer m a) (hp : p < nproc)
    (hrun : (m.kernel.proc p).state = .runnable)
    (hrun' : (m'.kernel.proc p).state = .runnable) : Phase p b m' := by
  by_cases ha : a = .schedule
  · subst a
    obtain ⟨hcpu, hm⟩ := Option.ite_none_right_eq_some.mp hs
    cases hm
    exact hph.schedule h hcpu hc hp hrun hrun'
  · have hm := step_move hs
    have hkeep {P : Kernel → Prop} (hP : QueueFact P) (hk : P m.kernel) : P m'.kernel :=
      (hP.move h.inv hm hk).resolve_right fun hsched => ha hsched.1
    rcases hph with hb | ⟨hb, n, hahead, hslack⟩
    · exact .inl (hkeep (queueFact_boosts b) hb)
    · refine .inr ⟨hkeep (queueFact_boosts (b + 1)) hb, n, hkeep (queueFact_ahead p n) hahead, ?_⟩
      exact hslack.trans (hm.slack_le ha h.bounded)

/-! ## A waiting process -/

theorem Waits.phase {b : ℕ} {as : List Action} (hw : Waits p m as m') (hp : p < nproc)
    (hph : Phase p b m) (h : Settled m)
    (hc : Along step (fun m a => KeepsNice m a ∧ BoostsFewer m a) m as) : Phase p b m' := by
  induction as generalizing m with
  | nil =>
    cases hw.run
    exact hph
  | cons a as ih =>
    obtain ⟨hrun, hwait, hlast⟩ := hw
    obtain ⟨m₁, hstep, hrest⟩ := Option.bind_eq_some_iff.mp hrun
    obtain ⟨⟨hnice, hfew⟩, hc⟩ := hc
    have hwait₁ := hwait.2 m₁ hstep
    have hrun₁ : (m₁.kernel.proc p).state = .runnable := by
      cases as with
      | nil =>
        cases hrest
        exact hlast
      | cons b bs => exact hwait₁.1
    exact ih ⟨hrest, hwait₁, hlast⟩ (hph.step h hstep hfew hp hwait.1 hrun₁)
      (h.step hstep hnice) (hc m₁ hstep)

/-! ## A crowd

The processes in the first slots are all on queue 1 and only yield. -/

theorem Waits.append {as bs : List Action} {m₁ m₂ : Machine} (h : Waits p m as m₁)
    (h' : Waits p m₁ bs m₂) : Waits p m (as ++ bs) m₂ := by
  refine ⟨?_, h.waiting.append h.run h'.waiting, h'.last⟩
  rw [exec_append, h.run, Option.bind_some]
  exact h'.run

/-- The processes of the first `n` slots are on queue 1, those of `xs` first; they have used at
most `c` quanta and those of `ys` at most one more. -/
structure Crowd (n : ℕ) (k : Kernel) (xs ys : List ℕ) (c : ℤ) : Prop where
  le : n ≤ nproc
  settled : Settled ⟨k, none⟩
  queues : Queues k (update (fun _ => []) 1 (xs ++ ys))
  logging : k.isLogging = false
  runnable_iff : ∀ x < nproc, (k.proc x).state = .runnable ↔ x < n
  waiting : ∀ x ∈ xs, (k.proc x).quanta ≤ c
  done : ∀ y ∈ ys, (k.proc y).quanta ≤ c + 1

variable {n : ℕ} {xs ys : List ℕ} {c : ℤ}

theorem filter_range_lt {m : ℕ} (h : n ≤ m) :
    (List.range m).filter (fun x => decide (x < n)) = List.range n := by
  induction m, h using Nat.le_induction with
  | base => exact List.filter_eq_self.mpr fun x hx => by simpa using hx
  | succ m h ih => rw [List.range_succ, List.filter_append, ih]; simp [Nat.not_lt.mpr h]

theorem Crowd.mem_iff (h : Crowd n k xs ys c) : x ∈ xs ++ ys ↔ x < n := by
  obtain ⟨L, hL, hmem⟩ := h.settled.inv.sync.queued
  obtain rfl := hL.toWellFormed.unique h.queues.toWellFormed
  constructor
  · intro hx
    have hone : x ∈ update (fun _ => []) 1 (xs ++ ys) 1 := by simpa using hx
    have hlt := hL.bound 1 x hone
    exact (h.runnable_iff x hlt).mp ((hmem x hlt).mp ⟨1, hone⟩).1
  · intro hx
    have hlt := hx.trans_le h.le
    obtain ⟨i, hi⟩ := (hmem x hlt).mpr ⟨(h.runnable_iff x hlt).mpr hx, fun hout => hout⟩
    by_cases hi1 : i = 1
    · subst i
      simpa using hi
    · simp [hi1] at hi

theorem Crowd.runnable (h : Crowd n k xs ys c) (hx : x ∈ xs ++ ys) :
    (k.proc x).state = .runnable :=
  (h.runnable_iff x ((h.mem_iff.mp hx).trans_le h.le)).mpr (h.mem_iff.mp hx)

theorem Crowd.length_runnables (h : Crowd n k xs ys c) : (runnables k).length = n := by
  have hlist : runnables k = (List.range nproc).filter fun x => decide (x < n) := by
    refine List.filter_congr ?_
    intro x hx
    simp [h.runnable_iff x (List.mem_range.mp hx)]
  rw [hlist, filter_range_lt h.le, List.length_range]

theorem Crowd.firstProcess (h : Crowd n k (x :: xs) ys c) : firstProcess k.qtable = some x := by
  rw [h.queues.toWellFormed.firstProcess_eq]
  simp

theorem turn_proc_of_ne (h : x ≠ p) : (turn k p).proc x = k.proc x := by
  simp [turn, Mlfq.yield, resume, markRunning, unlinkProc, h]

/-- A process with quanta to spare comes back to queue 1. -/
theorem assigned_yielded {q : Proc} (hn : q.nice = 0) (h0 : 0 ≤ q.quanta) (h10 : q.quanta < 10) :
    assignedLevel (yielded q) = 1 ∧ assignedQuanta (yielded q) ≤ q.quanta + 1 := by
  have hint : int (q.quanta + 1) = q.quanta + 1 := int_of_small (by omega) (by omega)
  have hcount : countedQuanta (yielded q) ≤ q.quanta + 1 := by
    unfold countedQuanta
    split
    · omega
    · simp [yielded, hint]
  obtain ⟨hlevel, hquanta⟩ := (assigned_of_nice_zero (yielded q) hn).1 (by omega)
  exact ⟨hlevel, by omega⟩

/-- `enqueue` for a process whose record was changed just before. -/
theorem Queues.enqueue_of {l : Level} (h : Queues k L) (k' : Kernel) (hx : x < nproc)
    (hfresh : ∀ i, x ∉ L i) (hq : k'.qtable = k.qtable) (hother : ∀ y, y ≠ x → k'.proc y = k.proc y)
    (hl : assignedLevel (k'.proc x) = l) :
    Queues (Mlfq.enqueue k' x) (update L l (L l ++ [x])) := by
  have hL : Queues k' L := by
    refine h.congr hq ?_
    intro i y hy
    rw [hother y]
    rintro rfl
    exact hfresh i hy
  subst hl
  exact hL.enqueue hx hfresh

theorem Queues.yield {l : Level} (h : Queues k L) (hset : k.isQueueSetup = true)
    (hx : x < nproc) (hfresh : ∀ i, x ∉ L i)
    (hl : assignedLevel { k.proc x with
      state := .runnable, quanta := int ((k.proc x).quanta + 1) } = l) :
    Queues (yield k x) (update L l (L l ++ [x])) := by
  rw [Mlfq.yield, ensureQueue_of_setup _ (by simpa using hset)]
  refine h.enqueue_of _ hx hfresh rfl ?_ (by simpa using hl)
  intro y hy
  simp [hy]

/-- The first process of queue 1 takes a turn and goes to its end. -/
theorem Queues.turn (h : Queues k L) (hset : k.isQueueSetup = true) (hL : L 1 = x :: xs)
    (hlevel : assignedLevel (yielded (k.proc x)) = 1) :
    Queues (turn k x) (update L 1 (xs ++ [x])) := by
  have hfirst : L 1 = [] ++ x :: xs := hL
  have hnot : ∀ i, x ∉ update L 1 xs i := by
    intro i hi
    by_cases hi1 : i = 1
    · subst i
      have hnodup := h.lanes.nodup 1
      rw [hL] at hnodup
      exact (List.nodup_cons.mp hnodup).1 (by simpa using hi)
    · rw [update_of_ne hi1] at hi
      exact h.lanes.disjoint i 1 hi1 hi (by simp [hL])
  have hrun : Queues (resume (markRunning (Mlfq.unlinkProc k x) x) x)
      (update L 1 xs) := by
    refine (h.unlinkProc hfirst).congr rfl ?_
    intro i y hy
    by_cases hyx : y = x <;> simp [resume, markRunning, hyx]
  have hnext := hrun.yield hset (h.bound 1 x (by simp [hL])) hnot (l := 1)
    (by simpa [resume, markRunning, Mlfq.unlinkProc, yielded] using hlevel)
  simpa [Mlfq.turn] using hnext

/-- The first process takes a turn and goes to the end of the queue. -/
theorem Crowd.turn (h : Crowd n k (x :: xs) ys c) (hc : c + 1 ≤ 10)
    (htime : k.timeSincePriorityBoost ≤ 60) (hp : p ∈ xs) :
    Waits p ⟨k, none⟩ [.schedule, .yield] ⟨turn k x, none⟩ ∧
      Crowd n (turn k x) xs (ys ++ [x]) c := by
  have hnodup := h.queues.lanes.nodup 1
  rw [update_self, List.cons_append] at hnodup
  obtain ⟨hxnot, -⟩ := List.nodup_cons.mp hnodup
  have hpx : p ≠ x := by
    rintro rfl
    exact hxnot (by simp [hp])
  have hrunnable : (k.proc p).state = .runnable := h.runnable (by simp [hp])
  have hstep : step ⟨k, none⟩ .schedule =
      some ⟨resume (markRunning (unlinkProc k x) x) x, some x⟩ := by
    have hcheck : boostCheck k = k := if_neg (not_lt.mpr htime)
    simp only [step, if_true, hcheck, dequeue_of_first h.firstProcess]
  have hyield : step ⟨resume (markRunning (unlinkProc k x) x) x, some x⟩ .yield =
      some ⟨Mlfq.turn k x, none⟩ := by
    have hswitch := afterSwitch_turn (k := k) (p := x) h.logging
    simp only [step, Option.map_some, sched]
    rw [show yield (resume (markRunning (unlinkProc k x) x) x) x = Mlfq.turn k x from rfl, hswitch]
  have hsettled : Settled ⟨Mlfq.turn k x, none⟩ :=
    (h.settled.step hstep (by simp [KeepsNice])).step hyield (by simp [KeepsNice])
  have hquanta := h.waiting x (by simp)
  obtain ⟨hlevel, hassigned⟩ := assigned_yielded (h.settled.zero.nice x)
    (h.settled.bounded.allotted.quanta_nonneg x) (by dsimp only; omega)
  dsimp only at hlevel hassigned
  have hsame : ∀ y, y ≠ x → (Mlfq.turn k x).proc y = k.proc y := fun y hy => turn_proc_of_ne hy
  refine ⟨⟨?_, ⟨hrunnable, ?_⟩, ?_⟩, h.le, hsettled, ?_, turn_isLogging.trans h.logging, ?_, ?_,
    ?_⟩
  · simp only [exec, hstep, hyield, Option.bind_some]
  · intro m₁ hm₁
    cases hstep.symm.trans hm₁
    refine ⟨?_, fun _ _ => trivial⟩
    simpa [resume, markRunning, Mlfq.unlinkProc, hpx] using hrunnable
  · simpa [hsame p hpx] using hrunnable
  · have hfront : update (fun _ => []) 1 (x :: xs ++ ys) 1 = x :: (xs ++ ys) := by simp
    simpa using h.queues.turn h.settled.inv.sync.setup hfront hlevel
  · intro y hy
    by_cases hyx : y = x
    · rw [hyx, turn_proc]
      exact iff_of_true rfl (h.mem_iff.mp (by simp))
    · rw [hsame y hyx]
      exact h.runnable_iff y hy
  · intro y hy
    have hyx : y ≠ x := by
      rintro rfl
      exact hxnot (by simp [hy])
    rw [hsame y hyx]
    exact h.waiting y (by simp [hy])
  · intro y hy
    by_cases hyx : y = x
    · rw [hyx, turn_proc]
      dsimp only
      omega
    · rw [hsame y hyx]
      exact h.done y (by simpa [hyx] using hy)

theorem along_boostsFewer_turn (htime : k.timeSincePriorityBoost ≤ 60) :
    Along step BoostsFewer ⟨k, none⟩ [.schedule, .yield] :=
  ⟨fun _ hdue => absurd hdue (not_lt.mpr htime), fun _ _ => ⟨by simp [BoostsFewer],
    fun _ _ => trivial⟩⟩

/-- A turn of each process of `zs` in order; no boost is due. -/
theorem Crowd.turns {zs : List ℕ} (h : Crowd n k (zs ++ xs) ys c) (hc : c + 1 ≤ 10)
    (htime : k.timeSincePriorityBoost + zs.length ≤ 61) (hp : p ∈ xs) :
    ∃ k', Waits p ⟨k, none⟩ (List.replicate zs.length [.schedule, .yield]).flatten ⟨k', none⟩ ∧
      Along step BoostsFewer ⟨k, none⟩ (List.replicate zs.length [.schedule, .yield]).flatten ∧
      Crowd n k' xs (ys ++ zs) c ∧
      k'.timeSincePriorityBoost = k.timeSincePriorityBoost + zs.length ∧
      boosts k' = boosts k := by
  induction zs generalizing k ys with
  | nil =>
    exact ⟨k, ⟨rfl, trivial, h.runnable (by simp [hp])⟩, trivial, by simpa using h, by simp, rfl⟩
  | cons z zs ih =>
    simp only [List.length_cons] at htime ⊢
    push_cast at htime ⊢
    obtain ⟨hwait, hcrowd⟩ := Crowd.turn h hc (by omega) (p := p) (by simp [hp])
    have hage : (Mlfq.turn k z).timeSincePriorityBoost = k.timeSincePriorityBoost + 1 :=
      turn_timeSincePriorityBoost.trans h.settled.bounded.int_boost
    have hsame : boosts (Mlfq.turn k z) = boosts k := by simp [boosts, turn_trace]
    obtain ⟨k', hwait', hfew, hcrowd', hage', hboosts'⟩ := ih hcrowd (by omega)
    refine ⟨k', hwait.append hwait',
      (along_boostsFewer_turn (by omega)).append hwait.run hfew, by simpa using hcrowd',
      by omega, hboosts'.trans hsame⟩

/-! ### One boost period -/

theorem Settled.boostCheck (h : Settled ⟨k, none⟩) : Settled ⟨boostCheck k, none⟩ := by
  obtain ⟨hlow, hhigh⟩ := boostCheck_timeSincePriorityBoost h.bounded.boost_nonneg
  refine ⟨⟨h.inv.sync.boostCheck, ?_, by simp⟩,
    ⟨h.bounded.allotted.boostCheck, hlow, hhigh.trans (by decide), by simp⟩, h.zero.boostCheck⟩
  intro x
  rw [boostCheck_state]
  exact h.inv.running_iff x

theorem assignedQuanta_le {q : Proc} (h : 0 ≤ q.quanta) : assignedQuanta q ≤ q.quanta := by
  rw [assignedQuanta_eq]
  split
  · exact h
  · exact le_rfl

theorem priorityBoost_isLogging (k : Kernel) : (priorityBoost k).isLogging = k.isLogging := by
  refine priorityBoost_keep (P := fun k₁ => k₁.isLogging = k.isLogging) rfl ?_ fun _ h => h
  intro k₁ x _ h
  rw [enqueue_eq]
  exact h

/-- The boost puts the processes back in the order of the process table. -/
theorem Crowd.boost (h : Crowd n k xs ys c) (htime : 60 < k.timeSincePriorityBoost) :
    Crowd n (priorityBoost k) (List.range n) [] (c + 1) := by
  obtain ⟨hq, hproc, -, -⟩ := priorityBoost_spec k
  have hcheck : boostCheck k = priorityBoost k := if_pos htime
  have hlevel : ∀ x < nproc, (k.proc x).state = .runnable → assignedLevel (k.proc x) = 1 :=
    fun x _ hs => assignedLevel_eq_one (h.settled.bounded.allotted x) (h.settled.zero.nice x)
      (h.settled.zero.queue x hs)
  have hlists : boosted k (List.range nproc) =
      update (fun _ => []) 1 (List.range n ++ []) := by
    funext i
    by_cases hi : i = 1
    · subst i
      rw [update_self, List.append_nil, ← filter_range_lt h.le, boosted]
      refine List.filter_congr ?_
      intro x hx
      have hlt := List.mem_range.mp hx
      have hrun := h.runnable_iff x hlt
      by_cases hxn : x < n
      · simp [hxn, hrun.mpr hxn, hlevel x hlt (hrun.mpr hxn)]
      · simp [hxn, hrun.not.mpr hxn]
    · rw [update_of_ne hi, boosted, List.filter_eq_nil_iff]
      intro x hx
      simp only [decide_eq_true_eq, not_and]
      intro hs
      rw [hlevel x (List.mem_range.mp hx) hs]
      exact Ne.symm hi
  refine ⟨h.le, hcheck ▸ h.settled.boostCheck, hlists ▸ hq,
    (priorityBoost_isLogging k).trans h.logging, ?_, ?_, by simp⟩
  · intro x hx
    rw [priorityBoost_state]
    exact h.runnable_iff x hx
  · intro x hx
    have hmem := h.mem_iff.mpr (List.mem_range.mp hx)
    have hlt := (List.mem_range.mp hx).trans_le h.le
    rw [hproc x, if_pos ⟨hlt, h.runnable hmem⟩]
    refine (assignedQuanta_le (h.settled.bounded.allotted.quanta_nonneg x)).trans ?_
    rcases List.mem_append.mp hmem with hx | hx
    · have := h.waiting x hx
      dsimp only
      omega
    · exact h.done x hx

/-- A pass of the scheduler that starts with a boost does what it does after that boost. -/
theorem step_schedule_boost (htime : 60 < k.timeSincePriorityBoost) :
    step ⟨k, none⟩ .schedule = step ⟨priorityBoost k, none⟩ .schedule := by
  have hcheck : boostCheck k = priorityBoost k := if_pos htime
  have hagain : boostCheck (priorityBoost k) = priorityBoost k := if_neg (by simp [priorityBoost])
  simp only [step, hcheck, hagain]

theorem along_before_boost {C : Machine → Action → Prop} {as : List Action}
    (h : Along step C ⟨priorityBoost k, none⟩ (.schedule :: as))
    (htime : 60 < k.timeSincePriorityBoost) (hfirst : C ⟨k, none⟩ .schedule) :
    Along step C ⟨k, none⟩ (.schedule :: as) := by
  refine ⟨hfirst, ?_⟩
  rw [step_schedule_boost htime]
  exact h.2

/-- A run that starts with a pass of the scheduler can start before the boost of that
pass. -/
theorem Waits.before_boost {as : List Action}
    (h : Waits p ⟨priorityBoost k, none⟩ (.schedule :: as) m)
    (htime : 60 < k.timeSincePriorityBoost) : Waits p ⟨k, none⟩ (.schedule :: as) m := by
  obtain ⟨hrun, hwait, hlast⟩ := h
  refine ⟨?_, along_before_boost hwait htime ?_, hlast⟩
  · simpa only [exec, step_schedule_boost htime] using hrun
  · have hfirst := hwait.1
    dsimp only at hfirst ⊢
    rwa [priorityBoost_state] at hfirst

/-- The boost is due, and the first processes of the table take the turns after it. -/
theorem Crowd.period (h : Crowd n k xs ys c) (hc : c + 2 ≤ 10)
    (htime : k.timeSincePriorityBoost = 61) {j : ℕ} (hj : j < 61) {zs : List ℕ}
    (hrange : List.range n = List.range (j + 1) ++ zs) (hp : p ∈ zs) :
    ∃ k', Waits p ⟨k, none⟩ (List.replicate (j + 1) [.schedule, .yield]).flatten ⟨k', none⟩ ∧
      (n ≤ 61 → Along step BoostsFewer ⟨k, none⟩
        (List.replicate (j + 1) [.schedule, .yield]).flatten) ∧
      Crowd n k' zs (List.range (j + 1)) (c + 1) ∧ k'.timeSincePriorityBoost = j + 1 ∧
      boosts k' = boosts k + 1 := by
  have hcrowd := h.boost (by omega)
  rw [hrange] at hcrowd
  have hzero : (priorityBoost k).timeSincePriorityBoost = 0 := rfl
  obtain ⟨k', hwait, hfew, hcrowd', hage, hboosts⟩ := hcrowd.turns (p := p) (by omega)
    (by rw [hzero, List.length_range]; omega) hp
  rw [List.length_range] at hwait hfew hage
  refine ⟨k', hwait.before_boost (by omega), ?_, by simpa using hcrowd', ?_, ?_⟩
  · intro hn
    exact along_before_boost hfew (by omega) fun _ _ => h.length_runnables.trans_le hn
  · rw [hage, hzero]
    simp
  · rw [hboosts, boosts_priorityBoost]

/-! ### Filling the table -/

/-- Every allocation succeeds. -/
def enoughMemory : Memory := ⟨true, true, true⟩

/-- The first process runs and has forked `j` children, which wait on queue 1. -/
structure Family (k : Kernel) (j : ℕ) : Prop where
  settled : Settled ⟨k, some 0⟩
  queues : Queues k (update (fun _ => []) 1 (List.range' 1 j))
  logging : k.isLogging = false
  free_iff : ∀ x < nproc, (k.proc x).state = .unused ↔ j < x
  quanta : ∀ x, (k.proc x).quanta = 0
  time : k.timeSincePriorityBoost = 0
  boosts : boosts k = 0

variable {j : ℕ}

/-- What `fork` does when every allocation succeeds: it fills in the record of a free slot
and lets the new process run. -/
theorem fork_spec (hx : (List.range nproc).find? (fun i => (k.proc i).state = .unused) = some x) :
    ∃ k₁, (fork k p enoughMemory).1 = makeRunnable k₁ x ∧ k₁.qtable = k.qtable ∧
      k₁.trace = k.trace ∧ k₁.isQueueSetup = k.isQueueSetup ∧ k₁.isLogging = k.isLogging ∧
      k₁.timeSincePriorityBoost = k.timeSincePriorityBoost ∧
      (∀ y, y ≠ x → k₁.proc y = k.proc y) ∧ (k₁.proc x).nice = (k.proc x).nice ∧
      (k₁.proc x).quanta = (k.proc x).quanta := by
  simp only [fork, allocproc, hx, enoughMemory, Bool.true_eq_false, if_false]
  refine ⟨_, rfl, rfl, rfl, rfl, rfl, rfl, ?_, ?_, ?_⟩
  · intro y hy
    simp [hy]
  · simp
  · simp

theorem assigned_of_fresh {q : Proc} (hn : q.nice = 0) (hq : q.quanta = 0) :
    assignedLevel q = 1 ∧ assignedQuanta q = 0 := by
  have hcount : countedQuanta q = 0 := by simp [countedQuanta, hq]
  obtain ⟨hlevel, hquanta⟩ := (assigned_of_nice_zero q hn).1 (by omega)
  exact ⟨hlevel, hquanta.trans hcount⟩

theorem Family.fork (h : Family k j) (hj : j + 1 < nproc) :
    ∃ k', step ⟨k, some 0⟩ (.fork enoughMemory) = some ⟨k', some 0⟩ ∧ Family k' (j + 1) := by
  have hfind : (List.range nproc).find? (fun i => (k.proc i).state = .unused) =
      some (j + 1) := by
    rw [List.find?_range_eq_some]
    refine ⟨?_, by simpa using hj, ?_⟩
    · simpa using (h.free_iff (j + 1) hj).mpr (by omega)
    · intro i hi
      have := (h.free_iff i (by omega)).not.mpr (by omega)
      simpa using this
  have hstep : step ⟨k, some 0⟩ (.fork enoughMemory) =
      some ⟨(Mlfq.fork k 0 enoughMemory).1, some 0⟩ := rfl
  have hsettled := h.settled.step hstep (by simp [KeepsNice])
  obtain ⟨k₁, heq, hq, htr, hset, hlog, htime, hother, hnice, hquanta⟩ :=
    fork_spec (p := 0) hfind
  obtain ⟨hlevel, hzero⟩ := assigned_of_fresh
    (q := { k₁.proc (j + 1) with state := .runnable })
    (hnice.trans (h.settled.zero.nice (j + 1))) (hquanta.trans (h.quanta (j + 1)))
  rw [heq] at hstep hsettled
  have hsetup : (k₁.setProc (j + 1) { k₁.proc (j + 1) with state := .runnable }).isQueueSetup =
      true := by simpa [hset] using h.settled.inv.sync.setup
  refine ⟨_, hstep, hsettled, ?_, ?_, ?_, ?_, ?_, ?_⟩
  · rw [makeRunnable, ensureQueue_of_setup _ hsetup]
    have hnew := h.queues.enqueue_of (x := j + 1) (l := 1)
      (k₁.setProc (j + 1) { k₁.proc (j + 1) with state := .runnable }) hj ?_ hq ?_ ?_
    · rw [List.range'_concat]
      simpa [Nat.add_comm] using hnew
    · intro i hi
      by_cases hi1 : i = 1
      · subst i
        simp [List.mem_range'_1] at hi
        omega
      · simp [hi1] at hi
    · intro y hy
      simp [hy, hother y hy]
    · simpa using hlevel
  · rw [makeRunnable, ensureQueue_of_setup _ hsetup, enqueue_eq]
    exact hlog.trans h.logging
  · intro x hx
    by_cases hxj : x = j + 1
    · simp [hxj]
    · rw [makeRunnable_proc, update_of_ne hxj, hother x hxj, h.free_iff x hx]
      omega
  · intro x
    by_cases hxj : x = j + 1
    · subst x
      rw [makeRunnable_proc, update_self]
      exact hzero
    · rw [makeRunnable_proc, update_of_ne hxj, hother x hxj]
      exact h.quanta x
  · simpa [makeRunnable, htime] using h.time
  · simpa [makeRunnable, Mlfq.boosts, htr] using h.boosts

theorem Family.forks (h : Family k j) {n : ℕ} (hn : j + n < nproc) :
    ∃ k', exec step ⟨k, some 0⟩ (List.replicate n (.fork enoughMemory)) = some ⟨k', some 0⟩ ∧
      Family k' (j + n) := by
  induction n generalizing k j with
  | zero => exact ⟨k, rfl, h⟩
  | succ n ih =>
    obtain ⟨k₁, hstep, hfamily⟩ := h.fork (by omega)
    obtain ⟨k', hrest, hfamily'⟩ := ih hfamily (by omega)
    refine ⟨k', ?_, by rwa [Nat.add_assoc, Nat.add_comm 1 n] at hfamily'⟩
    rw [List.replicate_succ, exec, hstep, Option.bind_some]
    exact hrest

/-- The parent gives up the processor and queues behind its children. -/
theorem Family.yield (h : Family k j) (hj : j < nproc) :
    ∃ k', step ⟨k, some 0⟩ .yield = some ⟨k', none⟩ ∧
      Crowd (j + 1) k' (List.range' 1 j ++ [0]) [] 1 ∧ k'.timeSincePriorityBoost = 1 ∧
      Mlfq.boosts k' = 0 := by
  have hswitch : afterSwitch (Mlfq.yield k 0) 0 = Mlfq.yield k 0 := by
    simp [afterSwitch, yield_isLogging, h.logging]
  have hstep : step ⟨k, some 0⟩ .yield = some ⟨Mlfq.yield k 0, none⟩ := by
    simp only [step, Option.map_some, sched, hswitch]
  have hsettled := h.settled.step hstep (by simp [KeepsNice])
  have hone : int ((k.proc 0).quanta + 1) = 1 := by
    rw [h.quanta 0]
    decide
  have hcount : countedQuanta { k.proc 0 with
      state := .runnable, quanta := int ((k.proc 0).quanta + 1) } ≤ 1 := by
    unfold countedQuanta
    split
    · decide
    · exact hone.le
  obtain ⟨hlevel, hquanta⟩ := (assigned_of_nice_zero { k.proc 0 with
      state := .runnable, quanta := int ((k.proc 0).quanta + 1) } (h.settled.zero.nice 0)).1
    (by omega)
  have hother : ∀ y, y ≠ 0 → (Mlfq.yield k 0).proc y = k.proc y := by
    intro y hy
    simp [Mlfq.yield, hy]
  refine ⟨_, hstep, ⟨hj, hsettled, ?_, yield_isLogging.trans h.logging, ?_, ?_, by simp⟩, ?_, ?_⟩
  · have hnew := h.queues.yield h.settled.inv.sync.setup (by decide) ?_ hlevel
    · simpa using hnew
    · intro i hi
      by_cases hi1 : i = 1
      · subst i
        simp at hi
      · simp [hi1] at hi
  · intro x hx
    by_cases hx0 : x = 0
    · simp [hx0, Mlfq.yield]
    · rw [hother x hx0]
      obtain ⟨L, hL, hmem'⟩ := h.settled.inv.sync.queued
      obtain rfl := hL.toWellFormed.unique h.queues.toWellFormed
      have hqueued := hmem' x hx
      constructor
      · intro hs
        have hused := (h.free_iff x hx).not.mp (by simp [hs])
        omega
      · intro hlt
        have hchild : x ∈ List.range' 1 j := by
          rw [List.mem_range'_1]
          omega
        exact (hqueued.mp ⟨1, by simpa using hchild⟩).1
  · intro x _
    by_cases hx0 : x = 0
    · subst x
      have hle : assignedQuanta { k.proc 0 with
          state := .runnable, quanta := int ((k.proc 0).quanta + 1) } ≤ 1 := by omega
      simpa [Mlfq.yield] using hle
    · rw [hother x hx0, h.quanta x]
      decide
  · rw [yield_timeSincePriorityBoost, h.time]
    decide
  · simpa [Mlfq.yield, Mlfq.boosts] using h.boosts

theorem booted_init : Booted ⟨makeRunnable initKernel 0, none⟩ :=
  ⟨enoughMemory, _, rfl, rfl⟩

theorem family_boot : ∃ k, step ⟨makeRunnable initKernel 0, none⟩ .schedule = some ⟨k, some 0⟩ ∧
    Family k 0 := by
  have hstep : step ⟨makeRunnable initKernel 0, none⟩ .schedule =
      some ⟨resume (markRunning (unlinkProc (makeRunnable initKernel 0) 0) 0) 0, some 0⟩ := by
    have hcheck : boostCheck (makeRunnable initKernel 0) = makeRunnable initKernel 0 := rfl
    simp only [step, if_true, hcheck, dequeue_of_first solo_boot.firstProcess]
  have hsettled := booted_init.settled.step hstep (by simp [KeepsNice])
  have hstate : ∀ x, ((resume (markRunning (unlinkProc (makeRunnable initKernel 0) 0) 0) 0).proc
      x).state = if x = 0 then .running else .unused := by
    intro x
    by_cases hx : x = 0
    · simp [hx, resume, markRunning]
    · simp [hx, resume, markRunning, unlinkProc, initKernel_state]
  refine ⟨_, hstep, hsettled, ?_, rfl, ?_, ?_, rfl, rfl⟩
  · obtain ⟨L, hL, hmem⟩ := hsettled.inv.sync.queued
    have hempty : L = update (fun _ => []) 1 (List.range' 1 0) := by
      funext i
      have hnil : L i = [] := by
        refine List.eq_nil_iff_forall_not_mem.mpr fun x hx => ?_
        have hrun := ((hmem x (hL.bound i x hx)).mp ⟨i, hx⟩).1
        rw [hstate x] at hrun
        split at hrun <;> cases hrun
      rw [hnil]
      by_cases hi : i = 1 <;> simp [hi]
    rwa [← hempty]
  · intro x _
    rw [hstate x]
    by_cases hx : x = 0
    · simp [hx]
    · simp [hx, Nat.pos_of_ne_zero hx]
  · intro x
    by_cases hx : x = 0
    · subst x
      decide +kernel
    · simp [hx, resume, markRunning, unlinkProc, initKernel, bootKernel, bootProc]

theorem keepsNice_of_mem_turns {n : ℕ} {a : Action}
    (h : a ∈ (List.replicate n [Action.schedule, Action.yield]).flatten) (m : Machine) :
    KeepsNice m a := by
  obtain ⟨as, has, ha⟩ := List.mem_flatten.mp h
  rw [List.eq_of_mem_replicate has] at ha
  intro v hv
  subst hv
  simp at ha

/-- The first process has forked `j` children and has given up the processor. -/
theorem exists_crowd {j : ℕ} (hj : j < nproc) :
    ∃ k as, exec step ⟨makeRunnable initKernel 0, none⟩ as = some ⟨k, none⟩ ∧
      Along step (fun m a => KeepsNice m a ∧ BoostsFewer m a) ⟨makeRunnable initKernel 0, none⟩
        as ∧
      Crowd (j + 1) k (List.range' 1 j ++ [0]) [] 1 ∧ k.timeSincePriorityBoost = 1 ∧
      boosts k = 0 := by
  obtain ⟨k₀, hboot, hfamily⟩ := family_boot
  obtain ⟨k₁, hforks, hfamily₁⟩ := hfamily.forks (n := j) (by omega)
  obtain ⟨k₂, hyield, hcrowd, htime, hboosts⟩ := Family.yield (by simpa using hfamily₁) hj
  refine ⟨k₂, .schedule :: (List.replicate j (.fork enoughMemory) ++ [.yield]), ?_, ?_,
    hcrowd, htime, hboosts⟩
  · rw [exec, hboot, Option.bind_some, exec_append, hforks, Option.bind_some]
    simp only [exec, hyield, Option.bind_some]
  · have hearly : ¬ (makeRunnable initKernel 0).timeSincePriorityBoost > 60 := by decide
    refine ⟨⟨by simp [KeepsNice], fun _ hdue => absurd hdue hearly⟩, fun m _ => ?_⟩
    refine along_of_forall ?_
    intro a ha u
    rcases List.mem_append.mp ha with ha | ha
    · obtain rfl := List.eq_of_mem_replicate ha
      simp [KeepsNice, BoostsFewer]
    · obtain rfl := List.mem_singleton.mp ha
      simp [KeepsNice, BoostsFewer]

/-! ## Main result -/

/-- With default nice values and at most 61 runnable processes at every boost, no interval
in which a process is runnable throughout contains three boosts. -/
theorem reachWhere_waits_boosts {s : Machine} (hs : Booted s)
    (hm : ReachWhere step (fun m a => KeepsNice m a ∧ BoostsFewer m a) s m)
    {as : List Action} (hc : Along step (fun m a => KeepsNice m a ∧ BoostsFewer m a) m as)
    (hp : p < nproc) (hw : Waits p m as m') : boosts m'.kernel < boosts m.kernel + 3 := by
  have hsettled : Settled m :=
    hm.invariant hs.settled fun _ _ _ hi hc hstep => hi.step hstep hc.1
  have hphase : Phase p (boosts m.kernel) m' := hw.phase hp (.inl rfl) hsettled hc
  rcases hphase with hb | ⟨hb, -⟩ <;> omega

/-- The first process forks 60 children, and all processes only yield. The last child is
runnable from its first turn through a boost that finds 61 runnable processes, and until the
others have taken their turns after it. -/
theorem reachWhere_waits_boosts_crowd : ∃ m m' : Machine,
    (runnables m.kernel).length = 61 ∧
    Waits 60 m (List.replicate 60 [.schedule, .yield]).flatten m' ∧
    boosts m'.kernel = boosts m.kernel + 1 ∧ boosts m'.kernel < boosts m.kernel + 3 := by
  obtain ⟨k₁, as, hrun, hcond, hcrowd, htime, -⟩ := exists_crowd (j := 60) (by decide)
  obtain ⟨k₂, hwait₂, hfew₂, hcrowd₂, htime₂, -⟩ := hcrowd.turns (p := 0) (by decide)
    (by rw [htime]; decide) (by simp)
  rw [htime, List.length_range'] at htime₂
  have hrange : List.range 61 = List.range (59 + 1) ++ [60] := by decide
  obtain ⟨k₃, hwait₃, hfew₃, -, -, hboosts₃⟩ := hcrowd₂.period (j := 59) (p := 60) (by decide)
    (htime₂.trans (by decide)) (by decide) hrange (by simp)
  have hnice : ∀ (n : ℕ) (m : Machine), Along step KeepsNice m
      (List.replicate n [Action.schedule, Action.yield]).flatten :=
    fun n m => along_of_forall fun a ha => keepsNice_of_mem_turns ha
  have hreach := reachWhere_of_along hrun hcond
  refine ⟨⟨k₂, none⟩, ⟨k₃, none⟩, hcrowd₂.length_runnables, hwait₃, hboosts₃, ?_⟩
  exact reachWhere_waits_boosts booted_init
    (hreach.trans (reachWhere_of_along hwait₂.run ((hnice _ _).and hfew₂)))
    ((hnice _ _).and (hfew₃ (by decide))) (by decide) hwait₃

/-- The first process forks 63 children, and all processes only yield. The last one is
runnable throughout an interval with three boosts. -/
theorem crowd_waits_three_boosts : ∃ (s m : Machine) (as : List Action) (m' : Machine),
    Booted s ∧ ReachWhere step KeepsNice s m ∧ Along step KeepsNice m as ∧ Waits 63 m as m' ∧
      boosts m'.kernel = boosts m.kernel + 3 := by
  obtain ⟨k₂, as, hrun, hcond, hcrowd, htime, hboosts⟩ := exists_crowd (j := 63) (by decide)
  -- Sixty turns use up the first period, which began with the parent's call of `yield`.
  have hsplit : List.range' 1 63 ++ [0] = List.range' 1 60 ++ [61, 62, 63, 0] := by decide
  rw [hsplit] at hcrowd
  obtain ⟨k₃, hwait₃, -, hcrowd₃, htime₃, hboosts₃⟩ := hcrowd.turns (p := 63) (by decide)
    (by rw [htime]; decide) (by simp)
  have hdue : k₃.timeSincePriorityBoost = 61 := by
    rw [htime₃, htime]
    decide
  have hrange : List.range 64 = List.range 61 ++ [61, 62, 63] := by decide
  obtain ⟨k₄, hwait₄, -, hcrowd₄, htime₄, hboosts₄⟩ := hcrowd₃.period (j := 60) (p := 63)
    (by decide) hdue (by decide) hrange (by simp)
  obtain ⟨k₅, hwait₅, -, hcrowd₅, htime₅, hboosts₅⟩ := hcrowd₄.period (j := 60) (p := 63)
    (by decide) (htime₄.trans (by decide)) (by decide) hrange (by simp)
  obtain ⟨k₆, hwait₆, -, -, -, hboosts₆⟩ := hcrowd₅.period (j := 60) (p := 63)
    (by decide) (htime₅.trans (by decide)) (by decide) hrange (by simp)
  refine ⟨_, ⟨k₂, none⟩, _, ⟨k₆, none⟩, booted_init, ?_, ?_,
    hwait₃.append (hwait₄.append (hwait₅.append hwait₆)), ?_⟩
  · exact reachWhere_of_along hrun (hcond.mono fun _ _ hc => hc.1)
  · refine along_of_forall fun a ha => keepsNice_of_mem_turns
      (n := 60 + (60 + 1 + (60 + 1 + (60 + 1)))) ?_
    simpa only [List.replicate_add, List.flatten_append, List.length_range'] using ha
  · dsimp only
    omega

end CS352.Mlfq
