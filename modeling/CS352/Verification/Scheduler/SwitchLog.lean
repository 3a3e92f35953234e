import CS352.Library.Recorder
import CS352.Library.Transition
import CS352.Verification.Scheduler.Operations

/-! # The context-switch log of the round-robin kernel

The comments on `sys_startlog` and `sys_getlog` describe a log that a call of `startlog`
starts. The code takes `numLog` for the flag, and the scheduler counts `numLog` up from
boot on. -/

namespace CS352.Scheduler

open Mlfq (int int_of_small nproc logSize Memory LogEntry OtherPid)
open Transition

variable {k k' : Kernel} {m m' : Machine} {a : Action}

/-! ## The property -/

/-- What a run shows of the log: the context switches of the scheduler, and the calls of
`startlog` and `getlog` with their results. -/
inductive LogEvent where
  | switch (e : LogEntry)
  | startlog (result : ℤ)
  | getlog (result : ℤ)
  deriving DecidableEq, Repr

/-- The context switches of a history. -/
def switches (history : List LogEvent) : List LogEntry :=
  history.filterMap fun
    | .switch e => some e
    | _ => none

/-- `schedlog[0..numLog)`. -/
def Kernel.logged (k : Kernel) : List LogEntry := Recorder.entries k.schedlog k.numLog

/-- The comments in front of the two system calls, for the calls of a history and the log
at its end. -/
structure FollowsComments (history : List LogEvent) (log : List LogEntry) : Prop where
  /-- The first call starts the log. -/
  first : ∀ pre r post, history = pre ++ .startlog r :: post →
    (∀ r', .startlog r' ∉ pre) → r = 0
  /-- The log is started already. -/
  later : ∀ pre r post, history = pre ++ .startlog r :: post →
    (∃ r', .startlog r' ∈ pre) → r = -1
  /-- Nothing is recorded before the log is started. -/
  before : ∀ pre r post, history = pre ++ .getlog r :: post →
    (∀ r', .startlog r' ∉ pre) → r = 0
  /-- Only later context switches are recorded, in order, never two of one process in a row,
  and at most `LOG_SIZE`. -/
  log : ∀ pre r post, history = pre ++ .startlog r :: post → (∀ r', .startlog r' ∉ pre) →
    log.Sublist (switches post) ∧ log.IsChain OtherPid ∧ (log.length : ℤ) ≤ logSize

/-! ## The log as a recorder -/

/-- The globals that the log is made of. -/
def Kernel.log (k : Kernel) : (ℤ → LogEntry) × ℤ × ℤ := (k.schedlog, k.numLog, k.lastProcessId)

@[simp] theorem setTable_log (t : Table) : (k.setTable t).log = k.log := rfl

@[simp] theorem setTable_toTable (t : Table) : (k.setTable t).toTable = t := rfl

@[simp] theorem resume_log (i : ℕ) : (resume k i).log = k.log := by
  unfold resume
  split <;> rfl

/-- `D` lists the context switches since boot. -/
structure Recorded (k : Kernel) (D : List LogEntry) : Prop where
  nonneg : 0 ≤ k.numLog
  le : k.numLog ≤ logSize
  logged : k.logged = (D.destutter OtherPid).take 100
  last : 0 < k.numLog → (k.schedlog (k.numLog - 1)).pid = k.lastProcessId

variable {D : List LogEntry}

theorem Recorded.congr (h : Recorded k D) (hk : k'.log = k.log) : Recorded k' D := by
  simp only [Kernel.log, Prod.mk.injEq] at hk
  obtain ⟨hlog, hnum, hlast⟩ := hk
  refine ⟨?_, ?_, ?_, ?_⟩
  · rw [hnum]
    exact h.nonneg
  · rw [hnum]
    exact h.le
  · rw [Kernel.logged, hlog, hnum]
    exact h.logged
  · rw [hlog, hnum, hlast]
    exact h.last

/-- What the scheduler offers to the log when it switches to process `i`. -/
def switchEntry (k : Kernel) (i : ℕ) : LogEntry := ⟨(k.proc i).pid, k.timer⟩

/-- The test in `scheduler` and that of a recorder of capacity `LOG_SIZE` agree. -/
theorem Recorded.test_iff (h : Recorded k D) {i : ℕ}
    (hfirst : k.numLog = 0 → k.lastProcessId ≠ (k.proc i).pid) :
    (k.numLog < logSize ∧ k.lastProcessId ≠ (k.proc i).pid) ↔
      (k.numLog = 0 ∨ OtherPid (k.schedlog (k.numLog - 1)) (switchEntry k i)) ∧
        k.numLog < (100 : ℕ) := by
  have hcap : k.numLog < logSize ↔ k.numLog < (100 : ℕ) := Iff.rfl
  rw [hcap]
  by_cases h0 : k.numLog = 0
  · simp [h0, hfirst h0]
  · have hlast := h.last (lt_of_le_of_ne h.nonneg (Ne.symm h0))
    have hother : OtherPid (k.schedlog (k.numLog - 1)) (switchEntry k i) ↔
        k.lastProcessId ≠ (k.proc i).pid := by
      rw [OtherPid, hlast]
      rfl
    rw [hother]
    tauto

/-- The scheduler offers every context switch to the recorder. -/
theorem Recorded.logSwitch (h : Recorded k D) {i : ℕ}
    (hfirst : k.numLog = 0 → k.lastProcessId ≠ (k.proc i).pid) :
    Recorded (logSwitch k i) (D ++ [switchEntry k i]) ∧ 0 < (logSwitch k i).numLog := by
  have h0 := h.nonneg
  have hrecord := Recorder.record_take_destutter (R := OtherPid) 100 D (switchEntry k i)
  rw [← h.logged, Kernel.logged, Recorder.record_entries 100 h0] at hrecord
  unfold Scheduler.logSwitch
  by_cases htest : k.numLog < logSize ∧ k.lastProcessId ≠ (k.proc i).pid
  · have hint : int (k.numLog + 1) = k.numLog + 1 := by
      refine int_of_small (by omega) ?_
      have := htest.1
      unfold logSize at this
      omega
    rw [if_pos ((h.test_iff hfirst).mp htest)] at hrecord
    rw [if_pos htest, hint]
    refine ⟨⟨?_, ?_, hrecord, ?_⟩, ?_⟩
    · exact Int.add_nonneg h0 Int.one_nonneg
    · exact htest.1
    · intro _
      simp
    · exact Int.lt_add_one_of_le h0
  · rw [if_neg fun hrec => htest ((h.test_iff hfirst).mpr hrec)] at hrecord
    rw [if_neg htest]
    refine ⟨⟨h0, h.le, hrecord, h.last⟩, ?_⟩
    by_contra hpos
    have hzero : k.numLog = 0 := by omega
    exact htest ⟨by simp [hzero, logSize], hfirst hzero⟩

/-! ## Runs -/

section Runs

variable {ι : Type*} [DecidableEq ι]

/-- What an action of a hart shows of the log. -/
def observe (m : Machine) : Action → List LogEvent
  | .scan => (dispatched m .scan).toList.map fun i => .switch (switchEntry m.kernel i)
  | .startlog => [.startlog (sysStartlog m.kernel).2]
  | .getlog copyoutOk => [.getlog (sysGetlog m.kernel copyoutOk).1]
  | _ => []

/-- A run of the harts with its history. -/
structure LoggedRun (ι : Type*) where
  harts : Harts ι
  history : List LogEvent

def logStep (s : LoggedRun ι) : ι × Action → Option (LoggedRun ι)
  | (h, a) => (hartsStep s.harts (h, a)).map fun harts =>
    ⟨harts, s.history ++ observe ⟨s.harts.kernel, s.harts.place h⟩ a⟩

/-- Until the first context switch no process has run. -/
structure Untouched (s : Harts ι) : Prop where
  last : s.kernel.lastProcessId = 0
  idle : ∀ h, (s.place h).proc = none
  pid : ∀ x, (s.kernel.proc x).state = .unused ∨ (s.kernel.proc x).pid ≠ 0

/-- What holds along every run. -/
structure LogGood (s : LoggedRun ι) : Prop where
  recorded : Recorded s.harts.kernel (switches s.history)
  untouched : s.harts.kernel.numLog = 0 → Untouched s.harts
  startlogs : ∀ r, .startlog r ∈ s.history → r = -1
  getlogs : ∀ r, .getlog r ∈ s.history → r ≠ 0

variable {s s' : LoggedRun ι} {h : ι}

@[simp] theorem switches_append (xs ys : List LogEvent) :
    switches (xs ++ ys) = switches xs ++ switches ys := by
  simp [switches]

omit [DecidableEq ι] in
/-- A process that runs has been switched to, so the log is not empty. -/
theorem LogGood.numLog_pos {p : ℕ} (hg : LogGood s) (hp : s.harts.place h = .running p) :
    0 < s.harts.kernel.numLog := by
  refine lt_of_le_of_ne hg.recorded.nonneg ?_
  intro h0
  simpa [hp, Place.proc] using (hg.untouched h0.symm).idle h

/-- A step that records nothing. The process table changes freely once a process has
run. -/
theorem LogGood.quiet (hg : LogGood s) {place : Place} {events : List LogEvent}
    (hk : k.log = s.harts.kernel.log)
    (hfresh : s.harts.kernel.numLog = 0 →
      place.proc = none ∧ ∀ x, (k.proc x).state = .unused ∨ (k.proc x).pid ≠ 0)
    (hswitch : switches events = []) (hstart : ∀ r, .startlog r ∈ events → r = -1)
    (hget : ∀ r, .getlog r ∈ events → r ≠ 0) :
    LogGood (⟨⟨k, Function.update s.harts.place h place⟩, s.history ++ events⟩ :
      LoggedRun ι) := by
  refine ⟨?_, ?_, ?_, ?_⟩
  · rw [switches_append, hswitch, List.append_nil]
    exact hg.recorded.congr hk
  · intro h0
    simp only [Kernel.log, Prod.mk.injEq] at hk
    obtain ⟨-, hnum, hlast⟩ := hk
    have hzero : s.harts.kernel.numLog = 0 := hnum.symm.trans h0
    have hun := hg.untouched hzero
    refine ⟨hlast.trans hun.last, ?_, (hfresh hzero).2⟩
    intro h'
    by_cases hh : h' = h
    · subst h'
      simpa using (hfresh hzero).1
    · simpa [hh] using hun.idle h'
  · intro r hr
    exact (List.mem_append.mp hr).elim (hg.startlogs r) (hstart r)
  · intro r hr
    exact (List.mem_append.mp hr).elim (hg.getlogs r) (hget r)

theorem wakeup_pid {t : Table} (me : Option ℕ) (chan : Mlfq.Chan) (x : ℕ)
    (hx : (t.proc x).state = .unused ∨ (t.proc x).pid ≠ 0) :
    ((wakeup t me chan).proc x).state = .unused ∨ ((wakeup t me chan).proc x).pid ≠ 0 := by
  rw [wakeup_proc]
  split
  · rename_i hwake
    refine .inr (hx.resolve_left ?_)
    rw [hwake.2.2.1]
    simp
  · exact hx

theorem LogGood.dispatch (hg : LogGood s) {i : ℕ} {place : Place}
    (hrun : (s.harts.kernel.proc i).state = .runnable) :
    LogGood (⟨⟨resume (dispatch s.harts.kernel i) i, Function.update s.harts.place h place⟩,
      s.history ++ [.switch (switchEntry s.harts.kernel i)]⟩ : LoggedRun ι) := by
  have hfirst : s.harts.kernel.numLog = 0 →
      s.harts.kernel.lastProcessId ≠ (s.harts.kernel.proc i).pid := by
    intro h0
    have hun := hg.untouched h0
    rw [hun.last]
    exact ((hun.pid i).resolve_left (by simp [hrun])).symm
  have hset := hg.recorded.congr (setTable_log (k := s.harts.kernel)
    (s.harts.kernel.setProc i { s.harts.kernel.proc i with state := .running }))
  obtain ⟨hrec, hpos⟩ := hset.logSwitch (i := i) (by simpa [Kernel.setTable] using hfirst)
  have hlog : (resume (Scheduler.dispatch s.harts.kernel i) i).log =
      (Scheduler.dispatch s.harts.kernel i).log := resume_log i
  refine ⟨?_, ?_, ?_, ?_⟩
  · have hnew := hrec.congr hlog
    simpa [switchEntry, Kernel.setTable, switches] using hnew
  · intro h0
    simp only [Kernel.log, Prod.mk.injEq] at hlog
    rw [hlog.2.1] at h0
    exact absurd h0 hpos.ne'
  · intro r hr
    exact hg.startlogs r (by simpa using hr)
  · intro r hr
    exact hg.getlogs r (by simpa using hr)

theorem observe_eq_nil (ha : a ≠ .scan) (hstart : a ≠ .startlog) (hget : ∀ ok, a ≠ .getlog ok) :
    observe m a = [] := by
  cases a with
  | scan => exact absurd rfl ha
  | startlog => exact absurd rfl hstart
  | getlog ok => exact absurd rfl (hget ok)
  | _ => rfl

theorem LogGood.step (hg : LogGood s) (hs : logStep s (h, a) = some s') : LogGood s' := by
  obtain ⟨harts, hharts, rfl⟩ := Option.map_eq_some_iff.mp hs
  obtain ⟨m, hm, rfl⟩ := Option.map_eq_some_iff.mp hharts
  cases step_move hm with
  | dispatch i hplace hi hrun =>
    dsimp only at hplace hrun
    simpa [observe, dispatched, hplace, hi, hrun] using hg.dispatch (h := h) hrun
  | skip i hplace hi hrun =>
    dsimp only at hplace hrun
    have hobs : observe ⟨s.harts.kernel, s.harts.place h⟩ .scan = [] := by
      simp [observe, dispatched, hplace, hrun]
    rw [hobs]
    exact hg.quiet rfl (fun h0 => ⟨rfl, (hg.untouched h0).pid⟩) rfl (by simp) (by simp)
  | wrap i hplace hi =>
    dsimp only at hplace
    have hobs : observe ⟨s.harts.kernel, s.harts.place h⟩ .scan = [] := by
      simp [observe, dispatched, hplace, hi]
    rw [hobs]
    exact hg.quiet rfl (fun h0 => ⟨rfl, (hg.untouched h0).pid⟩) rfl (by simp) (by simp)
  | wakeup chan =>
    refine hg.quiet (setTable_log _) ?_ rfl (by simp [observe]) (by simp [observe])
    intro h0
    have hun := hg.untouched h0
    refine ⟨hun.idle h, ?_⟩
    intro x
    rw [setTable_toTable]
    exact wakeup_pid _ _ x (hun.pid x)
  | call p hplace t ha hstart hget | back p hplace t ha hstart hget =>
    rw [observe_eq_nil ha hstart hget]
    exact hg.quiet rfl (absurd · (hg.numLog_pos hplace).ne') rfl (by simp) (by simp)
  | startlog p hplace =>
    have hpos := hg.numLog_pos hplace
    have hcall : sysStartlog s.harts.kernel = (s.harts.kernel, -1) := if_pos hpos.ne'
    refine hg.quiet ?_ (absurd · hpos.ne') rfl ?_ (by simp [observe])
    · dsimp only
      rw [hcall]
    · simp [observe, hcall]
  | getlog p hplace ok =>
    have hpos := hg.numLog_pos hplace
    refine hg.quiet rfl (absurd · hpos.ne') rfl (by simp [observe]) ?_
    intro r hr
    obtain rfl : r = (sysGetlog s.harts.kernel ok).1 := by simpa [observe] using hr
    cases ok with
    | false => simp [sysGetlog]
    | true => simpa [sysGetlog] using hpos.ne'

theorem userinit_untouched {mem : Memory} {t : Table} (ht : userinit bootTable mem = some t)
    (x : ℕ) : (t.proc x).state = .unused ∨ (t.proc x).pid ≠ 0 := by
  obtain ⟨trapframe, pagetable, image⟩ := mem
  cases trapframe <;> cases pagetable <;> cases ht
  by_cases hx : x = 0
  · subst x
    exact .inr (by decide)
  · exact .inl (by simp [hx, bootTable, bootProc])

omit [DecidableEq ι] in
theorem logGood_boot {mem : Memory} {t : Table} (ht : userinit bootTable mem = some t) :
    LogGood (⟨startHarts (bootKernel t), []⟩ : LoggedRun ι) := by
  refine ⟨⟨le_rfl, ?_, rfl, ?_⟩, ?_, by simp, by simp⟩
  · change (0 : ℤ) ≤ logSize
    decide
  · intro h0
    exact absurd h0 (lt_irrefl 0)
  · intro _
    exact ⟨rfl, fun _ => rfl, userinit_untouched ht⟩

/-- In every run from boot the log holds the first `LOG_SIZE` context switches since boot,
each block of equal pids reduced to its first entry. -/
theorem reach_logGood {mem : Memory} {t : Table} (ht : userinit bootTable mem = some t)
    (hs : Reach logStep (⟨startHarts (bootKernel t), []⟩ : LoggedRun ι) s) : LogGood s := by
  refine hs.invariant (logGood_boot ht) ?_
  rintro u ⟨h, a⟩ v hu - hv
  exact hu.step hv

/-! ## Main result -/

/-- The log behaves as the comments say in exactly those runs in which nobody calls
`startlog` or `getlog`. -/
theorem reach_followsComments_iff {mem : Memory} {t : Table}
    (ht : userinit bootTable mem = some t)
    (hs : Reach logStep (⟨startHarts (bootKernel t), []⟩ : LoggedRun ι) s) :
    FollowsComments s.history s.harts.kernel.logged ↔
      ∀ e ∈ s.history, ∃ w, e = .switch w := by
  have hg := reach_logGood ht hs
  constructor
  · intro hc
    have hno : ∀ r, .startlog r ∉ s.history := by
      intro r hr
      obtain rfl := hg.startlogs r hr
      -- All calls return -1, so the first of them does.
      obtain ⟨pre, post, hsplit, hpre⟩ := List.eq_append_cons_of_mem hr
      have hfirst := hc.first pre (-1) post hsplit ?_
      · cases hfirst
      · intro r' hr'
        obtain rfl := hg.startlogs r' (by simp [hsplit, hr'])
        exact hpre hr'
    intro e he
    cases e with
    | switch w => exact ⟨w, rfl⟩
    | startlog r => exact absurd he (hno r)
    | getlog r =>
      obtain ⟨pre, post, hsplit⟩ := List.append_of_mem he
      have hzero := hc.before pre r post hsplit fun r' hr' => hno r' (by simp [hsplit, hr'])
      exact absurd hzero (hg.getlogs r he)
  · intro hall
    have hno : ∀ pre e post, s.history = pre ++ e :: post → ∃ w, e = .switch w :=
      fun pre e post hsplit => hall e (by simp [hsplit])
    refine ⟨?_, ?_, ?_, ?_⟩ <;>
      intro pre r post hsplit <;>
      obtain ⟨w, hw⟩ := hno pre _ post hsplit <;>
      cases hw

/-- The first process is switched to and makes no call. -/
theorem reach_followsComments_firstSwitch : ∃ s : LoggedRun Unit,
    s.history = [.switch ⟨1, 0⟩] ∧ FollowsComments s.history s.harts.kernel.logged := by
  have hview : ((userinit bootTable ⟨true, true, true⟩).bind fun t =>
      (exec logStep (⟨startHarts (bootKernel t), []⟩ : LoggedRun Unit) [((), .scan)]).map
        fun s => s.history) = some [.switch ⟨1, 0⟩] := by decide +kernel
  obtain ⟨t, ht, hview⟩ := Option.bind_eq_some_iff.mp hview
  obtain ⟨s, hs, hhistory⟩ := Option.map_eq_some_iff.mp hview
  refine ⟨s, hhistory, (reach_followsComments_iff ht (reach_of_exec hs)).mpr ?_⟩
  simp [hhistory]

/-- The first process is switched to and calls `getlog` and `startlog`: there is an entry
before the log is started, starting it fails, and the entry stays. -/
theorem firstStartlog_not_followsComments : ∃ (t : Table) (s : LoggedRun Unit),
    userinit bootTable ⟨true, true, true⟩ = some t ∧
      exec logStep ⟨startHarts (bootKernel t), []⟩
        [((), .scan), ((), .getlog true), ((), .startlog)] = some s ∧
      s.history = [.switch ⟨1, 0⟩, .getlog 1, .startlog (-1)] ∧
      s.harts.kernel.logged = [⟨1, 0⟩] ∧
      ¬ FollowsComments s.history s.harts.kernel.logged := by
  have hview : ((userinit bootTable ⟨true, true, true⟩).bind fun t =>
      (exec logStep (⟨startHarts (bootKernel t), []⟩ : LoggedRun Unit)
        [((), .scan), ((), .getlog true), ((), .startlog)]).map
        fun s => (s.history, s.harts.kernel.logged)) =
      some ([.switch ⟨1, 0⟩, .getlog 1, .startlog (-1)], [⟨1, 0⟩]) := by decide +kernel
  obtain ⟨t, ht, hview⟩ := Option.bind_eq_some_iff.mp hview
  obtain ⟨s, hs, hview⟩ := Option.map_eq_some_iff.mp hview
  obtain ⟨hhistory, hlog⟩ := Prod.mk.inj hview
  refine ⟨t, s, ht, hs, hhistory, hlog, ?_⟩
  intro hc
  have hfirst := hc.first [.switch ⟨1, 0⟩, .getlog 1] (-1) [] (by simp [hhistory]) (by simp)
  cases hfirst

end Runs

end CS352.Scheduler
