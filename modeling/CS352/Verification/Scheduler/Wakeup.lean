import CS352.Library.Mutex
import CS352.Library.Transition
import CS352.Model.Scheduler.Sleep
import CS352.Verification.Scheduler.Operations

/-! # No wakeup is lost

A process that has found `cond` false under `lk` holds its own lock from before it releases
`lk` until it is visible as sleeping. A waker that sets `cond` later still has to acquire
that lock, so it comes to the process after it has gone to sleep. -/

namespace CS352.Scheduler

open Mlfq (nproc Chan)
open Transition Mutex Function

variable {ω : Type*} {s s' : Sleepers ω} {chan : Chan} {i : ℕ} {w : ω}

/-! ## The section of `wakeup` -/

/-- `wakeup` runs its section for every process but the caller's own. -/
theorem wakeup_eq_foldl_wake (t : Table) (me : Option ℕ) (chan : Chan) :
    wakeup t me chan = (List.range nproc).foldl
      (fun t i => if me = some i then t else wake t chan i) t := by
  unfold wakeup
  congr 1
  funext t i
  by_cases hme : me = some i
  · simp [hme]
  · simp [hme, wake]

theorem wake_proc_of_ne {t : Table} {j : ℕ} (h : j ≠ i) : (wake t chan i).proc j = t.proc j := by
  unfold wake
  split
  · simp [h]
  · rfl

theorem wake_state {t : Table} (j : ℕ) :
    ((wake t chan i).proc j).state = (t.proc j).state ∨ (t.proc j).state = .sleeping := by
  unfold wake
  split
  · rename_i hsleep
    by_cases hj : j = i
    · subst j
      exact .inr hsleep.1
    · simp [hj]
  · exact .inl rfl

theorem wake_proc_self {t : Table} :
    ¬ (((wake t chan i).proc i).state = .sleeping ∧ ((wake t chan i).proc i).chan = chan) := by
  unfold wake
  split
  · simp
  · assumption

/-! ## Who holds which lock -/

@[simp] def WaitPlace.holdsLk : WaitPlace → Bool
  | .testing | .inside | .sleep | .locked => true
  | _ => false

@[simp] def WaitPlace.holdsOwn : WaitPlace → Bool
  | .locked | .released | .yielding | .switched | .resumed => true
  | _ => false

/-- The waker is between its `acquire(lk)` and its `release(lk)`. -/
@[simp] def WakerPlace.inCritical : WakerPlace → Bool
  | .entered | .loop _ | .locked _ | .marked _ => true
  | _ => false

@[simp] def WakerPlace.holdsProc (i : ℕ) : WakerPlace → Bool
  | .locked j | .marked j => j = i
  | _ => false

@[simp] def Sleepers.HoldsLk (s : Sleepers ω) : Holder ω → Prop
  | .process i => (s.place i).holdsLk = true
  | .scheduler => False
  | .waker w => (s.waker w).inCritical = true

@[simp] def Sleepers.HoldsProc (s : Sleepers ω) (i : ℕ) : Holder ω → Prop
  | .process j => j = i ∧ (s.place i).holdsOwn = true
  | .scheduler => s.probing i = true
  | .waker w => (s.waker w).holdsProc i = true

/-- Every lock names its holder. -/
structure Locks (s : Sleepers ω) : Prop where
  lk : Owned s.HoldsLk s.lk
  plock : ∀ i, Owned (s.HoldsProc i) (s.plock i)

/-- Agent `a` acquires and releases locks, and the others hold what they held. -/
theorem Locks.passes {a : Holder ω} (h : Locks s)
    (hlk : Passes a (s.HoldsLk a) (s'.HoldsLk a) s.lk s'.lk)
    (hplock : ∀ i, Passes a (s.HoldsProc i a) (s'.HoldsProc i a) (s.plock i) (s'.plock i))
    (hother : ∀ b, b ≠ a → (s'.HoldsLk b ↔ s.HoldsLk b) ∧
      ∀ i, s'.HoldsProc i b ↔ s.HoldsProc i b) : Locks s' :=
  ⟨h.lk.passes hlk fun b hb => (hother b hb).1,
    fun i => (h.plock i).passes (hplock i) fun b hb => (hother b hb).2 i⟩

variable {kernel : Kernel} {lk : Option (Holder ω)} {plock : ℕ → Option (Holder ω)}

/-- A process goes from one place to another and passes the locks accordingly. -/
theorem Locks.process {place : WaitPlace} (h : Locks s)
    (hlk : Passes (.process i) ((s.place i).holdsLk = true) (place.holdsLk = true) s.lk lk)
    (hown : Passes (.process i) ((s.place i).holdsOwn = true) (place.holdsOwn = true)
      (s.plock i) (plock i))
    (hplock : ∀ j, j ≠ i → plock j = s.plock j) : Locks { s with
      kernel := kernel, lk := lk, plock := plock, place := update s.place i place } := by
  refine h.passes (a := .process i) (by simpa using hlk) (fun j => ?_) ?_
  · by_cases hj : j = i
    · subst j
      simpa using hown
    · dsimp only
      rw [hplock j hj]
      exact .keep (by simp [Ne.symm hj])
  · rintro (j | _ | w) hb
    · have hj : j ≠ i := fun hji => hb (by rw [hji])
      refine ⟨by simp [hj], fun k => and_congr_right ?_⟩
      rintro rfl
      simp [hj]
    · exact ⟨Iff.rfl, fun _ => Iff.rfl⟩
    · exact ⟨Iff.rfl, fun _ => Iff.rfl⟩

/-- A waker goes from one place to another and passes the locks accordingly. -/
theorem Locks.waker [DecidableEq ω] {cond : Bool} {place : WakerPlace} {me : ω → Option ℕ}
    {above : ℕ → List ω} (h : Locks s)
    (hlk : Passes (.waker w) ((s.waker w).inCritical = true) (place.inCritical = true) s.lk lk)
    (hproc : ∀ i, Passes (.waker w) ((s.waker w).holdsProc i = true) (place.holdsProc i = true)
      (s.plock i) (plock i)) : Locks { s with
      kernel := kernel, cond := cond, lk := lk, plock := plock
      waker := update s.waker w place, me := me, above := above } := by
  refine h.passes (a := .waker w) (by simpa using hlk) (fun i => by simpa using hproc i) ?_
  rintro (j | _ | v) hb
  · exact ⟨Iff.rfl, fun _ => Iff.rfl⟩
  · exact ⟨Iff.rfl, fun _ => Iff.rfl⟩
  · have hv : v ≠ w := fun hvw => hb (by rw [hvw])
    simp [hv]

/-- A scheduler takes or gives back the lock of a process. -/
theorem Locks.scheduler {b : Bool} {own : Option (Holder ω)} (h : Locks s)
    (hown : Passes .scheduler (s.probing i = true) (b = true) (s.plock i) own) :
    Locks ((s.setProbing i b).setPlock i own) := by
  refine h.passes (a := .scheduler) (.keep Iff.rfl) (fun j => ?_) ?_
  · by_cases hj : j = i
    · subst j
      simpa [Sleepers.setProbing, Sleepers.setPlock] using hown
    · simpa [Sleepers.setProbing, Sleepers.setPlock, hj] using .keep Iff.rfl
  · rintro (j | _ | w) hb
    · exact ⟨Iff.rfl, fun _ => Iff.rfl⟩
    · exact absurd rfl hb
    · exact ⟨Iff.rfl, fun _ => Iff.rfl⟩

/-- The scheduler switches to a process and passes its lock to it. -/
theorem Locks.dispatch (h : Locks s) (hprobe : s.probing i = true) (hoff : s.place i = .off) :
    Locks (({ s.setProbing i false with kernel := kernel }.moveTo i .resumed).setPlock i
      (some (.process i))) := by
  refine ⟨h.lk.congr ?_, fun j => ?_⟩
  · rintro (j | _ | w)
    · by_cases hj : j = i
      · simp [Sleepers.setPlock, Sleepers.moveTo, hj, hoff]
      · simp [Sleepers.setPlock, Sleepers.moveTo, Sleepers.setProbing, hj]
    · exact Iff.rfl
    · exact Iff.rfl
  · by_cases hj : j = i
    · subst j
      have hholds : s.HoldsProc i .scheduler := hprobe
      simp only [Sleepers.setPlock, update_self]
      refine (h.plock i).handOver hholds (by simp [Sleepers.moveTo]) ?_
      rintro (j | _ | w) hc hnow
      · exact absurd (congrArg Holder.process hnow.1) hc
      · simp [Sleepers.moveTo, Sleepers.setProbing] at hnow
      · exact ⟨hnow, by simp⟩
    · simp only [Sleepers.setPlock, update_of_ne hj]
      refine (h.plock j).congr ?_
      rintro (l | _ | w)
      · simp [Sleepers.moveTo, Sleepers.setProbing, hj]
      · simp [Sleepers.moveTo, Sleepers.setProbing, hj]
      · exact Iff.rfl

/-! ## The invariant -/

/-- Process `i` sleeps on the channel. -/
def Sleepers.SleepsOn (s : Sleepers ω) (chan : Chan) (i : ℕ) : Prop :=
  (s.kernel.proc i).state = .sleeping ∧ (s.kernel.proc i).chan = chan

/-- The process sleeps, or it has given up `lk` in order to sleep. -/
def Sleepers.Pending (s : Sleepers ω) (chan : Chan) (i : ℕ) : Prop :=
  s.SleepsOn chan i ∨ s.place i = .released

/-- The loop of `wakeup` has not passed process `i`. -/
def WakerPlace.Ahead (i : ℕ) : WakerPlace → Prop
  | .loop j | .locked j => j ≤ i
  | .marked j => j < i
  | _ => False

structure WakeInv (chan : Chan) (s : Sleepers ω) : Prop where
  locks : Locks s
  running : ∀ i, s.place i ≠ .switched → s.place i ≠ .off → (s.kernel.proc i).state = .running
  bound : ∀ i, nproc ≤ i → s.place i = .off ∧ ¬ s.SleepsOn chan i
  suspended : ∀ i, s.above i ≠ [] → s.place i = .running
  entered : ∀ w i, s.waker w ≠ .idle → s.me w = some i → w ∈ s.above i
  /-- A process that goes to sleep has seen `cond` false and still holds `lk`. -/
  undecided : ∀ i, s.place i = .sleep ∨ s.place i = .locked → s.cond = false
  /-- Some waker comes to every process that sleeps although `cond` is set. -/
  awaited : s.cond = true → ∀ i, s.Pending chan i →
    ∃ w, (s.waker w).Ahead i ∧ s.me w ≠ some i

theorem WakeInv.pending_lt (h : WakeInv chan s) (hi : s.Pending chan i) : i < nproc := by
  by_contra hge
  obtain ⟨hoff, hnot⟩ := h.bound i (Nat.le_of_not_lt hge)
  rcases hi with hsleep | hreleased
  · exact hnot hsleep
  · rw [hoff] at hreleased
    cases hreleased

/-- A process that runs the code of a waker, or is interrupted by one, does not sleep. -/
theorem WakeInv.not_pending_me (h : WakeInv chan s) (hw : s.waker w ≠ .idle)
    (hi : s.Pending chan i) : s.me w ≠ some i := by
  intro hme
  have habove : s.above i ≠ [] := List.ne_nil_of_mem (h.entered w i hw hme)
  have hrun := h.suspended i habove
  rcases hi with hsleep | hreleased
  · have hstate := h.running i (by simp [hrun]) (by simp [hrun])
    simp [hsleep.1] at hstate
  · rw [hrun] at hreleased
    cases hreleased

/-- At the start nobody runs and nobody sleeps on the channel. -/
theorem wakeInv_start {k : Kernel} {cond : Bool}
    (hk : ∀ i, (k.proc i).state = .sleeping → (k.proc i).chan ≠ chan) :
    WakeInv chan (startSleepers k cond : Sleepers ω) := by
  have hnot : ∀ i, ¬ (startSleepers k cond : Sleepers ω).Pending chan i := by
    rintro i (hsleep | hreleased)
    · exact hk i hsleep.1 hsleep.2
    · cases hreleased
  refine ⟨⟨?_, ?_⟩, ?_, ?_, ?_, ?_, ?_, ?_⟩
  · rintro (i | _ | w) <;> simp [startSleepers]
  · rintro i (j | _ | w) <;> simp [startSleepers]
  · intro i _ hoff
    exact absurd rfl hoff
  · intro i _
    exact ⟨rfl, fun hsleep => hnot i (.inl hsleep)⟩
  · intro i hi
    exact absurd rfl hi
  · intro w i hw
    exact absurd rfl hw
  · intro i hi
    simp [startSleepers] at hi
  · intro _ i hpending
    exact absurd hpending (hnot i)

/-! ## Steps of a process -/

/-- What every step that takes process `i` from one place to another keeps. -/
theorem WakeInv.moveTo {probing : ℕ → Bool} {place : WaitPlace} (h : WakeInv chan s)
    (hi : i < nproc) (habove : s.place i = .running → s.above i = [])
    (hlocks : Locks { s with
      kernel := kernel, lk := lk, plock := plock, probing := probing
      place := update s.place i place })
    (hproc : ∀ j, j ≠ i → kernel.proc j = s.kernel.proc j)
    (hstate : place ≠ .switched → place ≠ .off → (kernel.proc i).state = .running)
    (hundecided : place = .sleep ∨ place = .locked → s.cond = false)
    (hsleeps : (kernel.proc i).state = .sleeping → (kernel.proc i).chan = chan → s.cond = true →
      s.Pending chan i)
    (hreleased : place = .released → s.cond = false) :
    WakeInv chan { s with
      kernel := kernel, lk := lk, plock := plock, probing := probing
      place := update s.place i place } := by
  refine ⟨hlocks, fun j => ?_, fun j hge => ?_, fun j hj => ?_, h.entered, fun j => ?_,
    fun hc j => ?_⟩
  · by_cases hj : j = i
    · simpa [hj] using hstate
    · simpa [hj, hproc] using h.running j
  · have hj : j ≠ i := by omega
    simpa [Sleepers.SleepsOn, hj, hproc] using h.bound j hge
  · have hrun := h.suspended j hj
    have hji : j ≠ i := by
      rintro rfl
      exact hj (habove hrun)
    simpa [hji] using hrun
  · by_cases hj : j = i
    · simpa [hj] using hundecided
    · simpa [hj] using h.undecided j
  · by_cases hj : j = i
    · subst j
      rintro (hsleep | hplace)
      · exact h.awaited hc i (hsleeps hsleep.1 hsleep.2 hc)
      · simp [hreleased (by simpa using hplace)] at hc
    · simpa [Sleepers.Pending, Sleepers.SleepsOn, hj, hproc] using h.awaited hc j

/-- A step with which the process stays on its hart and leaves the process table alone. -/
theorem WakeInv.stays {place : WaitPlace} (h : WakeInv chan s) (hi : i < nproc)
    (habove : s.place i = .running → s.above i = [])
    (hlocks : Locks { s with lk := lk, plock := plock, place := update s.place i place })
    (hbefore : s.place i ≠ .switched ∧ s.place i ≠ .off)
    (hundecided : place = .sleep ∨ place = .locked → s.cond = false)
    (hreleased : place = .released → s.cond = false) :
    WakeInv chan { s with lk := lk, plock := plock, place := update s.place i place } :=
  h.moveTo hi habove hlocks (fun _ _ => rfl) (fun _ _ => h.running i hbefore.1 hbefore.2) hundecided
    (fun hstate hchan _ => .inl ⟨hstate, hchan⟩) hreleased

theorem resume_proc_of_ne {k : Kernel} {j : ℕ} (h : j ≠ i) :
    (resume k i).proc j = k.proc j := by
  unfold resume
  split
  · rfl
  · rfl
  · simp [h]

theorem WakeInv.processStep (h : WakeInv chan s) (hi : i < nproc)
    (hs : processStep chan s i = some s') : WakeInv chan s' := by
  cases hplace : s.place i with
  | running =>
    simp only [Scheduler.processStep, hplace] at hs
    obtain ⟨⟨hfree, habove⟩, hs⟩ := Option.ite_none_right_eq_some.mp hs
    cases hs
    refine h.stays hi (fun _ => habove) (h.locks.process ?_ ?_ fun _ _ => rfl) (by simp [hplace])
      (by simp) (by simp)
    · rw [hfree]
      exact .acquire rfl
    · exact .keep (by simp [hplace])
  | testing =>
    simp only [Scheduler.processStep, hplace] at hs
    cases hs
    cases hcond : s.cond with
    | true =>
      exact h.stays hi (by simp [hplace]) (h.locks.process (.keep (by simp [hplace]))
        (.keep (by simp [hplace])) fun _ _ => rfl) (by simp [hplace]) (by simp) (by simp)
    | false =>
      exact h.stays hi (by simp [hplace]) (h.locks.process (.keep (by simp [hplace]))
        (.keep (by simp [hplace])) fun _ _ => rfl) (by simp [hplace]) (by simp [hcond]) (by simp)
  | inside =>
    simp only [Scheduler.processStep, hplace] at hs
    cases hs
    exact h.stays hi (by simp [hplace]) (h.locks.process (.release (by simp [hplace]) (by simp))
      (.keep (by simp [hplace])) fun _ _ => rfl) (by simp [hplace]) (by simp) (by simp)
  | sleep =>
    simp only [Scheduler.processStep, hplace] at hs
    obtain ⟨hfree, hs⟩ := Option.ite_none_right_eq_some.mp hs
    cases hs
    refine h.stays hi (by simp [hplace]) (h.locks.process (.keep (by simp [hplace])) ?_
      fun _ hj => update_of_ne hj ..) (by simp [hplace]) (fun _ => h.undecided i (.inl hplace))
      (by simp)
    rw [hfree, update_self]
    exact .acquire rfl
  | locked =>
    simp only [Scheduler.processStep, hplace] at hs
    cases hs
    exact h.stays hi (by simp [hplace]) (h.locks.process (.release (by simp [hplace]) (by simp))
      (.keep (by simp [hplace])) fun _ _ => rfl) (by simp [hplace]) (by simp)
      fun _ => h.undecided i (.inr hplace)
  | released =>
    simp only [Scheduler.processStep, hplace] at hs
    cases hs
    refine h.moveTo hi (by simp [hplace]) (h.locks.process (.keep (by simp [hplace]))
      (.keep (by simp [hplace])) fun _ _ => rfl) (fun j hj => ?_) (by simp) (by simp)
      (fun _ _ _ => .inr hplace) (by simp)
    simp [Sleepers.setTable, Kernel.setTable, Scheduler.sleep, hj]
  | yielding =>
    simp only [Scheduler.processStep, hplace] at hs
    cases hs
    refine h.moveTo hi (by simp [hplace]) (h.locks.process (.keep (by simp [hplace]))
      (.keep (by simp [hplace])) fun _ _ => rfl) (fun j hj => ?_) (by simp) (by simp) ?_ (by simp)
    · simp [Sleepers.setTable, Kernel.setTable, Scheduler.yield, hj]
    · simp [Sleepers.setTable, Kernel.setTable, Scheduler.yield]
  | switched =>
    simp only [Scheduler.processStep, hplace] at hs
    cases hs
    refine h.moveTo hi (by simp [hplace]) (h.locks.process (.keep (by simp [hplace])) ?_
      fun _ hj => update_of_ne hj ..) (fun _ _ => rfl) (by simp) (by simp)
      (fun hstate hchan _ => .inl ⟨hstate, hchan⟩) (by simp)
    rw [update_self]
    exact .release (by simp [hplace]) (by simp)
  | off => simp [Scheduler.processStep, hplace] at hs
  | resumed =>
    simp only [Scheduler.processStep, hplace] at hs
    cases hs
    have hstate : ((resume s.kernel i).proc i).state = .running := by
      simpa using h.running i (by simp [hplace]) (by simp [hplace])
    refine h.moveTo hi (by simp [hplace]) (h.locks.process (.keep (by simp [hplace])) ?_
      fun _ hj => update_of_ne hj ..) (fun _ => resume_proc_of_ne) (fun _ _ => hstate) (by simp)
      (fun hsleep => by cases hstate.symm.trans hsleep) (by simp)
    rw [update_self]
    exact .release (by simp [hplace]) (by simp)

theorem WakeInv.preemptStep (h : WakeInv chan s) (hi : i < nproc)
    (hs : preemptStep s i = some s') : WakeInv chan s' := by
  obtain ⟨⟨hplace, habove, hfree⟩, hs⟩ := Option.ite_none_right_eq_some.mp hs
  cases hs
  refine h.stays hi (fun _ => habove) (h.locks.process (.keep (by simp [hplace])) ?_
    fun _ hj => update_of_ne hj ..) (by simp [hplace]) (by simp) (by simp)
  rw [hfree, update_self]
  exact .acquire rfl

/-! ## Steps of a scheduler -/

theorem WakeInv.scheduler {b : Bool} {own : Option (Holder ω)} (h : WakeInv chan s)
    (hown : Passes .scheduler (s.probing i = true) (b = true) (s.plock i) own) :
    WakeInv chan ((s.setProbing i b).setPlock i own) :=
  ⟨h.locks.scheduler hown, h.running, h.bound, h.suspended, h.entered, h.undecided, h.awaited⟩

theorem WakeInv.probeStep (h : WakeInv chan s) (hs : probeStep s i = some s') :
    WakeInv chan s' := by
  obtain ⟨hfree, hs⟩ := Option.ite_none_right_eq_some.mp hs
  cases hs
  refine h.scheduler ?_
  rw [hfree]
  exact .acquire rfl

theorem dispatch_proc (k : Kernel) (i : ℕ) :
    (dispatch k i).proc = update k.proc i { k.proc i with state := .running } := by
  unfold dispatch logSwitch
  split <;> rfl

theorem WakeInv.decideStep (h : WakeInv chan s) (hi : i < nproc)
    (hs : decideStep s i = some s') : WakeInv chan s' := by
  obtain ⟨hprobe, hs⟩ := Option.ite_none_right_eq_some.mp hs
  dsimp only at hs
  split at hs
  · rename_i hrunnable
    cases hs
    have hrunnable : (s.kernel.proc i).state = .runnable := hrunnable
    have hown : (s.place i).holdsOwn = false := by
      by_contra hheld
      have hprocess : s.HoldsProc i (.process i) := ⟨rfl, by simpa using hheld⟩
      have hscheduler : s.HoldsProc i .scheduler := hprobe
      cases (h.locks.plock i).unique hprocess hscheduler
    -- A runnable process whose lock is not its own has left its hart.
    have hoff : s.place i = .off := by
      by_contra hne
      have hswitched : s.place i ≠ .switched := by
        intro heq
        simp [heq] at hown
      simp [h.running i hswitched hne] at hrunnable
    have hself : ((dispatch s.kernel i).proc i).state = .running := by simp [dispatch_proc]
    refine h.moveTo hi (by simp [hoff]) (h.locks.dispatch hprobe hoff) (fun j hj => ?_)
      (fun _ _ => hself) (by simp) (fun hsleep => by cases hself.symm.trans hsleep) (by simp)
    simp [Sleepers.moveTo, Sleepers.setProbing, dispatch_proc, hj]
  · cases hs
    exact h.scheduler (.release hprobe (by simp))

/-! ## Steps of a waker -/

section

variable [DecidableEq ω]

/-- What every step of a waker keeps that does not set `cond`: no process that still has to
be woken is passed. -/
theorem WakeInv.moveWaker {place : WakerPlace} (h : WakeInv chan s) (hidle : s.waker w ≠ .idle)
    (hlocks : Locks { s with
      kernel := kernel, lk := lk, plock := plock, waker := update s.waker w place })
    (hstate : ∀ i, (kernel.proc i).state = (s.kernel.proc i).state ∨
      (s.kernel.proc i).state = .sleeping)
    (hsleeps : ∀ i, (kernel.proc i).state = .sleeping ∧ (kernel.proc i).chan = chan →
      s.SleepsOn chan i)
    (hahead : ∀ i, (kernel.proc i).state = .sleeping ∧ (kernel.proc i).chan = chan ∨
      s.place i = .released → s.me w ≠ some i → (s.waker w).Ahead i → place.Ahead i) :
    WakeInv chan { s with
      kernel := kernel, lk := lk, plock := plock, waker := update s.waker w place } := by
  refine ⟨hlocks, fun i hswitched hoff => ?_, fun i hge => ?_, h.suspended, fun v i hv hmv => ?_,
    h.undecided, fun hc i hpending => ?_⟩
  · have hrun := h.running i hswitched hoff
    rcases hstate i with hsame | hsleeping
    · exact hsame.trans hrun
    · simp [hrun] at hsleeping
  · exact (h.bound i hge).imp_right fun hnot hsleep => hnot (hsleeps i hsleep)
  · by_cases hvw : v = w
    · subst v
      exact h.entered w i hidle hmv
    · exact h.entered v i (by simpa [hvw] using hv) hmv
  · obtain ⟨v, hv, hmv⟩ := h.awaited hc i (hpending.imp_left (hsleeps i))
    refine ⟨v, ?_, hmv⟩
    by_cases hvw : v = w
    · subst v
      simpa using hahead i hpending hmv hv
    · simpa [hvw] using hv

/-- A waker sets `cond`. Nobody who holds `lk` is about to sleep, and its loop is in front
of everybody who sleeps. -/
theorem WakeInv.setCond (h : WakeInv chan s) (hw : s.waker w = .entered) :
    WakeInv chan { s.moveWaker w (.loop 0) with cond := true } := by
  have hholds : s.HoldsLk (.waker w) := by simp [hw]
  refine ⟨h.locks.waker (.keep (by simp [hw])) fun i => .keep (by simp [hw]), h.running, h.bound,
    h.suspended, ?_, ?_, ?_⟩
  · intro v i hv hme
    refine h.entered v i ?_ hme
    rintro hidle
    have hvw : v ≠ w := by
      rintro rfl
      simp [hw] at hidle
    exact hv (by simpa [Sleepers.moveWaker, hvw] using hidle)
  · intro i hplace
    have hprocess : s.HoldsLk (.process i) := by
      have hplace : s.place i = .sleep ∨ s.place i = .locked := hplace
      rcases hplace with hplace | hplace <;> simp [hplace]
    cases h.locks.lk.unique hprocess hholds
  · intro _ i hpending
    have hpending : s.Pending chan i := hpending
    refine ⟨w, ?_, h.not_pending_me (by simp [hw]) hpending⟩
    simp [Sleepers.moveWaker, WakerPlace.Ahead]

/-- A waker returns to the process below it. -/
theorem WakeInv.leave {above : ℕ → List ω} (h : WakeInv chan s) (hw : s.waker w = .leaving)
    (habove : ∀ i, (∀ v, v ∈ above i → v ∈ s.above i) ∧
      ∀ v, v ≠ w → v ∈ s.above i → v ∈ above i) :
    WakeInv chan { s.moveWaker w .idle with above := above } := by
  refine ⟨h.locks.waker (.keep (by simp [hw])) fun i => .keep (by simp [hw]), h.running, h.bound,
    fun i hi => ?_, fun v i hv hmv => ?_, h.undecided, fun hc i hpending => ?_⟩
  · obtain ⟨v, hv⟩ := List.exists_mem_of_ne_nil _ hi
    exact h.suspended i (List.ne_nil_of_mem ((habove i).1 v hv))
  · have hvw : v ≠ w := by
      rintro rfl
      simp [Sleepers.moveWaker] at hv
    exact (habove i).2 v hvw (h.entered v i (by simpa [Sleepers.moveWaker, hvw] using hv) hmv)
  · obtain ⟨v, hv, hmv⟩ := h.awaited hc i hpending
    have hvw : v ≠ w := by
      rintro rfl
      simp [hw, WakerPlace.Ahead] at hv
    exact ⟨v, by simpa [Sleepers.moveWaker, hvw] using hv, hmv⟩

theorem WakeInv.wakerStep (h : WakeInv chan s) (hs : wakerStep chan s w = some s') :
    WakeInv chan s' := by
  cases hw : s.waker w with
  | idle => simp [Scheduler.wakerStep, hw] at hs
  | start =>
    simp only [Scheduler.wakerStep, hw] at hs
    obtain ⟨hfree, hs⟩ := Option.ite_none_right_eq_some.mp hs
    cases hs
    refine h.moveWaker (by simp [hw]) (h.locks.waker ?_ fun i => .keep (by simp [hw]))
      (fun _ => .inl rfl) (fun _ => id) (by simp [hw, WakerPlace.Ahead])
    rw [hfree]
    exact .acquire rfl
  | entered =>
    simp only [Scheduler.wakerStep, hw] at hs
    cases hs
    exact h.setCond hw
  | loop j =>
    simp only [Scheduler.wakerStep, hw] at hs
    split at hs
    · split at hs
      · rename_i hj hme
        cases hs
        refine h.moveWaker (by simp [hw]) (h.locks.waker (.keep (by simp [hw])) fun i =>
          .keep (by simp [hw])) (fun _ => .inl rfl) (fun _ => id) fun i _ hne hahead => ?_
        rw [hw] at hahead
        refine lt_of_le_of_ne hahead ?_
        rintro rfl
        exact hne hme
      · obtain ⟨hfree, hs⟩ := Option.ite_none_right_eq_some.mp hs
        cases hs
        refine h.moveWaker (by simp [hw]) (h.locks.waker (.keep (by simp [hw])) fun i => ?_)
          (fun _ => .inl rfl) (fun _ => id) fun i _ _ hahead => ?_
        · by_cases hij : i = j
          · subst i
            rw [hfree, update_self]
            exact .acquire (by simp)
          · rw [update_of_ne hij]
            exact .keep (by simp [hw, Ne.symm hij])
        · rwa [hw] at hahead
    · rename_i hj
      cases hs
      refine h.moveWaker (by simp [hw]) (h.locks.waker (.release (by simp [hw]) (by simp)) fun i =>
        .keep (by simp [hw])) (fun _ => .inl rfl) (fun _ => id) fun i hpending _ hahead => ?_
      rw [hw] at hahead
      exact absurd (lt_of_le_of_lt hahead (h.pending_lt hpending)) hj
  | locked j =>
    simp only [Scheduler.wakerStep, hw] at hs
    cases hs
    refine h.moveWaker (by simp [hw]) (h.locks.waker (.keep (by simp [hw])) fun i =>
      .keep (by simp [hw])) wake_state (fun i hsleep => ?_) fun i hpending _ hahead => ?_
    · by_cases hij : i = j
      · subst i
        exact absurd hsleep wake_proc_self
      · have hsleep : ((wake s.kernel.toTable chan j).proc i).state = .sleeping ∧
            ((wake s.kernel.toTable chan j).proc i).chan = chan := hsleep
        rwa [wake_proc_of_ne hij] at hsleep
    · rw [hw] at hahead
      refine lt_of_le_of_ne hahead ?_
      rintro rfl
      rcases hpending with hsleep | hreleased
      · exact wake_proc_self hsleep
      · -- The process holds its own lock, which the waker holds.
        have hprocess : s.HoldsProc j (.process j) := by simp [hreleased]
        have hwakes : s.HoldsProc j (.waker w) := by simp [hw]
        cases (h.locks.plock j).unique hprocess hwakes
  | marked j =>
    simp only [Scheduler.wakerStep, hw] at hs
    cases hs
    refine h.moveWaker (by simp [hw]) (h.locks.waker (.keep (by simp [hw])) fun i => ?_)
      (fun _ => .inl rfl) (fun _ => id) fun i _ _ hahead => ?_
    · by_cases hij : i = j
      · subst i
        rw [update_self]
        exact .release (by simp [hw]) (by simp)
      · rw [update_of_ne hij]
        exact .keep (by simp [hw, Ne.symm hij])
    · rwa [hw] at hahead
  | leaving =>
    simp only [Scheduler.wakerStep, hw] at hs
    split at hs
    · cases hs
      exact h.leave hw fun i => ⟨fun _ => id, fun _ _ => id⟩
    · rename_i i hme
      cases hs
      refine h.leave hw fun j => ?_
      by_cases hji : j = i
      · subst j
        simp only [Sleepers.moveWaker, update_self, List.mem_filter]
        exact ⟨fun v hv => hv.1, fun v hvw hv => ⟨hv, by simpa using hvw⟩⟩
      · simp only [Sleepers.moveWaker, update_of_ne hji]
        exact ⟨fun _ => id, fun _ _ => id⟩

/-- A waker enters above a process that holds no lock, or above none. -/
theorem WakeInv.enterStep {me : Option ℕ} (h : WakeInv chan s)
    (hs : enterStep s w me = some s') : WakeInv chan s' := by
  obtain ⟨hw, hs⟩ := Option.ite_none_right_eq_some.mp hs
  have hlocks : ∀ above, Locks
      { s.moveWaker w .start with me := update s.me w me, above := above } := by
    intro above
    exact h.locks.waker (.keep (by simp [hw])) fun i => .keep (by simp [hw])
  have hawaited : s.cond = true → ∀ i, s.Pending chan i →
      ∃ v, (update s.waker w .start v).Ahead i ∧
        update s.me w me v ≠ some i := by
    intro hc i hpending
    obtain ⟨v, hv, hmv⟩ := h.awaited hc i hpending
    have hvw : v ≠ w := by
      rintro rfl
      simp [hw, WakerPlace.Ahead] at hv
    exact ⟨v, by simpa [hvw] using hv, by simpa [hvw] using hmv⟩
  cases me with
  | none =>
    cases hs
    refine ⟨hlocks s.above, h.running, h.bound, h.suspended, ?_, h.undecided, hawaited⟩
    intro v i hv hmv
    by_cases hvw : v = w
    · subst v
      simp at hmv
    · exact h.entered v i (by simpa [Sleepers.moveWaker, hvw] using hv)
        (by simpa [hvw] using hmv)
  | some i =>
    obtain ⟨hplace, hs⟩ := Option.ite_none_right_eq_some.mp hs
    cases hs
    refine ⟨hlocks _, h.running, h.bound, ?_, ?_, h.undecided, hawaited⟩
    · intro j hj
      by_cases hji : j = i
      · subst j
        exact hplace
      · exact h.suspended j (by simpa [Sleepers.moveWaker, hji] using hj)
    · intro v j hv hmv
      by_cases hvw : v = w
      · subst v
        have hij : i = j := by simpa using hmv
        subst j
        simp
      · have hold := h.entered v j (by simpa [Sleepers.moveWaker, hvw] using hv)
          (by simpa [hvw] using hmv)
        by_cases hji : j = i
        · subst j
          simpa using .inr hold
        · simpa [Sleepers.moveWaker, hji] using hold

/-! ## Main result -/

theorem WakeInv.step {a : SleepAction ω} (h : WakeInv chan s)
    (hs : sleepStep chan s a = some s') : WakeInv chan s' := by
  cases a with
  | process i =>
    obtain ⟨hi, hs⟩ := Option.ite_none_right_eq_some.mp hs
    exact h.processStep hi hs
  | preempt i =>
    obtain ⟨hi, hs⟩ := Option.ite_none_right_eq_some.mp hs
    exact h.preemptStep hi hs
  | probe i =>
    obtain ⟨hi, hs⟩ := Option.ite_none_right_eq_some.mp hs
    exact h.probeStep hs
  | decide i =>
    obtain ⟨hi, hs⟩ := Option.ite_none_right_eq_some.mp hs
    exact h.decideStep hi hs
  | enter w me => exact h.enterStep hs
  | waker w => exact h.wakerStep hs

/-- No wakeup is lost: whatever the processes, wakers and schedulers do, when `cond` is set
and no waker is between its `acquire(lk)` and its `release(lk)`, nobody sleeps on the
channel. -/
theorem reach_not_sleepsOn {k : Kernel} {cond : Bool}
    (hk : ∀ i, (k.proc i).state = .sleeping → (k.proc i).chan ≠ chan)
    (hs : Reach (sleepStep chan) (startSleepers k cond) s) (hcond : s.cond = true)
    (hout : ∀ w, (s.waker w).inCritical = false) (i : ℕ) : ¬ s.SleepsOn chan i := by
  have hinv : WakeInv chan s := by
    refine hs.invariant (wakeInv_start hk) ?_
    intro u a v hu _ hv
    exact hu.step hv
  intro hsleep
  obtain ⟨w, hahead, -⟩ := hinv.awaited hcond i (.inl hsleep)
  have hw := hout w
  cases hplace : s.waker w <;>
    simp [hplace, WakerPlace.Ahead] at hahead hw

end

/-- The first process sleeps on `ticks`, an interrupt handler on another hart wakes it, and
it has not run since. -/
theorem reach_not_sleepsOn_ticks : ∃ s : Sleepers Unit,
    s.cond = true ∧ s.place 0 = .off ∧ (s.kernel.proc 0).chan = .ticks ∧
      ¬ s.SleepsOn .ticks 0 := by
  have hview : ((userinit bootTable ⟨true, true, true⟩).bind fun t =>
      (exec (sleepStep .ticks) (startSleepers (bootKernel t) false : Sleepers Unit)
        ([SleepAction.probe 0, SleepAction.decide 0] ++ List.replicate 7 (SleepAction.process 0) ++
          [SleepAction.enter () none] ++ List.replicate 196 (SleepAction.waker ()))).map
        fun s => (s.cond, s.place 0, (s.kernel.proc 0).chan, s.waker ())) =
      some (true, .off, .ticks, .idle) := by decide +kernel
  obtain ⟨t, ht, hview⟩ := Option.bind_eq_some_iff.mp hview
  obtain ⟨s, hs, hview⟩ := Option.map_eq_some_iff.mp hview
  simp only [Prod.mk.injEq] at hview
  obtain ⟨hcond, hplace, hchan, hidle⟩ := hview
  have hk : ∀ i, ((bootKernel t).proc i).state = .sleeping →
      ((bootKernel t).proc i).chan ≠ .ticks := by
    cases ht
    intro i hsleep
    by_cases hi : i = 0
    · subst i
      simp [bootKernel] at hsleep
    · simp [bootKernel, hi, bootTable, bootProc] at hsleep
  refine ⟨s, hcond, hplace, hchan, reach_not_sleepsOn hk (reach_of_exec hs) hcond ?_ 0⟩
  intro w
  rw [hidle]
  rfl

end CS352.Scheduler
