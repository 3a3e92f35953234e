import CS352.Model.Mlfq.Interrupts
import CS352.Verification.Mlfq.Nice

/-! # Interrupts are on when the scheduler finds no process

The scheduler inherits its interrupt state from the process that switched to it. A
process that yields leaves interrupts off but is itself runnable; one that blocks or
exits should leave them on. -/

namespace CS352.Mlfq

open Transition Relation Function

/-! ## The hart between two steps -/

/-- A hart with no lock held, after the last critical section was entered with the
interrupt-enable bit `b`. -/
def settled (b : Bool) : Hart := ⟨b, 0, b⟩

section Hart

variable {h : Hart} (hnoff : h.noff = 0)

include hnoff

theorem critical_eq : critical h = some (settled h.sie) := by
  obtain ⟨sie, noff, intena⟩ := h
  subst hnoff
  cases sie <;> rfl

theorem yieldHart_eq : yieldHart h = some (h.sie, settled h.sie) := by
  obtain ⟨sie, noff, intena⟩ := h
  subst hnoff
  cases sie <;> rfl

theorem sleepHart_eq : sleepHart h = some (h.sie, settled h.sie) := by
  obtain ⟨sie, noff, intena⟩ := h
  subst hnoff
  cases sie <;> rfl

/-- The process that `dequeue` switches to releases its lock with the `intena` that it
saved. -/
theorem release_switch_eq (b : Bool) :
    release { acquire (intrOn h) with intena := b } = some (settled b) := by
  obtain ⟨sie, noff, intena⟩ := h
  subst hnoff
  cases b <;> rfl

end Hart

/-! ## Kernel operations as moves -/

theorem devintr_updates (k : Kernel) (me : Option ℕ) (d : Device) :
    Updates k (devintr k me d) := by
  cases d with
  | external chans =>
    simp only [devintr]
    induction chans generalizing k with
    | nil => exact .refl
    | cons chan chans ih => exact (wakeup_updates k me chan).trans (ih _)
  | timer => exact wakeup_updates k me .ticks

theorem tickTime_updates (k : Kernel) : Updates k (tickTime k) :=
  .single (.log k.schedlog (int (k.time + 1)) k.numLogged k.isLogging)

theorem wakeup_killed (k : Kernel) (me : Option ℕ) (chan : Chan) (x : ℕ) :
    ((wakeup k me chan).proc x).killed = (k.proc x).killed := by
  unfold wakeup
  generalize List.range nproc = ys
  induction ys generalizing k with
  | nil => rfl
  | cons y ys ih =>
    rw [List.foldl_cons, ih]
    split
    · by_cases hxy : x = y <;> simp [hxy]
    · rfl

theorem devintr_killed (k : Kernel) (me : Option ℕ) (d : Device) (x : ℕ) :
    ((devintr k me d).proc x).killed = (k.proc x).killed := by
  cases d with
  | external chans =>
    simp only [devintr]
    induction chans generalizing k with
    | nil => rfl
    | cons chan chans ih => rw [List.foldl_cons, ih, wakeup_killed]
  | timer => exact wakeup_killed k me .ticks x

theorem Inv.updates {k k' : Kernel} {cpu : Option ℕ} (h : Inv ⟨k, cpu⟩) (hu : Updates k k') :
    Inv ⟨k', cpu⟩ :=
  h.move (.updates (a := .tick) (m := ⟨k, cpu⟩) rfl hu)

/-- A scheduler that finds no process to run leaves none behind. -/
theorem Sync.not_runnable_of_firstProcess {k : Kernel} (h : Sync (fun _ => False) k)
    (hnone : firstProcess k.qtable = none) {x : ℕ} (hx : x < nproc) :
    (k.proc x).state ≠ .runnable := by
  intro hrun
  obtain ⟨L, hL, hmem⟩ := h.queued
  obtain ⟨i, hi⟩ := (hmem x hx).mpr ⟨hrun, not_false⟩
  rw [hL.toWellFormed.firstProcess_eq, List.head?_eq_none_iff] at hnone
  have hempty : L i = [] := by fin_cases i <;> simp_all
  simp [hempty] at hi

/-! ## The condition -/

/-- The step of a process with record `p` does not enter `exit` with interrupts off: it
is no fault, and no trap from user space if the process has been killed. A call of
`sys_nice` leaves the queues alone. -/
def ExitsEnabled (p : Proc) : HartAction → Prop
  | .trap .fault => False
  | .trap _ => p.killed = 0
  | .nice inc => LeavesQueues p inc
  | _ => True

instance (p : Proc) : (a : HartAction) → Decidable (ExitsEnabled p a)
  | .trap .fault => instDecidableFalse
  | .trap .ecall | .trap (.device _) => inferInstanceAs (Decidable (p.killed = 0))
  | .nice inc => inferInstanceAs (Decidable (LeavesQueues p inc))
  | .schedule | .interrupt _ | .sleep _ | .wakeup _ | .fork _ | .kill _ | .startlog
  | .wait _ _ | .exit _ | .leave | .finishExit => instDecidableTrue

/-- The process on the hart, if there is one, takes a step of this kind. -/
def CpuExitsEnabled (s : HartState) (a : HartAction) : Prop :=
  ∀ p ∈ s.machine.cpu, ExitsEnabled (s.machine.kernel.proc p) a

instance (s : HartState) (a : HartAction) : Decidable (CpuExitsEnabled s a) :=
  inferInstanceAs (Decidable (∀ p ∈ s.machine.cpu, _))

/-! ## The invariant -/

structure HartInv (s : HartState) : Prop where
  inv : Inv s.machine
  noff : s.hart.noff = 0
  saved : ∀ x b place, s.context x = .sleep b place → b = true
  enabled : ∀ p, s.machine.cpu = some p → s.hart.sie = true
  idle : s.machine.cpu = none → s.first = false →
    s.hart.sie = true ∨ ∃ x < nproc, (s.machine.kernel.proc x).state = .runnable

variable {s s' : HartState} {k : Kernel} {p : ℕ} {h : Hart}

/-- A step after which the process is still on the hart, with interrupts on. -/
theorem HartInv.stay (hs : HartInv s) {m : Machine} (hm : Inv m) (hcpu : m.cpu = some p)
    (place : Place) (hnoff : h.noff = 0) (hsie : h.sie = true) (first : Bool) :
    HartInv { s with machine := m, place := place, hart := h, first := first } where
  inv := hm
  noff := hnoff
  saved := hs.saved
  enabled := fun _ _ => hsie
  idle := fun hnone => by simp [hcpu] at hnone

theorem HartInv.yieldAs (hs : HartInv s) (hk : Inv ⟨k, some p⟩) (hnoff : h.noff = 0)
    {ctx : Bool → Context} (hctx : ∀ b b' place, ctx b ≠ .sleep b' place)
    (hyield : yieldAs s k p h ctx = some s') : HartInv s' := by
  rw [Mlfq.yieldAs, yieldHart_eq hnoff] at hyield
  obtain rfl := Option.some.inj hyield
  have hafter := afterSwitch_updates (yield k p) p
  refine ⟨hk.move (.yield hafter), rfl, ?_, by simp [sched], ?_⟩
  · intro x b place hx
    by_cases hxp : x = p
    · subst x
      simp only [update_self] at hx
      exact absurd hx (hctx _ b place)
    · simp only [update_of_ne hxp] at hx
      exact hs.saved x b place hx
  · intro _ _
    refine Or.inr ⟨p, hk.cpu_lt p rfl, hafter.runnable ?_⟩
    simp [yield]

theorem HartInv.sleepAs (hs : HartInv s) (hsie : s.hart.sie = true) (hm : Inv (sched k p))
    (hsleep : sleepAs s k p = some s') : HartInv s' := by
  rw [Mlfq.sleepAs, sleepHart_eq hs.noff] at hsleep
  obtain rfl := Option.some.inj hsleep
  refine ⟨hm, rfl, ?_, by simp [sched], fun _ _ => .inl hsie⟩
  intro x b place hx
  by_cases hxp : x = p
  · subst x
    simp only [update_self, Context.sleep.injEq] at hx
    exact hx.1.symm.trans hsie
  · simp only [update_of_ne hxp] at hx
    exact hs.saved x b place hx

theorem HartInv.enterExit (hs : HartInv s) (hk : Inv ⟨k, some p⟩) (hnoff : h.noff = 0)
    (hsie : h.sie = true) {status : ℤ} (hexit : enterExit s k p status h = some s') :
    HartInv s' := by
  unfold Mlfq.enterExit at hexit
  split at hexit
  · cases hexit
  · obtain rfl := Option.some.inj hexit
    exact hs.stay hk rfl _ hnoff hsie s.first

/-- A process that has not been killed goes on. -/
theorem checkKilled_alive (hnoff : h.noff = 0) (hkilled : (k.proc p).killed = 0)
    (alive : Hart → Option HartState) :
    checkKilled s k p h alive = alive (settled h.sie) := by
  simp [checkKilled, critical_eq hnoff, hkilled]

/-! ## Preservation -/

theorem HartInv.usertrap (hs : HartInv s) (hk : Inv ⟨k, some p⟩) {c : Cause} (hc : c ≠ .fault)
    (hkilled : (k.proc p).killed = 0) (hcpu : s.machine = ⟨k, some p⟩)
    (htrap : usertrap s k p c = some s') : HartInv s' := by
  have hoff : (intrOff s.hart).noff = 0 := hs.noff
  cases c with
  | fault => exact absurd rfl hc
  | ecall =>
    rw [Mlfq.usertrap, checkKilled_alive hoff hkilled] at htrap
    obtain rfl := Option.some.inj htrap
    exact hs.stay hs.inv (by rw [hcpu]) _ rfl rfl s.first
  | device d =>
    have hk' := hk.updates (devintr_updates k (some p) d)
    have hkilled' : ((devintr k (some p) d).proc p).killed = 0 := by
      rw [devintr_killed, hkilled]
    rw [Mlfq.usertrap, checkKilled_alive hoff hkilled'] at htrap
    cases d with
    | external chans =>
      obtain rfl := Option.some.inj htrap
      exact hs.stay hk' rfl _ rfl rfl s.first
    | timer =>
      exact hs.yieldAs (hk'.updates (tickTime_updates _)) rfl (by simp) htrap

theorem HartInv.kerneltrap (hs : HartInv s) {d : Device}
    (htrap : kerneltrap s d = some s') : HartInv s' := by
  obtain ⟨⟨k, cpu⟩, place, hart, context, first⟩ := s
  have hoff : (intrOff hart).noff = 0 := hs.noff
  have hk := hs.inv.updates (devintr_updates k cpu d)
  have htick := hk.updates (tickTime_updates _)
  cases cpu with
  | none =>
    cases d with
    | external chans | timer =>
      obtain rfl := Option.some.inj htrap
      exact ⟨by assumption, hs.noff, hs.saved, by simp, fun _ _ => .inl rfl⟩
  | some p =>
    cases d with
    | external chans =>
      obtain rfl := Option.some.inj htrap
      exact hs.stay (h := intrOn (intrOff hart)) hk rfl _ hoff rfl first
    | timer =>
      simp only [Mlfq.kerneltrap] at htrap
      split at htrap
      · exact hs.yieldAs htick hoff (by simp) htrap
      · obtain rfl := Option.some.inj htrap
        exact hs.stay (h := intrOn (intrOff hart)) htick rfl _ hoff rfl first

theorem HartInv.switchTo (hs : HartInv s) {m : Machine} (hm : Inv m) (hcpu : m.cpu = some p)
    (x : ℕ) (hswitch : switchTo s m (s.context x) = some s') : HartInv s' := by
  have hrel := release_switch_eq hs.noff
  have hfresh : release (acquire (intrOn s.hart)) = some (settled true) := by
    rw [← hrel true]
    simp [acquire, pushOff, intrOn, hs.noff]
  have hcrit : ∀ b, critical (settled b) = some (settled b) := fun b => critical_eq rfl
  cases hctx : s.context x with
  | forkret =>
    simp only [Mlfq.switchTo, hctx, hfresh, Option.bind_eq_bind, Option.bind_some] at hswitch
    split at hswitch
    · obtain rfl := Option.some.inj hswitch
      exact hs.stay hm hcpu _ rfl rfl false
    · obtain rfl := Option.some.inj hswitch
      exact hs.stay hm hcpu _ rfl rfl s.first
  | usertrap intena | kerneltrap intena place =>
    simp only [Mlfq.switchTo, hctx, hrel, Option.bind_eq_bind, Option.bind_some] at hswitch
    obtain rfl := Option.some.inj hswitch
    exact hs.stay hm hcpu _ rfl rfl s.first
  | sleep intena place =>
    simp only [Mlfq.switchTo, hctx, hrel, hcrit, Option.bind_eq_bind, Option.bind_some] at hswitch
    obtain rfl := Option.some.inj hswitch
    exact hs.stay hm hcpu _ rfl (hs.saved x intena place hctx) s.first

theorem HartInv.schedulerPass (hs : HartInv s) (hcpu : s.machine.cpu = none)
    (hpass : schedulerPass s = some s') : HartInv s' := by
  obtain ⟨⟨k, cpu⟩, place, hart, context, first⟩ := s
  subst hcpu
  have hm : Inv (dequeue (boostCheck k)) := hs.inv.move (dequeue_move k)
  simp only [Mlfq.schedulerPass] at hpass
  split at hpass
  · rename_i hnone
    obtain rfl := Option.some.inj hpass
    refine ⟨hm, hs.noff, hs.saved, ?_, ?_⟩
    · simp [dequeue, hnone]
    · intro _ hfirst
      rcases hs.idle rfl hfirst with hsie | ⟨x, hx, hrun⟩
      · exact .inl hsie
      · exact .inr ⟨x, hx, by simpa [dequeue, hnone, boostCheck_state] using hrun⟩
  · rename_i x hsome
    have hx : (dequeue (boostCheck k)).cpu = some x := by simp [dequeue, hsome]
    exact hs.switchTo hm hx x hpass

theorem HartInv.processStep (hs : HartInv s) {a : HartAction} (hm : s.machine = ⟨k, some p⟩)
    (hcond : CpuExitsEnabled s a) (hstep : processStep s k p a = some s') : HartInv s' := by
  have hk : Inv ⟨k, some p⟩ := hm ▸ hs.inv
  have hsie : s.hart.sie = true := hs.enabled p (by rw [hm])
  have hsettled : (settled s.hart.sie).sie = true := hsie
  cases a with
  | sleep chan =>
    simp only [Mlfq.processStep] at hstep
    split at hstep
    · cases hstep
    · exact hs.sleepAs hsie (hk.move (sleep_move (a := .sleep chan) rfl k p chan)) hstep
  | wakeup chan =>
    simp only [Mlfq.processStep, critical_eq hs.noff, Option.map_some] at hstep
    split at hstep
    · cases hstep
    · obtain rfl := Option.some.inj hstep
      exact hs.stay (hk.updates (wakeup_updates _ _ _)) rfl _ rfl hsettled s.first
  | fork mem =>
    simp only [Mlfq.processStep, critical_eq hs.noff, Option.map_some] at hstep
    split at hstep
    · obtain rfl := Option.some.inj hstep
      refine ⟨hk.updates (fork_updates k p mem), rfl, ?_, fun _ _ => hsettled, by simp⟩
      intro x b place hx
      -- The slot that `allocproc` takes starts over in `forkret`.
      have hold : s.context x = .sleep b place := by
        cases hslot : (allocproc k mem).2 with
        | none => simpa [hslot] using hx
        | some i =>
          by_cases hxi : x = i
          · simp [hslot, hxi] at hx
          · simpa [hslot, hxi] using hx
      exact hs.saved x b place hold
    · cases hstep
  | kill pid =>
    simp only [Mlfq.processStep, critical_eq hs.noff, Option.map_some] at hstep
    split at hstep
    · obtain rfl := Option.some.inj hstep
      exact hs.stay (hk.updates (kill_updates k pid)) rfl _ rfl hsettled s.first
    · cases hstep
  | nice inc =>
    simp only [Mlfq.processStep, critical_eq hs.noff, Option.map_some] at hstep
    split at hstep
    · obtain rfl := Option.some.inj hstep
      have hleave : LeavesQueues (k.proc p) inc := by
        have hp := hcond p (by rw [hm]; rfl)
        rwa [hm] at hp
      rw [sysNice_of_leaves hleave]
      exact hs.stay (hk.move (.nice _)) rfl _ rfl hsettled s.first
    · cases hstep
  | startlog =>
    simp only [Mlfq.processStep] at hstep
    split at hstep
    · obtain rfl := Option.some.inj hstep
      exact hs.stay (hk.updates (sysStartlog_updates k)) rfl _ hs.noff hsie s.first
    · cases hstep
  | wait addr copyoutOk =>
    have hwait := hk.move (wait_move k p addr copyoutOk)
    simp only [Mlfq.processStep, critical_eq hs.noff, Option.map_some] at hstep
    split at hstep
    · cases hr : wait k p addr copyoutOk with
      | mk k' r =>
        rw [hr] at hstep hwait
        cases r with
        | some v =>
          obtain rfl := Option.some.inj hstep
          exact hs.stay hwait rfl _ rfl hsettled s.first
        | none => exact hs.sleepAs hsie hwait hstep
    · cases hstep
  | exit status =>
    simp only [Mlfq.processStep] at hstep
    split at hstep
    · exact hs.enterExit hk hs.noff hsie hstep
    · cases hstep
  | leave =>
    simp only [Mlfq.processStep] at hstep
    split at hstep
    · simp only [checkKilled, critical_eq hs.noff, Option.bind_eq_bind, Option.bind_some]
        at hstep
      split at hstep
      · exact hs.enterExit hk rfl hsettled hstep
      · obtain rfl := Option.some.inj hstep
        exact hs.stay hs.inv (by rw [hm]) _ rfl rfl s.first
    · obtain rfl := Option.some.inj hstep
      exact hs.stay (h := usertrapret s.hart) hs.inv (by rw [hm]) _ hs.noff rfl s.first
    · cases hstep
  | finishExit =>
    simp only [Mlfq.processStep] at hstep
    split at hstep
    · obtain ⟨k', hexit, hstep⟩ := Option.bind_eq_some_iff.mp hstep
      simp only [sleepHart_eq hs.noff, Option.bind_eq_bind, Option.bind_some] at hstep
      obtain rfl := Option.some.inj hstep
      exact ⟨hk.move (exit_move hexit), rfl, hs.saved, by simp [sched], fun _ _ => .inl hsie⟩
    · cases hstep
  | schedule | interrupt d | trap c => cases hstep

theorem HartInv.step (hs : HartInv s) {a : HartAction} (hcond : CpuExitsEnabled s a)
    (hstep : hartStep s a = some s') : HartInv s' := by
  cases a with
  | schedule =>
    obtain ⟨hcpu, hpass⟩ := Option.ite_none_right_eq_some.mp hstep
    exact hs.schedulerPass hcpu hpass
  | interrupt d =>
    obtain ⟨_, htrap⟩ := Option.ite_none_right_eq_some.mp hstep
    exact hs.kerneltrap htrap
  | trap c =>
    obtain ⟨p, hcpu, htrap⟩ := Option.bind_eq_some_iff.mp hstep
    obtain ⟨_, htrap⟩ := Option.ite_none_right_eq_some.mp htrap
    have hm : s.machine = ⟨s.machine.kernel, some p⟩ := by rw [← hcpu]
    have hc : c ≠ .fault := by
      rintro rfl
      exact hcond p hcpu
    have hkilled : (s.machine.kernel.proc p).killed = 0 := by
      have hp := hcond p hcpu
      cases c with
      | fault => exact absurd rfl hc
      | ecall | device d => exact hp
    exact hs.usertrap (hm ▸ hs.inv) hc hkilled hm htrap
  | _ =>
    obtain ⟨p, hcpu, hstep⟩ := Option.bind_eq_some_iff.mp hstep
    have hm : s.machine = ⟨s.machine.kernel, some p⟩ := by rw [← hcpu]
    exact hs.processStep hm hcond hstep

theorem hartInv_bootHart {m : Machine} (h : Booted m) : HartInv (bootHart m) := by
  refine ⟨h.inv, rfl, by simp [bootHart], ?_, by simp [bootHart]⟩
  intro p hp
  obtain ⟨mem, k, -, rfl⟩ := h
  simp [bootHart] at hp

theorem reachWhere_hartInv {m : Machine} (hboot : Booted m)
    (h : ReachWhere hartStep CpuExitsEnabled (bootHart m) s) : HartInv s :=
  h.invariant (hartInv_bootHart hboot) fun _ _ _ hi hc hs => hi.step hc hs

/-! ## Main result -/

/-- Once the first process has run, a scheduler pass that finds all queues empty has
interrupts on. -/
def IdleEnabled (s : HartState) : Prop :=
  s.machine.cpu = none → s.first = false →
    firstProcess (boostCheck s.machine.kernel).qtable = none → s.hart.sie = true

/-- In every run in which no process enters `exit` with interrupts off, the scheduler
never finds its queues empty with interrupts off. -/
theorem reachWhere_idleEnabled {m : Machine} {s : HartState} (hboot : Booted m)
    (h : ReachWhere hartStep CpuExitsEnabled (bootHart m) s) : IdleEnabled s := by
  have hinv := reachWhere_hartInv hboot h
  intro hcpu hfirst hnone
  rcases hinv.idle hcpu hfirst with hsie | ⟨x, hx, hrun⟩
  · exact hsie
  · have hstate := hinv.inv.sync.boostCheck.not_runnable_of_firstProcess hnone hx
    rw [boostCheck_state] at hstate
    exact absurd hrun hstate

/-- The kernel at boot when all allocations succeed. -/
def bootState : HartState := bootHart ⟨makeRunnable initKernel 0, none⟩

theorem booted_bootState : Booted bootState.machine := ⟨⟨true, true, true⟩, _, rfl, rfl⟩

/-- The first process initialises the file system, starts a child and calls `sleep`. -/
def childQueued : List HartAction :=
  [.schedule, .leave, .trap .ecall, .fork ⟨true, true, true⟩, .leave, .trap .ecall,
    .sleep .ticks]

/-- The child runs and calls `exit` itself. -/
def childExits : List HartAction :=
  childQueued ++ [.schedule, .trap .ecall, .exit 0, .finishExit]

theorem reachWhere_idleEnabled_childExits : ∃ s : HartState,
    ReachWhere hartStep CpuExitsEnabled bootState s ∧ s.machine.cpu = none ∧ s.first = false ∧
      firstProcess (boostCheck s.machine.kernel).qtable = none ∧ IdleEnabled s := by
  have hrun : (exec (fun s a => if CpuExitsEnabled s a then hartStep s a else none) bootState
      childExits).map (fun s => (s.machine.cpu, s.first,
        firstProcess (boostCheck s.machine.kernel).qtable)) = some (none, false, none) := by
    decide +kernel
  obtain ⟨s, hs, hview⟩ := Option.map_eq_some_iff.mp hrun
  simp only [Prod.mk.injEq] at hview
  have hreach := reachWhere_of_exec hs
  exact ⟨s, hreach, hview.1, hview.2.1, hview.2.2, reachWhere_idleEnabled booted_bootState hreach⟩

/-- The child runs and faults. -/
def childFaults : List HartAction := childQueued ++ [.schedule, .trap .fault, .finishExit]

/-- All queues are empty, interrupts are off, and the first process sleeps until the
timer wakes it. -/
theorem childFaults_not_idleEnabled : ∃ s : HartState,
    Booted bootState.machine ∧ exec hartStep bootState childFaults = some s ∧
      (s.machine.kernel.proc 0).state = .sleeping ∧ (s.machine.kernel.proc 0).chan = .ticks ∧
      ¬ IdleEnabled s := by
  have hrun : (exec hartStep bootState childFaults).map (fun s =>
      (s.machine.cpu, s.first, firstProcess (boostCheck s.machine.kernel).qtable, s.hart.sie,
        (s.machine.kernel.proc 0).state, (s.machine.kernel.proc 0).chan)) =
      some (none, false, none, false, .sleeping, .ticks) := by
    decide +kernel
  obtain ⟨s, hs, hview⟩ := Option.map_eq_some_iff.mp hrun
  simp only [Prod.mk.injEq] at hview
  obtain ⟨hcpu, hfirst, hnone, hsie, hstate, hchan⟩ := hview
  refine ⟨s, booted_bootState, hs, hstate, hchan, fun hidle => ?_⟩
  simp [hidle hcpu hfirst hnone] at hsie

end CS352.Mlfq
