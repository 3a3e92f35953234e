import CS352.Library.Sweep
import CS352.Library.Transition
import CS352.Verification.Scheduler.Operations
import Mathlib.Data.List.Nodup

/-! # Round-robin scheduling

The scheduler sweeps over the process table. The processes change the table in the middle
of a pass, but the position of the sweep only moves on. -/

namespace CS352.Scheduler

open Mlfq (nproc Memory)
open Transition Sweep

variable {m m' : Machine} {a : Action}

/-! ## The property -/

/-- The action ends a pass over the process table. -/
def endsPass (m : Machine) (a : Action) : Bool :=
  match a, m.place with
  | .scan, .scan i => nproc ≤ i
  | _, _ => false

/-- A run of one hart with the number of the current pass and the dispatches so far, each
with its pass and slot. -/
structure Turns where
  machine : Machine
  pass : ℕ
  turns : List (ℕ × ℕ)

def startTurns (m : Machine) : Turns := ⟨m, 0, []⟩

def turnStep (s : Turns) (a : Action) : Option Turns :=
  (step s.machine a).map fun m =>
    { machine := m
      pass := if endsPass s.machine a then s.pass + 1 else s.pass
      turns := s.turns ++ ((switchedTo s.machine m).map fun i => (s.pass, i)).toList }

/-- The slots that were dispatched. -/
def Turns.slots (s : Turns) : List ℕ := s.turns.map Prod.snd

/-! ## One step of the sweep -/

/-- The index that the loop of `scheduler` looks at next. -/
def Place.next : Place → ℕ
  | .scan i => i
  | .running p => p + 1

/-- How an action moves the sweep. -/
inductive SweepStep (m : Machine) (a : Action) (m' : Machine) : Prop where
  | dispatch (i : ℕ) (hi : i < nproc) (hplace : m.place.next = i)
      (hturn : switchedTo m m' = some i) (hpass : endsPass m a = false)
      (hplace' : m'.place.next = i + 1)
  | skip (i : ℕ) (hplace : m.place.next = i) (hrun : (m.kernel.proc i).state ≠ .runnable)
      (hturn : switchedTo m m' = none) (hpass : endsPass m a = false)
      (hplace' : m'.place.next = i + 1)
  | wrap (hplace : nproc ≤ m.place.next) (hturn : switchedTo m m' = none)
      (hpass : endsPass m a = true) (hplace' : m'.place.next = 0)
  | stay (hturn : switchedTo m m' = none) (hpass : endsPass m a = false)
      (hplace' : m'.place.next = m.place.next)

theorem step_sweepStep (h : step m a = some m') : SweepStep m a m' := by
  have hswitch := switchedTo_eq h
  cases step_move h with
  | dispatch i hplace hi hrun =>
    refine .dispatch i hi (by simp [hplace, Place.next]) (hswitch.trans ?_) ?_ rfl
    · simp [dispatched, hplace, hi, hrun]
    · simp [endsPass, hplace, hi]
  | skip i hplace hi hrun =>
    refine .skip i (by simp [hplace, Place.next]) hrun (hswitch.trans ?_) ?_ rfl
    · simp [dispatched, hplace, hrun]
    · simp [endsPass, hplace, hi]
  | wrap i hplace hi =>
    refine .wrap (by simpa [hplace, Place.next] using hi) (hswitch.trans ?_) ?_ rfl
    · simp [dispatched, hplace, hi]
    · simp [endsPass, hplace, hi]
  | wakeup chan => exact .stay hswitch rfl rfl
  | call p hplace t ha hstart hget =>
    refine .stay (hswitch.trans ?_) ?_ (by simp [hplace, Place.next])
    · simp [dispatched, hplace]
    · simp [endsPass, hplace]
  | back p hplace t ha hstart hget =>
    refine .stay (hswitch.trans ?_) ?_ (by simp [hplace, Place.next, sched])
    · simp [dispatched, hplace]
    · simp [endsPass, hplace]
  | startlog p hplace => exact .stay hswitch rfl (by simp [hplace, Place.next])
  | getlog p hplace ok => exact .stay hswitch rfl (by simp [hplace, Place.next])

/-! ## Within one pass -/

/-- The dispatches are in the order of their passes and, within a pass, of their slots;
the next one comes behind all of them. -/
structure Sorted (s : Turns) : Prop where
  pairwise : s.turns.Pairwise fun x y => x.1 < y.1 ∨ x.1 = y.1 ∧ x.2 < y.2
  before : ∀ x ∈ s.turns, x.1 < s.pass ∨ x.1 = s.pass ∧ x.2 < s.machine.place.next

theorem Sorted.step {s s' : Turns} (h : Sorted s) (hs : turnStep s a = some s') : Sorted s' := by
  obtain ⟨m, hm, rfl⟩ := Option.map_eq_some_iff.mp hs
  cases step_sweepStep hm with
  | dispatch i hi hplace hturn hpass hplace' =>
    have hbefore : ∀ x ∈ s.turns, x.1 < s.pass ∨ x.1 = s.pass ∧ x.2 < i := by
      rw [← hplace]
      exact h.before
    refine ⟨?_, ?_⟩
    · simp only [hturn, Option.map_some, Option.toList_some]
      refine List.pairwise_append.mpr ⟨h.pairwise, List.pairwise_singleton _ _, ?_⟩
      intro x hx y hy
      obtain rfl := List.mem_singleton.mp hy
      exact hbefore x hx
    · simp only [hturn, hpass, hplace', Option.map_some, Option.toList_some, List.mem_append,
        List.mem_singleton, Bool.false_eq_true, if_false]
      rintro x (hx | rfl)
      · have := hbefore x hx
        omega
      · exact .inr ⟨rfl, i.lt_succ_self⟩
  | skip i hplace hrun hturn hpass hplace' =>
    refine ⟨by simpa [hturn] using h.pairwise, ?_⟩
    intro x hx
    have hbefore := h.before x (by simpa [hturn] using hx)
    simp only [hpass, hplace', Bool.false_eq_true, if_false]
    omega
  | wrap hplace hturn hpass hplace' =>
    refine ⟨by simpa [hturn] using h.pairwise, ?_⟩
    intro x hx
    have hbefore := h.before x (by simpa [hturn] using hx)
    simp only [hpass, if_true]
    omega
  | stay hturn hpass hplace' =>
    refine ⟨by simpa [hturn] using h.pairwise, ?_⟩
    intro x hx
    have hbefore := h.before x (by simpa [hturn] using hx)
    simpa only [hpass, hplace', Bool.false_eq_true, if_false] using hbefore

theorem Sorted.nodup {s : Turns} (h : Sorted s) : s.turns.Nodup := by
  refine h.pairwise.imp ?_
  rintro x y hlt rfl
  omega

/-! ## Between two dispatches -/

/-- In this state process `q` is runnable or has been dispatched. -/
def Waiting (q : ℕ) (s : Turns) (_ : Action) : Prop :=
  (s.machine.kernel.proc q).state = .runnable ∨ q ∈ s.slots

theorem slots_step {s s' : Turns} (hs : turnStep s a = some s') :
    s'.slots = s.slots ++ (switchedTo s.machine s'.machine).toList := by
  obtain ⟨m, hm, rfl⟩ := Option.map_eq_some_iff.mp hs
  dsimp only
  cases switchedTo s.machine m <;> simp [Turns.slots]

/-- A sweep that passes `q` finds it runnable and dispatches it, if it had no turn yet. -/
theorem swept_step {p q : ℕ} {s s' : Turns}
    (h : Swept nproc p (fun x => x = q → q ∈ s.slots) s.machine.place.next)
    (hq : Waiting q s a) (hs : turnStep s a = some s') :
    Swept nproc p (fun x => x = q → q ∈ s'.slots) s'.machine.place.next := by
  have hslots := slots_step hs
  have hkeep : ∀ x, (x = q → q ∈ s.slots) → x = q → q ∈ s'.slots := by
    intro x hx hxq
    rw [hslots]
    exact List.mem_append_left _ (hx hxq)
  have h' := h.mono hkeep
  obtain ⟨m, hm, rfl⟩ := Option.map_eq_some_iff.mp hs
  cases step_sweepStep hm with
  | dispatch i hi hplace hturn hpass hplace' =>
    rw [hplace] at h'
    dsimp only
    rw [hplace']
    refine h'.advance ?_
    rintro - rfl
    rw [hslots, hturn]
    simp
  | skip i hplace hrun hturn hpass hplace' =>
    rw [hplace] at h'
    dsimp only
    rw [hplace']
    refine h'.advance ?_
    rintro - rfl
    exact hkeep i (fun _ => hq.resolve_left hrun) rfl
  | wrap hplace hturn hpass hplace' =>
    dsimp only
    rw [hplace']
    exact h'.wrap hplace
  | stay hturn hpass hplace' =>
    dsimp only
    rw [hplace']
    exact h'

theorem swept_exec {p q : ℕ} {as : List Action} {s s' : Turns}
    (h : Swept nproc p (fun x => x = q → q ∈ s.slots) s.machine.place.next)
    (hq : Along turnStep (Waiting q) s as) (hs : exec turnStep s as = some s') :
    Swept nproc p (fun x => x = q → q ∈ s'.slots) s'.machine.place.next := by
  induction as generalizing s with
  | nil =>
    cases hs
    exact h
  | cons a as ih =>
    obtain ⟨u, hu, hrest⟩ := Option.bind_eq_some_iff.mp hs
    exact ih (swept_step h hq.1 hu) (hq.2 u hu) hrest

theorem switchedTo_next {p : ℕ} (hm : step m a = some m') (h : switchedTo m m' = some p) :
    m.place.next = p ∧ m'.place.next = p + 1 := by
  cases step_sweepStep hm with
  | dispatch i hi hplace hturn hpass hplace' =>
    cases h.symm.trans hturn
    exact ⟨hplace, hplace'⟩
  | skip i hplace hrun hturn hpass hplace' => cases h.symm.trans hturn
  | wrap hplace hturn hpass hplace' => cases h.symm.trans hturn
  | stay hturn hpass hplace' => cases h.symm.trans hturn

/-! ## Main result -/

/-- In every run of one hart, whatever the process table is at the start, the hart switches to
every runnable process that its scan reaches, and to no slot twice in one pass. From a switch
to `p` to any later one, it switches to every other process that is runnable in each state
until then. -/
theorem reach_roundRobin {k : Kernel} {s : Turns}
    (hs : Reach turnStep (startTurns (startHart k)) s) :
    (∀ i < nproc, s.machine.place = .scan i → (s.machine.kernel.proc i).state = .runnable →
      ∃ m, step s.machine .scan = some m ∧ switchedTo s.machine m = some i) ∧
    s.turns.Nodup ∧
    ∀ (p : ℕ) (m m' : Machine) (as : List Action) (s' : Turns),
      step s.machine .scan = some m → switchedTo s.machine m = some p →
      exec turnStep (startTurns m) as = some s' →
      step s'.machine .scan = some m' → switchedTo s'.machine m' = some p →
      ∀ q < nproc, q ≠ p → Along turnStep (Waiting q) (startTurns m) as → q ∈ s'.slots := by
  refine ⟨?_, ?_, ?_⟩
  · intro i hi hplace hrun
    have hstep : step s.machine .scan =
        some ⟨(scan s.machine.kernel i).1, (scan s.machine.kernel i).2⟩ := by
      simp only [step, hplace]
    refine ⟨_, hstep, ?_⟩
    rw [switchedTo_eq hstep]
    simp [dispatched, hplace, hi, hrun]
  · have hsorted : Sorted s := by
      refine hs.invariant ⟨.nil, by simp [startTurns]⟩ ?_
      intro u a v hu _ hstep
      exact hu.step hstep
    exact hsorted.nodup
  · intro p m m' as s' hm hfirst hrun hm' hlast q hq hqp hwait
    have hstart : Swept nproc p (fun x => x = q → q ∈ (startTurns m).slots)
        (startTurns m).machine.place.next := by
      have hnext : (startTurns m).machine.place.next = p + 1 := (switchedTo_next hm hfirst).2
      rw [hnext]
      exact .start
    have hswept := swept_exec hstart hwait hrun
    rw [(switchedTo_next hm' hlast).1] at hswept
    exact hswept.back hq hqp rfl

/-- The first process forks and yields; its child is dispatched, and the first process is
dispatched before the child is again. -/
theorem reach_roundRobin_parent : ∃ s s' : Turns, ∃ m m' : Machine,
    step s.machine .scan = some m ∧ switchedTo s.machine m = some 1 ∧
      step s'.machine .scan = some m' ∧ switchedTo s'.machine m' = some 1 ∧
      s.turns.Nodup ∧ s'.slots = [0] ∧ 0 ∈ s'.slots := by
  let mem : Memory := ⟨true, true, true⟩
  let C : Turns → Action → Prop := fun s _ =>
    (s.machine.kernel.proc 0).state = .runnable ∨ 0 ∈ s.slots
  have hview : ((userinit bootTable mem).bind fun t =>
      (exec turnStep (startTurns (startHart (bootKernel t))) [.scan, .fork mem, .yield]).bind
        fun s => (step s.machine .scan).bind fun m =>
          (exec (fun s a => if C s a then turnStep s a else none) (startTurns m)
            (.yield :: List.replicate 64 .scan ++ [.yield])).bind fun s' =>
              (step s'.machine .scan).map fun m' =>
                (switchedTo s.machine m, switchedTo s'.machine m', s'.slots)) =
      some (some 1, some 1, [0]) := by decide +kernel
  obtain ⟨t, -, hview⟩ := Option.bind_eq_some_iff.mp hview
  obtain ⟨s, hs, hview⟩ := Option.bind_eq_some_iff.mp hview
  obtain ⟨m, hm, hview⟩ := Option.bind_eq_some_iff.mp hview
  obtain ⟨s', hs', hview⟩ := Option.bind_eq_some_iff.mp hview
  obtain ⟨m', hm', hview⟩ := Option.map_eq_some_iff.mp hview
  obtain ⟨hfirst, hview⟩ := Prod.mk.inj hview
  obtain ⟨hlast, hslots⟩ := Prod.mk.inj hview
  obtain ⟨hrun, hwait⟩ := along_of_exec hs'
  obtain ⟨-, hnodup, hbetween⟩ := reach_roundRobin (reach_of_exec hs)
  exact ⟨s, s', m, m', hm, hfirst, hm', hlast, hnodup, hslots,
    hbetween 1 m m' _ s' hm hfirst hrun hm' hlast 0 (by decide) (by decide) hwait⟩

end CS352.Scheduler
