import CS352.Model.Mlfq.Harts
import CS352.Verification.Mlfq.Solo

/-! # No process on two harts

A hart owns a process from the moment `dequeue` removes it from its queue until the
process gives up the processor. As long as no boost rebuilds the queues while some hart
has removed a process and not yet marked it, every process has at most one owner. -/

namespace CS352.Mlfq

open Transition Function

variable {ι : Type*} {s s' : Harts ι} {h : ι} {place : HartPlace}

/-! ## The property -/

/-- The process that the hart has removed from the queues or runs. -/
def HartPlace.owned : HartPlace → Option ℕ
  | .picked p | .switched p | .running p => some p
  | .loop | .dequeue => none

theorem HartPlace.owned_of_proc {p : ℕ} (h : place.proc = some p) : place.owned = some p := by
  cases place <;> simp_all [HartPlace.proc, HartPlace.owned]

/-- No process is `c->proc` of two harts, and a `dequeue` that can acquire the lock of its
process finds it runnable. -/
structure Exclusive (s : Harts ι) : Prop where
  proc_unique : ∀ h h' p, (s.place h).proc = some p → (s.place h').proc = some p → h = h'
  dispatch_runnable : ∀ h p, s.place h = .picked p → s.locked p = false →
    (s.kernel.proc p).state = .runnable

/-- `dequeue` has removed a process and not yet marked it. -/
def HartPlace.inWindow : HartPlace → Bool
  | .picked _ => true
  | .loop | .dequeue | .switched _ | .running _ => false

/-- The priority boost starts only while no hart is in that window. -/
def BoostsOutsideWindows (s : Harts ι) : ι × HartsAction → Prop
  | (_, .boostCheck) => s.kernel.timeSincePriorityBoost > 60 → ∀ h, (s.place h).inWindow = false
  | _ => True

/-! ## The invariant -/

/-- The queues hold the runnable processes that no hart has picked. -/
structure HartsInv (s : Harts ι) : Prop where
  sync : Sync (fun x => ∃ h, s.place h = .picked x) s.kernel
  owned_lt : ∀ h p, (s.place h).owned = some p → p < nproc
  running : ∀ h p, (s.place h).proc = some p → (s.kernel.proc p).state = .running
  owned_unique : ∀ h h' p, (s.place h).owned = some p → (s.place h').owned = some p → h = h'

theorem HartsInv.exclusive (hi : HartsInv s) : Exclusive s := by
  refine ⟨?_, ?_⟩
  · intro h h' p hp hp'
    exact hi.owned_unique h h' p (HartPlace.owned_of_proc hp) (HartPlace.owned_of_proc hp')
  · intro h p hp _
    exact hi.sync.out_runnable p ⟨h, hp⟩

theorem hartsInv_startHarts {k : Kernel} (hboot : Booted ⟨k, none⟩) :
    HartsInv (startHarts k : Harts ι) := by
  have hinv := hboot.inv
  exact ⟨hinv.sync.of_iff (by simp [startHarts]), by simp [startHarts, HartPlace.owned],
    by simp [startHarts, HartPlace.proc], by simp [startHarts, HartPlace.owned]⟩

/-- A change of the kernel that concerns no hart. -/
theorem HartsInv.setKernel {k' : Kernel} (hi : HartsInv s)
    (hsync : Sync (fun x => ∃ h, s.place h = .picked x) k')
    (hrun : ∀ x, (k'.proc x).state = .running ↔ (s.kernel.proc x).state = .running) :
    HartsInv { s with kernel := k' } := by
  refine ⟨hsync, hi.owned_lt, ?_, hi.owned_unique⟩
  intro h p hp
  exact (hrun p).mpr (hi.running h p hp)

/-- The picked processes, seen from a hart that has picked none. -/
theorem picked_iff_others (hh : (s.place h).inWindow = false) (x : ℕ) :
    (∃ h', s.place h' = .picked x) ↔ ∃ h' ≠ h, s.place h' = .picked x := by
  constructor
  · rintro ⟨h', hx⟩
    refine ⟨h', ?_, hx⟩
    rintro rfl
    simp [hx, HartPlace.inWindow] at hh
  · rintro ⟨h', -, hx⟩
    exact ⟨h', hx⟩

variable [DecidableEq ι]

/-- A step of hart `h`: it may change the kernel as long as the processes of the other
harts keep running, and what it owns afterwards is owned by no other hart. -/
theorem HartsInv.moveTo {k' : Kernel} {locked' : ℕ → Bool} (hi : HartsInv s)
    (hsync : Sync (fun x => place = .picked x ∨ ∃ h' ≠ h, s.place h' = .picked x) k')
    (hlt : ∀ p, place.owned = some p → p < nproc)
    (hnew : ∀ p, place.proc = some p → (k'.proc p).state = .running)
    (hold : ∀ h' ≠ h, ∀ p, (s.place h').proc = some p → (k'.proc p).state = .running)
    (hfresh : ∀ h' ≠ h, ∀ p, place.owned = some p → (s.place h').owned ≠ some p) :
    HartsInv (Harts.moveTo ⟨k', locked', s.place⟩ h place) := by
  have hself : update s.place h place h = place := update_self ..
  have hother : ∀ h' ≠ h, update s.place h place h' = s.place h' :=
    fun h' hne => update_of_ne hne ..
  refine ⟨hsync.of_iff ?_, ?_, ?_, ?_⟩
  · intro x
    constructor
    · rintro (rfl | ⟨h', hne, hx⟩)
      · exact ⟨h, hself⟩
      · exact ⟨h', (hother h' hne).trans hx⟩
    · rintro ⟨h', hx⟩
      by_cases hne : h' = h
      · subst h'
        exact .inl (hself.symm.trans hx)
      · exact .inr ⟨h', hne, (hother h' hne).symm.trans hx⟩
  · intro h' p hp
    simp only [Harts.moveTo] at hp
    by_cases hne : h' = h
    · subst h'
      exact hlt p (hself ▸ hp)
    · exact hi.owned_lt h' p (hother h' hne ▸ hp)
  · intro h' p hp
    simp only [Harts.moveTo] at hp
    by_cases hne : h' = h
    · subst h'
      exact hnew p (hself ▸ hp)
    · exact hold h' hne p (hother h' hne ▸ hp)
  · intro h₁ h₂ p hp₁ hp₂
    simp only [Harts.moveTo] at hp₁ hp₂
    by_cases hne₁ : h₁ = h <;> by_cases hne₂ : h₂ = h
    · rw [hne₁, hne₂]
    · subst h₁
      rw [hself] at hp₁
      rw [hother h₂ hne₂] at hp₂
      exact absurd hp₂ (hfresh h₂ hne₂ p hp₁)
    · subst h₂
      rw [hself] at hp₂
      rw [hother h₁ hne₁] at hp₁
      exact absurd hp₁ (hfresh h₁ hne₁ p hp₂)
    · rw [hother h₁ hne₁] at hp₁
      rw [hother h₂ hne₂] at hp₂
      exact hi.owned_unique h₁ h₂ p hp₁ hp₂

/-- Hart `h` goes on without picking a process or taking another hart's. -/
theorem HartsInv.advance {k' : Kernel} {locked' : ℕ → Bool} (hi : HartsInv s)
    (hh : (s.place h).inWindow = false) (hplace : place.owned = none)
    (hsync : Sync (fun x => ∃ h', s.place h' = .picked x) k')
    (hold : ∀ h' ≠ h, ∀ p, (s.place h').proc = some p → (k'.proc p).state = .running) :
    HartsInv (Harts.moveTo ⟨k', locked', s.place⟩ h place) := by
  have hnone : ∀ p, place.owned ≠ some p := by simp [hplace]
  refine hi.moveTo (hsync.of_iff fun x => ?_) (fun p hp => absurd hp (hnone p))
    (fun p hp => absurd (HartPlace.owned_of_proc hp) (hnone p)) hold
    (fun _ _ p hp => absurd hp (hnone p))
  rw [picked_iff_others hh]
  cases place <;> simp_all [HartPlace.owned]

/-! ## The steps -/

theorem HartsInv.boostCheck (hi : HartsInv s) (hh : s.place h = .loop)
    (hc : BoostsOutsideWindows s (h, .boostCheck)) :
    HartsInv ({ s with kernel := boostCheck s.kernel }.moveTo h .dequeue) := by
  refine hi.advance (by simp [hh, HartPlace.inWindow]) rfl ?_ ?_
  · unfold Mlfq.boostCheck
    split
    · rename_i htime
      refine (sync_priorityBoost hi.sync.setup).of_iff fun x => ?_
      have hnone : ∀ h', s.place h' ≠ .picked x := by
        intro h' hx
        have hw := hc htime h'
        simp [hx, HartPlace.inWindow] at hw
      simp [hnone]
    · exact hi.sync
  · intro h' _ p hp
    rw [boostCheck_state]
    exact hi.running h' p hp

theorem HartsInv.pick {p : ℕ} (hi : HartsInv s) (hh : s.place h = .dequeue)
    (hfirst : firstProcess s.kernel.qtable = some p) :
    HartsInv ({ s with kernel := unlinkProc s.kernel p }.moveTo h (.picked p)) := by
  obtain ⟨hlt, hrunnable, hout, hsync⟩ := hi.sync.unlinkProc hfirst
  refine hi.moveTo (hsync.of_iff fun x => ?_) (by simp [HartPlace.owned, hlt])
    (by simp [HartPlace.proc]) (fun h' _ q hq => hi.running h' q hq) ?_
  · rw [picked_iff_others (h := h) (by simp [hh, HartPlace.inWindow]), HartPlace.picked.injEq,
      eq_comm]
  · -- A hart that owns `p` has picked it, or runs it and then it is not runnable.
    rintro h' - q hq hq'
    obtain rfl := Option.some.inj hq
    cases hplace : s.place h' with
    | loop | dequeue => simp [hplace, HartPlace.owned] at hq'
    | picked q =>
      obtain rfl : q = p := by simpa [hplace, HartPlace.owned] using hq'
      exact hout ⟨h', hplace⟩
    | switched q | running q =>
      obtain rfl : q = p := by simpa [hplace, HartPlace.owned] using hq'
      have hrun := hi.running h' q (by simp [hplace, HartPlace.proc])
      simp [hrun] at hrunnable

theorem HartsInv.dispatch {p : ℕ} {locked' : ℕ → Bool} (hi : HartsInv s)
    (hh : s.place h = .picked p) :
    HartsInv (Harts.moveTo ⟨markRunning s.kernel p, locked', s.place⟩ h (.switched p)) := by
  have howned : (s.place h).owned = some p := by simp [hh, HartPlace.owned]
  have hother : ∀ h' ≠ h, (s.place h').owned ≠ some p :=
    fun h' hne hp => hne (hi.owned_unique h' h p hp howned)
  refine hi.moveTo ((hi.sync.markRunning ⟨h, hh⟩).of_iff fun x => ?_)
    (fun q hq => hi.owned_lt h q (howned.trans hq)) (by simp [HartPlace.proc, markRunning]) ?_
    (fun h' hne q hq => (Option.some.inj hq : p = q) ▸ hother h' hne)
  · simp only [reduceCtorEq, false_or]
    constructor
    · rintro ⟨⟨h', hx⟩, hxp⟩
      refine ⟨h', ?_, hx⟩
      rintro rfl
      exact hxp (by simpa [hh] using hx.symm)
    · rintro ⟨h', hne, hx⟩
      refine ⟨⟨h', hx⟩, ?_⟩
      rintro rfl
      exact hother h' hne (by simp [hx, HartPlace.owned])
  · intro h' hne q hq
    have hqp : q ≠ p := by
      rintro rfl
      exact hother h' hne (HartPlace.owned_of_proc hq)
    simpa [markRunning, hqp] using hi.running h' q hq

theorem HartsInv.resume {p : ℕ} {locked' : ℕ → Bool} (hi : HartsInv s)
    (hh : s.place h = .switched p) :
    HartsInv (Harts.moveTo ⟨resume s.kernel p, locked', s.place⟩ h (.running p)) := by
  have howned : (s.place h).owned = some p := by simp [hh, HartPlace.owned]
  have hrun := hi.running h p (by simp [hh, HartPlace.proc])
  refine hi.moveTo (hi.sync.resume.of_iff fun x => ?_)
    (fun q hq => hi.owned_lt h q (howned.trans hq)) (by simp [HartPlace.proc, Mlfq.resume, hrun])
    ?_ ?_
  · simpa using picked_iff_others (h := h) (by simp [hh, HartPlace.inWindow]) x
  · intro h' _ q hq
    by_cases hqp : q = p <;> simp [Mlfq.resume, hqp, hrun, hi.running h' q hq]
  · intro h' hne q hq hq'
    exact hne (hi.owned_unique h' h q hq' (howned.trans hq))

/-- The process on hart `h` gives up the processor. -/
theorem HartsInv.leave {p : ℕ} {k' : Kernel} (hi : HartsInv s)
    (hh : (s.place h).proc = some p) (hsync : Sync (fun x => ∃ h', s.place h' = .picked x) k')
    (hrun : ∀ x ≠ p, (k'.proc x).state = .running ↔ (s.kernel.proc x).state = .running) :
    HartsInv ({ s with kernel := k' }.moveTo h .loop) := by
  refine hi.advance ?_ rfl hsync ?_
  · cases hplace : s.place h <;> simp_all [HartPlace.proc, HartPlace.inWindow]
  · intro h' hne q hq
    refine (hrun q ?_).mpr (hi.running h' q hq)
    rintro rfl
    exact hne (hi.owned_unique h' h q (HartPlace.owned_of_proc hq) (HartPlace.owned_of_proc hh))

/-- What the process of a hart does to itself and to others in one operation. -/
theorem HartsInv.operation {p : ℕ} {m : Machine} {a : Action} (hi : HartsInv s)
    (hh : (s.place h).proc = some p) (hm : Move a ⟨s.kernel, some p⟩ m) :
    HartsInv (if m.cpu = some p then { s with kernel := m.kernel }
      else { s with kernel := m.kernel }.moveTo h .loop) := by
  have hrun := hi.running h p hh
  have hlt := hi.owned_lt h p (HartPlace.owned_of_proc hh)
  cases hm with
  | updates ha hu =>
    rw [if_pos rfl]
    exact hi.setKernel (hi.sync.updates hu) hu.running_iff
  | nice v =>
    rw [if_pos rfl]
    refine hi.setKernel (hi.sync.assignNice v) fun x => ?_
    by_cases hx : x = p <;> simp [assignNice, hx]
  | yield hu =>
    rw [if_neg (by simp)]
    refine hi.leave hh ((hi.sync.yield hlt (by simp [hrun])).updates hu) fun x hx => ?_
    rw [hu.running_iff x]
    simp [Mlfq.yield, hx]
  | block ha chan status st hst hbefore hafter =>
    rename_i k₁ k'
    have hp : (k₁.proc p).state = .running := (hbefore.running_iff p).mpr hrun
    rw [if_neg (by simp)]
    refine hi.leave hh (((hi.sync.updates hbefore).setProc (by simp [hp]) ?_).updates hafter)
      fun x hx => ?_
    · rcases hst with rfl | rfl <;> simp
    · rw [hafter.running_iff x, ← hbefore.running_iff x]
      simp [hx]

/-- On a hart without a process only interrupt handlers run. -/
theorem step_of_idle {k : Kernel} {m : Machine} {a : Action} (ha : a ≠ .schedule)
    (hs : step ⟨k, none⟩ a = some m) : m.cpu = none ∧ Updates k m.kernel := by
  cases a with
  | schedule => exact absurd rfl ha
  | userinit mem =>
    obtain ⟨k', hk, rfl⟩ := Option.map_eq_some_iff.mp hs
    exact ⟨rfl, userinit_updates hk⟩
  | wakeup chan =>
    simp only [Mlfq.step, Option.some.injEq] at hs
    subst hs
    refine ⟨rfl, ?_⟩
    dsimp only
    exact wakeup_updates k none chan
  | tick =>
    cases hs
    exact ⟨rfl, .single (.log k.schedlog (int (k.time + 1)) k.numLogged k.isLogging)⟩
  | fork | yield | sleep | kill | exit | wait | setNice | startlog => cases hs

theorem HartsInv.step {a : ι × HartsAction} (hi : HartsInv s) (hc : BoostsOutsideWindows s a)
    (hs : hartsStep s a = some s') : HartsInv s' := by
  obtain ⟨h, a⟩ := a
  cases a with
  | boostCheck =>
    simp only [hartsStep] at hs
    split at hs
    · rename_i hh
      cases hs
      exact hi.boostCheck hh hc
    · cases hs
  | pick =>
    simp only [hartsStep] at hs
    split at hs
    · rename_i hh
      split at hs
      · cases hs
        exact hi.advance (by simp [hh, HartPlace.inWindow]) rfl hi.sync
          fun h' _ p hp => hi.running h' p hp
      · rename_i p hfirst
        cases hs
        exact hi.pick hh hfirst
    · cases hs
  | dispatch =>
    simp only [hartsStep] at hs
    split at hs
    · rename_i p hh
      split at hs
      · cases hs
      · cases hs
        exact hi.dispatch hh
    · cases hs
  | resume =>
    simp only [hartsStep] at hs
    split at hs
    · rename_i p hh
      cases hs
      exact hi.resume hh
    · cases hs
  | operation a =>
    obtain ⟨⟨hallows, -⟩, hs⟩ := Option.ite_none_right_eq_some.mp hs
    obtain ⟨m, hm, rfl⟩ := Option.map_eq_some_iff.mp hs
    cases hproc : (s.place h).proc with
    | some p =>
      rw [hproc] at hm
      exact hi.operation hproc (step_move hm)
    | none =>
      rw [hproc] at hm
      have ha : a ≠ .schedule := by
        rintro rfl
        simp [HartPlace.allows] at hallows
      obtain ⟨hcpu, hu⟩ := step_of_idle ha hm
      simp only [hcpu, if_true]
      exact hi.setKernel (hi.sync.updates hu) hu.running_iff

/-! ## Main result -/

/-- For any number of harts and every interleaving in which no boost starts while a hart
is between the removal of a process and its dispatch, no process is on two harts and
`dequeue` marks only runnable processes. -/
theorem reachWhere_exclusive {k : Kernel} (hboot : Booted ⟨k, none⟩)
    (hreach : ReachWhere hartsStep BoostsOutsideWindows (startHarts k : Harts ι) s) :
    Exclusive s := by
  have hinv : HartsInv s :=
    hreach.invariant (hartsInv_startHarts hboot) fun _ _ _ hi hc hs => hi.step hc hs
  exact hinv.exclusive

instance [Fintype ι] (s : Harts ι) :
    (a : ι × HartsAction) → Decidable (BoostsOutsideWindows s a)
  | (_, .boostCheck) => inferInstanceAs (Decidable (_ → ∀ h, (s.place h).inWindow = false))
  | (_, .pick) | (_, .dispatch) | (_, .resume) | (_, .operation _) => instDecidableTrue

/-- The first process forks on one hart while the other is in `dequeue`, and both run. -/
def twoProcesses : List (Bool × HartsAction) :=
  [(false, .boostCheck), (true, .boostCheck), (false, .pick), (false, .dispatch), (false, .resume),
    (false, .operation (.fork ⟨true, true, true⟩)), (true, .pick), (true, .dispatch)]

theorem reachWhere_exclusive_twoProcesses : ∃ s : Harts (Bool),
    ReachWhere hartsStep BoostsOutsideWindows (startHarts (makeRunnable initKernel 0)) s ∧
      (s.place false).proc = some 0 ∧ (s.place true).proc = some 1 ∧ Exclusive s := by
  have hrun : (exec (fun s a => if BoostsOutsideWindows s a then hartsStep s a else none)
      (startHarts (makeRunnable initKernel 0)) twoProcesses).map
        (fun s => ((s.place false).proc, (s.place true).proc)) = some (some 0, some 1) := by
    decide +kernel
  obtain ⟨s, hs, hview⟩ := Option.map_eq_some_iff.mp hrun
  obtain ⟨h0, h1⟩ := Prod.mk.inj hview
  have hreach := reachWhere_of_exec hs
  exact ⟨s, hreach, h0, h1, reachWhere_exclusive ⟨⟨true, true, true⟩, _, rfl, rfl⟩ hreach⟩

/-! ## A boost inside the window -/

/-- Hart `h` runs the process at the front of the queues, which calls `yield`. -/
def turnOn (h : ι) : List (ι × HartsAction) :=
  [(h, .boostCheck), (h, .pick), (h, .dispatch), (h, .resume), (h, .operation .yield)]

theorem exec_turnOn {p : ℕ} (hk : Solo s.kernel p) (hlog : s.kernel.isLogging = false)
    (hplace : s.place h = .loop) (hfree : s.locked p = false)
    (htime : s.kernel.timeSincePriorityBoost ≤ 60) :
    exec hartsStep s (turnOn h) = some { s with kernel := turn s.kernel p } := by
  have hcheck : Mlfq.boostCheck s.kernel = s.kernel := if_neg (by omega)
  have hlocked : update (update s.locked p true) p false = s.locked := by
    simp [← hfree]
  have hloop : update s.place h .loop = s.place := by simp [← hplace]
  have hswitch : afterSwitch (yield (Mlfq.resume (markRunning (unlinkProc s.kernel p) p) p) p) p =
      turn s.kernel p := afterSwitch_turn hlog
  simp [exec, turnOn, hartsStep, hplace, hcheck, hk.firstProcess, hfree, Harts.moveTo,
    Harts.setLocked, HartPlace.allows, HartPlace.proc, acquires, Mlfq.step, sched, hswitch, hloop,
    hlocked]

theorem exec_turnsOn {p n : ℕ} (hk : Solo s.kernel p) (hlog : s.kernel.isLogging = false)
    (hplace : s.place h = .loop) (hfree : s.locked p = false)
    (hstart : 0 ≤ s.kernel.timeSincePriorityBoost)
    (htime : s.kernel.timeSincePriorityBoost + n ≤ 61) :
    exec hartsStep s (List.replicate n (turnOn h)).flatten =
      some { s with kernel := turns s.kernel p n } := by
  refine exec_replicate (f := fun j => { s with kernel := turns s.kernel p j }) ?_
  intro j hj
  have hnow := turns_timeSincePriorityBoost (p := p) (n := j) hstart (by omega)
  rw [turns_concat]
  exact exec_turnOn (hk.turns j) ((turns_isLogging j).trans hlog) hplace hfree
    (by dsimp only; omega)

/-- A hart picks the only runnable process when a boost is due; the boost of another hart
puts it back on its queue, and that hart runs it. -/
theorem exec_boostInWindow {p : ℕ} (h h' : ι) (hk : Solo s.kernel p) (hne : h ≠ h')
    (hplace : s.place h = .dequeue) (hplace' : s.place h' = .loop) (hfree : s.locked p = false)
    (htime : s.kernel.timeSincePriorityBoost > 60) :
    ∃ s', exec hartsStep s
        [(h, .pick), (h', .boostCheck), (h', .pick), (h', .dispatch), (h', .resume)] = some s' ∧
      s'.place h = .picked p ∧ s'.place h' = .running p ∧ s'.locked p = false ∧
      (s'.kernel.proc p).state = .running := by
  have hcheck : Mlfq.boostCheck (unlinkProc s.kernel p) =
      priorityBoost (unlinkProc s.kernel p) := if_pos htime
  have hboost : Solo (priorityBoost (unlinkProc s.kernel p)) p :=
    hk.priorityBoost rfl fun _ => rfl
  simp [exec, hartsStep, hplace, hplace', hk.firstProcess, hcheck, hboost.firstProcess, hfree,
    hne, hne.symm, Harts.moveTo, Harts.setLocked, Mlfq.resume, markRunning]

/-- One hart enters `dequeue`. The other runs the first process until a boost is due. The
first hart picks the process, the boost puts it back on its queue, and the other hart runs
it. -/
def boostInWindow : List (Bool × HartsAction) :=
  (false, .boostCheck) :: ((List.replicate 61 (turnOn true)).flatten ++
    [(false, .pick), (true, .boostCheck), (true, .pick), (true, .dispatch), (true, .resume)])

/-- The first hart then sets a running process to running, and it is on both harts. -/
theorem boostInWindow_not_exclusive : ∃ s s' : Harts (Bool),
    Booted ⟨makeRunnable initKernel 0, none⟩ ∧
      exec hartsStep (startHarts (makeRunnable initKernel 0)) boostInWindow = some s ∧
      s.place false = .picked 0 ∧ (s.kernel.proc 0).state = .running ∧ ¬ Exclusive s ∧
      hartsStep s (false, .dispatch) = some s' ∧ (s'.place false).proc = some 0 ∧
      (s'.place true).proc = some 0 ∧ ¬ Exclusive s' := by
  let s₀ : Harts (Bool) := (startHarts (makeRunnable initKernel 0)).moveTo false .dequeue
  have henter : hartsStep (startHarts (makeRunnable initKernel 0)) (false, .boostCheck) = some s₀ :=
    rfl
  have hturns : exec hartsStep s₀ (List.replicate 61 (turnOn true)).flatten =
      some { s₀ with kernel := turns (makeRunnable initKernel 0) 0 61 } :=
    exec_turnsOn solo_boot rfl rfl rfl (by decide) (by decide)
  have hsolo := solo_boot.turns 61
  have htime : (turns (makeRunnable initKernel 0) 0 61).timeSincePriorityBoost = 61 :=
    turns_timeSincePriorityBoost (by decide) (by decide)
  generalize turns (makeRunnable initKernel 0) 0 61 = k at hturns hsolo htime
  obtain ⟨s, hs, h0, h1, hfree, hrun⟩ := exec_boostInWindow (s := { s₀ with kernel := k })
    false true hsolo (by decide) rfl rfl rfl (by simp [htime])
  have hexec : exec hartsStep (startHarts (makeRunnable initKernel 0)) boostInWindow = some s := by
    rw [boostInWindow, exec, henter, Option.bind_some, exec_append, hturns]
    exact hs
  let s' := ({ s with kernel := markRunning s.kernel 0 }.setLocked 0 true).moveTo false
    (.switched 0)
  have hdispatch : hartsStep s (false, .dispatch) = some s' := by simp [hartsStep, h0, hfree, s']
  have h0' : (s'.place false).proc = some 0 := rfl
  have h1' : (s'.place true).proc = some 0 := by
    simp [s', Harts.moveTo, Harts.setLocked, h1, HartPlace.proc]
  refine ⟨s, s', ⟨⟨true, true, true⟩, _, rfl, rfl⟩, hexec, h0, hrun, fun hex => ?_, hdispatch, h0',
    h1', fun hex => ?_⟩
  · simp [hex.dispatch_runnable false 0 h0 hfree] at hrun
  · exact absurd (hex.proc_unique false true 0 h0' h1') (by decide)

end CS352.Mlfq
