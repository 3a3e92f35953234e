import CS352.Library.Transition
import CS352.Verification.Scheduler.Operations

/-! # Nice values in the round-robin kernel

`sys_nice` cuts the increment off at the bounds of nice values, and adds it to the nice value
without a further test. -/

namespace CS352.Scheduler

open Mlfq (int nproc Memory)
open Transition

variable {t : Table} {k : Kernel} {m m' : Machine} {a : Action} {i : ℕ} {p : Proc} {inc : ℤ}

/-! ## One call -/

/-- The nearest nice value. -/
def clamped (x : ℤ) : ℤ := max (-20) (min 19 x)

def InRange (p : Proc) : Prop := -20 ≤ p.nice ∧ p.nice ≤ 19

/-- When the increment can be cut off instead of the sum. -/
def NiceFits (nice inc : ℤ) : Prop :=
  nice = 0 ∨ (-20 ≤ inc ∧ inc ≤ 19) ∧ -20 ≤ nice + inc ∧ nice + inc ≤ 19

instance (nice inc : ℤ) : Decidable (NiceFits nice inc) := inferInstanceAs (Decidable (_ ∨ _))

theorem int_of_bounds {x : ℤ} (hlow : -2 ^ 31 ≤ x) (hhigh : x < 2 ^ 31) : int x = x := by
  rw [int, Int.bmod_eq_of_le] <;> omega

/-- For a process with a nice value in range, `sys_nice` returns the sum cut off at the bounds
exactly if the increment can be cut off instead. -/
theorem sysNice_eq_clamped_iff (h : InRange (t.proc i)) :
    (sysNice t i inc).2 = clamped ((t.proc i).nice + inc) ↔ NiceFits (t.proc i).nice inc := by
  obtain ⟨hlow, hhigh⟩ := h
  unfold sysNice clamped NiceFits
  by_cases hover : inc > 19
  · simp only [if_pos hover]
    rw [int_of_bounds (by omega) (by omega)]
    omega
  · by_cases hunder : inc < -20
    · simp only [if_neg hover, if_pos hunder]
      rw [int_of_bounds (by omega) (by omega)]
      omega
    · simp only [if_neg hover, if_neg hunder]
      rw [int_of_bounds (by omega) (by omega)]
      omega

theorem clamped_bounds (x : ℤ) : -20 ≤ clamped x ∧ clamped x ≤ 19 := by
  unfold clamped
  omega

/-! ## The process table -/

def NiceOk (t : Table) : Prop := ∀ i, InRange (t.proc i)

theorem NiceOk.setProc (h : NiceOk t) (hp : InRange p) : NiceOk (t.setProc i p) := by
  intro j
  rw [setProc_proc]
  by_cases hji : j = i
  · rwa [hji, Function.update_self]
  · rw [Function.update_of_ne hji]
    exact h j

theorem NiceOk.foldl {f : Table → ℕ → Table} (hf : ∀ t i, NiceOk t → NiceOk (f t i))
    (h : NiceOk t) (xs : List ℕ) : NiceOk (xs.foldl f t) := by
  induction xs generalizing t with
  | nil => exact h
  | cons x xs ih => exact ih (hf t x h)

theorem NiceOk.wakeup (h : NiceOk t) (me : Option ℕ) (chan : Mlfq.Chan) :
    NiceOk (wakeup t me chan) := by
  apply h.foldl
  intro t i h
  split
  · exact h.setProc (h i)
  · exact h

theorem NiceOk.kill (h : NiceOk t) (pid : ℤ) : NiceOk (kill t pid).1 := by
  unfold Scheduler.kill
  split
  · exact h
  case h_2 j _ =>
    have hkilled : NiceOk (t.setProc j { t.proc j with killed := 1 }) := h.setProc (h j)
    dsimp only
    split
    · exact hkilled.setProc (hkilled j)
    · exact hkilled

theorem NiceOk.freeproc (h : NiceOk t) (i : ℕ) : NiceOk (freeproc t i) := by
  apply h.setProc
  constructor <;> simp

theorem NiceOk.allocproc (h : NiceOk t) (mem : Memory) : NiceOk (allocproc t mem).1 := by
  unfold Scheduler.allocproc
  split
  · exact h
  case h_2 j _ =>
    have hused : NiceOk (t.setProc j { t.proc j with pid := t.nextpid, state := .used }) :=
      h.setProc (h j)
    dsimp only
    split
    · exact NiceOk.freeproc hused j
    · split
      · exact NiceOk.freeproc hused j
      · exact NiceOk.setProc hused (hused j)

theorem NiceOk.fork (h : NiceOk t) (q : ℕ) (mem : Memory) : NiceOk (fork t q mem).1 := by
  have halloc := h.allocproc mem
  unfold Scheduler.fork
  split
  case h_1 u hu =>
    rw [hu] at halloc
    exact halloc
  case h_2 u j hu =>
    rw [hu] at halloc
    dsimp only
    split
    · exact halloc.freeproc j
    · have hparent : NiceOk (u.setProc j { u.proc j with parent := some q }) :=
        halloc.setProc (halloc j)
      exact hparent.setProc (hparent j)

theorem NiceOk.reparent (h : NiceOk t) (q : ℕ) : NiceOk (reparent t q) := by
  unfold Scheduler.reparent
  apply h.foldl
  intro t i h
  split
  · have hset : NiceOk (t.setProc i { t.proc i with parent := t.initproc }) := h.setProc (h i)
    exact hset.wakeup (some q) (.ofProc t.initproc)
  · exact h

theorem NiceOk.exit {t' : Table} (h : NiceOk t) {q : ℕ} {status : ℤ}
    (ht : exit t q status = some t') : NiceOk t' := by
  unfold Scheduler.exit at ht
  split at ht
  · cases ht
  · cases ht
    have hwoken := (h.reparent q).wakeup (some q) (.ofProc ((Scheduler.reparent t q).proc q).parent)
    exact hwoken.setProc (hwoken q)

theorem NiceOk.wait (h : NiceOk t) (q addr : ℕ) (ok : Bool) : NiceOk (wait t q addr ok).1 := by
  unfold Scheduler.wait
  split
  case h_1 j _ =>
    split
    · exact h
    · exact h.freeproc j
  · dsimp only
    split
    · exact h
    · exact h.setProc (h q)

theorem NiceOk.sysNice (h : NiceOk t) (hfits : NiceFits (t.proc i).nice inc) :
    NiceOk (sysNice t i inc).1 := by
  have hvalue := (sysNice_eq_clamped_iff (h i)).mpr hfits
  apply h.setProc
  change -20 ≤ (Scheduler.sysNice t i inc).2 ∧ (Scheduler.sysNice t i inc).2 ≤ 19
  rw [hvalue]
  exact clamped_bounds _

/-! ## Runs -/

/-- Every call of `sys_nice` is one that `NiceFits` allows. -/
def NiceSafe (m : Machine) : Action → Prop
  | .nice inc => ∀ q ∈ m.place.proc, NiceFits (m.kernel.proc q).nice inc
  | _ => True

instance (m : Machine) (a : Action) : Decidable (NiceSafe m a) := by
  cases a <;> unfold NiceSafe <;> infer_instance

theorem niceOk_dispatch (h : NiceOk k.toTable) (i : ℕ) :
    NiceOk (resume (dispatch k i) i).toTable := by
  have hset : NiceOk (k.setProc i { k.proc i with state := .running }) := h.setProc (h i)
  have hrun : NiceOk (dispatch k i).toTable := by
    intro j
    unfold dispatch
    rw [logSwitch_proc]
    exact hset j
  unfold resume
  split
  · exact hrun
  · exact hrun
  · exact hrun.setProc (hrun i)

theorem operate_niceOk {q : ℕ} (h : NiceOk m.kernel.toTable) (hplace : m.place = .running q)
    (hsafe : NiceSafe m a) (hop : operate m.kernel q a = some m') : NiceOk m'.kernel.toTable := by
  cases a with
  | scan => cases hop
  | wakeup chan => cases hop
  | fork mem =>
    cases hop
    exact h.fork q mem
  | yield =>
    cases hop
    exact h.setProc (h q)
  | sleep chan =>
    cases hop
    exact h.setProc (h q)
  | kill pid =>
    cases hop
    exact h.kill pid
  | exit status =>
    obtain ⟨t, ht, rfl⟩ := Option.map_eq_some_iff.mp hop
    exact h.exit ht
  | wait addr ok =>
    have hwait := h.wait q addr ok
    simp only [operate] at hop
    split at hop
    case h_1 t _ ht =>
      cases hop
      rw [ht] at hwait
      exact hwait
    case h_2 t ht =>
      cases hop
      rw [ht] at hwait
      exact hwait
  | nice inc =>
    cases hop
    exact h.sysNice (hsafe q (by simp [hplace, Place.proc]))
  | startlog =>
    cases hop
    intro j
    simp only [sysStartlog]
    split <;> exact h j
  | getlog ok =>
    cases hop
    exact h

theorem scan_niceOk (h : NiceOk k.toTable) (i : ℕ) : NiceOk (scan k i).1.toTable := by
  unfold scan
  split
  · split
    · exact niceOk_dispatch h i
    · exact h
  · exact h

theorem step_niceOk (h : NiceOk m.kernel.toTable) (hsafe : NiceSafe m a)
    (hstep : step m a = some m') : NiceOk m'.kernel.toTable := by
  by_cases hscan : a = .scan
  · subst a
    simp only [step] at hstep
    split at hstep
    case h_1 i hplace =>
      cases hstep
      exact scan_niceOk h i
    case h_2 => cases hstep
  by_cases hwake : ∃ chan, a = .wakeup chan
  · obtain ⟨chan, rfl⟩ := hwake
    cases hstep
    exact h.wakeup _ chan
  · obtain ⟨q, hplace, hop⟩ := step_operate hscan hwake hstep
    exact operate_niceOk h hplace hsafe hop

theorem niceOk_userinit {mem : Memory} (h : userinit bootTable mem = some t) : NiceOk t := by
  have hboot : NiceOk bootTable := by
    intro i
    constructor <;> simp [bootTable, bootProc]
  have halloc := hboot.allocproc mem
  unfold userinit at h
  split at h
  · cases h
  case h_2 u j hu =>
    cases h
    rw [hu] at halloc
    exact halloc.setProc (halloc j)

section Runs

variable {ι : Type*} [DecidableEq ι] {s : Harts ι}

/-- In every run whose calls of `sys_nice` are all allowed by `NiceFits`, all nice values are in
range, and the calls that return the sum cut off at the bounds are those that `NiceFits`
allows. -/
theorem reachWhere_nice {mem : Memory} (ht : userinit bootTable mem = some t)
    (h : ReachWhere hartsStep
      (fun (s : Harts ι) (a : ι × Action) => NiceSafe ⟨s.kernel, s.place a.1⟩ a.2)
      (startHarts (bootKernel t)) s) (i : ℕ) :
    (-20 ≤ (s.kernel.proc i).nice ∧ (s.kernel.proc i).nice ≤ 19) ∧
      ∀ inc, (sysNice s.kernel.toTable i inc).2 = clamped ((s.kernel.proc i).nice + inc) ↔
        NiceFits (s.kernel.proc i).nice inc := by
  have hok : NiceOk s.kernel.toTable := by
    refine h.invariant (I := fun s => NiceOk s.kernel.toTable) (niceOk_userinit ht) ?_
    intro u a v hu hsafe hstep
    obtain ⟨m, hm, rfl⟩ := Option.map_eq_some_iff.mp hstep
    exact step_niceOk hu hsafe hm
  exact ⟨hok i, fun inc => sysNice_eq_clamped_iff (hok i)⟩

end Runs

/-- The first process calls `nice(-100)` and `nice(10)`; a call `nice(30)` would not be
allowed now. -/
theorem reachWhere_nice_twoCalls : ∃ s : Harts Unit, (s.kernel.proc 0).nice = -10 ∧
    ¬ NiceFits (s.kernel.proc 0).nice 30 ∧
      (-20 ≤ (s.kernel.proc 0).nice ∧ (s.kernel.proc 0).nice ≤ 19) := by
  have hview : ((userinit bootTable ⟨true, true, true⟩).bind fun t =>
      (exec (fun (s : Harts Unit) (a : Unit × Action) =>
        if NiceSafe ⟨s.kernel, s.place a.1⟩ a.2 then hartsStep s a else none)
        (startHarts (bootKernel t)) [((), .scan), ((), .nice (-100)), ((), .nice 10)]).map
        fun s => (s.kernel.proc 0).nice) = some (-10) := by
    decide +kernel
  obtain ⟨t, ht, hview⟩ := Option.bind_eq_some_iff.mp hview
  obtain ⟨s, hs, hnice⟩ := Option.map_eq_some_iff.mp hview
  refine ⟨s, hnice, ?_, (reachWhere_nice ht (reachWhere_of_exec hs) 0).1⟩
  rw [hnice]
  decide

/-- The first process calls `nice(19)` twice and has nice value 38. -/
theorem twoNiceCalls_leave_range : ∃ (t : Table) (s : Harts Unit),
    userinit bootTable ⟨true, true, true⟩ = some t ∧
      exec hartsStep (startHarts (bootKernel t))
        [((), .scan), ((), .nice 19), ((), .nice 19)] = some s ∧
      (s.kernel.proc 0).nice = 38 ∧ ¬ InRange (s.kernel.proc 0) := by
  have hview : ((userinit bootTable ⟨true, true, true⟩).bind fun t =>
      (exec hartsStep (startHarts (bootKernel t) : Harts Unit)
        [((), .scan), ((), .nice 19), ((), .nice 19)]).map
        fun s => (s.kernel.proc 0).nice) = some 38 := by decide +kernel
  obtain ⟨t, ht, hview⟩ := Option.bind_eq_some_iff.mp hview
  obtain ⟨s, hs, hnice⟩ := Option.map_eq_some_iff.mp hview
  refine ⟨t, s, ht, hs, hnice, ?_⟩
  intro hrange
  have hhigh := hrange.2
  omega

end CS352.Scheduler
