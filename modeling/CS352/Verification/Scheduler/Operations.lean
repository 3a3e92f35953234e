import CS352.Model.Scheduler.Kernel

/-! # Steps of the round-robin kernel

What one operation of a hart can do, stated once. -/

namespace CS352.Scheduler

open Mlfq (nproc ProcState Chan Memory)

variable {t : Table} {m m' : Machine} {a : Action}

/-! ## `wakeup` -/

@[simp] theorem setProc_proc (i : ℕ) (p : Proc) :
    (t.setProc i p).proc = Function.update t.proc i p := rfl

/-- The loop of `wakeup` changes a process only in its own iteration. -/
theorem foldl_wakeup_proc (me : Option ℕ) (chan : Chan) {xs : List ℕ} (hxs : xs.Nodup) (x : ℕ) :
    ((xs.foldl
      (fun t i =>
        if me ≠ some i ∧ (t.proc i).state = .sleeping ∧ (t.proc i).chan = chan then
          t.setProc i { t.proc i with state := .runnable }
        else t) t).proc x) =
      if x ∈ xs ∧ me ≠ some x ∧ (t.proc x).state = .sleeping ∧ (t.proc x).chan = chan then
        { t.proc x with state := .runnable }
      else t.proc x := by
  induction xs generalizing t with
  | nil => simp
  | cons i xs ih =>
    obtain ⟨hi, hxs⟩ := List.nodup_cons.mp hxs
    rw [List.foldl_cons, ih hxs]
    by_cases hxi : x = i
    · subst x
      by_cases hwake : me ≠ some i ∧ (t.proc i).state = .sleeping ∧ (t.proc i).chan = chan
      · simp [hi, hwake]
      · rw [if_neg hwake, if_neg fun h => hi h.1, if_neg fun h => hwake h.2]
    · have hsame : (if me ≠ some i ∧ (t.proc i).state = .sleeping ∧ (t.proc i).chan = chan then
          t.setProc i { t.proc i with state := .runnable } else t).proc x = t.proc x := by
        split <;> simp [hxi]
      simp [hsame, hxi]

theorem wakeup_proc (me : Option ℕ) (chan : Chan) (x : ℕ) :
    (wakeup t me chan).proc x =
      if x < nproc ∧ me ≠ some x ∧ (t.proc x).state = .sleeping ∧ (t.proc x).chan = chan then
        { t.proc x with state := .runnable }
      else t.proc x := by
  rw [wakeup, foldl_wakeup_proc me chan List.nodup_range]
  simp only [List.mem_range]

/-! ## One operation -/

/-- The slot that the hart finds runnable when it takes this action. -/
def dispatched (m : Machine) (a : Action) : Option ℕ :=
  match a, m.place with
  | .scan, .scan i => if i < nproc ∧ (m.kernel.proc i).state = .runnable then some i else none
  | _, _ => none

/-- What an operation takes a hart from and to. -/
inductive Move (m : Machine) : Action → Machine → Prop where
  /-- The scheduler switches to the process of the slot it has reached. -/
  | dispatch (i : ℕ) (hplace : m.place = .scan i) (hi : i < nproc)
      (hrun : (m.kernel.proc i).state = .runnable) :
      Move m .scan ⟨resume (dispatch m.kernel i) i, .running i⟩
  | skip (i : ℕ) (hplace : m.place = .scan i) (hi : i < nproc)
      (hrun : (m.kernel.proc i).state ≠ .runnable) : Move m .scan ⟨m.kernel, .scan (i + 1)⟩
  /-- The pass is over. -/
  | wrap (i : ℕ) (hplace : m.place = .scan i) (hi : nproc ≤ i) :
      Move m .scan ⟨m.kernel, .scan 0⟩
  | wakeup (chan : Chan) :
      Move m (.wakeup chan)
        ⟨m.kernel.setTable (wakeup m.kernel.toTable m.place.proc chan), m.place⟩
  /-- A system call that returns. -/
  | call {a : Action} (p : ℕ) (hplace : m.place = .running p) (t : Table) (ha : a ≠ .scan)
      (hstart : a ≠ .startlog) (hget : ∀ ok, a ≠ .getlog ok) :
      Move m a ⟨m.kernel.setTable t, .running p⟩
  /-- The process gives up the processor. -/
  | back {a : Action} (p : ℕ) (hplace : m.place = .running p) (t : Table) (ha : a ≠ .scan)
      (hstart : a ≠ .startlog) (hget : ∀ ok, a ≠ .getlog ok) :
      Move m a (sched (m.kernel.setTable t) p)
  | startlog (p : ℕ) (hplace : m.place = .running p) :
      Move m .startlog ⟨(sysStartlog m.kernel).1, .running p⟩
  | getlog (p : ℕ) (hplace : m.place = .running p) (copyoutOk : Bool) :
      Move m (.getlog copyoutOk) ⟨m.kernel, .running p⟩

theorem operate_move {p : ℕ} (hplace : m.place = .running p)
    (h : operate m.kernel p a = some m') : Move m a m' := by
  cases a with
  | scan => cases h
  | wakeup chan => cases h
  | fork mem | kill pid | nice inc =>
    cases h
    exact .call p hplace _ (by simp) (by simp) (by simp)
  | yield | sleep chan =>
    cases h
    exact .back p hplace _ (by simp) (by simp) (by simp)
  | exit status =>
    obtain ⟨t, -, rfl⟩ := Option.map_eq_some_iff.mp h
    exact .back p hplace t (by simp) (by simp) (by simp)
  | wait addr copyoutOk =>
    simp only [operate] at h
    split at h
    · cases h
      exact .call p hplace _ (by simp) (by simp) (by simp)
    · cases h
      exact .back p hplace _ (by simp) (by simp) (by simp)
  | startlog =>
    cases h
    exact .startlog p hplace
  | getlog copyoutOk =>
    cases h
    exact .getlog p hplace copyoutOk

theorem step_scan_move (h : step m .scan = some m') : Move m .scan m' := by
  simp only [step] at h
  split at h
  · rename_i i hplace
    cases h
    by_cases hi : i < nproc
    · by_cases hrun : (m.kernel.proc i).state = .runnable
      · simpa [scan, hi, hrun] using Move.dispatch i hplace hi hrun
      · simpa [scan, hi, hrun] using Move.skip i hplace hi hrun
    · simpa [scan, hi] using Move.wrap i hplace (Nat.le_of_not_lt hi)
  · cases h

/-- Every other action is one of the process that the hart runs. -/
theorem step_operate (hscan : a ≠ .scan) (hwake : ¬ ∃ chan, a = .wakeup chan)
    (h : step m a = some m') :
    ∃ p, m.place = .running p ∧ operate m.kernel p a = some m' := by
  have hcall : (m.place.proc.bind fun p => operate m.kernel p a) = some m' := by
    cases a <;> first | exact h | simp at hscan hwake
  obtain ⟨p, hp, hop⟩ := Option.bind_eq_some_iff.mp hcall
  refine ⟨p, ?_, hop⟩
  cases hplace : m.place with
  | scan i => simp [hplace, Place.proc] at hp
  | running q => simpa [hplace, Place.proc] using hp

theorem step_move (h : step m a = some m') : Move m a m' := by
  by_cases hscan : a = .scan
  · subst a
    exact step_scan_move h
  by_cases hwake : ∃ chan, a = .wakeup chan
  · obtain ⟨chan, rfl⟩ := hwake
    cases h
    exact .wakeup chan
  · obtain ⟨p, hplace, hop⟩ := step_operate hscan hwake h
    exact operate_move hplace hop

/-! ## Dispatches -/

/-- The slot that a step of the hart from `m` to `m'` has switched to. -/
def switchedTo (m m' : Machine) : Option ℕ :=
  match m.place, m'.place with
  | .scan _, .running i => if (m'.kernel.proc i).state = .running then some i else none
  | _, _ => none

theorem logSwitch_proc (k : Kernel) (i : ℕ) : (logSwitch k i).proc = k.proc := by
  unfold logSwitch
  split <;> rfl

@[simp] theorem resume_state (k : Kernel) (i x : ℕ) :
    ((resume k i).proc x).state = (k.proc x).state := by
  unfold resume
  split
  · rfl
  · rfl
  · by_cases hx : x = i <;> simp [hx]

theorem dispatch_state (k : Kernel) (i : ℕ) : ((dispatch k i).proc i).state = .running := by
  simp [dispatch, logSwitch_proc]

/-- The hart switches to the process that the scan finds runnable and to no other. -/
theorem switchedTo_eq (h : step m a = some m') : switchedTo m m' = dispatched m a := by
  cases step_move h with
  | dispatch i hplace hi hrun =>
    simp [switchedTo, dispatched, hplace, hi, hrun, dispatch_state]
  | skip i hplace hi hrun => simp [switchedTo, dispatched, hplace, hrun]
  | wrap i hplace hi => simp [switchedTo, dispatched, hplace, hi]
  | wakeup chan => cases hplace : m.place <;> simp [switchedTo, dispatched, hplace]
  | call p hplace t ha hstart hget => simp [switchedTo, dispatched, hplace]
  | back p hplace t ha hstart hget => simp [switchedTo, dispatched, hplace]
  | startlog p hplace => simp [switchedTo, dispatched, hplace]
  | getlog p hplace copyoutOk => simp [switchedTo, dispatched, hplace]

end CS352.Scheduler
