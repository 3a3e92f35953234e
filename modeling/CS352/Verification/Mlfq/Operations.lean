import CS352.Model.Mlfq.Kernel
import Mathlib.Logic.Relation
import Mathlib.Data.List.Basic

/-! # What one operation can do

Every operation of the kernel is a chain of elementary updates, framed by what the
process on the hart does to itself. Invariants are proved once for each update. -/

namespace CS352.Mlfq

open Relation

/-- The updates that an operation makes to processes other than the running one and to
globals that the queues do not depend on. -/
inductive Update : Kernel → Kernel → Prop where
  /-- `wakeup` and `kill` wake a sleeping process; `userinit` and `fork` start a new one. -/
  | start {k : Kernel} (x : ℕ) (hx : x < nproc)
      (hs : (k.proc x).state = .sleeping ∨ (k.proc x).state = .used) :
      Update k (makeRunnable k x)
  | alloc {k : Kernel} (x : ℕ) (hx : x < nproc) (hs : (k.proc x).state = .unused) :
      Update k { k.setProc x { k.proc x with pid := k.nextpid, state := .used } with
        nextpid := int (k.nextpid + 1) }
  | free {k : Kernel} (x : ℕ) (hx : x < nproc)
      (hs : (k.proc x).state = .used ∨ (k.proc x).state = .zombie) :
      Update k (freeproc k x)
  | killed {k : Kernel} (x : ℕ) : Update k (k.setProc x { k.proc x with killed := 1 })
  | parent {k : Kernel} (x : ℕ) (q : Option ℕ) :
      Update k (k.setProc x { k.proc x with parent := q })
  | initproc {k : Kernel} (q : Option ℕ) : Update k { k with initproc := q }
  | log {k : Kernel} (schedlog : ℤ → LogEntry) (time numLogged : ℤ) (isLogging : Bool) :
      Update k { k with
        schedlog := schedlog, time := time, numLogged := numLogged, isLogging := isLogging }

/-- A chain of elementary updates. -/
abbrev Updates : Kernel → Kernel → Prop := ReflTransGen Update

theorem Updates.foldl {f : Kernel → ℕ → Kernel} {xs : List ℕ}
    (h : ∀ k, ∀ x ∈ xs, Updates k (f k x)) (k : Kernel) : Updates k (xs.foldl f k) := by
  induction xs generalizing k with
  | nil => exact .refl
  | cons x xs ih =>
    exact (h k x (by simp)).trans (ih (fun k y hy => h k y (by simp [hy])) (f k x))

/-- A kept fact `P` holds after every chain of updates that starts with it. -/
theorem Updates.keep {P : Kernel → Prop} (h : ∀ k k', Update k k' → P k → P k')
    {k k' : Kernel} (hk : Updates k k') (hP : P k) : P k' := by
  induction hk with
  | refl => exact hP
  | tail _ hu ih => exact h _ _ hu ih

/-! ## The operations as chains of updates -/

theorem wakeup_updates (k : Kernel) (me : Option ℕ) (chan : Chan) :
    Updates k (wakeup k me chan) := by
  refine Updates.foldl ?_ k
  intro k x hx
  split
  · rename_i h
    exact .single (.start x (List.mem_range.mp hx) (.inl h.2.1))
  · exact .refl

theorem kill_updates (k : Kernel) (pid : ℤ) : Updates k (kill k pid).1 := by
  unfold kill
  split
  · exact .refl
  · rename_i x hx
    have hlt : x < nproc := List.mem_range.mp (List.mem_of_find?_eq_some hx)
    have hmark := Update.killed (k := k) x
    dsimp only
    split
    · rename_i hs
      exact .tail (.single hmark) (.start x hlt (.inl hs))
    · exact .single hmark

theorem reparent_updates (k : Kernel) (p : ℕ) : Updates k (reparent k p) := by
  refine Updates.foldl ?_ k
  intro k x _
  split
  · exact .head (.parent x k.initproc) (wakeup_updates _ _ _)
  · exact .refl

theorem afterSwitch_updates (k : Kernel) (x : ℕ) : Updates k (afterSwitch k x) := by
  unfold afterSwitch
  split
  · exact .single (.log _ k.time _ k.isLogging)
  · exact .refl

theorem sysStartlog_updates (k : Kernel) : Updates k (sysStartlog k).1 := by
  unfold sysStartlog
  split
  · exact .refl
  · exact .single (.log k.schedlog k.time k.numLogged true)

/-- `allocproc` takes a free slot, or leaves every slot as it was but for the history. -/
theorem allocproc_updates (k : Kernel) (mem : Memory) :
    Updates k (allocproc k mem).1 ∧
      ∀ x, (allocproc k mem).2 = some x →
        x < nproc ∧ ((allocproc k mem).1.proc x).state = .used := by
  unfold allocproc
  split
  · exact ⟨.refl, by simp⟩
  · rename_i x hx
    have hlt : x < nproc := List.mem_range.mp (List.mem_of_find?_eq_some hx)
    have hunused : (k.proc x).state = .unused := by simpa using List.find?_some hx
    have halloc := Update.alloc x hlt hunused
    have hused : (({ k.setProc x { k.proc x with pid := k.nextpid, state := .used } with
        nextpid := int (k.nextpid + 1) } : Kernel).proc x).state = .used := by
      simp [Kernel.setProc]
    have hfree := Update.free x hlt (.inl hused)
    dsimp only
    split
    · exact ⟨.tail (.single halloc) hfree, by simp⟩
    · split
      · exact ⟨.tail (.single halloc) hfree, by simp⟩
      · refine ⟨.single halloc, ?_⟩
        intro y hy
        cases hy
        exact ⟨hlt, hused⟩

theorem userinit_updates {k k' : Kernel} {mem : Memory} (h : userinit k mem = some k') :
    Updates k k' := by
  unfold userinit at h
  obtain ⟨hup, hslot⟩ := allocproc_updates k mem
  generalize allocproc k mem = r at h hup hslot
  obtain ⟨k₁, slot⟩ := r
  cases slot with
  | none => simp at h
  | some x =>
    obtain ⟨hlt, hused⟩ := hslot x rfl
    simp only [Option.some.injEq] at h
    subst h
    exact .tail (hup.tail (.initproc (some x))) (.start x hlt (.inr hused))

theorem fork_updates (k : Kernel) (p : ℕ) (mem : Memory) : Updates k (fork k p mem).1 := by
  unfold fork
  obtain ⟨hup, hslot⟩ := allocproc_updates k mem
  generalize allocproc k mem = r at hup hslot
  obtain ⟨k₁, slot⟩ := r
  cases slot with
  | none => exact hup
  | some x =>
    obtain ⟨hlt, hused⟩ := hslot x rfl
    dsimp only
    split
    · exact hup.tail (.free x hlt (.inl hused))
    · refine .tail (hup.tail (.parent x (some p))) (.start x hlt (.inr ?_))
      simpa [Kernel.setProc] using hused

/-! ## The steps of one hart -/

/-- Neither the scheduler nor an operation with a constructor of its own in `Move`. -/
def Action.isPlain : Action → Bool
  | .yield | .setNice _ | .schedule => false
  | _ => true

/-- Everything a step of the machine can do. -/
inductive Move : Action → Machine → Machine → Prop where
  | updates {a : Action} {m : Machine} {k' : Kernel} (ha : a.isPlain)
      (h : Updates m.kernel k') : Move a m ⟨k', m.cpu⟩
  | nice {k : Kernel} {p : ℕ} (v : ℤ) :
      Move (.setNice v) ⟨k, some p⟩ ⟨assignNice k p v, some p⟩
  | yield {k k' : Kernel} {p : ℕ} (h : Updates (yield k p) k') :
      Move .yield ⟨k, some p⟩ ⟨k', none⟩
  /-- `sleep`, `exit` and a `wait` that has to sleep. -/
  | block {a : Action} {k k₁ k' : Kernel} {p : ℕ} (ha : a.isPlain) (chan : Chan) (status : ℤ)
      (s : ProcState) (hs : s = .sleeping ∨ s = .zombie) (hbefore : Updates k k₁)
      (hafter : Updates
        (k₁.setProc p { k₁.proc p with chan := chan, xstate := status, state := s }) k') :
      Move a ⟨k, some p⟩ ⟨k', none⟩
  | idle {k : Kernel} (h : firstProcess (boostCheck k).qtable = none) :
      Move .schedule ⟨k, none⟩ ⟨boostCheck k, none⟩
  | dispatch {k : Kernel} {x : ℕ} (h : firstProcess (boostCheck k).qtable = some x) :
      Move .schedule ⟨k, none⟩
        ⟨resume (markRunning (unlinkProc (boostCheck k) x) x) x, some x⟩

theorem sleep_move {a : Action} (ha : a.isPlain) (k : Kernel) (p : ℕ) (chan : Chan) :
    Move a ⟨k, some p⟩ (sched (sleep k p chan) p) :=
  .block ha chan (k.proc p).xstate .sleeping (.inl rfl) .refl (afterSwitch_updates _ p)

/-- `exit` hands the children over and wakes the parent before it marks the process. -/
theorem exit_eq {k k' : Kernel} {p : ℕ} {status : ℤ} (h : exit k p status = some k') :
    ∃ k₁, Updates k k₁ ∧
      k' = k₁.setProc p { k₁.proc p with xstate := status, state := .zombie } := by
  unfold exit at h
  split at h
  · cases h
  · simp only [Option.some.injEq] at h
    subst h
    exact ⟨_, (reparent_updates k p).trans (wakeup_updates _ _ _), rfl⟩

theorem exit_move {k k' : Kernel} {p : ℕ} {status : ℤ} (h : exit k p status = some k') :
    Move (.exit status) ⟨k, some p⟩ (sched k' p) := by
  obtain ⟨k₁, hup, rfl⟩ := exit_eq h
  exact .block rfl _ status .zombie (.inr rfl) hup (afterSwitch_updates _ p)

/-- A pass of `wait` returns or goes to sleep. -/
theorem wait_cases (k : Kernel) (p : ℕ) (addr : ℕ) (copyoutOk : Bool) :
    (∃ k' r, wait k p addr copyoutOk = (k', some r) ∧ Updates k k') ∨
      wait k p addr copyoutOk = (sleep k p (.proc p), none) := by
  cases hx : (List.range nproc).find?
      (fun i => (k.proc i).parent = some p ∧ (k.proc i).state = .zombie) with
  | some x =>
    have hlt : x < nproc := List.mem_range.mp (List.mem_of_find?_eq_some hx)
    have hzombie : (k.proc x).state = .zombie := by
      have hfound := List.find?_some hx
      simp only [Bool.decide_and, Bool.and_eq_true, decide_eq_true_eq] at hfound
      exact hfound.2
    by_cases hfail : addr ≠ 0 ∧ copyoutOk = false
    · exact .inl ⟨k, -1, by simp only [wait, hx, if_pos hfail], .refl⟩
    · exact .inl ⟨freeproc k x, (k.proc x).pid, by simp only [wait, hx, if_neg hfail],
        .single (.free x hlt (.inr hzombie))⟩
  | none =>
    by_cases hret : ((List.range nproc).any fun i => (k.proc i).parent = some p) = false ∨
        (k.proc p).killed ≠ 0
    · exact .inl ⟨k, -1, by simp only [wait, hx, if_pos hret], .refl⟩
    · exact .inr (by simp only [wait, hx, if_neg hret])

theorem wait_move (k : Kernel) (p : ℕ) (addr : ℕ) (copyoutOk : Bool) :
    Move (.wait addr copyoutOk) ⟨k, some p⟩ (match wait k p addr copyoutOk with
      | (k', some _) => ⟨k', some p⟩
      | (k', none) => sched k' p) := by
  rcases wait_cases k p addr copyoutOk with ⟨k', r, hw, hup⟩ | hw
  · rw [hw]
    exact .updates (m := ⟨k, some p⟩) rfl hup
  · rw [hw]
    exact sleep_move rfl k p (.proc p)

theorem dequeue_move (k : Kernel) : Move .schedule ⟨k, none⟩ (dequeue (boostCheck k)) := by
  unfold dequeue
  split
  · rename_i h
    exact .idle h
  · rename_i x h
    exact .dispatch h

/-- Each action is one of these moves. -/
theorem step_move {m m' : Machine} {a : Action} (h : step m a = some m') : Move a m m' := by
  obtain ⟨k, cpu⟩ := m
  cases a with
  | userinit mem =>
    obtain ⟨k', hk, rfl⟩ := Option.map_eq_some_iff.mp h
    exact .updates (m := ⟨k, cpu⟩) rfl (userinit_updates hk)
  | fork mem =>
    obtain ⟨p, rfl, rfl⟩ := Option.map_eq_some_iff.mp h
    exact .updates (m := ⟨k, some p⟩) rfl (fork_updates k p mem)
  | yield =>
    obtain ⟨p, rfl, rfl⟩ := Option.map_eq_some_iff.mp h
    exact .yield (afterSwitch_updates _ p)
  | sleep chan =>
    obtain ⟨p, rfl, rfl⟩ := Option.map_eq_some_iff.mp h
    exact sleep_move rfl k p chan
  | wakeup chan =>
    cases h
    exact .updates (m := ⟨k, cpu⟩) rfl (wakeup_updates k cpu chan)
  | kill pid =>
    obtain ⟨p, rfl, rfl⟩ := Option.map_eq_some_iff.mp h
    exact .updates (m := ⟨k, some p⟩) rfl (kill_updates k pid)
  | exit status =>
    obtain ⟨p, rfl, hexit⟩ := Option.bind_eq_some_iff.mp h
    obtain ⟨k', hk, rfl⟩ := Option.map_eq_some_iff.mp hexit
    exact exit_move hk
  | wait addr copyoutOk =>
    obtain ⟨p, rfl, rfl⟩ := Option.map_eq_some_iff.mp h
    exact wait_move k p addr copyoutOk
  | setNice v =>
    obtain ⟨p, rfl, rfl⟩ := Option.map_eq_some_iff.mp h
    exact .nice v
  | startlog =>
    obtain ⟨p, rfl, rfl⟩ := Option.map_eq_some_iff.mp h
    exact .updates (m := ⟨k, some p⟩) rfl (sysStartlog_updates k)
  | tick =>
    cases h
    exact .updates (m := ⟨k, cpu⟩) rfl
      (.single (.log k.schedlog (int (k.time + 1)) k.numLogged k.isLogging))
  | schedule =>
    simp only [step] at h
    split at h
    · rename_i hcpu
      subst hcpu
      cases h
      exact dequeue_move k
    · cases h

end CS352.Mlfq
