import CS352.Verification.Mlfq.Table

/-! # What a new process finds in its slot

`freeproc` clears `pid` and `killed` but leaves `quanta` and `queue`, `allocproc` sets only
`pid` and `state`, and `kill` looks at `pid` alone. -/

namespace CS352.Mlfq

open Transition

variable {k k' k'' : Kernel} {p x : ℕ}

/-- The slot that `allocproc` takes. -/
def freeSlot (k : Kernel) : Option ℕ :=
  (List.range nproc).find? fun i => (k.proc i).state = .unused

theorem freeSlot_spec (h : freeSlot k = some x) : x < nproc ∧ (k.proc x).state = .unused :=
  ⟨List.mem_range.mp (List.mem_of_find?_eq_some h), by simpa using List.find?_some h⟩

/-- All allocations of `fork` succeed. -/
def allMemory : Memory := ⟨true, true, true⟩

/-! ## Scheduling state -/

theorem fork_child (h : freeSlot k = some x) (p : ℕ) :
    (fork k p allMemory).1.proc x =
      { k.proc x with
        pid := k.nextpid, state := .runnable, parent := some p,
        quanta := assignedQuanta (k.proc x), queue := (assignedLevel (k.proc x)).val } := by
  have hfind : (List.range nproc).find? (fun i => (k.proc i).state = .unused) = some x := h
  simp only [fork, allocproc, hfind, allMemory, Bool.true_eq_false, if_false, makeRunnable_proc,
    setProc_proc, Function.update_self]
  rfl

/-- Nice value 0 and no quanta, on level 1. -/
def StartsClean (q : Proc) : Prop := q.nice = 0 ∧ q.quanta = 0 ∧ q.queue = 1

instance (q : Proc) : Decidable (StartsClean q) := inferInstanceAs (Decidable (_ ∧ _))

/-- The last process of the slot was on level 2 or had used no quanta. -/
def LeftClean (q : Proc) : Prop := q.queue = 2 ∨ q.quanta = 0

instance (q : Proc) : Decidable (LeftClean q) := inferInstanceAs (Decidable (_ ∨ _))

theorem TableInv.startsClean_iff (h : TableInv k) (hx : freeSlot k = some x) (p : ℕ) :
    StartsClean ((fork k p allMemory).1.proc x) ↔ LeftClean (k.proc x) := by
  have hnice := (h x).unused (freeSlot_spec hx).2
  obtain ⟨l, hqueue, hnonneg, hle⟩ := (h x).allotted
  obtain ⟨hkept, hdemoted⟩ := assigned_of_nice_zero (k.proc x) hnice
  rw [fork_child hx]
  unfold StartsClean LeftClean
  simp only [hnice, true_and]
  rcases le_or_gt (countedQuanta (k.proc x)) 10 with hcount | hcount
  · obtain ⟨hlevel, hquanta⟩ := hkept hcount
    rw [hlevel, hquanta]
    simp only [countedQuanta, hnice, hqueue]
    fin_cases l <;> simp_all [niceLevel]
  · obtain ⟨hlevel, -⟩ := hdemoted hcount
    have hnot : ¬ LeftClean (k.proc x) := by
      intro hclean
      simp only [countedQuanta, hnice] at hcount
      unfold LeftClean at hclean
      fin_cases l <;> simp_all [niceLevel]
    rw [hlevel]
    simpa [LeftClean] using hnot

/-- For every two reachable states whose free slot is the same: both children start clean if
and only if both slots were left clean. -/
theorem fork_startsClean_iff (h : TableReachable k) (h' : TableReachable k')
    (hx : freeSlot k = some x) (hx' : freeSlot k' = some x) (p : ℕ) :
    StartsClean ((fork k p allMemory).1.proc x) ∧ StartsClean ((fork k' p allMemory).1.proc x) ↔
      LeftClean (k.proc x) ∧ LeftClean (k'.proc x) := by
  rw [h.inv.startsClean_iff hx p, h'.inv.startsClean_iff hx' p]

/-- The first process has a child in slot 1 that makes the given calls and exits, and reaps
it. -/
def reapedChild (calls : List TableAction) : List TableAction :=
  [.dispatch 0, .fork 0 allMemory, .wait 0 0 true, .dispatch 1] ++ calls ++
    [.exit 1 0, .dispatch 0, .wait 0 0 true]

/-- In one run the last user of slot 1 left it with queue 2 after `nice(-11)` and a `yield`, in
the other it exited without having used its quantum: both times the next child starts
clean. -/
theorem fork_startsClean_reused : ∃ k k', TableReachable k ∧ TableReachable k' ∧
    ((k.proc 1).quanta, (k.proc 1).queue) = (1, 2) ∧
    ((k'.proc 1).quanta, (k'.proc 1).queue) = (0, 1) ∧
    (k.proc 1).state = .unused ∧ (k'.proc 1).state = .unused ∧
    StartsClean ((fork k 0 allMemory).1.proc 1) ∧
    StartsClean ((fork k' 0 allMemory).1.proc 1) := by
  have hrun : (exec tableStep (makeRunnable initKernel 0)
      (reapedChild [.nice 1 (-11), .yield 1, .dispatch 1])).map (fun k =>
        (((k.proc 1).quanta, (k.proc 1).queue), freeSlot k)) = some ((1, 2), some 1) := by
    decide +kernel
  have hrun' : (exec tableStep (makeRunnable initKernel 0) (reapedChild [])).map (fun k =>
      (((k.proc 1).quanta, (k.proc 1).queue), freeSlot k)) = some ((0, 1), some 1) := by
    decide +kernel
  obtain ⟨k, hk, hview⟩ := Option.map_eq_some_iff.mp hrun
  obtain ⟨k', hk', hview'⟩ := Option.map_eq_some_iff.mp hrun'
  obtain ⟨hleft, hslot⟩ := Prod.mk.inj hview
  obtain ⟨hleft', hslot'⟩ := Prod.mk.inj hview'
  have hreach : TableReachable k := ⟨allMemory, _, rfl, reach_of_exec hk⟩
  have hreach' : TableReachable k' := ⟨allMemory, _, rfl, reach_of_exec hk'⟩
  refine ⟨k, k', hreach, hreach', hleft, hleft', (freeSlot_spec hslot).2,
    (freeSlot_spec hslot').2, (fork_startsClean_iff hreach hreach' hslot hslot' 0).mpr ⟨?_, ?_⟩⟩
  · exact .inl (Prod.mk.inj hleft).2
  · exact .inr (Prod.mk.inj hleft').1

/-- An entry of `qtable`. -/
def qentry (q : QTable) (x : ℕ) : ℕ × ℕ × ℕ := (q.queue x, q.prev x, q.next x)

/-- The first entries of the log, as many as it has room for. -/
def logEntries (k : Kernel) : List LogEntry :=
  (List.range logSize.toNat).map fun j : ℕ => k.schedlog j

/-- The other globals. -/
def globals (k : Kernel) : Option ℕ × ℤ × ℤ × Bool × ℤ × Bool × ℤ :=
  (k.initproc, k.nextpid, k.time, k.isLogging, k.numLogged, k.isQueueSetup,
    k.timeSincePriorityBoost)

instance (k k' : Kernel) : Decidable (globals k = globals k') := inferInstance

/-- The states agree but for slot `i` and its entry in `qtable`. -/
def AgreeExcept (i : ℕ) (k k' : Kernel) : Prop :=
  (∀ x < nproc, x ≠ i → k.proc x = k'.proc x) ∧
  (∀ x < 70, x ≠ i → qentry k.qtable x = qentry k'.qtable x) ∧
  logEntries k = logEntries k' ∧ globals k = globals k'

instance (i : ℕ) (k k' : Kernel) : Decidable (AgreeExcept i k k') :=
  inferInstanceAs (Decidable (_ ∧ _ ∧ _ ∧ _))

/-- The first process forks and waits; the child makes the given calls, yields, runs again
and exits; the first process reaps it. -/
def childHistory (calls : List (Action ⊕ ℤ)) : List (Action ⊕ ℤ) :=
  [Sum.inl Action.schedule, Sum.inl (Action.fork allMemory), Sum.inl (Action.wait 0 true),
    Sum.inl Action.schedule] ++ calls ++
  [Sum.inl Action.yield, Sum.inl Action.schedule, Sum.inl (Action.exit 0),
    Sum.inl Action.schedule, Sum.inl (Action.wait 0 true)]

/-- Two runs of one hart that differ only in whether the first user of slot 1 called
`nice(-11)`: the next child there starts with quanta 0 in one and with quanta 1 in the
other. -/
theorem fork_inherits_quanta :
    ∃ m m', Reach niceStep ⟨makeRunnable initKernel 0, none⟩ m ∧
      Reach niceStep ⟨makeRunnable initKernel 0, none⟩ m' ∧
      freeSlot m.kernel = some 1 ∧ freeSlot m'.kernel = some 1 ∧
      AgreeExcept 1 m.kernel m'.kernel ∧
      ((fork m.kernel 0 allMemory).1.proc 1).quanta = 0 ∧
      ((fork m'.kernel 0 allMemory).1.proc 1).quanta = 1 := by
  have hruns : ((exec niceStep ⟨makeRunnable initKernel 0, none⟩
      (childHistory [Sum.inr (-11)])).bind fun m =>
        (exec niceStep ⟨makeRunnable initKernel 0, none⟩ (childHistory [])).map fun m' =>
          decide (freeSlot m.kernel = some 1 ∧ freeSlot m'.kernel = some 1 ∧
            AgreeExcept 1 m.kernel m'.kernel ∧
            ((fork m.kernel 0 allMemory).1.proc 1).quanta = 0 ∧
            ((fork m'.kernel 0 allMemory).1.proc 1).quanta = 1)) = some true := by
    decide +kernel
  obtain ⟨m, hm, hrest⟩ := Option.bind_eq_some_iff.mp hruns
  obtain ⟨m', hm', hview⟩ := Option.map_eq_some_iff.mp hrest
  exact ⟨m, m', reach_of_exec hm, reach_of_exec hm', of_decide_eq_true hview⟩

/-! ## Marks of killed processes -/

/-- An operation that is not about `pid` and `killed` keeps the two fields and does not free
the slot, or it clears them. -/
def TameRecord (q q' : Proc) : Prop :=
  (q'.killed = q.killed ∧ q'.pid = q.pid ∧ (q'.state = .unused → q.state = .unused)) ∨
    (q'.killed = 0 ∧ q'.pid = 0)

def Tame (k k' : Kernel) : Prop := ∀ x, TameRecord (k.proc x) (k'.proc x)

theorem TameRecord.refl (q : Proc) : TameRecord q q := .inl ⟨rfl, rfl, id⟩

theorem TameRecord.trans {q q' q'' : Proc} (h : TameRecord q q') (h' : TameRecord q' q'') :
    TameRecord q q'' := by
  rcases h' with ⟨hkilled, hpid, hstate⟩ | hclear
  · rcases h with ⟨hkilled₀, hpid₀, hstate₀⟩ | ⟨hkilled₀, hpid₀⟩
    · exact .inl ⟨hkilled.trans hkilled₀, hpid.trans hpid₀, fun hs => hstate₀ (hstate hs)⟩
    · exact .inr ⟨hkilled.trans hkilled₀, hpid.trans hpid₀⟩
  · exact .inr hclear

theorem Tame.refl (k : Kernel) : Tame k k := fun x => .refl (k.proc x)

theorem Tame.trans (h : Tame k k') (h' : Tame k' k'') : Tame k k'' :=
  fun x => (h x).trans (h' x)

theorem tame_of_proc (h : k'.proc = k.proc) : Tame k k' := by
  intro x
  rw [h]
  exact .refl _

theorem tame_update {q : Proc} (hk : k'.proc = Function.update k.proc x q)
    (h : TameRecord (k.proc x) q) : Tame k k' := by
  intro y
  rw [hk]
  by_cases hyx : y = x
  · subst y
    simpa using h
  · simpa [hyx] using TameRecord.refl (k.proc y)

theorem Tame.foldl {f : Kernel → ℕ → Kernel} (h : ∀ k x, Tame k (f k x)) (xs : List ℕ)
    (k : Kernel) : Tame k (xs.foldl f k) := by
  induction xs generalizing k with
  | nil => exact .refl k
  | cons x xs ih => exact (h k x).trans (ih (f k x))

theorem tame_enqueue (k : Kernel) (x : ℕ) : Tame k (enqueue k x) :=
  tame_update (enqueue_proc k x) (.inl ⟨rfl, rfl, id⟩)

theorem tame_makeRunnable (k : Kernel) (x : ℕ) : Tame k (makeRunnable k x) :=
  tame_update (makeRunnable_proc k x) (.inl ⟨rfl, rfl, by simp⟩)

theorem tame_freeproc (k : Kernel) (x : ℕ) : Tame k (freeproc k x) :=
  tame_update (freeproc_proc k x) (.inr ⟨rfl, rfl⟩)

theorem tame_wakeup (k : Kernel) (me : Option ℕ) (chan : Chan) : Tame k (wakeup k me chan) := by
  refine Tame.foldl ?_ _ k
  intro k x
  split
  · exact tame_makeRunnable k x
  · exact .refl k

theorem tame_reparent (k : Kernel) (p : ℕ) : Tame k (reparent k p) := by
  refine Tame.foldl ?_ _ k
  intro k x
  split
  · refine Tame.trans (tame_update (x := x) rfl ?_) (tame_wakeup _ _ _)
    exact .inl ⟨rfl, rfl, id⟩
  · exact .refl k

theorem tame_exit {status : ℤ} (h : exit k p status = some k') : Tame k k' := by
  unfold exit at h
  split at h
  · cases h
  · rw [← Option.some.inj h]
    refine ((tame_reparent k p).trans (tame_wakeup _ _ _)).trans (tame_update (x := p) rfl ?_)
    exact .inl ⟨rfl, rfl, by simp⟩

theorem tame_sleep (k : Kernel) (p : ℕ) (chan : Chan) : Tame k (sleep k p chan) :=
  tame_update (x := p) rfl (.inl ⟨rfl, rfl, by simp⟩)

theorem tame_wait (k : Kernel) (p : ℕ) (addr : ℕ) (copyoutOk : Bool) :
    Tame k (wait k p addr copyoutOk).1 := by
  unfold wait
  split
  · split
    · exact .refl k
    · exact tame_freeproc k _
  · dsimp only
    split
    · exact .refl k
    · exact tame_sleep k p _

theorem tame_yield (k : Kernel) (p : ℕ) : Tame k (yield k p) := by
  refine Tame.trans (tame_update (x := p) (q := { k.proc p with
    state := .runnable, quanta := int ((k.proc p).quanta + 1) }) ?_ ?_) (tame_enqueue _ p)
  · simp
  · exact .inl ⟨rfl, rfl, by simp⟩

theorem tame_sysNice (k : Kernel) (p : ℕ) (inc : ℤ) : Tame k (sysNice k p inc).1 := by
  have hassign : Tame k (assignNice k p (clampNice (k.proc p).nice inc)) :=
    tame_update (x := p) rfl (.inl ⟨rfl, rfl, id⟩)
  simp only [sysNice]
  split
  · exact hassign.trans (tame_enqueue (unlinkProc _ p) p)
  · exact hassign

theorem tame_priorityBoost (k : Kernel) : Tame k (priorityBoost k) :=
  priorityBoost_keep (P := Tame k) (tame_of_proc rfl)
    (fun k₁ x _ hk => hk.trans (tame_enqueue k₁ x)) fun _ hk => hk

theorem tame_dispatch (k : Kernel) (p : ℕ) :
    Tame k (resume (markRunning (unlinkProc k p) p) p) := by
  have hrun : Tame k (markRunning (unlinkProc k p) p) :=
    tame_update (x := p) rfl (.inl ⟨rfl, rfl, by simp⟩)
  exact hrun.trans (tame_update (x := p) rfl (.inl ⟨rfl, rfl, id⟩))

theorem tame_afterSwitch (k : Kernel) (p : ℕ) : Tame k (afterSwitch k p) := by
  unfold afterSwitch
  split <;> exact tame_of_proc rfl

theorem tame_sysStartlog (k : Kernel) : Tame k (sysStartlog k).1 := by
  unfold sysStartlog
  split <;> exact tame_of_proc rfl

/-- The operations that may set `pid` or `killed`. -/
def TableAction.isMarking : TableAction → Bool
  | .fork _ _ | .kill _ | .fault _ => true
  | _ => false

theorem tame_tableStep {a : TableAction} (ha : a.isMarking = false)
    (h : tableStep k a = some k') : Tame k k' := by
  cases a with
  | fork p mem => cases ha
  | kill pid => cases ha
  | fault p => cases ha
  | yield p =>
    obtain ⟨-, rfl⟩ := byRunning_eq_some.mp h
    exact tame_yield k p
  | sleep p chan =>
    obtain ⟨-, rfl⟩ := byRunning_eq_some.mp h
    exact tame_sleep k p chan
  | wakeup me chan =>
    rw [← Option.some.inj h]
    exact tame_wakeup k me chan
  | exit p status =>
    obtain ⟨k₂, hexit, hrun⟩ := Option.bind_eq_some_iff.mp h
    obtain ⟨-, rfl⟩ := byRunning_eq_some.mp hrun
    exact tame_exit hexit
  | wait p addr copyoutOk =>
    obtain ⟨-, rfl⟩ := byRunning_eq_some.mp h
    exact tame_wait k p addr copyoutOk
  | nice p inc =>
    obtain ⟨-, rfl⟩ := byRunning_eq_some.mp h
    exact tame_sysNice k p inc
  | switched p =>
    rw [← Option.some.inj h]
    exact tame_afterSwitch k p
  | startlog =>
    rw [← Option.some.inj h]
    exact tame_sysStartlog k
  | tick =>
    rw [← Option.some.inj h]
    exact tame_of_proc rfl
  | boost =>
    rw [← Option.some.inj h]
    exact tame_priorityBoost k
  | dispatch p =>
    obtain ⟨-, hk⟩ := Option.ite_none_right_eq_some.mp h
    rw [← Option.some.inj hk]
    exact tame_dispatch k p
  | relink q =>
    rw [← Option.some.inj h]
    exact tame_of_proc rfl

/-! ## Who is to blame for a mark -/

/-- The kernel and, for each slot, whether its process has been named in a `kill` or has
faulted since `fork` created it. -/
structure Blamed where
  kernel : Kernel
  blamed : ℕ → Bool

def blame (s : Blamed) : TableAction → ℕ → Bool
  | .fork _ _ => fun x => s.blamed x && freeSlot s.kernel != some x
  | .kill pid => fun x =>
    s.blamed x || decide ((s.kernel.proc x).state ≠ .unused ∧ (s.kernel.proc x).pid = pid)
  | .fault p => fun x => s.blamed x || x = p
  | _ => s.blamed

def blameStep (s : Blamed) (a : TableAction) : Option Blamed :=
  (tableStep s.kernel a).map fun k => ⟨k, blame s a⟩

/-- Nobody calls `kill(0)`. -/
def NoKillZero (_ : Blamed) (a : TableAction) : Prop := a ≠ .kill 0

/-- A free slot has no pid and no mark, and every mark has a cause. -/
structure MarksOk (s : Blamed) : Prop where
  free_pid : ∀ x, (s.kernel.proc x).state = .unused → (s.kernel.proc x).pid = 0
  free_mark : ∀ x, (s.kernel.proc x).state = .unused → (s.kernel.proc x).killed = 0
  cause : ∀ x, s.blamed x = false → (s.kernel.proc x).killed = 0

theorem MarksOk.tame {s : Blamed} (h : MarksOk s) (hk : Tame s.kernel k') :
    MarksOk ⟨k', s.blamed⟩ := by
  refine ⟨?_, ?_, ?_⟩
  · intro x hs
    rcases hk x with ⟨-, hpid, hstate⟩ | ⟨-, hpid⟩
    · exact hpid.trans (h.free_pid x (hstate hs))
    · exact hpid
  · intro x hs
    rcases hk x with ⟨hkilled, -, hstate⟩ | ⟨hkilled, -⟩
    · exact hkilled.trans (h.free_mark x (hstate hs))
    · exact hkilled
  · intro x hb
    rcases hk x with ⟨hkilled, -, -⟩ | ⟨hkilled, -⟩
    · exact hkilled.trans (h.cause x hb)
    · exact hkilled

/-- `fork` touches the slot that `allocproc` takes and no other. -/
theorem fork_other {y : ℕ} (h : freeSlot k ≠ some y) (p : ℕ) (mem : Memory) :
    (fork k p mem).1.proc y = k.proc y := by
  cases hfind : freeSlot k with
  | none =>
    have hnone : (List.range nproc).find? (fun i => (k.proc i).state = .unused) = none := hfind
    simp only [fork, allocproc, hnone]
  | some i =>
    have hsome : (List.range nproc).find? (fun i => (k.proc i).state = .unused) = some i := hfind
    have hy : y ≠ i := by
      rintro rfl
      exact h hfind
    obtain ⟨trapframe, pagetable, image⟩ := mem
    unfold fork allocproc
    simp only [hsome]
    cases trapframe <;> cases pagetable <;> cases image <;> simp [hy]

/-- That slot keeps its mark, or is free again if an allocation failed. -/
theorem fork_taken (h : freeSlot k = some x) (p : ℕ) (mem : Memory) :
    (((fork k p mem).1.proc x).state ≠ .unused ∧
      ((fork k p mem).1.proc x).killed = (k.proc x).killed) ∨
    (((fork k p mem).1.proc x).killed = 0 ∧ ((fork k p mem).1.proc x).pid = 0) := by
  have hfind : (List.range nproc).find? (fun i => (k.proc i).state = .unused) = some x := h
  unfold fork allocproc
  simp only [hfind]
  obtain ⟨trapframe, pagetable, image⟩ := mem
  cases trapframe <;> cases pagetable <;> cases image <;> simp

theorem MarksOk.fork {s : Blamed} (h : MarksOk s) (p : ℕ) (mem : Memory) :
    MarksOk ⟨(fork s.kernel p mem).1, blame s (.fork p mem)⟩ := by
  -- The slot that is taken was free, so it has no mark; the others are as before.
  have hslot : ∀ x, freeSlot s.kernel = some x →
      ((Mlfq.fork s.kernel p mem).1.proc x).killed = 0 ∧
        (((Mlfq.fork s.kernel p mem).1.proc x).state = .unused →
          ((Mlfq.fork s.kernel p mem).1.proc x).pid = 0) := by
    intro x hx
    have hmark := h.free_mark x (freeSlot_spec hx).2
    rcases fork_taken hx p mem with ⟨hused, hkilled⟩ | ⟨hkilled, hpid⟩
    · exact ⟨hkilled.trans hmark, fun hs => absurd hs hused⟩
    · exact ⟨hkilled, fun _ => hpid⟩
  refine ⟨?_, ?_, ?_⟩
  · intro x hs
    by_cases hx : freeSlot s.kernel = some x
    · exact (hslot x hx).2 hs
    · dsimp only at hs ⊢
      rw [fork_other hx] at hs ⊢
      exact h.free_pid x hs
  · intro x hs
    by_cases hx : freeSlot s.kernel = some x
    · exact (hslot x hx).1
    · dsimp only at hs ⊢
      rw [fork_other hx] at hs ⊢
      exact h.free_mark x hs
  · intro x hb
    by_cases hx : freeSlot s.kernel = some x
    · exact (hslot x hx).1
    · dsimp only
      rw [fork_other hx]
      exact h.cause x (by simpa [blame, hx] using hb)

theorem MarksOk.fault {s : Blamed} (h : MarksOk s) (hs : (s.kernel.proc p).state = .running) :
    MarksOk ⟨setkilled s.kernel p, blame s (.fault p)⟩ := by
  have hp : (s.kernel.proc p).state ≠ .unused := by simp [hs]
  refine ⟨?_, ?_, ?_⟩
  · intro x hx
    by_cases hxp : x = p
    · simp_all [setkilled]
    · exact h.free_pid x (by simpa [setkilled, hxp] using hx) ▸ by simp [setkilled, hxp]
  · intro x hx
    by_cases hxp : x = p
    · simp_all [setkilled]
    · exact h.free_mark x (by simpa [setkilled, hxp] using hx) ▸ by simp [setkilled, hxp]
  · intro x hb
    simp only [blame, Bool.or_eq_false_iff, decide_eq_false_iff_not] at hb
    simpa [setkilled, hb.2] using h.cause x hb.1

/-! ## `kill` -/

/-- The process that `kill` finds. -/
def killSlot (k : Kernel) (pid : ℤ) : Option ℕ :=
  (List.range nproc).find? fun i => (k.proc i).pid = pid

theorem killSlot_spec {pid : ℤ} (h : killSlot k pid = some x) :
    x < nproc ∧ (k.proc x).pid = pid :=
  ⟨List.mem_range.mp (List.mem_of_find?_eq_some h), by simpa using List.find?_some h⟩

theorem kill_of_none {pid : ℤ} (h : killSlot k pid = none) : kill k pid = (k, -1) := by
  have hfind : (List.range nproc).find? (fun i => (k.proc i).pid = pid) = none := h
  simp only [kill, hfind]

/-- `kill` returns 0 and marks that process. -/
theorem kill_of_some {pid : ℤ} (h : killSlot k pid = some x) :
    (kill k pid).2 = 0 ∧ (∀ y, y ≠ x → (kill k pid).1.proc y = k.proc y) ∧
      (((kill k pid).1.proc x).state = .unused → (k.proc x).state = .unused) := by
  have hfind : (List.range nproc).find? (fun i => (k.proc i).pid = pid) = some x := h
  simp only [kill, hfind]
  refine ⟨trivial, ?_, ?_⟩
  · intro y hy
    split <;> simp [hy]
  · split <;> simp

/-- What `kill(pid)` should do: return 0 only for the pid of a process, and change the slot
of that process only. -/
def KillsOwn (k : Kernel) (pid : ℤ) : Prop :=
  ((kill k pid).2 = 0 → ∃ x < nproc, (k.proc x).state ≠ .unused ∧ (k.proc x).pid = pid ∧
    ∀ y, y ≠ x → (kill k pid).1.proc y = k.proc y) ∧
  ((kill k pid).2 ≠ 0 → (kill k pid).1.proc = k.proc)

theorem MarksOk.killsOwn {s : Blamed} (h : MarksOk s) {pid : ℤ} (hpid : pid ≠ 0) :
    KillsOwn s.kernel pid := by
  cases hslot : killSlot s.kernel pid with
  | none =>
    rw [KillsOwn, kill_of_none hslot]
    exact ⟨fun hzero => absurd hzero (by simp), fun _ => rfl⟩
  | some x =>
    obtain ⟨hzero, hother, -⟩ := kill_of_some hslot
    obtain ⟨hx, hpidx⟩ := killSlot_spec hslot
    refine ⟨fun _ => ⟨x, hx, ?_, hpidx, hother⟩, fun hne => absurd hzero hne⟩
    intro hfree
    exact hpid (hpidx.symm.trans (h.free_pid x hfree))

theorem MarksOk.kill {s : Blamed} (h : MarksOk s) {pid : ℤ} (hpid : pid ≠ 0) :
    MarksOk ⟨(kill s.kernel pid).1, blame s (.kill pid)⟩ := by
  cases hslot : killSlot s.kernel pid with
  | none =>
    rw [kill_of_none hslot]
    refine ⟨h.free_pid, h.free_mark, ?_⟩
    intro x hb
    simp only [blame, Bool.or_eq_false_iff] at hb
    exact h.cause x hb.1
  | some x =>
    obtain ⟨-, hother, hstate⟩ := kill_of_some hslot
    obtain ⟨hx, hpidx⟩ := killSlot_spec hslot
    have hused : (s.kernel.proc x).state ≠ .unused :=
      fun hfree => hpid (hpidx.symm.trans (h.free_pid x hfree))
    refine ⟨?_, ?_, ?_⟩
    · intro y hs
      by_cases hyx : y = x
      · subst y
        exact absurd (hstate hs) hused
      · dsimp only at hs ⊢
        rw [hother y hyx] at hs ⊢
        exact h.free_pid y hs
    · intro y hs
      by_cases hyx : y = x
      · subst y
        exact absurd (hstate hs) hused
      · dsimp only at hs ⊢
        rw [hother y hyx] at hs ⊢
        exact h.free_mark y hs
    · intro y hb
      simp only [blame, Bool.or_eq_false_iff, decide_eq_false_iff_not] at hb
      have hyx : y ≠ x := by
        rintro rfl
        exact hb.2 ⟨hused, hpidx⟩
      dsimp only
      rw [hother y hyx]
      exact h.cause y hb.1

theorem MarksOk.step {s s' : Blamed} {a : TableAction} (h : MarksOk s) (ha : NoKillZero s a)
    (hs : blameStep s a = some s') : MarksOk s' := by
  obtain ⟨k', hk, rfl⟩ := Option.map_eq_some_iff.mp hs
  cases hmark : a.isMarking with
  | false =>
    have hblame : blame s a = s.blamed := by
      cases a <;> first | rfl | cases hmark
    rw [hblame]
    exact h.tame (tame_tableStep hmark hk)
  | true =>
    cases a with
    | fork p mem =>
      obtain ⟨-, rfl⟩ := byRunning_eq_some.mp hk
      exact h.fork p mem
    | kill pid =>
      rw [← Option.some.inj hk]
      refine h.kill ?_
      rintro rfl
      exact ha rfl
    | fault p =>
      obtain ⟨⟨-, hrun⟩, rfl⟩ := byRunning_eq_some.mp hk
      exact h.fault hrun
    | _ => cases hmark

theorem marksOk_boot {mem : Memory} (hk : userinit bootKernel mem = some k) :
    MarksOk ⟨k, fun _ => false⟩ := by
  rw [userinit_boot hk]
  refine ⟨?_, ?_, ?_⟩
  all_goals
    intro x
    by_cases hx : x = 0 <;> simp [hx, initKernel, bootKernel, bootProc]

/-- In every run without a `kill(0)`: for every other pid, `kill` returns 0 only for the pid
of a process and changes only its slot, and a process that has neither been named in a
`kill` nor faulted since `fork` created it is not marked. -/
theorem reachWhere_kill_own {mem : Memory} (hk : userinit bootKernel mem = some k)
    {s : Blamed} (hreach : ReachWhere blameStep NoKillZero ⟨k, fun _ => false⟩ s) :
    (∀ pid, pid ≠ 0 → KillsOwn s.kernel pid) ∧
      ∀ x, (s.kernel.proc x).state ≠ .unused → s.blamed x = false →
        (s.kernel.proc x).killed = 0 := by
  have hmarks : MarksOk s :=
    hreach.invariant (marksOk_boot hk) fun _ _ _ hi hc hs => hi.step hc hs
  exact ⟨fun pid hpid => hmarks.killsOwn hpid, fun x _ hb => hmarks.cause x hb⟩

/-- The first process forks and kills its child: the child is marked, the parent is not. -/
theorem reachWhere_kill_own_fork :
    ∃ s, ReachWhere blameStep NoKillZero ⟨makeRunnable initKernel 0, fun _ => false⟩ s ∧
      (s.kernel.proc 1).killed = 1 ∧ (s.kernel.proc 0).killed = 0 ∧ KillsOwn s.kernel 2 := by
  have hrun : (exec blameStep ⟨makeRunnable initKernel 0, fun _ => false⟩
      [.dispatch 0, .fork 0 allMemory, .kill 2]).map (fun s =>
        ((s.kernel.proc 1).killed, (s.kernel.proc 0).state, s.blamed 0)) =
      some (1, .running, false) := by decide +kernel
  obtain ⟨s, hs, hview⟩ := Option.map_eq_some_iff.mp hrun
  simp only [Prod.mk.injEq] at hview
  obtain ⟨hchild, hstate, hblamed⟩ := hview
  have hcond : Along blameStep NoKillZero ⟨makeRunnable initKernel 0, fun _ => false⟩
      [.dispatch 0, .fork 0 allMemory, .kill 2] := by
    refine along_of_forall ?_
    intro a ha u
    simp only [List.mem_cons, List.not_mem_nil, or_false] at ha
    rcases ha with rfl | rfl | rfl <;> simp [NoKillZero]
  have hreach := reachWhere_of_along hs hcond
  have hboot : userinit bootKernel ⟨true, true, true⟩ = some (makeRunnable initKernel 0) := rfl
  obtain ⟨hkill, hmark⟩ := reachWhere_kill_own hboot hreach
  exact ⟨s, hreach, hchild, hmark 0 (by simp [hstate]) hblamed, hkill 2 (by decide)⟩

/-- `kill(0)` by the first process returns 0 although no process has pid 0: it marks the
free slot 1, and the process that `fork` then creates there is marked from the start. -/
theorem kill_zero_marks_free_slot :
    Reachable initRunning ∧ (kill initRunning.kernel 0).2 = 0 ∧
      (∀ x < nproc, (initRunning.kernel.proc x).pid = 0 →
        (initRunning.kernel.proc x).state = .unused) ∧
      ∃ m, exec step initRunning [.kill 0, .fork allMemory] = some m ∧
        (m.kernel.proc 1).state = .runnable ∧ (m.kernel.proc 1).pid = 2 ∧
        (m.kernel.proc 1).killed = 1 := by
  refine ⟨initRunning_reachable, by decide +kernel, by decide +kernel, ?_⟩
  have hrun : (exec step initRunning [.kill 0, .fork allMemory]).map (fun m =>
      ((m.kernel.proc 1).state, (m.kernel.proc 1).pid, (m.kernel.proc 1).killed)) =
      some (.runnable, 2, 1) := by decide +kernel
  obtain ⟨m, hm, hview⟩ := Option.map_eq_some_iff.mp hrun
  simp only [Prod.mk.injEq] at hview
  exact ⟨m, hm, hview⟩

end CS352.Mlfq
