import CS352.Library.History
import CS352.Verification.Mlfq.Runnable

/-! # The scheduling counters

`enqueue` leaves the quanta within the allotment of the level that it assigns, and `yield`
adds one just before it calls `enqueue`. The scheduler looks at `timeSincePriorityBoost`
between any two calls of `yield`. -/

namespace CS352.Mlfq

open Transition

variable {k k' k'' : Kernel} {p x : ℕ}

/-! ## Quanta and levels -/

/-- The queue number is a level, and the quanta are within its allotment. -/
def InAllotment (q : Proc) : Prop :=
  ∃ l : Level, q.queue = l.val ∧ 0 ≤ q.quanta ∧ q.quanta ≤ allotment l

theorem allotment_nonneg (l : Level) : 0 ≤ allotment l := by
  fin_cases l <;> decide

theorem allotment_le (l : Level) : allotment l ≤ 15 := by
  fin_cases l <;> decide

theorem countedQuanta_nonneg {arg : Proc} (h : 0 ≤ arg.quanta) : 0 ≤ countedQuanta arg := by
  unfold countedQuanta
  split
  · exact le_rfl
  · exact h

/-- Every branch of `enqueue` ends within the allotment of the level it chose. -/
theorem assigned_in_allotment {arg : Proc} (h : 0 ≤ arg.quanta) :
    0 ≤ assignedQuanta arg ∧ assignedQuanta arg ≤ allotment (assignedLevel arg) := by
  unfold assignedQuanta assignedLevel
  split
  · exact ⟨le_rfl, allotment_nonneg _⟩
  · rename_i hex
    exact ⟨countedQuanta_nonneg h, not_lt.mp hex⟩

/-- Every process is within the allotment of its level. -/
def Allotted (k : Kernel) : Prop := ∀ x, InAllotment (k.proc x)

theorem Allotted.congr (h : Allotted k) (hq : ∀ y, (k'.proc y).quanta = (k.proc y).quanta)
    (hl : ∀ y, (k'.proc y).queue = (k.proc y).queue) : Allotted k' := by
  intro y
  rw [InAllotment, hq, hl]
  exact h y

theorem Allotted.setProc (h : Allotted k) {q : Proc} (hq : q.quanta = (k.proc x).quanta)
    (hl : q.queue = (k.proc x).queue) : Allotted (k.setProc x q) := by
  refine h.congr ?_ ?_
  · intro y
    by_cases hyx : y = x <;> simp [hyx, hq]
  · intro y
    by_cases hyx : y = x <;> simp [hyx, hl]

/-- The call needs nothing of the process but that its quanta are not negative. -/
theorem allotted_enqueue (h : ∀ y, y ≠ x → InAllotment (k.proc y))
    (hx : 0 ≤ (k.proc x).quanta) : Allotted (enqueue k x) := by
  intro y
  rw [enqueue_proc]
  by_cases hyx : y = x
  · subst y
    simpa using ⟨assignedLevel (k.proc x), rfl, assigned_in_allotment hx⟩
  · simpa [hyx] using h y hyx

theorem Allotted.quanta_nonneg (h : Allotted k) (x : ℕ) : 0 ≤ (k.proc x).quanta := by
  obtain ⟨l, -, h0, -⟩ := h x
  exact h0

theorem Allotted.quanta_le (h : Allotted k) (x : ℕ) : (k.proc x).quanta ≤ 15 := by
  obtain ⟨l, -, -, hle⟩ := h x
  exact hle.trans (allotment_le l)

theorem Allotted.makeRunnable (h : Allotted k) (x : ℕ) : Allotted (makeRunnable k x) := by
  refine allotted_enqueue ?_ ?_
  · intro y hy
    simpa [hy] using h y
  · simpa using h.quanta_nonneg x

theorem Allotted.int_quanta (h : Allotted k) (x : ℕ) :
    int ((k.proc x).quanta + 1) = (k.proc x).quanta + 1 := by
  have h0 := h.quanta_nonneg x
  have h15 := h.quanta_le x
  exact int_of_small (by omega) (by omega)

theorem Allotted.yield (h : Allotted k) (x : ℕ) : Allotted (yield k x) := by
  refine allotted_enqueue ?_ ?_
  · intro y hy
    simpa [hy] using h y
  · have h0 := h.quanta_nonneg x
    simp only [setProc_proc, ensureQueue_proc, Function.update_self]
    rw [h.int_quanta x]
    omega

theorem Allotted.update (h : Allotted k) (hu : Update k k') : Allotted k' := by
  cases hu with
  | start x hx hs => exact h.makeRunnable x
  | alloc x hx hs =>
    exact (h.setProc (x := x) (by simp) (by simp)).congr (fun _ => rfl) (fun _ => rfl)
  | free x hx hs => exact h.setProc (x := x) (by simp) (by simp)
  | killed x => exact h.setProc rfl rfl
  | parent x q => exact h.setProc rfl rfl
  | initproc | log => exact h

theorem Allotted.updates (h : Allotted k) (hu : Updates k k') : Allotted k' :=
  Updates.keep (fun _ _ hu h => h.update hu) hu h

theorem Allotted.boostCheck (h : Allotted k) : Allotted (boostCheck k) := by
  unfold Mlfq.boostCheck
  split
  · refine priorityBoost_keep h ?_ fun _ hk => hk
    intro k x _ hk
    exact allotted_enqueue (fun y _ => hk y) (hk.quanta_nonneg x)
  · exact h

theorem Allotted.move {m m' : Machine} {a : Action} (h : Allotted m.kernel) (hm : Move a m m') :
    Allotted m'.kernel := by
  cases hm with
  | updates ha hu => exact h.updates hu
  | nice v => exact h.setProc rfl rfl
  | yield hu => exact (h.yield _).updates hu
  | block ha chan status s hs hbefore hafter =>
    exact Allotted.updates ((h.updates hbefore).setProc (by simp) (by simp)) hafter
  | idle hnone => exact h.boostCheck
  | dispatch hfirst =>
    rename_i k x
    have hunlink : Allotted (unlinkProc (Mlfq.boostCheck k) x) :=
      h.boostCheck.congr (fun _ => rfl) (fun _ => rfl)
    have hrun : Allotted (markRunning (unlinkProc (Mlfq.boostCheck k) x) x) :=
      hunlink.setProc (x := x) rfl rfl
    exact hrun.setProc rfl rfl

/-! ## The boost counter -/

theorem Updates.timeSincePriorityBoost (h : Updates k k') :
    k'.timeSincePriorityBoost = k.timeSincePriorityBoost := by
  induction h with
  | refl => rfl
  | tail _ hu ih =>
    rw [← ih]
    cases hu with
    | start x hx hs => simp [makeRunnable]
    | alloc | free | killed | parent | initproc | log => rfl

theorem yield_timeSincePriorityBoost :
    (yield k x).timeSincePriorityBoost = int (k.timeSincePriorityBoost + 1) := by
  simp [yield]

/-- The scheduler never enters `dequeue` with the counter beyond 60. -/
theorem boostCheck_timeSincePriorityBoost (h : 0 ≤ k.timeSincePriorityBoost) :
    0 ≤ (boostCheck k).timeSincePriorityBoost ∧ (boostCheck k).timeSincePriorityBoost ≤ 60 := by
  unfold boostCheck
  split
  · simp [priorityBoost]
  · rename_i h60
    exact ⟨h, not_lt.mp h60⟩

/-- The counters of the machine. While a process runs, the scheduler has tested
`timeSincePriorityBoost` since the last call of `yield`. -/
structure Bounded (m : Machine) : Prop where
  allotted : Allotted m.kernel
  boost_nonneg : 0 ≤ m.kernel.timeSincePriorityBoost
  boost_le : m.kernel.timeSincePriorityBoost ≤ 61
  boost_tested : m.cpu ≠ none → m.kernel.timeSincePriorityBoost ≤ 60

theorem Bounded.int_boost {m : Machine} (h : Bounded m) :
    int (m.kernel.timeSincePriorityBoost + 1) = m.kernel.timeSincePriorityBoost + 1 := by
  have h0 := h.boost_nonneg
  have h61 := h.boost_le
  exact int_of_small (by omega) (by omega)

theorem Bounded.move {m m' : Machine} {a : Action} (h : Bounded m) (hm : Move a m m') :
    Bounded m' := by
  have hallot := h.allotted.move hm
  have hint := h.int_boost
  obtain ⟨-, h0, h61, htested⟩ := h
  cases hm with
  | updates ha hu =>
    have htime := hu.timeSincePriorityBoost
    exact ⟨hallot, by simpa [htime] using h0, by simpa [htime] using h61,
      by simpa [htime] using htested⟩
  | nice v => exact ⟨hallot, h0, h61, htested⟩
  | yield hu =>
    have htime := hu.timeSincePriorityBoost.trans yield_timeSincePriorityBoost
    have h60 := htested (by simp)
    dsimp only at h0 h60 hint
    refine ⟨hallot, ?_, ?_, by simp⟩ <;> dsimp only <;> omega
  | block ha chan status s hs hbefore hafter =>
    have htime := hafter.timeSincePriorityBoost.trans hbefore.timeSincePriorityBoost
    dsimp only at h0 h61 htime
    refine ⟨hallot, ?_, ?_, by simp⟩ <;> dsimp only <;> omega
  | idle hnone =>
    obtain ⟨hlow, hhigh⟩ := boostCheck_timeSincePriorityBoost h0
    exact ⟨hallot, hlow, hhigh.trans (by decide), by simp⟩
  | dispatch hfirst =>
    obtain ⟨hlow, hhigh⟩ := boostCheck_timeSincePriorityBoost h0
    exact ⟨hallot, hlow, hhigh.trans (by decide), fun _ => hhigh⟩

theorem bounded_bootKernel : Bounded ⟨bootKernel, none⟩ := by
  refine ⟨fun x => ⟨0, ?_⟩, ?_, ?_, ?_⟩ <;> simp [bootKernel, bootProc, allotment]

theorem Booted.bounded {m : Machine} (h : Booted m) : Bounded m := by
  obtain ⟨mem, k, hk, rfl⟩ := h
  exact bounded_bootKernel.move
    (.updates (a := .userinit mem) (m := ⟨bootKernel, none⟩) rfl (userinit_updates hk))

/-! ## Yields and resets

The history of a process lists its calls of `yield`, each with the queue number that the
process had, and the calls of `enqueue` that restarted its quanta. -/

inductive Mark where
  | yield (queue : ℤ)
  | reset
  deriving DecidableEq, Repr

/-- `enqueue` executes `p->quanta = 0` for a process with this record. -/
def Resets (arg : Proc) : Prop :=
  (niceLevel arg.nice ≠ 2 ∧ (niceLevel arg.nice).val < arg.queue) ∨ Exceeds arg

instance (arg : Proc) : Decidable (Resets arg) := inferInstanceAs (Decidable (_ ∨ _))

theorem assignedQuanta_eq (arg : Proc) :
    assignedQuanta arg = if Resets arg then 0 else arg.quanta := by
  unfold assignedQuanta Resets
  by_cases hex : Exceeds arg
  · simp [hex]
  · simp only [hex, or_false, if_false]
    rfl

def resetMark (p : ℕ) : Event → Option Mark
  | .enqueue q arg _ => if q = p ∧ Resets arg then some .reset else none
  | .free _ | .nice _ | .boost | .dispatch _ => none

/-- What a step adds to the history of `p`. -/
def marks (p : ℕ) (m : Machine) (a : Action) (m' : Machine) : List Mark :=
  (if a = .yield ∧ m.cpu = some p then [.yield (m.kernel.proc p).queue] else []) ++
    (m'.kernel.trace.drop m.kernel.trace.length).filterMap (resetMark p)

structure Watched where
  machine : Machine
  history : ℕ → List Mark

def watchStep (w : Watched) (a : Action) : Option Watched :=
  (step w.machine a).map fun m =>
    ⟨m, fun p => w.history p ++ marks p w.machine a m⟩

/-- The calls of `yield` since the last reset. -/
def sinceReset (hist : List Mark) : ℕ :=
  hist.foldl (fun n mark => if mark = .reset then 0 else n + 1) 0

@[simp] theorem sinceReset_nil : sinceReset [] = 0 := rfl

@[simp] theorem sinceReset_concat_reset (hist : List Mark) :
    sinceReset (hist ++ [.reset]) = 0 := by
  simp [sinceReset]

@[simp] theorem sinceReset_concat_yield (hist : List Mark) (queue : ℤ) :
    sinceReset (hist ++ [.yield queue]) = sinceReset hist + 1 := by
  simp [sinceReset]

/-- The events between the two kernels account for the change of `p->quanta`. -/
def Tracks (p : ℕ) (k k' : Kernel) : Prop :=
  ∃ es, k'.trace = k.trace ++ es ∧ ∀ hist, (k.proc p).quanta = sinceReset hist →
    (k'.proc p).quanta = sinceReset (hist ++ es.filterMap (resetMark p))

theorem Tracks.trans (h : Tracks p k k') (h' : Tracks p k' k'') : Tracks p k k'' := by
  obtain ⟨es, htr, hq⟩ := h
  obtain ⟨es', htr', hq'⟩ := h'
  refine ⟨es ++ es', by rw [htr', htr, List.append_assoc], ?_⟩
  intro hist hhist
  rw [List.filterMap_append, ← List.append_assoc]
  exact hq' _ (hq hist hhist)

theorem tracks_of_same (htr : k'.trace = k.trace)
    (hq : (k'.proc p).quanta = (k.proc p).quanta) : Tracks p k k' :=
  ⟨[], by simpa using htr, fun hist hhist => by simpa [hq] using hhist⟩

theorem tracks_setProc {q : Proc} (hq : q.quanta = (k.proc x).quanta) :
    Tracks p k (k.setProc x q) := by
  refine tracks_of_same rfl ?_
  by_cases hpx : p = x <;> simp [hpx, hq]

/-- An event without a mark, and the quanta as before. -/
theorem tracks_record {e : Event} (htr : k'.trace = k.trace ++ [e]) (he : resetMark p e = none)
    (hq : (k'.proc p).quanta = (k.proc p).quanta) : Tracks p k k' := by
  refine ⟨[e], htr, ?_⟩
  intro hist hhist
  simpa [he, hq] using hhist

theorem tracks_enqueue (k : Kernel) (x : ℕ) : Tracks p k (enqueue k x) := by
  refine ⟨_, enqueue_trace k x, ?_⟩
  intro hist hhist
  by_cases hxp : x = p
  · subst x
    by_cases hreset : Resets (k.proc p)
    · simp [resetMark, hreset, assignedQuanta_eq]
    · simpa [resetMark, hreset, assignedQuanta_eq] using hhist
  · simpa [resetMark, hxp, Ne.symm hxp] using hhist

theorem tracks_makeRunnable (k : Kernel) (x : ℕ) : Tracks p k (makeRunnable k x) := by
  refine Tracks.trans ?_ (tracks_enqueue _ x)
  refine tracks_of_same (by simp) ?_
  by_cases hpx : p = x <;> simp [hpx]

theorem Update.tracks (h : Update k k') (p : ℕ) : Tracks p k k' := by
  cases h with
  | start x hx hs => exact tracks_makeRunnable k x
  | alloc x hx hs =>
    refine tracks_of_same rfl ?_
    by_cases hpx : p = x <;> simp [hpx]
  | free x hx hs =>
    refine tracks_record (e := .free x) rfl rfl ?_
    by_cases hpx : p = x <;> simp [hpx]
  | killed x => exact tracks_setProc rfl
  | parent x q => exact tracks_setProc rfl
  | initproc | log => exact tracks_of_same rfl rfl

theorem Updates.tracks (h : Updates k k') (p : ℕ) : Tracks p k k' :=
  Updates.keep (P := Tracks p k) (fun _ _ hu ht => ht.trans (hu.tracks p)) h
    (tracks_of_same rfl rfl)

theorem boostCheck_tracks (k : Kernel) (p : ℕ) : Tracks p k (boostCheck k) := by
  unfold boostCheck
  split
  · refine priorityBoost_keep (P := Tracks p k) ?_ ?_ ?_
    · exact tracks_record (e := .boost) rfl rfl rfl
    · intro k₁ x _ ht
      exact ht.trans (tracks_enqueue k₁ x)
    · intro k₁ ht
      exact ht.trans (tracks_of_same rfl rfl)
  · exact tracks_of_same rfl rfl

/-- The events of a step account for the quanta of every process, once its own call of
`yield` is counted. -/
theorem Move.tracks {m m' : Machine} {a : Action} (hm : Move a m m') (p : ℕ) :
    ∃ k₁, k₁.trace = m.kernel.trace ∧ Tracks p k₁ m'.kernel ∧
      (k₁.proc p).quanta =
        if a = .yield ∧ m.cpu = some p then int ((m.kernel.proc p).quanta + 1)
        else (m.kernel.proc p).quanta := by
  cases hm with
  | updates ha hu =>
    refine ⟨_, rfl, hu.tracks p, (if_neg ?_).symm⟩
    rintro ⟨rfl, -⟩
    cases ha
  | nice v =>
    rename_i k x
    refine ⟨k, rfl, tracks_record (e := .nice x) rfl rfl ?_, by simp⟩
    by_cases hpx : p = x <;> simp [assignNice, hpx]
  | yield hu =>
    rename_i k k' x
    -- The kernel that `yield` hands to `enqueue`.
    refine ⟨_, ?_, (tracks_enqueue _ x).trans (hu.tracks p), ?_⟩
    · simp
    · by_cases hxp : x = p
      · simp [hxp]
      · simp [hxp, Ne.symm hxp]
  | block ha chan status s hs hbefore hafter =>
    rename_i k k₁ k' x
    have hstop : Tracks p k₁
        (k₁.setProc x { k₁.proc x with chan := chan, xstate := status, state := s }) :=
      tracks_setProc (by simp)
    refine ⟨k, rfl, ((hbefore.tracks p).trans hstop).trans (hafter.tracks p),
      (if_neg ?_).symm⟩
    rintro ⟨rfl, -⟩
    cases ha
  | idle hnone => exact ⟨_, rfl, boostCheck_tracks _ p, by simp⟩
  | dispatch hfirst =>
    rename_i k x
    refine ⟨k, rfl, (boostCheck_tracks k p).trans ?_, by simp⟩
    refine tracks_record (e := .dispatch x) rfl rfl ?_
    by_cases hpx : p = x <;> simp [resume, markRunning, unlinkProc, hpx]

/-! ## Runs -/

/-- A call of `yield` at a level follows at most its allotment of calls since the last
reset. -/
def WithinAllotment (pre : List Mark) (mark : Mark) : Prop :=
  ∀ l : Level, mark = .yield l.val → sinceReset pre ≤ allotment l

/-- The quanta are the calls of `yield` since the last reset, and a call at a level found
them within the allotment. -/
structure Watched.Good (w : Watched) : Prop where
  bounded : Bounded w.machine
  quanta : ∀ p, (w.machine.kernel.proc p).quanta = sinceReset (w.history p)
  guarded : ∀ p, History.Guarded WithinAllotment (w.history p)

theorem eq_reset_of_mem {es : List Event} {mark : Mark}
    (h : mark ∈ es.filterMap (resetMark p)) : mark = .reset := by
  obtain ⟨e, -, he⟩ := List.mem_filterMap.mp h
  cases e with
  | enqueue q arg level =>
    obtain ⟨-, hmark⟩ := Option.ite_none_right_eq_some.mp he
    exact (Option.some.inj hmark).symm
  | free | nice | boost | dispatch => cases he

theorem Watched.Good.step {w w' : Watched} {a : Action} (h : w.Good)
    (hs : watchStep w a = some w') : w'.Good := by
  obtain ⟨m', hm, rfl⟩ := Option.map_eq_some_iff.mp hs
  have hproc : ∀ p, ∃ (own : List Mark) (es : List Event),
      marks p w.machine a m' = own ++ es.filterMap (resetMark p) ∧
      (m'.kernel.proc p).quanta =
        sinceReset (w.history p ++ own ++ es.filterMap (resetMark p)) ∧
      History.Guarded WithinAllotment (w.history p ++ own) := by
    intro p
    obtain ⟨k₁, htr₁, ⟨es, htr, hes⟩, hq⟩ := (step_move hm).tracks p
    have hquanta := h.quanta p
    have hdrop : m'.kernel.trace.drop w.machine.kernel.trace.length = es := by
      rw [htr, htr₁, List.drop_left]
    refine ⟨_, es, by rw [marks, hdrop], hes _ ?_, ?_⟩
    · by_cases hown : a = .yield ∧ w.machine.cpu = some p
      · rw [hq, if_pos hown, if_pos hown, sinceReset_concat_yield,
          h.bounded.allotted.int_quanta p, hquanta]
        push_cast
        rfl
      · rw [hq, if_neg hown, if_neg hown, List.append_nil, hquanta]
    · by_cases hown : a = .yield ∧ w.machine.cpu = some p
      · rw [if_pos hown]
        refine (h.guarded p).concat ?_
        intro l hl
        obtain ⟨l', hqueue, -, hle⟩ := h.bounded.allotted p
        have hll : l' = l := by
          have hval : (l'.val : ℤ) = l.val := by
            rw [← hqueue]
            exact Mark.yield.inj hl
          exact Fin.ext (by exact_mod_cast hval)
        rw [← hquanta, ← hll]
        exact hle
      · rw [if_neg hown, List.append_nil]
        exact h.guarded p
  refine ⟨h.bounded.move (step_move hm), ?_, ?_⟩
  · intro p
    obtain ⟨own, es, hmarks, hq, -⟩ := hproc p
    dsimp only
    rw [hmarks, ← List.append_assoc]
    exact hq
  · intro p
    obtain ⟨own, es, hmarks, -, hguard⟩ := hproc p
    dsimp only
    rw [hmarks, ← List.append_assoc]
    refine hguard.append ?_
    intro mark hmem pre l hl
    cases (eq_reset_of_mem hmem).symm.trans hl

theorem Booted.good {m : Machine} (h : Booted m) : Watched.Good ⟨m, fun _ => []⟩ := by
  refine ⟨h.bounded, ?_, fun _ => History.guarded_nil⟩
  obtain ⟨mem, k, hk, rfl⟩ := h
  intro p
  rw [userinit_boot hk]
  by_cases hp : p = 0
  · subst p
    decide +kernel
  · simp [hp, initKernel, bootKernel, bootProc]

theorem length_le_sinceReset (xs : List Mark) {ys : List Mark} (h : .reset ∉ ys) :
    ys.length ≤ sinceReset (xs ++ ys) := by
  induction ys using List.reverseRecOn with
  | nil => simp
  | append_singleton ys mark ih =>
    cases mark with
    | reset => simp at h
    | yield queue =>
      rw [← List.append_assoc, sinceReset_concat_yield, List.length_append]
      have hprev := ih fun hmem => h (by simp [hmem])
      simpa using hprev

/-- Between two resets, the last call at a level bounds the calls before it. -/
theorem count_yield_le {hist xs ys zs : List Mark} {l : Level}
    (h : History.Guarded WithinAllotment hist) (hsplit : hist = xs ++ ys ++ zs)
    (hno : .reset ∉ ys) :
    (ys.count (.yield l.val) : ℤ) ≤ allotment l + 1 := by
  induction ys using List.reverseRecOn generalizing zs with
  | nil =>
    have h0 := allotment_nonneg l
    rw [List.count_nil]
    omega
  | append_singleton ys mark ih =>
    have hno' : .reset ∉ ys := fun hmem => hno (by simp [hmem])
    by_cases hmark : mark = .yield l.val
    · have hbefore := h (xs ++ ys) mark zs (by simp [hsplit]) l hmark
      have hlen := length_le_sinceReset xs hno'
      have hcount := List.count_le_length (a := Mark.yield l.val) (l := ys)
      rw [hmark, List.count_append, List.count_singleton_self]
      omega
    · have hsplit' : hist = xs ++ ys ++ mark :: zs := by simp [hsplit]
      have hprev := ih hsplit' hno'
      simpa [List.count_append, hmark] using hprev

/-! ## Main result -/

/-- At every operation boundary of every run the queue number of a process is a level and
its quanta are within the allotment of that level; the boost counter stays between 0 and
61; neither addition of `yield` overflows; and between two resets of its quanta a process
calls `yield` at a level at most once more than the allotment. -/
theorem reach_counters_bounded {s : Machine} (hs : Booted s) {w : Watched}
    (h : Reach watchStep ⟨s, fun _ => []⟩ w) :
    (∀ p, ∃ l : Level, (w.machine.kernel.proc p).queue = l.val ∧
      0 ≤ (w.machine.kernel.proc p).quanta ∧
      (w.machine.kernel.proc p).quanta ≤ allotment l) ∧
    (0 ≤ w.machine.kernel.timeSincePriorityBoost ∧
      w.machine.kernel.timeSincePriorityBoost ≤ 61) ∧
    (∀ p, int ((w.machine.kernel.proc p).quanta + 1) =
      (w.machine.kernel.proc p).quanta + 1) ∧
    int (w.machine.kernel.timeSincePriorityBoost + 1) =
      w.machine.kernel.timeSincePriorityBoost + 1 ∧
    ∀ p (l : Level) (xs ys zs : List Mark), w.history p = xs ++ ys ++ zs → .reset ∉ ys →
      (ys.count (.yield l.val) : ℤ) ≤ allotment l + 1 := by
  have hgood : w.Good := h.invariant hs.good fun _ _ _ hi _ hstep => hi.step hstep
  refine ⟨hgood.bounded.allotted, ⟨hgood.bounded.boost_nonneg, hgood.bounded.boost_le⟩,
    hgood.bounded.allotted.int_quanta, hgood.bounded.int_boost, ?_⟩
  intro p l xs ys zs hsplit hno
  exact count_yield_le (hgood.guarded p) hsplit hno

/-- The first process has yielded twice at level 1. -/
theorem reach_counters_bounded_twoYields : ∃ w : Watched,
    Reach watchStep ⟨⟨makeRunnable initKernel 0, none⟩, fun _ => []⟩ w ∧
    w.history 0 = [.yield 1, .yield 1] ∧ (w.history 0).count (.yield 1) ≤ allotment 1 + 1 := by
  have hrun : (exec watchStep ⟨⟨makeRunnable initKernel 0, none⟩, fun _ => []⟩
      [.schedule, .yield, .schedule, .yield]).map (fun w : Watched => w.history 0) =
      some [.yield 1, .yield 1] := by
    decide +kernel
  obtain ⟨w, hw, hview⟩ := Option.map_eq_some_iff.mp hrun
  have hreach := reach_of_exec hw
  have hboot : Booted ⟨makeRunnable initKernel 0, none⟩ := ⟨⟨true, true, true⟩, _, rfl, rfl⟩
  refine ⟨w, hreach, hview, ?_⟩
  exact (reach_counters_bounded hboot hreach).2.2.2.2 0 1 [] (w.history 0) [] (by simp)
    (by simp [hview])

end CS352.Mlfq
