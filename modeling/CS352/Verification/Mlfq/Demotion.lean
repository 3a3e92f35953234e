import CS352.Library.History
import CS352.Verification.Mlfq.Solo
import Mathlib.Data.List.Chain

/-! # How long a demotion lasts

`enqueue` starts from the level of the nice value each time, and a process whose recorded
queue is below that level has its quanta restarted. So the call after a demotion undoes
it, and the levels of a process go down only as long as no call follows a demotion. -/

namespace CS352.Mlfq

open Transition

variable {k k' : Kernel} {p x : ℕ}

/-! ## The calls of `enqueue` for one process -/

/-- The record of the process and the level of each call of `enqueue` for it. A boost, a
new nice value and the release of the slot start over. -/
def addCall (p : ℕ) (calls : List (Proc × Level)) : Event → List (Proc × Level)
  | .boost => []
  | .free q | .nice q => if q = p then [] else calls
  | .enqueue q arg level => if q = p then calls ++ [(arg, level)] else calls
  | .dispatch _ => calls

/-- The calls for `p` since the last boost, oldest first. -/
def enqueueCalls (p : ℕ) (tr : List Event) : List (Proc × Level) := tr.foldl (addCall p) []

theorem enqueueCalls_concat (p : ℕ) (tr : List Event) (e : Event) :
    enqueueCalls p (tr ++ [e]) = addCall p (enqueueCalls p tr) e := by
  simp [enqueueCalls]

/-- The call finds the allotment of level 0 or 1 used up and moves the process down. -/
def Demotes (arg : Proc) : Prop := niceLevel arg.nice ≠ 2 ∧ Exceeds arg

instance (arg : Proc) : Decidable (Demotes arg) := inferInstanceAs (Decidable (_ ∧ _))

theorem niceLevel_le_assignedLevel (arg : Proc) : niceLevel arg.nice ≤ assignedLevel arg := by
  unfold assignedLevel
  split
  · generalize niceLevel arg.nice = level
    fin_cases level <;> decide
  · exact le_rfl

theorem assignedLevel_of_not_demotes {arg : Proc} (h : ¬ Demotes arg) :
    assignedLevel arg = niceLevel arg.nice := by
  unfold assignedLevel
  split
  · rename_i hex
    have htwo : niceLevel arg.nice = 2 := by
      by_contra hne
      exact h ⟨hne, hex⟩
    rw [htwo]
    rfl
  · rfl

theorem niceLevel_lt_of_demotes {arg : Proc} (h : Demotes arg) :
    niceLevel arg.nice < assignedLevel arg := by
  obtain ⟨hne, hex⟩ := h
  rw [assignedLevel, if_pos hex]
  generalize niceLevel arg.nice = level at hne
  fin_cases level
  · decide
  · decide
  · exact absurd rfl hne

/-- A process whose recorded queue is below the level of its nice value goes back to that
level. -/
theorem assignedLevel_of_below {arg : Proc} (h : ((niceLevel arg.nice).val : ℤ) < arg.queue)
    (hne : niceLevel arg.nice ≠ 2) : assignedLevel arg = niceLevel arg.nice := by
  have hcount : countedQuanta arg = 0 := if_pos ⟨hne, h⟩
  refine if_neg ?_
  rw [Exceeds, hcount]
  generalize niceLevel arg.nice = level
  fin_cases level <;> decide

/-! ## What the calls say about the process -/

/-- Each call chose the assigned level for the present nice value and recorded it in
`p->queue`, where the next call found it. -/
structure Recorded (q : Proc) (calls : List (Proc × Level)) : Prop where
  assigned : ∀ c ∈ calls, c.2 = assignedLevel c.1 ∧ c.1.nice = q.nice
  last : ∀ c ∈ calls.getLast?, q.queue = c.2.val
  chain : calls.IsChain fun c d => d.1.queue = c.2.val

variable {q q' : Proc} {calls : List (Proc × Level)}

theorem recorded_nil (q : Proc) : Recorded q [] := ⟨by simp, by simp, by simp⟩

theorem Recorded.congr (h : Recorded q calls) (hn : q'.nice = q.nice)
    (hq : q'.queue = q.queue) : Recorded q' calls := by
  refine ⟨?_, ?_, h.chain⟩
  · rw [hn]
    exact h.assigned
  · rw [hq]
    exact h.last

theorem Recorded.call (h : Recorded q calls) (hn : q'.nice = q.nice)
    (hq : q'.queue = (assignedLevel q).val) :
    Recorded q' (calls ++ [(q, assignedLevel q)]) := by
  refine ⟨?_, by simp [hq], ?_⟩
  · intro c hc
    rw [hn]
    rcases List.mem_append.mp hc with hc | hc
    · exact h.assigned c hc
    · obtain rfl := List.mem_singleton.mp hc
      exact ⟨rfl, rfl⟩
  · refine List.isChain_append.mpr ⟨h.chain, List.isChain_singleton _, ?_⟩
    intro c hc d hd
    obtain rfl : (q, assignedLevel q) = d := by simpa using hd
    exact h.last c hc

/-- The levels never go up, exactly when no call but the last one demotes the process. -/
theorem Recorded.pairwise_iff (h : Recorded q calls) :
    calls.Pairwise (fun c d => c.2 ≤ d.2) ↔ ∀ c ∈ calls.dropLast, ¬ Demotes c.1 := by
  constructor
  · intro hmono c hc hdem
    obtain ⟨xs, ys, hsplit⟩ := List.append_of_mem hc
    have hne : calls ≠ [] := by
      rintro rfl
      simp at hc
    have hcalls := List.dropLast_append_getLast hne
    rw [hsplit, List.append_assoc, List.cons_append] at hcalls
    obtain ⟨d, zs, hrest⟩ : ∃ d zs, ys ++ [calls.getLast hne] = d :: zs :=
      List.exists_cons_of_ne_nil (by simp)
    rw [hrest] at hcalls
    -- The next call `d` finds the lower queue recorded, so it returns to the nice level.
    rw [← hcalls] at hmono h
    have hle : c.2 ≤ d.2 :=
      (List.pairwise_cons.mp (List.pairwise_append.mp hmono).2.1).1 d (by simp)
    have hqueue : d.1.queue = c.2.val := by
      have hchain := (List.isChain_append.mp h.chain).2.1
      exact (List.isChain_cons_cons.mp hchain).1
    obtain ⟨hc2, hcn⟩ := h.assigned c (by simp)
    obtain ⟨hd2, hdn⟩ := h.assigned d (by simp)
    have hlt := niceLevel_lt_of_demotes hdem
    rw [hcn, ← hdn, ← hc2] at hlt
    have hback : assignedLevel d.1 = niceLevel d.1.nice := by
      refine assignedLevel_of_below ?_ ?_
      · rw [hqueue]
        exact_mod_cast hlt
      · rw [hdn, ← hcn]
        exact hdem.1
    rw [hd2, hback] at hle
    exact absurd hlt (not_lt.mpr hle)
  · intro hall
    refine History.pairwise_of_dropLast ?_
    intro c hc d hd
    obtain ⟨hc2, hcn⟩ := h.assigned c (List.mem_of_mem_dropLast hc)
    obtain ⟨hd2, hdn⟩ := h.assigned d hd
    rw [hc2, hd2, assignedLevel_of_not_demotes (hall c hc), hcn, ← hdn]
    exact niceLevel_le_assignedLevel d.1

/-! ## Every run keeps the record -/

/-- The calls since the last boost match the records of the processes. -/
def AllRecorded (k : Kernel) : Prop := ∀ p, Recorded (k.proc p) (enqueueCalls p k.trace)

theorem AllRecorded.congr (h : AllRecorded k) (htr : k'.trace = k.trace)
    (hn : ∀ y, (k'.proc y).nice = (k.proc y).nice)
    (hq : ∀ y, (k'.proc y).queue = (k.proc y).queue) : AllRecorded k' := by
  intro p
  rw [htr]
  exact (h p).congr (hn p) (hq p)

/-- An event that is no call starts over for the processes that it changes. -/
theorem AllRecorded.concat (h : AllRecorded k) {e : Event} (htr : k'.trace = k.trace ++ [e])
    (he : ∀ y calls, addCall y calls e = [] ∨
      addCall y calls e = calls ∧ (k'.proc y).nice = (k.proc y).nice ∧
        (k'.proc y).queue = (k.proc y).queue) : AllRecorded k' := by
  intro p
  rw [htr, enqueueCalls_concat]
  rcases he p (enqueueCalls p k.trace) with hnil | ⟨hsame, hn, hq⟩
  · rw [hnil]
    exact recorded_nil _
  · rw [hsame]
    exact (h p).congr hn hq

theorem AllRecorded.enqueue (h : AllRecorded k) (x : ℕ) : AllRecorded (enqueue k x) := by
  intro p
  rw [enqueue_trace, enqueueCalls_concat]
  by_cases hxp : x = p
  · subst x
    simp only [addCall, if_true]
    exact (h p).call (by simp) (by simp)
  · simp only [addCall, if_neg hxp]
    exact (h p).congr (by simp [Ne.symm hxp]) (by simp [Ne.symm hxp])

theorem AllRecorded.setProc (h : AllRecorded k) {q : Proc} (hn : q.nice = (k.proc x).nice)
    (hq : q.queue = (k.proc x).queue) : AllRecorded (k.setProc x q) := by
  refine h.congr rfl ?_ ?_
  · intro y
    by_cases hyx : y = x <;> simp [hyx, hn]
  · intro y
    by_cases hyx : y = x <;> simp [hyx, hq]

theorem AllRecorded.ensureQueue (h : AllRecorded k) : AllRecorded (ensureQueue k) :=
  h.congr (by simp) (by simp) (by simp)

theorem AllRecorded.makeRunnable (h : AllRecorded k) (x : ℕ) :
    AllRecorded (makeRunnable k x) := by
  have hready : AllRecorded (k.setProc x { k.proc x with state := .runnable }) :=
    h.setProc rfl rfl
  exact hready.ensureQueue.enqueue x

theorem AllRecorded.yield (h : AllRecorded k) (x : ℕ) : AllRecorded (yield k x) := by
  refine AllRecorded.enqueue (h.congr (by simp) ?_ ?_) x
  · intro y
    by_cases hyx : y = x <;> simp [hyx]
  · intro y
    by_cases hyx : y = x <;> simp [hyx]

theorem AllRecorded.update (h : AllRecorded k) (hu : Update k k') : AllRecorded k' := by
  cases hu with
  | start x hx hs => exact h.makeRunnable x
  | alloc x hx hs =>
    exact (h.setProc (x := x) (by simp) (by simp)).congr rfl (fun _ => rfl) (fun _ => rfl)
  | free x hx hs =>
    refine h.concat rfl fun y calls => ?_
    by_cases hyx : y = x
    · exact .inl (if_pos hyx.symm)
    · exact .inr ⟨if_neg (Ne.symm hyx), by simp [hyx]⟩
  | killed x => exact h.setProc rfl rfl
  | parent x q => exact h.setProc rfl rfl
  | initproc | log => exact h.congr rfl (fun _ => rfl) (fun _ => rfl)

theorem AllRecorded.updates (h : AllRecorded k) (hu : Updates k k') : AllRecorded k' :=
  Updates.keep (fun _ _ hu h => h.update hu) hu h

theorem AllRecorded.boostCheck (h : AllRecorded k) : AllRecorded (boostCheck k) := by
  unfold Mlfq.boostCheck
  split
  · refine priorityBoost_keep ?_ (fun k x _ hk => hk.enqueue x) ?_
    · exact h.concat rfl fun _ _ => .inl rfl
    · intro k hk
      exact hk.congr rfl (fun _ => rfl) (fun _ => rfl)
  · exact h

theorem AllRecorded.move {m m' : Machine} {a : Action} (h : AllRecorded m.kernel)
    (hm : Move a m m') : AllRecorded m'.kernel := by
  cases hm with
  | updates ha hu => exact h.updates hu
  | nice v =>
    rename_i k p
    refine h.concat rfl fun y calls => ?_
    by_cases hyp : y = p
    · exact .inl (if_pos hyp.symm)
    · exact .inr ⟨if_neg (Ne.symm hyp), by simp [assignNice, hyp]⟩
  | yield hu => exact (h.yield _).updates hu
  | block ha chan status s hs hbefore hafter =>
    exact AllRecorded.updates ((h.updates hbefore).setProc (by simp) (by simp)) hafter
  | idle hnone => exact h.boostCheck
  | dispatch hfirst =>
    rename_i k x
    have hrun : AllRecorded (markRunning (unlinkProc (Mlfq.boostCheck k) x) x) := by
      refine h.boostCheck.concat (e := .dispatch x) rfl fun y calls => .inr ⟨rfl, ?_⟩
      by_cases hyx : y = x <;> simp [markRunning, unlinkProc, hyx]
    exact hrun.setProc rfl rfl

theorem Reachable.allRecorded {m : Machine} (h : Reachable m) : AllRecorded m.kernel := by
  obtain ⟨s, ⟨mem, k, hk, rfl⟩, hreach⟩ := h
  refine hreach.invariant (I := fun m => AllRecorded m.kernel) ?_
    fun _ _ _ hi _ hs => hi.move (step_move hs)
  have hboot : AllRecorded bootKernel := fun p => recorded_nil _
  exact hboot.updates (userinit_updates hk)

/-! ## A process that only computes -/

/-- The process has nice value 0 and stands as `enqueue` left it. -/
structure Standing (k : Kernel) (p : ℕ) (quanta : ℤ) (queue : Level) : Prop where
  nice : (k.proc p).nice = 0
  quanta : (k.proc p).quanta = quanta
  queue : (k.proc p).queue = queue.val

variable {quanta : ℤ} {level : Level}

theorem Standing.turn (h : Standing k p quanta level) :
    Standing (turn k p) p (assignedQuanta (yielded (k.proc p)))
      (assignedLevel (yielded (k.proc p))) := by
  refine ⟨?_, ?_, ?_⟩ <;> rw [turn_proc]
  exact h.nice

theorem Standing.rises (h : Standing k p quanta 1) (h0 : 0 ≤ quanta) (h10 : quanta < 10) :
    assignedLevel (yielded (k.proc p)) = 1 ∧ Standing (Mlfq.turn k p) p (quanta + 1) 1 := by
  have hcount : countedQuanta (yielded (k.proc p)) = quanta + 1 := by
    rw [countedQuanta, if_neg (by simp [yielded, h.nice, h.queue, niceLevel])]
    simp [yielded, h.quanta, int_of_small (x := quanta + 1) (by omega) (by omega)]
  obtain ⟨hlevel, hquanta⟩ := (assigned_of_nice_zero (yielded (k.proc p)) h.nice).1
    (by omega)
  have hturn := h.turn
  rw [hlevel, hquanta, hcount] at hturn
  exact ⟨hlevel, hturn⟩

theorem Standing.demotes (h : Standing k p 10 1) :
    assignedLevel (yielded (k.proc p)) = 2 ∧ Standing (Mlfq.turn k p) p 0 2 := by
  have hcount : countedQuanta (yielded (k.proc p)) = 11 := by
    rw [countedQuanta, if_neg (by simp [yielded, h.nice, h.queue, niceLevel])]
    simp [yielded, h.quanta, int]
  obtain ⟨hlevel, hquanta⟩ := (assigned_of_nice_zero (yielded (k.proc p)) h.nice).2
    (by omega)
  have hturn := h.turn
  rw [hlevel, hquanta] at hturn
  exact ⟨hlevel, hturn⟩

theorem Standing.returns (h : Standing k p quanta 2) :
    assignedLevel (yielded (k.proc p)) = 1 ∧ Standing (Mlfq.turn k p) p 0 1 := by
  have hcount : countedQuanta (yielded (k.proc p)) = 0 := by
    rw [countedQuanta, if_pos (by simp [yielded, h.nice, h.queue, niceLevel])]
  obtain ⟨hlevel, hquanta⟩ := (assigned_of_nice_zero (yielded (k.proc p)) h.nice).1
    (by omega)
  have hturn := h.turn
  rw [hlevel, hquanta, hcount] at hturn
  exact ⟨hlevel, hturn⟩

theorem Standing.turns {n : ℕ} (h : Standing k p quanta 1) (h0 : 0 ≤ quanta)
    (h10 : quanta + n ≤ 10) : Standing (turns k p n) p (quanta + n) 1 := by
  induction n generalizing k quanta with
  | zero => simpa [Mlfq.turns] using h
  | succ n ih =>
    push_cast at h10 ⊢
    have hrest := ih (h.rises h0 (by omega)).2 (by omega) (by omega)
    rwa [show quanta + 1 + n = quanta + (n + 1) by omega] at hrest

/-- Ten turns use up the allotment, the next one demotes the process, and the one after
it brings the process back. -/
theorem Standing.cycle (h : Standing k p 0 1) : Standing (Mlfq.turns k p 12) p 0 1 := by
  have hfull : Standing (Mlfq.turns k p 10) p 10 1 := h.turns (n := 10) (by decide) (by decide)
  exact hfull.demotes.2.returns.2

theorem Standing.cycles (h : Standing k p 0 1) (n : ℕ) :
    Standing (Mlfq.turns k p (12 * n)) p 0 1 := by
  induction n with
  | zero => exact h
  | succ n ih =>
    rw [Nat.mul_succ, turns_add]
    exact ih.cycle

theorem enqueueCalls_turn : enqueueCalls p (turn k p).trace =
    enqueueCalls p k.trace ++ [(yielded (k.proc p), assignedLevel (yielded (k.proc p)))] := by
  rw [turn_trace, enqueueCalls_concat, enqueueCalls_concat]
  simp [addCall]

/-- As long as the allotment lasts no call demotes the process. -/
theorem Standing.not_demotes {n : ℕ} (h : Standing k p quanta 1) (h0 : 0 ≤ quanta)
    (h10 : quanta + n ≤ 10) (hk : ∀ c ∈ enqueueCalls p k.trace, ¬ Demotes c.1) :
    ∀ c ∈ enqueueCalls p (Mlfq.turns k p n).trace, ¬ Demotes c.1 := by
  induction n generalizing k quanta with
  | zero => exact hk
  | succ n ih =>
    push_cast at h10
    obtain ⟨hlevel, hnext⟩ := h.rises h0 (by omega)
    refine ih hnext (by omega) (by omega) ?_
    intro c hc
    rw [enqueueCalls_turn] at hc
    rcases List.mem_append.mp hc with hc | hc
    · exact hk c hc
    · obtain rfl := List.mem_singleton.mp hc
      intro hdemotes
      have hlt := niceLevel_lt_of_demotes hdemotes
      have hone : niceLevel (yielded (k.proc p)).nice = 1 := by
        rw [show (yielded (k.proc p)).nice = 0 from h.nice]
        decide
      rw [hlevel, hone] at hlt
      exact absurd hlt (by decide)

/-- The boost leaves a process with quanta to spare on queue 1. -/
theorem Standing.priorityBoost (h : Standing k p quanta 1) (h10 : quanta ≤ 10)
    (hsolo : Solo k p) : Standing (priorityBoost k) p quanta 1 := by
  have hcount : countedQuanta (k.proc p) = quanta := by
    rw [countedQuanta, if_neg (by simp [h.nice, h.queue, niceLevel])]
    exact h.quanta
  obtain ⟨hlevel, hquanta⟩ := (assigned_of_nice_zero (k.proc p) h.nice).1 (by omega)
  rw [hsolo.priorityBoost_eq]
  refine ⟨?_, ?_, ?_⟩ <;> simp [h.nice, hquanta, hcount, hlevel]

/-! ## Main result -/

/-- In every reachable state, the levels that `enqueue` assigned to a process since the
last boost, with its nice value unchanged, never go up in priority if and only if no call
followed one that demoted the process. -/
theorem reachable_levels_pairwise_iff {m : Machine} (h : Reachable m) (p : ℕ) :
    (enqueueCalls p m.kernel.trace).Pairwise (fun c d => c.2 ≤ d.2) ↔
      ∀ c ∈ (enqueueCalls p m.kernel.trace).dropLast, ¬ Demotes c.1 :=
  (h.allRecorded p).pairwise_iff

/-- The first process has yielded eleven times, and the last call of `enqueue` has demoted
it. -/
theorem reachable_levels_pairwise_demoted : ∃ (m : Machine) (calls : List (Proc × Level))
    (last : Proc × Level), Reachable m ∧
    enqueueCalls 0 m.kernel.trace = calls ++ [last] ∧ Demotes last.1 ∧ last.2 = 2 ∧
    (enqueueCalls 0 m.kernel.trace).Pairwise (fun c d => c.2 ≤ d.2) := by
  have hstart : Standing (makeRunnable initKernel 0) 0 0 1 := ⟨rfl, rfl, rfl⟩
  have hfull : Standing (turns (makeRunnable initKernel 0) 0 10) 0 10 1 :=
    hstart.turns (n := 10) (by decide) (by decide)
  have hcalls := hstart.not_demotes (n := 10) (by decide) (by decide) (by decide)
  have hrun : exec step ⟨makeRunnable initKernel 0, none⟩
      (List.replicate 11 [.schedule, .yield]).flatten =
        some ⟨turns (makeRunnable initKernel 0) 0 11, none⟩ :=
    solo_boot.exec_turns rfl (by decide) (by decide)
  rw [turns_concat] at hrun
  generalize turns (makeRunnable initKernel 0) 0 10 = k at hfull hcalls hrun
  obtain ⟨hdown, -⟩ := hfull.demotes
  have hreach : Reachable ⟨turn k 0, none⟩ :=
    ⟨_, ⟨⟨true, true, true⟩, _, rfl, rfl⟩, reach_of_exec hrun⟩
  refine ⟨⟨turn k 0, none⟩, enqueueCalls 0 k.trace, _, hreach, enqueueCalls_turn, ?_, hdown, ?_⟩
  · by_contra hnot
    have hkept := assignedLevel_of_not_demotes hnot
    rw [hdown, show (yielded (k.proc 0)).nice = 0 from hfull.nice] at hkept
    exact absurd hkept (by decide)
  · refine (reachable_levels_pairwise_iff hreach 0).mpr ?_
    rw [enqueueCalls_turn, List.dropLast_concat]
    exact hcalls

/-- The first process yields 72 times. A boost is due after 61 of them; after ten more the
process is demoted, and the last one puts it back on queue 1. -/
theorem hog_not_pairwise : ∃ m : Machine,
    Booted ⟨makeRunnable initKernel 0, none⟩ ∧
    exec step ⟨makeRunnable initKernel 0, none⟩
      (List.replicate 72 [.schedule, .yield]).flatten = some m ∧
    m.kernel.timeSincePriorityBoost = 11 ∧
    ¬ (enqueueCalls 0 m.kernel.trace).Pairwise (fun c d => c.2 ≤ d.2) := by
  have hstart : Standing (makeRunnable initKernel 0) 0 0 1 := ⟨rfl, rfl, rfl⟩
  have hstanding : Standing (turns (makeRunnable initKernel 0) 0 61) 0 1 1 := by
    rw [turns_concat 60]
    exact ((hstart.cycles 5).rises (by decide) (by decide)).2
  have hsolo := solo_boot.turns 61
  have htime : (turns (makeRunnable initKernel 0) 0 61).timeSincePriorityBoost = 61 :=
    turns_timeSincePriorityBoost (by decide) (by decide)
  have hlog : (turns (makeRunnable initKernel 0) 0 61).isLogging = false :=
    (turns_isLogging 61).trans rfl
  have hfirst : exec step ⟨makeRunnable initKernel 0, none⟩
      (List.replicate 61 [.schedule, .yield]).flatten =
        some ⟨turns (makeRunnable initKernel 0) 0 61, none⟩ :=
    solo_boot.exec_turns rfl (by decide) (by decide)
  generalize turns (makeRunnable initKernel 0) 0 61 = k at hstanding hsolo htime hlog hfirst
  have hrest := hsolo.exec_boost_turns (n := 10) hlog (by omega) (by decide)
  have hfull : Standing (turns (priorityBoost k) 0 9) 0 10 1 :=
    (hstanding.priorityBoost (by decide) hsolo).turns (n := 9) (by decide) (by decide)
  have hage : (turns (priorityBoost k) 0 11).timeSincePriorityBoost = 11 := by
    have hzero := hsolo.priorityBoost_fields.1
    rw [turns_timeSincePriorityBoost (by omega) (by omega), hzero]
    rfl
  rw [turns_concat, turns_concat] at hrest hage
  generalize turns (priorityBoost k) 0 9 = k₁ at hrest hfull hage
  obtain ⟨hdown, hbelow⟩ := hfull.demotes
  obtain ⟨hup, -⟩ := hbelow.returns
  refine ⟨⟨turn (turn k₁ 0) 0, none⟩, ⟨⟨true, true, true⟩, _, rfl, rfl⟩, ?_, hage, ?_⟩
  · have hsplit : (List.replicate 72 [Action.schedule, Action.yield]).flatten =
        (List.replicate 61 [.schedule, .yield]).flatten ++
          (List.replicate (10 + 1) [.schedule, .yield]).flatten := by
      rw [← List.flatten_append, ← List.replicate_add]
    rw [hsplit, exec_append, hfirst, Option.bind_some, hrest]
  · intro hmono
    rw [enqueueCalls_turn, enqueueCalls_turn, List.append_assoc, hdown, hup] at hmono
    have hpair := (List.pairwise_append.mp hmono).2.1
    simp at hpair

end CS352.Mlfq
