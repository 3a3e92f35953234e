import CS352.Verification.Mlfq.Table

/-! # What `sys_nice` returns and where it leaves its caller

The call adds in 32-bit arithmetic before it clamps, and it decides with a classification
of its own whether to call `enqueue`, which may then demote the caller for quanta that it
used under another allotment. -/

namespace CS352.Mlfq

open Transition

variable {k : Kernel} {p : ℕ}

/-! ## The returned values -/

/-- The exact sum, cut off at the bounds of nice values. -/
def saturate (x : ℤ) : ℤ := max (-20) (min 19 x)

/-- The sum is an `int`. -/
def Fits (x : ℤ) : Prop := -2 ^ 31 ≤ x ∧ x < 2 ^ 31

instance (x : ℤ) : Decidable (Fits x) := inferInstanceAs (Decidable (_ ∧ _))

theorem int_of_fits {x : ℤ} (h : Fits x) : int x = x := by
  obtain ⟨hlow, hhigh⟩ := h
  rw [int, Int.bmod_eq_of_le] <;> omega

theorem clampNice_eq (nice inc : ℤ) : clampNice nice inc = saturate (int (nice + inc)) := by
  unfold clampNice saturate
  dsimp only
  split <;> split <;> omega

theorem saturate_eq_of_ge {x : ℤ} (h : 19 ≤ x) : saturate x = 19 := by
  unfold saturate
  omega

theorem saturate_eq_of_le {x : ℤ} (h : x ≤ -20) : saturate x = -20 := by
  unfold saturate
  omega

/-- A sum of a nice value and an `int` that leaves the range wraps to the other end. -/
theorem int_of_not_fits {nice inc : ℤ} (hlow : -20 ≤ nice) (hhigh : nice ≤ 19) (hinc : Fits inc)
    (h : ¬ Fits (nice + inc)) :
    (19 ≤ nice + inc ∧ int (nice + inc) ≤ -20) ∨ (nice + inc ≤ -20 ∧ 19 ≤ int (nice + inc)) := by
  obtain ⟨hinc₀, hinc₁⟩ := hinc
  rcases lt_or_ge (nice + inc) (2 ^ 31) with hlt | hge
  · right
    have hunder : nice + inc < -2 ^ 31 := by
      by_contra hcontra
      exact h ⟨not_lt.mp hcontra, hlt⟩
    have hwrap : int (nice + inc) = nice + inc + 2 ^ 32 := by
      rw [int, ← Int.add_bmod_right, Int.bmod_eq_of_le] <;> omega
    omega
  · left
    have hwrap : int (nice + inc) = nice + inc - 2 ^ 32 := by
      rw [int, ← Int.sub_bmod_right, Int.bmod_eq_of_le] <;> omega
    omega

/-- The clamped sum is the exact one if and only if the addition does not wrap. -/
theorem clampNice_eq_saturate_iff {nice inc : ℤ} (hlow : -20 ≤ nice) (hhigh : nice ≤ 19)
    (hinc : Fits inc) : clampNice nice inc = saturate (nice + inc) ↔ Fits (nice + inc) := by
  rw [clampNice_eq]
  constructor
  · intro heq
    by_contra hfits
    rcases int_of_not_fits hlow hhigh hinc hfits with ⟨hsum, hint⟩ | ⟨hsum, hint⟩
    · rw [saturate_eq_of_ge hsum, saturate_eq_of_le hint] at heq
      exact absurd heq (by decide)
    · rw [saturate_eq_of_le hsum, saturate_eq_of_ge hint] at heq
      exact absurd heq (by decide)
  · intro hfits
    rw [int_of_fits hfits]

theorem sysNice_nice (k : Kernel) (p : ℕ) (inc : ℤ) :
    ((sysNice k p inc).1.proc p).nice = clampNice (k.proc p).nice inc := by
  simp only [sysNice]
  split <;> simp [assignNice, unlinkProc]

theorem sysNice_returns (k : Kernel) (p : ℕ) (inc : ℤ) :
    (sysNice k p inc).2 = clampNice (k.proc p).nice inc :=
  sysNice_nice k p inc

/-- The values that a sequence of calls returns. -/
def niceCalls (k : Kernel) (p : ℕ) : List ℤ → List ℤ
  | [] => []
  | inc :: incs => (sysNice k p inc).2 :: niceCalls (sysNice k p inc).1 p incs

/-- The values that saturating addition gives for the same increments. -/
def saturatingSums (nice : ℤ) : List ℤ → List ℤ
  | [] => []
  | inc :: incs => saturate (nice + inc) :: saturatingSums (saturate (nice + inc)) incs

/-- None of the exact sums leaves the range of `int`. -/
def SumsFit (nice : ℤ) : List ℤ → Prop
  | [] => True
  | inc :: incs => Fits (nice + inc) ∧ SumsFit (saturate (nice + inc)) incs

theorem niceCalls_eq_iff (incs : List ℤ) (k : Kernel) (p : ℕ) (hlow : -20 ≤ (k.proc p).nice)
    (hhigh : (k.proc p).nice ≤ 19) (hincs : ∀ inc ∈ incs, Fits inc) :
    niceCalls k p incs = saturatingSums (k.proc p).nice incs ↔ SumsFit (k.proc p).nice incs := by
  induction incs generalizing k with
  | nil => simp [niceCalls, saturatingSums, SumsFit]
  | cons inc incs ih =>
    have hfirst := clampNice_eq_saturate_iff hlow hhigh (hincs inc (by simp))
    rw [niceCalls, saturatingSums, SumsFit, List.cons_eq_cons, sysNice_returns, hfirst]
    refine and_congr_right ?_
    intro hfits
    obtain ⟨hlow', hhigh'⟩ := clampNice_bounds (k.proc p).nice inc
    have hrest := ih (sysNice k p inc).1 (by rwa [sysNice_nice]) (by rwa [sysNice_nice])
      fun inc' hmem => hincs inc' (by simp [hmem])
    rwa [sysNice_nice, hfirst.mpr hfits] at hrest

/-- For every reachable nice value and every sequence of 32-bit increments, the calls return
the exact saturating sums if and only if no addition leaves the range of `int`. -/
theorem niceCalls_saturate_iff (h : TableReachable k) (p : ℕ) (incs : List ℤ)
    (hincs : ∀ inc ∈ incs, Fits inc) :
    niceCalls k p incs = saturatingSums (k.proc p).nice incs ↔ SumsFit (k.proc p).nice incs :=
  niceCalls_eq_iff incs k p (h.inv p).nice_ge (h.inv p).nice_le hincs

theorem initRunning_tableReachable : TableReachable initRunning.kernel := by
  refine tableReachable_of_machine (s := ⟨makeRunnable initKernel 0, none⟩)
    ⟨⟨true, true, true⟩, _, rfl, rfl⟩ ?_
  exact .tail (a := .inl .schedule) .refl trivial rfl

/-- Two calls that stay within range, at both ends of the nice values. -/
theorem niceCalls_saturate_initRunning :
    niceCalls initRunning.kernel 0 [2147483647, -2147483648] =
      saturatingSums (initRunning.kernel.proc 0).nice [2147483647, -2147483648] := by
  refine (niceCalls_saturate_iff initRunning_tableReachable 0 _ ?_).mpr ?_
  · decide
  · rw [initRunning_proc]
    exact ⟨by decide, by decide, trivial⟩

/-- From nice value 1 the largest increment wraps around and lowers the value to -20. -/
theorem niceCalls_wrap_initRunning :
    Reachable initRunning ∧ initRunning.cpu = some 0 ∧
      niceCalls initRunning.kernel 0 [1, 2147483647] = [1, -20] ∧
      saturatingSums (initRunning.kernel.proc 0).nice [1, 2147483647] = [1, 19] :=
  ⟨initRunning_reachable, initRunning_cpu, by decide, by decide⟩

/-! ## The level of the caller -/

/-- When `sys_nice inc` by a process with this record ends on the level of the new nice
value: not when it stays on level 1 below -10, where the call computes queue 1, and not
when it leaves level 0 for level 1 with quanta beyond the allotment there. -/
def LandsOnLevel (q : Proc) (inc : ℤ) : Prop :=
  (clampNice q.nice inc < -10 → q.queue ≠ 1) ∧
    (-10 < clampNice q.nice inc → clampNice q.nice inc ≤ 10 → q.queue = 0 → q.quanta ≤ 10)

instance (q : Proc) (inc : ℤ) : Decidable (LandsOnLevel q inc) :=
  inferInstanceAs (Decidable (_ ∧ _))

theorem tempQueue_eq_niceLevel_iff (nice : ℤ) :
    tempQueue nice = (niceLevel nice).val ↔ 10 < nice ∨ nice = -10 := by
  unfold tempQueue niceLevel
  by_cases h₁ : nice > 10
  · simp [h₁]
  · by_cases h₂ : nice > -10
    · have hle : ¬ nice < -10 := by omega
      have hge : ¬ nice ≤ -10 := by omega
      have hne : nice ≠ -10 := by omega
      simp [h₁, h₂, hle, hge, hne]
    · by_cases h₃ : nice = -10
      · simp [h₃]
      · have hlt : nice < -10 := by omega
        have hle : nice ≤ 10 := by omega
        simp [h₁, h₂, h₃, hlt, hle]

/-- The queue number after the call, by what it computes. -/
theorem sysNice_queue (k : Kernel) (p : ℕ) (inc : ℤ) :
    ((sysNice k p inc).1.proc p).queue =
      if tempQueue (clampNice (k.proc p).nice inc) = (k.proc p).queue then (k.proc p).queue
      else (assignedLevel { k.proc p with nice := clampNice (k.proc p).nice inc }).val := by
  by_cases h : tempQueue (clampNice (k.proc p).nice inc) = (k.proc p).queue
  · simp [sysNice, assignNice, h]
  · simp [sysNice, assignNice, unlinkProc, h]

theorem niceLevel_eq_zero {nice : ℤ} (h : 10 < nice) : niceLevel nice = 0 := if_pos h

theorem niceLevel_eq_one {nice : ℤ} (hlow : -10 < nice) (hhigh : nice ≤ 10) :
    niceLevel nice = 1 := by
  rw [niceLevel, if_neg (by omega), if_pos hlow]

theorem niceLevel_eq_two {nice : ℤ} (h : nice ≤ -10) : niceLevel nice = 2 := by
  rw [niceLevel, if_neg (by omega), if_neg (by omega)]

/-- Coming to level 0, the quanta never exceed the allotment. -/
theorem assignedLevel_of_gt {q : Proc} (h : InAllotment q) {nice : ℤ} (hnice : 10 < nice) :
    assignedLevel { q with nice := nice } = 0 := by
  have hlevel := niceLevel_eq_zero hnice
  obtain ⟨l, hqueue, -, hle⟩ := h
  have hnot : ¬ Exceeds { q with nice := nice } := by
    simp only [Exceeds, countedQuanta, hlevel, hqueue]
    fin_cases l <;> simp_all [allotment]
  exact (assignedLevel_of_not_exceeds hnot).trans hlevel

/-- Coming to level 1, they do if they were collected on level 0. -/
theorem assignedLevel_of_mid {q : Proc} (h : InAllotment q) {nice : ℤ} (hlow : -10 < nice)
    (hhigh : nice ≤ 10) :
    assignedLevel { q with nice := nice } = if q.queue = 0 ∧ 10 < q.quanta then 2 else 1 := by
  have hlevel := niceLevel_eq_one hlow hhigh
  obtain ⟨l, hqueue, -, hle⟩ := h
  have hexceeds : Exceeds { q with nice := nice } ↔ q.queue = 0 ∧ 10 < q.quanta := by
    simp only [Exceeds, countedQuanta, hlevel, hqueue]
    fin_cases l <;> simp_all [allotment]
  simp only [assignedLevel, hlevel, demoted, hexceeds]

/-- Level 2 is the last. -/
theorem assignedLevel_of_le {q : Proc} (h : q.nice ≤ -10) : assignedLevel q = 2 := by
  rw [assignedLevel, niceLevel_eq_two h]
  exact ite_self 2

/-- In every reachable state, for every caller and every increment: the call ends on the
level of the new nice value if and only if the caller's record permits it, and the queue
number that the call computes is that level only above 10 and at -10. -/
theorem sysNice_level_iff (h : TableReachable k) (p : ℕ) (inc : ℤ) :
    (((sysNice k p inc).1.proc p).queue = (niceLevel ((sysNice k p inc).1.proc p).nice).val ↔
      LandsOnLevel (k.proc p) inc) ∧
    (tempQueue ((sysNice k p inc).1.proc p).nice =
        (niceLevel ((sysNice k p inc).1.proc p).nice).val ↔
      10 < clampNice (k.proc p).nice inc ∨ clampNice (k.proc p).nice inc = -10) := by
  refine ⟨?_, by rw [sysNice_nice, tempQueue_eq_niceLevel_iff]⟩
  have hallot := (h.inv p).allotted
  rw [sysNice_queue, sysNice_nice]
  unfold LandsOnLevel
  generalize clampNice (k.proc p).nice inc = nice
  generalize k.proc p = q at hallot ⊢
  have hqueue : 0 ≤ q.queue := by
    obtain ⟨l, hl, -⟩ := hallot
    omega
  have hval₀ : (((0 : Level).val : ℕ) : ℤ) = 0 := rfl
  have hval₁ : (((1 : Level).val : ℕ) : ℤ) = 1 := rfl
  have hval₂ : (((2 : Level).val : ℕ) : ℤ) = 2 := rfl
  rcases lt_or_ge (-10) nice with hlow | hlow
  · rcases lt_or_ge 10 nice with hhigh | hhigh
    · have htemp : tempQueue nice = 0 := if_pos hhigh
      rw [niceLevel_eq_zero hhigh, assignedLevel_of_gt hallot hhigh, htemp]
      grind
    · have htemp : tempQueue nice = -1 := by
        rw [tempQueue, if_neg (by omega), if_neg (by omega), if_neg (by omega)]
      rw [niceLevel_eq_one hlow hhigh, assignedLevel_of_mid hallot hlow hhigh, htemp,
        if_neg (by omega)]
      grind
  · rw [niceLevel_eq_two hlow, assignedLevel_of_le (q := { q with nice := nice }) hlow]
    rcases eq_or_lt_of_le hlow with rfl | hlow
    · have htemp : tempQueue (-10) = 2 := rfl
      rw [htemp]
      grind
    · have htemp : tempQueue nice = 1 := by
        rw [tempQueue, if_neg (by omega), if_pos (by omega)]
      rw [htemp]
      grind

/-- `nice(-10)` by the first process takes it from level 1 to level 2. -/
theorem sysNice_level_initRunning :
    ((sysNice initRunning.kernel 0 (-10)).1.proc 0).queue =
      (niceLevel ((sysNice initRunning.kernel 0 (-10)).1.proc 0).nice).val :=
  (sysNice_level_iff initRunning_tableReachable 0 (-10)).1.mpr (by decide)

/-- `nice(11)` by the first process, then eleven turns on level 0. -/
def elevenTurns : List TableAction :=
  [TableAction.dispatch 0, TableAction.nice 0 11] ++
    (List.replicate 11 [TableAction.yield 0, TableAction.dispatch 0]).flatten

/-- `nice(-11)` by the first process leaves it on level 1, where nice value -11 selects level
2. Called by a process that has used eleven quanta on level 0, it drops the process to level
2, where nice value 0 selects level 1. -/
theorem sysNice_misses_level :
    (Reachable initRunning ∧ initRunning.cpu = some 0 ∧
      ((sysNice initRunning.kernel 0 (-11)).1.proc 0).queue = 1 ∧
      niceLevel ((sysNice initRunning.kernel 0 (-11)).1.proc 0).nice = 2) ∧
    ∃ k, TableReachable k ∧ (k.proc 0).state = .running ∧ (k.proc 0).queue = 0 ∧
      ((sysNice k 0 (-11)).1.proc 0).queue = 2 ∧
      niceLevel ((sysNice k 0 (-11)).1.proc 0).nice = 1 := by
  refine ⟨⟨initRunning_reachable, initRunning_cpu, by decide, by decide⟩, ?_⟩
  have hrun : (exec tableStep (makeRunnable initKernel 0) elevenTurns).map (fun k =>
      ((k.proc 0).state, (k.proc 0).queue, ((sysNice k 0 (-11)).1.proc 0).queue,
        niceLevel ((sysNice k 0 (-11)).1.proc 0).nice)) = some (.running, 0, 2, 1) := by
    decide +kernel
  obtain ⟨k, hk, hview⟩ := Option.map_eq_some_iff.mp hrun
  simp only [Prod.mk.injEq] at hview
  exact ⟨k, ⟨⟨true, true, true⟩, _, rfl, reach_of_exec hk⟩, hview⟩

end CS352.Mlfq
