import Mathlib.Data.Nat.Notation

/-! # Cyclic sweeps

A sweep goes over the indices below `n` in increasing order, again and again. -/

namespace CS352.Sweep

variable {n p i : ℕ} {Q R : ℕ → Prop}

/-- A sweep started behind `p` and has reached `i`; `Q` holds of every index that it has
passed, `p` apart. -/
inductive Swept (n p : ℕ) (Q : ℕ → Prop) (i : ℕ) : Prop where
  /-- The sweep is in the pass in which it started. -/
  | first (hi : p < i) (h : ∀ q, p < q → q < i → Q q)
  /-- The sweep is in the next pass and has not passed `p`. -/
  | second (hi : i ≤ p) (h : ∀ q < n, q < i ∨ p < q → Q q)
  /-- The sweep has passed every index. -/
  | all (h : ∀ q < n, q ≠ p → Q q)

theorem Swept.start : Swept n p Q (p + 1) :=
  .first p.lt_succ_self fun _ hq hi => absurd hi (Nat.not_lt.mpr hq)

theorem Swept.mono (h : Swept n p Q i) (hQ : ∀ q, Q q → R q) : Swept n p R i := by
  cases h with
  | first hi h => exact .first hi fun q hp hq => hQ q (h q hp hq)
  | second hi h => exact .second hi fun q hn hq => hQ q (h q hn hq)
  | all h => exact .all fun q hn hq => hQ q (h q hn hq)

/-- The sweep passes `i`. -/
theorem Swept.advance (h : Swept n p Q i) (hi : i ≠ p → Q i) : Swept n p Q (i + 1) := by
  cases h with
  | first hp h =>
    refine .first (Nat.lt_succ_of_lt hp) ?_
    intro q hpq hq
    rcases Nat.lt_succ_iff_lt_or_eq.mp hq with hq | rfl
    · exact h q hpq hq
    · exact hi (Nat.ne_of_gt hp)
  | second hp h =>
    rcases Nat.lt_or_eq_of_le hp with hlt | rfl
    · refine .second hlt ?_
      rintro q hn (hq | hq)
      · rcases Nat.lt_succ_iff_lt_or_eq.mp hq with hq | rfl
        · exact h q hn (.inl hq)
        · exact hi (Nat.ne_of_lt hlt)
      · exact h q hn (.inr hq)
    · exact .all fun q hn hq => h q hn (Nat.lt_or_gt_of_ne hq)
  | all h => exact .all h

/-- A pass ends and the next one starts. -/
theorem Swept.wrap (h : Swept n p Q i) (hi : n ≤ i) : Swept n p Q 0 := by
  cases h with
  | first hp h =>
    refine .second (Nat.zero_le p) ?_
    rintro q hn (hq | hq)
    · exact absurd hq (Nat.not_lt_zero q)
    · exact h q hq (Nat.lt_of_lt_of_le hn hi)
  | second hp h =>
    refine .second (Nat.zero_le p) ?_
    intro q hn _
    exact h q hn (.inl (Nat.lt_of_lt_of_le hn hi))
  | all h => exact .all h

/-- When the sweep is back at `p`, it has passed every other index. -/
theorem Swept.back (h : Swept n p Q p) {q : ℕ} (hn : q < n) (hq : q ≠ p) : Q q := by
  cases h with
  | first hp h => exact absurd hp (Nat.lt_irrefl p)
  | second hp h => exact h q hn (Nat.lt_or_gt_of_ne hq)
  | all h => exact h q hn hq

end CS352.Sweep
