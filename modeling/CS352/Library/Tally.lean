import Mathlib.Algebra.GroupWithZero.Nat
import Mathlib.Algebra.Order.BigOperators.Group.Finset

/-! # Tallies

A table `f` gives every index in a finite set `I` a record, and records have weights. -/

namespace CS352.Tally

open Function

variable {ι τ : Type*} [DecidableEq ι] {I : Finset ι} {v w : τ → ℕ} {f g : ι → τ} {i j : ι} {x : τ}

/-- The sum of the weights of all records. -/
@[irreducible] def tally (I : Finset ι) (w : τ → ℕ) (f : ι → τ) : ℕ := ∑ i ∈ I, w (f i)

omit [DecidableEq ι] in
theorem tally_congr (h : ∀ i ∈ I, w (f i) = v (g i)) : tally I w f = tally I v g := by
  unfold tally
  exact Finset.sum_congr rfl h

omit [DecidableEq ι] in
theorem tally_add : tally I (fun x => v x + w x) f = tally I v f + tally I w f := by
  unfold tally
  exact Finset.sum_add_distrib

omit [DecidableEq ι] in
theorem tally_eq_zero (h : ∀ i ∈ I, w (f i) = 0) : tally I w f = 0 := by
  unfold tally
  exact Finset.sum_eq_zero h

omit [DecidableEq ι] in
theorem tally_single (hi : i ∈ I) (h : ∀ j ∈ I, j ≠ i → w (f j) = 0) :
    tally I w f = w (f i) := by
  unfold tally
  exact Finset.sum_eq_single_of_mem i hi h

theorem tally_range {f : ℕ → τ} (n : ℕ) :
    tally (Finset.range n) w f = ((List.range n).map fun i => w (f i)).sum := by
  unfold tally
  induction n with
  | zero => rfl
  | succ n ih =>
    rw [Finset.sum_range_succ, ih, List.range_succ, List.map_append, List.sum_append,
      List.map_singleton, List.sum_singleton]

omit [DecidableEq ι] in
theorem le_tally (hi : i ∈ I) : w (f i) ≤ tally I w f := by
  unfold tally
  exact Finset.single_le_sum (f := fun i => w (f i)) (fun _ _ => Nat.zero_le _) hi

omit [DecidableEq ι] in
theorem exists_of_tally_pos (h : 0 < tally I w f) : ∃ i ∈ I, 0 < w (f i) := by
  by_contra hnone
  simp only [not_exists, not_and, Nat.not_lt, Nat.le_zero] at hnone
  have hzero := tally_eq_zero hnone
  omega

omit [DecidableEq ι] in
theorem tally_le_card (h : ∀ x, w x ≤ 1) : tally I w f ≤ I.card := by
  unfold tally
  rw [Finset.card_eq_sum_ones]
  exact Finset.sum_le_sum fun i _ => h (f i)

/-- If two tallies differ only at `i`, they differ by the weights there. -/
theorem tally_exchange (hi : i ∈ I) (h : ∀ j ∈ I, j ≠ i → w (f j) = v (g j)) :
    tally I v g + w (f i) = tally I w f + v (g i) := by
  have hnew := Finset.add_sum_erase I (fun j => v (g j)) hi
  have hold := Finset.add_sum_erase I (fun j => w (f j)) hi
  have hrest : ∑ j ∈ I.erase i, w (f j) = ∑ j ∈ I.erase i, v (g j) := by
    refine Finset.sum_congr rfl ?_
    intro j hj
    exact h j (Finset.mem_of_mem_erase hj) (Finset.ne_of_mem_erase hj)
  unfold tally
  omega

/-- Replacing one record changes the tally by the difference of the two weights. -/
theorem tally_update (hi : i ∈ I) :
    tally I w (update f i x) + w (f i) = tally I w f + w x := by
  have hswap := tally_exchange (v := w) (g := update f i x) hi fun j _ hji =>
    (congrArg w (update_of_ne hji x f)).symm
  rwa [update_self] at hswap

theorem tally_update_of_notMem (hi : i ∉ I) : tally I w (update f i x) = tally I w f := by
  refine tally_congr ?_
  intro j hj
  rw [update_of_ne (ne_of_mem_of_not_mem hj hi)]

theorem add_le_tally (hi : i ∈ I) (hj : j ∈ I) (hij : i ≠ j) :
    w (f i) + w (f j) ≤ tally I w f := by
  have hsum := Finset.add_sum_erase I (fun j => w (f j)) hi
  have hle := le_tally (w := w) (f := f) (Finset.mem_erase.mpr ⟨hij.symm, hj⟩)
  unfold tally at *
  omega

end CS352.Tally
