import Mathlib.Algebra.Order.Monoid.Unbundled.Basic
import Mathlib.Data.List.Count
import Mathlib.Data.Nat.Notation

/-! # Intervals that tile

An interval is its first element and its length. A list of intervals covers an element as often
as it lies in one of them. -/

namespace CS352.Tiling

variable {u : ℕ} {b c : ℕ × ℕ} {l l' : List (ℕ × ℕ)}

def covers (u : ℕ) (b : ℕ × ℕ) : Bool := b.1 ≤ u ∧ u < b.1 + b.2

theorem covers_iff : covers u b = true ↔ b.1 ≤ u ∧ u < b.1 + b.2 := by simp [covers]

/-- How often the intervals of `l` cover `u`. -/
def cover (l : List (ℕ × ℕ)) (u : ℕ) : ℕ := l.countP (covers u)

@[simp] theorem cover_nil : cover [] u = 0 := rfl

theorem cover_cons : cover (b :: l) u = cover l u + if covers u b then 1 else 0 := by
  simp [cover, List.countP_cons]

theorem cover_append : cover (l ++ l') u = cover l u + cover l' u := by
  simp [cover, List.countP_append]

theorem cover_perm (h : l.Perm l') : cover l u = cover l' u := h.countP_eq _

theorem cover_pos_iff : 0 < cover l u ↔ ∃ b ∈ l, b.1 ≤ u ∧ u < b.1 + b.2 := by
  simp [cover, List.countP_pos_iff, covers]

/-- An interval and the two that it is cut into cover the same elements. -/
theorem covers_cut (u a m n : ℕ) :
    (if covers u (a, m) then 1 else 0) + (if covers u (a + m, n) then 1 else 0) =
      if covers u (a, m + n) then 1 else 0 := by
  have hboth : a ≤ u ∧ u < a + (m + n) ↔ (a ≤ u ∧ u < a + m) ∨ (a + m ≤ u ∧ u < a + m + n) := by
    omega
  simp only [covers_iff, hboth]
  by_cases hfirst : a ≤ u ∧ u < a + m
  · have hsecond : ¬ (a + m ≤ u ∧ u < a + m + n) := by omega
    simp [hfirst, hsecond]
  · simp [hfirst]

/-- Intervals that cover nothing twice are apart. -/
theorem apart_of_cover_le_one (h : ∀ u, cover (b :: c :: l) u ≤ 1) (hb : 0 < b.2) (hc : 0 < c.2) :
    b.1 + b.2 ≤ c.1 ∨ c.1 + c.2 ≤ b.1 := by
  by_contra hover
  have hmax := h (max b.1 c.1)
  have hcovers : covers (max b.1 c.1) b = true ∧ covers (max b.1 c.1) c = true := by
    simp only [covers_iff]
    omega
  simp only [cover_cons, hcovers, if_true] at hmax
  omega

theorem pairwise_apart (h : ∀ u, cover l u ≤ 1) (hpos : ∀ b ∈ l, 0 < b.2) :
    l.Pairwise fun b c => b.1 + b.2 ≤ c.1 ∨ c.1 + c.2 ≤ b.1 := by
  induction l with
  | nil => exact .nil
  | cons b l ih =>
    refine List.pairwise_cons.mpr ⟨?_, ih ?_ fun c hc => hpos c (List.mem_cons_of_mem b hc)⟩
    · intro c hc
      have hfirst : ∀ u, cover (b :: c :: l.erase c) u ≤ 1 := fun u => by
        rw [← cover_perm ((List.perm_cons_erase hc).cons b)]
        exact h u
      exact apart_of_cover_le_one hfirst (hpos b (by simp)) (hpos c (by simp [hc]))
    · intro u
      have := h u
      rw [cover_cons] at this
      omega

end CS352.Tiling
