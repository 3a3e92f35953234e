import Mathlib.Data.List.Destutter

/-! # A log that skips repetitions

A recorder keeps at most `cap` entries and takes a new one only if it stands in `R` to the
entry recorded last. What it holds is a prefix of the history without its repetitions, as
`List.destutter` removes them. -/

namespace CS352.Recorder

variable {α : Type*} {R : α → α → Prop} [DecidableRel R]

/-- The log after `x` was offered to it. -/
def record (R : α → α → Prop) [DecidableRel R] (cap : ℕ) (log : List α) (x : α) : List α :=
  if (∀ y ∈ log.getLast?, R y x) ∧ log.length < cap then log ++ [x] else log

theorem destutter'_concat (a : α) (l : List α) (x : α) :
    (l ++ [x]).destutter' R a =
      if ∀ y ∈ (l.destutter' R a).getLast?, R y x then l.destutter' R a ++ [x]
      else l.destutter' R a := by
  induction l generalizing a with
  | nil => by_cases h : R a x <;> simp [h]
  | cons b l ih =>
    by_cases h : R a b
    · have hlast : (a :: l.destutter' R b).getLast? = (l.destutter' R b).getLast? := by
        obtain ⟨c, cs, hcs⟩ := List.exists_cons_of_ne_nil (List.destutter'_ne_nil l R (a := b))
        simp [hcs]
      simp only [List.cons_append, List.destutter'_cons_pos _ h, ih b, hlast]
      split <;> rfl
    · simp only [List.cons_append, List.destutter'_cons_neg _ h, ih a]

/-- The entry kept last decides whether the next one is kept. -/
theorem destutter_concat (l : List α) (x : α) :
    (l ++ [x]).destutter R =
      if ∀ y ∈ (l.destutter R).getLast?, R y x then l.destutter R ++ [x] else l.destutter R := by
  cases l with
  | nil => simp
  | cons a l => exact destutter'_concat a l x

/-- A recorder that was offered a whole history holds the first `cap` entries of it
without repetitions. -/
theorem record_take_destutter (cap : ℕ) (l : List α) (x : α) :
    record R cap ((l.destutter R).take cap) x = ((l ++ [x]).destutter R).take cap := by
  rw [destutter_concat]
  by_cases hlen : (l.destutter R).length < cap
  · rw [record, List.take_of_length_le hlen.le]
    by_cases hlast : ∀ y ∈ (l.destutter R).getLast?, R y x
    · have hlen' : (l.destutter R ++ [x]).length ≤ cap := by simpa using Nat.succ_le_of_lt hlen
      rw [if_pos ⟨hlast, hlen⟩, if_pos hlast, List.take_of_length_le hlen']
    · rw [if_neg fun h => hlast h.1, if_neg hlast, List.take_of_length_le hlen.le]
  · have hfull : ¬ ((l.destutter R).take cap).length < cap := by
      rw [List.length_take, Nat.min_eq_left (Nat.le_of_not_lt hlen)]
      exact Nat.lt_irrefl cap
    rw [record, if_neg fun h => hfull h.2]
    split
    · rw [List.take_append_of_le_length (Nat.le_of_not_lt hlen)]
    · rfl

/-! ## The log in an array -/

variable {cells : ℤ → α} {n : ℤ} {x : α}

/-- The first `n` cells of an array. -/
def entries (cells : ℤ → α) (n : ℤ) : List α := (List.range n.toNat).map fun j : ℕ => cells j

@[simp] theorem length_entries : (entries cells n).length = n.toNat := by
  simp [entries]

theorem entries_update (hn : 0 ≤ n) :
    entries (Function.update cells n x) (n + 1) = entries cells n ++ [x] := by
  have hlen : (n + 1).toNat = n.toNat + 1 := by omega
  rw [entries, hlen, List.range_succ, List.map_append, entries]
  congr 1
  · refine List.map_congr_left ?_
    intro j hj
    have hne : (j : ℤ) ≠ n := by
      have := List.mem_range.mp hj
      omega
    simp [hne]
  · simp [Int.toNat_of_nonneg hn]

theorem getLast?_entries (hn : 0 < n) : (entries cells n).getLast? = some (cells (n - 1)) := by
  have hlen : n.toNat = (n - 1).toNat + 1 := by omega
  rw [entries, hlen, List.range_succ, List.map_append, List.map_singleton,
    List.getLast?_concat, Int.toNat_of_nonneg (by omega)]

/-- Writing behind the last entry, guarded as the recorder guards it. -/
theorem record_entries (cap : ℕ) (hn : 0 ≤ n) :
    record R cap (entries cells n) x =
      if (n = 0 ∨ R (cells (n - 1)) x) ∧ n < cap
      then entries (Function.update cells n x) (n + 1) else entries cells n := by
  have hlast : (∀ y ∈ (entries cells n).getLast?, R y x) ↔ n = 0 ∨ R (cells (n - 1)) x := by
    by_cases h0 : n = 0
    · simp [h0, entries]
    · have hpos : 0 < n := by omega
      simp [h0, getLast?_entries hpos]
  have hlen : (entries cells n).length < cap ↔ n < cap := by
    rw [length_entries]
    omega
  rw [record, entries_update hn]
  simp only [hlast, hlen]

end CS352.Recorder
