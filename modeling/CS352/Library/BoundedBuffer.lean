import Mathlib.Algebra.BigOperators.Group.Finset.Basic
import Mathlib.Algebra.BigOperators.Group.Finset.Piecewise
import Mathlib.Algebra.Order.BigOperators.Group.Finset
import Mathlib.Data.Fintype.BigOperators

/-! # Two semaphores around a bounded buffer

Producers wait for `space`, put, and post `items`; consumers wait for `items`, take, and
post `space`. The ledger counts the threads between these points. -/

namespace CS352.BoundedBuffer

open Function

/-- `reserved` producers have waited for space and not put; `unannounced` ones have put
and not posted. `claimed` consumers have waited for an item and not taken it;
`unreturned` ones have taken it and not posted. -/
structure Ledger (cap space items length reserved unannounced claimed unreturned : ℕ) :
    Prop where
  space_eq : space + length + reserved + unreturned = cap
  items_eq : items + unannounced + claimed = length

namespace Ledger

variable {cap space items length reserved unannounced claimed unreturned : ℕ}

theorem reserve
    (h : Ledger cap (space + 1) items length reserved unannounced claimed unreturned) :
    Ledger cap space items length (reserved + 1) unannounced claimed unreturned := by
  obtain ⟨hs, hi⟩ := h
  constructor <;> omega

theorem put (h : Ledger cap space items length (reserved + 1) unannounced claimed unreturned) :
    Ledger cap space items (length + 1) reserved (unannounced + 1) claimed unreturned := by
  obtain ⟨hs, hi⟩ := h
  constructor <;> omega

theorem announce
    (h : Ledger cap space items length reserved (unannounced + 1) claimed unreturned) :
    Ledger cap space (items + 1) length reserved unannounced claimed unreturned := by
  obtain ⟨hs, hi⟩ := h
  constructor <;> omega

theorem claim (h : Ledger cap space (items + 1) length reserved unannounced claimed unreturned) :
    Ledger cap space items length reserved unannounced (claimed + 1) unreturned := by
  obtain ⟨hs, hi⟩ := h
  constructor <;> omega

theorem take
    (h : Ledger cap space items (length + 1) reserved unannounced (claimed + 1) unreturned) :
    Ledger cap space items length reserved unannounced claimed (unreturned + 1) := by
  obtain ⟨hs, hi⟩ := h
  constructor <;> omega

theorem giveBack
    (h : Ledger cap space items length reserved unannounced claimed (unreturned + 1)) :
    Ledger cap (space + 1) items length reserved unannounced claimed unreturned := by
  obtain ⟨hs, hi⟩ := h
  constructor <;> omega

/-- A producer that has reserved finds room. -/
theorem length_lt (h : Ledger cap space items length reserved unannounced claimed unreturned)
    (hr : 0 < reserved) : length < cap := by
  have := h.space_eq
  omega

/-- A consumer that has claimed finds an item. -/
theorem length_pos (h : Ledger cap space items length reserved unannounced claimed unreturned)
    (hc : 0 < claimed) : 0 < length := by
  have := h.items_eq
  omega

/-- A buffer with no announced item and no thread on its way is empty. -/
theorem idle (h : Ledger cap space 0 length 0 0 0 0) : length = 0 ∧ space = cap := by
  obtain ⟨hs, hi⟩ := h
  omega

end Ledger

/-- Moving one thread changes a count over all threads by the difference at that
thread. -/
theorem sum_update {ι β : Type*} [Fintype ι] [DecidableEq ι] (f : β → ℕ) (g : ι → β) (i : ι)
    (v : β) :
    ∑ j, f (update g i v j) + f (g i) = ∑ j, f (g j) + f v := by
  have hupd : ∀ j, f (update g i v j) = update (fun j => f (g j)) i (f v) j := by
    intro j
    by_cases hj : j = i
    · simp [hj]
    · simp [hj]
  have hrest := Finset.add_sum_erase Finset.univ (fun j => f (g j)) (Finset.mem_univ i)
  rw [Finset.sum_congr rfl fun j _ => hupd j, Finset.sum_update_of_mem (Finset.mem_univ i),
    Finset.sdiff_singleton_eq_erase]
  omega

theorem le_sum {ι β : Type*} [Fintype ι] (f : β → ℕ) (g : ι → β) (i : ι) :
    f (g i) ≤ ∑ j, f (g j) :=
  Finset.single_le_sum (f := fun j => f (g j)) (fun _ _ => Nat.zero_le _) (Finset.mem_univ i)

end CS352.BoundedBuffer
