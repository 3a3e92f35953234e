import Mathlib.Data.List.Basic
import Mathlib.Data.Nat.ModEq
import Mathlib.Logic.Function.Basic

/-! # Circular buffers

A buffer of `cap` cells holds a list between the index it is read from and the index it
is written to. Both indices wrap at `cap`; a full buffer has them equal. Instead of indices
a buffer may keep counters that wrap at a multiple of `cap`. -/

namespace CS352.RingBuffer

open Function

variable {α : Type*} {cap tail head : ℕ} {cells : ℕ → α} {x : α} {xs : List α}

/-- The cell `j` places after `tail`, for `tail < cap` and `j ≤ cap`. -/
def slot (cap tail j : ℕ) : ℕ := if tail + j < cap then tail + j else tail + j - cap

/-- The index after `i`. -/
def advance (cap i : ℕ) : ℕ := if i + 1 ≥ cap then 0 else i + 1

theorem slot_lt {j : ℕ} (htail : tail < cap) (hj : j ≤ cap) : slot cap tail j < cap := by
  unfold slot
  split <;> omega

theorem slot_zero (htail : tail < cap) : slot cap tail 0 = tail := by
  simp [slot, htail]

theorem slot_eq_mod {j : ℕ} (htail : tail < cap) (hj : j ≤ cap) :
    slot cap tail j = (tail + j) % cap := by
  unfold slot
  split
  · rename_i hlt
    exact (Nat.mod_eq_of_lt hlt).symm
  · rename_i hge
    rw [Nat.mod_eq_sub_mod (by omega), Nat.mod_eq_of_lt (by omega)]

theorem slot_ne {i j : ℕ} (hij : i < j) (hj : j < cap) :
    slot cap tail i ≠ slot cap tail j := by
  unfold slot
  split <;> split <;> omega

theorem advance_slot {j : ℕ} (htail : tail < cap) (hj : j < cap) :
    advance cap (slot cap tail j) = slot cap tail (j + 1) := by
  unfold advance slot
  split <;> split <;> split <;> omega

theorem slot_advance {j : ℕ} (htail : tail < cap) (hj : j < cap) :
    slot cap (advance cap tail) j = slot cap tail (j + 1) := by
  unfold advance slot
  split <;> split <;> split <;> omega

/-- Reading from `tail` up to `head` gives `xs`. -/
structure Represents (cap : ℕ) (cells : ℕ → α) (tail head : ℕ) (xs : List α) : Prop where
  tail_lt : tail < cap
  length_le : xs.length ≤ cap
  head_eq : head = slot cap tail xs.length
  cell : ∀ j (hj : j < xs.length), cells (slot cap tail j) = xs[j]

theorem Represents.head_lt (h : Represents cap cells tail head xs) : head < cap := by
  rw [h.head_eq]
  exact slot_lt h.tail_lt h.length_le

theorem represents_nil (htail : tail < cap) : Represents cap cells tail tail [] :=
  ⟨htail, by simp, (slot_zero htail).symm, by simp⟩

/-- Writing at `head` and advancing it appends, unless the buffer is full. -/
theorem Represents.push (h : Represents cap cells tail head xs) (hlen : xs.length < cap) :
    Represents cap (update cells head x) tail (advance cap head) (xs ++ [x]) := by
  refine ⟨h.tail_lt, by simp; omega, ?_, ?_⟩
  · rw [h.head_eq, advance_slot h.tail_lt hlen]
    simp
  · intro j hj
    rw [List.length_append, List.length_singleton] at hj
    by_cases hjl : j < xs.length
    · have hne : slot cap tail j ≠ head := by
        rw [h.head_eq]
        exact slot_ne hjl hlen
      rw [update_of_ne hne, h.cell j hjl, List.getElem_append_left hjl]
    · obtain rfl : j = xs.length := by omega
      rw [← h.head_eq, update_self]
      simp

/-- Reading at `tail` and advancing it takes the first element. -/
theorem Represents.pop (h : Represents cap cells tail head (x :: xs)) :
    cells tail = x ∧ Represents cap cells (advance cap tail) head xs := by
  have hlen : xs.length < cap := by
    have := h.length_le
    simp only [List.length_cons] at this
    omega
  have hfirst := h.cell 0 (by simp)
  rw [slot_zero h.tail_lt] at hfirst
  refine ⟨by simpa using hfirst, ?_, by omega, ?_, ?_⟩
  · unfold advance
    split <;> omega
  · rw [slot_advance h.tail_lt hlen]
    simpa using h.head_eq
  · intro j hj
    rw [slot_advance h.tail_lt (by omega)]
    exact h.cell (j + 1) (by simpa using hj)

/-- The represented list is what the cells from `tail` on spell out. -/
theorem Represents.eq_map (h : Represents cap cells tail head xs) :
    xs = (List.range xs.length).map fun j => cells (slot cap tail j) := by
  apply List.ext_getElem
  · simp
  · intro j hj _
    simp [h.cell j hj]

/-! ## Counters

`nread` and `nwrite` count the elements taken and put, modulo a multiple of `cap`. -/

/-- Between the counters the buffer holds `xs`. -/
structure Counts (cap modulus : ℕ) (cells : ℕ → α) (nread nwrite : ℕ) (xs : List α) : Prop where
  cap_dvd : cap ∣ modulus
  cap_lt : cap < modulus
  nread_lt : nread < modulus
  length_le : xs.length ≤ cap
  nwrite_eq : nwrite = (nread + xs.length) % modulus
  cell : ∀ j (hj : j < xs.length), cells ((nread + j) % cap) = xs[j]

variable {modulus nread nwrite : ℕ}

theorem counts_nil (hdvd : cap ∣ modulus) (hcap : cap < modulus) (hread : nread < modulus) :
    Counts cap modulus cells nread nread [] :=
  ⟨hdvd, hcap, hread, by simp, by simp [Nat.mod_eq_of_lt hread], by simp⟩

/-- The counters tell how many elements there are, also after they have wrapped. -/
theorem Counts.length_eq (h : Counts cap modulus cells nread nwrite xs) :
    (nwrite + modulus - nread) % modulus = xs.length := by
  have hread := h.nread_lt
  have hlen : xs.length < modulus := h.length_le.trans_lt h.cap_lt
  rw [h.nwrite_eq]
  rcases lt_or_ge (nread + xs.length) modulus with hlt | hge
  · have hsum : nread + xs.length + modulus - nread = xs.length + modulus := by omega
    rw [Nat.mod_eq_of_lt hlt, hsum, Nat.add_mod_right, Nat.mod_eq_of_lt hlen]
  · have hwrap : (nread + xs.length) % modulus = nread + xs.length - modulus := by
      rw [Nat.mod_eq_sub_mod hge, Nat.mod_eq_of_lt (by omega)]
    have hsum : nread + xs.length - modulus + modulus - nread = xs.length := by omega
    rw [hwrap, hsum, Nat.mod_eq_of_lt hlen]

theorem Counts.nread_eq_nwrite_iff (h : Counts cap modulus cells nread nwrite xs) :
    nread = nwrite ↔ xs = [] := by
  have hlen := h.length_eq
  have hread := h.nread_lt
  constructor
  · rintro rfl
    have hzero : (nread + modulus - nread) % modulus = 0 := by
      rw [Nat.add_sub_cancel_left, Nat.mod_self]
    exact List.length_eq_zero_iff.mp (hlen.symm.trans hzero)
  · rintro rfl
    simpa [Nat.mod_eq_of_lt hread] using h.nwrite_eq.symm

/-- The test of a writer for a full buffer. -/
theorem Counts.nwrite_eq_iff (h : Counts cap modulus cells nread nwrite xs) :
    nwrite = (nread + cap) % modulus ↔ xs.length = cap := by
  have hread := h.nread_lt
  have hle := h.length_le
  have hcap := h.cap_lt
  rw [h.nwrite_eq]
  constructor
  · intro heq
    have hmod : xs.length ≡ cap [MOD modulus] := Nat.ModEq.add_left_cancel' nread heq
    exact Nat.ModEq.eq_of_lt_of_lt hmod (by omega) hcap
  · intro heq
    rw [heq]

theorem Counts.nwrite_mod (h : Counts cap modulus cells nread nwrite xs) :
    nwrite % cap = (nread + xs.length) % cap := by
  rw [h.nwrite_eq, Nat.mod_mod_of_dvd _ h.cap_dvd]

/-- Different places of a list that fits are in different cells. -/
theorem mod_ne_of_lt {i j : ℕ} (hij : i < j) (hj : j < cap) :
    (nread + i) % cap ≠ (nread + j) % cap := by
  intro heq
  have hmod : i ≡ j [MOD cap] := Nat.ModEq.add_left_cancel' nread heq
  have := Nat.ModEq.eq_of_lt_of_lt hmod (by omega) hj
  omega

/-- The cell behind the last element can be written before the counter is advanced. -/
theorem Counts.write (h : Counts cap modulus cells nread nwrite xs) (hlen : xs.length < cap) :
    Counts cap modulus (update cells (nwrite % cap) x) nread nwrite xs := by
  refine ⟨h.cap_dvd, h.cap_lt, h.nread_lt, h.length_le, h.nwrite_eq, ?_⟩
  intro j hj
  rw [h.nwrite_mod, update_of_ne (mod_ne_of_lt hj hlen), h.cell j hj]

/-- Advancing the counter appends what the cell behind the last element holds. -/
theorem Counts.advance (h : Counts cap modulus cells nread nwrite xs) (hlen : xs.length < cap) :
    Counts cap modulus cells nread ((nwrite + 1) % modulus) (xs ++ [cells (nwrite % cap)]) := by
  refine ⟨h.cap_dvd, h.cap_lt, h.nread_lt, by simp; omega, ?_, ?_⟩
  · rw [h.nwrite_eq, Nat.mod_add_mod]
    simp [Nat.add_assoc]
  · intro j hj
    rw [List.length_append, List.length_singleton] at hj
    by_cases hjl : j < xs.length
    · rw [h.cell j hjl, List.getElem_append_left hjl]
    · obtain rfl : j = xs.length := by omega
      simp [h.nwrite_mod]

/-- A writer that finds room stores behind the last element. -/
theorem Counts.push (h : Counts cap modulus cells nread nwrite xs) (hlen : xs.length < cap) :
    Counts cap modulus (update cells (nwrite % cap) x) nread ((nwrite + 1) % modulus)
      (xs ++ [x]) := by
  simpa using (h.write (x := x) hlen).advance hlen

/-- A reader takes the first element. -/
theorem Counts.pop (h : Counts cap modulus cells nread nwrite (x :: xs)) :
    cells (nread % cap) = x ∧ Counts cap modulus cells ((nread + 1) % modulus) nwrite xs := by
  have hlen := h.length_le
  have hpos := h.cap_lt
  rw [List.length_cons] at hlen
  have hfirst : cells ((nread + 0) % cap) = x := h.cell 0 (by simp)
  refine ⟨hfirst, h.cap_dvd, h.cap_lt, ?_, by omega, ?_, ?_⟩
  · exact Nat.mod_lt _ (by omega)
  · rw [Nat.mod_add_mod, h.nwrite_eq, List.length_cons]
    congr 1
    omega
  · intro j hj
    have hcell : ((nread + 1) % modulus + j) % cap = (nread + (j + 1)) % cap := by
      have hmod : (nread + 1) % modulus ≡ nread + 1 [MOD cap] := Nat.mod_mod_of_dvd _ h.cap_dvd
      calc ((nread + 1) % modulus + j) % cap = (nread + 1 + j) % cap := hmod.add_right j
        _ = (nread + (j + 1)) % cap := by rw [Nat.add_assoc, Nat.add_comm 1 j]
    rw [hcell]
    exact h.cell (j + 1) (by simpa using hj)

/-- The first elements end at a count of their own. -/
theorem Counts.left {ys : List α} (h : Counts cap modulus cells nread nwrite (xs ++ ys)) :
    Counts cap modulus cells nread ((nread + xs.length) % modulus) xs := by
  have hle := h.length_le
  rw [List.length_append] at hle
  refine ⟨h.cap_dvd, h.cap_lt, h.nread_lt, by omega, rfl, fun j hj => ?_⟩
  rw [h.cell j (by rw [List.length_append]; omega), List.getElem_append_left hj]

/-- The other elements begin there. -/
theorem Counts.right {ys : List α} (h : Counts cap modulus cells nread nwrite (xs ++ ys)) :
    Counts cap modulus cells ((nread + xs.length) % modulus) nwrite ys := by
  induction xs generalizing nread with
  | nil => simpa [Nat.mod_eq_of_lt h.nread_lt] using h
  | cons x xs ih =>
    have hrest := ih h.pop.2
    rwa [Nat.mod_add_mod, Nat.add_assoc, Nat.add_comm 1] at hrest

theorem mod_pred {i : ℕ} (hi : i < modulus) : ((i + 1) % modulus + modulus - 1) % modulus = i := by
  rcases Nat.lt_or_ge (i + 1) modulus with hlt | hge
  · have hsum : i + 1 + modulus - 1 = i + modulus := by omega
    rw [Nat.mod_eq_of_lt hlt, hsum, Nat.add_mod_right, Nat.mod_eq_of_lt hi]
  · obtain rfl : i + 1 = modulus := by omega
    rw [Nat.mod_self, Nat.zero_add, Nat.add_sub_cancel, Nat.mod_eq_of_lt hi]

/-- A writer takes back the last element. -/
theorem Counts.unpush (h : Counts cap modulus cells nread nwrite (xs ++ [x])) :
    cells ((nwrite + modulus - 1) % modulus % cap) = x ∧
      Counts cap modulus cells nread ((nwrite + modulus - 1) % modulus) xs := by
  have hlast := h.right
  have hback : (nwrite + modulus - 1) % modulus = (nread + xs.length) % modulus := by
    rw [hlast.nwrite_eq]
    exact mod_pred hlast.nread_lt
  rw [hback]
  exact ⟨hlast.pop.1, h.left⟩

/-- The elements are what the cells spell out from `nread` on. -/
theorem Counts.eq_map (h : Counts cap modulus cells nread nwrite xs) :
    xs = (List.range xs.length).map fun j => cells ((nread + j) % cap) := by
  apply List.ext_getElem
  · simp
  · intro j hj _
    simp [h.cell j hj]

end CS352.RingBuffer
