import CS352.Library.Circular
import CS352.Library.Tiling
import CS352.Model.Umalloc
import Mathlib.Data.List.Perm.Subperm

/-! # The free list

The free blocks form a circular list in the order of their addresses that starts at `base`. No
two of them are adjacent, since `free` joins those that are. -/

namespace CS352.Umalloc

open Circular Tiling

/-! ## Headers -/

section Headers

variable (h : Heap) (p q n x : ℕ)

@[simp] theorem setPtr_ptr : (h.setPtr p q).ptr x = if x = p then q else h.ptr x := by
  by_cases hx : x = p <;> simp [Heap.setPtr, Heap.ptr, hx]

@[simp] theorem setPtr_size : (h.setPtr p q).size x = h.size x := by
  by_cases hx : x = p <;> simp [Heap.setPtr, Heap.size, hx]

@[simp] theorem setSize_ptr : (h.setSize p n).ptr x = h.ptr x := by
  by_cases hx : x = p <;> simp [Heap.setSize, Heap.ptr, hx]

@[simp] theorem setSize_size : (h.setSize p n).size x = if x = p then n else h.size x := by
  by_cases hx : x = p <;> simp [Heap.setSize, Heap.size, hx]

theorem setPtr_mem (hx : x ≠ p) : (h.setPtr p q).mem x = h.mem x := Function.update_of_ne hx ..

theorem setSize_mem (hx : x ≠ p) : (h.setSize p n).mem x = h.mem x := Function.update_of_ne hx ..

end Headers

/-! ## The list -/

/-- The free blocks are at the addresses of `fs`. -/
structure FreeList (base : ℕ) (h : Heap) (fs : List ℕ) : Prop where
  circular : Circular h.ptr (base :: fs)
  sorted : (base :: fs).Pairwise fun a b => a + h.size a < b
  base_size : h.size base = 0
  pos : ∀ a ∈ fs, 0 < h.size a

variable {base bp n p : ℕ} {h : Heap} {fs l r : List ℕ}

/-- The last node of a sorted list below `b`. -/
theorem exists_pred {x b : ℕ} {xs : List ℕ} (hsorted : (x :: xs).Pairwise (· < ·)) (hx : x < b)
    (hb : b ∉ xs) : ∃ l p r, x :: xs = l ++ p :: r ∧ p < b ∧ ∀ y ∈ r, b < y := by
  induction xs generalizing x with
  | nil => exact ⟨[], x, [], rfl, hx, by simp⟩
  | cons y ys ih =>
    obtain ⟨hxy, hys⟩ := List.pairwise_cons.mp hsorted
    rcases lt_trichotomy y b with hlt | heq | hgt
    · obtain ⟨l, p, r, heq, hp, hr⟩ := ih hys hlt fun hmem => hb (List.mem_cons_of_mem y hmem)
      exact ⟨x :: l, p, r, by rw [heq]; rfl, hp, hr⟩
    · exact absurd (heq ▸ List.mem_cons_self ..) hb
    · refine ⟨[], x, y :: ys, rfl, hx, ?_⟩
      intro z hz
      rcases List.mem_cons.mp hz with rfl | hz
      · exact hgt
      · exact hgt.trans ((List.pairwise_cons.mp hys).1 z hz)

namespace FreeList

theorem lt (hl : FreeList base h fs) : (base :: fs).Pairwise (· < ·) :=
  hl.sorted.imp fun hab => by omega

theorem nodup (hl : FreeList base h fs) : (base :: fs).Nodup := hl.lt.imp fun hab => hab.ne

theorem base_lt (hl : FreeList base h fs) {a : ℕ} (ha : a ∈ fs) : base < a :=
  (List.pairwise_cons.mp hl.lt).1 a ha

theorem base_le (hl : FreeList base h fs) {a : ℕ} (ha : a ∈ base :: fs) : base ≤ a := by
  rcases List.mem_cons.mp ha with rfl | ha
  · exact le_rfl
  · exact (hl.base_lt ha).le

/-- A node leads to the next one, and the last one to `base`. -/
theorem ptr_cases (hl : FreeList base h fs) (hsplit : base :: fs = l ++ p :: r) :
    (∃ c r', r = c :: r' ∧ h.ptr p = c) ∨ (r = [] ∧ h.ptr p = base) := by
  have hcircular := hl.circular
  rw [hsplit] at hcircular
  cases r with
  | cons c r' => exact .inl ⟨c, r', rfl, hcircular.next_eq⟩
  | nil =>
    refine .inr ⟨rfl, ?_⟩
    cases l with
    | nil =>
      cases hsplit
      exact (List.isChain_cons_cons.mp (circular_cons.mp hcircular)).1
    | cons b l =>
      cases hsplit
      exact hcircular.next_last

end FreeList

/-! ## The search in `free` -/

/-- The loop of `free` ends at `p`. -/
def Stops (h : Heap) (bp p : ℕ) : Prop :=
  (bp > p ∧ bp < h.ptr p) ∨ (p ≥ h.ptr p ∧ (bp > p ∨ bp < h.ptr p))

/-- The loop goes along the list up to the node where it ends. -/
theorem freeLoop_eq {x : ℕ} {xs : List ℕ} {fuel : ℕ}
    (hchain : List.IsChain (fun y z => h.ptr y = z) (x :: xs)) (hp : p ∈ x :: xs)
    (hstops : ∀ y ∈ x :: xs, Stops h bp y ↔ y = p) (hfuel : xs.length < fuel) :
    freeLoop h bp fuel x = some p := by
  induction xs generalizing x fuel with
  | nil =>
    obtain rfl : p = x := by simpa using hp
    obtain ⟨fuel, rfl⟩ := Nat.exists_eq_succ_of_ne_zero (by omega : fuel ≠ 0)
    have hstop : Stops h bp p := (hstops p (by simp)).mpr rfl
    unfold freeLoop
    split_ifs with hfirst hsecond
    · rfl
    · rfl
    · exact absurd hstop (not_or.mpr ⟨hfirst, hsecond⟩)
  | cons y ys ih =>
    obtain ⟨fuel, rfl⟩ := Nat.exists_eq_succ_of_ne_zero (by omega : fuel ≠ 0)
    obtain ⟨hnext, hrest⟩ := List.isChain_cons_cons.mp hchain
    have hstop := hstops x (by simp)
    unfold freeLoop
    split_ifs with hfirst hsecond
    · rw [hstop.mp (.inl hfirst)]
    · rw [hstop.mp (.inr hsecond)]
    · have hne : p ≠ x := by
        rintro rfl
        exact not_or.mpr ⟨hfirst, hsecond⟩ (hstop.mpr rfl)
      have hmem : p ∈ y :: ys := by simpa [hne] using hp
      rw [hnext]
      exact ih hrest hmem (fun z hz => hstops z (List.mem_cons_of_mem x hz))
        (by simpa using hfuel)

theorem FreeList.stops_iff (hl : FreeList base h fs) (hsplit : base :: fs = l ++ p :: r)
    (hp : p < bp) (hr : ∀ y ∈ r, bp < y) {y : ℕ} (hy : y ∈ base :: fs) :
    Stops h bp y ↔ y = p := by
  have hlt := hl.lt
  rw [hsplit, List.pairwise_append] at hlt
  obtain ⟨hl₁, hpr, hcross⟩ := hlt
  have hbase := hl.base_le (show p ∈ base :: fs by rw [hsplit]; simp)
  constructor
  · intro hstop
    by_contra hne
    rw [hsplit] at hy
    simp only [List.mem_append, List.mem_cons, hne, false_or] at hy
    rcases hy with hy | hy
    · -- A node before `p` leads to one that is not behind `bp`.
      obtain ⟨l₁, l₂, rfl⟩ := List.append_of_mem hy
      have hsplit' : base :: fs = l₁ ++ y :: (l₂ ++ p :: r) := by simpa using hsplit
      have hyp := hcross y (by simp) p (by simp)
      rcases hl.ptr_cases hsplit' with ⟨c, r', hc, hptr⟩ | ⟨hnil, -⟩
      · have hcp : c ≤ p := by
          cases l₂ with
          | nil =>
            cases hc
            exact le_rfl
          | cons z l₂ =>
            cases hc
            exact (hcross c (by simp) p (by simp)).le
        have hyc : y < c := by
          have hsorted := hl.lt
          rw [hsplit', hc] at hsorted
          exact (List.pairwise_cons.mp (List.pairwise_append.mp hsorted).2.1).1 c (by simp)
        unfold Stops at hstop
        omega
      · simp at hnil
    · -- A node behind `bp` leads to one behind it, or back to `base`.
      obtain ⟨r₁, r₂, rfl⟩ := List.append_of_mem hy
      have hsplit' : base :: fs = (l ++ p :: r₁) ++ y :: r₂ := by simpa using hsplit
      have hbp := hr y hy
      unfold Stops at hstop
      rcases hl.ptr_cases hsplit' with ⟨c, r', rfl, hptr⟩ | ⟨-, hptr⟩
      · have hyc : y < c := by
          have hsorted := hl.lt
          rw [hsplit'] at hsorted
          exact (List.pairwise_cons.mp (List.pairwise_append.mp hsorted).2.1).1 c (by simp)
        omega
      · omega
  · rintro rfl
    unfold Stops
    rcases hl.ptr_cases hsplit with ⟨c, r', rfl, hptr⟩ | ⟨-, hptr⟩
    · have := hr c (by simp)
      omega
    · omega

/-- The search finds the last node below the block, from wherever it starts. -/
theorem FreeList.freeLoop_eq (hl : FreeList base h fs) (hsplit : base :: fs = l ++ p :: r)
    (hp : p < bp) (hr : ∀ y ∈ r, bp < y) {f fuel : ℕ} (hf : f ∈ base :: fs)
    (hfuel : fs.length < fuel) : freeLoop h bp fuel f = some p := by
  obtain ⟨xs, ys, hfs⟩ := List.append_of_mem hf
  have hcircular := hl.circular
  rw [hfs] at hcircular
  have hchain := circular_cons.mp (show Circular h.ptr (f :: (ys ++ xs)) from hcircular.rotate)
  have hlen := congrArg List.length hfs
  simp only [List.length_cons, List.length_append] at hlen
  have hmem : ∀ y, y ∈ f :: (ys ++ xs) ↔ y ∈ base :: fs := by
    intro y
    rw [hfs]
    simp only [List.mem_cons, List.mem_append]
    tauto
  have hwalk : List.IsChain (fun y z => h.ptr y = z) (f :: (ys ++ xs)) :=
    (List.isChain_append.mp (show List.IsChain _ ((f :: (ys ++ xs)) ++ [f]) from hchain)).1
  refine Umalloc.freeLoop_eq hwalk ?_ ?_ ?_
  · exact (hmem p).mpr (by rw [hsplit]; simp)
  · exact fun y hy => hl.stops_iff hsplit hp hr ((hmem y).mp hy)
  · simp only [List.length_append]
    omega

end CS352.Umalloc
