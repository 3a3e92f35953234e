import Mathlib.Data.List.Cycle

/-! # Singly linked circular lists -/

namespace CS352.Circular

variable {ι : Type*} {next next' : ι → ι} {a b : ι} {xs ys : List ι}

/-- Following `next` visits the nodes of `xs` in order and comes back to the first. -/
def Circular (next : ι → ι) (xs : List ι) : Prop :=
  Cycle.Chain (fun x y => next x = y) (xs : Cycle ι)

theorem circular_cons : Circular next (a :: xs) ↔
    List.IsChain (fun x y => next x = y) (a :: (xs ++ [a])) := Iff.rfl

/-- A circular list may be read from any of its nodes. -/
theorem Circular.rotate (h : Circular next (xs ++ ys)) : Circular next (ys ++ xs) := by
  have heq : ((xs ++ ys : List ι) : Cycle ι) = (ys ++ xs : List ι) :=
    Cycle.coe_eq_coe.mpr List.isRotated_append
  unfold Circular at h
  rwa [heq] at h

theorem Circular.next_eq (h : Circular next (xs ++ a :: b :: ys)) : next a = b := by
  have hrotate : Circular next (a :: (b :: ys ++ xs)) := h.rotate
  exact (List.isChain_cons_cons.mp (circular_cons.mp hrotate)).1

/-- The last node leads to the first one. -/
theorem Circular.next_last (h : Circular next (b :: xs ++ [a])) : next a = b := by
  have hrotate : Circular next ([a] ++ (b :: xs)) := h.rotate
  exact (List.isChain_cons_cons.mp (circular_cons.mp hrotate)).1

/-- The nodes in which two functions agree are linked alike. -/
theorem isChain_congr (zs : List ι) (h : List.IsChain (fun x y => next x = y) (zs ++ [a]))
    (hsame : ∀ x ∈ zs, next' x = next x) : List.IsChain (fun x y => next' x = y) (zs ++ [a]) := by
  induction zs with
  | nil => exact List.isChain_singleton a
  | cons z zs ih =>
    obtain ⟨hz, hrest⟩ := List.isChain_cons.mp h
    refine List.isChain_cons.mpr ⟨?_, ih hrest fun x hx => hsame x (List.mem_cons_of_mem z hx)⟩
    intro y hy
    rw [hsame z (List.mem_cons_self ..)]
    exact hz y hy

/-- The nodes of `mid` behind `a` are replaced by those of `mid'`, which lead to the same node. -/
theorem Circular.splice {mid mid' : List ι} (h : Circular next (xs ++ a :: (mid ++ ys)))
    (hsame : ∀ x ∈ ys ++ xs, next' x = next x)
    (hnew : ∀ b, List.IsChain (fun x y => next x = y) (a :: (mid ++ [b])) →
      List.IsChain (fun x y => next' x = y) (a :: (mid' ++ [b]))) :
    Circular next' (xs ++ a :: (mid' ++ ys)) := by
  have hold : Circular next (a :: (mid ++ (ys ++ xs))) := by
    simpa using h.rotate
  obtain ⟨b, zs, hzs⟩ : ∃ b zs, ys ++ xs ++ [a] = b :: zs :=
    List.exists_cons_of_ne_nil (by simp)
  have hchain := circular_cons.mp hold
  rw [List.append_assoc, hzs, ← List.cons_append, List.isChain_split] at hchain
  have htail : List.IsChain (fun x y => next' x = y) (b :: zs) := by
    rw [← hzs]
    exact isChain_congr _ (hzs ▸ hchain.2) hsame
  have hcircular : Circular next' (a :: (mid' ++ (ys ++ xs))) := by
    refine circular_cons.mpr ?_
    rw [List.append_assoc, hzs, ← List.cons_append, List.isChain_split]
    exact ⟨hnew b hchain.1, htail⟩
  have hrotate : Circular next' ((a :: (mid' ++ ys)) ++ xs) := by simpa using hcircular
  exact hrotate.rotate

end CS352.Circular
