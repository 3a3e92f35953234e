import CS352.Library.Lanes

/-! # Doubly linked rings

A ring is a lane that leads from its head back to it. -/

namespace CS352.Lanes

open Function

variable {ι : Type*} {next prev : ι → ι} {a b head p : ι} {xs ys : List ι}

theorem Linked.reverse (h : Linked next prev a xs b) : Linked prev next b xs.reverse a := by
  induction xs generalizing a with
  | nil => exact ⟨h.2, h.1⟩
  | cons x xs ih =>
    obtain ⟨hx, ha, hrest⟩ := h
    rw [List.reverse_cons]
    exact linked_concat.mpr ⟨ih hrest, ha, hx⟩

/-- Following `next` from `head` visits the nodes of `xs` once each and comes back to `head`,
and `prev` is its inverse. -/
structure Ring (next prev : ι → ι) (head : ι) (xs : List ι) : Prop where
  linked : Linked next prev head xs head
  nodup : (head :: xs).Nodup

namespace Ring

theorem head_notMem (h : Ring next prev head xs) : head ∉ xs := (List.nodup_cons.mp h.nodup).1

theorem reverse (h : Ring next prev head xs) : Ring prev next head xs.reverse := by
  refine ⟨h.linked.reverse, ?_⟩
  have hperm : List.Perm (head :: xs.reverse) (head :: xs) := (List.reverse_perm xs).cons head
  exact hperm.nodup_iff.mpr h.nodup

theorem next_ne (h : Ring next prev head (xs ++ p :: ys)) : next p ≠ p := by
  have hmem := (linked_append_cons.mp h.linked).2.next_mem
  have hnodup := h.nodup
  intro hp
  rw [hp] at hmem
  grind

variable [DecidableEq ι]

/-- The neighbours of `p` are linked to each other. -/
theorem erase (h : Ring next prev head (xs ++ p :: ys)) :
    Ring (update next (prev p) (next p)) (update prev (next p) (prev p))
      head (xs ++ ys) := by
  refine ⟨h.linked.bypass h.nodup h.head_notMem, ?_⟩
  have hnodup := h.nodup
  grind

/-- `p` is linked between the head and its successor, which is the head again if the ring was
empty. -/
theorem cons (h : Ring next prev head xs) (hp : p ∉ head :: xs) :
    Ring (update (update next p (next head)) head p)
      (update (update prev p head) (next head) p) head (p :: xs) := by
  have hne : p ≠ head := fun hph => hp (by simp [hph])
  have hhead := h.head_notMem
  refine ⟨?_, by grind [h.nodup]⟩
  cases xs with
  | nil =>
    obtain ⟨hnext, -⟩ := h.linked
    simp [hnext, hne]
  | cons x xs =>
    obtain ⟨hx, -, hrest⟩ := h.linked
    have hnodup := h.nodup
    rw [hx]
    refine ⟨by simp, ?_, ?_, ?_, hrest.congr ?_ ?_⟩
    · have hpx : p ≠ x := by grind
      simp [hpx]
    · simp [hne]
    · simp
    · intro y hy
      have hyp : y ≠ p := by grind
      have hyh : y ≠ head := by grind
      simp [hyp, hyh]
    · intro y hy
      have hyp : y ≠ p := by grind
      have hyx : y ≠ x := by grind
      simp [hyp, hyx]

end Ring

end CS352.Lanes
