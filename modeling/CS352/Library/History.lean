import Mathlib.Data.List.Basic
import Mathlib.Data.List.Induction

/-! # Histories

A history is the list of the events of a run, oldest first. -/

namespace CS352.History

variable {α : Type*} {P : List α → α → Prop} {tr : List α}

/-- An event of a history that grew by `x` is `x` or an earlier event. -/
theorem split_concat {x y : α} {pre post : List α} (h : tr ++ [x] = pre ++ y :: post) :
    (pre = tr ∧ y = x ∧ post = []) ∨ ∃ post', post = post' ++ [x] ∧ tr = pre ++ y :: post' := by
  rcases List.eq_nil_or_concat post with rfl | ⟨post, z, rfl⟩
  · obtain ⟨hpre, hxy⟩ := List.append_inj' h rfl
    exact Or.inl ⟨hpre.symm, (List.singleton_inj.mp hxy).symm, rfl⟩
  · have hsplit : tr ++ [x] = (pre ++ y :: post) ++ [z] := by simpa using h
    obtain ⟨htr, hxz⟩ := List.append_inj' hsplit rfl
    obtain rfl := List.singleton_inj.mp hxz
    exact Or.inr ⟨post, by simp, htr⟩

/-- Every event satisfies `P` of the events before it. -/
def Guarded (P : List α → α → Prop) (tr : List α) : Prop :=
  ∀ pre x post, tr = pre ++ x :: post → P pre x

theorem guarded_nil : Guarded P [] := by
  intro pre x post h
  simp at h

theorem Guarded.concat {x : α} (h : Guarded P tr) (hx : P tr x) : Guarded P (tr ++ [x]) := by
  intro pre y post htr
  rcases split_concat htr with ⟨rfl, rfl, -⟩ | ⟨post', -, hsplit⟩
  · exact hx
  · exact h pre y post' hsplit

/-- Events about which `P` says nothing can be appended freely. -/
theorem Guarded.append {es : List α} (h : Guarded P tr) (hes : ∀ x ∈ es, ∀ pre, P pre x) :
    Guarded P (tr ++ es) := by
  induction es using List.reverseRecOn with
  | nil => simpa using h
  | append_singleton es x ih =>
    rw [← List.append_assoc]
    have hprev : Guarded P (tr ++ es) := ih fun y hy => hes y (by simp [hy])
    exact hprev.concat (hes x (by simp) _)

theorem pairwise_of_dropLast {R : α → α → Prop} (h : ∀ a ∈ tr.dropLast, ∀ b ∈ tr, R a b) :
    tr.Pairwise R := by
  induction tr with
  | nil => exact .nil
  | cons a tr ih =>
    cases tr with
    | nil => exact List.pairwise_singleton R a
    | cons b tr =>
      refine List.pairwise_cons.mpr ⟨?_, ih ?_⟩
      · intro c hc
        exact h a (by simp) c (List.mem_cons_of_mem a hc)
      · intro c hc d hd
        exact h c (by simp [hc]) d (List.mem_cons_of_mem a hd)

end CS352.History
