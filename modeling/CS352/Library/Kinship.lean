import Mathlib.Logic.Function.Basic

/-! # Families

Members have a parent, die, and are reaped after their death. When a member dies, its
children pass to the root, which never dies. -/

namespace CS352.Kinship

open Function

inductive Phase where
  | free
  | embryo
  | alive
  | dead
  deriving DecidableEq, Repr

structure Member (ι : Type*) where
  phase : Phase
  parent : Option ι

variable {ι : Type*} [DecidableEq ι] {root : ι} {f f' : ι → Member ι}

/-- The children of `x` pass to the root. -/
def disown (root x : ι) (parent : Option ι) : Option ι :=
  if parent = some x then some root else parent

/-- What happens to a family. -/
inductive Event (root : ι) (f : ι → Member ι) : (ι → Member ι) → Prop where
  | conceive (x : ι) (hx : (f x).phase = .free) :
      Event root f (update f x { f x with phase := .embryo })
  | adopt (x q : ι) (hx : (f x).phase = .embryo) (hq : (f q).phase = .alive) :
      Event root f (update f x { f x with parent := some q })
  | deliver (x : ι) (hx : (f x).phase = .embryo) (hp : (f x).parent ≠ none) :
      Event root f (update f x { f x with phase := .alive })
  | die (x : ι) (hne : x ≠ root) (hx : (f x).phase = .alive) :
      Event root f fun y =>
        ⟨if y = x then .dead else (f y).phase, disown root x (f y).parent⟩
  | reap (x : ι) (hx : (f x).phase = .dead) :
      Event root f (update f x ⟨.free, none⟩)

/-- Every parent is alive, and whoever was born, the root apart, has a parent. -/
structure Sound (root : ι) (f : ι → Member ι) : Prop where
  root_alive : (f root).phase = .alive
  parent : ∀ x q, (f x).parent = some q → (f q).phase = .alive
  free : ∀ x, (f x).phase = .free → (f x).parent = none
  born : ∀ x, x ≠ root → (f x).phase = .alive ∨ (f x).phase = .dead → (f x).parent ≠ none

/-- A new record for one member. -/
theorem Sound.update (h : Sound root f) {x : ι} {m : Member ι}
    (halive : (f x).phase = .alive → m.phase = .alive)
    (hparent : ∀ q, m.parent = some q → (f q).phase = .alive)
    (hfree : m.phase = .free → m.parent = none)
    (hborn : x ≠ root → m.phase = .alive ∨ m.phase = .dead → m.parent ≠ none) :
    Sound root (Function.update f x m) := by
  have hkeep : ∀ q, (f q).phase = .alive → (Function.update f x m q).phase = .alive := by
    intro q hq
    by_cases hqx : q = x
    · subst q
      simpa using halive hq
    · simpa [hqx] using hq
  refine ⟨hkeep root h.root_alive, ?_, ?_, ?_⟩
  · intro y q hy
    by_cases hyx : y = x
    · subst y
      exact hkeep q (hparent q (by simpa using hy))
    · exact hkeep q (h.parent y q (by simpa [hyx] using hy))
  · intro y hy
    by_cases hyx : y = x
    · subst y
      simpa using hfree (by simpa using hy)
    · simpa [hyx] using h.free y (by simpa [hyx] using hy)
  · intro y hroot hy
    by_cases hyx : y = x
    · subst y
      simpa using hborn hroot (by simpa using hy)
    · simpa [hyx] using h.born y hroot (by simpa [hyx] using hy)

theorem Sound.die (h : Sound root f) {x : ι} (hne : x ≠ root) (hx : (f x).phase = .alive) :
    Sound root fun y => ⟨if y = x then .dead else (f y).phase, disown root x (f y).parent⟩ := by
  refine ⟨by simpa [hne.symm] using h.root_alive, ?_, ?_, ?_⟩
  · intro y q hy
    dsimp only [disown] at hy ⊢
    split at hy
    · cases hy
      simpa [hne.symm] using h.root_alive
    · rename_i hyx
      have hqx : q ≠ x := by
        rintro rfl
        exact hyx hy
      simpa [hqx] using h.parent y q hy
  · intro y hy
    by_cases hyx : y = x
    · simp [hyx] at hy
    · have hnone := h.free y (by simpa [hyx] using hy)
      simp [disown, hnone]
  · intro y hroot hy
    have hborn : (f y).parent ≠ none := by
      by_cases hyx : y = x
      · subst y
        exact h.born x hne (.inl hx)
      · exact h.born y hroot (by simpa [hyx] using hy)
    dsimp only [disown]
    split
    · simp
    · exact hborn

/-- Every event keeps a family sound. -/
theorem Sound.event (h : Sound root f) (he : Event root f f') : Sound root f' := by
  cases he with
  | conceive x hx =>
    have hnone := h.free x hx
    exact h.update (by simp [hx]) (by simp [hnone]) (by simp) (by simp)
  | adopt x q hx hq =>
    refine h.update (by simp [hx]) ?_ (by simp [hx]) (by simp)
    intro q' hq'
    cases hq'
    exact hq
  | deliver x hx hp =>
    exact h.update (by simp) (h.parent x) (by simp) (fun _ _ => hp)
  | die x hne hx => exact h.die hne hx
  | reap x hx => exact h.update (by simp [hx]) (by simp) (by simp) (by simp)

end CS352.Kinship
