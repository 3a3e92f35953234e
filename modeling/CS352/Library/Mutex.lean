import Mathlib.Logic.Basic

/-! # Locks that name their holder

`holds a` says that agent `a` is at a place at which it holds the lock. -/

namespace CS352.Mutex

variable {α : Type*} {holds holds' : α → Prop} {lock lock' : Option α} {a b : α}

/-- The lock names the one agent that holds it. -/
def Owned (holds : α → Prop) (lock : Option α) : Prop := ∀ a, holds a ↔ lock = some a

theorem Owned.unique (h : Owned holds lock) (ha : holds a) (hb : holds b) : a = b :=
  Option.some.inj (((h a).mp ha).symm.trans ((h b).mp hb))

/-- What one step of agent `a` can do to the lock, by whether it holds the lock before and
after the step. -/
inductive Passes (a : α) (held held' : Prop) : Option α → Option α → Prop where
  | keep {lock : Option α} (h : held' ↔ held) : Passes a held held' lock lock
  | acquire (h : held') : Passes a held held' none (some a)
  | release {lock : Option α} (h : held) (h' : ¬ held') : Passes a held held' lock none

theorem Owned.passes (h : Owned holds lock) (hp : Passes a (holds a) (holds' a) lock lock')
    (hother : ∀ b, b ≠ a → (holds' b ↔ holds b)) : Owned holds' lock' := by
  intro b
  by_cases hb : b = a
  · subst b
    cases hp with
    | keep hkeep => exact hkeep.trans (h a)
    | acquire hnow => exact ⟨fun _ => rfl, fun _ => hnow⟩
    | release _ hnot => exact ⟨fun hnow => absurd hnow hnot, fun hnone => by cases hnone⟩
  · rw [hother b hb, h b]
    cases hp with
    | keep _ => exact Iff.rfl
    | acquire _ =>
      refine ⟨fun hnone => (by cases hnone), ?_⟩
      intro hsome
      exact absurd (Option.some.inj hsome).symm hb
    | release hold _ =>
      refine ⟨?_, fun hnone => by cases hnone⟩
      intro hsome
      exact absurd (h.unique ((h b).mpr hsome) hold) hb

theorem Owned.congr (h : Owned holds lock) (hh : ∀ b, holds' b ↔ holds b) : Owned holds' lock :=
  fun b => (hh b).trans (h b)

/-- The holder `a` passes the lock on to `b`. -/
theorem Owned.handOver (h : Owned holds lock) (ha : holds a) (hb : holds' b)
    (hother : ∀ c, c ≠ b → holds' c → holds c ∧ c ≠ a) : Owned holds' (some b) := by
  intro c
  by_cases hc : c = b
  · subst c
    exact ⟨fun _ => rfl, fun _ => hb⟩
  · refine ⟨?_, fun hsome => absurd (Option.some.inj hsome).symm hc⟩
    intro hnow
    obtain ⟨hold, hca⟩ := hother c hc hnow
    exact absurd (h.unique hold ha) hca

end CS352.Mutex
