import Mathlib.Logic.Function.Basic

/-! # Ownership of resources

Resources of type `β` are marked as used or free, and places of type `π` hold them. The
resources of interest are those in `dom`. -/

namespace CS352.Ownership

open Function

variable {β π : Type*} {dom : β → Prop} {used used' : β → Bool} {held held' : π → Option β}

/-- A resource is in use exactly if a place holds it, and no two places hold the same one. -/
structure Owns (dom : β → Prop) (used : β → Bool) (held : π → Option β) : Prop where
  inDom : ∀ {p b}, held p = some b → dom b
  marked : ∀ {p b}, held p = some b → used b = true
  kept : ∀ {b}, dom b → used b = true → ∃ p, held p = some b
  once : ∀ {p q b}, held p = some b → held q = some b → p = q

namespace Owns

theorem used_iff (h : Owns dom used held) {b : β} (hb : dom b) :
    used b = true ↔ ∃! p, held p = some b := by
  constructor
  · intro hused
    obtain ⟨p, hp⟩ := h.kept hb hused
    exact ⟨p, hp, fun q hq => h.once hq hp⟩
  · intro hex
    obtain ⟨p, hp, -⟩ := hex
    exact h.marked hp

/-- The converse of `used_iff`, for places that hold resources of the domain only. -/
theorem of_used_iff (hdom : ∀ p b, held p = some b → dom b)
    (h : ∀ b, dom b → (used b = true ↔ ∃ p, held p = some b))
    (honce : ∀ p q b, held p = some b → held q = some b → p = q) : Owns dom used held where
  inDom := hdom _ _
  marked hp := (h _ (hdom _ _ hp)).mpr ⟨_, hp⟩
  kept hb hused := (h _ hb).mp hused
  once hp hq := honce _ _ _ hp hq

theorem ne_of_free (h : Owns dom used held) {p : π} {b c : β} (hp : held p = some b)
    (hc : used c = false) : b ≠ c := by
  intro hbc
  subst hbc
  simp [h.marked hp] at hc

/-- An empty place takes a free resource. -/
theorem fill [DecidableEq β] [DecidableEq π] (h : Owns dom used held) {p : π} {b : β}
    (hdom : dom b) (hfree : used b = false) (hp : held p = none) :
    Owns dom (update used b true) (update held p (some b)) where
  inDom := by
    intro q c hq
    by_cases hqp : q = p
    · subst hqp
      simp only [update_self, Option.some.injEq] at hq
      exact hq ▸ hdom
    · rw [update_of_ne hqp] at hq
      exact h.inDom hq
  marked := by
    intro q c hq
    by_cases hcb : c = b
    · simp [hcb]
    · rw [update_of_ne hcb]
      by_cases hqp : q = p
      · subst hqp
        simp only [update_self, Option.some.injEq] at hq
        exact absurd hq.symm hcb
      · rw [update_of_ne hqp] at hq
        exact h.marked hq
  kept := by
    intro c hc hused
    by_cases hcb : c = b
    · exact ⟨p, by simp [hcb]⟩
    · rw [update_of_ne hcb] at hused
      obtain ⟨q, hq⟩ := h.kept hc hused
      have hqp : q ≠ p := by
        intro hqp
        simp [hqp, hp] at hq
      exact ⟨q, by rw [update_of_ne hqp, hq]⟩
  once := by
    intro q r c hq hr
    by_cases hqp : q = p <;> by_cases hrp : r = p
    · rw [hqp, hrp]
    · rw [hqp, update_self] at hq
      rw [update_of_ne hrp] at hr
      exact absurd (Option.some.inj hq).symm (h.ne_of_free hr hfree)
    · rw [update_of_ne hqp] at hq
      rw [hrp, update_self] at hr
      exact absurd (Option.some.inj hr).symm (h.ne_of_free hq hfree)
    · rw [update_of_ne hqp] at hq
      rw [update_of_ne hrp] at hr
      exact h.once hq hr

/-- The places in `S` give up what they hold. -/
theorem release (h : Owns dom used held) (S : π → Prop)
    (hout : ∀ p, S p → held' p = none) (hin : ∀ p, ¬ S p → held' p = held p)
    (hused : ∀ b, used' b = true ↔ used b = true ∧ ∀ p, S p → held p ≠ some b) :
    Owns dom used' held' := by
  have hold : ∀ {p b}, held' p = some b → ¬ S p ∧ held p = some b := by
    intro p b hp
    have hS : ¬ S p := by
      intro hS
      simp [hout p hS] at hp
    exact ⟨hS, hin p hS ▸ hp⟩
  refine ⟨fun hp => h.inDom (hold hp).2, ?_, ?_, fun hp hq => h.once (hold hp).2 (hold hq).2⟩
  · intro p b hp
    refine (hused b).mpr ⟨h.marked (hold hp).2, ?_⟩
    intro q hq hqb
    exact (hold hp).1 (h.once hqb (hold hp).2 ▸ hq)
  · intro b hb hub
    obtain ⟨hub, hnot⟩ := (hused b).mp hub
    obtain ⟨p, hp⟩ := h.kept hb hub
    have hS : ¬ S p := fun hS => hnot p hS hp
    exact ⟨p, (hin p hS).trans hp⟩

end Owns

end CS352.Ownership
