import Mathlib.Logic.Basic

/-! # Data that move in and out

Each of some agents has a datum, which is in one of several places while the agent is there, and in
a store otherwise. -/

namespace CS352.Residence

variable {H A D : Type*} {place place' : H → Option A} {live live' : H → D} {stored stored' : A → D}
  {h : H} {a : A}

/-- An agent is in one place at a time. -/
def Single (place : H → Option A) : Prop :=
  ∀ h h' a, place h = some a → place h' = some a → h = h'

open Classical in
/-- The datum of an agent, wherever it is. -/
noncomputable def datum (place : H → Option A) (live : H → D) (stored : A → D) (a : A) : D :=
  if ha : ∃ h, place h = some a then live ha.choose else stored a

theorem datum_live (hplace : Single place) (hp : place h = some a) :
    datum place live stored a = live h := by
  have hex : ∃ h, place h = some a := ⟨h, hp⟩
  rw [datum, dif_pos hex, hplace _ _ a hex.choose_spec hp]

theorem datum_stored (hp : ∀ h, place h ≠ some a) : datum place live stored a = stored a :=
  dif_neg fun ⟨h, hh⟩ => hp h hh

/-- Nothing happens to an agent that stays where it is, with what it has. -/
theorem datum_congr (hs : Single place) (ht : Single place')
    (hplace : ∀ h, place' h = some a ↔ place h = some a)
    (hlive : ∀ h, place h = some a → live' h = live h) (hstored : stored' a = stored a) :
    datum place' live' stored' a = datum place live stored a := by
  by_cases hex : ∃ h, place h = some a
  · obtain ⟨h, hp⟩ := hex
    rw [datum_live ht ((hplace h).mpr hp), datum_live hs hp, hlive h hp]
  · rw [not_exists] at hex
    rw [datum_stored hex, datum_stored fun h hp => hex h ((hplace h).mp hp), hstored]

end CS352.Residence
