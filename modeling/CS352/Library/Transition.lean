import Mathlib.Data.Nat.Notation
import Mathlib.Logic.Basic

/-! # Runs of a step function

A system is a partial step function `step : σ → α → Option σ`; `none` says that the
action is not enabled. Runs are finite and of any length. -/

namespace CS352.Transition

variable {σ α : Type*} {step : σ → α → Option σ} {C D : σ → α → Prop} {s t : σ}

/-- The states that runs from `s` reach when every action `a` is taken in a state `t`
with `C t a`. -/
inductive ReachWhere (step : σ → α → Option σ) (C : σ → α → Prop) (s : σ) : σ → Prop where
  | refl : ReachWhere step C s s
  | tail {t u : σ} {a : α} : ReachWhere step C s t → C t a → step t a = some u →
      ReachWhere step C s u

/-- The states that unrestricted runs from `s` reach. -/
abbrev Reach (step : σ → α → Option σ) (s : σ) : σ → Prop :=
  ReachWhere step (fun _ _ => True) s

/-- What holds initially and is kept by every permitted step holds in every state of
every such run. -/
theorem ReachWhere.invariant {I : σ → Prop} (h : ReachWhere step C s t) (hinit : I s)
    (hstep : ∀ u a v, I u → C u a → step u a = some v → I v) : I t := by
  induction h with
  | refl => exact hinit
  | tail _ hc hs ih => exact hstep _ _ _ ih hc hs

theorem ReachWhere.mono (h : ReachWhere step C s t) (hcd : ∀ u a, C u a → D u a) :
    ReachWhere step D s t := by
  induction h with
  | refl => exact .refl
  | tail _ hc hs ih => exact .tail ih (hcd _ _ hc) hs

theorem ReachWhere.trans {u : σ} (h : ReachWhere step C s t) (h' : ReachWhere step C t u) :
    ReachWhere step C s u := by
  induction h' with
  | refl => exact h
  | tail _ hc hs ih => exact .tail ih hc hs

/-- The run that takes the given actions in order, if all of them are enabled. -/
def exec (step : σ → α → Option σ) : σ → List α → Option σ
  | s, [] => some s
  | s, a :: as => (step s a).bind fun t => exec step t as

theorem exec_append (s : σ) (as bs : List α) :
    exec step s (as ++ bs) = (exec step s as).bind fun t => exec step t bs := by
  induction as generalizing s with
  | nil => rfl
  | cons a as ih => simp [exec, ih, Option.bind_assoc]

/-- A block of actions that takes each `f j` to `f (j + 1)`, done `n` times. -/
theorem exec_replicate {f : ℕ → σ} {as : List α} {n : ℕ}
    (h : ∀ j < n, exec step (f j) as = some (f (j + 1))) :
    exec step (f 0) (List.replicate n as).flatten = some (f n) := by
  induction n with
  | zero => rfl
  | succ n ih =>
    have hprev := ih fun j hj => h j (Nat.lt_succ_of_lt hj)
    rw [List.replicate_succ', List.flatten_append, exec_append, hprev]
    simpa using h n n.lt_succ_self

theorem reachWhere_of_exec [∀ s a, Decidable (C s a)] {as : List α}
    (h : exec (fun s a => if C s a then step s a else none) s as = some t) :
    ReachWhere step C s t := by
  induction as generalizing s with
  | nil =>
    cases h
    exact .refl
  | cons a as ih =>
    obtain ⟨u, hu, hrest⟩ := Option.bind_eq_some_iff.mp h
    obtain ⟨hc, hstep⟩ := Option.ite_none_right_eq_some.mp hu
    exact ReachWhere.trans (.tail .refl hc hstep) (ih hrest)

theorem reach_of_exec {as : List α} (h : exec step s as = some t) : Reach step s t := by
  have hall : exec (fun s a => if True then step s a else none) s as = some t := by simpa using h
  exact reachWhere_of_exec hall

/-- Every action of the run is taken in a state in which `C` permits it. -/
def Along (step : σ → α → Option σ) (C : σ → α → Prop) : σ → List α → Prop
  | _, [] => True
  | s, a :: as => C s a ∧ ∀ t, step s a = some t → Along step C t as

theorem Along.mono {as : List α} (h : Along step C s as) (hcd : ∀ u a, C u a → D u a) :
    Along step D s as := by
  induction as generalizing s with
  | nil => trivial
  | cons a as ih => exact ⟨hcd s a h.1, fun t ht => ih (h.2 t ht)⟩

theorem Along.and {as : List α} (h : Along step C s as) (h' : Along step D s as) :
    Along step (fun t a => C t a ∧ D t a) s as := by
  induction as generalizing s with
  | nil => trivial
  | cons a as ih => exact ⟨⟨h.1, h'.1⟩, fun t ht => ih (h.2 t ht) (h'.2 t ht)⟩

theorem Along.append {as bs : List α} (h : Along step C s as) (hrun : exec step s as = some t)
    (h' : Along step C t bs) : Along step C s (as ++ bs) := by
  induction as generalizing s with
  | nil =>
    cases hrun
    exact h'
  | cons a as ih =>
    obtain ⟨u, hu, hrest⟩ := Option.bind_eq_some_iff.mp hrun
    refine ⟨h.1, ?_⟩
    intro v hv
    cases hu.symm.trans hv
    exact ih (h.2 u hu) hrest

theorem along_of_forall {as : List α} (h : ∀ a ∈ as, ∀ u, C u a) : Along step C s as := by
  induction as generalizing s with
  | nil => trivial
  | cons a as ih => exact ⟨h a (by simp) s, fun t _ => ih fun b hb => h b (by simp [hb])⟩

theorem reachWhere_of_along {as : List α} (h : exec step s as = some t)
    (hc : Along step C s as) : ReachWhere step C s t := by
  induction as generalizing s with
  | nil =>
    cases h
    exact .refl
  | cons a as ih =>
    obtain ⟨u, hu, hrest⟩ := Option.bind_eq_some_iff.mp h
    exact ReachWhere.trans (.tail .refl hc.1 hu) (ih hrest (hc.2 u hu))

/-- A run of the restricted system is a permitted run of the system. -/
theorem along_of_exec [∀ s a, Decidable (C s a)] {as : List α}
    (h : exec (fun s a => if C s a then step s a else none) s as = some t) :
    exec step s as = some t ∧ Along step C s as := by
  induction as generalizing s with
  | nil => exact ⟨h, trivial⟩
  | cons a as ih =>
    obtain ⟨u, hu, hrest⟩ := Option.bind_eq_some_iff.mp h
    obtain ⟨hc, hstep⟩ := Option.ite_none_right_eq_some.mp hu
    obtain ⟨hexec, halong⟩ := ih hrest
    refine ⟨Option.bind_eq_some_iff.mpr ⟨u, hstep, hexec⟩, hc, ?_⟩
    intro v hv
    cases hstep.symm.trans hv
    exact halong

/-- `G` is kept by permitted actions, and an action that is not permitted leads from `G`
to `B` for good: the run tells in which of the two it ends. -/
theorem exec_along {G B : σ → Prop} (hgood : ∀ s a t, G s → C s a → step s a = some t → G t)
    (hbreak : ∀ s a t, G s → ¬ C s a → step s a = some t → B t)
    (hbad : ∀ s a t, B s → step s a = some t → B t) {as : List α} (hs : G s)
    (h : exec step s as = some t) :
    (Along step C s as ∧ G t) ∨ (¬ Along step C s as ∧ B t) := by
  have hstay : ∀ (as : List α) (s : σ), B s → exec step s as = some t → B t := by
    intro as
    induction as with
    | nil =>
      intro s hs h
      cases h
      exact hs
    | cons a as ih =>
      intro s hs h
      obtain ⟨u, hu, hrest⟩ := Option.bind_eq_some_iff.mp h
      exact ih u (hbad s a u hs hu) hrest
  induction as generalizing s with
  | nil =>
    cases h
    exact .inl ⟨trivial, hs⟩
  | cons a as ih =>
    obtain ⟨u, hu, hrest⟩ := Option.bind_eq_some_iff.mp h
    by_cases hc : C s a
    · rcases ih (hgood s a u hs hc hu) hrest with ⟨halong, ht⟩ | ⟨halong, ht⟩
      · refine .inl ⟨⟨hc, ?_⟩, ht⟩
        intro v hv
        cases hu.symm.trans hv
        exact halong
      · exact .inr ⟨fun hall => halong (hall.2 u hu), ht⟩
    · exact .inr ⟨fun hall => hc hall.1, hstay as u (hbreak s a u hs hc hu) hrest⟩

end CS352.Transition
