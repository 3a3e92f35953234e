import CS352.Library.Transition

/-! # Forward simulation

A system refines a specification when every step of it is some steps of the specification,
with the same visible events, on related states. -/

namespace CS352.Simulation

open Transition

variable {σ τ α β ε : Type*} {step : σ → α → Option σ} {spec : τ → β → Option τ}
  {C : σ → α → Prop} {I : σ → Prop} {R : σ → τ → Prop} {observe : σ → α → Option ε}
  {visible : τ → β → Option ε} {s t : σ} {d d' : τ} {P : τ → Prop} {e : β}

/-- The visible events of a run. -/
def trace (step : σ → α → Option σ) (observe : σ → α → Option ε) : σ → List α → List ε
  | _, [] => []
  | s, a :: as => (observe s a).toList ++ ((step s a).map fun t => trace step observe t as).getD []

/-- From `d` some steps with the visible events `out` lead to a state with `P`. -/
def Follows (spec : τ → β → Option τ) (visible : τ → β → Option ε) (d : τ) (out : List ε)
    (P : τ → Prop) : Prop :=
  ∃ es d', exec spec d es = some d' ∧ trace spec visible d es = out ∧ P d'

/-- From states with `I`, every permitted step of the system is a run of the specification
with the same visible events. -/
def Simulates (step : σ → α → Option σ) (spec : τ → β → Option τ) (C : σ → α → Prop)
    (I : σ → Prop) (R : σ → τ → Prop) (observe : σ → α → Option ε) (visible : τ → β → Option ε) :
    Prop :=
  ∀ s a t d, I s → R s d → C s a → step s a = some t →
    Follows spec visible d (observe s a).toList (R t)

theorem Follows.silent (h : P d) : Follows spec visible d [] P := ⟨[], d, rfl, rfl, h⟩

theorem Follows.cons {out : List ε} (hs : spec d e = some d') (h : Follows spec visible d' out P) :
    Follows spec visible d ((visible d e).toList ++ out) P := by
  obtain ⟨es, d'', hes, htrace, hP⟩ := h
  exact ⟨e :: es, d'', by simp [exec, hs, hes], by simp [trace, hs, htrace], hP⟩

theorem Follows.one (hs : spec d e = some d') (h : P d') :
    Follows spec visible d (visible d e).toList P :=
  ⟨[e], d', by simp [exec, hs], by simp [trace, hs], h⟩

theorem Follows.eq {out : List ε} (h : Follows spec visible d out (d' = ·)) :
    ∃ es, exec spec d es = some d' ∧ trace spec visible d es = out := by
  obtain ⟨es, _, hes, htrace, rfl⟩ := h
  exact ⟨es, hes, htrace⟩

theorem trace_append {as bs : List α} (h : exec step s as = some t) :
    trace step observe s (as ++ bs) = trace step observe s as ++ trace step observe t bs := by
  induction as generalizing s with
  | nil =>
    cases h
    rfl
  | cons a as ih =>
    obtain ⟨u, hu, hrest⟩ := Option.bind_eq_some_iff.mp h
    simp [trace, hu, ih hrest]

/-- Every run of the system is a run of the specification with the same visible events. -/
theorem Simulates.exec (h : Simulates step spec C I R observe visible)
    (hinv : ∀ s a t, I s → C s a → step s a = some t → I t) (hs : I s) (hd : R s d) {as : List α}
    (hrun : exec step s as = some t) (halong : Along step C s as) :
    Follows spec visible d (trace step observe s as) (R t) := by
  induction as generalizing s d with
  | nil =>
    cases hrun
    exact .silent hd
  | cons a as ih =>
    obtain ⟨u, hu, hrest⟩ := Option.bind_eq_some_iff.mp hrun
    obtain ⟨es, d', hes, htrace, hd'⟩ := h s a u d hs hd halong.1 hu
    obtain ⟨fs, d'', hfs, htrace', hd''⟩ :=
      ih (hinv s a u hs halong.1 hu) hd' hrest (halong.2 u hu)
    refine ⟨es ++ fs, d'', ?_, ?_, hd''⟩
    · rw [exec_append, hes]
      exact hfs
    · rw [trace_append hes, htrace, htrace']
      simp [trace, hu]

end CS352.Simulation
