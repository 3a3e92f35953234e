import Mathlib.Logic.Basic

/-! # Weakest preconditions

For computations with a state `σ` that may stop with an error of type `ε`. `E` says which
errors are allowed. -/

namespace CS352.WeakestPre

variable {σ ε α β : Type} {E : ε → Prop} {Q R : α → σ → Prop} {s : σ}

/-- From `s`, the computation ends in `Q` or stops with an error in `E`. -/
def wp (E : ε → Prop) (m : StateT σ (Except ε) α) (Q : α → σ → Prop) (s : σ) : Prop :=
  match m s with
  | .ok (a, t) => Q a t
  | .error e => E e

theorem wp_of_ok {m : StateT σ (Except ε) α} {a : α} {t : σ} (h : wp E m Q s)
    (hm : m s = .ok (a, t)) : Q a t := by
  simpa [wp, hm] using h

theorem wp_of_error {m : StateT σ (Except ε) α} {e : ε} (h : wp E m Q s)
    (hm : m s = .error e) : E e := by
  simpa [wp, hm] using h

/-- A computation that cannot stop with an error ends. -/
theorem exists_ok_of_wp {m : StateT σ (Except ε) α} (h : wp (fun _ => False) m Q s) :
    ∃ a t, m s = .ok (a, t) ∧ Q a t := by
  cases hm : m s with
  | error e => exact (wp_of_error h hm).elim
  | ok r => exact ⟨r.1, r.2, rfl, wp_of_ok h hm⟩

theorem wp_mono {m : StateT σ (Except ε) α} (h : wp E m Q s)
    (hQR : ∀ a t, Q a t → R a t) : wp E m R s := by
  cases hm : m s with
  | error e => simpa [wp, hm] using h
  | ok r => simpa [wp, hm] using hQR _ _ (wp_of_ok h hm)

/-- Two facts about the same computation. -/
theorem wp_and {m : StateT σ (Except ε) α} {F : ε → Prop} (hQ : wp E m Q s) (hR : wp F m R s) :
    wp E m (fun a t => Q a t ∧ R a t) s := by
  cases hm : m s with
  | error e => simpa [wp, hm] using hQ
  | ok r => simpa [wp, hm] using And.intro (wp_of_ok hQ hm) (wp_of_ok hR hm)

@[simp] theorem wp_pure (a : α) : wp E (pure a) Q s ↔ Q a s := Iff.rfl

@[simp] theorem wp_bind (m : StateT σ (Except ε) β) (f : β → StateT σ (Except ε) α) :
    wp E (m >>= f) Q s ↔ wp E m (fun b => wp E (f b) Q) s := by
  simp only [wp, bind, StateT.bind, Except.bind]
  cases m s <;> rfl

@[simp] theorem wp_get {Q : σ → σ → Prop} : wp E get Q s ↔ Q s s := Iff.rfl

@[simp] theorem wp_set {Q : PUnit → σ → Prop} (t : σ) : wp E (set t) Q s ↔ Q ⟨⟩ t := Iff.rfl

@[simp] theorem wp_modify {Q : PUnit → σ → Prop} (f : σ → σ) :
    wp E (modify f) Q s ↔ Q ⟨⟩ (f s) := Iff.rfl

@[simp] theorem wp_throw (e : ε) : wp E (throw e) Q s ↔ E e := Iff.rfl

theorem wp_ite {c : Prop} [Decidable c] {m n : StateT σ (Except ε) α}
    (hm : c → wp E m Q s) (hn : ¬ c → wp E n Q s) : wp E (if c then m else n) Q s := by
  split
  · exact hm ‹c›
  · exact hn ‹¬ c›

end CS352.WeakestPre
