import Mathlib.Data.List.Basic
import Mathlib.Logic.Function.Basic

/-! # Redo logs

A log entry is a place and the value to be written there. Replaying a log is idempotent, also
from a store in which a part of it has been installed before. -/

namespace CS352.RedoLog

open Function

variable {ι β : Type*} [DecidableEq ι] {h h' : ι → β} {es : List (ι × β)} {k : ℕ} {i : ι}

/-- Writes the entries to the store, in order. -/
def replay (h : ι → β) (es : List (ι × β)) : ι → β :=
  es.foldl (fun h e => update h e.1 e.2) h

@[simp] theorem replay_nil (h : ι → β) : replay h [] = h := rfl

theorem replay_cons (h : ι → β) (e : ι × β) (es : List (ι × β)) :
    replay h (e :: es) = replay (update h e.1 e.2) es := rfl

theorem replay_append (h : ι → β) (es fs : List (ι × β)) :
    replay h (es ++ fs) = replay (replay h es) fs :=
  List.foldl_append

/-- What the log writes does not depend on what was there before. -/
theorem replay_congr (hi : i ∈ es.map Prod.fst ∨ h i = h' i) : replay h es i = replay h' es i := by
  induction es generalizing h h' with
  | nil => simpa using hi
  | cons e es ih =>
    rw [replay_cons, replay_cons]
    apply ih
    by_cases hie : i = e.1
    · right
      rw [hie, update_self, update_self]
    · rw [update_of_ne hie, update_of_ne hie]
      simpa [hie] using hi

theorem replay_of_not_mem (hi : i ∉ es.map Prod.fst) : replay h es i = h i := by
  induction es generalizing h with
  | nil => rfl
  | cons e es ih =>
    rw [List.map_cons, List.mem_cons, not_or] at hi
    rw [replay_cons, ih hi.2, update_of_ne hi.1]

theorem replay_of_mem {e : ι × β} (hnodup : (es.map Prod.fst).Nodup) (he : e ∈ es) :
    replay h es e.1 = e.2 := by
  induction es generalizing h with
  | nil => cases he
  | cons f es ih =>
    rw [List.map_cons, List.nodup_cons] at hnodup
    rw [replay_cons]
    rcases List.mem_cons.mp he with rfl | he
    · rw [replay_of_not_mem hnodup.1, update_self]
    · exact ih hnodup.2 he

theorem replay_update (hi : i ∈ es.map Prod.fst) (v : β) :
    replay (update h i v) es = replay h es := by
  funext j
  apply replay_congr
  by_cases hj : j = i
  · exact .inl (hj ▸ hi)
  · exact .inr (update_of_ne hj v h)

/-- A log with the entries of a function. -/
theorem replay_graph (v : ι → β) (is : List ι) :
    replay h (is.map fun j => (j, v j)) i = if i ∈ is then v i else h i := by
  induction is generalizing h with
  | nil => simp
  | cons j is ih =>
    rw [List.map_cons, replay_cons, ih]
    by_cases hij : i = j
    · subst i
      simp
    · simp [hij]

/-! ## Installation -/

/-- The first `k` entries are in place. -/
def Installed (h : ι → β) (es : List (ι × β)) (k : ℕ) : Prop :=
  replay h (es.take k) = h

theorem installed_zero : Installed h es 0 := rfl

theorem replay_replay (h : ι → β) (es : List (ι × β)) :
    replay (replay h es) es = replay h es := by
  funext i
  by_cases hi : i ∈ es.map Prod.fst
  · exact replay_congr (.inl hi)
  · exact replay_of_not_mem hi

theorem Installed.succ {e : ι × β} (hk : Installed h es k) (he : es[k]? = some e) :
    Installed (update h e.1 e.2) es (k + 1) := by
  have hnext : replay h (es.take (k + 1)) = update h e.1 e.2 := by
    rw [List.take_add_one, he, replay_append, hk]
    rfl
  rw [Installed, ← hnext, replay_replay]

theorem Installed.all (hk : Installed h es k) (hlen : es.length ≤ k) : replay h es = h := by
  rwa [Installed, List.take_of_length_le hlen] at hk

end CS352.RedoLog
