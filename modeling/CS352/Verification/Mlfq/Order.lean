import CS352.Verification.Mlfq.Runnable
import Mathlib.Data.List.DropRight

/-! # The order of dispatches

Each queue lists its processes in the order of their latest calls of `enqueue`, and the
scheduler takes the first process of the first queue that has one. -/

namespace CS352.Mlfq

open Transition Function

variable {k k' : Kernel} {out : ℕ → Prop} {p x y : ℕ} {tr : List Event} {L : Level → List ℕ}

/-! ## The latest call of `enqueue` -/

def Event.enqueues (p : ℕ) : Event → Bool
  | .enqueue q _ _ => q = p
  | .free _ | .nice _ | .boost | .dispatch _ => false

/-- The number of events up to the latest call of `enqueue` for `p`, that call included;
0 if there was none. -/
def latest (p : ℕ) (tr : List Event) : ℕ := (tr.rdropWhile fun e => !e.enqueues p).length

theorem latest_concat (p : ℕ) (tr : List Event) (e : Event) :
    latest p (tr ++ [e]) = if e.enqueues p then tr.length + 1 else latest p tr := by
  rw [latest, List.rdropWhile_concat]
  cases e.enqueues p <;> simp [latest]

theorem latest_le (p : ℕ) (tr : List Event) : latest p tr ≤ tr.length :=
  (List.rdropWhile_prefix _ tr).length_le

/-! ## Queues in order of arrival -/

/-- Every queue lists its processes in the order of their latest calls. -/
def Arranged (tr : List Event) (L : Level → List ℕ) : Prop :=
  ∀ i, (L i).Pairwise (fun x y => latest x tr < latest y tr) ∧ ∀ x ∈ L i, 0 < latest x tr

theorem Arranged.congr {tr' : List Event} (h : Arranged tr L)
    (hsame : ∀ x, latest x tr' = latest x tr) : Arranged tr' L := by
  intro i
  simpa only [hsame] using h i

theorem Arranged.sublist {L' : Level → List ℕ} (h : Arranged tr L)
    (hsub : ∀ i, (L' i).Sublist (L i)) : Arranged tr L' :=
  fun i => ⟨(h i).1.sublist (hsub i), fun x hx => (h i).2 x ((hsub i).subset hx)⟩

/-- A call for a process that is on no queue makes it the last of its queue. -/
theorem Arranged.enqueue (h : Arranged tr L) (hfresh : ∀ i, x ∉ L i) (arg : Proc)
    (level l : Level) :
    Arranged (tr ++ [.enqueue x arg level]) (update L l (L l ++ [x])) := by
  have hx : latest x (tr ++ [.enqueue x arg level]) = tr.length + 1 := by
    simp [latest_concat, Event.enqueues]
  have hother : ∀ i, ∀ y ∈ L i, latest y (tr ++ [.enqueue x arg level]) = latest y tr := by
    intro i y hy
    have hyx : x ≠ y := by
      rintro rfl
      exact hfresh i hy
    simp [latest_concat, Event.enqueues, hyx]
  have hold : ∀ i, (L i).Pairwise (fun y z =>
      latest y (tr ++ [.enqueue x arg level]) < latest z (tr ++ [.enqueue x arg level])) ∧
      ∀ y ∈ L i, 0 < latest y (tr ++ [.enqueue x arg level]) := by
    intro i
    refine ⟨(h i).1.imp_of_mem ?_, ?_⟩
    · intro y z hy hz hyz
      rwa [hother i y hy, hother i z hz]
    · intro y hy
      rw [hother i y hy]
      exact (h i).2 y hy
  intro i
  by_cases hi : i = l
  · subst i
    rw [update_self]
    refine ⟨List.pairwise_append.mpr ⟨(hold l).1, List.pairwise_singleton _ _, ?_⟩, ?_⟩
    · intro y hy z hz
      obtain rfl := List.mem_singleton.mp hz
      rw [hx, hother l y hy]
      exact Nat.lt_succ_of_le (latest_le y tr)
    · intro y hy
      rcases List.mem_append.mp hy with hy | hy
      · exact (hold l).2 y hy
      · obtain rfl := List.mem_singleton.mp hy
        rw [hx]
        exact Nat.succ_pos _
  · rw [update_of_ne hi]
    exact hold i

/-- The queues of the kernel are in order of arrival. -/
def Lined (k : Kernel) : Prop := ∀ L, WellFormed k.qtable L → Arranged k.trace L

theorem Lined.congr (h : Lined k) (hq : k'.qtable = k.qtable)
    (htr : ∀ x, latest x k'.trace = latest x k.trace) : Lined k' := by
  intro L hL
  rw [hq] at hL
  exact (h L hL).congr htr

theorem Lined.enqueue (h : Lined k) (hL : Queues k L) (hx : x < nproc)
    (hfresh : ∀ i, x ∉ L i) : Lined (enqueue k x) := by
  intro L' hL'
  rw [hL'.unique (hL.enqueue hx hfresh).toWellFormed, enqueue_trace]
  exact (h L hL.toWellFormed).enqueue hfresh _ _ _

theorem queueFact_lined : QueueFact Lined := by
  refine ⟨?_, ?_, fun h hL hx hfresh => h.enqueue hL hx hfresh⟩
  · intro k k' h hq htr
    exact h.congr hq fun y => by rw [htr]
  · intro k k' e h hq htr he
    refine h.congr hq fun y => ?_
    rw [htr, latest_concat]
    obtain ⟨x, rfl | rfl⟩ := he <;> rfl

/-! ## The boost -/

/-- Calls for distinct processes, one after the other. -/
theorem pairwise_latest (tr : List Event) {ys : List ℕ} (hnodup : ys.Nodup)
    (arg : ℕ → Proc) (level : ℕ → Level) :
    ys.Pairwise (fun x y => latest x (tr ++ ys.map fun x => .enqueue x (arg x) (level x)) <
      latest y (tr ++ ys.map fun x => .enqueue x (arg x) (level x))) ∧
    ∀ x ∈ ys, 0 < latest x (tr ++ ys.map fun x => .enqueue x (arg x) (level x)) := by
  -- They fill one queue that starts empty.
  have hone : Arranged (tr ++ ys.map fun x => .enqueue x (arg x) (level x))
      (update (fun _ => []) 0 ys) := by
    induction ys using List.reverseRecOn with
    | nil =>
      intro i
      by_cases hi : i = 0 <;> simp [hi]
    | append_singleton ys y ih =>
      obtain ⟨hys, -, hdisj⟩ := List.nodup_append.mp hnodup
      have hfresh : ∀ i, y ∉ update (fun _ => []) (0 : Level) ys i := by
        intro i hi
        by_cases hi0 : i = 0
        · subst i
          exact hdisj y (by simpa using hi) y (by simp) rfl
        · simp [hi0] at hi
      have hnext := (ih hys).enqueue hfresh (arg y) (level y) 0
      simpa using hnext
  simpa using hone 0

theorem lined_priorityBoost (k : Kernel) : Lined (priorityBoost k) := by
  obtain ⟨hq, -, htr, -⟩ := priorityBoost_spec k
  intro L hL
  obtain rfl := hL.unique hq.toWellFormed
  obtain ⟨hpair, hpos⟩ := pairwise_latest (k.trace ++ [.boost])
    ((List.nodup_range (n := nproc)).filter fun x => (k.proc x).state = .runnable) k.proc
    (fun x => assignedLevel (k.proc x))
  rw [← htr] at hpair hpos
  intro i
  have hsub : (boosted k (List.range nproc) i).Sublist
      ((List.range nproc).filter fun x => (k.proc x).state = .runnable) := by
    refine List.monotone_filter_right _ ?_
    intro x hx
    simp only [Bool.decide_and, Bool.and_eq_true, decide_eq_true_eq] at hx ⊢
    exact hx.1
  exact ⟨hpair.sublist hsub, fun x hx => hpos x (hsub.subset hx)⟩

theorem Lined.boostCheck (h : Lined k) : Lined (boostCheck k) := by
  unfold Mlfq.boostCheck
  split
  · exact lined_priorityBoost k
  · exact h

theorem Lined.unlinkFront (h : Lined k) (hL : Queues k L) {i : Level} {xs : List ℕ}
    (hi : L i = x :: xs) : Lined (unlinkProc k x) := by
  have hfirst : L i = [] ++ x :: xs := hi
  intro L' hL'
  rw [hL'.unique (hL.unlinkProc hfirst).toWellFormed]
  refine Arranged.sublist (h L hL.toWellFormed) ?_
  intro j
  by_cases hj : j = i
  · subst j
    simp [hi]
  · simp [hj]

/-! ## Runs -/

theorem Lined.dequeue (h : Lined k) (hs : Sync (fun _ => False) k) :
    Lined (dequeue k).kernel := by
  unfold Mlfq.dequeue
  split
  · exact h
  · rename_i x hfirst
    obtain ⟨L, hL, -⟩ := hs.queued
    obtain ⟨i, xs, hi, -⟩ := hL.toWellFormed.firstProcess_cons hfirst
    exact (h.unlinkFront hL hi).congr rfl fun y => by
      simp [resume, markRunning, latest_concat, Event.enqueues]

theorem Lined.move {m m' : Machine} {a : Action} (h : Lined m.kernel) (hinv : Inv m)
    (hm : Move a m m') : Lined m'.kernel := by
  rcases queueFact_lined.move hinv hm h with hkept | ⟨-, rfl⟩
  · exact hkept
  · exact h.boostCheck.dequeue hinv.sync.boostCheck

theorem lined_of_setup {q : QTable} (hq : k.qtable = setupQueue q) : Lined k := by
  intro L hL
  rw [hL.unique (queues_of_setup hq).toWellFormed]
  intro i
  simp

theorem Booted.lined {m : Machine} (h : Booted m) : Lined m.kernel := by
  obtain ⟨mem, k, hk, rfl⟩ := h
  rw [userinit_boot hk]
  have hq : (ensureQueue (initKernel.setProc 0 { initKernel.proc 0 with
      state := .runnable })).qtable = setupQueue bootKernel.qtable := rfl
  exact (lined_of_setup hq).enqueue (queues_of_setup hq) (by decide) (by simp)

theorem Reachable.lined {m : Machine} (h : Reachable m) : Lined m.kernel := by
  obtain ⟨s, hboot, hreach⟩ := h
  have hboth : Inv m ∧ Lined m.kernel :=
    hreach.invariant (I := fun m => Inv m ∧ Lined m.kernel) ⟨hboot.inv, hboot.lined⟩
      fun _ _ _ hi _ hs => ⟨hi.1.move (step_move hs), hi.2.move hi.1 (step_move hs)⟩
  exact hboth.2

/-! ## Main result -/

/-- No runnable process has a smaller queue number than `p`, and those with the same number
were enqueued after `p`. -/
def ComesFirst (k : Kernel) (p : ℕ) : Prop :=
  0 < latest p k.trace ∧ ∀ x < nproc, (k.proc x).state = .runnable →
    (k.proc p).queue ≤ (k.proc x).queue ∧
    ((k.proc x).queue = (k.proc p).queue → x ≠ p → latest p k.trace < latest x k.trace)

theorem Lined.comesFirst (h : Lined k) (hs : Sync (fun _ => False) k)
    (hfirst : firstProcess k.qtable = some p) : ComesFirst k p := by
  obtain ⟨L, hL, hmem⟩ := hs.queued
  obtain ⟨i, xs, hi, habove⟩ := hL.toWellFormed.firstProcess_cons hfirst
  obtain ⟨hpair, hpos⟩ := h L hL.toWellFormed i
  have hp := (hL.level i p (by simp [hi])).2
  refine ⟨hpos p (by simp [hi]), ?_⟩
  intro x hx hrun
  obtain ⟨j, hj⟩ := (hmem x hx).mpr ⟨hrun, fun hout => hout⟩
  have hxq := (hL.level j x hj).2
  have hij : i ≤ j := by
    by_contra hlt
    rw [habove j (not_le.mp hlt)] at hj
    cases hj
  refine ⟨?_, ?_⟩
  · rw [hp, hxq]
    exact_mod_cast hij
  · intro heq hne
    have hji : j = i := by
      rw [hp, hxq] at heq
      exact Fin.ext (by exact_mod_cast heq)
    rw [hji, hi] at hj
    rw [hi] at hpair
    exact (List.pairwise_cons.mp hpair).1 x ((List.mem_cons.mp hj).resolve_left hne)

/-- Whenever the scheduler dispatches a process, that process comes first among the
runnable ones; it dispatches nothing only if no process is runnable; and a boost enqueues
the runnable processes in the order of the process table. -/
theorem reachable_dispatch_comesFirst {m m' : Machine} (h : Reachable m)
    (hstep : step m .schedule = some m') :
    (∀ p, m'.cpu = some p → ComesFirst (boostCheck m.kernel) p) ∧
    (m'.cpu = none → ∀ x < nproc, ((boostCheck m.kernel).proc x).state ≠ .runnable) ∧
    (60 < m.kernel.timeSincePriorityBoost →
      (boostCheck m.kernel).trace = m.kernel.trace ++ [.boost] ++
        ((List.range nproc).filter fun x => (m.kernel.proc x).state = .runnable).map
          (fun x => .enqueue x (m.kernel.proc x) (assignedLevel (m.kernel.proc x)))) := by
  have hsync := h.inv.sync.boostCheck
  have hlined := h.lined.boostCheck
  obtain ⟨-, hm⟩ := Option.ite_none_right_eq_some.mp hstep
  cases hm
  refine ⟨?_, ?_, ?_⟩
  · intro p hp
    unfold dequeue at hp
    split at hp
    · cases hp
    · rename_i x hfirst
      cases hp
      exact hlined.comesFirst hsync hfirst
  · intro hnone x hx hrun
    obtain ⟨L, hL, hmem⟩ := hsync.queued
    obtain ⟨i, hi⟩ := (hmem x hx).mpr ⟨hrun, fun hout => hout⟩
    unfold dequeue at hnone
    split at hnone
    · rename_i hfirst
      rw [hL.toWellFormed.firstProcess_none hfirst i] at hi
      cases hi
    · cases hnone
  · intro hboost
    rw [boostCheck, if_pos hboost]
    exact (priorityBoost_spec m.kernel).2.2.1

/-- The first process has forked and yielded, and its child comes first. -/
theorem reachable_dispatch_comesFirst_child : ∃ m m' : Machine, Reachable m ∧
    step m .schedule = some m' ∧ m'.cpu = some 1 ∧ ComesFirst (boostCheck m.kernel) 1 := by
  have hrun : ((exec step ⟨makeRunnable initKernel 0, none⟩
      [.schedule, .fork ⟨true, true, true⟩, .yield]).bind fun m : Machine =>
      (step m .schedule).map Machine.cpu) = some (some 1) := by
    decide +kernel
  obtain ⟨m, hm, hnext⟩ := Option.bind_eq_some_iff.mp hrun
  obtain ⟨m', hm', hcpu⟩ := Option.map_eq_some_iff.mp hnext
  have hreach : Reachable m := ⟨_, ⟨⟨true, true, true⟩, _, rfl, rfl⟩, reach_of_exec hm⟩
  exact ⟨m, m', hreach, hm', hcpu, (reachable_dispatch_comesFirst hreach hm').1 1 hcpu⟩

end CS352.Mlfq
