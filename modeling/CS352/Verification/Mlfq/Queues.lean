import CS352.Library.Lanes
import CS352.Model.Mlfq.Kernel
import Mathlib.Data.Fintype.Basic
import Mathlib.Tactic.FinCases

/-! # The queue table as three lists

`Queues k L` says that the links of `qtable` spell out the lists `L 0`, `L 1` and `L 2`
and that the queue numbers agree with them. Every operation on the table is an operation
on the lists. -/

namespace CS352.Mlfq

open Function

/-! ## The level that `enqueue` assigns -/

/-- The level that a nice value selects. -/
def niceLevel (nice : ℤ) : Level :=
  if nice > 10 then 0 else if nice > -10 then 1 else 2

/-- The quanta that a process may use before `enqueue` reacts, by level. -/
def allotment : Level → ℤ
  | 0 => 15
  | 1 => 10
  | 2 => 1

/-- The quanta that count: they restart when the process moves up. -/
def countedQuanta (p : Proc) : ℤ :=
  if niceLevel p.nice ≠ 2 ∧ (niceLevel p.nice).val < p.queue then 0 else p.quanta

/-- The process has used more than the allotment of the level its nice value selects. -/
def Exceeds (p : Proc) : Prop := allotment (niceLevel p.nice) < countedQuanta p

instance (p : Proc) : Decidable (Exceeds p) := inferInstanceAs (Decidable (_ < _))

def demoted : Level → Level
  | 0 => 1
  | 1 => 2
  | 2 => 2

def assignedLevel (p : Proc) : Level :=
  if Exceeds p then demoted (niceLevel p.nice) else niceLevel p.nice

def assignedQuanta (p : Proc) : ℤ := if Exceeds p then 0 else countedQuanta p

theorem selectQueue_eq (p : Proc) :
    selectQueue p = (((niceLevel p.nice).val : ℤ), countedQuanta p) := by
  unfold selectQueue countedQuanta niceLevel
  by_cases h0 : p.nice > 10
  · simp [h0]
  · by_cases h1 : p.nice > -10
    · have hle : p.nice ≤ 10 := by omega
      simp [h0, h1, hle]
    · simp [h0, h1]

theorem checkQuanta_eq (level : Level) (quanta : ℤ) :
    checkQuanta level.val quanta =
      if allotment level < quanta then (((demoted level).val : ℤ), 0)
      else ((level.val : ℤ), quanta) := by
  unfold checkQuanta
  fin_cases level <;> simp [allotment, demoted]

theorem enqueue_eq (k : Kernel) (i : ℕ) :
    enqueue k i = insertInto k i (assignedQuanta (k.proc i)) (assignedLevel (k.proc i)) := by
  have hchecked :
      checkQuanta (niceLevel (k.proc i).nice).val (countedQuanta (k.proc i)) =
        (((assignedLevel (k.proc i)).val : ℤ), assignedQuanta (k.proc i)) := by
    rw [checkQuanta_eq]
    by_cases hx : Exceeds (k.proc i)
    · rw [assignedLevel, assignedQuanta, if_pos hx, if_pos hx]
      exact if_pos hx
    · rw [assignedLevel, assignedQuanta, if_neg hx, if_neg hx]
      exact if_neg hx
  simp only [enqueue, selectQueue_eq, hchecked]
  generalize assignedLevel (k.proc i) = level
  fin_cases level <;> simp

theorem assigned_of_nice_zero (arg : Proc) (hn : arg.nice = 0) :
    (countedQuanta arg ≤ 10 → assignedLevel arg = 1 ∧ assignedQuanta arg = countedQuanta arg) ∧
    (10 < countedQuanta arg → assignedLevel arg = 2 ∧ assignedQuanta arg = 0) := by
  have hlevel : niceLevel arg.nice = 1 := by
    rw [hn]
    rfl
  have hex : Exceeds arg ↔ 10 < countedQuanta arg := by
    rw [Exceeds, hlevel]
    rfl
  refine ⟨fun hle => ?_, fun hlt => ?_⟩
  · have hnot : ¬ Exceeds arg := fun h => absurd (hex.mp h) (not_lt.mpr hle)
    rw [assignedLevel, assignedQuanta, if_neg hnot, if_neg hnot]
    exact ⟨hlevel, rfl⟩
  · rw [assignedLevel, assignedQuanta, if_pos (hex.mpr hlt), if_pos (hex.mpr hlt), hlevel]
    exact ⟨rfl, rfl⟩

/-! ## Fields after an update -/

section Fields

variable (k : Kernel) (i : ℕ) (p : Proc) (e : Event)

@[simp] theorem setProc_proc : (k.setProc i p).proc = update k.proc i p := rfl
@[simp] theorem setProc_qtable : (k.setProc i p).qtable = k.qtable := rfl
@[simp] theorem setProc_isQueueSetup : (k.setProc i p).isQueueSetup = k.isQueueSetup := rfl
@[simp] theorem setProc_timeSincePriorityBoost :
    (k.setProc i p).timeSincePriorityBoost = k.timeSincePriorityBoost := rfl
@[simp] theorem setProc_trace : (k.setProc i p).trace = k.trace := rfl
@[simp] theorem record_proc : (k.record e).proc = k.proc := rfl
@[simp] theorem record_timeSincePriorityBoost :
    (k.record e).timeSincePriorityBoost = k.timeSincePriorityBoost := rfl
@[simp] theorem record_trace : (k.record e).trace = k.trace ++ [e] := rfl

@[simp] theorem enqueue_proc :
    (enqueue k i).proc = update k.proc i
      { k.proc i with
        quanta := assignedQuanta (k.proc i), queue := (assignedLevel (k.proc i)).val } := by
  rw [enqueue_eq]
  rfl

@[simp] theorem enqueue_qtable :
    (enqueue k i).qtable = appendTo k.qtable i (assignedLevel (k.proc i)) := by
  rw [enqueue_eq]
  rfl

@[simp] theorem enqueue_isQueueSetup : (enqueue k i).isQueueSetup = k.isQueueSetup := by
  rw [enqueue_eq]
  rfl

@[simp] theorem enqueue_timeSincePriorityBoost :
    (enqueue k i).timeSincePriorityBoost = k.timeSincePriorityBoost := by
  rw [enqueue_eq]
  rfl

@[simp] theorem enqueue_trace :
    (enqueue k i).trace = k.trace ++ [.enqueue i (k.proc i) (assignedLevel (k.proc i))] := by
  rw [enqueue_eq]
  rfl

@[simp] theorem ensureQueue_proc : (ensureQueue k).proc = k.proc := by
  unfold ensureQueue
  split <;> rfl

@[simp] theorem ensureQueue_timeSincePriorityBoost :
    (ensureQueue k).timeSincePriorityBoost = k.timeSincePriorityBoost := by
  unfold ensureQueue
  split <;> rfl

@[simp] theorem ensureQueue_trace : (ensureQueue k).trace = k.trace := by
  unfold ensureQueue
  split <;> rfl

theorem ensureQueue_of_setup (h : k.isQueueSetup = true) : ensureQueue k = k := by
  simp [ensureQueue, h]

@[simp] theorem makeRunnable_proc :
    (makeRunnable k i).proc = update k.proc i
      { k.proc i with
        state := .runnable, quanta := assignedQuanta (k.proc i),
        queue := (assignedLevel (k.proc i)).val } := by
  simp [makeRunnable]
  rfl

@[simp] theorem freeproc_proc :
    (freeproc k i).proc = update k.proc i
      { k.proc i with
        pid := 0, parent := none, chan := .null, killed := 0, xstate := 0, state := .unused,
        nice := 0 } := rfl

end Fields

/-! ## Sentinels -/

theorem nproc_le_headQ (i : Level) : nproc ≤ headQ i := by
  fin_cases i <;> decide

theorem nproc_le_tailQ (i : Level) : nproc ≤ tailQ i := by
  fin_cases i <;> decide

theorem sentinels : Lanes.Sentinels headQ tailQ where
  head_inj := by decide
  tail_inj := by decide
  head_ne_tail := by decide

theorem ne_headQ {x : ℕ} (hx : x < nproc) (i : Level) : x ≠ headQ i :=
  (hx.trans_le (nproc_le_headQ i)).ne

theorem ne_tailQ {x : ℕ} (hx : x < nproc) (i : Level) : x ≠ tailQ i :=
  (hx.trans_le (nproc_le_tailQ i)).ne

/-! ## Well-formed tables -/

/-- The links spell out the three lists of process indices, and nothing is on two
lists or twice on one. -/
structure WellFormed (q : QTable) (L : Level → List ℕ) : Prop where
  lanes : Lanes.Holds q.next q.prev headQ tailQ L
  bound : ∀ i, ∀ x ∈ L i, x < nproc

theorem WellFormed.unique {q : QTable} {L L' : Level → List ℕ} (h : WellFormed q L)
    (h' : WellFormed q L') : L = L' :=
  h.lanes.unique h'.lanes

theorem foldl_setQueue (xs : List ℕ) (q : QTable) (v : ℕ) :
    xs.foldl (fun q i => q.setQueue i v) q =
      { q with queue := fun x => if x ∈ xs then v else q.queue x } := by
  induction xs generalizing q with
  | nil => simp
  | cons y xs ih =>
    rw [List.foldl_cons, ih]
    congr 1
    funext x
    by_cases hx : x ∈ xs
    · simp [hx]
    · by_cases hxy : x = y
      · simp [hxy]
      · simp [hx, hxy]

theorem setupQueue_queue (q : QTable) {x : ℕ} (hx : x < nproc) :
    (setupQueue q).queue x = empty := by
  simp [setupQueue, resetLevel, foldl_setQueue, ne_headQ hx, ne_tailQ hx, hx]

/-- `setupQueue` empties the three queues whatever the table held before. -/
theorem wellFormed_setupQueue (q : QTable) : WellFormed (setupQueue q) (fun _ => []) := by
  refine ⟨Lanes.holds_empty ?_ ?_, by simp⟩
  · intro i
    fin_cases i <;> simp [setupQueue, resetLevel, headQ, tailQ]
  · intro i
    fin_cases i <;> simp [setupQueue, resetLevel, headQ, tailQ]

theorem WellFormed.appendTo {q : QTable} {L : Level → List ℕ} (h : WellFormed q L) {x : ℕ}
    (hx : x < nproc) (hfresh : ∀ i, x ∉ L i) (i : Level) :
    WellFormed (appendTo q x i) (update L i (L i ++ [x])) := by
  refine ⟨h.lanes.push sentinels hfresh (ne_headQ hx) (ne_tailQ hx) i, ?_⟩
  intro j y hy
  by_cases hj : j = i
  · subst j
    simp only [update_self, List.mem_append, List.mem_singleton] at hy
    rcases hy with hy | rfl
    · exact h.bound i y hy
    · exact hx
  · exact h.bound j y (by simpa [hj] using hy)

theorem WellFormed.removeFromQueue {q : QTable} {L : Level → List ℕ} (h : WellFormed q L)
    {i : Level} {x : ℕ} {xs ys : List ℕ} (hL : L i = xs ++ x :: ys) :
    WellFormed (removeFromQueue q x) (update L i (xs ++ ys)) := by
  refine ⟨h.lanes.unlink sentinels hL, ?_⟩
  intro j y hy
  by_cases hj : j = i
  · subst j
    refine h.bound i y ?_
    rw [hL]
    simp only [update_self, List.mem_append] at hy
    grind
  · exact h.bound j y (by simpa [hj] using hy)

/-- `dequeue` chooses the first process of the three lists in order. -/
theorem WellFormed.firstProcess_eq {q : QTable} {L : Level → List ℕ} (h : WellFormed q L) :
    firstProcess q = (L 0 ++ L 1 ++ L 2).head? := by
  have hnone : ∀ i, L i = [] → q.next (headQ i) = tailQ i :=
    fun i hi => h.lanes.next_head_eq_tail_iff.mpr hi
  have hsome : ∀ i x xs, L i = x :: xs → q.next (headQ i) = x ∧ x ≠ tailQ i := by
    intro i x xs hi
    refine ⟨h.lanes.next_head_of_cons hi, ?_⟩
    exact ne_tailQ (h.bound i x (by simp [hi])) i
  unfold firstProcess
  cases h0 : L 0 with
  | cons x xs => simp [hsome 0 x xs h0]
  | nil =>
    cases h1 : L 1 with
    | cons x xs => simp [hnone 0 h0, hsome 1 x xs h1]
    | nil =>
      cases h2 : L 2 with
      | cons x xs => simp [hnone 0 h0, hnone 1 h1, hsome 2 x xs h2]
      | nil => simp [hnone 0 h0, hnone 1 h1, hnone 2 h2]

/-- The chosen process heads its list, and the lists above are empty. -/
theorem WellFormed.firstProcess_cons {q : QTable} {L : Level → List ℕ} (h : WellFormed q L)
    {x : ℕ} (hx : firstProcess q = some x) :
    ∃ i xs, L i = x :: xs ∧ ∀ j < i, L j = [] := by
  rw [h.firstProcess_eq] at hx
  cases h0 : L 0 with
  | cons y ys =>
    refine ⟨0, ys, by simp_all, ?_⟩
    intro j hj
    exact absurd hj (Fin.not_lt_zero j)
  | nil =>
    cases h1 : L 1 with
    | cons y ys =>
      refine ⟨1, ys, by simp_all, ?_⟩
      intro j hj
      fin_cases j <;> simp_all
    | nil =>
      cases h2 : L 2 with
      | cons y ys =>
        refine ⟨2, ys, by simp_all, ?_⟩
        intro j hj
        fin_cases j <;> simp_all
      | nil => simp [h0, h1, h2] at hx

/-- Nothing is chosen only if the three lists are empty. -/
theorem WellFormed.firstProcess_none {q : QTable} {L : Level → List ℕ} (h : WellFormed q L)
    (hx : firstProcess q = none) (i : Level) : L i = [] := by
  rw [h.firstProcess_eq] at hx
  fin_cases i <;> simp_all

/-! ## Links and queue numbers together -/

/-- The table is well formed with lists `L`; a queued process has the number of its
queue in `qtable` and in `proc`, the others are marked empty. -/
structure Queues (k : Kernel) (L : Level → List ℕ) : Prop extends
    WellFormed k.qtable L where
  level : ∀ i, ∀ x ∈ L i, k.qtable.queue x = i.val ∧ (k.proc x).queue = i.val
  unqueued : ∀ x < nproc, (∀ i, x ∉ L i) → k.qtable.queue x = empty

/-- Only the table and the queue numbers of queued processes matter. -/
theorem Queues.congr {k k' : Kernel} {L : Level → List ℕ} (h : Queues k L)
    (hq : k'.qtable = k.qtable)
    (hp : ∀ i, ∀ x ∈ L i, (k'.proc x).queue = (k.proc x).queue) : Queues k' L := by
  refine ⟨?_, ?_, ?_⟩
  · rw [hq]
    exact h.toWellFormed
  · intro i x hx
    rw [hq, hp i x hx]
    exact h.level i x hx
  · intro x hx hfree
    rw [hq]
    exact h.unqueued x hx hfree

theorem queues_of_setup {k : Kernel} {q : QTable} (hq : k.qtable = setupQueue q) :
    Queues k (fun _ => []) := by
  refine ⟨?_, by simp, ?_⟩
  · rw [hq]
    exact wellFormed_setupQueue q
  · intro x hx _
    rw [hq]
    exact setupQueue_queue q hx

/-- `enqueue` appends a process that is on no queue to the list of the level it
assigns, and leaves the other lists alone. -/
theorem Queues.enqueue {k : Kernel} {L : Level → List ℕ} (h : Queues k L) {x : ℕ}
    (hx : x < nproc) (hfresh : ∀ i, x ∉ L i) :
    Queues (enqueue k x) (update L (assignedLevel (k.proc x))
      (L (assignedLevel (k.proc x)) ++ [x])) := by
  generalize hl : assignedLevel (k.proc x) = l
  refine ⟨?_, ?_, ?_⟩
  · rw [enqueue_qtable, hl]
    exact h.toWellFormed.appendTo hx hfresh l
  · intro j y hy
    rw [enqueue_qtable, enqueue_proc, hl]
    simp only [Mlfq.appendTo, QTable.setPrev_queue, QTable.setNext_queue, QTable.setQueue_queue]
    by_cases hyx : y = x
    · subst y
      have hjl : j = l := by
        by_contra hj
        exact hfresh j (by simpa [hj] using hy)
      simp [hjl]
    · have hyL : y ∈ L j := by
        by_cases hj : j = l
        · subst j
          simpa [hyx] using hy
        · simpa [hj] using hy
      simpa [hyx] using h.level j y hyL
  · intro y hy hfree
    have hyx : y ≠ x := by
      rintro rfl
      exact hfree l (by simp)
    have hyL : ∀ j, y ∉ L j := by
      intro j hj
      refine hfree j ?_
      by_cases hjl : j = l
      · subst j
        simp [hj]
      · simpa [hjl] using hj
    rw [enqueue_qtable]
    simpa [Mlfq.appendTo, hyx] using h.unqueued y hy hyL

/-- Removing a process from any position of its list leaves the rest in order. -/
theorem Queues.unlinkProc {k : Kernel} {L : Level → List ℕ} (h : Queues k L) {i : Level}
    {x : ℕ} {xs ys : List ℕ} (hL : L i = xs ++ x :: ys) :
    Queues (unlinkProc k x) (update L i (xs ++ ys)) := by
  have hnodup := h.lanes.nodup i
  rw [hL] at hnodup
  have hxi : x ∉ xs ++ ys := by grind
  have hmem : ∀ j, ∀ y, y ∈ update L i (xs ++ ys) j ↔ y ∈ L j ∧ y ≠ x := by
    intro j y
    by_cases hj : j = i
    · subst j
      simp only [update_self, hL]
      grind
    · have hyx : y ∈ L j → y ≠ x := by
        rintro hy rfl
        exact h.lanes.disjoint j i hj hy (by simp [hL])
      simp only [ne_eq, hj, not_false_eq_true, update_of_ne]
      grind
  refine ⟨h.toWellFormed.removeFromQueue hL, ?_, ?_⟩
  · intro j y hy
    obtain ⟨hyL, hyx⟩ := (hmem j y).mp hy
    simpa [Mlfq.unlinkProc, Mlfq.removeFromQueue, hyx] using h.level j y hyL
  · intro y hy hfree
    by_cases hyx : y = x
    · simp [Mlfq.unlinkProc, Mlfq.removeFromQueue, hyx]
    · have hyL : ∀ j, y ∉ L j := fun j hj => hfree j ((hmem j y).mpr ⟨hj, hyx⟩)
      simpa [Mlfq.unlinkProc, Mlfq.removeFromQueue, hyx] using h.unqueued y hy hyL

/-! ## Three FIFO lists -/

/-- The abstract queues: one list for each level. -/
abbrev Fifo := Level → List ℕ

namespace Fifo

def push (L : Fifo) (i : Level) (x : ℕ) : Fifo := update L i (L i ++ [x])

def remove (L : Fifo) (x : ℕ) : Fifo := fun i => (L i).erase x

/-- All processes in the order in which they are to run. -/
def all (L : Fifo) : List ℕ := L 0 ++ L 1 ++ L 2

theorem remove_eq_update {L : Fifo} {i : Level} {x : ℕ} {xs ys : List ℕ}
    (hother : ∀ j, j ≠ i → x ∉ L j) (hL : L i = xs ++ x :: ys) (hxs : x ∉ xs) :
    L.remove x = update L i (xs ++ ys) := by
  funext j
  by_cases hj : j = i
  · subst j
    rw [remove, hL, List.erase_append_right _ hxs, List.erase_cons_head, update_self]
  · rw [remove, List.erase_of_not_mem (hother j hj), update_of_ne hj]

/-- A process that is on one list at most is removed from the whole as from its list. -/
theorem all_remove {L : Fifo} {x : ℕ} (h : ∀ i j, x ∈ L i → x ∈ L j → i = j) :
    (L.remove x).all = L.all.erase x := by
  simp only [all, remove, List.erase_append, List.mem_append]
  by_cases h₀ : x ∈ L 0
  · have h₁ : x ∉ L 1 := fun hmem => absurd (h 0 1 h₀ hmem) (by decide)
    have h₂ : x ∉ L 2 := fun hmem => absurd (h 0 2 h₀ hmem) (by decide)
    simp [h₀, List.erase_of_not_mem h₁, List.erase_of_not_mem h₂]
  · by_cases h₁ : x ∈ L 1
    · have h₂ : x ∉ L 2 := fun hmem => absurd (h 1 2 h₁ hmem) (by decide)
      simp [h₀, h₁, List.erase_of_not_mem h₀, List.erase_of_not_mem h₂]
    · simp [h₀, h₁, List.erase_of_not_mem h₀, List.erase_of_not_mem h₁]

end Fifo

theorem WellFormed.remove {q : QTable} {L : Fifo} (h : WellFormed q L) {x : ℕ}
    (hx : ∃ i, x ∈ L i) : WellFormed (Mlfq.removeFromQueue q x) (L.remove x) := by
  obtain ⟨i, hi⟩ := hx
  obtain ⟨xs, ys, hL⟩ := List.append_of_mem hi
  have hnodup := h.lanes.nodup i
  rw [hL] at hnodup
  have hxs : x ∉ xs := by grind
  have hother : ∀ j, j ≠ i → x ∉ L j := fun j hj hmem => h.lanes.disjoint j i hj hmem hi
  rw [Fifo.remove_eq_update hother hL hxs]
  exact h.removeFromQueue hL

/-- What the operations on a table with these links make of the lists. -/
structure RefinesFifo (q : QTable) (L : Fifo) : Prop where
  /-- `setupQueue` empties the lists, whatever the table held. -/
  setup : ∀ q', WellFormed (setupQueue q') fun _ => []
  /-- `enqueue` appends to the list whose number it stores in `p->queue`. -/
  enqueue : ∀ k x, k.qtable = q → x < nproc → (∀ i, x ∉ L i) →
    ∃ l : Level, ((Mlfq.enqueue k x).proc x).queue = l.val ∧
      WellFormed (Mlfq.enqueue k x).qtable (L.push l x)
  remove : ∀ x, (∃ i, x ∈ L i) → WellFormed (removeFromQueue q x) (L.remove x)
  dequeue_nil : ∀ k, k.qtable = q → L.all = [] → dequeue k = ⟨k, none⟩
  dequeue_cons : ∀ k x xs, k.qtable = q → L.all = x :: xs →
    (dequeue k).cpu = some x ∧ WellFormed (dequeue k).kernel.qtable (L.remove x) ∧
      (L.remove x).all = xs

/-- The linked queue table refines three FIFO lists. -/
theorem qtable_refines_fifo {q : QTable} {L : Fifo} (h : WellFormed q L) : RefinesFifo q L := by
  have hfirst : firstProcess q = L.all.head? := h.firstProcess_eq
  refine ⟨wellFormed_setupQueue, ?_, fun x hx => h.remove hx, ?_, ?_⟩
  · rintro k x rfl hx hfresh
    refine ⟨assignedLevel (k.proc x), by simp, ?_⟩
    rw [enqueue_qtable]
    exact h.appendTo hx hfresh _
  · rintro k rfl hnil
    rw [hnil] at hfirst
    simp only [dequeue, hfirst, List.head?_nil]
  · rintro k x xs rfl hcons
    rw [hcons, List.head?_cons] at hfirst
    obtain ⟨i, ys, hi, -⟩ := h.firstProcess_cons hfirst
    have hunique : ∀ i j, x ∈ L i → x ∈ L j → i = j := by
      intro i j hi hj
      by_contra hij
      exact h.lanes.disjoint i j hij hi hj
    refine ⟨by simp only [dequeue, hfirst], ?_, ?_⟩
    · simp only [dequeue, hfirst]
      exact h.remove ⟨i, by simp [hi]⟩
    · rw [Fifo.all_remove hunique, hcons, List.erase_cons_head]

/-- Process 2 on level 0 and processes 3, 5 and 9, in this order, on level 1. -/
def busyTable : QTable :=
  appendTo (appendTo (appendTo (appendTo (setupQueue bootKernel.qtable) 3 1) 2 0) 5 1) 9 1

def busyLists : Fifo := (((Fifo.push (fun _ => []) 1 3).push 0 2).push 1 5).push 1 9

/-- The processes of level 1 are removed at its head, in its middle and at its tail; `dequeue`
takes the process of level 0. -/
theorem qtable_refines_fifo_busyTable :
    (busyLists 0 = [2] ∧ busyLists 1 = [3, 5, 9] ∧ busyLists 2 = []) ∧
    RefinesFifo busyTable busyLists ∧
    (WellFormed (removeFromQueue busyTable 3) (busyLists.remove 3) ∧
      busyLists.remove 3 1 = [5, 9]) ∧
    (WellFormed (removeFromQueue busyTable 5) (busyLists.remove 5) ∧
      busyLists.remove 5 1 = [3, 9]) ∧
    (WellFormed (removeFromQueue busyTable 9) (busyLists.remove 9) ∧
      busyLists.remove 9 1 = [3, 5]) ∧
    (dequeue { bootKernel with qtable := busyTable }).cpu = some 2 := by
  have hwell : WellFormed busyTable busyLists :=
    ((((wellFormed_setupQueue bootKernel.qtable).appendTo (by decide) (by decide) 1).appendTo
      (by decide) (by decide) 0).appendTo (by decide) (by decide) 1).appendTo
        (by decide) (by decide) 1
  have hrefines : RefinesFifo busyTable busyLists := qtable_refines_fifo hwell
  refine ⟨by decide, hrefines, ⟨hrefines.remove 3 ⟨1, by decide⟩, by decide⟩,
    ⟨hrefines.remove 5 ⟨1, by decide⟩, by decide⟩,
    ⟨hrefines.remove 9 ⟨1, by decide⟩, by decide⟩, ?_⟩
  exact (hrefines.dequeue_cons _ 2 [3, 5, 9] rfl (by decide)).1

end CS352.Mlfq
