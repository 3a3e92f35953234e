import Mathlib.Algebra.GroupWithZero.Nat
import Mathlib.Data.Fin.Basic
import Mathlib.Logic.Function.Basic

/-! # The queue table of the MLFQ kernel

`kernel/proc.c` threads three doubly linked queues through `qtable`. Entry `i < nproc`
belongs to `proc[i]`; the six entries above hold the head and tail of each queue. -/

namespace CS352.Mlfq

open Function

def nproc : ℕ := 64

/-- A queue number; `NUM_QUEUES` is 3. -/
abbrev Level := Fin 3

/-- For the literals of `Level`. -/
instance level_ne : NeZero 3 := ⟨by decide⟩

/-- `EMPTY` is `-1` stored in a `uint64`. -/
def empty : ℕ := 2 ^ 64 - 1

/-- `HEAD_Q0`, `HEAD_Q1` and `HEAD_Q2`. -/
def headQ : Level → ℕ
  | 0 => 64
  | 1 => 66
  | 2 => 68

/-- `TAIL_Q0`, `TAIL_Q1` and `TAIL_Q2`. -/
def tailQ : Level → ℕ
  | 0 => 65
  | 1 => 67
  | 2 => 69

/-- `qtable[i].queue`, `qtable[i].prev` and `qtable[i].next`, one function for each
field of `struct qentry`. Links are copied through `int` locals in the source; every
link is below 70, so the narrowing loses nothing. -/
structure QTable where
  queue : ℕ → ℕ
  prev : ℕ → ℕ
  next : ℕ → ℕ

namespace QTable

def setQueue (q : QTable) (i v : ℕ) : QTable := { q with queue := update q.queue i v }

def setPrev (q : QTable) (i v : ℕ) : QTable := { q with prev := update q.prev i v }

def setNext (q : QTable) (i v : ℕ) : QTable := { q with next := update q.next i v }

section Fields

variable (q : QTable) (i v : ℕ)

@[simp] theorem setQueue_queue : (q.setQueue i v).queue = update q.queue i v := rfl
@[simp] theorem setQueue_prev : (q.setQueue i v).prev = q.prev := rfl
@[simp] theorem setQueue_next : (q.setQueue i v).next = q.next := rfl
@[simp] theorem setPrev_queue : (q.setPrev i v).queue = q.queue := rfl
@[simp] theorem setPrev_prev : (q.setPrev i v).prev = update q.prev i v := rfl
@[simp] theorem setPrev_next : (q.setPrev i v).next = q.next := rfl
@[simp] theorem setNext_queue : (q.setNext i v).queue = q.queue := rfl
@[simp] theorem setNext_prev : (q.setNext i v).prev = q.prev := rfl
@[simp] theorem setNext_next : (q.setNext i v).next = update q.next i v := rfl

end Fields

end QTable

/-- The head and tail assignments that `setupQueue` repeats for each level. -/
def resetLevel (q : QTable) (i : Level) : QTable :=
  let q := q.setQueue (headQ i) i
  let q := q.setNext (headQ i) (tailQ i)
  let q := q.setQueue (tailQ i) i
  q.setPrev (tailQ i) (headQ i)

def setupQueue (q : QTable) : QTable :=
  let q := (List.range nproc).foldl (fun q i => q.setQueue i empty) q
  resetLevel (resetLevel (resetLevel q 0) 1) 2

/-- The table part of the three branches at the end of `enqueue`. -/
def appendTo (q : QTable) (pindex : ℕ) (i : Level) : QTable :=
  let q := q.setQueue pindex i
  let oldTail := q.prev (tailQ i)
  let q := q.setPrev pindex oldTail
  let q := q.setNext pindex (tailQ i)
  let q := q.setNext oldTail pindex
  q.setPrev (tailQ i) pindex

/-- The links of the removed entry itself stay as they are. -/
def removeFromQueue (q : QTable) (pindex : ℕ) : QTable :=
  let q := q.setQueue pindex empty
  let oldPrev := q.prev pindex
  let oldNext := q.next pindex
  let q := q.setNext oldPrev oldNext
  q.setPrev oldNext oldPrev

/-- The process `dequeue` chooses: the first of the highest queue that is not empty. -/
def firstProcess (q : QTable) : Option ℕ :=
  if q.next (headQ 0) ≠ tailQ 0 then some (q.next (headQ 0))
  else if q.next (headQ 1) ≠ tailQ 1 then some (q.next (headQ 1))
  else if q.next (headQ 2) ≠ tailQ 2 then some (q.next (headQ 2))
  else none

end CS352.Mlfq
