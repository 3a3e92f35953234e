import CS352.Model.Mlfq.Interrupts

/-! # `dequeue` under interrupts

`dequeue` and `removeFromQueue` of `kernel/proc.c` with one step for each access to
`qtable`, to `struct cpu` and to the process. While interrupts are on, a handler may call
`wakeup` between any two steps; it runs to completion. -/

namespace CS352.Mlfq

/-- Where `dequeue` is. A position names the access that comes next; the arguments are
the local variables. -/
inductive DequeuePc where
  /-- `if(qtable[HEAD_Qi].next != TAIL_Qi)`. -/
  | test (i : Level)
  /-- `p = &proc[qtable[HEAD_Qi].next]`. -/
  | choose (i : Level)
  /-- `qtable[pindex].queue = EMPTY`. -/
  | setQueue (p : ℕ)
  /-- `oldPrev = qtable[pindex].prev`. -/
  | readPrev (p : ℕ)
  /-- `oldNext = qtable[pindex].next`. -/
  | readNext (p oldPrev : ℕ)
  /-- `qtable[oldPrev].next = oldNext`. -/
  | writeNext (p oldPrev oldNext : ℕ)
  /-- `qtable[oldNext].prev = oldPrev`. -/
  | writePrev (p oldPrev oldNext : ℕ)
  /-- `c->proc = 0`. -/
  | clearProc (p : ℕ)
  | intrOn (p : ℕ)
  /-- `acquire(&p->lock)`. -/
  | acquire (p : ℕ)
  /-- `p->state = RUNNING`. -/
  | setState (p : ℕ)
  /-- `c->proc = p`. -/
  | setProc (p : ℕ)
  | swtch (p : ℕ)
  /-- All queues were empty. -/
  | returned
  deriving DecidableEq, Repr

structure DequeueState where
  kernel : Kernel
  cpu : Option ℕ
  hart : Hart
  pc : DequeuePc

inductive DequeueAction where
  | step
  /-- The handler of an interrupt calls `wakeup(chan)`. -/
  | interrupt (chan : Chan)
  deriving DecidableEq, Repr

/-- The `else if` after the test of level `i`. -/
def nextTest : Level → DequeuePc
  | 0 => .test 1
  | 1 => .test 2
  | 2 => .returned

def dequeueStep (s : DequeueState) : DequeueAction → Option DequeueState
  | .interrupt chan =>
    if s.hart.sie then some { s with kernel := wakeup s.kernel s.cpu chan } else none
  | .step =>
    let k := s.kernel
    let q := s.kernel.qtable
    match s.pc with
    | .test i => some
        { s with pc := if q.next (headQ i) ≠ tailQ i then .choose i else nextTest i }
    | .choose i => some { s with pc := .setQueue (q.next (headQ i)) }
    | .setQueue p => some
        { s with kernel := { k with qtable := q.setQueue p empty }, pc := .readPrev p }
    | .readPrev p => some { s with pc := .readNext p (q.prev p) }
    | .readNext p oldPrev => some { s with pc := .writeNext p oldPrev (q.next p) }
    | .writeNext p oldPrev oldNext => some
        { s with
          kernel := { k with qtable := q.setNext oldPrev oldNext }
          pc := .writePrev p oldPrev oldNext }
    | .writePrev p oldPrev oldNext => some
        { s with
          kernel := { k with qtable := q.setPrev oldNext oldPrev }, pc := .clearProc p }
    | .clearProc p => some { s with cpu := none, pc := .intrOn p }
    | .intrOn p => some { s with hart := intrOn s.hart, pc := .acquire p }
    | .acquire p => some { s with hart := acquire s.hart, pc := .setState p }
    | .setState p => some { s with kernel := markRunning k p, pc := .setProc p }
    | .setProc p => some { s with cpu := some p, pc := .swtch p }
    | .swtch _ | .returned => none

/-- The scheduler calls `dequeue`. -/
def callDequeue (k : Kernel) (h : Hart) : DequeueState :=
  { kernel := k, cpu := none, hart := h, pc := .test 0 }

end CS352.Mlfq
