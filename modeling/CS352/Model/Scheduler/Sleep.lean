import CS352.Model.Scheduler.Kernel

/-! # `sleep` and `wakeup` between the locks

Processes that wait for a condition and wakers that set it, as `kernel/proc.c` runs them on
any number of harts. A waiting process runs
`acquire(lk); while(!cond) sleep(chan, lk); ...; release(lk)`, a waker
`acquire(lk); cond = 1; wakeup(chan); release(lk)`. One step is an `acquire`, a `release` or
the section between two of them. -/

namespace CS352.Scheduler

open Function

open Mlfq (nproc ProcState Chan)

/-- Where a waiting process is. -/
inductive WaitPlace where
  /-- It runs and holds no lock: in front of `acquire(lk)`, its own or that at the end of
  `sleep`. -/
  | running
  /-- At the test of the loop. -/
  | testing
  /-- Behind the loop. -/
  | inside
  /-- At `acquire(&p->lock)` in `sleep`. -/
  | sleep
  /-- At `release(lk)` in `sleep`. -/
  | locked
  /-- In `sleep` with `p->lock` alone. -/
  | released
  /-- In `yield`, with `p->lock`. -/
  | yielding
  /-- It has switched to the scheduler of its hart, which is at `release(&p->lock)`. -/
  | switched
  /-- It is on no hart. -/
  | off
  /-- The scheduler has switched to it, and it is at `release(&p->lock)`. -/
  | resumed
  deriving DecidableEq, Repr

/-- Where a waker is. -/
inductive WakerPlace where
  | idle
  /-- At `acquire(lk)`. -/
  | start
  /-- At `cond = 1`. -/
  | entered
  /-- `wakeup` is at the top of its loop, or at `release(lk)` when the loop is over. -/
  | loop (i : ℕ)
  /-- `wakeup` holds the lock of process `i` and is at the test. -/
  | locked (i : ℕ)
  /-- `wakeup` is at the release of the lock of process `i`. -/
  | marked (i : ℕ)
  /-- It has released `lk`. -/
  | leaving
  deriving DecidableEq, Repr

/-- Who holds a lock. A process passes its own lock to the scheduler of its hart and back
when it switches. -/
inductive Holder (ω : Type*) where
  | process (i : ℕ)
  | scheduler
  | waker (w : ω)
  deriving DecidableEq, Repr

/-- The kernel, `cond`, the locks, and where everybody is. -/
structure Sleepers (ω : Type*) where
  kernel : Kernel
  cond : Bool
  lk : Option (Holder ω)
  /-- `p->lock`. -/
  plock : ℕ → Option (Holder ω)
  place : ℕ → WaitPlace
  /-- A scheduler has acquired `p->lock` and is at the test of `p->state`. -/
  probing : ℕ → Bool
  waker : ω → WakerPlace
  /-- `myproc()` on the hart of the waker. -/
  me : ω → Option ℕ
  /-- The wakers that process `i` has entered, or that interrupt it. -/
  above : ℕ → List ω

/-- A waiting process is named by its slot. A waker is a process that runs the code of the
wakers, or an interrupt handler. -/
inductive SleepAction (ω : Type*) where
  /-- The next step of the process, or of the scheduler it has switched to. -/
  | process (i : ℕ)
  /-- The timer makes the process call `yield`. -/
  | preempt (i : ℕ)
  /-- A scheduler acquires the lock of the process. -/
  | probe (i : ℕ)
  /-- That scheduler looks at the state of the process. -/
  | decide (i : ℕ)
  /-- A waker starts: process `me` calls it or is interrupted by it, or it interrupts a hart
  that has no process. -/
  | enter (w : ω) (me : Option ℕ)
  /-- The next step of the waker. -/
  | waker (w : ω)
  deriving DecidableEq, Repr

/-- The section of `wakeup` for one process. -/
def wake (t : Table) (chan : Chan) (i : ℕ) : Table :=
  if (t.proc i).state = .sleeping ∧ (t.proc i).chan = chan then
    t.setProc i { t.proc i with state := .runnable }
  else t

section

variable {ω : Type*} [DecidableEq ω]

namespace Sleepers

def setTable (s : Sleepers ω) (t : Table) : Sleepers ω := { s with kernel := s.kernel.setTable t }

def setPlock (s : Sleepers ω) (i : ℕ) (holder : Option (Holder ω)) : Sleepers ω :=
  { s with plock := update s.plock i holder }

def moveTo (s : Sleepers ω) (i : ℕ) (place : WaitPlace) : Sleepers ω :=
  { s with place := update s.place i place }

def setProbing (s : Sleepers ω) (i : ℕ) (b : Bool) : Sleepers ω :=
  { s with probing := update s.probing i b }

def moveWaker (s : Sleepers ω) (w : ω) (place : WakerPlace) : Sleepers ω :=
  { s with waker := update s.waker w place }

end Sleepers

/-- A process does not go on below a waker that it has entered or that interrupts it. -/
def processStep (chan : Chan) (s : Sleepers ω) (i : ℕ) : Option (Sleepers ω) :=
  match s.place i with
  | .running =>
    if s.lk = none ∧ s.above i = [] then some { s.moveTo i .testing with lk := some (.process i) }
    else none
  | .testing => some (s.moveTo i (if s.cond then .inside else .sleep))
  | .inside => some { s.moveTo i .running with lk := none }
  | .sleep =>
    if s.plock i = none then some ((s.moveTo i .locked).setPlock i (some (.process i))) else none
  | .locked => some { s.moveTo i .released with lk := none }
  | .released => some ((s.setTable (sleep s.kernel.toTable i chan)).moveTo i .switched)
  | .yielding => some ((s.setTable (yield s.kernel.toTable i)).moveTo i .switched)
  | .switched => some ((s.moveTo i .off).setPlock i none)
  | .off => none
  | .resumed => some (({ s with kernel := resume s.kernel i }.moveTo i .running).setPlock i none)

def preemptStep (s : Sleepers ω) (i : ℕ) : Option (Sleepers ω) :=
  if s.place i = .running ∧ s.above i = [] ∧ s.plock i = none then
    some ((s.moveTo i .yielding).setPlock i (some (.process i)))
  else none

def probeStep (s : Sleepers ω) (i : ℕ) : Option (Sleepers ω) :=
  if s.plock i = none then some ((s.setProbing i true).setPlock i (some .scheduler)) else none

def decideStep (s : Sleepers ω) (i : ℕ) : Option (Sleepers ω) :=
  if s.probing i then
    let s := s.setProbing i false
    if (s.kernel.proc i).state = .runnable then
      some (({ s with kernel := dispatch s.kernel i }.moveTo i .resumed).setPlock i
        (some (.process i)))
    else some (s.setPlock i none)
  else none

/-- A waker enters on a hart whose process, if it has one, holds no lock: interrupts are
off while a lock is held. -/
def enterStep (s : Sleepers ω) (w : ω) (me : Option ℕ) : Option (Sleepers ω) :=
  if s.waker w = .idle then
    let s := { s.moveWaker w .start with me := update s.me w me }
    match me with
    | none => some s
    | some i =>
      if s.place i = .running then
        some { s with above := update s.above i (w :: s.above i) }
      else none
  else none

def wakerStep (chan : Chan) (s : Sleepers ω) (w : ω) : Option (Sleepers ω) :=
  match s.waker w with
  | .idle => none
  | .start =>
    if s.lk = none then some { s.moveWaker w .entered with lk := some (.waker w) } else none
  | .entered => some { s.moveWaker w (.loop 0) with cond := true }
  | .loop i =>
    if i < nproc then
      if s.me w = some i then some (s.moveWaker w (.loop (i + 1)))
      else if s.plock i = none then
        some ((s.moveWaker w (.locked i)).setPlock i (some (.waker w)))
      else none
    else some { s.moveWaker w .leaving with lk := none }
  | .locked i => some ((s.setTable (wake s.kernel.toTable chan i)).moveWaker w (.marked i))
  | .marked i => some ((s.moveWaker w (.loop (i + 1))).setPlock i none)
  | .leaving =>
    let s := s.moveWaker w .idle
    match s.me w with
    | none => some s
    | some i => some { s with above := update s.above i ((s.above i).filter (· ≠ w)) }

def sleepStep (chan : Chan) (s : Sleepers ω) : SleepAction ω → Option (Sleepers ω)
  | .process i => if i < nproc then processStep chan s i else none
  | .preempt i => if i < nproc then preemptStep s i else none
  | .probe i => if i < nproc then probeStep s i else none
  | .decide i => if i < nproc then decideStep s i else none
  | .enter w me => enterStep s w me
  | .waker w => wakerStep chan s w

/-- Nobody runs yet. -/
def startSleepers (k : Kernel) (cond : Bool) : Sleepers ω :=
  { kernel := k, cond := cond, lk := none, plock := fun _ => none, place := fun _ => .off,
    probing := fun _ => false, waker := fun _ => .idle, me := fun _ => none,
    above := fun _ => [] }

end

end CS352.Scheduler
