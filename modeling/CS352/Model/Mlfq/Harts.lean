import CS352.Model.Mlfq.Kernel

/-! # Several harts

`main` starts `scheduler` on every hart. The harts share the kernel and the process locks.
One step is the boost test with the boost, the choice of `dequeue` with
`removeFromQueue`, `acquire(&p->lock)` with the marks of `dequeue`, the first lines of the
process that was switched to, or a whole operation of `kernel/proc.c`. -/

namespace CS352.Mlfq

/-- Where a hart is. -/
inductive HartPlace where
  /-- At the top of the scheduler loop. -/
  | loop
  /-- At the call of `dequeue`. -/
  | dequeue
  /-- `dequeue` has removed the process from its queue. -/
  | picked (p : ℕ)
  /-- `dequeue` has switched to the process and holds its lock. -/
  | switched (p : ℕ)
  /-- The process has released its lock. -/
  | running (p : ℕ)
  deriving DecidableEq, Repr

/-- `c->proc`. -/
def HartPlace.proc : HartPlace → Option ℕ
  | .switched p | .running p => some p
  | .loop | .dequeue | .picked _ => none

/-- The shared kernel, `lock.locked` of each process, and where each hart is. -/
structure Harts (ι : Type*) where
  kernel : Kernel
  locked : ℕ → Bool
  place : ι → HartPlace

inductive HartsAction where
  | boostCheck
  | pick
  | dispatch
  | resume
  /-- An operation of the process on the hart, or a call in an interrupt handler. -/
  | operation (a : Action)
  deriving DecidableEq, Repr

/-- The locks that a loop over `proc[]` acquires when it returns at the first process
with `P`. -/
def scanned (k : Kernel) (P : Proc → Bool) : List ℕ :=
  (List.range nproc).takeWhile (fun i => !P (k.proc i)) ++
    ((List.range nproc).find? fun i => P (k.proc i)).toList

/-- The processes whose locks an operation acquires on a hart with `c->proc = me`. -/
def acquires (k : Kernel) (me : Option ℕ) : Action → List ℕ
  | .userinit _ | .fork _ => scanned k fun p => p.state = .unused
  | .yield | .sleep _ => me.toList
  | .wakeup _ => (List.range nproc).filter fun i => me ≠ some i
  | .kill pid => scanned k fun p => p.pid = pid
  -- `wakeup` takes the lock of every other process, and then `exit` its own.
  | .exit _ => List.range nproc
  | .wait _ _ =>
    let children := (List.range nproc).filter fun i => (k.proc i).parent = me
    match children.find? fun i => (k.proc i).state = .zombie with
    | some i => (children.takeWhile fun i => (k.proc i).state ≠ .zombie) ++ [i]
    -- With children but no zombie, `killed(p)` and `sleep` take the caller's own lock.
    | none => if children = [] then [] else children ++ me.toList
  | .setNice _ | .startlog | .tick | .schedule => []

/-- `userinit` has run before any hart schedules, the scheduler has its own steps, and a
hart that holds a process lock takes no interrupt. -/
def HartPlace.allows : HartPlace → Action → Bool
  | _, .userinit _ | _, .schedule => false
  | .switched _, _ => false
  | _, _ => true

section

variable {ι : Type*} [DecidableEq ι]

/-- Hart `h` goes to `place`. -/
def Harts.moveTo (s : Harts ι) (h : ι) (place : HartPlace) : Harts ι :=
  { s with place := Function.update s.place h place }

def Harts.setLocked (s : Harts ι) (p : ℕ) (b : Bool) : Harts ι :=
  { s with locked := Function.update s.locked p b }

/-- One step of one hart. A process that gives up the processor leaves its hart at the top
of the loop. -/
def hartsStep (s : Harts ι) : ι × HartsAction → Option (Harts ι)
  | (h, .boostCheck) => match s.place h with
    | .loop => some ({ s with kernel := boostCheck s.kernel }.moveTo h .dequeue)
    | _ => none
  | (h, .pick) => match s.place h with
    | .dequeue => match firstProcess s.kernel.qtable with
      | none => some (s.moveTo h .loop)
      | some p => some ({ s with kernel := unlinkProc s.kernel p }.moveTo h (.picked p))
    | _ => none
  | (h, .dispatch) => match s.place h with
    | .picked p =>
      if s.locked p then none
      else some (({ s with kernel := markRunning s.kernel p }.setLocked p true).moveTo h
        (.switched p))
    | _ => none
  | (h, .resume) => match s.place h with
    | .switched p => some
        (({ s with kernel := resume s.kernel p }.setLocked p false).moveTo h (.running p))
    | _ => none
  | (h, .operation a) =>
    let me := (s.place h).proc
    if (s.place h).allows a ∧ ∀ x ∈ acquires s.kernel me a, s.locked x = false then
      (step ⟨s.kernel, me⟩ a).map fun m =>
        let s := { s with kernel := m.kernel }
        if m.cpu = me then s else s.moveTo h .loop
    else none

/-- Every hart enters `scheduler`. -/
def startHarts (k : Kernel) : Harts ι :=
  { kernel := k, locked := fun _ => false, place := fun _ => .loop }

end

end CS352.Mlfq
