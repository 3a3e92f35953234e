import CS352.Model.Mlfq.Harts

/-! # The process tree

`fork`, `exit`, `wait` and `kill` of `kernel/proc.c`, called by any number of processes at
the same time. One step is a critical section of `wait_lock` or of one `p->lock`; the
processes take turns between the sections in any order. -/

namespace CS352.Mlfq

/-! ## Sections -/

/-- `fork` at the slot that `allocproc` has found, up to `release(&np->lock)`; the second
component tells whether the slot was kept. -/
def forkAt (k : Kernel) (i : ℕ) (mem : Memory) : Kernel × Bool :=
  let k := k.setProc i { k.proc i with pid := k.nextpid, state := .used }
  let k := { k with nextpid := int (k.nextpid + 1) }
  if mem.trapframe = false then (freeproc k i, false)
  else if mem.pagetable = false then (freeproc k i, false)
  else if mem.image = false then (freeproc k i, false)
  else (k, true)

/-- `kill` at the process with the given pid. -/
def killAt (k : Kernel) (i : ℕ) : Kernel :=
  let k := k.setProc i { k.proc i with killed := 1 }
  if (k.proc i).state = .sleeping then makeRunnable k i else k

/-- The zombie that the loop of `wait` finds first. -/
def foundZombie (k : Kernel) (p : ℕ) : Option ℕ :=
  (List.range nproc).find? fun i => (k.proc i).parent = some p ∧ (k.proc i).state = .zombie

/-! ## State -/

/-- Where a process is in the four calls. -/
inductive TreePlace where
  /-- In none of them. -/
  | out
  /-- `fork` has come to slot `i` in the loop of `allocproc`. -/
  | allocating (i : ℕ)
  /-- `fork` is at `acquire(&wait_lock)`. -/
  | adopting (np : ℕ)
  /-- `fork` is at the second `acquire(&np->lock)`. -/
  | starting (np : ℕ)
  /-- `kill` has come to slot `i`. -/
  | killing (i : ℕ) (pid : ℤ)
  /-- `exit` has released `wait_lock`; `p->lock` is held until the scheduler releases it. -/
  | exiting
  deriving DecidableEq, Repr

/-- The slot that a `fork` under way has taken. -/
def TreePlace.child : TreePlace → Option ℕ
  | .adopting np | .starting np => some np
  | _ => none

/-- History of a slot. No modelled function reads it. -/
inductive SlotEvent where
  /-- The process with this pid exited. -/
  | exit (pid status : ℤ)
  /-- `wait(addr)` of `caller` freed the slot, whose parent was `parent`; it returned
  `returned` and copied `stored` to `addr`. -/
  | reap (caller : ℕ) (parent : Option ℕ) (addr : ℕ) (returned : Option ℤ) (stored : Option ℤ)
  deriving DecidableEq, Repr

structure Tree where
  kernel : Kernel
  place : ℕ → TreePlace
  events : ℕ → List SlotEvent

namespace Tree

def setKernel (s : Tree) (k : Kernel) : Tree := { s with kernel := k }

def moveTo (s : Tree) (p : ℕ) (place : TreePlace) : Tree :=
  { s with place := Function.update s.place p place }

def record (s : Tree) (x : ℕ) (e : SlotEvent) : Tree :=
  { s with events := Function.update s.events x (s.events x ++ [e]) }

/-- Nobody holds the lock of process `i` between two sections. -/
def unlocked (s : Tree) (i : ℕ) : Bool := s.place i ≠ .exiting

/-- The process runs and is in none of the four calls. -/
def isOut (s : Tree) (p : ℕ) : Bool :=
  p < nproc ∧ (s.kernel.proc p).state = .running ∧ s.place p = .out

end Tree

/-! ## Steps -/

/-- The next section of the call that a process is in. -/
def nextSection (s : Tree) (p : ℕ) (mem : Memory) : Option Tree :=
  match s.place p with
  | .out => none
  | .allocating i =>
    if i < nproc then
      if s.unlocked i = false then none
      else if (s.kernel.proc i).state = .unused then
        let r := forkAt s.kernel i mem
        some ((s.setKernel r.1).moveTo p (if r.2 then .adopting i else .out))
      else some (s.moveTo p (.allocating (i + 1)))
    else some (s.moveTo p .out)
  | .adopting np =>
    some ((s.setKernel (s.kernel.setProc np { s.kernel.proc np with parent := some p })).moveTo p
      (.starting np))
  | .starting np =>
    if s.unlocked np then some ((s.setKernel (makeRunnable s.kernel np)).moveTo p .out) else none
  | .killing i pid =>
    if i < nproc then
      if s.unlocked i = false then none
      else if (s.kernel.proc i).pid = pid then
        some ((s.setKernel (killAt s.kernel i)).moveTo p .out)
      else some (s.moveTo p (.killing (i + 1) pid))
    else some (s.moveTo p .out)
  | .exiting => some (s.moveTo p .out)

inductive TreeAction where
  /-- The process calls `fork`. -/
  | fork (p : ℕ)
  /-- The process calls `kill`. -/
  | kill (p : ℕ) (pid : ℤ)
  /-- The next section of the call that the process is in. -/
  | next (p : ℕ) (mem : Memory)
  /-- `exit` up to `release(&wait_lock)`. -/
  | exit (p : ℕ) (status : ℤ)
  /-- One pass of the loop in `wait`, up to its return or its `sleep`. -/
  | wait (p : ℕ) (addr : ℕ) (copyoutOk : Bool)
  | sleep (p : ℕ) (chan : Chan)
  | yield (p : ℕ)
  /-- Some `wakeup` comes to the process. -/
  | wake (x : ℕ)
  /-- Some hart switches to the process. -/
  | dispatch (x : ℕ)
  deriving DecidableEq, Repr

/-- A process may be preempted between two sections. `wait` and `exit` can run when the
process locks that they acquire are free. -/
def treeStep (s : Tree) : TreeAction → Option Tree
  | .fork p => if s.isOut p then some (s.moveTo p (.allocating 0)) else none
  | .kill p pid => if s.isOut p then some (s.moveTo p (.killing 0 pid)) else none
  | .next p mem =>
    if (s.kernel.proc p).state = .running ∨ s.place p = .exiting then nextSection s p mem else none
  | .exit p status =>
    if s.isOut p ∧ ∀ x ∈ acquires s.kernel (some p) (.exit status), s.unlocked x then
      (exit s.kernel p status).map fun k =>
        ((s.setKernel k).moveTo p .exiting).record p (.exit (s.kernel.proc p).pid status)
    else none
  | .wait p addr copyoutOk =>
    if s.isOut p ∧ ∀ x ∈ acquires s.kernel (some p) (.wait addr copyoutOk), s.unlocked x then
      let r := wait s.kernel p addr copyoutOk
      match foundZombie s.kernel p with
      | some x =>
        if addr ≠ 0 ∧ copyoutOk = false then some (s.setKernel r.1)
        else some ((s.setKernel r.1).record x (.reap p (s.kernel.proc x).parent addr r.2
          (if addr ≠ 0 then some (s.kernel.proc x).xstate else none)))
      | none => some (s.setKernel r.1)
    else none
  | .sleep p chan => if s.isOut p then some (s.setKernel (sleep s.kernel p chan)) else none
  | .yield p =>
    if (s.kernel.proc p).state = .running then some (s.setKernel (yield s.kernel p)) else none
  | .wake x =>
    if (s.kernel.proc x).state = .sleeping then some (s.setKernel (makeRunnable s.kernel x))
    else none
  | .dispatch x =>
    if (s.kernel.proc x).state = .runnable then
      some (s.setKernel (resume (markRunning (unlinkProc s.kernel x) x) x))
    else none

def startTree (k : Kernel) : Tree :=
  { kernel := k, place := fun _ => .out, events := fun _ => [] }

end CS352.Mlfq
