import CS352.Model.Mlfq.Queue
import Mathlib.Algebra.Group.Int.Defs
import Mathlib.Data.Int.Basic

/-! # The MLFQ kernel

The scheduling part of `kernel/proc.c`: every function that changes a process state, a
queue or one of the counters that the scheduler reads. Arrays are functions of the index,
pointers into `proc[]` are indices, and an `int` is an integer with its additions taken
modulo `2 ^ 32`. -/

namespace CS352.Mlfq

/-- The value that a 32-bit `int` holds after storing `x`. -/
def int (x : ℤ) : ℤ := x.bmod (2 ^ 32)

theorem int_of_small {x : ℤ} (h : 0 ≤ x) (h' : x < 2 ^ 31) : int x = x := by
  rw [int, Int.bmod_eq_of_le] <;> omega

/-! ## Data -/

/-- `enum procstate`. -/
inductive ProcState where
  | unused
  | used
  | sleeping
  | runnable
  | running
  | zombie
  deriving DecidableEq, Repr

/-- A sleep channel: the null pointer, the address of a process, of `ticks`, or of some
other kernel object. -/
inductive Chan where
  | null
  | proc (i : ℕ)
  | ticks
  | object (a : ℕ)
  deriving DecidableEq, Repr

/-- The channel that a possibly null `struct proc *` denotes. -/
def Chan.ofProc : Option ℕ → Chan
  | none => .null
  | some i => .proc i

/-- The fields of `struct proc` that the scheduler and the process tree use. -/
structure Proc where
  state : ProcState
  chan : Chan
  killed : ℤ
  xstate : ℤ
  pid : ℤ
  parent : Option ℕ
  nice : ℤ
  quanta : ℤ
  queue : ℤ
  deriving DecidableEq, Repr

structure LogEntry where
  pid : ℤ
  time : ℤ
  deriving DecidableEq, Repr

/-- The entries are of different processes. -/
def OtherPid (a b : LogEntry) : Prop := a.pid ≠ b.pid

instance : DecidableRel OtherPid := fun a b => inferInstanceAs (Decidable (a.pid ≠ b.pid))

/-- `LOG_SIZE`. -/
def logSize : ℤ := 100

/-- History of the scheduler. No modelled function reads it. -/
inductive Event where
  /-- `freeproc` released the slot. -/
  | free (p : ℕ)
  /-- The nice value of the process was assigned. -/
  | nice (p : ℕ)
  /-- `enqueue` was called for the process with this record and chose this level. -/
  | enqueue (p : ℕ) (arg : Proc) (level : Level)
  /-- The priority boost started. -/
  | boost
  /-- `dequeue` switched to the process. -/
  | dispatch (p : ℕ)
  deriving DecidableEq, Repr

/-- The globals of `proc.c` together with the history. -/
structure Kernel where
  proc : ℕ → Proc
  qtable : QTable
  initproc : Option ℕ
  nextpid : ℤ
  schedlog : ℤ → LogEntry
  time : ℤ
  isLogging : Bool
  numLogged : ℤ
  isQueueSetup : Bool
  timeSincePriorityBoost : ℤ
  trace : List Event

namespace Kernel

def setProc (k : Kernel) (i : ℕ) (p : Proc) : Kernel :=
  { k with proc := Function.update k.proc i p }

def record (k : Kernel) (e : Event) : Kernel := { k with trace := k.trace ++ [e] }

end Kernel

/-! ## Queues -/

/-- The first test of `enqueue`: the queue that the nice value asks for, and the quanta,
which restart when that queue is above the recorded one. -/
def selectQueue (p : Proc) : ℤ × ℤ :=
  if p.nice > 10 then (0, if p.queue > 0 then 0 else p.quanta)
  else if p.nice ≤ 10 ∧ p.nice > -10 then (1, if p.queue > 1 then 0 else p.quanta)
  else (2, p.quanta)

/-- The second test of `enqueue`: quanta beyond the allotment move the process down. -/
def checkQuanta (queueToInsertTo quanta : ℤ) : ℤ × ℤ :=
  if quanta > 15 ∧ queueToInsertTo = 0 then (queueToInsertTo + 1, 0)
  else if quanta > 10 ∧ queueToInsertTo = 1 then (queueToInsertTo + 1, 0)
  else if quanta > 1 ∧ queueToInsertTo = 2 then (queueToInsertTo, 0)
  else (queueToInsertTo, quanta)

/-- One of the three branches at the end of `enqueue`. -/
def insertInto (k : Kernel) (i : ℕ) (quanta : ℤ) (level : Level) : Kernel :=
  let p := k.proc i
  let k := k.record (.enqueue i p level)
  let k := k.setProc i { p with quanta := quanta, queue := level.val }
  { k with qtable := appendTo k.qtable i level }

def enqueue (k : Kernel) (i : ℕ) : Kernel :=
  let selected := selectQueue (k.proc i)
  let checked := checkQuanta selected.1 selected.2
  let queueToInsertTo := if checked.1 > 2 then 2 else checked.1
  if queueToInsertTo = 0 then insertInto k i checked.2 0
  else if queueToInsertTo = 1 then insertInto k i checked.2 1
  else insertInto k i checked.2 2

/-- The guard in front of every call of `enqueue` outside the scheduler. -/
def ensureQueue (k : Kernel) : Kernel :=
  if k.isQueueSetup then k
  else { k with qtable := setupQueue k.qtable, isQueueSetup := true }

/-- The lines by which `userinit`, `fork`, `wakeup` and `kill` let a process run. -/
def makeRunnable (k : Kernel) (i : ℕ) : Kernel :=
  enqueue (ensureQueue (k.setProc i { k.proc i with state := .runnable })) i

/-! ## Scheduler -/

/-- The loop of the priority boost, over the given part of the process table. -/
def enqueueRunnable (k : Kernel) (xs : List ℕ) : Kernel :=
  xs.foldl (fun k i => if (k.proc i).state = .runnable then enqueue k i else k) k

/-- The boost branch of `scheduler`. -/
def priorityBoost (k : Kernel) : Kernel :=
  let k := k.record .boost
  let k := { k with qtable := setupQueue k.qtable }
  let k := enqueueRunnable k (List.range nproc)
  { k with timeSincePriorityBoost := 0 }

/-- The test at the top of the scheduler loop. -/
def boostCheck (k : Kernel) : Kernel :=
  if k.timeSincePriorityBoost > 60 then priorityBoost k else k

/-- `dequeue` takes the chosen process off its queue. -/
def unlinkProc (k : Kernel) (i : ℕ) : Kernel :=
  { k with qtable := removeFromQueue k.qtable i }

/-- `dequeue` marks the chosen process before it switches to it. -/
def markRunning (k : Kernel) (i : ℕ) : Kernel :=
  (k.setProc i { k.proc i with state := .running }).record (.dispatch i)

/-- The rest of `dequeue`, after process `i` has switched back. -/
def afterSwitch (k : Kernel) (i : ℕ) : Kernel :=
  if k.isLogging ∧ (k.numLogged = 0 ∨ (k.schedlog (k.numLogged - 1)).pid ≠ (k.proc i).pid) ∧
      k.numLogged < logSize then
    { k with
      schedlog := Function.update k.schedlog k.numLogged ⟨(k.proc i).pid, k.time⟩
      numLogged := int (k.numLogged + 1) }
  else k

/-- What a process does first when it is switched to. One that left the processor in
`sleep` clears its channel there; one that left in `yield`, or is new, has none. -/
def resume (k : Kernel) (i : ℕ) : Kernel := k.setProc i { k.proc i with chan := .null }

/-! ## Process operations up to the call of `sched` -/

def yield (k : Kernel) (i : ℕ) : Kernel :=
  let k := k.setProc i { k.proc i with state := .runnable }
  let k := ensureQueue k
  let k := k.setProc i { k.proc i with quanta := int ((k.proc i).quanta + 1) }
  let k := { k with timeSincePriorityBoost := int (k.timeSincePriorityBoost + 1) }
  enqueue k i

def sleep (k : Kernel) (i : ℕ) (chan : Chan) : Kernel :=
  k.setProc i { k.proc i with chan := chan, state := .sleeping }

/-- `me` is the process of the calling hart, if it has one. -/
def wakeup (k : Kernel) (me : Option ℕ) (chan : Chan) : Kernel :=
  (List.range nproc).foldl
    (fun k i =>
      if me ≠ some i ∧ (k.proc i).state = .sleeping ∧ (k.proc i).chan = chan then makeRunnable k i
      else k) k

def kill (k : Kernel) (pid : ℤ) : Kernel × ℤ :=
  match (List.range nproc).find? fun i => (k.proc i).pid = pid with
  | none => (k, -1)
  | some i =>
    let k := k.setProc i { k.proc i with killed := 1 }
    (if (k.proc i).state = .sleeping then makeRunnable k i else k, 0)

def setkilled (k : Kernel) (i : ℕ) : Kernel := k.setProc i { k.proc i with killed := 1 }

/-- `quanta` and `queue` keep their values. -/
def freeproc (k : Kernel) (i : ℕ) : Kernel :=
  (k.setProc i { k.proc i with
    pid := 0, parent := none, chan := .null, killed := 0, xstate := 0, state := .unused,
    nice := 0 }).record (.free i)

/-- Which of the memory allocations on the way to a new process succeed: the trapframe
page, the page table and the copy of the parent's image. -/
structure Memory where
  trapframe : Bool
  pagetable : Bool
  image : Bool
  deriving DecidableEq, Repr

def allocproc (k : Kernel) (mem : Memory) : Kernel × Option ℕ :=
  match (List.range nproc).find? fun i => (k.proc i).state = .unused with
  | none => (k, none)
  | some i =>
    let k := (k.setProc i { k.proc i with pid := k.nextpid, state := .used })
    let k := { k with nextpid := int (k.nextpid + 1) }
    if mem.trapframe = false then (freeproc k i, none)
    else if mem.pagetable = false then (freeproc k i, none)
    else (k, some i)

/-- `none` when `allocproc` fails, which the source does not check. -/
def userinit (k : Kernel) (mem : Memory) : Option Kernel :=
  match allocproc k mem with
  | (_, none) => none
  | (k, some i) => some (makeRunnable { k with initproc := some i } i)

def fork (k : Kernel) (p : ℕ) (mem : Memory) : Kernel × ℤ :=
  match allocproc k mem with
  | (k, none) => (k, -1)
  | (k, some i) =>
    if mem.image = false then (freeproc k i, -1)
    else
      let pid := (k.proc i).pid
      let k := k.setProc i { k.proc i with parent := some p }
      (makeRunnable k i, pid)

def reparent (k : Kernel) (p : ℕ) : Kernel :=
  (List.range nproc).foldl
    (fun k i =>
      if (k.proc i).parent = some p then
        wakeup (k.setProc i { k.proc i with parent := k.initproc }) (some p) (.ofProc k.initproc)
      else k) k

/-- `none` is the panic of an exiting `init`. The files are closed before, in steps of
their own. -/
def exit (k : Kernel) (p : ℕ) (status : ℤ) : Option Kernel :=
  if k.initproc = some p then none
  else
    let k := reparent k p
    let k := wakeup k (some p) (.ofProc (k.proc p).parent)
    some (k.setProc p { k.proc p with xstate := status, state := .zombie })

/-- One pass of the loop in `wait`; the second component is `none` when the process goes
to sleep and will repeat the pass. `copyoutOk` is the result of `copyout` at `addr`. -/
def wait (k : Kernel) (p : ℕ) (addr : ℕ) (copyoutOk : Bool) : Kernel × Option ℤ :=
  match (List.range nproc).find?
      fun i => (k.proc i).parent = some p ∧ (k.proc i).state = .zombie with
  | some i =>
    if addr ≠ 0 ∧ copyoutOk = false then (k, some (-1))
    else (freeproc k i, some (k.proc i).pid)
  | none =>
    let havekids := (List.range nproc).any fun i => (k.proc i).parent = some p
    if havekids = false ∨ (k.proc p).killed ≠ 0 then (k, some (-1))
    else (sleep k p (.proc p), none)

/-- The assignment of a nice value, without the calls that `sys_nice` makes after it. -/
def assignNice (k : Kernel) (i : ℕ) (v : ℤ) : Kernel :=
  (k.setProc i { k.proc i with nice := v }).record (.nice i)

/-- The nice value that `sys_nice` stores for the increment `inc`. -/
def clampNice (nice inc : ℤ) : ℤ :=
  let nice := int (nice + inc)
  let nice := if nice > 19 then 19 else nice
  if nice < -20 then -20 else nice

/-- The queue number that `sys_nice` computes from the new nice value. -/
def tempQueue (nice : ℤ) : ℤ :=
  if nice > 10 then 0
  else if nice < -10 ∧ nice ≤ 10 then 1
  else if nice ≤ -10 then 2
  else -1

def sysNice (k : Kernel) (i : ℕ) (inc : ℤ) : Kernel × ℤ :=
  let k := assignNice k i (clampNice (k.proc i).nice inc)
  let k := if tempQueue (k.proc i).nice ≠ (k.proc i).queue then enqueue (unlinkProc k i) i else k
  (k, (k.proc i).nice)

def sysStartlog (k : Kernel) : Kernel × ℤ :=
  if k.isLogging then (k, -1) else ({ k with isLogging := true }, 0)

/-- The value that `sys_getlog` returns and the entries that it copies to the user. -/
def sysGetlog (k : Kernel) (copyoutOk : Bool) : ℤ × List LogEntry :=
  if copyoutOk = false then (-1, [])
  else (k.numLogged, (List.range logSize.toNat).map fun j : ℕ => k.schedlog j)

/-! ## One hart, operations as atomic steps -/

/-- The kernel and `cpus[0].proc`. -/
structure Machine where
  kernel : Kernel
  cpu : Option ℕ

inductive Action where
  | userinit (mem : Memory)
  | fork (mem : Memory)
  | yield
  | sleep (chan : Chan)
  | wakeup (chan : Chan)
  | kill (pid : ℤ)
  | exit (status : ℤ)
  | wait (addr : ℕ) (copyoutOk : Bool)
  | setNice (v : ℤ)
  | startlog
  | tick
  | schedule
  deriving DecidableEq, Repr

/-- `sched` switches to the scheduler, which finishes the `dequeue` it was in. -/
def sched (k : Kernel) (i : ℕ) : Machine := ⟨afterSwitch k i, none⟩

/-- `dequeue` up to the context switch and the first lines of the process it runs. -/
def dequeue (k : Kernel) : Machine :=
  match firstProcess k.qtable with
  | none => ⟨k, none⟩
  | some i => ⟨resume (markRunning (unlinkProc k i) i) i, some i⟩

/-- One operation. A process operation is that of the process on the hart; `wakeup` and
`tick` also come from interrupt handlers; `schedule` is one pass of the scheduler loop. -/
def step (m : Machine) : Action → Option Machine
  | .userinit mem => (userinit m.kernel mem).map fun k => ⟨k, m.cpu⟩
  | .fork mem => m.cpu.map fun p => ⟨(fork m.kernel p mem).1, m.cpu⟩
  | .yield => m.cpu.map fun p => sched (yield m.kernel p) p
  | .sleep chan => m.cpu.map fun p => sched (sleep m.kernel p chan) p
  | .wakeup chan => some ⟨wakeup m.kernel m.cpu chan, m.cpu⟩
  | .kill pid => m.cpu.map fun _ => ⟨(kill m.kernel pid).1, m.cpu⟩
  | .exit status => m.cpu.bind fun p => (exit m.kernel p status).map fun k => sched k p
  | .wait addr copyoutOk => m.cpu.map fun p =>
    match wait m.kernel p addr copyoutOk with
    | (k, some _) => ⟨k, m.cpu⟩
    | (k, none) => sched k p
  | .setNice v => m.cpu.map fun p => ⟨assignNice m.kernel p v, m.cpu⟩
  | .startlog => m.cpu.map fun _ => ⟨(sysStartlog m.kernel).1, m.cpu⟩
  | .tick => some ⟨{ m.kernel with time := int (m.kernel.time + 1) }, m.cpu⟩
  | .schedule => if m.cpu = none then some (dequeue (boostCheck m.kernel)) else none

/-- Zeroed memory after `procinit`. -/
def bootProc : Proc :=
  { state := .unused, chan := .null, killed := 0, xstate := 0, pid := 0, parent := none,
    nice := 0, quanta := 0, queue := 0 }

def bootKernel : Kernel :=
  { proc := fun _ => bootProc, qtable := ⟨fun _ => 0, fun _ => 0, fun _ => 0⟩,
    initproc := none, nextpid := 1, schedlog := fun _ => ⟨0, 0⟩, time := 0, isLogging := false,
    numLogged := 0, isQueueSetup := false, timeSincePriorityBoost := 0, trace := [] }

end CS352.Mlfq
