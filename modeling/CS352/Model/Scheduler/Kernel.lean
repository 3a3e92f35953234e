import CS352.Model.Mlfq.Kernel

/-! # The round-robin kernel

The process table, the scheduler and the context-switch log of the Scheduler kernel's
`kernel/proc.c`. The two kernels of the repository share `enum procstate`, the channels,
`struct logentry`, `NPROC` and `LOG_SIZE`; this one has no queues, keeps its log from boot
on and tests `lastProcessId` instead of the last entry. -/

namespace CS352.Scheduler

open Function

open Mlfq (int nproc logSize ProcState Chan LogEntry Memory)

/-! ## Data -/

/-- Where a process continues when it is switched to: `p->context.ra`. -/
inductive Context where
  | forkret
  | yield
  | sleep
  deriving DecidableEq, Repr

/-- The fields of `struct proc` that the scheduler and the process tree use. -/
structure Proc where
  state : ProcState
  chan : Chan
  killed : ℤ
  xstate : ℤ
  pid : ℤ
  nice : ℤ
  parent : Option ℕ
  context : Context
  deriving DecidableEq, Repr

/-- The process table with the globals of process creation. -/
structure Table where
  proc : ℕ → Proc
  initproc : Option ℕ
  nextpid : ℤ

def Table.setProc (t : Table) (i : ℕ) (p : Proc) : Table :=
  { t with proc := update t.proc i p }

/-- The globals of `proc.c`. -/
structure Kernel extends Table where
  schedlog : ℤ → LogEntry
  timer : ℤ
  numLog : ℤ
  lastProcessId : ℤ

/-! ## Process operations -/

/-- `yield` up to the call of `sched`. -/
def yield (t : Table) (i : ℕ) : Table :=
  t.setProc i { t.proc i with state := .runnable, context := .yield }

/-- `sleep` up to the call of `sched`. -/
def sleep (t : Table) (i : ℕ) (chan : Chan) : Table :=
  t.setProc i { t.proc i with chan := chan, state := .sleeping, context := .sleep }

/-- `me` is the process of the calling hart, if it has one. -/
def wakeup (t : Table) (me : Option ℕ) (chan : Chan) : Table :=
  (List.range nproc).foldl
    (fun t i =>
      if me ≠ some i ∧ (t.proc i).state = .sleeping ∧ (t.proc i).chan = chan then
        t.setProc i { t.proc i with state := .runnable }
      else t) t

def kill (t : Table) (pid : ℤ) : Table × ℤ :=
  match (List.range nproc).find? fun i => (t.proc i).pid = pid with
  | none => (t, -1)
  | some i =>
    let t := t.setProc i { t.proc i with killed := 1 }
    (if (t.proc i).state = .sleeping then t.setProc i { t.proc i with state := .runnable } else t,
      0)

def freeproc (t : Table) (i : ℕ) : Table :=
  t.setProc i { t.proc i with
    pid := 0, parent := none, chan := .null, killed := 0, xstate := 0, state := .unused, nice := 0 }

def allocproc (t : Table) (mem : Memory) : Table × Option ℕ :=
  match (List.range nproc).find? fun i => (t.proc i).state = .unused with
  | none => (t, none)
  | some i =>
    let t := t.setProc i { t.proc i with pid := t.nextpid, state := .used }
    let t := { t with nextpid := int (t.nextpid + 1) }
    if mem.trapframe = false then (freeproc t i, none)
    else if mem.pagetable = false then (freeproc t i, none)
    else (t.setProc i { t.proc i with context := .forkret }, some i)

/-- `none` when `allocproc` fails, which the source does not check. -/
def userinit (t : Table) (mem : Memory) : Option Table :=
  match allocproc t mem with
  | (_, none) => none
  | (t, some i) =>
    let t := { t with initproc := some i }
    some (t.setProc i { t.proc i with state := .runnable })

def fork (t : Table) (p : ℕ) (mem : Memory) : Table × ℤ :=
  match allocproc t mem with
  | (t, none) => (t, -1)
  | (t, some i) =>
    if mem.image = false then (freeproc t i, -1)
    else
      let pid := (t.proc i).pid
      let t := t.setProc i { t.proc i with parent := some p }
      (t.setProc i { t.proc i with state := .runnable }, pid)

def reparent (t : Table) (p : ℕ) : Table :=
  (List.range nproc).foldl
    (fun t i =>
      if (t.proc i).parent = some p then
        wakeup (t.setProc i { t.proc i with parent := t.initproc }) (some p) (.ofProc t.initproc)
      else t) t

/-- `none` is the panic of an exiting `init`. The files are closed before, in steps of
their own. -/
def exit (t : Table) (p : ℕ) (status : ℤ) : Option Table :=
  if t.initproc = some p then none
  else
    let t := reparent t p
    let t := wakeup t (some p) (.ofProc (t.proc p).parent)
    some (t.setProc p { t.proc p with xstate := status, state := .zombie })

/-- One pass of the loop in `wait`; the second component is `none` when the process goes
to sleep and will repeat the pass. `copyoutOk` is the result of `copyout` at `addr`. -/
def wait (t : Table) (p : ℕ) (addr : ℕ) (copyoutOk : Bool) : Table × Option ℤ :=
  match (List.range nproc).find?
      fun i => (t.proc i).parent = some p ∧ (t.proc i).state = .zombie with
  | some i =>
    if addr ≠ 0 ∧ copyoutOk = false then (t, some (-1))
    else (freeproc t i, some (t.proc i).pid)
  | none =>
    let havekids := (List.range nproc).any fun i => (t.proc i).parent = some p
    if havekids = false ∨ (t.proc p).killed ≠ 0 then (t, some (-1))
    else (sleep t p (.proc p), none)

/-- The increment is clamped, not the sum. -/
def sysNice (t : Table) (i : ℕ) (inc : ℤ) : Table × ℤ :=
  let p := t.proc i
  let nice :=
    if inc > 19 then int (p.nice + 19)
    else if inc < -20 then int (p.nice + -20)
    else int (p.nice + inc)
  (t.setProc i { p with nice := nice }, nice)

/-! ## The log -/

def sysStartlog (k : Kernel) : Kernel × ℤ :=
  if k.numLog ≠ 0 then (k, -1) else ({ k with numLog := 0 }, 0)

/-- The value that `sys_getlog` returns and the entries that it copies to the user. -/
def sysGetlog (k : Kernel) (copyoutOk : Bool) : ℤ × List LogEntry :=
  if copyoutOk = false then (-1, [])
  else (k.numLog, (List.range logSize.toNat).map fun j : ℕ => k.schedlog j)

/-- The lines of `scheduler` that record the context switch to process `i`. -/
def logSwitch (k : Kernel) (i : ℕ) : Kernel :=
  if k.numLog < logSize ∧ k.lastProcessId ≠ (k.proc i).pid then
    { k with
      schedlog := update k.schedlog k.numLog ⟨(k.proc i).pid, k.timer⟩
      lastProcessId := (k.proc i).pid
      numLog := int (k.numLog + 1) }
  else k

/-! ## The scheduler -/

/-- The branch of `scheduler` for a runnable process, up to `swtch`. -/
def dispatch (k : Kernel) (i : ℕ) : Kernel :=
  logSwitch { k with toTable := k.setProc i { k.proc i with state := .running } } i

/-- What a process does first when it is switched to. -/
def resume (k : Kernel) (i : ℕ) : Kernel :=
  match (k.proc i).context with
  | .forkret => k
  | .yield => { k with timer := int (k.timer + 1) }
  | .sleep => { k with toTable := k.setProc i { k.proc i with chan := .null } }

/-- Where a hart is: `scheduler` is at index `i` of its loop, or it has switched to
`proc[p]` and its loop is at `p`. -/
inductive Place where
  | scan (i : ℕ)
  | running (p : ℕ)
  deriving DecidableEq, Repr

/-- `c->proc`. -/
def Place.proc : Place → Option ℕ
  | .scan _ => none
  | .running p => some p

/-- One iteration of the loop of `scheduler`, up to `swtch` and the first lines of the
process; behind the last slot a new pass starts. -/
def scan (k : Kernel) (i : ℕ) : Kernel × Place :=
  if i < nproc then
    if (k.proc i).state = .runnable then (resume (dispatch k i) i, .running i)
    else (k, .scan (i + 1))
  else (k, .scan 0)

/-! ## One hart, operations as atomic steps -/

inductive Action where
  | scan
  | fork (mem : Memory)
  | yield
  | sleep (chan : Chan)
  | wakeup (chan : Chan)
  | kill (pid : ℤ)
  | exit (status : ℤ)
  | wait (addr : ℕ) (copyoutOk : Bool)
  | nice (inc : ℤ)
  | startlog
  | getlog (copyoutOk : Bool)
  deriving DecidableEq, Repr

structure Machine where
  kernel : Kernel
  place : Place

def Kernel.setTable (k : Kernel) (t : Table) : Kernel := { k with toTable := t }

/-- The process switches to the scheduler, which goes on behind its slot. -/
def sched (k : Kernel) (p : ℕ) : Machine := ⟨k, .scan (p + 1)⟩

/-- A system call or timer interrupt of process `p`. -/
def operate (k : Kernel) (p : ℕ) : Action → Option Machine
  | .scan | .wakeup _ => none
  | .fork mem => some ⟨k.setTable (fork k.toTable p mem).1, .running p⟩
  | .yield => some (sched (k.setTable (yield k.toTable p)) p)
  | .sleep chan => some (sched (k.setTable (sleep k.toTable p chan)) p)
  | .kill pid => some ⟨k.setTable (kill k.toTable pid).1, .running p⟩
  | .exit status => (exit k.toTable p status).map fun t => sched (k.setTable t) p
  | .wait addr copyoutOk =>
    match wait k.toTable p addr copyoutOk with
    | (t, some _) => some ⟨k.setTable t, .running p⟩
    | (t, none) => some (sched (k.setTable t) p)
  | .nice inc => some ⟨k.setTable (sysNice k.toTable p inc).1, .running p⟩
  | .startlog => some ⟨(sysStartlog k).1, .running p⟩
  | .getlog _ => some ⟨k, .running p⟩

/-- One operation of a hart. `wakeup` is also called by interrupt handlers. -/
def step (m : Machine) : Action → Option Machine
  | .scan => match m.place with
    | .scan i => some ⟨(scan m.kernel i).1, (scan m.kernel i).2⟩
    | .running _ => none
  | .wakeup chan =>
    some ⟨m.kernel.setTable (wakeup m.kernel.toTable m.place.proc chan), m.place⟩
  | a => m.place.proc.bind fun p => operate m.kernel p a

/-! ## Several harts -/

structure Harts (ι : Type*) where
  kernel : Kernel
  place : ι → Place

def hartsStep {ι : Type*} [DecidableEq ι] (s : Harts ι) : ι × Action → Option (Harts ι)
  | (h, a) => (step ⟨s.kernel, s.place h⟩ a).map fun m =>
    ⟨m.kernel, update s.place h m.place⟩

/-! ## Boot -/

/-- Zeroed memory after `procinit`. -/
def bootProc : Proc :=
  { state := .unused, chan := .null, killed := 0, xstate := 0, pid := 0, nice := 0,
    parent := none, context := .forkret }

def bootTable : Table := { proc := fun _ => bootProc, initproc := none, nextpid := 1 }

/-- The kernel when `main` has called `userinit`, which left the table `t`. -/
def bootKernel (t : Table) : Kernel :=
  { t with schedlog := fun _ => ⟨0, 0⟩, timer := 0, numLog := 0, lastProcessId := 0 }

/-- The hart enters `scheduler`. -/
def startHart (k : Kernel) : Machine := ⟨k, .scan 0⟩

def startHarts {ι : Type*} (k : Kernel) : Harts ι := ⟨k, fun _ => .scan 0⟩

end CS352.Scheduler
