import CS352.Model.Mlfq.Kernel

/-! # Interrupts on one hart

The interrupt state of hart 0 around the operations of the kernel: `push_off` and
`pop_off` of `spinlock.c`, the paths through `usertrap` and `kerneltrap` of `trap.c`, and
what `sched` and `dequeue` of `proc.c` do to it. An operation is one step that starts and
ends with no lock held. The lock words are left out: with one hart a lock is free when
interrupts are on. -/

namespace CS352.Mlfq

open Function

/-! ## The hart -/

/-- The interrupt-enable bit of `sstatus`, and `noff` and `intena` of `struct cpu`. -/
structure Hart where
  sie : Bool
  noff : ℕ
  intena : Bool
  deriving DecidableEq, Repr

def intrOn (h : Hart) : Hart := { h with sie := true }

def intrOff (h : Hart) : Hart := { h with sie := false }

def pushOff (h : Hart) : Hart :=
  { sie := false, noff := h.noff + 1, intena := if h.noff = 0 then h.sie else h.intena }

/-- `none` is a panic. -/
def popOff (h : Hart) : Option Hart :=
  if h.sie then none
  else if h.noff < 1 then none
  else
    let h := { h with noff := h.noff - 1 }
    some (if h.noff = 0 ∧ h.intena then intrOn h else h)

def acquire (h : Hart) : Hart := pushOff h

def release (h : Hart) : Option Hart := popOff h

/-- A section under a lock, taken with no lock held. Sections in a row, such as the loop
of `wakeup`, have the effect of one. -/
def critical (h : Hart) : Option Hart := release (acquire h)

/-- The value of `intena` that `sched` keeps on the stack of the process. `none` is one
of its panics. -/
def schedIntena (h : Hart) : Option Bool :=
  if h.noff ≠ 1 then none
  else if h.sie then none
  else some h.intena

/-- `yield` takes `p->lock` and switches; `dequeue` releases the lock. -/
def yieldHart (h : Hart) : Option (Bool × Hart) := do
  let h := acquire h
  let intena ← schedIntena h
  let h ← release h
  some (intena, h)

/-- `sleep`, called under a lock, takes `p->lock`, releases the other lock and switches;
`dequeue` releases `p->lock`. `exit` does the same under `wait_lock`. -/
def sleepHart (h : Hart) : Option (Bool × Hart) := do
  let h := acquire h
  let h := acquire h
  let h ← release h
  let intena ← schedIntena h
  let h ← release h
  some (intena, h)

/-- `usertrapret`; its `sret` sets the bit again, for user space. -/
def usertrapret (h : Hart) : Hart := intrOn (intrOff h)

/-! ## Kernel threads -/

/-- Where the process on the hart is between two steps. -/
inductive Place where
  | user
  /-- In `syscall`. -/
  | syscall
  /-- In `fsinit`, which the first process calls from `forkret`. -/
  | fsinit
  /-- In `exit`, closing its files. -/
  | exiting (status : ℤ)
  deriving DecidableEq, Repr

/-- What a process that is off the hart has on its kernel stack. -/
inductive Context where
  | forkret
  /-- `yield` called by `usertrap`. -/
  | usertrap (intena : Bool)
  /-- `yield` called by `kerneltrap`, which interrupted the process at `place`. -/
  | kerneltrap (intena : Bool) (place : Place)
  /-- `sleep` called at `place`. -/
  | sleep (intena : Bool) (place : Place)
  deriving DecidableEq, Repr

/-- `place` is meaningful while a process is on the hart; `first` is the static variable
of `forkret`. -/
structure HartState where
  machine : Machine
  place : Place
  hart : Hart
  context : ℕ → Context
  first : Bool

/-- What `devintr` recognises: a device that wakes the given channels, or the timer. -/
inductive Device where
  | external (chans : List Chan)
  | timer
  deriving DecidableEq, Repr

/-- Why a process in user space enters `usertrap`. -/
inductive Cause where
  | ecall
  | device (d : Device)
  | fault
  deriving DecidableEq, Repr

inductive HartAction where
  | schedule
  /-- An interrupt taken in supervisor mode. -/
  | interrupt (d : Device)
  /-- A trap from user space. -/
  | trap (c : Cause)
  | sleep (chan : Chan)
  | wakeup (chan : Chan)
  | fork (mem : Memory)
  | kill (pid : ℤ)
  | nice (inc : ℤ)
  | startlog
  | wait (addr : ℕ) (copyoutOk : Bool)
  | exit (status : ℤ)
  /-- The system call, or `fsinit`, returns. -/
  | leave
  /-- The rest of `exit`, from `wait_lock` on. -/
  | finishExit
  deriving DecidableEq, Repr

/-! ## Steps -/

def devintr (k : Kernel) (me : Option ℕ) : Device → Kernel
  | .external chans => chans.foldl (fun k chan => wakeup k me chan) k
  | .timer => wakeup k me .ticks

/-- `time++`. -/
def tickTime (k : Kernel) : Kernel := { k with time := int (k.time + 1) }

/-- The first lines of `exit`; `none` is the panic of an exiting `init`. -/
def enterExit (s : HartState) (k : Kernel) (p : ℕ) (status : ℤ) (h : Hart) :
    Option HartState :=
  if k.initproc = some p then none
  else some { s with machine := ⟨k, some p⟩, place := .exiting status, hart := h }

/-- The test for `killed` in `usertrap`, with what follows for a process that is not. -/
def checkKilled (s : HartState) (k : Kernel) (p : ℕ) (h : Hart)
    (alive : Hart → Option HartState) : Option HartState := do
  let h ← critical h
  if (k.proc p).killed ≠ 0 then enterExit s k p (-1) h else alive h

/-- `yield` of process `p`, which leaves `ctx` of its saved `intena` on its stack. -/
def yieldAs (s : HartState) (k : Kernel) (p : ℕ) (h : Hart) (ctx : Bool → Context) :
    Option HartState := do
  let (intena, h) ← yieldHart h
  some { s with
    machine := sched (yield k p) p, hart := h
    context := update s.context p (ctx intena) }

/-- Process `p` blocks in the kernel state `k`, which has it asleep. -/
def sleepAs (s : HartState) (k : Kernel) (p : ℕ) : Option HartState := do
  let (intena, h) ← sleepHart s.hart
  some { s with
    machine := sched k p, hart := h
    context := update s.context p (.sleep intena s.place) }

/-- `usertrap`. The trap clears the interrupt-enable bit. -/
def usertrap (s : HartState) (k : Kernel) (p : ℕ) (c : Cause) : Option HartState :=
  let h := intrOff s.hart
  match c with
  | .ecall => checkKilled s k p h fun h => some { s with place := .syscall, hart := intrOn h }
  | .fault => checkKilled s (setkilled k p) p h fun h =>
    some { s with machine := ⟨setkilled k p, some p⟩, hart := usertrapret h }
  | .device d =>
    let k := devintr k (some p) d
    checkKilled s k p h fun h =>
      match d with
      | .external _ => some { s with machine := ⟨k, some p⟩, hart := usertrapret h }
      | .timer => yieldAs s (tickTime k) p h .usertrap

/-- `kerneltrap`. Its `sret` restores the bit, which was set. -/
def kerneltrap (s : HartState) (d : Device) : Option HartState :=
  let h := intrOff s.hart
  let k := devintr s.machine.kernel s.machine.cpu d
  match d, s.machine.cpu with
  | .external _, cpu => some { s with machine := ⟨k, cpu⟩, hart := intrOn h }
  | .timer, none => some { s with machine := ⟨tickTime k, none⟩, hart := intrOn h }
  | .timer, some p =>
    if (k.proc p).state = .running then
      yieldAs s (tickTime k) p h fun intena => .kerneltrap intena s.place
    else some { s with machine := ⟨tickTime k, some p⟩, hart := intrOn h }

/-- `dequeue` switches to a process, which goes on where its stack says. -/
def switchTo (s : HartState) (m : Machine) (ctx : Context) : Option HartState :=
  -- `intr_on` and `acquire(&p->lock)` in `dequeue`
  let h := acquire (intrOn s.hart)
  match ctx with
  | .forkret => do
      let h ← release h
      if s.first then some { s with machine := m, place := .fsinit, hart := h, first := false }
      else some { s with machine := m, place := .user, hart := usertrapret h }
  | .usertrap intena => do
      let h ← release { h with intena := intena }
      some { s with machine := m, place := .user, hart := usertrapret h }
  | .kerneltrap intena place => do
      let h ← release { h with intena := intena }
      some { s with machine := m, place := place, hart := intrOn h }
  | .sleep intena place => do
      let h ← release { h with intena := intena }
      let h ← critical h
      some { s with machine := m, place := place, hart := h }

/-- One pass of the scheduler loop. -/
def schedulerPass (s : HartState) : Option HartState :=
  let k := boostCheck s.machine.kernel
  match firstProcess k.qtable with
  | none => some { s with machine := dequeue k }
  | some p => switchTo s (dequeue k) (s.context p)

/-- A step of process `p`, which is in the kernel. -/
def processStep (s : HartState) (k : Kernel) (p : ℕ) : HartAction → Option HartState
  | .sleep chan => if s.place = .user then none else sleepAs s (sleep k p chan) p
  | .wakeup chan =>
    if s.place = .user then none
    else (critical s.hart).map fun h =>
      { s with machine := ⟨wakeup k (some p) chan, some p⟩, hart := h }
  | .fork mem =>
    if s.place = .syscall then
      (critical s.hart).map fun h =>
        { s with
          machine := ⟨(fork k p mem).1, some p⟩, hart := h
          context := match (allocproc k mem).2 with
            | some i => update s.context i .forkret
            | none => s.context }
    else none
  | .kill pid =>
    if s.place = .syscall then
      (critical s.hart).map fun h => { s with machine := ⟨(kill k pid).1, some p⟩, hart := h }
    else none
  | .nice inc =>
    if s.place = .syscall then
      (critical s.hart).map fun h =>
        { s with machine := ⟨(sysNice k p inc).1, some p⟩, hart := h }
    else none
  | .startlog =>
    if s.place = .syscall then some { s with machine := ⟨(sysStartlog k).1, some p⟩ } else none
  | .wait addr copyoutOk =>
    if s.place = .syscall then
      match wait k p addr copyoutOk with
      | (k, some _) => (critical s.hart).map fun h => { s with machine := ⟨k, some p⟩, hart := h }
      | (k, none) => sleepAs s k p
    else none
  | .exit status => if s.place = .syscall then enterExit s k p status s.hart else none
  | .leave =>
    match s.place with
    | .syscall => checkKilled s k p s.hart fun h =>
      some { s with place := .user, hart := usertrapret h }
    | .fsinit => some { s with place := .user, hart := usertrapret s.hart }
    | _ => none
  | .finishExit =>
    match s.place with
    | .exiting status => do
        let k ← exit k p status
        let (_, h) ← sleepHart s.hart
        some { s with machine := sched k p, hart := h }
    | _ => none
  | _ => none

def hartStep (s : HartState) : HartAction → Option HartState
  | .schedule => if s.machine.cpu = none then schedulerPass s else none
  | .interrupt d =>
    if s.hart.sie = true ∧ (s.machine.cpu = none ∨ s.place ≠ .user) then kerneltrap s d else none
  | .trap c => s.machine.cpu.bind fun p =>
    if s.place = .user then usertrap s s.machine.kernel p c else none
  | a => s.machine.cpu.bind fun p => processStep s s.machine.kernel p a

/-- `main` calls `scheduler` with interrupts off, as the hart came up. -/
def bootHart (m : Machine) : HartState :=
  { machine := m, place := .user, hart := ⟨false, 0, false⟩, context := fun _ => .forkret,
    first := true }

end CS352.Mlfq
