import CS352.Model.Mlfq.Harts

/-! # The log without locks

`is_logging`, `num_logged`, `schedlog` and `time` have no lock. Here every load and every store
of them is a step of its own, as `kernel.asm` has them: in `dequeue` after the switch back, in
`sys_startlog`, and in the `time++` of `usertrap` and `kerneltrap`. All else is as in
`hartsStep`. -/

namespace CS352.Mlfq

/-- Where a hart is in these lines, with interrupts off. A position names the access that comes
next; the arguments are the local variables, and `p->pid`, which does not change while the hart
holds `p->lock`. -/
inductive LogPc where
  /-- `is_logging`, after process `p` has switched back to `dequeue`. -/
  | testLogging (p : ℕ) (pid : ℤ)
  /-- `num_logged`, which stays in a register. -/
  | loadCount (p : ℕ) (pid : ℤ)
  /-- `schedlog[num_logged-1].pid != p->pid`. -/
  | testPid (p : ℕ) (pid n : ℤ)
  /-- `schedlog[num_logged].pid = p->pid`. -/
  | storePid (p : ℕ) (pid n : ℤ)
  /-- `time`. -/
  | loadTime (p : ℕ) (n : ℤ)
  /-- `schedlog[num_logged].time = time`. -/
  | storeTime (p : ℕ) (n t : ℤ)
  /-- `num_logged++`. -/
  | storeCount (p : ℕ) (n : ℤ)
  /-- `release(&p->lock)`. -/
  | release (p : ℕ)
  /-- `time++`, with the value that it has loaded. -/
  | storeTick (t : ℤ)
  deriving DecidableEq, Repr

/-- The operations of process `p` that end in `sched`, up to there. -/
def callsSched (k : Kernel) (p : ℕ) : Action → Option Kernel
  | .yield => some (yield k p)
  | .sleep chan => some (sleep k p chan)
  | .exit status => exit k p status
  | .wait addr copyoutOk => match wait k p addr copyoutOk with
    | (k, none) => some k
    | (_, some _) => none
  | _ => none

def Kernel.setEntry (k : Kernel) (n : ℤ) (e : LogEntry) : Kernel :=
  { k with schedlog := Function.update k.schedlog n e }

/-- The processes in `starting` have found `is_logging` to be 0 in `sys_startlog` and have not
stored 1 yet. The rest is history: the pid of each process that switched back while `is_logging`
was 1 with the time, the number of timer interrupts, and the results of `sys_startlog`. -/
structure LogHarts (ι : Type*) where
  harts : Harts ι
  pc : ι → Option LogPc
  starting : List ℕ
  returned : List LogEntry
  ticks : ℕ
  startlogs : List ℤ

inductive LogAction where
  /-- The next access of the lines that the hart is in. -/
  | next
  /-- An operation up to the switch back to `dequeue`, which goes on with the lock of the
  process. -/
  | leave (a : Action)
  /-- The load of `time++`. -/
  | tick
  /-- The load of `sys_startlog`. -/
  | startlog
  /-- The store of `sys_startlog`. -/
  | setLogging
  /-- A step that does not touch the log. -/
  | other (a : HartsAction)
  deriving DecidableEq, Repr

section

variable {ι : Type*} [DecidableEq ι]

def LogHarts.goTo (s : LogHarts ι) (h : ι) (pc : Option LogPc) : LogHarts ι :=
  { s with pc := Function.update s.pc h pc }

def LogHarts.setKernel (s : LogHarts ι) (k : Kernel) : LogHarts ι :=
  { s with harts := { s.harts with kernel := k } }

def nextAccess (s : LogHarts ι) (h : ι) : LogPc → LogHarts ι
  | .testLogging p pid =>
    if s.harts.kernel.isLogging then
      { s with returned := s.returned ++ [LogEntry.mk pid s.harts.kernel.time] }.goTo h
        (some (.loadCount p pid))
    else s.goTo h (some (.release p))
  | .loadCount p pid =>
    let n := s.harts.kernel.numLogged
    s.goTo h (some (if n = 0 then .storePid p pid n else .testPid p pid n))
  | .testPid p pid n =>
    s.goTo h (some
      (if (s.harts.kernel.schedlog (n - 1)).pid ≠ pid ∧ n < logSize then .storePid p pid n
      else .release p))
  | .storePid p pid n =>
    let k := s.harts.kernel
    (s.setKernel (k.setEntry n { k.schedlog n with pid := pid })).goTo h (some (.loadTime p n))
  | .loadTime p n => s.goTo h (some (.storeTime p n s.harts.kernel.time))
  | .storeTime p n t =>
    let k := s.harts.kernel
    (s.setKernel (k.setEntry n { k.schedlog n with time := t })).goTo h (some (.storeCount p n))
  | .storeCount p n =>
    (s.setKernel { s.harts.kernel with numLogged := int (n + 1) }).goTo h (some (.release p))
  | .release p => { s with harts := s.harts.setLocked p false }.goTo h none
  | .storeTick t =>
    { s.setKernel { s.harts.kernel with time := int (t + 1) } with
      ticks := s.ticks + 1 }.goTo h none

/-- A step that is none of the others. In `sys_startlog` a process does nothing else, but an
interrupt handler may call `wakeup`. -/
def LogHarts.isOther (s : LogHarts ι) (h : ι) : HartsAction → Bool
  | .operation .startlog | .operation .tick => false
  | .operation (.wakeup _) => true
  | .operation a => match s.harts.place h with
    | .running p => (callsSched s.harts.kernel p a).isNone && p ∉ s.starting
    | _ => true
  | _ => true

/-- A process in `sys_startlog` can be made to yield by a timer interrupt. -/
def logHartsStep (s : LogHarts ι) : ι × LogAction → Option (LogHarts ι)
  | (h, .next) => (s.pc h).map (nextAccess s h)
  | (h, .leave a) => match s.pc h, s.harts.place h with
    | none, .running p =>
      if (p ∈ s.starting → a = .yield) ∧
          ∀ x ∈ p :: acquires s.harts.kernel (some p) a, s.harts.locked x = false then
        (callsSched s.harts.kernel p a).map fun k =>
          { s with harts := ({ s.harts with kernel := k }.setLocked p true).moveTo h .loop }.goTo h
            (some (.testLogging p (k.proc p).pid))
      else none
    | _, _ => none
  | (h, .tick) =>
    if s.pc h = none ∧ (s.harts.place h).allows .tick then
      some (s.goTo h (some (.storeTick s.harts.kernel.time)))
    else none
  | (h, .startlog) => match s.pc h, s.harts.place h with
    | none, .running p =>
      if p ∈ s.starting then none
      else if s.harts.kernel.isLogging then some { s with startlogs := s.startlogs ++ [-1] }
      else some { s with starting := p :: s.starting }
    | _, _ => none
  | (h, .setLogging) => match s.pc h, s.harts.place h with
    | none, .running p =>
      if p ∈ s.starting then
        some { s.setKernel { s.harts.kernel with isLogging := true } with
          starting := s.starting.erase p
          startlogs := s.startlogs ++ [0] }
      else none
    | _, _ => none
  | (h, .other a) =>
    if s.pc h = none ∧ s.isOther h a then
      (hartsStep s.harts (h, a)).map fun t => { s with harts := t }
    else none

def startLogHarts (k : Kernel) : LogHarts ι := ⟨startHarts k, fun _ => none, [], [], 0, []⟩

end

end CS352.Mlfq
