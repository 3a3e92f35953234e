import CS352.Model.ShellParser
import Mathlib.Logic.Function.Basic

/-! # Running commands

`runcmd` of `user/sh.c` with the system calls that it makes. The processes that it forks run at
the same time, in any order. -/

namespace CS352.Shell

open Function

/-- What a descriptor is open on. The shell has the descriptors 0, 1 and 2. -/
inductive Obj where
  | inherited (fd : ℕ)
  | file (name : List Char) (mode : UInt32)
  | pipeRead (k : ℕ)
  | pipeWrite (k : ℕ)
  deriving DecidableEq, Repr

/-- `p->ofile`. -/
abbrev Fds := ℕ → Option Obj

def nofile : ℕ := 16

/-- The lowest free descriptor. -/
def fdalloc (fds : Fds) : Option ℕ := (List.range nofile).find? fun fd => (fds fd).isNone

/-- A part of a command: the command inside, or on one side. -/
inductive Side where
  | top
  | sub
  | left
  | right
  deriving DecidableEq, Repr

/-- What is left to do in a process: the system calls of `runcmd`, up to the next call of it. -/
inductive Code where
  | runcmd (side : Side) (cmd : Cmd (List Char))
  | close (fd : ℕ) (next : Code)
  | dup (fd : ℕ) (next : Code)
  | openFile (file : List Char) (mode : UInt32) (next : Code)
  | fork (child next : Code)
  | wait (next : Code)
  | exec (argv : List (List Char))
  /-- The process runs another program, which counts as one step and exits. -/
  | program (argv : List (List Char))
  | exit (status : ℕ)
  | zombie
  /-- The parent has waited for the process. -/
  | gone
  deriving DecidableEq, Repr

/-- The process with number `i` is the one at place `i` of the list. The part of the command that
it runs is history: its sides up to the whole command. -/
structure Process where
  parent : Option ℕ
  node : List Side
  code : Code
  fds : Fds

structure State where
  procs : List Process
  nextPipe : ℕ

/-- The calls after `pipe(p)`. -/
def pipeCode (left right : Cmd (List Char)) (p₀ p₁ : ℕ) : Code :=
  .fork (.close 1 (.dup p₁ (.close p₀ (.close p₁ (.runcmd .left left)))))
    (.fork (.close 0 (.dup p₀ (.close p₀ (.close p₁ (.runcmd .right right)))))
      (.close p₀ (.close p₁ (.wait (.wait (.exit 0))))))

/-- `pipe(p)`: the descriptors of the ends and the table with them. -/
def pipe (fds : Fds) (k : ℕ) : Option (ℕ × ℕ × Fds) := do
  let p₀ ← fdalloc fds
  let fds := update fds p₀ (some (.pipeRead k))
  let p₁ ← fdalloc fds
  return (p₀, p₁, update fds p₁ (some (.pipeWrite k)))

/-- `panic` and the failures of `open` and `exec` end the process. -/
def Process.stop (q : Process) (status : ℕ) : Process := { q with code := .exit status }

/-- The beginning of `runcmd`, with the number of pipes behind it. -/
def Process.enter (q : Process) (cmd : Cmd (List Char)) (ok : Bool) (k : ℕ) : Process × ℕ :=
  match cmd with
  | .exec [] => (q.stop 1, k)
  | .exec argv => ({ q with code := .exec argv }, k)
  | .redir cmd file mode fd =>
    ({ q with code := .close fd (.openFile file mode (.runcmd .sub cmd)) }, k)
  | .list left right =>
    ({ q with code := .fork (.runcmd .left left) (.wait (.runcmd .right right)) }, k)
  | .pipe left right =>
    match if ok then pipe q.fds k else none with
    | some (p₀, p₁, fds) => ({ q with code := pipeCode left right p₀ p₁, fds := fds }, k + 1)
    | none => (q.stop 1, k)
  | .back cmd => ({ q with code := .fork (.runcmd .sub cmd) (.exit 0) }, k)

/-- `dup(fd)`. -/
def Fds.dup (fds : Fds) (fd : ℕ) : Fds :=
  match fds fd, fdalloc fds with
  | some o, some new => update fds new (some o)
  | _, _ => fds

/-- The children of a process that exits go to `init`. -/
def Process.reparent (pid : ℕ) (q : Process) : Process :=
  if q.parent = some pid then { q with parent := none } else q

inductive Action where
  /-- The next call of a process, and whether it succeeds if it may fail. -/
  | call (pid : ℕ) (ok : Bool)
  /-- `wait` finds a child that has exited. -/
  | reap (pid child : ℕ)
  deriving DecidableEq, Repr

def call (s : State) (pid : ℕ) (ok : Bool) (q : Process) : Option State :=
  let become (q : Process) : Option State := some { s with procs := s.procs.set pid q }
  match q.code with
  | .runcmd side cmd =>
    let r := { q with node := side :: q.node }.enter cmd ok s.nextPipe
    some ⟨s.procs.set pid r.1, r.2⟩
  | .close fd next => become { q with code := next, fds := update q.fds fd none }
  | .dup fd next => become { q with code := next, fds := q.fds.dup fd }
  | .openFile file mode next =>
    match if ok then fdalloc q.fds else none with
    | some fd =>
      become { q with code := next, fds := update q.fds fd (some (.file file mode)) }
    | none => become (q.stop 1)
  | .fork child next =>
    if ok then
      let new : Process := ⟨some pid, q.node, child, q.fds⟩
      some { s with procs := s.procs.set pid { q with code := next } ++ [new] }
    else become (q.stop 1)
  | .wait next =>
    if s.procs.any (·.parent = some pid) then none else become { q with code := next }
  | .exec argv => become (if ok then { q with code := .program argv } else q.stop 0)
  | .program _ => become (q.stop 0)
  | .exit _ =>
    let new : Process := { q with code := .zombie, fds := fun _ => none }
    some { s with procs := (s.procs.set pid new).map (·.reparent pid) }
  | .zombie | .gone => none

def reap (s : State) (pid child : ℕ) (q r : Process) : Option State :=
  match q.code with
  | .wait next =>
    if r.parent = some pid ∧ r.code = .zombie then
      let procs := s.procs.set child { r with parent := none, code := .gone }
      some { s with procs := procs.set pid { q with code := next } }
    else none
  | _ => none

def step (s : State) : Action → Option State
  | .call pid ok => s.procs[pid]?.bind (call s pid ok)
  | .reap pid child => s.procs[pid]?.bind fun q => s.procs[child]?.bind (reap s pid child q)

/-- The table of a process with these three descriptors. -/
def std (stdin stdout stderr : Obj) : Fds
  | 0 => some stdin
  | 1 => some stdout
  | 2 => some stderr
  | _ => none

/-- The process that the shell forks for a command. -/
def start (cmd : Cmd (List Char)) : State :=
  ⟨[⟨none, [], .runcmd .top cmd, std (.inherited 0) (.inherited 1) (.inherited 2)⟩], 0⟩

end CS352.Shell
