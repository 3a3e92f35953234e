import Mathlib.Algebra.GroupWithZero.Nat
import Mathlib.Logic.Function.Basic

/-! # The console

The input of `kernel/console.c`: keys that are pressed at any time, and any number of processes in
`consoleread`. One step is what is done under one hold of `cons.lock`. -/

namespace CS352.Console

open Function

/-- `INPUT_BUF_SIZE`. -/
def inputBufSize : ℕ := 128

/-- The value that a `uint` holds after storing `x`. -/
def uint (x : ℕ) : ℕ := x % 2 ^ 32

def newline : UInt8 := 10

/-- `'\r'`. -/
def carriage : UInt8 := 13

/-- `C('D')`. -/
def ctrlD : UInt8 := 4

/-- `C('H')`. -/
def ctrlH : UInt8 := 8

/-- `C('P')`. -/
def ctrlP : UInt8 := 16

/-- `C('U')`. -/
def ctrlU : UInt8 := 21

/-- `'\x7f'`. -/
def delete : UInt8 := 127

/-- `cons`, without its lock. -/
structure Cons where
  buf : ℕ → UInt8
  r : ℕ
  w : ℕ
  e : ℕ

/-- A call of `consputc`. -/
inductive Echo where
  | put (c : UInt8)
  | backspace
  deriving DecidableEq, Repr

/-! ## Keys -/

/-- `cons.e - 1`. -/
def Cons.before (s : Cons) : ℕ := uint (s.e + 2 ^ 32 - 1)

/-- The loop that kills the line. After `n` passes `cons.e` is `cons.w`. -/
def killLine : ℕ → Cons → Cons × List Echo
  | 0, s => (s, [])
  | n + 1, s =>
    if s.e ≠ s.w ∧ s.buf (s.before % inputBufSize) ≠ newline then
      let q := killLine n { s with e := s.before }
      (q.1, .backspace :: q.2)
    else (s, [])

/-- The default case of `consoleintr`. -/
def store (s : Cons) (c : UInt8) : Cons × List Echo × Bool :=
  let c := if c = carriage then newline else c
  let s := { s with
    buf := update s.buf (s.e % inputBufSize) c
    e := uint (s.e + 1) }
  if c = newline ∨ c = ctrlD ∨ uint (s.e + 2 ^ 32 - s.r) = inputBufSize then
    ({ s with w := s.e }, [.put c], true)
  else (s, [.put c], false)

/-- The results are what is echoed and whether `wakeup(&cons.r)` is called. The output of
`procdump` is left out. -/
def consoleintr (s : Cons) (c : UInt8) : Cons × List Echo × Bool :=
  if c = ctrlP then (s, [], false)
  else if c = ctrlU then
    let q := killLine (uint (s.e + 2 ^ 32 - s.w)) s
    (q.1, q.2, false)
  else if c = ctrlH ∨ c = delete then
    if s.e ≠ s.w then ({ s with e := s.before }, [.backspace], false) else (s, [], false)
  else if c ≠ 0 ∧ uint (s.e + 2 ^ 32 - s.r) < inputBufSize then store s c
  else (s, [], false)

/-! ## Reading -/

inductive Reader where
  | out
  /-- In `consoleread` for `target` bytes, of which it has these. -/
  | reading (target : ℕ) (got : List UInt8)
  /-- In `sleep(&cons.r, &cons.lock)`. -/
  | asleep (target : ℕ) (got : List UInt8)
  /-- Back from `consoleread`, with these bytes. -/
  | returned (got : List UInt8)
  /-- Back with -1; these bytes have been copied before. -/
  | killed (got : List UInt8)
  deriving DecidableEq, Repr

/-- The bytes that the present or the last call has copied to the reader. -/
def Reader.got : Reader → List UInt8
  | .out => []
  | .reading _ got | .asleep _ got | .returned got | .killed got => got

def Reader.wake : Reader → Reader
  | .asleep target got => .reading target got
  | r => r

/-- What becomes of a byte that is taken out of the buffer. -/
inductive Fate where
  | copied
  /-- It ends a call that gets no bytes. -/
  | endOfFile
  /-- `either_copyout` fails, and the byte is gone. -/
  | lost
  deriving DecidableEq, Repr

/-- The loop of `consoleread` for `n` more bytes, until it sleeps or ends, where `copyout i` is
whether `either_copyout` to `dst + i` succeeds and `killed` the result of `killed(myproc())`. The
results are the bytes it takes out of the buffer and where the reader is then. -/
def readLoop (target : ℕ) (copyout : ℕ → Bool) (killed : Bool) :
    ℕ → Cons → List UInt8 → Cons × List (UInt8 × Fate) × Reader
  | 0, s, got => (s, [], .returned got)
  | n + 1, s, got =>
    if s.r = s.w then (s, [], if killed then .killed got else .asleep target got)
    else
      let c := s.buf (s.r % inputBufSize)
      let s := { s with r := uint (s.r + 1) }
      if c = ctrlD then
        if n + 1 < target then ({ s with r := uint (s.r + 2 ^ 32 - 1) }, [], .returned got)
        else (s, [(c, .endOfFile)], .returned got)
      else if copyout got.length = false then (s, [(c, .lost)], .returned got)
      else if c = newline then (s, [(c, .copied)], .returned (got ++ [c]))
      else
        let q := readLoop target copyout killed n s (got ++ [c])
        (q.1, (c, .copied) :: q.2.1, q.2.2)

/-! ## Processes -/

/-- The processes that read. The last three are history that nothing reads: what has been echoed,
the bytes that have been taken out of the buffer, each with its reader, and what the earlier calls
have copied to their callers. -/
structure Users (P : Type*) where
  reader : P → Reader
  killed : P → Bool
  echo : List Echo
  taken : List (P × UInt8 × Fate)
  results : P → List (List UInt8)

section

variable {P : Type*} [DecidableEq P] (u : Users P)

def Users.wakeup : Users P := { u with reader := fun p => (u.reader p).wake }

def Users.call (p : P) (n : ℕ) : Option (Users P) :=
  match u.reader p with
  | .reading .. | .asleep .. => none
  | .out => some { u with reader := update u.reader p (.reading n []) }
  | .returned got | .killed got =>
    some { u with
      reader := update u.reader p (.reading n [])
      results := update u.results p (u.results p ++ [got]) }

/-- The reader has taken these bytes. -/
def Users.take (p : P) (bytes : List (UInt8 × Fate)) (r : Reader) : Users P :=
  { u with
    reader := update u.reader p r
    taken := u.taken ++ bytes.map fun b => (p, b) }

/-- `kill` wakes a process that sleeps. -/
def Users.kill (p : P) : Users P :=
  { u with
    reader := update u.reader p (u.reader p).wake
    killed := update u.killed p true }

structure State (P : Type*) where
  cons : Cons
  users : Users P

inductive Action (P : Type*) where
  | key (c : UInt8)
  | call (p : P) (n : ℕ)
  /-- A process in `consoleread` that is not asleep gets the lock. -/
  | run (p : P) (copyout : ℕ → Bool)
  | kill (p : P)

def step (s : State P) : Action P → Option (State P)
  | .key c =>
    let q := consoleintr s.cons c
    let users := if q.2.2 then s.users.wakeup else s.users
    some ⟨q.1, { users with echo := users.echo ++ q.2.1 }⟩
  | .call p n => (s.users.call p n).map fun users => { s with users := users }
  | .run p copyout =>
    match s.users.reader p with
    | .reading target got =>
      let q := readLoop target copyout (s.users.killed p) (target - got.length) s.cons got
      some ⟨q.1, s.users.take p q.2.1 q.2.2⟩
    | _ => none
  | .kill p => some { s with users := s.users.kill p }

def noUsers : Users P := ⟨fun _ => .out, fun _ => false, [], [], fun _ => []⟩

def boot : State P := ⟨⟨fun _ => 0, 0, 0, 0⟩, noUsers⟩

end

end CS352.Console
