import Mathlib.Algebra.GroupWithZero.Nat
import Mathlib.Data.Int.Order.Basic
import Mathlib.Logic.Function.Basic

/-! # Pipes

`kernel/pipe.c` of the MLFQ kernel: any number of threads in `pipewrite`, `piperead` and
`pipeclose` on one pipe. One step is one pass of a loop by the thread that holds `pi->lock`,
or the acquisition of the lock. A thread that sleeps has released the lock and may go on
whenever the lock is free, which includes every order of wakeups. -/

namespace CS352.Pipe

/-- `PIPESIZE`. -/
def pipeSize : ℕ := 512

/-- The value that a `uint` holds after storing `x`. -/
def uint (x : ℕ) : ℕ := x % 2 ^ 32

/-- `struct pipe` without its lock. -/
structure Pipe where
  data : ℕ → UInt8
  /-- Number of bytes read. -/
  nread : ℕ
  /-- Number of bytes written. -/
  nwrite : ℕ
  readopen : Bool
  writeopen : Bool

/-- Where a thread is. -/
inductive Place where
  | out
  /-- In `pipewrite` for `n` bytes, `i` of them stored: before `acquire`, or in `sleep`. -/
  | writeWait (n i : ℤ)
  /-- At the test of the loop of `pipewrite`, holding the lock. -/
  | writeLoop (n i : ℤ)
  /-- In `piperead` for `n` bytes: before `acquire`, or in `sleep`. -/
  | readWait (n : ℤ)
  /-- At the test of the first loop of `piperead`, holding the lock. -/
  | readTest (n : ℤ)
  /-- At the test of the second loop of `piperead`, holding the lock. -/
  | readCopy (n i : ℤ)
  deriving DecidableEq, Repr

/-- The pipe with its lock and the threads. `stored` and `delivered` are history that no
modelled function reads: the bytes that writers have put into the pipe, and those that
readers have copied out and counted in `i`, each in the order in which the lock was held. -/
structure State (ι : Type*) where
  pipe : Pipe
  lock : Option ι
  place : ι → Place
  stored : List UInt8
  delivered : List UInt8

variable {ι : Type*} [DecidableEq ι]

namespace State

def moveTo (s : State ι) (t : ι) (place : Place) : State ι :=
  { s with place := Function.update s.place t place }

/-- `acquire(&pi->lock)`. -/
def acquire (s : State ι) (t : ι) (place : Place) : Option (State ι) :=
  if s.lock = none then some ({ s with lock := some t }.moveTo t place) else none

/-- `release(&pi->lock)` on the way to `place`. -/
def release (s : State ι) (t : ι) (place : Place) : State ι :=
  { s with lock := none }.moveTo t place

end State

inductive Action (ι : Type*) where
  | write (t : ι) (n : ℤ)
  | read (t : ι) (n : ℤ)
  | acquire (t : ι)
  /-- A pass of the loop of `pipewrite`: the result of `killed(pr)` and of `copyin`. -/
  | put (t : ι) (killed : Bool) (byte : Option UInt8)
  /-- The first loop of `piperead`: the result of `killed(pr)`. -/
  | test (t : ι) (killed : Bool)
  /-- A pass of the second loop of `piperead`: whether `copyout` succeeds. -/
  | get (t : ι) (copyoutOk : Bool)
  /-- `pipeclose`. -/
  | close (writable : Bool)

/-- One pass of the loop of `pipewrite`. -/
def pipewritePass (s : State ι) (t : ι) (n i : ℤ) (killed : Bool) (byte : Option UInt8) :
    State ι :=
  if i < n then
    if s.pipe.readopen = false ∨ killed then s.release t .out
    else if s.pipe.nwrite = uint (s.pipe.nread + pipeSize) then s.release t (.writeWait n i)
    else
      match byte with
      | none => s.release t .out
      | some ch =>
        { s with
          pipe := { s.pipe with
            data := Function.update s.pipe.data (s.pipe.nwrite % pipeSize) ch
            nwrite := uint (s.pipe.nwrite + 1) }
          stored := s.stored ++ [ch] }.moveTo t (.writeLoop n (i + 1))
  else s.release t .out

/-- The first loop of `piperead`, up to its end, its `sleep` or the return. -/
def pipereadTest (s : State ι) (t : ι) (n : ℤ) (killed : Bool) : State ι :=
  if s.pipe.nread = s.pipe.nwrite ∧ s.pipe.writeopen then
    if killed then s.release t .out else s.release t (.readWait n)
  else s.moveTo t (.readCopy n 0)

/-- One pass of the second loop of `piperead`. The byte is taken before it is copied. -/
def pipereadPass (s : State ι) (t : ι) (n i : ℤ) (copyoutOk : Bool) : State ι :=
  if i < n then
    if s.pipe.nread = s.pipe.nwrite then s.release t .out
    else
      let ch := s.pipe.data (s.pipe.nread % pipeSize)
      let s := { s with pipe := { s.pipe with nread := uint (s.pipe.nread + 1) } }
      if copyoutOk = false then s.release t .out
      else { s with delivered := s.delivered ++ [ch] }.moveTo t (.readCopy n (i + 1))
  else s.release t .out

def pipeclose (s : State ι) (writable : Bool) : State ι :=
  if writable then { s with pipe := { s.pipe with writeopen := false } }
  else { s with pipe := { s.pipe with readopen := false } }

/-- One step of a thread. Nothing happens to a pipe that `pipeclose` has freed. -/
def pipeStep (s : State ι) (a : Action ι) : Option (State ι) :=
  if s.pipe.readopen = false ∧ s.pipe.writeopen = false then none
  else
    match a with
    | .write t n => if s.place t = .out then some (s.moveTo t (.writeWait n 0)) else none
    | .read t n => if s.place t = .out then some (s.moveTo t (.readWait n)) else none
    | .acquire t =>
      match s.place t with
      | .writeWait n i => s.acquire t (.writeLoop n i)
      | .readWait n => s.acquire t (.readTest n)
      | _ => none
    | .put t killed byte =>
      match s.place t with
      | .writeLoop n i => some (pipewritePass s t n i killed byte)
      | _ => none
    | .test t killed =>
      match s.place t with
      | .readTest n => some (pipereadTest s t n killed)
      | _ => none
    | .get t copyoutOk =>
      match s.place t with
      | .readCopy n i => some (pipereadPass s t n i copyoutOk)
      | _ => none
    | .close writable => if s.lock = none then some (pipeclose s writable) else none

/-- A pipe as `pipealloc` sets it up; the page that holds it is not cleared. -/
def pipealloc (data : ℕ → UInt8) : State ι :=
  { pipe := ⟨data, 0, 0, true, true⟩, lock := none, place := fun _ => .out, stored := [],
    delivered := [] }

end CS352.Pipe
