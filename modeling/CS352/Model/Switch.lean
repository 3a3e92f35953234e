import CS352.Model.Traps

/-! # Kernel threads

Processes in the kernel and the schedulers of the harts, which call `swtch` of `kernel/swtch.S`. -/

namespace CS352.Traps

open Riscv Function

/-- `struct context`. -/
def contextFields : List (Reg × ℕ) :=
  [(.ra, 0), (.sp, 8), (.s0, 16), (.s1, 24), (.s2, 32), (.s3, 40), (.s4, 48), (.s5, 56), (.s6, 64),
    (.s7, 72), (.s8, 80), (.s9, 88), (.s10, 96), (.s11, 104)]

/-- The kernel has the contexts at their physical addresses. -/
structure Contexts (T : Type*) where
  mmu : Mmu
  kernelSatp : Word
  /-- `&p->context` or `&c->context`. -/
  context : T → Word
  mapped : ∀ t o, o < 112 →
    mmu kernelSatp (context t + .ofNat 64 o) = some (context t + .ofNat 64 o)
  aligned : ∀ t, (context t).toNat % 8 = 0
  apart : ∀ t t', t ≠ t' → ∀ o o', o < 112 → o' < 112 →
    context t + .ofNat 64 o ≠ context t' + .ofNat 64 o'

structure Threads (H T : Type*) where
  mem : Mem
  core : H → Core
  /-- The thread that runs on the hart. -/
  thread : H → T
  /-- `p->state` is not `UNUSED`; the schedulers are always there. -/
  used : T → Bool

inductive ThreadAction (H T : Type*) where
  /-- The thread computes. It does not touch `tp`. -/
  | run (h : H) (reg : Reg → Word)
  /-- Somebody writes to the memory. -/
  | write (a v : Word)
  /-- A call of `swtch` that is to return to `ra`. -/
  | call (h : H) (ra : Word) (new : T)
  /-- `allocproc` makes a context for a slot that it has found unused. -/
  | start (t : T) (ra sp : Word)
  /-- `freeproc`. -/
  | free (t : T)

section

variable {H T : Type*} [DecidableEq H] [DecidableEq T] (C : Contexts T) (s : Threads H T)

/-- `swtch(&old->context, &new->context)`, up to its `ret`, in the thread `new`. -/
def callSwtch (h : H) (ra : Word) (new : T) : Option (Threads H T) :=
  let c := ((s.core h).setReg .ra ra).setReg .a0 (C.context (s.thread h))
  let c := c.setReg .a1 (C.context new)
  (run C.mmu swtch c s.mem).map fun r =>
    { s with
      mem := r.2
      core := update s.core h { r.1 with pc := r.1.reg .ra }
      thread := update s.thread h new }

/-- `memset(&p->context, 0, sizeof(p->context))` and the assignments after it. -/
def Contexts.init (m : Mem) (t : T) (ra sp : Word) : Mem :=
  let m := contextFields.foldl (fun m x => update m (C.context t + .ofNat 64 x.2) 0) m
  let m := update m (C.context t + .ofNat 64 0) ra
  update m (C.context t + .ofNat 64 8) sp

def threadStep : ThreadAction H T → Option (Threads H T)
  | .run h reg =>
    let c := { s.core h with reg := update reg .tp ((s.core h).reg .tp) }
    some { s with core := update s.core h c }
  | .write a v => some { s with mem := update s.mem a v }
  | .call h ra new => callSwtch C s h ra new
  | .start t ra sp =>
    if s.used t then none
    else some { s with mem := C.init s.mem t ra sp, used := update s.used t true }
  | .free t =>
    if s.used t then some { s with used := update s.used t false } else none

/-- What is assumed of the callers: contexts are written by `swtch` and for new threads only; the
thread to go on with has been started and does not run anywhere, and neither does one that is
freed. -/
def ThreadPermitted : ThreadAction H T → Prop
  | .write a _ => ∀ t o, o < 112 → a ≠ C.context t + .ofNat 64 o
  | .call _ _ new => s.used new = true ∧ ∀ h, s.thread h ≠ new
  | .free t => ∀ h, s.thread h ≠ t
  | .run _ _ | .start _ _ _ => True

end

end CS352.Traps
