import CS352.Model.Traps

/-! # Interrupts in the kernel

Code of the kernel on one hart that is interrupted: by traps to `kernelvec` and by timer interrupts
to `timervec`, both of `kernel/kernelvec.S`. -/

namespace CS352.Traps

open Riscv

/-- What `timerinit` of `kernel/start.c` sets up for a hart. -/
structure Timer where
  /-- `timer_scratch[id]`. -/
  scratch : Word
  /-- `CLINT_MTIMECMP(id)`. -/
  mtimecmp : Word
  interval : Word
  scratch_aligned : scratch.toNat % 8 = 0
  mtimecmp_aligned : mtimecmp.toNat % 8 = 0
  apart : ∀ o, o < 40 → mtimecmp ≠ scratch + .ofNat 64 o

structure Hart where
  core : Core
  mem : Mem

inductive Interrupt where
  | timer
  /-- A trap, and what `kerneltrap` leaves behind. -/
  | trap (cause : Word) (core : Core) (mem : Mem)

section

variable (mmu : Mmu) (s : Hart)

def interrupt : Interrupt → Option Hart
  | .timer =>
    (run mmu timervec { s.core with mode := .machine } s.mem).map fun r =>
      -- mret
      ⟨{ r.1 with mode := s.core.mode }, r.2⟩
  | .trap cause core mem =>
    (run mmu kernelvec (s.core.trap cause) s.mem).bind fun _ =>
      (run mmu kernelvecReturn core mem).map fun r => ⟨r.1.sret, r.2⟩

/-- What is assumed of `kerneltrap`: it keeps the stack pointer, the frame on the stack, the page
table in `satp` and supervisor mode, and puts `sepc` and `sstatus` back. All other registers may
differ after it, `tp` too. -/
structure Handled (frame : Word) (c c' : Core) (m m' : Mem) : Prop where
  sp : c'.reg .sp = c.reg .sp
  satp : c'.csr .satp = c.csr .satp
  sepc : c'.csr .sepc = c.csr .sepc
  sstatus : c'.csr .sstatus = c.csr .sstatus
  mode : c'.mode = c.mode
  fresh : c'.stale = false
  stack : ∀ o, o < 256 → m' (frame + .ofNat 64 o) = m (frame + .ofNat 64 o)

/-- The hart has the timer of `T`. -/
structure Ticking (T : Timer) (c : Core) (m : Mem) : Prop where
  mscratch : c.csr .mscratch = T.scratch
  fresh : c.stale = false
  target : m (T.scratch + .ofNat 64 24) = T.mtimecmp
  interval : m (T.scratch + .ofNat 64 32) = T.interval

/-- The hart that the code is on has a timer. For a trap the stack pointer is aligned, there is
room on the stack for a frame that is mapped to one piece of memory, and `kerneltrap` does what is
assumed of it. -/
def InterruptPermitted : Interrupt → Prop
  | .timer => ∃ T, Ticking T s.core s.mem
  | .trap cause core mem => (s.core.reg .sp).toNat % 8 = 0 ∧ s.core.stale = false ∧
      ∃ frame : Word,
        (∀ o, o < 256 → mmu (s.core.csr .satp) (s.core.reg .sp - 256 + .ofNat 64 o) =
          some (frame + .ofNat 64 o)) ∧
        ∀ c m, run mmu kernelvec (s.core.trap cause) s.mem = some (c, m) →
          Handled frame c core m mem

end

end CS352.Traps
