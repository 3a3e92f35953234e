import CS352.Library.Riscv

/-! # Traps and switches

The assembly of `kernel/trampoline.S`, `kernel/swtch.S` and `kernel/kernelvec.S`, and what
`kernel/trap.c` and `kernel/proc.c` do with the trapframes of the processes. -/

namespace CS352.Traps

open Riscv Function

def pgsize : ℕ := 4096

def maxva : Word := .twoPow 64 38

/-- `TRAMPOLINE`. -/
def trampoline : Word := maxva - .ofNat 64 pgsize

/-- `TRAPFRAME`. -/
def trapframe : Word := trampoline - .ofNat 64 pgsize

/-! ## Assembly -/

/-- Up to `jr t0`. -/
def uservec : List Instr :=
  [.csrw .sscratch .a0,
    .li .a0 trapframe,
    .sd .ra 40 .a0, .sd .sp 48 .a0, .sd .gp 56 .a0, .sd .tp 64 .a0, .sd .t0 72 .a0, .sd .t1 80 .a0,
    .sd .t2 88 .a0, .sd .s0 96 .a0, .sd .s1 104 .a0, .sd .a1 120 .a0, .sd .a2 128 .a0,
    .sd .a3 136 .a0, .sd .a4 144 .a0, .sd .a5 152 .a0, .sd .a6 160 .a0, .sd .a7 168 .a0,
    .sd .s2 176 .a0, .sd .s3 184 .a0, .sd .s4 192 .a0, .sd .s5 200 .a0, .sd .s6 208 .a0,
    .sd .s7 216 .a0, .sd .s8 224 .a0, .sd .s9 232 .a0, .sd .s10 240 .a0, .sd .s11 248 .a0,
    .sd .t3 256 .a0, .sd .t4 264 .a0, .sd .t5 272 .a0, .sd .t6 280 .a0,
    .csrr .t0 .sscratch,
    .sd .t0 112 .a0,
    .ld .sp 8 .a0,
    .ld .tp 32 .a0,
    .ld .t0 16 .a0,
    .ld .t1 0 .a0,
    .sfence,
    .csrw .satp .t1,
    .sfence]

/-- Up to `sret`. -/
def userret : List Instr :=
  [.sfence,
    .csrw .satp .a0,
    .sfence,
    .li .a0 trapframe,
    .ld .ra 40 .a0, .ld .sp 48 .a0, .ld .gp 56 .a0, .ld .tp 64 .a0, .ld .t0 72 .a0, .ld .t1 80 .a0,
    .ld .t2 88 .a0, .ld .s0 96 .a0, .ld .s1 104 .a0, .ld .a1 120 .a0, .ld .a2 128 .a0,
    .ld .a3 136 .a0, .ld .a4 144 .a0, .ld .a5 152 .a0, .ld .a6 160 .a0, .ld .a7 168 .a0,
    .ld .s2 176 .a0, .ld .s3 184 .a0, .ld .s4 192 .a0, .ld .s5 200 .a0, .ld .s6 208 .a0,
    .ld .s7 216 .a0, .ld .s8 224 .a0, .ld .s9 232 .a0, .ld .s10 240 .a0, .ld .s11 248 .a0,
    .ld .t3 256 .a0, .ld .t4 264 .a0, .ld .t5 272 .a0, .ld .t6 280 .a0,
    .ld .a0 112 .a0]

/-- Up to `ret`. -/
def swtch : List Instr :=
  [
    .sd .ra 0 .a0, .sd .sp 8 .a0, .sd .s0 16 .a0, .sd .s1 24 .a0, .sd .s2 32 .a0, .sd .s3 40 .a0,
    .sd .s4 48 .a0, .sd .s5 56 .a0, .sd .s6 64 .a0, .sd .s7 72 .a0, .sd .s8 80 .a0, .sd .s9 88 .a0,
    .sd .s10 96 .a0, .sd .s11 104 .a0,
    .ld .ra 0 .a1, .ld .sp 8 .a1, .ld .s0 16 .a1, .ld .s1 24 .a1, .ld .s2 32 .a1, .ld .s3 40 .a1,
    .ld .s4 48 .a1, .ld .s5 56 .a1, .ld .s6 64 .a1, .ld .s7 72 .a1, .ld .s8 80 .a1, .ld .s9 88 .a1,
    .ld .s10 96 .a1, .ld .s11 104 .a1]

/-- `kernelvec` up to the call of `kerneltrap`. -/
def kernelvec : List Instr :=
  [.addi .sp .sp (-256),
    .sd .ra 0 .sp, .sd .sp 8 .sp, .sd .gp 16 .sp, .sd .tp 24 .sp, .sd .t0 32 .sp, .sd .t1 40 .sp,
    .sd .t2 48 .sp, .sd .s0 56 .sp, .sd .s1 64 .sp, .sd .a0 72 .sp, .sd .a1 80 .sp, .sd .a2 88 .sp,
    .sd .a3 96 .sp, .sd .a4 104 .sp, .sd .a5 112 .sp, .sd .a6 120 .sp, .sd .a7 128 .sp,
    .sd .s2 136 .sp, .sd .s3 144 .sp, .sd .s4 152 .sp, .sd .s5 160 .sp, .sd .s6 168 .sp,
    .sd .s7 176 .sp, .sd .s8 184 .sp, .sd .s9 192 .sp, .sd .s10 200 .sp, .sd .s11 208 .sp,
    .sd .t3 216 .sp, .sd .t4 224 .sp, .sd .t5 232 .sp, .sd .t6 240 .sp]

/-- `kernelvec` from the return of `kerneltrap` to `sret`. -/
def kernelvecReturn : List Instr :=
  [
    .ld .ra 0 .sp, .ld .sp 8 .sp, .ld .gp 16 .sp, .ld .t0 32 .sp, .ld .t1 40 .sp, .ld .t2 48 .sp,
    .ld .s0 56 .sp, .ld .s1 64 .sp, .ld .a0 72 .sp, .ld .a1 80 .sp, .ld .a2 88 .sp, .ld .a3 96 .sp,
    .ld .a4 104 .sp, .ld .a5 112 .sp, .ld .a6 120 .sp, .ld .a7 128 .sp, .ld .s2 136 .sp,
    .ld .s3 144 .sp, .ld .s4 152 .sp, .ld .s5 160 .sp, .ld .s6 168 .sp, .ld .s7 176 .sp,
    .ld .s8 184 .sp, .ld .s9 192 .sp, .ld .s10 200 .sp, .ld .s11 208 .sp, .ld .t3 216 .sp,
    .ld .t4 224 .sp, .ld .t5 232 .sp, .ld .t6 240 .sp,
    .addi .sp .sp 256]

/-- Up to `mret`. -/
def timervec : List Instr :=
  [.csrrw .a0 .mscratch .a0,
    .sd .a1 0 .a0, .sd .a2 8 .a0, .sd .a3 16 .a0,
    .ld .a1 24 .a0, .ld .a2 32 .a0, .ld .a3 0 .a1, .add .a3 .a3 .a2, .sd .a3 0 .a1,
    .li .a1 2, .csrw .sip .a1,
    .ld .a3 16 .a0, .ld .a2 8 .a0, .ld .a1 0 .a0,
    .csrrw .a0 .mscratch .a0]

/-! ## Trapframes -/

/-- The offsets of the user's registers in `struct trapframe`. -/
def slot : Reg → ℕ
  | .ra => 40
  | .sp => 48
  | .gp => 56
  | .tp => 64
  | .t0 => 72
  | .t1 => 80
  | .t2 => 88
  | .s0 => 96
  | .s1 => 104
  | .a0 => 112
  | .a1 => 120
  | .a2 => 128
  | .a3 => 136
  | .a4 => 144
  | .a5 => 152
  | .a6 => 160
  | .a7 => 168
  | .s2 => 176
  | .s3 => 184
  | .s4 => 192
  | .s5 => 200
  | .s6 => 208
  | .s7 => 216
  | .s8 => 224
  | .s9 => 232
  | .s10 => 240
  | .s11 => 248
  | .t3 => 256
  | .t4 => 264
  | .t5 => 272
  | .t6 => 280

def kernelSatpSlot : ℕ := 0

def kernelSpSlot : ℕ := 8

def kernelTrapSlot : ℕ := 16

def epcSlot : ℕ := 24

def kernelHartidSlot : ℕ := 32

/-- Where things are: the trapframe of each process is a page of its own, at `TRAPFRAME` in the
page table of the process. -/
structure Layout (H P : Type*) where
  mmu : Mmu
  /-- `MAKE_SATP(p->pagetable)`. -/
  satp : P → Word
  /-- `p->trapframe`. -/
  frame : P → Word
  kstack : P → Word
  hartid : H → Word
  kernelSatp : Word
  usertrap : Word
  /-- `TRAMPOLINE + (uservec - trampoline)`. -/
  uservec : Word
  kernelvec : Word
  frame_mapped : ∀ p o, o < pgsize →
    mmu (satp p) (trapframe + .ofNat 64 o) = some (frame p + .ofNat 64 o)
  frame_aligned : ∀ p, (frame p).toNat % pgsize = 0
  frame_injective : Injective frame
  hartid_injective : Injective hartid

/-- What a hart does: it runs a user program, the kernel for a process, or the scheduler. -/
inductive Place (P : Type*) where
  | user (p : P)
  | kernel (p : P)
  | scheduler

def Place.proc {P : Type*} : Place P → Option P
  | .user p | .kernel p => some p
  | .scheduler => none

structure State (H P : Type*) where
  mem : Mem
  core : H → Core
  place : H → Place P
  /-- `cpus[id].proc`. -/
  cpu : Word → Option P
  panicked : Bool

inductive Action (H P : Type*) where
  /-- The user program does something with its registers. -/
  | user (h : H) (reg : Reg → Word) (pc : Word)
  /-- Somebody writes to the memory. -/
  | write (a v : Word)
  | trap (h : H) (cause : Word)
  /-- The kernel does something with its registers. It does not touch `tp`, `satp` and `stvec`. -/
  | kernel (h : H) (reg : Reg → Word) (csr : Csr → Word)
  /-- The kernel sets a register in the trapframe of its process. -/
  | setReg (h : H) (r : Reg) (v : Word)
  | setEpc (h : H) (v : Word)
  /-- The copy of the trapframe in `fork`. -/
  | fork (h : H) (np : P)
  | sched (h : H)
  | dispatch (h : H) (p : P)
  /-- The kernel returns to the user program. -/
  | ret (h : H)

section

variable {H P : Type*} [DecidableEq H] (L : Layout H P) (s : State H P)

def Layout.word (L : Layout H P) (p : P) (offset : ℕ) : Word := L.frame p + .ofNat 64 offset

/-- `p->trapframe->field = v`. -/
def Layout.put (L : Layout H P) (m : Mem) (p : P) (offset : ℕ) (v : Word) : Mem :=
  update m (L.word p offset) v

/-- `myproc()`, on the hart with these registers. -/
def State.myproc (c : Core) : Option P := s.cpu (c.reg .tp)

def State.setCore (h : H) (c : Core) : State H P := { s with core := update s.core h c }

def State.setPlace (h : H) (place : Place P) : State H P :=
  { s with place := update s.place h place }

/-- `p->trapframe->epc = r_sepc()`, and the next instruction after a system call. -/
def Layout.saveEpc (L : Layout H P) (m : Mem) (p : P) (c : Core) : Mem :=
  let m := L.put m p epcSlot (c.csr .sepc)
  if c.csr .scause = 8 then L.put m p epcSlot (m (L.word p epcSlot) + 4) else m

/-- The beginning of `usertrap`. -/
def usertrap (h : H) (c : Core) (m : Mem) : Option (State H P) :=
  if (c.csr .sstatus).getLsbD spp then
    some { s.setCore h c with mem := m, panicked := true }
  else
    (s.myproc c).map fun p =>
      let c := c.setCsr .stvec L.kernelvec
      { (s.setCore h c).setPlace h (.kernel p) with mem := L.saveEpc m p c }

/-- A trap from a user program. -/
def trap (h : H) (cause : Word) : Option (State H P) :=
  let c := (s.core h).trap cause
  if c.pc = L.uservec then
    (run L.mmu uservec c s.mem).bind fun r =>
      -- jr t0
      if r.1.reg .t0 = L.usertrap then usertrap L s h { r.1 with pc := r.1.reg .t0 } r.2 else none
  else none

/-- `usertrapret`, up to the call of `userret`, for the process `p`. -/
def usertrapret (p : P) (c : Core) (m : Mem) : Core × Mem :=
  let c := c.setCsr .sstatus (setBit (c.csr .sstatus) sie false)
  let c := c.setCsr .stvec L.uservec
  let m := L.put m p kernelSatpSlot (c.csr .satp)
  let m := L.put m p kernelSpSlot (L.kstack p + .ofNat 64 pgsize)
  let m := L.put m p kernelTrapSlot L.usertrap
  let m := L.put m p kernelHartidSlot (c.reg .tp)
  let c := c.setCsr .sstatus (setBit (setBit (c.csr .sstatus) spp false) spie true)
  let c := c.setCsr .sepc (m (L.word p epcSlot))
  (c.setReg .a0 (L.satp p), m)

/-- `usertrapret` and `userret`. -/
def ret (h : H) : Option (State H P) :=
  (s.myproc (s.core h)).bind fun p =>
    let r := usertrapret L p (s.core h) s.mem
    (run L.mmu userret r.1 r.2).map fun r =>
      { (s.setCore h r.1.sret).setPlace h (.user p) with mem := r.2 }

/-- `*(np->trapframe) = *(p->trapframe); np->trapframe->a0 = 0;`. -/
def Layout.copyFrame (L : Layout H P) (m : Mem) (p np : P) : Mem :=
  L.put (((List.range 36).map (8 * ·)).foldl (fun m o => L.put m np o (m (L.word p o))) m) np
    (slot .a0) 0

/-- The registers that the kernel uses. -/
def become (c : Core) (reg : Reg → Word) (csr : Csr → Word) : Core :=
  { c with
    reg := update reg .tp (c.reg .tp)
    csr := update (update csr .satp (c.csr .satp)) .stvec (c.csr .stvec) }

def step : Action H P → Option (State H P)
  | .user h reg pc =>
    match s.place h with
    | .user _ => some (s.setCore h { s.core h with reg := reg, pc := pc })
    | _ => none
  | .write a v => some { s with mem := update s.mem a v }
  | .trap h cause =>
    match s.place h with
    | .user _ => trap L s h cause
    | _ => none
  | .kernel h reg csr =>
    match s.place h with
    | .user _ => none
    | _ => some (s.setCore h (become (s.core h) reg csr))
  | .setReg h r v =>
    match s.place h with
    | .kernel _ => (s.myproc (s.core h)).map fun p => { s with mem := L.put s.mem p (slot r) v }
    | _ => none
  | .setEpc h v =>
    match s.place h with
    | .kernel _ => (s.myproc (s.core h)).map fun p => { s with mem := L.put s.mem p epcSlot v }
    | _ => none
  | .fork h np =>
    match s.place h with
    | .kernel _ => (s.myproc (s.core h)).map fun p => { s with mem := L.copyFrame s.mem p np }
    | _ => none
  | .sched h =>
    match s.place h with
    | .kernel _ =>
      let cpu := fun id => if id = (s.core h).reg .tp then none else s.cpu id
      some { s.setPlace h .scheduler with cpu := cpu }
    | _ => none
  | .dispatch h p =>
    match s.place h with
    | .scheduler =>
      let cpu := fun id => if id = (s.core h).reg .tp then some p else s.cpu id
      some { s.setPlace h (.kernel p) with cpu := cpu }
    | _ => none
  | .ret h =>
    match s.place h with
    | .kernel _ => ret L s h
    | _ => none

/-- What is assumed of the rest of the kernel: nobody but `trap.c` and `fork` writes to
trapframes, a scheduler switches to a process that no hart has, and `fork` takes such a
process. -/
def Permitted : Action H P → Prop
  | .write a _ => ∀ p o, o < pgsize → a ≠ L.word p o
  | .dispatch _ p | .fork _ p => ∀ h, (s.place h).proc ≠ some p
  | _ => True

/-- All harts are in the scheduler. -/
def boot (mem : Mem) (core : H → Core) : State H P where
  mem := mem
  core h := { core h with
    reg := update (core h).reg .tp (L.hartid h)
    csr := update (update (core h).csr .satp L.kernelSatp) .stvec L.kernelvec
    mode := .supervisor
    stale := false }
  place _ := .scheduler
  cpu _ := none
  panicked := false

end

end CS352.Traps
