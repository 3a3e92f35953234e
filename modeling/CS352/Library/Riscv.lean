import CS352.Library.RedoLog
import Mathlib.Algebra.GroupWithZero.Nat
import Mathlib.Data.Int.Notation
import Mathlib.Data.List.Nodup

/-! # RISC-V code without branches

The instructions with which registers are saved and restored, over a memory of doublewords that
is reached through a page table. -/

namespace CS352.Riscv

open RedoLog Function

abbrev Word := BitVec 64

inductive Reg where
  | ra | sp | gp | tp
  | t0 | t1 | t2 | t3 | t4 | t5 | t6
  | s0 | s1 | s2 | s3 | s4 | s5 | s6 | s7 | s8 | s9 | s10 | s11
  | a0 | a1 | a2 | a3 | a4 | a5 | a6 | a7
  deriving DecidableEq, Repr

inductive Csr where
  | satp | sscratch | stvec | sepc | scause | sstatus | sip | mscratch
  deriving DecidableEq, Repr

inductive Mode where
  | user | supervisor | machine
  deriving DecidableEq, Repr

/-- Offsets are those of the instructions of the same names. -/
inductive Instr where
  | ld (rd : Reg) (offset : ℕ) (base : Reg)
  | sd (rs : Reg) (offset : ℕ) (base : Reg)
  | li (rd : Reg) (imm : Word)
  | addi (rd rs : Reg) (imm : ℤ)
  | add (rd rs₁ rs₂ : Reg)
  | csrw (csr : Csr) (rs : Reg)
  | csrr (rd : Reg) (csr : Csr)
  | csrrw (rd : Reg) (csr : Csr) (rs : Reg)
  | sfence
  deriving DecidableEq, Repr

/-- The state of a hart. -/
structure Core where
  reg : Reg → Word
  csr : Csr → Word
  pc : Word
  mode : Mode
  /-- `satp` has been written, and translations of the old page table may still be in use. -/
  stale : Bool

/-- The doublewords of the physical memory, by their addresses. -/
abbrev Mem := Word → Word

/-- The physical address of a virtual one, for each value of `satp`. -/
abbrev Mmu := Word → Word → Option Word

variable {mmu : Mmu} {c : Core} {m : Mem} {base : Reg} {l : List (Reg × ℕ)}

/-- An access that is not aligned, or that may use a stale translation, has no address. -/
def Core.translate (mmu : Mmu) (c : Core) (va : Word) : Option Word :=
  if c.stale = true ∨ va.toNat % 8 ≠ 0 then none
  else if c.mode = .machine then some va
  else mmu (c.csr .satp) va

def Core.setReg (c : Core) (r : Reg) (v : Word) : Core :=
  { c with reg := update c.reg r v }

def Core.setCsr (c : Core) (k : Csr) (v : Word) : Core :=
  { c with csr := update c.csr k v, stale := c.stale || k = .satp }

section

variable (c : Core) (r : Reg) (k : Csr) (v : Word)

@[simp] theorem setReg_reg : (c.setReg r v).reg = update c.reg r v := rfl

@[simp] theorem setReg_csr : (c.setReg r v).csr = c.csr := rfl

@[simp] theorem setReg_stale : (c.setReg r v).stale = c.stale := rfl

@[simp] theorem setCsr_reg : (c.setCsr k v).reg = c.reg := rfl

@[simp] theorem setCsr_csr : (c.setCsr k v).csr = update c.csr k v := rfl

@[simp] theorem setCsr_stale : (c.setCsr k v).stale = (c.stale || k = .satp) := rfl

end

def exec (mmu : Mmu) (c : Core) (m : Mem) : Instr → Option (Core × Mem)
  | .ld rd offset base =>
    (c.translate mmu (c.reg base + .ofNat 64 offset)).map fun a => (c.setReg rd (m a), m)
  | .sd rs offset base =>
    (c.translate mmu (c.reg base + .ofNat 64 offset)).map fun a =>
      (c, update m a (c.reg rs))
  | .li rd imm => some (c.setReg rd imm, m)
  | .addi rd rs imm => some (c.setReg rd (c.reg rs + .ofInt 64 imm), m)
  | .add rd rs₁ rs₂ => some (c.setReg rd (c.reg rs₁ + c.reg rs₂), m)
  | .csrw csr rs => some (c.setCsr csr (c.reg rs), m)
  | .csrr rd csr => some (c.setReg rd (c.csr csr), m)
  | .csrrw rd csr rs => some ((c.setCsr csr (c.reg rs)).setReg rd (c.csr csr), m)
  | .sfence => some ({ c with stale := false }, m)

theorem exec_ld {a : Word} {offset : ℕ}
    (h : c.translate mmu (c.reg base + .ofNat 64 offset) = some a) (rd : Reg) :
    exec mmu c m (.ld rd offset base) = some (c.setReg rd (m a), m) := by
  rw [exec, h]
  rfl

theorem exec_sd {a : Word} {offset : ℕ}
    (h : c.translate mmu (c.reg base + .ofNat 64 offset) = some a) (rs : Reg) :
    exec mmu c m (.sd rs offset base) = some (c, update m a (c.reg rs)) := by
  rw [exec, h]
  rfl

/-! ## Traps -/

def sie : ℕ := 1

def spie : ℕ := 5

def spp : ℕ := 8

def setBit (w : Word) (i : ℕ) (b : Bool) : Word :=
  if b then w ||| .twoPow 64 i else w &&& ~~~.twoPow 64 i

theorem getLsbD_setBit (w : Word) {i : ℕ} (hi : i < 64) (b : Bool) (j : ℕ) :
    (setBit w i b).getLsbD j = if j = i then b else w.getLsbD j := by
  unfold setBit
  by_cases hj : j = i
  · subst hj
    cases b <;> simp [hi]
  · have hj' : i ≠ j := Ne.symm hj
    cases b
    · have hlt : w.getLsbD j = true → j < 64 := BitVec.lt_of_getLsbD
      simpa [hj, hj', BitVec.getLsbD_twoPow] using hlt
    · simp [hj, hj', BitVec.getLsbD_twoPow]

/-- A trap into supervisor mode. -/
def Core.trap (c : Core) (cause : Word) : Core :=
  let status := c.csr .sstatus
  let status := setBit status spie (status.getLsbD sie)
  let status := setBit (setBit status sie false) spp (c.mode ≠ .user)
  { ((c.setCsr .sepc c.pc).setCsr .scause cause).setCsr .sstatus status with
    mode := .supervisor
    pc := c.csr .stvec }

theorem trap_spp (c : Core) (cause : Word) :
    ((c.trap cause).csr .sstatus).getLsbD spp = decide (c.mode ≠ .user) :=
  (getLsbD_setBit _ (by decide) _ _).trans (if_pos rfl)

def Core.sret (c : Core) : Core :=
  let status := c.csr .sstatus
  { c.setCsr .sstatus
      (setBit (setBit (setBit status sie (status.getLsbD spie)) spie true) spp false) with
    mode := if status.getLsbD spp then .supervisor else .user
    pc := c.csr .sepc }

/-! ## Runs -/

def run (mmu : Mmu) : List Instr → Core → Mem → Option (Core × Mem)
  | [], c, m => some (c, m)
  | i :: is, c, m => (exec mmu c m i).bind fun s => run mmu is s.1 s.2

theorem run_cons {c' : Core} {m' : Mem} {i : Instr} (h : exec mmu c m i = some (c', m'))
    (is : List Instr) : run mmu (i :: is) c m = run mmu is c' m' := by
  rw [run, h]
  rfl

theorem run_append (is js : List Instr) (c : Core) (m : Mem) :
    run mmu (is ++ js) c m = (run mmu is c m).bind fun s => run mmu js s.1 s.2 := by
  induction is generalizing c m with
  | nil => rfl
  | cons i is ih =>
    rw [List.cons_append, run, run, Option.bind_assoc]
    exact congrArg _ (funext fun s => ih s.1 s.2)

/-! ## Saving and restoring registers -/

def saves (base : Reg) (l : List (Reg × ℕ)) : List Instr := l.map fun p => .sd p.1 p.2 base

def loads (base : Reg) (l : List (Reg × ℕ)) : List Instr := l.map fun p => .ld p.1 p.2 base

/-- The offsets of `l` from the base are mapped to the doublewords from `a` on. -/
def Mapped (mmu : Mmu) (c : Core) (base : Reg) (a : Word) (l : List (Reg × ℕ)) : Prop :=
  ∀ p ∈ l, c.translate mmu (c.reg base + .ofNat 64 p.2) = some (a + .ofNat 64 p.2)

/-- The doublewords that hold the registers of `l`. -/
def stored (a : Word) (reg : Reg → Word) (l : List (Reg × ℕ)) : List (Word × Word) :=
  l.map fun p => (a + .ofNat 64 p.2, reg p.1)

/-- What the registers of `l` get. -/
def loaded (a : Word) (m : Mem) (l : List (Reg × ℕ)) : List (Reg × Word) :=
  l.map fun p => (p.1, m (a + .ofNat 64 p.2))

theorem run_saves {a : Word} (h : Mapped mmu c base a l) :
    run mmu (saves base l) c m = some (c, replay m (stored a c.reg l)) := by
  induction l generalizing m with
  | nil => rfl
  | cons p l ih =>
    rw [saves, List.map_cons, run_cons (exec_sd (h p (List.mem_cons_self ..)) _)]
    exact ih fun q hq => h q (List.mem_cons_of_mem _ hq)

theorem run_loads {a : Word} (h : Mapped mmu c base a l) (hbase : base ∉ l.map Prod.fst) :
    run mmu (loads base l) c m = some ({ c with reg := replay c.reg (loaded a m l) }, m) := by
  induction l generalizing c with
  | nil => rfl
  | cons p l ih =>
    rw [List.map_cons, List.mem_cons, not_or] at hbase
    rw [loads, List.map_cons, run_cons (exec_ld (h p (List.mem_cons_self ..)) _)]
    refine ih (fun q hq => ?_) hbase.2
    have hq' := h q (List.mem_cons_of_mem _ hq)
    simpa only [Core.translate, Core.setReg, update_of_ne hbase.1] using hq'

theorem add_ofNat_inj {a : Word} {i j : ℕ} (hi : i < 2 ^ 64) (hj : j < 2 ^ 64)
    (h : a + BitVec.ofNat 64 i = a + BitVec.ofNat 64 j) : i = j := by
  have heq := congrArg BitVec.toNat h
  simp only [BitVec.toNat_add, BitVec.toNat_ofNat] at heq
  have := a.isLt
  omega

theorem loaded_of_mem {a : Word} {reg : Reg → Word} {r : Reg} {o : ℕ}
    (hnodup : (l.map Prod.fst).Nodup) (h : (r, o) ∈ l) :
    replay reg (loaded a m l) r = m (a + .ofNat 64 o) := by
  have hmem : (r, m (a + .ofNat 64 o)) ∈ loaded a m l := by
    rw [loaded]
    exact List.mem_map.mpr ⟨(r, o), h, rfl⟩
  exact replay_of_mem (by rwa [loaded, List.map_map]) hmem

theorem loaded_of_not_mem {a : Word} {reg : Reg → Word} {r : Reg} (h : r ∉ l.map Prod.fst) :
    replay reg (loaded a m l) r = reg r :=
  replay_of_not_mem (by rwa [loaded, List.map_map])

theorem stored_of_mem {a : Word} {reg : Reg → Word} {r : Reg} {o : ℕ}
    (hnodup : (l.map Prod.snd).Nodup) (hlt : ∀ p ∈ l, p.2 < 2 ^ 64) (h : (r, o) ∈ l) :
    replay m (stored a reg l) (a + .ofNat 64 o) = reg r := by
  have hmem : (a + .ofNat 64 o, reg r) ∈ stored a reg l := by
    rw [stored]
    exact List.mem_map.mpr ⟨(r, o), h, rfl⟩
  refine replay_of_mem ?_ hmem
  have hmap : (stored a reg l).map Prod.fst = (l.map Prod.snd).map (a + BitVec.ofNat 64 ·) := by
    simp [stored]
  rw [hmap]
  refine List.Nodup.map_on ?_ hnodup
  intro i hi j hj heq
  obtain ⟨p, hp, rfl⟩ := List.mem_map.mp hi
  obtain ⟨q, hq, rfl⟩ := List.mem_map.mp hj
  exact add_ofNat_inj (hlt p hp) (hlt q hq) heq

theorem stored_of_not_mem {a b : Word} {reg : Reg → Word}
    (h : ∀ p ∈ l, b ≠ a + .ofNat 64 p.2) : replay m (stored a reg l) b = m b := by
  refine replay_of_not_mem ?_
  rw [stored, List.map_map, List.mem_map]
  rintro ⟨p, hp, heq⟩
  exact h p hp heq.symm

end CS352.Riscv
