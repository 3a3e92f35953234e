import CS352.Model.Traps

/-! # The trampoline

`uservec` saves the registers of the user program in the trapframe of its process, and `userret`
loads them from there. -/

namespace CS352.Traps

open Riscv RedoLog Function

variable {H P : Type*} {L : Layout H P} {p q : P} {c : Core} {m : Mem} {o o' : ℕ}

/-! ## Trapframes in memory -/

theorem word_toNat (L : Layout H P) (p : P) (ho : o < pgsize) :
    (L.word p o).toNat = (L.frame p).toNat + o := by
  have haligned := L.frame_aligned p
  have hlt := (L.frame p).isLt
  unfold pgsize at ho haligned
  rw [Layout.word, BitVec.toNat_add, BitVec.toNat_ofNat]
  omega

theorem word_inj (ho : o < pgsize) (ho' : o' < pgsize) (h : L.word p o = L.word q o') :
    p = q ∧ o = o' := by
  have hp := L.frame_aligned p
  have hq := L.frame_aligned q
  have heq := congrArg BitVec.toNat h
  rw [word_toNat L p ho, word_toNat L q ho'] at heq
  unfold pgsize at *
  refine ⟨L.frame_injective (BitVec.eq_of_toNat_eq ?_), ?_⟩ <;> omega

theorem word_ne (hne : p ≠ q) (ho : o < pgsize) (ho' : o' < pgsize) : L.word p o ≠ L.word q o' :=
  fun h => hne (word_inj ho ho' h).1

theorem word_ne_offset (hne : o ≠ o') (ho : o < pgsize) (ho' : o' < pgsize) :
    L.word p o ≠ L.word p o' :=
  fun h => hne (word_inj ho ho' h).2

theorem slot_lt (r : Reg) : 40 ≤ slot r ∧ slot r ≤ 280 ∧ slot r % 8 = 0 := by
  cases r <;> decide

theorem slot_injective : Injective slot := by
  intro r r' h
  cases r <;> cases r' <;> first | rfl | cases h

/-! ## Code in supervisor mode with the page table of a process -/

/-- `a0` points to the trapframe. -/
structure AtFrame (L : Layout H P) (p : P) (c : Core) : Prop where
  base : c.reg .a0 = trapframe
  satp : c.csr .satp = L.satp p
  mode : c.mode = .supervisor
  fresh : c.stale = false

theorem AtFrame.translate (h : AtFrame L p c) (ho : o < pgsize) (hmod : o % 8 = 0) :
    c.translate L.mmu (c.reg .a0 + .ofNat 64 o) = some (L.word p o) := by
  have haligned : (trapframe + .ofNat 64 o).toNat % 8 = 0 := by
    rw [BitVec.toNat_add, BitVec.toNat_ofNat, show trapframe.toNat = 2 ^ 38 - 8192 from rfl]
    unfold pgsize at ho
    omega
  rw [Core.translate, h.base, h.fresh, h.mode, h.satp, if_neg (by simpa using haligned),
    if_neg (by simp)]
  exact L.frame_mapped p o ho

theorem AtFrame.mapped (h : AtFrame L p c) {l : List (Reg × ℕ)}
    (hl : ∀ x ∈ l, x.2 < pgsize ∧ x.2 % 8 = 0) : Mapped L.mmu c .a0 (L.frame p) l :=
  fun x hx => h.translate (hl x hx).1 (hl x hx).2

theorem AtFrame.setReg (h : AtFrame L p c) {r : Reg} (hr : r ≠ .a0) (v : Word) :
    AtFrame L p (c.setReg r v) :=
  ⟨by rw [setReg_reg, update_of_ne hr.symm, h.base], h.satp, h.mode, h.fresh⟩

/-- The registers that are saved and loaded one after the other. -/
def frameRegs : List (Reg × ℕ) :=
  [.ra, .sp, .gp, .tp, .t0, .t1, .t2, .s0, .s1, .a1, .a2, .a3, .a4, .a5, .a6, .a7, .s2, .s3, .s4,
    .s5, .s6, .s7, .s8, .s9, .s10, .s11, .t3, .t4, .t5, .t6].map fun r => (r, slot r)

theorem mem_frameRegs {r : Reg} : r ≠ .a0 ↔ (r, slot r) ∈ frameRegs := by
  cases r <;> decide

theorem frameRegs_slot : ∀ x ∈ frameRegs, x.1 ≠ .a0 ∧ x.2 = slot x.1 := by decide

theorem frameRegs_nodup : (frameRegs.map Prod.fst).Nodup ∧ (frameRegs.map Prod.snd).Nodup := by
  decide

theorem frameRegs_lt : ∀ x ∈ frameRegs, x.2 < pgsize ∧ x.2 % 8 = 0 := by
  intro x hx
  have := slot_lt x.1
  rw [(frameRegs_slot x hx).2]
  unfold pgsize
  omega

/-- The end of `uservec`, when all registers but `a0` have been saved. -/
def uservecEnd : List Instr :=
  [.csrr .t0 .sscratch, .sd .t0 112 .a0, .ld .sp 8 .a0, .ld .tp 32 .a0, .ld .t0 16 .a0,
    .ld .t1 0 .a0, .sfence, .csrw .satp .t1, .sfence]

theorem uservec_eq : uservec =
    .csrw .sscratch .a0 :: .li .a0 trapframe :: (saves .a0 frameRegs ++ uservecEnd) := rfl

theorem userret_eq : userret = .sfence :: .csrw .satp .a0 :: .sfence :: .li .a0 trapframe ::
    (loads .a0 frameRegs ++ [.ld .a0 112 .a0]) := rfl

theorem AtFrame.run_ld (h : AtFrame L p c) (rd : Reg) (ho : o < pgsize) (hmod : o % 8 = 0)
    (is : List Instr) : run L.mmu (.ld rd o .a0 :: is) c m =
      run L.mmu is (c.setReg rd (m (L.word p o))) m :=
  run_cons (exec_ld (h.translate ho hmod) rd) is

theorem AtFrame.run_sd (h : AtFrame L p c) (rs : Reg) (ho : o < pgsize) (hmod : o % 8 = 0)
    (is : List Instr) : run L.mmu (.sd rs o .a0 :: is) c m =
      run L.mmu is c (update m (L.word p o) (c.reg rs)) :=
  run_cons (exec_sd (h.translate ho hmod) rs) is

theorem AtFrame.run_uservecEnd (h : AtFrame L p c) : ∃ c', run L.mmu uservecEnd c m =
      some (c', update m (L.word p (slot .a0)) (c.csr .sscratch)) ∧
    c'.reg .sp = m (L.word p kernelSpSlot) ∧ c'.reg .tp = m (L.word p kernelHartidSlot) ∧
    c'.reg .t0 = m (L.word p kernelTrapSlot) ∧
    c'.csr = update c.csr .satp (m (L.word p kernelSatpSlot)) ∧
    c'.mode = .supervisor ∧ c'.stale = false := by
  have hne : ∀ o < 40, L.word p o ≠ L.word p 112 := fun o ho =>
    word_ne_offset (by omega) (by unfold pgsize; omega) (by decide)
  have h₁ := h.setReg (r := .t0) (by simp) (c.csr .sscratch)
  rw [uservecEnd, run_cons rfl, h₁.run_sd .t0 (by decide) (by decide),
    h₁.run_ld .sp (by decide) (by decide),
    (h₁.setReg (by simp) _).run_ld .tp (by decide) (by decide),
    ((h₁.setReg (by simp) _).setReg (by simp) _).run_ld .t0 (by decide) (by decide),
    (((h₁.setReg (by simp) _).setReg (by simp) _).setReg (by simp) _).run_ld .t1 (by decide)
      (by decide)]
  refine ⟨_, rfl, ?_, ?_, ?_, ?_, h.mode, rfl⟩
  · simp [hne, kernelSpSlot]
  · simp [hne, kernelHartidSlot]
  · simp [hne, kernelTrapSlot]
  · simp [hne, kernelSatpSlot]

/-- What `uservec` does with the trapframe of the process and with the hart. -/
theorem run_uservec (hsatp : c.csr .satp = L.satp p) (hmode : c.mode = .supervisor)
    (hfresh : c.stale = false) : ∃ c' m', run L.mmu uservec c m = some (c', m') ∧
      (∀ r, m' (L.word p (slot r)) = c.reg r) ∧
      (∀ a, (∀ r, a ≠ L.word p (slot r)) → m' a = m a) ∧
      c'.reg .sp = m (L.word p kernelSpSlot) ∧ c'.reg .tp = m (L.word p kernelHartidSlot) ∧
      c'.reg .t0 = m (L.word p kernelTrapSlot) ∧
      c'.csr = update (update c.csr .sscratch (c.reg .a0)) .satp
        (m (L.word p kernelSatpSlot)) ∧
      c'.mode = .supervisor ∧ c'.stale = false := by
  obtain ⟨c₁, hc₁⟩ : ∃ c₁, c₁ = (c.setCsr .sscratch (c.reg .a0)).setReg .a0 trapframe := ⟨_, rfl⟩
  obtain ⟨m₁, hm₁⟩ : ∃ m₁, m₁ = replay m (stored (L.frame p) c₁.reg frameRegs) := ⟨_, rfl⟩
  have hframe : AtFrame L p c₁ := by
    rw [hc₁]
    exact ⟨by simp, by simpa using hsatp, hmode, by simp [hfresh]⟩
  have hsaves := run_saves (m := m) (hframe.mapped frameRegs_lt)
  obtain ⟨c', hrun, hsp, htp, ht0, hcsr, hmode', hfresh'⟩ := hframe.run_uservecEnd (m := m₁)
  have hkept : ∀ a, (∀ r, a ≠ L.word p (slot r)) → m₁ a = m a := by
    intro a ha
    rw [hm₁]
    refine stored_of_not_mem fun x hx => ?_
    rw [(frameRegs_slot x hx).2]
    exact ha x.1
  have hkernel : ∀ o < 40, m₁ (L.word p o) = m (L.word p o) := fun o ho =>
    hkept _ fun r => word_ne_offset (by have := slot_lt r; omega) (by unfold pgsize; omega)
      (by have := slot_lt r; unfold pgsize; omega)
  refine ⟨c', update m₁ (L.word p (slot .a0)) (c₁.csr .sscratch), ?_, ?_, ?_,
    hsp.trans (hkernel 8 (by decide)), htp.trans (hkernel 32 (by decide)),
    ht0.trans (hkernel 16 (by decide)), ?_, hmode', hfresh'⟩
  · have hli : exec L.mmu (c.setCsr .sscratch (c.reg .a0)) m (.li .a0 trapframe) =
        some (c₁, m) := by
      rw [hc₁]
      rfl
    rw [uservec_eq, run_cons rfl, run_cons hli, run_append, hsaves, Option.bind_some, ← hm₁, hrun]
  · intro r
    by_cases hr : r = .a0
    · rw [hr, update_self, hc₁]
      simp
    · have hlt := slot_lt r
      have hlt' := slot_lt .a0
      rw [update_of_ne (word_ne_offset (slot_injective.ne hr) (by unfold pgsize; omega)
        (by unfold pgsize; omega)), hm₁]
      refine (stored_of_mem frameRegs_nodup.2 ?_ (mem_frameRegs.mp hr)).trans (by simp [hc₁, hr])
      intro x hx
      have := (frameRegs_lt x hx).1
      unfold pgsize at this
      omega
  · intro a ha
    rw [update_of_ne (ha .a0), hkept a ha]
  · rw [hcsr, kernelSatpSlot, hkernel 0 (by decide), hc₁]
    rfl

/-- What `userret` does with the hart. -/
theorem run_userret (ha0 : c.reg .a0 = L.satp p) (hmode : c.mode = .supervisor) :
    ∃ c', run L.mmu userret c m = some (c', m) ∧
      (∀ r, c'.reg r = m (L.word p (slot r))) ∧
      c'.csr = update c.csr .satp (L.satp p) ∧ c'.mode = .supervisor ∧
      c'.stale = false := by
  obtain ⟨c₁, hc₁⟩ : ∃ c₁ : Core, c₁ = { (c.setCsr .satp (c.reg .a0)).setReg .a0 trapframe with
    stale := false } := ⟨_, rfl⟩
  have hframe : AtFrame L p c₁ := by
    rw [hc₁]
    exact ⟨by simp, by simp [ha0], hmode, rfl⟩
  have hloads := run_loads (m := m) (hframe.mapped frameRegs_lt) (by decide)
  obtain ⟨c₂, hc₂⟩ : ∃ c₂ : Core, c₂ =
    { c₁ with reg := replay c₁.reg (loaded (L.frame p) m frameRegs) } := ⟨_, rfl⟩
  rw [← hc₂] at hloads
  have hframe' : AtFrame L p c₂ := by
    rw [hc₂]
    exact ⟨(loaded_of_not_mem (by decide)).trans hframe.base, hframe.satp, hframe.mode,
      hframe.fresh⟩
  have hlast := hframe'.run_ld (m := m) (o := 112) .a0 (by decide) (by decide) []
  refine ⟨c₂.setReg .a0 (m (L.word p 112)), ?_, ?_, ?_, hframe'.mode, hframe'.fresh⟩
  · rw [userret_eq, run_cons rfl, run_cons rfl, run_cons rfl]
    refine (run_cons (?_ : _ = some (c₁, m)) _).trans ?_
    · rw [hc₁]
      rfl
    · rw [run_append, hloads, Option.bind_some, hlast, run]
  · intro r
    by_cases hr : r = .a0
    · rw [hr, setReg_reg, update_self]
      rfl
    · rw [setReg_reg, update_of_ne hr, hc₂]
      exact loaded_of_mem frameRegs_nodup.1 (mem_frameRegs.mp hr)
  · rw [setReg_csr, hc₂, hc₁, ← ha0]
    rfl

end CS352.Traps
