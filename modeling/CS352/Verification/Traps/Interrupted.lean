import CS352.Library.Transition
import CS352.Model.Interrupted

/-! # Interrupted code of the kernel

The code finds all its registers as they were, apart from `tp`, which names the hart on which it
goes on. -/

namespace CS352.Traps

open Riscv RedoLog Function

variable {mmu : Mmu} {T : Timer} {s t : Hart} {c : Core} {m : Mem}

/-! ## The timer -/

/-- The registers that `timervec` uses. -/
def timerRegs : List (Reg × ℕ) := [(.a1, 0), (.a2, 8), (.a3, 16)]

/-- The part of `timervec` between saving and restoring. -/
def timerTick : List Instr :=
  [.ld .a1 24 .a0, .ld .a2 32 .a0, .ld .a3 0 .a1, .add .a3 .a3 .a2, .sd .a3 0 .a1, .li .a1 2,
    .csrw .sip .a1]

theorem timervec_eq : timervec = .csrrw .a0 .mscratch .a0 :: (saves .a0 timerRegs ++ (timerTick ++
    (loads .a0 timerRegs.reverse ++ [.csrrw .a0 .mscratch .a0]))) := rfl

/-- Machine mode, with `a0` at the scratch area of the hart. -/
structure AtScratch (T : Timer) (c : Core) : Prop where
  base : c.reg .a0 = T.scratch
  mode : c.mode = .machine
  fresh : c.stale = false

theorem translate_machine (hfresh : c.stale = false) (hmode : c.mode = .machine) {va : Word}
    (hva : va.toNat % 8 = 0) : c.translate mmu va = some va := by
  rw [Core.translate, hfresh, hmode, if_neg (by simpa using hva), if_pos rfl]

theorem AtScratch.translate (h : AtScratch T c) {o : ℕ} (ho : o % 8 = 0) :
    c.translate mmu (c.reg .a0 + .ofNat 64 o) = some (T.scratch + .ofNat 64 o) := by
  rw [h.base]
  refine translate_machine h.fresh h.mode ?_
  have := T.scratch_aligned
  rw [BitVec.toNat_add, BitVec.toNat_ofNat]
  omega

theorem AtScratch.mapped (h : AtScratch T c) (mmu : Mmu) {l : List (Reg × ℕ)}
    (hl : ∀ x ∈ l, x.2 % 8 = 0) : Mapped mmu c .a0 T.scratch l := fun x hx => h.translate (hl x hx)

theorem AtScratch.run_timerTick (h : AtScratch T c) (mmu : Mmu)
    (htarget : m (T.scratch + .ofNat 64 24) = T.mtimecmp)
    (hinterval : m (T.scratch + .ofNat 64 32) = T.interval) :
    ∃ reg, run mmu timerTick c m = some ({ c.setCsr .sip 2 with reg := reg },
        update m T.mtimecmp (m T.mtimecmp + T.interval)) ∧
      ∀ r, r ∉ timerRegs.map Prod.fst → reg r = c.reg r := by
  obtain ⟨c₁, hc₁⟩ : ∃ c₁, c₁ = c.setReg .a1 T.mtimecmp := ⟨_, rfl⟩
  have hld₁ : exec mmu c m (.ld .a1 24 .a0) = some (c₁, m) := by
    rw [exec_ld (h.translate rfl), htarget, hc₁]
  have h₁ : AtScratch T c₁ := by
    subst hc₁
    exact ⟨h.base, h.mode, h.fresh⟩
  obtain ⟨c₂, hc₂⟩ : ∃ c₂, c₂ = c₁.setReg .a2 T.interval := ⟨_, rfl⟩
  have hld₂ : exec mmu c₁ m (.ld .a2 32 .a0) = some (c₂, m) := by
    rw [exec_ld (h₁.translate rfl), hinterval, hc₂]
  have htranslate (c' : Core) (hc : c'.reg .a1 = T.mtimecmp) (hm : c'.mode = .machine)
      (hf : c'.stale = false) : c'.translate mmu (c'.reg .a1 + .ofNat 64 0) = some T.mtimecmp := by
    rw [hc, BitVec.add_zero]
    exact translate_machine hf hm T.mtimecmp_aligned
  obtain ⟨c₃, hc₃⟩ : ∃ c₃, c₃ = c₂.setReg .a3 (m T.mtimecmp) := ⟨_, rfl⟩
  have hld₃ : exec mmu c₂ m (.ld .a3 0 .a1) = some (c₃, m) := by
    rw [hc₃]
    exact exec_ld (htranslate c₂ (by rw [hc₂, hc₁]; rfl) (by rw [hc₂]; exact h₁.mode)
      (by rw [hc₂]; exact h₁.fresh)) .a3
  obtain ⟨c₄, hc₄⟩ : ∃ c₄, c₄ = c₃.setReg .a3 (c₃.reg .a3 + c₃.reg .a2) := ⟨_, rfl⟩
  have hsd : exec mmu c₄ m (.sd .a3 0 .a1) =
      some (c₄, update m T.mtimecmp (m T.mtimecmp + T.interval)) := by
    have hval : c₄.reg .a3 = m T.mtimecmp + T.interval := by rw [hc₄, hc₃, hc₂]; rfl
    rw [← hval]
    exact exec_sd (htranslate c₄ (by rw [hc₄, hc₃, hc₂, hc₁]; rfl)
      (by rw [hc₄, hc₃, hc₂]; exact h₁.mode) (by rw [hc₄, hc₃, hc₂]; exact h₁.fresh)) .a3
  refine ⟨(c₄.setReg .a1 2).reg, ?_, ?_⟩
  · rw [timerTick, run_cons hld₁, run_cons hld₂, run_cons hld₃, run_cons rfl, ← hc₄,
      run_cons hsd, run_cons rfl, run_cons rfl]
    subst hc₄ hc₃ hc₂ hc₁
    rfl
  · intro r hr
    have hne : r ≠ .a1 ∧ r ≠ .a2 ∧ r ≠ .a3 := by simpa [timerRegs] using hr
    simp [hc₄, hc₃, hc₂, hc₁, hne]

theorem timerRegs_nodup : (timerRegs.map Prod.snd).Nodup ∧
    (timerRegs.reverse.map Prod.fst).Nodup := by
  decide

theorem timerRegs_offset : ∀ x ∈ timerRegs, x.2 < 24 ∧ x.2 % 8 = 0 := by decide

/-- Saving registers leaves the rest of the scratch area. -/
theorem stored_timerRegs (T : Timer) (m : Mem) (reg : Reg → Word) {o : ℕ} (ho : 24 ≤ o)
    (hlt : o < 40) : replay m (stored T.scratch reg timerRegs) (T.scratch + .ofNat 64 o) =
      m (T.scratch + .ofNat 64 o) := by
  refine stored_of_not_mem fun x hx heq => ?_
  have hx24 := (timerRegs_offset x hx).1
  have := add_ofNat_inj (by omega) (by omega) heq
  omega

theorem stored_mtimecmp (T : Timer) (m : Mem) (reg : Reg → Word) :
    replay m (stored T.scratch reg timerRegs) T.mtimecmp = m T.mtimecmp :=
  stored_of_not_mem fun x hx =>
    T.apart x.2 (Nat.lt_trans (timerRegs_offset x hx).1 (by decide))

theorem run_timervec (mmu : Mmu) (h : Ticking T c m) (hmode : c.mode = .machine) :
    ∃ m', run mmu timervec c m = some (c.setCsr .sip 2, m') ∧ Ticking T (c.setCsr .sip 2) m' ∧
      m' T.mtimecmp = m T.mtimecmp + T.interval := by
  obtain ⟨c₁, hc₁⟩ : ∃ c₁, c₁ = (c.setCsr .mscratch (c.reg .a0)).setReg .a0 (c.csr .mscratch) :=
    ⟨_, rfl⟩
  have hswap : exec mmu c m (.csrrw .a0 .mscratch .a0) = some (c₁, m) := by
    rw [hc₁]
    rfl
  have hat : AtScratch T c₁ := by
    subst hc₁
    exact ⟨by simp [h.mscratch], hmode, by simp [h.fresh]⟩
  have haligned : ∀ x ∈ timerRegs, x.2 % 8 = 0 := fun x hx => (timerRegs_offset x hx).2
  have hsaves := run_saves (m := m) (hat.mapped mmu haligned)
  obtain ⟨m₁, hm₁⟩ : ∃ m₁, m₁ = replay m (stored T.scratch c₁.reg timerRegs) := ⟨_, rfl⟩
  have hwords : ∀ o, 24 ≤ o → o < 40 → m₁ (T.scratch + .ofNat 64 o) =
      m (T.scratch + .ofNat 64 o) := by
    intro o ho hlt
    rw [hm₁]
    exact stored_timerRegs T m c₁.reg ho hlt
  rw [← hm₁] at hsaves
  obtain ⟨reg, htick, hreg⟩ := hat.run_timerTick mmu
    ((hwords 24 (by decide) (by decide)).trans h.target)
    ((hwords 32 (by decide) (by decide)).trans h.interval)
  obtain ⟨c₂, hc₂⟩ : ∃ c₂ : Core, c₂ = { c₁.setCsr .sip 2 with reg := reg } := ⟨_, rfl⟩
  obtain ⟨m₂, hm₂⟩ : ∃ m₂, m₂ = update m₁ T.mtimecmp (m₁ T.mtimecmp + T.interval) :=
    ⟨_, rfl⟩
  rw [← hc₂, ← hm₂] at htick
  have hat₂ : AtScratch T c₂ := by
    subst hc₂
    exact ⟨(hreg .a0 (by decide)).trans hat.base, hat.mode, by simp [hat.fresh]⟩
  have hscratch : ∀ o, o < 40 → m₂ (T.scratch + .ofNat 64 o) = m₁ (T.scratch + .ofNat 64 o) := by
    intro o ho
    rw [hm₂, update_of_ne (T.apart o ho).symm]
  have hloads := run_loads (m := m₂) (hat₂.mapped mmu fun x hx =>
    haligned x (List.mem_reverse.mp hx)) (by decide)
  -- The registers are as they were before they were used.
  have hback : replay c₂.reg (loaded T.scratch m₂ timerRegs.reverse) = c₁.reg := by
    funext r
    by_cases hr : r ∈ timerRegs.map Prod.fst
    · obtain ⟨x, hx, rfl⟩ := List.mem_map.mp hr
      have hlt : x.2 < 24 := (timerRegs_offset x hx).1
      rw [loaded_of_mem timerRegs_nodup.2 (List.mem_reverse.mpr hx), hscratch x.2 (by omega), hm₁]
      exact stored_of_mem timerRegs_nodup.1
        (fun y hy => Nat.lt_trans (timerRegs_offset y hy).1 (by decide)) hx
    · rw [loaded_of_not_mem (by simpa using hr), hc₂]
      exact hreg r hr
  rw [hback] at hloads
  have hlast : exec mmu { c₂ with reg := c₁.reg } m₂ (.csrrw .a0 .mscratch .a0) =
      some (c.setCsr .sip 2, m₂) := by
    have hreg' : update c₁.reg .a0 (c.reg .a0) = c.reg := by
      rw [hc₁, setReg_reg, setCsr_reg, update_idem, update_eq_self]
    have hcsr : update c₂.csr .mscratch T.scratch = update c.csr .sip 2 := by
      funext k
      by_cases hk : k = .mscratch
      · subst hk
        simp [h.mscratch]
      · simp [hk, hc₂, hc₁, update_apply]
    have hms : c₂.csr .mscratch = c.reg .a0 := by simp [hc₂, hc₁]
    have hstale : c₂.stale = c.stale := by simp [hc₂, hc₁]
    change some ((⟨update c₁.reg .a0 (c₂.csr .mscratch),
      update c₂.csr .mscratch (c₁.reg .a0), c₂.pc, c₂.mode,
      c₂.stale || decide (Csr.mscratch = .satp)⟩ : Core), m₂) = _
    rw [hms, hreg', hat.base, hcsr, hstale, hc₂, hc₁]
    rfl
  refine ⟨m₂, ?_, ⟨?_, ?_, ?_, ?_⟩, ?_⟩
  · rw [timervec_eq, run_cons hswap, run_append, hsaves, Option.bind_some, run_append, htick,
      Option.bind_some, run_append, hloads, Option.bind_some, run_cons hlast]
    rfl
  · simp [h.mscratch]
  · simp [h.fresh]
  · rw [hscratch 24 (by decide), hwords 24 (by decide) (by decide), h.target]
  · rw [hscratch 32 (by decide), hwords 32 (by decide) (by decide), h.interval]
  · rw [hm₂, update_self, hm₁, stored_mtimecmp]

/-! ## Traps -/

/-- The offsets of the registers in the frame of `kernelvec`. -/
def kernelRegs : List (Reg × ℕ) :=
  [(.ra, 0), (.sp, 8), (.gp, 16), (.tp, 24), (.t0, 32), (.t1, 40), (.t2, 48), (.s0, 56), (.s1, 64),
    (.a0, 72), (.a1, 80), (.a2, 88), (.a3, 96), (.a4, 104), (.a5, 112), (.a6, 120), (.a7, 128),
    (.s2, 136), (.s3, 144), (.s4, 152), (.s5, 160), (.s6, 168), (.s7, 176), (.s8, 184), (.s9, 192),
    (.s10, 200), (.s11, 208), (.t3, 216), (.t4, 224), (.t5, 232), (.t6, 240)]

/-- Those that are loaded when `sp` has been. -/
def kernelRest : List (Reg × ℕ) := kernelRegs.filter (·.1 ∉ [Reg.ra, .sp, .tp])

theorem kernelvec_eq : kernelvec = .addi .sp .sp (-256) :: saves .sp kernelRegs := rfl

theorem kernelvecReturn_eq : kernelvecReturn =
    .ld .ra 0 .sp :: .ld .sp 8 .sp :: (loads .sp kernelRest ++ [.addi .sp .sp 256]) := rfl

theorem kernelRegs_nodup : (kernelRegs.map Prod.snd).Nodup ∧ (kernelRest.map Prod.fst).Nodup := by
  decide

theorem kernelRegs_offset : ∀ x ∈ kernelRegs, x.2 < 256 ∧ x.2 % 8 = 0 := by decide

theorem mem_kernelRest {r : Reg} (hra : r ≠ .ra) (hsp : r ≠ .sp) (htp : r ≠ .tp) :
    r ∈ kernelRest.map Prod.fst := by
  cases r <;> first | contradiction | decide

theorem mem_kernelRegs_of_mem_kernelRest {x : Reg × ℕ} (hx : x ∈ kernelRest) : x ∈ kernelRegs :=
  (List.mem_filter.mp hx).1

/-- The stack pointer is at a frame of `kernelvec`. -/
structure AtStack (mmu : Mmu) (frame : Word) (c : Core) : Prop where
  aligned : (c.reg .sp).toNat % 8 = 0
  mode : c.mode = .supervisor
  fresh : c.stale = false
  mapped : ∀ o, o < 256 →
    mmu (c.csr .satp) (c.reg .sp + .ofNat 64 o) = some (frame + .ofNat 64 o)

variable {frame : Word}

theorem AtStack.translate (h : AtStack mmu frame c) {o : ℕ} (ho : o < 256) (hmod : o % 8 = 0) :
    c.translate mmu (c.reg .sp + .ofNat 64 o) = some (frame + .ofNat 64 o) := by
  have haligned : (c.reg .sp + .ofNat 64 o).toNat % 8 = 0 := by
    have := h.aligned
    rw [BitVec.toNat_add, BitVec.toNat_ofNat]
    omega
  rw [Core.translate, h.fresh, h.mode, if_neg (by simpa using haligned), if_neg (by simp)]
  exact h.mapped o ho

theorem AtStack.mapped_of_subset (h : AtStack mmu frame c) {l : List (Reg × ℕ)}
    (hl : ∀ x ∈ l, x ∈ kernelRegs) : Mapped mmu c .sp frame l := fun x hx =>
  h.translate (kernelRegs_offset x (hl x hx)).1 (kernelRegs_offset x (hl x hx)).2

theorem run_kernelvec (h : AtStack mmu frame (c.setReg .sp (c.reg .sp - 256))) :
    run mmu kernelvec c m = some (c.setReg .sp (c.reg .sp - 256),
      replay m (stored frame (c.setReg .sp (c.reg .sp - 256)).reg kernelRegs)) := by
  have hpush : exec mmu c m (.addi .sp .sp (-256)) =
      some (c.setReg .sp (c.reg .sp - 256), m) := by
    rw [Riscv.exec, BitVec.sub_eq_add_neg]
    rfl
  rw [kernelvec_eq, run_cons hpush]
  exact run_saves (h.mapped_of_subset fun _ hx => hx)

/-- `tp` is not loaded. -/
theorem run_kernelvecReturn (h : AtStack mmu frame c) {reg : Reg → Word}
    (hsaved : ∀ x ∈ kernelRegs, m (frame + .ofNat 64 x.2) = reg x.1)
    (hsp : reg .sp = c.reg .sp) :
    ∃ reg', run mmu kernelvecReturn c m = some ({ c with reg := reg' }, m) ∧
      reg' .sp = reg .sp + 256 ∧ ∀ r, r ≠ .tp → r ≠ .sp → reg' r = reg r := by
  obtain ⟨c₁, hc₁⟩ : ∃ c₁, c₁ = c.setReg .ra (reg .ra) := ⟨_, rfl⟩
  have hra : exec mmu c m (.ld .ra 0 .sp) = some (c₁, m) := by
    rw [exec_ld (h.translate (by decide) rfl), hsaved (.ra, 0) (by decide), hc₁]
  have h₁ : AtStack mmu frame c₁ := by
    subst hc₁
    exact ⟨h.aligned, h.mode, h.fresh, h.mapped⟩
  obtain ⟨c₂, hc₂⟩ : ∃ c₂, c₂ = c₁.setReg .sp (reg .sp) := ⟨_, rfl⟩
  have hld : exec mmu c₁ m (.ld .sp 8 .sp) = some (c₂, m) := by
    rw [exec_ld (h₁.translate (by decide) rfl), hsaved (.sp, 8) (by decide), hc₂]
  have hreg₂ : c₂.reg .sp = c.reg .sp := by rw [hc₂, setReg_reg, update_self, hsp]
  have h₂ : AtStack mmu frame c₂ := by
    refine ⟨by rw [hreg₂]; exact h.aligned, by rw [hc₂]; exact h₁.mode,
      by rw [hc₂]; exact h₁.fresh, fun o ho => ?_⟩
    rw [hreg₂, ← h.mapped o ho, hc₂, hc₁]
    rfl
  have hloads := run_loads (m := m)
    (h₂.mapped_of_subset fun x hx => mem_kernelRegs_of_mem_kernelRest hx) (by decide)
  obtain ⟨reg₃, hreg₃⟩ : ∃ reg₃, reg₃ = replay c₂.reg (loaded frame m kernelRest) := ⟨_, rfl⟩
  rw [← hreg₃] at hloads
  have hkept : ∀ r, r ∉ kernelRest.map Prod.fst → reg₃ r = c₂.reg r := by
    intro r hr
    rw [hreg₃]
    exact loaded_of_not_mem hr
  refine ⟨update reg₃ .sp (reg₃ .sp + 256), ?_, ?_, ?_⟩
  · rw [kernelvecReturn_eq, run_cons hra, run_cons hld, run_append, hloads, Option.bind_some,
      run_cons rfl, run, hc₂, hc₁]
    rfl
  · rw [update_self, hkept .sp (by decide), hreg₂, hsp]
  · intro r htp hne
    rw [update_of_ne hne]
    by_cases hr : r = .ra
    · subst hr
      rw [hkept .ra (by decide), hc₂, hc₁]
      rfl
    · obtain ⟨x, hx, rfl⟩ := List.mem_map.mp (mem_kernelRest hr hne htp)
      rw [hreg₃, loaded_of_mem kernelRegs_nodup.2 hx]
      exact hsaved x (mem_kernelRegs_of_mem_kernelRest hx)

/-! ## Interrupted code -/

/-- What code finds when it goes on, possibly on another hart. -/
structure Restored (c c' : Core) : Prop where
  reg : ∀ r, r ≠ .tp → c'.reg r = c.reg r
  pc : c'.pc = c.pc
  mode : c'.mode = c.mode
  satp : c'.csr .satp = c.csr .satp
  sie : (c'.csr .sstatus).getLsbD sie = (c.csr .sstatus).getLsbD sie

theorem Restored.trans {c' c'' : Core} (h : Restored c c') (h' : Restored c' c'') :
    Restored c c'' where
  reg r hr := (h'.reg r hr).trans (h.reg r hr)
  pc := h'.pc.trans h.pc
  mode := h'.mode.trans h.mode
  satp := h'.satp.trans h.satp
  sie := h'.sie.trans h.sie

theorem interrupt_timer (mmu : Mmu) (h : Ticking T s.core s.mem) :
    ∃ t, interrupt mmu s .timer = some t ∧ Restored s.core t.core ∧ Ticking T t.core t.mem ∧
      t.mem T.mtimecmp = s.mem T.mtimecmp + T.interval := by
  obtain ⟨m', hrun, htick, hcmp⟩ := run_timervec mmu (T := T)
    (c := { s.core with mode := .machine }) (m := s.mem) ⟨h.mscratch, h.fresh, h.target, h.interval⟩
    rfl
  refine ⟨⟨{ s.core.setCsr .sip 2 with mode := s.core.mode }, m'⟩, ?_, ?_, ?_, hcmp⟩
  · rw [interrupt, hrun]
    rfl
  · exact ⟨fun _ _ => rfl, rfl, rfl, rfl, rfl⟩
  · exact ⟨htick.mscratch, htick.fresh, htick.target, htick.interval⟩

/-- A trap keeps the bit for interrupts in `SPIE`, and `sret` takes it from there. -/
theorem sret_sie (c' : Core) {cause : Word}
    (h : c'.csr .sstatus = (c.trap cause).csr .sstatus) :
    (c'.sret.csr .sstatus).getLsbD sie = (c.csr .sstatus).getLsbD sie := by
  have hsret : (c'.sret.csr .sstatus).getLsbD sie = (c'.csr .sstatus).getLsbD spie := by
    change (setBit (setBit (setBit (c'.csr .sstatus) sie _) spie true) spp false).getLsbD sie = _
    rw [getLsbD_setBit _ (by decide), if_neg (by decide), getLsbD_setBit _ (by decide),
      if_neg (by decide), getLsbD_setBit _ (by decide), if_pos rfl]
  rw [hsret, h]
  change (setBit (setBit (setBit (c.csr .sstatus) spie _) sie false) spp _).getLsbD spie = _
  rw [getLsbD_setBit _ (by decide), if_neg (by decide), getLsbD_setBit _ (by decide),
    if_neg (by decide), getLsbD_setBit _ (by decide), if_pos rfl]

theorem sret_mode (c' : Core) {cause : Word} (hmode : c.mode = .supervisor)
    (h : c'.csr .sstatus = (c.trap cause).csr .sstatus) : c'.sret.mode = .supervisor := by
  have hspp : (c'.csr .sstatus).getLsbD spp = true := by
    rw [h, trap_spp, hmode]
    rfl
  rw [Core.sret]
  exact if_pos hspp

theorem interrupt_trap {cause : Word} {core : Core} {mem : Mem}
    (h : InterruptPermitted mmu s (.trap cause core mem)) (hmode : s.core.mode = .supervisor) :
    ∃ t, interrupt mmu s (.trap cause core mem) = some t ∧ Restored s.core t.core := by
  obtain ⟨haligned, hfresh, frame, hmapped, hhandled⟩ := h
  obtain ⟨c₁, hc₁⟩ : ∃ c₁, c₁ = (s.core.trap cause).setReg .sp (s.core.reg .sp - 256) := ⟨_, rfl⟩
  have hsp : c₁.reg .sp = s.core.reg .sp - 256 := by rw [hc₁, setReg_reg, update_self]
  have hat : AtStack mmu frame c₁ := by
    refine ⟨?_, by rw [hc₁]; rfl, ?_, ?_⟩
    · have h256 : (256 : Word).toNat = 256 := rfl
      rw [hsp, BitVec.toNat_sub, h256]
      omega
    · rw [hc₁]
      simp [Core.trap, hfresh]
    · intro o ho
      rw [hsp, ← hmapped o ho, hc₁]
      rfl
  have hrun : run mmu kernelvec (s.core.trap cause) s.mem =
      some (c₁, replay s.mem (stored frame c₁.reg kernelRegs)) := by
    rw [hc₁]
    exact run_kernelvec (hc₁ ▸ hat)
  have hleft := hhandled _ _ hrun
  have hback : AtStack mmu frame core :=
    ⟨by rw [hleft.sp]; exact hat.aligned, hleft.mode.trans hat.mode, hleft.fresh,
      by rw [hleft.sp, hleft.satp]; exact hat.mapped⟩
  have hsaved : ∀ x ∈ kernelRegs, mem (frame + .ofNat 64 x.2) = c₁.reg x.1 := by
    intro x hx
    rw [hleft.stack x.2 (kernelRegs_offset x hx).1]
    exact stored_of_mem kernelRegs_nodup.1
      (fun y hy => Nat.lt_trans (kernelRegs_offset y hy).1 (by decide)) hx
  obtain ⟨reg, hreturn, hregsp, hreg⟩ := run_kernelvecReturn hback hsaved hleft.sp.symm
  have hstatus : core.csr .sstatus = (s.core.trap cause).csr .sstatus := by
    rw [hleft.sstatus, hc₁]
    rfl
  refine ⟨⟨Core.sret { core with reg := reg }, mem⟩, ?_, ?_, ?_, ?_, ?_, ?_⟩
  · rw [interrupt, hrun, Option.bind_some, hreturn]
    rfl
  · intro r htp
    by_cases hr : r = .sp
    · subst hr
      exact hregsp.trans (by rw [hsp, BitVec.sub_add_cancel])
    · refine (hreg r htp hr).trans ?_
      rw [hc₁, setReg_reg, update_of_ne hr]
      rfl
  · have hepc : core.csr .sepc = s.core.pc := by
      rw [hleft.sepc, hc₁]
      rfl
    exact hepc
  · exact (sret_mode { core with reg := reg } hmode hstatus).trans hmode.symm
  · have hsatp : core.csr .satp = s.core.csr .satp := by
      rw [hleft.satp, hc₁]
      rfl
    exact hsatp
  · exact sret_sie { core with reg := reg } hstatus

theorem exec_interrupted {is : List Interrupt} (hmode : s.core.mode = .supervisor)
    (halong : Transition.Along (interrupt mmu) (InterruptPermitted mmu) s is) :
    ∃ t, Transition.exec (interrupt mmu) s is = some t ∧ Restored s.core t.core := by
  induction is generalizing s with
  | nil => exact ⟨s, rfl, fun _ _ => rfl, rfl, rfl, rfl, rfl⟩
  | cons i is ih =>
    have hone : ∃ u, interrupt mmu s i = some u ∧ Restored s.core u.core := by
      cases i with
      | timer =>
        obtain ⟨T, hT⟩ := halong.1
        obtain ⟨u, hu, hrestored, -⟩ := interrupt_timer mmu hT
        exact ⟨u, hu, hrestored⟩
      | trap cause core mem => exact interrupt_trap halong.1 hmode
    obtain ⟨u, hu, hrestored⟩ := hone
    obtain ⟨t, ht, hrest⟩ := ih (hrestored.mode.trans hmode) (halong.2 u hu)
    refine ⟨t, ?_, hrestored.trans hrest⟩
    rw [Transition.exec, hu]
    exact ht

/-- Virtual addresses are physical ones. -/
def flat : Mmu := fun _ va => some va

/-- Code with a timer. -/
def busyHart : Hart where
  core :=
    { reg := fun r => if r = .sp then 65536 else if r = .a0 then 42 else 7
      csr := fun k => if k = .mscratch then 4096 else 0
      pc := 1000
      mode := .supervisor
      stale := false }
  mem := fun a =>
    if a = 4096 + .ofNat 64 24 then 8192 else if a = 4096 + .ofNat 64 32 then 1000 else 0

/-- A `kerneltrap` that leaves nothing in the registers. -/
def busyHandled : Core × Mem :=
  ((run flat kernelvec (busyHart.core.trap 9) busyHart.mem).map fun r =>
    ({ r.1 with reg := fun x => if x = .sp then r.1.reg .sp else 99 }, r.2)).getD
    (busyHart.core, busyHart.mem)

theorem exec_interrupted_busyHart : ∃ t, Transition.exec (interrupt flat) busyHart
      [.trap 9 busyHandled.1 busyHandled.2, .timer] = some t ∧
    t.core.reg .a0 = 42 ∧ t.core.pc = 1000 := by
  have hafter : (interrupt flat busyHart (.trap 9 busyHandled.1 busyHandled.2)).map (fun t =>
      (t.core.csr .mscratch, t.core.stale, t.mem (4096 + .ofNat 64 24),
        t.mem (4096 + .ofNat 64 32))) = some (4096, false, 8192, 1000) := by decide +kernel
  have hstale : (run flat kernelvec (busyHart.core.trap 9) busyHart.mem).map (fun r => r.1.stale) =
      some false := by decide +kernel
  have htrap : InterruptPermitted flat busyHart (.trap 9 busyHandled.1 busyHandled.2) := by
    refine ⟨by decide, rfl, 65536 - 256, fun _ _ => rfl, fun c m hrun => ?_⟩
    rw [hrun] at hstale
    rw [busyHandled, hrun]
    exact ⟨rfl, rfl, rfl, rfl, rfl, Option.some.inj hstale, fun _ _ => rfl⟩
  have halong : Transition.Along (interrupt flat) (InterruptPermitted flat) busyHart
      [.trap 9 busyHandled.1 busyHandled.2, .timer] := by
    refine ⟨htrap, fun u hu => ⟨?_, fun _ _ => trivial⟩⟩
    rw [hu, Option.map_some, Option.some.injEq] at hafter
    simp only [Prod.mk.injEq] at hafter
    exact ⟨⟨4096, 8192, 1000, by decide, by decide, by decide⟩, hafter.1, hafter.2.1,
      hafter.2.2.1, hafter.2.2.2⟩
  obtain ⟨t, ht, hrestored⟩ := exec_interrupted rfl halong
  exact ⟨t, ht, hrestored.reg .a0 (by decide), hrestored.pc⟩

end CS352.Traps
