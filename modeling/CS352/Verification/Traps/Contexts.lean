import CS352.Library.Residence
import CS352.Library.Simulation
import CS352.Verification.Traps.Trampoline

/-! # The contexts of user programs

A user program finds its registers and its program counter as it left them, whatever happens
between a trap and the return from it, and on whichever hart it goes on. -/

namespace CS352.Traps

open Riscv Residence Transition Simulation Function

variable {H P : Type*} {L : Layout H P} {s t : State H P} {h : H} {p q : P}
  {m m' : Mem} {o : ℕ}

/-! ## Harts in the kernel and in user programs -/

/-- The kernel runs on its own page table, takes traps at `kernelvec` and knows its hart. -/
structure InKernel (L : Layout H P) (h : H) (c : Core) : Prop where
  mode : c.mode = .supervisor
  tp : c.reg .tp = L.hartid h
  satp : c.csr .satp = L.kernelSatp
  stvec : c.csr .stvec = L.kernelvec
  fresh : c.stale = false

/-- A user program runs on the page table of its process and traps to `uservec`, which finds the
kernel of this hart in the trapframe. -/
structure InUser (L : Layout H P) (m : Mem) (h : H) (p : P) (c : Core) : Prop where
  mode : c.mode = .user
  satp : c.csr .satp = L.satp p
  stvec : c.csr .stvec = L.uservec
  fresh : c.stale = false
  kernelSatp : m (L.word p kernelSatpSlot) = L.kernelSatp
  kernelSp : m (L.word p kernelSpSlot) = L.kstack p + .ofNat 64 pgsize
  kernelTrap : m (L.word p kernelTrapSlot) = L.usertrap
  kernelHartid : m (L.word p kernelHartidSlot) = L.hartid h

def HartOk (L : Layout H P) (m : Mem) (h : H) (c : Core) : Place P → Prop
  | .user p => InUser L m h p c
  | _ => InKernel L h c

structure Inv (L : Layout H P) (s : State H P) : Prop where
  harts : ∀ h, HartOk L s.mem h (s.core h) (s.place h)
  cpu : ∀ h, s.cpu (L.hartid h) = (s.place h).proc
  one : ∀ h h' p, (s.place h).proc = some p → (s.place h').proc = some p → h = h'
  calm : s.panicked = false

/-! ## Trapframes -/

/-- Nothing but the trapframe of `p` differs. -/
def OnlyFrame (L : Layout H P) (p : P) (m m' : Mem) : Prop :=
  ∀ a, (∀ o < pgsize, a ≠ L.word p o) → m' a = m a

theorem put_apply (m : Mem) (p : P) (v : Word) (ho : o < pgsize) {o' : ℕ} (ho' : o' < pgsize) :
    L.put m p o v (L.word p o') = if o' = o then v else m (L.word p o') := by
  unfold Layout.put
  split_ifs with heq
  · rw [heq, update_self]
  · exact update_of_ne (word_ne_offset heq ho' ho) _ _

theorem put_onlyFrame (m : Mem) (p : P) (v : Word) (ho : o < pgsize) :
    OnlyFrame L p m (L.put m p o v) :=
  fun _ ha => update_of_ne (ha o ho) _ _

theorem OnlyFrame.trans {m'' : Mem} (h : OnlyFrame L p m m') (h' : OnlyFrame L p m' m'') :
    OnlyFrame L p m m'' := fun a ha => (h' a ha).trans (h a ha)

theorem OnlyFrame.word (h : OnlyFrame L p m m') (hne : q ≠ p) (ho : o < pgsize) :
    m' (L.word q o) = m (L.word q o) := h _ fun _ ho' => word_ne hne ho ho'

theorem slot_lt_pgsize (r : Reg) : slot r < pgsize := by
  have := slot_lt r
  unfold pgsize
  omega

theorem slot_ne_epcSlot (r : Reg) : slot r ≠ epcSlot := by
  have := slot_lt r
  unfold epcSlot
  omega

theorem saveEpc_onlyFrame (m : Mem) (p : P) (c : Core) : OnlyFrame L p m (L.saveEpc m p c) := by
  have hput := put_onlyFrame (L := L) m p (c.csr .sepc) (by decide : epcSlot < pgsize)
  unfold Layout.saveEpc
  dsimp only
  split_ifs
  · exact hput.trans (put_onlyFrame _ p _ (by decide))
  · exact hput

theorem saveEpc_apply (m : Mem) (p : P) (c : Core) (ho : o < pgsize) :
    L.saveEpc m p c (L.word p o) = if o = epcSlot then
      c.csr .sepc + (if c.csr .scause = 8 then 4 else 0) else m (L.word p o) := by
  have hepc : epcSlot < pgsize := by decide
  unfold Layout.saveEpc
  split_ifs with hcause heq heq
  · rw [put_apply _ p _ hepc ho, if_pos heq, put_apply _ p _ hepc hepc, if_pos rfl]
  · rw [put_apply _ p _ hepc ho, if_neg heq, put_apply _ p _ hepc ho, if_neg heq]
  · rw [put_apply _ p _ hepc ho, if_pos heq]
    exact (BitVec.add_zero _).symm
  · rw [put_apply _ p _ hepc ho, if_neg heq]

/-- What `usertrapret` leaves in the trapframe. -/
theorem usertrapret_apply (p : P) (c : Core) (m : Mem) (ho : o < pgsize) :
    (usertrapret L p c m).2 (L.word p o) =
      if o = kernelHartidSlot then c.reg .tp
      else if o = kernelTrapSlot then L.usertrap
      else if o = kernelSpSlot then L.kstack p + .ofNat 64 pgsize
      else if o = kernelSatpSlot then c.csr .satp
      else m (L.word p o) := by
  simp only [usertrapret]
  rw [put_apply _ p _ (by decide) ho, put_apply _ p _ (by decide) ho,
    put_apply _ p _ (by decide) ho, put_apply _ p _ (by decide) ho]
  rfl

theorem usertrapret_onlyFrame (p : P) (c : Core) (m : Mem) :
    OnlyFrame L p m (usertrapret L p c m).2 :=
  (((put_onlyFrame _ p _ (by decide)).trans (put_onlyFrame _ p _ (by decide))).trans
    (put_onlyFrame _ p _ (by decide))).trans (put_onlyFrame _ p _ (by decide))

/-- The loop of the copy in `fork`. -/
theorem copy_apply (hne : p ≠ q) {l : List ℕ} (hl : ∀ o ∈ l, o < pgsize) (m : Mem) :
    OnlyFrame L q m (l.foldl (fun m o => L.put m q o (m (L.word p o))) m) ∧
      ∀ o < pgsize, l.foldl (fun m o => L.put m q o (m (L.word p o))) m (L.word q o) =
        if o ∈ l then m (L.word p o) else m (L.word q o) := by
  induction l generalizing m with
  | nil => exact ⟨fun _ _ => rfl, fun o _ => rfl⟩
  | cons o l ih =>
    have ho := hl o (List.mem_cons_self ..)
    have hput := put_onlyFrame (L := L) m q (m (L.word p o)) ho
    obtain ⟨honly, happly⟩ := ih (fun o' ho' => hl o' (List.mem_cons_of_mem _ ho'))
      (L.put m q o (m (L.word p o)))
    refine ⟨hput.trans honly, fun o' ho' => (happly o' ho').trans ?_⟩
    rw [hput.word hne ho', put_apply m q _ ho ho']
    by_cases heq : o' = o <;> simp [heq]

/-- `fork` writes to the trapframe of the child, which gets the registers of its parent. -/
theorem copyFrame_apply (hne : p ≠ q) (m : Mem) : OnlyFrame L q m (L.copyFrame m p q) ∧
    (∀ r, L.copyFrame m p q (L.word q (slot r)) =
      if r = .a0 then 0 else m (L.word p (slot r))) ∧
    L.copyFrame m p q (L.word q epcSlot) = m (L.word p epcSlot) := by
  have hlt := slot_lt_pgsize .a0
  obtain ⟨honly, happly⟩ := copy_apply (L := L) hne (l := (List.range 36).map (8 * ·)) (by decide) m
  refine ⟨honly.trans (put_onlyFrame _ q _ hlt), fun r => ?_, ?_⟩
  · rw [Layout.copyFrame, put_apply _ q _ hlt (slot_lt_pgsize r), happly _ (slot_lt_pgsize r)]
    have hmem : slot r ∈ (List.range 36).map (8 * ·) := by cases r <;> decide
    rw [if_pos hmem]
    exact if_congr slot_injective.eq_iff rfl rfl
  · rw [Layout.copyFrame, put_apply _ q _ hlt (by decide), if_neg (by decide), happly _ (by decide),
      if_pos (by decide)]

/-! ## What the invariant says -/

theorem Inv.kernel (hinv : Inv L s) (hplace : ∀ p, s.place h ≠ .user p) :
    InKernel L h (s.core h) := by
  have hok := hinv.harts h
  cases hp : s.place h with
  | user p => exact absurd hp (hplace p)
  | kernel p | scheduler =>
    rw [hp] at hok
    exact hok

theorem Inv.myproc (hinv : Inv L s) (hplace : s.place h = .kernel p) :
    s.myproc (s.core h) = some p := by
  rw [State.myproc, (hinv.kernel (by simp [hplace])).tp, hinv.cpu, hplace]
  rfl

theorem HartOk.congr {c : Core} {place : Place P} (hok : HartOk L m h c place)
    (hmem : ∀ p, place = .user p → ∀ o < pgsize, m' (L.word p o) = m (L.word p o)) :
    HartOk L m' h c place := by
  cases place with
  | user p =>
    have hword := hmem p rfl
    have huser : InUser L m h p c := hok
    exact ⟨huser.mode, huser.satp, huser.stvec, huser.fresh,
      (hword _ (by decide)).trans huser.kernelSatp, (hword _ (by decide)).trans huser.kernelSp,
      (hword _ (by decide)).trans huser.kernelTrap,
      (hword _ (by decide)).trans huser.kernelHartid⟩
  | kernel | scheduler => exact hok

theorem Inv.not_user (hinv : Inv L s) (hproc : (s.place h).proc = some p) {h' : H} (hne : h' ≠ h) :
    s.place h' ≠ .user p := fun huser => hne (hinv.one h' h p (by rw [huser]; rfl) hproc)

theorem Inv.not_user_of_kernel (hinv : Inv L s) (hplace : s.place h = .kernel p) :
    ∀ h', s.place h' ≠ .user p := by
  intro h' huser
  by_cases hh : h' = h
  · rw [hh, hplace] at huser
    cases huser
  · exact hinv.not_user (by rw [hplace]; rfl) hh huser

theorem Inv.setMem (hinv : Inv L s)
    (hmem : ∀ h p, s.place h = .user p → ∀ o < pgsize, m (L.word p o) = s.mem (L.word p o)) :
    Inv L { s with mem := m } :=
  ⟨fun h => (hinv.harts h).congr (hmem h), hinv.cpu, hinv.one, hinv.calm⟩

/-- The kernel writes to the trapframe of the process of a hart. -/
theorem Inv.setFrame (hinv : Inv L s) (hplace : ∀ h, s.place h ≠ .user p)
    (honly : OnlyFrame L p s.mem m) : Inv L { s with mem := m } := by
  refine hinv.setMem fun h q hq o ho => honly.word ?_ ho
  rintro rfl
  exact hplace h hq

theorem inv_boot (mem : Mem) (core : H → Core) : Inv L (boot L mem core) := by
  refine ⟨fun h => ⟨rfl, ?_, ?_, ?_, rfl⟩, fun _ => rfl, nofun, rfl⟩
  all_goals simp [boot]

/-! ## Where a context is -/

structure Context where
  reg : Reg → Word
  pc : Word

/-- The process whose user program runs. -/
def Place.program : Place P → Option P
  | .user p => some p
  | _ => none

theorem program_eq_some {place : Place P} : place.program = some p ↔ place = .user p := by
  cases place <;> simp [Place.program]

/-- The context of a program is in its hart while it runs, and in its trapframe otherwise. -/
noncomputable def context (L : Layout H P) (s : State H P) : P → Context :=
  datum (fun h => (s.place h).program) (fun h => ⟨(s.core h).reg, (s.core h).pc⟩)
    fun p => ⟨fun r => s.mem (L.word p (slot r)), s.mem (L.word p epcSlot)⟩

theorem Inv.single (hinv : Inv L s) : Single fun h => (s.place h).program := by
  intro h h' p hp hp'
  refine hinv.one h h' p ?_ ?_
  · rw [program_eq_some.mp hp]
    rfl
  · rw [program_eq_some.mp hp']
    rfl

theorem Inv.context_user (hinv : Inv L s) (hp : s.place h = .user p) :
    context L s p = ⟨(s.core h).reg, (s.core h).pc⟩ :=
  datum_live hinv.single (program_eq_some.mpr hp)

theorem context_kernel (hp : ∀ h, s.place h ≠ .user p) :
    context L s p = ⟨fun r => s.mem (L.word p (slot r)), s.mem (L.word p epcSlot)⟩ :=
  datum_stored fun h hh => hp h (program_eq_some.mp hh)

theorem context_congr (hs : Inv L s) (ht : Inv L t)
    (hplace : ∀ h, t.place h = .user p ↔ s.place h = .user p)
    (hcore : ∀ h, s.place h = .user p → t.core h = s.core h)
    (hmem : ∀ o < pgsize, t.mem (L.word p o) = s.mem (L.word p o)) :
    context L t p = context L s p := by
  refine datum_congr hs.single ht.single (fun h => ?_) (fun h hp => ?_) ?_
  · rw [program_eq_some, program_eq_some, hplace h]
  · rw [hcore h (program_eq_some.mp hp)]
  · simp only [hmem _ (slot_lt_pgsize _), hmem epcSlot (by decide)]

/-- The kernel writes to the trapframe of a process that is not in its user program. -/
theorem Inv.context_setFrame [DecidableEq P] (hs : Inv L s) (hp : ∀ h, s.place h ≠ .user p)
    (honly : OnlyFrame L p s.mem m) : context L { s with mem := m } =
      update (context L s) p ⟨fun r => m (L.word p (slot r)), m (L.word p epcSlot)⟩ := by
  have ht := hs.setFrame hp honly
  refine eq_update_iff.mpr ⟨context_kernel hp, fun q hne => ?_⟩
  exact context_congr hs ht (fun _ => Iff.rfl) (fun _ _ => rfl) fun _ ho => honly.word hne ho

variable [DecidableEq H]

/-! ## Traps and returns -/

/-- The process of the hart traps: its registers and its program counter go to its trapframe. -/
theorem Inv.trap (hinv : Inv L s) (hplace : s.place h = .user p) (cause : Word) :
    ∃ c m, trap L s h cause = some { (s.setCore h c).setPlace h (.kernel p) with mem := m } ∧
      InKernel L h c ∧ c.reg .sp = L.kstack p + .ofNat 64 pgsize ∧
      (∀ r, m (L.word p (slot r)) = (s.core h).reg r) ∧
      m (L.word p epcSlot) = (s.core h).pc + (if cause = 8 then 4 else 0) ∧
      OnlyFrame L p s.mem m := by
  have huser := hinv.harts h
  rw [hplace] at huser
  obtain ⟨c₀, hc₀⟩ : ∃ c₀, c₀ = (s.core h).trap cause := ⟨_, rfl⟩
  have hpc : c₀.pc = L.uservec := by rw [hc₀, ← huser.stvec]; rfl
  have hsatp : c₀.csr .satp = L.satp p := by rw [hc₀, ← huser.satp]; rfl
  have hfresh : c₀.stale = false := by rw [hc₀, ← huser.fresh]; simp [Core.trap]
  obtain ⟨c₁, m₁, hrun, hslots, hkept, hsp, htp, ht0, hcsr, hmode₁, hfresh₁⟩ :=
    run_uservec (m := s.mem) hsatp (by rw [hc₀]; rfl) hfresh
  have hcsr' : ∀ k, k ≠ .satp → k ≠ .sscratch → c₁.csr k = c₀.csr k := by
    intro k hk hk'
    rw [hcsr, update_of_ne hk, update_of_ne hk']
  have hspp : (c₁.csr .sstatus).getLsbD spp = false := by
    rw [hcsr' _ (by simp) (by simp), hc₀, trap_spp, huser.mode]
    rfl
  have hproc : s.cpu (c₁.reg .tp) = some p := by
    rw [htp, huser.kernelHartid, hinv.cpu, hplace]
    rfl
  obtain ⟨c₂, hc₂⟩ : ∃ c₂, c₂ = { c₁ with pc := L.usertrap }.setCsr .stvec L.kernelvec := ⟨_, rfl⟩
  have hepc : c₂.csr .sepc = (s.core h).pc := by
    have : c₂.csr .sepc = c₁.csr .sepc := by rw [hc₂]; rfl
    rw [this, hcsr' _ (by simp) (by simp), hc₀]
    rfl
  have hcause : c₂.csr .scause = cause := by
    have : c₂.csr .scause = c₁.csr .scause := by rw [hc₂]; rfl
    rw [this, hcsr' _ (by simp) (by simp), hc₀]
    rfl
  refine ⟨c₂, L.saveEpc m₁ p c₂, ?_, ?_, ?_, ?_, ?_, ?_⟩
  · rw [Traps.trap, ← hc₀, if_pos hpc, hrun, Option.bind_some, ht0, if_pos huser.kernelTrap,
      usertrap, if_neg (by simp [hspp]), State.myproc, hproc, Option.map_some, huser.kernelTrap,
      ← hc₂]
  · rw [hc₂]
    refine ⟨hmode₁, htp.trans huser.kernelHartid, ?_, by simp, by simpa using hfresh₁⟩
    simp [hcsr, huser.kernelSatp]
  · rw [hc₂, setCsr_reg]
    exact hsp.trans huser.kernelSp
  · intro r
    rw [saveEpc_apply _ p _ (slot_lt_pgsize r), if_neg (slot_ne_epcSlot r), hslots r, hc₀]
    rfl
  · rw [saveEpc_apply _ p _ (by decide), if_pos rfl, hepc, hcause]
  · refine OnlyFrame.trans (fun a ha => ?_) (saveEpc_onlyFrame m₁ p c₂)
    exact hkept a fun r => ha _ (slot_lt_pgsize r)

/-- The kernel returns to the user program of the hart: the registers and the program counter
come from the trapframe. -/
theorem Inv.ret (hinv : Inv L s) (hplace : s.place h = .kernel p) :
    ∃ c m, ret L s h = some { (s.setCore h c).setPlace h (.user p) with mem := m } ∧
      InUser L m h p c ∧ (∀ r, c.reg r = s.mem (L.word p (slot r))) ∧
      c.pc = s.mem (L.word p epcSlot) ∧ OnlyFrame L p s.mem m := by
  have hkernel := hinv.harts h
  rw [hplace] at hkernel
  have hproc : s.cpu ((s.core h).reg .tp) = some p := by
    rw [hkernel.tp, hinv.cpu, hplace]
    rfl
  obtain ⟨r, hr⟩ : ∃ r, r = usertrapret L p (s.core h) s.mem := ⟨_, rfl⟩
  have hword : ∀ o < pgsize, r.2 (L.word p o) = _ := fun o ho => hr ▸ usertrapret_apply p _ _ ho
  obtain ⟨c₁, hrun, hreg, hcsr, hmode, hfresh⟩ := run_userret (L := L) (p := p) (m := r.2)
    (c := r.1) (by rw [hr]; simp [usertrapret]) (by rw [hr, ← hkernel.mode]; rfl)
  have hcsr' : ∀ k, k ≠ .satp → c₁.csr k = r.1.csr k := by
    intro k hk
    rw [hcsr, update_of_ne hk]
  have hspp : (c₁.csr .sstatus).getLsbD spp = false := by
    obtain ⟨w, hw⟩ : ∃ w, c₁.csr .sstatus = setBit (setBit w spp false) spie true :=
      ⟨_, by rw [hcsr' _ (by simp), hr]; rfl⟩
    rw [hw, getLsbD_setBit _ (by decide), if_neg (by decide), getLsbD_setBit _ (by decide),
      if_pos rfl]
  have hstvec : c₁.csr .stvec = L.uservec := by
    rw [hcsr' _ (by simp), hr]
    rfl
  have hepc : c₁.csr .sepc = s.mem (L.word p epcSlot) := by
    rw [hcsr' _ (by simp)]
    refine Eq.trans ?_ (hword epcSlot (by decide))
    rw [hr]
    rfl
  refine ⟨c₁.sret, r.2, ?_, ?_, ?_, hepc, hr ▸ usertrapret_onlyFrame p _ _⟩
  · rw [Traps.ret, State.myproc, hproc, Option.bind_some, ← hr]
    dsimp only
    rw [hrun, Option.map_some]
  · refine ⟨by simp [Core.sret, hspp], ?_, hstvec, ?_, ?_, ?_, ?_, ?_⟩
    · exact (congrFun hcsr _).trans (update_self ..)
    · simp [Core.sret, hfresh]
    · exact (hword _ (by decide)).trans hkernel.satp
    · exact hword _ (by decide)
    · exact hword _ (by decide)
    · exact (hword _ (by decide)).trans hkernel.tp
  · intro r'
    have hlt := slot_lt r'
    refine (hreg r').trans ((hword _ (slot_lt_pgsize r')).trans ?_)
    unfold kernelHartidSlot kernelTrapSlot kernelSpSlot kernelSatpSlot
    rw [if_neg (by omega), if_neg (by omega), if_neg (by omega), if_neg (by omega)]

/-! ## What a step does -/

/-- What a step does in a state with the invariant. -/
inductive Effect (L : Layout H P) (s : State H P) : Action H P → State H P → Prop where
  | user {h : H} {p : P} (reg : Reg → Word) (pc : Word) (hp : s.place h = .user p) :
      Effect L s (.user h reg pc) (s.setCore h { s.core h with reg := reg, pc := pc })
  | write (a v : Word) : Effect L s (.write a v) { s with mem := update s.mem a v }
  | trap {h : H} {p : P} {c : Core} {m : Mem} (cause : Word) (hp : s.place h = .user p)
      (hkernel : InKernel L h c) (hreg : ∀ r, m (L.word p (slot r)) = (s.core h).reg r)
      (hpc : m (L.word p epcSlot) = (s.core h).pc + (if cause = 8 then 4 else 0))
      (honly : OnlyFrame L p s.mem m) :
      Effect L s (.trap h cause) { (s.setCore h c).setPlace h (.kernel p) with mem := m }
  | kernel {h : H} (reg : Reg → Word) (csr : Csr → Word) (hp : ∀ p, s.place h ≠ .user p) :
      Effect L s (.kernel h reg csr) (s.setCore h (become (s.core h) reg csr))
  | setReg {h : H} {p : P} (r : Reg) (v : Word) (hp : s.place h = .kernel p) :
      Effect L s (.setReg h r v) { s with mem := L.put s.mem p (slot r) v }
  | setEpc {h : H} {p : P} (v : Word) (hp : s.place h = .kernel p) :
      Effect L s (.setEpc h v) { s with mem := L.put s.mem p epcSlot v }
  | fork {h : H} {p : P} (np : P) (hp : s.place h = .kernel p) :
      Effect L s (.fork h np) { s with mem := L.copyFrame s.mem p np }
  | sched {h : H} {p : P} (hp : s.place h = .kernel p) :
      Effect L s (.sched h) { s.setPlace h .scheduler with
        cpu := fun id => if id = (s.core h).reg .tp then none else s.cpu id }
  | dispatch {h : H} (p : P) (hp : s.place h = .scheduler) :
      Effect L s (.dispatch h p) { s.setPlace h (.kernel p) with
        cpu := fun id => if id = (s.core h).reg .tp then some p else s.cpu id }
  | ret {h : H} {p : P} {c : Core} {m : Mem} (hp : s.place h = .kernel p)
      (huser : InUser L m h p c) (hreg : ∀ r, c.reg r = s.mem (L.word p (slot r)))
      (hpc : c.pc = s.mem (L.word p epcSlot))
      (honly : OnlyFrame L p s.mem m) :
      Effect L s (.ret h) { (s.setCore h c).setPlace h (.user p) with mem := m }

theorem effect_of_step {a : Action H P} (hinv : Inv L s) (hs : step L s a = some t) :
    Effect L s a t := by
  cases a with
  | write a v =>
    cases hs
    exact .write a v
  | user h reg pc =>
    cases hp : s.place h with
    | user p =>
      simp only [step, hp] at hs
      cases hs
      exact .user reg pc hp
    | _ => simp [step, hp] at hs
  | trap h cause =>
    cases hp : s.place h with
    | user p =>
      obtain ⟨c, m, htrap, hkernel, -, hreg, hpc, honly⟩ := hinv.trap hp cause
      simp only [step, hp, htrap] at hs
      cases hs
      exact .trap cause hp hkernel hreg hpc honly
    | _ => simp [step, hp] at hs
  | kernel h reg csr =>
    cases hp : s.place h with
    | user p => simp [step, hp] at hs
    | _ =>
      simp only [step, hp] at hs
      cases hs
      exact .kernel reg csr (by simp [hp])
  | setReg h _ _ | setEpc h _ | fork h _ =>
    cases hp : s.place h with
    | kernel p =>
      simp only [step, hp, hinv.myproc hp, Option.map_some] at hs
      cases hs
      constructor
      exact hp
    | _ => simp [step, hp] at hs
  | sched h =>
    cases hp : s.place h with
    | kernel p =>
      simp only [step, hp] at hs
      cases hs
      exact .sched hp
    | _ => simp [step, hp] at hs
  | dispatch h p =>
    cases hp : s.place h with
    | scheduler =>
      simp only [step, hp] at hs
      cases hs
      exact .dispatch p hp
    | _ => simp [step, hp] at hs
  | ret h =>
    cases hp : s.place h with
    | kernel p =>
      obtain ⟨c, m, hret, huser, hreg, hpc, honly⟩ := hinv.ret hp
      simp only [step, hp, hret] at hs
      cases hs
      exact .ret hp huser hreg hpc honly
    | _ => simp [step, hp] at hs

/-! ## What every step keeps -/

/-- One hart changes, and the memory, but the processes stay on their harts. -/
theorem Inv.move (hinv : Inv L s) {c : Core} {place : Place P} (hok : HartOk L m h c place)
    (hproc : place.proc = (s.place h).proc)
    (hmem : ∀ h' p, h' ≠ h → s.place h' = .user p → ∀ o < pgsize,
      m (L.word p o) = s.mem (L.word p o)) :
    Inv L { (s.setCore h c).setPlace h place with mem := m } := by
  have hprocs : ∀ h', (update s.place h place h').proc = (s.place h').proc := by
    intro h'
    by_cases hh : h' = h
    · rw [hh, update_self, hproc]
    · rw [update_of_ne hh]
  refine ⟨fun h' => ?_, fun h' => (hinv.cpu h').trans (hprocs h').symm, ?_, hinv.calm⟩
  · by_cases hh : h' = h
    · subst hh
      simpa [State.setCore, State.setPlace] using hok
    · have hok' := hinv.harts h'
      simp only [State.setCore, State.setPlace, update_of_ne hh]
      exact hok'.congr fun p hp => hmem h' p hh hp
  · intro h₁ h₂ p hp hp'
    exact hinv.one h₁ h₂ p ((hprocs h₁).symm.trans hp) ((hprocs h₂).symm.trans hp')

theorem setPlace_self (s : State H P) (h : H) : s.setPlace h (s.place h) = s := by
  simp [State.setPlace]

theorem Inv.setCore (hinv : Inv L s) {c : Core} (hok : HartOk L s.mem h c (s.place h)) :
    Inv L (s.setCore h c) := by
  have hmove := hinv.move hok rfl fun _ _ _ _ _ _ => rfl
  rwa [show (s.setCore h c).setPlace h (s.place h) = s.setCore h c from setPlace_self _ h] at hmove

/-- The hart takes another process, or none. -/
theorem Inv.switch (hinv : Inv L s) (hplace : ∀ p, s.place h ≠ .user p) (place : Place P)
    (hkernel : ∀ p, place ≠ .user p) (hfree : ∀ h' p, h' ≠ h → place.proc = some p →
      (s.place h').proc ≠ some p) :
    Inv L { s.setPlace h place with
      cpu := fun id => if id = (s.core h).reg .tp then place.proc else s.cpu id } := by
  have hcore := hinv.kernel hplace
  refine ⟨fun h' => ?_, fun h' => ?_, ?_, hinv.calm⟩
  · by_cases hh : h' = h
    · subst hh
      simp only [State.setPlace, update_self]
      cases place with
      | user p => exact absurd rfl (hkernel p)
      | kernel | scheduler => exact hcore
    · simp only [State.setPlace, update_of_ne hh]
      exact hinv.harts h'
  · by_cases hh : h' = h
    · simp [State.setPlace, hh, hcore.tp]
    · simp [State.setPlace, hh, hcore.tp, L.hartid_injective.ne hh, hinv.cpu h']
  · intro h₁ h₂ p hp hp'
    by_cases hh₁ : h₁ = h <;> by_cases hh₂ : h₂ = h
    · rw [hh₁, hh₂]
    · simp only [State.setPlace, hh₁, update_self, update_of_ne hh₂] at hp hp'
      exact absurd hp' (hfree h₂ p hh₂ hp)
    · simp only [State.setPlace, hh₂, update_self, update_of_ne hh₁] at hp hp'
      exact absurd hp (hfree h₁ p hh₁ hp')
    · simp only [State.setPlace, update_of_ne hh₁, update_of_ne hh₂] at hp hp'
      exact hinv.one h₁ h₂ p hp hp'

theorem inv_step {a : Action H P} (hinv : Inv L s) (hperm : Permitted L s a)
    (hs : step L s a = some t) : Inv L t := by
  cases effect_of_step hinv hs with
  | @user h p reg pc hp =>
    have huser := hinv.harts h
    rw [hp] at huser
    refine hinv.setCore ?_
    rw [hp]
    exact ⟨huser.mode, huser.satp, huser.stvec, huser.fresh, huser.kernelSatp, huser.kernelSp,
      huser.kernelTrap, huser.kernelHartid⟩
  | write a v => exact hinv.setMem fun _ p _ o ho => update_of_ne (hperm p o ho).symm _ _
  | trap cause hp hkernel hreg hpc honly =>
    have hproc := congrArg Place.proc hp
    exact hinv.move hkernel hproc.symm fun h' q hne hq o ho =>
      honly.word (fun heq => hinv.not_user hproc hne (heq ▸ hq)) ho
  | @kernel h reg csr hp =>
    have hkernel := hinv.kernel hp
    have hok : InKernel L h (become (s.core h) reg csr) :=
      ⟨hkernel.mode, by simp [become, hkernel.tp], by simp [become, hkernel.satp],
        by simp [become, hkernel.stvec], hkernel.fresh⟩
    refine hinv.setCore ?_
    cases hplace : s.place h with
    | user p => exact absurd hplace (hp p)
    | kernel | scheduler => exact hok
  | setReg r v hp =>
    exact hinv.setFrame (hinv.not_user_of_kernel hp) (put_onlyFrame _ _ _ (slot_lt_pgsize r))
  | setEpc v hp =>
    exact hinv.setFrame (hinv.not_user_of_kernel hp) (put_onlyFrame _ _ _ (by decide))
  | @fork h p np hp =>
    have hne : p ≠ np := by
      rintro rfl
      exact hperm h (by rw [hp]; rfl)
    refine hinv.setFrame (fun h' hnp => ?_) (copyFrame_apply hne _).1
    exact hperm h' (by rw [hnp]; rfl)
  | sched hp =>
    exact hinv.switch (by simp [hp]) .scheduler (by simp) fun _ _ _ hnone => by cases hnone
  | dispatch p hp =>
    refine hinv.switch (by simp [hp]) (.kernel p) (by simp) fun h' q _ hq => ?_
    cases hq
    exact hperm h'
  | ret hp huser hreg hpc honly =>
    have hproc := congrArg Place.proc hp
    exact hinv.move huser hproc.symm fun h' q hne hq o ho =>
      honly.word (fun heq => hinv.not_user hproc hne (heq ▸ hq)) ho

/-! ## User programs by themselves -/

/-- What happens to the contexts of user programs. -/
inductive Program.Action (P : Type*) where
  /-- The program computes. -/
  | user (p : P) (context : Context)
  /-- The program is behind a system call. -/
  | ecall (p : P)
  /-- The kernel sets a register, or the program counter. -/
  | setReg (p : P) (r : Reg) (v : Word)
  | setPc (p : P) (v : Word)
  /-- The child goes on as its parent, with 0 as the result of `fork`. -/
  | fork (p child : P)

/-- Every action is an event; that of a program that computes tells from which context to
which. -/
inductive Program.Event (P : Type*) where
  | user (p : P) (before after : Context)
  | ecall (p : P)
  | setReg (p : P) (r : Reg) (v : Word)
  | setPc (p : P) (v : Word)
  | fork (p child : P)

/-- The event that an action of a hart is for its process. Traps other than system calls, the
returns from traps and all that the kernel and the scheduler do besides are none. -/
def observe (s : State H P) : Action H P → Option (Program.Event P)
  | .user h reg pc =>
    match s.place h with
    | .user p => some (.user p ⟨(s.core h).reg, (s.core h).pc⟩ ⟨reg, pc⟩)
    | _ => none
  | .trap h cause => if cause = 8 then (s.place h).proc.map .ecall else none
  | .setReg h r v => (s.place h).proc.map (.setReg · r v)
  | .setEpc h v => (s.place h).proc.map (.setPc · v)
  | .fork h np => (s.place h).proc.map (.fork · np)
  | .write _ _ | .kernel _ _ _ | .sched _ | .dispatch _ _ | .ret _ => none

theorem setPlace_eq_user {place : Place P} (hp : ∀ p, s.place h ≠ .user p)
    (hp' : ∀ p, place ≠ .user p) (h' : H) (p : P) :
    (s.setPlace h place).place h' = .user p ↔ s.place h' = .user p := by
  by_cases hh : h' = h
  · subst hh
    simp [State.setPlace, hp, hp']
  · simp [State.setPlace, hh]

/-- The other processes do not notice when one hart goes from one place to another with the same
process. -/
theorem context_move {c : Core} {place : Place P} (hs : Inv L s)
    (ht : Inv L { (s.setCore h c).setPlace h place with mem := m })
    (hp : (s.place h).proc = some p) (hproc : place.proc = some p)
    (honly : OnlyFrame L p s.mem m) (hne : q ≠ p) :
    context L { (s.setCore h c).setPlace h place with mem := m } q = context L s q := by
  have hother : ∀ {place : Place P}, place.proc = some p → place ≠ .user q := by
    rintro place hplace rfl
    exact hne (Option.some_inj.mp hplace)
  refine context_congr hs ht (fun h' => ?_) (fun h' hq => ?_) fun _ ho => honly.word hne ho
  · by_cases hh : h' = h
    · subst hh
      simp [State.setPlace, hother hp, hother hproc]
    · simp [State.setPlace, State.setCore, hh]
  · have hh : h' ≠ h := by
      rintro rfl
      exact hother hp hq
    simp [State.setPlace, State.setCore, hh]

section

variable [DecidableEq P]

def Program.step (ctx : P → Context) : Program.Action P → Option (P → Context)
  | .user p context => some (update ctx p context)
  | .ecall p => some (update ctx p { ctx p with pc := (ctx p).pc + 4 })
  | .setReg p r v =>
    some (update ctx p { ctx p with reg := update (ctx p).reg r v })
  | .setPc p v => some (update ctx p { ctx p with pc := v })
  | .fork p child =>
    some (update ctx child { ctx p with reg := update (ctx p).reg .a0 0 })

def Program.visible (ctx : P → Context) : Program.Action P → Option (Program.Event P)
  | .user p context => some (.user p (ctx p) context)
  | .ecall p => some (.ecall p)
  | .setReg p r v => some (.setReg p r v)
  | .setPc p v => some (.setPc p v)
  | .fork p child => some (.fork p child)

/-- A trap stores the context of its program, behind the system call if it is one. -/
theorem context_trap {c : Core} {pc : Word} (hs : Inv L s)
    (ht : Inv L { (s.setCore h c).setPlace h (.kernel p) with mem := m })
    (hp : s.place h = .user p) (hreg : ∀ r, m (L.word p (slot r)) = (s.core h).reg r)
    (hpc : m (L.word p epcSlot) = pc) (honly : OnlyFrame L p s.mem m) :
    context L { (s.setCore h c).setPlace h (.kernel p) with mem := m } =
      update (context L s) p ⟨(s.core h).reg, pc⟩ := by
  refine eq_update_iff.mpr ⟨?_, fun q hne => ?_⟩
  · rw [context_kernel (ht.not_user_of_kernel (h := h) (by simp [State.setPlace]))]
    exact congrArg₂ Context.mk (funext hreg) hpc
  · exact context_move hs ht (congrArg Place.proc hp) rfl honly hne

theorem simulates : Simulates (step L) Program.step (Permitted L) (Inv L) (context L · = ·) observe
    Program.visible := by
  rintro s a t _ hs rfl hperm hstep
  have ht := inv_step hs hperm hstep
  have hkeep (heq : context L t = context L s) (hnone : observe s a = none) :
      Follows Program.step Program.visible (context L s) (observe s a).toList
        (context L t = ·) := by
    rw [hnone]
    exact .silent heq
  have hone (b) (hb : Program.step (context L s) b = some (context L t))
      (hvisible : Program.visible (context L s) b = observe s a) :
      Follows Program.step Program.visible (context L s) (observe s a).toList (context L t = ·) :=
    hvisible ▸ .one hb rfl
  cases effect_of_step hs hstep with
  | @user h p reg pc hp =>
    refine hone (.user p ⟨reg, pc⟩) (congrArg some (update_eq_iff.mpr ⟨?_, ?_⟩)) ?_
    · rw [ht.context_user (h := h) hp]
      simp [State.setCore]
    · intro q hne
      refine (context_congr hs ht (fun _ => Iff.rfl) (fun h' hq => ?_) fun _ _ => rfl).symm
      refine update_of_ne ?_ _ _
      rintro rfl
      rw [hp] at hq
      cases hq
      exact hne rfl
    · simp [Program.visible, observe, hp, hs.context_user hp]
  | write a v =>
    refine hkeep (funext fun p => ?_) rfl
    exact context_congr hs ht (fun _ => Iff.rfl) (fun _ _ => rfl) fun o ho =>
      update_of_ne (hperm p o ho).symm _ _
  | @trap h p c m cause hp hkernel hreg hpc honly =>
    have htrap := context_trap hs ht hp hreg hpc honly
    by_cases hcause : cause = 8
    · refine hone (.ecall p) ?_ (by simp [Program.visible, observe, hcause, hp, Place.proc])
      rw [htrap, if_pos hcause, Program.step, hs.context_user hp]
    · refine hkeep (htrap.trans ?_) (if_neg hcause)
      rw [if_neg hcause, show (s.core h).pc + 0 = (s.core h).pc from BitVec.add_zero _,
        ← hs.context_user hp, update_eq_self]
  | @kernel h reg csr hp =>
    refine hkeep (funext fun p => ?_) rfl
    refine context_congr hs ht (fun _ => Iff.rfl) (fun h' hq => ?_) fun _ _ => rfl
    refine update_of_ne ?_ _ _
    rintro rfl
    exact hp p hq
  | @setReg h p r v hp =>
    have huser := hs.not_user_of_kernel hp
    refine hone (.setReg p r v) ?_ (by simp [Program.visible, observe, hp, Place.proc])
    rw [hs.context_setFrame huser (put_onlyFrame _ p _ (slot_lt_pgsize r)), Program.step,
      context_kernel huser]
    refine congrArg (some <| update _ _ ·) (congrArg₂ Context.mk (funext fun r' => ?_) ?_)
    · rw [put_apply _ p _ (slot_lt_pgsize r) (slot_lt_pgsize r'), update_apply]
      exact if_congr slot_injective.eq_iff.symm rfl rfl
    · rw [put_apply _ p _ (slot_lt_pgsize r) (by decide), if_neg (slot_ne_epcSlot r).symm]
  | @setEpc h p v hp =>
    have huser := hs.not_user_of_kernel hp
    refine hone (.setPc p v) ?_ (by simp [Program.visible, observe, hp, Place.proc])
    rw [hs.context_setFrame huser (put_onlyFrame _ p _ (by decide)), Program.step,
      context_kernel huser]
    refine congrArg (some <| update _ _ ·) (congrArg₂ Context.mk (funext fun r' => ?_) ?_)
    · rw [put_apply _ p _ (by decide) (slot_lt_pgsize r'), if_neg (slot_ne_epcSlot r')]
    · rw [put_apply _ p _ (by decide) (by decide), if_pos rfl]
  | @fork h p np hp =>
    have hne : p ≠ np := by
      rintro rfl
      exact hperm h (by rw [hp]; rfl)
    obtain ⟨honly, hreg, hpc⟩ := copyFrame_apply (L := L) hne s.mem
    have huser : ∀ h', s.place h' ≠ .user np := fun h' hnp => hperm h' (by rw [hnp]; rfl)
    refine hone (.fork p np) ?_ (by simp [Program.visible, observe, hp, Place.proc])
    rw [hs.context_setFrame huser honly, Program.step, context_kernel (hs.not_user_of_kernel hp)]
    refine congrArg (some <| update _ _ ·) (congrArg₂ Context.mk (funext fun r' => ?_) hpc.symm)
    rw [hreg r', update_apply]
  | sched hp | dispatch _ hp =>
    exact hkeep (funext fun q => context_congr hs ht
      (fun h' => setPlace_eq_user (by simp [hp]) (by simp) h' q) (fun _ _ => rfl)
      fun _ _ => rfl) rfl
  | @ret h p c m hp huser hreg hpc honly =>
    have hproc := congrArg Place.proc hp
    refine hkeep (funext fun q => ?_) rfl
    by_cases hq : q = p
    · rw [hq, ht.context_user (h := h) (by simp [State.setPlace]),
        context_kernel (hs.not_user_of_kernel hp)]
      refine congrArg₂ Context.mk ?_ ?_
      · simpa [State.setPlace, State.setCore] using funext hreg
      · simpa [State.setPlace, State.setCore] using hpc
    · exact context_move hs ht hproc rfl honly hq

/-- Every run of the harts, with traps from user programs and returns to them in any order, is a
run of the user programs by themselves with the same events: the context of a program changes
when it computes, when it goes on behind a system call, and when the kernel sets a register or the
program counter in its trapframe or makes a copy for a child, and at no other time. -/
theorem exec_refines_programs (mem : Mem) (core : H → Core) {as : List (Action H P)}
    (hrun : exec (step L) (boot L mem core) as = some t)
    (halong : Along (step L) (Permitted L) (boot L mem core) as) :
    ∃ es, exec Program.step (context L (boot L mem core)) es = some (context L t) ∧
      trace Program.step Program.visible (context L (boot L mem core)) es =
        trace (step L) observe (boot L mem core) as :=
  (simulates.exec (fun _ _ _ => inv_step) (inv_boot mem core) rfl hrun halong).eq

end

instance (L : Layout Bool Bool) (s : State Bool Bool) : ∀ a, Decidable (Permitted L s a)
  | .write a _ => inferInstanceAs (Decidable (∀ p : Bool, ∀ o, o < pgsize → a ≠ L.word p o))
  | .dispatch _ p | .fork _ p => inferInstanceAs (Decidable (∀ h, (s.place h).proc ≠ some p))
  | .user .. | .trap .. | .kernel .. | .setReg .. | .setEpc .. | .sched .. | .ret .. =>
    .isTrue trivial

/-- Two processes on two harts, each page table with the trapframe of its process. -/
def twoHarts : Layout Bool Bool where
  mmu satp va := some (va - trapframe + satp)
  satp p := if p then 8192 else 4096
  frame p := if p then 8192 else 4096
  kstack _ := 65536
  hartid h := if h then 1 else 0
  kernelSatp := 7
  usertrap := 1000
  uservec := trampoline
  kernelvec := 2000
  frame_mapped p o _ := by
    rw [BitVec.add_comm trapframe, BitVec.add_sub_cancel, BitVec.add_comm]
  frame_aligned p := by cases p <;> rfl
  frame_injective p q h := by
    cases p <;> cases q <;> first | rfl | exact absurd h (by decide)
  hartid_injective p q h := by
    cases p <;> cases q <;> first | rfl | exact absurd h (by decide)

/-- A system call of a process that returns on the other hart. -/
def migration : List (Action Bool Bool) :=
  [.dispatch false false, .setEpc false 100, .ret false, .user false (fun _ => 5) 200,
    .trap false 8, .setReg false .a0 42, .sched false, .dispatch true false, .ret true,
    .user true (fun _ => 6) 300]

def twoHartsBoot : State Bool Bool :=
  boot twoHarts (fun _ => 0) fun _ => ⟨fun _ => 0, fun _ => 0, 0, .machine, false⟩

/-- `a0` and the program counter with which a program goes on, and the events that the kernel
makes. -/
def Program.Event.view : Program.Event Bool → Word × Word ⊕ Bool × ℕ
  | .user _ before _ => .inl (before.reg .a0, before.pc)
  | .ecall p => .inr (p, 0)
  | .setReg p _ _ => .inr (p, 1)
  | .setPc p _ => .inr (p, 2)
  | .fork p _ => .inr (p, 3)

theorem exec_refines_programs_migration : ∃ t,
    exec (step twoHarts) twoHartsBoot migration = some t ∧
    ∃ es, exec Program.step (context twoHarts twoHartsBoot) es = some (context twoHarts t) ∧
      (trace Program.step Program.visible (context twoHarts twoHartsBoot) es).map
        Program.Event.view =
        [.inr (false, 2), .inl (0, 100), .inr (false, 0), .inr (false, 1), .inl (42, 204)] := by
  have hall : (exec (fun s a => if Permitted twoHarts s a then step twoHarts s a else none)
      twoHartsBoot migration).isSome = true := by decide +kernel
  have htrace : (trace (step twoHarts) observe twoHartsBoot migration).map Program.Event.view =
      [.inr (false, 2), .inl (0, 100), .inr (false, 0), .inr (false, 1), .inl (42, 204)] := by
    decide +kernel
  obtain ⟨t, ht⟩ := Option.isSome_iff_exists.mp hall
  obtain ⟨hrun, halong⟩ := along_of_exec ht
  obtain ⟨es, hes, heq⟩ := exec_refines_programs _ _ hrun halong
  exact ⟨t, hrun, es, hes, (congrArg _ heq).trans htrace⟩

/-! ## Protection -/

/-- What the hart `h` can rely on. -/
def Protected (L : Layout H P) (s : State H P) (h : H) : Prop :=
  match s.place h with
  | .user p => (s.core h).mode = .user ∧ (s.core h).csr .satp = L.satp p ∧
      ∀ cause, ∃ t, step L s (.trap h cause) = some t ∧ t.place h = .kernel p ∧
        (t.core h).reg .sp = L.kstack p + .ofNat 64 pgsize
  | .kernel p => (s.core h).csr .satp = L.kernelSatp ∧ s.myproc (s.core h) = some p ∧
      ∃ t, step L s (.ret h) = some t ∧ t.place h = .user p
  | .scheduler => (s.core h).csr .satp = L.kernelSatp ∧ s.myproc (s.core h) = none

/-- As long as the schedulers keep to `Permitted`, the user programs run in user mode on the page
tables of their processes, and a trap reaches the kernel with the stack of the process. The kernel
runs on its own page table, finds its process by `tp` also after it has moved to another hart, and
can return to it. `usertrap` never panics. -/
theorem reachWhere_protected {mem : Mem} {core : H → Core}
    (h : ReachWhere (step L) (Permitted L) (boot L mem core) s) :
    s.panicked = false ∧ ∀ h, Protected L s h := by
  have hinv : Inv L s := h.invariant (inv_boot mem core) fun _ _ _ => inv_step
  refine ⟨hinv.calm, fun h => ?_⟩
  have hok := hinv.harts h
  unfold Protected
  cases hp : s.place h with
  | user p =>
    rw [hp] at hok
    refine ⟨hok.mode, hok.satp, fun cause => ?_⟩
    obtain ⟨c, m, htrap, -, hsp, -, -, -⟩ := hinv.trap hp cause
    refine ⟨_, by simp only [step, hp, htrap]; rfl, ?_, ?_⟩
    · simp [State.setPlace]
    · simpa [State.setPlace, State.setCore] using hsp
  | kernel p =>
    rw [hp] at hok
    obtain ⟨c, m, hret, -, -, -, -⟩ := hinv.ret hp
    refine ⟨hok.satp, hinv.myproc hp, _, by simp only [step, hp, hret]; rfl, ?_⟩
    simp [State.setPlace]
  | scheduler =>
    rw [hp] at hok
    refine ⟨hok.satp, ?_⟩
    rw [State.myproc, hok.tp, hinv.cpu, hp]
    rfl

theorem reachWhere_protected_migration : ∃ t,
    exec (step twoHarts) twoHartsBoot migration = some t ∧ ∀ h, Protected twoHarts t h := by
  have hall : (exec (fun s a => if Permitted twoHarts s a then step twoHarts s a else none)
      twoHartsBoot migration).isSome = true := by decide +kernel
  obtain ⟨t, ht⟩ := Option.isSome_iff_exists.mp hall
  exact ⟨t, (along_of_exec ht).1, (reachWhere_protected (reachWhere_of_exec ht)).2⟩

end CS352.Traps
