import CS352.Library.Residence
import CS352.Library.Simulation
import CS352.Model.Switch

/-! # The contexts of kernel threads

A call of `swtch` is a call that returns: with the stack pointer and the callee-saved registers that
the thread had, to its return address, on whichever hart the thread is switched to. -/

namespace CS352.Traps

open Riscv RedoLog Residence Transition Simulation Function

variable {H T : Type*} {C : Contexts T} {s t : Threads H T} {c : Core} {m : Mem}
  {old new : T}

/-! ## The switch -/

theorem contextFields_lt : ∀ x ∈ contextFields, x.2 < 112 ∧ x.2 % 8 = 0 := by decide

theorem contextFields_nodup :
    (contextFields.map Prod.fst).Nodup ∧ (contextFields.map Prod.snd).Nodup := by decide

theorem swtch_eq : swtch = saves .a0 contextFields ++ loads .a1 contextFields := rfl

/-- The kernel runs in supervisor mode with its own page table. -/
structure InThread (C : Contexts T) (c : Core) : Prop where
  satp : c.csr .satp = C.kernelSatp
  mode : c.mode = .supervisor
  fresh : c.stale = false

theorem InThread.mapped (h : InThread C c) {base : Reg} {t : T} (hbase : c.reg base = C.context t) :
    Mapped C.mmu c base (C.context t) contextFields := by
  intro x hx
  obtain ⟨hlt, hmod⟩ := contextFields_lt x hx
  have haligned : (C.context t + .ofNat 64 x.2).toNat % 8 = 0 := by
    have := C.aligned t
    rw [BitVec.toNat_add, BitVec.toNat_ofNat]
    omega
  rw [Core.translate, hbase, h.fresh, h.mode, h.satp, if_neg (by simpa using haligned),
    if_neg (by simp)]
  exact C.mapped t x.2 hlt

/-- The values of the callee-saved registers. -/
def saved (reg : Reg → Word) : List Word := contextFields.map fun x => reg x.1

/-- The values in the context of a thread. -/
def storedContext (C : Contexts T) (m : Mem) (t : T) : List Word :=
  contextFields.map fun x => m (C.context t + .ofNat 64 x.2)

theorem run_swtch (h : InThread C c) (hold : c.reg .a0 = C.context old)
    (hnew : c.reg .a1 = C.context new) (hne : new ≠ old) :
    ∃ reg m', run C.mmu swtch c m = some ({ c with reg := reg }, m') ∧
      storedContext C m' old = saved c.reg ∧
      (∀ t, t ≠ old → storedContext C m' t = storedContext C m t) ∧
      saved reg = storedContext C m new ∧ reg .tp = c.reg .tp := by
  have hsaves := run_saves (m := m) (h.mapped hold)
  have hloads := run_loads (m := replay m (stored (C.context old) c.reg contextFields))
    (h.mapped hnew) (by decide)
  have hother : ∀ t, t ≠ old → ∀ x ∈ contextFields,
      replay m (stored (C.context old) c.reg contextFields) (C.context t + .ofNat 64 x.2) =
        m (C.context t + .ofNat 64 x.2) := by
    intro t ht x hx
    refine stored_of_not_mem fun y hy => ?_
    exact C.apart t old ht _ _ (contextFields_lt x hx).1 (contextFields_lt y hy).1
  refine ⟨_, _, by rw [swtch_eq, run_append, hsaves]; exact hloads, ?_, ?_, ?_, ?_⟩
  · refine List.map_congr_left fun x hx => ?_
    refine stored_of_mem contextFields_nodup.2 (fun y hy => ?_) hx
    have := (contextFields_lt y hy).1
    omega
  · exact fun t ht => List.map_congr_left fun x hx => hother t ht x hx
  · refine List.map_congr_left fun x hx => ?_
    exact (loaded_of_mem contextFields_nodup.1 hx).trans (hother new hne x hx)
  · exact loaded_of_not_mem (by decide)

/-! ## Where the registers of a thread are -/

/-- The registers of a thread are in its hart while it runs, and in its context otherwise. -/
noncomputable def registers (C : Contexts T) (s : Threads H T) : T → List Word :=
  datum (fun h => some (s.thread h)) (fun h => saved (s.core h).reg) (storedContext C s.mem)

noncomputable def threadContext (C : Contexts T) (s : Threads H T) (t : T) :
    Option (List Word) :=
  if s.used t then some (registers C s t) else none

structure ThreadInv (C : Contexts T) (s : Threads H T) : Prop where
  cores : ∀ h, InThread C (s.core h)
  single : Injective s.thread
  used : ∀ h, s.used (s.thread h) = true

theorem ThreadInv.residence (hinv : ThreadInv C s) : Single fun h => some (s.thread h) :=
  fun _ _ _ hp hp' => hinv.single (Option.some_inj.mp (hp.trans hp'.symm))

theorem saved_update_tp (reg : Reg → Word) (v : Word) :
    saved (update reg .tp v) = saved reg := by
  refine List.map_congr_left fun x hx => update_of_ne ?_ _ _
  rintro heq
  exact absurd (heq ▸ List.mem_map_of_mem hx : Reg.tp ∈ contextFields.map Prod.fst) (by decide)

theorem registers_live (hinv : ThreadInv C s) (h : H) :
    registers C s (s.thread h) = saved (s.core h).reg :=
  datum_live hinv.residence rfl

theorem registers_stored (ht : ∀ h, s.thread h ≠ new) :
    registers C s new = storedContext C s.mem new :=
  datum_stored fun h hh => ht h (Option.some_inj.mp hh)

theorem threadContext_of_used (h : s.used new = true) :
    threadContext C s new = some (registers C s new) := if_pos h

theorem storedContext_update {a v : Word} (ha : ∀ o, o < 112 → a ≠ C.context new + .ofNat 64 o) :
    storedContext C (update m a v) new = storedContext C m new :=
  List.map_congr_left fun x hx =>
    update_of_ne (ha x.2 (contextFields_lt x hx).1).symm _ _

theorem storedContext_init (new : T) (ra sp : Word) :
    storedContext C (C.init m new ra sp) new = ra :: sp :: List.replicate 12 0 ∧
      ∀ t, t ≠ new → storedContext C (C.init m new ra sp) t = storedContext C m t := by
  have hinit : C.init m new ra sp = update (update
      (replay m (stored (C.context new) (fun _ => 0) contextFields))
      (C.context new + .ofNat 64 0) ra) (C.context new + .ofNat 64 8) sp := by
    simp only [Contexts.init, replay, stored, List.foldl_map]
  have hlt : ∀ x ∈ contextFields, x.2 < 2 ^ 64 := fun x hx => by
    have := (contextFields_lt x hx).1
    omega
  refine ⟨?_, fun t ht => ?_⟩
  · have hvalue : ∀ x ∈ contextFields, C.init m new ra sp (C.context new + .ofNat 64 x.2) =
        if x.2 = 8 then sp else if x.2 = 0 then ra else 0 := by
      intro x hx
      rw [hinit]
      split_ifs with h8 h0
      · rw [h8, update_self]
      · rw [update_of_ne fun heq => h8 (add_ofNat_inj (hlt x hx) (by decide) heq), h0,
          update_self]
      · rw [update_of_ne fun heq => h8 (add_ofNat_inj (hlt x hx) (by decide) heq),
          update_of_ne fun heq => h0 (add_ofNat_inj (hlt x hx) (by decide) heq)]
        exact stored_of_mem contextFields_nodup.2 hlt hx
    exact (List.map_congr_left hvalue).trans rfl
  · have hapart : ∀ o' < 112, ∀ o, o < 112 →
        C.context new + .ofNat 64 o' ≠ C.context t + .ofNat 64 o := fun o' ho' o ho =>
      C.apart new t ht.symm o' o ho' ho
    rw [hinit, storedContext_update (hapart 8 (by decide)),
      storedContext_update (hapart 0 (by decide))]
    refine List.map_congr_left fun x hx => stored_of_not_mem fun y hy => ?_
    exact (hapart y.2 (contextFields_lt y hy).1 x.2 (contextFields_lt x hx).1).symm

variable [DecidableEq H]

/-- The hart has gone from its thread to `new`. -/
def switched (s : Threads H T) (h : H) (new : T) (m : Mem) (reg : Reg → Word) : Threads H T :=
  ⟨m, update s.core h { s.core h with reg := reg, pc := reg .ra }, update s.thread h new, s.used⟩

theorem ThreadInv.call (hinv : ThreadInv C s) {h : H} {new : T} (ra : Word)
    (hnew : ∀ h, s.thread h ≠ new) : ∃ reg m,
      callSwtch C s h ra new = some (switched s h new m reg) ∧
      storedContext C m (s.thread h) = ra :: (saved (s.core h).reg).tail ∧
      (∀ t, t ≠ s.thread h → storedContext C m t = storedContext C s.mem t) ∧
      saved reg = storedContext C s.mem new ∧ reg .tp = (s.core h).reg .tp := by
  obtain ⟨c, hc⟩ : ∃ c, c = (((s.core h).setReg .ra ra).setReg .a0
    (C.context (s.thread h))).setReg .a1 (C.context new) := ⟨_, rfl⟩
  have hcore := hinv.cores h
  have hthread : InThread C c := by
    rw [hc]
    exact ⟨hcore.satp, hcore.mode, hcore.fresh⟩
  obtain ⟨reg, m, hrun, hold, hother, hsaved, htp⟩ := run_swtch (m := s.mem) hthread
    (by simp [hc]) (by simp [hc]) (hnew h).symm
  refine ⟨reg, m, ?_, ?_, hother, hsaved, ?_⟩
  · rw [callSwtch, ← hc, hrun, Option.map_some, hc]
    rfl
  · rw [hold, hc]
    simp [saved, contextFields]
  · rw [htp, hc]
    simp

theorem ThreadInv.setCore (hinv : ThreadInv C s) {h : H} (hc : InThread C c) :
    ∀ h', InThread C (update s.core h c h') := by
  intro h'
  by_cases hh : h' = h
  · rwa [hh, update_self]
  · rw [update_of_ne hh]
    exact hinv.cores h'

theorem registers_left (hs : ThreadInv C s) {h : H} {reg : Reg → Word}
    (hfree : ∀ h, s.thread h ≠ new) :
    registers C (switched s h new m reg) (s.thread h) = storedContext C m (s.thread h) := by
  refine registers_stored (s := switched s h new m reg) fun h' => ?_
  simp only [switched]
  by_cases hh : h' = h
  · rw [hh, update_self]
    exact (hfree h).symm
  · rw [update_of_ne hh]
    exact fun heq => hh (hs.single heq)

/-- The other threads keep their registers, and `new` has those of its context. -/
theorem registers_switched (hs : ThreadInv C s) {h : H} {reg : Reg → Word}
    (ht : ThreadInv C (switched s h new m reg)) (hfree : ∀ h, s.thread h ≠ new)
    (hsaved : saved reg = storedContext C s.mem new) (hne : old ≠ s.thread h)
    (hother : storedContext C m old = storedContext C s.mem old) :
    registers C (switched s h new m reg) old = registers C s old := by
  by_cases hnew : old = new
  · have hback := registers_live ht h
    simp only [switched, update_self] at hback
    rw [hnew, registers_stored hfree, ← hsaved]
    exact hback
  · refine datum_congr hs.residence ht.residence (fun h' => ?_) (fun h' hh => ?_) hother
    · by_cases hh : h' = h
      · simp [switched, hh, Ne.symm hnew, Ne.symm hne]
      · simp only [switched, update_of_ne hh]
    · have hh' : h' ≠ h := by
        rintro rfl
        exact hne (Option.some_inj.mp hh).symm
      simp only [switched, update_of_ne hh']

/-! ## Threads by themselves -/

/-- What happens to the callee-saved registers of the threads. -/
inductive Thread.Action (T : Type*) where
  /-- The thread computes. -/
  | run (t : T) (values : List Word)
  /-- The thread calls `swtch`, and another one returns from it. -/
  | call (old : T) (ra : Word) (new : T)
  | start (t : T) (ra sp : Word)
  | free (t : T)

/-- Every action is an event. -/
inductive Thread.Event (T : Type*) where
  | computes (t : T) (before after : List Word)
  /-- The thread `new` goes on at `pc`. -/
  | switches (old : T) (ra : Word) (new : T) (pc : Word)
  | starts (t : T) (ra sp : Word)
  | ends (t : T)

def observeThread (C : Contexts T) (s : Threads H T) : ThreadAction H T → Option (Thread.Event T)
  | .run h reg => some (.computes (s.thread h) (saved (s.core h).reg) (saved reg))
  | .call h ra new =>
    (callSwtch C s h ra new).map fun t => .switches (s.thread h) ra new (t.core h).pc
  | .start t ra sp => some (.starts t ra sp)
  | .free t => some (.ends t)
  | .write _ _ => none

section

variable [DecidableEq T]

/-- The registers of the threads that there are. Only a thread that is not there can be
started. -/
def Thread.step (ctx : T → Option (List Word)) :
    Thread.Action T → Option (T → Option (List Word))
  | .run t values => (ctx t).map fun _ => update ctx t (some values)
  | .call old ra new =>
    if new ≠ old ∧ (ctx new).isSome then
      (ctx old).map fun values => update ctx old (some (ra :: values.tail))
    else none
  | .start t ra sp =>
    if (ctx t).isSome then none
    else some (update ctx t (some (ra :: sp :: List.replicate 12 0)))
  | .free t => (ctx t).map fun _ => update ctx t none

/-- A thread goes on at the return address of its call. -/
def Thread.visible (ctx : T → Option (List Word)) : Thread.Action T → Option (Thread.Event T)
  | .run t values => (ctx t).map (.computes t · values)
  | .call old ra new => ((ctx new).bind List.head?).map (.switches old ra new)
  | .start t ra sp => some (.starts t ra sp)
  | .free t => some (.ends t)

theorem threadInv_step {a : ThreadAction H T} (hinv : ThreadInv C s) (hperm : ThreadPermitted C s a)
    (hs : threadStep C s a = some t) : ThreadInv C t := by
  cases a with
  | run h reg =>
    cases hs
    have hcore := hinv.cores h
    exact ⟨hinv.setCore ⟨hcore.satp, hcore.mode, hcore.fresh⟩, hinv.single, hinv.used⟩
  | write a v =>
    cases hs
    exact ⟨hinv.cores, hinv.single, hinv.used⟩
  | call h ra new =>
    obtain ⟨hused, hnew⟩ := hperm
    obtain ⟨reg, m, hcall, -⟩ := hinv.call (h := h) ra hnew
    cases hcall.symm.trans hs
    have hcore := hinv.cores h
    refine ⟨hinv.setCore ⟨hcore.satp, hcore.mode, hcore.fresh⟩, fun h₁ h₂ heq => ?_, fun h' => ?_⟩
    · simp only [switched, update_apply] at heq
      split_ifs at heq with hh₁ hh₂ hh₂
      · rw [hh₁, hh₂]
      · exact absurd heq.symm (hnew h₂)
      · exact absurd heq (hnew h₁)
      · exact hinv.single heq
    · by_cases hh : h' = h
      · simpa [switched, hh] using hused
      · simpa [switched, hh] using hinv.used h'
  | start t ra sp =>
    obtain ⟨-, ht⟩ := Option.ite_none_left_eq_some.mp hs
    cases ht
    refine ⟨hinv.cores, hinv.single, fun h => ?_⟩
    dsimp only
    rw [update_apply]
    split_ifs
    · rfl
    · exact hinv.used h
  | free t =>
    obtain ⟨-, ht⟩ := Option.ite_none_right_eq_some.mp hs
    cases ht
    exact ⟨hinv.cores, hinv.single, fun h =>
      (update_of_ne (hperm h) _ _).trans (hinv.used h)⟩

omit [DecidableEq H] in
/-- The registers of one thread change, and the others are there as before. -/
theorem threadContext_update {values : List Word} (hused : t.used new = true)
    (hother : ∀ t', t' ≠ new → t.used t' = s.used t')
    (hself : registers C t new = values)
    (hkeep : ∀ t', t' ≠ new → registers C t t' = registers C s t') :
    update (threadContext C s) new (some values) = threadContext C t := by
  refine update_eq_iff.mpr ⟨?_, fun t' hne => ?_⟩
  · rw [threadContext_of_used hused, hself]
  · rw [threadContext, threadContext, hother t' hne, hkeep t' hne]

theorem threadSimulates : Simulates (threadStep C) Thread.step (ThreadPermitted C)
    (ThreadInv C (H := H)) (threadContext C · = ·) (observeThread C) Thread.visible := by
  rintro s a t _ hs rfl hperm hstep
  have ht := threadInv_step hs hperm hstep
  have hone (b) (hb : Thread.step (threadContext C s) b = some (threadContext C t))
      (hvisible : Thread.visible (threadContext C s) b = observeThread C s a) :
      Follows Thread.step Thread.visible (threadContext C s) (observeThread C s a).toList
        (threadContext C t = ·) :=
    hvisible ▸ .one hb rfl
  cases a with
  | run h reg =>
    cases hstep
    have hlive := threadContext_of_used (C := C) (hs.used h)
    refine hone (.run (s.thread h) (saved reg)) ?_ ?_
    · rw [Thread.step, hlive, Option.map_some]
      refine congrArg some (threadContext_update (hs.used h) (fun _ _ => rfl) ?_ ?_)
      · rw [registers_live ht h]
        simp [saved_update_tp]
      · intro t' hne
        refine datum_congr hs.residence ht.residence (fun _ => Iff.rfl) (fun h' hh => ?_) rfl
        have hh' : h' ≠ h := by
          rintro rfl
          exact hne (Option.some_inj.mp hh).symm
        simp only [update_of_ne hh']
    · rw [Thread.visible, hlive, registers_live hs]
      rfl
  | write a v =>
    cases hstep
    refine .silent (funext fun t' => ?_)
    have hsame : registers C _ t' = registers C s t' :=
      datum_congr hs.residence ht.residence (fun _ => Iff.rfl) (fun _ _ => rfl)
        (storedContext_update (hperm t'))
    rw [threadContext, threadContext, hsame]
  | call h ra new =>
    obtain ⟨hused, hfree⟩ := hperm
    obtain ⟨reg, m, hcall, hold, hother, hsaved, -⟩ := hs.call (h := h) ra hfree
    cases hcall.symm.trans hstep
    have hlive := threadContext_of_used (C := C) (hs.used h)
    have hnew : threadContext C s new = some (saved reg) := by
      rw [threadContext_of_used hused, registers_stored hfree, hsaved]
    refine hone (.call (s.thread h) ra new) ?_ ?_
    · rw [Thread.step, if_pos ⟨(hfree h).symm, by rw [hnew]; rfl⟩, hlive, Option.map_some]
      refine congrArg some (threadContext_update (hs.used h) (fun _ _ => rfl) ?_ fun t' hne =>
        registers_switched hs ht hfree hsaved hne (hother t' hne))
      rw [registers_live hs, registers_left hs hfree, hold]
    · rw [observeThread, hcall, Thread.visible, hnew]
      simp [switched, saved, contextFields]
  | start t' ra sp =>
    obtain ⟨hfresh, hstart⟩ := Option.ite_none_left_eq_some.mp hstep
    cases hstart
    obtain ⟨hself, hother⟩ := storedContext_init (C := C) (m := s.mem) t' ra sp
    have hout : ∀ h, s.thread h ≠ t' := by
      rintro h rfl
      exact hfresh (hs.used h)
    have hnone : threadContext C s t' = none := if_neg hfresh
    refine hone (.start t' ra sp) ?_ rfl
    rw [Thread.step, hnone, if_neg (by simp)]
    refine congrArg some (threadContext_update (update_self ..)
      (fun _ hne => update_of_ne hne _ _) ?_ fun t'' hne => ?_)
    · have hstored : registers C ⟨C.init s.mem t' ra sp, s.core, s.thread,
          update s.used t' true⟩ t' = storedContext C (C.init s.mem t' ra sp) t' :=
        registers_stored hout
      exact hstored.trans hself
    · exact datum_congr hs.residence ht.residence (fun _ => Iff.rfl) (fun _ _ => rfl)
        (hother t'' hne)
  | free t' =>
    obtain ⟨hused, hfree⟩ := Option.ite_none_right_eq_some.mp hstep
    cases hfree
    refine hone (.free t') ?_ rfl
    rw [Thread.step, threadContext_of_used hused, Option.map_some]
    refine congrArg some (update_eq_iff.mpr ⟨?_, fun t'' hne => ?_⟩)
    · simp [threadContext]
    · simp only [threadContext, update_of_ne hne]
      rfl

theorem threadStep_tp {a : ThreadAction H T} (hinv : ThreadInv C s) (hperm : ThreadPermitted C s a)
    (hs : threadStep C s a = some t) (h : H) : (t.core h).reg .tp = (s.core h).reg .tp := by
  cases a with
  | run h' reg =>
    cases hs
    by_cases hh : h = h' <;> simp [hh]
  | write a v =>
    cases hs
    rfl
  | call h' ra new =>
    obtain ⟨reg, m, hcall, -, -, -, htp⟩ := hinv.call (h := h') ra hperm.2
    cases hcall.symm.trans hs
    by_cases hh : h = h' <;> simp [switched, hh, htp]
  | start t' ra sp =>
    obtain ⟨-, ht⟩ := Option.ite_none_left_eq_some.mp hs
    cases ht
    rfl
  | free t' =>
    obtain ⟨-, ht⟩ := Option.ite_none_right_eq_some.mp hs
    cases ht
    rfl

/-- Every run of the harts, with calls of `swtch` in any order, is a run of the threads by
themselves with the same events: a call returns to its return address, with the stack pointer and
the callee-saved registers of the call, and these registers are set only for a thread that starts.
No call faults, and `tp` stays with the hart. -/
theorem exec_refines_threads {as : List (ThreadAction H T)} (hcores : ∀ h, InThread C (s.core h))
    (hthread : Injective s.thread) (hused : ∀ h, s.used (s.thread h) = true)
    (hrun : exec (threadStep C) s as = some t)
    (halong : Along (threadStep C) (ThreadPermitted C) s as) :
    (∃ es, exec Thread.step (threadContext C s) es = some (threadContext C t) ∧
      trace Thread.step Thread.visible (threadContext C s) es =
        trace (threadStep C) (observeThread C) s as) ∧
    (∀ h, (t.core h).reg .tp = (s.core h).reg .tp) ∧
    ∀ h ra new, (∀ h', t.thread h' ≠ new) → (threadStep C t (.call h ra new)).isSome = true := by
  have hinv : ThreadInv C s := ⟨hcores, hthread, hused⟩
  have hkeep := (reachWhere_of_along hrun halong).invariant
    (I := fun u => ThreadInv C u ∧ ∀ h, (u.core h).reg .tp = (s.core h).reg .tp)
    ⟨hinv, fun _ => rfl⟩ fun u a v hu hperm hstep => ⟨threadInv_step hu.1 hperm hstep, fun h =>
      (threadStep_tp hu.1 hperm hstep h).trans (hu.2 h)⟩
  refine ⟨(threadSimulates.exec (fun _ _ _ => threadInv_step) hinv rfl hrun halong).eq, hkeep.2, ?_⟩
  intro h ra new hnew
  obtain ⟨reg, m, hcall, -⟩ := hkeep.1.call (h := h) ra hnew
  rw [threadStep, hcall]
  rfl

end

/-- The scheduler of one hart, and a process. -/
def schedulerAndProcess : Contexts Bool where
  mmu _ va := some va
  kernelSatp := 7
  context t := if t then 256 else 0
  mapped _ _ _ := rfl
  aligned t := by cases t <;> rfl
  apart t t' hne o o' ho ho' heq := by
    have hnat := congrArg BitVec.toNat heq
    cases t <;> cases t' <;>
      simp only [if_true, if_false, Bool.false_eq_true, BitVec.toNat_add,
        BitVec.toNat_ofNat] at hnat
    case true.true | false.false => exact hne rfl
    all_goals
      have : (256 : Word).toNat = 256 := rfl
      have : (0 : Word).toNat = 0 := rfl
      omega

instance (C : Contexts Bool) (s : Threads Unit Bool) : ∀ a, Decidable (ThreadPermitted C s a)
  | .write a _ => inferInstanceAs (Decidable (∀ t : Bool, ∀ o, o < 112 →
      a ≠ C.context t + .ofNat 64 o))
  | .call _ _ t => decidable_of_iff (s.used t = true ∧ s.thread () ≠ t)
      ⟨fun h => ⟨h.1, fun _ => h.2⟩, fun h => ⟨h.1, h.2 ()⟩⟩
  | .free t => decidable_of_iff (s.thread () ≠ t) ⟨fun h _ => h, fun h => h ()⟩
  | .run _ _ | .start _ _ _ => .isTrue trivial

def oneHart : Threads Unit Bool :=
  ⟨fun _ => 0, fun _ => ⟨fun _ => 5, fun _ => 7, 0, .supervisor, false⟩, fun _ => false,
    fun t => !t⟩

/-- The scheduler switches to a new process and gets back, and to another one that has taken its
place. -/
def roundTrip : List (ThreadAction Unit Bool) :=
  [.start true 500 900, .call () 100 true, .run () (fun _ => 3), .call () 700 false, .free true,
    .start true 600 900, .call () 101 true]

def Thread.Event.pc : Thread.Event Bool → Option Word
  | .switches _ _ _ pc => some pc
  | _ => none

theorem exec_refines_threads_roundTrip : ∃ t es,
    exec (threadStep schedulerAndProcess) oneHart roundTrip = some t ∧
    exec Thread.step (threadContext schedulerAndProcess oneHart) es =
      some (threadContext schedulerAndProcess t) ∧
    (trace Thread.step Thread.visible (threadContext schedulerAndProcess oneHart) es).filterMap
      Thread.Event.pc = [500, 100, 600] := by
  have hall : (exec (fun s a => if ThreadPermitted schedulerAndProcess s a then
      threadStep schedulerAndProcess s a else none) oneHart roundTrip).isSome = true := by
    decide +kernel
  have htrace : (trace (threadStep schedulerAndProcess) (observeThread schedulerAndProcess) oneHart
      roundTrip).filterMap Thread.Event.pc = [500, 100, 600] := by decide +kernel
  obtain ⟨t, ht⟩ := Option.isSome_iff_exists.mp hall
  obtain ⟨hrun, halong⟩ := along_of_exec ht
  obtain ⟨⟨es, hes, heq⟩, -⟩ := exec_refines_threads (fun _ => ⟨rfl, rfl, rfl⟩)
    (fun _ _ _ => rfl) (fun _ => rfl) hrun halong
  exact ⟨t, es, hrun, hes, by rw [heq, htrace]⟩

end CS352.Traps
