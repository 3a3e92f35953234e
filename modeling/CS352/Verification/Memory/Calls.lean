import CS352.Verification.Memory.Processes

/-! # The process table

Between two calls the pages that are not free belong to the processes, and every process has
the pages of its size. -/

namespace CS352.Memory

open RadixTable Tally WeakestPre Function

variable [Image] {pool : Pool} {s t : State} {es : ℕ → List Pte} {x : List Pte} {q : Proc}
  {p r tf : ℕ} {E : Panic → Prop}

/-- The page tables of the processes in `ps`. -/
def tables (proc : ℕ → Proc) (es : ℕ → List Pte) (ps : List ℕ) : List (ℕ × Space) :=
  ps.flatMap fun p => spaces (proc p) (es p)

/-- The trapframes of the processes in `ps`. -/
def frames (proc : ℕ → Proc) (ps : List ℕ) : List ℕ :=
  ps.flatMap fun p => (proc p).trapframe.toList

/-- A slot is free, or holds a process whose pages have the entries `x`. -/
def Sound (q : Proc) (x : List Pte) : Prop :=
  Idle q ∨ q.state ≠ .unused ∧ (q.state = .running → q.cwd.isSome) ∧ ∃ r tf, Live q r tf x

/-- What holds between two calls: `es p` are the entries of the pages of process `p`. -/
structure Inv (pool : Pool) (s : State) (es : ℕ → List Pte) : Prop where
  heap : Heap pool s (tables s.proc es (List.range nproc)) (frames s.proc (List.range nproc))
  sound : ∀ p, Sound (s.proc p) (es p)
  inTable : ∀ p, (s.proc p).state ≠ .unused → p < nproc

/-! ## One process and the others -/

/-- All slots but that of `p`. -/
def others (p : ℕ) : List ℕ := (List.range nproc).erase p

omit [Image] in
theorem ne_of_mem_others {pp : ℕ} (h : pp ∈ others p) : pp ≠ p := by
  intro heq
  rw [heq] at h
  exact List.nodup_range.not_mem_erase h

theorem tables_perm (proc : ℕ → Proc) (es : ℕ → List Pte) (hp : p < nproc) :
    (tables proc es (List.range nproc)).Perm
      (spaces (proc p) (es p) ++ tables proc es (others p)) :=
  (List.perm_cons_erase (List.mem_range.mpr hp)).flatMap_right _

omit [Image] in
theorem frames_perm (proc : ℕ → Proc) (hp : p < nproc) :
    (frames proc (List.range nproc)).Perm ((proc p).trapframe.toList ++ frames proc (others p)) :=
  (List.perm_cons_erase (List.mem_range.mpr hp)).flatMap_right _

theorem Inv.opened (h : Inv pool s es) (hp : p < nproc) :
    Heap pool s (spaces (s.proc p) (es p) ++ tables s.proc es (others p))
      ((s.proc p).trapframe.toList ++ frames s.proc (others p)) :=
  h.heap.perm (tables_perm _ _ hp) (frames_perm _ hp)

/-- One process is changed. -/
theorem Inv.closed (h : Inv pool s es) (hp : p < nproc)
    (hproc : t.proc = update s.proc p q) (hsound : Sound q x)
    (ht : Heap pool t (spaces q x ++ tables s.proc es (others p))
      (q.trapframe.toList ++ frames s.proc (others p))) :
    Inv pool t (update es p x) := by
  have hself : t.proc p = q := by rw [hproc, update_self]
  have hother : ∀ pp, pp ≠ p → t.proc pp = s.proc pp := by
    intro pp hne
    rw [hproc, update_of_ne hne]
  have htables : tables t.proc (update es p x) (others p) =
      tables s.proc es (others p) := by
    apply List.flatMap_congr
    intro pp hpp
    have hne := ne_of_mem_others hpp
    rw [hother pp hne, update_of_ne hne]
  have hframes : frames t.proc (others p) = frames s.proc (others p) := by
    apply List.flatMap_congr
    intro pp hpp
    rw [hother pp (ne_of_mem_others hpp)]
  refine ⟨?_, ?_, ?_⟩
  · apply ht.perm
    · refine List.Perm.trans ?_ (tables_perm t.proc _ hp).symm
      rw [hself, update_self, htables]
    · refine List.Perm.trans ?_ (frames_perm t.proc hp).symm
      rw [hself, hframes]
  · intro pp
    by_cases hpp : pp = p
    · rw [hpp, hself, update_self]
      exact hsound
    · rw [hother pp hpp, update_of_ne hpp]
      exact h.sound pp
  · intro pp hstate
    by_cases hpp : pp = p
    · rwa [hpp]
    · rw [hother pp hpp] at hstate
      exact h.inTable pp hstate

omit [Image] in
theorem Sound.live (h : Sound q x) (hstate : q.state ≠ .unused) :
    (q.state = .running → q.cwd.isSome) ∧ ∃ r tf, Live q r tf x := by
  rcases h with hidle | ⟨_, hlive⟩
  · exact absurd hidle.fields.1 hstate
  · exact hlive

theorem Inv.idle (h : Inv pool s es) (p : ℕ) (hstate : (s.proc p).state = .unused) :
    Idle (s.proc p) := by
  rcases h.sound p with hidle | ⟨hne, _⟩
  · exact hidle
  · exact absurd hstate hne

theorem Live.opened (hl : Live (s.proc p) r tf (es p)) (h : Inv pool s es) (hp : p < nproc) :
    Heap pool s ((r, layout (es p) (fixed tf)) :: tables s.proc es (others p))
      (tf :: frames s.proc (others p)) := by
  have hopen := h.opened hp
  rwa [hl.spaces_eq, hl.trapframe] at hopen

/-! ## Calls -/

/-- A call has left the memory of process `p` as `exec` or `sbrk` does. -/
theorem Inv.remade (h : Inv pool s es) (hp : p < nproc) (hstate : (s.proc p).state ≠ .unused)
    (hl : Live (s.proc p) r tf (es p))
    (ht : Remade pool (tables s.proc es (others p)) (tf :: frames s.proc (others p)) p tf
      s.toProcs t) : ∃ es, Inv pool t es := by
  obtain ⟨r', x, sz, hprocs, hfits, hheap⟩ := ht
  have hcwd := ((h.sound p).live hstate).1
  have hlive : Live { s.proc p with pagetable := some r', sz := sz } r' tf x :=
    ⟨rfl, hl.trapframe, hfits⟩
  refine ⟨update es p x, h.closed hp (congrArg Procs.proc hprocs) ?_ ?_⟩
  · exact .inr ⟨hstate, hcwd, r', tf, hlive⟩
  · rwa [hlive.spaces_eq, hlive.trapframe]

/-- A process is made in a free slot. -/
theorem Inv.added (h : Inv pool s es) (hp : p < nproc) (hidle : Idle (s.proc p))
    (hproc : t.proc = update s.proc p q) (hstate : q.state = .running)
    (hcwd : q.cwd.isSome) (hlive : Live q r tf x)
    (ht : Heap pool t ((r, layout x (fixed tf)) :: tables s.proc es (List.range nproc))
      (tf :: frames s.proc (List.range nproc))) : ∃ es, Inv pool t es := by
  obtain ⟨-, htf, hpt, -⟩ := hidle.fields
  refine ⟨update es p x, h.closed hp hproc ?_ ?_⟩
  · exact .inr ⟨by simp [hstate], fun _ => hcwd, r, tf, hlive⟩
  · rw [hlive.spaces_eq, hlive.trapframe]
    apply ht.perm
    · apply List.Perm.cons
      refine (tables_perm _ _ hp).trans ?_
      rw [spaces, hpt]
      exact List.Perm.refl _
    · apply List.Perm.cons
      refine (frames_perm _ hp).trans ?_
      rw [htf]
      exact List.Perm.refl _

theorem Inv.fork (h : Inv pool s es) (hrun : (s.proc p).state = .running) (hE : E .filedup) :
    wp E (fork p) (fun _ t => ∃ es, Inv pool t es) s := by
  have hstate : (s.proc p).state ≠ .unused := by simp [hrun]
  have hp := h.inTable p hstate
  obtain ⟨hcwd, r, tf, hl⟩ := (h.sound p).live hstate
  have hmem : (r, layout (es p) (fixed tf)) ∈ tables s.proc es (List.range nproc) := by
    rw [(tables_perm _ _ hp).mem_iff, hl.spaces_eq]
    exact List.mem_append_left _ (List.mem_singleton_self _)
  apply wp_fork h.heap (fun p _ => h.idle p) hrun (hcwd hrun) hl _ hE
  · intro k t hprocs ht
    have hproc : t.proc = s.proc := by rw [hprocs]
    refine ⟨es, ?_, ?_, ?_⟩
    · rwa [hproc]
    · rw [hproc]
      exact h.sound
    · rw [hproc]
      exact h.inTable
  · intro np q r' tf' x t hnp hidle hproc hstate hcwd hlive ht
    exact h.added hnp hidle hproc hstate hcwd hlive ht
  · intro t x H ht
    exact ht.table _ (List.mem_cons_of_mem x hmem)

theorem Inv.wait (h : Inv pool s es) (addr : ℕ) :
    wp E (wait p addr) (fun _ t => ∃ es, Inv pool t es) s := by
  unfold Memory.wait
  rw [wp_bind, wp_get]
  cases hfind : (List.range nproc).find? fun pp =>
      (s.proc pp).parent = some p ∧ (s.proc pp).state = .zombie with
  | none => exact ⟨es, h⟩
  | some pp =>
    have hpp := List.mem_range.mp (List.mem_of_find?_eq_some hfind)
    have hzombie := List.find?_some hfind
    rw [decide_eq_true_eq] at hzombie
    obtain ⟨-, r, tf, hl⟩ := (h.sound pp).live (by simp [hzombie.2])
    have hfree : wp E (freeproc pp) (fun _ t => ∃ es, Inv pool t es) s := by
      apply wp_freeproc (h.opened hpp) hl.fits
      intro t hprocs ht
      exact ⟨_, h.closed (x := []) hpp (congrArg Procs.proc hprocs) (.inl (idle_freed _)) ht⟩
    have hcopied : ∀ b : Bool,
        wp E (if b then do freeproc pp; return (s.proc pp).pid.toInt else return -1)
        (fun _ t => ∃ es, Inv pool t es) s := by
      intro b
      refine wp_ite (fun _ => ?_) fun _ => ⟨es, h⟩
      rw [wp_bind]
      exact hfree
    rw [wp_bind]
    refine wp_ite (fun _ => ?_) fun _ => hcopied true
    apply wp_copyout
    exact hcopied

omit [Image] in
theorem reparent_fields (p : ℕ) (q : Proc) : (reparent p q).pagetable = q.pagetable ∧
    (reparent p q).trapframe = q.trapframe ∧ (reparent p q).sz = q.sz ∧
    (reparent p q).state = q.state := by
  unfold reparent
  split
  · exact ⟨rfl, rfl, rfl, rfl⟩
  · exact ⟨rfl, rfl, rfl, rfl⟩

omit [Image] in
theorem Sound.reparent (h : Sound q x) (p : ℕ) : Sound (reparent p q) x := by
  unfold Memory.reparent
  split
  case isFalse => exact h
  case isTrue hparent =>
    rcases h with hidle | ⟨hstate, hcwd, r, tf, hl⟩
    · rw [← hidle] at hparent
      cases hparent
    · exact .inr ⟨hstate, hcwd, r, tf, hl.pagetable, hl.trapframe, hl.fits⟩

/-- Process `p` exits: it keeps its memory, and its children get another parent. -/
theorem Inv.exited (h : Inv pool s es) (hstate : (s.proc p).state ≠ .unused)
    (hmem : t.mem = s.mem) (hfree : t.free = s.free) (hzombie : (t.proc p).state = .zombie)
    (hself : (t.proc p).pagetable = (s.proc p).pagetable ∧
      (t.proc p).trapframe = (s.proc p).trapframe ∧ (t.proc p).sz = (s.proc p).sz)
    (hother : ∀ pp, pp ≠ p → t.proc pp = reparent p (s.proc pp)) : Inv pool t es := by
  have hkept : ∀ pp, (t.proc pp).pagetable = (s.proc pp).pagetable ∧
      (t.proc pp).trapframe = (s.proc pp).trapframe := by
    intro pp
    by_cases hpp : pp = p
    · rw [hpp]
      exact ⟨hself.1, hself.2.1⟩
    · obtain ⟨hpt, htf, -⟩ := reparent_fields p (s.proc pp)
      rw [hother pp hpp]
      exact ⟨hpt, htf⟩
  have htables : tables t.proc es = tables s.proc es := by
    unfold tables spaces
    simp only [hkept]
  have hframes : frames t.proc = frames s.proc := by
    unfold frames
    simp only [hkept]
  refine ⟨?_, ?_, ?_⟩
  · rw [htables, hframes]
    exact h.heap.congr hmem hfree
  · intro pp
    by_cases hpp : pp = p
    · obtain ⟨-, r, tf, hl⟩ := (h.sound p).live hstate
      have hlive : Live (t.proc p) r tf (es p) := by
        refine ⟨hself.1.trans hl.pagetable, hself.2.1.trans hl.trapframe, ?_⟩
        rw [hself.2.2]
        exact hl.fits
      rw [hpp]
      exact .inr ⟨by simp [hzombie], by simp [hzombie], r, tf, hlive⟩
    · rw [hother pp hpp]
      exact (h.sound pp).reparent p
  · intro pp hne
    by_cases hpp : pp = p
    · rw [hpp]
      exact h.inTable p hstate
    · rw [hother pp hpp, (reparent_fields p (s.proc pp)).2.2.2] at hne
      exact h.inTable pp hne

theorem Inv.exit (h : Inv pool s es) (hrun : (s.proc p).state = .running)
    (hinit : E .initExiting) (hclose : E .fileclose) :
    wp E (exit p) (fun _ t => ∃ es, Inv pool t es) s := by
  have hstate : (s.proc p).state ≠ .unused := by simp [hrun]
  have hcwd := ((h.sound p).live hstate).1 hrun
  unfold Memory.exit
  refine wp_ite (fun _ => hinit) fun _ => ?_
  rw [wp_bind]
  apply wp_closeFiles hclose
  intro t ht
  obtain ⟨f, hf⟩ := ht.proc
  obtain ⟨ip, hip⟩ := Option.isSome_iff_exists.mp hcwd
  have hself : t.proc p = { s.proc p with ofile := f } := by rw [hf, update_self]
  rw [wp_bind, wp_get, wp_bind, hself, hip]
  unfold iput
  rw [wp_modify, wp_bind, wp_setProc, wp_bind, wp_modify, wp_bind, wp_get, wp_bind, wp_setProc,
    wp_pure]
  refine ⟨es, h.exited hstate ht.mem ht.free ?_ ?_ ?_⟩
  · dsimp only
    rw [update_self]
  · dsimp only
    rw [update_self, update_self]
    obtain ⟨hpt, htf, hsz, -⟩ := reparent_fields p { s.proc p with ofile := f, cwd := none }
    exact ⟨hpt, htf, hsz⟩
  · intro pp hpp
    dsimp only
    rw [update_of_ne hpp, update_of_ne hpp, hf, update_of_ne hpp]

/-! ## Runs -/

/-- The panics that have nothing to do with memory. -/
def Unrelated (e : Panic) : Prop := e = .initExiting ∨ e = .filedup ∨ e = .fileclose

theorem Inv.syscall (h : Inv pool s es) (hrun : (s.proc p).state = .running) (c : Call) :
    wp Unrelated (syscall p c) (fun _ t => ∃ es, Inv pool t es) s := by
  have hstate : (s.proc p).state ≠ .unused := by simp [hrun]
  have hp := h.inTable p hstate
  obtain ⟨-, r, tf, hl⟩ := (h.sound p).live hstate
  cases c with
  | fork => exact h.fork hrun (.inr (.inl rfl))
  | exec file args =>
    apply wp_sysExec (hl.opened h hp) hl
    intro _ t ht
    exact h.remade hp hstate hl ht
  | sbrk n =>
    apply wp_sysSbrk (hl.opened h hp) hl
    intro _ t ht
    exact h.remade hp hstate hl ht
  | exit => exact h.exit hrun (.inl rfl) (.inr (.inr rfl))
  | wait addr => exact h.wait addr

/-- Which calls of `kalloc` fail does not matter. -/
theorem Inv.deny (h : Inv pool s es) (deny : List Bool) : Inv pool { s with deny := deny } es :=
  ⟨h.heap.congr rfl rfl, h.sound, h.inTable⟩

theorem Inv.vmStep {a : ℕ × Call × List Bool} (h : Inv pool s es) (hs : vmStep s a = some t) :
    ∃ es, Inv pool t es := by
  obtain ⟨hrun, hs⟩ := Option.ite_none_right_eq_some.mp hs
  have hwp := (h.deny a.2.2).syscall hrun a.2.1
  unfold run at hs
  cases hr : Memory.syscall a.1 a.2.1 { s with deny := a.2.2 } with
  | error e =>
    rw [hr] at hs
    cases hs
  | ok y =>
    rw [hr] at hs
    obtain rfl := Option.some.inj hs
    exact wp_of_ok hwp hr

theorem Inv.run_error {deny : List Bool} {c : Call} {e : Panic} (h : Inv pool s es)
    (hrun : (s.proc p).state = .running) (he : run s p c deny = .error e) : Unrelated e :=
  wp_of_error ((h.deny deny).syscall hrun c) he

end CS352.Memory
