import CS352.Verification.Memory.Programs

/-! # Processes

What the calls of `kernel/proc.c` and `sys_exec` do to the memory of one process. -/

namespace CS352.Memory

open RadixTable Tally WeakestPre Function

variable [Image] {pool : Pool} {s t : State} {T : List (ℕ × Space)} {H : List ℕ}
  {es : List Pte} {r p tf : ℕ} {E : Panic → Prop}

/-! ## Slots of the process table -/

/-- The page table of a process whose pages have the entries `es`. -/
def spaces (q : Proc) (es : List Pte) : List (ℕ × Space) :=
  q.pagetable.toList.map fun r => (r, layout es (fixed (q.trapframe.getD 0)))

/-- A slot is as `freeproc` leaves it. -/
def Idle (q : Proc) : Prop := q.freed = q

omit [Image] in
theorem idle_freed (q : Proc) : Idle q.freed := rfl

omit [Image] in
theorem Idle.fields {q : Proc} (h : Idle q) :
    q.state = .unused ∧ q.trapframe = none ∧ q.pagetable = none ∧ q.sz = 0 := by
  rw [← h]
  exact ⟨rfl, rfl, rfl, rfl⟩

theorem Live.spaces_eq {q : Proc} (h : Live q r tf es) :
    spaces q es = [(r, layout es (fixed tf))] := by
  rw [spaces, h.pagetable, h.trapframe]
  rfl

omit [Image] in
@[simp] theorem Procs.set_proc_self (P : Procs) (p : ℕ) (q : Proc) : (P.set p q).proc p = q :=
  update_self ..

omit [Image] in
@[simp] theorem Procs.set_set (P : Procs) (p : ℕ) (q q' : Proc) :
    (P.set p q).set p q' = P.set p q' := by
  simp [Procs.set]

omit [Image] in
@[simp] theorem wp_setProc {Q : Unit → State → Prop} (p : ℕ) (q : Proc) :
    wp E (setProc p q) Q s ↔ Q () { s with proc := update s.proc p q } := Iff.rfl

/-- `freeproc` gives all pages of the process back. -/
theorem wp_freeproc {Q : Unit → State → Prop}
    (h : Heap pool s (spaces (s.proc p) es ++ T) ((s.proc p).trapframe.toList ++ H))
    (hfits : Fits es (s.proc p).sz)
    (hQ : ∀ t, t.toProcs = s.toProcs.set p (s.proc p).freed → Heap pool t T H → Q () t) :
    wp E (freeproc p) Q s := by
  have hend : ∀ t, t.toProcs = s.toProcs → Heap pool t T H →
      wp E (do let s ← get; setProc p (s.proc p).freed) Q t := by
    intro t hprocs ht
    rw [wp_bind, wp_get, wp_setProc]
    refine hQ _ ?_ (ht.congr rfl rfl)
    rw [← hprocs]
    rfl
  unfold freeproc
  unfold spaces at h
  rw [wp_bind, wp_get, wp_bind]
  cases hpt : (s.proc p).pagetable with
  | none =>
    rw [hpt] at h
    cases htf : (s.proc p).trapframe with
    | none =>
      rw [htf] at h
      exact hend s rfl h
    | some tf =>
      rw [htf] at h
      apply wp_kfree h
      intro t _ hprocs ht
      exact hend t hprocs ht
  | some r =>
    rw [hpt] at h
    have htable : ∀ t, t.toProcs = s.toProcs →
        Heap pool t ((r, layout es (fixed ((s.proc p).trapframe.getD 0))) :: T) H →
        wp E (procFreepagetable r (s.proc p).sz)
          (fun _ => wp E (do let s ← get; setProc p (s.proc p).freed) Q) t := by
      intro t hprocs ht
      apply wp_procFreepagetable ht hfits
      intro u hu
      exact hend u (hu.trans hprocs)
    cases htf : (s.proc p).trapframe with
    | none =>
      rw [htf] at h htable
      rw [wp_pure, wp_bind]
      exact htable s rfl h
    | some tf =>
      rw [htf] at h htable
      apply wp_kfree h
      intro t _ hprocs ht
      rw [wp_bind]
      exact htable t hprocs ht

/-- `freeproc` of a process without pages makes the slot as it was. -/
theorem wp_freeproc_idle {Q : Unit → State → Prop} {q : Proc} {k : Int32} (hq : q.freed = s.proc p)
    (hsz : q.sz = 0) (ht : t.toProcs = Procs.set { s.toProcs with nextpid := k } p q)
    (h : Heap pool t (spaces q [] ++ T) (q.trapframe.toList ++ H))
    (hQ : ∀ u, u.toProcs = { s.toProcs with nextpid := k } → Heap pool u T H → Q () u) :
    wp E (freeproc p) Q t := by
  have hproc : t.proc p = q := by rw [ht, Procs.set_proc_self]
  have hfits : Fits [] (t.proc p).sz := by
    rw [hproc, hsz]
    exact fits_nil
  rw [← hproc] at h
  apply wp_freeproc h hfits
  intro u hu
  apply hQ u
  rw [hu, hproc, ht, Procs.set_set, hq]
  exact Procs.set_of_eq rfl

/-- `allocproc` makes a process without pages, or gives everything back. -/
theorem wp_allocproc {Q : Option ℕ → State → Prop} (h : Heap pool s T H)
    (hidle : ∀ p < nproc, (s.proc p).state = .unused → Idle (s.proc p))
    (hnone : ∀ k t, t.toProcs = { s.toProcs with nextpid := k } → Heap pool t T H → Q none t)
    (hsome : ∀ p r tf k t, p < nproc → Idle (s.proc p) →
      t.toProcs = Procs.set { s.toProcs with nextpid := k } p
        { s.proc p with
          pid := s.nextpid, state := .used, trapframe := some tf, pagetable := some r } →
      Heap pool t ((r, layout [] (fixed tf)) :: T) (tf :: H) → Q (some p) t) :
    wp E allocproc Q s := by
  unfold allocproc
  rw [wp_bind, wp_get]
  cases hfind : (List.range nproc).find? fun p => (s.proc p).state = .unused with
  | none => exact hnone s.nextpid s rfl h
  | some p =>
    have hp := List.mem_range.mp (List.mem_of_find?_eq_some hfind)
    have hidle := hidle p hp (by simpa using List.find?_some hfind)
    obtain ⟨hstate, htf, hpt, hsz⟩ := hidle.fields
    -- the slot before and after it has a trapframe
    have hq : ({ s.proc p with pid := s.nextpid, state := .used } : Proc).freed = s.proc p :=
      hidle
    have hq' : ∀ tf, ({ s.proc p with
        pid := s.nextpid, state := .used, trapframe := some tf } : Proc).freed = s.proc p :=
      fun _ => hidle
    rw [wp_bind, wp_set, wp_bind, wp_setProc, wp_bind]
    refine wp_kalloc (h.congr ?_ ?_) ?_ ?_
    · rfl
    · rfl
    · intro t hprocs ht
      rw [wp_bind]
      apply wp_freeproc_idle hq hsz hprocs
      · rwa [spaces, hpt, htf]
      · exact hnone (s.nextpid + 1)
    · intro tf t hprocs ht
      have hproc : t.proc p = { s.proc p with pid := s.nextpid, state := .used } := by
        rw [hprocs]
        exact update_self ..
      rw [wp_bind, wp_get, wp_bind, wp_setProc, wp_bind, hproc]
      have hnext : ∀ q, ({ t with proc := update t.proc p q } : State).toProcs =
          Procs.set { s.toProcs with nextpid := s.nextpid + 1 } p q := by
        intro q
        change t.toProcs.set p q = _
        rw [hprocs]
        exact Procs.set_set ..
      refine wp_procPagetable (ht.congr ?_ ?_) ?_ ?_
      · rfl
      · rfl
      · intro u hu hheap
        rw [wp_bind]
        apply wp_freeproc_idle (hq' tf) hsz (hu.trans (hnext _))
        · rwa [spaces, hpt]
        · exact hnone (s.nextpid + 1)
      · intro r u hu hheap
        have hu := hu.trans (hnext _)
        have hproc : u.proc p = { s.proc p with
            pid := s.nextpid, state := .used, trapframe := some tf } := by
          rw [hu, Procs.set_proc_self]
        rw [wp_bind, wp_get, wp_bind, wp_setProc, hproc]
        refine hsome p r tf (s.nextpid + 1) _ hp hidle ?_ (hheap.congr ?_ ?_)
        · change u.toProcs.set p _ = _
          rw [hu, Procs.set_set]
        · rfl
        · rfl

/-! ## sbrk -/

theorem Fits.remade {sz : ℕ} (hfits : Fits es sz) (hprocs : t.toProcs = s.toProcs)
    (ht : Heap pool t ((r, layout es (fixed tf)) :: T) H) :
    Remade pool T H p tf s.toProcs
      { t with
        proc := update t.proc p { s.proc p with pagetable := some r, sz := sz } } := by
  refine ⟨r, es, sz, ?_, hfits, ht.congr rfl rfl⟩
  rw [← hprocs]
  rfl

/-- `growproc` by any number of bytes leaves a process whose page table fits its size. -/
theorem wp_growproc {Q : Bool → State → Prop} {n : Int32}
    (h : Heap pool s ((r, layout es (fixed tf)) :: T) H) (hl : Live (s.proc p) r tf es)
    (hQ : ∀ b t, Remade pool T H p tf s.toProcs t → Q b t) : wp E (growproc p n) Q s := by
  have hstop : ∀ t, t.toProcs = s.toProcs → Heap pool t ((r, layout es (fixed tf)) :: T) H →
      Q false t := by
    intro t hprocs ht
    exact hQ false t (hl.remade hprocs ht)
  have hset : ∀ es sz t, t.toProcs = s.toProcs → Fits es sz →
      Heap pool t ((r, layout es (fixed tf)) :: T) H →
      Q true { t with
        proc := update t.proc p { s.proc p with pagetable := some r, sz := sz } } := by
    intro es sz t hprocs hfits ht
    exact hQ true _ (hfits.remade hprocs ht)
  have hfits := hl.fits
  unfold growproc
  rw [wp_bind, wp_get]
  dsimp only
  rw [hl.pagetable, Option.getD_some]
  refine wp_ite (fun _ => ?_) fun _ => wp_ite (fun _ => ?_) fun _ => ?_
  · rw [wp_bind]
    apply wp_uvmalloc h hfits
    · intro _
      refine wp_ite (fun _ => hstop s rfl h) fun _ => ?_
      rw [wp_bind, wp_setProc, wp_pure]
      exact hset es _ s rfl hfits h
    · intro t hprocs ht
      rw [if_pos rfl]
      exact hstop t hprocs ht
    · intro hle new t hprocs hfits' _ ht
      refine wp_ite (fun hzero => ?_) fun _ => ?_
      · refine hQ false t ⟨r, es ++ new, (s.proc p).sz, ?_, ?_, ht⟩
        · rw [hprocs, ← hl.pagetable, Procs.set_self]
        · rwa [show (s.proc p).sz = addInt (s.proc p).sz n.toInt by omega]
      · rw [wp_bind, wp_setProc, wp_pure]
        exact hset (es ++ new) _ t hprocs hfits' ht
  · rw [wp_bind]
    apply wp_uvmdealloc h hfits
    · intro _
      rw [wp_bind, wp_setProc, wp_pure]
      exact hset es _ s rfl hfits h
    · intro hlt t hprocs ht
      rw [wp_bind, wp_setProc, wp_pure]
      exact hset _ _ t hprocs (hfits.take (Nat.le_of_lt hlt)) ht
  · exact hQ true s (hl.remade rfl h)

theorem wp_sysSbrk {Q : ℤ → State → Prop} {n : Int32}
    (h : Heap pool s ((r, layout es (fixed tf)) :: T) H) (hl : Live (s.proc p) r tf es)
    (hQ : ∀ x t, Remade pool T H p tf s.toProcs t → Q x t) : wp E (sysSbrk p n) Q s := by
  unfold sysSbrk
  rw [wp_bind, wp_get, wp_bind]
  apply wp_growproc h hl
  intro b t ht
  exact wp_ite (fun _ => hQ _ t ht) fun _ => hQ _ t ht

/-! ## sys_exec -/

theorem wp_fetchArgs {Q : Option (List ℕ) × List ℕ → State → Prop} {i : ℕ}
    {args : List Arg} (h : Heap pool s T H)
    (hQ : ∀ x held t, t.toProcs = s.toProcs → Heap pool t T (held ++ H) → Q (x, held) t) :
    wp E (fetchArgs i args) Q s := by
  induction args generalizing i s H Q with
  | nil =>
    unfold fetchArgs
    exact wp_ite (fun _ => hQ none [] s rfl h) fun _ => hQ (some []) [] s rfl h
  | cons arg args ih =>
    unfold fetchArgs
    refine wp_ite (fun _ => hQ none [] s rfl h) fun _ => ?_
    cases arg with
    | addrFault => exact hQ none [] s rfl h
    | strFault =>
      rw [wp_bind]
      apply wp_kalloc h
      · exact hQ none []
      · intro page
        exact hQ none [page]
    | str len =>
      rw [wp_bind]
      apply wp_kalloc h
      · exact hQ none []
      · intro page t hprocs ht
        rw [wp_bind]
        apply ih ht
        intro x held u hu hheap
        exact hQ _ (page :: held) u (hu.trans hprocs)
          (hheap.perm (List.Perm.refl T) List.perm_middle)

theorem wp_freeArgs {Q : Unit → State → Prop} {held : List ℕ} (h : Heap pool s T (held ++ H))
    (hQ : ∀ t, t.toProcs = s.toProcs → Heap pool t T H → Q () t) :
    wp E (freeArgs held) Q s := by
  induction held generalizing s with
  | nil => exact hQ s rfl h
  | cons page held ih =>
    unfold freeArgs
    rw [wp_bind]
    apply wp_kfree h
    intro t _ hprocs ht
    apply ih ht
    intro u hu
    exact hQ u (hu.trans hprocs)

theorem wp_sysExec {Q : ℤ → State → Prop} {file : Option Exe} {args : List Arg}
    (h : Heap pool s ((r, layout es (fixed tf)) :: T) H) (hl : Live (s.proc p) r tf es)
    (hQ : ∀ x t, Remade pool T H p tf s.toProcs t → Q x t) : wp E (sysExec p file args) Q s := by
  unfold sysExec
  rw [wp_bind]
  apply wp_fetchArgs h
  intro x held t hprocs ht
  cases x with
  | none =>
    rw [wp_bind]
    apply wp_freeArgs ht
    intro u hu hheap
    exact hQ (-1) u (hl.remade (hu.trans hprocs) hheap)
  | some lens =>
    rw [wp_bind]
    apply wp_exec ht (by rwa [hprocs])
    rintro y u ⟨r', es', sz', hu, hfits, hheap⟩
    rw [wp_bind]
    apply wp_freeArgs hheap
    intro w hw hheap
    rw [hprocs] at hu
    exact hQ y w ⟨r', es', sz', hw.trans hu, hfits, hheap⟩

/-! ## Files -/

/-- Only reference counts and the files of process `p` differ. -/
structure Refiled (p : ℕ) (s t : State) : Prop where
  mem : t.mem = s.mem
  free : t.free = s.free
  proc : ∃ f, t.proc = update s.proc p { s.proc p with ofile := f }

omit [Image] in
theorem Refiled.refl (p : ℕ) (s : State) : Refiled p s s :=
  ⟨rfl, rfl, (s.proc p).ofile, (update_eq_self ..).symm⟩

omit [Image] in
theorem Refiled.trans {u : State} (h : Refiled p s t) (h' : Refiled p t u) : Refiled p s u := by
  obtain ⟨f, hf⟩ := h.proc
  obtain ⟨g, hg⟩ := h'.proc
  refine ⟨h'.mem.trans h.mem, h'.free.trans h.free, g, ?_⟩
  rw [hg, hf, update_self, update_idem]

omit [Image] in
theorem wp_dupFiles {Q : Unit → State → Prop} {np : ℕ} {fds : List ℕ} (hE : E .filedup)
    (hQ : ∀ t, Refiled np s t → Q () t) : wp E (dupFiles p np fds) Q s := by
  induction fds generalizing s with
  | nil => exact hQ s (.refl np s)
  | cons fd fds ih =>
    unfold dupFiles
    rw [wp_bind, wp_get]
    cases (s.proc p).ofile fd with
    | none => exact ih hQ
    | some f =>
      unfold filedup
      rw [wp_bind, wp_bind, wp_get]
      refine wp_ite (fun _ => hE) fun _ => ?_
      rw [wp_set, wp_bind, wp_get, wp_bind, wp_setProc]
      apply ih
      intro t ht
      refine hQ t (Refiled.trans ?_ ht)
      exact ⟨rfl, rfl, _, rfl⟩

omit [Image] in
theorem wp_closeFiles {Q : Unit → State → Prop} {fds : List ℕ} (hE : E .fileclose)
    (hQ : ∀ t, Refiled p s t → Q () t) : wp E (closeFiles p fds) Q s := by
  induction fds generalizing s with
  | nil => exact hQ s (.refl p s)
  | cons fd fds ih =>
    unfold closeFiles
    rw [wp_bind, wp_get]
    cases (s.proc p).ofile fd with
    | none => exact ih hQ
    | some f =>
      unfold fileclose
      rw [wp_bind, wp_bind, wp_get]
      refine wp_ite (fun _ => hE) fun _ => ?_
      rw [wp_set, wp_bind, wp_get, wp_bind, wp_setProc]
      apply ih
      intro t ht
      refine hQ t (Refiled.trans ?_ ht)
      exact ⟨rfl, rfl, _, rfl⟩

/-! ## fork -/

/-- `fork` makes a process with the pages of its parent, or gives everything back. The page
table of the parent is not among those of `T`: nothing that happens to them may change it. -/
theorem wp_fork {Q : ℤ → State → Prop} (h : Heap pool s T H)
    (hidle : ∀ p < nproc, (s.proc p).state = .unused → Idle (s.proc p))
    (hrun : (s.proc p).state = .running) (hcwd : (s.proc p).cwd.isSome)
    (hl : Live (s.proc p) r tf es)
    (hold : ∀ t x H', Heap pool t (x :: T) H' → Table t.mem r (layout es (fixed tf)))
    (hE : E .filedup)
    (hfail : ∀ k t, t.toProcs = { s.toProcs with nextpid := k } → Heap pool t T H → Q (-1) t)
    (hok : ∀ np q r' tf' es' t, np < nproc → Idle (s.proc np) →
      t.proc = update s.proc np q → q.state = .running → q.cwd.isSome →
      Live q r' tf' es' → Heap pool t ((r', layout es' (fixed tf')) :: T) (tf' :: H) →
      Q s.nextpid.toInt t) :
    wp E (fork p) Q s := by
  unfold fork
  rw [wp_bind]
  apply wp_allocproc h hidle hfail
  intro np r' tf' k t hnp hnew hprocs ht
  have hne : p ≠ np := by
    intro heq
    have hunused := hnew.fields.1
    rw [← heq, hrun] at hunused
    cases hunused
  have hproc : t.proc p = s.proc p := by
    rw [hprocs]
    exact update_of_ne hne ..
  rw [wp_bind, wp_get]
  dsimp only
  rw [hproc, hl.pagetable, hprocs, Procs.set_proc_self, Option.getD_some, Option.getD_some,
    wp_bind]
  apply wp_uvmcopy ht (fun u copy hu => hold u _ _ hu)
    (fun v hv => layout_of_lt (Nat.lt_of_lt_of_le hv hl.fits.length_le)) hl.fits
  · intro u hu hheap
    rw [if_neg (by simp), wp_bind]
    refine wp_freeproc_idle ?_ ?_ (hu.trans hprocs) hheap (hfail k)
    · exact hnew
    · exact hnew.fields.2.2.2
  · intro copy u hu hfits hheap
    rw [if_pos rfl, wp_bind, wp_get, wp_bind, wp_setProc, wp_bind]
    apply wp_dupFiles hE
    intro w hw
    have huproc := congrArg Procs.proc (hu.trans hprocs)
    obtain ⟨f, hf⟩ := hw.proc
    simp only [huproc, Procs.set, update_self, update_idem] at hf
    obtain ⟨ip, hip⟩ := Option.isSome_iff_exists.mp hcwd
    rw [hip]
    unfold idup
    rw [wp_bind, wp_modify, wp_bind, wp_get, wp_bind, wp_setProc]
    simp only [hf, update_self, update_idem, wp_pure]
    apply hok np _ r' tf' copy _ hnp hnew
    · rfl
    · rfl
    · rfl
    · exact ⟨rfl, rfl, hfits⟩
    · exact hheap.congr hw.mem hw.free

end CS352.Memory
