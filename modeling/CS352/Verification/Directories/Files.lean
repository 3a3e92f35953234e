import CS352.Verification.Directories.Calls

/-! # Open files and working directories

The calls that give references to processes and files, or take them away. -/

namespace CS352.Directories

open Blocks (FileType)
open Tally WeakestPre Function

variable {s t u : State} {last : Option ℕ} {hold hold' : List ℕ} {i j f p : ℕ} {q : Proc}
  {path : List Char}

/-! ## Working directories and open files -/

theorem holders_setProc {x : Option Proc} (hp : p < nproc) :
    holders { s with proc := update s.proc p x } i + cwdWeight i (s.proc p) =
      holders s i + cwdWeight i x := by
  have htally := tally_update (w := cwdWeight i) (f := s.proc) (x := x) (Finset.mem_range.mpr hp)
  simp only [holders]
  omega

theorem holders_setFile {x : File} (hf : f < nfile) :
    holders { s with file := update s.file f x } i + fileWeight i (s.file f) =
      holders s i + fileWeight i x := by
  have htally := tally_update (w := fileWeight i) (f := s.file) (x := x) (Finset.mem_range.mpr hf)
  simp only [holders]
  omega

theorem cwdWeight_some : cwdWeight i (some q) = [q.cwd].count i := by
  unfold cwdWeight
  by_cases h : q.cwd = i
  · simp [h]
  · simp [h]

theorem fileWeight_some {x : File} (hx : x.ip = some j) : fileWeight i x = [j].count i := by
  unfold fileWeight
  by_cases h : j = i
  · simp [hx, h]
  · simp [hx, h]

theorem fileWeight_none {x : File} (hx : x.ip = none) : fileWeight i x = 0 := by
  simp [fileWeight, hx]

theorem Refs.holders_cwd (h : Refs last hold s) (hp : s.proc p = some q) :
    0 < holders s q.cwd := by
  have hlt := h.procBound p (by simp [hp])
  have hle := le_tally (w := cwdWeight q.cwd) (f := s.proc) (Finset.mem_range.mpr hlt)
  rw [hp, cwdWeight_some, List.count_singleton_self] at hle
  unfold holders
  omega

/-- References move between the call and the processes and files. Only the inode `last` may
lose the last of its holders. -/
theorem Refs.move (h : Refs none hold s) (hnode : t.node = s.node)
    (href : t.ref = s.ref) (hvalid : t.valid = s.valid)
    (hcount : ∀ i, holders t i + hold'.count i = holders s i + hold.count i)
    (hlast : hold' = last.toList) (halloc : ∀ i ∈ hold, (s.node i).type ≠ .free)
    (hfiles : ∀ f, (t.file f).ref = 0 → (t.file f).ip = none)
    (hbound : ∀ f, 0 < (t.file f).ref → f < nfile) (hproc : ∀ p, (t.proc p).isSome → p < nproc) :
    Refs last hold' t := by
  refine ⟨?_, ?_, ?_, ?_, ?_, hfiles, hbound, hproc⟩
  · intro i
    rw [href, h.refs i, hcount i]
  · intro i ht hn
    rw [hnode] at ht hn
    rw [hvalid]
    obtain ⟨hv, hpos | hnone⟩ := h.kept i ht hn
    · refine ⟨hv, ?_⟩
      by_cases hmem : last = some i
      · exact .inr hmem
      · have hzero : hold'.count i = 0 := by
          rw [hlast, List.count_eq_zero]
          simpa using hmem
        have heq := hcount i
        exact .inl (by omega)
    · cases hnone
  · intro i hi
    simp [hlast, hi]
  · rw [href, hvalid, hnode]
    exact h.typed
  · intro i hi
    rw [hnode]
    by_cases hmem : i ∈ hold
    · exact halloc i hmem
    · apply h.allocated i
      have heq := hcount i
      rw [List.count_eq_zero.mpr hmem] at heq
      omega

theorem procBound_update (h : Refs last hold s) {x : Option Proc} (hp : p < nproc) (k : ℕ)
    (hk : (update s.proc p x k).isSome) : k < nproc := by
  by_cases hkp : k = p
  · rwa [hkp]
  · rw [update_of_ne hkp] at hk
    exact h.procBound k hk

theorem files_update (h : Refs last hold s) {x : File} (hx : 0 < x.ref ∨ x.ip = none) (k : ℕ)
    (hk : (update s.file f x k).ref = 0) : (update s.file f x k).ip = none := by
  by_cases hkf : k = f
  · subst hkf
    rw [update_self] at hk ⊢
    rcases hx with hpos | hnone
    · omega
    · exact hnone
  · rw [update_of_ne hkf] at hk ⊢
    exact h.files k hk

theorem fileBound_update (h : Refs last hold s) {x : File} (hf : f < nfile) (k : ℕ)
    (hk : 0 < (update s.file f x k).ref) : k < nfile := by
  by_cases hkf : k = f
  · rwa [hkf]
  · rw [update_of_ne hkf] at hk
    exact h.fileBound k hk

/-- The record of a process changes, but not its working directory. -/
theorem Refs.setOfile (h : Refs last hold s) (hp : s.proc p = some q) {q' : Proc}
    (hq : q'.cwd = q.cwd) :
    Refs last hold { s with proc := update s.proc p (some q') } := by
  have hlt := h.procBound p (by simp [hp])
  have hholders : holders { s with proc := update s.proc p (some q') } = holders s := by
    funext i
    have heq := holders_setProc (s := s) (i := i) (x := some q') hlt
    rw [hp, cwdWeight_some, cwdWeight_some, hq] at heq
    omega
  refine ⟨?_, ?_, h.lastHeld, h.typed, ?_, h.files, h.fileBound, procBound_update h hlt⟩
  · rw [hholders]
    exact h.refs
  · rw [hholders]
    exact h.kept
  · rw [hholders]
    exact h.allocated

/-- The count of an open file changes, but not its inode. -/
theorem Refs.setCount (h : Refs last hold s) (hf : f < nfile) {x : File}
    (hx : x.ip = (s.file f).ip) (hpos : 0 < x.ref ∨ x.ip = none) :
    Refs last hold { s with file := update s.file f x } := by
  have hholders : holders { s with file := update s.file f x } = holders s := by
    funext i
    have heq := holders_setFile (s := s) (i := i) (x := x) hf
    have hweight : fileWeight i x = fileWeight i (s.file f) := by rw [fileWeight, hx, fileWeight]
    omega
  refine ⟨?_, ?_, h.lastHeld, h.typed, ?_, files_update h hpos, fileBound_update h hf,
    h.procBound⟩
  · rw [hholders]
    exact h.refs
  · rw [hholders]
    exact h.kept
  · rw [hholders]
    exact h.allocated

/-! ## Calls on files and processes -/

theorem wp_filedup {Q : Unit → State → Prop} (h : Refs last hold s)
    (hQ : ∀ t, t.node = s.node → t.proc = s.proc → Refs last hold t → Q () t) :
    wp Allowed (filedup f) Q s := by
  unfold filedup
  rw [wp_bind, wp_get]
  refine wp_ite (fun _ => by simp [Allowed]) fun hpos => ?_
  exact hQ _ rfl rfl (h.setCount (h.fileBound f (by omega)) rfl (.inl (Nat.succ_pos _)))

theorem wp_fileclose {Q : Unit → State → Prop} (h : Inv s)
    (hQ : ∀ t, t.proc = s.proc → Inv t → Q () t) : wp Allowed (fileclose f) Q s := by
  unfold fileclose
  rw [wp_bind, wp_get]
  refine wp_ite (fun _ => by simp [Allowed]) fun hpos => wp_ite (fun hmore => ?_) fun hlast => ?_
  · have hlt := h.table.fileBound f (by omega)
    exact hQ _ rfl ⟨h.tree, h.table.setCount hlt rfl (.inl hmore)⟩
  · have hlt := h.table.fileBound f (by omega)
    rw [wp_bind, wp_setFile]
    cases hip : (s.file f).ip with
    | none =>
      exact hQ _ rfl ⟨h.tree, h.table.setCount hlt hip.symm (.inr rfl)⟩
    | some i =>
      have hrefs : Refs (some i) [i] { s with
          file := update s.file f { ref := 0, ip := none } } := by
        refine h.table.move rfl rfl rfl ?_ rfl (by simp) ?_ ?_ h.table.procBound
        · intro j
          have heq := holders_setFile (s := s) (i := j) (x := ⟨0, none⟩) hlt
          rw [fileWeight_some hip, fileWeight_none rfl] at heq
          simpa using heq
        · exact files_update h.table (.inr rfl)
        · exact fileBound_update h.table hlt
      apply wp_iput_last hrefs (by simp) h.tree
      intro t _ hp _ ht hrt
      exact hQ t hp ⟨ht, hrt⟩

/-- Dropping a reference commutes with a change of a process. -/
theorem wp_iput_setProc {R : State → Prop} {x : Option Proc}
    (h : wp Allowed (iput i) (fun _ t => R t)
      { s with proc := update s.proc p x }) :
    wp Allowed (iput i) (fun _ t => R { t with proc := update t.proc p x }) s := by
  unfold iput at *
  simp only [wp_bind, wp_get] at *
  by_cases hfree : s.ref i = 1 ∧ s.valid i = true ∧ (s.node i).nlink = 0
  · simp only [if_pos hfree] at *
    exact h
  · simp only [if_neg hfree] at *
    exact h

theorem wp_sysChdir (h : Inv s) (hp : s.proc p = some q) :
    wp Allowed (sysChdir p q path) (fun _ t => Inv t) s := by
  unfold sysChdir
  rw [wp_bind]
  apply wp_namei h.table (h.table.ref_pos (h.table.holders_cwd hp))
  · intro t hs ht
    exact ⟨hs.node_eq ▸ h.tree, ht⟩
  · intro ip t hs ht _
    rw [wp_bind]
    apply wp_ilock ht
    intro u hu hru _ _ hfree
    have hsu := hs.trans hu
    have htree : Tree u.node := hsu.node_eq ▸ h.tree
    rw [← hu.node_eq] at hfree
    rw [wp_bind, wp_get]
    refine wp_ite (fun _ => ?_) fun _ => ?_
    · rw [wp_bind]
      apply wp_iput hru
      intro v hv hrv
      exact ⟨hv.node_eq ▸ htree, hrv⟩
    · have hpu : u.proc p = some q := by rw [hsu.proc_eq, hp]
      have hlt := hru.procBound p (by simp [hpu])
      have hrefs : Refs (some q.cwd) [q.cwd] { u with
          proc := update u.proc p (some { q with cwd := ip }) } := by
        refine hru.move rfl rfl rfl ?_ rfl (by simpa using hfree) hru.files hru.fileBound
          (procBound_update hru hlt)
        intro j
        have heq := holders_setProc (s := u) (i := j) (x := some { q with cwd := ip }) hlt
        rw [hpu, cwdWeight_some, cwdWeight_some] at heq
        exact heq
      rw [wp_bind]
      refine wp_iput_setProc (R := Inv) ?_
      apply wp_iput_last hrefs (by simp) htree
      intro v _ _ _ hv hrv
      exact ⟨hv, hrv⟩

theorem wp_sysClose {fd : ℤ} (h : Inv s) (hp : s.proc p = some q) :
    wp Allowed (sysClose p q fd) (fun _ t => Inv t) s := by
  unfold sysClose
  split
  · exact h
  · simp only [wp_bind, wp_setProc]
    refine wp_fileclose ⟨h.tree, h.table.setOfile hp ?_⟩ ?_
    · rfl
    · exact fun t _ ht => ht

theorem wp_fdalloc {Q : Option ℕ → State → Prop} (h : Refs last hold s) (hp : s.proc p = some q)
    (hnone : Q none s)
    (hsome : ∀ fd t, t.node = s.node → t.file = s.file → Refs last hold t → Q (some fd) t) :
    wp Allowed (fdalloc p q f) Q s := by
  unfold fdalloc
  split
  · simp only [wp_bind, wp_setProc]
    exact hsome _ _ rfl rfl (h.setOfile hp rfl)
  · exact hnone

theorem wp_sysDup {fd : ℤ} (h : Inv s) (hp : s.proc p = some q) :
    wp Allowed (sysDup p q fd) (fun _ t => Inv t) s := by
  unfold sysDup
  split
  · exact h
  · rw [wp_bind]
    apply wp_fdalloc h.table hp
    · exact h
    · intro fd t hnode _ ht
      simp only [wp_bind]
      apply wp_filedup ht
      intro u hu _ hru
      exact ⟨by rw [hu, hnode]; exact h.tree, hru⟩

theorem wp_dupFiles {Q : Unit → State → Prop} {fds : List ℕ} (h : Refs none hold s)
    (hQ : ∀ t, t.node = s.node → t.proc = s.proc → Refs none hold t → Q () t) :
    wp Allowed (dupFiles q fds) Q s := by
  induction fds generalizing s with
  | nil => exact hQ s rfl rfl h
  | cons fd fds ih =>
    unfold dupFiles
    dsimp only
    split
    · rw [wp_bind]
      apply wp_filedup h
      intro t hnode hproc ht
      apply ih ht
      intro u hu hpu
      exact hQ u (hu.trans hnode) (hpu.trans hproc)
    · exact ih h hQ

theorem wp_fork {child : ℕ} (h : Inv s) (hp : s.proc p = some q) (hlt : child < nproc)
    (hfree : s.proc child = none) : wp Allowed (fork q child) (fun _ t => Inv t) s := by
  unfold fork
  rw [wp_bind]
  apply wp_dupFiles h.table
  intro t hnode hproc ht
  have hpt : t.proc p = some q := by rw [hproc, hp]
  have hcwd := ht.holders_cwd hpt
  rw [wp_bind]
  apply wp_idup ht (ht.ref_pos hcwd)
  intro u hu hru
  simp only [wp_bind, wp_setProc]
  have hnodeu : u.node = s.node := hu.node_eq.trans hnode
  have hchild : u.proc child = none := by rw [hu.proc_eq, hproc, hfree]
  refine ⟨by simp only [hnodeu]; exact h.tree, ?_⟩
  refine hru.move rfl rfl rfl ?_ rfl ?_ hru.files hru.fileBound (procBound_update hru hlt)
  · intro j
    have heq := holders_setProc (s := u) (i := j) (x := some q) hlt
    rw [hchild, cwdWeight_some] at heq
    simpa [cwdWeight] using heq
  · intro j hj
    rw [List.mem_singleton] at hj
    rw [hj, hu.node_eq]
    exact ht.allocated q.cwd hcwd

theorem wp_closeFiles {Q : Unit → State → Prop} {fds : List ℕ} (h : Inv s)
    (hQ : ∀ t, t.proc = s.proc → Inv t → Q () t) : wp Allowed (closeFiles q fds) Q s := by
  induction fds generalizing s with
  | nil => exact hQ s rfl h
  | cons fd fds ih =>
    unfold closeFiles
    dsimp only
    split
    · rw [wp_bind]
      apply wp_fileclose h
      intro t hproc ht
      apply ih ht
      intro u hu
      exact hQ u (hu.trans hproc)
    · exact ih h hQ

theorem wp_exit (h : Inv s) (hp : s.proc p = some q) :
    wp Allowed (exit p q) (fun _ t => Inv t) s := by
  unfold exit
  refine wp_ite (fun _ => by simp [Allowed]) fun _ => ?_
  rw [wp_bind]
  apply wp_closeFiles h
  intro t hproc ht
  have hpt : t.proc p = some q := by rw [hproc, hp]
  have hlt := ht.table.procBound p (by simp [hpt])
  have hrefs : Refs (some q.cwd) [q.cwd] { t with proc := update t.proc p none } := by
    refine ht.table.move rfl rfl rfl ?_ rfl (by simp) ht.table.files ht.table.fileBound
      (procBound_update ht.table hlt)
    intro j
    have heq := holders_setProc (s := t) (i := j) (x := none) hlt
    rw [hpt, cwdWeight_some] at heq
    simpa [cwdWeight] using heq
  rw [wp_bind]
  refine wp_iput_setProc (R := Inv) ?_
  apply wp_iput_last hrefs (by simp) ht.tree
  intro v _ _ _ hv hrv
  exact ⟨hv, hrv⟩

theorem wp_openInode {Q : Option ℕ → State → Prop} {cwd : ℕ} {omode : UInt32} {room : ℕ → Bool}
    (h : Inv s) (hcwd : 0 < holders s cwd)
    (hsafe : omode &&& oCreate ≠ 0 → ∀ dp name,
      walk s.node true (start cwd path) path [] = some (dp, name) → 0 < (s.node dp).nlink)
    (hnone : ∀ t, t.proc = s.proc → Inv t → Q none t)
    (hsome : ∀ ip t, t.proc = s.proc → Tree t.node → Refs none [ip] t →
      (t.node ip).type ≠ .free → Q (some ip) t) :
    wp Allowed (openInode cwd path omode room) Q s := by
  unfold openInode
  refine wp_ite (fun hcreate => ?_) fun _ => ?_
  · apply wp_create h.table h.tree (h.table.ref_pos hcwd) (hsafe hcreate) (by simp)
    · exact fun t _ hproc htree ht => hnone t hproc ⟨htree, ht⟩
    · exact fun ip t _ hproc htree ht => hsome ip t hproc htree ht
  · rw [wp_bind]
    apply wp_namei h.table (h.table.ref_pos hcwd)
    · intro t hs ht
      exact hnone t hs.proc_eq ⟨hs.node_eq ▸ h.tree, ht⟩
    · intro ip t hs ht _
      rw [wp_bind]
      apply wp_ilock ht
      intro u hu hru _ _ hfree
      have hsu := hs.trans hu
      have htree : Tree u.node := hsu.node_eq ▸ h.tree
      rw [wp_bind, wp_get]
      refine wp_ite (fun _ => ?_) fun _ => ?_
      · rw [wp_bind]
        apply wp_iput hru
        intro v hv hrv
        exact hnone v (hsu.trans hv).proc_eq ⟨hv.node_eq ▸ htree, hrv⟩
      · rw [← hu.node_eq] at hfree
        exact hsome ip u hsu.proc_eq htree hru hfree

/-- The end of the calls that hold one inode. -/
theorem wp_iputReturn {r : ℤ} (htree : Tree s.node) (h : Refs none [i] s) :
    wp Allowed (do iput i; return r) (fun _ t => Inv t) s := by
  rw [wp_bind]
  apply wp_iput h
  intro t ht hrt
  exact ⟨ht.node_eq ▸ htree, hrt⟩

theorem wp_fileclose_new {Q : Unit → State → Prop} (h : Refs last hold s) (hf : f < nfile)
    (hnew : s.file f = ⟨1, none⟩)
    (hQ : ∀ t, t.node = s.node → Refs last hold t → Q () t) : wp Allowed (fileclose f) Q s := by
  unfold fileclose
  rw [wp_bind, wp_get]
  simp only [hnew, Nat.lt_irrefl, if_false, Nat.sub_self, gt_iff_lt, wp_bind, wp_setFile]
  refine hQ _ ?_ (h.setCount hf (by rw [hnew]) (.inr rfl))
  rfl

/-- A new file has no inode yet. -/
theorem wp_filealloc {Q : Option ℕ → State → Prop} (h : Refs none hold s) (hnone : Q none s)
    (hsome : ∀ f t, f < nfile → t.node = s.node → t.proc = s.proc → t.file f = ⟨1, none⟩ →
      Refs none hold t → Q (some f) t) : wp Allowed filealloc Q s := by
  unfold filealloc
  rw [wp_bind, wp_get]
  split
  case h_1 f hfind =>
    have hlt : f < nfile := List.mem_range.mp (List.mem_of_find?_eq_some hfind)
    have hzero : (s.file f).ref = 0 := by simpa using List.find?_some hfind
    have hip := h.files f hzero
    simp only [wp_bind, wp_setFile]
    refine hsome f _ hlt rfl rfl (by simp [hip]) ?_
    exact h.setCount hlt rfl (.inl Nat.one_pos)
  case h_2 => exact hnone

theorem wp_sysOpen {omode : UInt32} {room : ℕ → Bool} (h : Inv s) (hp : s.proc p = some q)
    (hsafe : omode &&& oCreate ≠ 0 → ∀ dp name,
      walk s.node true (start q.cwd path) path [] = some (dp, name) → 0 < (s.node dp).nlink) :
    wp Allowed (sysOpen p q path omode room) (fun _ t => Inv t) s := by
  unfold sysOpen
  rw [wp_bind]
  apply wp_openInode h (h.table.holders_cwd hp) hsafe
  · exact fun t _ ht => ht
  · intro ip t hproc htree ht hfree
    rw [wp_bind, wp_get]
    refine wp_ite (fun _ => wp_iputReturn htree ht) fun _ => ?_
    rw [wp_bind]
    apply wp_filealloc ht (wp_iputReturn htree ht)
    intro f u hf hnode hpu hfile hu
    have hpu' : u.proc p = some q := by rw [hpu, hproc, hp]
    have htreeu : Tree u.node := by rwa [hnode]
    rw [wp_bind]
    apply wp_fdalloc hu hpu'
    · rw [wp_bind]
      apply wp_fileclose_new hu hf hfile
      exact fun v hv hrv => wp_iputReturn (by rwa [hv]) hrv
    · intro fd v hnv hfv hv
      rw [← hnode, ← hnv] at hfree
      rw [← hfv] at hfile
      simp only [wp_bind, wp_get, wp_setFile]
      refine ⟨by rwa [← hnv] at htreeu, ?_⟩
      refine hv.move rfl rfl rfl ?_ rfl (by simpa using hfree)
        (files_update hv (.inl (by simp [hfile]))) (fileBound_update hv hf) hv.procBound
      intro j
      have heq := holders_setFile (s := v) (i := j) (x := ⟨1, some ip⟩) hf
      rw [hfile, fileWeight_none rfl, fileWeight_some rfl] at heq
      simpa [hfile] using heq

/-- `sys_mkdir` and `sys_mknod` drop the inode that they have made. -/
theorem wp_createReturn {type : FileType} {major minor : ℤ} {room : ℕ → Bool} (h : Inv s)
    (hcwd : 0 < holders s q.cwd)
    (hsafe : ∀ dp name, walk s.node true (start q.cwd path) path [] = some (dp, name) →
      0 < (s.node dp).nlink) (htype : type ≠ .free) :
    wp Allowed (create q.cwd path type major minor room >>= fun
      | none => pure (-1)
      | some ip => iput ip >>= fun _ => pure (0 : ℤ)) (fun _ t => Inv t) s := by
  rw [wp_bind]
  apply wp_create h.table h.tree (h.table.ref_pos hcwd) hsafe htype
  · exact fun t _ _ htree ht => ⟨htree, ht⟩
  · exact fun ip t _ _ htree ht _ => wp_iputReturn htree ht

end CS352.Directories
