import CS352.Library.Transition
import CS352.Verification.Directories.Files

/-! # Link counts and reachability

What holds in every run from the image that `mkfs` builds. -/

namespace CS352.Directories

open Blocks (FileType)
open Tally Transition WeakestPre

variable {s t : State} {i j p : ℕ} {q : Proc} {path : List Char} {files : List Name}

/-! ## Calls -/

/-- The directory of the last element of the path has not been removed. -/
def ParentLinked (s : State) (cwd : ℕ) (path : List Char) : Prop :=
  ∀ r ∈ walk s.node true (start cwd path) path [], 0 < (s.node r.1).nlink

instance (s : State) (cwd : ℕ) (path : List Char) : Decidable (ParentLinked s cwd path) :=
  inferInstanceAs (Decidable (∀ _ ∈ _, _))

/-- Entries are made only in directories that have not been removed, and no link count
leaves the range of a `short`. -/
def SafeCall (s : State) (q : Proc) : Call → Prop
  | .openFile path omode _ => omode &&& oCreate ≠ 0 → ParentLinked s q.cwd path
  | .mkdir path _ => ParentLinked s q.cwd path
  | .mknod path _ _ _ => ParentLinked s q.cwd path
  | .link old new _ => ParentLinked s q.cwd new ∧
      ∀ r ∈ walk s.node false (start q.cwd old) old [], (s.node r.1).nlink < 2 ^ 15 - 1
  | _ => True

instance (s : State) (q : Proc) (c : Call) : Decidable (SafeCall s q c) := by
  cases c <;> unfold SafeCall <;> infer_instance

def Safe (s : State) (a : ℕ × Call) : Prop := ∀ q ∈ s.proc a.1, SafeCall s q a.2

instance (s : State) (a : ℕ × Call) : Decidable (Safe s a) :=
  inferInstanceAs (Decidable (∀ _ ∈ _, _))

theorem ParentLinked.nlink_pos {cwd dp : ℕ} {name : Name} (h : ParentLinked s cwd path)
    (hwalk : walk s.node true (start cwd path) path [] = some (dp, name)) :
    0 < (s.node dp).nlink := h (dp, name) hwalk

/-- One call keeps the invariant, and does not panic on a link count. -/
theorem wp_syscall {c : Call} (h : Inv s) (hp : s.proc p = some q) (hsafe : SafeCall s q c)
    (hslot : slotFree s c = true) : wp Allowed (syscall p q c) (fun _ t => Inv t) s := by
  have hcwd := h.table.holders_cwd hp
  cases c with
  | openFile path omode room => exact wp_sysOpen h hp fun hc _ _ => (hsafe hc).nlink_pos
  | mkdir | mknod =>
    exact wp_createReturn h hcwd (fun _ _ => ParentLinked.nlink_pos hsafe) (by simp)
  | link old new room =>
    apply wp_sysLink h hcwd (fun _ _ => hsafe.1.nlink_pos)
    intro ip hip
    obtain ⟨r, hr, rfl⟩ := Option.map_eq_some_iff.mp hip
    exact hsafe.2 r hr
  | unlink path => exact wp_sysUnlink h hcwd
  | chdir path => exact wp_sysChdir h hp
  | close fd => exact wp_sysClose h hp
  | dup fd => exact wp_sysDup h hp
  | fork child =>
    have hfree : child < nproc ∧ s.proc child = none := by simpa [slotFree] using hslot
    exact wp_fork h hp hfree.1 hfree.2
  | exit => exact wp_exit h hp

theorem dirStep_inv {a : ℕ × Call} (h : Inv s) (hsafe : Safe s a) (hstep : dirStep s a = some t) :
    Inv t := by
  unfold dirStep at hstep
  split at hstep
  case h_1 q hq =>
    obtain ⟨hslot, hstep⟩ := Option.ite_none_right_eq_some.mp hstep
    obtain ⟨r, hr, rfl⟩ := Option.map_eq_some_iff.mp hstep
    have hok : syscall a.1 q a.2 s = .ok r := by
      cases hcall : syscall a.1 q a.2 s with
      | error e => simp [hcall, Except.toOption] at hr
      | ok r' => simpa [hcall, Except.toOption] using hr
    exact wp_of_ok (wp_syscall h hq (hsafe q hq) hslot) hok
  case h_2 => cases hstep

/-! ## The image -/

/-- The files given to `mkfs` get the first inodes, and none is called `.` or `..`. -/
structure ImageFiles (files : List Name) : Prop where
  fits : files.length + 2 ≤ ninodes
  names : ∀ name ∈ files, name.take dirsiz ≠ dot ∧ name.take dirsiz ≠ dotdot

theorem imageNode_root : imageNode files rootino =
    { type := .dir, major := 0, minor := 0, nlink := 1, entries := imageEntries files } :=
  if_pos rfl

theorem parent_image : parent (imageNode files rootino) = rootino := by
  rw [imageNode_root]
  rfl

theorem live_imageNode : Live (imageNode files i) ↔ i = rootino := by
  unfold imageNode imageFile Live
  by_cases hi : i = rootino
  · simp [hi]
  · rw [if_neg hi]
    split <;> simp [hi]

theorem imageNode_nlink (h : (imageNode files i).type ≠ .free) : (imageNode files i).nlink = 1 := by
  unfold imageNode at *
  by_cases hi : i = rootino
  · simp [hi]
  · rw [if_neg hi] at h ⊢
    by_cases hfile : 2 ≤ i ∧ i < files.length + 2
    · rw [if_pos hfile]
      rfl
    · rw [if_neg hfile] at h
      exact absurd rfl h

theorem imageNode_type : (imageNode files i).type ≠ .free ↔
    i = rootino ∨ 2 ≤ i ∧ i < files.length + 2 := by
  unfold imageNode imageFile
  by_cases hi : i = rootino
  · simp [hi]
  · rw [if_neg hi]
    split <;> simp [*]

/-- The entries that `mkfs` writes for the files. -/
def fileEntries (files : List Name) : List Dirent :=
  files.zipIdx.map fun f => ⟨f.2 + 2, f.1.take dirsiz⟩

theorem below_image (files : List Name) : ∃ n, below (imageNode files rootino) =
    fileEntries files ++ List.replicate n ⟨0, []⟩ := by
  rw [imageNode_root]
  exact ⟨_, rfl⟩

theorem inum_fileEntries :
    (fileEntries files).map Dirent.inum = List.range' 2 files.length := by
  have hsnd := congrArg (List.map (2 + ·)) (List.zipIdx_map_snd 0 files)
  rw [List.map_map, List.map_add_range'] at hsnd
  unfold fileEntries
  rw [List.map_map, ← Nat.add_zero 2, ← hsnd]
  apply List.map_congr_left
  intro f _
  exact Nat.add_comm f.2 2

/-- Every file has one entry in the root directory. -/
theorem proper_image (hi : i ≠ 0) : proper i (imageNode files rootino) =
    if 2 ≤ i ∧ i < files.length + 2 then 1 else 0 := by
  obtain ⟨n, hbelow⟩ := below_image files
  have hcount : (fileEntries files).countP (fun e => e.inum = i) =
      (List.range' 2 files.length).count i := by
    rw [← inum_fileEntries, List.count, List.countP_map]
    rfl
  have hempty : (List.replicate n (⟨0, []⟩ : Dirent)).countP (fun e => e.inum = i) = 0 := by
    simp [List.countP_eq_zero, hi.symm]
  unfold proper
  rw [if_pos (live_imageNode.mpr rfl), hbelow, List.countP_append, hcount, hempty,
    List.Nodup.count List.nodup_range', Nat.add_zero]
  apply if_congr _ rfl rfl
  rw [List.mem_range'_1]
  omega

theorem tally_image {w : Node → ℕ} (hw : ∀ x, ¬ Live x → w x = 0) :
    tally (Finset.range ninodes) w (imageNode files) = w (imageNode files rootino) := by
  apply tally_single (Finset.mem_range.mpr (by decide))
  intro d _ hd
  exact hw _ (mt live_imageNode.mp hd)

theorem mem_below_image {e : Dirent} (he : e ∈ below (imageNode files rootino)) (hne : e.inum ≠ 0) :
    (2 ≤ e.inum ∧ e.inum < files.length + 2) ∧ ∃ name ∈ files, e.name = name.take dirsiz := by
  obtain ⟨n, hbelow⟩ := below_image files
  rw [hbelow] at he
  rcases List.mem_append.mp he with he | he
  · refine ⟨?_, ?_⟩
    · have hnum := List.mem_map_of_mem (f := Dirent.inum) he
      rw [inum_fileEntries, List.mem_range'_1] at hnum
      omega
    · obtain ⟨f, hf, rfl⟩ := List.mem_map.mp he
      exact ⟨f.1, List.fst_mem_of_mem_zipIdx hf, rfl⟩
  · rw [List.eq_of_mem_replicate he] at hne
    exact absurd rfl hne

theorem shape_image (h : ImageFiles files) : Shape rootino (imageNode files rootino) := by
  refine ⟨?_, ?_, ?_⟩
  · rw [imageNode_root]
    rfl
  · rw [parent_image]
    exact Nat.one_ne_zero
  · intro e he hne
    obtain ⟨-, name, hmem, heq⟩ := mem_below_image he hne
    rw [heq]
    exact h.names name hmem

theorem links_image (h : ImageFiles files) (hi : i ≠ 0) : links (imageNode files) i =
    if (imageNode files i).type ≠ .free then 1 else 0 := by
  have hup : upward i (imageNode files rootino) = if i = rootino then 1 else 0 := by
    simp [upward, live_imageNode, parent_image, eq_comm]
  unfold links
  rw [tally_image fun _ => naming_of_not_live, naming_eq (shape_image h) hi, proper_image hi, hup]
  simp only [imageNode_type]
  by_cases hroot : i = rootino
  · simp [hroot, rootino]
  · simp [hroot]

theorem imageNode_dir : (imageNode files i).type = .dir ↔ i = rootino := by
  refine ⟨?_, ?_⟩
  · intro hdir
    have hone := imageNode_nlink (hdir ▸ by simp : (imageNode files i).type ≠ .free)
    exact live_imageNode.mp ⟨hdir, by omega⟩
  · intro hi
    exact (live_imageNode.mpr hi).1

theorem tree_image (h : ImageFiles files) : Tree (imageNode files) where
  bounded := by
    intro i hi
    have hfits := h.fits
    rcases imageNode_type.mp hi with rfl | hfile
    · decide
    · omega
  shape := by
    intro d hd
    rw [imageNode_dir.mp hd]
    exact shape_image h
  removed := by
    intro d hd hzero
    rw [imageNode_nlink (by simp [hd])] at hzero
    cases hzero
  nlink_eq := by
    intro i hi
    have hne : i ≠ 0 := by
      rcases imageNode_type.mp hi with rfl | hfile
      · decide
      · omega
    rw [imageNode_nlink hi, links_image h hne, if_pos hi]
    rfl
  nlink_lt := by
    intro i hi
    rw [imageNode_nlink hi]
    decide
  unnamed := by
    intro i hi hfree
    rw [links_image h hi]
    simp [hfree]
  inParent := by
    intro d hd e he hne hdir
    rw [live_imageNode.mp hd] at he
    have hfile := (mem_below_image he hne).1
    rw [imageNode_dir.mp hdir] at hfile
    exact absurd hfile.1 (by decide)
  single := by
    intro i hi _
    have hzero : ∀ x, ¬ Live x → proper i x = 0 := fun x hx => if_neg hx
    rw [tally_image hzero, proper_image hi]
    split <;> decide
  root := ⟨live_imageNode.mpr rfl, parent_image⟩
  reach := by
    intro d hd
    rw [live_imageNode.mp hd]
    exact .root

theorem holders_boot : holders (boot files) i = if i = rootino then 1 else 0 := by
  have hproc : tally (Finset.range nproc) (cwdWeight i) (boot files).proc =
      cwdWeight i ((boot files).proc 0) := by
    apply tally_single (Finset.mem_range.mpr (by decide))
    intro p _ hp
    simp [boot, hp, cwdWeight]
  have hfile : tally (Finset.range nfile) (fileWeight i) (boot files).file = 0 :=
    tally_eq_zero fun _ _ => fileWeight_none rfl
  unfold holders
  rw [hproc, hfile]
  simp [boot, cwdWeight, eq_comm]

theorem boot_inv (h : ImageFiles files) : Inv (boot files) where
  tree := tree_image h
  table := by
    refine ⟨?_, ?_, ?_, ?_, ?_, ?_, ?_, ?_⟩
    · intro i
      rw [holders_boot]
      rfl
    · intro i ht hn
      rw [show ((boot files).node i).nlink = 1 from imageNode_nlink ht] at hn
      cases hn
    · intro i hi
      cases hi
    · intro i _ hv
      cases hv
    · intro i hi
      rw [holders_boot] at hi
      have hroot : i = rootino := by
        by_contra hne
        simp [hne] at hi
      rw [hroot]
      exact imageNode_type.mpr (.inl rfl)
    · exact fun _ _ => rfl
    · intro f hf
      exact absurd hf (Nat.lt_irrefl 0)
    · intro p hp
      have hzero : p = 0 := by
        by_contra hne
        simp [boot, hne] at hp
      rw [hzero]
      decide

/-! ## Runs -/

theorem reachWhere_inv (hfiles : ImageFiles files) (h : ReachWhere dirStep Safe (boot files) s) :
    Inv s :=
  h.invariant (boot_inv hfiles) fun _ _ _ hinv hsafe hstep => dirStep_inv hinv hsafe hstep

/-- The link counts are right, and the inodes that are not in use are reachable. -/
structure LinksOk (s : State) : Prop where
  nlink_eq : ∀ i, (s.node i).type ≠ .free → (s.node i).nlink = links s.node i
  unreferenced : ∀ i, (s.node i).type ≠ .free → s.ref i = 0 →
    1 ≤ (s.node i).nlink ∧ Reachable s.node i

theorem Inv.linksOk (h : Inv s) : LinksOk s := by
  refine ⟨h.tree.nlink_eq, ?_⟩
  intro i hi href
  have hnonneg := h.tree.nlink_nonneg hi
  have hne : (s.node i).nlink ≠ 0 := by
    intro hzero
    obtain ⟨-, hpos | hlast⟩ := h.table.kept i hi hzero
    · have hrefs := h.table.refs i
      omega
    · cases hlast
  have hpos : 0 < (s.node i).nlink := by omega
  exact ⟨hpos, h.tree.reachable hi hpos⟩

/-- In a run that makes no entry in a removed directory, and no more than 32767 links to one
inode, the link counts are right in every state and `unlink` does not panic. -/
theorem reachWhere_links (hfiles : ImageFiles files)
    (h : ReachWhere dirStep Safe (boot files) s) :
    LinksOk s ∧ ∀ p q path, s.proc p = some q → sysUnlink q path s ≠ .error .unlinkNlink := by
  have hinv := reachWhere_inv hfiles h
  refine ⟨hinv.linksOk, ?_⟩
  intro p q path hp herror
  exact wp_of_error (wp_sysUnlink hinv (hinv.table.holders_cwd hp)) herror rfl

/-- A file is made in a new directory, and removed while it is open. -/
def openRun : List (ℕ × Call) :=
  [(0, .mkdir ['d'] fun _ => true), (0, .openFile ['d', '/', 'x'] oCreate fun _ => true),
    (0, .link ['d', '/', 'x'] ['y'] true), (0, .unlink ['d', '/', 'x'])]

theorem reachWhere_links_openRun : ∃ s, ReachWhere dirStep Safe (boot [['l', 's']]) s ∧
    ((s.node 4).nlink = 1 ∧ s.ref 4 = 1) ∧ LinksOk s ∧
    ∀ p q path, s.proc p = some q → sysUnlink q path s ≠ .error .unlinkNlink := by
  have hrun : (exec (fun s a => if Safe s a then dirStep s a else none) (boot [['l', 's']])
      openRun).map (fun s => ((s.node 4).nlink, s.ref 4)) = some (1, 1) := by decide +kernel
  obtain ⟨s, hs, hview⟩ := Option.map_eq_some_iff.mp hrun
  have hreach := reachWhere_of_exec hs
  have hfiles : ImageFiles [['l', 's']] := ⟨by decide, by decide⟩
  exact ⟨s, hreach, Prod.mk.inj hview, reachWhere_links hfiles hreach⟩

/-- The first process makes a file in its working directory after the directory has been
removed, and leaves. -/
def removedRun : List (ℕ × Call) :=
  [(0, .mkdir ['d'] fun _ => true), (0, .chdir ['d']), (0, .unlink ['.', '.', '/', 'd']),
    (0, .openFile ['x'] oCreate fun _ => true), (0, .close 0), (0, .chdir ['/'])]

/-- The file keeps one link, but no directory names it. -/
theorem reach_removedRun : ∃ s, Reach dirStep (boot []) s ∧
    ((s.node 3).type = .file ∧ s.ref 3 = 0 ∧ (s.node 3).nlink = 1 ∧ links s.node 3 = 0) ∧
    ¬ LinksOk s := by
  have hrun : (exec dirStep (boot []) removedRun).map (fun s =>
      ((s.node 3).type, s.ref 3, (s.node 3).nlink, links s.node 3)) =
      some (.file, 0, 1, 0) := by decide +kernel
  obtain ⟨s, hs, hview⟩ := Option.map_eq_some_iff.mp hrun
  obtain ⟨htype, href, hnlink, hlinks⟩ : (s.node 3).type = .file ∧ s.ref 3 = 0 ∧
      (s.node 3).nlink = 1 ∧ links s.node 3 = 0 := by simpa using hview
  refine ⟨s, reach_of_exec hs, ⟨htype, href, hnlink, hlinks⟩, ?_⟩
  intro hok
  have heq := hok.nlink_eq 3 (by simp [htype])
  rw [hnlink, hlinks] at heq
  cases heq

end CS352.Directories
