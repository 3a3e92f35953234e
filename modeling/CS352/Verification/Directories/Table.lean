import CS352.Library.WeakestPre
import CS352.Verification.Directories.Tree

/-! # The inode table

References to inodes come from working directories, from open files, and from the call that
is running. -/

namespace CS352.Directories

open Blocks (FileType)
open Tally WeakestPre Function

/-- Every panic but the one of `unlink`. -/
def Allowed (e : Panic) : Prop := e ≠ .unlinkNlink

def cwdWeight (i : ℕ) (q : Option Proc) : ℕ := if q.map Proc.cwd = some i then 1 else 0

def fileWeight (i : ℕ) (f : File) : ℕ := if f.ip = some i then 1 else 0

/-- The processes in directory `i` and the open files with inode `i`. -/
def holders (s : State) (i : ℕ) : ℕ :=
  tally (Finset.range nproc) (cwdWeight i) s.proc + tally (Finset.range nfile) (fileWeight i) s.file

/-- The reference counts, while a call has the references in `hold`. An inode without links
stays referenced by others, except for the inode `last`. -/
structure Refs (last : Option ℕ) (hold : List ℕ) (s : State) : Prop where
  refs : ∀ i, s.ref i = holders s i + hold.count i
  kept : ∀ i, (s.node i).type ≠ .free → (s.node i).nlink = 0 →
    s.valid i = true ∧ (0 < holders s i ∨ last = some i)
  lastHeld : ∀ i, last = some i → i ∈ hold
  typed : ∀ i, 0 < s.ref i → s.valid i = true → (s.node i).type ≠ .free
  allocated : ∀ i, 0 < holders s i → (s.node i).type ≠ .free
  files : ∀ f, (s.file f).ref = 0 → (s.file f).ip = none
  fileBound : ∀ f, 0 < (s.file f).ref → f < nfile
  procBound : ∀ p, (s.proc p).isSome → p < nproc

/-- The states differ in the inode table only. -/
structure Same (s t : State) : Prop where
  node_eq : t.node = s.node
  file_eq : t.file = s.file
  proc_eq : t.proc = s.proc

variable {s t : State} {last : Option ℕ} {hold : List ℕ} {i j k dp : ℕ} {name : Name}

theorem Same.refl (s : State) : Same s s := ⟨rfl, rfl, rfl⟩

theorem Same.trans {u : State} (h : Same s t) (h' : Same t u) : Same s u :=
  ⟨h'.node_eq.trans h.node_eq, h'.file_eq.trans h.file_eq, h'.proc_eq.trans h.proc_eq⟩

theorem Same.holders_eq (h : Same s t) : holders t = holders s := by
  funext i
  rw [holders, h.file_eq, h.proc_eq, holders]

/-- A change of the table that keeps an inode without links valid. -/
theorem Refs.table (h : Refs last hold s) {hold' : List ℕ} (hs : Same s t)
    (hrefs : ∀ i, t.ref i = holders s i + hold'.count i)
    (hkept : ∀ i, (s.node i).type ≠ .free → (s.node i).nlink = 0 → t.valid i = true)
    (htyped : ∀ i, 0 < t.ref i → t.valid i = true → (s.node i).type ≠ .free)
    (hlast : ∀ i, last = some i → i ∈ hold') : Refs last hold' t := by
  refine ⟨?_, ?_, hlast, ?_, ?_, ?_, ?_, ?_⟩
  · rw [hs.holders_eq]
    exact hrefs
  · rw [hs.holders_eq, hs.node_eq]
    exact fun i ht hn => ⟨hkept i ht hn, (h.kept i ht hn).2⟩
  · rw [hs.node_eq]
    exact htyped
  · rw [hs.holders_eq, hs.node_eq]
    exact h.allocated
  · rw [hs.file_eq]
    exact h.files
  · rw [hs.file_eq]
    exact h.fileBound
  · rw [hs.proc_eq]
    exact h.procBound

/-! ## Operations on the table -/

theorem wp_setNode {Q : Unit → State → Prop} {x : Node} :
    wp Allowed (setNode i x) Q s ↔ Q () { s with node := update s.node i x } := Iff.rfl

theorem wp_setFile {Q : Unit → State → Prop} {f : ℕ} {x : File} :
    wp Allowed (setFile f x) Q s ↔ Q () { s with file := update s.file f x } := Iff.rfl

theorem wp_setProc {Q : Unit → State → Prop} {p : ℕ} {x : Option Proc} :
    wp Allowed (setProc p x) Q s ↔ Q () { s with proc := update s.proc p x } := Iff.rfl

theorem count_update {r : ℕ → ℕ} {b : ℕ → ℕ} (h : ∀ j, r j = b j + hold.count j) (j : ℕ) :
    update r i (r i + 1) j = b j + (i :: hold).count j := by
  by_cases hj : j = i
  · rw [hj, update_self, h i, List.count_cons_self]
    omega
  · rw [update_of_ne hj, h j, List.count_cons_of_ne (Ne.symm hj)]

theorem wp_idup {Q : Unit → State → Prop} (h : Refs last hold s) (hi : 0 < s.ref i)
    (hQ : ∀ t, Same s t → Refs last (i :: hold) t → Q () t) : wp Allowed (idup i) Q s := by
  apply hQ { s with ref := update s.ref i (s.ref i + 1) } ⟨rfl, rfl, rfl⟩
  refine h.table ⟨rfl, rfl, rfl⟩ (count_update h.refs) ?_ ?_ ?_
  · exact fun j ht hn => (h.kept j ht hn).1
  · intro j hj hv
    refine h.typed j ?_ hv
    by_cases hji : j = i
    · rwa [hji]
    · simpa [update_of_ne hji] using hj
  · exact fun j hj => List.mem_cons_of_mem _ (h.lastHeld j hj)

/-- An inode that is not in the table has no pending removal. -/
theorem Refs.pos_of_unlinked (h : Refs last hold s) (ht : (s.node i).type ≠ .free)
    (hn : (s.node i).nlink = 0) : 0 < s.ref i := by
  rw [h.refs i]
  rcases (h.kept i ht hn).2 with hpos | hlast
  · omega
  · have hpos := List.count_pos_iff.mpr (h.lastHeld i hlast)
    omega

theorem wp_iget {Q : Unit → State → Prop} (h : Refs last hold s)
    (hQ : ∀ t, Same s t → Refs last (i :: hold) t → Q () t) : wp Allowed (iget i) Q s := by
  unfold iget
  rw [wp_bind, wp_get]
  refine wp_ite (fun hpos => ?_) fun hzero => wp_ite (fun _ => ?_) fun _ => ?_
  · exact wp_idup h hpos hQ
  · simp [Allowed]
  · have hnone : s.ref i = 0 := by omega
    apply hQ { s with
      ref := update s.ref i 1, valid := update s.valid i false } ⟨rfl, rfl, rfl⟩
    have hcount := count_update (i := i) h.refs
    rw [hnone] at hcount
    refine h.table ⟨rfl, rfl, rfl⟩ hcount ?_ ?_ ?_
    · intro j ht hn
      have hji : j ≠ i := by
        intro hji
        have hpos := h.pos_of_unlinked ht hn
        rw [hji] at hpos
        omega
      simp only [update_of_ne hji]
      exact (h.kept j ht hn).1
    · intro j hj hv
      by_cases hji : j = i
      · simp [hji] at hv
      · simp only [update_of_ne hji] at hj hv
        exact h.typed j hj hv
    · exact fun j hj => List.mem_cons_of_mem _ (h.lastHeld j hj)

theorem wp_ilock {Q : Unit → State → Prop} (h : Refs last hold s)
    (hQ : ∀ t, Same s t → Refs last hold t → t.ref = s.ref → t.valid i = true →
      (s.node i).type ≠ .free → Q () t) : wp Allowed (ilock i) Q s := by
  unfold ilock
  rw [wp_bind, wp_get]
  refine wp_ite (fun _ => ?_) fun href => wp_ite (fun hvalid => ?_) fun _ =>
    wp_ite (fun _ => ?_) fun htype => ?_
  · simp [Allowed]
  · exact hQ s (Same.refl s) h rfl hvalid (h.typed i (by omega) hvalid)
  · simp [Allowed]
  · apply hQ { s with valid := update s.valid i true } ⟨rfl, rfl, rfl⟩ ?_ rfl
      (update_self ..) htype
    refine h.table ⟨rfl, rfl, rfl⟩ h.refs ?_ ?_ ?_
    · intro j ht hn
      by_cases hji : j = i
      · simp [hji]
      · simp only [update_of_ne hji]
        exact (h.kept j ht hn).1
    · intro j hj hv
      by_cases hji : j = i
      · rwa [hji]
      · simp only [update_of_ne hji] at hv
        exact h.typed j hj hv
    · exact h.lastHeld

/-- The reference is dropped, and the inode stays. -/
theorem wp_iput_keep {Q : Unit → State → Prop}
    (hkeep : ¬ (s.ref i = 1 ∧ s.valid i = true ∧ (s.node i).nlink = 0))
    (hQ : Q () { s with ref := update s.ref i (s.ref i - 1) }) :
    wp Allowed (iput i) Q s := by
  unfold iput
  simp only [wp_bind, wp_get, if_neg hkeep]
  exact hQ

theorem count_update_sub {r b : ℕ → ℕ} (h : ∀ j, r j = b j + (i :: hold).count j) (j : ℕ) :
    update r i (r i - 1) j = b j + hold.count j := by
  by_cases hj : j = i
  · rw [hj, update_self, h i, List.count_cons_self]
    omega
  · rw [update_of_ne hj, h j, List.count_cons_of_ne (Ne.symm hj)]

theorem pos_of_update_sub {r : ℕ → ℕ} (h : 0 < update r i (r i - 1) j) : 0 < r j := by
  by_cases hj : j = i
  · rw [hj, update_self] at h
    rw [hj]
    omega
  · rwa [update_of_ne hj] at h

theorem Refs.drop (h : Refs none (i :: hold) s) :
    Refs none hold { s with ref := update s.ref i (s.ref i - 1) } := by
  refine h.table ⟨rfl, rfl, rfl⟩ (count_update_sub h.refs) ?_ ?_ (by simp)
  · exact fun j ht hn => (h.kept j ht hn).1
  · exact fun j hj hv => h.typed j (pos_of_update_sub hj) hv

/-- A call that puts back a reference frees no inode. -/
theorem wp_iput {Q : Unit → State → Prop} (h : Refs none (i :: hold) s)
    (hQ : ∀ t, Same s t → Refs none hold t → Q () t) : wp Allowed (iput i) Q s := by
  have href := h.refs i
  rw [List.count_cons_self] at href
  apply wp_iput_keep
  · rintro ⟨hone, hvalid, hn⟩
    have htype := h.typed i (by omega) hvalid
    rcases (h.kept i htype hn).2 with hpos | hlast
    · omega
    · cases hlast
  · exact hQ _ ⟨rfl, rfl, rfl⟩ h.drop

/-- The last reference to an inode without links frees it. -/
theorem wp_iput_last {Q : Unit → State → Prop} (h : Refs (some i) (i :: hold) s) (hi : i ∉ hold)
    (htree : Tree s.node)
    (hQ : ∀ t, t.file = s.file → t.proc = s.proc → (∀ j, j ≠ i → t.node j = s.node j) →
      Tree t.node → Refs none hold t → Q () t) :
    wp Allowed (iput i) Q s := by
  have href := h.refs i
  rw [List.count_cons_self, List.count_eq_zero.mpr hi] at href
  by_cases hfree : s.ref i = 1 ∧ s.valid i = true ∧ (s.node i).nlink = 0
  · unfold iput
    simp only [wp_bind, wp_get, if_pos hfree]
    have hzero : holders s i = 0 := by omega
    have hother : ∀ j, j ≠ i → update s.node i (freed (s.node i)) j = s.node j :=
      fun j hj => update_of_ne hj _ _
    have hself : update s.node i (freed (s.node i)) i = freed (s.node i) :=
      update_self ..
    refine hQ { s with
      node := update s.node i (freed (s.node i))
      ref := update s.ref i (s.ref i - 1)
      valid := update s.valid i false } rfl rfl hother
      (htree.release (.inr hfree.2.2) rfl) ?_
    refine ⟨count_update_sub h.refs, ?_, by simp, ?_, ?_, h.files, h.fileBound,
      h.procBound⟩
    · intro j ht hn
      have hji : j ≠ i := by
        intro hji
        simp only [hji, hself] at ht
        exact ht rfl
      simp only [hother j hji] at ht hn
      simp only [update_of_ne hji]
      obtain ⟨hv, hpos | hlast⟩ := h.kept j ht hn
      · exact ⟨hv, .inl hpos⟩
      · exact absurd (Option.some.inj hlast).symm hji
    · intro j hj hv
      have hji : j ≠ i := by
        intro hji
        simp [hji] at hv
      simp only [update_of_ne hji] at hj hv ⊢
      exact h.typed j hj hv
    · intro j hj
      have hji : j ≠ i := by
        intro hji
        rw [hji] at hj
        exact Nat.lt_irrefl _ (hzero ▸ hj)
      simp only [hother j hji]
      exact h.allocated j hj
  · apply wp_iput_keep hfree
    refine hQ _ rfl rfl (fun _ _ => rfl) htree ?_
    refine ⟨count_update_sub h.refs, ?_, by simp, ?_, h.allocated, h.files,
      h.fileBound, h.procBound⟩
    · intro j ht hn
      obtain ⟨hv, hpos | hlast⟩ := h.kept j ht hn
      · exact ⟨hv, .inl hpos⟩
      · have hji : i = j := Option.some.inj hlast
        subst hji
        refine ⟨hv, .inl ?_⟩
        show 0 < holders s i
        by_contra hzero
        exact hfree ⟨by omega, hv, hn⟩
    · exact fun j hj hv => h.typed j (pos_of_update_sub hj) hv

/-! ## Lookup -/

theorem wp_dirlookup {Q : Option (ℕ × ℕ) → State → Prop} (h : Refs last hold s)
    (hnone : (s.node dp).type = .dir → lookup name (s.node dp).entries = none → Q none s)
    (hsome : ∀ r t, (s.node dp).type = .dir → lookup name (s.node dp).entries = some r →
      Same s t → Refs last (r.2 :: hold) t → Q (some r) t) :
    wp Allowed (dirlookup dp name) Q s := by
  unfold dirlookup
  rw [wp_bind, wp_get]
  refine wp_ite (fun _ => ?_) fun htype => ?_
  · simp [Allowed]
  · have htype : (s.node dp).type = .dir := not_not.mp htype
    cases hfind : lookup name (s.node dp).entries with
    | none => exact hnone htype hfind
    | some r =>
      simp only [wp_bind]
      apply wp_iget h
      intro t hs ht
      exact hsome r t htype hfind hs ht

/-- A new entry, unless the name is taken or there is no room. -/
theorem wp_dirlink {Q : Bool → State → Prop} {room : Bool} {inum : ℕ} (h : Refs none hold s)
    (hfail : ∀ t, Same s t → Refs none hold t → Q false t)
    (hlink : (s.node dp).type = .dir → lookup name (s.node dp).entries = none →
      Q true { s with node := update s.node dp (linked (s.node dp) name inum) }) :
    wp Allowed (dirlink room dp name inum) Q s := by
  unfold dirlink
  rw [wp_bind]
  apply wp_dirlookup h
  · intro htype hnone
    simp only [wp_bind, wp_get]
    refine wp_ite (fun _ => ?_) fun _ => ?_
    · exact hfail s (Same.refl s) h
    · exact hlink htype hnone
  · intro r t _ _ hs ht
    simp only [wp_bind]
    apply wp_iput ht
    intro u hu hru
    exact hfail u (hs.trans hu) hru

/-! ## Paths -/

/-- The inode that a path leads to from inode `ip`, or its parent and the last element. -/
def walk (node : ℕ → Node) (parent : Bool) (ip : ℕ) (path : List Char) (name : Name) :
    Option (ℕ × Name) :=
  match h : skipelem path with
  | none => if parent then none else some (ip, name)
  | some (name, rest) =>
    if (node ip).type ≠ .dir then none
    else if parent ∧ rest = [] then some (ip, name)
    else
      match lookup name (node ip).entries with
      | none => none
      | some r => walk node parent r.2 rest name
termination_by path.length
decreasing_by exact skipelem_length h

/-- Where a path starts. -/
def start (cwd : ℕ) (path : List Char) : ℕ := if path.head? = some '/' then rootino else cwd

theorem wp_namexLoop {Q : Option (ℕ × Name) → State → Prop} {parent : Bool} {path : List Char}
    (h : Refs none (i :: hold) s)
    (hQ : ∀ r t, Same s t → Refs none (r.toList.map Prod.fst ++ hold) t →
      r = walk s.node parent i path name →
      (parent = true → ∀ x, r = some x → (s.node x.1).type = .dir) → Q r t) :
    wp Allowed (namexLoop parent i path name) Q s := by
  -- The induction is on the path that is left.
  induction hn : path.length using Nat.strongRecOn generalizing s i path name with
  | ind n ih =>
    rw [namexLoop]
    rw [walk] at hQ
    split
    · rename_i hskip
      split at hQ
      · refine wp_ite (fun hparent => ?_) fun hparent => ?_
        · rw [wp_bind]
          apply wp_iput h
          intro t hs ht
          exact hQ none t hs ht (by simp [hparent]) (by simp)
        · exact hQ (some (i, name)) s (Same.refl s) h (by simp [hparent])
            (fun hp => absurd hp hparent)
      · rename_i hskip'
        rw [hskip] at hskip'
        cases hskip'
    · rename_i name' rest hskip
      split at hQ
      · rename_i hskip'
        rw [hskip] at hskip'
        cases hskip'
      · rename_i name'' rest' hskip'
        rw [hskip] at hskip'
        obtain ⟨rfl, rfl⟩ := Prod.mk.inj (Option.some.inj hskip')
        rw [wp_bind]
        apply wp_ilock h
        intro t hs ht _ _ _
        rw [wp_bind, wp_get]
        refine wp_ite (fun hdir => ?_) fun hdir => wp_ite (fun hlast => ?_) fun hlast => ?_
        · rw [wp_bind]
          apply wp_iput ht
          intro u hu hru
          rw [hs.node_eq] at hdir
          exact hQ none u (hs.trans hu) hru (by simp [hdir]) (by simp)
        · rw [hs.node_eq] at hdir
          refine hQ (some (i, name')) t hs ht (by simp [hdir, hlast]) ?_
          intro _ x hx
          rw [← Option.some.inj hx]
          exact not_not.mp hdir
        · rw [wp_bind]
          rw [hs.node_eq] at hdir
          apply wp_dirlookup ht
          · intro _ hnone
            rw [hs.node_eq] at hnone
            simp only [wp_bind]
            apply wp_iput ht
            intro u hu hru
            refine hQ none u (hs.trans hu) hru ?_ (by simp)
            rw [if_neg hdir, if_neg hlast, hnone]
          · intro r u _ hsome hu hru
            rw [hs.node_eq] at hsome
            have hsu := hs.trans hu
            have hswap : Refs none (i :: r.2 :: hold) u := by
              apply hru.table (Same.refl u) ?_ (fun j ht hn => (hru.kept j ht hn).1) hru.typed
                (fun j hj => by cases hj)
              intro j
              rw [hru.refs j, (List.Perm.swap i r.2 hold).count_eq j]
            simp only [wp_bind]
            apply wp_iput hswap
            intro v hv hrv
            have hsv := hsu.trans hv
            apply ih rest.length (hn ▸ skipelem_length hskip) hrv ?_ rfl
            intro r' w hw hrw heq hpar
            rw [hsv.node_eq] at heq hpar
            refine hQ r' w (hsv.trans hw) hrw ?_ hpar
            rw [if_neg hdir, if_neg hlast, hsome]
            exact heq

end CS352.Directories
