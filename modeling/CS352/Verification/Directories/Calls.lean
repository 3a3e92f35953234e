import CS352.Verification.Directories.Table
import Mathlib.Data.Int.Order.Lemmas

/-! # The calls keep the tree -/

namespace CS352.Directories

open Blocks (FileType)
open Tally WeakestPre Function

variable {s t u : State} {last : Option ℕ} {hold : List ℕ} {i j k dp cwd p : ℕ} {name : Name}
  {q : Proc} {path : List Char} {type : FileType}

theorem wp_namex {Q : Option (ℕ × Name) → State → Prop} {parent : Bool} (h : Refs none hold s)
    (hcwd : 0 < s.ref cwd)
    (hQ : ∀ r t, Same s t → Refs none (r.toList.map Prod.fst ++ hold) t →
      r = walk s.node parent (start cwd path) path [] →
      (parent = true → ∀ x, r = some x → (s.node x.1).type = .dir) → Q r t) :
    wp Allowed (namex cwd parent path) Q s := by
  unfold namex
  unfold start at hQ
  refine wp_ite (fun hroot => ?_) fun hroot => ?_
  · rw [if_pos hroot] at hQ
    rw [wp_bind]
    apply wp_iget h
    intro t hs ht
    apply wp_namexLoop ht
    intro r u hu hru hr hdir
    rw [hs.node_eq] at hr hdir
    exact hQ r u (hs.trans hu) hru hr hdir
  · rw [if_neg hroot] at hQ
    rw [wp_bind]
    apply wp_idup h hcwd
    intro t hs ht
    apply wp_namexLoop ht
    intro r u hu hru hr hdir
    rw [hs.node_eq] at hr hdir
    exact hQ r u (hs.trans hu) hru hr hdir

theorem wp_namei {Q : Option ℕ → State → Prop} (h : Refs none hold s) (hcwd : 0 < s.ref cwd)
    (hnone : ∀ t, Same s t → Refs none hold t → Q none t)
    (hsome : ∀ ip t, Same s t → Refs none (ip :: hold) t →
      (walk s.node false (start cwd path) path []).map Prod.fst = some ip → Q (some ip) t) :
    wp Allowed (namei cwd path) Q s := by
  unfold namei
  rw [wp_bind]
  apply wp_namex h hcwd
  intro r t hs ht hr _
  cases r with
  | none => exact hnone t hs ht
  | some x => exact hsome x.1 t hs ht (by rw [← hr]; rfl)

theorem wp_nameiparent {Q : Option (ℕ × Name) → State → Prop} (h : Refs none hold s)
    (hcwd : 0 < s.ref cwd) (hnone : ∀ t, Same s t → Refs none hold t → Q none t)
    (hsome : ∀ dp name t, Same s t → Refs none (dp :: hold) t → (s.node dp).type = .dir →
      walk s.node true (start cwd path) path [] = some (dp, name) → Q (some (dp, name)) t) :
    wp Allowed (nameiparent cwd path) Q s := by
  unfold nameiparent
  apply wp_namex h hcwd
  intro r t hs ht hr hdir
  cases r with
  | none => exact hnone t hs ht
  | some x => exact hsome x.1 x.2 t hs ht (hdir rfl x rfl) hr.symm

theorem Refs.perm {hold' : List ℕ} (h : Refs none hold s) (hp : hold'.Perm hold) :
    Refs none hold' s := by
  refine h.table (Same.refl s) ?_ (fun j ht hn => (h.kept j ht hn).1) h.typed (by simp)
  intro j
  rw [h.refs j, hp.count_eq j]

theorem short_eq {x : ℤ} (hlow : -2 ^ 15 ≤ x) (hhigh : x < 2 ^ 15) : short x = x := by
  unfold short
  exact Int.bmod_eq_of_le (by omega) (by omega)

/-! ## Creating an inode -/

/-- The state after `create` has taken the free inode `i`. -/
def taken (s : State) (i : ℕ) (x : Node) : State :=
  { s with
    node := update s.node i x
    ref := update s.ref i 1
    valid := update s.valid i true }

theorem taken_setNode {x y : Node} :
    { taken s i x with node := update (taken s i x).node i y } = taken s i y := by
  simp [taken]

theorem wp_setNode_taken {Q : Unit → State → Prop} {x y : Node} :
    wp Allowed (setNode i y) Q (taken s i x) ↔ Q () (taken s i y) := by
  rw [wp_setNode, taken_setNode]

theorem taken_node_self {x : Node} : (taken s i x).node i = x := update_self ..

theorem taken_node_ne {x : Node} (h : j ≠ i) : (taken s i x).node j = s.node j :=
  update_of_ne h _ _

/-- `dirlink` with a name that is not taken. -/
theorem wp_dirlink_new {Q : Bool → State → Prop} {room : Bool} {inum : ℕ}
    (htype : (s.node dp).type = .dir) (hnone : lookup name (s.node dp).entries = none)
    (hfail : Q false s)
    (hlink : Q true { s with node := update s.node dp (linked (s.node dp) name inum) }) :
    wp Allowed (dirlink room dp name inum) Q s := by
  have hdir : ¬ (s.node dp).type ≠ .dir := not_not.mpr htype
  unfold dirlink dirlookup
  simp only [wp_bind, wp_get, if_neg hdir, hnone, wp_pure]
  exact wp_ite (fun _ => hfail) fun _ => hlink

/-- The state after `create` has entered the new inode in directory `dp`. -/
def entered (s : State) (i dp : ℕ) (x y : Node) : State :=
  { s with
    node := change s.node i dp x y
    ref := update s.ref i 1
    valid := update s.valid i true }

theorem entered_node_dp {x y : Node} : (entered s i dp x y).node dp = y := change_dp

theorem wp_setNode_entered {Q : Unit → State → Prop} {x y z : Node} :
    wp Allowed (setNode dp z) Q (entered s i dp x y) ↔ Q () (entered s i dp x z) := by
  rw [wp_setNode]
  simp [entered, change]

/-- The entries that `create` writes in the new inode and in its directory. -/
theorem wp_createEntries {Q : Bool → State → Prop} {room : ℕ → Bool} {x : Node}
    (hx : x.type = type) (hempty : x.entries = []) (hi : i ≠ 0) (hne : dp ≠ i)
    (hdir : (s.node dp).type = .dir) (hname : lookup name (s.node dp).entries = none)
    (hfail : ∀ y, y.type = type → Q false (taken s i y))
    (hlink : Q true (entered s i dp { x with entries := newEntries type i dp }
      (linked (s.node dp) name i))) :
    wp Allowed (createEntries room dp i name type) Q (taken s i x) := by
  have hlast : ∀ y : Node, y.type = type → y = { x with entries := newEntries type i dp } →
      wp Allowed (dirlink (room 2) dp name i) Q (taken s i y) := by
    intro y hy heq
    apply wp_dirlink_new
    · rw [taken_node_ne hne]
      exact hdir
    · rw [taken_node_ne hne]
      exact hname
    · exact hfail y hy
    · rw [taken_node_ne hne, heq]
      exact hlink
  unfold createEntries
  rw [wp_bind]
  by_cases htype : type = .dir
  · rw [if_pos htype]
    unfold createDots
    rw [wp_bind]
    apply wp_dirlink_new
    · rw [taken_node_self, hx, htype]
    · rw [taken_node_self, hempty]
      rfl
    · exact hfail x hx
    · rw [taken_setNode, taken_node_self]
      apply wp_dirlink_new
      · rw [taken_node_self]
        exact hx.trans htype
      · rw [taken_node_self]
        simp [linked, hempty, writeEntry, lookup, dot, dotdot]
      · exact hfail _ hx
      · rw [taken_setNode]
        refine hlast _ ?_ ?_
        · rw [taken_node_self]
          exact hx
        · rw [taken_node_self]
          simp [linked, newEntries, htype, hempty, writeEntry, List.findIdx_cons, hi]
  · rw [if_neg htype]
    apply hlast x hx
    simp [newEntries, htype, ← hempty]

/-- Nothing refers to a free inode. -/
theorem Refs.ref_free (h : Refs none hold s) (hi : (s.node i).type = .free) (hmem : i ∉ hold) :
    s.ref i = 0 := by
  have hzero : holders s i = 0 := by
    by_contra hpos
    exact h.allocated i (Nat.pos_of_ne_zero hpos) hi
  rw [h.refs i, hzero, List.count_eq_zero.mpr hmem]

/-- A free inode is taken, and another inode that is in use changes. -/
theorem Refs.take (h : Refs none hold s) (hi : (s.node i).type = .free) (hmem : i ∉ hold)
    {x y : Node} (hne : dp ≠ i) (hx : x.type ≠ .free) (hxn : x.nlink ≠ 0) (hy : y.type ≠ .free)
    (hyn : y.nlink ≠ 0) : Refs none (i :: hold) (entered s i dp x y) := by
  have hcount := count_update (i := i) h.refs
  rw [h.ref_free hi hmem] at hcount
  have hcases : ∀ j, (change s.node i dp x y j).type ≠ .free ∧
      (change s.node i dp x y j).nlink ≠ 0 ∨ j ≠ i ∧ change s.node i dp x y j = s.node j := by
    intro j
    by_cases hjd : j = dp
    · rw [hjd, change_dp]
      exact .inl ⟨hy, hyn⟩
    · by_cases hji : j = i
      · rw [hji, change_i hne]
        exact .inl ⟨hx, hxn⟩
      · exact .inr ⟨hji, change_of_ne hjd hji⟩
  refine ⟨hcount, ?_, by simp, ?_, ?_, h.files, h.fileBound, h.procBound⟩
  · intro j ht hn
    rcases hcases j with hj | ⟨hji, heq⟩
    · exact absurd hn hj.2
    · simp only [entered, heq] at ht hn
      simp only [entered, update_of_ne hji]
      exact h.kept j ht hn
  · intro j hj hv
    rcases hcases j with hj | ⟨hji, heq⟩
    · exact hj.1
    · simp only [entered, update_of_ne hji] at hj hv
      simp only [entered, heq]
      exact h.typed j hj hv
  · intro j hj
    rcases hcases j with hj | ⟨hji, heq⟩
    · exact hj.1
    · simp only [entered, heq]
      exact h.allocated j hj

/-- An inode that was taken is given back. -/
theorem Refs.giveBack (h : Refs none hold s) (hi : (s.node i).type = .free) {x : Node}
    (hx : x.type = .free) (hnode : t.node = update s.node i x)
    (href : t.ref = s.ref) (hvalid : t.valid = update s.valid i false)
    (hfile : t.file = s.file) (hproc : t.proc = s.proc) : Refs none hold t := by
  have hholders : holders t = holders s := by
    funext j
    rw [holders, hfile, hproc, holders]
  have hother : ∀ j, (t.node j).type ≠ .free → j ≠ i ∧ t.node j = s.node j := by
    intro j hj
    have hji : j ≠ i := by
      intro hji
      rw [hnode, hji, update_self] at hj
      exact hj hx
    exact ⟨hji, by rw [hnode, update_of_ne hji]⟩
  refine ⟨?_, ?_, by simp, ?_, ?_, ?_, ?_, ?_⟩
  · rw [href, hholders]
    exact h.refs
  · intro j ht hn
    obtain ⟨hji, heq⟩ := hother j ht
    rw [hholders, hvalid, update_of_ne hji]
    rw [heq] at ht hn
    exact h.kept j ht hn
  · intro j hj hv
    have hji : j ≠ i := by
      intro hji
      rw [hvalid, hji, update_self] at hv
      cases hv
    rw [href] at hj
    rw [hvalid, update_of_ne hji] at hv
    rw [hnode, update_of_ne hji]
    exact h.typed j hj hv
  · intro j hj
    rw [hholders] at hj
    have hji : j ≠ i := by
      intro hji
      rw [hji] at hj
      exact h.allocated i hj hi
    rw [hnode, update_of_ne hji]
    exact h.allocated j hj
  · rw [hfile]
    exact h.files
  · rw [hfile]
    exact h.fileBound
  · rw [hproc]
    exact h.procBound

/-- `iget` on an inode that is not in the table. -/
theorem wp_iget_new {Q : Unit → State → Prop} (href : s.ref i = 0)
    (hQ : Q () { s with
      ref := update s.ref i 1, valid := update s.valid i false }) :
    wp Allowed (iget i) Q s := by
  have hpos : ¬ 0 < s.ref i := by omega
  unfold iget
  simp only [wp_bind, wp_get, if_neg hpos]
  exact wp_ite (fun _ => by simp [Allowed]) fun _ => hQ

/-- `ilock` on an inode that is not yet valid. -/
theorem wp_ilock_new {Q : Unit → State → Prop} (href : s.ref i ≠ 0) (hvalid : s.valid i = false)
    (htype : (s.node i).type ≠ .free)
    (hQ : Q () { s with valid := update s.valid i true }) : wp Allowed (ilock i) Q s := by
  unfold ilock
  simp only [wp_bind, wp_get, if_neg href, hvalid, Bool.false_eq_true, if_false, if_neg htype]
  exact hQ

/-- The inode that `create` has taken is freed again. -/
theorem wp_iput_taken {Q : Unit → State → Prop} {x : Node} (href : s.ref i = 0)
    (hx : x.nlink = 0)
    (hQ : Q () { s with
      node := update s.node i (freed x), valid := update s.valid i false }) :
    wp Allowed (iput i) Q (taken s i x) := by
  have hlast : (taken s i x).ref i = 1 ∧ (taken s i x).valid i = true ∧
      ((taken s i x).node i).nlink = 0 := by
    simp [taken, hx]
  have hback : update s.ref i 0 = s.ref := by
    rw [← href, update_eq_self]
  unfold iput
  simp only [wp_bind, wp_get, if_pos hlast]
  show Q () { s with
    node := update (update s.node i x) i (freed (update s.node i x i))
    ref := update (update s.ref i 1) i (update s.ref i 1 i - 1)
    valid := update (update s.valid i true) i false }
  simp only [update_idem, update_self, hback]
  exact hQ

theorem wp_createNew {Q : Option ℕ → State → Prop} {major minor : ℤ} {room : ℕ → Bool}
    (h : Refs none [dp] s) (htree : Tree s.node) (hdp : Live (s.node dp))
    (hname : lookup name (s.node dp).entries = none) (htype : type ≠ .free)
    (hnone : ∀ t, t.file = s.file → t.proc = s.proc → Tree t.node → Refs none [] t → Q none t)
    (hsome : ∀ ip t, t.file = s.file → t.proc = s.proc → Tree t.node → Refs none [ip] t →
      (t.node ip).type ≠ .free → Q (some ip) t) :
    wp Allowed (createNew dp name type major minor room) Q s := by
  unfold createNew ialloc
  simp only [wp_bind, wp_get]
  cases hfind : freeInode s with
  | none =>
    simp only [wp_pure, wp_bind]
    apply wp_iput h
    intro t hs ht
    exact hnone t hs.file_eq hs.proc_eq (hs.node_eq ▸ htree) ht
  | some i =>
    obtain ⟨⟨hi, hfree⟩, hin⟩ : (1 ≤ i ∧ (s.node i).type = .free) ∧ i < ninodes := by
      refine ⟨by simpa using List.find?_some hfind, ?_⟩
      exact List.mem_range.mp (List.mem_of_find?_eq_some hfind)
    have hi0 : i ≠ 0 := by omega
    have hne : dp ≠ i := by
      intro heq
      rw [heq, Live, hfree] at hdp
      cases hdp.1
    have hmem : i ∉ [dp] := by simpa using Ne.symm hne
    have href := h.ref_free hfree hmem
    simp only [wp_bind, wp_setNode]
    refine wp_iget_new href ?_
    simp only [wp_pure, wp_bind]
    refine wp_ilock_new (by simp) (by simp) (by simpa using htype) ?_
    have htaken : { s with
        node := update s.node i
          { type := type, major := 0, minor := 0, nlink := 0, entries := [] }
        ref := update s.ref i 1
        valid := update (update s.valid i false) i true } =
        taken s i { type := type, major := 0, minor := 0, nlink := 0, entries := [] } := by
      simp [taken]
    rw [htaken]
    simp only [wp_bind, wp_get, wp_setNode_taken, taken_node_self]
    refine wp_createEntries rfl rfl hi0 hne hdp.1 hname ?_ ?_
    · intro y hy
      simp only [Bool.false_eq_true, if_false, wp_bind, wp_get, wp_setNode_taken,
        taken_node_self]
      refine wp_iput_taken href rfl ?_
      have hback : Refs none [dp] { s with
          node := update s.node i (freed { y with nlink := 0 })
          valid := update s.valid i false } :=
        h.giveBack hfree rfl rfl rfl rfl rfl rfl
      rw [wp_bind]
      apply wp_iput hback
      intro t hs ht
      refine hnone t hs.file_eq hs.proc_eq ?_ ht
      rw [hs.node_eq]
      exact htree.release (.inl hfree) rfl
    · have hdpn := hdp.2
      have hend : ∀ y : Node, y.type = .dir → y.entries = (linked (s.node dp) name i).entries →
          y.nlink = (s.node dp).nlink + (if type = .dir then 1 else 0) →
          wp Allowed (iput dp) (fun _ => Q (some i)) (entered s i dp
            ⟨type, short major, short minor, 1, newEntries type i dp⟩ y) := by
        intro y hy hye hyn
        have hynlink : y.nlink ≠ 0 := by
          rw [hyn]
          split <;> omega
        have hrefs := h.take hfree hmem hne (y := y)
          (x := ⟨type, short major, short minor, 1, newEntries type i dp⟩)
          htype (by simp) (by simp [hy]) hynlink
        apply wp_iput (hrefs.perm (List.Perm.swap i dp []))
        intro t hs ht
        refine hsome i t hs.file_eq hs.proc_eq ?_ ht ?_
        · rw [hs.node_eq]
          exact htree.create hdp hi0 hin hfree hname htype rfl rfl hy hye hyn
        · rw [hs.node_eq]
          simpa [entered, change_i hne] using htype
      simp only [if_true, wp_bind, wp_get]
      by_cases hdir : type = .dir
      · have hbound := htree.dir_nlink_le hdp.1
        have hshort : short ((s.node dp).nlink + 1) = (s.node dp).nlink + 1 := by
          unfold ninodes at hbound
          exact short_eq (by omega) (by omega)
        simp only [if_pos hdir, wp_bind, wp_setNode_entered, entered_node_dp]
        refine hend _ hdp.1 rfl ?_
        simp only [linked, hshort, if_pos hdir]
      · rw [if_neg hdir, wp_bind]
        exact hend _ hdp.1 rfl (by simp [hdir, linked])

theorem wp_create {Q : Option ℕ → State → Prop} {major minor : ℤ} {room : ℕ → Bool}
    (h : Refs none [] s) (htree : Tree s.node) (hcwd : 0 < s.ref cwd)
    (hsafe : ∀ dp name, walk s.node true (start cwd path) path [] = some (dp, name) →
      0 < (s.node dp).nlink)
    (htype : type ≠ .free)
    (hnone : ∀ t, t.file = s.file → t.proc = s.proc → Tree t.node → Refs none [] t → Q none t)
    (hsome : ∀ ip t, t.file = s.file → t.proc = s.proc → Tree t.node → Refs none [ip] t →
      (t.node ip).type ≠ .free → Q (some ip) t) :
    wp Allowed (create cwd path type major minor room) Q s := by
  unfold create
  rw [wp_bind]
  apply wp_nameiparent h hcwd
  · intro t hs ht
    exact hnone t hs.file_eq hs.proc_eq (hs.node_eq ▸ htree) ht
  · intro dp name t hs ht hdir hwalk
    rw [wp_bind]
    apply wp_ilock ht
    intro u hu hru _ _ _
    have hsu := hs.trans hu
    rw [wp_bind]
    apply wp_dirlookup hru
    · intro _ hname
      have htree' : Tree u.node := hsu.node_eq ▸ htree
      have hdp : Live (u.node dp) := by
        rw [hsu.node_eq]
        exact ⟨hdir, hsafe dp name hwalk⟩
      apply wp_createNew hru htree' hdp hname htype
      · intro v hf hp
        exact hnone v (hf.trans hsu.file_eq) (hp.trans hsu.proc_eq)
      · intro ip v hf hp
        exact hsome ip v (hf.trans hsu.file_eq) (hp.trans hsu.proc_eq)
    · intro r v _ _ hv hrv
      have hsv := hsu.trans hv
      simp only [wp_bind]
      apply wp_iput (hrv.perm (List.Perm.swap r.2 dp []))
      intro w hw hrw
      rw [wp_bind]
      apply wp_ilock hrw
      intro x hx hrx _ _ hfree
      have hsx := (hsv.trans hw).trans hx
      rw [wp_bind, wp_get]
      refine wp_ite (fun _ => ?_) fun _ => ?_
      · refine hsome r.2 x hsx.file_eq hsx.proc_eq (hsx.node_eq ▸ htree) hrx ?_
        rw [hx.node_eq]
        exact hfree
      · rw [wp_bind]
        apply wp_iput hrx
        intro y hy hry
        have hsy := hsx.trans hy
        exact hnone y hsy.file_eq hsy.proc_eq (hsy.node_eq ▸ htree) hry

/-! ## Link and unlink -/

/-- What holds between calls. -/
structure Inv (s : State) : Prop where
  tree : Tree s.node
  table : Refs none [] s

theorem Refs.ref_pos (h : Refs last hold s) (hi : 0 < holders s i) : 0 < s.ref i := by
  rw [h.refs i]
  omega

/-- An inode that is in use changes. -/
theorem Refs.setNode (h : Refs last hold s) {x : Node} (hx : x.type ≠ .free)
    (hxn : x.nlink = 0 → s.valid i = true ∧ (0 < holders s i ∨ last = some i)) :
    Refs last hold { s with node := update s.node i x } := by
  refine ⟨h.refs, ?_, h.lastHeld, ?_, ?_, h.files, h.fileBound, h.procBound⟩
  · intro j ht hn
    by_cases hji : j = i
    · subst hji
      simp only [update_self] at hn
      exact hxn hn
    · simp only [update_of_ne hji] at ht hn
      exact h.kept j ht hn
  · intro j hj hv
    by_cases hji : j = i
    · subst hji
      simpa using hx
    · simp only [update_of_ne hji]
      exact h.typed j hj hv
  · intro j hj
    by_cases hji : j = i
    · subst hji
      simpa using hx
    · simp only [update_of_ne hji]
      exact h.allocated j hj

theorem Refs.setLast (h : Refs none hold s) (hi : i ∈ hold) : Refs (some i) hold s := by
  refine ⟨h.refs, ?_, ?_, h.typed, h.allocated, h.files, h.fileBound, h.procBound⟩
  · intro j ht hn
    obtain ⟨hv, hpos | hlast⟩ := h.kept j ht hn
    · exact ⟨hv, .inl hpos⟩
    · cases hlast
  · intro j hj
    rwa [← Option.some.inj hj]

/-- A path leads to the same inode if types and entries are the same. -/
theorem walk_congr {node node' : ℕ → Node} {parent : Bool}
    (htype : ∀ i, (node' i).type = (node i).type)
    (hentries : ∀ i, (node' i).entries = (node i).entries) :
    walk node' parent i path name = walk node parent i path name := by
  induction hn : path.length using Nat.strongRecOn generalizing i path name with
  | ind n ih =>
    rw [walk, walk]
    split
    · rfl
    · rename_i name' rest hskip
      rw [htype, hentries]
      split
      · rfl
      · split
        · rfl
        · split
          · rfl
          · exact ih rest.length (hn ▸ skipelem_length hskip) rfl

/-- `link` takes back its reference and the link count. -/
theorem wp_linkBad {Q : ℤ → State → Prop} {node : ℕ → Node} {x : Node} (h : Refs none [i] s)
    (hnode : s.node = update node i x) (hfree : (node i).type ≠ .free)
    (hx : { x with nlink := short (x.nlink - 1) } = node i)
    (hkept : (node i).nlink = 0 → 0 < holders s i)
    (hQ : ∀ t, t.file = s.file → t.proc = s.proc → t.node = node → Refs none [] t → Q (-1) t) :
    wp Allowed (linkBad i) Q s := by
  unfold linkBad
  rw [wp_bind]
  apply wp_ilock h
  intro t hs ht _ hvalid _
  simp only [wp_bind, wp_get, wp_setNode]
  have hback : update t.node i
      { t.node i with nlink := short ((t.node i).nlink - 1) } = node := by
    rw [hs.node_eq, hnode, update_self, update_idem, hx,
      update_eq_self]
  have hrefs := ht.setNode (i := i) (x := node i) hfree (by
    intro hn
    rw [hs.holders_eq]
    exact ⟨hvalid, .inl (hkept hn)⟩)
  have hnode' : update t.node i (node i) = node := by
    rw [hs.node_eq, hnode, update_idem, update_eq_self]
  rw [hnode'] at hrefs
  rw [hback]
  apply wp_iput hrefs
  intro u hu hru
  exact hQ u (hu.file_eq.trans hs.file_eq) (hu.proc_eq.trans hs.proc_eq) hu.node_eq hru

theorem wp_sysLink {old new : List Char} {room : Bool} (h : Inv s) (hcwd : 0 < holders s q.cwd)
    (hsafe : ∀ dp name, walk s.node true (start q.cwd new) new [] = some (dp, name) →
      0 < (s.node dp).nlink)
    (hshort : ∀ ip, (walk s.node false (start q.cwd old) old []).map Prod.fst = some ip →
      (s.node ip).nlink < 2 ^ 15 - 1) :
    wp Allowed (sysLink q old new room) (fun _ t => Inv t) s := by
  unfold sysLink
  rw [wp_bind]
  apply wp_namei h.table (h.table.ref_pos hcwd)
  · intro t hs ht
    exact ⟨hs.node_eq ▸ h.tree, ht⟩
  · intro ip t hs ht hwalk
    rw [wp_bind]
    apply wp_ilock ht
    intro u hu hru _ _ hfree
    have hsu := hs.trans hu
    have htree : Tree u.node := hsu.node_eq ▸ h.tree
    rw [hs.node_eq, ← hsu.node_eq] at hfree
    rw [wp_bind, wp_get]
    refine wp_ite (fun _ => ?_) fun hdir => ?_
    · rw [wp_bind]
      apply wp_iput hru
      intro v hv hrv
      exact ⟨hv.node_eq ▸ htree, hrv⟩
    · have hlow := htree.nlink_nonneg hfree
      have hhigh := hshort ip hwalk
      rw [← hsu.node_eq] at hhigh
      have hplus : short ((u.node ip).nlink + 1) = (u.node ip).nlink + 1 :=
        short_eq (by omega) (by omega)
      rw [hplus]
      simp only [wp_bind, wp_setNode]
      let x : Node := { u.node ip with nlink := (u.node ip).nlink + 1 }
      have hbad : { x with nlink := short (x.nlink - 1) } = u.node ip := by
        have heq : x.nlink - 1 = (u.node ip).nlink := by simp [x]
        rw [heq, short_eq (by omega) (by omega)]
      have hxrefs := hru.setNode (i := ip) (x := x) hfree (fun hx => by simp [x] at hx; omega)
      have hholders : holders { u with node := update u.node ip x } = holders s := by
        rw [← hsu.holders_eq]
        rfl
      have hcwd' := hxrefs.ref_pos (i := q.cwd) (by rwa [hholders])
      have hkept : (u.node ip).nlink = 0 → 0 < holders s ip := by
        intro hzero
        rcases (hru.kept ip hfree hzero).2 with hpos | hlast
        · rwa [hsu.holders_eq] at hpos
        · cases hlast
      apply wp_nameiparent hxrefs hcwd'
      · intro v hv hrv
        apply wp_linkBad hrv hv.node_eq hfree hbad
        · rw [hv.holders_eq, hholders]
          exact hkept
        · intro w _ _ hnode hrw
          exact ⟨hnode ▸ htree, hrw⟩
      · intro dp name v hv hrv hdp hwalk'
        have hne : dp ≠ ip := by
          intro heq
          rw [heq] at hdp
          simp only [update_self] at hdp
          exact hdir hdp
        have hdpnode : v.node dp = u.node dp := by
          rw [hv.node_eq]
          exact update_of_ne hne _ _
        rw [wp_bind]
        apply wp_ilock hrv
        intro w hw hrw _ _ _
        have hvw := hv.trans hw
        have hwdp : w.node dp = u.node dp := by rw [hw.node_eq, hdpnode]
        rw [wp_bind]
        apply wp_dirlink hrw
        · intro y hy hry
          simp only [Bool.false_eq_true, if_false, wp_bind]
          apply wp_iput hry
          intro z hz hrz
          have hvz := (hvw.trans hy).trans hz
          apply wp_linkBad hrz hvz.node_eq hfree hbad
          · rw [hvz.holders_eq, hholders]
            exact hkept
          · intro z' _ _ hnode hrz'
            exact ⟨hnode ▸ htree, hrz'⟩
        · intro hwdir hwname
          rw [hwdp] at hwdir hwname
          have hlive : Live (u.node dp) := by
            refine ⟨hwdir, ?_⟩
            rw [hsu.node_eq]
            apply hsafe dp name
            rw [← hwalk', ← hsu.node_eq]
            refine (walk_congr (fun j => ?_) fun j => ?_).symm <;>
              by_cases hj : j = ip <;> simp [hj, x]
          have hlivepos := hlive.2
          have hnode : update w.node dp (linked (w.node dp) name ip) =
              change u.node ip dp x (linked (u.node dp) name ip) := by
            rw [hwdp, hvw.node_eq]
            rfl
          have hrefs := hrw.setNode (i := dp) (x := linked (w.node dp) name ip)
            (by rw [hwdp]; simp [linked, hwdir]) (by rw [hwdp]; simp only [linked]; omega)
          simp only [if_true, wp_bind]
          apply wp_iput hrefs
          intro y hy hry
          rw [wp_bind]
          apply wp_iput hry
          intro z hz hrz
          refine ⟨?_, hrz⟩
          rw [hz.node_eq, hy.node_eq, hnode]
          exact htree.addLink hlive hwname hfree hdir (by omega)

/-- The last steps of `unlink`, from a state `w` with the entry cleared. -/
theorem wp_unlinkDone {n : ℤ} (h : Refs none [i, dp] s) (hne : dp ≠ i) (hvalid : s.valid i = true)
    (hdir : (s.node dp).type = .dir) (hfree : (s.node i).type ≠ .free) (hn : 0 < n)
    (hshort : short ((s.node i).nlink - 1) = (s.node i).nlink - 1)
    (htree : Tree (change s.node i dp { s.node i with nlink := (s.node i).nlink - 1 }
      (unlinked (s.node dp) k n))) :
    wp Allowed (unlinkDone dp i) (fun _ t => Inv t)
      { s with node := update s.node dp (unlinked (s.node dp) k n) } := by
  have hinode : update s.node dp (unlinked (s.node dp) k n) i = s.node i :=
    update_of_ne hne.symm _ _
  have hrefs := ((h.perm (List.Perm.swap i dp [])).drop.setLast
    (List.mem_singleton_self _)).setNode (i := dp) (x := unlinked (s.node dp) k n)
    (by simp [unlinked, hdir]) (by simp only [unlinked]; omega)
  have hrefs' := hrefs.setNode (i := i) (x := { s.node i with nlink := (s.node i).nlink - 1 })
    hfree fun _ => ⟨hvalid, .inr rfl⟩
  unfold unlinkDone
  rw [wp_bind]
  apply wp_iput_keep
  · simp only [update_self, unlinked]
    omega
  · simp only [wp_bind, wp_get, wp_setNode, hinode, hshort]
    apply wp_iput_last hrefs' (by simp)
    · simp only
      rw [update_comm hne]
      exact htree
    · intro t _ _ _ ht hrt
      exact ⟨ht, hrt⟩

theorem wp_sysUnlink (h : Inv s) (hcwd : 0 < holders s q.cwd) :
    wp Allowed (sysUnlink q path) (fun _ t => Inv t) s := by
  unfold sysUnlink
  rw [wp_bind]
  apply wp_nameiparent h.table (h.table.ref_pos hcwd)
  · intro t hs ht
    exact ⟨hs.node_eq ▸ h.tree, ht⟩
  · intro dp name t hs ht hdir _
    rw [wp_bind]
    apply wp_ilock ht
    intro u hu hru _ _ _
    have hsu := hs.trans hu
    refine wp_ite (fun _ => ?_) fun hdots => ?_
    · rw [wp_bind]
      apply wp_iput hru
      intro v hv hrv
      exact ⟨(hsu.trans hv).node_eq ▸ h.tree, hrv⟩
    · obtain ⟨hdot, hdotdot⟩ := not_or.mp hdots
      rw [wp_bind]
      apply wp_dirlookup hru
      · intro _ _
        simp only [wp_bind]
        apply wp_iput hru
        intro v hv hrv
        exact ⟨(hsu.trans hv).node_eq ▸ h.tree, hrv⟩
      · intro r v _ hlookup hv hrv
        rw [wp_bind]
        apply wp_ilock hrv
        intro w hw hrw _ hvalid _
        have hsw := (hsu.trans hv).trans hw
        have htree : Tree w.node := hsw.node_eq ▸ h.tree
        rw [hsu.node_eq, ← hsw.node_eq] at hlookup
        rw [← hsw.node_eq] at hdir
        obtain ⟨hlive, hfree, hlink⟩ := htree.lookup_live hdir hdot hdotdot hlookup
        rw [wp_bind, wp_get]
        refine wp_ite (fun hlt => ?_) fun _ => wp_ite (fun _ => ?_) fun hempty => ?_
        · omega
        · rw [wp_bind]
          apply wp_iput hrw
          intro x hx hrx
          rw [wp_bind]
          apply wp_iput hrx
          intro y hy hry
          exact ⟨(hx.trans hy).node_eq ▸ htree, hry⟩
        · have hempty' : (w.node r.2).type = .dir → isdirempty (w.node r.2) = true := by
            intro hrdir
            by_contra hfull
            exact hempty ⟨hrdir, Bool.not_eq_true _ ▸ hfull⟩
          obtain ⟨hne, hpos, htree'⟩ :=
            htree.removeEntry hdir hdot hdotdot hlookup hempty' rfl
          have hlt := htree.nlink_lt r.2 hfree
          have hlt' := htree.nlink_lt dp (by simp [hdir])
          have hrnode : ∀ y, update w.node dp y r.2 = w.node r.2 :=
            fun y => update_of_ne hne.symm _ _
          have hshort : short ((w.node r.2).nlink - 1) = (w.node r.2).nlink - 1 :=
            short_eq (by omega) (by omega)
          have hend := wp_unlinkDone hrw hne hvalid hdir hfree hpos hshort htree'
          have hstate : ∀ y z, update (update w.node dp y) dp z =
              update w.node dp z := fun y z => update_idem ..
          simp only [wp_bind, wp_setNode, wp_get, hrnode]
          refine wp_ite (fun hrdir => ?_) fun hrdir => ?_
          · rw [if_pos hrdir] at hend hpos
            simp only [wp_bind, wp_setNode, hstate, update_self]
            rw [short_eq (by omega) (by omega)]
            exact hend
          · rw [if_neg hrdir, sub_zero] at hend
            exact hend

end CS352.Directories
