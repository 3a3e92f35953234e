import CS352.Library.Tally
import CS352.Model.Directories

/-! # The directory tree

What holds of the directories on disk, and how the changes of the calls keep it. -/

namespace CS352.Directories

open Blocks (FileType)
open Tally Function

/-- A directory that has not been removed. -/
def Live (x : Node) : Prop := x.type = .dir ∧ 0 < x.nlink

instance (x : Node) : Decidable (Live x) := inferInstanceAs (Decidable (_ ∧ _))

/-- The entries other than `.` that name inode `i`, in a directory that has not been
removed. -/
def naming (i : ℕ) (x : Node) : ℕ :=
  if Live x then x.entries.countP fun e => e.inum = i ∧ e.name ≠ dot else 0

/-- The number of entries that name inode `i`. -/
def links (node : ℕ → Node) (i : ℕ) : ℕ := tally (Finset.range ninodes) (naming i) node

/-- The inodes that a path from the root leads to. -/
inductive Reachable (node : ℕ → Node) : ℕ → Prop where
  | root : Reachable node rootino
  | entry {d : ℕ} {e : Dirent} : Reachable node d → Live (node d) → e ∈ (node d).entries →
      e.inum ≠ 0 → e.name ≠ dot → e.name ≠ dotdot → Reachable node e.inum

/-- The inode that `..` names. -/
def parent (x : Node) : ℕ := ((x.entries.drop 1).head?.map Dirent.inum).getD 0

/-- The entries after `.` and `..`. -/
def below (x : Node) : List Dirent := x.entries.drop 2

variable {node node' : ℕ → Node} {x y : Node} {d dp i j k : ℕ} {e : Dirent} {es : List Dirent}

/-! ## Lists of entries -/

/-- What stands at position `k` before it is written. -/
def slot (es : List Dirent) (k : ℕ) : List Dirent := (es.drop k).take 1

theorem take_slot_drop (es : List Dirent) (k : ℕ) :
    es.take k ++ (slot es k ++ es.drop (k + 1)) = es := by
  have hrest : slot es k ++ es.drop (k + 1) = es.drop k := by
    rw [slot, ← List.drop_drop, List.take_append_drop]
  rw [hrest, List.take_append_drop]

theorem countP_writeEntry (p : Dirent → Bool) (es : List Dirent) (k : ℕ) (e : Dirent) :
    (writeEntry es k e).countP p + (slot es k).countP p =
      es.countP p + if p e then 1 else 0 := by
  have hsplit := congrArg (List.countP p) (take_slot_drop es k)
  simp only [List.countP_append] at hsplit
  simp only [writeEntry, List.countP_append, List.countP_cons]
  omega

theorem mem_of_mem_writeEntry {a : Dirent} (h : a ∈ writeEntry es k e) : a = e ∨ a ∈ es := by
  rcases List.mem_append.mp h with h | h
  · exact .inr (List.mem_of_mem_take h)
  · rcases List.mem_cons.mp h with h | h
    · exact .inl h
    · exact .inr (List.mem_of_mem_drop h)

theorem mem_writeEntry_self : e ∈ writeEntry es k e := by simp [writeEntry]

theorem mem_writeEntry_or {a : Dirent} (h : a ∈ es) : a ∈ writeEntry es k e ∨ a ∈ slot es k := by
  rw [← take_slot_drop es k] at h
  simp only [List.mem_append] at h
  simp only [writeEntry, List.mem_append, List.mem_cons]
  tauto

/-! ## Directories -/

/-- A directory starts with `.` and `..`, and no other entry has these names. -/
structure Shape (d : ℕ) (x : Node) : Prop where
  entries_eq : x.entries = ⟨d, dot⟩ :: ⟨parent x, dotdot⟩ :: below x
  parent_ne : parent x ≠ 0
  names : ∀ e ∈ below x, e.inum ≠ 0 → e.name ≠ dot ∧ e.name ≠ dotdot

theorem Shape.mem_below (h : Shape d x) (he : e ∈ x.entries) (hdot : e.name ≠ dot)
    (hdotdot : e.name ≠ dotdot) : e ∈ below x := by
  rw [h.entries_eq] at he
  rcases List.mem_cons.mp he with rfl | he
  · exact absurd rfl hdot
  · rcases List.mem_cons.mp he with rfl | he
    · exact absurd rfl hdotdot
    · exact he

theorem mem_entries_of_below (he : e ∈ below x) : e ∈ x.entries := List.mem_of_mem_drop he

/-- The entries after `.` and `..` that name `i`, as in `naming`. -/
def proper (i : ℕ) (x : Node) : ℕ :=
  if Live x then (below x).countP fun e => e.inum = i else 0

/-- One if `..` names `i`, as in `naming`. -/
def upward (i : ℕ) (x : Node) : ℕ := if Live x ∧ parent x = i then 1 else 0

theorem naming_eq (h : Shape d x) (hi : i ≠ 0) : naming i x = proper i x + upward i x := by
  have hbelow : (below x).countP (fun e => e.inum = i ∧ e.name ≠ dot) =
      (below x).countP fun e => e.inum = i := by
    apply List.countP_congr
    intro e he
    simp only [ne_eq, decide_eq_true_eq, and_iff_left_iff_imp]
    intro hei
    exact (h.names e he (hei ▸ hi)).1
  have hentries := h.entries_eq
  have hdots : dotdot ≠ dot := by decide
  unfold naming proper upward
  by_cases hl : Live x
  · simp only [hl, if_true, true_and]
    rw [hentries, List.countP_cons, List.countP_cons, hbelow]
    simp [hdots]
  · simp [hl]

theorem naming_of_not_live (h : ¬ Live x) : naming i x = 0 := if_neg h

theorem not_live_of_type (h : x.type ≠ .dir) : ¬ Live x := fun hl => h hl.1

theorem proper_pos_iff : 0 < proper i x ↔ Live x ∧ ∃ e ∈ below x, e.inum = i := by
  unfold proper
  split <;> simp_all [List.countP_pos_iff]

theorem upward_pos_iff : 0 < upward i x ↔ Live x ∧ parent x = i := by
  unfold upward
  split <;> simp_all

theorem naming_pos_iff :
    0 < naming i x ↔ Live x ∧ ∃ e ∈ x.entries, e.inum = i ∧ e.name ≠ dot := by
  unfold naming
  split <;> simp_all [List.countP_pos_iff]

/-! ## The invariant -/

structure Tree (node : ℕ → Node) : Prop where
  bounded : ∀ i, (node i).type ≠ .free → 0 < i ∧ i < ninodes
  shape : ∀ d, (node d).type = .dir → Shape d (node d)
  removed : ∀ d, (node d).type = .dir → (node d).nlink = 0 → ∀ e ∈ below (node d), e.inum = 0
  nlink_eq : ∀ i, (node i).type ≠ .free → (node i).nlink = links node i
  nlink_lt : ∀ i, (node i).type ≠ .free → (node i).nlink < 2 ^ 15
  unnamed : ∀ i, i ≠ 0 → (node i).type = .free → links node i = 0
  inParent : ∀ d, Live (node d) → ∀ e ∈ below (node d), e.inum ≠ 0 →
    (node e.inum).type = .dir → parent (node e.inum) = d ∧ e.inum ≠ rootino
  single : ∀ i, i ≠ 0 → (node i).type = .dir →
    tally (Finset.range ninodes) (proper i) node ≤ 1
  root : Live (node rootino) ∧ parent (node rootino) = rootino
  reach : ∀ d, Live (node d) → Reachable node d

namespace Tree

theorem lt_ninodes (h : Tree node) (hl : Live (node d)) : d ∈ Finset.range ninodes :=
  Finset.mem_range.mpr (h.bounded d (by simp [hl.1])).2

theorem links_eq (h : Tree node) (hi : i ≠ 0) :
    links node i = tally (Finset.range ninodes) (proper i) node +
      tally (Finset.range ninodes) (upward i) node := by
  rw [← tally_add]
  apply tally_congr
  intro d _
  by_cases hd : (node d).type = .dir
  · exact naming_eq (h.shape d hd) hi
  · have hl := not_live_of_type hd
    simp [naming, proper, upward, hl]

/-- An inode that an entry of a directory names is allocated. -/
theorem type_ne_free (h : Tree node) (hl : Live (node d)) (he : e ∈ below (node d))
    (hne : e.inum ≠ 0) : (node e.inum).type ≠ .free := by
  intro hfree
  have hpos : 0 < proper e.inum (node d) := proper_pos_iff.mpr ⟨hl, e, he, rfl⟩
  have hle := le_tally (w := proper e.inum) (f := node) (h.lt_ninodes hl)
  have hlinks := h.links_eq hne
  rw [h.unnamed e.inum hne hfree] at hlinks
  omega

theorem links_pos (h : Tree node) (hl : Live (node d)) (he : e ∈ below (node d))
    (hne : e.inum ≠ 0) : 0 < links node e.inum := by
  have hpos : 0 < proper e.inum (node d) := proper_pos_iff.mpr ⟨hl, e, he, rfl⟩
  have hle := le_tally (w := proper e.inum) (f := node) (h.lt_ninodes hl)
  rw [h.links_eq hne]
  omega

/-- A directory other than the root is named by an entry of its parent. -/
theorem exists_entry (h : Tree node) (hl : Live (node d)) (hroot : d ≠ rootino) :
    Live (node (parent (node d))) ∧ ∃ e ∈ below (node (parent (node d))), e.inum = d := by
  cases h.reach d hl with
  | root => exact absurd rfl hroot
  | @entry d' e hd' hl' he hne hdot hdotdot =>
    have hbelow := (h.shape d' hl'.1).mem_below he hdot hdotdot
    have hparent := (h.inParent d' hl' e hbelow hne hl.1).1
    rw [hparent]
    exact ⟨hl', e, hbelow, rfl⟩

theorem parent_live (h : Tree node) (hl : Live (node d)) : Live (node (parent (node d))) := by
  by_cases hroot : d = rootino
  · rw [hroot, h.root.2]
    exact h.root.1
  · exact (h.exists_entry hl hroot).1

/-- A directory is named by at most one entry, and by `..` at most once for each inode. -/
theorem dir_nlink_le (h : Tree node) (hd : (node d).type = .dir) :
    (node d).nlink ≤ 1 + ninodes := by
  have hd0 : d ≠ 0 := Nat.pos_iff_ne_zero.mp (h.bounded d (by simp [hd])).1
  have hone := h.single d hd0 hd
  have hup : tally (Finset.range ninodes) (upward d) node ≤ ninodes := by
    refine (tally_le_card fun x => ?_).trans_eq (Finset.card_range ninodes)
    unfold upward
    split <;> omega
  have hlinks := h.links_eq hd0
  have hnlink := h.nlink_eq d (by simp [hd])
  omega

theorem nlink_nonneg (h : Tree node) (hi : (node i).type ≠ .free) : 0 ≤ (node i).nlink := by
  rw [h.nlink_eq i hi]
  exact Int.natCast_nonneg _

/-- Every allocated inode with a link is reachable. -/
theorem reachable (h : Tree node) (hi : (node i).type ≠ .free) (hlink : 0 < (node i).nlink) :
    Reachable node i := by
  have hne : i ≠ 0 := Nat.pos_iff_ne_zero.mp (h.bounded i hi).1
  have hpos : 0 < links node i := by
    have heq := h.nlink_eq i hi
    omega
  obtain ⟨d, -, hd⟩ := exists_of_tally_pos hpos
  obtain ⟨hl, e, he, hei, hdot⟩ := naming_pos_iff.mp hd
  by_cases hdotdot : e.name = dotdot
  · have hup : e.inum = parent (node d) := by
      have hshape := h.shape d hl.1
      rw [hshape.entries_eq] at he
      rcases List.mem_cons.mp he with rfl | he
      · exact absurd rfl hdot
      · rcases List.mem_cons.mp he with rfl | he
        · rfl
        · exact absurd hdotdot (hshape.names e he (hei ▸ hne)).2
    rw [← hei, hup]
    exact h.reach _ (h.parent_live hl)
  · rw [← hei]
    exact .entry (h.reach d hl) hl he (hei ▸ hne) hdot hdotdot

end Tree

/-- Paths survive a change of the tree if the directories on them keep their entries. -/
theorem Reachable.transfer (P : ℕ → Prop) (h : Reachable node j) (hj : P j)
    (hstep : ∀ d e, Live (node d) → e ∈ (node d).entries → e.inum ≠ 0 → e.name ≠ dot →
      e.name ≠ dotdot → P e.inum → P d ∧ Live (node' d) ∧ e ∈ (node' d).entries) :
    Reachable node' j := by
  induction h with
  | root => exact .root
  | entry _ hl he hne hdot hdotdot ih =>
    obtain ⟨hd, hl', he'⟩ := hstep _ _ hl he hne hdot hdotdot hj
    exact .entry (ih hd) hl' he' hne hdot hdotdot

/-! ## Changes -/

theorem lookup_spec {name : Name} {r : ℕ × ℕ} (h : lookup name es = some r) :
    slot es r.1 = [⟨r.2, name⟩] ∧ r.2 ≠ 0 := by
  induction es generalizing r with
  | nil => cases h
  | cons a es ih =>
    unfold lookup at h
    split at h
    · rename_i hmatch
      rw [← Option.some.inj h]
      exact ⟨by simp [slot, ← hmatch.2], hmatch.1⟩
    · obtain ⟨q, hq, heq⟩ := Option.map_eq_some_iff.mp h
      rw [← heq]
      exact ih hq

/-- A name other than `.` and `..` is looked up after them. -/
theorem Shape.lookup_below (h : Shape d x) {name : Name} {r : ℕ × ℕ} (hdot : name ≠ dot)
    (hdotdot : name ≠ dotdot) (hr : lookup name x.entries = some r) :
    ∃ k, r.1 = k + 2 ∧ slot (below x) k = [⟨r.2, name⟩] ∧ r.2 ≠ 0 := by
  rw [h.entries_eq] at hr
  simp only [lookup, Ne.symm hdot, Ne.symm hdotdot, and_false, if_false, Option.map_map,
    Option.map_eq_some_iff] at hr
  obtain ⟨q, hq, heq⟩ := hr
  obtain ⟨hslot, hne⟩ := lookup_spec hq
  rw [← heq]
  exact ⟨q.1, rfl, hslot, hne⟩

/-- Names that are not taken are neither `.` nor `..`. -/
theorem Shape.lookup_none (h : Shape d x) (hd : d ≠ 0) {name : Name}
    (hname : lookup name x.entries = none) : name ≠ dot ∧ name ≠ dotdot := by
  rw [h.entries_eq] at hname
  constructor
  · intro hdot
    simp [lookup, hdot, hd] at hname
  · intro hdotdot
    have hdots : dot ≠ dotdot := by decide
    simp [lookup, hdotdot, hdots, h.parent_ne] at hname

theorem slot_findIdx {a : Dirent} (h : a ∈ slot es (es.findIdx fun e => e.inum = 0)) :
    a.inum = 0 := by
  induction es with
  | nil => cases h
  | cons b es ih =>
    by_cases hb : b.inum = 0
    · have hab : a = b := by simpa [slot, List.findIdx_cons, hb] using h
      rw [hab, hb]
    · apply ih
      simpa [slot, List.findIdx_cons, hb] using h

/-- A directory with another entry at position `k + 2`. -/
structure Rewritten (d : ℕ) (x y : Node) (k : ℕ) (e : Dirent) : Prop where
  type_eq : y.type = .dir
  shape : Shape d y
  parent_eq : parent y = parent x
  below_eq : below y = writeEntry (below x) k e

namespace Rewritten

theorem upward_eq (h : Rewritten d x y k e) (hx : Live x) (hy : Live y) :
    upward i y = upward i x := by
  simp [upward, hx, hy, h.parent_eq]

theorem proper_add (h : Rewritten d x y k e) (hx : Live x) (hy : Live y) :
    proper i y + (slot (below x) k).countP (fun e => e.inum = i) =
      proper i x + if e.inum = i then 1 else 0 := by
  have hcount := countP_writeEntry (fun e => decide (e.inum = i)) (below x) k e
  simp only [decide_eq_true_eq] at hcount
  simp only [proper, hx, hy, if_true, h.below_eq]
  exact hcount

theorem mem_entries (h : Rewritten d x y k e) (hx : Shape d x) {a : Dirent} (ha : a ∈ x.entries)
    (hdot : a.name ≠ dot) (hdotdot : a.name ≠ dotdot) (hslot : a ∉ slot (below x) k) :
    a ∈ y.entries := by
  apply mem_entries_of_below
  rw [h.below_eq]
  exact (mem_writeEntry_or (hx.mem_below ha hdot hdotdot)).resolve_right hslot

end Rewritten

/-- The entry after `.` and `..` that is written. -/
theorem Shape.rewrite (h : Shape d x) (hy : y.type = .dir)
    (hentries : y.entries = writeEntry x.entries (k + 2) e)
    (hname : e.inum ≠ 0 → e.name ≠ dot ∧ e.name ≠ dotdot) : Rewritten d x y k e := by
  have heq : y.entries = ⟨d, dot⟩ :: ⟨parent x, dotdot⟩ :: writeEntry (below x) k e := by
    rw [hentries, h.entries_eq]
    rfl
  have hparent : parent y = parent x := by rw [parent, heq]; rfl
  have hbelow : below y = writeEntry (below x) k e := by rw [below, heq]; rfl
  refine ⟨hy, ⟨?_, ?_, ?_⟩, hparent, hbelow⟩
  · rw [hparent, hbelow]
    exact heq
  · rw [hparent]
    exact h.parent_ne
  · intro a ha hane
    rw [hbelow] at ha
    rcases mem_of_mem_writeEntry ha with rfl | ha
    · exact hname hane
    · exact h.names a ha hane

/-- The directory after `dirlink` has written an entry. -/
def linked (x : Node) (name : Name) (inum : ℕ) : Node :=
  { x with entries := writeEntry x.entries (x.entries.findIdx fun e => e.inum = 0) ⟨inum, name⟩ }

/-- A new entry goes to the first empty position after `.` and `..`. -/
theorem Shape.add (h : Shape d x) (hd : d ≠ 0) {name : Name} {inum : ℕ}
    (hname : lookup name x.entries = none) (hy : y.type = .dir)
    (hentries : y.entries = (linked x name inum).entries) :
    ∃ k, Rewritten d x y k ⟨inum, name⟩ ∧ ∀ a ∈ slot (below x) k, a.inum = 0 := by
  have hidx : (x.entries.findIdx fun e => e.inum = 0) =
      ((below x).findIdx fun e => e.inum = 0) + 2 := by
    conv_lhs => rw [h.entries_eq]
    simp [List.findIdx_cons, hd, h.parent_ne]
  rw [linked, hidx] at hentries
  exact ⟨_, h.rewrite hy hentries fun _ => h.lookup_none hd hname, fun a ha => slot_findIdx ha⟩

theorem Rewritten.naming_add (h : Rewritten d x y k e) (hshape : Shape d x) (hx : Live x)
    (hy : Live y) (hi : i ≠ 0) :
    naming i y + (slot (below x) k).countP (fun e => e.inum = i) =
      naming i x + if e.inum = i then 1 else 0 := by
  have hproper := h.proper_add (i := i) hx hy
  have hupward := h.upward_eq (i := i) hx hy
  rw [naming_eq h.shape hi, naming_eq hshape hi]
  omega

theorem countP_slot_eq_zero (h : ∀ a ∈ slot es k, a.inum = i ∨ a.inum = 0) (hj : j ≠ 0)
    (hji : j ≠ i) : (slot es k).countP (fun e => e.inum = j) = 0 := by
  rw [List.countP_eq_zero]
  intro a ha
  rcases h a ha with hai | hai
  · simpa [hai] using Ne.symm hji
  · simpa [hai] using Ne.symm hj

/-- The directory `dp` and the inode `i` are replaced. -/
def change (node : ℕ → Node) (i dp : ℕ) (x y : Node) : ℕ → Node :=
  update (update node i x) dp y

theorem change_dp : change node i dp x y dp = y := update_self ..

theorem change_i (h : dp ≠ i) : change node i dp x y i = x := by
  rw [change, update_of_ne h.symm, update_self]

theorem change_of_ne (hjd : j ≠ dp) (hji : j ≠ i) : change node i dp x y j = node j := by
  rw [change, update_of_ne hjd, update_of_ne hji]

theorem tally_change (node : ℕ → Node) (w : Node → ℕ) (x y : Node) (h : dp ≠ i)
    (hdp : dp ∈ Finset.range ninodes) (hi : i ∈ Finset.range ninodes) :
    tally (Finset.range ninodes) w (change node i dp x y) + w (node dp) + w (node i) =
      tally (Finset.range ninodes) w node + w y + w x := by
  have h₁ := tally_update (w := w) (f := update node i x) (x := y) hdp
  have h₂ := tally_update (w := w) (f := node) (x := x) hi
  rw [update_of_ne h] at h₁
  rw [change]
  omega

theorem Tree.ne_zero (h : Tree node) (hdp : Live (node dp)) : dp ≠ 0 :=
  Nat.pos_iff_ne_zero.mp (h.bounded dp (by simp [hdp.1])).1

/-- The directory `dp` was one before, and so were all but `i`. -/
theorem of_change_of_ne {P : Node → Prop} (hdp : P (node dp)) (hji : j ≠ i)
    (h : P (change node i dp x y j)) : P (node j) := by
  by_cases hjd : j = dp
  · rwa [hjd]
  · rwa [change_of_ne hjd hji] at h

/-- What is left to show when one entry of the directory `dp` is written, which names the
inode `i` before or after, and `i` itself is changed. -/
theorem Tree.of_change (h : Tree node) (hne : dp ≠ i) (hdp : Live (node dp)) (hi : i ≠ 0)
    (hin : i < ninodes) (hy : Rewritten dp (node dp) y k e) (hyl : Live y)
    (hfree : x.type ≠ .free) (hdir : x.type = .dir → Shape i x ∧ ∀ e ∈ below x, e.inum = 0)
    (hkind : x.type = .dir →
      (node i).type = .free ∨ (node i).type = .dir ∧ parent x = parent (node i))
    (hroot : i ≠ rootino) (he : e.inum = 0 ∨ e.inum = i ∧ (x.type = .dir → parent x = dp))
    (hlinks : ∀ j, j ≠ 0 → j ≠ dp → j ≠ i →
      links (change node i dp x y) j = links node j)
    (hnlink : ∀ j, j = dp ∨ j = i → (change node i dp x y j).nlink =
      links (change node i dp x y) j ∧ (change node i dp x y j).nlink < 2 ^ 15)
    (hsingle : ∀ j, j ≠ 0 → (change node i dp x y j).type = .dir →
      tally (Finset.range ninodes) (proper j) (change node i dp x y) ≤ 1)
    (hreach : ∀ d, Live (change node i dp x y d) → Reachable (change node i dp x y) d) :
    Tree (change node i dp x y) := by
  have hcases : ∀ j, j = dp ∧ change node i dp x y j = y ∨
      j = i ∧ change node i dp x y j = x ∨
      (j ≠ dp ∧ j ≠ i) ∧ change node i dp x y j = node j := by
    intro j
    by_cases hjd : j = dp
    · exact .inl ⟨hjd, hjd ▸ change_dp⟩
    · by_cases hji : j = i
      · exact .inr (.inl ⟨hji, by rw [hji, change_i hne]⟩)
      · exact .inr (.inr ⟨⟨hjd, hji⟩, change_of_ne hjd hji⟩)
  have hparent : ∀ d, Live (node d) → ∀ a ∈ below (node d), a.inum ≠ 0 →
      (change node i dp x y a.inum).type = .dir →
      parent (change node i dp x y a.inum) = d ∧ a.inum ≠ rootino := by
    intro d hd a ha hane ht
    rcases hcases a.inum with ⟨heq, hval⟩ | ⟨heq, hval⟩ | ⟨-, hval⟩
    · rw [hval, hy.parent_eq, ← heq]
      exact h.inParent d hd a ha hane (heq ▸ hdp.1)
    · rw [hval] at ht ⊢
      rcases hkind ht with hfree | ⟨hold, hsame⟩
      · exact absurd (heq ▸ hfree) (h.type_ne_free hd ha hane)
      · rw [hsame, ← heq]
        exact h.inParent d hd a ha hane (heq ▸ hold)
    · rw [hval] at ht ⊢
      exact h.inParent d hd a ha hane ht
  refine ⟨?_, ?_, ?_, ?_, ?_, ?_, ?_, hsingle, ?_, hreach⟩
  · intro j ht
    rcases hcases j with ⟨rfl, -⟩ | ⟨rfl, -⟩ | ⟨-, hval⟩
    · exact h.bounded j (by simp [hdp.1])
    · exact ⟨Nat.pos_of_ne_zero hi, hin⟩
    · exact h.bounded j (hval ▸ ht)
  · intro j ht
    rcases hcases j with ⟨rfl, hval⟩ | ⟨rfl, hval⟩ | ⟨-, hval⟩
    · rw [hval]
      exact hy.shape
    · rw [hval] at ht ⊢
      exact (hdir ht).1
    · rw [hval] at ht ⊢
      exact h.shape j ht
  · intro j ht hzero
    rcases hcases j with ⟨rfl, hval⟩ | ⟨rfl, hval⟩ | ⟨-, hval⟩
    · rw [hval] at hzero
      have hpos := hyl.2
      omega
    · rw [hval] at ht ⊢
      exact (hdir ht).2
    · rw [hval] at ht hzero ⊢
      exact h.removed j ht hzero
  · intro j ht
    rcases hcases j with ⟨hj, -⟩ | ⟨hj, -⟩ | ⟨hj, hval⟩
    · exact (hnlink j (.inl hj)).1
    · exact (hnlink j (.inr hj)).1
    · rw [hval] at ht ⊢
      have hj0 : j ≠ 0 := Nat.pos_iff_ne_zero.mp (h.bounded j ht).1
      rw [hlinks j hj0 hj.1 hj.2]
      exact h.nlink_eq j ht
  · intro j ht
    rcases hcases j with ⟨hj, -⟩ | ⟨hj, -⟩ | ⟨hj, hval⟩
    · exact (hnlink j (.inl hj)).2
    · exact (hnlink j (.inr hj)).2
    · rw [hval] at ht ⊢
      exact h.nlink_lt j ht
  · intro j hj0 ht
    rcases hcases j with ⟨rfl, hval⟩ | ⟨rfl, hval⟩ | ⟨hj, hval⟩
    · rw [hval, hy.type_eq] at ht
      cases ht
    · exact absurd (hval ▸ ht) hfree
    · rw [hlinks j hj0 hj.1 hj.2]
      exact h.unnamed j hj0 (hval ▸ ht)
  · intro j hl a ha hane ht
    rcases hcases j with ⟨rfl, hval⟩ | ⟨rfl, hval⟩ | ⟨hj, hval⟩
    · rw [hval, hy.below_eq] at ha
      rcases mem_of_mem_writeEntry ha with rfl | ha
      · rcases he with hzero | ⟨hai, hx⟩
        · exact absurd hzero hane
        · rw [hai, change_i hne] at ht ⊢
          exact ⟨hx ht, hroot⟩
      · exact hparent j hdp a ha hane ht
    · rw [hval] at hl ha
      exact absurd ((hdir hl.1).2 a ha) hane
    · rw [hval] at hl ha
      exact hparent j hl a ha hane ht
  · rcases hcases rootino with ⟨heq, hval⟩ | ⟨heq, -⟩ | ⟨-, hval⟩
    · rw [hval, hy.parent_eq, ← heq]
      exact ⟨hyl, h.root.2⟩
    · exact absurd heq.symm hroot
    · rw [hval]
      exact h.root

/-- One entry of a directory is written, which named and names nothing but the file `i`, and
the link count of `i` follows. -/
theorem Tree.relink (h : Tree node) (hdp : Live (node dp)) (hi : i ≠ 0) (hin : i < ninodes)
    (hold : (node i).type ≠ .dir) (hdir : x.type ≠ .dir) (hfree : x.type ≠ .free)
    (hy : Rewritten dp (node dp) y k e) (hnlink : y.nlink = (node dp).nlink)
    (he : e.inum = 0 ∨ e.inum = i)
    (hslot : ∀ a ∈ slot (below (node dp)) k, a.inum = i ∨ a.inum = 0)
    (hcount : x.nlink + (slot (below (node dp)) k).countP (fun e => e.inum = i) =
      links node i + if e.inum = i then 1 else 0)
    (hshort : x.nlink < 2 ^ 15) : Tree (change node i dp x y) := by
  have hne : dp ≠ i := fun heq => hold (heq ▸ hdp.1)
  have hyl : Live y := ⟨hy.type_eq, hnlink ▸ hdp.2⟩
  have hshape := h.shape dp hdp.1
  have hmem : dp ∈ Finset.range ninodes := h.lt_ninodes hdp
  have hmem' : i ∈ Finset.range ninodes := Finset.mem_range.mpr hin
  have hlinks : ∀ j, j ≠ 0 → links (change node i dp x y) j +
      (slot (below (node dp)) k).countP (fun e => e.inum = j) =
      links node j + if e.inum = j then 1 else 0 := by
    intro j hj
    have htally := tally_change node (naming j) x y hne hmem hmem'
    have hadd := hy.naming_add hshape hdp hyl hj
    rw [naming_of_not_live (not_live_of_type hold),
      naming_of_not_live (not_live_of_type hdir)] at htally
    unfold links
    omega
  have hsame : ∀ j, j ≠ 0 → j ≠ i →
      (slot (below (node dp)) k).countP (fun e => e.inum = j) = 0 ∧ ¬ e.inum = j := by
    intro j hj hji
    refine ⟨countP_slot_eq_zero hslot hj hji, ?_⟩
    rcases he with he | he <;> omega
  apply h.of_change hne hdp hi hin hy hyl hfree
  · exact fun hx => absurd hx hdir
  · exact fun hx => absurd hx hdir
  · intro hroot
    exact hold (hroot ▸ h.root.1.1)
  · rcases he with he | he
    · exact .inl he
    · exact .inr ⟨he, fun hx => absurd hx hdir⟩
  · intro j hj _ hji
    have heq := hlinks j hj
    obtain ⟨hzero, hej⟩ := hsame j hj hji
    rw [hzero, if_neg hej] at heq
    omega
  · intro j hj
    rcases hj with rfl | rfl
    · have hj0 : j ≠ 0 := h.ne_zero hdp
      have heq := hlinks j hj0
      obtain ⟨hzero, hej⟩ := hsame j hj0 hne
      rw [hzero, if_neg hej] at heq
      have hold := h.nlink_eq j (by simp [hdp.1])
      have hlt := h.nlink_lt j (by simp [hdp.1])
      rw [change_dp, hnlink]
      omega
    · have heq := hlinks j hi
      rw [change_i hne]
      refine ⟨?_, hshort⟩
      by_cases hej : e.inum = j
      · rw [if_pos hej] at heq hcount
        omega
      · rw [if_neg hej] at heq hcount
        omega
  · intro j hj0 ht
    have hji : j ≠ i := by
      intro hji
      rw [hji, change_i hne] at ht
      exact hdir ht
    have hdirj : (node j).type = .dir := of_change_of_ne (P := (·.type = .dir)) hdp.1 hji ht
    have htally := tally_change node (proper j) x y hne hmem hmem'
    have hadd := hy.proper_add (i := j) hdp hyl
    obtain ⟨hzero, hej⟩ := hsame j hj0 hji
    have hx : proper j x = 0 := by simp [proper, not_live_of_type hdir]
    rw [hzero, if_neg hej] at hadd
    have hone := h.single j hj0 hdirj
    omega
  · intro d hd
    have hdi : d ≠ i := by
      intro hdi
      rw [hdi, change_i hne] at hd
      exact hdir hd.1
    have hlive : Live (node d) := of_change_of_ne hdp hdi hd
    refine (h.reach d hlive).transfer (fun j => (node j).type = .dir) hlive.1 ?_
    intro j a hl ha hane hdot hdotdot hadir
    refine ⟨hl.1, ?_⟩
    have hai : a.inum ≠ i := fun hai => hold (hai ▸ hadir)
    by_cases hjd : j = dp
    · subst hjd
      rw [change_dp]
      refine ⟨hyl, hy.mem_entries hshape ha hdot hdotdot ?_⟩
      intro hmemslot
      rcases hslot a hmemslot with hc | hc
      · exact hai hc
      · exact hane hc
    · have hji : j ≠ i := fun hji => hold (hji ▸ hl.1)
      rw [change_of_ne hjd hji]
      exact ⟨hl, ha⟩

/-- A new directory is entered in its parent. -/
theorem Tree.addDir (h : Tree node) (hdp : Live (node dp)) (hi : i ≠ 0) (hin : i < ninodes)
    (hold : (node i).type = .free) (hdir : x.type = .dir) (hshape : Shape i x)
    (hparent : parent x = dp) (hempty : below x = []) (hxn : x.nlink = 1)
    (hy : Rewritten dp (node dp) y k e) (hyn : y.nlink = (node dp).nlink + 1)
    (he : e.inum = i) (hslot : ∀ a ∈ slot (below (node dp)) k, a.inum = 0) :
    Tree (change node i dp x y) := by
  have hne : dp ≠ i := by
    intro heq
    have hlive := hdp.1
    rw [heq, hold] at hlive
    cases hlive
  have hyl : Live y := ⟨hy.type_eq, by have := hdp.2; omega⟩
  have hxl : Live x := ⟨hdir, by omega⟩
  have hdp0 : dp ≠ 0 := h.ne_zero hdp
  have hmem : dp ∈ Finset.range ninodes := h.lt_ninodes hdp
  have hmem' : i ∈ Finset.range ninodes := Finset.mem_range.mpr hin
  have holdl : ¬ Live (node i) := not_live_of_type (by simp [hold])
  have hroot : i ≠ rootino := by
    intro heq
    have hlive := h.root.1.1
    rw [← heq, hold] at hlive
    cases hlive
  have hcount : ∀ j, j ≠ 0 →
      (slot (below (node dp)) k).countP (fun e => e.inum = j) = 0 :=
    fun j hj => countP_slot_eq_zero (i := 0) (fun a ha => .inl (hslot a ha)) hj hj
  have hxproper : ∀ j, proper j x = 0 := fun j => by simp [proper, hempty]
  have hlinks : ∀ j, j ≠ 0 → links (change node i dp x y) j =
      links node j + (if i = j then 1 else 0) + if dp = j then 1 else 0 := by
    intro j hj
    have htally := tally_change node (naming j) x y hne hmem hmem'
    have hadd := hy.naming_add (h.shape dp hdp.1) hdp hyl hj
    have hx : naming j x = if dp = j then 1 else 0 := by
      rw [naming_eq hshape hj, hxproper j]
      simp [upward, hxl, hparent]
    rw [naming_of_not_live holdl, hx] at htally
    rw [hcount j hj, he] at hadd
    unfold links
    omega
  apply h.of_change hne hdp hi hin hy hyl (by simp [hdir])
  · exact fun _ => ⟨hshape, by simp [hempty]⟩
  · exact fun _ => .inl hold
  · exact hroot
  · exact .inr ⟨he, fun _ => hparent⟩
  · intro j hj hjd hji
    have heq := hlinks j hj
    rw [if_neg (Ne.symm hji), if_neg (Ne.symm hjd)] at heq
    omega
  · intro j hj
    rcases hj with rfl | rfl
    · have hold := h.nlink_eq j (by simp [hdp.1])
      have hbound := h.dir_nlink_le hdp.1
      rw [change_dp, hyn, hlinks j hdp0, if_neg (Ne.symm hne), if_pos rfl]
      unfold ninodes at hbound
      omega
    · rw [change_i hne, hxn, hlinks j hi, if_pos rfl, if_neg hne, h.unnamed j hi hold]
      omega
  · intro j hj0 ht
    have htally := tally_change node (proper j) x y hne hmem hmem'
    have hadd := hy.proper_add (i := j) hdp hyl
    rw [hcount j hj0, he] at hadd
    have hxj := hxproper j
    by_cases hji : j = i
    · subst hji
      have hzero : tally (Finset.range ninodes) (proper j) node = 0 := by
        have heq := h.links_eq hi
        rw [h.unnamed j hi hold] at heq
        omega
      rw [if_pos rfl] at hadd
      omega
    · have hdirj : (node j).type = .dir := of_change_of_ne (P := (·.type = .dir)) hdp.1 hji ht
      have hone := h.single j hj0 hdirj
      rw [if_neg (Ne.symm hji)] at hadd
      omega
  · have hkeep : ∀ d, Live (node d) → Reachable (change node i dp x y) d := by
      intro d hd
      refine (h.reach d hd).transfer (fun j => (node j).type = .dir) hd.1 ?_
      intro j a hl ha hane hdot hdotdot hadir
      refine ⟨hl.1, ?_⟩
      by_cases hjd : j = dp
      · subst hjd
        rw [change_dp]
        refine ⟨hyl, hy.mem_entries (h.shape j hdp.1) ha hdot hdotdot ?_⟩
        exact fun hmemslot => hane (hslot a hmemslot)
      · have hji : j ≠ i := fun hji => holdl (hji ▸ hl)
        rw [change_of_ne hjd hji]
        exact ⟨hl, ha⟩
    intro d hd
    by_cases hdi : d = i
    · have hname := hy.shape.names e (hy.below_eq ▸ mem_writeEntry_self) (he ▸ hi)
      have hentry : e ∈ (change node i dp x y dp).entries := by
        rw [change_dp]
        exact mem_entries_of_below (hy.below_eq ▸ mem_writeEntry_self)
      have hl : Live (change node i dp x y dp) := by rwa [change_dp]
      have hstep := Reachable.entry (hkeep dp hdp) hl hentry (he ▸ hi) hname.1 hname.2
      rw [hdi]
      rwa [he] at hstep
    · exact hkeep d (of_change_of_ne hdp hdi hd)

/-- The entries of a new inode `i` with type `type`. -/
def newEntries (type : FileType) (i dp : ℕ) : List Dirent :=
  if type = .dir then [⟨i, dot⟩, ⟨dp, dotdot⟩] else []

/-- A new inode is entered in a directory. -/
theorem Tree.create (h : Tree node) (hdp : Live (node dp)) (hi : i ≠ 0) (hin : i < ninodes)
    (hfree : (node i).type = .free) {name : Name}
    (hname : lookup name (node dp).entries = none) (hx : x.type ≠ .free) (hxn : x.nlink = 1)
    (hxe : x.entries = newEntries x.type i dp) (hy : y.type = .dir)
    (hye : y.entries = (linked (node dp) name i).entries)
    (hyn : y.nlink = (node dp).nlink + if x.type = .dir then 1 else 0) :
    Tree (change node i dp x y) := by
  have hdp0 : dp ≠ 0 := h.ne_zero hdp
  obtain ⟨k, hrw, hslot⟩ := (h.shape dp hdp.1).add hdp0 hname hy hye
  by_cases hdir : x.type = .dir
  · rw [if_pos hdir] at hyn
    rw [newEntries, if_pos hdir] at hxe
    have hparent : parent x = dp := by rw [parent, hxe]; rfl
    have hbelow : below x = [] := by rw [below, hxe]; rfl
    have hshape : Shape i x := by
      refine ⟨?_, hparent ▸ hdp0, by simp [hbelow]⟩
      rw [hparent, hbelow, hxe]
    exact h.addDir hdp hi hin hfree hdir hshape hparent hbelow hxn hrw hyn rfl hslot
  · rw [if_neg hdir] at hyn
    have hzero : (slot (below (node dp)) k).countP (fun e => e.inum = i) = 0 :=
      countP_slot_eq_zero (i := 0) (fun a ha => .inl (hslot a ha)) hi hi
    refine h.relink hdp hi hin (by simp [hfree]) hdir hx hrw (by omega) (.inr rfl)
      (fun a ha => .inr (hslot a ha)) ?_ (by omega)
    rw [hzero, hxn, h.unnamed i hi hfree]
    simp

/-- An empty directory is removed from its parent. -/
theorem Tree.removeDir (h : Tree node) (hdp : Live (node dp)) (hi : i ≠ 0)
    (hdir : (node i).type = .dir) (hempty : ∀ e ∈ below (node i), e.inum = 0)
    (hxt : x.type = .dir) (hxe : x.entries = (node i).entries)
    (hxn : x.nlink = (node i).nlink - 1)
    (hy : Rewritten dp (node dp) y k e) (hyn : y.nlink = (node dp).nlink - 1)
    (he : e.inum = 0) {a : Dirent} (hslot : slot (below (node dp)) k = [a]) (ha : a.inum = i) :
    Tree (change node i dp x y) ∧ 0 < y.nlink := by
  have hamem : a ∈ below (node dp) := by
    have hsub : a ∈ slot (below (node dp)) k := by simp [hslot]
    exact List.mem_of_mem_drop (List.mem_of_mem_take hsub)
  obtain ⟨hparent, hroot⟩ := h.inParent dp hdp a hamem (ha ▸ hi) (ha ▸ hdir)
  rw [ha] at hparent hroot
  have hne : dp ≠ i := by
    intro heq
    rw [heq] at hamem
    exact hi (ha ▸ hempty a hamem)
  have hin : i < ninodes := (h.bounded i (by simp [hdir])).2
  have hdp0 : dp ≠ 0 := h.ne_zero hdp
  have hmem : dp ∈ Finset.range ninodes := h.lt_ninodes hdp
  have hmem' : i ∈ Finset.range ninodes := Finset.mem_range.mpr hin
  have hproper : tally (Finset.range ninodes) (proper i) node = 1 := by
    have hpos : 0 < proper i (node dp) := proper_pos_iff.mpr ⟨hdp, a, hamem, ha⟩
    have hle := le_tally (w := proper i) (f := node) hmem
    have hone := h.single i hi hdir
    omega
  -- A subdirectory would be named by an entry of the directory.
  have hupward : tally (Finset.range ninodes) (upward i) node = 0 := by
    by_contra hpos
    obtain ⟨d, -, hd⟩ := exists_of_tally_pos (Nat.pos_of_ne_zero hpos)
    obtain ⟨hl, hpd⟩ := upward_pos_iff.mp hd
    have hdroot : d ≠ rootino := by
      intro heq
      rw [heq, h.root.2] at hpd
      exact hroot hpd.symm
    obtain ⟨-, c, hc, hcd⟩ := h.exists_entry hl hdroot
    rw [hpd] at hc
    have hd0 : d = 0 := hcd ▸ hempty c hc
    have hpos := (h.bounded d (by simp [hl.1])).1
    omega
  have hone : (node i).nlink = 1 := by
    rw [h.nlink_eq i (by simp [hdir]), h.links_eq hi, hproper, hupward]
    rfl
  have hlive : Live (node i) := ⟨hdir, by omega⟩
  have hxl : ¬ Live x := fun hl => by have := hl.2; omega
  have htwo : 2 ≤ links node dp := by
    rw [h.links_eq hdp0]
    have hup : upward dp (node i) = 1 := by simp [upward, hlive, hparent]
    by_cases hdproot : dp = rootino
    · have hself : upward dp (node dp) = 1 := by
        rw [hdproot]
        simp [upward, h.root]
      have hle := add_le_tally (w := upward dp) (f := node) hmem hmem' hne
      omega
    · obtain ⟨hl, c, hc, hcd⟩ := h.exists_entry hdp hdproot
      have hpos : 0 < proper dp (node (parent (node dp))) :=
        proper_pos_iff.mpr ⟨hl, c, hc, hcd⟩
      have hle := le_tally (w := proper dp) (f := node) (h.lt_ninodes hl)
      have hle' := le_tally (w := upward dp) (f := node) hmem'
      omega
  have hdpn := h.nlink_eq dp (by simp [hdp.1])
  have hyl : Live y := ⟨hy.type_eq, by omega⟩
  have hcount : ∀ j, (slot (below (node dp)) k).countP (fun e => e.inum = j) =
      if i = j then 1 else 0 := by
    intro j
    rw [hslot, List.countP_cons]
    simp [ha]
  have hlinks : ∀ j, j ≠ 0 → links (change node i dp x y) j +
      (if i = j then 1 else 0) + (if dp = j then 1 else 0) = links node j := by
    intro j hj
    have htally := tally_change node (naming j) x y hne hmem hmem'
    have hadd := hy.naming_add (h.shape dp hdp.1) hdp hyl hj
    have hx : naming j (node i) = if dp = j then 1 else 0 := by
      have hzero : proper j (node i) = 0 := by
        by_contra hpos
        obtain ⟨-, c, hc, hcj⟩ := proper_pos_iff.mp (Nat.pos_of_ne_zero hpos)
        exact hj (hcj ▸ hempty c hc)
      rw [naming_eq (h.shape i hdir) hj, hzero]
      simp [upward, hlive, hparent]
    rw [naming_of_not_live hxl, hx] at htally
    rw [hcount j, he, if_neg (Ne.symm hj)] at hadd
    unfold links
    omega
  have hxbelow : below x = below (node i) := by rw [below, hxe, below]
  have hxparent : parent x = parent (node i) := by rw [parent, hxe, parent]
  have hxshape : Shape i x := by
    have hs := h.shape i hdir
    refine ⟨?_, ?_, ?_⟩
    · rw [hxe, hxparent, hxbelow]
      exact hs.entries_eq
    · rw [hxparent]
      exact hs.parent_ne
    · rw [hxbelow]
      exact hs.names
  refine ⟨?_, hyl.2⟩
  apply h.of_change hne hdp hi hin hy hyl (by simp [hxt])
  · exact fun _ => ⟨hxshape, hxbelow ▸ hempty⟩
  · exact fun _ => .inr ⟨hdir, hxparent⟩
  · exact hroot
  · exact .inl he
  · intro j hj hjd hji
    have heq := hlinks j hj
    rw [if_neg (Ne.symm hji), if_neg (Ne.symm hjd)] at heq
    omega
  · intro j hj
    rcases hj with rfl | rfl
    · have heq := hlinks j hdp0
      rw [if_neg (Ne.symm hne), if_pos rfl] at heq
      have hlt := h.nlink_lt j (by simp [hdp.1])
      rw [change_dp, hyn]
      omega
    · have heq := hlinks j hi
      have hold := h.nlink_eq j (by simp [hdir])
      rw [if_pos rfl, if_neg hne] at heq
      rw [change_i hne, hxn]
      omega
  · intro j hj0 ht
    have hdirj : (node j).type = .dir := by
      by_cases hji : j = i
      · rwa [hji]
      · exact of_change_of_ne (P := (·.type = .dir)) hdp.1 hji ht
    have htally := tally_change node (proper j) x y hne hmem hmem'
    have hadd := hy.proper_add (i := j) hdp hyl
    have hx : proper j x = 0 := by simp [proper, hxl]
    rw [hcount j, he, if_neg (Ne.symm hj0)] at hadd
    have hsingle := h.single j hj0 hdirj
    omega
  · intro d hd
    have hdi : d ≠ i := by
      intro hdi
      rw [hdi, change_i hne] at hd
      exact hxl hd
    have hlived : Live (node d) := of_change_of_ne hdp hdi hd
    refine (h.reach d hlived).transfer (fun j => j ≠ i) hdi ?_
    intro j c hl hc hcne hdot hdotdot hci
    have hji : j ≠ i := by
      intro hji
      subst hji
      exact hcne (hempty c ((h.shape j hdir).mem_below hc hdot hdotdot))
    refine ⟨hji, ?_⟩
    by_cases hjd : j = dp
    · subst hjd
      rw [change_dp]
      refine ⟨hyl, hy.mem_entries (h.shape j hdp.1) hc hdot hdotdot ?_⟩
      rw [hslot, List.mem_singleton]
      intro hca
      exact hci (hca ▸ ha)
    · rw [change_of_ne hjd hji]
      exact ⟨hl, hc⟩

/-- A file gets another entry. -/
theorem Tree.addLink (h : Tree node) (hdp : Live (node dp)) {name : Name}
    (hname : lookup name (node dp).entries = none) (hfree : (node i).type ≠ .free)
    (hdir : (node i).type ≠ .dir) (hshort : (node i).nlink + 1 < 2 ^ 15) :
    Tree (change node i dp { node i with nlink := (node i).nlink + 1 }
      (linked (node dp) name i)) := by
  obtain ⟨hpos, hin⟩ := h.bounded i hfree
  have hi0 : i ≠ 0 := by omega
  have hdp0 : dp ≠ 0 := h.ne_zero hdp
  obtain ⟨k, hrewrite, hslot⟩ := (h.shape dp hdp.1).add hdp0 hname hdp.1
    (y := linked (node dp) name i) rfl
  have hzero : (slot (below (node dp)) k).countP (fun e => e.inum = i) = 0 :=
    countP_slot_eq_zero (i := 0) (fun a ha => .inl (hslot a ha)) hi0 hi0
  refine h.relink hdp hi0 hin hdir hdir hfree hrewrite rfl (.inr rfl)
    (fun a ha => .inr (hslot a ha)) ?_ hshort
  rw [hzero, ← h.nlink_eq i hfree]
  simp

/-- What the lookup of a name other than `.` and `..` finds. -/
theorem Tree.lookup_live (h : Tree node) (hdp : (node dp).type = .dir) {name : Name} {r : ℕ × ℕ}
    (hdot : name ≠ dot) (hdotdot : name ≠ dotdot)
    (hlookup : lookup name (node dp).entries = some r) :
    Live (node dp) ∧ (node r.2).type ≠ .free ∧ 1 ≤ (node r.2).nlink := by
  obtain ⟨k, -, hslot, hr⟩ := (h.shape dp hdp).lookup_below hdot hdotdot hlookup
  have hmem : ⟨r.2, name⟩ ∈ below (node dp) := by
    have hsub : ⟨r.2, name⟩ ∈ slot (below (node dp)) k := by simp [hslot]
    exact List.mem_of_mem_drop (List.mem_of_mem_take hsub)
  have hlive : Live (node dp) := by
    refine ⟨hdp, ?_⟩
    have hlow := h.nlink_nonneg (i := dp) (by simp [hdp])
    by_contra hzero
    exact hr (h.removed dp hdp (by omega) _ hmem)
  have hfree := h.type_ne_free hlive hmem hr
  have hpos := h.links_pos hlive hmem hr
  refine ⟨hlive, hfree, ?_⟩
  rw [h.nlink_eq r.2 hfree]
  exact Int.natCast_pos.mpr hpos

/-- The directory after `unlink` has cleared an entry. -/
def unlinked (x : Node) (k : ℕ) (nlink : ℤ) : Node :=
  { x with entries := writeEntry x.entries k ⟨0, []⟩, nlink := nlink }

/-- An entry of a file or of an empty directory is removed. -/
theorem Tree.removeEntry (h : Tree node) (hdp : (node dp).type = .dir) {name : Name} {r : ℕ × ℕ}
    (hdot : name ≠ dot) (hdotdot : name ≠ dotdot)
    (hlookup : lookup name (node dp).entries = some r)
    (hempty : (node r.2).type = .dir → isdirempty (node r.2) = true) {n : ℤ}
    (hn : n = (node dp).nlink - if (node r.2).type = .dir then 1 else 0) :
    dp ≠ r.2 ∧ 0 < n ∧ Tree (change node r.2 dp
      { node r.2 with nlink := (node r.2).nlink - 1 } (unlinked (node dp) r.1 n)) := by
  obtain ⟨hlive, hfree, hlink⟩ := h.lookup_live hdp hdot hdotdot hlookup
  obtain ⟨k, hk, hslot, hr⟩ := (h.shape dp hdp).lookup_below hdot hdotdot hlookup
  have hrewrite : Rewritten dp (node dp) (unlinked (node dp) r.1 n) k ⟨0, []⟩ :=
    (h.shape dp hdp).rewrite hdp (by rw [unlinked, hk]) (by simp)
  by_cases hdir : (node r.2).type = .dir
  · rw [if_pos hdir] at hn
    have hbelow : ∀ e ∈ below (node r.2), e.inum = 0 := by
      simpa [isdirempty, below] using hempty hdir
    obtain ⟨htree, hpos⟩ := h.removeDir (x := { node r.2 with nlink := (node r.2).nlink - 1 })
      hlive hr hdir hbelow hdir rfl rfl hrewrite hn rfl hslot rfl
    refine ⟨?_, hpos, htree⟩
    intro heq
    have hmem : ⟨r.2, name⟩ ∈ below (node dp) := by
      have hsub : ⟨r.2, name⟩ ∈ slot (below (node dp)) k := by simp [hslot]
      exact List.mem_of_mem_drop (List.mem_of_mem_take hsub)
    rw [heq] at hmem
    exact hr (hbelow _ hmem)
  · rw [if_neg hdir] at hn
    have hlt := h.nlink_lt r.2 hfree
    have hlivepos := hlive.2
    refine ⟨fun heq => hdir (heq ▸ hdp), by omega, ?_⟩
    refine h.relink hlive hr (h.bounded r.2 hfree).2 hdir hdir hfree hrewrite
      (by simp only [unlinked]; omega) (.inl rfl) (by simp [hslot]) ?_ (by simp only; omega)
    have hone : ([⟨r.2, name⟩] : List Dirent).countP (fun e => e.inum = r.2) = 1 := by simp
    rw [hslot, h.nlink_eq r.2 hfree, hone, if_neg (Ne.symm hr)]
    dsimp only
    omega

/-- An inode without links is freed. -/
theorem Tree.release (h : Tree node) (hi : (node i).type = .free ∨ (node i).nlink = 0)
    (hx : x.type = .free) : Tree (update node i x) := by
  have hold : ¬ Live (node i) := by
    intro hl
    rcases hi with hi | hi
    · rw [hl.1] at hi
      cases hi
    · have := hl.2
      omega
  have hself : update node i x i = x := update_self ..
  have hne : ∀ j, (update node i x j).type ≠ .free → j ≠ i := by
    intro j hj hji
    rw [hji, hself] at hj
    exact hj hx
  have hlive : ∀ j, Live (update node i x j) ↔ Live (node j) := by
    intro j
    by_cases hji : j = i
    · rw [hji, hself]
      exact iff_of_false (not_live_of_type (by simp [hx])) hold
    · rw [update_of_ne hji]
  have htally : ∀ w : Node → ℕ, (∀ y, ¬ Live y → w y = 0) →
      tally (Finset.range ninodes) w (update node i x) =
        tally (Finset.range ninodes) w node := by
    intro w hw
    apply tally_congr
    intro j _
    by_cases hji : j = i
    · rw [hji, hself, hw _ hold, hw _ (not_live_of_type (by simp [hx]))]
    · rw [update_of_ne hji]
  have hlinks : ∀ j, links (update node i x) j = links node j :=
    fun j => htally _ fun y hy => naming_of_not_live hy
  refine ⟨?_, ?_, ?_, ?_, ?_, ?_, ?_, ?_, ?_, ?_⟩
  · intro j hj
    have hji := hne j hj
    rw [update_of_ne hji] at hj
    exact h.bounded j hj
  · intro j hj
    have hji := hne j (by simp [hj])
    rw [update_of_ne hji] at hj ⊢
    exact h.shape j hj
  · intro j hj hzero
    have hji := hne j (by simp [hj])
    rw [update_of_ne hji] at hj hzero ⊢
    exact h.removed j hj hzero
  · intro j hj
    have hji := hne j hj
    rw [update_of_ne hji] at hj ⊢
    rw [hlinks]
    exact h.nlink_eq j hj
  · intro j hj
    have hji := hne j hj
    rw [update_of_ne hji] at hj ⊢
    exact h.nlink_lt j hj
  · intro j hj0 hj
    rw [hlinks]
    by_cases hji : j = i
    · subst hji
      rcases hi with hi | hi
      · exact h.unnamed j hj0 hi
      · by_cases hfree : (node j).type = .free
        · exact h.unnamed j hj0 hfree
        · have heq := h.nlink_eq j hfree
          omega
    · rw [update_of_ne hji] at hj
      exact h.unnamed j hj0 hj
  · intro d hd a ha hane ht
    have hdi := hne d (by simp [hd.1])
    have hai := hne a.inum (by simp [ht])
    rw [update_of_ne hdi] at hd ha
    rw [update_of_ne hai] at ht ⊢
    exact h.inParent d hd a ha hane ht
  · intro j hj0 hj
    have hji := hne j (by simp [hj])
    rw [update_of_ne hji] at hj
    rw [htally _ fun y hy => by simp [proper, hy]]
    exact h.single j hj0 hj
  · have hroot : rootino ≠ i := fun heq => hold (heq ▸ h.root.1)
    rw [update_of_ne hroot]
    exact h.root
  · intro d hd
    rw [hlive] at hd
    refine (h.reach d hd).transfer (fun j => True) trivial ?_
    intro j a hl ha _ _ _ _
    have hji : j ≠ i := fun hji => hold (hji ▸ hl)
    rw [update_of_ne hji]
    exact ⟨trivial, hl, ha⟩

end CS352.Directories
