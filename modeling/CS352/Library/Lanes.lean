import Mathlib.Data.List.Nodup
import Mathlib.Data.List.Basic
import Mathlib.Logic.Function.Basic

/-! # Doubly linked lanes in an index table

Nodes are indices of a table with a `next` and a `prev` link for each index. A lane is
the stretch between a head and a tail sentinel. -/

namespace CS352.Lanes

open Function

variable {ι κ : Type*}

/-- Following `next` from `a` visits the nodes of `xs` in order and then `b`, and `prev`
undoes each of these links. -/
def Linked (next prev : ι → ι) : ι → List ι → ι → Prop
  | a, [], b => next a = b ∧ prev b = a
  | a, x :: xs, b => next a = x ∧ prev x = a ∧ Linked next prev x xs b

variable {next prev next' prev' : ι → ι} {a b c p : ι} {xs ys : List ι}

@[simp] theorem linked_nil : Linked next prev a [] b ↔ next a = b ∧ prev b = a := Iff.rfl

@[simp] theorem linked_cons {x : ι} :
    Linked next prev a (x :: xs) b ↔ next a = x ∧ prev x = a ∧ Linked next prev x xs b :=
  Iff.rfl

/-! ## Cutting and extending a lane -/

theorem linked_append_cons :
    Linked next prev a (xs ++ p :: ys) b ↔
      Linked next prev a xs p ∧ Linked next prev p ys b := by
  induction xs generalizing a with
  | nil => simp [and_assoc]
  | cons x xs ih => simp [ih, and_assoc]

theorem linked_concat :
    Linked next prev a (xs ++ [p]) b ↔
      Linked next prev a xs p ∧ next p = b ∧ prev b = p :=
  linked_append_cons

/-- Only the links out of `a :: xs` and into `xs ++ [b]` matter. -/
theorem Linked.congr (h : Linked next prev a xs b)
    (hnext : ∀ x ∈ a :: xs, next' x = next x) (hprev : ∀ x ∈ b :: xs, prev' x = prev x) :
    Linked next' prev' a xs b := by
  induction xs generalizing a with
  | nil =>
    obtain ⟨hn, hp⟩ := h
    exact ⟨(hnext a (by simp)).trans hn, (hprev b (by simp)).trans hp⟩
  | cons x xs ih =>
    obtain ⟨hn, hp, hrest⟩ := h
    refine ⟨(hnext a (by simp)).trans hn, (hprev x (by simp)).trans hp, ih hrest ?_ ?_⟩
    · intro y hy
      exact hnext y (List.mem_cons_of_mem a hy)
    · intro y hy
      rcases List.mem_cons.mp hy with rfl | hy
      · exact hprev y (by simp)
      · exact hprev y (by simp [hy])

/-- The link back from the end is the last node, or the start of an empty lane. -/
theorem Linked.prev_mem (h : Linked next prev a xs b) : prev b ∈ a :: xs := by
  induction xs generalizing a with
  | nil => simp [h.2]
  | cons x xs ih => exact List.mem_cons_of_mem a (ih h.2.2)

theorem Linked.next_mem (h : Linked next prev a xs b) : next a ∈ xs ++ [b] := by
  cases xs with
  | nil => simp [h.1]
  | cons x xs => simp [h.1]

/-- The two writes that redirect the end of a lane from `b` to `c`. -/
theorem Linked.retarget [DecidableEq ι] (h : Linked next prev a xs b)
    (hnodup : (a :: xs).Nodup) (hc : c ∉ xs) :
    Linked (update next (prev b) c) (update prev c (prev b)) a xs c := by
  rcases List.eq_nil_or_concat xs with rfl | ⟨ys, z, rfl⟩
  · obtain ⟨_, hb⟩ := h
    simp [hb]
  · rw [List.concat_eq_append] at *
    obtain ⟨hfront, _, hb⟩ := linked_concat.mp h
    rw [hb]
    refine linked_concat.mpr ⟨hfront.congr ?_ ?_, by simp, by simp⟩
    · intro x hx
      have hxz : x ≠ z := by
        rintro rfl
        simp only [List.nodup_cons, List.mem_append, List.nodup_append] at hnodup
        grind
      simp [hxz]
    · intro x hx
      have hxc : x ≠ c := by
        rintro rfl
        exact hc (by grind)
      simp [hxc]

/-- A lane that does not run through its own end is determined by its links. -/
theorem Linked.unique (h : Linked next prev a xs b) (h' : Linked next prev a ys b)
    (hxs : b ∉ xs) (hys : b ∉ ys) : xs = ys := by
  induction xs generalizing a ys with
  | nil =>
    cases ys with
    | nil => rfl
    | cons y ys => exact absurd (h.1.symm.trans h'.1) (by grind)
  | cons x xs ih =>
    cases ys with
    | nil => exact absurd (h'.1.symm.trans h.1) (by grind)
    | cons y ys =>
      obtain ⟨hx, _, hrest⟩ := h
      obtain ⟨hy, _, hrest'⟩ := h'
      obtain rfl : x = y := hx.symm.trans hy
      rw [ih hrest hrest' (by grind) (by grind)]

/-! ## A family of disjoint lanes -/

/-- Lane `i` holds exactly the nodes of `L i`. No node is on two lanes, twice on one,
or a sentinel. -/
structure Holds (next prev : ι → ι) (head tail : κ → ι) (L : κ → List ι) : Prop where
  linked : ∀ i, Linked next prev (head i) (L i) (tail i)
  nodup : ∀ i, (L i).Nodup
  disjoint : ∀ i j, i ≠ j → (L i).Disjoint (L j)
  head_notMem : ∀ i j, head i ∉ L j
  tail_notMem : ∀ i j, tail i ∉ L j

/-- The sentinels of the lanes are pairwise different. -/
structure Sentinels (head tail : κ → ι) : Prop where
  head_inj : ∀ i j, head i = head j → i = j
  tail_inj : ∀ i j, tail i = tail j → i = j
  head_ne_tail : ∀ i j, head i ≠ tail j

variable {head tail : κ → ι} {L : κ → List ι} {i : κ}

theorem Holds.next_head_eq_tail_iff (h : Holds next prev head tail L) :
    next (head i) = tail i ↔ L i = [] := by
  have hl := h.linked i
  have ht := h.tail_notMem i i
  cases hL : L i with
  | nil => simpa [hL] using hl.next_mem
  | cons x xs =>
    rw [hL] at hl ht
    have hx : x ≠ tail i := by grind
    simp [hl.1, hx]

theorem Holds.next_head_of_cons {x : ι} (h : Holds next prev head tail L)
    (hL : L i = x :: xs) : next (head i) = x := by
  have hl := h.linked i
  rw [hL] at hl
  exact hl.1

theorem Holds.prev_of_cons {x : ι} (h : Holds next prev head tail L)
    (hL : L i = x :: xs) : prev x = head i := by
  have hl := h.linked i
  rw [hL] at hl
  exact hl.2.1

theorem Holds.next_of_cons {x : ι} (h : Holds next prev head tail L)
    (hL : L i = x :: xs) : next x = xs.headD (tail i) := by
  have hl := h.linked i
  rw [hL] at hl
  obtain ⟨-, -, hrest⟩ := hl
  cases xs with
  | nil => exact hrest.1
  | cons y ys => exact hrest.1

/-- Two descriptions of the same table agree. -/
theorem Holds.unique {L' : κ → List ι} (h : Holds next prev head tail L)
    (h' : Holds next prev head tail L') : L = L' := by
  funext i
  exact (h.linked i).unique (h'.linked i) (h.tail_notMem i i) (h'.tail_notMem i i)

/-- Sentinels that point at each other are empty lanes. -/
theorem holds_empty (hnext : ∀ i, next (head i) = tail i)
    (hprev : ∀ i, prev (tail i) = head i) :
    Holds next prev head tail (fun _ => []) :=
  ⟨fun i => ⟨hnext i, hprev i⟩, by simp, by simp, by simp, by simp⟩

/-- Lanes that lose nodes keep everything but their links. -/
theorem Holds.shrink {L' : κ → List ι} (h : Holds next prev head tail L)
    (hlinked : ∀ j, Linked next' prev' (head j) (L' j) (tail j))
    (hsub : ∀ j, (L' j).Sublist (L j)) : Holds next' prev' head tail L' := by
  refine ⟨hlinked, ?_, ?_, ?_, ?_⟩
  · exact fun j => (h.nodup j).sublist (hsub j)
  · intro j k hjk x hx hx'
    exact h.disjoint j k hjk ((hsub j).subset hx) ((hsub k).subset hx')
  · exact fun j k hx => h.head_notMem j k ((hsub k).subset hx)
  · exact fun j k hx => h.tail_notMem j k ((hsub k).subset hx)

theorem Holds.prev_tail_mem (h : Holds next prev head tail L) (i : κ) :
    prev (tail i) ∈ head i :: L i :=
  (h.linked i).prev_mem

theorem Holds.prev_tail_mem_of_ne_nil (h : Holds next prev head tail L) (hi : L i ≠ []) :
    prev (tail i) ∈ L i := by
  obtain ⟨ys, y, hy⟩ := (List.eq_nil_or_concat (L i)).resolve_left hi
  have hl := h.linked i
  rw [hy, List.concat_eq_append, linked_concat] at hl
  rw [hl.2.2, hy]
  simp

/-- Two different lanes share no node, sentinels included. -/
theorem Holds.ne_of_mem (h : Holds next prev head tail L) (hs : Sentinels head tail)
    {j : κ} (hij : i ≠ j) {x y : ι} (hx : x ∈ head i :: L i) (hy : y ∈ head j :: L j) :
    x ≠ y := by
  rintro rfl
  rcases List.mem_cons.mp hx with rfl | hx
  · rcases List.mem_cons.mp hy with hy | hy
    · exact hij (hs.head_inj i j hy)
    · exact h.head_notMem i j hy
  · rcases List.mem_cons.mp hy with rfl | hy
    · exact h.head_notMem j i hx
    · exact h.disjoint i j hij hx hy

theorem Holds.tail_side_ne (h : Holds next prev head tail L) (hs : Sentinels head tail)
    {j : κ} (hij : i ≠ j) {x y : ι} (hx : x ∈ tail i :: L i) (hy : y ∈ tail j :: L j) :
    x ≠ y := by
  rintro rfl
  rcases List.mem_cons.mp hx with rfl | hx
  · rcases List.mem_cons.mp hy with hy | hy
    · exact hij (hs.tail_inj i j hy)
    · exact h.tail_notMem i j hy
  · rcases List.mem_cons.mp hy with rfl | hy
    · exact h.tail_notMem j i hx
    · exact h.disjoint i j hij hx hy

theorem Holds.head_cons_nodup (h : Holds next prev head tail L) (i : κ) :
    (head i :: L i).Nodup :=
  List.nodup_cons.mpr ⟨h.head_notMem i i, h.nodup i⟩

variable [DecidableEq ι] [DecidableEq κ]

/-- The four link writes that append a fresh node `p` before the tail of lane `i`. -/
theorem Holds.push (h : Holds next prev head tail L) (hs : Sentinels head tail)
    (hp : ∀ j, p ∉ L j) (hph : ∀ j, p ≠ head j) (hpt : ∀ j, p ≠ tail j) (i : κ) :
    Holds (update (update next p (tail i)) (prev (tail i)) p)
      (update (update prev p (prev (tail i))) (tail i) p)
      head tail (update L i (L i ++ [p])) := by
  have hlast := h.prev_tail_mem i
  have hplast : p ≠ prev (tail i) := by
    intro hcontra
    rw [← hcontra] at hlast
    rcases List.mem_cons.mp hlast with hlast | hlast
    · exact hph i hlast
    · exact hp i hlast
  refine ⟨?_, ?_, ?_, ?_, ?_⟩
  · intro j
    by_cases hj : j = i
    · -- the lane itself: redirect its end to `p`, then link `p` to the tail
      subst j
      simp only [update_self]
      refine linked_concat.mpr ⟨?_, ?_, by simp⟩
      · refine ((h.linked i).retarget (h.head_cons_nodup i) (hp i)).congr ?_ ?_
        · intro x hx
          have hxp : x ≠ p := ne_of_mem_of_not_mem hx (by simp [hph i, hp i])
          by_cases hxl : x = prev (tail i)
          · simp [hxl]
          · simp [hxl, hxp]
        · intro x hx
          have hxt : x ≠ tail i :=
            ne_of_mem_of_not_mem hx (by simp [(hpt i).symm, h.tail_notMem i i])
          by_cases hxp : x = p
          · simp [hxp, hpt i]
          · simp [hxp, hxt]
      · simp [hplast]
    · rw [update_of_ne hj]
      refine (h.linked j).congr ?_ ?_
      · intro x hx
        have hxl : x ≠ prev (tail i) := h.ne_of_mem hs hj hx hlast
        have hxp : x ≠ p := ne_of_mem_of_not_mem hx (by simp [hph j, hp j])
        simp [hxl, hxp]
      · intro x hx
        have hxt : x ≠ tail i := h.tail_side_ne hs hj hx (by simp)
        have hxp : x ≠ p := ne_of_mem_of_not_mem hx (by simp [hpt j, hp j])
        simp [hxt, hxp]
  · intro j
    by_cases hj : j = i
    · subst j
      simp only [update_self, List.nodup_append, h.nodup i, true_and]
      grind
    · simpa [hj] using h.nodup j
  · intro j k hjk
    have hd := h.disjoint j k hjk
    by_cases hj : j = i
    · subst j
      have hk : k ≠ i := fun hcontra => hjk hcontra.symm
      simpa [hk, List.disjoint_append_left] using ⟨hd, hp k⟩
    · by_cases hk : k = i
      · subst k
        simpa [hj, List.disjoint_append_right] using ⟨hd, hp j⟩
      · simpa [hj, hk] using hd
  · intro j k
    have hj := h.head_notMem j k
    by_cases hk : k = i
    · subst k
      simp [hj, (hph j).symm]
    · simpa [hk] using hj
  · intro j k
    have hj := h.tail_notMem j k
    by_cases hk : k = i
    · subst k
      simp [hj, (hpt j).symm]
    · simpa [hk] using hj

/-- Redirecting the neighbours of `p` to each other takes `p` out of its lane. -/
theorem Linked.bypass (h : Linked next prev a (xs ++ p :: ys) b)
    (hnodup : (a :: (xs ++ p :: ys)).Nodup) (hb : b ∉ xs ++ p :: ys) :
    Linked (update next (prev p) (next p)) (update prev (next p) (prev p))
      a (xs ++ ys) b := by
  obtain ⟨hfront, hback⟩ := linked_append_cons.mp h
  have hfrontNodup : (a :: xs).Nodup := by
    refine hnodup.sublist ?_
    exact (List.sublist_append_left xs (p :: ys)).cons_cons a
  have hmem := hfront.prev_mem
  cases ys with
  | nil =>
    rw [hback.1, List.append_nil]
    exact hfront.retarget hfrontNodup (by grind)
  | cons y ys =>
    obtain ⟨hy, _, hrest⟩ := hback
    rw [hy]
    refine linked_append_cons.mpr ⟨hfront.retarget hfrontNodup (by grind), hrest.congr ?_ ?_⟩
    · intro x hx
      have hne : x ≠ prev p := by grind
      simp [hne]
    · intro x hx
      have hne : x ≠ y := by grind
      simp [hne]

/-- Unlinking a node from any position of its lane keeps the order of the rest. -/
theorem Holds.unlink (h : Holds next prev head tail L) (hs : Sentinels head tail)
    (hL : L i = xs ++ p :: ys) :
    Holds (update next (prev p) (next p)) (update prev (next p) (prev p))
      head tail (update L i (xs ++ ys)) := by
  have hlane := h.linked i
  rw [hL] at hlane
  obtain ⟨hfront, hback⟩ := linked_append_cons.mp hlane
  have hprev : prev p ∈ head i :: L i := by
    have := hfront.prev_mem
    rw [hL]
    grind
  have hnext : next p ∈ tail i :: L i := by
    have := hback.next_mem
    rw [hL]
    grind
  refine h.shrink ?_ ?_
  · intro j
    by_cases hj : j = i
    · subst j
      rw [update_self]
      refine hlane.bypass ?_ ?_
      · simpa only [hL] using h.head_cons_nodup i
      · simpa only [hL] using h.tail_notMem i i
    · rw [update_of_ne hj]
      refine (h.linked j).congr ?_ ?_
      · intro x hx
        simp [h.ne_of_mem hs hj hx hprev]
      · intro x hx
        simp [h.tail_side_ne hs hj hx hnext]
  · intro j
    by_cases hj : j = i
    · subst j
      rw [update_self, hL]
      exact (List.sublist_cons_self p ys).append_left xs
    · rw [update_of_ne hj]

/-- Pointing the sentinels of a lane at each other drops its nodes. -/
theorem Holds.clear (h : Holds next prev head tail L)
    (hs : Sentinels head tail) (i : κ) :
    Holds (update next (head i) (tail i)) (update prev (tail i) (head i)) head
      tail (update L i []) := by
  refine h.shrink ?_ ?_
  · intro j
    by_cases hj : j = i
    · subst j
      simp
    · rw [update_of_ne hj]
      refine (h.linked j).congr ?_ ?_
      · intro x hx
        refine update_of_ne ?_ _ _
        rintro rfl
        rcases List.mem_cons.mp hx with hx | hx
        · exact hj (hs.head_inj _ _ hx.symm)
        · exact h.head_notMem i j hx
      · intro x hx
        refine update_of_ne ?_ _ _
        rintro rfl
        rcases List.mem_cons.mp hx with hx | hx
        · exact hj (hs.tail_inj _ _ hx.symm)
        · exact h.tail_notMem i j hx
  · intro j
    by_cases hj : j = i
    · subst j
      simp
    · rw [update_of_ne hj]

end CS352.Lanes
