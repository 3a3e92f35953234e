import CS352.Library.Tally

/-! # Radix tables in memory

A page of memory has `fan` entries, and an entry may point to a page. In a table of depth `d`
the entries of the root point to tables of depth `d - 1`; the entries of a table of depth `0`
are what the table stores. -/

namespace CS352.RadixTable

open Tally Function

/-- How an entry is read. -/
structure Format (ε : Type) where
  fan : ℕ
  next : ε → Option ℕ
  inner : ε → Bool
  blank : ε
  next_blank : next blank = none

variable {ε : Type} (F : Format ε)

/-- How often page `a` is a node of the table with root `r`. -/
def nodes (mem : ℕ → ℕ → ε) : ℕ → ℕ → ℕ → ℕ
  | 0, r, a => if r = a then 1 else 0
  | d + 1, r, a => (if r = a then 1 else 0) +
      tally (Finset.range F.fan) (fun e => (F.next e).elim 0 fun c => nodes mem d c a) (mem r)

/-- The last node on the path `k`, which gives an index for every level. -/
def slot (mem : ℕ → ℕ → ε) : ℕ → ℕ → (ℕ → ℕ) → Option ℕ
  | 0, r, _ => some r
  | d + 1, r, k => (F.next (mem r (k (d + 1)))).bind fun c => slot mem d c k

/-- The entry that the table stores at the end of the path. -/
def lookup (mem : ℕ → ℕ → ε) (d r : ℕ) (k : ℕ → ℕ) : Option ε :=
  ((slot F mem d r k).map fun t => mem t (k 0)).filter fun e => (F.next e).isSome

/-- Entries are marked as inner entries at all levels but the last. -/
def Shape (mem : ℕ → ℕ → ε) : ℕ → ℕ → Prop
  | 0, r => ∀ i < F.fan, (F.next (mem r i)).isSome → F.inner (mem r i) = false
  | d + 1, r => ∀ i < F.fan, ∀ c, F.next (mem r i) = some c →
      F.inner (mem r i) = true ∧ Shape mem d c

variable {F} {mem mem' : ℕ → ℕ → ε} {d r i j a b c t : ℕ} {k k' : ℕ → ℕ} {free free' : List ℕ}

/-! ## Nodes -/

theorem nodes_self : 0 < nodes F mem d r r := by
  cases d with
  | zero => simp [nodes]
  | succ d => simp [nodes]

theorem nodes_child (hi : i < F.fan) (hc : F.next (mem r i) = some c) :
    (if r = a then 1 else 0) + nodes F mem d c a ≤ nodes F mem (d + 1) r a := by
  have hle := le_tally (w := fun e => (F.next e).elim 0 fun c => nodes F mem d c a)
    (f := mem r) (Finset.mem_range.mpr hi)
  rw [hc] at hle
  exact Nat.add_le_add_left hle _

theorem nodes_children (hi : i < F.fan) (hj : j < F.fan) (hij : i ≠ j)
    (hc : F.next (mem r i) = some b) (hc' : F.next (mem r j) = some c) :
    nodes F mem d b a + nodes F mem d c a ≤ nodes F mem (d + 1) r a := by
  have hle := add_le_tally (w := fun e => (F.next e).elim 0 fun c => nodes F mem d c a)
    (f := mem r) (Finset.mem_range.mpr hi) (Finset.mem_range.mpr hj) hij
  simp only [hc, hc', Option.elim_some] at hle
  exact hle.trans (Nat.le_add_left _ _)

theorem nodes_blank (h : ∀ i, mem b i = F.blank) :
    nodes F mem d b a = if b = a then 1 else 0 := by
  cases d with
  | zero => rfl
  | succ d =>
    have hzero : tally (Finset.range F.fan)
        (fun e => (F.next e).elim 0 fun c => nodes F mem d c a) (mem b) = 0 :=
      tally_eq_zero fun i _ => by simp [h, F.next_blank]
    simp [nodes, hzero]

/-! ## Tables that keep their nodes -/

section Congr

theorem child_agrees (h : ∀ b, nodes F mem (d + 1) r b ≠ 0 → mem' b = mem b) (hi : i < F.fan)
    (hc : F.next (mem r i) = some c) (b : ℕ) (hb : nodes F mem d c b ≠ 0) : mem' b = mem b := by
  apply h
  have hle := nodes_child (d := d) (a := b) hi hc
  omega

theorem nodes_congr (h : ∀ b, nodes F mem d r b ≠ 0 → mem' b = mem b) :
    nodes F mem' d r a = nodes F mem d r a := by
  induction d generalizing r with
  | zero => rfl
  | succ d ih =>
    have hr := h r (Nat.pos_iff_ne_zero.mp nodes_self)
    unfold nodes
    rw [hr]
    congr 1
    refine tally_congr ?_
    intro i hi
    cases hc : F.next (mem r i) with
    | none => rfl
    | some c => exact ih (child_agrees h (Finset.mem_range.mp hi) hc)

theorem slot_congr (h : ∀ b, nodes F mem d r b ≠ 0 → mem' b = mem b) (hk : ∀ j, k j < F.fan) :
    slot F mem' d r k = slot F mem d r k := by
  induction d generalizing r with
  | zero => rfl
  | succ d ih =>
    have hr := h r (Nat.pos_iff_ne_zero.mp nodes_self)
    unfold slot
    rw [hr]
    cases hc : F.next (mem r (k (d + 1))) with
    | none => rfl
    | some c => exact ih (child_agrees h (hk _) hc)

/-- The last node on a path is a node. -/
theorem nodes_slot (hk : ∀ j, k j < F.fan) (h : slot F mem d r k = some t) :
    0 < nodes F mem d r t := by
  induction d generalizing r with
  | zero =>
    cases h
    exact nodes_self
  | succ d ih =>
    obtain ⟨c, hc, hslot⟩ := Option.bind_eq_some_iff.mp h
    have hle := nodes_child (d := d) (a := t) (hk _) hc
    have hpos := ih hslot
    omega

theorem lookup_congr (h : ∀ b, nodes F mem d r b ≠ 0 → mem' b = mem b) (hk : ∀ j, k j < F.fan) :
    lookup F mem' d r k = lookup F mem d r k := by
  unfold lookup
  rw [slot_congr h hk]
  cases hslot : slot F mem d r k with
  | none => rfl
  | some t => simp only [Option.map_some, h t (Nat.pos_iff_ne_zero.mp (nodes_slot hk hslot))]

theorem Shape.congr (h : ∀ b, nodes F mem d r b ≠ 0 → mem' b = mem b) (hs : Shape F mem d r) :
    Shape F mem' d r := by
  induction d generalizing r with
  | zero =>
    unfold Shape
    rw [h r (Nat.pos_iff_ne_zero.mp nodes_self)]
    exact hs
  | succ d ih =>
    unfold Shape
    rw [h r (Nat.pos_iff_ne_zero.mp nodes_self)]
    intro i hi c hc
    obtain ⟨hinner, hchild⟩ := hs i hi c hc
    exact ⟨hinner, ih (child_agrees h hi hc) hchild⟩

end Congr

/-! ## Tables that grow

Nodes are taken from a list of free pages. -/

/-- A table gets nodes from the free list, and stores the same. -/
structure Grown (F : Format ε) (d r : ℕ) (mem : ℕ → ℕ → ε) (free : List ℕ) (mem' : ℕ → ℕ → ε)
    (free' : List ℕ) : Prop where
  agree : ∀ b, nodes F mem d r b = 0 → free.count b = 0 → mem' b = mem b
  count : ∀ a, nodes F mem' d r a + free'.count a = nodes F mem d r a + free.count a
  lookup_eq : ∀ k, (∀ j, k j < F.fan) → lookup F mem' d r k = lookup F mem d r k
  shape : Shape F mem' d r

/-- Every page is at most once a node or free. -/
def Apart (F : Format ε) (d r : ℕ) (mem : ℕ → ℕ → ε) (free : List ℕ) : Prop :=
  ∀ a, nodes F mem d r a + free.count a ≤ 1

theorem Grown.refl (h : Shape F mem d r) : Grown F d r mem free mem free :=
  ⟨fun _ _ _ => rfl, fun _ => rfl, fun _ _ => rfl, h⟩

theorem Grown.apart (h : Grown F d r mem free mem' free') (ha : Apart F d r mem free) :
    Apart F d r mem' free' := by
  intro a
  rw [h.count a]
  exact ha a

theorem Grown.trans {mem'' : ℕ → ℕ → ε} {free'' : List ℕ} (h : Grown F d r mem free mem' free')
    (h' : Grown F d r mem' free' mem'' free'') : Grown F d r mem free mem'' free'' := by
  refine ⟨?_, ?_, ?_, h'.shape⟩
  · intro b hb hfree
    have hcount := h.count b
    rw [h'.agree b (by omega) (by omega), h.agree b hb hfree]
  · intro a
    rw [h'.count a, h.count a]
  · intro k hk
    rw [h'.lookup_eq k hk, h.lookup_eq k hk]

theorem Apart.root (h : Apart F (d + 1) r mem free) (hi : i < F.fan)
    (hc : F.next (mem r i) = some c) : nodes F mem d c r = 0 ∧ free.count r = 0 := by
  have hle := nodes_child (d := d) (a := r) hi hc
  rw [if_pos rfl] at hle
  have hone := h r
  omega

theorem Apart.child (h : Apart F (d + 1) r mem free) (hi : i < F.fan)
    (hc : F.next (mem r i) = some c) : Apart F d c mem free := by
  intro a
  have hle := nodes_child (d := d) (a := a) hi hc
  have hone := h a
  omega

/-- What happens in one subtable is not seen in another one. -/
theorem Apart.sibling (h : Apart F (d + 1) r mem free) (hi : i < F.fan) (hj : j < F.fan)
    (hij : i ≠ j) (hc : F.next (mem r i) = some c) (hb : F.next (mem r j) = some b)
    (hagree : ∀ a, nodes F mem d c a = 0 → free.count a = 0 → mem' a = mem a) (a : ℕ)
    (ha : nodes F mem d b a ≠ 0) : mem' a = mem a := by
  have hle := nodes_children (d := d) (a := a) hi hj hij hc hb
  have hchild := nodes_child (d := d) (a := a) hj hb
  have hone := h a
  exact hagree a (by omega) (by omega)

theorem lookup_succ (hc : F.next (mem r (k (d + 1))) = some c) :
    lookup F mem (d + 1) r k = lookup F mem d c k := by
  simp only [lookup, slot, hc, Option.bind_some]

theorem lookup_succ_none (hc : F.next (mem r (k (d + 1))) = none) :
    lookup F mem (d + 1) r k = none := by
  simp [lookup, slot, hc]

/-- A table grows with one of its subtables. -/
theorem Grown.child (ha : Apart F (d + 1) r mem free) (hs : Shape F mem (d + 1) r)
    (hi : i < F.fan) (hc : F.next (mem r i) = some c) (h : Grown F d c mem free mem' free') :
    Grown F (d + 1) r mem free mem' free' := by
  have hroot := ha.root hi hc
  have hr : mem' r = mem r := h.agree r hroot.1 hroot.2
  refine ⟨?_, ?_, ?_, ?_⟩
  · intro b hb hfree
    have hle := nodes_child (d := d) (a := b) hi hc
    exact h.agree b (by omega) hfree
  · intro a
    have hswap := tally_exchange (I := Finset.range F.fan) (f := mem r) (g := mem' r)
      (w := fun e => (F.next e).elim 0 fun c => nodes F mem d c a)
      (v := fun e => (F.next e).elim 0 fun c => nodes F mem' d c a) (Finset.mem_range.mpr hi) (by
        intro j hj hji
        rw [hr]
        cases hb : F.next (mem r j) with
        | none => rfl
        | some b =>
          have hsame := ha.sibling hi (Finset.mem_range.mp hj) hji.symm hc hb h.agree
          exact (nodes_congr hsame).symm)
    have hcount := h.count a
    simp only [hr, hc, Option.elim_some] at hswap
    simp only [nodes, hr]
    omega
  · intro k hk
    cases hb : F.next (mem r (k (d + 1))) with
    | none => rw [lookup_succ_none hb, lookup_succ_none (by rw [hr, hb])]
    | some b =>
      rw [lookup_succ hb, lookup_succ (by rw [hr, hb])]
      by_cases hki : k (d + 1) = i
      · have hbc : b = c := by
          rw [hki, hc] at hb
          exact (Option.some.inj hb).symm
        rw [hbc]
        exact h.lookup_eq k hk
      · exact lookup_congr (ha.sibling hi (hk _) (Ne.symm hki) hc hb h.agree) hk
  · intro j hj b hb
    rw [hr] at hb ⊢
    obtain ⟨hinner, hchild⟩ := hs j hj b hb
    refine ⟨hinner, ?_⟩
    by_cases hji : j = i
    · have hbc : b = c := by
        rw [hji, hc] at hb
        exact (Option.some.inj hb).symm
      rw [hbc]
      exact h.shape
    · exact hchild.congr (ha.sibling hi hj (Ne.symm hji) hc hb h.agree)

theorem lookup_blank (h : ∀ i, mem b i = F.blank) : lookup F mem d b k = none := by
  cases d with
  | zero => simp [lookup, slot, h, F.next_blank]
  | succ d => exact lookup_succ_none (by rw [h, F.next_blank])

theorem Shape.blank (h : ∀ i, mem b i = F.blank) : Shape F mem d b := by
  cases d with
  | zero =>
    intro i _ hsome
    simp [h, F.next_blank] at hsome
  | succ d =>
    intro i _ c hc
    simp [h, F.next_blank] at hc

/-- The memory in which entry `i` of `r` points to the blank page `b`. -/
def attach (F : Format ε) (mem : ℕ → ℕ → ε) (r i b : ℕ) (x : ε) : ℕ → ℕ → ε :=
  update (update mem b fun _ => F.blank) r (update (mem r) i x)

/-- A free page becomes a subtable. -/
theorem Grown.attach {x : ε} (ha : Apart F (d + 1) r mem (b :: free))
    (hs : Shape F mem (d + 1) r) (hi : i < F.fan) (hnone : F.next (mem r i) = none)
    (hx : F.next x = some b) (hinner : F.inner x = true) :
    Grown F (d + 1) r mem (b :: free) (attach F mem r i b x) free := by
  have hb := ha b
  rw [List.count_cons_self] at hb
  have hnode : nodes F mem (d + 1) r b = 0 := by omega
  have hbr : b ≠ r := by
    intro heq
    have hself : 0 < nodes F mem (d + 1) r r := nodes_self
    rw [heq] at hnode
    omega
  have hmr : RadixTable.attach F mem r i b x r = update (mem r) i x :=
    update_self ..
  have hmb : ∀ j, RadixTable.attach F mem r i b x b j = F.blank := by
    intro j
    simp [RadixTable.attach, hbr]
  have hm : ∀ a, a ≠ r → a ≠ b → RadixTable.attach F mem r i b x a = mem a := by
    intro a har hab
    simp [RadixTable.attach, har, hab]
  have hother : ∀ j < F.fan, ∀ c, F.next (mem r j) = some c → ∀ a, nodes F mem d c a ≠ 0 →
      RadixTable.attach F mem r i b x a = mem a := by
    intro j hj c hc a hca
    have hle := nodes_child (d := d) (a := a) hj hc
    apply hm
    · intro har
      have hroot := (har ▸ (ha.root hj hc).1 : nodes F mem d c a = 0)
      exact hca hroot
    · intro hab
      rw [hab] at hle hca
      omega
  refine ⟨?_, ?_, ?_, ?_⟩
  · intro a hra hfree
    apply hm
    · intro har
      have hself : 0 < nodes F mem (d + 1) r r := nodes_self
      rw [har] at hra
      omega
    · intro hab
      rw [hab, List.count_cons_self] at hfree
      omega
  · intro a
    have hswap := tally_exchange (I := Finset.range F.fan) (f := mem r)
      (g := RadixTable.attach F mem r i b x r)
      (w := fun e => (F.next e).elim 0 fun c => nodes F mem d c a)
      (v := fun e => (F.next e).elim 0 fun c => nodes F (RadixTable.attach F mem r i b x) d c a)
      (Finset.mem_range.mpr hi) (by
        intro j hj hji
        rw [hmr, update_of_ne hji]
        cases hc : F.next (mem r j) with
        | none => rfl
        | some c => exact (nodes_congr (hother j (Finset.mem_range.mp hj) c hc)).symm)
    simp only [hnone, hmr, update_self, hx, Option.elim_some, Option.elim_none,
      nodes_blank hmb] at hswap
    simp only [nodes, hmr, List.count_cons, beq_iff_eq]
    omega
  · intro k hk
    by_cases hki : k (d + 1) = i
    · have hnew : F.next (RadixTable.attach F mem r i b x r (k (d + 1))) = some b := by
        rw [hmr, hki, update_self, hx]
      rw [lookup_succ hnew, lookup_blank hmb, lookup_succ_none (hki ▸ hnone)]
    · have hsame : RadixTable.attach F mem r i b x r (k (d + 1)) = mem r (k (d + 1)) := by
        rw [hmr, update_of_ne hki]
      cases hc : F.next (mem r (k (d + 1))) with
      | none => rw [lookup_succ_none hc, lookup_succ_none (by rw [hsame, hc])]
      | some c =>
        rw [lookup_succ hc, lookup_succ (by rw [hsame, hc])]
        exact lookup_congr (hother _ (hk _) c hc) hk
  · intro j hj c hc
    by_cases hji : j = i
    · rw [hji, hmr, update_self] at hc ⊢
      rw [hx] at hc
      cases hc
      exact ⟨hinner, .blank hmb⟩
    · rw [hmr, update_of_ne hji] at hc ⊢
      obtain ⟨hin, hchild⟩ := hs j hj c hc
      exact ⟨hin, hchild.congr (hother j hj c hc)⟩

/-! ## Changing what a table stores -/

/-- Paths with the same last node agree above the last level. -/
theorem slot_inj (ha : ∀ a, nodes F mem d r a ≤ 1) (hk : ∀ j, k j < F.fan)
    (hk' : ∀ j, k' j < F.fan) (h : slot F mem d r k = some t) (h' : slot F mem d r k' = some t)
    (hj : j < d) : k (j + 1) = k' (j + 1) := by
  induction d generalizing r with
  | zero => exact absurd hj (Nat.not_lt_zero j)
  | succ d ih =>
    obtain ⟨c, hc, hslot⟩ := Option.bind_eq_some_iff.mp h
    obtain ⟨c', hc', hslot'⟩ := Option.bind_eq_some_iff.mp h'
    have htop : k (d + 1) = k' (d + 1) := by
      by_contra hne
      have hle := nodes_children (d := d) (a := t) (hk _) (hk' _) hne hc hc'
      have hpos := nodes_slot hk hslot
      have hpos' := nodes_slot hk' hslot'
      have hone := ha t
      omega
    rcases Nat.lt_succ_iff_lt_or_eq.mp hj with hlt | heq
    · rw [htop, hc'] at hc
      cases hc
      refine ih ?_ hslot hslot' hlt
      intro a
      have hle := nodes_child (d := d) (a := a) (hk' _) hc'
      have hone := ha a
      omega
    · rw [heq, htop]

/-- The last node of a path has no inner entries. -/
theorem Shape.last (hs : Shape F mem d r) (hk : ∀ j, k j < F.fan)
    (h : slot F mem d r k = some t) (hi : i < F.fan) (hsome : (F.next (mem t i)).isSome) :
    F.inner (mem t i) = false := by
  induction d generalizing r with
  | zero =>
    cases h
    exact hs i hi hsome
  | succ d ih =>
    obtain ⟨c, hc, hslot⟩ := Option.bind_eq_some_iff.mp h
    exact ih (hs _ (hk _) c hc).2 hslot

/-- Only the indices for the levels of the table matter. -/
theorem slot_ext (h : ∀ j ≤ d, k' j = k j) : slot F mem d r k' = slot F mem d r k := by
  induction d generalizing r with
  | zero => rfl
  | succ d ih =>
    simp only [slot, h (d + 1) (Nat.le_refl _)]
    congr 1
    funext c
    exact ih fun j hj => h j (Nat.le_succ_of_le hj)

theorem lookup_ext (h : ∀ j ≤ d, k' j = k j) : lookup F mem d r k' = lookup F mem d r k := by
  unfold lookup
  rw [slot_ext h, h 0 (Nat.zero_le d)]

/-- The nodes of a table do not depend on what is stored in one of its last nodes. -/
theorem setLast_nodes (ha : ∀ a, nodes F mem d r a ≤ 1) (hk : ∀ j, k j < F.fan)
    (h : slot F mem d r k = some t) (p : ℕ → ε) :
    (∀ a, nodes F (update mem t p) d r a = nodes F mem d r a) ∧
      (∀ k', (∀ j, k' j < F.fan) →
        slot F (update mem t p) d r k' = slot F mem d r k') ∧
      (Shape F mem d r → (∀ i < F.fan, (F.next (p i)).isSome → F.inner (p i) = false) →
        Shape F (update mem t p) d r) := by
  induction d generalizing r with
  | zero =>
    cases h
    refine ⟨fun _ => rfl, fun _ _ => rfl, ?_⟩
    intro _ hp
    simpa [Shape] using hp
  | succ d ih =>
    obtain ⟨c, hc, hslot⟩ := Option.bind_eq_some_iff.mp h
    have hpos := nodes_slot hk hslot
    have hrt : r ≠ t := by
      intro heq
      have hle := nodes_child (d := d) (a := t) (hk _) hc
      rw [if_pos heq] at hle
      have hone := ha t
      omega
    have hr : update mem t p r = mem r := update_of_ne hrt _ _
    have hchild : ∀ a, nodes F mem d c a ≤ 1 := by
      intro a
      have hle := nodes_child (d := d) (a := a) (hk _) hc
      have hone := ha a
      omega
    obtain ⟨hn, hsl, hsh⟩ := ih hchild hslot
    have hother : ∀ j < F.fan, ∀ b, F.next (mem r j) = some b → j ≠ k (d + 1) →
        ∀ a, nodes F mem d b a ≠ 0 → update mem t p a = mem a := by
      intro j hj b hb hne a hba
      apply update_of_ne
      intro hat
      have hle := nodes_children (d := d) (a := a) hj (hk _) hne hb hc
      have hone := ha a
      rw [hat] at hle hba hone
      omega
    have hsub : ∀ j b, F.next (mem r j) = some b → j = k (d + 1) → b = c := by
      intro j b hb heq
      rw [heq, hc] at hb
      exact (Option.some.inj hb).symm
    refine ⟨?_, ?_, ?_⟩
    · intro a
      simp only [nodes, hr]
      congr 1
      refine tally_congr ?_
      intro j hj
      cases hb : F.next (mem r j) with
      | none => rfl
      | some b =>
        by_cases hjk : j = k (d + 1)
        · rw [hsub j b hb hjk]
          exact hn a
        · exact nodes_congr (hother j (Finset.mem_range.mp hj) b hb hjk)
    · intro k' hk'
      simp only [slot, hr]
      cases hb : F.next (mem r (k' (d + 1))) with
      | none => rfl
      | some b =>
        by_cases hjk : k' (d + 1) = k (d + 1)
        · rw [hsub _ b hb hjk]
          exact hsl k' hk'
        · exact slot_congr (hother _ (hk' _) b hb hjk) hk'
    · intro hs hp j hj b hb
      rw [hr] at hb ⊢
      obtain ⟨hinner, hshape⟩ := hs j hj b hb
      refine ⟨hinner, ?_⟩
      by_cases hjk : j = k (d + 1)
      · rw [hsub j b hb hjk] at hshape ⊢
        exact hsh hshape hp
      · exact hshape.congr (hother j hj b hb hjk)

/-- The memory in which the last node `t` stores `x` at the end of the path `k`. -/
def store (mem : ℕ → ℕ → ε) (t : ℕ) (k : ℕ → ℕ) (x : ε) : ℕ → ℕ → ε :=
  update mem t (update (mem t) (k 0) x)

theorem lookup_store_self (ha : ∀ a, nodes F mem d r a ≤ 1) (hk : ∀ j, k j < F.fan)
    (h : slot F mem d r k = some t) (x : ε) :
    lookup F (store mem t k x) d r k = (some x).filter fun e => (F.next e).isSome := by
  unfold lookup
  rw [store, (setLast_nodes ha hk h _).2.1 k hk, h]
  simp

theorem lookup_store_of_ne (ha : ∀ a, nodes F mem d r a ≤ 1) (hk : ∀ j, k j < F.fan)
    (hk' : ∀ j, k' j < F.fan) (h : slot F mem d r k = some t) (x : ε) (hj : j ≤ d)
    (hne : k' j ≠ k j) : lookup F (store mem t k x) d r k' = lookup F mem d r k' := by
  unfold lookup
  rw [store, (setLast_nodes ha hk h _).2.1 k' hk']
  cases hslot : slot F mem d r k' with
  | none => rfl
  | some t' =>
    simp only [Option.map_some]
    by_cases ht : t' = t
    · -- the last nodes are the same, so the paths differ at the last level
      have hlast : k' 0 ≠ k 0 := by
        cases j with
        | zero => exact hne
        | succ j => exact absurd (slot_inj ha hk' hk hslot (ht ▸ h) hj) hne
      rw [ht, update_self, update_of_ne hlast]
    · rw [update_of_ne ht]

end CS352.RadixTable
