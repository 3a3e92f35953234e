import CS352.Library.RadixTable
import CS352.Library.WeakestPre
import CS352.Model.Memory

/-! # Page tables in memory

Who owns the physical pages, and what the functions of `kernel/vm.c` do to one page table. -/

namespace CS352.Memory

open RadixTable Tally WeakestPre Function

/-! ## Ownership -/

/-- The format of page tables. -/
def sv39 : Format Pte where
  fan := 512
  next e := if e.v then some e.ppn else none
  inner := Pte.inner
  blank := .zero
  next_blank := rfl

/-- The indices of page number `v` at the three levels. -/
def path (v level : ℕ) : ℕ := v / 512 ^ level % 512

/-- The page number of `TRAPFRAME`. -/
@[irreducible] def trapframeVpn : ℕ := 2 ^ 26 - 2

/-- The page number of `TRAMPOLINE`. -/
@[irreducible] def trampolineVpn : ℕ := 2 ^ 26 - 1

/-- The number of pages that a page table can map. -/
@[irreducible] def vpns : ℕ := 2 ^ 27

theorem path_lt (v j : ℕ) : path v j < sv39.fan := Nat.mod_lt _ (by decide)

theorem px_eq (level va : ℕ) : px level va = path (va / pgsize) level := by
  unfold px path pgsize
  rw [Nat.pow_add, Nat.pow_mul, ← Nat.div_div_eq_div_mul]

/-- Different pages have different indices at one of the levels. -/
theorem path_ne {v w : ℕ} (hv : v < vpns) (hw : w < vpns) (hne : w ≠ v) :
    ∃ j ≤ 2, path w j ≠ path v j := by
  by_contra hall
  simp only [not_exists, not_and, not_not] at hall
  have h₀ := hall 0 (by omega)
  have h₁ := hall 1 (by omega)
  have h₂ := hall 2 (by omega)
  unfold path at h₀ h₁ h₂
  unfold vpns at hv hw
  omega

/-- The mappings of an address space. -/
abbrev Space := ℕ → Option Pte

/-- The pages that the allocator has been given, and the contents of all other pages. -/
structure Pool [Image] where
  pages : List ℕ
  nodup : pages.Nodup
  inRam : ∀ a ∈ pages, Image.endPage ≤ a ∧ a < phystop
  others : ℕ → ℕ → Pte

def pageWeight (a : ℕ) (e : Option Pte) : ℕ := if e.map Pte.ppn = some a then 1 else 0

/-- How often a page is in the page table `x`, or mapped by it below `TRAPFRAME`. -/
@[irreducible] def own (mem : ℕ → ℕ → Pte) (x : ℕ × Space) (a : ℕ) : ℕ :=
  nodes sv39 mem 2 x.1 a + tally (Finset.range trapframeVpn) (pageWeight a) x.2

/-- The page table with root `r` has the mappings of `m`. -/
structure Table (mem : ℕ → ℕ → Pte) (r : ℕ) (m : Space) : Prop where
  shape : Shape sv39 mem 2 r
  lookup_eq : ∀ v < vpns, lookup sv39 mem 2 r (path v) = m v

/-- A page table is the same when its pages are. -/
theorem Table.congr {mem mem' : ℕ → ℕ → Pte} {r : ℕ} {m : Space} (h : Table mem r m)
    (hsame : ∀ b, nodes sv39 mem 2 r b ≠ 0 → mem' b = mem b) : Table mem' r m := by
  refine ⟨h.shape.congr hsame, ?_⟩
  intro v hv
  rw [lookup_congr hsame (path_lt v)]
  exact h.lookup_eq v hv

theorem own_eq (mem : ℕ → ℕ → Pte) (r : ℕ) (m : Space) (a : ℕ) : own mem (r, m) a =
    nodes sv39 mem 2 r a + tally (Finset.range trapframeVpn) (pageWeight a) m := by
  unfold own
  rfl

theorem nodes_le_own (mem : ℕ → ℕ → Pte) (r : ℕ) (m : Space) (a : ℕ) :
    nodes sv39 mem 2 r a ≤ own mem (r, m) a := by
  rw [own_eq]
  exact Nat.le_add_right _ _

variable [Image] {pool : Pool} {s t : State} {T X Y : List (ℕ × Space)} {H H' : List ℕ}
  {m m' : Space} {r a b v page : ℕ} {e : Pte} {E : Panic → Prop}

/-- Every page of the pool is free, held on its own, or owned by one of the page tables, and the
pages outside of the pool are not touched. -/
structure Heap (pool : Pool) (s : State) (T : List (ℕ × Space)) (H : List ℕ) : Prop where
  count : ∀ a, s.free.count a + H.count a + (T.map fun x => own s.mem x a).sum =
    pool.pages.count a
  table : ∀ x ∈ T, Table s.mem x.1 x.2
  others : ∀ b ∉ pool.pages, s.mem b = pool.others b

omit [Image] in
theorem own_le_sum {x : ℕ × Space} (hx : x ∈ T) :
    own s.mem x a ≤ (T.map fun x => own s.mem x a).sum :=
  List.single_le_sum (fun _ _ => Nat.zero_le _) _ (List.mem_map_of_mem hx)

theorem Heap.count_le (h : Heap pool s T H) (a : ℕ) :
    s.free.count a + H.count a + (T.map fun x => own s.mem x a).sum ≤ 1 := by
  rw [h.count]
  exact List.nodup_iff_count_le_one.mp pool.nodup a

theorem Heap.inRam (h : Heap pool s T H)
    (ha : 0 < s.free.count a + H.count a + (T.map fun x => own s.mem x a).sum) :
    Image.endPage ≤ a ∧ a < phystop := by
  rw [h.count] at ha
  exact pool.inRam a (List.count_pos_iff.mp ha)

/-- The page tables of `X` are replaced by those of `Y`, and the others are not seen. -/
theorem Heap.change (h : Heap pool s (X ++ T) H)
    (htable : ∀ x ∈ Y, Table t.mem x.1 x.2)
    (hcount : ∀ a, t.free.count a + H'.count a + (Y.map fun x => own t.mem x a).sum =
      s.free.count a + H.count a + (X.map fun x => own s.mem x a).sum)
    (hframe : ∀ b, s.free.count b = 0 → H.count b = 0 →
      (X.map fun x => own s.mem x b).sum = 0 → t.mem b = s.mem b) :
    Heap pool t (Y ++ T) H' := by
  have hsame : ∀ x ∈ T, ∀ b, nodes sv39 s.mem 2 x.1 b ≠ 0 → t.mem b = s.mem b := by
    intro x hx b hb
    have hone := h.count_le b
    have hle := own_le_sum (s := s) (a := b) hx
    have hpos : nodes sv39 s.mem 2 x.1 b ≤ own s.mem x b := nodes_le_own ..
    rw [List.map_append, List.sum_append] at hone
    exact hframe b (by omega) (by omega) (by omega)
  refine ⟨?_, ?_, ?_⟩
  · intro a
    have hown : (T.map fun x => own t.mem x a) = T.map fun x => own s.mem x a := by
      apply List.map_congr_left
      intro x hx
      rw [own, own, nodes_congr (hsame x hx)]
    have hold := h.count a
    have hnew := hcount a
    rw [List.map_append, List.sum_append] at hold ⊢
    rw [hown]
    omega
  · intro x hx
    rcases List.mem_append.mp hx with hx | hx
    · exact htable x hx
    · exact (h.table x (List.mem_append_right X hx)).congr (hsame x hx)
  · intro b hb
    have hzero := h.count b
    rw [List.count_eq_zero.mpr hb, List.map_append, List.sum_append] at hzero
    rw [hframe b (by omega) (by omega) (by omega)]
    exact h.others b hb

theorem Heap.perm {T' : List (ℕ × Space)} (h : Heap pool s T H) (hT : T.Perm T')
    (hH : H.Perm H') : Heap pool s T' H' := by
  refine ⟨?_, ?_, h.others⟩
  · intro a
    rw [← hH.count_eq, ← (hT.map _).sum_eq]
    exact h.count a
  · intro x hx
    exact h.table x (hT.mem_iff.mpr hx)

/-- Only the free list, the page tables and the held pages matter. -/
theorem Heap.congr (h : Heap pool s T H) (hmem : t.mem = s.mem) (hfree : t.free = s.free) :
    Heap pool t T H := by
  refine ⟨?_, ?_, ?_⟩
  · rw [hmem, hfree]
    exact h.count
  · rw [hmem]
    exact h.table
  · rw [hmem]
    exact h.others

/-! ## Allocation -/

omit [Image] in
theorem wp_kalloc_cases {Q : Option ℕ → State → Prop}
    (hnone : ∀ t, t.mem = s.mem → t.free = s.free → t.toProcs = s.toProcs → Q none t)
    (hsome : ∀ a t, s.free = a :: t.free → t.mem = s.mem → t.toProcs = s.toProcs → Q (some a) t) :
    wp E kalloc Q s := by
  unfold kalloc
  rw [wp_bind, wp_get]
  split
  · exact hnone _ rfl rfl rfl
  · exact hnone _ rfl rfl rfl
  case h_3 hfree _ => exact hsome _ _ hfree rfl rfl

theorem wp_kalloc {Q : Option ℕ → State → Prop} (h : Heap pool s T H)
    (hnone : ∀ t, t.toProcs = s.toProcs → Heap pool t T H → Q none t)
    (hsome : ∀ a t, t.toProcs = s.toProcs → Heap pool t T (a :: H) → Q (some a) t) :
    wp E kalloc Q s := by
  apply wp_kalloc_cases
  · intro t hmem hfree hproc
    exact hnone t hproc (h.congr hmem hfree)
  · intro a t hfree hmem hproc
    refine hsome a t hproc ⟨?_, ?_, ?_⟩
    · intro b
      have hcount := h.count b
      rw [hfree, List.count_cons] at hcount
      rw [hmem, List.count_cons]
      omega
    · rw [hmem]
      exact h.table
    · rw [hmem]
      exact h.others

theorem wp_kfree {Q : Unit → State → Prop} (h : Heap pool s T (a :: H))
    (hQ : ∀ t, t.mem = s.mem → t.toProcs = s.toProcs → Heap pool t T H → Q () t) :
    wp E (kfree a) Q s := by
  have hram := h.inRam (a := a) (by rw [List.count_cons_self]; omega)
  unfold kfree
  refine wp_ite (fun hout => by omega) fun _ => ?_
  rw [wp_modify]
  refine hQ _ rfl rfl ⟨?_, h.table, h.others⟩
  intro b
  have hcount := h.count b
  simp only [List.count_cons] at hcount ⊢
  omega

/-! ## Walking a page table -/

/-- The entry that `walk` makes for a new page. -/
def pointer (page : ℕ) : Pte := ⟨page, true, .none⟩

omit [Image] in
theorem slot_next {d c : ℕ} (hv : (s.mem r (path v (d + 1))).v = true)
    (hc : (s.mem r (path v (d + 1))).ppn = c) :
    slot sv39 s.mem (d + 1) r (path v) = slot sv39 s.mem d c (path v) := by
  simp [slot, sv39, hv, hc]

omit [Image] in
theorem wp_walkFrom_read {Q : Option (ℕ × ℕ) → State → Prop} {va d : ℕ}
    (hQ : Q ((slot sv39 s.mem d r (path (va / pgsize))).map fun page => (page, px 0 va)) s) :
    wp E (walkFrom va false d r) Q s := by
  induction d generalizing r with
  | zero => exact hQ
  | succ d ih =>
    unfold walkFrom
    rw [wp_bind, wp_get, px_eq]
    refine wp_ite (fun hv => ?_) fun hv => ?_
    · apply ih
      rwa [← slot_next hv rfl]
    · rw [if_pos rfl, wp_pure]
      rw [Bool.not_eq_true] at hv
      simpa [slot, sv39, hv] using hQ

omit [Image] in
theorem wp_walkFrom_alloc {Q : Option (ℕ × ℕ) → State → Prop} {va d : ℕ}
    (ha : Apart sv39 d r s.mem s.free) (hs : Shape sv39 s.mem d r)
    (hnone : ∀ t, Grown sv39 d r s.mem s.free t.mem t.free → t.toProcs = s.toProcs → Q none t)
    (hsome : ∀ page t, Grown sv39 d r s.mem s.free t.mem t.free → t.toProcs = s.toProcs →
      slot sv39 t.mem d r (path (va / pgsize)) = some page → Q (some (page, px 0 va)) t) :
    wp E (walkFrom va true d r) Q s := by
  induction d generalizing r s with
  | zero => exact hsome r s (.refl hs) rfl rfl
  | succ d ih =>
    have hi := path_lt (va / pgsize) (d + 1)
    -- the rest of the walk, when the entry is valid
    have hwalk : ∀ u, Grown sv39 (d + 1) r s.mem s.free u.mem u.free → u.toProcs = s.toProcs →
        (u.mem r (path (va / pgsize) (d + 1))).v = true →
        wp E (walkFrom va true d (u.mem r (path (va / pgsize) (d + 1))).ppn) Q u := by
      intro u hgrown hproc hv
      have hc : sv39.next (u.mem r (path (va / pgsize) (d + 1))) =
          some (u.mem r (path (va / pgsize) (d + 1))).ppn := if_pos hv
      have hu := hgrown.apart ha
      apply ih (hu.child hi hc) (hgrown.shape _ hi _ hc).2
      · intro t ht hpt
        exact hnone t (hgrown.trans (ht.child hu hgrown.shape hi hc)) (hpt.trans hproc)
      · intro page t ht hpt hslot
        have hroot := hu.root hi hc
        have hr := ht.agree r hroot.1 hroot.2
        refine hsome page t (hgrown.trans (ht.child hu hgrown.shape hi hc)) (hpt.trans hproc) ?_
        rw [slot_next (by rw [hr, hv]) (by rw [hr]), hslot]
    unfold walkFrom
    rw [wp_bind, wp_get, px_eq]
    refine wp_ite (fun hv => ?_) fun hv => ?_
    · exact hwalk s (.refl hs) rfl hv
    · rw [if_neg (by simp), wp_bind]
      apply wp_kalloc_cases
      · intro t hmem hfree hproc
        refine hnone t ?_ hproc
        rw [hmem, hfree]
        exact .refl hs
      · intro page t hfree hmem hproc
        rw [Bool.not_eq_true] at hv
        rw [hfree] at ha hwalk
        have hpage : r ≠ page := by
          intro heq
          have hself : 0 < nodes sv39 s.mem (d + 1) r r := nodes_self
          have hone := ha page
          rw [List.count_cons_self, ← heq] at hone
          omega
        have hgrown := Grown.attach (x := pointer page) ha hs hi (by simp [sv39, hv]) rfl rfl
        simp only [wp_bind, zeroPage, setPte, wp_modify, hmem, update_of_ne hpage]
        have hentry : attach sv39 s.mem r (path (va / pgsize) (d + 1)) page (pointer page) r
            (path (va / pgsize) (d + 1)) = pointer page := by
          simp [attach]
        have hnext := hwalk
          { t with
            mem := attach sv39 s.mem r (path (va / pgsize) (d + 1)) page (pointer page) }
          hgrown hproc
        simp only [hentry] at hnext
        exact hnext rfl

omit [Image] in
theorem own_singleton (mem : ℕ → ℕ → Pte) (x : ℕ × Space) (a : ℕ) :
    ([x].map fun x => own mem x a).sum = own mem x a := by
  rw [List.map_singleton, List.sum_singleton]

theorem Heap.apart (h : Heap pool s ((r, m) :: T) H) : Apart sv39 2 r s.mem s.free := by
  intro a
  have hone := h.count_le a
  rw [List.map_cons, List.sum_cons] at hone
  have hpos := nodes_le_own s.mem r m a
  omega

theorem Heap.head (h : Heap pool s ((r, m) :: T) H) : Table s.mem r m :=
  h.table (r, m) List.mem_cons_self

/-- Growing one page table leaves all mappings as they are. -/
theorem Heap.grown (h : Heap pool s ((r, m) :: T) H)
    (hg : Grown sv39 2 r s.mem s.free t.mem t.free) : Heap pool t ((r, m) :: T) H := by
  refine Heap.change (X := [(r, m)]) (Y := [(r, m)]) h ?_ ?_ ?_
  · intro x hx
    rw [List.mem_singleton.mp hx]
    refine ⟨hg.shape, ?_⟩
    intro v hv
    rw [hg.lookup_eq _ (path_lt v)]
    exact h.head.lookup_eq v hv
  · intro a
    have hcount := hg.count a
    rw [own_singleton, own_singleton, own_eq, own_eq]
    omega
  · intro b hfree _ hown
    rw [own_singleton] at hown
    have hle := nodes_le_own s.mem r m b
    exact hg.agree b (by omega) hfree

theorem wp_walk_alloc {Q : Option (ℕ × ℕ) → State → Prop} {va : ℕ}
    (h : Heap pool s ((r, m) :: T) H) (hva : va < maxva)
    (hnone : ∀ t, t.toProcs = s.toProcs → Heap pool t ((r, m) :: T) H → Q none t)
    (hsome : ∀ page t, t.toProcs = s.toProcs → Heap pool t ((r, m) :: T) H →
      slot sv39 t.mem 2 r (path (va / pgsize)) = some page → Q (some (page, px 0 va)) t) :
    wp E (walk r va true) Q s := by
  unfold walk
  refine wp_ite (fun hge => by omega) fun _ => ?_
  apply wp_walkFrom_alloc h.apart h.head.shape
  · intro t hg hproc
    exact hnone t hproc (h.grown hg)
  · intro page t hg hproc hslot
    exact hsome page t hproc (h.grown hg) hslot

omit [Image] in
theorem wp_walk_read {Q : Option (ℕ × ℕ) → State → Prop} {va : ℕ} (hva : va < maxva)
    (hQ : Q ((slot sv39 s.mem 2 r (path (va / pgsize))).map fun page => (page, px 0 va)) s) :
    wp E (walk r va false) Q s := by
  unfold walk
  refine wp_ite (fun hge => by omega) fun _ => ?_
  exact wp_walkFrom_read hQ

omit [Image] in
/-- The valid entry for page `v`. -/
def leaf (s : State) (r v : ℕ) : Option Pte :=
  if v < maxva / pgsize then lookup sv39 s.mem 2 r (path v) else none

/-- The page that the user may access with this entry, or 0. -/
def frame (e : Option Pte) : ℕ := e.elim 0 fun e => if e.perm.u then e.ppn else 0

omit [Image] in
theorem lookup_slot {mem : ℕ → ℕ → Pte}
    (hslot : RadixTable.slot sv39 mem 2 r (path v) = some page) : lookup sv39 mem 2 r (path v) =
      if (mem page (path v 0)).v then some (mem page (path v 0)) else none := by
  rw [lookup, hslot, Option.map_some, Option.filter_some]
  cases hv : (mem page (path v 0)).v <;> simp [sv39, hv]

omit [Image] in
theorem wp_walkaddr {Q : ℕ → State → Prop} {va : ℕ} (hQ : Q (frame (leaf s r (va / pgsize))) s) :
    wp E (walkaddr r va) Q s := by
  unfold walkaddr
  refine wp_ite (fun hge => ?_) fun hlt => ?_
  · have hout : ¬ va / pgsize < maxva / pgsize := by
      unfold maxva pgsize at *
      omega
    rw [leaf, if_neg hout] at hQ
    exact hQ
  · have hin : va / pgsize < maxva / pgsize := by
      unfold maxva pgsize at *
      omega
    rw [leaf, if_pos hin] at hQ
    rw [wp_bind]
    refine wp_walk_read (Nat.lt_of_not_le hlt) ?_
    rw [px_eq]
    cases hslot : RadixTable.slot sv39 s.mem 2 r (path (va / pgsize)) with
    | none => simpa [lookup, hslot, frame] using hQ
    | some page =>
      rw [lookup_slot hslot] at hQ
      rw [Option.map_some]
      simp only [wp_bind, wp_get]
      refine wp_ite (fun hv => ?_) fun hv => ?_
      · simpa [frame, hv] using hQ
      · refine wp_ite (fun hu => ?_) fun hu => ?_
        · simpa [frame, hv, hu] using hQ
        · simpa [frame, hv, hu] using hQ

omit [Image] in
/-- The entry of a mapped page. -/
theorem Table.slot (h : Table s.mem r m) (hv : v < vpns) (hm : m v = some e) :
    ∃ page, slot sv39 s.mem 2 r (path v) = some page ∧ s.mem page (path v 0) = e ∧ e.v = true := by
  have hlook := h.lookup_eq v hv
  rw [hm] at hlook
  obtain ⟨hmap, hvalid⟩ := Option.filter_eq_some_iff.mp hlook
  obtain ⟨page, hslot, he⟩ := Option.map_eq_some_iff.mp hmap
  refine ⟨page, hslot, he, ?_⟩
  by_contra hnot
  simp [sv39, hnot] at hvalid

omit [Image] in
theorem Table.entry_invalid (h : Table s.mem r m) (hv : v < vpns) (hm : m v = none)
    (hslot : RadixTable.slot sv39 s.mem 2 r (path v) = some page) :
    (s.mem page (path v 0)).v = false := by
  have hlook := h.lookup_eq v hv
  rw [hm] at hlook
  by_contra hvalid
  rw [Bool.not_eq_false] at hvalid
  have hnext : sv39.next (s.mem page (path v 0)) = some (s.mem page (path v 0)).ppn := if_pos hvalid
  simp [lookup, hslot, hnext] at hlook

/-! ## Changing a mapping -/

/-- What a valid entry maps. -/
def Pte.mapping (e : Pte) : Option Pte := if e.v then some e else none

/-- The weight of page number `v` in `own`. -/
def weightAt (v a : ℕ) (e : Option Pte) : ℕ := if v < trapframeVpn then pageWeight a e else 0

omit [Image] in
theorem tally_space (v a : ℕ) (x : Option Pte) :
    tally (Finset.range trapframeVpn) (pageWeight a) (update m v x) +
      weightAt v a (m v) =
    tally (Finset.range trapframeVpn) (pageWeight a) m + weightAt v a x := by
  unfold weightAt
  by_cases hv : v < trapframeVpn
  · rw [if_pos hv, if_pos hv]
    exact tally_update (Finset.mem_range.mpr hv)
  · rw [if_neg hv, if_neg hv, tally_update_of_notMem (by simpa using hv)]

/-- An entry is written. -/
theorem Heap.store (h : Heap pool s ((r, m) :: T) H) (hv : v < vpns)
    (hslot : slot sv39 s.mem 2 r (path v) = some page)
    (hmem : t.mem = RadixTable.store s.mem page (path v) e)
    (hleaf : e.v = true → e.inner = false)
    (hcount : ∀ a, t.free.count a + H'.count a + weightAt v a e.mapping =
      s.free.count a + H.count a + weightAt v a (m v)) :
    Heap pool t ((r, update m v e.mapping) :: T) H' := by
  have hone : ∀ a, nodes sv39 s.mem 2 r a ≤ 1 := by
    intro a
    have hapart := h.apart a
    omega
  obtain ⟨hnodes, -, hshape⟩ := setLast_nodes hone (path_lt v) hslot
    (update (s.mem page) (path v 0) e)
  refine Heap.change (X := [(r, m)]) (Y := [(r, update m v e.mapping)]) h ?_ ?_ ?_
  · intro x hx
    rw [List.mem_singleton.mp hx, hmem]
    refine ⟨hshape h.head.shape ?_, ?_⟩
    · intro i hi hsome
      by_cases hiv : i = path v 0
      · rw [hiv, update_self] at hsome ⊢
        apply hleaf
        by_contra hnot
        simp [sv39, hnot] at hsome
      · rw [update_of_ne hiv] at hsome ⊢
        exact h.head.shape.last (path_lt v) hslot hi hsome
    · intro w hw
      dsimp only
      by_cases hwv : w = v
      · rw [hwv, lookup_store_self hone (path_lt v) hslot, update_self]
        unfold Pte.mapping
        by_cases hvalid : e.v = true
        · simp [sv39, hvalid]
        · simp [sv39, hvalid]
      · obtain ⟨j, hj, hne⟩ := path_ne hv hw hwv
        rw [lookup_store_of_ne hone (path_lt v) (path_lt w) hslot e hj hne,
          update_of_ne hwv]
        exact h.head.lookup_eq w hw
  · intro a
    have htally := tally_space (m := m) v a e.mapping
    have hfree := hcount a
    rw [own_singleton, own_singleton, own_eq, own_eq, hmem, RadixTable.store, hnodes]
    omega
  · intro b _ _ hown
    rw [own_singleton] at hown
    have hpage := nodes_slot (path_lt v) hslot
    have hle := nodes_le_own s.mem r m b
    have hne : b ≠ page := by
      intro heq
      rw [heq] at hle hown
      omega
    rw [hmem, RadixTable.store, update_of_ne hne]

/-! ## Mapped pages -/

/-- A page that is mapped below `TRAPFRAME` is in the pool. -/
theorem Heap.mapped (h : Heap pool s ((r, m) :: T) H) (hv : v < trapframeVpn)
    (hm : m v = some e) : Image.endPage ≤ e.ppn ∧ e.ppn < phystop := by
  apply h.inRam
  have hle := le_tally (w := pageWeight e.ppn) (f := m) (Finset.mem_range.mpr hv)
  have hone : pageWeight e.ppn (m v) = 1 := by simp [hm, pageWeight]
  rw [List.map_cons, List.sum_cons, own_eq]
  omega

/-- A page is mapped once. -/
theorem Heap.mapped_inj (h : Heap pool s ((r, m) :: T) H) {w : ℕ} {f : Pte}
    (hv : v < trapframeVpn) (hw : w < trapframeVpn) (hm : m v = some e) (hm' : m w = some f)
    (hppn : e.ppn = f.ppn) : v = w := by
  by_contra hne
  have hle := add_le_tally (w := pageWeight e.ppn) (f := m) (Finset.mem_range.mpr hv)
    (Finset.mem_range.mpr hw) hne
  have hone : pageWeight e.ppn (m v) = 1 := by simp [hm, pageWeight]
  have hone' : pageWeight e.ppn (m w) = 1 := by simp [hm', pageWeight, hppn]
  have hcount := h.count_le e.ppn
  rw [List.map_cons, List.sum_cons, own_eq] at hcount
  omega

end CS352.Memory
