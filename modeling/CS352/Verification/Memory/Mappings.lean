import CS352.Verification.Memory.Tables

/-! # Mapping, unmapping and freeing -/

namespace CS352.Memory

open RadixTable Tally WeakestPre Function

variable [Image] {pool : Pool} {s t : State} {T : List (ℕ × Space)} {H H' : List ℕ}
  {m m' : Space} {r a b c v n pa page : ℕ} {e : Pte} {perm : Perm} {E : Panic → Prop}

omit [Image] in
theorem vpn_values : trapframeVpn = 2 ^ 26 - 2 ∧ trampolineVpn = 2 ^ 26 - 1 ∧ vpns = 2 ^ 27 := by
  unfold trapframeVpn trampolineVpn vpns
  exact ⟨rfl, rfl, rfl⟩

omit [Image] in
theorem vpn_mul_div (v : ℕ) : v * pgsize / pgsize = v := Nat.mul_div_cancel v (by decide)

omit [Image] in
theorem mul_pgsize_lt (hv : v ≤ trampolineVpn) : v * pgsize < maxva := by
  have hvalues := vpn_values
  unfold pgsize maxva
  omega

/-! ## Mapping a page -/

theorem wp_mapPage {Q : Bool → State → Prop} (h : Heap pool s ((r, m) :: T) H)
    (hv : v ≤ trampolineVpn) (hm : m v = none) (hperm : (⟨pa, true, perm⟩ : Pte).inner = false)
    (hcount : ∀ a, H'.count a + weightAt v a (some ⟨pa, true, perm⟩) = H.count a)
    (hfail : ∀ t, t.toProcs = s.toProcs → Heap pool t ((r, m) :: T) H → Q false t)
    (hok : ∀ t, t.toProcs = s.toProcs →
      Heap pool t ((r, update m v (some ⟨pa, true, perm⟩)) :: T) H' → Q true t) :
    wp E (mapPage r (v * pgsize) pa perm) Q s := by
  have hlt : v < vpns := by
    have hvalues := vpn_values
    omega
  unfold mapPage
  rw [wp_bind]
  apply wp_walk_alloc h (mul_pgsize_lt hv)
  · exact hfail
  · intro page t hproc ht hslot
    rw [vpn_mul_div] at hslot
    have hentry := ht.head.entry_invalid hlt hm hslot
    rw [wp_bind, wp_get, px_eq, vpn_mul_div, hentry]
    simp only [Bool.false_eq_true, if_false, wp_bind, setPte, wp_modify]
    refine hok _ hproc (ht.store (e := ⟨pa, true, perm⟩) hlt hslot rfl (fun _ => hperm) ?_)
    intro a
    have hheld := hcount a
    have hzero : weightAt v a (m v) = 0 := by simp [hm, weightAt, pageWeight]
    rw [hzero]
    exact (by omega : t.free.count a + H'.count a + weightAt v a (some ⟨pa, true, perm⟩) =
      t.free.count a + H.count a + 0)

omit [Image] in
/-- One page is mapped by a single round. -/
theorem mappages_page (r v pa : ℕ) (perm : Perm) :
    mappages r (v * pgsize) pgsize pa perm = mapPage r (v * pgsize) pa perm := by
  have hstart : pgrounddown (v * pgsize) = v * pgsize := by rw [pgrounddown, vpn_mul_div]
  have hlast : pgrounddown (v * pgsize + pgsize - 1) = v * pgsize := by
    unfold pgrounddown pgsize
    omega
  unfold mappages
  rw [if_neg (by decide), hstart, hlast, Nat.sub_self, Nat.zero_div]
  rfl

/-- A held page is mapped below `TRAPFRAME`. -/
theorem wp_mapUser {Q : Bool → State → Prop} (h : Heap pool s ((r, m) :: T) (pa :: H))
    (hv : v < trapframeVpn) (hm : m v = none) (hr : perm.r = true)
    (hfail : ∀ t, t.toProcs = s.toProcs → Heap pool t ((r, m) :: T) (pa :: H) → Q false t)
    (hok : ∀ t, t.toProcs = s.toProcs →
      Heap pool t ((r, update m v (some ⟨pa, true, perm⟩)) :: T) H → Q true t) :
    wp E (mappages r (v * pgsize) pgsize pa perm) Q s := by
  rw [mappages_page]
  have hvalues := vpn_values
  refine wp_mapPage h (by omega) hm (by simp [Pte.inner, hr]) ?_ hfail hok
  intro a
  rw [weightAt, if_pos hv, pageWeight, List.count_cons]
  simp

/-- A page is mapped at `TRAPFRAME` or `TRAMPOLINE`. -/
theorem wp_mapFixed {Q : Bool → State → Prop} (hva : va = v * pgsize)
    (h : Heap pool s ((r, m) :: T) H) (hv : trapframeVpn ≤ v) (hle : v ≤ trampolineVpn)
    (hm : m v = none) (hr : perm.r = true)
    (hfail : ∀ t, t.toProcs = s.toProcs → Heap pool t ((r, m) :: T) H → Q false t)
    (hok : ∀ t, t.toProcs = s.toProcs →
      Heap pool t ((r, update m v (some ⟨pa, true, perm⟩)) :: T) H → Q true t) :
    wp E (mappages r va pgsize pa perm) Q s := by
  rw [hva, mappages_page]
  refine wp_mapPage h hle hm (by simp [Pte.inner, hr]) ?_ hfail hok
  intro a
  rw [weightAt, if_neg (Nat.not_lt.mpr hv), Nat.add_zero]

/-! ## Unmapping -/

/-- One round of `uvmunmap`: pages below `TRAPFRAME` are freed, the others are not. -/
theorem wp_unmapLoop_step {Q : Unit → State → Prop} {doFree : Bool}
    (h : Heap pool s ((r, m) :: T) H) (hv : v ≤ trampolineVpn) (hm : m v = some e)
    (he : e.perm ≠ .none) (hfree : doFree = decide (v < trapframeVpn))
    (hnext : ∀ t, t.toProcs = s.toProcs → Heap pool t ((r, update m v none) :: T) H →
      wp E (unmapLoop r doFree n ((v + 1) * pgsize)) Q t) :
    wp E (unmapLoop r doFree (n + 1) (v * pgsize)) Q s := by
  have hlt : v < vpns := by
    have hvalues := vpn_values
    omega
  obtain ⟨page, hslot, hentry, hvalid⟩ := h.head.slot hlt hm
  have hstep : v * pgsize + pgsize = (v + 1) * pgsize := (Nat.succ_mul v pgsize).symm
  unfold unmapLoop
  rw [wp_bind]
  apply wp_walk_read (mul_pgsize_lt hv)
  rw [vpn_mul_div, hslot]
  simp only [Option.map_some, wp_bind, wp_get, px_eq, vpn_mul_div, hentry, hvalid]
  rw [if_neg (by simp), if_neg he, hstep]
  cases doFree with
  | true =>
    have huser : v < trapframeVpn := of_decide_eq_true hfree.symm
    have hram := h.mapped huser hm
    simp only [if_true, wp_bind, kfree]
    refine wp_ite (fun hout => by omega) fun _ => ?_
    simp only [wp_modify, setPte]
    refine hnext _ rfl (h.store (e := .zero) hlt hslot rfl (by simp [Pte.zero]) ?_)
    intro a
    simp only [weightAt, if_pos huser, pageWeight, hm, Pte.mapping, Pte.zero, List.count_cons,
      Option.map_some, Option.some.injEq, beq_iff_eq]
    simp
    omega
  | false =>
    have hfixed : ¬ v < trapframeVpn := of_decide_eq_false hfree.symm
    simp only [Bool.false_eq_true, if_false, wp_bind, wp_pure, setPte, wp_modify]
    refine hnext _ rfl (h.store (e := .zero) hlt hslot rfl (by simp [Pte.zero]) ?_)
    intro a
    simp only [weightAt, if_neg hfixed]

/-- The mappings without those of `n` pages from `v` on. -/
def erase (m : Space) (v n : ℕ) : Space := fun w => if v ≤ w ∧ w < v + n then none else m w

omit [Image] in
theorem erase_succ (m : Space) (v n : ℕ) :
    erase (update m v none) (v + 1) n = erase m v (n + 1) := by
  funext w
  unfold erase
  by_cases hwv : w = v
  · simp [hwv]
  · rw [update_of_ne hwv]
    congr 1
    rw [eq_iff_iff]
    omega

theorem wp_unmapLoop {Q : Unit → State → Prop} (h : Heap pool s ((r, m) :: T) H)
    (hv : v + n ≤ trapframeVpn)
    (hmapped : ∀ w, v ≤ w → w < v + n → ∃ e, m w = some e ∧ e.perm ≠ .none)
    (hQ : ∀ t, t.toProcs = s.toProcs → Heap pool t ((r, erase m v n) :: T) H → Q () t) :
    wp E (unmapLoop r true n (v * pgsize)) Q s := by
  induction n generalizing v m s with
  | zero =>
    refine hQ s rfl ?_
    have hsame : erase m v 0 = m := by
      funext w
      exact if_neg (by omega)
    rwa [hsame]
  | succ n ih =>
    have hvalues := vpn_values
    obtain ⟨e, hm, he⟩ := hmapped v (Nat.le_refl v) (by omega)
    apply wp_unmapLoop_step h (by omega) hm he
    · rw [eq_comm, decide_eq_true_eq]
      omega
    · intro t hproc ht
      apply ih ht (by omega)
      · intro w hvw hwn
        rw [update_of_ne (by omega)]
        exact hmapped w (by omega) (by omega)
      · intro u hu hheap
        rw [erase_succ] at hheap
        exact hQ u (hu.trans hproc) hheap

theorem wp_uvmunmap {Q : Unit → State → Prop} (h : Heap pool s ((r, m) :: T) H)
    (hv : v + n ≤ trapframeVpn)
    (hmapped : ∀ w, v ≤ w → w < v + n → ∃ e, m w = some e ∧ e.perm ≠ .none)
    (hQ : ∀ t, t.toProcs = s.toProcs → Heap pool t ((r, erase m v n) :: T) H → Q () t) :
    wp E (uvmunmap r (v * pgsize) n true) Q s := by
  unfold uvmunmap
  rw [if_neg (by simp)]
  exact wp_unmapLoop h hv hmapped hQ

/-- `TRAPFRAME` or `TRAMPOLINE` is unmapped. -/
theorem wp_unmapFixed {Q : Unit → State → Prop} (hva : va = v * pgsize)
    (h : Heap pool s ((r, m) :: T) H) (hv : trapframeVpn ≤ v) (hle : v ≤ trampolineVpn)
    (hm : m v = some e) (he : e.perm ≠ .none)
    (hQ : ∀ t, t.toProcs = s.toProcs → Heap pool t ((r, update m v none) :: T) H →
      Q () t) :
    wp E (uvmunmap r va 1 false) Q s := by
  unfold uvmunmap
  rw [hva, if_neg (by simp)]
  apply wp_unmapLoop_step h hle hm he
  · rw [eq_comm, decide_eq_false_iff_not]
    omega
  · exact hQ

/-! ## Making and freeing a page table -/

/-- A held page becomes an empty page table. -/
theorem Heap.create (h : Heap pool s T (r :: H)) :
    Heap pool { s with mem := update s.mem r fun _ => Pte.zero }
      ((r, fun _ => none) :: T) H := by
  have hblank : ∀ i, update s.mem r (fun _ => Pte.zero) r i = sv39.blank := by
    intro i
    rw [update_self]
    rfl
  refine Heap.change (X := []) (Y := [(r, fun _ => none)]) h ?_ ?_ ?_
  · intro x hx
    rw [List.mem_singleton.mp hx]
    exact ⟨.blank hblank, fun v _ => lookup_blank hblank⟩
  · intro a
    have hzero : tally (Finset.range trapframeVpn) (pageWeight a) (fun _ => none) = 0 :=
      tally_eq_zero fun _ _ => rfl
    rw [own_singleton, own_eq, nodes_blank hblank, hzero, List.map_nil, List.sum_nil,
      List.count_cons]
    simp only [beq_iff_eq]
    omega
  · intro b _ hheld _
    have hne : b ≠ r := by
      intro heq
      rw [heq, List.count_cons_self] at hheld
      omega
    exact update_of_ne hne _ _

theorem wp_uvmcreate {Q : Option ℕ → State → Prop} (h : Heap pool s T H)
    (hnone : ∀ t, t.toProcs = s.toProcs → Heap pool t T H → Q none t)
    (hsome : ∀ r t, t.toProcs = s.toProcs → Heap pool t ((r, fun _ => none) :: T) H →
      Q (some r) t) :
    wp E uvmcreate Q s := by
  unfold uvmcreate
  rw [wp_bind]
  apply wp_kalloc h
  · exact hnone
  · intro r t hproc ht
    simp only [wp_bind, zeroPage, wp_modify]
    exact hsome r _ hproc ht.create

/-- The nodes of the subtables that a list of entries points to. -/
def restNodes (mem : ℕ → ℕ → Pte) (d r : ℕ) (is : List ℕ) (a : ℕ) : ℕ :=
  (is.map fun i => (sv39.next (mem r i)).elim 0 fun c => nodes sv39 mem d c a).sum

/-- A page table that `freewalk` can free. -/
structure Freeable (mem : ℕ → ℕ → Pte) (d r : ℕ) : Prop where
  once : ∀ a, nodes sv39 mem d r a ≤ 1
  shape : Shape sv39 mem d r
  empty : ∀ k, (∀ j, k j < sv39.fan) → lookup sv39 mem d r k = none
  inRam : ∀ a, nodes sv39 mem d r a ≠ 0 → Image.endPage ≤ a ∧ a < phystop

/-- The pages of a table go to the free list, and no other page changes. -/
structure Freed (s t : State) (n : ℕ → ℕ) : Prop where
  proc_eq : t.toProcs = s.toProcs
  count : ∀ a, t.free.count a = s.free.count a + n a
  frame : ∀ b, n b = 0 → t.mem b = s.mem b

theorem Freeable.congr {mem mem' : ℕ → ℕ → Pte} {d : ℕ} (h : Freeable mem d r)
    (hsame : ∀ b, nodes sv39 mem d r b ≠ 0 → mem' b = mem b) : Freeable mem' d r := by
  refine ⟨?_, h.shape.congr hsame, ?_, ?_⟩
  · intro a
    rw [nodes_congr hsame]
    exact h.once a
  · intro k hk
    rw [lookup_congr hsame hk]
    exact h.empty k hk
  · intro a ha
    rw [nodes_congr hsame] at ha
    exact h.inRam a ha

theorem Freeable.child {mem : ℕ → ℕ → Pte} {d i : ℕ} (h : Freeable mem (d + 1) r) (hi : i < 512)
    (hc : sv39.next (mem r i) = some c) : Freeable mem d c := by
  refine ⟨?_, (h.shape i hi c hc).2, ?_, ?_⟩
  · intro a
    have hle := nodes_child (d := d) (a := a) hi hc
    have hone := h.once a
    omega
  · intro k hk
    have hlook := h.empty (update k (d + 1) i) (by
      intro j
      by_cases hj : j = d + 1
      · rw [hj, update_self]
        exact hi
      · rw [update_of_ne hj]
        exact hk j)
    rw [lookup_succ (by rw [update_self]; exact hc)] at hlook
    rwa [lookup_ext fun j hj => update_of_ne (by omega) _ _] at hlook
  · intro a ha
    have hle := nodes_child (d := d) (a := a) hi hc
    exact h.inRam a (by omega)

omit [Image] in
theorem le_restNodes {mem : ℕ → ℕ → Pte} {d i : ℕ} {is : List ℕ} (hi : i ∈ is)
    (hc : sv39.next (mem r i) = some c) : nodes sv39 mem d c a ≤ restNodes mem d r is a := by
  have hle := List.single_le_sum (l := is.map fun i =>
    (sv39.next (mem r i)).elim 0 fun c => nodes sv39 mem d c a) (fun _ _ => Nat.zero_le _) _
    (List.mem_map_of_mem hi)
  rwa [hc] at hle

/-- The loop of `freewalk` frees the subtables one after the other. -/
theorem wp_freeEntries {Q : Unit → State → Prop} {f : ℕ → Kernel Unit} {d : ℕ} {is : List ℕ}
    (hchild : ∀ {c : ℕ} {s : State} {Q : Unit → State → Prop}, Freeable s.mem d c →
      (∀ t, Freed s t (nodes sv39 s.mem d c) → Q () t) → wp E (f c) Q s)
    (hnodup : is.Nodup)
    (hone : ∀ a, (if r = a then 1 else 0) + restNodes s.mem d r is a ≤ 1)
    (hsub : ∀ i ∈ is, ∀ c, sv39.next (s.mem r i) = some c →
      (s.mem r i).inner = true ∧ Freeable s.mem d c)
    (hQ : ∀ t, t.toProcs = s.toProcs →
      (∀ a, t.free.count a = s.free.count a + restNodes s.mem d r is a) →
      (∀ b, b ≠ r → restNodes s.mem d r is b = 0 → t.mem b = s.mem b) → Q () t) :
    wp E (freeEntries f r is) Q s := by
  induction is generalizing s with
  | nil => exact hQ s rfl (fun _ => rfl) fun _ _ _ => rfl
  | cons i is ih =>
    obtain ⟨hi, hnodup⟩ := List.nodup_cons.mp hnodup
    unfold freeEntries
    rw [wp_bind, wp_get]
    cases hc : sv39.next (s.mem r i) with
    | none =>
      have hv : (s.mem r i).v = false := by
        by_contra hvalid
        simp [sv39, hvalid] at hc
      have hrest : ∀ a, restNodes s.mem d r (i :: is) a = restNodes s.mem d r is a := by
        intro a
        simp [restNodes, hc]
      rw [if_neg (by simp [hv]), if_neg (by simp [hv])]
      simp only [hrest] at hone hQ
      exact ih hnodup hone (fun j hj => hsub j (List.mem_cons_of_mem i hj)) hQ
    | some c =>
      have hrest : ∀ a, restNodes s.mem d r (i :: is) a =
          nodes sv39 s.mem d c a + restNodes s.mem d r is a := by
        intro a
        simp [restNodes, hc]
      simp only [hrest] at hone hQ
      obtain ⟨hinner, hfree⟩ := hsub i List.mem_cons_self c hc
      obtain ⟨hv, hppn⟩ : (s.mem r i).v = true ∧ (s.mem r i).ppn = c := by
        simpa [sv39] using hc
      rw [if_pos ⟨hv, hinner⟩, wp_bind, hppn]
      refine hchild hfree ?_
      intro t ht
      have hcr : nodes sv39 s.mem d c r = 0 := by
        have hroot := hone r
        rw [if_pos rfl] at hroot
        omega
      have hr := ht.frame r hcr
      simp only [wp_bind, setPte, wp_modify, hr]
      have hentry : ∀ j ∈ is, update (s.mem r) i Pte.zero j = s.mem r j := by
        intro j hj
        exact update_of_ne (ne_of_mem_of_not_mem hj hi) _ _
      -- the subtables that are left have not been touched
      have hsame : ∀ j ∈ is, ∀ c', sv39.next (s.mem r j) = some c' →
          ∀ b, nodes sv39 s.mem d c' b ≠ 0 →
            update t.mem r (update (s.mem r) i Pte.zero) b = s.mem b := by
        intro j hj c' hc' b hb
        have hle := le_restNodes (d := d) (a := b) hj hc'
        have hb1 := hone b
        have hbr : r ≠ b := by
          intro heq
          rw [if_pos heq] at hb1
          omega
        rw [update_of_ne hbr.symm]
        exact ht.frame b (by omega)
      have hkeep : ∀ a, restNodes
          (update t.mem r (update (s.mem r) i Pte.zero)) d r is a =
          restNodes s.mem d r is a := by
        intro a
        unfold restNodes
        refine congrArg List.sum (List.map_congr_left ?_)
        intro j hj
        simp only [update_self, hentry j hj]
        cases hc' : sv39.next (s.mem r j) with
        | none => simp only [Option.elim_none]
        | some c' =>
          simp only [Option.elim_some]
          exact nodes_congr (hsame j hj c' hc')
      apply ih hnodup
      · intro a
        rw [hkeep]
        have hone' := hone a
        omega
      · intro j hj c' hc'
        simp only [update_self, hentry j hj] at hc' ⊢
        obtain ⟨hin, hok⟩ := hsub j (List.mem_cons_of_mem i hj) c' hc'
        exact ⟨hin, hok.congr (hsame j hj c' hc')⟩
      · intro u hproc hcount hframe
        simp only [hkeep] at hcount hframe
        apply hQ u (hproc.trans ht.proc_eq)
        · intro a
          have hfreed := ht.count a
          have hloop := hcount a
          omega
        · intro b hbr hb
          rw [hframe b hbr (by omega), update_of_ne hbr]
          exact ht.frame b (by omega)

theorem wp_kfree_node {Q : Unit → State → Prop} (hram : Image.endPage ≤ r ∧ r < phystop)
    (hQ : Q () { s with free := r :: s.free }) : wp E (kfree r) Q s := by
  unfold kfree
  exact wp_ite (fun hout => by omega) fun _ => hQ

omit [Image] in
/-- A table whose entries are all invalid has nothing to free. -/
theorem wp_freeEntries_invalid {Q : Unit → State → Prop} {f : ℕ → Kernel Unit} {is : List ℕ}
    (h : ∀ i ∈ is, (s.mem r i).v = false) (hQ : Q () s) : wp E (freeEntries f r is) Q s := by
  induction is with
  | nil => exact hQ
  | cons i is ih =>
    have hi := h i List.mem_cons_self
    unfold freeEntries
    rw [wp_bind, wp_get, if_neg (by simp [hi]), if_neg (by simp [hi])]
    exact ih fun j hj => h j (List.mem_cons_of_mem i hj)

omit [Image] in
theorem npte_eq : npte = 512 := by
  unfold npte
  rfl

omit [Image] in
theorem nodes_eq_restNodes {mem : ℕ → ℕ → Pte} {d : ℕ} : nodes sv39 mem (d + 1) r a =
    (if r = a then 1 else 0) + restNodes mem d r (List.range npte) a := by
  have hfan : sv39.fan = npte := npte_eq.symm
  unfold nodes restNodes
  rw [hfan, tally_range]

theorem wp_freewalk {Q : Unit → State → Prop} {d : ℕ} (h : Freeable s.mem d r)
    (hQ : ∀ t, Freed s t (nodes sv39 s.mem d r) → Q () t) : wp E (freewalk (d + 1) r) Q s := by
  induction d generalizing r s Q with
  | zero =>
    have hram := h.inRam r (Nat.pos_iff_ne_zero.mp nodes_self)
    unfold freewalk
    rw [wp_bind]
    apply wp_freeEntries_invalid
    · intro i hi
      rw [List.mem_range, npte_eq] at hi
      have hlook := h.empty (fun _ => i) fun _ => hi
      by_contra hv
      rw [Bool.not_eq_false] at hv
      simp [lookup, slot, sv39, hv] at hlook
    · apply wp_kfree_node hram
      refine hQ _ ⟨rfl, ?_, fun _ _ => rfl⟩
      intro a
      simp [List.count_cons, nodes]
  | succ d ih =>
    have hram := h.inRam r (Nat.pos_iff_ne_zero.mp nodes_self)
    unfold freewalk
    rw [wp_bind]
    refine wp_freeEntries (d := d) ?_ ?_ ?_ ?_ ?_
    · exact ih
    · exact List.nodup_range
    · intro a
      rw [← nodes_eq_restNodes]
      exact h.once a
    · intro i hi c hc
      rw [List.mem_range, npte_eq] at hi
      exact ⟨(h.shape i hi c hc).1, h.child hi hc⟩
    · intro t hproc hcount hframe
      apply wp_kfree_node hram
      refine hQ _ ⟨hproc, ?_, ?_⟩
      · intro a
        simp only [List.count_cons, beq_iff_eq]
        rw [hcount, nodes_eq_restNodes]
        omega
      · intro b hb
        rw [nodes_eq_restNodes] at hb
        have hbr : b ≠ r := by
          intro heq
          rw [if_pos heq.symm] at hb
          omega
        exact hframe b hbr (by omega)

end CS352.Memory
