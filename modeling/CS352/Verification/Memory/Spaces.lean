import CS352.Verification.Memory.Mappings

/-! # Address spaces

The pages of a process lie from address 0 on without a gap, and its page table maps nothing
else below `TRAPFRAME`. -/

namespace CS352.Memory

open RadixTable Tally WeakestPre Function

variable {es new : List Pte} {fx m : Space} {r a k v n sz oldsz newsz pa tf : ℕ} {e : Pte}
  {perm : Perm}

/-! ## Layouts -/

/-- The space with the entries `es` from page 0 on, and those of `fx` from `TRAPFRAME` on. -/
def layout (es : List Pte) (fx : Space) : Space := fun v =>
  if v < trapframeVpn then es[v]? else fx v

/-- The entries of `TRAPFRAME` and `TRAMPOLINE`. -/
def fixed [Image] (tf : ℕ) : Space := fun v =>
  if v = trapframeVpn then some ⟨tf, true, ⟨true, true, false, false⟩⟩
  else if v = trampolineVpn then some ⟨Image.trampoline, true, ⟨true, false, true, false⟩⟩
  else none

/-- The number of pages of a process of size `sz`. -/
def pages (sz : ℕ) : ℕ := (sz + (pgsize - 1)) / pgsize

/-- Every entry is one that `mappages` has made for a page of the process. -/
def Readable (es : List Pte) : Prop := ∀ e ∈ es, e.v = true ∧ e.perm.r = true

theorem layout_of_lt (hv : v < trapframeVpn) : layout es fx v = es[v]? := if_pos hv

theorem layout_of_le (hv : trapframeVpn ≤ v) : layout es fx v = fx v :=
  if_neg (Nat.not_lt.mpr hv)

theorem layout_nil : layout [] (fun _ => none) = fun _ => none := by
  funext v
  by_cases hv : v < trapframeVpn
  · rw [layout_of_lt hv, List.getElem?_nil]
  · rw [layout_of_le (Nat.le_of_not_lt hv)]

/-- A page is mapped behind the last one. -/
theorem update_layout_length (h : es.length < trapframeVpn) :
    update (layout es fx) es.length (some e) = layout (es ++ [e]) fx := by
  funext v
  by_cases hv : v = es.length
  · subst v
    rw [update_self, layout_of_lt h, List.getElem?_concat_length]
  · rw [update_of_ne hv]
    by_cases hlt : v < trapframeVpn
    · rw [layout_of_lt hlt, layout_of_lt hlt]
      by_cases hin : v < es.length
      · rw [List.getElem?_append_left hin]
      · rw [List.getElem?_eq_none (by omega), List.getElem?_eq_none (by simp; omega)]
    · rw [layout_of_le (Nat.le_of_not_lt hlt), layout_of_le (Nat.le_of_not_lt hlt)]

theorem update_layout_of_le (hv : trapframeVpn ≤ v) (x : Option Pte) :
    update (layout es fx) v x = layout es (update fx v x) := by
  funext w
  by_cases hwv : w = v
  · rw [hwv, update_self, layout_of_le hv, update_self]
  · rw [update_of_ne hwv]
    by_cases hlt : w < trapframeVpn
    · rw [layout_of_lt hlt, layout_of_lt hlt]
    · rw [layout_of_le (Nat.le_of_not_lt hlt), layout_of_le (Nat.le_of_not_lt hlt),
        update_of_ne hwv]

theorem update_layout_set (hv : v < es.length) (h : es.length ≤ trapframeVpn) :
    update (layout es fx) v (some e) = layout (es.set v e) fx := by
  funext w
  by_cases hwv : w = v
  · rw [hwv, update_self, layout_of_lt (by omega), List.getElem?_set_self hv]
  · rw [update_of_ne hwv]
    by_cases hlt : w < trapframeVpn
    · rw [layout_of_lt hlt, layout_of_lt hlt, List.getElem?_set_ne (Ne.symm hwv)]
    · rw [layout_of_le (Nat.le_of_not_lt hlt), layout_of_le (Nat.le_of_not_lt hlt)]

/-- The pages from number `k` on are unmapped. -/
theorem erase_layout (hk : k ≤ es.length) (h : es.length ≤ trapframeVpn) :
    erase (layout es fx) k (es.length - k) = layout (es.take k) fx := by
  funext w
  unfold erase
  by_cases hlt : w < trapframeVpn
  · rw [layout_of_lt hlt, layout_of_lt hlt]
    by_cases hwk : w < k
    · rw [if_neg (by omega), List.getElem?_take_of_lt hwk]
    · have hnone : (es.take k)[w]? = none := List.getElem?_eq_none (by rw [List.length_take]; omega)
      rw [hnone]
      split
      · rfl
      · exact List.getElem?_eq_none (by omega)
  · rw [layout_of_le (Nat.le_of_not_lt hlt), layout_of_le (Nat.le_of_not_lt hlt),
      if_neg (by omega)]

theorem exists_layout (fx : Space) (hv : v < es.length) (h : es.length ≤ trapframeVpn) :
    ∃ e ∈ es, layout es fx v = some e := by
  refine ⟨es[v], List.getElem_mem hv, ?_⟩
  rw [layout_of_lt (by omega), List.getElem?_eq_getElem hv]

theorem Readable.perm_ne (hr : Readable es) (he : e ∈ es) : e.perm ≠ .none := by
  intro hnone
  have htrue := (hr e he).2
  rw [hnone] at htrue
  cases htrue

/-! ## Sizes -/

theorem pgroundup_eq (h : sz ≤ 2 ^ 63) : pgroundup sz = pages sz * pgsize := by
  unfold pgroundup pages uint64 pgsize
  rw [Nat.mod_eq_of_lt (by omega)]

theorem pages_mul (k : ℕ) : pages (k * pgsize) = k := by
  unfold pages pgsize
  omega

theorem le_pages_mul (sz : ℕ) : sz ≤ pages sz * pgsize := by
  unfold pages pgsize
  omega

theorem pages_mono (h : oldsz ≤ newsz) : pages oldsz ≤ pages newsz := by
  unfold pages pgsize
  omega

theorem concat_mul_pgsize (es : List Pte) (e : Pte) :
    (es ++ [e]).length * pgsize = es.length * pgsize + pgsize := by
  rw [List.length_append, List.length_singleton, Nat.add_mul, Nat.one_mul]

theorem lt_pages (h : k * pgsize < sz) : k < pages sz := by
  unfold pages
  unfold pgsize at *
  omega

theorem pages_le (h : sz ≤ k * pgsize) : pages sz ≤ k := by
  unfold pages
  unfold pgsize at *
  omega

/-- The pages of a process of size `sz`. -/
structure Fits (es : List Pte) (sz : ℕ) : Prop where
  readable : Readable es
  length_le : es.length ≤ trapframeVpn
  length_eq : es.length = pages sz

theorem readable_nil : Readable [] := by simp [Readable]

theorem fits_nil : Fits [] 0 := ⟨readable_nil, Nat.zero_le _, rfl⟩

theorem Fits.le (h : Fits es sz) : sz ≤ es.length * pgsize := by
  rw [h.length_eq]
  exact le_pages_mul sz

theorem Fits.small (h : Fits es sz) : sz ≤ 2 ^ 63 := by
  have hvalues := vpn_values
  have hle := h.le
  have hlen := h.length_le
  unfold pgsize at hle
  omega

theorem Fits.pgroundup_eq (h : Fits es sz) : pgroundup sz = es.length * pgsize := by
  rw [h.length_eq]
  exact Memory.pgroundup_eq h.small

/-- The size rounded up to pages. -/
theorem Fits.aligned (h : Fits es sz) : Fits es (es.length * pgsize) :=
  ⟨h.readable, h.length_le, (pages_mul _).symm⟩

theorem Fits.take (h : Fits es oldsz) (hle : newsz ≤ oldsz) :
    Fits (es.take (pages newsz)) newsz := by
  have hmono := pages_mono hle
  have hlen := h.length_le
  have heq := h.length_eq
  refine ⟨?_, ?_, ?_⟩
  · intro e he
    exact h.readable e (List.mem_of_mem_take he)
  · rw [List.length_take]
    omega
  · rw [List.length_take]
    omega

/-! ## Pages of a process -/

theorem phystop_lt : phystop < trapframeVpn := by
  have hvalues := vpn_values
  have hphystop : phystop = 557056 := by decide
  omega

theorem viaInt_eq (h : n < 2 ^ 31) : viaInt n = n := by
  unfold viaInt
  rw [Nat.mod_eq_of_lt (by omega), if_pos h]

variable [Image] {pool : Pool} {s t : State} {T : List (ℕ × Space)} {H : List ℕ}
  {E : Panic → Prop}

/-- Physical memory ends long before a process reaches `TRAPFRAME`. -/
theorem Heap.length_le (h : Heap pool s ((r, layout es fx) :: T) H)
    (hlen : es.length ≤ trapframeVpn) : es.length ≤ phystop := by
  have hentry : ∀ v < es.length, ∃ e, layout es fx v = some e := by
    intro v hv
    obtain ⟨e, -, he⟩ := exists_layout fx hv hlen
    exact ⟨e, he⟩
  have hcard := Finset.card_le_card_of_injOn (s := Finset.range es.length)
    (t := Finset.range phystop) (fun v => ((layout es fx v).map Pte.ppn).getD 0) ?_ ?_
  · simpa using hcard
  · intro v hv
    have hlt := Finset.mem_range.mp hv
    obtain ⟨e, he⟩ := hentry v hlt
    simpa [he] using (h.mapped (by omega) he).2
  · intro v hv w hw hvw
    have hv := Finset.mem_range.mp hv
    have hw := Finset.mem_range.mp hw
    obtain ⟨e, he⟩ := hentry v hv
    obtain ⟨f, hf⟩ := hentry w hw
    exact h.mapped_inj (by omega) (by omega) he hf (by simpa [he, hf] using hvw)

/-- A held page is mapped behind the last page of the process. -/
theorem wp_mapNext {Q : Bool → State → Prop} (h : Heap pool s ((r, layout es fx) :: T) (pa :: H))
    (hlen : es.length < trapframeVpn) (hr : perm.r = true)
    (hfail : ∀ t, t.toProcs = s.toProcs → Heap pool t ((r, layout es fx) :: T) (pa :: H) →
      Q false t)
    (hok : ∀ t, t.toProcs = s.toProcs →
      Heap pool t ((r, layout (es ++ [⟨pa, true, perm⟩]) fx) :: T) H → Q true t) :
    wp E (mappages r (es.length * pgsize) pgsize pa perm) Q s := by
  have hnone : layout es fx es.length = none := by
    rw [layout_of_lt hlen, List.getElem?_eq_none (Nat.le_refl _)]
  apply wp_mapUser h hlen hnone hr hfail
  intro t hprocs ht
  rw [update_layout_length hlen] at ht
  exact hok t hprocs ht

/-- The pages from number `k` on are freed. -/
theorem wp_unmapFrom {Q : Unit → State → Prop} (h : Heap pool s ((r, layout es fx) :: T) H)
    (hr : Readable es) (hlen : es.length ≤ trapframeVpn) (hk : k ≤ es.length)
    (hQ : ∀ t, t.toProcs = s.toProcs → Heap pool t ((r, layout (es.take k) fx) :: T) H → Q () t) :
    wp E (uvmunmap r (k * pgsize) (es.length - k) true) Q s := by
  apply wp_uvmunmap h (by omega)
  · intro w _ hw
    obtain ⟨e, he, hlay⟩ := exists_layout fx (by omega : w < es.length) hlen
    exact ⟨e, hlay, hr.perm_ne he⟩
  · intro t hprocs ht
    rw [erase_layout hk hlen] at ht
    exact hQ t hprocs ht

/-- `uvmdealloc` of a process. -/
theorem wp_uvmdealloc {Q : ℕ → State → Prop} (h : Heap pool s ((r, layout es fx) :: T) H)
    (hfits : Fits es oldsz) (hsame : oldsz ≤ newsz → Q oldsz s)
    (hless : newsz < oldsz → ∀ t, t.toProcs = s.toProcs →
      Heap pool t ((r, layout (es.take (pages newsz)) fx) :: T) H → Q newsz t) :
    wp E (uvmdealloc r oldsz newsz) Q s := by
  have hvalues := vpn_values
  have hlen := hfits.length_le
  have hsmall := hfits.small
  unfold uvmdealloc
  refine wp_ite (fun hge => hsame hge) fun hlt => ?_
  have hlt : newsz < oldsz := by omega
  rw [hfits.pgroundup_eq, pgroundup_eq (by omega)]
  have hmono := pages_mono (Nat.le_of_lt hlt)
  rw [← hfits.length_eq] at hmono
  have hcount : (es.length * pgsize - pages newsz * pgsize) / pgsize = es.length - pages newsz := by
    rw [← Nat.sub_mul, vpn_mul_div]
  refine wp_ite (fun hdrop => ?_) fun hkeep => ?_
  · rw [hcount, viaInt_eq (by omega), wp_bind]
    apply wp_unmapFrom h hfits.readable hlen hmono
    intro t hprocs ht
    exact hless hlt t hprocs ht
  · refine hless hlt s rfl ?_
    have hall : es.length ≤ pages newsz := by
      unfold pgsize at hkeep
      omega
    rwa [List.take_of_length_le hall]

/-! ## Growing -/

/-- The pages behind those of `es` are freed again. -/
theorem wp_rollback {Q : ℕ → State → Prop} (h : Heap pool s ((r, layout (es ++ new) fx) :: T) H)
    (hr : Readable (es ++ new)) (hlen : (es ++ new).length ≤ trapframeVpn)
    (hQ : ∀ x t, t.toProcs = s.toProcs → Heap pool t ((r, layout es fx) :: T) H → Q x t) :
    wp E (uvmdealloc r ((es ++ new).length * pgsize) (es.length * pgsize)) Q s := by
  apply wp_uvmdealloc h ⟨hr, hlen, (pages_mul _).symm⟩
  · intro hle
    have hnil : new = [] := by
      rw [List.length_append] at hle
      unfold pgsize at hle
      exact List.eq_nil_of_length_eq_zero (by omega)
    rw [hnil, List.append_nil] at h
    exact hQ _ s rfl h
  · intro _ t hprocs ht
    rw [pages_mul, List.take_left] at ht
    exact hQ _ t hprocs ht

omit [Image] in
theorem Readable.append (hes : Readable es) (hnew : Readable new) : Readable (es ++ new) := by
  intro e he
  rcases List.mem_append.mp he with he | he
  · exact hes e he
  · exact hnew e he

/-- The entries that `uvmalloc` makes. -/
def Accessible (es : List Pte) : Prop := ∀ e ∈ es, e.perm.u = true

omit [Image] in
theorem Accessible.append (hes : Accessible es) (hnew : Accessible new) :
    Accessible (es ++ new) := by
  intro e he
  rcases List.mem_append.mp he with he | he
  · exact hes e he
  · exact hnew e he

theorem wp_allocLoop {Q : ℕ → State → Prop} {xperm : Perm}
    (h : Heap pool s ((r, layout (es ++ new) fx) :: T) H)
    (hr : Readable es) (hnew : Readable new) (hu : Accessible new)
    (hlen : (es ++ new).length ≤ trapframeVpn) (hle : (es ++ new).length ≤ pages newsz)
    (hfail : ∀ t, t.toProcs = s.toProcs → Heap pool t ((r, layout es fx) :: T) H → Q 0 t)
    (hok : ∀ new t, t.toProcs = s.toProcs → Fits (es ++ new) newsz → Accessible new →
      Heap pool t ((r, layout (es ++ new) fx) :: T) H → Q newsz t) :
    wp E (allocLoop r (es.length * pgsize) newsz xperm ((es ++ new).length * pgsize)) Q s := by
  induction hd : pages newsz - (es ++ new).length generalizing new s with
  | zero =>
    have heq : (es ++ new).length = pages newsz := by omega
    have hge : ¬ (es ++ new).length * pgsize < newsz := by
      intro hlt
      have hpages := lt_pages hlt
      omega
    rw [allocLoop, if_neg hge]
    exact hok new s rfl ⟨hr.append hnew, hlen, heq⟩ hu h
  | succ d ih =>
    have hlt : (es ++ new).length * pgsize < newsz := by
      by_contra hge
      have hpages := pages_le (Nat.le_of_not_lt hge)
      omega
    have hbound := h.length_le hlen
    have hphys := phystop_lt
    rw [allocLoop, if_pos hlt, wp_bind]
    apply wp_kalloc h
    · intro t hprocs ht
      rw [wp_bind]
      apply wp_rollback ht (hr.append hnew) hlen
      intro _ u hu' hheap
      exact hfail u (hu'.trans hprocs) hheap
    · intro page t hprocs ht
      simp only [wp_bind]
      apply wp_mapNext ht (by omega) rfl
      · intro u hu' hheap
        rw [if_neg (by simp), wp_bind]
        apply wp_kfree hheap
        intro w _ hw hheap
        rw [wp_bind]
        apply wp_rollback hheap (hr.append hnew) hlen
        intro _ x hx hheap
        exact hfail x (((hx.trans hw).trans hu').trans hprocs) hheap
      · intro u hu' hheap
        have hsame := hu'.trans hprocs
        generalize hentry : (⟨page, true, { xperm with r := true, u := true }⟩ : Pte) = e at hheap
        have hone : Readable [e] ∧ Accessible [e] := by
          simp [Readable, Accessible, ← hentry]
        have hlength : (es ++ new).length * pgsize + pgsize =
            (es ++ (new ++ [e])).length * pgsize := by
          rw [← List.append_assoc, concat_mul_pgsize]
        rw [if_pos rfl, hlength]
        rw [List.append_assoc] at hheap
        rw [List.length_append] at hle hlen hd hbound
        have hlen' : (es ++ (new ++ [e])).length = es.length + new.length + 1 := by
          simp [Nat.add_assoc]
        apply ih hheap (hnew.append hone.1)
        · exact hu.append hone.2
        · omega
        · omega
        · intro x hx
          exact hfail x (hx.trans hsame)
        · intro new' x hx
          exact hok new' x (hx.trans hsame)
        · omega

theorem wp_uvmalloc {Q : ℕ → State → Prop} {xperm : Perm}
    (h : Heap pool s ((r, layout es fx) :: T) H) (hfits : Fits es oldsz)
    (hsame : newsz < oldsz → Q oldsz s)
    (hfail : ∀ t, t.toProcs = s.toProcs → Heap pool t ((r, layout es fx) :: T) H → Q 0 t)
    (hok : oldsz ≤ newsz → ∀ new t, t.toProcs = s.toProcs → Fits (es ++ new) newsz →
      Accessible new → Heap pool t ((r, layout (es ++ new) fx) :: T) H → Q newsz t) :
    wp E (uvmalloc r oldsz newsz xperm) Q s := by
  unfold uvmalloc
  refine wp_ite hsame fun hge => ?_
  have hge : oldsz ≤ newsz := by omega
  rw [hfits.pgroundup_eq]
  have hmono := pages_mono hge
  have hlength := hfits.length_eq
  have hloop : wp E (allocLoop r (es.length * pgsize) newsz xperm ((es ++ []).length * pgsize))
      Q s := by
    apply wp_allocLoop _ hfits.readable readable_nil (by simp [Accessible]) _ _ hfail (hok hge)
    · rwa [List.append_nil]
    · rw [List.append_nil]
      exact hfits.length_le
    · rw [List.append_nil]
      omega
  rwa [List.append_nil] at hloop

/-! ## Copying -/

/-- `uvmcopy` reads the page table `old`, which nothing that happens to the new one changes. -/
theorem wp_copyLoop {Q : Bool → State → Prop} {old : ℕ} {copy : List Pte} {m : Space}
    (h : Heap pool s ((r, layout copy fx) :: T) H)
    (hold : ∀ t copy, Heap pool t ((r, layout copy fx) :: T) H → Table t.mem old m)
    (hm : ∀ v < es.length, m v = es[v]?) (hfits : Fits es sz) (hcopy : Readable copy)
    (hle : copy.length ≤ es.length)
    (hfail : ∀ t, t.toProcs = s.toProcs → Heap pool t ((r, layout [] fx) :: T) H → Q false t)
    (hok : ∀ copy t, t.toProcs = s.toProcs → Fits copy sz →
      Heap pool t ((r, layout copy fx) :: T) H → Q true t) :
    wp E (copyLoop old r sz (copy.length * pgsize)) Q s := by
  have hlen := hfits.length_le
  have hsz := hfits.length_eq
  induction hd : es.length - copy.length generalizing copy s with
  | zero =>
    have heq : copy.length = es.length := by omega
    have hge : ¬ copy.length * pgsize < sz := by
      intro hlt
      have hpages := lt_pages hlt
      omega
    rw [copyLoop, if_neg hge]
    exact hok copy s rfl ⟨hcopy, by omega, by omega⟩ h
  | succ d ih =>
    have hvalues := vpn_values
    have hlt : copy.length * pgsize < sz := by
      by_contra hge
      have hpages := pages_le (Nat.le_of_not_lt hge)
      omega
    have hin : copy.length < es.length := by omega
    have hentry : m copy.length = some es[copy.length] := by
      rw [hm _ hin, List.getElem?_eq_getElem hin]
    obtain ⟨page, hslot, he, hv⟩ := (hold s copy h).slot (by omega) hentry
    have hperm := (hfits.readable _ (List.getElem_mem hin)).2
    generalize es[copy.length] = e at he hv hperm
    -- what happens when there is no memory left
    have hundo : ∀ t, t.toProcs = s.toProcs → Heap pool t ((r, layout copy fx) :: T) H →
        wp E (uvmunmap r 0 (copy.length * pgsize / pgsize) true) (fun _ => Q false) t := by
      intro t hprocs ht
      have hundo := wp_unmapFrom (k := 0) (E := E) (Q := fun _ => Q false) ht hcopy (by omega)
        (Nat.zero_le _) fun u hu hheap => hfail u (hu.trans hprocs) hheap
      rwa [Nat.zero_mul, Nat.sub_zero, ← vpn_mul_div copy.length] at hundo
    rw [copyLoop, if_pos hlt, wp_bind]
    apply wp_walk_read (mul_pgsize_lt (by omega))
    rw [vpn_mul_div, hslot]
    simp only [Option.map_some, wp_bind, wp_get, px_eq, vpn_mul_div, he, hv]
    rw [if_neg (by simp), wp_bind]
    apply wp_kalloc h
    · intro t hprocs ht
      rw [wp_bind]
      have hundo := hundo t hprocs ht
      rwa [vpn_mul_div] at hundo
    · intro pa t hprocs ht
      simp only [wp_bind]
      apply wp_mapNext ht (by omega) hperm
      · intro u hu hheap
        rw [if_neg (by simp), wp_bind]
        apply wp_kfree hheap
        intro w _ hw hheap
        rw [wp_bind]
        have hundo := hundo w ((hw.trans hu).trans hprocs) hheap
        rwa [vpn_mul_div] at hundo
      · intro u hu hheap
        rw [if_pos rfl, ← concat_mul_pgsize copy ⟨pa, true, e.perm⟩]
        have hlength : (copy ++ [(⟨pa, true, e.perm⟩ : Pte)]).length = copy.length + 1 := by simp
        have hsame := hu.trans hprocs
        apply ih hheap
        · apply hcopy.append
          simp [Readable, hperm]
        · omega
        · intro x hx
          exact hfail x (hx.trans hsame)
        · intro copy x hx
          exact hok copy x (hx.trans hsame)
        · omega

theorem wp_uvmcopy {Q : Bool → State → Prop} {old : ℕ} {m : Space}
    (h : Heap pool s ((r, layout [] fx) :: T) H)
    (hold : ∀ t copy, Heap pool t ((r, layout copy fx) :: T) H → Table t.mem old m)
    (hm : ∀ v < es.length, m v = es[v]?) (hfits : Fits es sz)
    (hfail : ∀ t, t.toProcs = s.toProcs → Heap pool t ((r, layout [] fx) :: T) H → Q false t)
    (hok : ∀ copy t, t.toProcs = s.toProcs → Fits copy sz →
      Heap pool t ((r, layout copy fx) :: T) H → Q true t) :
    wp E (uvmcopy old r sz) Q s := by
  have hloop : wp E (copyLoop old r sz (([] : List Pte).length * pgsize)) Q s :=
    wp_copyLoop h hold hm hfits readable_nil (Nat.zero_le _) hfail hok
  rwa [List.length_nil, Nat.zero_mul] at hloop

/-! ## Page tables of processes -/

/-- A page table without mappings can be freed. -/
theorem Heap.freeable (h : Heap pool s ((r, fun _ => none) :: T) H) : Freeable s.mem 2 r := by
  have hone : ∀ a, nodes sv39 s.mem 2 r a ≤ 1 := by
    intro a
    have hapart := h.apart a
    omega
  refine ⟨hone, h.head.shape, ?_, ?_⟩
  · intro k hk
    have hvalues := vpn_values
    have hk₀ : k 0 < 512 := hk 0
    have hk₁ : k 1 < 512 := hk 1
    have hk₂ : k 2 < 512 := hk 2
    have hlook := h.head.lookup_eq (k 0 + 512 * k 1 + 512 * 512 * k 2) (by omega)
    rw [← hlook]
    apply lookup_ext
    intro j hj
    unfold path
    obtain rfl | rfl | rfl : j = 0 ∨ j = 1 ∨ j = 2 := by omega
    · omega
    · omega
    · omega
  · intro a ha
    apply h.inRam
    have hle := nodes_le_own s.mem r (fun _ => none) a
    rw [List.map_cons, List.sum_cons]
    omega

theorem Heap.freed (h : Heap pool s ((r, fun _ => none) :: T) H)
    (hf : Freed s t (nodes sv39 s.mem 2 r)) : Heap pool t T H := by
  refine Heap.change (X := [(r, fun _ => none)]) (Y := []) h ?_ ?_ ?_
  · intro x hx
    cases hx
  · intro a
    have hzero : tally (Finset.range trapframeVpn) (pageWeight a) (fun _ => none) = 0 :=
      tally_eq_zero fun _ _ => rfl
    rw [own_singleton, own_eq, hzero, hf.count a, List.map_nil, List.sum_nil]
    omega
  · intro b _ _ hown
    rw [own_singleton] at hown
    have hle := nodes_le_own s.mem r (fun _ => none) b
    exact hf.frame b (by omega)

/-- `uvmfree` of a page table that maps only pages of the process. -/
theorem wp_uvmfree {Q : Unit → State → Prop}
    (h : Heap pool s ((r, layout es fun _ => none) :: T) H) (hfits : Fits es sz)
    (hQ : ∀ t, t.toProcs = s.toProcs → Heap pool t T H → Q () t) :
    wp E (uvmfree r sz) Q s := by
  have hwalk : ∀ t, t.toProcs = s.toProcs →
      Heap pool t ((r, layout [] fun _ => none) :: T) H → wp E (freewalk 3 r) Q t := by
    intro t hprocs ht
    rw [layout_nil] at ht
    apply wp_freewalk ht.freeable
    intro u hu
    exact hQ u (hu.proc_eq.trans hprocs) (ht.freed hu)
  unfold uvmfree
  rw [wp_bind]
  refine wp_ite (fun _ => ?_) fun hzero => ?_
  · have hunmap := wp_unmapFrom (k := 0) (E := E) (Q := fun _ => wp E (freewalk 3 r) Q) h
      hfits.readable hfits.length_le (Nat.zero_le _) hwalk
    rwa [Nat.zero_mul, Nat.sub_zero, ← vpn_mul_div es.length, ← hfits.pgroundup_eq] at hunmap
  · have hnil : es = [] := by
      apply List.eq_nil_of_length_eq_zero
      rw [hfits.length_eq, Nat.eq_zero_of_not_pos hzero]
      rfl
    rw [hnil] at h
    exact hwalk s rfl h

omit [Image] in
theorem trampolineVa_eq : trampolineVa = trampolineVpn * pgsize := by
  have hvalues := vpn_values
  rw [hvalues.2.1]
  rfl

omit [Image] in
theorem trapframeVa_eq : trapframeVa = trapframeVpn * pgsize := by
  have hvalues := vpn_values
  rw [hvalues.1]
  rfl

end CS352.Memory
