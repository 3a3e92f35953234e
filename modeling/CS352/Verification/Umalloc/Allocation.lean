import CS352.Verification.Umalloc.Blocks

/-! # `malloc`

The loop goes once around the list. If no block is large enough, `morecore` adds one that is, and
the second round finds it. -/

namespace CS352.Umalloc

open Circular Tiling

variable {base f n p prevp : ℕ} {h : Heap} {fs l r xs : List ℕ} {live obtained : List (ℕ × ℕ)}
  {granted : Bool}

/-- The units of the blocks of `live` hold in `h'` what they hold in `h`. -/
def Untouched (live : List (ℕ × ℕ)) (h h' : Heap) : Prop :=
  ∀ b ∈ live, ∀ u, b.1 ≤ u → u < b.1 + b.2 → h'.mem u = h.mem u

theorem Untouched.trans {h₁ h₂ h₃ : Heap} (h₁₂ : Untouched live h₁ h₂)
    (h₂₃ : Untouched live h₂ h₃) : Untouched live h₁ h₃ := fun b hb u hle hlt =>
  (h₂₃ b hb u hle hlt).trans (h₁₂ b hb u hle hlt)

/-! ## Handing out a block -/

/-- A block of the size that is asked for leaves the list. -/
theorem Ready.takeAll (hr : Ready base h fs live obtained)
    (hsplit : base :: fs = l ++ prevp :: p :: r) (hpos : 0 < h.size p) :
    ∃ fs', Ready base { h.setPtr prevp (h.ptr p) with freep := some prevp } fs'
      ((p, h.size p) :: live) obtained := by
  obtain ⟨h', hh'⟩ : ∃ h' : Heap, h' = { h.setPtr prevp (h.ptr p) with freep := some prevp } :=
    ⟨_, rfl⟩
  have hsize : ∀ x, h'.size x = h.size x := fun x => by
    rw [hh']
    exact setPtr_size h prevp _ x
  have hptr : h'.ptr prevp = h.ptr p := by
    rw [hh']
    exact (setPtr_ptr h prevp _ prevp).trans (if_pos rfl)
  have hnodup := hr.list.nodup
  have hsorted := hr.list.sorted
  rw [hsplit, List.nodup_append, List.nodup_cons] at hnodup
  rw [hsplit, List.pairwise_append, List.pairwise_cons] at hsorted
  have hready := hr.resplice h' [p] [] ((p, h.size p) :: live)
    hsplit ?_ ?_ (List.pairwise_singleton ..) ?_ ?_ ?_ ⟨prevp, by simp, by rw [hh']⟩ ?_ ?_
    (by rw [hh']; rfl)
  · obtain ⟨fs', -, hready⟩ := hready
    exact ⟨fs', hh' ▸ hready⟩
  · intro x hx
    have hne : x ≠ prevp := by
      rintro rfl
      rcases List.mem_append.mp hx with hx | hx
      · exact hnodup.2.1.1 (List.mem_cons_of_mem p hx)
      · exact hnodup.2.2 x hx x (by simp) rfl
    rw [hh']
    exact setPtr_mem _ _ _ _ hne
  · intro b hchain
    have hlink := (List.isChain_cons_cons.mp (List.isChain_cons_cons.mp hchain).2).1
    simp [hptr, hlink]
  · intro a ha b hb
    obtain rfl : a = prevp := by simpa using ha
    rw [hsize]
    exact hsorted.2.1.1 b (List.mem_cons_of_mem p hb)
  · rw [hsize]
    exact hr.list.base_size
  · intro a ha hne
    have hmem : a ∈ base :: fs := by
      rw [hsplit]
      simp_all
    rw [hsize]
    exact hr.list.pos a ((List.mem_cons.mp hmem).resolve_left hne)
  · intro b hb
    rcases List.mem_cons.mp hb with rfl | hb
    · exact ⟨hsize p, hpos⟩
    · rw [hsize]
      exact hr.header b hb
  · intro u
    simp only [freeBlocks, List.map_cons, List.map_nil, List.cons_append, List.nil_append, hsize]

/-- The end of a larger block is handed out. -/
theorem Ready.takeEnd (hr : Ready base h fs live obtained) (hp : p ∈ fs)
    (hprev : prevp ∈ base :: fs) (hpos : 0 < n) (hlt : n < h.size p) :
    ∃ fs', Ready base { (h.setSize p (h.size p - n)).setSize (p + (h.size p - n)) n with
      freep := some prevp } fs' ((p + (h.size p - n), n) :: live) obtained := by
  obtain ⟨q, hq⟩ : ∃ q, q = p + (h.size p - n) := ⟨_, rfl⟩
  rw [← hq]
  obtain ⟨h', hh'⟩ : ∃ h' : Heap, h' = { (h.setSize p (h.size p - n)).setSize q n with
    freep := some prevp } := ⟨_, rfl⟩
  have hne : p ≠ q := by omega
  have hsize : ∀ x, h'.size x = if x = q then n else if x = p then h.size p - n else h.size x :=
    fun x => by
      rw [hh']
      exact (setSize_size _ q n x).trans (by simp)
  have hptr : ∀ x, h'.ptr x = h.ptr x := fun x => by
    rw [hh']
    exact (setSize_ptr _ q n x).trans (by simp)
  obtain ⟨l, r, hsplit⟩ := List.append_of_mem (List.mem_cons_of_mem base hp)
  have hsorted := hr.list.sorted
  rw [hsplit, List.pairwise_append, List.pairwise_cons] at hsorted
  have hbase := hr.list.base_lt hp
  have hothers : ∀ x ∈ r ++ l, x ≠ p ∧ x ≠ q := by
    intro x hx
    rcases List.mem_append.mp hx with hx | hx
    · have := hsorted.2.1.1 x hx
      omega
    · have := hsorted.2.2 x hx p (by simp)
      omega
  have hready := hr.resplice h' [] [] ((q, n) :: live)
    hsplit ?_ ?_ (List.pairwise_singleton ..) ?_ ?_ ?_ ⟨prevp, hsplit ▸ hprev, by rw [hh']⟩ ?_ ?_
    (by rw [hh']; rfl)
  · obtain ⟨fs', -, hready⟩ := hready
    exact ⟨fs', hh' ▸ hready⟩
  · intro x hx
    rw [hh']
    exact (setSize_mem _ _ _ _ (hothers x hx).2).trans (setSize_mem _ _ _ _ (hothers x hx).1)
  · intro b hchain
    simpa [hptr] using hchain
  · intro a ha b hb
    obtain rfl : a = p := by simpa using ha
    have := hsorted.2.1.1 b hb
    rw [hsize, if_neg hne, if_pos rfl]
    omega
  · rw [hsize, if_neg (by omega), if_neg (by omega)]
    exact hr.list.base_size
  · intro a ha _
    obtain rfl : a = p := by simpa using ha
    rw [hsize, if_neg hne, if_pos rfl]
    omega
  · intro b hb
    rcases List.mem_cons.mp hb with rfl | hb
    · exact ⟨by rw [hsize, if_pos rfl], hpos⟩
    · have hapart := hr.apart (List.mem_cons_of_mem base hp) hb
      have hheader := hr.header b hb
      rw [hsize, if_neg (by omega), if_neg (by omega)]
      exact hheader
  · intro u
    have hcut := covers_cut u p (h.size p - n) n
    rw [← hq, Nat.sub_add_cancel hlt.le] at hcut
    simp only [freeBlocks, List.map_cons, List.map_nil, List.cons_append, List.nil_append, hsize,
      if_neg hne, if_true, cover_cons]
    omega

/-- The block that a search found is handed out, and nothing that is handed out changes. -/
theorem Ready.take (hr : Ready base h fs live obtained) (hprev : prevp ∈ base :: fs)
    (hnext : h.ptr prevp = p) (hpos : 0 < n) (hsize : n ≤ h.size p) :
    ∃ q h' fs', take h prevp p n = (q, h') ∧ Ready base h' fs' ((q, n) :: live) obtained ∧
      h'.brk = h.brk ∧ Untouched live h h' := by
  obtain ⟨l, r, hsplit⟩ := List.append_of_mem hprev
  obtain ⟨c, r', rfl, hc⟩ | ⟨-, hc⟩ := hr.list.ptr_cases hsplit
  · obtain rfl : p = c := hnext.symm.trans hc
    have hp : p ∈ fs := by
      have hmem : p ∈ base :: fs := by rw [hsplit]; simp
      refine (List.mem_cons.mp hmem).resolve_left ?_
      rintro rfl
      have := hr.list.base_size
      omega
    by_cases heq : h.size p = n
    · obtain ⟨fs', hready⟩ := hr.takeAll hsplit (by omega)
      refine ⟨p, { h.setPtr prevp (h.ptr p) with freep := some prevp }, fs', ?_, heq ▸ hready,
        rfl, ?_⟩
      · rw [Umalloc.take, if_pos heq]
      intro b hb u hle hlt
      refine setPtr_mem _ _ _ _ ?_
      rintro rfl
      exact hr.not_mem_of_live hb hle hlt hprev
    · obtain ⟨fs', hready⟩ := hr.takeEnd hp hprev hpos (by omega : n < h.size p)
      refine ⟨p + (h.size p - n), _, fs', ?_, hready, rfl, ?_⟩
      · simp [Umalloc.take, if_neg heq]
      · intro b hb u hle hlt
        have := hr.apart (List.mem_cons_of_mem base hp) hb
        exact (setSize_mem _ _ _ _ (by omega)).trans (setSize_mem _ _ _ _ (by omega))
  · have := hr.list.base_size
    rw [← hnext, hc] at hsize
    omega

/-! ## The search -/

/-- One round of the loop: it hands out a block that it meets, or asks for more memory at the
node where it started, if all blocks are too small. -/
theorem mallocLoop_round (n : ℕ) (granted : Bool) (k : ℕ)
    (hchain : List.IsChain (fun x y => h.ptr x = y) (prevp :: (xs ++ [f])))
    (hf : h.freep = some f) (hxs : f ∉ xs) :
    (∃ q ∈ prevp :: xs, n ≤ h.size (h.ptr q) ∧
      mallocLoop n granted (xs.length + 1 + k) h prevp (h.ptr prevp) =
        some (some ((take h q (h.ptr q) n).1 + 1), (take h q (h.ptr q) n).2)) ∨
    ((∀ p ∈ xs ++ [f], h.size p < n) ∧
      (∀ h', morecore h n granted = some (none, h') →
        mallocLoop n granted (xs.length + 1 + k) h prevp (h.ptr prevp) = some (none, h')) ∧
      ∀ p h', morecore h n granted = some (some p, h') →
        mallocLoop n granted (xs.length + 1 + k) h prevp (h.ptr prevp) =
          mallocLoop n granted k h' p (h'.ptr p)) := by
  induction xs generalizing prevp with
  | nil =>
    have hnext : h.ptr prevp = f := (List.isChain_cons_cons.mp hchain).1
    rw [List.length_nil, Nat.zero_add, Nat.add_comm 1 k]
    by_cases hsize : n ≤ h.size (h.ptr prevp)
    · exact .inl ⟨prevp, by simp, hsize, by rw [mallocLoop, if_pos hsize]⟩
    · refine .inr ⟨?_, ?_, ?_⟩
      · simpa [← hnext] using hsize
      · intro h' hmore
        rw [mallocLoop, if_neg hsize, if_pos (by rw [hnext, hf]), hmore]
        rfl
      · intro p h' hmore
        rw [mallocLoop, if_neg hsize, if_pos (by rw [hnext, hf]), hmore]
        rfl
  | cons x xs ih =>
    obtain ⟨hnext, hrest⟩ := List.isChain_cons_cons.mp hchain
    have hfuel : (x :: xs).length + 1 + k = xs.length + 1 + k + 1 := by
      rw [List.length_cons]
      omega
    rw [hfuel]
    by_cases hsize : n ≤ h.size (h.ptr prevp)
    · exact .inl ⟨prevp, by simp, hsize, by rw [mallocLoop, if_pos hsize]⟩
    · have hfx : ¬ some (h.ptr prevp) = h.freep := by
        rw [hnext, hf]
        rintro ⟨⟩
        exact hxs (List.mem_cons_self ..)
      have hstep : mallocLoop n granted (xs.length + 1 + k + 1) h prevp (h.ptr prevp) =
          mallocLoop n granted (xs.length + 1 + k) h x (h.ptr x) := by
        rw [mallocLoop, if_neg hsize, if_neg hfx, hnext]
      rw [hstep]
      rcases ih hrest (fun hmem => hxs (List.mem_cons_of_mem x hmem)) with
        ⟨q, hq, hfit, hloop⟩ | ⟨hsmall, hmore⟩
      · exact .inl ⟨q, List.mem_cons_of_mem prevp hq, hfit, hloop⟩
      · refine .inr ⟨?_, hmore⟩
        intro p hp
        rcases List.mem_cons.mp hp with rfl | hp
        · rw [← hnext]
          omega
        · exact hsmall p hp

/-- The list read from the node where a search starts. -/
theorem Ready.around (hr : Ready base h fs live obtained) :
    ∃ f xs, h.freep = some f ∧ List.IsChain (fun x y => h.ptr x = y) (f :: (xs ++ [f])) ∧
      f ∉ xs ∧ xs.length = fs.length ∧ ∀ y, y ∈ f :: xs ↔ y ∈ base :: fs := by
  obtain ⟨f, hf, hfreep⟩ := hr.freep
  obtain ⟨ys, zs, hsplit⟩ := List.append_of_mem hf
  have hcircular := hr.list.circular
  have hnodup := hr.list.nodup
  have hlength := congrArg List.length hsplit
  rw [hsplit] at hcircular hnodup
  simp only [List.length_cons, List.length_append] at hlength
  refine ⟨f, zs ++ ys, hfreep, circular_cons.mp hcircular.rotate, ?_, ?_, ?_⟩
  · exact (List.nodup_cons.mp (List.nodup_append_comm.mp hnodup)).1 ∘ by simp
  · rw [List.length_append]
    omega
  · intro y
    rw [hsplit]
    simp only [List.mem_cons, List.mem_append]
    tauto

/-! ## More memory -/

theorem sbrkUnits_eq (hn : n * 16 < 2 ^ 31) : sbrkUnits n = n := by
  obtain ⟨m, hm⟩ : ∃ m : ℕ, m = 2 ^ 32 := ⟨_, rfl⟩
  have hunits : sbrkUnits n = Int.bmod ((n : ℤ) * 16) m / 16 := by
    rw [hm]
    rfl
  rw [hunits, Int.bmod_eq_of_le_mul_two (by omega) (by omega)]
  exact Int.mul_ediv_cancel _ (by decide)

/-- Only the headers matter, and that the end of memory does not move down. -/
theorem Ready.congr {h' : Heap} (hr : Ready base h fs live obtained)
    (hfree : ∀ x ∈ base :: fs, h'.mem x = h.mem x) (hlive : ∀ b ∈ live, h'.mem b.1 = h.mem b.1)
    (hfreep : h'.freep = h.freep) (hbrk : h.brk ≤ h'.brk) (hle : h'.brk ≤ 2 ^ 32) :
    Ready base h' fs live obtained := by
  have hsize : ∀ x ∈ base :: fs, h'.size x = h.size x := fun x hx => by
    rw [Heap.size, hfree x hx]
    rfl
  refine ⟨⟨?_, ?_, ?_, ?_⟩, hfreep ▸ hr.freep, ?_, ?_, hr.once, ?_, ?_, hle⟩
  · refine circular_cons.mpr (isChain_congr (base :: fs) hr.list.circular fun x hx => ?_)
    rw [Heap.ptr, hfree x hx]
    rfl
  · exact hr.list.sorted.imp_of_mem fun ha _ hab => by rwa [hsize _ ha]
  · rw [hsize base (by simp)]
    exact hr.list.base_size
  · intro a ha
    rw [hsize a (List.mem_cons_of_mem base ha)]
    exact hr.list.pos a ha
  · intro b hb
    rw [Heap.size, hlive b hb]
    exact hr.header b hb
  · rw [freeBlocks_congr hsize]
    exact hr.tiles
  · intro b hb
    have := hr.inside b hb
    omega
  · exact hr.base_lt.trans_le hbrk

/-- The memory that `sbrk` gives is a block behind all others. -/
theorem Ready.grow (hr : Ready base h fs live obtained) (hpos : 0 < n)
    (hn : h.brk + n ≤ 2 ^ 32) :
    Ready base ({ h with brk := h.brk + n }.setSize h.brk n) fs ((h.brk, n) :: live)
      ((h.brk, n) :: obtained) := by
  have hmem : ∀ x, x < h.brk → ({ h with brk := h.brk + n }.setSize h.brk n).mem x = h.mem x :=
    fun x hx => setSize_mem _ _ _ _ hx.ne
  have hold : Ready base ({ h with brk := h.brk + n }.setSize h.brk n) fs live obtained := by
    refine hr.congr ?_ ?_ rfl (Nat.le_add_right ..) hn
    · intro x hx
      refine hmem x ?_
      rcases List.mem_cons.mp hx with rfl | hx
      · exact hr.base_lt
      · have := hr.free_inside hx
        have := hr.list.pos x hx
        omega
    · intro b hb
      have := hr.live_inside hb
      have := (hr.header b hb).2
      exact hmem b.1 (by omega)
  refine ⟨hold.list, hold.freep, ?_, ?_, ?_, ?_, hold.base_lt, hold.brk⟩
  · intro b hb
    rcases List.mem_cons.mp hb with rfl | hb
    · exact ⟨(setSize_size _ _ _ _).trans (if_pos rfl), hpos⟩
    · exact hold.header b hb
  · intro u
    have htiles := hold.tiles u
    simp only [cover_append, cover_cons] at htiles ⊢
    omega
  · intro u
    rw [cover_cons]
    by_cases hu : covers u (h.brk, n) = true
    · have hzero : cover obtained u = 0 := by
        by_contra hne
        obtain ⟨b, hb, hle, hlt⟩ := cover_pos_iff.mp (Nat.pos_of_ne_zero hne)
        have := hr.inside b hb
        have := covers_iff.mp hu
        omega
      simp [hu, hzero]
    · simpa [hu] using hr.once u
  · intro b hb
    rcases List.mem_cons.mp hb with rfl | hb
    · exact ⟨hr.base_lt, le_rfl⟩
    · exact hold.inside b hb

/-- If there is memory, `morecore` leaves a free block of at least the size that is asked for. -/
theorem Ready.morecore (hr : Ready base h fs live obtained) (hn : n * 16 < 2 ^ 31)
    (hroom : h.brk + max n 4096 ≤ 2 ^ 32) :
    ∃ p h' fs', morecore h n true = some (some p, h') ∧ h'.freep = some p ∧
      Ready base h' fs' live ((h.brk, max n 4096) :: obtained) ∧ h'.brk = h.brk + max n 4096 ∧
      fs'.length ≤ fs.length + 1 ∧ (∃ a ∈ fs', n ≤ h'.size a) ∧ Untouched live h h' := by
  have hmax : (if n < 4096 then 4096 else n) = max n 4096 := by
    split_ifs <;> omega
  have hunits : sbrkUnits (max n 4096) = (max n 4096 : ℕ) := sbrkUnits_eq (by omega)
  have hbrk : ((h.brk : ℤ) + (max n 4096 : ℕ)).toNat = h.brk + max n 4096 := by omega
  have hgrow := hr.grow (by omega : 0 < max n 4096) hroom
  obtain ⟨h', fs', hfree, hready, hbrk', hlength, ⟨a, ha, hsize⟩, hframe⟩ :=
    hgrow.free (List.Perm.refl _)
  obtain ⟨p, -, hp⟩ := hready.freep
  refine ⟨p, h', fs', ?_, hp, hready, hbrk', hlength, ⟨a, ha, by omega⟩, ?_⟩
  · have hle : (0 : ℤ) ≤ h.brk + (max n 4096 : ℕ) := by omega
    simp only [Umalloc.morecore, hmax, hunits, sbrk, if_true, if_pos hle, hbrk, hfree,
      Option.map_some, hp]
  · intro b hb u hle hlt
    have hinside := hr.live_inside hb
    exact (hframe b hb u hle hlt).trans (setSize_mem _ _ _ _ (by omega))

/-! ## The call -/

/-- A round in which a block is large enough hands out a block. -/
theorem Ready.mallocLoop_fit (hr : Ready base h fs live obtained) (granted : Bool) (hpos : 0 < n)
    {fuel : ℕ} (hfuel : fs.length < fuel) (hf : h.freep = some f) (hfit : ∃ a ∈ fs, n ≤ h.size a) :
    ∃ q h' fs', mallocLoop n granted fuel h f (h.ptr f) = some (some (q + 1), h') ∧
      Ready base h' fs' ((q, n) :: live) obtained ∧ h'.brk = h.brk ∧ Untouched live h h' := by
  obtain ⟨g, xs, hg, hchain, hnot, hlength, hmem⟩ := hr.around
  obtain rfl : f = g := Option.some_inj.mp (hf.symm.trans hg)
  obtain ⟨k, rfl⟩ := Nat.exists_eq_add_of_le (show xs.length + 1 ≤ fuel by omega)
  rcases mallocLoop_round n granted k hchain hf hnot with
    ⟨q, hq, hsize, hloop⟩ | ⟨hsmall, -⟩
  · obtain ⟨q', h', fs', htake, hready⟩ := hr.take ((hmem q).mp hq) rfl hpos hsize
    rw [htake] at hloop
    exact ⟨q', h', fs', hloop, hready⟩
  · obtain ⟨a, ha, hsize⟩ := hfit
    have hxs : a ∈ xs ++ [f] := by
      have := (hmem a).mpr (List.mem_cons_of_mem base ha)
      simp only [List.mem_append, List.mem_cons, List.not_mem_nil, or_false] at this ⊢
      tauto
    have := hsmall a hxs
    omega

/-- A call with a list: what the loop returns. -/
theorem Ready.mallocLoop (hr : Ready base h fs live obtained) (hpos : 0 < n)
    (hn : n * 16 < 2 ^ 31) (hroom : granted = true → h.brk + max n 4096 ≤ 2 ^ 32)
    (hf : h.freep = some f) :
    (∃ q h' fs', mallocLoop n granted (fuel h) h f (h.ptr f) = some (some (q + 1), h') ∧
      Ready base h' fs' ((q, n) :: live) (grown h h' ++ obtained) ∧ Untouched live h h') ∨
    (mallocLoop n granted (fuel h) h f (h.ptr f) = some (none, h) ∧ granted = false ∧
      ∀ a ∈ fs, h.size a < n) := by
  obtain ⟨g, xs, hg, hchain, hnot, hlength, hmem⟩ := hr.around
  obtain rfl : f = g := Option.some_inj.mp (hf.symm.trans hg)
  have hle := hr.length_le
  have hfuel : fuel h = xs.length + 1 + (2 * h.brk + 3 - xs.length) := by
    unfold fuel
    omega
  rw [hfuel]
  rcases mallocLoop_round n granted (2 * h.brk + 3 - xs.length) hchain hf hnot
    with ⟨q, hq, hsize, hloop⟩ | ⟨hsmall, hnone, hsome⟩
  · obtain ⟨q', h', fs', htake, hready, hbrk, hframe⟩ :=
      hr.take ((hmem q).mp hq) rfl hpos hsize
    rw [htake] at hloop
    refine .inl ⟨q', h', fs', hloop, ?_, hframe⟩
    rwa [grown, hbrk, if_neg (lt_irrefl _)]
  · cases granted with
    | false =>
      refine .inr ⟨hnone h rfl, rfl, fun a ha => hsmall a ?_⟩
      have := (hmem a).mpr (List.mem_cons_of_mem base ha)
      simp only [List.mem_append, List.mem_cons, List.not_mem_nil, or_false] at this ⊢
      tauto
    | true =>
      obtain ⟨p, h₁, fs₁, hmore, hp, hready₁, hbrk₁, hlength₁, hfit, hframe₁⟩ :=
        hr.morecore hn (hroom rfl)
      obtain ⟨q, h', fs', hloop, hready, hbrk, hframe⟩ :=
        hready₁.mallocLoop_fit true hpos
          (by omega : fs₁.length < 2 * h.brk + 3 - xs.length) hp hfit
      refine .inl ⟨q, h', fs', (hsome p h₁ hmore).trans hloop, ?_, hframe₁.trans hframe⟩
      rw [grown, hbrk, hbrk₁, if_pos (by omega), Nat.add_sub_cancel_left]
      exact hready

end CS352.Umalloc
