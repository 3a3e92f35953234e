import CS352.Verification.Umalloc.FreeList

/-! # Blocks

The free blocks and the blocks that are handed out tile the memory that `morecore` got. -/

namespace CS352.Umalloc

open Circular Tiling

variable {base bp n p u : ℕ} {h h' : Heap} {fs l r mid mid' : List ℕ}
  {live live' obtained : List (ℕ × ℕ)}

def freeBlocks (h : Heap) (fs : List ℕ) : List (ℕ × ℕ) := fs.map fun a => (a, h.size a)

theorem freeBlocks_append (h : Heap) (l r : List ℕ) :
    freeBlocks h (l ++ r) = freeBlocks h l ++ freeBlocks h r := List.map_append

theorem freeBlocks_cons (h : Heap) (a : ℕ) (l : List ℕ) :
    freeBlocks h (a :: l) = (a, h.size a) :: freeBlocks h l := rfl

theorem freeBlocks_congr (hsize : ∀ a ∈ fs, h'.size a = h.size a) :
    freeBlocks h' fs = freeBlocks h fs :=
  List.map_congr_left fun a ha => by rw [hsize a ha]

/-- The allocator between two calls. `base` is among the free blocks, and is empty. -/
structure Ready (base : ℕ) (h : Heap) (fs : List ℕ) (live obtained : List (ℕ × ℕ)) : Prop where
  list : FreeList base h fs
  freep : ∃ f ∈ base :: fs, h.freep = some f
  header : ∀ b ∈ live, h.size b.1 = b.2 ∧ 0 < b.2
  tiles : ∀ u, cover (freeBlocks h (base :: fs) ++ live) u = cover obtained u
  once : ∀ u, cover obtained u ≤ 1
  inside : ∀ b ∈ obtained, base < b.1 ∧ b.1 + b.2 ≤ h.brk
  base_lt : base < h.brk
  brk : h.brk ≤ 2 ^ 32

namespace Ready

theorem inside_of_cover (hr : Ready base h fs live obtained)
    (hu : 0 < cover (freeBlocks h (base :: fs) ++ live) u) : base < u ∧ u < h.brk := by
  rw [hr.tiles, cover_pos_iff] at hu
  obtain ⟨b, hb, hle, hlt⟩ := hu
  have := hr.inside b hb
  omega

/-- Where a block is. -/
theorem block_inside (hr : Ready base h fs live obtained) {b : ℕ × ℕ}
    (hb : b ∈ freeBlocks h (base :: fs) ++ live) (hpos : 0 < b.2) :
    base < b.1 ∧ b.1 + b.2 ≤ h.brk := by
  have hfirst := hr.inside_of_cover (u := b.1) (cover_pos_iff.mpr ⟨b, hb, by omega, by omega⟩)
  have hlast := hr.inside_of_cover (u := b.1 + b.2 - 1)
    (cover_pos_iff.mpr ⟨b, hb, by omega, by omega⟩)
  omega

theorem mem_freeBlocks {a : ℕ} (ha : a ∈ base :: fs) :
    (a, h.size a) ∈ freeBlocks h (base :: fs) := List.mem_map_of_mem ha

theorem live_inside (hr : Ready base h fs live obtained) {b : ℕ × ℕ} (hb : b ∈ live) :
    base < b.1 ∧ b.1 + b.2 ≤ h.brk :=
  hr.block_inside (List.mem_append_right _ hb) (hr.header b hb).2

theorem free_inside (hr : Ready base h fs live obtained) {a : ℕ} (ha : a ∈ fs) :
    base < a ∧ a + h.size a ≤ h.brk :=
  hr.block_inside (List.mem_append_left _ (mem_freeBlocks (List.mem_cons_of_mem base ha)))
    (hr.list.pos a ha)

/-- A free block and one that is handed out are apart. -/
theorem apart (hr : Ready base h fs live obtained) {a : ℕ} {b : ℕ × ℕ} (ha : a ∈ base :: fs)
    (hb : b ∈ live) : a + h.size a ≤ b.1 ∨ b.1 + b.2 ≤ a := by
  rcases List.mem_cons.mp ha with rfl | hafs
  · have := hr.list.base_size
    have := hr.live_inside hb
    omega
  · obtain ⟨l, r, hl⟩ := List.append_of_mem (mem_freeBlocks (h := h) ha)
    obtain ⟨l', r', rfl⟩ := List.append_of_mem hb
    have hperm : (freeBlocks h (base :: fs) ++ (l' ++ b :: r')).Perm
        ((a, h.size a) :: b :: (l ++ r ++ (l' ++ r'))) := by
      rw [hl]
      have hfirst : (l ++ (a, h.size a) :: r).Perm ((a, h.size a) :: (l ++ r)) :=
        List.perm_middle
      have hsecond : (l' ++ b :: r').Perm (b :: (l' ++ r')) := List.perm_middle
      refine (hfirst.append hsecond).trans ?_
      exact List.perm_middle.cons _
    have honce : ∀ u, cover ((a, h.size a) :: b :: (l ++ r ++ (l' ++ r'))) u ≤ 1 := by
      intro u
      rw [← cover_perm hperm, hr.tiles]
      exact hr.once u
    exact apart_of_cover_le_one honce (hr.list.pos a hafs) (hr.header b hb).2

/-- Different blocks that are handed out are apart. -/
theorem live_apart (hr : Ready base h fs live obtained) {b c : ℕ × ℕ} {rest : List (ℕ × ℕ)}
    (hlive : live.Perm (b :: c :: rest)) : b.1 + b.2 ≤ c.1 ∨ c.1 + c.2 ≤ b.1 := by
  have hperm : (freeBlocks h (base :: fs) ++ live).Perm
      (b :: c :: (rest ++ freeBlocks h (base :: fs))) :=
    List.perm_append_comm.trans (hlive.append_right _)
  have honce : ∀ u, cover (b :: c :: (rest ++ freeBlocks h (base :: fs))) u ≤ 1 := by
    intro u
    rw [← cover_perm hperm, hr.tiles]
    exact hr.once u
  exact apart_of_cover_le_one honce (hr.header b (hlive.mem_iff.mpr (by simp))).2
    (hr.header c (hlive.mem_iff.mpr (by simp))).2

theorem not_mem_of_live (hr : Ready base h fs live obtained) {b : ℕ × ℕ} (hb : b ∈ live)
    (hle : b.1 ≤ u) (hlt : u < b.1 + b.2) : u ∉ base :: fs := by
  intro hu
  have hapart := hr.apart hu hb
  have hinside := hr.live_inside hb
  rcases List.mem_cons.mp hu with rfl | hu
  · omega
  · have := hr.list.pos u hu
    omega

theorem length_le (hr : Ready base h fs live obtained) : fs.length ≤ h.brk := by
  have hsub : fs ⊆ List.range h.brk := by
    intro a ha
    have := hr.free_inside ha
    have := hr.list.pos a ha
    exact List.mem_range.mpr (by omega)
  have hnodup := (List.nodup_cons.mp hr.list.nodup).2
  simpa using (List.subperm_of_subset hnodup hsub).length_le

/-- The nodes of `mid` behind `p` are replaced by those of `mid'`, and the blocks that are handed
out change so that the same memory is covered. -/
theorem resplice (hr : Ready base h fs live obtained) (h' : Heap) (mid mid' : List ℕ)
    (live' : List (ℕ × ℕ))
    (hsplit : base :: fs = l ++ (p :: mid ++ r)) (hsame : ∀ x ∈ r ++ l, h'.mem x = h.mem x)
    (hlink : ∀ b, List.IsChain (fun x y => h.ptr x = y) (p :: (mid ++ [b])) →
      List.IsChain (fun x y => h'.ptr x = y) (p :: (mid' ++ [b])))
    (hmid : (p :: mid').Pairwise fun a b => a + h'.size a < b)
    (hbehind : ∀ a ∈ p :: mid', ∀ b ∈ r, a + h'.size a < b)
    (hbase : h'.size base = 0) (hpos : ∀ a ∈ p :: mid', a ≠ base → 0 < h'.size a)
    (hfreep : ∃ f ∈ l ++ (p :: mid' ++ r), h'.freep = some f)
    (hheader : ∀ b ∈ live', h'.size b.1 = b.2 ∧ 0 < b.2)
    (hcover : ∀ u, cover (freeBlocks h' (p :: mid') ++ live') u =
      cover (freeBlocks h (p :: mid) ++ live) u)
    (hbrk : h'.brk = h.brk) :
    ∃ fs', base :: fs' = l ++ (p :: mid' ++ r) ∧ Ready base h' fs' live' obtained := by
  obtain ⟨fs', hfs'⟩ : ∃ fs', base :: fs' = l ++ (p :: mid' ++ r) := by
    cases l with
    | nil =>
      cases hsplit
      exact ⟨mid' ++ r, rfl⟩
    | cons b l =>
      cases hsplit
      exact ⟨l ++ (p :: mid' ++ r), rfl⟩
  have hsize : ∀ x ∈ r ++ l, h'.size x = h.size x := fun x hx => by
    rw [Heap.size, hsame x hx]
    rfl
  have hsorted := hr.list.sorted
  rw [hsplit, List.pairwise_append, List.pairwise_append] at hsorted
  obtain ⟨hl, ⟨-, hr', -⟩, hcross⟩ := hsorted
  have hnew : (base :: fs').Pairwise fun a b => a + h'.size a < b := by
    rw [hfs', List.pairwise_append, List.pairwise_append]
    refine ⟨?_, ⟨hmid, ?_, hbehind⟩, ?_⟩
    · exact hl.imp_of_mem fun ha _ hab => by rwa [hsize _ (List.mem_append_right r ha)]
    · exact hr'.imp_of_mem fun ha _ hab => by rwa [hsize _ (List.mem_append_left l ha)]
    · intro a ha b hb
      rw [hsize a (List.mem_append_right r ha)]
      rcases List.mem_append.mp hb with hb | hb
      · have hap := hcross a ha p (by simp)
        rcases List.mem_cons.mp hb with rfl | hb
        · exact hap
        · have := (List.pairwise_cons.mp hmid).1 b hb
          omega
      · exact hcross a ha b (List.mem_append_right _ hb)
  refine ⟨fs', hfs', ⟨?_, hnew, hbase, ?_⟩, hfs' ▸ hfreep, hheader, ?_, hr.once, ?_, ?_, ?_⟩
  · have hcircular := hr.list.circular
    rw [hsplit] at hcircular
    rw [hfs']
    refine Circular.splice hcircular (fun x hx => ?_) hlink
    rw [Heap.ptr, hsame x hx]
    rfl
  · intro a ha
    have hne : a ≠ base := by
      have := (List.pairwise_cons.mp hnew).1 a ha
      omega
    have hold : a ∈ r ++ l → 0 < h'.size a := by
      intro hrl
      rw [hsize a hrl]
      have hmem : a ∈ base :: fs := by
        rw [hsplit]
        simp only [List.mem_append] at hrl ⊢
        tauto
      exact hr.list.pos a ((List.mem_cons.mp hmem).resolve_left hne)
    have hmem : a ∈ l ++ (p :: mid' ++ r) := hfs' ▸ List.mem_cons_of_mem base ha
    rcases List.mem_append.mp hmem with hmem | hmem
    · exact hold (List.mem_append_right r hmem)
    · rcases List.mem_append.mp hmem with hmem | hmem
      · exact hpos a hmem hne
      · exact hold (List.mem_append_left l hmem)
  · intro u
    have hl' := freeBlocks_congr fun a ha => hsize a (List.mem_append_right r ha)
    have hr' := freeBlocks_congr fun a ha => hsize a (List.mem_append_left l ha)
    have htiles := hr.tiles u
    have hcut := hcover u
    rw [hsplit] at htiles
    rw [hfs']
    simp only [freeBlocks_append, cover_append, hl', hr'] at htiles hcut ⊢
    omega
  · rw [hbrk]
    exact hr.inside
  · rw [hbrk]
    exact hr.base_lt
  · rw [hbrk]
    exact hr.brk

end Ready

/-! ## `free` -/

/-- What `joinNext` leaves: the block at `bp` has `m` units, with those of the nodes in `mid`
that it swallowed, and leads to the node behind them. -/
structure Joined (h h₁ : Heap) (bp n p : ℕ) (mid r : List ℕ) (m : ℕ) : Prop where
  size : h₁.size bp = m
  mem : ∀ x, x ≠ bp → h₁.mem x = h.mem x
  link : ∀ b, List.IsChain (fun x y => h.ptr x = y) (p :: (mid ++ [b])) → h₁.ptr bp = b
  before : ∀ y ∈ r, bp + m < y
  cover_eq : ∀ u, cover ((bp, n) :: freeBlocks h mid) u = cover [(bp, m)] u
  le : n ≤ m ∧ bp + m ≤ h.brk
  frame : h₁.brk = h.brk ∧ h₁.freep = h.freep

theorem uint_eq {x : ℕ} (hx : x < 2 ^ 32) : uint x = x := Nat.mod_eq_of_lt hx

theorem Ready.joinNext (hr : Ready base h fs live obtained) (hb : (bp, n) ∈ live)
    (hsplit : base :: fs = l ++ p :: r) (hgt : ∀ y ∈ r, bp < y) :
    ∃ mid r' m, r = mid ++ r' ∧ Joined h (joinNext h bp p) bp n p mid r' m := by
  have hsize : h.size bp = n := (hr.header _ hb).1
  have hinside := hr.live_inside hb
  have hbrk := hr.brk
  dsimp only at hinside
  have hmem : ∀ y ∈ r, y ∈ base :: fs := fun y hy => by rw [hsplit]; simp [hy]
  have hbehind : ∀ y ∈ r, bp + n ≤ y := by
    intro y hy
    have hapart := hr.apart (hmem y hy) hb
    have hlt := hgt y hy
    dsimp only at hapart
    omega
  unfold Umalloc.joinNext
  by_cases hjoin : bp + h.size bp = h.ptr p
  · rw [if_pos hjoin]
    rcases hr.list.ptr_cases hsplit with ⟨c, r', rfl, hptr⟩ | ⟨-, hptr⟩
    · have hc : bp + n = c := by rw [← hsize, hjoin, hptr]
      have hsorted := hr.list.sorted
      rw [hsplit, List.pairwise_append, List.pairwise_cons, List.pairwise_cons] at hsorted
      have hcfs : c ∈ fs := by
        rcases List.mem_cons.mp (hmem c (by simp)) with heq | hcfs
        · omega
        · exact hcfs
      have hcin := hr.free_inside hcfs
      have hsum : uint (h.size bp + h.size c) = n + h.size c := by
        rw [hsize, uint_eq (by omega)]
      refine ⟨[c], r', n + h.size c, rfl, ?_, ?_, ?_, ?_, ?_, ?_, rfl, rfl⟩
      · simp [hptr, hsum]
      · intro x hx
        rw [setPtr_mem _ _ _ _ hx, setSize_mem _ _ _ _ hx]
      · intro b hchain
        have hlink := (List.isChain_cons_cons.mp (List.isChain_cons_cons.mp hchain).2).1
        simp [hptr, hlink]
      · intro y hy
        have := hsorted.2.1.2.1 y hy
        omega
      · intro u
        have hcut := covers_cut u bp n (h.size c)
        rw [hc] at hcut
        simp only [freeBlocks, List.map_cons, List.map_nil, cover_cons, cover_nil]
        omega
      · omega
    · omega
  · rw [if_neg hjoin]
    refine ⟨[], r, n, rfl, ?_, ?_, ?_, ?_, ?_, ?_, rfl, rfl⟩
    · simp [hsize]
    · exact fun x hx => setPtr_mem _ _ _ _ hx
    · intro b hchain
      have hlink := (List.isChain_cons_cons.mp hchain).1
      simp [hlink]
    · intro y hy
      rcases hr.list.ptr_cases hsplit with ⟨c, r', rfl, hptr⟩ | ⟨rfl, -⟩
      · have hne : bp + n ≠ c := by rw [← hsize, ← hptr]; exact hjoin
        have hc := hbehind c (by simp)
        rcases List.mem_cons.mp hy with rfl | hy
        · omega
        · have hsorted := hr.list.lt
          rw [hsplit, List.pairwise_append, List.pairwise_cons, List.pairwise_cons] at hsorted
          have := hsorted.2.1.2.1 y hy
          omega
      · cases hy
    · exact fun u => rfl
    · omega

theorem joinPrev_mem {x : ℕ} (hx : x ≠ p) : (joinPrev h bp p).mem x = h.mem x := by
  unfold joinPrev
  split_ifs
  · exact (setPtr_mem _ _ _ _ hx).trans (setSize_mem _ _ _ _ hx)
  · exact setPtr_mem _ _ _ _ hx

theorem joinPrev_brk : (joinPrev h bp p).brk = h.brk := by
  unfold joinPrev
  split_ifs <;> rfl

/-- The block that is freed is not in the list, and the search finds its place. -/
theorem Ready.place (hr : Ready base h fs live obtained) (hb : (bp, n) ∈ live) :
    ∃ f l p r, h.freep = some f ∧ base :: fs = l ++ p :: r ∧ p < bp ∧ (∀ y ∈ r, bp < y) ∧
      freeLoop h bp (fuel h) f = some p := by
  have hinside := hr.live_inside hb
  have hn := (hr.header _ hb).2
  dsimp only at hinside hn
  have hbfs : bp ∉ fs := fun hbfs =>
    hr.not_mem_of_live hb le_rfl (by dsimp only; omega) (List.mem_cons_of_mem base hbfs)
  obtain ⟨l, p, r, hsplit, hp, hgt⟩ := exists_pred hr.list.lt hinside.1 hbfs
  obtain ⟨f, hf, hfreep⟩ := hr.freep
  have hlength := hr.length_le
  exact ⟨f, l, p, r, hfreep, hsplit, hp, hgt,
    hr.list.freeLoop_eq hsplit hp hgt hf (by unfold fuel; omega)⟩

theorem length_le_of_splice {fs' : List ℕ} (hsplit : base :: fs = l ++ (p :: mid ++ r))
    (hfs' : base :: fs' = l ++ (p :: mid' ++ r)) (hmid : mid'.length ≤ 1) :
    fs'.length ≤ fs.length + 1 := by
  have hold := congrArg List.length hsplit
  have hnew := congrArg List.length hfs'
  simp only [List.length_cons, List.length_append] at hold hnew
  omega

/-- The block is joined with the one before it, or put behind it. -/
theorem Ready.joinPrev {h₁ h₂ : Heap} {m : ℕ} (hr : Ready base h fs live obtained)
    (hlive : live.Perm ((bp, n) :: live')) (hsplit : base :: fs = l ++ (p :: mid ++ r))
    (hp : p < bp) (hj : Joined h h₁ bp n p mid r m)
    (hh₂ : h₂ = { Umalloc.joinPrev h₁ bp p with freep := some p })
    (hsame : ∀ x, x ≠ bp → x ≠ p → h₂.mem x = h.mem x) (hbrk₂ : h₂.brk = h.brk)
    (hheader : ∀ b ∈ live', h₂.size b.1 = b.2 ∧ 0 < b.2) :
    ∃ fs', Ready base h₂ fs' live' obtained ∧ fs'.length ≤ fs.length + 1 ∧
      ∃ a ∈ fs', n ≤ h₂.size a := by
  have hb : (bp, n) ∈ live := hlive.mem_iff.mpr (by simp)
  have hn := (hr.header _ hb).2
  have hbrk := hr.brk
  have hle := hj.le
  dsimp only at hn
  have hbfs : bp ∉ base :: fs := hr.not_mem_of_live hb le_rfl (by dsimp only; omega)
  have hpfs : p ∈ base :: fs := by rw [hsplit]; simp
  have hbase := hr.list.base_le hpfs
  have hothers : ∀ x ∈ r ++ l, h₂.mem x = h.mem x := by
    intro x hx
    refine hsame x ?_ ?_
    · rintro rfl
      refine hbfs ?_
      rw [hsplit]
      simp only [List.mem_append] at hx ⊢
      tauto
    · rintro rfl
      have hnodup := hr.list.nodup
      rw [hsplit, List.nodup_append, List.cons_append, List.nodup_cons] at hnodup
      rcases List.mem_append.mp hx with hx | hx
      · exact hnodup.2.1.1 (List.mem_append_right mid hx)
      · exact hnodup.2.2 x hx x (by simp) rfl
  have hsize : h₁.size p = h.size p := by
    rw [Heap.size, hj.mem p hp.ne]
    rfl
  have hbase₁ : h₁.size base = 0 := by
    rw [Heap.size, hj.mem base (by omega)]
    exact hr.list.base_size
  have hcovers : ∀ u, cover (freeBlocks h (p :: mid) ++ live) u =
      cover ((p, h.size p) :: (bp, m) :: live') u := by
    intro u
    have hcut := hj.cover_eq u
    have hperm := cover_perm (u := u) hlive
    simp only [freeBlocks_cons, List.cons_append, cover_cons, cover_append, cover_nil] at *
    omega
  unfold Umalloc.joinPrev at hh₂
  by_cases hjoin : p + h₁.size p = bp
  · have hne : p ≠ base := by
      rintro rfl
      have := hr.list.base_size
      omega
    have hsum : uint (h.size p + m) = h.size p + m := uint_eq (by omega)
    rw [if_pos hjoin] at hh₂
    have hsize₂ : ∀ x, h₂.size x = if x = p then h.size p + m else h₁.size x := by
      intro x
      rw [hh₂]
      exact (setPtr_size _ _ _ x).trans (by simp [hsize, hj.size, hsum])
    have hptr₂ : h₂.ptr p = h₁.ptr bp := by
      rw [hh₂]
      exact (setPtr_ptr _ _ _ p).trans (by simp)
    have hcover : ∀ u, cover (freeBlocks h₂ [p] ++ live') u =
        cover (freeBlocks h (p :: mid) ++ live) u := by
      intro u
      have hcut := covers_cut u p (h.size p) m
      rw [← hsize, hjoin, hsize] at hcut
      rw [hcovers]
      simp only [freeBlocks, List.map_cons, List.map_nil, List.cons_append, List.nil_append,
        cover_cons, hsize₂, if_true]
      omega
    have hready := hr.resplice _ _ [] _ hsplit hothers ?_ (List.pairwise_singleton ..) ?_
      ?_ ?_ ⟨p, by simp, by rw [hh₂]⟩ hheader hcover hbrk₂
    · obtain ⟨fs', hfs', hready⟩ := hready
      have hmem : p ∈ base :: fs' := by rw [hfs']; simp
      refine ⟨fs', hready, length_le_of_splice hsplit hfs' (by simp), p,
        (List.mem_cons.mp hmem).resolve_left hne, ?_⟩
      rw [hsize₂, if_pos rfl]
      omega
    · intro b hchain
      simpa [hptr₂] using hj.link b hchain
    · intro a ha b hb
      obtain rfl : a = p := by simpa using ha
      have := hj.before b hb
      rw [hsize₂, if_pos rfl]
      omega
    · rw [hsize₂, if_neg hne.symm]
      exact hbase₁
    · intro a ha _
      obtain rfl : a = p := by simpa using ha
      rw [hsize₂, if_pos rfl]
      omega
  · rw [if_neg hjoin] at hh₂
    have hsize₂ : ∀ x, h₂.size x = h₁.size x := by
      intro x
      rw [hh₂]
      exact setPtr_size _ _ _ x
    have hptr₂ : ∀ x, h₂.ptr x = if x = p then bp else h₁.ptr x := by
      intro x
      rw [hh₂]
      exact setPtr_ptr _ _ _ x
    have hcover : ∀ u, cover (freeBlocks h₂ [p, bp] ++ live') u =
        cover (freeBlocks h (p :: mid) ++ live) u := by
      intro u
      rw [hcovers]
      simp only [freeBlocks, List.map_cons, List.map_nil, List.cons_append, List.nil_append,
        hsize₂, hsize, hj.size]
    have hgap : p + h.size p < bp := by
      have := hr.apart hpfs hb
      dsimp only at this
      omega
    have hready := hr.resplice _ _ [bp] _ hsplit hothers ?_ ?_ ?_ ?_ ?_
      ⟨p, by simp, by rw [hh₂]⟩ hheader hcover hbrk₂
    · obtain ⟨fs', hfs', hready⟩ := hready
      have hmem : bp ∈ base :: fs' := by rw [hfs']; simp
      refine ⟨fs', hready, length_le_of_splice hsplit hfs' (by simp), bp,
        (List.mem_cons.mp hmem).resolve_left (by omega), ?_⟩
      rw [hsize₂, hj.size]
      exact hle.1
    · intro b hchain
      have hlink := hj.link b hchain
      simp [hptr₂, hp.ne', hlink]
    · simpa [hsize₂, hsize] using hgap
    · intro a ha b hb
      have hbehind := hj.before b hb
      rcases List.mem_cons.mp ha with rfl | ha
      · rw [hsize₂, hsize]
        omega
      · obtain rfl : a = bp := by simpa using ha
        rw [hsize₂, hj.size]
        exact hbehind
    · rw [hsize₂]
      exact hbase₁
    · intro a ha hne
      rcases List.mem_cons.mp ha with rfl | ha
      · rw [hsize₂, hsize]
        exact hr.list.pos a ((List.mem_cons.mp hpfs).resolve_left hne)
      · obtain rfl : a = bp := by simpa using ha
        rw [hsize₂, hj.size]
        omega

/-- `free` puts the block at its place in the list and joins it with its neighbours. -/
theorem Ready.free (hr : Ready base h fs live obtained) (hlive : live.Perm ((bp, n) :: live')) :
    ∃ h' fs', Umalloc.free h (bp + 1) = some h' ∧ Ready base h' fs' live' obtained ∧
      h'.brk = h.brk ∧ fs'.length ≤ fs.length + 1 ∧ (∃ a ∈ fs', n ≤ h'.size a) ∧
      ∀ b ∈ live', ∀ u, b.1 ≤ u → u < b.1 + b.2 → h'.mem u = h.mem u := by
  have hb : (bp, n) ∈ live := hlive.mem_iff.mpr (by simp)
  obtain ⟨f, l, p, r, hfreep, hsplit, hp, hgt, hloop⟩ := hr.place hb
  obtain ⟨mid, r', m, rfl, hj⟩ := hr.joinNext hb hsplit hgt
  obtain ⟨h₂, hh₂⟩ : ∃ h₂ : Heap,
    h₂ = { Umalloc.joinPrev (Umalloc.joinNext h bp p) bp p with freep := some p } := ⟨_, rfl⟩
  have hmem : ∀ x, x ≠ bp → x ≠ p → h₂.mem x = h.mem x := fun x hxb hxp => by
    rw [hh₂, ← hj.mem x hxb]
    exact joinPrev_mem hxp
  have hbrk₂ : h₂.brk = h.brk := by
    rw [hh₂, ← hj.frame.1]
    exact joinPrev_brk
  have hframe : ∀ b ∈ live', ∀ u, b.1 ≤ u → u < b.1 + b.2 → h₂.mem u = h.mem u := by
    intro b hb' u hle hlt
    have hbl : b ∈ live := hlive.mem_iff.mpr (List.mem_cons_of_mem _ hb')
    refine hmem u ?_ ?_
    · rintro rfl
      have := hr.live_apart (hlive.trans ((List.perm_cons_erase hb').cons _))
      have := (hr.header _ hb).2
      dsimp only at *
      omega
    · rintro rfl
      refine hr.not_mem_of_live hbl hle hlt ?_
      rw [hsplit]
      simp
  have hheader : ∀ b ∈ live', h₂.size b.1 = b.2 ∧ 0 < b.2 := by
    intro b hb
    have hold := hr.header b (hlive.mem_iff.mpr (List.mem_cons_of_mem _ hb))
    rw [Heap.size, hframe b hb b.1 le_rfl (by omega)]
    exact hold
  obtain ⟨fs', hready, hlength, hbig⟩ := hr.joinPrev hlive hsplit hp hj hh₂ hmem hbrk₂ hheader
  refine ⟨h₂, fs', ?_, hready, hbrk₂, hlength, hbig, hframe⟩
  simp [Umalloc.free, hfreep, hloop, hh₂]

end CS352.Umalloc
