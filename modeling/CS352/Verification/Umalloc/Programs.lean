import CS352.Library.Transition
import CS352.Verification.Umalloc.Allocation

/-! # Programs that use the allocator

The blocks that a program holds never overlap, whatever it allocates and frees, and the memory
that it gives back can be handed out again as a whole. -/

namespace CS352.Umalloc

open Circular Tiling Transition Function

variable {base brk nbytes u : ℕ} {mem : ℕ → Header} {s s' : Process} {granted : Bool}
  {fs : List ℕ} {live obtained : List (ℕ × ℕ)} {h : Heap}

/-- A program frees what it holds, and does not write to a header or to memory that the allocator
has not given to it. Requests are below the size that an `int` holds, and there is less memory
than a `uint` counts units. -/
def Permitted (base : ℕ) (s : Process) : Action → Prop
  | .malloc nbytes granted => nbytes < 2 ^ 31 - 32 ∧
      (granted = true → s.heap.brk + max (units nbytes) 4096 ≤ 2 ^ 32)
  | .free ap => ∃ b ∈ s.live, ap = b.1 + 1
  | .store u _ => (∃ b ∈ s.live, b.1 < u ∧ u < b.1 + b.2) ∨ (u ≠ base ∧ cover s.obtained u = 0)
  | .sbrk n => s.heap.brk + n ≤ 2 ^ 32

instance (base : ℕ) (s : Process) : ∀ a, Decidable (Permitted base s a)
  | .malloc _ _ => inferInstanceAs (Decidable (_ ∧ _))
  | .free _ => inferInstanceAs (Decidable (∃ _ ∈ _, _))
  | .store _ _ => inferInstanceAs (Decidable (_ ∨ _))
  | .sbrk _ => inferInstanceAs (Decidable (_ ≤ _))

/-- Between two calls. Before the first one there is no list. -/
def Sound (base : ℕ) (s : Process) : Prop :=
  (s.heap.freep = none ∧ s.live = [] ∧ s.obtained = [] ∧ base < s.heap.brk ∧
    s.heap.brk ≤ 2 ^ 32) ∨
  ∃ fs, Ready base s.heap fs s.live s.obtained

/-! ## Requests -/

theorem units_eq (hn : nbytes < 2 ^ 32) : units nbytes = (nbytes + 15) / 16 + 1 := by
  unfold units
  exact uint_eq (by omega)

theorem units_pos (hn : nbytes < 2 ^ 32) : 0 < units nbytes := by
  rw [units_eq hn]
  omega

/-- A block has room for what is asked for, behind its header. -/
theorem nbytes_le (hn : nbytes < 2 ^ 32) : nbytes ≤ 16 * (units nbytes - 1) := by
  rw [units_eq hn]
  omega

/-! ## Calls -/

/-- The first call makes the list. -/
theorem ready_first (hbase : base < h.brk) (hbrk : h.brk ≤ 2 ^ 32) :
    Ready base { (h.setPtr base base).setSize base 0 with freep := some base } [] [] [] := by
  have hptr : Heap.ptr { (h.setPtr base base).setSize base 0 with freep := some base } base =
      base := (setSize_ptr _ _ _ _).trans ((setPtr_ptr _ _ _ _).trans (if_pos rfl))
  have hsize : Heap.size { (h.setPtr base base).setSize base 0 with freep := some base } base =
      0 := (setSize_size _ _ _ _).trans (if_pos rfl)
  refine ⟨⟨?_, List.pairwise_singleton .., hsize, by simp⟩, ⟨base, by simp, rfl⟩, by simp, ?_,
    by simp, by simp, hbase, hbrk⟩
  · exact circular_cons.mpr (by simp [hptr])
  · intro u
    have hnot : covers u (base, 0) = false := by simp [covers]
    simp [freeBlocks, hsize, cover_cons, hnot]

/-- The heap in which the loop of `malloc` starts. -/
theorem Sound.start (hs : Sound base s) : ∃ h f fs, h.freep = some f ∧
    Ready base h fs s.live s.obtained ∧ h.brk = s.heap.brk ∧ Untouched s.live s.heap h ∧
    ∀ nbytes granted, malloc base s.heap nbytes granted =
      mallocLoop (units nbytes) granted (fuel h) h f (h.ptr f) := by
  rcases hs with ⟨hfreep, hlive, hobtained, hbase, hbrk⟩ | ⟨fs, hr⟩
  · refine ⟨{ (s.heap.setPtr base base).setSize base 0 with freep := some base }, base, [], rfl, ?_,
      rfl, ?_, ?_⟩
    · rw [hlive, hobtained]
      exact ready_first hbase hbrk
    · simp [Untouched, hlive]
    · intro nbytes granted
      simp only [malloc, hfreep]
  · obtain ⟨f, -, hf⟩ := hr.freep
    refine ⟨s.heap, f, fs, hf, hr, rfl, fun _ _ _ _ _ => rfl, ?_⟩
    intro nbytes granted
    simp only [malloc, hf]

/-- What a request returns: a block that did not belong to anyone, or nothing if memory is
refused and no free block is large enough. -/
theorem Sound.malloc (hs : Sound base s) (hc : Permitted base s (.malloc nbytes granted)) :
    (∃ q h', malloc base s.heap nbytes granted = some (some (q + 1), h') ∧
      Sound base ⟨h', (q, units nbytes) :: s.live, grown s.heap h' ++ s.obtained⟩ ∧
      Untouched s.live s.heap h') ∨
    (∃ h', malloc base s.heap nbytes granted = some (none, h') ∧ granted = false ∧
      Sound base ⟨h', s.live, s.obtained⟩ ∧ h'.brk = s.heap.brk ∧ Untouched s.live s.heap h') := by
  obtain ⟨hn, hroom⟩ := hc
  obtain ⟨h, f, fs, hf, hr, hbrk, hframe, hmalloc⟩ := hs.start
  have hunits := units_eq (by omega : nbytes < 2 ^ 32)
  rcases hr.mallocLoop (units_pos (by omega : nbytes < 2 ^ 32)) (by omega)
    (hbrk ▸ hroom : granted = true → _) hf with
    ⟨q, h', fs', hloop, hready, hframe'⟩ | ⟨hloop, hgranted, -⟩
  · refine .inl ⟨q, h', (hmalloc ..).trans hloop, .inr ⟨fs', ?_⟩, hframe.trans hframe'⟩
    rwa [grown, hbrk] at hready
  · exact .inr ⟨h, (hmalloc ..).trans hloop, hgranted, .inr ⟨fs, hr⟩, hbrk, hframe⟩

/-- A request that a free block can serve is served without more memory. -/
theorem Ready.malloc_fit (hr : Ready base h fs live obtained) (granted : Bool)
    (hn : nbytes < 2 ^ 32) (hfit : ∃ a ∈ fs, units nbytes ≤ h.size a) :
    ∃ q h', Umalloc.malloc base h nbytes granted = some (some q, h') ∧ h'.brk = h.brk := by
  obtain ⟨f, -, hf⟩ := hr.freep
  have hlength := hr.length_le
  obtain ⟨q, h', fs', hloop, -, hbrk, -⟩ := hr.mallocLoop_fit granted
    (units_pos hn) (by unfold fuel; omega : fs.length < fuel h) hf hfit
  exact ⟨q + 1, h', by simpa only [Umalloc.malloc, hf] using hloop, hbrk⟩

theorem Sound.ready (hs : Sound base s) {b : ℕ × ℕ} (hb : b ∈ s.live) :
    ∃ fs, Ready base s.heap fs s.live s.obtained := by
  rcases hs with ⟨-, hlive, -⟩ | hr
  · rw [hlive] at hb
    cases hb
  · exact hr

/-- The block that is freed leaves the list of blocks that are handed out. -/
theorem perm_eraseP {b : ℕ × ℕ} (hb : b ∈ live) : ∃ n, (b.1, n) ∈ live ∧
    live.Perm ((b.1, n) :: live.eraseP fun c => c.1 = b.1) := by
  obtain ⟨c, l₁, l₂, -, hc, hlive, herase⟩ :=
    List.exists_of_eraseP (p := fun c : ℕ × ℕ => c.1 = b.1) hb (by simp)
  obtain ⟨c₁, n⟩ := c
  obtain rfl : c₁ = b.1 := by simpa using hc
  refine ⟨n, hlive ▸ by simp, ?_⟩
  rw [herase]
  conv_lhs => rw [hlive]
  exact List.perm_middle

theorem Sound.store (hs : Sound base s) {x : Header} (hc : Permitted base s (.store u x)) :
    Sound base { s with heap := { s.heap with mem := Function.update s.heap.mem u x } } := by
  rcases hs with hfirst | ⟨fs, hr⟩
  · exact .inl hfirst
  · refine .inr ⟨fs, hr.congr ?_ ?_ rfl le_rfl hr.brk⟩
    · intro y hy
      refine update_of_ne ?_ ..
      rintro rfl
      rcases hc with ⟨b, hb, hlt, hle⟩ | ⟨hne, hzero⟩
      · exact hr.not_mem_of_live hb hlt.le hle hy
      · have hfs := (List.mem_cons.mp hy).resolve_left hne
        have := hr.list.pos y hfs
        have hpos : 0 < cover (freeBlocks s.heap (base :: fs) ++ s.live) y :=
          cover_pos_iff.mpr ⟨(y, s.heap.size y),
            List.mem_append_left _ (Ready.mem_freeBlocks hy), le_rfl, by dsimp only; omega⟩
        rw [hr.tiles, hzero] at hpos
        exact absurd hpos (lt_irrefl 0)
    · intro c hcl
      refine update_of_ne ?_ ..
      rintro rfl
      have hcpos := (hr.header c hcl).2
      rcases hc with ⟨b, hb, hlt, hle⟩ | ⟨-, hzero⟩
      · have hne : c ≠ b := by
          rintro rfl
          exact lt_irrefl _ hlt
        have hmem : b ∈ s.live.erase c := (List.mem_erase_of_ne hne.symm).mpr hb
        have := hr.live_apart ((List.perm_cons_erase hcl).trans
          ((List.perm_cons_erase hmem).cons c))
        omega
      · have hpos : 0 < cover (freeBlocks s.heap (base :: fs) ++ s.live) c.1 :=
          cover_pos_iff.mpr ⟨c, List.mem_append_right _ hcl, le_rfl, by omega⟩
        rw [hr.tiles, hzero] at hpos
        exact absurd hpos (lt_irrefl 0)

theorem Sound.sbrk (hs : Sound base s) {n : ℕ} (hc : s.heap.brk + n ≤ 2 ^ 32) :
    Sound base { s with heap := { s.heap with brk := s.heap.brk + n } } := by
  rcases hs with ⟨hfreep, hlive, hobtained, hbase, -⟩ | ⟨fs, hr⟩
  · exact .inl ⟨hfreep, hlive, hobtained, Nat.lt_add_right n hbase, hc⟩
  · exact .inr ⟨fs, hr.congr (fun _ _ => rfl) (fun _ _ => rfl) rfl (Nat.le_add_right ..) hc⟩

/-! ## Runs -/

theorem Sound.step (hs : Sound base s) {a : Action} (hc : Permitted base s a)
    (hstep : step base s a = some s') : Sound base s' := by
  cases a with
  | malloc nbytes granted =>
    rcases hs.malloc hc with ⟨q, h', hmalloc, hsound, -⟩ | ⟨h', hmalloc, -, hsound, hbrk, -⟩
    · simp only [Umalloc.step, hmalloc, Option.map_some] at hstep
      cases hstep
      exact hsound
    · simp only [Umalloc.step, hmalloc, Option.map_some] at hstep
      cases hstep
      rw [grown, hbrk, if_neg (lt_irrefl _)]
      exact hsound
  | free ap =>
    obtain ⟨b, hb, rfl⟩ := hc
    obtain ⟨fs, hr⟩ := hs.ready hb
    obtain ⟨n, hbn, hperm⟩ := perm_eraseP hb
    obtain ⟨h', fs', hfree, hready, -⟩ := hr.free hperm
    simp only [Umalloc.step, hfree, Option.map_some] at hstep
    cases hstep
    exact .inr ⟨fs', hready⟩
  | store u x =>
    cases hstep
    exact hs.store hc
  | sbrk n =>
    cases hstep
    exact hs.sbrk hc

theorem sound_of_reachWhere (hbase : base < brk) (hbrk : brk ≤ 2 ^ 32)
    (h : ReachWhere (step base) (Permitted base) (init mem brk) s) : Sound base s :=
  h.invariant (.inl ⟨rfl, rfl, rfl, hbase, hbrk⟩) fun _ _ _ hs hc hstep => hs.step hc hstep

theorem covers_empty (u a : ℕ) : covers u (a, 0) = false := by simp [covers]

/-- In every state of every run the blocks that the program holds are apart, with intact headers,
and together with the blocks of the free list they tile the memory that was obtained. No two free
blocks are adjacent. -/
theorem reachWhere_blocks (hbase : base < brk) (hbrk : brk ≤ 2 ^ 32)
    (h : ReachWhere (step base) (Permitted base) (init mem brk) s) :
    s.live.Pairwise (fun b c => b.1 + b.2 ≤ c.1 ∨ c.1 + c.2 ≤ b.1) ∧
    (∀ b ∈ s.live, s.heap.size b.1 = b.2 ∧ base < b.1 ∧ b.1 + b.2 ≤ s.heap.brk) ∧
    ∃ fs : List ℕ, (s.heap.freep = none → fs = []) ∧
      (s.heap.freep ≠ none → Circular s.heap.ptr (base :: fs)) ∧
      fs.Pairwise (fun a b => a + s.heap.size a < b) ∧
      ∀ u, cover (freeBlocks s.heap fs ++ s.live) u = cover s.obtained u ∧
        cover s.obtained u ≤ 1 := by
  rcases sound_of_reachWhere hbase hbrk h with ⟨hfreep, hlive, hobtained, -⟩ | ⟨fs, hr⟩
  · rw [hlive, hobtained]
    exact ⟨.nil, by simp, [], fun _ => rfl, fun hne => absurd hfreep hne, .nil,
      fun u => ⟨rfl, Nat.zero_le 1⟩⟩
  · have htiles : ∀ u, cover (freeBlocks s.heap fs ++ s.live) u = cover s.obtained u := by
      intro u
      rw [← hr.tiles, freeBlocks_cons, hr.list.base_size, List.cons_append, cover_cons,
        covers_empty]
      rfl
    have hlive : ∀ u, cover s.live u ≤ 1 := by
      intro u
      have hall := htiles u
      have honce := hr.once u
      rw [cover_append] at hall
      omega
    refine ⟨pairwise_apart hlive fun b hb => (hr.header b hb).2, ?_, fs, ?_, fun _ =>
      hr.list.circular, (List.pairwise_cons.mp hr.list.sorted).2, fun u => ⟨htiles u, hr.once u⟩⟩
    · exact fun b hb => ⟨(hr.header b hb).1, hr.live_inside hb⟩
    · intro hnone
      obtain ⟨f, -, hf⟩ := hr.freep
      rw [hnone] at hf
      cases hf

/-- Two blocks, the first of which is freed and asked for again in two parts. -/
def recycle : List Action :=
  [.malloc 100 true, .malloc 20 true, .store 4102 ⟨7, 7⟩, .free 4105, .malloc 40 false,
    .sbrk 3, .malloc 8 false]

theorem reachWhere_recycle : ∃ s,
    ReachWhere (step 1) (Permitted 1) (init (fun _ => ⟨0, 0⟩) 16) s ∧
      s.live = [(4106, 2), (4108, 4), (4101, 3)] := by
  have hlive : (exec (fun s a => if Permitted 1 s a then step 1 s a else none)
      (init (fun _ => ⟨0, 0⟩) 16) recycle).map Process.live =
      some [(4106, 2), (4108, 4), (4101, 3)] := by decide +kernel
  obtain ⟨s, hrun, hs⟩ := Option.map_eq_some_iff.mp hlive
  exact ⟨s, reachWhere_of_exec hrun, hs⟩

theorem reachWhere_blocks_recycle : ∃ s : Process, s.live = [(4106, 2), (4108, 4), (4101, 3)] ∧
    s.heap.size 4108 = 4 ∧ ∃ fs : List ℕ,
      ∀ u, cover (freeBlocks s.heap fs ++ s.live) u = cover s.obtained u := by
  obtain ⟨s, hreach, hlive⟩ := reachWhere_recycle
  obtain ⟨-, hheader, fs, -, -, -, htiles⟩ := reachWhere_blocks (by decide) (by decide) hreach
  have hsize := (hheader (4108, 4) (by simp [hlive])).1
  exact ⟨s, hlive, hsize, fs, fun u => (htiles u).1⟩

/-- In every state of every run the permitted calls return and leave the contents of the blocks
that stay with the program alone. A request gets a block that is large enough and apart from all
others, and is refused only if memory is. What is freed can be handed out at once. -/
theorem reachWhere_calls (hbase : base < brk) (hbrk : brk ≤ 2 ^ 32)
    (h : ReachWhere (step base) (Permitted base) (init mem brk) s) :
    (∀ nbytes granted, Permitted base s (.malloc nbytes granted) →
      ∃ r h', malloc base s.heap nbytes granted = some (r, h') ∧ Untouched s.live s.heap h' ∧
        (r = none → granted = false) ∧
        ∀ ap ∈ r, nbytes ≤ 16 * (units nbytes - 1) ∧ h'.size (ap - 1) = units nbytes ∧
          base < ap - 1 ∧ ap - 1 + units nbytes ≤ h'.brk ∧
          ∀ b ∈ s.live, ap - 1 + units nbytes ≤ b.1 ∨ b.1 + b.2 ≤ ap - 1) ∧
    ∀ b ∈ s.live, ∃ h', free s.heap (b.1 + 1) = some h' ∧
      Untouched (s.live.eraseP fun c => c.1 = b.1) s.heap h' ∧
      ∀ nbytes granted, nbytes < 2 ^ 32 → units nbytes ≤ b.2 →
        ∃ ap h'', malloc base h' nbytes granted = some (some ap, h'') ∧
          h''.brk = s.heap.brk := by
  have hs := sound_of_reachWhere hbase hbrk h
  refine ⟨?_, ?_⟩
  · intro nbytes granted hc
    rcases hs.malloc hc with
      ⟨q, h', hmalloc, hsound, hframe⟩ | ⟨h', hmalloc, hgranted, -, -, hframe⟩
    · obtain ⟨fs, hr⟩ := hsound.ready (List.mem_cons_self ..)
      refine ⟨some (q + 1), h', hmalloc, hframe, by simp, ?_⟩
      rintro ap ⟨⟩
      have hn : nbytes < 2 ^ 32 := by have := hc.1; omega
      refine ⟨nbytes_le hn, (hr.header (q, units nbytes) (by simp)).1, ?_, ?_, ?_⟩
      · exact (hr.live_inside (b := (q, units nbytes)) (by simp)).1
      · exact (hr.live_inside (b := (q, units nbytes)) (by simp)).2
      · exact fun b hb => hr.live_apart ((List.perm_cons_erase hb).cons (q, units nbytes))
    · exact ⟨none, h', hmalloc, hframe, fun _ => hgranted, by simp⟩
  · intro b hb
    obtain ⟨fs, hr⟩ := hs.ready hb
    obtain ⟨n, hbn, hperm⟩ := perm_eraseP hb
    have hn : n = b.2 := (hr.header _ hbn).1.symm.trans (hr.header b hb).1
    obtain ⟨h', fs', hfree, hready, hbrk', -, ⟨a, ha, hsize⟩, hframe⟩ := hr.free hperm
    refine ⟨h', hfree, hframe, ?_⟩
    intro nbytes granted hlt hle
    obtain ⟨q, h'', hmalloc, hbrk''⟩ := hready.malloc_fit granted hlt
      ⟨a, ha, by omega⟩
    exact ⟨q, h'', hmalloc, hbrk''.trans hbrk'⟩

theorem reachWhere_calls_recycle : ∃ s : Process, (4108, 4) ∈ s.live ∧
    ∃ h', free s.heap 4109 = some h' ∧ ∃ ap h'', malloc 1 h' 48 false = some (some ap, h'') := by
  obtain ⟨s, hreach, hlive⟩ := reachWhere_recycle
  have hmem : (4108, 4) ∈ s.live := by simp [hlive]
  obtain ⟨h', hfree, -, hagain⟩ :=
    (reachWhere_calls (by decide) (by decide) hreach).2 (4108, 4) hmem
  obtain ⟨ap, h'', hmalloc, -⟩ := hagain 48 false (by decide) (by decide)
  exact ⟨s, hmem, h', hfree, ap, h'', hmalloc⟩

/-- A stretch of memory that the free blocks cover lies in one of them, since no two of them are
adjacent. -/
theorem Ready.exists_block (hr : Ready base h fs [] obtained) {a n : ℕ} (hn : 0 < n)
    (hcover : ∀ u, a ≤ u → u < a + n → 0 < cover obtained u) :
    ∃ c ∈ fs, c ≤ a ∧ a + n ≤ c + h.size c := by
  have hfree : ∀ u, a ≤ u → u < a + n → ∃ c ∈ fs, c ≤ u ∧ u < c + h.size c := by
    intro u hle hlt
    have hpos := hcover u hle hlt
    rw [← hr.tiles, List.append_nil, cover_pos_iff] at hpos
    obtain ⟨b, hb, hbounds⟩ := hpos
    obtain ⟨c, hc, rfl⟩ := List.mem_map.mp hb
    refine ⟨c, (List.mem_cons.mp hc).resolve_left ?_, hbounds⟩
    rintro rfl
    have := hr.list.base_size
    omega
  obtain ⟨c, hc, hca, hac⟩ := hfree a le_rfl (by omega)
  refine ⟨c, hc, hca, ?_⟩
  by_contra hend
  obtain ⟨d, hd, hdc, hcd⟩ := hfree (c + h.size c) (by omega) (by omega)
  have hne : c ≠ d := by
    rintro rfl
    omega
  have hgaps : fs.Pairwise fun x y => x + h.size x < y ∨ y + h.size y < x :=
    (List.pairwise_cons.mp hr.list.sorted).2.imp Or.inl
  have : Std.Symm fun x y : ℕ => x + h.size x < y ∨ y + h.size y < x := ⟨fun _ _ => Or.symm⟩
  have hgap := hgaps.forall hc hd hne
  omega

/-- When the program has freed everything, any stretch of the memory that was obtained can be
handed out as one block: no fragmentation is left. -/
theorem reachWhere_coalesced (hbase : base < brk) (hbrk : brk ≤ 2 ^ 32)
    (h : ReachWhere (step base) (Permitted base) (init mem brk) s) (hlive : s.live = [])
    {a n : ℕ} (hcover : ∀ u, a ≤ u → u < a + n → 0 < cover s.obtained u)
    (hn : nbytes < 2 ^ 32) (hle : units nbytes ≤ n) :
    ∃ ap h', malloc base s.heap nbytes false = some (some ap, h') ∧ h'.brk = s.heap.brk := by
  have hpos := units_pos hn
  rcases sound_of_reachWhere hbase hbrk h with ⟨-, -, hobtained, -⟩ | ⟨fs, hr⟩
  · have := hcover a le_rfl (by omega)
    simp [hobtained] at this
  · rw [hlive] at hr
    obtain ⟨c, hc, hca, hac⟩ := hr.exists_block (by omega) hcover
    exact hr.malloc_fit _ hn ⟨c, hc, by omega⟩

theorem reachWhere_coalesced_recycle : ∃ s : Process, s.obtained = [(16, 4096)] ∧
    ∃ ap h', malloc 1 s.heap 65520 false = some (some ap, h') := by
  have hall : (exec (fun s a => if Permitted 1 s a then step 1 s a else none)
      (init (fun _ => ⟨0, 0⟩) 16) (recycle ++ [.free 4107, .free 4109, .free 4102])).map
      (fun s => (s.live, s.obtained)) = some ([], [(16, 4096)]) := by decide +kernel
  obtain ⟨s, hrun, hs⟩ := Option.map_eq_some_iff.mp hall
  obtain ⟨hlive, hobtained⟩ := Prod.mk.inj hs
  have hcover : ∀ u, 16 ≤ u → u < 16 + 4096 → 0 < cover s.obtained u := by
    intro u hle hlt
    rw [hobtained]
    exact cover_pos_iff.mpr ⟨(16, 4096), by simp, hle, hlt⟩
  obtain ⟨ap, h', hmalloc, -⟩ := reachWhere_coalesced (by decide) (by decide)
    (reachWhere_of_exec hrun) hlive hcover (by decide : 65520 < 2 ^ 32) (by decide)
  exact ⟨s, hobtained, ap, h', hmalloc⟩

end CS352.Umalloc
