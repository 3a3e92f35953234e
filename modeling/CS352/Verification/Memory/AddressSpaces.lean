import CS352.Library.Transition
import CS352.Verification.Memory.Boot

/-! # Address spaces

What the page tables of all processes map, in every run from booting on. -/

namespace CS352.Memory

open RadixTable Tally Transition WeakestPre

variable [Image] {pool : Pool} {s : State} {es : ℕ → List Pte} {x : List Pte}
  {p q r tf a v w : ℕ} {e f : Pte}

/-! ## Page tables of processes -/

/-- The entry that process `p` has for page number `v`. -/
def entry (s : State) (p v : ℕ) : Option Pte :=
  (s.proc p).pagetable.bind fun r => lookup sv39 s.mem 2 r (path v)

/-- The page tables of all processes are as `sz` says, and no page is in use twice. -/
structure AddressSpaces (s : State) : Prop where
  /-- Entries at the last level are leaves, and entries at the other levels are not. -/
  shape : ∀ p r, (s.proc p).pagetable = some r → Shape sv39 s.mem 2 r
  mapped : ∀ p, (s.proc p).pagetable.isSome → ∀ v < vpns, (entry s p v).isSome ↔
    v * pgsize < pgroundup (s.proc p).sz ∨ v * pgsize = trapframeVa ∨ v * pgsize = trampolineVa
  once : ∀ p q, ∀ v < vpns, ∀ w < vpns, ∀ e f, entry s p v = some e → entry s q w = some f →
    e.ppn = f.ppn → p = q ∧ v = w ∨ v * pgsize = trampolineVa ∧ w * pgsize = trampolineVa
  notFree : ∀ p, ∀ v < vpns, ∀ e, entry s p v = some e → e.ppn ∉ s.free

theorem Inv.live (h : Inv pool s es) (hpt : (s.proc p).pagetable = some r) :
    p < nproc ∧ ∃ tf, Live (s.proc p) r tf (es p) := by
  rcases h.sound p with hidle | ⟨hstate, -, r', tf, hl⟩
  · rw [hidle.fields.2.2.1] at hpt
    cases hpt
  · obtain rfl := Option.some.inj (hl.pagetable.symm.trans hpt)
    exact ⟨h.inTable p hstate, tf, hl⟩

theorem Inv.entry_eq (h : Inv pool s es) (hl : Live (s.proc p) r tf (es p)) (hp : p < nproc)
    (hv : v < vpns) : entry s p v = layout (es p) (fixed tf) v := by
  rw [entry, hl.pagetable, Option.bind_some]
  exact (hl.opened h hp).head.lookup_eq v hv

omit [Image] in
theorem mul_pgsize_eq_iff : v * pgsize = w * pgsize ↔ v = w :=
  Nat.mul_left_inj (by decide)

theorem Live.mapped_iff (hl : Live (s.proc p) r tf (es p)) :
    (layout (es p) (fixed tf) v).isSome ↔ v * pgsize < pgroundup (s.proc p).sz ∨
      v * pgsize = trapframeVa ∨ v * pgsize = trampolineVa := by
  have hle := hl.fits.length_le
  have hlt := trapframeVpn_lt
  rw [hl.fits.pgroundup_eq, trapframeVa_eq, trampolineVa_eq, mul_pgsize_eq_iff, mul_pgsize_eq_iff,
    Nat.mul_lt_mul_right (by decide)]
  by_cases hv : v < trapframeVpn
  · rw [layout_of_lt hv, isSome_getElem?]
    omega
  · rw [layout_of_le (Nat.le_of_not_lt hv), fixed]
    by_cases htrap : v = trapframeVpn
    · simp [htrap]
    · by_cases htramp : v = trampolineVpn
      · rw [if_neg htrap, if_pos htramp]
        simp [htramp]
      · rw [if_neg htrap, if_neg htramp]
        simp [htrap, htramp]
        omega

/-! ## Pages in use -/

/-- How often process `p` uses page `a`. -/
def uses (s : State) (es : ℕ → List Pte) (p a : ℕ) : ℕ :=
  ((spaces (s.proc p) (es p)).map fun x => own s.mem x a).sum +
    (s.proc p).trapframe.toList.count a

theorem uses_sum (s : State) (es : ℕ → List Pte) (a : ℕ) (ps : List ℕ) :
    (frames s.proc ps).count a + ((tables s.proc es ps).map fun x => own s.mem x a).sum =
      (ps.map fun p => uses s es p a).sum := by
  induction ps with
  | nil => rfl
  | cons p ps ih =>
    unfold frames tables at ih ⊢
    simp only [List.flatMap_cons, List.count_append, List.map_append, List.sum_append,
      List.map_cons, List.sum_cons, uses]
    unfold uses at ih
    omega

/-- A page is free or used by one process, once. -/
theorem Inv.uses_le (h : Inv pool s es) (a : ℕ) :
    s.free.count a + tally (Finset.range nproc) (fun p => uses s es p a) id ≤ 1 := by
  have hle := h.heap.count_le a
  have hsum := uses_sum s es a (List.range nproc)
  rw [tally_range]
  simp only [id]
  omega

theorem Inv.used_once (h : Inv pool s es) (hp : p < nproc) (hq : q < nproc)
    (hpa : 0 < uses s es p a) (hqa : 0 < uses s es q a) : p = q := by
  by_contra hne
  have hsum := h.uses_le a
  have hle := add_le_tally (w := fun p => uses s es p a) (f := id) (Finset.mem_range.mpr hp)
    (Finset.mem_range.mpr hq) hne
  dsimp only [id] at hle
  omega

theorem Inv.used_notFree (h : Inv pool s es) (hp : p < nproc) (ha : 0 < uses s es p a) :
    a ∉ s.free := by
  intro hfree
  have hsum := h.uses_le a
  have hle := le_tally (w := fun p => uses s es p a) (f := id) (Finset.mem_range.mpr hp)
  have hpos := List.count_pos_iff.mpr hfree
  dsimp only [id] at hle
  omega

theorem Live.uses_eq (hl : Live (s.proc p) r tf (es p)) (a : ℕ) : uses s es p a =
    own s.mem (r, layout (es p) (fixed tf)) a + [tf].count a := by
  rw [uses, hl.spaces_eq, hl.trapframe, own_singleton]
  rfl

theorem own_pos (hv : v < trapframeVpn) (he : layout x (fixed tf) v = some e) :
    0 < own s.mem (r, layout x (fixed tf)) e.ppn := by
  have hle := le_tally (w := pageWeight e.ppn) (f := layout x (fixed tf)) (Finset.mem_range.mpr hv)
  have hone : pageWeight e.ppn (layout x (fixed tf) v) = 1 := by simp [he, pageWeight]
  rw [own_eq]
  omega

/-- From `TRAPFRAME` on, a process maps its trapframe and the trampoline. -/
theorem fixed_cases (he : fixed tf v = some e) : v = trapframeVpn ∧ e.ppn = tf ∨
    v = trampolineVpn ∧ e.ppn = Image.trampoline := by
  unfold fixed at he
  split at he
  case isTrue htrap =>
    obtain rfl := Option.some.inj he
    exact .inl ⟨htrap, rfl⟩
  case isFalse =>
    obtain ⟨htramp, he⟩ := Option.ite_none_right_eq_some.mp he
    obtain rfl := Option.some.inj he
    exact .inr ⟨htramp, rfl⟩

/-- What a process maps is one of its pages, its trapframe, or the trampoline. -/
theorem layout_cases (s : State) (r : ℕ) (he : layout x (fixed tf) v = some e) :
    v < trapframeVpn ∧ 0 < own s.mem (r, layout x (fixed tf)) e.ppn ∨
      v = trapframeVpn ∧ e.ppn = tf ∨ v = trampolineVpn ∧ e.ppn = Image.trampoline := by
  by_cases hv : v < trapframeVpn
  · exact .inl ⟨hv, own_pos hv he⟩
  · rw [layout_of_le (Nat.le_of_not_lt hv)] at he
    exact .inr (fixed_cases he)

theorem Live.uses_pos (hl : Live (s.proc p) r tf (es p))
    (he : layout (es p) (fixed tf) v = some e) (hv : v ≠ trampolineVpn) :
    0 < uses s es p e.ppn := by
  rw [hl.uses_eq]
  rcases layout_cases s r he with ⟨-, hown⟩ | ⟨-, htf⟩ | ⟨htramp, -⟩
  · omega
  · rw [htf, List.count_singleton_self]
    omega
  · exact absurd htramp hv

/-- Inside of one process, a page is mapped at one address. -/
theorem Inv.mapped_inj (h : Inv pool s es) (hl : Live (s.proc p) r tf (es p)) (hp : p < nproc)
    (he : layout (es p) (fixed tf) v = some e) (hf : layout (es p) (fixed tf) w = some f)
    (hv : v ≠ trampolineVpn) (hw : w ≠ trampolineVpn) (heq : e.ppn = f.ppn) : v = w := by
  have hsum := h.uses_le e.ppn
  have hle := le_tally (w := fun p => uses s es p e.ppn) (f := id) (Finset.mem_range.mpr hp)
  dsimp only [id] at hle
  rw [hl.uses_eq] at hle
  have hone : tf = e.ppn → [tf].count e.ppn = 1 := by
    rintro rfl
    exact List.count_singleton_self
  rcases layout_cases s r he with ⟨hv', hown⟩ | ⟨hv', htf⟩ | ⟨htramp, -⟩
  · rcases layout_cases s r hf with ⟨hw', -⟩ | ⟨-, htf⟩ | ⟨htramp, -⟩
    · exact (hl.opened h hp).mapped_inj hv' hw' he hf heq
    · have htwo := hone (htf.symm.trans heq.symm)
      omega
    · exact absurd htramp hw
  · rcases layout_cases s r hf with ⟨-, hown⟩ | ⟨hw', -⟩ | ⟨htramp, -⟩
    · have htwo := hone htf.symm
      rw [← heq] at hown
      omega
    · rw [hv', hw']
    · exact absurd htramp hw
  · exact absurd htramp hv

/-- The trampoline is part of the kernel, which the allocator never gets. -/
theorem Inv.trampoline_unused (h : Inv pool s es) : s.free.count Image.trampoline +
    tally (Finset.range nproc) (fun p => uses s es p Image.trampoline) id = 0 := by
  have hcount := h.heap.count Image.trampoline
  have hsum := uses_sum s es Image.trampoline (List.range nproc)
  have hout : Image.trampoline ∉ pool.pages := by
    intro hin
    have hram := pool.inRam _ hin
    have hlt := Image.trampoline_lt
    omega
  rw [List.count_eq_zero.mpr hout] at hcount
  rw [tally_range]
  simp only [id]
  omega

theorem Inv.trampoline_of_ppn (h : Inv pool s es) (hl : Live (s.proc p) r tf (es p))
    (hp : p < nproc) (he : layout (es p) (fixed tf) v = some e)
    (hppn : e.ppn = Image.trampoline) : v = trampolineVpn := by
  by_contra hv
  have hpos := hl.uses_pos he hv
  have hzero := h.trampoline_unused
  have hle := le_tally (w := fun p => uses s es p Image.trampoline) (f := id)
    (Finset.mem_range.mpr hp)
  rw [hppn] at hpos
  dsimp only [id] at hle
  omega

theorem trampoline_ppn (he : layout x (fixed tf) trampolineVpn = some e) :
    e.ppn = Image.trampoline := by
  have hlt := trapframeVpn_lt
  rw [layout_of_le (Nat.le_of_lt hlt)] at he
  rcases fixed_cases he with ⟨hv, -⟩ | ⟨-, hppn⟩
  · omega
  · exact hppn

/-- What holds between two calls. -/
theorem Inv.addressSpaces (h : Inv pool s es) : AddressSpaces s := by
  have hopen : ∀ {p v e}, v < vpns → entry s p v = some e →
      p < nproc ∧ ∃ r tf, Live (s.proc p) r tf (es p) ∧ layout (es p) (fixed tf) v = some e := by
    intro p v e hv he
    obtain ⟨r, hpt, -⟩ := Option.bind_eq_some_iff.mp he
    obtain ⟨hp, tf, hl⟩ := h.live hpt
    rw [h.entry_eq hl hp hv] at he
    exact ⟨hp, r, tf, hl, he⟩
  have htramp : ∀ {v}, v * pgsize = trampolineVa ↔ v = trampolineVpn := by
    intro v
    rw [trampolineVa_eq, mul_pgsize_eq_iff]
  refine ⟨?_, ?_, ?_, ?_⟩
  · intro p r hpt
    obtain ⟨hp, tf, hl⟩ := h.live hpt
    exact (hl.opened h hp).head.shape
  · intro p hsome v hv
    obtain ⟨r, hpt⟩ := Option.isSome_iff_exists.mp hsome
    obtain ⟨hp, tf, hl⟩ := h.live hpt
    rw [h.entry_eq hl hp hv]
    exact hl.mapped_iff
  · intro p q v hv w hw e f he hf heq
    obtain ⟨hp, r, tf, hl, he⟩ := hopen hv he
    obtain ⟨hq, r', tf', hl', hf⟩ := hopen hw hf
    rw [htramp, htramp]
    by_cases hvt : v = trampolineVpn
    · rw [hvt] at he
      have hppn := trampoline_ppn he
      exact .inr ⟨hvt, h.trampoline_of_ppn hl' hq hf (heq.symm.trans hppn)⟩
    · have hwt : w ≠ trampolineVpn := by
        intro hwt
        rw [hwt] at hf
        exact hvt (h.trampoline_of_ppn hl hp he (heq.trans (trampoline_ppn hf)))
      have hpos := hl'.uses_pos hf hwt
      rw [← heq] at hpos
      obtain rfl := h.used_once hp hq (hl.uses_pos he hvt) hpos
      obtain rfl := Option.some.inj (hl.trapframe.symm.trans hl'.trapframe)
      exact .inl ⟨rfl, h.mapped_inj hl hp he hf hvt hwt heq⟩
  · intro p v hv e he
    obtain ⟨hp, r, tf, hl, he⟩ := hopen hv he
    by_cases hvt : v = trampolineVpn
    · rw [hvt] at he
      have hzero := h.trampoline_unused
      rw [trampoline_ppn he]
      exact List.count_eq_zero.mp (by omega)
    · exact h.used_notFree hp (hl.uses_pos he hvt)

/-! ## Runs -/

/-- After booting with enough memory, in every run of `fork`, `exec`, `sbrk`, `exit` and `wait`,
with `kalloc` failing at any point, every process maps the pages below its size, `TRAPFRAME` and
`TRAMPOLINE` and nothing else, and no page is mapped twice or free. No call panics over memory. -/
theorem reach_addressSpaces (mem : ℕ → ℕ → Pte) (free : List ℕ) (hnodup : free.Nodup)
    (hram : ∀ a ∈ free, Image.endPage ≤ a ∧ a < phystop) (hfree : 9 ≤ free.length) :
    ∃ s₀, userinit (start mem free) = .ok ((), s₀) ∧ ∀ s, Reach vmStep s₀ s →
      AddressSpaces s ∧ ∀ p c deny e, (s.proc p).state = .running →
        run s p c deny = .error e → e = .initExiting ∨ e = .filedup ∨ e = .fileclose := by
  obtain ⟨s₀, hboot, hinit⟩ := exists_boot mem hnodup hram hfree
  refine ⟨s₀, hboot, ?_⟩
  intro s hs
  have hinv : ∃ es, Inv (bootPool mem free hnodup hram) s es := by
    apply hs.invariant hinit
    rintro u a t ⟨es, hu⟩ _ hstep
    exact hu.vmStep hstep
  obtain ⟨es, hinv⟩ := hinv
  refine ⟨hinv.addressSpaces, ?_⟩
  intro p c deny e hrun he
  exact hinv.run_error hrun he

omit [Image] in
/-- A process cannot give back more than it has, and then gives back 100 bytes of its page. -/
theorem reach_addressSpaces_shrunk :
    ∃ s₀ s, @userinit smallKernel (start (fun _ _ => .zero) (List.range' 0x80100 9)) =
        .ok ((), s₀) ∧
      Reach (@vmStep smallKernel) s₀ s ∧ (s.proc 0).sz = 3996 ∧ AddressSpaces s := by
  obtain ⟨s₀, hboot, hall⟩ := @reach_addressSpaces smallKernel (fun _ _ => .zero)
    (List.range' 0x80100 9) (by decide) (by decide) (by decide)
  have hrun : ((@userinit smallKernel (start (fun _ _ => .zero)
      (List.range' 0x80100 9))).toOption.bind fun x => Transition.exec (@vmStep smallKernel) x.2
        [(0, .sbrk (-5000), []), (0, .exec none [.str 3], [true]), (0, .sbrk (-100), [])]).map
      (fun s => (s.proc 0).sz) = some 3996 := by
    decide +kernel
  rw [hboot] at hrun
  obtain ⟨s, hexec, hsz⟩ := Option.map_eq_some_iff.mp hrun
  have hs := reach_of_exec hexec
  exact ⟨s₀, s, hboot, hs, hsz, (hall s hs).1⟩

end CS352.Memory
