import CS352.Verification.Memory.Spaces

/-! # Programs

Page tables with `TRAPFRAME` and `TRAMPOLINE`, and how `exec` fills one. -/

namespace CS352.Memory

open RadixTable Tally WeakestPre Function

variable [Image] {pool : Pool} {s t : State} {T : List (ℕ × Space)} {H : List ℕ}
  {es : List Pte} {fx : Space} {r old p v sz tf : ℕ} {E : Panic → Prop} {exe : Exe}

/-! ## Making and freeing -/

/-- The entry of `TRAMPOLINE` alone. -/
def onlyTrampoline : Space :=
  update (fun _ => none) trampolineVpn
    (some ⟨Image.trampoline, true, ⟨true, false, true, false⟩⟩)

omit [Image] in
theorem trapframeVpn_lt : trapframeVpn < trampolineVpn := by
  have hvalues := vpn_values
  omega

theorem fixed_eq (tf : ℕ) : fixed tf = update onlyTrampoline trapframeVpn
    (some ⟨tf, true, ⟨true, true, false, false⟩⟩) := by
  funext v
  unfold fixed onlyTrampoline
  by_cases hv : v = trapframeVpn
  · rw [if_pos hv, hv, update_self]
  · rw [if_neg hv, update_of_ne hv]
    by_cases hw : v = trampolineVpn
    · rw [if_pos hw, hw, update_self]
    · rw [if_neg hw, update_of_ne hw]

theorem unmap_onlyTrampoline :
    update onlyTrampoline trampolineVpn none = fun _ => none := by
  rw [onlyTrampoline, update_idem, update_eq_self]

/-- `TRAMPOLINE` is unmapped first. -/
theorem unmap_fixed (tf : ℕ) : update (update (fixed tf) trampolineVpn none)
    trapframeVpn none = fun _ => none := by
  funext v
  by_cases hv : v = trapframeVpn
  · rw [hv, update_self]
  · rw [update_of_ne hv]
    by_cases hw : v = trampolineVpn
    · rw [hw, update_self]
    · rw [update_of_ne hw, fixed, if_neg hv, if_neg hw]

theorem fixed_trapframe (tf : ℕ) :
    fixed tf trapframeVpn = some ⟨tf, true, ⟨true, true, false, false⟩⟩ := if_pos rfl

theorem fixed_trampoline (tf : ℕ) : fixed tf trampolineVpn =
    some ⟨Image.trampoline, true, ⟨true, false, true, false⟩⟩ := by
  rw [fixed, if_neg trapframeVpn_lt.ne', if_pos rfl]

theorem wp_procFreepagetable {Q : Unit → State → Prop}
    (h : Heap pool s ((r, layout es (fixed tf)) :: T) H) (hfits : Fits es sz)
    (hQ : ∀ t, t.toProcs = s.toProcs → Heap pool t T H → Q () t) :
    wp E (procFreepagetable r sz) Q s := by
  have hle := Nat.le_of_lt trapframeVpn_lt
  have hrefl := Nat.le_refl trampolineVpn
  have hrefl' := Nat.le_refl trapframeVpn
  have htramp : layout es (fixed tf) trampolineVpn =
      some ⟨Image.trampoline, true, ⟨true, false, true, false⟩⟩ := by
    rw [layout_of_le hle, fixed_trampoline]
  have htrap : layout es (update (fixed tf) trampolineVpn none) trapframeVpn =
      some ⟨tf, true, ⟨true, true, false, false⟩⟩ := by
    rw [layout_of_le le_rfl, update_of_ne trapframeVpn_lt.ne, fixed_trapframe]
  unfold procFreepagetable
  rw [wp_bind]
  apply wp_unmapFixed trampolineVa_eq h hle hrefl htramp (by simp [Perm.none])
  intro t hprocs ht
  rw [update_layout_of_le hle] at ht
  rw [wp_bind]
  apply wp_unmapFixed trapframeVa_eq ht hrefl' hle htrap (by simp [Perm.none])
  intro u hu hheap
  rw [update_layout_of_le le_rfl, unmap_fixed] at hheap
  apply wp_uvmfree hheap hfits
  intro w hw
  exact hQ w ((hw.trans hu).trans hprocs)

theorem wp_procPagetable {Q : Option ℕ → State → Prop} (h : Heap pool s T H)
    (hnone : ∀ t, t.toProcs = s.toProcs → Heap pool t T H → Q none t)
    (hsome : ∀ r t, t.toProcs = s.toProcs → Heap pool t ((r, layout [] (fixed tf)) :: T) H →
      Q (some r) t) :
    wp E (procPagetable tf) Q s := by
  have hle := Nat.le_of_lt trapframeVpn_lt
  have hrefl := Nat.le_refl trampolineVpn
  have hrefl' := Nat.le_refl trapframeVpn
  have hfree : ∀ r t, t.toProcs = s.toProcs →
      Heap pool t ((r, layout [] fun _ => none) :: T) H →
      wp E (uvmfree r 0) (fun _ => Q none) t := by
    intro r t hprocs ht
    apply wp_uvmfree ht fits_nil
    intro u hu
    exact hnone u (hu.trans hprocs)
  unfold procPagetable
  rw [wp_bind]
  apply wp_uvmcreate h
  · intro t hprocs ht
    exact hnone t hprocs ht
  intro r t hprocs ht
  rw [← layout_nil] at ht
  simp only [wp_bind]
  refine wp_mapFixed trampolineVa_eq ht hle hrefl (layout_of_le hle) rfl ?_ ?_
  · intro u hu hheap
    rw [if_neg (by simp), wp_bind]
    exact hfree r u (hu.trans hprocs) hheap
  · intro u hu hheap
    rw [update_layout_of_le hle] at hheap
    change Heap pool u ((r, layout [] onlyTrampoline) :: T) H at hheap
    have hnot : onlyTrampoline trapframeVpn = none :=
      update_of_ne trapframeVpn_lt.ne _ _
    simp only [if_true, wp_bind]
    refine wp_mapFixed trapframeVa_eq hheap hrefl' hle ((layout_of_le hrefl').trans hnot) rfl ?_ ?_
    · intro w hw hheap
      simp only [Bool.false_eq_true, if_false, wp_bind]
      refine wp_unmapFixed trampolineVa_eq hheap hle hrefl
        ((layout_of_le hle).trans (update_self ..)) (by simp [Perm.none]) ?_
      intro x hx hheap
      rw [update_layout_of_le hle, unmap_onlyTrampoline] at hheap
      rw [wp_bind]
      exact hfree r x (((hx.trans hw).trans hu).trans hprocs) hheap
    · intro w hw hheap
      rw [update_layout_of_le le_rfl, ← fixed_eq] at hheap
      simp only [if_true, wp_pure]
      exact hsome r w ((hw.trans hu).trans hprocs) hheap

/-! ## Access -/

omit [Image] in
theorem wp_copyout {Q : Bool → State → Prop} {va len : ℕ} (hQ : ∀ b, Q b s) :
    wp E (copyout r va len) Q s := by
  induction len using Nat.strongRecOn generalizing va with
  | ind len ih =>
    rw [copyout]
    refine wp_ite (fun hlen => ?_) fun _ => hQ true
    rw [wp_bind]
    apply wp_walkaddr
    refine wp_ite (fun _ => hQ false) fun _ => ?_
    apply ih
    unfold pgrounddown pgsize
    omega

omit [Image] in
theorem leaf_eq {m : Space} (h : Table s.mem r m) (hv : v < trapframeVpn) : leaf s r v = m v := by
  have hvalues := vpn_values
  have hlt : v < maxva / pgsize := by
    unfold maxva pgsize
    omega
  rw [leaf, if_pos hlt]
  exact h.lookup_eq v (by omega)

/-- The pages of a process are in RAM, so that the address 0 means a failure. -/
theorem Heap.frame_ne (h : Heap pool s ((r, layout es fx) :: T) H) (hu : Accessible es)
    (hlen : es.length ≤ trapframeVpn) {x : ℕ} (hx : x < es.length * pgsize) :
    frame (leaf s r (x / pgsize)) ≠ 0 := by
  have hin : x / pgsize < es.length := Nat.div_lt_of_lt_mul (by rwa [Nat.mul_comm])
  obtain ⟨e, he, hlay⟩ := exists_layout fx hin hlen
  have hram := h.mapped (by omega) hlay
  have hkern := Image.kernbase_le
  have htramp := Image.trampoline_lt
  rw [leaf_eq h.head (by omega), hlay, frame, Option.elim_some, if_pos (hu e he)]
  unfold kernbase at hkern
  omega

omit [Image] in
theorem wp_loadLoop {Q : Bool → State → Prop} {va offset i : ℕ} (hva : va + sz ≤ 2 ^ 64)
    (hmap : ∀ x < va + sz, frame (leaf s r (x / pgsize)) ≠ 0) (hQ : ∀ b, Q b s) :
    wp E (loadLoop r va exe offset sz i) Q s := by
  induction hd : sz - i using Nat.strongRecOn generalizing i with
  | ind d ih =>
    rw [loadLoop]
    refine wp_ite (fun hlt => ?_) fun _ => hQ true
    have hnowrap : uint64 (va + i) = va + i := Nat.mod_eq_of_lt (by omega)
    rw [wp_bind, hnowrap]
    apply wp_walkaddr
    rw [if_neg (hmap (va + i) (by omega))]
    refine wp_ite (fun _ => ?_) fun _ => hQ false
    refine ih (sz - (i + pgsize)) ?_ rfl
    unfold pgsize
    omega

theorem wp_loadseg {Q : Bool → State → Prop} (h : Heap pool s ((r, layout es fx) :: T) H)
    (hu : Accessible es) (hlen : es.length ≤ trapframeVpn) {va offset filesz : ℕ}
    (hva : va + filesz ≤ es.length * pgsize) (hQ : ∀ b, Q b s) :
    wp E (loadseg r va exe offset filesz) Q s := by
  have hvalues := vpn_values
  have hmod := Nat.mod_le filesz (2 ^ 32)
  unfold loadseg
  apply wp_loadLoop
  · unfold pgsize at hva
    omega
  · intro x hx
    exact h.frame_ne hu hlen (by omega)
  · exact hQ

/-- `uvmclear` takes away the user's access to a page. -/
theorem wp_uvmclear {Q : Unit → State → Prop} (h : Heap pool s ((r, layout es fx) :: T) H)
    (hr : Readable es) (hlen : es.length ≤ trapframeVpn) (hv : v < es.length)
    (hQ : ∀ es' t, t.toProcs = s.toProcs → es'.length = es.length → Readable es' →
      Heap pool t ((r, layout es' fx) :: T) H → Q () t) :
    wp E (uvmclear r (v * pgsize)) Q s := by
  have hvalues := vpn_values
  obtain ⟨e, he, hlay⟩ := exists_layout fx hv hlen
  obtain ⟨page, hslot, hentry, hvalid⟩ := h.head.slot (by omega) hlay
  have hperm := (hr e he).2
  unfold uvmclear
  rw [wp_bind]
  apply wp_walk_read (mul_pgsize_lt (by omega))
  rw [vpn_mul_div, hslot]
  simp only [Option.map_some, wp_bind, wp_get, setPte, wp_modify, px_eq, vpn_mul_div, hentry]
  generalize hclear : ({ e with perm := { e.perm with u := false } } : Pte) = c
  have hc : c.v = true ∧ c.perm.r = true ∧ c.ppn = e.ppn := by
    rw [← hclear]
    exact ⟨hvalid, hperm, rfl⟩
  have hmapping : c.mapping = some c := if_pos hc.1
  have hstore : Heap pool { s with mem := RadixTable.store s.mem page (path v) c }
      ((r, update (layout es fx) v c.mapping) :: T) H := by
    apply h.store (by omega) hslot rfl
    · intro _
      simp [Pte.inner, hc.2.1]
    · intro a
      rw [hmapping, hlay]
      simp [weightAt, pageWeight, hc.2.2]
  rw [hmapping, update_layout_set hv hlen] at hstore
  refine hQ (es.set v c) _ rfl (by simp) ?_ hstore
  intro x hx
  rcases List.mem_or_eq_of_mem_set hx with hx | rfl
  · exact hr x hx
  · exact ⟨hc.1, hc.2.1⟩

/-! ## exec -/

/-- `exec` loads its segments: the new page table always has the pages of a process of the size
that `exec` has reached. -/
theorem wp_loadHeaders {Q : Bool × ℕ → State → Prop} {i : ℕ}
    (h : Heap pool s ((r, layout es fx) :: T) H) (hfits : Fits es sz) (hu : Accessible es)
    (hQ : ∀ ok es sz t, t.toProcs = s.toProcs → Fits es sz →
      Heap pool t ((r, layout es fx) :: T) H → Q (ok, sz) t) :
    wp E (loadHeaders exe r n i sz) Q s := by
  induction n generalizing i es sz s with
  | zero => exact hQ true es sz s rfl hfits h
  | succ n ih =>
    unfold loadHeaders
    cases hph : exe.phdr i with
    | none => exact hQ false es sz s rfl hfits h
    | some ph =>
      dsimp only
      have hvaddr := ph.vaddr.toNat_lt
      have hmemsz := ph.memsz.toNat_lt
      generalize hlast : uint64 (ph.vaddr.toNat + ph.memsz.toNat) = last
      have hstop : wp E (pure (false, sz)) Q s := hQ false es sz s rfl hfits h
      refine wp_ite (fun _ => ih h hfits hu hQ) fun _ => ?_
      refine wp_ite (fun _ => hstop) fun hfile => ?_
      refine wp_ite (fun _ => hstop) fun hwrap => ?_
      refine wp_ite (fun _ => hstop) fun _ => ?_
      rw [UInt64.lt_iff_toNat_lt] at hfile
      have hrange : ph.vaddr.toNat + ph.filesz.toNat ≤ last := by
        unfold uint64 at hlast
        omega
      -- the segment lies in the pages that the process has now
      have hload : ∀ es sz₁ t, t.toProcs = s.toProcs → Fits es sz₁ → Accessible es →
          last ≤ sz₁ → Heap pool t ((r, layout es fx) :: T) H →
          wp E (loadseg r ph.vaddr.toNat exe ph.off.toNat ph.filesz.toNat)
            (fun b => wp E (if b then loadHeaders exe r n (i + 1) sz₁
              else pure (false, sz₁)) Q) t := by
        intro es sz₁ t hprocs hfits hu hle ht
        apply wp_loadseg ht hu hfits.length_le (hrange.trans (hle.trans hfits.le))
        intro b
        refine wp_ite (fun _ => ?_) fun _ => hQ false es sz₁ t hprocs hfits ht
        apply ih ht hfits hu
        intro ok es sz u hu
        exact hQ ok es sz u (hu.trans hprocs)
      rw [wp_bind]
      apply wp_uvmalloc h hfits
      · intro hlt
        rw [if_neg (by omega), wp_bind]
        exact hload es sz s rfl hfits hu (Nat.le_of_lt hlt) h
      · intro t hprocs ht
        rw [if_pos rfl]
        exact hQ false es sz t hprocs hfits ht
      · intro hle new t hprocs hfits' hu' ht
        refine wp_ite (fun hzero => ?_) fun _ => ?_
        · have hsz : sz = last := by omega
          rw [hsz]
          exact hQ false (es ++ new) last t hprocs hfits' ht
        · rw [wp_bind]
          exact hload (es ++ new) last t hprocs hfits' (hu.append hu') (Nat.le_refl _) ht

omit [Image] in
theorem wp_pushArgs {Q : Option (ℕ × ℕ) → State → Prop} {stackbase argc sp : ℕ} {lens : List ℕ}
    (hQ : ∀ x, Q x s) : wp E (pushArgs r stackbase lens argc sp) Q s := by
  induction lens generalizing argc sp with
  | nil => exact hQ _
  | cons len lens ih =>
    unfold pushArgs
    refine wp_ite (fun _ => hQ none) fun _ => ?_
    refine wp_ite (fun _ => hQ none) fun _ => ?_
    rw [wp_bind]
    apply wp_copyout
    intro b
    exact wp_ite (fun _ => ih) fun _ => hQ none

theorem wp_execBad {Q : ℤ → State → Prop} (h : Heap pool s ((r, layout es (fixed tf)) :: T) H)
    (hfits : Fits es sz) (hQ : ∀ t, t.toProcs = s.toProcs → Heap pool t T H → Q (-1) t) :
    wp E (execBad r sz) Q s := by
  unfold execBad
  rw [wp_bind]
  exact wp_procFreepagetable h hfits hQ

/-- The process table after a change of one process. -/
def Procs.set (P : Procs) (p : ℕ) (q : Proc) : Procs :=
  { P with proc := update P.proc p q }

/-- A process with a page table, and the entries of its pages. -/
structure Live (q : Proc) (r tf : ℕ) (es : List Pte) : Prop where
  pagetable : q.pagetable = some r
  trapframe : q.trapframe = some tf
  fits : Fits es q.sz

/-- Process `p` has a page table that fits its size, perhaps another one than before. -/
def Remade (pool : Pool) (T : List (ℕ × Space)) (H : List ℕ) (p tf : ℕ) (P : Procs) (t : State) :
    Prop :=
  ∃ r es sz, t.toProcs = P.set p { P.proc p with pagetable := some r, sz := sz } ∧
    Fits es sz ∧ Heap pool t ((r, layout es (fixed tf)) :: T) H

omit [Image] in
theorem Procs.set_self (P : Procs) (p : ℕ) : P.set p (P.proc p) = P := by
  rw [Procs.set, update_eq_self]

omit [Image] in
theorem Procs.set_of_eq {P : Procs} {p : ℕ} {q : Proc} (h : P.proc p = q) : P.set p q = P := by
  rw [← h, Procs.set_self]

theorem Live.remade {p : ℕ} (hl : Live (s.proc p) r tf es) (hprocs : t.toProcs = s.toProcs)
    (ht : Heap pool t ((r, layout es (fixed tf)) :: T) H) : Remade pool T H p tf s.toProcs t := by
  refine ⟨r, es, (s.proc p).sz, ?_, hl.fits, ht⟩
  rw [hprocs, ← hl.pagetable, Procs.set_self]

theorem wp_execCommit {Q : ℤ → State → Prop} {p argc sz' r' : ℕ} {es' : List Pte}
    (h : Heap pool s ((r', layout es' (fixed tf)) :: (r, layout es (fixed tf)) :: T) H)
    (hl : Live (s.proc p) r tf es) (hfits : Fits es' sz')
    (hQ : ∀ x t, Remade pool T H p tf s.toProcs t → Q x t) :
    wp E (execCommit p r' sz' argc) Q s := by
  unfold execCommit
  simp only [wp_bind, wp_get, setProc, wp_modify, hl.pagetable, Option.getD_some]
  have hswap := h.perm (List.Perm.swap ..) (List.Perm.refl H)
  refine wp_procFreepagetable (hswap.congr ?_ ?_) hl.fits ?_
  · rfl
  · rfl
  intro t hprocs ht
  exact hQ argc t ⟨r', es', sz', hprocs, hfits, ht⟩

/-- `exec` after the segments have been loaded. -/
theorem wp_execStack {Q : ℤ → State → Prop} {p sz' r' : ℕ} {es' : List Pte} {lens : List ℕ}
    (h : Heap pool s ((r', layout es' (fixed tf)) :: (r, layout es (fixed tf)) :: T) H)
    (hl : Live (s.proc p) r tf es) (hfits : Fits es' sz')
    (hQ : ∀ x t, Remade pool T H p tf s.toProcs t → Q x t) :
    wp E (execStack p r' sz' lens) Q s := by
  have hvalues := vpn_values
  have hlen := hfits.length_le
  have hbad : ∀ es₁ sz₁ t, t.toProcs = s.toProcs → Fits es₁ sz₁ →
      Heap pool t ((r', layout es₁ (fixed tf)) :: (r, layout es (fixed tf)) :: T) H →
      wp E (execBad r' sz₁) Q t := by
    intro es₁ sz₁ t hprocs hfits ht
    apply wp_execBad ht hfits
    intro u hu hheap
    exact hQ (-1) u (hl.remade (hu.trans hprocs) hheap)
  have hnowrap : uint64 (es'.length * pgsize + 2 * pgsize) = (es'.length + 2) * pgsize := by
    unfold uint64 pgsize
    omega
  unfold execStack
  rw [hfits.pgroundup_eq, hnowrap, wp_bind]
  apply wp_uvmalloc h hfits.aligned
  · intro hlt
    exact absurd hlt (Nat.not_lt.mpr (Nat.mul_le_mul_right _ (Nat.le_add_right _ 2)))
  · intro t hprocs ht
    rw [if_pos rfl]
    exact hbad es' _ t hprocs hfits.aligned ht
  · intro _ new t hprocs hfits' _ ht
    have hlen' := hfits'.length_le
    have hlength := hfits'.length_eq
    rw [pages_mul] at hlength
    have hnonzero : (es'.length + 2) * pgsize ≠ 0 := by
      unfold pgsize
      omega
    have hguard : (es'.length + 2) * pgsize - 2 * pgsize = es'.length * pgsize := by
      rw [← Nat.sub_mul, Nat.add_sub_cancel]
    rw [if_neg hnonzero, wp_bind, hguard]
    apply wp_uvmclear ht hfits'.readable hlen' (by omega)
    intro es₁ u hu hlength₁ hr hheap
    have hfits₁ : Fits es₁ ((es'.length + 2) * pgsize) := by
      refine ⟨hr, by omega, ?_⟩
      rw [pages_mul, hlength₁, hlength]
    generalize (es'.length + 2) * pgsize = sz₁ at hfits₁ ⊢
    generalize sz₁ - pgsize = stackbase
    have hsame := hu.trans hprocs
    have hundo := hbad es₁ sz₁ u hsame hfits₁ hheap
    rw [wp_bind]
    apply wp_pushArgs
    intro x
    cases x with
    | none => exact hundo
    | some x =>
      refine wp_ite (fun _ => hundo) fun _ => ?_
      rw [wp_bind]
      apply wp_copyout
      intro b
      refine wp_ite (fun _ => ?_) fun _ => hundo
      apply wp_execCommit hheap (by rwa [hsame]) hfits₁
      rwa [hsame]

/-- Whatever the file holds, `exec` leaves a process whose page table fits its size. -/
theorem wp_exec {Q : ℤ → State → Prop} {p : ℕ} {file : Option Exe} {lens : List ℕ}
    (h : Heap pool s ((r, layout es (fixed tf)) :: T) H) (hl : Live (s.proc p) r tf es)
    (hQ : ∀ x t, Remade pool T H p tf s.toProcs t → Q x t) : wp E (exec p file lens) Q s := by
  have hstop : ∀ t, t.toProcs = s.toProcs → Heap pool t ((r, layout es (fixed tf)) :: T) H →
      Q (-1) t := by
    intro t hprocs ht
    exact hQ (-1) t (hl.remade hprocs ht)
  unfold exec
  cases file with
  | none => exact hstop s rfl h
  | some exe =>
    dsimp only
    cases exe.header with
    | none => exact hstop s rfl h
    | some x =>
      refine wp_ite (fun _ => hstop s rfl h) fun _ => ?_
      rw [wp_bind, wp_get, wp_bind, hl.trapframe, Option.getD_some]
      apply wp_procPagetable h
      · exact hstop
      · intro r' t hprocs ht
        rw [wp_bind]
        apply wp_loadHeaders ht fits_nil (by simp [Accessible])
        intro ok es' sz' u hu hfits hheap
        have hsame := hu.trans hprocs
        refine wp_ite (fun _ => ?_) fun _ => ?_
        · apply wp_execStack hheap (by rwa [hsame]) hfits
          rwa [hsame]
        · apply wp_execBad hheap hfits
          intro w hw
          exact hstop w (hw.trans hsame)

end CS352.Memory
