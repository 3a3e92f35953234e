import CS352.Verification.Memory.Calls

/-! # The first process

`userinit` does not look at the results of `allocproc` and of `mappages`: it relies on the free
memory after booting. -/

namespace CS352.Memory

open RadixTable Tally WeakestPre Function

/-! ## Enough memory -/

section

variable {s t : State} {j k d r pa va v tf : ℕ} {perm : Perm} {E : Panic → Prop}

/-- `kalloc` succeeds `k` times. -/
def Plenty (k : ℕ) (s : State) : Prop := s.deny = [] ∧ k ≤ s.free.length

theorem Plenty.mono (h : Plenty k s) (hle : j ≤ k) : Plenty j s := ⟨h.1, hle.trans h.2⟩

theorem Plenty.kalloc {Q : Option ℕ → State → Prop} (h : Plenty (k + 1) s)
    (hQ : ∀ a t, Plenty k t → Q (some a) t) : wp E kalloc Q s := by
  obtain ⟨hdeny, hfree⟩ := h
  unfold Memory.kalloc
  rw [wp_bind, wp_get, hdeny]
  cases hs : s.free with
  | nil =>
    rw [hs] at hfree
    cases hfree
  | cons a free =>
    rw [hs] at hfree
    exact hQ a _ ⟨rfl, Nat.le_of_succ_le_succ hfree⟩

theorem Plenty.walkFrom {Q : Option (ℕ × ℕ) → State → Prop} (h : Plenty (k + d) s)
    (hQ : ∀ x t, Plenty k t → Q (some x) t) : wp E (walkFrom va true d r) Q s := by
  induction d generalizing r s with
  | zero => exact hQ _ s h
  | succ d ih =>
    unfold Memory.walkFrom
    rw [wp_bind, wp_get]
    refine wp_ite (fun _ => ih (h.mono (by omega))) fun _ => ?_
    rw [if_neg (by simp), wp_bind]
    apply Plenty.kalloc h
    intro page t ht
    simp only [wp_bind, zeroPage, setPte, wp_modify]
    exact ih ht

theorem Plenty.mappages {Q : Bool → State → Prop} (hva : va = v * pgsize) (h : Plenty (k + 2) s)
    (hE : ∀ e, E e) (hQ : ∀ t, Plenty k t → Q true t) :
    wp E (mappages r va pgsize pa perm) Q s := by
  rw [hva, mappages_page]
  unfold mapPage walk
  rw [wp_bind]
  refine wp_ite (fun _ => hE _) fun _ => ?_
  apply Plenty.walkFrom h
  intro x t ht
  rw [wp_bind, wp_get]
  refine wp_ite (fun _ => hE _) fun _ => ?_
  simp only [wp_bind, setPte, wp_modify]
  exact hQ _ ht

theorem Plenty.procPagetable [Image] {Q : Option ℕ → State → Prop} (h : Plenty (k + 5) s)
    (hE : ∀ e, E e) (hQ : ∀ r t, Plenty k t → Q (some r) t) : wp E (procPagetable tf) Q s := by
  unfold Memory.procPagetable uvmcreate
  rw [wp_bind, wp_bind]
  apply Plenty.kalloc h
  intro r t ht
  simp only [wp_bind, zeroPage, wp_modify, wp_pure]
  refine Plenty.mappages (k := k + 2) trampolineVa_eq ?_ hE ?_
  · exact ht
  intro u hu
  rw [if_pos rfl, wp_bind]
  apply Plenty.mappages trapframeVa_eq hu hE
  intro w hw
  exact hQ r w hw

theorem Plenty.allocproc [Image] {Q : Option ℕ → State → Prop} (h : Plenty (k + 6) s)
    (hslot : (s.proc 0).state = .unused) (hE : ∀ e, E e)
    (hQ : ∀ p t, Plenty k t → Q (some p) t) : wp E allocproc Q s := by
  unfold Memory.allocproc
  rw [wp_bind, wp_get]
  cases hfind : (List.range nproc).find? fun p => (s.proc p).state = .unused with
  | none =>
    have hnone := List.find?_eq_none.mp hfind 0 (by decide)
    simp [hslot] at hnone
  | some p =>
    rw [wp_bind, wp_set, wp_bind, wp_setProc, wp_bind]
    refine Plenty.kalloc (k := k + 5) ?_ ?_
    · exact h
    intro tf t ht
    rw [wp_bind, wp_get, wp_bind, wp_setProc, wp_bind]
    refine Plenty.procPagetable (k := k) ?_ hE ?_
    · exact ht
    intro r u hu
    rw [wp_bind, wp_get, wp_bind, wp_setProc]
    exact hQ p _ hu

end

/-! ## userinit -/

section

variable [Image] {free : List ℕ}

/-- The pages that `kinit` and `kvminit` leave. -/
def bootPool (mem : ℕ → ℕ → Pte) (free : List ℕ) (hnodup : free.Nodup)
    (hram : ∀ a ∈ free, Image.endPage ≤ a ∧ a < phystop) : Pool where
  pages := free
  nodup := hnodup
  inRam := hram
  others := mem

theorem inv_start (mem : ℕ → ℕ → Pte) (hnodup : free.Nodup)
    (hram : ∀ a ∈ free, Image.endPage ≤ a ∧ a < phystop) :
    Inv (bootPool mem free hnodup hram) (start mem free) fun _ => [] := by
  have htables : ∀ ps, tables (start mem free).proc (fun _ => []) ps = [] := by
    intro ps
    simp [tables, spaces, start, Proc.none]
  have hframes : ∀ ps, frames (start mem free).proc ps = [] := by
    intro ps
    simp [frames, start, Proc.none]
  refine ⟨?_, ?_, ?_⟩
  · rw [htables, hframes]
    refine ⟨?_, ?_, ?_⟩
    · intro a
      rfl
    · intro x hx
      cases hx
    · intro b _
      rfl
  · intro p
    exact .inl rfl
  · intro p hstate
    exact absurd rfl hstate

theorem wp_uvmfirst {pool : Pool} {s : State} {T : List (ℕ × Space)} {H : List ℕ} {fx : Space}
    {r sz : ℕ} {E : Panic → Prop} {Q : Unit → State → Prop}
    (h : Heap pool s ((r, layout [] fx) :: T) H) (hk : Plenty 3 s) (hsz : sz < pgsize)
    (hQ : ∀ e t, t.toProcs = s.toProcs → Readable [e] →
      Heap pool t ((r, layout [e] fx) :: T) H → Q () t) :
    wp E (uvmfirst r sz) Q s := by
  have hvalues := vpn_values
  unfold uvmfirst
  refine wp_ite (fun hge => by omega) fun _ => ?_
  rw [wp_bind]
  have hpage : wp E kalloc (fun x t => ∀ a, x = some a → t.toProcs = s.toProcs ∧
      Heap pool t ((r, layout [] fx) :: T) (a :: H)) s := by
    apply wp_kalloc h
    · simp
    · rintro a t hprocs ht _ ⟨⟩
      exact ⟨hprocs, ht⟩
  have hmore := hk.kalloc (E := E) (Q := fun x t => x.isSome ∧ Plenty 2 t)
    fun _ _ ht => ⟨rfl, ht⟩
  apply wp_mono (wp_and hpage hmore)
  rintro x t ⟨hheap, hsome, hk⟩
  obtain ⟨page, rfl⟩ := Option.isSome_iff_exists.mp hsome
  obtain ⟨hprocs, ht⟩ := hheap page rfl
  generalize hperm : (⟨true, true, true, true⟩ : Perm) = perm
  have hr : perm.r = true := by rw [← hperm]
  have hmap : wp E (mappages r (([] : List Pte).length * pgsize) pgsize page perm)
      (fun b u => b = true → u.toProcs = t.toProcs ∧
        Heap pool u ((r, layout ([] ++ [⟨page, true, perm⟩]) fx) :: T) H) t := by
    apply wp_mapNext ht _ hr
    · simp
    · intro u hu hheap _
      exact ⟨hu, hheap⟩
    · rw [List.length_nil]
      omega
  rw [List.length_nil, Nat.zero_mul] at hmap
  have hdone : wp (fun _ => True) (mappages r 0 pgsize page perm) (fun b _ => b = true) t :=
    Plenty.mappages (k := 0) (Nat.zero_mul _).symm hk (fun _ => trivial) fun _ _ => rfl
  rw [wp_bind]
  apply wp_mono (wp_and hmap hdone)
  rintro b u ⟨hheap, hb⟩
  obtain ⟨hu, hheap⟩ := hheap hb
  refine hQ _ u (hu.trans hprocs) ?_ hheap
  simp [Readable, hr]

/-- The first process is made, with `initcode` in its only page. -/
theorem wp_userinit (mem : ℕ → ℕ → Pte) (hnodup : free.Nodup)
    (hram : ∀ a ∈ free, Image.endPage ≤ a ∧ a < phystop) (hfree : 9 ≤ free.length) :
    wp (fun _ => False) userinit
      (fun _ t => ∃ es, Inv (bootPool mem free hnodup hram) t es) (start mem free) := by
  have hinv := inv_start mem hnodup hram
  generalize bootPool mem free hnodup hram = pool at hinv ⊢
  have hplenty : Plenty (3 + 6) (start mem free) := ⟨rfl, hfree⟩
  have hmade : wp (fun _ => False) allocproc (fun x t => ∀ p, x = some p → p < nproc ∧
      ∃ q r tf, t.proc = update (start mem free).proc p q ∧ q.pagetable = some r ∧
        q.trapframe = some tf ∧ Heap pool t
          ((r, layout [] (fixed tf)) ::
            tables (start mem free).proc (fun _ => []) (List.range nproc))
          (tf :: frames (start mem free).proc (List.range nproc))) (start mem free) := by
    apply wp_allocproc hinv.heap
    · intro p _ hstate
      exact hinv.idle p hstate
    · simp
    · rintro p r tf k t hp _ hprocs ht _ ⟨⟩
      exact ⟨hp, _, r, tf, congrArg Procs.proc hprocs, rfl, rfl, ht⟩
  have hmore : wp (fun _ => True) allocproc (fun x t => x.isSome ∧ Plenty 3 t)
      (start mem free) := by
    apply hplenty.allocproc rfl fun _ => trivial
    intro _ t ht
    exact ⟨rfl, ht⟩
  unfold userinit
  rw [wp_bind]
  apply wp_mono (wp_and hmade hmore)
  rintro x t ⟨hheap, hsome, hk⟩
  obtain ⟨p, rfl⟩ := Option.isSome_iff_exists.mp hsome
  obtain ⟨hp, q, r, tf, hproc, hpt, htf, ht⟩ := hheap p rfl
  have hself : t.proc p = q := by rw [hproc, update_self]
  rw [wp_bind, wp_get, wp_bind, hself, hpt, Option.getD_some]
  apply wp_uvmfirst ht hk (by decide)
  intro e u hu hread hheap
  have huproc : u.proc = t.proc := by rw [hu]
  have hfits : Fits [e] pgsize := by
    refine ⟨hread, ?_, ?_⟩
    · have hvalues := vpn_values
      rw [List.length_singleton]
      omega
    · rfl
  unfold idup
  rw [wp_bind, wp_modify, wp_bind, wp_get, wp_setProc]
  dsimp only
  rw [huproc, hself, hproc, update_idem]
  apply hinv.added hp (hinv.idle p rfl)
  · rfl
  · rfl
  · rfl
  · exact ⟨hpt, htf, hfits⟩
  · exact hheap.congr rfl rfl

/-- With nine free pages, the first process is made. -/
theorem exists_boot (mem : ℕ → ℕ → Pte) (hnodup : free.Nodup)
    (hram : ∀ a ∈ free, Image.endPage ≤ a ∧ a < phystop) (hfree : 9 ≤ free.length) :
    ∃ s, userinit (start mem free) = .ok ((), s) ∧
      ∃ es, Inv (bootPool mem free hnodup hram) s es := by
  obtain ⟨_, s, hs, hinv⟩ := exists_ok_of_wp (wp_userinit mem hnodup hram hfree)
  exact ⟨s, hs, hinv⟩

end

/-- A kernel of 34 pages. -/
@[reducible] def smallKernel : Image where
  trampoline := 0x80007
  endPage := 0x80022
  kernbase_le := by decide
  trampoline_lt := by decide

end CS352.Memory
