import CS352.Model.UserCopy
import CS352.Verification.Memory.Tables

/-! # What `copyout` may write

`walkaddr` tests `PTE_V` and `PTE_U` only, so `copyout` also writes to pages without `PTE_W`. -/

namespace CS352.UserCopy

open Memory RadixTable WeakestPre

variable {s : State} {r a b d len n m : ℕ} {src : ℕ → UInt8} {ram ram₁ ram' : Ram}

/-! ## Specification -/

/-- `a` is one of the `len` addresses from `d` on. -/
def InRange (d len a : ℕ) : Prop := d ≤ a ∧ a < d + len

/-- The physical byte behind the user address `a`: its page and its offset. -/
def target (s : State) (r a : ℕ) : Option (ℕ × ℕ) :=
  (leaf s r (a / pgsize)).map fun e => (e.ppn, a % pgsize)

/-- The page of `a` has `PTE_W`. -/
def HasW (s : State) (r a : ℕ) : Prop := ∃ e, leaf s r (a / pgsize) = some e ∧ e.perm.w = true

/-- The page of `a` is valid, accessible for the user and writable. -/
def Writable (s : State) (r a : ℕ) : Prop :=
  ∃ e, leaf s r (a / pgsize) = some e ∧ e.perm.u = true ∧ e.perm.w = true

/-- A call of `copyout` that returns `ret` and leaves `ram'` respects the permissions. -/
structure Respects (s : State) (r d len : ℕ) (src : ℕ → UInt8) (ram : Ram) (ret : ℤ)
    (ram' : Ram) : Prop where
  ret_eq : ret = 0 ∨ ret = -1
  success : ret = 0 ↔ ∀ a, InRange d len a → Writable s r a
  copied : ret = 0 → ∀ a, InRange d len a → ∀ q o, target s r a = some (q, o) →
    ram' q o = src (a - d)
  kept : ∀ q o, (∀ a, InRange d len a → target s r a ≠ some (q, o)) → ram' q o = ram q o
  readOnly : ret = -1 → ∀ a, InRange d len a → ¬ HasW s r a → ∀ q o,
    target s r a = some (q, o) → ram' q o = ram q o

/-- `walkaddr` accepts every page up to that of `a`. -/
def Reached (s : State) (r d a : ℕ) : Prop :=
  ∀ b, d ≤ b → b ≤ a → frame (leaf s r (b / pgsize)) ≠ 0

/-- When `copyout` to these addresses respects the permissions. -/
structure Permits (s : State) (r d len : ℕ) : Prop where
  /-- The addresses that are reached are on writable pages, and so are the others that share a
  byte with one of them. -/
  writable : ∀ a b, InRange d len a → InRange d len b → Reached s r d a →
    target s r b = target s r a → HasW s r b
  /-- The physical page 0, which stands for a failure of `walkaddr`, is not used. -/
  mapped : (∀ a, InRange d len a → Writable s r a) →
    ∀ a, InRange d len a → frame (leaf s r (a / pgsize)) ≠ 0
  /-- If all addresses are reached, no two of them share a byte. -/
  apart : (∀ a, InRange d len a → frame (leaf s r (a / pgsize)) ≠ 0) →
    ∀ a b, InRange d len a → InRange d len b → target s r a = target s r b → a = b

/-! ## The loop -/

theorem walkaddr_eq (s : State) (r va : ℕ) :
    walkaddr r va s = .ok (frame (leaf s r (va / pgsize)), s) := by
  obtain ⟨pa, t, hok, rfl, rfl⟩ := exists_ok_of_wp
    (wp_walkaddr (Q := fun pa t => pa = frame (leaf s r (va / pgsize)) ∧ t = s) ⟨rfl, rfl⟩)
  exact hok

theorem pgrounddown_div (d : ℕ) : pgrounddown d / pgsize = d / pgsize := by
  unfold pgrounddown pgsize
  omega

theorem copyout_zero (r d : ℕ) (src : ℕ → UInt8) (ram : Ram) (s : State) :
    copyout r d src 0 ram s = .ok ((0, ram), s) := by
  rw [copyout]
  rfl

theorem copyout_fail (hlen : 0 < len) (hframe : frame (leaf s r (d / pgsize)) = 0) :
    copyout r d src len ram s = .ok ((-1, ram), s) := by
  rw [copyout, if_pos hlen]
  simp only [bind, StateT.bind, walkaddr_eq, pgrounddown_div, hframe, Except.bind]
  rfl

/-- The bytes that one round of the loop copies. -/
def chunk (d len : ℕ) : ℕ :=
  if pgsize - (d - pgrounddown d) > len then len else pgsize - (d - pgrounddown d)

theorem copyout_next (hlen : 0 < len) (hframe : frame (leaf s r (d / pgsize)) ≠ 0) :
    copyout r d src len ram s =
      copyout r (uint64 (pgrounddown d + pgsize)) (fun i => src (i + chunk d len))
        (len - chunk d len) (memmove ram (frame (leaf s r (d / pgsize))) (d - pgrounddown d) src
          (chunk d len)) s := by
  rw [copyout, if_pos hlen]
  simp only [bind, StateT.bind, walkaddr_eq, pgrounddown_div, Except.bind, if_neg hframe]
  rfl

/-- The bytes of `m` addresses from `d` on have been copied. -/
structure Copied (s : State) (r d m : ℕ) (src : ℕ → UInt8) (ram ram' : Ram) : Prop where
  written : ∀ a, InRange d m a → ∀ q o, target s r a = some (q, o) →
    ∃ b, InRange d m b ∧ target s r b = some (q, o) ∧ ram' q o = src (b - d)
  kept : ∀ q o, (∀ a, InRange d m a → target s r a ≠ some (q, o)) → ram' q o = ram q o

theorem Copied.append (h : Copied s r d n src ram ram₁)
    (h' : Copied s r (d + n) m (fun i => src (i + n)) ram₁ ram') :
    Copied s r d (n + m) src ram ram' := by
  refine ⟨?_, ?_⟩
  · intro a ha q o htarget
    by_cases hlater : ∃ b, InRange (d + n) m b ∧ target s r b = some (q, o)
    · obtain ⟨b, hb, hbt⟩ := hlater
      obtain ⟨c, hc, hct, hval⟩ := h'.written b hb q o hbt
      refine ⟨c, ?_, hct, ?_⟩
      · unfold InRange at *
        omega
      · have hindex : c - (d + n) + n = c - d := by
          unfold InRange at hc
          omega
        rw [hval, hindex]
    · have hsame : ram' q o = ram₁ q o :=
        h'.kept q o fun b hb hbt => hlater ⟨b, hb, hbt⟩
      have hfirst : InRange d n a := by
        by_contra hnot
        refine hlater ⟨a, ?_, htarget⟩
        unfold InRange at *
        omega
      obtain ⟨c, hc, hct, hval⟩ := h.written a hfirst q o htarget
      refine ⟨c, ?_, hct, hsame.trans hval⟩
      unfold InRange at *
      omega
  · intro q o hout
    have houter : ram' q o = ram₁ q o := by
      apply h'.kept q o
      intro a ha
      apply hout a
      unfold InRange at *
      omega
    have hinner : ram₁ q o = ram q o := by
      apply h.kept q o
      intro a ha
      apply hout a
      unfold InRange at *
      omega
    exact houter.trans hinner

theorem chunk_le (d len : ℕ) : chunk d len ≤ len := by
  unfold chunk
  split <;> omega

theorem chunk_pos (hlen : 0 < len) : 0 < chunk d len := by
  unfold chunk pgrounddown pgsize
  split <;> omega

/-- All bytes of a chunk are on the page of the first one. -/
theorem chunk_page (ha : InRange d (chunk d len) a) :
    a / pgsize = d / pgsize ∧ a % pgsize = d - pgrounddown d + (a - d) := by
  unfold InRange chunk at ha
  unfold pgrounddown pgsize at *
  split at ha <;> omega

theorem copied_chunk {e : Pte} (he : leaf s r (d / pgsize) = some e) (len : ℕ) (src : ℕ → UInt8)
    (ram : Ram) :
    Copied s r d (chunk d len) src ram
      (memmove ram e.ppn (d - pgrounddown d) src (chunk d len)) := by
  have htarget : ∀ a, InRange d (chunk d len) a →
      target s r a = some (e.ppn, d - pgrounddown d + (a - d)) := by
    intro a ha
    obtain ⟨hpage, hoff⟩ := chunk_page ha
    rw [target, hpage, he, hoff]
    rfl
  refine ⟨?_, ?_⟩
  · intro a ha q o hqo
    refine ⟨a, ha, hqo, ?_⟩
    rw [htarget a ha] at hqo
    cases hqo
    unfold InRange at ha
    rw [memmove, if_pos ⟨rfl, by omega, by omega⟩, Nat.add_sub_cancel_left]
  · intro q o hout
    rw [memmove, if_neg]
    intro hin
    have ha : InRange d (chunk d len) (d + (o - (d - pgrounddown d))) := by
      unfold InRange
      omega
    refine hout _ ha ?_
    rw [htarget _ ha, hin.1]
    congr 2
    omega

theorem frame_ne_zero {e : Option Pte} (h : frame e ≠ 0) :
    ∃ x, e = some x ∧ x.perm.u = true ∧ frame e = x.ppn := by
  cases e with
  | none => exact absurd rfl h
  | some x =>
    by_cases hu : x.perm.u = true
    · exact ⟨x, rfl, hu, by simp [frame, hu]⟩
    · simp [frame, hu] at h

theorem leaf_lt {v : ℕ} {e : Pte} (h : leaf s r v = some e) : v < maxva / pgsize :=
  (Option.ite_none_right_eq_some.mp h).1

/-- The next chunk starts on the next page, and the address does not wrap around. -/
theorem next_chunk {e : Pte} (he : leaf s r (d / pgsize) = some e) (hlt : chunk d len < len) :
    uint64 (pgrounddown d + pgsize) = d + chunk d len := by
  have hpage := leaf_lt he
  have hchunk : chunk d len = pgsize - (d - pgrounddown d) := by
    unfold chunk at *
    split at hlt <;> simp_all
  rw [hchunk]
  unfold uint64 pgrounddown pgsize maxva at *
  omega

/-- `copyout` copies the bytes up to the first page that `walkaddr` refuses. -/
theorem copyout_spec (s : State) (r d : ℕ) (src : ℕ → UInt8) (len : ℕ) (ram : Ram) :
    ∃ m ≤ len, ∃ ram', copyout r d src len ram s = .ok ((if m = len then 0 else -1, ram'), s) ∧
      (∀ a, InRange d m a → frame (leaf s r (a / pgsize)) ≠ 0) ∧
      (m < len → frame (leaf s r ((d + m) / pgsize)) = 0) ∧ Copied s r d m src ram ram' := by
  induction len using Nat.strongRecOn generalizing d src ram with
  | ind len ih =>
    have hempty : ∀ a, ¬ InRange d 0 a := fun a ha => by
      unfold InRange at ha
      omega
    by_cases hlen : 0 < len
    · by_cases hframe : frame (leaf s r (d / pgsize)) = 0
      · refine ⟨0, Nat.zero_le len, ram, ?_, fun a ha => absurd ha (hempty a), fun _ => hframe,
          fun a ha => absurd ha (hempty a), fun _ _ _ => rfl⟩
        rw [copyout_fail hlen hframe, if_neg (by omega)]
      · obtain ⟨e, he, -, hppn⟩ := frame_ne_zero hframe
        have hpos := chunk_pos (d := d) hlen
        have hle := chunk_le d len
        have hcopied := copied_chunk he len src ram
        have hfirst : ∀ a, InRange d (chunk d len) a → frame (leaf s r (a / pgsize)) ≠ 0 := by
          intro a ha
          rwa [(chunk_page ha).1]
        rw [copyout_next hlen hframe, hppn]
        by_cases hlast : chunk d len = len
        · refine ⟨len, le_rfl, _, ?_, hlast ▸ hfirst, fun h => absurd h (by omega),
            hlast ▸ hcopied⟩
          rw [hlast, Nat.sub_self, copyout_zero, if_pos rfl]
        · have hmore : chunk d len < len := by omega
          rw [next_chunk he hmore]
          obtain ⟨m, hm, ram', hrun, hgood, hstop, hrest⟩ := ih (len - chunk d len) (by omega)
            (d + chunk d len) (fun i => src (i + chunk d len))
            (memmove ram e.ppn (d - pgrounddown d) src (chunk d len))
          refine ⟨chunk d len + m, by omega, ram', ?_, ?_, ?_, hcopied.append hrest⟩
          · rw [hrun]
            simp only [show m = len - chunk d len ↔ chunk d len + m = len by omega]
          · intro a ha
            by_cases hin : InRange d (chunk d len) a
            · exact hfirst a hin
            · apply hgood a
              unfold InRange at *
              omega
          · intro hlt
            rw [← Nat.add_assoc]
            exact hstop (by omega)
    · obtain rfl : len = 0 := by omega
      exact ⟨0, le_rfl, ram, copyout_zero r d src ram s, fun a ha => absurd ha (hempty a),
        fun h => absurd h (by omega), fun a ha => absurd ha (hempty a), fun _ _ _ => rfl⟩

/-- The model of address spaces, which keeps no bytes, has the same result. -/
theorem copyout_eq_map (s : State) (r d : ℕ) (src : ℕ → UInt8) (len : ℕ) (ram : Ram) :
    Memory.copyout r d len s =
      (copyout r d src len ram s).map fun x => (decide (x.1.1 = 0), x.2) := by
  induction len using Nat.strongRecOn generalizing d src ram with
  | ind len ih =>
    rw [Memory.copyout]
    by_cases hlen : 0 < len
    · have hpos := chunk_pos (d := d) hlen
      have hmin : min (pgsize - (d - pgrounddown d)) len = chunk d len := by
        unfold chunk
        split <;> omega
      simp only [if_pos hlen, bind, StateT.bind, walkaddr_eq, pgrounddown_div, Except.bind, hmin]
      by_cases hframe : frame (leaf s r (d / pgsize)) = 0
      · rw [if_pos hframe, copyout_fail hlen hframe]
        rfl
      · rw [if_neg hframe, copyout_next hlen hframe]
        exact ih _ (by omega) _ _ _
    · obtain rfl : len = 0 := by omega
      rw [copyout_zero]
      rfl

/-! ## Permissions -/

theorem target_of_frame (h : frame (leaf s r (a / pgsize)) ≠ 0) :
    ∃ q o, target s r a = some (q, o) := by
  obtain ⟨e, he, -, -⟩ := frame_ne_zero h
  exact ⟨e.ppn, a % pgsize, by rw [target, he]; rfl⟩

/-- What a call of `copyout` has done: it has copied `m` bytes. -/
structure Outcome (s : State) (r d len : ℕ) (src : ℕ → UInt8) (ram : Ram) (m : ℕ) (ram' : Ram) :
    Prop where
  le : m ≤ len
  run : copyout r d src len ram s = .ok ((if m = len then 0 else -1, ram'), s)
  accepted : ∀ a, InRange d m a → frame (leaf s r (a / pgsize)) ≠ 0
  stopped : m < len → frame (leaf s r ((d + m) / pgsize)) = 0
  copied : Copied s r d m src ram ram'

theorem exists_outcome (s : State) (r d len : ℕ) (src : ℕ → UInt8) (ram : Ram) :
    ∃ m ram', Outcome s r d len src ram m ram' := by
  obtain ⟨m, hle, ram', hrun, haccepted, hstopped, hcopied⟩ := copyout_spec s r d src len ram
  exact ⟨m, ram', hle, hrun, haccepted, hstopped, hcopied⟩

namespace Outcome

theorem reached (h : Outcome s r d len src ram m ram') (ha : InRange d m a) :
    Reached s r d a := by
  intro b hb hba
  apply h.accepted b
  unfold InRange at *
  omega

theorem of_reached (h : Outcome s r d len src ram m ram') (ha : InRange d len a)
    (hreached : Reached s r d a) : InRange d m a := by
  by_contra hout
  have hle := h.le
  have hstop : m < len ∧ d + m ≤ a := by
    unfold InRange at *
    omega
  exact hreached (d + m) (Nat.le_add_right d m) hstop.2 (h.stopped hstop.1)

/-- The whole range has been copied if all its pages are accepted. -/
theorem eq_len (h : Outcome s r d len src ram m ram')
    (hall : ∀ a, InRange d len a → frame (leaf s r (a / pgsize)) ≠ 0) : m = len := by
  by_contra hne
  have hlt : m < len := Nat.lt_of_le_of_ne h.le hne
  refine hall (d + m) ?_ (h.stopped hlt)
  unfold InRange
  omega

theorem respects (h : Outcome s r d len src ram m ram') (hp : Permits s r d len) :
    Respects s r d len src ram (if m = len then 0 else -1) ram' := by
  have hret : (if m = len then (0 : ℤ) else -1) = 0 ↔ m = len := by
    split <;> simp_all
  have hin : ∀ a, InRange d m a → InRange d len a := by
    intro a ha
    have hle := h.le
    unfold InRange at *
    omega
  refine ⟨?_, ?_, ?_, ?_, ?_⟩
  · split
    · exact .inl rfl
    · exact .inr rfl
  · rw [hret]
    refine ⟨?_, fun hall => h.eq_len (hp.mapped hall)⟩
    intro hm a ha
    obtain ⟨e, he, hu, -⟩ := frame_ne_zero (h.accepted a (hm ▸ ha))
    obtain ⟨e', he', hw⟩ := hp.writable a a ha ha (h.reached (hm ▸ ha)) rfl
    obtain rfl := Option.some.inj (he.symm.trans he')
    exact ⟨e, he, hu, hw⟩
  · intro hzero a ha q o htarget
    have hm := hret.mp hzero
    obtain ⟨b, hb, hbt, hval⟩ := h.copied.written a (hm ▸ ha) q o htarget
    have hall : ∀ a, InRange d len a → frame (leaf s r (a / pgsize)) ≠ 0 :=
      fun a ha => h.accepted a (hm ▸ ha)
    rw [hp.apart hall a b ha (hin b hb) (htarget.trans hbt.symm), hval]
  · intro q o hout
    exact h.copied.kept q o fun a ha => hout a (hin a ha)
  · intro _ a ha hw q o htarget
    apply h.copied.kept q o
    intro b hb hbt
    exact hw (hp.writable b a (hin b hb) ha (h.reached hb) (htarget.trans hbt.symm))

end Outcome

/-- `copyout` respects the permissions of a page table, whatever it copies, exactly if the
addresses that it reaches are on writable pages, and each on a byte of its own. -/
theorem copyout_respects_iff (s : State) (r : ℕ) (dstva len : UInt64) :
    (∀ (src : ℕ → UInt8) (ram : Ram), ∃ ret ram',
      copyout r dstva.toNat src len.toNat ram s = .ok ((ret, ram'), s) ∧
        Respects s r dstva.toNat len.toNat src ram ret ram') ↔
      Permits s r dstva.toNat len.toNat := by
  generalize dstva.toNat = d
  generalize len.toNat = len
  constructor
  · intro hall
    refine ⟨?_, ?_, ?_⟩
    · -- ones are copied to a memory of zeros, so that every byte that is written changes
      intro a b ha hb hreached htarget
      obtain ⟨ret, ram', hrun, hresp⟩ := hall (fun _ => 1) (fun _ _ => 0)
      obtain ⟨m, ram₁, hout⟩ := exists_outcome s r d len (fun _ => 1) (fun _ _ => 0)
      cases hrun.symm.trans hout.run
      have ham := hout.of_reached ha hreached
      obtain ⟨q, o, hqo⟩ := target_of_frame (hout.accepted a ham)
      obtain ⟨c, -, -, hval⟩ := hout.copied.written a ham q o hqo
      by_cases hm : m = len
      · obtain ⟨e, he, -, hw⟩ := hresp.success.mp (if_pos hm) b hb
        exact ⟨e, he, hw⟩
      · by_contra hw
        have hkept := hresp.readOnly (if_neg hm) b hb hw q o (htarget.trans hqo)
        rw [hval] at hkept
        exact absurd hkept (by decide)
    · intro hw
      obtain ⟨ret, ram', hrun, hresp⟩ := hall (fun _ => 1) (fun _ _ => 0)
      obtain ⟨m, ram₁, hout⟩ := exists_outcome s r d len (fun _ => 1) (fun _ _ => 0)
      cases hrun.symm.trans hout.run
      have hm : m = len := by
        by_contra hne
        have hzero := hresp.success.mpr hw
        rw [if_neg hne] at hzero
        exact absurd hzero (by decide)
      exact fun a ha => hout.accepted a (hm ▸ ha)
    · -- a source in which the byte for `a` is different from all others
      intro hframe a b ha hb htarget
      obtain ⟨ret, ram', hrun, hresp⟩ :=
        hall (fun i => if i = a - d then 1 else 0) (fun _ _ => 0)
      obtain ⟨m, ram₁, hout⟩ := exists_outcome s r d len
        (fun i => if i = a - d then 1 else 0) (fun _ _ => 0)
      cases hrun.symm.trans hout.run
      have hm := hout.eq_len hframe
      obtain ⟨q, o, hqo⟩ := target_of_frame (hframe a ha)
      have hvala := hresp.copied (if_pos hm) a ha q o hqo
      have hvalb := hresp.copied (if_pos hm) b hb q o (htarget ▸ hqo)
      rw [hvala, if_pos rfl] at hvalb
      by_cases hab : b - d = a - d
      · unfold InRange at ha hb
        omega
      · rw [if_neg hab] at hvalb
        exact absurd hvalb (by decide)
  · intro hp src ram
    obtain ⟨m, ram', hout⟩ := exists_outcome s r d len src ram
    exact ⟨_, ram', hout.run, hout.respects hp⟩

/-- In a page table that does not map a page for the user twice, nor page 0, the only question is
whether the addresses that are reached are on writable pages. -/
theorem permits_iff (hzero : ∀ v e, leaf s r v = some e → e.perm.u = true → e.ppn ≠ 0)
    (hinj : ∀ v w e f, leaf s r v = some e → leaf s r w = some f → e.ppn = f.ppn → v = w) :
    Permits s r d len ↔ ∀ a, InRange d len a → Reached s r d a → HasW s r a := by
  have hone : ∀ a b, frame (leaf s r (a / pgsize)) ≠ 0 → target s r b = target s r a → b = a := by
    intro a b hframe htarget
    obtain ⟨e, he, -, -⟩ := frame_ne_zero hframe
    rw [target, target, he, Option.map_some] at htarget
    obtain ⟨f, hf, hef⟩ := Option.map_eq_some_iff.mp htarget
    obtain ⟨hppn, hoff⟩ := Prod.mk.inj hef
    have hpage := hinj _ _ f e hf he hppn
    rw [← Nat.div_add_mod b pgsize, ← Nat.div_add_mod a pgsize, hpage, hoff]
  constructor
  · intro hp a ha hreached
    exact hp.writable a a ha ha hreached rfl
  · intro hw
    refine ⟨?_, ?_, ?_⟩
    · intro a b ha hb hreached htarget
      obtain ⟨hda, -⟩ := ha
      obtain rfl := hone a b (hreached a hda le_rfl) htarget
      exact hw b hb hreached
    · intro hall a ha
      obtain ⟨e, he, hu, -⟩ := hall a ha
      simpa [he, frame, hu] using hzero _ e he hu
    · intro hall a b ha hb htarget
      exact hone b a (hall b hb) htarget

/-- A page table with one page at address 0, mapped as `exec` maps a segment with the flags
`PF_R` and `PF_X`. -/
def textState : State where
  mem page i :=
    if i ≠ 0 then .zero
    else if page = 100 then ⟨101, true, .none⟩
    else if page = 101 then ⟨102, true, .none⟩
    else if page = 102 then ⟨103, true, { flags2perm 5 with r := true, u := true }⟩
    else .zero
  free := []
  deny := []
  proc := fun _ => .none
  nextpid := 1
  fileRef := fun _ => 0
  inodeRef := fun _ => 0

theorem leaf_textState : leaf textState 100 0 =
    some ⟨103, true, { flags2perm 5 with r := true, u := true }⟩ := by
  decide +kernel

/-- One byte is copied over the text of a process: `copyout` returns 0. -/
theorem copyout_overwrites_text :
    ¬ HasW textState 100 0 ∧ ∃ ram',
      copyout 100 0 (fun _ => 1) 1 (fun _ _ => 0) textState = .ok ((0, ram'), textState) ∧
        ram' 103 0 = 1 := by
  have hzero : ∀ a, InRange 0 1 a → a = 0 := by
    intro a ha
    unfold InRange at ha
    omega
  refine ⟨?_, ?_⟩
  · intro hw
    obtain ⟨e, he, hw⟩ := hw
    cases he.symm.trans leaf_textState
    exact absurd hw (by decide)
  · obtain ⟨m, ram', hout⟩ := exists_outcome textState 100 0 1 (fun _ => 1) (fun _ _ => 0)
    have hm : m = 1 := by
      apply hout.eq_len
      intro a ha
      rw [hzero a ha, Nat.zero_div, leaf_textState]
      decide
    subst m
    have htarget : target textState 100 0 = some (103, 0) := by
      rw [target, Nat.zero_div, leaf_textState]
      rfl
    obtain ⟨b, -, -, hval⟩ := hout.copied.written 0 (by unfold InRange; omega) 103 0 htarget
    exact ⟨ram', hout.run, hval⟩

end CS352.UserCopy
