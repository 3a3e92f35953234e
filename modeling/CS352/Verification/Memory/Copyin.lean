import CS352.Model.UserRead
import CS352.Verification.Memory.Copyout

/-! # What `copyin` and `copyinstr` read -/

namespace CS352.UserCopy

open Memory RadixTable WeakestPre

variable {s : State} {r d len n : ℕ} {ram : Ram} {dst w : List UInt8}

/-- The byte at a user address, on a page that `walkaddr` accepts. -/
def userByte (s : State) (r : ℕ) (ram : Ram) (a : ℕ) : Option UInt8 :=
  if frame (leaf s r (a / pgsize)) = 0 then none
  else some (ram (frame (leaf s r (a / pgsize))) (a % pgsize))

/-- The user addresses from `d` on hold the bytes of `w`. -/
def UserBytes (s : State) (r : ℕ) (ram : Ram) (d : ℕ) (w : List UInt8) : Prop :=
  ∀ i (hi : i < w.length), userByte s r ram (d + i) = some w[i]

theorem userBytes_nil : UserBytes s r ram d [] := fun i hi => absurd hi (Nat.not_lt_zero i)

theorem UserBytes.append {v : List UInt8} (h : UserBytes s r ram d v)
    (h' : UserBytes s r ram (d + v.length) w) : UserBytes s r ram d (v ++ w) := by
  intro i hi
  by_cases hlt : i < v.length
  · rw [List.getElem_append_left hlt]
    exact h i hlt
  · rw [List.length_append] at hi
    have hrest := h' (i - v.length) (by omega)
    rw [List.getElem_append_right (by omega), ← hrest]
    congr 1
    omega

theorem UserBytes.eq {v : List UInt8} (h : UserBytes s r ram d v) (h' : UserBytes s r ram d w)
    (hlen : v.length = w.length) : v = w :=
  List.ext_getElem hlen fun i hi hi' => Option.some.inj ((h i hi).symm.trans (h' i hi'))

/-! ## The loops -/

/-- The bytes of one chunk are on one page. -/
theorem userByte_chunk (hframe : frame (leaf s r (d / pgsize)) ≠ 0) {i : ℕ} (hi : i < chunk d len) :
    userByte s r ram (d + i) =
      some (ram (frame (leaf s r (d / pgsize))) (d - pgrounddown d + i)) := by
  have hin : InRange d (chunk d len) (d + i) := by
    unfold InRange
    omega
  obtain ⟨hpage, hoff⟩ := chunk_page hin
  rw [userByte, hpage, if_neg hframe, hoff, Nat.add_sub_cancel_left]

theorem copyin_zero (r d : ℕ) (ram : Ram) (dst : List UInt8) (s : State) :
    copyin r d 0 ram dst s = .ok ((0, dst), s) := by
  rw [copyin]
  rfl

theorem copyin_fail (hlen : 0 < len) (hframe : frame (leaf s r (d / pgsize)) = 0) :
    copyin r d len ram dst s = .ok ((-1, dst), s) := by
  rw [copyin, if_pos hlen]
  simp only [bind, StateT.bind, walkaddr_eq, pgrounddown_div, hframe, Except.bind]
  rfl

/-- The bytes of a page from an address on. -/
def pageBytes (s : State) (r : ℕ) (ram : Ram) (d n : ℕ) : List UInt8 :=
  (List.range n).map fun i => ram (frame (leaf s r (d / pgsize))) (d - pgrounddown d + i)

theorem copyin_next (hlen : 0 < len) (hframe : frame (leaf s r (d / pgsize)) ≠ 0) :
    copyin r d len ram dst s = copyin r (uint64 (pgrounddown d + pgsize)) (len - chunk d len) ram
      (dst ++ pageBytes s r ram d (chunk d len)) s := by
  rw [copyin, if_pos hlen]
  simp only [bind, StateT.bind, walkaddr_eq, pgrounddown_div, Except.bind, if_neg hframe]
  rfl

theorem userBytes_pageBytes (hframe : frame (leaf s r (d / pgsize)) ≠ 0) (ram : Ram) (len : ℕ) :
    UserBytes s r ram d (pageBytes s r ram d (chunk d len)) := by
  intro i hi
  rw [pageBytes, List.length_map, List.length_range] at hi
  rw [userByte_chunk hframe hi]
  simp [pageBytes]

/-- `copyin` copies the bytes up to the first page that `walkaddr` refuses. -/
theorem copyin_spec (s : State) (r d len : ℕ) (ram : Ram) (dst : List UInt8) :
    ∃ w, UserBytes s r ram d w ∧
      (w.length = len ∧ copyin r d len ram dst s = .ok ((0, dst ++ w), s) ∨
        w.length < len ∧ userByte s r ram (d + w.length) = none ∧
          copyin r d len ram dst s = .ok ((-1, dst ++ w), s)) := by
  induction len using Nat.strongRecOn generalizing d dst with
  | ind len ih =>
    rcases Nat.eq_zero_or_pos len with rfl | hlen
    · refine ⟨[], userBytes_nil, .inl ⟨rfl, ?_⟩⟩
      rw [copyin_zero, List.append_nil]
    by_cases hframe : frame (leaf s r (d / pgsize)) = 0
    · refine ⟨[], userBytes_nil, .inr ⟨hlen, if_pos hframe, ?_⟩⟩
      rw [copyin_fail hlen hframe, List.append_nil]
    obtain ⟨e, he, -, -⟩ := frame_ne_zero hframe
    have hpos := chunk_pos (d := d) hlen
    have hle := chunk_le d len
    have hfirst := userBytes_pageBytes hframe ram len
    obtain ⟨v, hv⟩ : ∃ v, v = pageBytes s r ram d (chunk d len) := ⟨_, rfl⟩
    have hvlen : v.length = chunk d len := by simp [hv, pageBytes]
    rw [← hv] at hfirst
    rw [copyin_next hlen hframe, ← hv]
    by_cases hlast : chunk d len = len
    · refine ⟨v, hfirst, .inl ⟨hvlen.trans hlast, ?_⟩⟩
      rw [hlast, Nat.sub_self, copyin_zero]
    · have hmore : chunk d len < len := by omega
      rw [next_chunk he hmore, ← hvlen]
      obtain ⟨w, hw, hrun⟩ := ih (len - v.length) (by omega) (d + v.length) (dst ++ v)
      refine ⟨v ++ w, hfirst.append hw, ?_⟩
      rw [← List.append_assoc, List.length_append, ← Nat.add_assoc]
      rcases hrun with ⟨hwlen, hrun⟩ | ⟨hwlen, hnone, hrun⟩
      · exact .inl ⟨by omega, hrun⟩
      · exact .inr ⟨by omega, hnone, hrun⟩

/-! ## Strings -/

theorem bytesIn_spec (page : ℕ → UInt8) (off n : ℕ) :
    0 ∉ (bytesIn page off n).1 ∧
      (∀ i (hi : i < (bytesIn page off n).1.length), page (off + i) = (bytesIn page off n).1[i]) ∧
      if (bytesIn page off n).2 then (bytesIn page off n).1.length < n ∧
        page (off + (bytesIn page off n).1.length) = 0
      else (bytesIn page off n).1.length = n := by
  induction n generalizing off with
  | zero => exact ⟨List.not_mem_nil, fun i hi => absurd hi (Nat.not_lt_zero i), rfl⟩
  | succ n ih =>
    rw [bytesIn]
    by_cases hzero : page off = 0
    · rw [if_pos hzero]
      exact ⟨List.not_mem_nil, fun i hi => absurd hi (Nat.not_lt_zero i), Nat.succ_pos n, hzero⟩
    · obtain ⟨hnul, hbytes, hend⟩ := ih (off + 1)
      rw [if_neg hzero]
      refine ⟨?_, ?_, ?_⟩
      · rw [List.mem_cons, not_or]
        exact ⟨Ne.symm hzero, hnul⟩
      · intro i hi
        cases i with
        | zero => rfl
        | succ i =>
          rw [List.getElem_cons_succ, ← hbytes i (Nat.lt_of_succ_lt_succ hi)]
          congr 1
          omega
      · have hshift (l : ℕ) : page (off + (l + 1)) = page (off + 1 + l) := by
          congr 1
          omega
        by_cases hfound : (bytesIn page (off + 1) n).2 = true
        · rw [if_pos hfound] at hend ⊢
          exact ⟨Nat.succ_lt_succ hend.1, (hshift _).trans hend.2⟩
        · rw [if_neg hfound] at hend ⊢
          exact congrArg Nat.succ hend

theorem copyinstr_zero (r d : ℕ) (ram : Ram) (dst : List UInt8) (s : State) :
    copyinstr r d 0 ram dst s = .ok ((-1, dst), s) := by
  rw [copyinstr]
  rfl

theorem copyinstr_fail (hlen : 0 < len) (hframe : frame (leaf s r (d / pgsize)) = 0) :
    copyinstr r d len ram dst s = .ok ((-1, dst), s) := by
  rw [copyinstr, if_pos hlen]
  simp only [bind, StateT.bind, walkaddr_eq, pgrounddown_div, hframe, Except.bind]
  rfl

theorem copyinstr_next (hlen : 0 < len) (hframe : frame (leaf s r (d / pgsize)) ≠ 0) :
    copyinstr r d len ram dst s =
      let q := bytesIn (ram (frame (leaf s r (d / pgsize)))) (d - pgrounddown d) (chunk d len)
      if q.2 then .ok ((0, dst ++ q.1), s)
      else
        copyinstr r (uint64 (pgrounddown d + pgsize)) (len - chunk d len) ram (dst ++ q.1) s := by
  rw [copyinstr, if_pos hlen]
  simp only [bind, StateT.bind, walkaddr_eq, pgrounddown_div, Except.bind, if_neg hframe]
  rw [← chunk]
  split <;> rfl

/-- `copyinstr` goes on to the first NUL byte, but not past `max` bytes or the first page that
`walkaddr` refuses. -/
theorem copyinstr_spec (s : State) (r d max : ℕ) (ram : Ram) (dst : List UInt8) :
    ∃ w, UserBytes s r ram d w ∧ 0 ∉ w ∧
      (w.length < max ∧ userByte s r ram (d + w.length) = some 0 ∧
          copyinstr r d max ram dst s = .ok ((0, dst ++ w), s) ∨
        (w.length = max ∨ w.length < max ∧ userByte s r ram (d + w.length) = none) ∧
          copyinstr r d max ram dst s = .ok ((-1, dst ++ w), s)) := by
  induction max using Nat.strongRecOn generalizing d dst with
  | ind len ih =>
    rcases Nat.eq_zero_or_pos len with rfl | hlen
    · refine ⟨[], userBytes_nil, List.not_mem_nil, .inr ⟨.inl rfl, ?_⟩⟩
      rw [copyinstr_zero, List.append_nil]
    by_cases hframe : frame (leaf s r (d / pgsize)) = 0
    · refine ⟨[], userBytes_nil, List.not_mem_nil, .inr ⟨.inr ⟨hlen, if_pos hframe⟩, ?_⟩⟩
      rw [copyinstr_fail hlen hframe, List.append_nil]
    obtain ⟨e, he, -, -⟩ := frame_ne_zero hframe
    have hpos := chunk_pos (d := d) hlen
    have hle := chunk_le d len
    obtain ⟨q, hq⟩ : ∃ q, q = bytesIn (ram (frame (leaf s r (d / pgsize)))) (d - pgrounddown d)
      (chunk d len) := ⟨_, rfl⟩
    obtain ⟨hnul, hbytes, hend⟩ := bytesIn_spec (ram (frame (leaf s r (d / pgsize))))
      (d - pgrounddown d) (chunk d len)
    rw [copyinstr_next hlen hframe]
    dsimp only
    rw [← hq] at hnul hend ⊢
    have hqle : q.1.length ≤ chunk d len := by
      split_ifs at hend <;> omega
    have hfirst : UserBytes s r ram d q.1 := by
      intro i hi
      rw [userByte_chunk hframe (Nat.lt_of_lt_of_le hi hqle)]
      subst hq
      exact congrArg some (hbytes i hi)
    by_cases hfound : q.2 = true
    · rw [if_pos hfound] at hend ⊢
      refine ⟨q.1, hfirst, hnul, .inl ⟨by omega, ?_, rfl⟩⟩
      rw [userByte_chunk hframe hend.1, hend.2]
    rw [if_neg hfound] at hend ⊢
    by_cases hlast : chunk d len = len
    · refine ⟨q.1, hfirst, hnul, .inr ⟨.inl (hend.trans hlast), ?_⟩⟩
      rw [hlast, Nat.sub_self, copyinstr_zero]
    · have hmore : chunk d len < len := by omega
      rw [next_chunk he hmore, ← hend]
      obtain ⟨w, hw, hnulw, hrun⟩ := ih (len - q.1.length) (by omega) (d + q.1.length)
        (dst ++ q.1)
      have hnone : 0 ∉ q.1 ++ w := by
        rw [List.mem_append, not_or]
        exact ⟨hnul, hnulw⟩
      refine ⟨q.1 ++ w, hfirst.append hw, hnone, ?_⟩
      rw [← List.append_assoc, List.length_append, ← Nat.add_assoc]
      rcases hrun with ⟨hwlen, hzero, hrun⟩ | ⟨hstop, hrun⟩
      · exact .inl ⟨by omega, hzero, hrun⟩
      · refine .inr ⟨?_, hrun⟩
        rcases hstop with hwlen | ⟨hwlen, hstop⟩
        · exact .inl (by omega)
        · exact .inr ⟨by omega, hstop⟩

theorem UserBytes.left {v : List UInt8} (h : UserBytes s r ram d (v ++ w)) :
    UserBytes s r ram d v := by
  intro i hi
  rw [h i (by rw [List.length_append]; omega), List.getElem_append_left hi]

/-- Bytes other than NUL end before the first NUL byte. -/
theorem UserBytes.length_le (h : UserBytes s r ram d w) (hnul : 0 ∉ w) {k : ℕ}
    (hzero : userByte s r ram (d + k) = some 0) : w.length ≤ k := by
  by_contra hlt
  have hk : k < w.length := Nat.lt_of_not_le hlt
  have hval : w[k] = 0 := Option.some.inj ((h k hk).symm.trans hzero)
  exact hnul (hval ▸ List.getElem_mem hk)

/-- `copyinstr` succeeds exactly if the user memory holds a string that fits. -/
theorem copyinstr_iff (s : State) (r d max : ℕ) (ram : Ram) (w : List UInt8) :
    copyinstr r d max ram [] s = .ok ((0, w), s) ↔
      w.length < max ∧ 0 ∉ w ∧ UserBytes s r ram d (w ++ [0]) := by
  obtain ⟨v, hv, hnul, hrun⟩ := copyinstr_spec s r d max ram []
  rw [List.nil_append] at hrun
  constructor
  · intro hw
    rcases hrun with ⟨hlen, hzero, hrun⟩ | ⟨-, hrun⟩
    · cases hrun.symm.trans hw
      refine ⟨hlen, hnul, hv.append fun i hi => ?_⟩
      obtain rfl : i = 0 := Nat.lt_one_iff.mp hi
      exact hzero
    · cases hrun.symm.trans hw
  · rintro ⟨hlen, hnulw, hw⟩
    have hwzero : userByte s r ram (d + w.length) = some 0 := by
      rw [hw w.length (by simp)]
      simp
    have hvw : v.length ≤ w.length := hv.length_le hnul hwzero
    rcases hrun with ⟨-, hzero, hrun⟩ | ⟨hstop, -⟩
    · have hwv : w.length ≤ v.length := hw.left.length_le hnulw hzero
      rw [hrun, hv.eq hw.left (Nat.le_antisymm hvw hwv)]
    · rcases hstop with hmax | ⟨-, hnone⟩
      · omega
      · have hsome := hw v.length (by simp; omega)
        cases hnone.symm.trans hsome

/-- What `copyout` has written is what `copyin` reads. -/
theorem copyin_copyout {src : ℕ → UInt8} {ram' : Ram}
    (hout : copyout r d src len ram s = .ok ((0, ram'), s))
    (hapart : ∀ a b, InRange d len a → InRange d len b → target s r a = target s r b → a = b) :
    copyin r d len ram' [] s = .ok ((0, (List.range len).map src), s) := by
  obtain ⟨m, -, ram₁, hrun, haccepted, -, hcopied⟩ := copyout_spec s r d src len ram
  have hpair := Except.ok.inj (hrun.symm.trans hout)
  simp only [Prod.mk.injEq] at hpair
  obtain ⟨⟨hret, rfl⟩, -⟩ := hpair
  obtain rfl : m = len := by
    by_contra hne
    rw [if_neg hne] at hret
    cases hret
  have hbytes : ∀ i, i < m → userByte s r ram₁ (d + i) = some (src i) := by
    intro i hi
    have hin : InRange d m (d + i) := by
      unfold InRange
      omega
    have hframe := haccepted _ hin
    obtain ⟨e, he, -, hppn⟩ := frame_ne_zero hframe
    have htarget : target s r (d + i) = some (e.ppn, (d + i) % pgsize) := by
      rw [target, he]
      rfl
    obtain ⟨b, hb, hbt, hval⟩ := hcopied.written _ hin _ _ htarget
    obtain rfl := hapart b (d + i) hb hin (hbt.trans htarget.symm)
    rw [userByte, if_neg hframe, hppn, hval, Nat.add_sub_cancel_left]
  obtain ⟨w, hw, ⟨hlen, hcopyin⟩ | ⟨hlt, hnone, -⟩⟩ := copyin_spec s r d m ram₁ []
  · have hall : UserBytes s r ram₁ d ((List.range m).map src) := by
      intro i hi
      rw [List.length_map, List.length_range] at hi
      rw [hbytes i hi]
      simp
    rw [hcopyin, hw.eq hall (by simpa using hlen), List.nil_append]
  · cases hnone.symm.trans (hbytes _ hlt)

/-- A page table with pages of the user at addresses 0 and 4096. -/
def twoPageState : State :=
  { textState with
    mem := fun page i =>
      if page = 102 ∧ i < 2 then ⟨103 + i, true, { flags2perm 6 with r := true, u := true }⟩
      else textState.mem page i }

theorem leaf_twoPageState :
    leaf twoPageState 100 0 = some ⟨103, true, { flags2perm 6 with r := true, u := true }⟩ ∧
    leaf twoPageState 100 1 = some ⟨104, true, { flags2perm 6 with r := true, u := true }⟩ := by
  decide +kernel

/-- Six bytes from address 4093 on, three to each page. -/
theorem copyin_copyout_twoPages : ∃ ram',
    copyout 100 4093 (fun i => 65 + i.toUInt8) 6 (fun _ _ => 0) twoPageState =
      .ok ((0, ram'), twoPageState) ∧
    copyin 100 4093 6 ram' [] twoPageState =
      .ok ((0, [65, 66, 67, 68, 69, 70]), twoPageState) := by
  obtain ⟨m, ram', hout⟩ :=
    exists_outcome twoPageState 100 4093 6 (fun i => 65 + i.toUInt8) (fun _ _ => 0)
  obtain ⟨hzero, hone⟩ := leaf_twoPageState
  have hpage : ∀ a, InRange 4093 6 a → a / pgsize = 0 ∨ a / pgsize = 1 := by
    intro a ha
    unfold InRange at ha
    unfold pgsize
    omega
  have hm : m = 6 := by
    apply hout.eq_len
    intro a ha
    rcases hpage a ha with h | h
    · rw [h, hzero]
      decide
    · rw [h, hone]
      decide
  have hrun := hout.run
  rw [if_pos hm] at hrun
  refine ⟨ram', hrun, copyin_copyout hrun ?_⟩
  intro a b ha hb heq
  have hdiv : ∀ x, x = x / pgsize * pgsize + x % pgsize := fun x => (Nat.div_add_mod' x _).symm
  unfold target at heq
  rcases hpage a ha with h | h <;> rcases hpage b hb with h' | h' <;>
    rw [h, h'] at heq <;> simp [hzero, hone] at heq
  all_goals rw [hdiv a, hdiv b, h, h', heq]

end CS352.UserCopy
