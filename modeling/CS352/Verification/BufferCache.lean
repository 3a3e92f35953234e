import CS352.Library.Ring
import CS352.Library.Transition
import CS352.Model.BufferCache
import Mathlib.Algebra.GroupWithZero.Nat
import Mathlib.Data.List.Perm.Basic
import Mathlib.Data.List.Count

/-! # The buffer cache

The ring always holds every buffer once, a block has at most one buffer, and a buffer that is
held or pinned stays the buffer of its block. -/

namespace CS352.BufferCache

open Lanes Transition Function

variable {ι : Type*} {c c' : Cache ι} {b x : ℕ} {dev blockno : UInt32} {xs ys : List ℕ}
  {refs : List (Ref ι)} {pins : ℕ → ℕ}

/-! ## The ring -/

/-- The ring through `next` and `prev` contains the head and every buffer once. -/
def RingOk (c : Cache ι) : Prop :=
  ∃ xs : List ℕ, xs.Perm (List.range nbuf) ∧ Ring c.next c.prev head xs

@[simp] theorem pushFront_buf : (pushFront c b).buf = c.buf := rfl

theorem ring_pushFront (h : Ring c.next c.prev head xs) (hb : b ∉ head :: xs) :
    Ring (pushFront c b).next (pushFront c b).prev head (b :: xs) := by
  have hhead : head ≠ b := fun hb' => hb (by simp [hb'])
  have hring := h.cons hb
  simpa [pushFront, Cache.setNext, Cache.setPrev, hhead] using hring

theorem ring_unlink (h : Ring c.next c.prev head (xs ++ b :: ys)) :
    Ring (unlink c b).next (unlink c b).prev head (xs ++ ys) := by
  have hnext : b ≠ c.next b := h.next_ne.symm
  have hring := h.erase
  simpa [unlink, Cache.setNext, Cache.setPrev, hnext] using hring

/-- The move of `brelse`. -/
theorem RingOk.moveFront (h : RingOk c) (hb : b < nbuf) : RingOk (pushFront (unlink c b) b) := by
  obtain ⟨xs, hperm, hring⟩ := h
  have hmem : b ∈ xs := hperm.mem_iff.mpr (List.mem_range.mpr hb)
  obtain ⟨front, back, rfl⟩ := List.append_of_mem hmem
  have hnodup := hring.nodup
  refine ⟨b :: (front ++ back), ?_, ring_pushFront (ring_unlink hring) ?_⟩
  · exact List.perm_middle.symm.trans hperm
  · grind

/-- After `n` rounds of the loop of `binit` the ring has the first `n` buffers, the last one in
front. -/
theorem ring_binitLoop (hc : c.next head = head ∧ c.prev head = head) {n : ℕ} (hn : n ≤ nbuf) :
    let c' := (List.range n).foldl
      (fun c b => pushFront (c.setBuf b { c.buf b with lock := none }) b) c
    Ring c'.next c'.prev head (List.range n).reverse := by
  induction n with
  | zero => exact ⟨hc, by simp⟩
  | succ n ih =>
    dsimp only at ih ⊢
    rw [List.range_succ, List.foldl_concat, List.reverse_concat]
    apply ring_pushFront (ih (by omega))
    simp [head]
    omega

theorem ringOk_binit (c : Cache ι) : RingOk (binit c) := by
  have hempty : let c := (c.setPrev head head).setNext head head
      c.next head = head ∧ c.prev head = head := by
    simp [Cache.setNext, Cache.setPrev]
  exact ⟨(List.range nbuf).reverse, List.reverse_perm _,
    ring_binitLoop hempty (Nat.le_refl nbuf)⟩

/-- `binit` leaves the fields of zeroed buffers as they are. -/
theorem binit_zeroed_buf (next prev : ℕ → ℕ) :
    (binit (zeroed next prev : Cache ι)).buf = (zeroed next prev : Cache ι).buf := by
  have hloop : ∀ (xs : List ℕ) (c : Cache ι), c.buf = (zeroed next prev : Cache ι).buf →
      (xs.foldl (fun c b => pushFront (c.setBuf b { c.buf b with lock := none }) b) c).buf =
        (zeroed next prev : Cache ι).buf := by
    intro xs
    induction xs with
    | nil => exact fun c hc => hc
    | cons b xs ih =>
      intro c hc
      apply ih
      rw [pushFront_buf, Cache.setBuf, hc]
      exact update_eq_self b _
  exact hloop _ _ rfl

/-! ## The loops of `bget` -/

theorem scan_head {link : ℕ → ℕ} {test : ℕ → Bool} (fuel : ℕ) :
    scan link test fuel head = .missing := by
  cases fuel <;> simp [scan]

theorem scan_eq {link back : ℕ → ℕ} {test : ℕ → Bool} {a fuel : ℕ}
    (h : Linked link back a xs head) (hhead : head ∉ xs) (hfuel : xs.length ≤ fuel) :
    scan link test fuel (link a) = (xs.find? test).elim .missing .buf := by
  induction xs generalizing a fuel with
  | nil =>
    rw [h.1, scan_head]
    rfl
  | cons x xs ih =>
    obtain ⟨hx, -, hrest⟩ := h
    have hne : x ≠ head := fun hxh => hhead (by simp [hxh])
    obtain ⟨fuel, rfl⟩ : ∃ k, fuel = k + 1 := ⟨fuel - 1, by simp at hfuel; omega⟩
    rw [hx, scan, if_neg hne]
    cases htest : test x with
    | true => simp [htest]
    | false =>
      rw [if_neg (by simp), List.find?_cons_of_neg (by simp [htest])]
      exact ih hrest (fun hmem => hhead (by simp [hmem])) (by simpa using hfuel)

/-- The loop over the ring in one of its directions finds a buffer exactly if there is one. -/
theorem scan_ring {link back : ℕ → ℕ} (test : ℕ → Bool) (hring : Ring link back head xs)
    (hperm : xs.Perm (List.range nbuf)) :
    (∃ b < nbuf, test b = true ∧ scan link test nbuf (link head) = .buf b) ∨
      ((∀ b < nbuf, test b = false) ∧ scan link test nbuf (link head) = .missing) := by
  have hmem : ∀ b, b ∈ xs ↔ b < nbuf := fun b => by rw [hperm.mem_iff, List.mem_range]
  have hlen : xs.length ≤ nbuf := by simp [hperm.length_eq]
  rw [scan_eq hring.linked hring.head_notMem hlen]
  cases hfind : xs.find? test with
  | some b =>
    exact .inl ⟨b, (hmem b).mp (List.mem_of_find?_eq_some hfind), List.find?_some hfind, rfl⟩
  | none =>
    refine .inr ⟨?_, rfl⟩
    intro b hb
    simpa using List.find?_eq_none.mp hfind b ((hmem b).mpr hb)

/-- `bget` takes the buffer of the block if there is one, and else a buffer without
references. -/
inductive Gets (c : Cache ι) (dev blockno : UInt32) : Cache ι → ℕ → Prop where
  | hit (b : ℕ) (hb : b < nbuf) (hdev : (c.buf b).dev = dev)
      (hblock : (c.buf b).blockno = blockno) :
      Gets c dev blockno (c.setBuf b { c.buf b with refcnt := (c.buf b).refcnt + 1 }) b
  | recycle (b : ℕ) (hb : b < nbuf)
      (hmiss : ∀ x < nbuf, ¬ ((c.buf x).dev = dev ∧ (c.buf x).blockno = blockno))
      (hzero : (c.buf b).refcnt = 0) :
      Gets c dev blockno
        (c.setBuf b { c.buf b with dev := dev, blockno := blockno, valid := false, refcnt := 1 }) b

theorem RingOk.bget_cases (h : RingOk c) (dev blockno : UInt32) :
    (∃ c' b, bget c dev blockno = some (c', b) ∧ Gets c dev blockno c' b) ∨
      (bget c dev blockno = none ∧
        (∀ x < nbuf, ¬ ((c.buf x).dev = dev ∧ (c.buf x).blockno = blockno)) ∧
        ∀ x < nbuf, (c.buf x).refcnt ≠ 0) := by
  obtain ⟨xs, hperm, hring⟩ := h
  unfold bget
  rcases scan_ring (fun b => (c.buf b).dev = dev ∧ (c.buf b).blockno = blockno)
    hring hperm with ⟨b, hb, htest, hscan⟩ | ⟨hmiss, hscan⟩
  · obtain ⟨hdev, hblock⟩ := of_decide_eq_true htest
    refine .inl ⟨_, b, ?_, .hit b hb hdev hblock⟩
    simp only [hscan]
  · have hnone : ∀ x < nbuf, ¬ ((c.buf x).dev = dev ∧ (c.buf x).blockno = blockno) :=
      fun x hx => of_decide_eq_false (hmiss x hx)
    simp only [hscan]
    rcases scan_ring (fun b => (c.buf b).refcnt = 0) hring.reverse
      ((List.reverse_perm xs).trans hperm) with ⟨b, hb, htest, hscan⟩ | ⟨hbusy, hscan⟩
    · refine .inl ⟨_, b, ?_, .recycle b hb hnone (of_decide_eq_true htest)⟩
      simp only [hscan]
    · refine .inr ⟨?_, hnone, fun x hx => of_decide_eq_false (hbusy x hx)⟩
      simp only [hscan]

/-! ## References -/

/-- The number of processes that have the buffer from `bget`. -/
def holders (refs : List (Ref ι)) (b : ℕ) : ℕ := refs.countP (·.buf = b)

theorem holders_cons (r : Ref ι) :
    holders (r :: refs) b = holders refs b + if r.buf = b then 1 else 0 := by
  simp [holders, List.countP_cons]

theorem holders_perm {refs' : List (Ref ι)} (h : refs.Perm refs') :
    holders refs b = holders refs' b := h.countP_eq _

theorem holders_pos {r : Ref ι} (hr : r ∈ refs) : 0 < holders refs r.buf :=
  List.countP_pos_iff.mpr ⟨r, hr, by simp⟩

theorem toNat_succ {x : UInt32} (h : x.toNat + 1 < 2 ^ 32) : (x + 1).toNat = x.toNat + 1 := by
  rw [UInt32.toNat_add]
  exact Nat.mod_eq_of_lt h

theorem toNat_pred {x : UInt32} (h : 0 < x.toNat) : (x - 1).toNat = x.toNat - 1 := by
  have hle : (1 : UInt32) ≤ x := by
    rw [UInt32.le_iff_toNat_le]
    exact h
  exact UInt32.toNat_sub_of_le x 1 hle

/-- The representation invariant. -/
structure Inv (s : State ι) : Prop where
  ring : RingOk s.cache
  unique : ∀ x < nbuf, ∀ y < nbuf, (s.cache.buf x).dev ≠ 0 →
    (s.cache.buf x).dev = (s.cache.buf y).dev →
    (s.cache.buf x).blockno = (s.cache.buf y).blockno → x = y
  refcnt : ∀ x < nbuf, (s.cache.buf x).refcnt.toNat = holders s.refs x + s.pins x
  /-- A process has the buffer of the block that it asked for. -/
  named : ∀ r ∈ s.refs, r.buf < nbuf ∧ (s.cache.buf r.buf).dev = r.dev ∧
    (s.cache.buf r.buf).blockno = r.blockno
  lock : ∀ r ∈ s.refs, r.stage = .holding → (s.cache.buf r.buf).lock = some r.proc
  /-- No two processes are behind the lock of one buffer. -/
  exclusive : s.refs.Pairwise fun r r' =>
    r.stage = .holding → r'.stage = .holding → r.buf ≠ r'.buf

variable {s t : State ι}

/-- A change of a buffer that leaves its block alone. -/
theorem Inv.setBuf (h : Inv s) {buf : Buf ι} (hdev : buf.dev = (s.cache.buf b).dev)
    (hblock : buf.blockno = (s.cache.buf b).blockno)
    (hrefcnt : ∀ x < nbuf, ((s.cache.setBuf b buf).buf x).refcnt.toNat = holders refs x + pins x)
    (hnamed : ∀ r ∈ refs, r.buf < nbuf ∧ (s.cache.buf r.buf).dev = r.dev ∧
      (s.cache.buf r.buf).blockno = r.blockno)
    (hlock : ∀ r ∈ refs, r.stage = .holding → ((s.cache.setBuf b buf).buf r.buf).lock = some r.proc)
    (hexclusive : refs.Pairwise fun r r' =>
      r.stage = .holding → r'.stage = .holding → r.buf ≠ r'.buf) :
    Inv ⟨s.cache.setBuf b buf, refs, pins⟩ := by
  have hdevs : ∀ x, ((s.cache.setBuf b buf).buf x).dev = (s.cache.buf x).dev := by
    intro x
    by_cases hx : x = b
    · simp [Cache.setBuf, hx, hdev]
    · simp [Cache.setBuf, hx]
  have hblocks : ∀ x, ((s.cache.setBuf b buf).buf x).blockno = (s.cache.buf x).blockno := by
    intro x
    by_cases hx : x = b
    · simp [Cache.setBuf, hx, hblock]
    · simp [Cache.setBuf, hx]
  refine ⟨h.ring, ?_, hrefcnt, ?_, hlock, hexclusive⟩
  · intro x hx y hy
    rw [hdevs, hdevs, hblocks, hblocks]
    exact h.unique x hx y hy
  · intro r hr
    rw [hdevs, hblocks]
    exact hnamed r hr

/-- A change of a reference count. -/
theorem Inv.setRefcnt (h : Inv s) {refcnt : UInt32}
    (hrefcnt : refcnt.toNat = holders refs b + pins b)
    (hother : ∀ x < nbuf, x ≠ b → holders refs x + pins x = holders s.refs x + s.pins x)
    (hnamed : ∀ r ∈ refs, r.buf < nbuf ∧ (s.cache.buf r.buf).dev = r.dev ∧
      (s.cache.buf r.buf).blockno = r.blockno)
    (hlock : ∀ r ∈ refs, r.stage = .holding → (s.cache.buf r.buf).lock = some r.proc)
    (hexclusive : refs.Pairwise fun r r' =>
      r.stage = .holding → r'.stage = .holding → r.buf ≠ r'.buf) :
    Inv ⟨s.cache.setBuf b { s.cache.buf b with refcnt := refcnt }, refs, pins⟩ := by
  refine h.setBuf rfl rfl ?_ hnamed ?_ hexclusive
  · intro x hx
    by_cases hxb : x = b
    · subst x
      simpa [Cache.setBuf] using hrefcnt
    · simpa [Cache.setBuf, hxb, hother x hx hxb] using h.refcnt x hx
  · intro r hr hstage
    by_cases hrb : r.buf = b
    · simpa [Cache.setBuf, hrb] using hlock r hr hstage
    · simpa [Cache.setBuf, hrb] using hlock r hr hstage

theorem Inv.bpin (h : Inv s) (hb : b < nbuf) (hfits : holders s.refs b + s.pins b + 1 < 2 ^ 32) :
    Inv { s with
      cache := bpin s.cache b
      pins := update s.pins b (s.pins b + 1) } := by
  have hcount := h.refcnt b hb
  refine h.setRefcnt ?_ ?_ h.named h.lock h.exclusive
  · rw [toNat_succ (by omega), update_self]
    omega
  · intro x _ hxb
    rw [update_of_ne hxb]

theorem Inv.bunpin (h : Inv s) (hb : b < nbuf) (hpin : 0 < s.pins b) :
    Inv { s with
      cache := bunpin s.cache b
      pins := update s.pins b (s.pins b - 1) } := by
  have hcount := h.refcnt b hb
  refine h.setRefcnt ?_ ?_ h.named h.lock h.exclusive
  · rw [toNat_pred (by omega), update_self]
    omega
  · intro x _ hxb
    rw [update_of_ne hxb]

/-- A new reference is not behind the lock yet. -/
theorem pairwise_waiting {r : Ref ι} (hr : r.stage ≠ .holding)
    (h : refs.Pairwise fun r r' => r.stage = .holding → r'.stage = .holding → r.buf ≠ r'.buf) :
    (r :: refs).Pairwise fun r r' => r.stage = .holding → r'.stage = .holding → r.buf ≠ r'.buf :=
  List.pairwise_cons.mpr ⟨fun _ _ hstage => absurd hstage hr, h⟩

theorem Inv.hit (h : Inv s) (hb : b < nbuf) (hfits : holders s.refs b + s.pins b + 1 < 2 ^ 32)
    (p : ι) :
    Inv { s with
      cache := s.cache.setBuf b { s.cache.buf b with refcnt := (s.cache.buf b).refcnt + 1 }
      refs := ⟨p, b, (s.cache.buf b).dev, (s.cache.buf b).blockno, .waiting⟩ :: s.refs } := by
  have hcount := h.refcnt b hb
  refine h.setRefcnt ?_ ?_ ?_ ?_ (pairwise_waiting (by simp) h.exclusive)
  · rw [toNat_succ (by omega), holders_cons, if_pos rfl]
    omega
  · intro x _ hxb
    rw [holders_cons, if_neg (Ne.symm hxb), Nat.add_zero]
  · intro r hr
    rcases List.mem_cons.mp hr with rfl | hr
    · exact ⟨hb, rfl, rfl⟩
    · exact h.named r hr
  · intro r hr hstage
    rcases List.mem_cons.mp hr with rfl | hr
    · cases hstage
    · exact h.lock r hr hstage

/-- Nobody refers to the buffer that `bget` recycles, and no other buffer has the block. -/
theorem Inv.recycle (h : Inv s) (hb : b < nbuf)
    (hmiss : ∀ x < nbuf, ¬ ((s.cache.buf x).dev = dev ∧ (s.cache.buf x).blockno = blockno))
    (hzero : (s.cache.buf b).refcnt = 0) (p : ι) :
    Inv { s with
      cache := s.cache.setBuf b
        { s.cache.buf b with dev := dev, blockno := blockno, valid := false, refcnt := 1 }
      refs := ⟨p, b, dev, blockno, .waiting⟩ :: s.refs } := by
  have hcount := h.refcnt b hb
  rw [hzero, UInt32.toNat_zero] at hcount
  have hnone : ∀ r ∈ s.refs, r.buf ≠ b := by
    intro r hr hrb
    have hpos := holders_pos hr
    rw [hrb] at hpos
    omega
  refine ⟨h.ring, ?_, ?_, ?_, ?_, pairwise_waiting (by simp) h.exclusive⟩
  · intro x hx y hy
    by_cases hxb : x = b <;> by_cases hyb : y = b
    · intro _ _ _
      exact hxb.trans hyb.symm
    · intro _ hdev hblock
      simp only [Cache.setBuf, hxb, update_self, update_of_ne hyb] at hdev hblock
      exact absurd ⟨hdev.symm, hblock.symm⟩ (hmiss y hy)
    · intro _ hdev hblock
      simp only [Cache.setBuf, hyb, update_self, update_of_ne hxb] at hdev hblock
      exact absurd ⟨hdev, hblock⟩ (hmiss x hx)
    · simpa [Cache.setBuf, hxb, hyb] using h.unique x hx y hy
  · intro x hx
    rw [holders_cons]
    by_cases hxb : x = b
    · subst x
      simp [Cache.setBuf]
      omega
    · simpa [Cache.setBuf, hxb, Ne.symm hxb] using h.refcnt x hx
  · intro r hr
    rcases List.mem_cons.mp hr with rfl | hr
    · exact ⟨hb, by simp [Cache.setBuf]⟩
    · simpa [Cache.setBuf, hnone r hr] using h.named r hr
  · intro r hr hstage
    rcases List.mem_cons.mp hr with rfl | hr
    · cases hstage
    · simpa [Cache.setBuf, hnone r hr] using h.lock r hr hstage

section Steps

variable [DecidableEq ι] {r : Ref ι} {stage : Stage} {a : Action ι}

theorem holders_moveRef (hr : r ∈ s.refs) :
    holders (s.moveRef r stage).refs b = holders s.refs b := by
  rw [holders_perm (List.perm_cons_erase hr), State.moveRef, holders_cons, holders_cons]

/-- No other process is behind the lock of a buffer that a process holds. -/
theorem Inv.exclusive_erase (h : Inv s) (hr : r ∈ s.refs) :
    (∀ r' ∈ s.refs.erase r, r.stage = .holding → r'.stage = .holding → r.buf ≠ r'.buf) ∧
      (s.refs.erase r).Pairwise fun r r' =>
        r.stage = .holding → r'.stage = .holding → r.buf ≠ r'.buf := by
  have hpair := ((List.perm_cons_erase hr).pairwise_iff
    fun {x y} hxy hy hx => (hxy hx hy).symm).mp h.exclusive
  exact List.pairwise_cons.mp hpair

/-- A reference goes on to its next stage, and the lock of its buffer changes with it. -/
theorem Inv.moveRef (h : Inv s) (hr : r ∈ s.refs) {lock : Option ι}
    (hlock : stage = .holding → lock = some r.proc)
    (hothers : ∀ r' ∈ s.refs.erase r, r'.stage = .holding → r.buf ≠ r'.buf) :
    Inv { s.moveRef r stage with
      cache := s.cache.setBuf r.buf { s.cache.buf r.buf with lock := lock } } := by
  have hmem : ∀ r' ∈ s.refs.erase r, r' ∈ s.refs := fun r' => List.mem_of_mem_erase
  refine h.setBuf rfl rfl ?_ ?_ ?_ ?_
  · intro x hx
    change _ = holders (s.moveRef r stage).refs x + s.pins x
    rw [holders_moveRef hr, ← h.refcnt x hx]
    by_cases hxb : x = r.buf
    · simp [Cache.setBuf, hxb]
    · simp [Cache.setBuf, hxb]
  · intro r' hr'
    rcases List.mem_cons.mp hr' with rfl | hr'
    · exact h.named r hr
    · exact h.named r' (hmem r' hr')
  · intro r' hr' hstage
    rcases List.mem_cons.mp hr' with rfl | hr'
    · simpa [Cache.setBuf] using hlock hstage
    · have hne := hothers r' hr' hstage
      simpa [Cache.setBuf, Ne.symm hne] using h.lock r' (hmem r' hr') hstage
  · refine List.pairwise_cons.mpr ⟨?_, (h.exclusive_erase hr).2⟩
    intro r' hr' _ hstage
    exact hothers r' hr' hstage

theorem Inv.drop (h : Inv s) (hr : r ∈ s.refs) :
    Inv { s with
      cache := drop s.cache r.buf
      refs := s.refs.erase r } := by
  have hb := (h.named r hr).1
  have hcount : ∀ x,
      holders s.refs x = holders (s.refs.erase r) x + if r.buf = x then 1 else 0 := by
    intro x
    rw [holders_perm (List.perm_cons_erase hr), holders_cons]
  have hmem : ∀ r' ∈ s.refs.erase r, r' ∈ s.refs := fun r' => List.mem_of_mem_erase
  have hrefcnt := h.refcnt r.buf hb
  have hself := hcount r.buf
  rw [if_pos rfl] at hself
  have hless : Inv ⟨s.cache.setBuf r.buf
      { s.cache.buf r.buf with refcnt := (s.cache.buf r.buf).refcnt - 1 },
      s.refs.erase r, s.pins⟩ := by
    refine h.setRefcnt ?_ ?_ (fun r' hr' => h.named r' (hmem r' hr'))
      (fun r' hr' => h.lock r' (hmem r' hr')) (h.exclusive_erase hr).2
    · rw [toNat_pred (by omega)]
      omega
    · intro x _ hxb
      rw [hcount x, if_neg (Ne.symm hxb), Nat.add_zero]
  unfold BufferCache.drop
  dsimp only
  split
  · exact ⟨hless.ring.moveFront hb, hless.unique, hless.refcnt, hless.named, hless.lock,
      hless.exclusive⟩
  · exact hless

/-- The count of a buffer is not at its maximum when a reference is added to it. -/
def Fits (s : State ι) : Action ι → Prop
  | .bget _ dev blockno => ∀ b < nbuf, (s.cache.buf b).dev = dev →
      (s.cache.buf b).blockno = blockno → holders s.refs b + s.pins b + 1 < 2 ^ 32
  | .bpin b => holders s.refs b + s.pins b + 1 < 2 ^ 32
  | _ => True

instance (s : State ι) : ∀ a, Decidable (Fits s a)
  | .bget _ _ _ => inferInstanceAs (Decidable (∀ b < nbuf, _))
  | .bpin _ => inferInstanceAs (Decidable (_ < _))
  | .acquire _ | .brelse _ | .drop _ | .bunpin _ => inferInstanceAs (Decidable True)

theorem step_inv (h : Inv s) (hfits : Fits s a) (hstep : step s a = some t) : Inv t := by
  cases a with
  | bget p dev blockno =>
    obtain ⟨-, hget⟩ := Option.ite_none_right_eq_some.mp hstep
    obtain ⟨⟨c', b⟩, hbget, rfl⟩ := Option.map_eq_some_iff.mp hget
    rcases h.ring.bget_cases dev blockno with ⟨c'', b', hsome, hgets⟩ | ⟨hnone, -⟩
    · cases hsome.symm.trans hbget
      cases hgets with
      | hit b hb hdev hblock =>
        subst hdev hblock
        exact h.hit hb (hfits b hb rfl rfl) p
      | recycle b hb hmiss hzero => exact h.recycle hb hmiss hzero p
    · cases hnone.symm.trans hbget
  | acquire r =>
    obtain ⟨⟨hr, -, hfree⟩, ht⟩ := Option.ite_none_right_eq_some.mp hstep
    cases ht
    refine h.moveRef hr (fun _ => rfl) ?_
    intro r' hr' hstage hbuf
    have hlock := h.lock r' (List.mem_of_mem_erase hr') hstage
    rw [← hbuf, hfree] at hlock
    cases hlock
  | brelse r =>
    obtain ⟨⟨hr, hstage, -⟩, hrest⟩ := Option.ite_none_right_eq_some.mp hstep
    obtain ⟨-, ht⟩ := Option.ite_none_right_eq_some.mp hrest
    cases ht
    refine h.moveRef hr (by simp) ?_
    intro r' hr' hstage'
    exact (h.exclusive_erase hr).1 r' hr' hstage hstage'
  | drop r =>
    obtain ⟨⟨hr, -⟩, ht⟩ := Option.ite_none_right_eq_some.mp hstep
    cases ht
    exact h.drop hr
  | bpin b =>
    obtain ⟨hb, ht⟩ := Option.ite_none_right_eq_some.mp hstep
    cases ht
    exact h.bpin hb hfits
  | bunpin b =>
    obtain ⟨⟨hb, hpin⟩, ht⟩ := Option.ite_none_right_eq_some.mp hstep
    cases ht
    exact h.bunpin hb hpin

/-! ## Blocks of buffers -/

/-- Buffer `x` is the buffer of the same block in both caches. -/
def SameBlock (c c' : Cache ι) (x : ℕ) : Prop :=
  (c'.buf x).dev = (c.buf x).dev ∧ (c'.buf x).blockno = (c.buf x).blockno

omit [DecidableEq ι] in
theorem sameBlock_setBuf {buf : Buf ι} (hdev : buf.dev = (c.buf b).dev)
    (hblock : buf.blockno = (c.buf b).blockno) (x : ℕ) : SameBlock c (c.setBuf b buf) x := by
  by_cases hx : x = b
  · subst x
    simp [SameBlock, Cache.setBuf, hdev, hblock]
  · simp [SameBlock, Cache.setBuf, hx]

omit [DecidableEq ι] in
theorem sameBlock_drop (c : Cache ι) (b x : ℕ) : SameBlock c (drop c b) x := by
  unfold BufferCache.drop
  dsimp only
  split
  · refine sameBlock_setBuf ?_ ?_ x <;> rfl
  · refine sameBlock_setBuf ?_ ?_ x <;> rfl

/-- Only a buffer without references is given another block. -/
theorem step_sameBlock (h : RingOk s.cache) (hstep : step s a = some t)
    (hx : (s.cache.buf x).refcnt ≠ 0) : SameBlock s.cache t.cache x := by
  cases a with
  | bget p dev blockno =>
    obtain ⟨-, hget⟩ := Option.ite_none_right_eq_some.mp hstep
    obtain ⟨⟨c', b⟩, hbget, rfl⟩ := Option.map_eq_some_iff.mp hget
    rcases h.bget_cases dev blockno with ⟨c'', b', hsome, hgets⟩ | ⟨hnone, -⟩
    · cases hsome.symm.trans hbget
      cases hgets with
      | hit b hb hdev hblock => refine sameBlock_setBuf ?_ ?_ x <;> rfl
      | recycle b hb hmiss hzero =>
        have hxb : x ≠ b := fun hxb => hx (hxb ▸ hzero)
        simp [SameBlock, Cache.setBuf, hxb]
    · cases hnone.symm.trans hbget
  | acquire r | bpin b | bunpin b =>
    obtain ⟨-, ht⟩ := Option.ite_none_right_eq_some.mp hstep
    cases ht
    refine sameBlock_setBuf ?_ ?_ x <;> rfl
  | brelse r =>
    obtain ⟨-, hrest⟩ := Option.ite_none_right_eq_some.mp hstep
    obtain ⟨-, ht⟩ := Option.ite_none_right_eq_some.mp hrest
    cases ht
    refine sameBlock_setBuf ?_ ?_ x <;> rfl
  | drop r =>
    obtain ⟨-, ht⟩ := Option.ite_none_right_eq_some.mp hstep
    cases ht
    exact sameBlock_drop s.cache r.buf x

/-! ## Runs -/

omit [DecidableEq ι] in
theorem boot_buf (next prev : ℕ → ℕ) (x : ℕ) : (boot next prev : State ι).cache.buf x =
    { valid := false, dev := 0, blockno := 0, refcnt := 0, lock := none } :=
  congrFun (binit_zeroed_buf next prev) x

omit [DecidableEq ι] in
theorem boot_inv (next prev : ℕ → ℕ) : Inv (boot next prev : State ι) := by
  refine ⟨ringOk_binit _, ?_, ?_, by simp [boot], by simp [boot], by simp [boot]⟩
  · intro x _ y _ hdev
    simp [boot_buf] at hdev
  · intro x _
    rw [boot_buf]
    rfl

theorem reachWhere_inv {next prev : ℕ → ℕ} (h : ReachWhere step Fits (boot next prev) s) :
    Inv s := by
  apply h.invariant (I := Inv) (boot_inv next prev)
  intro u a v hu hfits hstep
  exact step_inv hu hfits hstep

/-- In every run in which no count of references overflows: the ring holds the head and every
buffer once; no block of a device other than 0 has two buffers; `refcnt` counts the processes
that have the buffer and the pins; a buffer that is counted keeps its block in the next step; a
process has a buffer of the block that it asked for; and no two processes work on one block. -/
theorem reachWhere_bufferCache {next prev : ℕ → ℕ}
    (h : ReachWhere step Fits (boot next prev) s) :
    (∃ xs : List ℕ, xs.Perm (List.range nbuf) ∧ Ring s.cache.next s.cache.prev head xs) ∧
    (∀ x < nbuf, ∀ y < nbuf, (s.cache.buf x).dev ≠ 0 →
      (s.cache.buf x).dev = (s.cache.buf y).dev →
      (s.cache.buf x).blockno = (s.cache.buf y).blockno → x = y) ∧
    (∀ x < nbuf, (s.cache.buf x).refcnt.toNat = holders s.refs x + s.pins x) ∧
    (∀ a t, step s a = some t → ∀ x < nbuf, 0 < (s.cache.buf x).refcnt.toNat →
      (t.cache.buf x).dev = (s.cache.buf x).dev ∧
        (t.cache.buf x).blockno = (s.cache.buf x).blockno) ∧
    (∀ r ∈ s.refs, (s.cache.buf r.buf).dev = r.dev ∧ (s.cache.buf r.buf).blockno = r.blockno) ∧
    s.refs.Pairwise fun r r' => r.stage = .holding → r'.stage = .holding → r.dev ≠ 0 →
      ¬ (r.dev = r'.dev ∧ r.blockno = r'.blockno) := by
  have hinv := reachWhere_inv h
  refine ⟨hinv.ring, hinv.unique, hinv.refcnt, ?_, fun r hr => (hinv.named r hr).2, ?_⟩
  · intro a t hstep x _ hpos
    apply step_sameBlock hinv.ring hstep
    intro hzero
    simp [hzero] at hpos
  · -- Two references to one block are to one buffer, which has one lock.
    refine hinv.exclusive.imp_of_mem ?_
    intro r r' hr hr' hbuf hstage hstage' hdev hblock
    obtain ⟨hrn, hrdev, hrblock⟩ := hinv.named r hr
    obtain ⟨hrn', hrdev', hrblock'⟩ := hinv.named r' hr'
    refine hbuf hstage hstage' (hinv.unique r.buf hrn r'.buf hrn' ?_ ?_ ?_)
    · rwa [hrdev]
    · rw [hrdev, hrdev', hblock.1]
    · rw [hrblock, hrblock', hblock.2]

/-- Pins are counted modulo `2 ^ 32`. -/
theorem reach_bpin_repeat {s₀ : State ι} (h : Reach step s₀ s) (hb : b < nbuf) (n : ℕ) :
    ∃ t, Reach step s₀ t ∧ t.refs = s.refs ∧ t.pins b = s.pins b + n ∧
      (t.cache.buf b).refcnt = (s.cache.buf b).refcnt + UInt32.ofNat n := by
  induction n with
  | zero => exact ⟨s, h, rfl, rfl, by simp⟩
  | succ n ih =>
    obtain ⟨t, hreach, hrefs, hpins, hrefcnt⟩ := ih
    have hstep : step t (.bpin b) = some
        { t with
          cache := bpin t.cache b
          pins := update t.pins b (t.pins b + 1) } := if_pos hb
    refine ⟨_, hreach.tail trivial hstep, hrefs, ?_, ?_⟩
    · simp only [update_self, hpins]
      omega
    · simp only [bpin, Cache.setBuf, update_self, hrefcnt]
      rw [UInt32.ofNat_add, UInt32.add_assoc]
      rfl

end Steps

/-- Process `true` reads a block, pins and releases it; process `false` gets the same buffer. -/
theorem reachWhere_bufferCache_pinned : ∃ s : State Bool,
    s.refs = [⟨false, 0, 1, 7, .waiting⟩] ∧ s.pins 0 = 1 ∧
      (s.cache.buf 0).refcnt.toNat = holders s.refs 0 + s.pins 0 := by
  have hview : (exec (fun s a => if Fits s a then step s a else none)
      (boot (fun _ => 0) (fun _ => 0) : State Bool)
      [.bget true 1 7, .acquire ⟨true, 0, 1, 7, .waiting⟩, .bpin 0,
        .brelse ⟨true, 0, 1, 7, .holding⟩, .drop ⟨true, 0, 1, 7, .releasing⟩,
        .bget false 1 7]).map (fun s => (s.refs, s.pins 0)) =
      some ([⟨false, 0, 1, 7, .waiting⟩], 1) := by decide +kernel
  obtain ⟨s, hs, hview⟩ := Option.map_eq_some_iff.mp hview
  obtain ⟨hrefs, hpins⟩ := Prod.mk.inj hview
  exact ⟨s, hrefs, hpins,
    (reachWhere_bufferCache (reachWhere_of_exec hs)).2.2.1 0 (by decide)⟩

/-- A process reads a block and pins it `2 ^ 32` times. -/
theorem bpin_wraps_refcnt : ∃ s : State Unit, Reach step (boot (fun _ => 0) (fun _ => 0)) s ∧
    holders s.refs 0 = 1 ∧ s.pins 0 = 2 ^ 32 ∧ (s.cache.buf 0).refcnt.toNat = 1 := by
  have hview : (exec step (boot (fun _ => 0) (fun _ => 0) : State Unit)
      [.bget () 1 7, .acquire ⟨(), 0, 1, 7, .waiting⟩]).map
        (fun s => (holders s.refs 0, s.pins 0, (s.cache.buf 0).refcnt)) = some (1, 0, 1) := by
    decide +kernel
  obtain ⟨s, hs, hview⟩ := Option.map_eq_some_iff.mp hview
  simp only [Prod.mk.injEq] at hview
  obtain ⟨hholders, hpins, hrefcnt⟩ := hview
  obtain ⟨t, ht, hrefs, htpins, htrefcnt⟩ :=
    reach_bpin_repeat (reach_of_exec hs) (by decide : 0 < nbuf) (2 ^ 32)
  refine ⟨t, ht, ?_, ?_, ?_⟩
  · rw [hrefs, hholders]
  · rw [htpins, hpins, Nat.zero_add]
  · rw [htrefcnt, hrefcnt]
    rfl

end CS352.BufferCache
