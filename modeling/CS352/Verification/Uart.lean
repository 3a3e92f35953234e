import CS352.Library.RingBuffer
import CS352.Library.Transition
import CS352.Model.Uart

/-! # Bytes on the way to the UART -/

namespace CS352.Uart

open RingBuffer Transition

variable {P : Type*} [DecidableEq P] {s t : State P} {u : Tx} {xs l : List UInt8} {c : UInt8}

/-! ## The buffer -/

def bufferedValues (bs : List Byte) : List UInt8 := (bs.filter Byte.buffered).map Byte.value

/-- The bytes of the buffer that the device has got. -/
def Tx.handed (u : Tx) : List UInt8 := bufferedValues (u.wire ++ u.thr.toList)

/-- The bytes between `uart_tx_r` and `uart_tx_w`. -/
def Tx.contents (u : Tx) : List UInt8 :=
  (List.range (uint64 (u.w + 2 ^ 64 - u.r))).map fun j => u.buf ((u.r + j) % txBufSize)

/-- The buffer holds `xs`, and `l` are the bytes that have been stored so far. -/
structure Holds (u : Tx) (l xs : List UInt8) : Prop where
  counts : Counts txBufSize (2 ^ 64) u.buf u.r u.w xs
  stored : l = u.handed ++ xs

theorem Holds.contents_eq (h : Holds u l xs) : u.contents = xs := by
  have hlength : uint64 (u.w + 2 ^ 64 - u.r) = xs.length := h.counts.length_eq
  rw [Tx.contents, hlength]
  exact h.counts.eq_map.symm

theorem handed_send (u : Tx) : u.send.handed = u.handed := by
  simp [Tx.handed, Tx.send]

theorem Holds.send (h : Holds u l xs) : Holds u.send l xs :=
  ⟨h.counts, by rw [handed_send]; exact h.stored⟩

/-- The loop hands the next byte to an idle device. -/
theorem Holds.next (h : Holds u l (c :: xs)) (hidle : u.thr = none) :
    Holds { u with r := uint64 (u.r + 1), thr := some ⟨u.buf (u.r % txBufSize), true⟩ } l xs := by
  obtain ⟨hcell, hcounts⟩ := h.counts.pop
  refine ⟨hcounts, ?_⟩
  rw [h.stored, hcell]
  simp [Tx.handed, bufferedValues, hidle]

theorem Holds.goes_on (h : Holds u l xs) (hgo : ¬ (u.w = u.r ∨ u.thr.isSome = true)) :
    u.thr = none ∧ ∃ c ys, xs = c :: ys := by
  rw [not_or] at hgo
  refine ⟨Option.not_isSome_iff_eq_none.mp hgo.2, List.exists_cons_of_ne_nil fun hnil => hgo.1 ?_⟩
  exact (h.counts.nread_eq_nwrite_iff.mpr hnil).symm

/-- The loop ends when the buffer is empty or the device is busy. -/
theorem Holds.ends (h : Holds u l xs) (hend : u.w = u.r ∨ u.thr.isSome = true) :
    xs = [] ∨ u.thr.isSome = true :=
  hend.imp_left fun heq => h.counts.nread_eq_nwrite_iff.mp heq.symm

theorem Holds.start (h : Holds u l xs) (quick : ℕ) :
    ∃ ys, Holds (uartstart quick u) l ys ∧ (ys = [] ∨ (uartstart quick u).thr.isSome = true) := by
  induction quick generalizing u xs with
  | zero =>
    rw [uartstart]
    by_cases hend : u.w = u.r ∨ u.thr.isSome = true
    · rw [if_pos hend]
      exact ⟨xs, h, h.ends hend⟩
    · rw [if_neg hend]
      obtain ⟨hidle, c, ys, rfl⟩ := h.goes_on hend
      exact ⟨ys, h.next hidle, .inr rfl⟩
  | succ quick ih =>
    rw [uartstart]
    by_cases hend : u.w = u.r ∨ u.thr.isSome = true
    · rw [if_pos hend]
      exact ⟨xs, h, h.ends hend⟩
    · rw [if_neg hend]
      obtain ⟨hidle, c, ys, rfl⟩ := h.goes_on hend
      exact ih (h.next hidle).send

theorem Holds.put (h : Holds u l xs) (hroom : u.w ≠ uint64 (u.r + txBufSize)) (c : UInt8)
    (quick : ℕ) : ∃ ys, Holds (put u c quick) (l ++ [c]) ys ∧
      (ys = [] ∨ (put u c quick).thr.isSome = true) := by
  have hlen : xs.length < txBufSize :=
    Nat.lt_of_le_of_ne h.counts.length_le fun hfull => hroom (h.counts.nwrite_eq_iff.mpr hfull)
  refine Holds.start ⟨h.counts.push hlen, ?_⟩ quick
  rw [h.stored, List.append_assoc]
  rfl

/-! ## Runs -/

/-- The buffer is empty, or the device is busy or has an interrupt for the hart. -/
def Inv (s : State P) : Prop :=
  ∃ xs, Holds s.tx s.stored xs ∧ (xs = [] ∨ s.tx.thr.isSome = true ∨ s.tx.pending = true)

omit [DecidableEq P] in
theorem inv_boot : Inv (boot : State P) :=
  ⟨[], ⟨counts_nil (by decide) (by decide) (Nat.two_pow_pos 64), rfl⟩, .inl rfl⟩

theorem inv_step {a : Action P} (h : Inv s) (hs : step s a = some t) : Inv t := by
  obtain ⟨xs, hxs, hstarted⟩ := h
  cases a with
  | call p c =>
    cases hp : s.waiting p with
    | some c' => simp [step, hp] at hs
    | none =>
      simp only [step, hp, Option.some.injEq] at hs
      subst hs
      exact ⟨xs, hxs, hstarted⟩
  | uartputc p quick =>
    cases hp : s.waiting p with
    | none => simp [step, hp] at hs
    | some c =>
      simp only [step, hp] at hs
      split_ifs at hs with hfull
      cases hs
      obtain ⟨ys, hys, hend⟩ := hxs.put hfull c quick
      exact ⟨ys, hys, hend.imp_right .inl⟩
  | uartputcSync c =>
    rw [step] at hs
    split_ifs at hs with hbusy
    cases hs
    have hidle : s.tx.thr = none := Option.not_isSome_iff_eq_none.mp hbusy
    refine ⟨xs, ⟨hxs.counts, ?_⟩, .inr (.inl rfl)⟩
    rw [hxs.stored]
    simp [Tx.handed, bufferedValues, hidle]
  | send =>
    rw [step] at hs
    split_ifs at hs with hbusy
    cases hs
    exact ⟨xs, hxs.send, .inr (.inr rfl)⟩
  | uartintr quick =>
    rw [step] at hs
    split_ifs at hs with hpending
    cases hs
    obtain ⟨ys, hys, hend⟩ := Holds.start (u := { s.tx with pending := false })
      ⟨hxs.counts, hxs.stored⟩ quick
    exact ⟨ys, hys, hend.imp_right .inl⟩
  | uartintrInput served quick =>
    cases hs
    obtain ⟨ys, hys, hend⟩ := Holds.start
      (u := { s.tx with pending := s.tx.pending && !served }) ⟨hxs.counts, hxs.stored⟩ quick
    exact ⟨ys, hys, hend.imp_right .inl⟩

/-- An interrupt of an idle device hands it the next byte. -/
theorem Holds.uartintr (h : Holds s.tx s.stored (c :: xs)) (hidle : s.tx.thr = none)
    (hpending : s.tx.pending = true) : ∃ v, step s (.uartintr 0) = some v ∧
      Holds v.tx v.stored xs ∧ v.tx.thr.isSome = true ∧ v.stored = s.stored := by
  have hgo : ¬ (s.tx.w = s.tx.r ∨ s.tx.thr.isSome = true) := by
    rintro (heq | hbusy)
    · cases h.counts.nread_eq_nwrite_iff.mp heq.symm
    · rw [hidle] at hbusy
      cases hbusy
  refine ⟨{ s with tx := uartstart 0 { s.tx with pending := false } }, if_pos hpending, ?_, ?_, rfl⟩
  · dsimp only
    rw [uartstart, if_neg hgo]
    exact Holds.next (u := { s.tx with pending := false }) ⟨h.counts, h.stored⟩ hidle
  · dsimp only
    rw [uartstart, if_neg hgo]
    rfl

/-- The device and its interrupts alone bring everything to the wire. -/
theorem Holds.drain (h : Holds s.tx s.stored xs)
    (hstarted : xs = [] ∨ s.tx.thr.isSome = true ∨ s.tx.pending = true) :
    ∃ as v, (∀ a ∈ as, a = .send ∨ a = .uartintr 0) ∧ exec step s as = some v ∧
      bufferedValues v.tx.wire = s.stored := by
  induction xs generalizing s with
  | nil =>
    have hall : s.stored = s.tx.handed := by simpa using h.stored
    cases hthr : s.tx.thr with
    | none =>
      refine ⟨[], s, by simp, rfl, ?_⟩
      simp [hall, Tx.handed, hthr]
    | some b =>
      refine ⟨[.send], { s with tx := s.tx.send }, by simp, by simp [exec, step, hthr], ?_⟩
      simp [hall, Tx.handed, Tx.send]
  | cons c xs ih =>
    -- From an idle device with an interrupt.
    have hidle {u : State P} (hu : Holds u.tx u.stored (c :: xs)) (hnone : u.tx.thr = none)
        (hpending : u.tx.pending = true) :
        ∃ as v, (∀ a ∈ as, a = .send ∨ a = .uartintr 0) ∧ exec step u as = some v ∧
          bufferedValues v.tx.wire = u.stored := by
      obtain ⟨u', hstep, hu', hbusy, hsame⟩ := hu.uartintr hnone hpending
      obtain ⟨as, v, has, hrun, hwire⟩ := ih hu' (.inr (.inl hbusy))
      refine ⟨.uartintr 0 :: as, v, List.forall_mem_cons.mpr ⟨.inr rfl, has⟩, ?_, ?_⟩
      · rw [exec, hstep]
        exact hrun
      · rw [hwire, hsame]
    cases hthr : s.tx.thr with
    | none =>
      rcases hstarted with hnil | hbusy | hpending
      · cases hnil
      · rw [hthr] at hbusy
        cases hbusy
      · exact hidle h hthr hpending
    | some b =>
      obtain ⟨as, v, has, hrun, hwire⟩ := hidle (u := { s with tx := s.tx.send }) h.send rfl rfl
      refine ⟨.send :: as, v, List.forall_mem_cons.mpr ⟨.inl rfl, has⟩, ?_, hwire⟩
      rw [exec, step, hthr]
      exact hrun

/-- In every state the bytes that `uartputc` has stored are those that the device has got,
followed by the contents of the buffer, and the device and the interrupts by which it says that it
is ready bring all of them to the wire in this order. -/
theorem reach_uart (h : Reach step (boot : State P) t) :
    (t.tx.contents.length ≤ txBufSize ∧ t.stored = t.tx.handed ++ t.tx.contents) ∧
    ∃ as v, (∀ a ∈ as, a = .send ∨ a = .uartintr 0) ∧ exec step t as = some v ∧
      bufferedValues v.tx.wire = t.stored := by
  obtain ⟨xs, hxs, hstarted⟩ : Inv t := h.invariant inv_boot fun _ _ _ hu _ => inv_step hu
  rw [hxs.contents_eq]
  exact ⟨⟨hxs.counts.length_le, hxs.stored⟩, hxs.drain hstarted⟩

/-- Two processes, of which one writes while the device is busy. -/
def printing : List (Action Bool) :=
  [.call true 65, .call false 66, .uartputc true 0, .uartputc false 0, .send, .uartputcSync 67,
    .uartintrInput true 0]

theorem reach_uart_printing : ∃ t as v, exec step boot printing = some t ∧
    t.stored = t.tx.handed ++ t.tx.contents ∧ t.tx.contents = [66] ∧
    exec step t as = some v ∧ bufferedValues v.tx.wire = [65, 66] := by
  have hall : (exec step boot printing).map (fun t => (t.stored, t.tx.contents)) =
      some ([65, 66], [66]) := by decide +kernel
  obtain ⟨t, ht, hview⟩ := Option.map_eq_some_iff.mp hall
  obtain ⟨hstored, hcontents⟩ := Prod.mk.inj hview
  obtain ⟨⟨-, hbytes⟩, as, v, -, hrun, hwire⟩ := reach_uart (reach_of_exec ht)
  exact ⟨t, as, v, ht, hbytes, hcontents, hrun, hwire.trans hstored⟩

end CS352.Uart
