import CS352.Library.Transition
import CS352.Model.FileLog
import Mathlib.Data.Finset.Card

/-! # Operations and commits

Who is between `begin_op` and `end_op`, and who commits. -/

namespace CS352.FileLog

open CS352.Transition Function

variable {sb : Superblock} {m m' : Machine} {log log' : Log} {lh : LogHeader} {s s' : Store}
  {inside : Finset ℕ} {p q b : ℕ} {data : Block}

/-! ## `log_write` -/

/-- The block is in the header. -/
def Logged (lh : LogHeader) (b : ℕ) : Prop := ∃ i < lh.n, lh.block i = b

theorem logSlot_of_logged (h : Logged lh b) :
    logSlot lh b < lh.n ∧ lh.block (logSlot lh b) = b := by
  obtain ⟨i, hi, hb⟩ := h
  cases hfind : (List.range lh.n).find? fun i => lh.block i = b with
  | none =>
    have hnot := List.find?_eq_none.mp hfind i (List.mem_range.mpr hi)
    simp [hb] at hnot
  | some j =>
    have hj := List.mem_range.mp (List.mem_of_find?_eq_some hfind)
    have hjb := List.find?_some hfind
    simp only [decide_eq_true_eq] at hjb
    simp only [logSlot, hfind, Option.getD_some]
    exact ⟨hj, hjb⟩

theorem logSlot_of_not_logged (h : ¬ Logged lh b) : logSlot lh b = lh.n := by
  have hfind : (List.range lh.n).find? (fun i => lh.block i = b) = none := by
    rw [List.find?_eq_none]
    intro i hi hb
    exact h ⟨i, List.mem_range.mp hi, by simpa using hb⟩
  simp [logSlot, hfind]

/-- The header with a new entry. -/
def LogHeader.push (lh : LogHeader) (b : ℕ) : LogHeader :=
  ⟨lh.n + 1, Function.update lh.block lh.n b⟩

theorem Logged.push (h : Logged lh q) : Logged (lh.push b) q := by
  obtain ⟨i, hi, hb⟩ := h
  exact ⟨i, Nat.lt_succ_of_lt hi, by simp [LogHeader.push, hi.ne, hb]⟩

theorem logged_push : Logged (lh.push b) b := ⟨lh.n, Nat.lt_succ_self _, by simp [LogHeader.push]⟩

/-- The tests of `log_write` pass. -/
def Fits (log : Log) : Prop :=
  log.lh.n < logSize ∧ log.lh.n < log.size - 1 ∧ 1 ≤ log.outstanding

/-- `log_write` returns when its tests pass: nothing changes for a block in the header, and
another block is added to it and pinned. -/
theorem logWrite_cases (s : Store) (log : Log) (b : ℕ) :
    (¬ Fits log ∧ ∃ e, e ≠ .logCommitting ∧ logWrite s log b = .error e) ∨
      (Fits log ∧ Logged log.lh b ∧ logWrite s log b = .ok (log, s)) ∨
      (Fits log ∧ ¬ Logged log.lh b ∧
        logWrite s log b = .ok ({ log with lh := log.lh.push b }, bpin s b)) := by
  by_cases hbig : log.lh.n ≥ logSize ∨ log.lh.n ≥ log.size - 1
  · left
    refine ⟨fun h => by have := h.1; have := h.2.1; omega, .tooBigATransaction, by simp, ?_⟩
    rw [logWrite, if_pos hbig]
  by_cases hout : log.outstanding < 1
  · left
    refine ⟨fun h => by have := h.2.2; omega, .logWriteOutsideOfTrans, by simp, ?_⟩
    rw [logWrite, if_neg hbig, if_pos hout]
  have hfits : Fits log := ⟨by omega, by omega, by omega⟩
  by_cases hb : Logged log.lh b
  · right; left
    obtain ⟨hslot, hblock⟩ := logSlot_of_logged hb
    have hkeep : Function.update log.lh.block (logSlot log.lh b) b = log.lh.block :=
      update_eq_self_iff.mpr hblock.symm
    refine ⟨hfits, hb, ?_⟩
    simp only [logWrite, if_neg hbig, if_neg hout, if_neg hslot.ne, hkeep]
  · right; right
    refine ⟨hfits, hb, ?_⟩
    simp only [logWrite, if_neg hbig, if_neg hout, logSlot_of_not_logged hb, LogHeader.push,
      if_true]

/-- What a write of an operation does: panic, write a block that is in the header, or add
the block to it. -/
theorem update_cases (m : Machine) (p b : ℕ) (data : Block) :
    (¬ Fits m.log ∧ ∃ e, e ≠ .logCommitting ∧ update m p b data =
      { m with store := m.store.setData b data, panicked := some e }) ∨
    (Fits m.log ∧ Logged m.log.lh b ∧ update m p b data =
      { m with store := m.store.setData b data, log := m.log,
               pending := m.pending ++ [(b, data)] }.moveTo p
        (.inside ((m.place p).blocks.insert b))) ∨
    (Fits m.log ∧ ¬ Logged m.log.lh b ∧ update m p b data =
      { m with store := bpin (m.store.setData b data) b,
               log := { m.log with lh := m.log.lh.push b },
               pending := m.pending ++ [(b, data)] }.moveTo p
        (.inside ((m.place p).blocks.insert b))) := by
  rcases logWrite_cases (m.store.setData b data) m.log b with
    ⟨hfits, e, he, heq⟩ | ⟨hfits, hb, heq⟩ | ⟨hfits, hb, heq⟩
  · exact .inl ⟨hfits, e, he, by simp only [update, heq]⟩
  · exact .inr (.inl ⟨hfits, hb, by simp only [update, heq]⟩)
  · exact .inr (.inr ⟨hfits, hb, by simp only [update, heq]⟩)

theorem beginOp_cases (m : Machine) (p : ℕ) :
    beginOp m p = m.moveTo p .asleep ∨
    (m.log.committing = false ∧
      (m.log.lh.n : ℤ) + (m.log.outstanding + 1) * maxOpBlocks ≤ logSize ∧
      beginOp m p =
        { m with log := { m.log with outstanding := m.log.outstanding + 1 } }.moveTo p
          (.inside [])) := by
  cases hc : m.log.committing with
  | true => exact .inl (by simp [beginOp, hc])
  | false =>
    by_cases hspace : (m.log.lh.n : ℤ) + (m.log.outstanding + 1) * maxOpBlocks > logSize
    · exact .inl (by simp [beginOp, hspace])
    · refine .inr ⟨rfl, by omega, ?_⟩
      simp only [beginOp, hc, Bool.false_eq_true, if_false, if_neg hspace]

/-! ## Turns -/

/-- The process is in `commit`, or in `end_op` after it. -/
def Place.inCommit : Place → Bool
  | .committing _ | .finishing => true
  | _ => false

/-- Operations under way are counted in `log.outstanding`, at most one process commits, and
it commits only while there are none. -/
structure Turns (m : Machine) (inside : Finset ℕ) : Prop where
  mem : ∀ p, p ∈ inside ↔ (m.place p).isInside = true
  outstanding : m.log.outstanding = inside.card
  committer : ∀ p, (m.place p).inCommit = true → m.log.committing = true
  unique : ∀ p q, (m.place p).inCommit = true → (m.place q).inCommit = true → p = q
  exclusive : m.log.committing = true → inside = ∅
  finished : ∀ p, m.place p = .finishing → m.log.lh.n = 0
  drained : inside = ∅ → m.log.committing = false → m.log.lh.n = 0

/-- A step after which everybody takes the same part as before. -/
theorem Turns.congr (h : Turns m inside) (hout : m'.log.outstanding = m.log.outstanding)
    (hcommitting : m'.log.committing = m.log.committing)
    (hn : m'.log.lh.n = m.log.lh.n ∨ m'.log.lh.n = 0)
    (hinside : ∀ q, (m'.place q).isInside = (m.place q).isInside)
    (hcommit : ∀ q, (m'.place q).inCommit = (m.place q).inCommit)
    (hfinish : ∀ q, m'.place q = .finishing → m.place q = .finishing ∨ m'.log.lh.n = 0) :
    Turns m' inside := by
  refine ⟨?_, hout.trans h.outstanding, ?_, ?_, ?_, ?_, ?_⟩
  · intro q
    rw [hinside, h.mem]
  · intro q hq
    rw [hcommitting]
    exact h.committer q (hcommit q ▸ hq)
  · intro q r hq hr
    exact h.unique q r (hcommit q ▸ hq) (hcommit r ▸ hr)
  · intro hc
    exact h.exclusive (hcommitting ▸ hc)
  · intro q hq
    rcases hfinish q hq with hold | hzero
    · have := h.finished q hold
      omega
    · exact hzero
  · intro hempty hc
    have := h.drained hempty (hcommitting ▸ hc)
    omega

theorem Turns.not_committing (h : Turns m inside) (hp : (m.place p).isInside = true) :
    m.log.committing = false := by
  by_contra hc
  have hmem := (h.mem p).mpr hp
  rw [h.exclusive (by simpa using hc)] at hmem
  simp at hmem

/-- While an operation is under way nobody commits. -/
theorem Turns.no_committer (h : Turns m inside) (hc : m.log.committing = false) (q : ℕ) :
    (m.place q).inCommit = false := by
  by_contra hq
  have := h.committer q (by simpa using hq)
  simp [hc] at this

section Fields

variable (m : Machine) (s : Store) (p : ℕ) (place : Place)

@[simp] theorem moveTo_log : (m.moveTo p place).log = m.log := rfl
@[simp] theorem moveTo_place : (m.moveTo p place).place = Function.update m.place p place := rfl
@[simp] theorem moveTo_recovery : (m.moveTo p place).recovery = m.recovery := rfl
@[simp] theorem moveTo_panicked : (m.moveTo p place).panicked = m.panicked := rfl
@[simp] theorem moveTo_pending : (m.moveTo p place).pending = m.pending := rfl
@[simp] theorem moveTo_committed : (m.moveTo p place).committed = m.committed := rfl
@[simp] theorem setStore_log : (m.setStore s).log = m.log := rfl
@[simp] theorem setStore_recovery : (m.setStore s).recovery = m.recovery := rfl
@[simp] theorem setStore_panicked : (m.setStore s).panicked = m.panicked := rfl
@[simp] theorem wakeup_recovery : m.wakeup.recovery = m.recovery := rfl
@[simp] theorem wakeup_panicked : m.wakeup.panicked = m.panicked := rfl
@[simp] theorem wakeup_committed : m.wakeup.committed = m.committed := rfl

end Fields

/-- `wakeup` keeps what is the same for those asleep and those woken. -/
theorem wakeup_apply {α : Type*} (f : Place → α) (hf : f .woken = f .asleep) (m : Machine) (q : ℕ) :
    f (m.wakeup.place q) = f (m.place q) := by
  by_cases hq : m.place q = .asleep
  · rw [show m.wakeup.place q = .woken from if_pos hq, hq, hf]
  · rw [show m.wakeup.place q = m.place q from if_neg hq]

@[simp] theorem wakeup_isInside (m : Machine) (q : ℕ) :
    (m.wakeup.place q).isInside = (m.place q).isInside := wakeup_apply _ rfl m q

@[simp] theorem wakeup_inCommit (m : Machine) (q : ℕ) :
    (m.wakeup.place q).inCommit = (m.place q).inCommit := wakeup_apply _ rfl m q

@[simp] theorem wakeup_blocks (m : Machine) (q : ℕ) :
    (m.wakeup.place q).blocks = (m.place q).blocks := wakeup_apply _ rfl m q

theorem turns_of_no_committer (hmem : ∀ p, p ∈ inside ↔ (m.place p).isInside = true)
    (hout : m.log.outstanding = inside.card) (hc : m.log.committing = false)
    (hnone : ∀ p, (m.place p).inCommit = false) (hdrained : inside = ∅ → m.log.lh.n = 0) :
    Turns m inside := by
  refine ⟨hmem, hout, ?_, ?_, ?_, ?_, fun hempty _ => hdrained hempty⟩
  · intro q hq
    simp [hnone] at hq
  · intro q r hq
    simp [hnone] at hq
  · intro htrue
    simp [hc] at htrue
  · intro q hq
    have := hnone q
    simp [hq, Place.inCommit] at this

/-- One process goes on to a place outside `commit`, and nobody else is in `commit`. -/
theorem turns_moveTo {place : Place} (hself : p ∈ inside ↔ place.isInside = true)
    (hmem : ∀ q, q ≠ p → (q ∈ inside ↔ (m.place q).isInside = true))
    (hout : m.log.outstanding = inside.card) (hc : m.log.committing = false)
    (hplace : place.inCommit = false) (hnone : ∀ q, q ≠ p → (m.place q).inCommit = false)
    (hdrained : inside = ∅ → m.log.lh.n = 0) : Turns (m.moveTo p place) inside := by
  refine turns_of_no_committer (fun q => ?_) hout hc (fun q => ?_) hdrained
  · by_cases hq : q = p
    · simpa [hq] using hself
    · simpa [hq] using hmem q hq
  · by_cases hq : q = p
    · simpa [hq] using hplace
    · simpa [hq] using hnone q hq

/-! ### One lemma for each call -/

theorem Turns.setStore (h : Turns m inside) : Turns (m.setStore s) inside :=
  ⟨h.mem, h.outstanding, h.committer, h.unique, h.exclusive, h.finished, h.drained⟩

/-- The process goes on to a place at which it takes the same part. -/
theorem Turns.moveTo {place : Place} (h : Turns m inside)
    (hinside : place.isInside = (m.place p).isInside)
    (hcommit : place.inCommit = (m.place p).inCommit)
    (hfinish : place = .finishing → m.log.lh.n = 0) : Turns (m.moveTo p place) inside := by
  refine h.congr rfl rfl (.inl rfl) ?_ ?_ ?_
  · intro q
    by_cases hq : q = p
    · simp [hq, hinside]
    · simp [hq]
  · intro q
    by_cases hq : q = p
    · simp [hq, hcommit]
    · simp [hq]
  · intro q hfin
    by_cases hq : q = p
    · simp only [moveTo_place, hq, update_self] at hfin
      exact .inr (hfinish hfin)
    · simp only [moveTo_place, update_of_ne hq] at hfin
      exact .inl hfin

theorem Turns.enter (h : Turns m inside) (hc : m.log.committing = false)
    (hp : (m.place p).isInside = false) :
    Turns ({ m with log := { m.log with outstanding := m.log.outstanding + 1 } }.moveTo p
      (.inside [])) (insert p inside) := by
  have hmem : p ∉ inside := by simp [h.mem, hp]
  refine turns_moveTo (by simp [Place.isInside]) (fun q hq => by simp [hq, h.mem]) ?_ hc rfl
    (fun q _ => h.no_committer hc q) (by simp)
  simp [Finset.card_insert_of_notMem hmem, h.outstanding]

/-- The last operation ends, and its process goes on to `commit`. -/
theorem Turns.last (h : Turns m inside) (hp : (m.place p).isInside = true)
    (hlast : m.log.outstanding - 1 = 0) :
    Turns ({ m with log := { m.log with outstanding := m.log.outstanding - 1,
                                         committing := true } }.moveTo p (.committing .enter))
      (inside.erase p) := by
  have hnone := h.no_committer (h.not_committing hp)
  have hempty : inside.erase p = ∅ := by
    rw [← Finset.card_eq_zero, Finset.card_erase_of_mem ((h.mem p).mpr hp)]
    have := h.outstanding
    omega
  have hself : ∀ q, (Function.update m.place p (.committing .enter) q).inCommit = true →
      q = p := by
    intro q hq
    by_contra hqp
    rw [update_of_ne hqp, hnone] at hq
    cases hq
  refine ⟨?_, ?_, fun _ _ => rfl, ?_, fun _ => hempty, ?_, ?_⟩
  · intro q
    by_cases hq : q = p
    · simp [hq, Place.isInside]
    · simp [hq, h.mem]
  · rw [hempty]
    exact hlast
  · intro q r hq hr
    rw [hself q hq, hself r hr]
  · intro q hq
    by_cases hqp : q = p
    · simp [hqp] at hq
    · simp only [moveTo_place, update_of_ne hqp] at hq
      exact h.finished q hq
  · intro _ hfalse
    cases hfalse

/-- An operation ends while there are others. -/
theorem Turns.leave (h : Turns m inside) (hp : (m.place p).isInside = true)
    (hmore : m.log.outstanding - 1 ≠ 0) :
    Turns ({ m with log := { m.log with outstanding := m.log.outstanding - 1 } }.wakeup.moveTo p
      .out) (inside.erase p) := by
  have hc := h.not_committing hp
  have hmem := (h.mem p).mpr hp
  have hcard : ((inside.erase p).card : ℤ) = m.log.outstanding - 1 := by
    have hpos : 0 < inside.card := Finset.card_pos.mpr ⟨p, hmem⟩
    rw [Finset.card_erase_of_mem hmem, h.outstanding]
    omega
  refine turns_moveTo (by simp [Place.isInside]) (fun q hq => ?_) hcard.symm hc rfl
    (fun q _ => ?_) ?_
  · rw [wakeup_isInside, Finset.mem_erase]
    simp [hq, h.mem]
  · rw [wakeup_inCommit]
    exact h.no_committer hc q
  · intro hempty
    rw [hempty] at hcard
    simp only [Finset.card_empty] at hcard
    omega

/-- What `end_op` is for an operation. -/
theorem endOp_cases (hc : m.log.committing = false) :
    (m.log.outstanding - 1 = 0 ∧ endOp m p =
      { m with log := { m.log with outstanding := m.log.outstanding - 1,
                                   committing := true } }.moveTo p (.committing .enter)) ∨
    (m.log.outstanding - 1 ≠ 0 ∧ endOp m p =
      { m with log := { m.log with outstanding := m.log.outstanding - 1 } }.wakeup.moveTo p
        .out) := by
  by_cases hlast : m.log.outstanding - 1 = 0
  · exact .inl ⟨hlast, by simp [endOp, hc, hlast]⟩
  · exact .inr ⟨hlast, by simp [endOp, hc, hlast]⟩

theorem Turns.endOp (h : Turns m inside) (hp : (m.place p).isInside = true) :
    Turns (endOp m p) (inside.erase p) := by
  rcases endOp_cases (p := p) (h.not_committing hp) with ⟨hlast, heq⟩ | ⟨hmore, heq⟩
  · rw [heq]
    exact h.last hp hlast
  · rw [heq]
    exact h.leave hp hmore

/-- `log_write` of an operation. -/
theorem Turns.logWrite {blocks : List ℕ} {pending : List (ℕ × Block)} (h : Turns m inside)
    (hp : (m.place p).isInside = true) (hout : log.outstanding = m.log.outstanding)
    (hcommitting : log.committing = m.log.committing) :
    Turns ({ m with store := s, log := log, pending := pending }.moveTo p (.inside blocks))
      inside := by
  have hc := h.not_committing hp
  have hmem := (h.mem p).mpr hp
  refine turns_moveTo (iff_of_true hmem rfl) (fun q _ => h.mem q) (hout.trans h.outstanding)
    (hcommitting.trans hc) rfl (fun q _ => h.no_committer hc q) ?_
  intro hempty
  simp [hempty] at hmem

theorem Turns.commit {stage : Stage} (h : Turns m inside) (hp : m.place p = .committing stage)
    (hs : commit m p stage = some m') : Turns m' inside := by
  have hin : (m.place p).isInside = false := by simp [hp, Place.isInside]
  have hcommit : (m.place p).inCommit = true := by simp [hp, Place.inCommit]
  have hnext : ∀ (m₁ : Machine) (next : Stage), m₁.log = m.log → m₁.place = m.place →
      Turns (m₁.moveTo p (.committing next)) inside := by
    intro m₁ next hlog hplace
    have h₁ : Turns m₁ inside :=
      h.congr (by rw [hlog]) (by rw [hlog]) (by rw [hlog]; exact .inl rfl) (by simp [hplace])
        (by simp [hplace]) fun q hq => .inl (hplace ▸ hq)
    rw [← hplace] at hin hcommit
    exact h₁.moveTo hin.symm hcommit.symm (by simp)
  cases stage with
  | enter =>
    simp only [FileLog.commit] at hs
    split at hs
    · cases hs
      exact hnext m _ rfl rfl
    · rename_i hzero
      cases hs
      refine h.moveTo hin.symm hcommit.symm ?_
      intro _
      omega
  | writeLog tail | installTrans tail =>
    simp only [FileLog.commit] at hs
    split at hs
    · obtain ⟨-, hs⟩ := Option.ite_none_right_eq_some.mp hs
      cases hs
      exact hnext (m.setStore _) _ rfl rfl
    · cases hs
      exact hnext m _ rfl rfl
  | writeHead =>
    obtain ⟨-, hs⟩ := Option.ite_none_right_eq_some.mp hs
    cases hs
    exact hnext { m with store := _, committed := _, pending := _ } _ rfl rfl
  | clear =>
    obtain ⟨-, hs⟩ := Option.ite_none_right_eq_some.mp hs
    cases hs
    have h₁ : Turns { m with
        store := FileLog.writeHead m.store { m.log with lh := { m.log.lh with n := 0 } } p
        log := { m.log with lh := { m.log.lh with n := 0 } } } inside :=
      h.congr rfl rfl (.inr rfl) (fun _ => rfl) (fun _ => rfl) fun _ hq => .inl hq
    exact h₁.moveTo hin.symm hcommit.symm fun _ => rfl

theorem Turns.afterCommit (h : Turns m inside) (hp : m.place p = .finishing) :
    Turns (afterCommit m p) inside := by
  have hin : (m.place p).inCommit = true := by simp [hp, Place.inCommit]
  have hzero := h.finished p hp
  have hempty := h.exclusive (h.committer p hin)
  refine turns_moveTo (by simp [hempty, Place.isInside]) (fun q _ => ?_) h.outstanding rfl rfl
    (fun q hq => ?_) fun _ => hzero
  · rw [wakeup_isInside]
    exact h.mem q
  · rw [wakeup_inCommit]
    by_contra hcommit
    exact hq (h.unique q p (by simpa using hcommit) hin)

/-! ## Runs -/

/-- Before recovery has completed there are no operations. -/
structure Booting (m : Machine) : Prop where
  out : ∀ p, m.place p = .out
  outstanding : m.log.outstanding = 0
  committing : m.log.committing = false

/-- The first operations find an empty log. -/
theorem Booting.turns (h : Booting m) (hn : m.log.lh.n = 0) : Turns m ∅ :=
  turns_of_no_committer (by simp [h.out, Place.isInside]) (by simp [h.outstanding]) h.committing
    (by simp [h.out, Place.inCommit]) fun _ => hn

theorem recoverFromLog_frame (hs : recoverFromLog m p = some m') :
    m'.log.start = m.log.start ∧ m'.log.size = m.log.size ∧
      m'.log.outstanding = m.log.outstanding ∧ m'.log.committing = m.log.committing ∧
      m'.place = m.place ∧ m'.panicked = m.panicked ∧
      (m'.recovery = .done → m'.log.lh.n = 0) := by
  cases hrec : m.recovery with
  | readHead | clear =>
    simp only [recoverFromLog, hrec] at hs
    cases hs
    simp
  | installTrans tail =>
    simp only [recoverFromLog, hrec] at hs
    split at hs <;> cases hs <;> simp
  | done => simp [recoverFromLog, hrec] at hs

/-- The log is where `initlog` has set it. -/
structure Located (sb : Superblock) (m : Machine) : Prop where
  start : m.log.start = sb.logstart
  size : m.log.size = sb.nlog

theorem commit_frame {stage : Stage} (hs : commit m p stage = some m') :
    m'.log.start = m.log.start ∧ m'.log.size = m.log.size ∧ m'.log.lh.n ≤ m.log.lh.n ∧
      m'.panicked = m.panicked ∧ m'.recovery = m.recovery := by
  cases stage with
  | enter =>
    simp only [commit] at hs
    split at hs <;> cases hs <;> simp
  | writeLog tail | installTrans tail =>
    simp only [commit] at hs
    split at hs
    · obtain ⟨-, hs⟩ := Option.ite_none_right_eq_some.mp hs
      cases hs
      simp
    · cases hs
      simp
  | writeHead | clear =>
    obtain ⟨-, hs⟩ := Option.ite_none_right_eq_some.mp hs
    cases hs
    simp

theorem Located.step {a : Action} (h : Located sb m) (hs : step sb m a = some m') :
    Located sb m' := by
  cases a with
  | crash =>
    cases hs
    exact ⟨rfl, rfl⟩
  | recover p =>
    obtain ⟨-, hs⟩ := Option.ite_none_right_eq_some.mp hs
    obtain ⟨hstart, hsize, -⟩ := recoverFromLog_frame hs
    exact ⟨hstart.trans h.start, hsize.trans h.size⟩
  | beginOp p =>
    obtain ⟨-, hs⟩ := Option.ite_none_right_eq_some.mp hs
    cases hs
    rcases beginOp_cases m p with heq | ⟨-, -, heq⟩
    · rw [heq]
      exact ⟨h.start, h.size⟩
    · rw [heq]
      exact ⟨h.start, h.size⟩
  | update p b data =>
    obtain ⟨-, hs⟩ := Option.ite_none_right_eq_some.mp hs
    cases hs
    rcases update_cases m p b data with ⟨-, e, -, heq⟩ | ⟨-, -, heq⟩ | ⟨-, -, heq⟩
    all_goals rw [heq]; exact ⟨h.start, h.size⟩
  | endOp p =>
    obtain ⟨-, hs⟩ := Option.ite_none_right_eq_some.mp hs
    cases hs
    simp only [endOp]
    repeat' split
    all_goals exact ⟨h.start, h.size⟩
  | commit p =>
    simp only [FileLog.step] at hs
    split at hs
    · obtain ⟨-, hs⟩ := Option.ite_none_right_eq_some.mp hs
      obtain ⟨hstart, hsize, -⟩ := commit_frame hs
      exact ⟨hstart.trans h.start, hsize.trans h.size⟩
    · cases hs
  | wake p | bread p b | brelse p b | recycle b | afterCommit p =>
    obtain ⟨-, hs⟩ := Option.ite_none_right_eq_some.mp hs
    cases hs
    exact ⟨h.start, h.size⟩

theorem endOp_frame (hc : m.log.committing = false) :
    (endOp m p).panicked = m.panicked ∧ (endOp m p).recovery = m.recovery ∧
      (endOp m p).committed = m.committed := by
  rcases endOp_cases (p := p) hc with ⟨-, heq⟩ | ⟨-, heq⟩ <;> simp [heq]

/-- What holds of operations and commits in every state of every run. -/
inductive Orderly (m : Machine) : Prop where
  | stopped (e : Panic) (hp : m.panicked = some e) (he : e ≠ .logCommitting)
  | booting (hp : m.panicked = none) (hrec : m.recovery ≠ .done) (h : Booting m)
  | running (hlive : m.Live) (inside : Finset ℕ) (h : Turns m inside)

theorem Orderly.of_live (h : Orderly m) (hlive : m.Live) : ∃ inside, Turns m inside := by
  cases h with
  | stopped e hp =>
    rw [hlive.1] at hp
    cases hp
  | booting _ hrec => exact absurd hlive.2 hrec
  | running _ inside h => exact ⟨inside, h⟩

theorem Orderly.of_recovering (h : Orderly m) (hp : m.panicked = none)
    (hrec : m.recovery ≠ .done) : Booting m := by
  cases h with
  | stopped e hp' =>
    rw [hp] at hp'
    cases hp'
  | booting _ _ h => exact h
  | running hlive => exact absurd hlive.2 hrec

theorem orderly_boot (sb : Superblock) (disk : ℕ → Block) (committed : List (List (ℕ × Block))) :
    Orderly { boot sb disk with committed := committed } :=
  .booting rfl (by simp [boot]) ⟨fun _ => rfl, rfl, rfl⟩

theorem Booting.recover (h : Booting m) (hp : m.panicked = none)
    (hs : recoverFromLog m p = some m') :
    m'.panicked = none ∧ Booting m' ∧ (m'.recovery = .done → m'.log.lh.n = 0) := by
  obtain ⟨-, -, hout, hcommitting, hplace, hpanicked, hdone⟩ := recoverFromLog_frame hs
  refine ⟨hpanicked.trans hp, ⟨?_, hout.trans h.outstanding, ?_⟩, hdone⟩
  · intro q
    rw [hplace, h.out]
  · exact hcommitting.trans h.committing

theorem Orderly.recover (h : Orderly m) (hp : m.panicked = none)
    (hs : recoverFromLog m p = some m') : Orderly m' := by
  have hrec : m.recovery ≠ .done := by
    intro hdone
    simp [recoverFromLog, hdone] at hs
  obtain ⟨hp', h', hzero⟩ := (h.of_recovering hp hrec).recover hp hs
  by_cases hdone : m'.recovery = .done
  · exact .running ⟨hp', hdone⟩ ∅ (h'.turns (hzero hdone))
  · exact .booting hp' hdone h'

theorem Turns.update (h : Turns m inside) (hlive : m.Live)
    (hp : (m.place p).isInside = true) : Orderly (update m p b data) := by
  rcases update_cases m p b data with ⟨-, e, he, heq⟩ | ⟨-, -, heq⟩ | ⟨-, -, heq⟩
  · rw [heq]
    exact .stopped e rfl he
  · rw [heq]
    exact .running hlive inside (h.logWrite hp rfl rfl)
  · rw [heq]
    exact .running hlive inside (h.logWrite hp rfl rfl)

theorem Orderly.step {a : Action} (h : Orderly m) (hs : step sb m a = some m') :
    Orderly m' := by
  cases a with
  | crash =>
    cases hs
    exact orderly_boot ..
  | recover p =>
    obtain ⟨hp, hs⟩ := Option.ite_none_right_eq_some.mp hs
    exact h.recover hp hs
  | beginOp p =>
    obtain ⟨⟨hlive, hp⟩, hs⟩ := Option.ite_none_right_eq_some.mp hs
    cases hs
    obtain ⟨inside, ht⟩ := h.of_live hlive
    have hout : (m.place p).isInside = false ∧ (m.place p).inCommit = false := by
      rcases hp with hp | hp <;> simp [hp, Place.isInside, Place.inCommit]
    rcases beginOp_cases m p with heq | ⟨hc, -, heq⟩
    · rw [heq]
      exact .running hlive inside (ht.moveTo hout.1.symm hout.2.symm (by simp))
    · rw [heq]
      exact .running hlive _ (ht.enter hc hout.1)
  | wake p =>
    obtain ⟨⟨hlive, hp⟩, hs⟩ := Option.ite_none_right_eq_some.mp hs
    cases hs
    obtain ⟨inside, ht⟩ := h.of_live hlive
    exact .running hlive inside
      (ht.moveTo (by simp [hp, Place.isInside]) (by simp [hp, Place.inCommit]) (by simp))
  | update p b data =>
    obtain ⟨⟨hlive, hp, -⟩, hs⟩ := Option.ite_none_right_eq_some.mp hs
    cases hs
    obtain ⟨inside, ht⟩ := h.of_live hlive
    exact ht.update hlive hp
  | endOp p =>
    obtain ⟨⟨hlive, hp⟩, hs⟩ := Option.ite_none_right_eq_some.mp hs
    cases hs
    obtain ⟨inside, ht⟩ := h.of_live hlive
    obtain ⟨hpanicked, hrec, -⟩ := endOp_frame (p := p) (ht.not_committing hp)
    exact .running ⟨hpanicked.trans hlive.1, hrec.trans hlive.2⟩ _ (ht.endOp hp)
  | commit p =>
    simp only [FileLog.step] at hs
    split at hs
    · rename_i stage hp
      obtain ⟨hlive, hs⟩ := Option.ite_none_right_eq_some.mp hs
      obtain ⟨inside, ht⟩ := h.of_live hlive
      obtain ⟨-, -, -, hpanicked, hrec⟩ := commit_frame hs
      exact .running ⟨hpanicked.trans hlive.1, hrec.trans hlive.2⟩ inside (ht.commit hp hs)
    · cases hs
  | afterCommit p =>
    obtain ⟨⟨hlive, hp⟩, hs⟩ := Option.ite_none_right_eq_some.mp hs
    cases hs
    obtain ⟨inside, ht⟩ := h.of_live hlive
    exact .running hlive inside (ht.afterCommit hp)
  | bread p b | brelse p b | recycle b =>
    obtain ⟨⟨hlive, -⟩, hs⟩ := Option.ite_none_right_eq_some.mp hs
    cases hs
    obtain ⟨inside, ht⟩ := h.of_live hlive
    exact .running hlive inside ht.setStore

/-- `end_op` never finds another commit under way, whatever the operations write. -/
theorem reach_ne_logCommitting {disk : ℕ → Block} (h : Reach (step sb) (boot sb disk) m) :
    m.panicked ≠ some .logCommitting := by
  have hinv : Orderly m := by
    refine h.invariant (orderly_boot sb disk []) ?_
    intro u a v hu _ hv
    exact hu.step hv
  cases hinv with
  | stopped e hp he => simpa [hp] using he
  | booting hp => simp [hp]
  | running hlive => simp [hlive.1]

end CS352.FileLog
