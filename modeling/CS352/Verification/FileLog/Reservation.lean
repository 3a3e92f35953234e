import CS352.Verification.FileLog.Turns
import Mathlib.Algebra.Order.BigOperators.Group.Finset

/-! # Reservation of log space

How much of the log the operations under way may still take. -/

namespace CS352.FileLog

open CS352.Transition Function

variable {sb : Superblock} {m m' : Machine} {lh : LogHeader} {inside : Finset ℕ} {p q b : ℕ}
  {data : Block}

/-- The blocks that the operation has not yet taken of those that `begin_op` reserves. -/
def spare (m : Machine) (p : ℕ) : ℕ := maxOpBlocks - (m.place p).blocks.length

/-- No operation uses up what is reserved for it, and the log has room for what is left. -/
structure Budget (m : Machine) (inside : Finset ℕ) : Prop where
  used : ∀ p ∈ inside, (m.place p).blocks.length < maxOpBlocks
  logged : ∀ p ∈ inside, ∀ b ∈ (m.place p).blocks, Logged m.log.lh b
  room : m.log.lh.n + ∑ p ∈ inside, spare m p ≤ logSize
  /-- A second operation that has ended left something over. -/
  alone : inside.card ≤ 1 → m.log.lh.n + ∑ p ∈ inside, spare m p < logSize

theorem Budget.card_le (h : Budget m inside) : inside.card ≤ ∑ p ∈ inside, spare m p := by
  rw [Finset.card_eq_sum_ones]
  refine Finset.sum_le_sum ?_
  intro p hp
  have := h.used p hp
  simp only [spare]
  omega

/-- An operation under way finds room for one more block. -/
theorem Budget.fits (h : Budget m inside) (hp : p ∈ inside) : m.log.lh.n < logSize - 1 := by
  have hcard := h.card_le
  have hpos : 0 < inside.card := Finset.card_pos.mpr ⟨p, hp⟩
  have hroom := h.room
  by_cases halone : inside.card ≤ 1
  · have := h.alone halone
    omega
  · omega

theorem Budget.congr (h : Budget m inside) (hlh : m'.log.lh = m.log.lh)
    (hblocks : ∀ q ∈ inside, (m'.place q).blocks = (m.place q).blocks) : Budget m' inside := by
  have hsum : ∑ p ∈ inside, spare m' p = ∑ p ∈ inside, spare m p := by
    refine Finset.sum_congr rfl ?_
    intro q hq
    rw [spare, hblocks q hq, spare]
  refine ⟨?_, ?_, ?_, ?_⟩
  · intro q hq
    rw [hblocks q hq]
    exact h.used q hq
  · intro q hq
    rw [hblocks q hq, hlh]
    exact h.logged q hq
  · rw [hsum, hlh]
    exact h.room
  · rw [hsum, hlh]
    exact h.alone

theorem Place.blocks_of_not_inside {place : Place} (h : place.isInside = false) :
    place.blocks = [] := by
  cases place with
  | inside blocks => cases h
  | out | asleep | woken | committing | finishing => rfl

theorem Budget.moveTo {place : Place} (h : Budget m inside) (hp : (m.place p).isInside = false)
    (hplace : place.isInside = false) : Budget (m.moveTo p place) inside := by
  refine h.congr rfl ?_
  intro q _
  by_cases hq : q = p
  · simp [hq, Place.blocks_of_not_inside hp, Place.blocks_of_not_inside hplace]
  · simp [hq]

theorem budget_empty (hn : m.log.lh.n < logSize) : Budget m ∅ :=
  ⟨by simp, by simp, by simpa using hn.le, by simpa using hn⟩

theorem Budget.enter (h : Budget m inside) (ht : Turns m inside) (hc : m.log.committing = false)
    (hp : (m.place p).isInside = false)
    (hspace : (m.log.lh.n : ℤ) + (m.log.outstanding + 1) * maxOpBlocks ≤ logSize) :
    Budget ({ m with log := { m.log with outstanding := m.log.outstanding + 1 } }.moveTo p
      (.inside [])) (insert p inside) := by
  set m' := { m with log := { m.log with outstanding := m.log.outstanding + 1 } }.moveTo p
    (.inside []) with hm'
  have hmem : p ∉ inside := by simp [ht.mem, hp]
  have hother : ∀ q ∈ inside, (m'.place q).blocks = (m.place q).blocks := by
    intro q hq
    have hqp : q ≠ p := by
      rintro rfl
      exact hmem hq
    simp [hm', hqp]
  have hself : (m'.place p).blocks = [] := by simp [hm', Place.blocks]
  have hsum : ∑ q ∈ insert p inside, spare m' q ≤ (inside.card + 1) * maxOpBlocks := by
    have hle : ∀ q ∈ insert p inside, spare m' q ≤ maxOpBlocks := fun q _ => Nat.sub_le _ _
    have hall := Finset.sum_le_card_nsmul _ _ _ hle
    rwa [Finset.card_insert_of_notMem hmem, Nat.nsmul_eq_mul] at hall
  have hn : m'.log.lh.n = m.log.lh.n := rfl
  have hreserved : m.log.lh.n + (inside.card + 1) * maxOpBlocks ≤ logSize := by
    rw [ht.outstanding] at hspace
    exact_mod_cast hspace
  refine ⟨?_, ?_, ?_, ?_⟩
  · intro q hq
    rcases Finset.mem_insert.mp hq with rfl | hq
    · rw [hself]
      decide
    · rw [hother q hq]
      exact h.used q hq
  · intro q hq
    rcases Finset.mem_insert.mp hq with rfl | hq
    · rw [hself]
      simp
    · rw [hother q hq]
      exact h.logged q hq
  · omega
  · intro hone
    rw [Finset.card_insert_of_notMem hmem] at hone
    have hempty : inside = ∅ := by
      rw [← Finset.card_eq_zero]
      omega
    have hzero := ht.drained hempty hc
    rw [hempty, Finset.card_empty] at hsum
    have hlarge : (0 + 1) * maxOpBlocks < logSize := by decide
    rw [hempty]
    omega

theorem Budget.erase (h : Budget m inside) (hp : p ∈ inside) (hlh : m'.log.lh = m.log.lh)
    (hblocks : ∀ q ≠ p, (m'.place q).blocks = (m.place q).blocks) :
    Budget m' (inside.erase p) := by
  have hold : Budget m (inside.erase p) := by
    have hsum := Finset.add_sum_erase inside (spare m) hp
    have hspare : 0 < spare m p := Nat.sub_pos_of_lt (h.used p hp)
    have hroom := h.room
    refine ⟨?_, ?_, ?_, ?_⟩
    · intro q hq
      exact h.used q (Finset.mem_of_mem_erase hq)
    · intro q hq
      exact h.logged q (Finset.mem_of_mem_erase hq)
    · omega
    · intro _
      omega
  exact hold.congr hlh fun q hq => hblocks q (Finset.ne_of_mem_erase hq)

/-- `log_write` of an operation that stays below its limit. -/
theorem Budget.logWrite (h : Budget m inside) (hp : p ∈ inside)
    (hlimit : ((m.place p).blocks.insert b).length < maxOpBlocks)
    (hplace : m'.place = Function.update m.place p (.inside ((m.place p).blocks.insert b)))
    (hlh : (Logged m.log.lh b ∧ m'.log.lh = m.log.lh) ∨
      (¬ Logged m.log.lh b ∧ m'.log.lh = m.log.lh.push b)) : Budget m' inside := by
  have hblocks : (m'.place p).blocks = (m.place p).blocks.insert b := by
    rw [hplace, update_self]
    rfl
  have hother : ∀ q, q ≠ p → (m'.place q).blocks = (m.place q).blocks := by
    intro q hq
    rw [hplace, update_of_ne hq]
  have hkeep : ∀ c, Logged m.log.lh c → Logged m'.log.lh c := by
    intro c hc
    rcases hlh with ⟨-, heq⟩ | ⟨-, heq⟩
    · rwa [heq]
    · rw [heq]
      exact hc.push
  have hnew : Logged m'.log.lh b := by
    rcases hlh with ⟨hb, heq⟩ | ⟨-, heq⟩
    · rwa [heq]
    · rw [heq]
      exact logged_push
  -- A new entry is paid for by the operation, which had not written the block before.
  have hpaid : m'.log.lh.n + spare m' p ≤ m.log.lh.n + spare m p := by
    rw [spare, spare, hblocks]
    rcases hlh with ⟨-, heq⟩ | ⟨hb, heq⟩
    · rw [heq]
      have : (m.place p).blocks.length ≤ ((m.place p).blocks.insert b).length :=
        List.length_le_length_insert
      omega
    · have hfresh : b ∉ (m.place p).blocks := fun hmem => hb (h.logged p hp b hmem)
      rw [List.length_insert_of_not_mem hfresh] at hlimit ⊢
      rw [heq, LogHeader.push]
      simp only
      omega
  have hsum := Finset.add_sum_erase inside (spare m) hp
  have hsum' := Finset.add_sum_erase inside (spare m') hp
  have hrest : ∑ q ∈ inside.erase p, spare m' q = ∑ q ∈ inside.erase p, spare m q := by
    refine Finset.sum_congr rfl ?_
    intro q hq
    rw [spare, hother q (Finset.ne_of_mem_erase hq), spare]
  refine ⟨?_, ?_, ?_, ?_⟩
  · intro q hq
    by_cases hqp : q = p
    · rw [hqp, hblocks]
      exact hlimit
    · rw [hother q hqp]
      exact h.used q hq
  · intro q hq c hc
    by_cases hqp : q = p
    · rw [hqp, hblocks, List.mem_insert_iff] at hc
      rcases hc with rfl | hc
      · exact hnew
      · exact hkeep c (h.logged p hp c hc)
    · rw [hother q hqp] at hc
      exact hkeep c (h.logged q hq c hc)
  · have := h.room
    omega
  · intro hone
    have := h.alone hone
    omega

/-! ## Runs -/

/-- The state of a run in which every operation stays below its limit. -/
inductive Reserved (m : Machine) : Prop where
  | booting (hnone : m.panicked = none) (hrec : m.recovery ≠ .done) (h : Booting m)
  | running (hlive : m.Live) (inside : Finset ℕ) (ht : Turns m inside) (hb : Budget m inside)

theorem Reserved.panicked (h : Reserved m) : m.panicked = none := by
  cases h with
  | booting hnone => exact hnone
  | running hlive => exact hlive.1

theorem Reserved.of_live (h : Reserved m) (hlive : m.Live) :
    ∃ inside, Turns m inside ∧ Budget m inside := by
  cases h with
  | booting _ hrec => exact absurd hlive.2 hrec
  | running _ inside ht hb => exact ⟨inside, ht, hb⟩

theorem reserved_boot (sb : Superblock) (disk : ℕ → Block) (committed : List (List (ℕ × Block))) :
    Reserved { boot sb disk with committed := committed } :=
  .booting rfl (by simp [boot]) ⟨fun _ => rfl, rfl, rfl⟩

theorem Reserved.recover (h : Reserved m) (hs : recoverFromLog m p = some m') : Reserved m' := by
  cases h with
  | booting hnone hrec h =>
    obtain ⟨hnone', h', hzero⟩ := h.recover hnone hs
    by_cases hdone : m'.recovery = .done
    · refine .running ⟨hnone', hdone⟩ ∅ (h'.turns (hzero hdone)) (budget_empty ?_)
      rw [hzero hdone]
      decide
    · exact .booting hnone' hdone h'
  | running hlive => simp [recoverFromLog, hlive.2] at hs

/-- The operations that are under way find room. -/
theorem Budget.update {limit : ℕ} (hb : Budget m inside) (ht : Turns m inside) (hlive : m.Live)
    (hlimit : limit < maxOpBlocks) (hsize : m.log.size = logSize)
    (hp : (m.place p).isInside = true) (hw : WithinLimit limit m (.update p b data)) :
    Reserved (update m p b data) := by
  have hmem := (ht.mem p).mpr hp
  have hlen : ((m.place p).blocks.insert b).length < maxOpBlocks := Nat.lt_of_le_of_lt hw hlimit
  have hfits : Fits m.log := by
    have hroom := hb.fits hmem
    have hpos : 0 < inside.card := Finset.card_pos.mpr ⟨p, hmem⟩
    have hout := ht.outstanding
    exact ⟨by omega, by omega, by omega⟩
  rcases update_cases m p b data with ⟨hnot, -⟩ | ⟨-, hlogged, heq⟩ | ⟨-, hlogged, heq⟩
  · exact absurd hfits hnot
  · rw [heq]
    exact .running hlive inside (ht.logWrite hp rfl rfl)
      (hb.logWrite hmem hlen rfl (.inl ⟨hlogged, rfl⟩))
  · rw [heq]
    exact .running hlive inside (ht.logWrite hp rfl rfl)
      (hb.logWrite hmem hlen rfl (.inr ⟨hlogged, rfl⟩))

theorem Budget.endOp (hb : Budget m inside) (ht : Turns m inside) (hlive : m.Live)
    (hp : (m.place p).isInside = true) : Reserved (endOp m p) := by
  have hmem := (ht.mem p).mpr hp
  rcases endOp_cases (p := p) (ht.not_committing hp) with ⟨hlast, heq⟩ | ⟨hmore, heq⟩
  · rw [heq]
    refine .running hlive _ (ht.last hp hlast) (hb.erase hmem rfl ?_)
    intro q hq
    simp [hq]
  · rw [heq]
    refine .running hlive _ (ht.leave hp hmore) (hb.erase hmem rfl ?_)
    intro q hq
    rw [moveTo_place, update_of_ne hq, wakeup_blocks]

theorem Reserved.step {limit : ℕ} {a : Action} (hlimit : limit < maxOpBlocks) (h : Reserved m)
    (hsize : m.log.size = logSize) (hw : WithinLimit limit m a) (hs : step sb m a = some m') :
    Reserved m' := by
  cases a with
  | crash =>
    cases hs
    exact reserved_boot ..
  | recover p =>
    obtain ⟨-, hs⟩ := Option.ite_none_right_eq_some.mp hs
    exact h.recover hs
  | beginOp p =>
    obtain ⟨⟨hlive, hp⟩, hs⟩ := Option.ite_none_right_eq_some.mp hs
    cases hs
    obtain ⟨inside, ht, hb⟩ := h.of_live hlive
    have hout : (m.place p).isInside = false ∧ (m.place p).inCommit = false := by
      rcases hp with hp | hp <;> simp [hp, Place.isInside, Place.inCommit]
    rcases beginOp_cases m p with heq | ⟨hc, hspace, heq⟩
    · rw [heq]
      exact .running hlive inside (ht.moveTo hout.1.symm hout.2.symm (by simp))
        (hb.moveTo hout.1 rfl)
    · rw [heq]
      exact .running hlive _ (ht.enter hc hout.1) (hb.enter ht hc hout.1 hspace)
  | wake p =>
    obtain ⟨⟨hlive, hp⟩, hs⟩ := Option.ite_none_right_eq_some.mp hs
    cases hs
    obtain ⟨inside, ht, hb⟩ := h.of_live hlive
    have hout : (m.place p).isInside = false ∧ (m.place p).inCommit = false := by
      simp [hp, Place.isInside, Place.inCommit]
    exact .running hlive inside (ht.moveTo hout.1.symm hout.2.symm (by simp))
      (hb.moveTo hout.1 rfl)
  | update p b data =>
    obtain ⟨⟨hlive, hp, -⟩, hs⟩ := Option.ite_none_right_eq_some.mp hs
    cases hs
    obtain ⟨inside, ht, hb⟩ := h.of_live hlive
    exact hb.update ht hlive hlimit hsize hp hw
  | endOp p =>
    obtain ⟨⟨hlive, hp⟩, hs⟩ := Option.ite_none_right_eq_some.mp hs
    cases hs
    obtain ⟨inside, ht, hb⟩ := h.of_live hlive
    exact hb.endOp ht hlive hp
  | commit p =>
    simp only [FileLog.step] at hs
    split at hs
    · rename_i stage hp
      obtain ⟨hlive, hs⟩ := Option.ite_none_right_eq_some.mp hs
      obtain ⟨inside, ht, hb⟩ := h.of_live hlive
      have hempty := ht.exclusive (ht.committer p (by simp [hp, Place.inCommit]))
      obtain ⟨-, -, hn, hpanicked, hrec⟩ := commit_frame hs
      subst inside
      have hroom : m.log.lh.n < logSize := by simpa using hb.alone
      exact .running ⟨hpanicked.trans hlive.1, hrec.trans hlive.2⟩ ∅ (ht.commit hp hs)
        (budget_empty (by omega))
    · cases hs
  | afterCommit p =>
    obtain ⟨⟨hlive, hp⟩, hs⟩ := Option.ite_none_right_eq_some.mp hs
    cases hs
    obtain ⟨inside, ht, hb⟩ := h.of_live hlive
    have hempty := ht.exclusive (ht.committer p (by simp [hp, Place.inCommit]))
    subst inside
    exact .running hlive ∅ (ht.afterCommit hp) (hb.congr rfl (by simp))
  | bread p b | brelse p b | recycle b =>
    obtain ⟨⟨hlive, -⟩, hs⟩ := Option.ite_none_right_eq_some.mp hs
    cases hs
    obtain ⟨inside, ht, hb⟩ := h.of_live hlive
    exact .running hlive inside ht.setStore (hb.congr rfl fun _ _ => rfl)

theorem reserved_of_reachWhere {limit : ℕ} {disk : ℕ → Block} (hlimit : limit < maxOpBlocks)
    (h : ReachWhere (step mkfsSuperblock) (WithinLimit limit) (boot mkfsSuperblock disk) m) :
    Reserved m := by
  have hstart : Located mkfsSuperblock (boot mkfsSuperblock disk) := ⟨rfl, rfl⟩
  have hinv : Located mkfsSuperblock m ∧ Reserved m := by
    refine h.invariant (I := fun m => Located mkfsSuperblock m ∧ Reserved m)
      ⟨hstart, reserved_boot mkfsSuperblock disk []⟩ ?_
    intro u a v hu hw hv
    exact ⟨hu.1.step hv, hu.2.step hlimit hu.1.size hw hv⟩
  exact hinv.2

/-! ## Main result -/

/-- The process reads `maxOpBlocks` blocks of its own and writes them. -/
def fullOp (p : ℕ) : List Action :=
  (List.range maxOpBlocks).flatMap fun j =>
    [.bread p (100 + maxOpBlocks * p + j), .update p (100 + maxOpBlocks * p + j) fun _ => 0]

/-- After the recovery of an empty disk three processes enter, and each does as much as
`begin_op` has reserved for it. -/
def threeFullOps : List Action :=
  [.recover 0, .recover 0, .recover 0, .beginOp 0, .beginOp 1, .beginOp 2] ++
    (List.range 3).flatMap fullOp

theorem exec_threeFullOps :
    (exec (fun m a => if WithinLimit maxOpBlocks m a then step mkfsSuperblock m a else none)
      (boot mkfsSuperblock fun _ _ => 0) threeFullOps).map (fun m => m.panicked) =
        some (some .tooBigATransaction) := by
  decide +kernel

theorem WithinLimit.mono {limit limit' : ℕ} {a : Action} (hle : limit ≤ limit')
    (h : WithinLimit limit m a) : WithinLimit limit' m a := by
  cases a with
  | update p b data => exact Nat.le_trans h hle
  | crash | recover | beginOp | wake | bread | brelse | recycle | endOp | commit
  | afterCommit => trivial

/-- With the log that `mkfs` lays out, the runs in which every operation passes at most
`limit` distinct blocks to `log_write` keep clear of the two panics exactly when `limit` is
below `MAXOPBLOCKS`. -/
theorem reachWhere_no_panic_iff (limit : ℕ) :
    (∀ disk m, ReachWhere (step mkfsSuperblock) (WithinLimit limit) (boot mkfsSuperblock disk) m →
      m.panicked ≠ some .tooBigATransaction ∧ m.panicked ≠ some .logCommitting) ↔
        limit < maxOpBlocks := by
  refine ⟨?_, ?_⟩
  · intro hall
    by_contra hlimit
    obtain ⟨m, hm, hpanicked⟩ := Option.map_eq_some_iff.mp exec_threeFullOps
    have hle : maxOpBlocks ≤ limit := Nat.le_of_not_lt hlimit
    have hreach := (reachWhere_of_exec hm).mono fun _ _ => WithinLimit.mono hle
    exact (hall _ m hreach).1 hpanicked
  · intro hlimit disk m h
    have hnone := (reserved_of_reachWhere hlimit h).panicked
    simp [hnone]

theorem threeFullOps_panic :
    ∃ m, ReachWhere (step mkfsSuperblock) (WithinLimit maxOpBlocks)
        (boot mkfsSuperblock fun _ _ => 0) m ∧ m.panicked = some .tooBigATransaction := by
  obtain ⟨m, hm, hpanicked⟩ := Option.map_eq_some_iff.mp exec_threeFullOps
  exact ⟨m, reachWhere_of_exec hm, hpanicked⟩

end CS352.FileLog
