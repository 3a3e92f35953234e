import CS352.Library.RedoLog
import CS352.Verification.FileLog.Buffers
import CS352.Verification.FileLog.Turns

/-! # Crash atomicity

The value of the disk is what recovery would make of it: the home blocks with the log
replayed. Every step keeps it, except for the write of the header in `commit`, which applies
the transaction as a whole. -/

namespace CS352.FileLog

open CS352.RedoLog CS352.Transition Function

variable {sb : Superblock} {m m' : Machine} {disk : ℕ → Block} {goal : ℕ → Block} {s s' : Store}
  {lh : LogHeader} {log : Log} {pending : List (ℕ × Block)} {inside : Finset ℕ} {p q b c t : ℕ}
  {data : Block}

/-! ## The disk -/

/-- The log on the disk. -/
def diskLog (sb : Superblock) (disk : ℕ → Block) : List (ℕ × Block) :=
  (List.range (disk sb.logstart 0)).map fun i =>
    (disk sb.logstart (i + 1), disk (sb.logstart + i + 1))

theorem inLog_start (sb : Superblock) : inLog sb sb.logstart := .inl rfl

/-- The log lies in the log region and its entries outside, and recovery would leave `goal`
in the home blocks. -/
structure Durable (sb : Superblock) (disk goal : ℕ → Block) : Prop where
  fits : ∀ i < disk sb.logstart 0, inLog sb (sb.logstart + i + 1)
  outside : ∀ i < disk sb.logstart 0, ¬ inLog sb (disk sb.logstart (i + 1))
  value : ∀ b, ¬ inLog sb b → replay disk (diskLog sb disk) b = goal b

theorem diskLog_of_empty (h : disk sb.logstart 0 = 0) : diskLog sb disk = [] := by
  simp [diskLog, h]

/-- A disk with an empty log. -/
theorem durable_of_empty (hempty : disk sb.logstart 0 = 0)
    (hhome : ∀ b, ¬ inLog sb b → disk b = goal b) : Durable sb disk goal := by
  refine ⟨?_, ?_, ?_⟩
  · intro i hi
    omega
  · intro i hi
    omega
  · intro b hb
    rw [diskLog_of_empty hempty, replay_nil]
    exact hhome b hb

theorem ne_of_inLog (hb : ¬ inLog sb b) (hc : inLog sb c) : c ≠ b := by
  rintro rfl
  exact hb hc

theorem diskLog_update (h : Durable sb disk goal) (hb : ¬ inLog sb b) (v : Block) :
    diskLog sb (Function.update disk b v) = diskLog sb disk := by
  have hstart := update_of_ne (ne_of_inLog hb (inLog_start sb)) v disk
  simp only [diskLog, hstart]
  refine List.map_congr_left ?_
  intro i hi
  rw [update_of_ne (ne_of_inLog hb (h.fits i (List.mem_range.mp hi)))]

/-- The header in memory is the one on the disk, and the first `t` entries are installed. -/
structure Installing (sb : Superblock) (goal disk : ℕ → Block) (lh : LogHeader) (t : ℕ) : Prop
    extends Durable sb disk goal where
  n : disk sb.logstart 0 = lh.n
  block : ∀ i < lh.n, disk sb.logstart (i + 1) = lh.block i
  installed : Installed disk (diskLog sb disk) t

theorem Installing.diskLog_getElem (h : Installing sb goal disk lh t) (ht : t < lh.n) :
    (diskLog sb disk)[t]? = some (lh.block t, disk (sb.logstart + t + 1)) := by
  simp [diskLog, h.n, ht, h.block t ht]

theorem Installing.not_inLog (h : Installing sb goal disk lh t) {i : ℕ} (hi : i < lh.n) :
    ¬ inLog sb (lh.block i) := by
  rw [← h.block i hi]
  exact h.outside i (h.n ▸ hi)

/-- A pass of `install_trans`. -/
theorem Installing.succ (h : Installing sb goal disk lh t) (ht : t < lh.n) :
    Installing sb goal (Function.update disk (lh.block t) (disk (sb.logstart + t + 1))) lh
      (t + 1) := by
  have hout := h.not_inLog ht
  have hstart := update_of_ne (ne_of_inLog hout (inLog_start sb))
    (disk (sb.logstart + t + 1)) disk
  have hlog := diskLog_update h.toDurable hout (disk (sb.logstart + t + 1))
  have hentry := h.diskLog_getElem ht
  have hkey : lh.block t ∈ (diskLog sb disk).map Prod.fst :=
    List.mem_map.mpr ⟨_, List.mem_of_getElem? hentry, rfl⟩
  refine ⟨⟨?_, ?_, ?_⟩, ?_, ?_, ?_⟩
  · rw [hstart]
    exact h.fits
  · rw [hstart]
    exact h.outside
  · intro b hb
    rw [hlog, replay_update hkey]
    exact h.value b hb
  · rw [hstart]
    exact h.n
  · rw [hstart]
    exact h.block
  · rw [hlog]
    exact h.installed.succ hentry

/-- Once every entry is installed the home blocks hold the value. -/
theorem Installing.home (h : Installing sb goal disk lh lh.n) (hb : ¬ inLog sb b) :
    disk b = goal b := by
  have hlen : (diskLog sb disk).length ≤ lh.n := by simp [diskLog, h.n]
  rw [← h.value b hb, h.installed.all hlen]

theorem withHead_zero (data : Block) (lh : LogHeader) : withHead data lh 0 = lh.n := rfl

theorem withHead_succ (data : Block) {i : ℕ} (hi : i < lh.n) :
    withHead data lh (i + 1) = lh.block i := by
  simp [withHead, Nat.succ_le_of_lt hi]

/-- The log on the disk after the header has been written. -/
theorem diskLog_withHead (data : Block) :
    diskLog sb (Function.update disk sb.logstart (withHead data lh)) =
      (List.range lh.n).map fun i => (lh.block i, disk (sb.logstart + i + 1)) := by
  simp only [diskLog, update_self, withHead_zero]
  refine List.map_congr_left ?_
  intro i hi
  have hi := List.mem_range.mp hi
  have hne : sb.logstart + i + 1 ≠ sb.logstart := by omega
  rw [withHead_succ data hi, update_of_ne hne]

/-! ## Pins -/

/-- The block is one of the entries from `t` on. -/
def Unsaved (lh : LogHeader) (t b : ℕ) : Prop := ∃ i < lh.n, t ≤ i ∧ lh.block i = b

instance : Decidable (Unsaved lh t b) := inferInstanceAs (Decidable (∃ i < lh.n, _))

/-- What `log_write` and `install_trans` leave pinned. -/
def pin (lh : LogHeader) (t b : ℕ) : ℕ := if Unsaved lh t b then 1 else 0

theorem unsaved_zero : Unsaved lh 0 b ↔ Logged lh b := by simp [Unsaved, Logged]

theorem not_unsaved_n : ¬ Unsaved lh lh.n b := by
  rintro ⟨i, hi, ht, -⟩
  omega

theorem pin_n : pin lh lh.n = fun _ => 0 := by
  funext b
  exact if_neg not_unsaved_n

theorem unsaved_succ_of_ne (hb : b ≠ lh.block t) : Unsaved lh (t + 1) b ↔ Unsaved lh t b := by
  refine ⟨?_, ?_⟩
  · rintro ⟨i, hi, ht, rfl⟩
    exact ⟨i, hi, by omega, rfl⟩
  · rintro ⟨i, hi, ht, rfl⟩
    have hne : i ≠ t := by
      rintro rfl
      exact hb rfl
    exact ⟨i, hi, by omega, rfl⟩

/-- The entries are distinct. -/
def Distinct (lh : LogHeader) : Prop :=
  ∀ i j, i < lh.n → j < lh.n → lh.block i = lh.block j → i = j

theorem Distinct.not_unsaved (h : Distinct lh) (ht : t < lh.n) :
    ¬ Unsaved lh (t + 1) (lh.block t) := by
  rintro ⟨i, hi, hle, heq⟩
  have := h i t hi ht heq
  omega

theorem Distinct.pin_succ (h : Distinct lh) (ht : t < lh.n) :
    pin lh (t + 1) =
      Function.update (pin lh t) (lh.block t) (pin lh t (lh.block t) - 1) := by
  funext b
  by_cases hb : b = lh.block t
  · have hold : Unsaved lh t (lh.block t) := ⟨t, ht, le_refl t, rfl⟩
    rw [hb, update_self, pin, if_neg (h.not_unsaved ht), pin, if_pos hold]
  · rw [update_of_ne hb, pin, pin]
    simp only [unsaved_succ_of_ne hb]

theorem logged_push_iff : Logged (lh.push b) c ↔ c = b ∨ Logged lh c := by
  refine ⟨?_, ?_⟩
  · rintro ⟨i, hi, rfl⟩
    simp only [LogHeader.push] at hi ⊢
    by_cases hin : i = lh.n
    · left
      simp [hin]
    · right
      exact ⟨i, by omega, by simp [hin]⟩
  · rintro (rfl | hc)
    · exact logged_push
    · exact hc.push

theorem pin_push (hb : ¬ Logged lh b) :
    pin (lh.push b) 0 = Function.update (pin lh 0) b (pin lh 0 b + 1) := by
  funext c
  by_cases hc : c = b
  · subst c
    have hnew : Unsaved (lh.push b) 0 b := unsaved_zero.mpr logged_push
    have hold : ¬ Unsaved lh 0 b := fun h => hb (unsaved_zero.mp h)
    rw [update_self, pin, if_pos hnew, pin, if_neg hold]
  · have hiff : Unsaved (lh.push b) 0 c ↔ Unsaved lh 0 c := by
      rw [unsaved_zero, unsaved_zero, logged_push_iff]
      simp [hc]
    rw [update_of_ne hc, pin, pin]
    simp only [hiff]

theorem Distinct.push (h : Distinct lh) (hb : ¬ Logged lh b) : Distinct (lh.push b) := by
  intro i j hi hj heq
  simp only [LogHeader.push] at hi hj heq
  by_cases hin : i = lh.n
  · by_cases hjn : j = lh.n
    · rw [hin, hjn]
    · rw [hin, update_self, update_of_ne hjn] at heq
      exact absurd ⟨j, by omega, heq.symm⟩ hb
  · by_cases hjn : j = lh.n
    · rw [hjn, update_self, update_of_ne hin] at heq
      exact absurd ⟨i, by omega, heq⟩ hb
    · rw [update_of_ne hin, update_of_ne hjn] at heq
      exact h i j (by omega) (by omega) heq

/-! ## Before and after the commit point -/

/-- A transaction before its header is written: the log on the disk is empty, the blocks
of the transaction are in pinned buffers, and the first `t` of them in log blocks too. -/
structure Open (sb : Superblock) (goal : ℕ → Block) (s : Store) (lh : LogHeader)
    (pending : List (ℕ × Block)) (t : ℕ) : Prop where
  empty : s.disk sb.logstart 0 = 0
  home : ∀ b, ¬ inLog sb b → s.disk b = goal b
  fits : ∀ i < lh.n, inLog sb (sb.logstart + i + 1)
  outside : ∀ i < lh.n, ¬ inLog sb (lh.block i)
  distinct : Distinct lh
  handled : Handled s (pin lh 0)
  clean : ∀ b, ¬ Logged lh b → content s b = s.disk b
  dirty : ∀ b, Logged lh b → content s b = replay goal pending b
  keys : ∀ b, b ∈ pending.map Prod.fst ↔ Logged lh b
  written : ∀ i < t, s.disk (sb.logstart + i + 1) = content s (lh.block i)

/-- A transaction whose header is on the disk, with its first `t` blocks installed. -/
structure Sealed (sb : Superblock) (goal : ℕ → Block) (s : Store) (lh : LogHeader)
    (t : ℕ) : Prop where
  installing : Installing sb goal s.disk lh t
  distinct : Distinct lh
  handled : Handled s (pin lh t)
  clean : ∀ b, ¬ Unsaved lh t b → content s b = s.disk b

theorem Open.durable (h : Open sb goal s lh pending t) : Durable sb s.disk goal :=
  durable_of_empty h.empty h.home

/-- The calls of other processes do not change what a buffer returns. -/
theorem Open.congr (h : Open sb goal s lh pending t) (hdisk : s'.disk = s.disk)
    (hcontent : content s' = content s) (hhandled : Handled s' (pin lh 0)) :
    Open sb goal s' lh pending t := by
  refine ⟨?_, ?_, h.fits, h.outside, h.distinct, hhandled, ?_, ?_, h.keys, ?_⟩
  · rw [hdisk]
    exact h.empty
  · rw [hdisk]
    exact h.home
  · rw [hdisk, hcontent]
    exact h.clean
  · rw [hcontent]
    exact h.dirty
  · rw [hdisk, hcontent]
    exact h.written

theorem Sealed.congr (h : Sealed sb goal s lh t) (hdisk : s'.disk = s.disk)
    (hcontent : content s' = content s) (hhandled : Handled s' (pin lh t)) :
    Sealed sb goal s' lh t := by
  refine ⟨?_, h.distinct, hhandled, ?_⟩
  · rw [hdisk]
    exact h.installing
  · rw [hdisk, hcontent]
    exact h.clean

theorem Open.not_logged (h : Open sb goal s lh pending t) (hb : inLog sb b) :
    ¬ Logged lh b := by
  rintro ⟨i, hi, rfl⟩
  exact h.outside i hi hb

theorem ne_logBlock (hb : ¬ inLog sb b) (hc : inLog sb c) : b ≠ c := (ne_of_inLog hb hc).symm

/-- A pass of `write_log`. -/
theorem Open.writeLog (h : Open sb goal s lh pending t) (ht : t < lh.n)
    (hw : Written s s' (sb.logstart + t + 1) (content s (lh.block t)) (pin lh 0)) :
    Open sb goal s' lh pending (t + 1) := by
  have hin := h.fits t ht
  have hnot := h.not_logged hin
  refine ⟨?_, ?_, h.fits, h.outside, h.distinct, hw.handled, ?_, ?_, h.keys, ?_⟩
  · have hne : sb.logstart ≠ sb.logstart + t + 1 := by omega
    rw [hw.disk, update_of_ne hne]
    exact h.empty
  · intro b hb
    rw [hw.disk, update_of_ne (ne_logBlock hb hin)]
    exact h.home b hb
  · intro b hb
    rw [hw.disk, hw.content]
    by_cases hbt : b = sb.logstart + t + 1
    · rw [hbt, update_self, update_self]
    · rw [update_of_ne hbt, update_of_ne hbt]
      exact h.clean b hb
  · intro b hb
    have hbt : b ≠ sb.logstart + t + 1 := by
      rintro rfl
      exact hnot hb
    rw [hw.content, update_of_ne hbt]
    exact h.dirty b hb
  · intro i hi
    rw [hw.disk, hw.content]
    by_cases hit : i = t
    · have hsrc := ne_logBlock (h.outside t ht) hin
      rw [hit, update_self, update_of_ne hsrc]
    · have hblock := ne_logBlock (h.outside i (by omega)) hin
      rw [update_of_ne (by omega), update_of_ne hblock]
      exact h.written i (by omega)

/-- An operation writes a block and passes it to `log_write`. -/
theorem Open.update {lh' : LogHeader} (h : Open sb goal s lh pending 0)
    (hdisk : s'.disk = s.disk) (hcontent : content s' = Function.update (content s) b data)
    (hlogged : ∀ c, Logged lh' c ↔ c = b ∨ Logged lh c)
    (hfits : ∀ i < lh'.n, inLog sb (sb.logstart + i + 1)) (hout : ¬ inLog sb b)
    (hdistinct : Distinct lh') (hhandled : Handled s' (pin lh' 0)) :
    Open sb goal s' lh' (pending ++ [(b, data)]) 0 := by
  refine ⟨?_, ?_, hfits, ?_, hdistinct, hhandled, ?_, ?_, ?_, by simp⟩
  · rw [hdisk]
    exact h.empty
  · rw [hdisk]
    exact h.home
  · intro i hi
    rcases (hlogged (lh'.block i)).mp ⟨i, hi, rfl⟩ with heq | ⟨j, hj, heq⟩
    · rw [heq]
      exact hout
    · rw [← heq]
      exact h.outside j hj
  · intro c hc
    have hnot := mt (hlogged c).mpr hc
    rw [not_or] at hnot
    rw [hcontent, hdisk, update_of_ne hnot.1]
    exact h.clean c hnot.2
  · intro c hc
    rw [hcontent, replay_append]
    by_cases hcb : c = b
    · rw [hcb, update_self]
      simp [replay]
    · rw [update_of_ne hcb, replay_of_not_mem (by simpa using hcb)]
      exact h.dirty c (((hlogged c).mp hc).resolve_left hcb)
  · intro c
    rw [hlogged, ← h.keys]
    simp [or_comm]

/-- The header is written: the transaction takes effect as a whole. -/
theorem Open.seal (h : Open sb goal s lh pending lh.n)
    (hw : Written s s' sb.logstart (withHead (content s sb.logstart) lh) (pin lh 0)) :
    Sealed sb (replay goal pending) s' lh 0 := by
  have hlog : diskLog sb s'.disk =
      ((List.range lh.n).map lh.block).map fun b => (b, content s b) := by
    rw [hw.disk, diskLog_withHead, List.map_map]
    refine List.map_congr_left ?_
    intro i hi
    rw [h.written i (List.mem_range.mp hi)]
    rfl
  have hmem : ∀ b, b ∈ (List.range lh.n).map lh.block ↔ Logged lh b := by
    intro b
    simp [Logged]
  have hzero : s'.disk sb.logstart 0 = lh.n := by rw [hw.disk, update_self, withHead_zero]
  have hblock : ∀ i < lh.n, s'.disk sb.logstart (i + 1) = lh.block i := by
    intro i hi
    rw [hw.disk, update_self, withHead_succ _ hi]
  have hvalue : ∀ b, ¬ inLog sb b →
      replay s'.disk (diskLog sb s'.disk) b = replay goal pending b := by
    intro b hb
    rw [hlog, replay_graph]
    by_cases hlogged : Logged lh b
    · rw [if_pos ((hmem b).mpr hlogged), h.dirty b hlogged]
    · have hkey : b ∉ pending.map Prod.fst := mt (h.keys b).mp hlogged
      rw [if_neg (mt (hmem b).mp hlogged), replay_of_not_mem hkey, hw.disk,
        update_of_ne (ne_logBlock hb (inLog_start sb)), h.home b hb]
  refine ⟨⟨⟨?_, ?_, hvalue⟩, hzero, hblock, installed_zero⟩, h.distinct, hw.handled, ?_⟩
  · rw [hzero]
    exact h.fits
  · intro i hi
    rw [hzero] at hi
    rw [hblock i hi]
    exact h.outside i hi
  · intro b hb
    rw [hw.disk, hw.content]
    by_cases hbs : b = sb.logstart
    · rw [hbs, update_self, update_self]
    · rw [update_of_ne hbs, update_of_ne hbs]
      exact h.clean b (mt unsaved_zero.mpr hb)

theorem Sealed.content_logBlock (h : Sealed sb goal s lh t) (hb : inLog sb b) :
    content s b = s.disk b := by
  refine h.clean b ?_
  rintro ⟨i, hi, -, rfl⟩
  exact h.installing.not_inLog hi hb

/-- A pass of `install_trans` in `commit`. -/
theorem Sealed.install (h : Sealed sb goal s lh t) (ht : t < lh.n)
    (hw : Written s s' (lh.block t) (content s (sb.logstart + t + 1))
      (Function.update (pin lh t) (lh.block t) (pin lh t (lh.block t) - 1))) :
    Sealed sb goal s' lh (t + 1) := by
  have hin : inLog sb (sb.logstart + t + 1) := h.installing.fits t (h.installing.n ▸ ht)
  refine ⟨?_, h.distinct, ?_, ?_⟩
  · rw [hw.disk, h.content_logBlock hin]
    exact h.installing.succ ht
  · rw [h.distinct.pin_succ ht]
    exact hw.handled
  · intro b hb
    rw [hw.disk, hw.content]
    by_cases hbt : b = lh.block t
    · rw [hbt, update_self, update_self]
    · rw [update_of_ne hbt, update_of_ne hbt]
      exact h.clean b (mt (unsaved_succ_of_ne hbt).mpr hb)

/-- The header is cleared when the value is in the home blocks. -/
theorem open_of_cleared (hhome : ∀ b, ¬ inLog sb b → s.disk b = goal b)
    (hclean : ∀ b, content s b = s.disk b)
    (hw : Written s s' sb.logstart (withHead data { lh with n := 0 }) fun _ => 0) :
    Open sb goal s' { lh with n := 0 } [] 0 := by
  have hnone : ∀ b, ¬ Logged { lh with n := 0 } b := by
    rintro b ⟨i, hi, -⟩
    exact absurd hi (Nat.not_lt_zero i)
  have hpin : pin { lh with n := 0 } 0 = fun _ => 0 := pin_n
  refine ⟨?_, ?_, by simp, by simp, ?_, ?_, ?_, ?_, ?_, by simp⟩
  · rw [hw.disk, update_self, withHead_zero]
  · intro b hb
    rw [hw.disk, update_of_ne (ne_logBlock hb (inLog_start sb))]
    exact hhome b hb
  · intro i j hi
    exact absurd hi (Nat.not_lt_zero i)
  · rw [hpin]
    exact hw.handled
  · intro b _
    rw [hw.disk, hw.content]
    by_cases hbs : b = sb.logstart
    · rw [hbs, update_self, update_self]
    · rw [update_of_ne hbs, update_of_ne hbs]
      exact hclean b
  · intro b hb
    exact absurd hb (hnone b)
  · intro b
    simp [hnone]

/-! ## Stages of `commit` -/

/-- What holds while a process is at the stage, or while nobody commits. -/
def StageInv (sb : Superblock) (goal : ℕ → Block) (m : Machine) : Option Stage → Prop
  | none | some .enter => Open sb goal m.store m.log.lh m.pending 0
  | some (.writeLog t) => Open sb goal m.store m.log.lh m.pending t ∧ t ≤ m.log.lh.n
  | some .writeHead => Open sb goal m.store m.log.lh m.pending m.log.lh.n
  | some (.installTrans t) =>
    Sealed sb goal m.store m.log.lh t ∧ t ≤ m.log.lh.n ∧ m.pending = []
  | some .clear => Sealed sb goal m.store m.log.lh m.log.lh.n ∧ m.pending = []

variable {stage : Stage} {st : Option Stage}

theorem StageInv.durable (h : StageInv sb goal m st) : Durable sb m.store.disk goal := by
  cases st with
  | none => exact Open.durable h
  | some stage =>
    cases stage with
    | enter => exact Open.durable h
    | writeLog t => exact h.1.durable
    | writeHead => exact Open.durable h
    | installTrans t => exact h.1.installing.toDurable
    | clear => exact h.1.installing.toDurable

theorem StageInv.of_eq (h : StageInv sb goal m st) (hstore : m'.store = m.store)
    (hlh : m'.log.lh = m.log.lh) (hpending : m'.pending = m.pending) : StageInv sb goal m' st := by
  cases st with
  | none => simpa only [StageInv, hstore, hlh, hpending] using h
  | some stage => cases stage <;> simpa only [StageInv, hstore, hlh, hpending] using h

/-- Some process reads, releases or recycles a buffer. -/
theorem StageInv.setStore (h : StageInv sb goal m st) (hdisk : s.disk = m.store.disk)
    (hcontent : content s = content m.store)
    (hhandled : ∀ pins, Handled m.store pins → Handled s pins) :
    StageInv sb goal (m.setStore s) st := by
  have hopen : ∀ t, Open sb goal m.store m.log.lh m.pending t →
      Open sb goal s m.log.lh m.pending t :=
    fun t ho => ho.congr hdisk hcontent (hhandled _ ho.handled)
  have hsealed : ∀ t, Sealed sb goal m.store m.log.lh t → Sealed sb goal s m.log.lh t :=
    fun t hse => hse.congr hdisk hcontent (hhandled _ hse.handled)
  cases st with
  | none => exact hopen 0 h
  | some stage =>
    cases stage with
    | enter => exact hopen 0 h
    | writeLog t => exact ⟨hopen t h.1, h.2⟩
    | writeHead => exact hopen _ h
    | installTrans t => exact ⟨hsealed t h.1, h.2⟩
    | clear => exact ⟨hsealed _ h.1, h.2⟩

/-- A buffer with `refcnt = 0` holds what is on the disk. -/
theorem StageInv.content_of_free (h : StageInv sb goal m st)
    (hb : (m.store.buf b).refcnt = 0) : content m.store b = m.store.disk b := by
  have hopen : ∀ t, Open sb goal m.store m.log.lh m.pending t →
      content m.store b = m.store.disk b := by
    intro t ho
    refine ho.clean b ?_
    intro hlogged
    have hpin := ho.handled.pins_eq_zero hb
    rw [pin, if_pos (unsaved_zero.mpr hlogged)] at hpin
    cases hpin
  have hsealed : ∀ t, Sealed sb goal m.store m.log.lh t →
      content m.store b = m.store.disk b := by
    intro t hse
    refine hse.clean b ?_
    intro hunsaved
    have hpin := hse.handled.pins_eq_zero hb
    rw [pin, if_pos hunsaved] at hpin
    cases hpin
  cases st with
  | none => exact hopen 0 h
  | some stage =>
    cases stage with
    | enter => exact hopen 0 h
    | writeLog t => exact hopen t h.1
    | writeHead => exact hopen _ h
    | installTrans t => exact hsealed t h.1
    | clear => exact hsealed _ h.1

/-- The result of all transactions whose header has reached the disk. -/
def value (disk : ℕ → Block) (m : Machine) : ℕ → Block := replay disk m.committed.flatten

theorem unlocked_eq (h : m.unlocked b = true) : (m.store.buf b).lock = none := by
  simpa [Machine.unlocked] using h

/-- A step of `commit` leads to the next stage, or out of `commit`. -/
theorem commit_stage (hloc : Located sb m)
    (h : StageInv sb (value disk m) m (some stage)) (hs : commit m p stage = some m') :
    (∃ next, m'.place = Function.update m.place p (.committing next) ∧
      StageInv sb (value disk m') m' (some next)) ∨
    (m'.place = Function.update m.place p .finishing ∧ StageInv sb (value disk m') m' none) := by
  cases stage with
  | enter =>
    simp only [commit] at hs
    split at hs
    · cases hs
      exact .inl ⟨_, rfl, h, Nat.zero_le _⟩
    · cases hs
      exact .inr ⟨rfl, h⟩
  | writeLog t =>
    obtain ⟨ho, hle⟩ := h
    simp only [commit] at hs
    split at hs
    · rename_i ht
      obtain ⟨⟨hto, hsrc⟩, hs⟩ := Option.ite_none_right_eq_some.mp hs
      cases hs
      have hne := ne_logBlock (ho.outside t ht) (ho.fits t ht)
      rw [← hloc.start] at hne
      have hw := writeLog_written (p := p) ho.handled (unlocked_eq hto) (unlocked_eq hsrc) hne
      rw [hloc.start] at hw
      exact .inl ⟨_, rfl, ho.writeLog ht hw, ht⟩
    · rename_i ht
      cases hs
      have htn : t = m.log.lh.n := by omega
      subst htn
      exact .inl ⟨_, rfl, ho⟩
  | writeHead =>
    obtain ⟨hstart, hs⟩ := Option.ite_none_right_eq_some.mp hs
    cases hs
    have ho : Open sb (value disk m) m.store m.log.lh m.pending m.log.lh.n := h
    have hw := writeHead_written (p := p) ho.handled (unlocked_eq hstart)
    rw [hloc.start] at hw
    have hvalue : replay (value disk m) m.pending =
        replay disk (m.committed ++ [m.pending]).flatten := by
      rw [value, ← replay_append, List.flatten_append, List.flatten_singleton]
    have hsealed := ho.seal hw
    rw [hvalue] at hsealed
    exact .inl ⟨_, rfl, hsealed, Nat.zero_le _, rfl⟩
  | installTrans t =>
    obtain ⟨hse, hle, hpending⟩ := h
    simp only [commit] at hs
    split at hs
    · rename_i ht
      obtain ⟨⟨hlbuf, hdbuf⟩, hs⟩ := Option.ite_none_right_eq_some.mp hs
      cases hs
      have hin : inLog sb (sb.logstart + t + 1) := hse.installing.fits t (hse.installing.n ▸ ht)
      have hne := ne_logBlock (hse.installing.not_inLog ht) hin
      rw [← hloc.start] at hne
      have hpin : 0 < pin m.log.lh t (m.log.lh.block t) := by
        rw [pin, if_pos ⟨t, ht, le_refl t, rfl⟩]
        exact Nat.zero_lt_one
      have hw := installTrans_written (p := p) false hse.handled (unlocked_eq hlbuf)
        (unlocked_eq hdbuf) hne fun _ => hpin
      rw [hloc.start] at hw
      exact .inl ⟨_, rfl, hse.install ht hw, ht, hpending⟩
    · rename_i ht
      cases hs
      have htn : t = m.log.lh.n := by omega
      subst htn
      exact .inl ⟨_, rfl, hse, hpending⟩
  | clear =>
    obtain ⟨hse, hpending⟩ := h
    obtain ⟨hstart, hs⟩ := Option.ite_none_right_eq_some.mp hs
    cases hs
    have hhandled := hse.handled
    rw [pin_n] at hhandled
    have hw : Written m.store
        (FileLog.writeHead m.store { m.log with lh := { m.log.lh with n := 0 } } p) m.log.start
        (withHead (content m.store m.log.start) { m.log.lh with n := 0 }) fun _ => 0 :=
      writeHead_written hhandled (unlocked_eq hstart)
    rw [hloc.start] at hw
    have ho := open_of_cleared (fun b hb => hse.installing.home hb)
      (fun b => hse.clean b not_unsaved_n) hw
    refine .inr ⟨rfl, ?_⟩
    simp only [StageInv, moveTo_pending, hpending]
    exact ho

/-! ## The running machine -/

/-- Nobody is in `commit`. -/
def NoneCommits (m : Machine) : Prop := ∀ p stage, m.place p ≠ .committing stage

structure Running (sb : Superblock) (goal : ℕ → Block) (m : Machine) : Prop where
  committing : ∀ p stage, m.place p = .committing stage → StageInv sb goal m (some stage)
  idle : NoneCommits m → StageInv sb goal m none

theorem running_of_none (hnone : NoneCommits m) (h : StageInv sb goal m none) :
    Running sb goal m :=
  ⟨fun p stage hp => absurd hp (hnone p stage), fun _ => h⟩

theorem running_of_one (hp : m.place p = .committing stage)
    (hother : ∀ q, q ≠ p → ∀ stage, m.place q ≠ .committing stage)
    (h : StageInv sb goal m (some stage)) : Running sb goal m := by
  refine ⟨?_, ?_⟩
  · intro q stage' hq
    by_cases hqp : q = p
    · rw [hqp, hp] at hq
      cases hq
      exact h
    · exact absurd hq (hother q hqp stage')
  · intro hnone
    exact absurd hp (hnone p stage)

theorem Running.durable (h : Running sb goal m) : Durable sb m.store.disk goal := by
  by_cases hnone : NoneCommits m
  · exact (h.idle hnone).durable
  · simp only [NoneCommits, not_forall, ne_eq, not_not] at hnone
    obtain ⟨p, stage, hp⟩ := hnone
    exact (h.committing p stage hp).durable

/-- A step that does not touch the log and after which the same processes commit. -/
theorem Running.congr (h : Running sb goal m)
    (hplace : ∀ q stage, m'.place q = .committing stage ↔ m.place q = .committing stage)
    (hstage : ∀ st, StageInv sb goal m st → StageInv sb goal m' st) : Running sb goal m' := by
  refine ⟨?_, ?_⟩
  · intro q stage hq
    exact hstage _ (h.committing q stage ((hplace q stage).mp hq))
  · intro hnone
    refine hstage none (h.idle ?_)
    intro q stage hq
    exact hnone q stage ((hplace q stage).mpr hq)

theorem inCommit_of_committing (h : m.place p = .committing stage) :
    (m.place p).inCommit = true := by simp [h, Place.inCommit]

theorem Turns.noneCommits (h : Turns m inside) (hc : m.log.committing = false) :
    NoneCommits m := by
  intro q stage hq
  have hin := inCommit_of_committing hq
  rw [h.no_committer hc] at hin
  cases hin

/-- A process that does not commit moves to a place outside `commit`. -/
theorem committing_moveTo_iff {place : Place} (hp : ∀ stage, m.place p ≠ .committing stage)
    (hplace : ∀ stage, place ≠ .committing stage) (q : ℕ) (stage : Stage) :
    (m.moveTo p place).place q = .committing stage ↔ m.place q = .committing stage := by
  by_cases hq : q = p
  · subst q
    simp [hp stage, hplace stage]
  · simp [hq]

theorem committing_wakeup_iff (q : ℕ) (stage : Stage) :
    m.wakeup.place q = .committing stage ↔ m.place q = .committing stage :=
  iff_of_eq (wakeup_apply (· = .committing stage) (by simp) m q)

/-! ### One lemma for each call -/

theorem Running.moveTo {place : Place} (h : Running sb goal m)
    (hp : ∀ stage, m.place p ≠ .committing stage) (hplace : ∀ stage, place ≠ .committing stage) :
    Running sb goal (m.moveTo p place) :=
  h.congr (committing_moveTo_iff hp hplace) fun _ hst => hst.of_eq rfl rfl rfl

theorem Running.setStore (h : Running sb goal m) (hdisk : s.disk = m.store.disk)
    (hcontent : content s = content m.store)
    (hhandled : ∀ pins, Handled m.store pins → Handled s pins) :
    Running sb goal (m.setStore s) :=
  h.congr (fun _ _ => Iff.rfl) fun _ hst => hst.setStore hdisk hcontent hhandled

theorem Running.recycle (h : Running sb goal m) (hb : (m.store.buf b).refcnt = 0) :
    Running sb goal (m.setStore (recycle m.store b)) := by
  refine h.congr (fun _ _ => Iff.rfl) ?_
  intro st hst
  refine hst.setStore rfl ?_ fun pins hpins => hpins.recycle hb
  rw [content_recycle, ← hst.content_of_free hb, update_eq_self]

/-- An operation ends. -/
theorem Running.endOp (h : Running sb goal m) (ht : Turns m inside)
    (hp : (m.place p).isInside = true) : Running sb goal (endOp m p) := by
  have hc := ht.not_committing hp
  have hnone := ht.noneCommits hc
  have hidle := h.idle hnone
  rcases endOp_cases (p := p) hc with ⟨-, heq⟩ | ⟨-, heq⟩
  · rw [heq]
    have hplace : ({ m with
        log := { m.log with outstanding := m.log.outstanding - 1, committing := true } }.moveTo p
          (.committing .enter)).place p = .committing .enter := by simp
    refine running_of_one hplace ?_ (hidle.of_eq rfl rfl rfl)
    intro q hq stage
    simpa [hq] using hnone q stage
  · rw [heq]
    refine running_of_none ?_ (hidle.of_eq rfl rfl rfl)
    intro q stage hcommit
    by_cases hq : q = p
    · simp [hq] at hcommit
    · rw [moveTo_place, update_of_ne hq, committing_wakeup_iff] at hcommit
      exact hnone q stage hcommit

theorem Running.commit (h : Running sb (value disk m) m) (hloc : Located sb m)
    (ht : Turns m inside) (hp : m.place p = .committing stage)
    (hs : commit m p stage = some m') : Running sb (value disk m') m' := by
  have hother : ∀ q, q ≠ p → ∀ stage', m.place q ≠ .committing stage' := by
    intro q hq stage' hq'
    exact hq (ht.unique q p (inCommit_of_committing hq') (inCommit_of_committing hp))
  rcases commit_stage hloc (h.committing p stage hp) hs with ⟨next, hplace, hst⟩ | ⟨hplace, hst⟩
  · refine running_of_one (p := p) (by rw [hplace, update_self]) ?_ hst
    intro q hq stage'
    rw [hplace, update_of_ne hq]
    exact hother q hq stage'
  · refine running_of_none ?_ hst
    intro q stage'
    by_cases hq : q = p
    · simp [hplace, hq]
    · rw [hplace, update_of_ne hq]
      exact hother q hq stage'

theorem Running.afterCommit (h : Running sb goal m) (hp : m.place p = .finishing) :
    Running sb goal (afterCommit m p) := by
  refine h.congr ?_ fun _ hst => hst.of_eq rfl rfl rfl
  intro q stage
  by_cases hq : q = p
  · subst q
    simp [FileLog.afterCommit, hp]
  · rw [FileLog.afterCommit, moveTo_place, update_of_ne hq, committing_wakeup_iff]

/-- A block that is in the header already. -/
theorem Open.absorb (h : Open sb goal s lh pending 0) (hheld : (s.buf b).lock ≠ none)
    (hout : ¬ inLog sb b) (hb : Logged lh b) :
    Open sb goal (s.setData b data) lh (pending ++ [(b, data)]) 0 := by
  refine h.update rfl (content_setData (h.handled.held b hheld)) ?_ h.fits hout h.distinct
    h.handled.setData
  intro c
  refine ⟨.inr, ?_⟩
  rintro (rfl | hc)
  · exact hb
  · exact hc

/-- A block that is added to the header. -/
theorem Open.append (h : Open sb goal s lh pending 0) (hheld : (s.buf b).lock ≠ none)
    (hout : ¬ inLog sb b) (hb : ¬ Logged lh b) (hroom : lh.n < sb.nlog - 1) :
    Open sb goal (bpin (s.setData b data) b) (lh.push b) (pending ++ [(b, data)]) 0 := by
  refine h.update rfl ?_ (fun c => logged_push_iff) ?_ hout (h.distinct.push hb) ?_
  · rw [content_bpin, content_setData (h.handled.held b hheld)]
  · intro i hi
    simp only [LogHeader.push] at hi
    exact .inr ⟨by omega, by omega⟩
  · rw [pin_push hb]
    exact h.handled.setData.bpin

/-! ## Recovery -/

/-- What holds at each point of `recover_from_log`. -/
def RecoveryInv (sb : Superblock) (goal : ℕ → Block) (m : Machine) : Recovery → Prop
  | .readHead => Durable sb m.store.disk goal
  | .installTrans t => Installing sb goal m.store.disk m.log.lh t ∧ t ≤ m.log.lh.n
  | .clear => Installing sb goal m.store.disk m.log.lh m.log.lh.n
  | .done => False

structure Recovering (sb : Superblock) (goal : ℕ → Block) (m : Machine) : Prop where
  handled : Handled m.store fun _ => 0
  unlocked : ∀ b, (m.store.buf b).lock = none
  clean : ∀ b, content m.store b = m.store.disk b
  pending : m.pending = []
  inv : RecoveryInv sb goal m m.recovery

theorem Recovering.durable (h : Recovering sb goal m) : Durable sb m.store.disk goal := by
  have hinv := h.inv
  cases hrec : m.recovery with
  | readHead => simpa only [hrec, RecoveryInv] using hinv
  | installTrans t =>
    simp only [hrec, RecoveryInv] at hinv
    exact hinv.1.toDurable
  | clear =>
    simp only [hrec, RecoveryInv] at hinv
    exact hinv.toDurable
  | done => simp only [hrec, RecoveryInv] at hinv

/-- Power is lost and comes back. -/
theorem recovering_boot (h : Durable sb disk goal) (committed : List (List (ℕ × Block))) :
    Recovering sb goal { boot sb disk with committed := committed } :=
  ⟨⟨fun _ => rfl, fun _ hlock => absurd rfl hlock⟩, fun _ => rfl, fun _ => rfl, rfl, h⟩

theorem Recovering.readHead (h : Recovering sb goal m) (hloc : Located sb m) :
    Recovering sb goal { m with
      store := (readHead m.store m.log p).2
      log := { m.log with lh := (FileLog.readHead m.store m.log p).1 }
      recovery := .installTrans 0 } := by
  have hdurable := h.durable
  obtain ⟨hlh, hdisk, hcontent, hlock, hhandled⟩ :=
    readHead_spec (p := p) h.handled (h.unlocked m.log.start)
  rw [h.clean, hloc.start] at hlh
  have hinstalling : Installing sb goal m.store.disk
      (headOf (m.store.disk sb.logstart) m.log.lh) 0 := by
    refine ⟨hdurable, rfl, ?_, installed_zero⟩
    intro i hi
    exact (if_pos hi).symm
  refine ⟨hhandled, ?_, ?_, h.pending, ?_⟩
  · intro b
    exact (hlock b).trans (h.unlocked b)
  · intro b
    change content (FileLog.readHead m.store m.log p).2 b = _
    rw [hcontent]
    exact h.clean b
  · simp only [RecoveryInv, hlh, hdisk]
    exact ⟨hinstalling, Nat.zero_le _⟩

theorem Recovering.install (h : Recovering sb goal m) (hloc : Located sb m)
    (hrec : m.recovery = .installTrans t) (ht : t < m.log.lh.n) :
    Recovering sb goal { m with
      store := installTrans m.store m.log p t true, recovery := .installTrans (t + 1) } := by
  have hinv := h.inv
  simp only [hrec, RecoveryInv] at hinv
  obtain ⟨hinstalling, -⟩ := hinv
  have hin : inLog sb (sb.logstart + t + 1) := hinstalling.fits t (hinstalling.n ▸ ht)
  have hne := ne_logBlock (hinstalling.not_inLog ht) hin
  rw [← hloc.start] at hne
  have hw := installTrans_written (p := p) true h.handled (h.unlocked _) (h.unlocked _) hne nofun
  rw [hloc.start, h.clean] at hw
  refine ⟨hw.handled, ?_, ?_, h.pending, ?_⟩
  · intro b
    exact (hw.lock b).trans (h.unlocked b)
  · intro b
    change content (installTrans m.store m.log p t true) b = _
    rw [hw.disk, hw.content]
    by_cases hb : b = m.log.lh.block t
    · rw [hb, update_self, update_self]
    · rw [update_of_ne hb, update_of_ne hb]
      exact h.clean b
  · refine ⟨?_, ht⟩
    change Installing sb goal (installTrans m.store m.log p t true).disk m.log.lh (t + 1)
    rw [hw.disk]
    exact hinstalling.succ ht

/-- The last write of recovery. -/
theorem Recovering.clear (h : Recovering sb goal m) (hloc : Located sb m)
    (hrec : m.recovery = .clear) :
    Open sb goal (writeHead m.store { m.log with lh := { m.log.lh with n := 0 } } p)
      { m.log.lh with n := 0 } [] 0 := by
  have hinv := h.inv
  simp only [hrec, RecoveryInv] at hinv
  have hw : Written m.store
      (writeHead m.store { m.log with lh := { m.log.lh with n := 0 } } p) m.log.start
      (withHead (content m.store m.log.start) { m.log.lh with n := 0 }) fun _ => 0 :=
    writeHead_written h.handled (h.unlocked _)
  rw [hloc.start] at hw
  exact open_of_cleared (fun b hb => hinv.home hb) h.clean hw

/-! ## Runs -/

/-- What holds of the disk in every state of a run from `disk`. -/
inductive CrashInv (sb : Superblock) (disk : ℕ → Block) (m : Machine) : Prop where
  | stopped (hp : m.panicked ≠ none) (hd : Durable sb m.store.disk (value disk m))
  | recovering (hp : m.panicked = none) (h : Recovering sb (value disk m) m)
  | running (hlive : m.Live) (h : Running sb (value disk m) m)

theorem CrashInv.durable (h : CrashInv sb disk m) : Durable sb m.store.disk (value disk m) := by
  cases h with
  | stopped _ hd => exact hd
  | recovering _ h => exact h.durable
  | running _ h => exact h.durable

theorem CrashInv.of_live (h : CrashInv sb disk m) (hlive : m.Live) :
    Running sb (value disk m) m := by
  cases h with
  | stopped hp => exact absurd hlive.1 hp
  | recovering _ h =>
    have hinv := h.inv
    simp only [hlive.2, RecoveryInv] at hinv
  | running _ h => exact h

theorem CrashInv.of_recovering (h : CrashInv sb disk m) (hp : m.panicked = none)
    (hrec : m.recovery ≠ .done) : Recovering sb (value disk m) m := by
  cases h with
  | stopped hp' => exact absurd hp hp'
  | recovering _ h => exact h
  | running hlive => exact absurd hlive.2 hrec

theorem CrashInv.recover (h : CrashInv sb disk m) (hloc : Located sb m) (ho : Orderly m)
    (hp : m.panicked = none) (hs : recoverFromLog m p = some m') : CrashInv sb disk m' := by
  cases hrec : m.recovery with
  | readHead =>
    have h := h.of_recovering hp (by simp [hrec])
    simp only [recoverFromLog, hrec] at hs
    cases hs
    exact .recovering hp (h.readHead hloc)
  | installTrans t =>
    have h := h.of_recovering hp (by simp [hrec])
    simp only [recoverFromLog, hrec] at hs
    split at hs
    · rename_i ht
      cases hs
      exact .recovering hp (h.install hloc hrec ht)
    · rename_i ht
      cases hs
      have hinv := h.inv
      simp only [hrec, RecoveryInv] at hinv
      have htn : t = m.log.lh.n := by omega
      subst htn
      exact .recovering hp ⟨h.handled, h.unlocked, h.clean, h.pending, hinv.1⟩
  | clear =>
    have hnot : m.recovery ≠ .done := by simp [hrec]
    have h := h.of_recovering hp hnot
    have hout := (ho.of_recovering hp hnot).out
    simp only [recoverFromLog, hrec] at hs
    cases hs
    refine .running ⟨hp, rfl⟩ (running_of_none ?_ ?_)
    · intro q stage hq
      cases (hout q).symm.trans hq
    · have hopen := h.clear (p := p) hloc hrec
      rw [← h.pending] at hopen
      exact hopen
  | done => simp [recoverFromLog, hrec] at hs

theorem Running.update (h : Running sb (value disk m) m) (hlive : m.Live) (hloc : Located sb m)
    (ht : Turns m inside) (hp : (m.place p).isInside = true)
    (hheld : (m.store.buf b).lock ≠ none) (hout : ¬ inLog sb b) :
    CrashInv sb disk (update m p b data) := by
  have hnone := ht.noneCommits (ht.not_committing hp)
  have ho : Open sb (value disk m) m.store m.log.lh m.pending 0 := h.idle hnone
  have hnone' : ∀ q stage, Function.update m.place p (.inside ((m.place p).blocks.insert b)) q ≠
      .committing stage := by
    intro q stage
    by_cases hq : q = p
    · simp [hq]
    · rw [update_of_ne hq]
      exact hnone q stage
  rcases update_cases m p b data with ⟨-, e, -, heq⟩ | ⟨-, hb, heq⟩ | ⟨hfits, hb, heq⟩
  · rw [heq]
    exact .stopped (by simp) h.durable
  · rw [heq]
    exact .running hlive (running_of_none hnone' (ho.absorb hheld hout hb))
  · rw [heq]
    have hroom : m.log.lh.n < sb.nlog - 1 := by
      rw [← hloc.size]
      exact hfits.2.1
    exact .running hlive (running_of_none hnone' (ho.append hheld hout hb hroom))

theorem CrashInv.step {a : Action} (h : CrashInv sb disk m) (hloc : Located sb m)
    (ho : Orderly m) (ha : WritesHome sb m a) (hs : step sb m a = some m') :
    CrashInv sb disk m' := by
  cases a with
  | crash =>
    cases hs
    exact .recovering rfl (recovering_boot h.durable m.committed)
  | recover p =>
    obtain ⟨hp, hs⟩ := Option.ite_none_right_eq_some.mp hs
    exact h.recover hloc ho hp hs
  | beginOp p =>
    obtain ⟨⟨hlive, hp⟩, hs⟩ := Option.ite_none_right_eq_some.mp hs
    cases hs
    have hr := h.of_live hlive
    have hout : ∀ stage, m.place p ≠ .committing stage := by
      rcases hp with hp | hp <;> simp [hp]
    rcases beginOp_cases m p with heq | ⟨-, -, heq⟩
    · rw [heq]
      exact .running hlive (hr.moveTo hout (by simp))
    · rw [heq]
      refine .running hlive (hr.congr (committing_moveTo_iff hout (by simp)) ?_)
      intro st hst
      exact hst.of_eq rfl rfl rfl
  | wake p =>
    obtain ⟨⟨hlive, hp⟩, hs⟩ := Option.ite_none_right_eq_some.mp hs
    cases hs
    exact .running hlive ((h.of_live hlive).moveTo (by simp [hp]) (by simp))
  | bread p b =>
    obtain ⟨⟨hlive, hb⟩, hs⟩ := Option.ite_none_right_eq_some.mp hs
    cases hs
    refine .running hlive ((h.of_live hlive).setStore rfl (content_bread ..) ?_)
    intro pins hpins
    exact hpins.bread (unlocked_eq hb)
  | brelse p b =>
    obtain ⟨⟨hlive, hb⟩, hs⟩ := Option.ite_none_right_eq_some.mp hs
    cases hs
    refine .running hlive ((h.of_live hlive).setStore rfl (content_brelse ..) ?_)
    intro pins hpins
    exact hpins.brelse (by simp [hb])
  | recycle b =>
    obtain ⟨⟨hlive, hb⟩, hs⟩ := Option.ite_none_right_eq_some.mp hs
    cases hs
    exact .running hlive ((h.of_live hlive).recycle hb)
  | update p b data =>
    obtain ⟨⟨hlive, hp, hheld⟩, hs⟩ := Option.ite_none_right_eq_some.mp hs
    cases hs
    obtain ⟨inside, ht⟩ := ho.of_live hlive
    exact (h.of_live hlive).update hlive hloc ht hp (by simp [hheld]) ha
  | endOp p =>
    obtain ⟨⟨hlive, hp⟩, hs⟩ := Option.ite_none_right_eq_some.mp hs
    cases hs
    obtain ⟨inside, ht⟩ := ho.of_live hlive
    obtain ⟨hpanicked, hrec, hcommitted⟩ := endOp_frame (p := p) (ht.not_committing hp)
    have hr := (h.of_live hlive).endOp ht hp
    rw [value, ← hcommitted] at hr
    exact .running ⟨hpanicked.trans hlive.1, hrec.trans hlive.2⟩ hr
  | commit p =>
    simp only [FileLog.step] at hs
    split at hs
    · rename_i stage hp
      obtain ⟨hlive, hs⟩ := Option.ite_none_right_eq_some.mp hs
      obtain ⟨inside, ht⟩ := ho.of_live hlive
      obtain ⟨-, -, -, hpanicked, hrec⟩ := commit_frame hs
      exact .running ⟨hpanicked.trans hlive.1, hrec.trans hlive.2⟩
        ((h.of_live hlive).commit hloc ht hp hs)
    · cases hs
  | afterCommit p =>
    obtain ⟨⟨hlive, hp⟩, hs⟩ := Option.ite_none_right_eq_some.mp hs
    cases hs
    exact .running hlive ((h.of_live hlive).afterCommit hp)

theorem crashInv_of_reachWhere (hempty : disk sb.logstart 0 = 0)
    (h : ReachWhere (step sb) (WritesHome sb) (boot sb disk) m) :
    Located sb m ∧ CrashInv sb disk m := by
  have hdurable : Durable sb disk (value disk (boot sb disk)) :=
    durable_of_empty hempty fun _ _ => rfl
  have hinv : Located sb m ∧ Orderly m ∧ CrashInv sb disk m := by
    refine h.invariant (I := fun m => Located sb m ∧ Orderly m ∧ CrashInv sb disk m)
      ⟨⟨rfl, rfl⟩, orderly_boot sb disk [], .recovering rfl (recovering_boot hdurable [])⟩ ?_
    rintro u a v ⟨hloc, ho, hu⟩ ha hv
    exact ⟨hloc.step hv, ho.step hv, hu.step hloc ho ha hv⟩
  exact ⟨hinv.1, hinv.2.2⟩

/-! ## Main result -/

/-- The loop of `install_trans` in recovery ends. -/
theorem exec_recover_install (hp : m.panicked = none) (hrec : m.recovery = .installTrans t) :
    ∃ k m', exec (step sb) m (List.replicate k (.recover p)) = some m' ∧
      m'.panicked = none ∧ m'.recovery = .clear := by
  -- The entries that are left decrease.
  induction hleft : m.log.lh.n - t generalizing m t with
  | zero =>
    have ht : ¬ t < m.log.lh.n := by omega
    refine ⟨1, { m with recovery := .clear }, ?_, hp, rfl⟩
    simp [exec, step, hp, recoverFromLog, hrec, ht]
  | succ k ih =>
    have ht : t < m.log.lh.n := by omega
    obtain ⟨k, m', hrun, hdone⟩ := ih (t := t + 1)
      (m := { m with
        store := installTrans m.store m.log p t true, recovery := .installTrans (t + 1) })
      hp rfl (by simp only; omega)
    refine ⟨k + 1, m', ?_, hdone⟩
    simpa [List.replicate_succ, exec, step, hp, recoverFromLog, hrec, ht] using hrun

/-- A recovery that is not interrupted completes. -/
theorem exec_recover_completes (sb : Superblock) (m : Machine) (p : ℕ) :
    ∃ k m', exec (step sb) m (.crash :: List.replicate k (.recover p)) = some m' ∧ m'.Live := by
  set m₁ : Machine := { boot sb m.store.disk with committed := m.committed } with hm₁
  set m₂ : Machine := { m₁ with
    store := (readHead m₁.store m₁.log p).2
    log := { m₁.log with lh := (readHead m₁.store m₁.log p).1 }
    recovery := .installTrans 0 } with hm₂
  obtain ⟨k, m₃, hrun, hnone, hclear⟩ :
      ∃ k m', exec (step sb) m₂ (List.replicate k (.recover p)) = some m' ∧
        m'.panicked = none ∧ m'.recovery = .clear := exec_recover_install rfl rfl
  set log : Log := { m₃.log with lh := { m₃.log.lh with n := 0 } } with hlog
  refine ⟨k + 2, { m₃ with store := writeHead m₃.store log p, log := log, recovery := .done }, ?_,
    hnone, rfl⟩
  have hfirst : step sb m₁ (.recover p) = some m₂ := rfl
  have hlast : step sb m₃ (.recover p) =
      some { m₃ with store := writeHead m₃.store log p, log := log, recovery := .done } := by
    simp [step, hnone, recoverFromLog, hclear, hlog]
  have hcrash : step sb m .crash = some m₁ := rfl
  rw [List.replicate_succ, List.replicate_succ']
  simp only [exec, hcrash, hfirst, Option.bind_some]
  rw [exec_append, hrun]
  simp only [exec, hlast, Option.bind_some]

/-- Whatever the operations have written outside the log region and wherever crashes have
fallen, also in earlier recoveries: once `recover_from_log` completes, the home blocks hold the
result of exactly the transactions whose header has reached the disk, and the header on the
disk is empty. -/
theorem recover_crash_atomic (hempty : disk sb.logstart 0 = 0)
    (h : ReachWhere (step sb) (WritesHome sb) (boot sb disk) m)
    (hs : step sb m (.recover p) = some m') (hdone : m'.recovery = .done) :
    (∀ b, ¬ inLog sb b → m'.store.disk b = replay disk m'.committed.flatten b) ∧
      m'.store.disk sb.logstart 0 = 0 := by
  obtain ⟨hloc, hinv⟩ := crashInv_of_reachWhere hempty h
  obtain ⟨hnone, hs⟩ := Option.ite_none_right_eq_some.mp hs
  cases hrec : m.recovery with
  | clear =>
    have hopen := (hinv.of_recovering hnone (by simp [hrec])).clear (p := p) hloc hrec
    simp only [recoverFromLog, hrec] at hs
    cases hs
    exact ⟨hopen.home, hopen.empty⟩
  | readHead =>
    simp only [recoverFromLog, hrec] at hs
    cases hs
    cases hdone
  | installTrans t =>
    simp only [recoverFromLog, hrec] at hs
    split at hs
    · cases hs
      cases hdone
    · cases hs
      cases hdone
  | done => simp [recoverFromLog, hrec] at hs

/-- An operation writes block 100; the machine loses power after the header is written, and
again in the first recovery. -/
def twoCrashes : List Action :=
  [.recover 0, .recover 0, .recover 0, .beginOp 0, .bread 0 100, .update 0 100 (fun _ => 7),
    .brelse 0 100, .endOp 0, .commit 0, .commit 0, .commit 0, .commit 0, .crash, .recover 0,
    .recover 0, .crash, .recover 0, .recover 0, .recover 0]

theorem recover_crash_atomic_twoCrashes :
    ∃ m m', ReachWhere (step mkfsSuperblock) (WritesHome mkfsSuperblock)
        (boot mkfsSuperblock fun _ _ => 0) m ∧
      step mkfsSuperblock m (.recover 0) = some m' ∧ m'.recovery = .done ∧
      m'.committed.flatten.map (fun e => (e.1, e.2 0)) = [(100, 7)] ∧
      m'.store.disk 100 0 = 7 ∧
      (∀ b, ¬ inLog mkfsSuperblock b →
        m'.store.disk b = replay (fun _ _ => 0) m'.committed.flatten b) ∧
      m'.store.disk mkfsSuperblock.logstart 0 = 0 := by
  have hrun : ((exec
      (fun m a => if WritesHome mkfsSuperblock m a then step mkfsSuperblock m a else none)
      (boot mkfsSuperblock fun _ _ => 0) twoCrashes).bind fun m =>
        (step mkfsSuperblock m (.recover 0)).map fun m' =>
          (m'.recovery, m'.committed.flatten.map (fun e => (e.1, e.2 0)), m'.store.disk 100 0)) =
            some (.done, [(100, 7)], 7) := by decide +kernel
  obtain ⟨m, hm, hlast⟩ := Option.bind_eq_some_iff.mp hrun
  obtain ⟨m', hs, hview⟩ := Option.map_eq_some_iff.mp hlast
  obtain ⟨hdone, hview⟩ := Prod.mk.inj hview
  obtain ⟨hcommitted, hblock⟩ := Prod.mk.inj hview
  have hreach := reachWhere_of_exec hm
  exact ⟨m, m', hreach, hs, hdone, hcommitted, hblock,
    recover_crash_atomic rfl hreach hs hdone⟩

end CS352.FileLog
