import CS352.Library.RingBuffer
import CS352.Library.Transition
import CS352.Model.Pipe

/-! # What a pipe delivers

The bytes in the buffer are those stored and not yet taken, whatever the interleaving and
however often the counters wrap. A byte that is taken is delivered unless `copyout` fails:
`piperead` has advanced `nread` by then, and the byte is gone. -/

namespace CS352.Pipe

open Transition RingBuffer

variable {ι : Type*} {s s' : State ι} {t : ι}

/-! ## Contents -/

/-- `nwrite - nread` in `uint` arithmetic. -/
def occupancy (p : Pipe) : ℕ := uint (p.nwrite + 2 ^ 32 - p.nread)

/-- The bytes between `nread` and `nwrite`. -/
def contents (p : Pipe) : List UInt8 :=
  (List.range (occupancy p)).map fun j => p.data ((p.nread + j) % pipeSize)

/-- The buffer and its counters hold these bytes. -/
abbrev Holds (p : Pipe) (bytes : List UInt8) : Prop :=
  Counts pipeSize (2 ^ 32) p.data p.nread p.nwrite bytes

theorem Holds.occupancy_eq {p : Pipe} {bytes : List UInt8} (h : Holds p bytes) :
    occupancy p = bytes.length :=
  Counts.length_eq h

theorem Holds.contents_eq {p : Pipe} {bytes : List UInt8} (h : Holds p bytes) :
    contents p = bytes := by
  rw [contents, h.occupancy_eq]
  exact (Counts.eq_map h).symm

/-! ## Good and bad states -/

/-- Every stored byte has been delivered or is in the buffer. -/
def Delivers (s : State ι) : Prop := s.stored = s.delivered ++ contents s.pipe

/-- The buffer is in order and nothing has been lost. -/
def Intact (s : State ι) : Prop :=
  ∃ bytes, Holds s.pipe bytes ∧ s.stored = s.delivered ++ bytes

/-- The buffer is in order, but fewer bytes are left or delivered than were stored. -/
def Lossy (s : State ι) : Prop :=
  ∃ bytes, Holds s.pipe bytes ∧ s.delivered.length + bytes.length < s.stored.length

theorem Intact.delivers (h : Intact s) : Delivers s := by
  obtain ⟨bytes, hholds, hstored⟩ := h
  rw [Delivers, hholds.contents_eq]
  exact hstored

theorem Lossy.not_delivers (h : Lossy s) : ¬ Delivers s := by
  obtain ⟨bytes, hholds, hless⟩ := h
  intro hdelivers
  rw [Delivers, hholds.contents_eq] at hdelivers
  rw [hdelivers, List.length_append] at hless
  exact absurd hless (lt_irrefl _)

theorem Intact.occupancy_le (h : Intact s) : occupancy s.pipe ≤ pipeSize := by
  obtain ⟨bytes, hholds, -⟩ := h
  rw [hholds.occupancy_eq]
  exact hholds.length_le

theorem Lossy.occupancy_le (h : Lossy s) : occupancy s.pipe ≤ pipeSize := by
  obtain ⟨bytes, hholds, -⟩ := h
  rw [hholds.occupancy_eq]
  exact hholds.length_le

/-! ## What a step can do -/

variable [DecidableEq ι]

/-- Thread `t` is about to take a byte and copy it out. -/
def copying (s : State ι) (t : ι) : Bool :=
  match s.place t with
  | .readCopy n i => i < n ∧ s.pipe.nread ≠ s.pipe.nwrite
  | _ => false

/-- The step is a `copyout` of `piperead` that fails. -/
def losesByte (s : State ι) : Action ι → Bool
  | .get t copyoutOk => copying s t && !copyoutOk
  | _ => false

/-- No `copyout` of `piperead` fails in this step. -/
def CopyoutsSucceed (s : State ι) (a : Action ι) : Prop := losesByte s a = false

instance (s : State ι) (a : Action ι) : Decidable (CopyoutsSucceed s a) :=
  inferInstanceAs (Decidable (_ = _))

/-- The effect of a step on the buffer and the history; `lost` says that a byte was taken and
not delivered. -/
inductive Effect (s s' : State ι) : Bool → Prop where
  | idle (hdata : s'.pipe.data = s.pipe.data) (hread : s'.pipe.nread = s.pipe.nread)
      (hwrite : s'.pipe.nwrite = s.pipe.nwrite) (hstored : s'.stored = s.stored)
      (hdelivered : s'.delivered = s.delivered) : Effect s s' false
  /-- A writer stores a byte into a buffer that is not full. -/
  | store (ch : UInt8) (hroom : s.pipe.nwrite ≠ uint (s.pipe.nread + pipeSize))
      (hdata : s'.pipe.data = Function.update s.pipe.data (s.pipe.nwrite % pipeSize) ch)
      (hread : s'.pipe.nread = s.pipe.nread) (hwrite : s'.pipe.nwrite = uint (s.pipe.nwrite + 1))
      (hstored : s'.stored = s.stored ++ [ch]) (hdelivered : s'.delivered = s.delivered) :
      Effect s s' false
  /-- A reader takes a byte from a buffer that is not empty. -/
  | take (lost : Bool) (hsome : s.pipe.nread ≠ s.pipe.nwrite)
      (hdata : s'.pipe.data = s.pipe.data) (hread : s'.pipe.nread = uint (s.pipe.nread + 1))
      (hwrite : s'.pipe.nwrite = s.pipe.nwrite) (hstored : s'.stored = s.stored)
      (hdelivered : s'.delivered = s.delivered ++
        if lost then [] else [s.pipe.data (s.pipe.nread % pipeSize)]) : Effect s s' lost

theorem pipewritePass_effect (s : State ι) (t : ι) (n i : ℤ) (killed : Bool)
    (byte : Option UInt8) : Effect s (pipewritePass s t n i killed byte) false := by
  unfold pipewritePass
  split
  · split
    · exact .idle rfl rfl rfl rfl rfl
    · split
      · exact .idle rfl rfl rfl rfl rfl
      · rename_i hroom
        cases byte with
        | none => exact .idle rfl rfl rfl rfl rfl
        | some ch => exact .store ch hroom rfl rfl rfl rfl rfl
  · exact .idle rfl rfl rfl rfl rfl

theorem pipereadTest_effect (s : State ι) (t : ι) (n : ℤ) (killed : Bool) :
    Effect s (pipereadTest s t n killed) false := by
  unfold pipereadTest
  split
  · split <;> exact .idle rfl rfl rfl rfl rfl
  · exact .idle rfl rfl rfl rfl rfl

/-- A pass that finds no byte ends the loop before `copyout`. -/
theorem pipereadPass_effect (s : State ι) (t : ι) (n i : ℤ) (copyoutOk : Bool) :
    Effect s (pipereadPass s t n i copyoutOk)
      (decide (i < n ∧ s.pipe.nread ≠ s.pipe.nwrite) && !copyoutOk) := by
  by_cases hin : i < n
  · by_cases hnone : s.pipe.nread = s.pipe.nwrite
    · simp only [pipereadPass, hin, hnone, ne_eq, not_true, and_false, decide_false,
        Bool.false_and, if_true]
      exact .idle rfl rfl rfl rfl rfl
    · simp only [pipereadPass, hin, hnone, ne_eq, not_false_eq_true, and_self, decide_true,
        Bool.true_and, if_true, if_false]
      cases copyoutOk with
      | false => exact .take true hnone rfl rfl rfl rfl (List.append_nil _).symm
      | true => exact .take false hnone rfl rfl rfl rfl rfl
  · simp only [pipereadPass, hin, false_and, decide_false, Bool.false_and, if_false]
    exact .idle rfl rfl rfl rfl rfl

theorem pipeStep_effect {a : Action ι} (h : pipeStep s a = some s') :
    Effect s s' (losesByte s a) := by
  unfold pipeStep at h
  split at h
  · cases h
  · cases a with
    | write t n | read t n =>
      obtain ⟨-, hs⟩ := Option.ite_none_right_eq_some.mp h
      cases hs
      exact .idle rfl rfl rfl rfl rfl
    | acquire t =>
      dsimp only at h
      split at h
      · obtain ⟨-, hs⟩ := Option.ite_none_right_eq_some.mp h
        cases hs
        exact .idle rfl rfl rfl rfl rfl
      · obtain ⟨-, hs⟩ := Option.ite_none_right_eq_some.mp h
        cases hs
        exact .idle rfl rfl rfl rfl rfl
      · cases h
    | put t killed byte =>
      dsimp only at h
      split at h
      · cases h
        exact pipewritePass_effect s t _ _ killed byte
      · cases h
    | test t killed =>
      dsimp only at h
      split at h
      · cases h
        exact pipereadTest_effect s t _ killed
      · cases h
    | get t copyoutOk =>
      dsimp only at h
      split at h
      · rename_i n i hplace
        cases h
        have hloses : losesByte s (.get t copyoutOk) =
            (decide (i < n ∧ s.pipe.nread ≠ s.pipe.nwrite) && !copyoutOk) := by
          simp only [losesByte, copying, hplace]
        rw [hloses]
        exact pipereadPass_effect s t n i copyoutOk
      · cases h
    | close writable =>
      obtain ⟨-, hs⟩ := Option.ite_none_right_eq_some.mp h
      cases hs
      cases writable <;> exact .idle rfl rfl rfl rfl rfl

/-! ## The buffer after a step -/

omit [DecidableEq ι] in
/-- The buffer stays in order. What it held and what a writer stored is what a reader took
and what it holds now. -/
theorem Effect.holds {lost : Bool} {bytes : List UInt8} (h : Effect s s' lost)
    (hholds : Holds s.pipe bytes) :
    ∃ put got bytes', Holds s'.pipe bytes' ∧ bytes ++ put = got ++ bytes' ∧
      s'.stored = s.stored ++ put ∧ s'.delivered = s.delivered ++ (if lost then [] else got) ∧
      (lost = true → got ≠ []) := by
  cases h with
  | idle hdata hread hwrite hstored hdelivered =>
    refine ⟨[], [], bytes, ?_, by simp, by simp [hstored], by simp [hdelivered], by simp⟩
    rw [Holds, hdata, hread, hwrite]
    exact hholds
  | store ch hroom hdata hread hwrite hstored hdelivered =>
    have hlen : bytes.length < pipeSize := by
      refine lt_of_le_of_ne hholds.length_le ?_
      intro hfull
      exact hroom (hholds.nwrite_eq_iff.mpr hfull)
    refine ⟨[ch], [], bytes ++ [ch], ?_, by simp, hstored, by simp [hdelivered], by simp⟩
    rw [Holds, hdata, hread, hwrite]
    exact hholds.push hlen
  | take lost hsome hdata hread hwrite hstored hdelivered =>
    cases bytes with
    | nil => exact absurd (hholds.nread_eq_nwrite_iff.mpr rfl) hsome
    | cons ch bytes =>
      obtain ⟨hch, hrest⟩ := hholds.pop
      refine ⟨[], [ch], bytes, ?_, by simp, by simp [hstored], ?_, by simp⟩
      · rw [Holds, hdata, hread, hwrite]
        exact hrest
      · rw [hdelivered, hch]

omit [DecidableEq ι] in
theorem Intact.effect (h : Intact s) (he : Effect s s' false) : Intact s' := by
  obtain ⟨bytes, hholds, hstored⟩ := h
  obtain ⟨put, got, bytes', hholds', hflow, hput, hgot, -⟩ := he.holds hholds
  refine ⟨bytes', hholds', ?_⟩
  calc s'.stored = s.delivered ++ (bytes ++ put) := by rw [hput, hstored, List.append_assoc]
    _ = s.delivered ++ (got ++ bytes') := by rw [hflow]
    _ = s'.delivered ++ bytes' := by rw [hgot, ← List.append_assoc]; rfl

omit [DecidableEq ι] in
theorem Intact.lossy (h : Intact s) (he : Effect s s' true) : Lossy s' := by
  obtain ⟨bytes, hholds, hstored⟩ := h
  obtain ⟨put, got, bytes', hholds', hflow, hput, hgot, hne⟩ := he.holds hholds
  refine ⟨bytes', hholds', ?_⟩
  have hlen := congrArg List.length hflow
  have hpos := List.length_pos_iff.mpr (hne rfl)
  rw [hput, hgot, hstored]
  simp only [List.length_append, if_true, List.length_nil] at hlen ⊢
  omega

omit [DecidableEq ι] in
theorem Lossy.effect {lost : Bool} (h : Lossy s) (he : Effect s s' lost) : Lossy s' := by
  obtain ⟨bytes, hholds, hless⟩ := h
  obtain ⟨put, got, bytes', hholds', hflow, hput, hgot, -⟩ := he.holds hholds
  refine ⟨bytes', hholds', ?_⟩
  have hlen := congrArg List.length hflow
  rw [hput, hgot]
  cases lost <;> simp only [List.length_append, if_true, Bool.false_eq_true, if_false,
    List.length_nil] at hlen ⊢ <;> omega

omit [DecidableEq ι] in
theorem intact_pipealloc (data : ℕ → UInt8) : Intact (pipealloc data : State ι) :=
  ⟨[], counts_nil (by decide) (by decide) (by simp [pipealloc]), rfl⟩

/-! ## Main result -/

/-- In every run the occupancy stays within the buffer. The bytes delivered followed by the
contents of the buffer are the bytes stored if and only if no `copyout` of `piperead` has
failed in the run. -/
theorem exec_delivers_iff {data : ℕ → UInt8} {as : List (Action ι)}
    (h : exec pipeStep (pipealloc data) as = some s) :
    occupancy s.pipe ≤ pipeSize ∧
      (s.stored = s.delivered ++ contents s.pipe ↔
        Along pipeStep CopyoutsSucceed (pipealloc data) as) := by
  have hgood : ∀ (s : State ι) a s', Intact s → CopyoutsSucceed s a → pipeStep s a = some s' →
      Intact s' := by
    intro s a s' hs hc hstep
    have heffect := pipeStep_effect hstep
    rw [hc] at heffect
    exact hs.effect heffect
  have hbreak : ∀ (s : State ι) a s', Intact s → ¬ CopyoutsSucceed s a →
      pipeStep s a = some s' → Lossy s' := by
    intro s a s' hs hc hstep
    have heffect := pipeStep_effect hstep
    rw [Bool.eq_true_of_not_eq_false hc] at heffect
    exact hs.lossy heffect
  rcases exec_along hgood hbreak (fun _ _ _ hs hstep => hs.effect (pipeStep_effect hstep))
    (intact_pipealloc data) h with ⟨halong, hintact⟩ | ⟨halong, hlossy⟩
  · exact ⟨hintact.occupancy_le, iff_of_true hintact.delivers halong⟩
  · exact ⟨hlossy.occupancy_le, iff_of_false hlossy.not_delivers halong⟩

/-- One thread writes three bytes and another reads two of them. -/
def sendBytes : List (Action Bool) :=
  [Action.write false 3, Action.acquire false, Action.put false false (some 65),
    Action.put false false (some 66), Action.put false false (some 67),
    Action.put false false none, Action.read true 2, Action.acquire true,
    Action.test true false, Action.get true true, Action.get true true, Action.get true true]

theorem exec_delivers_sendBytes :
    ∃ s, exec pipeStep (pipealloc fun _ => 5) sendBytes = some s ∧ s.delivered = [65, 66] ∧
      contents s.pipe = [67] ∧ s.stored = s.delivered ++ contents s.pipe := by
  have hrun : (exec (fun s a => if CopyoutsSucceed s a then pipeStep s a else none)
      (pipealloc fun _ => 5) sendBytes).map (fun s => (s.delivered, contents s.pipe)) =
        some ([65, 66], [67]) := by
    decide +kernel
  obtain ⟨s, hs, hview⟩ := Option.map_eq_some_iff.mp hrun
  obtain ⟨hdelivered, hcontents⟩ := Prod.mk.inj hview
  obtain ⟨hexec, halong⟩ := along_of_exec hs
  exact ⟨s, hexec, hdelivered, hcontents, (exec_delivers_iff hexec).2.mpr halong⟩

/-- One thread writes a byte, and the copy to the thread that asks for it fails. -/
def sendByte : List (Action Bool) :=
  [Action.write false 1, Action.acquire false, Action.put false false (some 65),
    Action.put false false none, Action.read true 1, Action.acquire true,
    Action.test true false, Action.get true false]

/-- The copy to the reader fails: the byte is neither delivered nor in the buffer. -/
theorem sendByte_lost :
    ∃ s, exec pipeStep (pipealloc fun _ => 5) sendByte = some s ∧ s.stored = [65] ∧
      s.delivered = [] ∧ contents s.pipe = [] := by
  have hrun : (exec pipeStep (pipealloc fun _ => 5) sendByte).map (fun s =>
      (s.stored, s.delivered, contents s.pipe)) = some ([65], [], []) := by
    decide +kernel
  obtain ⟨s, hs, hview⟩ := Option.map_eq_some_iff.mp hrun
  simp only [Prod.mk.injEq] at hview
  exact ⟨s, hs, hview⟩

end CS352.Pipe
