import CS352.Library.RingBuffer
import CS352.Library.Transition
import CS352.Model.Console
import Mathlib.Data.List.Induction

/-! # Lines on the console -/

namespace CS352.Console

open RingBuffer Transition Function

variable {P : Type*} [DecidableEq P] {s t : State P} {u : Users P} {p : P} {k : Cons} {c : UInt8}
  {got : List UInt8} {target : ℕ} {copyout : ℕ → Bool} {killed : Bool}

/-! ## A line editor -/

/-- The bytes that can be read, and the line that can still be changed. -/
structure Editor where
  ready : List UInt8
  line : List UInt8

variable {E : Editor}

/-- There is room for one more byte. -/
def Editor.store (E : Editor) (c : UInt8) : Editor × List Echo :=
  let c := if c = carriage then newline else c
  if c = newline ∨ c = ctrlD ∨ (E.ready ++ E.line).length + 1 = inputBufSize then
    (⟨E.ready ++ (E.line ++ [c]), []⟩, [.put c])
  else (⟨E.ready, E.line ++ [c]⟩, [.put c])

def Editor.key (E : Editor) (c : UInt8) : Editor × List Echo :=
  if c = ctrlP then (E, [])
  else if c = ctrlU then (⟨E.ready, []⟩, List.replicate E.line.length .backspace)
  else if c = ctrlH ∨ c = delete then
    if E.line ≠ [] then (⟨E.ready, E.line.dropLast⟩, [.backspace]) else (E, [])
  else if c ≠ 0 ∧ (E.ready ++ E.line).length < inputBufSize then E.store c
  else (E, [])

/-- A reader that wants `n` more bytes: what is left, what it has taken, and where it is then. -/
def Editor.read (target : ℕ) (copyout : ℕ → Bool) (killed : Bool) :
    ℕ → List UInt8 → List UInt8 → List UInt8 × List (UInt8 × Fate) × Reader
  | 0, ready, got => (ready, [], .returned got)
  | _ + 1, [], got => ([], [], if killed then .killed got else .asleep target got)
  | n + 1, c :: ready, got =>
    if c = ctrlD then
      if n + 1 < target then (c :: ready, [], .returned got)
      else (ready, [(c, .endOfFile)], .returned got)
    else if copyout got.length = false then (ready, [(c, .lost)], .returned got)
    else if c = newline then (ready, [(c, .copied)], .returned (got ++ [c]))
    else
      let q := Editor.read target copyout killed n ready (got ++ [c])
      (q.1, (c, .copied) :: q.2.1, q.2.2)

structure Editors (P : Type*) where
  editor : Editor
  users : Users P

/-- Readers are woken when there is more to read. -/
def Editors.step (s : Editors P) : Action P → Option (Editors P)
  | .key c =>
    let q := s.editor.key c
    let users := if q.1.ready ≠ s.editor.ready then s.users.wakeup else s.users
    some ⟨q.1, { users with echo := users.echo ++ q.2 }⟩
  | .call p n => (s.users.call p n).map fun users => { s with users := users }
  | .run p copyout =>
    match s.users.reader p with
    | .reading target got =>
      let q := Editor.read target copyout (s.users.killed p) (target - got.length) s.editor.ready
        got
      some ⟨⟨q.1, s.editor.line⟩, s.users.take p q.2.1 q.2.2⟩
    | _ => none
  | .kill p => some { s with users := s.users.kill p }

/-! ## The buffer -/

/-- The buffer holds the bytes of the editor. A line ends with the key that makes it ready, and so
does a full buffer. -/
structure Holds (k : Cons) (E : Editor) : Prop where
  counts : Counts inputBufSize (2 ^ 32) k.buf k.r k.e (E.ready ++ E.line)
  w_eq : k.w = (k.r + E.ready.length) % 2 ^ 32
  plain : newline ∉ E.line
  full : (E.ready ++ E.line).length = inputBufSize → E.line = []

theorem Holds.ready (h : Holds k E) : Counts inputBufSize (2 ^ 32) k.buf k.r k.w E.ready := by
  rw [h.w_eq]
  exact h.counts.left

theorem Holds.line (h : Holds k E) : Counts inputBufSize (2 ^ 32) k.buf k.w k.e E.line := by
  rw [h.w_eq]
  exact h.counts.right

theorem Holds.r_eq_w_iff (h : Holds k E) : k.r = k.w ↔ E.ready = [] := h.ready.nread_eq_nwrite_iff

theorem Holds.e_eq_w_iff (h : Holds k E) : k.e = k.w ↔ E.line = [] :=
  eq_comm.trans h.line.nread_eq_nwrite_iff

/-- The last byte of the line is taken back. -/
theorem Holds.erase {ready line : List UInt8} (h : Holds k ⟨ready, line ++ [c]⟩) :
    k.buf (k.before % inputBufSize) = c ∧ Holds { k with e := k.before } ⟨ready, line⟩ := by
  have hcounts : Counts inputBufSize (2 ^ 32) k.buf k.r k.e (ready ++ line ++ [c]) := by
    rw [List.append_assoc]
    exact h.counts
  have hle := hcounts.length_le
  rw [List.length_append, List.length_singleton] at hle
  obtain ⟨hcell, hcounts⟩ := hcounts.unpush
  refine ⟨hcell, hcounts, h.w_eq, fun hmem => h.plain (List.mem_append_left _ hmem),
    fun hfull => ?_⟩
  dsimp only at hfull
  omega

theorem Holds.killLine {ready line : List UInt8} (h : Holds k ⟨ready, line⟩) :
    Holds (killLine line.length k).1 ⟨ready, []⟩ ∧
      (Console.killLine line.length k).2 = List.replicate line.length .backspace := by
  induction line using List.reverseRecOn generalizing k with
  | nil => exact ⟨h, rfl⟩
  | append_singleton line c ih =>
    obtain ⟨hcell, herased⟩ := h.erase
    have hne : k.e ≠ k.w := fun heq => by simpa using h.e_eq_w_iff.mp heq
    have hplain : c ≠ newline := fun heq => h.plain (by simp [heq])
    rw [List.length_append, List.length_singleton, Console.killLine,
      if_pos ⟨hne, hcell.symm ▸ hplain⟩, List.replicate_succ]
    exact ⟨(ih herased).1, congrArg _ (ih herased).2⟩

theorem Holds.store (h : Holds k E) (hlen : (E.ready ++ E.line).length < inputBufSize) :
    Holds (store k c).1 (E.store c).1 ∧ (Console.store k c).2 =
      ((E.store c).2, decide ((E.store c).1.ready ≠ E.ready)) := by
  unfold Console.store Editor.store
  dsimp only
  generalize (if c = carriage then newline else c) = d
  have hpush : Counts inputBufSize (2 ^ 32) (update k.buf (k.e % inputBufSize) d) k.r
      (uint (k.e + 1)) (E.ready ++ (E.line ++ [d])) := by
    rw [← List.append_assoc]
    exact h.counts.push hlen
  have hlength : uint (uint (k.e + 1) + 2 ^ 32 - k.r) = (E.ready ++ E.line).length + 1 := by
    refine hpush.length_eq.trans ?_
    simp [Nat.add_assoc]
  rw [hlength]
  split_ifs with hdone
  · refine ⟨⟨?_, ?_, List.not_mem_nil, fun _ => rfl⟩, by simp⟩
    · simpa using hpush
    · exact hpush.nwrite_eq
  · simp only [not_or] at hdone
    refine ⟨⟨hpush, h.w_eq, ?_, ?_⟩, by simp⟩
    · simp [h.plain, Ne.symm hdone.1]
    · intro hfull
      exact absurd (by simpa [Nat.add_assoc] using hfull) hdone.2.2

/-- The readers are woken when there is more to read. -/
theorem Holds.key (h : Holds k E) (c : UInt8) : Holds (consoleintr k c).1 (E.key c).1 ∧
    (consoleintr k c).2 = ((E.key c).2, decide ((E.key c).1.ready ≠ E.ready)) := by
  have hlength : uint (k.e + 2 ^ 32 - k.r) = (E.ready ++ E.line).length := h.counts.length_eq
  have hline : uint (k.e + 2 ^ 32 - k.w) = E.line.length := h.line.length_eq
  unfold consoleintr Editor.key
  rw [hlength, hline]
  simp only [ne_eq, h.e_eq_w_iff]
  split_ifs with hp hu hh he hroom
  · exact ⟨h, by simp⟩
  · exact ⟨h.killLine.1, by simp [h.killLine.2]⟩
  · exact ⟨h, by simp⟩
  · obtain ⟨l, d, hl⟩ := (List.eq_nil_or_concat E.line).resolve_left he
    rw [List.concat_eq_append] at hl
    have h' : Holds k ⟨E.ready, l ++ [d]⟩ := by
      rw [← hl]
      exact h
    rw [hl, List.dropLast_concat]
    exact ⟨h'.erase.2, by simp⟩
  · exact h.store hroom.2
  · exact ⟨h, by simp⟩

theorem Holds.pop {ready line : List UInt8} (h : Holds k ⟨c :: ready, line⟩) :
    k.buf (k.r % inputBufSize) = c ∧ Holds { k with r := uint (k.r + 1) } ⟨ready, line⟩ := by
  have hle : (c :: (ready ++ line)).length ≤ inputBufSize := h.counts.length_le
  have hcounts := h.counts.pop
  refine ⟨hcounts.1, hcounts.2, ?_, h.plain, fun hfull => ?_⟩
  · rw [h.w_eq, uint, Nat.mod_add_mod, List.length_cons, Nat.add_assoc, Nat.add_comm 1]
  · have hlen : (ready ++ line).length = inputBufSize := hfull
    rw [List.length_cons] at hle
    omega

theorem Holds.read (h : Holds k E) (n : ℕ) (got : List UInt8) :
    Holds (readLoop target copyout killed n k got).1
        ⟨(Editor.read target copyout killed n E.ready got).1, E.line⟩ ∧
      (readLoop target copyout killed n k got).2 =
        (Editor.read target copyout killed n E.ready got).2 := by
  induction n generalizing k E got with
  | zero => exact ⟨h, rfl⟩
  | succ n ih =>
    obtain ⟨ready, line⟩ := E
    cases ready with
    | nil =>
      rw [readLoop, if_pos (h.r_eq_w_iff.mpr rfl), Editor.read]
      exact ⟨h, rfl⟩
    | cons c ready =>
      obtain ⟨hcell, hpop⟩ := h.pop
      have hne : k.r ≠ k.w := fun heq => by simpa using h.r_eq_w_iff.mp heq
      have hback : uint (uint (k.r + 1) + 2 ^ 32 - 1) = k.r := mod_pred h.counts.nread_lt
      rw [readLoop, if_neg hne, Editor.read]
      dsimp only
      rw [hcell, hback]
      split_ifs
      · exact ⟨h, rfl⟩
      · exact ⟨hpop, rfl⟩
      · exact ⟨hpop, rfl⟩
      · exact ⟨hpop, rfl⟩
      · obtain ⟨hrest, heq⟩ := ih hpop (got ++ [c])
        exact ⟨hrest, by rw [heq]⟩

/-! ## Runs -/

def bootEditors : Editors P := ⟨⟨[], []⟩, noUsers⟩

omit [DecidableEq P] in
theorem holds_boot : Holds (boot : State P).cons ⟨[], []⟩ :=
  ⟨counts_nil (by decide) (by decide) (Nat.two_pow_pos 32), rfl, List.not_mem_nil, fun _ => rfl⟩

theorem step_refines {a : Action P} (h : Holds s.cons E) (hs : step s a = some t) :
    ∃ F, Holds t.cons F ∧ Editors.step ⟨E, s.users⟩ a = some ⟨F, t.users⟩ := by
  cases a with
  | key c =>
    cases hs
    obtain ⟨hkey, hecho⟩ := h.key c
    refine ⟨_, hkey, ?_⟩
    rw [Editors.step, hecho]
    simp only [decide_eq_true_eq]
  | call p n =>
    obtain ⟨u, hu, rfl⟩ := Option.map_eq_some_iff.mp hs
    exact ⟨E, h, by rw [Editors.step, hu]; rfl⟩
  | run p copyout =>
    rw [step] at hs
    split at hs
    next target got hr =>
      cases hs
      obtain ⟨hread, heq⟩ := h.read (target - got.length) got
      exact ⟨_, hread, by simp only [Editors.step, hr, heq]⟩
    next => cases hs
  | kill p =>
    cases hs
    exact ⟨E, h, rfl⟩

theorem exec_refines_from {as : List (Action P)} (h : Holds s.cons E)
    (hrun : exec step s as = some t) :
    ∃ F, Holds t.cons F ∧ exec Editors.step ⟨E, s.users⟩ as = some ⟨F, t.users⟩ := by
  induction as generalizing s E with
  | nil =>
    cases hrun
    exact ⟨E, h, rfl⟩
  | cons a as ih =>
    rw [exec, Option.bind_eq_some_iff] at hrun
    obtain ⟨u, hstep, hrun⟩ := hrun
    obtain ⟨F, hF, heq⟩ := step_refines h hstep
    rw [exec, heq]
    exact ih hF hrun

theorem exec_refines_editor {as : List (Action P)} (hrun : exec step boot as = some t) :
    ∃ F, Holds t.cons F ∧ exec Editors.step bootEditors as = some ⟨F, t.users⟩ :=
  exec_refines_from holds_boot hrun

/-- A reader sleeps, a mistake is corrected, and the line is read. The second call finds only one
byte of room in the user's memory. -/
def typing : List (Action Bool) :=
  [.call true 10, .run true fun _ => true, .key 97, .key 98, .key 127, .key 99, .key 13,
    .run true fun _ => true, .call true 10, .key 100, .key 101, .key 10, .run true (· < 1),
    .key 102]

theorem exec_refines_editor_typing : ∃ t F, exec step boot typing = some t ∧ Holds t.cons F ∧
    exec Editors.step bootEditors typing = some ⟨F, t.users⟩ := by
  have hall : (exec step boot typing).isSome = true := by decide +kernel
  obtain ⟨t, ht⟩ := Option.isSome_iff_exists.mp hall
  obtain ⟨F, hF, heq⟩ := exec_refines_editor ht
  exact ⟨t, F, ht, hF, heq⟩

/-! ## What is seen -/

def shown (l : List UInt8) : Echo → List UInt8
  | .put c => l ++ [c]
  | .backspace => l.dropLast

/-- The screen after an echo. -/
def display (es : List Echo) : List UInt8 := es.foldl shown []

theorem shown_replicate (l line : List UInt8) :
    (List.replicate line.length Echo.backspace).foldl shown (l ++ line) = l := by
  induction line using List.reverseRecOn with
  | nil => exact List.append_nil l
  | append_singleton line c ih =>
    have hlast : shown (l ++ (line ++ [c])) .backspace = l ++ line := by
      rw [shown, ← List.append_assoc, List.dropLast_concat]
    rw [List.length_append, List.length_singleton, List.replicate_succ, List.foldl_cons, hlast,
      ih]

theorem shown_store (E : Editor) (c : UInt8) (l : List UInt8) :
    (E.store c).2.foldl shown (l ++ E.ready ++ E.line) =
      l ++ (E.store c).1.ready ++ (E.store c).1.line := by
  unfold Editor.store
  dsimp only
  split_ifs <;> simp [shown]

/-- The screen follows the editor. -/
theorem shown_key (E : Editor) (c : UInt8) (l : List UInt8) :
    (E.key c).2.foldl shown (l ++ E.ready ++ E.line) =
      l ++ (E.key c).1.ready ++ (E.key c).1.line := by
  unfold Editor.key
  split_ifs with hp hu hh he hroom
  · rfl
  · rw [List.append_nil]
    exact shown_replicate (l ++ E.ready) E.line
  · exact List.dropLast_append_of_ne_nil he
  · rfl
  · exact shown_store E c l
  · rfl

/-! ## What is read -/

/-- The bytes that are copied to the reader. -/
def copied (bytes : List (UInt8 × Fate)) : List UInt8 :=
  (bytes.filter fun b => b.2 = .copied).map Prod.fst

def takenBy (p : P) (taken : List (P × UInt8 × Fate)) : List (UInt8 × Fate) :=
  (taken.filter fun x => x.1 = p).map Prod.snd

theorem takenBy_take (q : P) (bytes : List (UInt8 × Fate)) (r : Reader) :
    takenBy q (u.take p bytes r).taken =
      takenBy q u.taken ++ if q = p then bytes else [] := by
  rw [Users.take, takenBy, List.filter_append, List.map_append, ← takenBy, List.filter_map,
    List.map_map]
  split_ifs with hq
  · simp [hq, comp_def]
  · simp [Ne.symm hq, comp_def]

/-- At most one line, without the end-of-file key. -/
def OneLine (bytes : List UInt8) : Prop := newline ∉ bytes.dropLast ∧ ctrlD ∉ bytes

theorem oneLine_of_not_mem (hnew : newline ∉ got) (hend : ctrlD ∉ got) : OneLine got :=
  ⟨fun hmem => hnew (List.dropLast_subset _ hmem), hend⟩

/-- A call that goes on has not seen the end of a line. -/
def Reader.Line : Reader → Prop
  | .out => True
  | .returned got | .killed got => OneLine got
  | .reading _ got | .asleep _ got => newline ∉ got ∧ ctrlD ∉ got

theorem Reader.Line.wake {r : Reader} (h : r.Line) : r.wake.Line := by
  cases r <;> exact h

@[simp] theorem reading_got (target : ℕ) (got : List UInt8) :
    (Reader.reading target got).got = got := rfl

@[simp] theorem wake_got (r : Reader) : r.wake.got = r.got := by
  cases r <;> rfl

theorem wake_ne_asleep (r : Reader) (target : ℕ) (got : List UInt8) :
    r.wake ≠ .asleep target got := by
  cases r <;> simp [Reader.wake]

/-- What a reader takes is the beginning of what is ready. -/
theorem read_append (n : ℕ) (ready got : List UInt8) :
    (Editor.read target copyout killed n ready got).2.1.map Prod.fst ++
      (Editor.read target copyout killed n ready got).1 = ready := by
  induction n generalizing ready got with
  | zero => rfl
  | succ n ih =>
    cases ready with
    | nil => rfl
    | cons c ready =>
      rw [Editor.read]
      split_ifs
      · rfl
      · rfl
      · rfl
      · rfl
      · exact congrArg (c :: ·) (ih ready (got ++ [c]))

theorem read_got (n : ℕ) (ready got : List UInt8) :
    (Editor.read target copyout killed n ready got).2.2.got =
      got ++ copied (Editor.read target copyout killed n ready got).2.1 := by
  induction n generalizing ready got with
  | zero => exact (List.append_nil got).symm
  | succ n ih =>
    cases ready with
    | nil =>
      rw [Editor.read]
      split_ifs
      · exact (List.append_nil got).symm
      · exact (List.append_nil got).symm
    | cons c ready =>
      rw [Editor.read]
      split_ifs
      · exact (List.append_nil got).symm
      · exact (List.append_nil got).symm
      · exact (List.append_nil got).symm
      · rfl
      · exact (ih ready (got ++ [c])).trans (List.append_assoc got [c] _)

/-- Only an end-of-file key ends a file, and only a copy that fails loses a byte. -/
theorem read_fate (n : ℕ) (ready got : List UInt8) {b : UInt8 × Fate}
    (hb : b ∈ (Editor.read target copyout killed n ready got).2.1) :
    (b.2 = .endOfFile → b.1 = ctrlD) ∧ (b.2 = .lost → ∃ i, copyout i = false) := by
  induction n generalizing ready got with
  | zero => cases hb
  | succ n ih =>
    cases ready with
    | nil => cases hb
    | cons c ready =>
      rw [Editor.read] at hb
      split_ifs at hb with hc hn hf hl
      · cases hb
      · rw [List.mem_singleton] at hb
        simp [hb, hc]
      · rw [List.mem_singleton] at hb
        simp only [hb, reduceCtorEq, false_implies, true_and, true_implies]
        exact ⟨_, hf⟩
      · rw [List.mem_singleton] at hb
        simp [hb]
      · rcases List.mem_cons.mp hb with hb | hb
        · simp [hb]
        · exact ih ready (got ++ [c]) hb

theorem read_line (n : ℕ) (ready : List UInt8) (hnew : newline ∉ got) (hend : ctrlD ∉ got) :
    (Editor.read target copyout killed n ready got).2.2.Line := by
  have hone := oneLine_of_not_mem hnew hend
  induction n generalizing ready got with
  | zero => exact hone
  | succ n ih =>
    cases ready with
    | nil =>
      rw [Editor.read]
      split_ifs
      · exact hone
      · exact ⟨hnew, hend⟩
    | cons c ready =>
      rw [Editor.read]
      split_ifs with hc hn hf hl
      · exact hone
      · exact hone
      · exact hone
      · refine ⟨?_, ?_⟩
        · rwa [List.dropLast_concat]
        · simp [hend, Ne.symm hc]
      · have hnew' : newline ∉ got ++ [c] := by simp [hnew, Ne.symm hl]
        have hend' : ctrlD ∉ got ++ [c] := by simp [hend, Ne.symm hc]
        exact ih ready hnew' hend' (oneLine_of_not_mem hnew' hend')

/-- A reader goes to sleep when nothing is left. -/
theorem read_asleep {n : ℕ} {ready : List UInt8} {target' : ℕ} {got' : List UInt8}
    (h : (Editor.read target copyout killed n ready got).2.2 = .asleep target' got') :
    (Editor.read target copyout killed n ready got).1 = [] := by
  induction n generalizing ready got with
  | zero => cases h
  | succ n ih =>
    cases ready with
    | nil => rfl
    | cons c ready =>
      rw [Editor.read] at h ⊢
      split_ifs at h ⊢ with hc hn hf hl
      exact ih h

/-- With a line that has been ended a call returns. -/
theorem read_returns (n : ℕ) {ready : List UInt8} (h : newline ∈ ready ∨ ctrlD ∈ ready)
    (got : List UInt8) :
    ∃ got', (Editor.read target copyout killed n ready got).2.2 = .returned got' := by
  induction n generalizing ready got with
  | zero => exact ⟨got, rfl⟩
  | succ n ih =>
    cases ready with
    | nil => simp at h
    | cons c ready =>
      rw [Editor.read]
      split_ifs with hc hn hf hl
      · exact ⟨got, rfl⟩
      · exact ⟨got, rfl⟩
      · exact ⟨got, rfl⟩
      · exact ⟨_, rfl⟩
      · have hrest : newline ∈ ready ∨ ctrlD ∈ ready := by
          simpa [Ne.symm hc, Ne.symm hl] using h
        exact ih hrest _

/-- What the calls of a process have got is what has been copied to it, in this order, and each
call gets at most one line. -/
structure Users.Delivered (u : Users P) : Prop where
  got : ∀ p, (u.results p).flatten ++ (u.reader p).got = copied (takenBy p u.taken)
  results : ∀ p, ∀ bytes ∈ u.results p, OneLine bytes
  line : ∀ p, (u.reader p).Line
  endOfFile : ∀ x ∈ u.taken, x.2.2 = .endOfFile → x.2.1 = ctrlD

theorem delivered_none : (noUsers : Users P).Delivered :=
  ⟨fun _ => rfl, fun _ _ h => absurd h List.not_mem_nil, fun _ => trivial,
    fun _ h => absurd h List.not_mem_nil⟩

theorem Users.Delivered.echo (h : u.Delivered) (es : List Echo) :
    { u with echo := es }.Delivered := ⟨h.got, h.results, h.line, h.endOfFile⟩

theorem Users.Delivered.wakeup (h : u.Delivered) : u.wakeup.Delivered where
  got p := (congrArg _ (wake_got (u.reader p))).trans (h.got p)
  results := h.results
  line p := (h.line p).wake
  endOfFile := h.endOfFile

theorem Users.Delivered.kill (h : u.Delivered) (p : P) : (u.kill p).Delivered where
  got q := by
    rw [← show _ = copied (takenBy q (u.kill p).taken) from h.got q]
    by_cases hq : q = p
    · subst hq
      simp [Users.kill]
    · simp [Users.kill, hq]
  results := h.results
  line := (forall_update_iff u.reader fun _ r => r.Line).mpr
    ⟨(h.line p).wake, fun q _ => h.line q⟩
  endOfFile := h.endOfFile

theorem Users.call_eq {n : ℕ} {v : Users P} (hv : u.call p n = some v) :
    v.reader = update u.reader p (.reading n []) ∧ v.echo = u.echo ∧
      v.taken = u.taken := by
  rw [Users.call] at hv
  split at hv <;> cases hv <;> exact ⟨rfl, rfl, rfl⟩

/-- A new call has no bytes yet. -/
theorem Users.Delivered.call {n : ℕ} {v : Users P} (h : u.Delivered) (hv : u.call p n = some v) :
    v.Delivered := by
  have hreading : ∀ q, (update u.reader p (.reading n []) q).Line :=
    (forall_update_iff u.reader fun _ r => r.Line).mpr
      ⟨⟨List.not_mem_nil, List.not_mem_nil⟩, fun q _ => h.line q⟩
  -- the call before, if there was one, has ended
  have hended : ∀ got, (u.reader p).got = got → OneLine got → Users.Delivered { u with
      reader := update u.reader p (.reading n [])
      results := update u.results p (u.results p ++ [got]) } := by
    intro got hgot hone
    refine ⟨fun q => (h.got q).symm.trans ?_ |>.symm, ?_, hreading, h.endOfFile⟩
    · by_cases hq : q = p
      · subst hq
        simp [hgot]
      · simp [hq]
    · refine (forall_update_iff u.results fun _ l => ∀ bytes ∈ l, OneLine bytes).mpr
        ⟨fun bytes hmem => ?_, fun q _ => h.results q⟩
      rcases List.mem_append.mp hmem with hmem | hmem
      · exact h.results p bytes hmem
      · rwa [List.mem_singleton.mp hmem]
  have hline := h.line p
  cases hr : u.reader p with
  | reading target got => simp [Users.call, hr] at hv
  | asleep target got => simp [Users.call, hr] at hv
  | out =>
    simp only [Users.call, hr, Option.some.injEq] at hv
    subst hv
    refine ⟨fun q => (h.got q).symm.trans ?_ |>.symm, h.results, hreading, h.endOfFile⟩
    by_cases hq : q = p
    · subst hq
      simp [hr, Reader.got]
    · simp [hq]
  | returned got | killed got =>
    rw [hr] at hline
    simp only [Users.call, hr, Option.some.injEq] at hv
    subst hv
    exact hended got (congrArg Reader.got hr) hline

theorem Users.Delivered.take {bytes : List (UInt8 × Fate)} {r : Reader} (h : u.Delivered)
    (hgot : r.got = (u.reader p).got ++ copied bytes) (hline : r.Line)
    (hfate : ∀ b ∈ bytes, b.2 = .endOfFile → b.1 = ctrlD) : (u.take p bytes r).Delivered where
  got q := by
    have hcopied : copied (takenBy q (u.take p bytes r).taken) =
        copied (takenBy q u.taken) ++ if q = p then copied bytes else [] := by
      rw [takenBy_take]
      split_ifs <;> simp [copied]
    rw [hcopied, ← h.got q]
    by_cases hq : q = p
    · subst hq
      simp [Users.take, hgot]
    · simp [Users.take, hq]
  results := h.results
  line := (forall_update_iff u.reader fun _ r => r.Line).mpr ⟨hline, fun q _ => h.line q⟩
  endOfFile := by
    intro x hx
    rcases List.mem_append.mp hx with hx | hx
    · exact h.endOfFile x hx
    · obtain ⟨b, hb, rfl⟩ := List.mem_map.mp hx
      exact hfate b hb

/-! ## Whole runs -/

/-- No reader sleeps while there is something to read. -/
structure Editors.Seen (s : Editors P) : Prop where
  screen : display s.users.echo =
    s.users.taken.map (·.2.1) ++ s.editor.ready ++ s.editor.line
  delivered : s.users.Delivered
  asleep : ∀ p target got, s.users.reader p = .asleep target got → s.editor.ready = []

theorem seen_boot : (bootEditors : Editors P).Seen :=
  ⟨rfl, delivered_none, fun _ _ _ h => nomatch h⟩

theorem Editors.Seen.key {s t : Editors P} (h : s.Seen) (hs : s.step (.key c) = some t) :
    t.Seen := by
  have hscreen : display (s.users.echo ++ (s.editor.key c).2) =
      s.users.taken.map (·.2.1) ++ (s.editor.key c).1.ready ++ (s.editor.key c).1.line := by
    have hbefore : s.users.echo.foldl shown [] = _ := h.screen
    rw [display, List.foldl_append, hbefore, shown_key]
  cases hs
  by_cases hready : (s.editor.key c).1.ready = s.editor.ready
  · rw [if_neg (not_not.mpr hready)]
    exact ⟨hscreen, h.delivered.echo _,
      fun p target got hp => hready.trans (h.asleep p target got hp)⟩
  · rw [if_pos hready]
    exact ⟨hscreen, h.delivered.wakeup.echo _,
      fun p target got hp => absurd hp (wake_ne_asleep _ _ _)⟩

theorem Editors.Seen.run {s t : Editors P} (h : s.Seen) (hs : s.step (.run p copyout) = some t) :
    t.Seen := by
  rw [Editors.step] at hs
  split at hs
  next target got hr =>
    have hline : (Reader.reading target got).Line := hr ▸ h.delivered.line p
    have hsplit : (Editor.read target copyout (s.users.killed p) (target - got.length)
      s.editor.ready got).2.1.map Prod.fst ++ _ = s.editor.ready := read_append _ _ _
    cases hs
    refine ⟨?_, h.delivered.take ?_ (read_line _ _ hline.1 hline.2)
      fun b hb => (read_fate _ _ _ hb).1, fun q target' got' hq => ?_⟩
    · refine h.screen.trans ?_
      simp only [Users.take, List.map_append, List.map_map, List.append_assoc]
      rw [← List.append_assoc (List.map _ (Editor.read ..).2.1)]
      exact congrArg (fun l => s.users.taken.map (·.2.1) ++ (l ++ s.editor.line)) hsplit.symm
    · rw [hr]
      exact read_got _ _ _
    · by_cases hqp : q = p
      · subst hqp
        exact read_asleep ((update_self ..).symm.trans hq)
      · -- nothing was ready, so nothing is left
        have hasleep := h.asleep q target' got' ((update_of_ne hqp ..).symm.trans hq)
        exact (List.append_eq_nil_iff.mp (hsplit.trans hasleep)).2
  next => cases hs

theorem Editors.Seen.step {s t : Editors P} {a : Action P} (h : s.Seen)
    (hs : Editors.step s a = some t) : t.Seen := by
  cases a with
  | key c => exact h.key hs
  | run p copyout => exact h.run hs
  | call p n =>
    obtain ⟨v, hv, rfl⟩ := Option.map_eq_some_iff.mp hs
    obtain ⟨hreader, hecho, htaken⟩ := Users.call_eq hv
    refine ⟨by rw [hecho, htaken]; exact h.screen, h.delivered.call hv,
      fun q target got hq => ?_⟩
    rw [hreader] at hq
    by_cases hqp : q = p
    · subst hqp
      simp at hq
    · exact h.asleep q target got ((update_of_ne hqp ..).symm.trans hq)
  | kill p =>
    cases hs
    refine ⟨h.screen, h.delivered.kill p, fun q target got hq => ?_⟩
    by_cases hqp : q = p
    · subst hqp
      exact absurd ((update_self ..).symm.trans hq) (wake_ne_asleep _ _ _)
    · exact h.asleep q target got ((update_of_ne hqp ..).symm.trans hq)

/-- Every copy to the user succeeds. -/
def Copies : Action P → Prop
  | .run _ copyout => ∀ i, copyout i = true
  | _ => True

/-- Only a copy that fails loses a byte. -/
theorem Editors.step_not_lost {s t : Editors P} {a : Action P} (hs : s.step a = some t)
    (ha : Copies a) (h : ∀ x ∈ s.users.taken, x.2.2 ≠ .lost) :
    ∀ x ∈ t.users.taken, x.2.2 ≠ .lost := by
  cases a with
  | key c =>
    cases hs
    dsimp only
    split_ifs
    · exact h
    · exact h
  | call p n =>
    obtain ⟨v, hv, rfl⟩ := Option.map_eq_some_iff.mp hs
    rw [(Users.call_eq hv).2.2]
    exact h
  | run p copyout =>
    rw [Editors.step] at hs
    split at hs
    next target got hr =>
      cases hs
      intro x hx
      rcases List.mem_append.mp hx with hx | hx
      · exact h x hx
      · obtain ⟨b, hb, rfl⟩ := List.mem_map.mp hx
        intro hlost
        obtain ⟨i, hi⟩ := (read_fate _ _ _ hb).2 hlost
        exact absurd (ha i) (by simp [hi])
    next => cases hs
  | kill p =>
    cases hs
    exact h

theorem exec_console {as : List (Action P)} (h : exec step boot as = some t) : ∃ E,
    Holds t.cons E ∧
    display t.users.echo = t.users.taken.map (·.2.1) ++ E.ready ++ E.line ∧
    t.users.Delivered ∧
    ((∀ a ∈ as, Copies a) → ∀ x ∈ t.users.taken, x.2.2 ≠ .lost) ∧
    (∀ p target got, t.users.reader p = .asleep target got → E.ready = []) ∧
    ∀ p target got copyout, t.users.reader p = .reading target got →
      newline ∈ E.ready ∨ ctrlD ∈ E.ready →
        ∃ u got', step t (.run p copyout) = some u ∧ u.users.reader p = .returned got' := by
  obtain ⟨E, hE, hrun⟩ := exec_refines_from holds_boot h
  have hseen : Editors.Seen ⟨E, t.users⟩ :=
    (reach_of_exec hrun).invariant seen_boot fun u a v hu _ hstep => hu.step hstep
  refine ⟨E, hE, hseen.screen, hseen.delivered, fun hcopies => ?_, hseen.asleep,
    fun p target got copyout hp hready => ?_⟩
  · have hreach := reachWhere_of_along (C := fun _ a => Copies a) hrun
      (along_of_forall fun a ha _ => hcopies a ha)
    exact hreach.invariant (I := fun u => ∀ x ∈ u.users.taken, x.2.2 ≠ .lost)
      (fun x hx => absurd hx List.not_mem_nil)
      fun u a v hu ha hstep => Editors.step_not_lost hstep ha hu
  · obtain ⟨got', hgot⟩ : ∃ got', (Editor.read target copyout (t.users.killed p)
        (target - got.length) E.ready got).2.2 = .returned got' := read_returns _ hready got
    refine ⟨_, got', by simp only [step, hp]; rfl, ?_⟩
    dsimp only [Users.take]
    rw [update_self, (hE.read _ got).2, hgot]

theorem exec_console_typing : ∃ t, exec step boot typing = some t ∧
    t.users.results true = [[97, 99, 10]] ∧ t.users.reader true = .returned [100] ∧
    (true, 101, .lost) ∈ t.users.taken ∧
    ∃ E, Holds t.cons E ∧
      display t.users.echo = t.users.taken.map (·.2.1) ++ E.ready ++ E.line := by
  have hall : (exec step boot typing).map (fun t =>
      (t.users.results true, t.users.reader true, decide ((true, 101, .lost) ∈ t.users.taken))) =
      some ([[97, 99, 10]], .returned [100], true) := by decide +kernel
  obtain ⟨t, ht, heq⟩ := Option.map_eq_some_iff.mp hall
  simp only [Prod.mk.injEq, decide_eq_true_eq] at heq
  obtain ⟨E, hE, hscreen, -⟩ := exec_console ht
  exact ⟨t, ht, heq.1, heq.2.1, heq.2.2, E, hE, hscreen⟩

end CS352.Console
