import CS352.Library.Transition
import CS352.Model.ShellRun
import CS352.Verification.Shell.Unparse

/-! # The descriptors of the programs

Whatever the order in which the processes of a command run, every program that is started has the
descriptors that the command gives it, and no others. So the write end of a pipe is held by the
left side of the pipe only, and the right side sees its end. -/

namespace CS352.Shell

open Function

/-! ## Which descriptors a part of a command has -/

structure Setting where
  stdin : Obj
  stdout : Obj

def Setting.fds (σ : Setting) : Fds := std σ.stdin σ.stdout (.inherited 2)

/-- The file takes the place of the descriptor. -/
def Setting.redirect (σ : Setting) (file : List Char) (mode : UInt32) (fd : ℕ) : Setting :=
  if fd = 0 then { σ with stdin := .file file mode } else { σ with stdout := .file file mode }

abbrev Node := List Side

/-- The parts of a command and the descriptors that they are to have, where `pipes` tells which
pipe was made for a part. -/
inductive Part (pipes : Node → Option ℕ) (root : Cmd (List Char)) :
    Node → Cmd (List Char) → Setting → Prop where
  | top : Part pipes root [.top] root ⟨.inherited 0, .inherited 1⟩
  | redir {p c file mode fd σ} : Part pipes root p (.redir c file mode fd) σ →
      Part pipes root (.sub :: p) c (σ.redirect file mode fd)
  | listLeft {p l r σ} : Part pipes root p (.list l r) σ → Part pipes root (.left :: p) l σ
  | listRight {p l r σ} : Part pipes root p (.list l r) σ → Part pipes root (.right :: p) r σ
  | back {p c σ} : Part pipes root p (.back c) σ → Part pipes root (.sub :: p) c σ
  | pipeLeft {p l r σ k} : Part pipes root p (.pipe l r) σ → pipes p = some k →
      Part pipes root (.left :: p) l { σ with stdout := .pipeWrite k }
  | pipeRight {p l r σ k} : Part pipes root p (.pipe l r) σ → pipes p = some k →
      Part pipes root (.right :: p) r { σ with stdin := .pipeRead k }

/-- The table between `pipe` and the calls of `close`. -/
def Setting.piped (σ : Setting) (k : ℕ) : Fds :=
  update (update σ.fds 3 (some (.pipeRead k))) 4 (some (.pipeWrite k))

/-- What a process does next and its table, once it has closed and duplicated the descriptors
that it is about to. -/
def settle : Code → Fds → Code × Fds
  | .close fd next, fds => settle next (update fds fd none)
  | .dup fd next, fds => settle next (fds.dup fd)
  | code, fds => (code, fds)

/-- A process at a part of the command, with the table that it has to have. -/
inductive Wired (pipes : Node → Option ℕ) (root : Cmd (List Char)) : Node → Code → Fds → Prop where
  | runcmd {side p c σ} : Part pipes root (side :: p) c σ →
      Wired pipes root p (.runcmd side c) σ.fds
  | exec {p argv σ} : Part pipes root p (.exec argv) σ → Wired pipes root p (.exec argv) σ.fds
  | program {p argv σ} : Part pipes root p (.exec argv) σ →
      Wired pipes root p (.program argv) σ.fds
  | redir {p c file mode fd σ} : Part pipes root p (.redir c file mode fd) σ →
      Wired pipes root p (.openFile file mode (.runcmd .sub c)) (update σ.fds fd none)
  | listFork {p l r σ} : Part pipes root p (.list l r) σ →
      Wired pipes root p (.fork (.runcmd .left l) (.wait (.runcmd .right r))) σ.fds
  | listWait {p l r σ} : Part pipes root p (.list l r) σ →
      Wired pipes root p (.wait (.runcmd .right r)) σ.fds
  | back {p c σ} : Part pipes root p (.back c) σ →
      Wired pipes root p (.fork (.runcmd .sub c) (.exit 0)) σ.fds
  | pipeFork {p l r σ k} : Part pipes root p (.pipe l r) σ → pipes p = some k →
      Wired pipes root p (pipeCode l r 3 4) (σ.piped k)
  | pipeForkRight {p l r σ k} : Part pipes root p (.pipe l r) σ → pipes p = some k →
      Wired pipes root p
        (.fork (.close 0 (.dup 3 (.close 3 (.close 4 (.runcmd .right r)))))
          (.close 3 (.close 4 (.wait (.wait (.exit 0)))))) (σ.piped k)
  | pipeWait {p l r σ} : Part pipes root p (.pipe l r) σ →
      Wired pipes root p (.wait (.wait (.exit 0))) σ.fds
  | pipeWaitLast {p l r σ} : Part pipes root p (.pipe l r) σ →
      Wired pipes root p (.wait (.exit 0)) σ.fds
  | exit {p status fds} : Wired pipes root p (.exit status) fds
  | zombie {p} : Wired pipes root p .zombie fun _ => none
  | gone {p} : Wired pipes root p .gone fun _ => none

variable {pipes pipes' : Node → Option ℕ} {root : Cmd (List Char)} {p p' : Node} {σ : Setting}
  {c l r : Cmd (List Char)} {code : Code} {fds : Fds} {k fd : ℕ}

/-! ## Tables -/

/-- The parent closes both ends. -/
theorem settle_parent (σ : Setting) (k : ℕ) :
    settle (.close 3 (.close 4 (.wait (.wait (.exit 0))))) (σ.piped k) =
      (.wait (.wait (.exit 0)), σ.fds) := by
  refine Prod.ext rfl ?_
  funext fd
  match fd with
  | 0 | 1 | 2 | 3 | 4 => rfl
  | n + 5 => simp [settle, Setting.piped, Setting.fds, std]

/-- The left side has the write end as its output. -/
theorem settle_left (σ : Setting) (k : ℕ) (l : Cmd (List Char)) :
    settle (.close 1 (.dup 4 (.close 3 (.close 4 (.runcmd .left l))))) (σ.piped k) =
      (.runcmd .left l, Setting.fds { σ with stdout := .pipeWrite k }) := by
  have hdup : Fds.dup (update (σ.piped k) 1 none) 4 =
      update (update (σ.piped k) 1 none) 1 (some (.pipeWrite k)) := rfl
  refine Prod.ext rfl ?_
  simp only [settle, hdup]
  funext fd
  match fd with
  | 0 | 1 | 2 | 3 | 4 => rfl
  | n + 5 => simp [Setting.piped, Setting.fds, std]

/-- The right side has the read end as its input. -/
theorem settle_right (σ : Setting) (k : ℕ) (r : Cmd (List Char)) :
    settle (.close 0 (.dup 3 (.close 3 (.close 4 (.runcmd .right r))))) (σ.piped k) =
      (.runcmd .right r, Setting.fds { σ with stdin := .pipeRead k }) := by
  have hdup : Fds.dup (update (σ.piped k) 0 none) 3 =
      update (update (σ.piped k) 0 none) 0 (some (.pipeRead k)) := rfl
  refine Prod.ext rfl ?_
  simp only [settle, hdup]
  funext fd
  match fd with
  | 0 | 1 | 2 | 3 | 4 => rfl
  | n + 5 => simp [Setting.piped, Setting.fds, std]

/-- `open` gets the descriptor that was closed. -/
theorem open_fds {fd : ℕ} (σ : Setting) (file : List Char) (mode : UInt32) (hfd : fd = 0 ∨ fd = 1) :
    fdalloc (update σ.fds fd none) = some fd ∧
      update (update σ.fds fd none) fd (some (.file file mode)) =
        (σ.redirect file mode fd).fds := by
  rcases hfd with rfl | rfl
  · refine ⟨rfl, funext fun fd => ?_⟩
    match fd with
    | 0 | 1 | 2 => rfl
    | n + 3 => simp [Setting.fds, std]
  · refine ⟨rfl, funext fun fd => ?_⟩
    match fd with
    | 0 | 1 | 2 => rfl
    | n + 3 => simp [Setting.fds, std]

/-! ## Parts -/

/-- More pipes are made, and none is replaced. -/
def Extends (pipes pipes' : Node → Option ℕ) : Prop := ∀ p k, pipes p = some k → pipes' p = some k

theorem Part.mono (h : Part pipes root p c σ) (hext : Extends pipes pipes') :
    Part pipes' root p c σ := by
  induction h with
  | top => exact .top
  | redir _ ih => exact .redir ih
  | listLeft _ ih => exact .listLeft ih
  | listRight _ ih => exact .listRight ih
  | back _ ih => exact .back ih
  | pipeLeft _ hk ih => exact .pipeLeft ih (hext _ _ hk)
  | pipeRight _ hk ih => exact .pipeRight ih (hext _ _ hk)

theorem Wired.mono (h : Wired pipes root p code fds) (hext : Extends pipes pipes') :
    Wired pipes' root p code fds := by
  cases h with
  | runcmd h => exact .runcmd (h.mono hext)
  | exec h => exact .exec (h.mono hext)
  | program h => exact .program (h.mono hext)
  | redir h => exact .redir (h.mono hext)
  | listFork h => exact .listFork (h.mono hext)
  | listWait h => exact .listWait (h.mono hext)
  | back h => exact .back (h.mono hext)
  | pipeFork h hk => exact .pipeFork (h.mono hext) (hext _ _ hk)
  | pipeForkRight h hk => exact .pipeForkRight (h.mono hext) (hext _ _ hk)
  | pipeWait h => exact .pipeWait (h.mono hext)
  | pipeWaitLast h => exact .pipeWaitLast (h.mono hext)
  | exit => exact .exit
  | zombie => exact .zombie
  | gone => exact .gone

/-- The parts of a command that the shell can be given can be given to it. -/
theorem Part.expressible (h : Part pipes root p c σ) (hroot : root.Expressible) :
    c.Expressible := by
  induction h with
  | top => exact hroot
  | redir _ ih => exact ih.1
  | listLeft _ ih => exact ih.1
  | listRight _ ih => exact ih.2
  | back _ ih => exact ih
  | pipeLeft _ _ ih => exact ih.1
  | pipeRight _ _ ih => exact ih.2

theorem Setting.redirect_stdin (σ : Setting) (file : List Char) (mode : UInt32) (fd : ℕ) :
    (σ.redirect file mode fd).stdin = .file file mode ∨
      (σ.redirect file mode fd).stdin = σ.stdin := by
  unfold Setting.redirect
  split_ifs <;> simp

theorem Setting.redirect_stdout (σ : Setting) (file : List Char) (mode : UInt32) (fd : ℕ) :
    (σ.redirect file mode fd).stdout = .file file mode ∨
      (σ.redirect file mode fd).stdout = σ.stdout := by
  unfold Setting.redirect
  split_ifs <;> simp

theorem suffix_cons_of {q : Node} (side : Side)
    (h : ∃ p', pipes p' = some k ∧ q ++ p' <:+ p) :
    ∃ p', pipes p' = some k ∧ q ++ p' <:+ side :: p := by
  obtain ⟨p', hk, hsuffix⟩ := h
  exact ⟨p', hk, hsuffix.trans (List.suffix_cons ..)⟩

/-- Only what is left of a pipe has its write end, as its output. -/
theorem Part.write_end (h : Part pipes root p c σ) : (∀ k, σ.stdin ≠ .pipeWrite k) ∧
    ∀ k, σ.stdout = .pipeWrite k → ∃ p', pipes p' = some k ∧ [.left] ++ p' <:+ p := by
  induction h with
  | top => exact ⟨by simp, by simp⟩
  | @redir p c file mode fd σ _ ih =>
    refine ⟨fun k => ?_, fun k hk => suffix_cons_of .sub (ih.2 k ?_)⟩
    · rcases σ.redirect_stdin file mode fd with h | h
      · rw [h]
        simp
      · rw [h]
        exact ih.1 k
    · rcases σ.redirect_stdout file mode fd with h | h
      · rw [h] at hk
        cases hk
      · rwa [h] at hk
  | listLeft _ ih => exact ⟨ih.1, fun k hk => suffix_cons_of .left (ih.2 k hk)⟩
  | listRight _ ih => exact ⟨ih.1, fun k hk => suffix_cons_of .right (ih.2 k hk)⟩
  | back _ ih => exact ⟨ih.1, fun k hk => suffix_cons_of .sub (ih.2 k hk)⟩
  | pipeLeft _ hk ih =>
    refine ⟨ih.1, ?_⟩
    rintro _ ⟨⟩
    exact ⟨_, hk, List.suffix_rfl⟩
  | pipeRight _ hk ih => exact ⟨by simp, fun k hk => suffix_cons_of .right (ih.2 k hk)⟩

/-- Only what is right of a pipe has its read end, as its input. -/
theorem Part.read_end (h : Part pipes root p c σ) : (∀ k, σ.stdout ≠ .pipeRead k) ∧
    ∀ k, σ.stdin = .pipeRead k → ∃ p', pipes p' = some k ∧ [.right] ++ p' <:+ p := by
  induction h with
  | top => exact ⟨by simp, by simp⟩
  | @redir p c file mode fd σ _ ih =>
    refine ⟨fun k => ?_, fun k hk => suffix_cons_of .sub (ih.2 k ?_)⟩
    · rcases σ.redirect_stdout file mode fd with h | h
      · rw [h]
        simp
      · rw [h]
        exact ih.1 k
    · rcases σ.redirect_stdin file mode fd with h | h
      · rw [h] at hk
        cases hk
      · rwa [h] at hk
  | listLeft _ ih => exact ⟨ih.1, fun k hk => suffix_cons_of .left (ih.2 k hk)⟩
  | listRight _ ih => exact ⟨ih.1, fun k hk => suffix_cons_of .right (ih.2 k hk)⟩
  | back _ ih => exact ⟨ih.1, fun k hk => suffix_cons_of .sub (ih.2 k hk)⟩
  | pipeLeft _ hk ih => exact ⟨by simp, fun k hk => suffix_cons_of .left (ih.2 k hk)⟩
  | pipeRight _ hk ih =>
    refine ⟨ih.1, ?_⟩
    rintro _ ⟨⟩
    exact ⟨_, hk, List.suffix_rfl⟩

/-! ## Which parts are still to be run -/

/-- Neither part lies in the other one. -/
def Apart (p p' : Node) : Prop := ¬ p <:+ p' ∧ ¬ p' <:+ p

/-- Parts of parts that are apart are apart. -/
theorem Apart.mono {q q' : Node} (h : Apart p p') (hq : p <:+ q) (hq' : p' <:+ q') :
    Apart q q' := by
  have hboth : ∀ t : Node, p <:+ t → ¬ p' <:+ t := by
    intro t hp hp'
    rcases List.suffix_or_suffix_of_suffix hp hp' with hsuffix | hsuffix
    · exact h.1 hsuffix
    · exact h.2 hsuffix
  exact ⟨fun hsuffix => hboth q' (hq.trans hsuffix) hq',
    fun hsuffix => hboth q hq (hq'.trans hsuffix)⟩

theorem Apart.symm (h : Apart p p') : Apart p' p := ⟨h.2, h.1⟩

theorem apart_sides (p : Node) : Apart (.left :: p) (.right :: p) := by
  constructor <;> intro h <;> simpa using h.eq_of_length rfl

/-- The parts that a process is still to run, in itself or in its children. -/
def claims : Node → Code → List Node
  | p, .runcmd side _ => [side :: p]
  | p, .close _ next | p, .dup _ next | p, .openFile _ _ next | p, .wait next => claims p next
  | p, .fork child next => claims p child ++ claims p next
  | p, .exec _ => [p]
  | _, .program _ | _, .exit _ | _, .zombie | _, .gone => []

/-- The new claims are parts of old ones, and are apart. -/
structure Refines (old new : List Node) : Prop where
  part : ∀ r ∈ new, ∃ r₀ ∈ old, r₀ <:+ r
  pairwise : old.Pairwise Apart → new.Pairwise Apart

theorem Refines.refl (l : List Node) : Refines l l :=
  ⟨fun r hr => ⟨r, hr, List.suffix_rfl⟩, id⟩

theorem refines_nil (l : List Node) : Refines l [] := ⟨by simp, fun _ => .nil⟩

end CS352.Shell
