import CS352.Library.Simulation
import CS352.Verification.Shell.Wiring

/-! # Runs of a command -/

namespace CS352.Shell

open Simulation Transition Function

/-! ## What a step does -/

/-- The process neither exits nor has exited. -/
def Code.live : Code → Bool
  | .exit _ | .zombie | .gone => false
  | _ => true

/-- A process does something on its own. -/
inductive Moves (q : Process) : Process → Prop where
  | close {fd next} (h : q.code = .close fd next) :
      Moves q { q with code := next, fds := update q.fds fd none }
  | dup {fd next} (h : q.code = .dup fd next) :
      Moves q { q with code := next, fds := q.fds.dup fd }
  | openFile {file mode next fd} (h : q.code = .openFile file mode next)
      (hfd : fdalloc q.fds = some fd) :
      Moves q { q with code := next, fds := update q.fds fd (some (.file file mode)) }
  | exec {argv} (h : q.code = .exec argv) : Moves q { q with code := .program argv }
  | stop (status : ℕ) (h : q.code.live = true) : Moves q (q.stop status)

/-- What a step does to the processes and to the number of pipes. -/
inductive Effect (s : State) : State → Prop where
  | move {l q q' r} (hs : s.procs = l ++ q :: r) (h : Moves q q') :
      Effect s { s with procs := l ++ q' :: r }
  | runcmd {l q r side cmd} (ok : Bool) (hs : s.procs = l ++ q :: r)
      (h : q.code = .runcmd side cmd) :
      Effect s ⟨l ++ ({ q with node := side :: q.node }.enter cmd ok s.nextPipe).1 :: r,
        ({ q with node := side :: q.node }.enter cmd ok s.nextPipe).2⟩
  | fork {l q r child next} (hs : s.procs = l ++ q :: r) (h : q.code = .fork child next) :
      Effect s ⟨l ++ { q with code := next } :: (r ++ [⟨some l.length, q.node, child, q.fds⟩]),
        s.nextPipe⟩
  | wait {l q r next} (hs : s.procs = l ++ q :: r) (h : q.code = .wait next)
      (hnone : ∀ x ∈ s.procs, x.parent ≠ some l.length) :
      Effect s { s with procs := l ++ { q with code := next } :: r }
  | exit {l q r status} (hs : s.procs = l ++ q :: r) (h : q.code = .exit status) :
      Effect s ⟨(l ++ { q with code := .zombie, fds := fun _ => none } :: r).map
        (·.reparent l.length), s.nextPipe⟩
  | reap {l q r next child x} (hs : s.procs = l ++ q :: r) (h : q.code = .wait next)
      (hx : s.procs[child]? = some x) (hparent : x.parent = some l.length)
      (hzombie : x.code = .zombie) :
      Effect s ⟨(s.procs.set child { x with parent := none, code := .gone }).set l.length
        { q with code := next }, s.nextPipe⟩

variable {pipes pipes' : Node → Option ℕ} {root : Cmd (List Char)} {started : List Node}
  {s s' : State}
  {q q' : Process} {l r : List Process}

theorem exists_split {i : ℕ} {procs : List Process} (h : procs[i]? = some q) :
    ∃ l r, procs = l ++ q :: r ∧ l.length = i ∧ ∀ q', procs.set i q' = l ++ q' :: r := by
  obtain ⟨hlt, rfl⟩ := List.getElem?_eq_some_iff.mp h
  refine ⟨procs.take i, procs.drop (i + 1), ?_, ?_, ?_⟩
  · rw [List.getElem_cons_drop, List.take_append_drop]
  · rw [List.length_take]
    omega
  · intro q'
    rw [List.set_eq_take_append_cons_drop, if_pos hlt]

theorem effect_of_call {pid : ℕ} {ok : Bool} (hq : s.procs[pid]? = some q)
    (hs : call s pid ok q = some s') : Effect s s' := by
  obtain ⟨l, r, hprocs, rfl, hset⟩ := exists_split hq
  unfold call at hs
  cases hcode : q.code with
  | runcmd side cmd =>
    simp only [hcode, hset] at hs
    cases hs
    exact .runcmd ok hprocs hcode
  | close fd next =>
    simp only [hcode, hset] at hs
    cases hs
    exact .move hprocs (.close hcode)
  | dup fd next =>
    simp only [hcode, hset] at hs
    cases hs
    exact .move hprocs (.dup hcode)
  | openFile file mode next =>
    simp only [hcode, hset] at hs
    cases hfd : (if ok then fdalloc q.fds else none) with
    | none =>
      simp only [hfd] at hs
      cases hs
      exact .move hprocs (.stop 1 (by simp [hcode, Code.live]))
    | some fd =>
      simp only [hfd] at hs
      cases hs
      exact .move hprocs (.openFile hcode (Option.ite_none_right_eq_some.mp hfd).2)
  | fork child next =>
    cases ok with
    | false =>
      simp only [hcode, hset, Bool.false_eq_true, if_false] at hs
      cases hs
      exact .move hprocs (.stop 1 (by simp [hcode, Code.live]))
    | true =>
      simp only [hcode, hset, if_true, List.append_assoc, List.cons_append] at hs
      cases hs
      exact .fork hprocs hcode
  | wait next =>
    simp only [hcode, hset] at hs
    split_ifs at hs with hany
    cases hs
    refine .wait hprocs hcode ?_
    intro x hx hparent
    exact hany (List.any_eq_true.mpr ⟨x, hx, by simpa using hparent⟩)
  | exec argv =>
    cases ok with
    | false =>
      simp only [hcode, hset, Bool.false_eq_true, if_false] at hs
      cases hs
      exact .move hprocs (.stop 0 (by simp [hcode, Code.live]))
    | true =>
      simp only [hcode, hset, if_true] at hs
      cases hs
      exact .move hprocs (.exec hcode)
  | program argv =>
    simp only [hcode, hset] at hs
    cases hs
    exact .move hprocs (.stop 0 (by simp [hcode, Code.live]))
  | exit status =>
    simp only [hcode, hset] at hs
    cases hs
    exact .exit hprocs hcode
  | zombie => simp [hcode] at hs
  | gone => simp [hcode] at hs

theorem effect_of_step {a : Action} (hs : step s a = some s') : Effect s s' := by
  cases a with
  | call pid ok =>
    obtain ⟨q, hq, hs⟩ := Option.bind_eq_some_iff.mp hs
    exact effect_of_call hq hs
  | reap pid child =>
    obtain ⟨q, hq, hs⟩ := Option.bind_eq_some_iff.mp hs
    obtain ⟨x, hx, hs⟩ := Option.bind_eq_some_iff.mp hs
    obtain ⟨l, r, hprocs, rfl, hset⟩ := exists_split hq
    unfold reap at hs
    cases hcode : q.code with
    | wait next =>
      simp only [hcode] at hs
      split_ifs at hs with hchild
      cases hs
      exact .reap hprocs hcode hx hchild.1 hchild.2
    | _ => simp [hcode] at hs

/-! ## The table of one process -/

/-- The process will have the right table when it has closed what it is about to close. -/
def WiredCode (pipes : Node → Option ℕ) (root : Cmd (List Char)) (p : Node) (code : Code)
    (fds : Fds) : Prop := Wired pipes root p (settle code fds).1 (settle code fds).2

section Codes

variable {p : Node} {fds : Fds} {child next : Code}

theorem Wired.runcmd_inv {side : Side} {c : Cmd (List Char)}
    (h : Wired pipes root p (.runcmd side c) fds) :
    ∃ σ, Part pipes root (side :: p) c σ ∧ fds = σ.fds := by
  cases h with
  | runcmd h => exact ⟨_, h, rfl⟩

theorem Wired.exec_inv {argv : List (List Char)} (h : Wired pipes root p (.exec argv) fds) :
    ∃ σ, Part pipes root p (.exec argv) σ ∧ fds = σ.fds := by
  cases h with
  | exec h => exact ⟨_, h, rfl⟩

theorem Wired.openFile_inv {file : List Char} {mode : UInt32}
    (h : Wired pipes root p (.openFile file mode next) fds) :
    ∃ c fd σ, next = .runcmd .sub c ∧ Part pipes root p (.redir c file mode fd) σ ∧
      fds = update σ.fds fd none := by
  cases h with
  | redir h => exact ⟨_, _, _, rfl, h, rfl⟩

/-- The child has the table of the parent, and both go on as they should. -/
theorem Wired.fork_inv (h : Wired pipes root p (.fork child next) fds) :
    WiredCode pipes root p child fds ∧ WiredCode pipes root p next fds := by
  unfold WiredCode
  cases h with
  | listFork h => exact ⟨.runcmd (.listLeft h), .listWait h⟩
  | back h => exact ⟨.runcmd (.back h), .exit⟩
  | pipeFork h hk =>
    rw [settle_left]
    exact ⟨.runcmd (.pipeLeft h hk), .pipeForkRight h hk⟩
  | pipeForkRight h hk =>
    rw [settle_right, settle_parent]
    exact ⟨.runcmd (.pipeRight h hk), .pipeWait h⟩

theorem Wired.wait_inv (h : Wired pipes root p (.wait next) fds) :
    WiredCode pipes root p next fds := by
  unfold WiredCode
  cases h with
  | listWait h => exact .runcmd (.listRight h)
  | pipeWait h => exact .pipeWaitLast h
  | pipeWaitLast h => exact .exit

theorem Wired.zombie_inv (h : Wired pipes root p .zombie fds) : fds = fun _ => none := by
  cases h with
  | zombie => rfl

end Codes

def Process.Wired (pipes : Node → Option ℕ) (root : Cmd (List Char)) (q : Process) : Prop :=
  WiredCode pipes root q.node q.code q.fds

def Process.claims (q : Process) : List Node := Shell.claims q.node q.code

theorem Moves.wired (h : Moves q q') (hw : q.Wired pipes root) (hroot : root.Expressible) :
    q'.Wired pipes root := by
  unfold Process.Wired WiredCode at hw ⊢
  cases h with
  | close h =>
    rw [h] at hw
    exact hw
  | dup h =>
    rw [h] at hw
    exact hw
  | @openFile file mode next fd h hfd =>
    rw [h] at hw
    obtain ⟨c, fd', σ, rfl, hpart, hfds⟩ := Wired.openFile_inv hw
    have hfd' : fd' = 0 ∨ fd' = 1 := by
      obtain ⟨-, k, -, rfl⟩ := hpart.expressible hroot
      cases k <;> simp [Kind.fd]
    obtain ⟨halloc, hupdate⟩ := open_fds σ file mode hfd'
    have hq : q.fds = update σ.fds fd' none := hfds
    rw [hq, halloc] at hfd
    cases hfd
    simp only [settle, hq, hupdate]
    exact .runcmd (.redir hpart)
  | exec h =>
    rw [h] at hw
    obtain ⟨σ, hpart, hfds⟩ := Wired.exec_inv hw
    have hq : q.fds = σ.fds := hfds
    simp only [settle, hq]
    exact .program hpart
  | stop status h => exact .exit

theorem Moves.refines (h : Moves q q') : Refines q.claims q'.claims := by
  unfold Process.claims
  cases h with
  | close h | dup h | openFile h =>
    rw [h]
    exact .refl _
  | exec h | stop status h => exact refines_nil _

theorem extends_update {p : Node} (hnone : pipes p = none) (k : ℕ) :
    Extends pipes (update pipes p (some k)) := by
  intro p' k' hk'
  have hne : p' ≠ p := by
    rintro rfl
    rw [hnone] at hk'
    cases hk'
  rwa [update_of_ne hne]

/-- The beginning of `runcmd` at a part of the command. -/
theorem enter_wired {c : Cmd (List Char)} {σ : Setting} (hpart : Part pipes root q.node c σ)
    (hfds : q.fds = σ.fds) (hnone : pipes q.node = none) (ok : Bool) (k : ℕ) :
    ((q.enter c ok k).2 = k ∧ (q.enter c ok k).1.Wired pipes root ∨
      (q.enter c ok k).2 = k + 1 ∧
        (q.enter c ok k).1.Wired (update pipes q.node (some k)) root ∧
        ∀ r ∈ (q.enter c ok k).1.claims, ¬ r <:+ q.node) ∧
    Refines [q.node] (q.enter c ok k).1.claims := by
  have hsides : Refines [q.node] [.left :: q.node, .right :: q.node] :=
    ⟨by simp, fun _ => by simpa using apart_sides q.node⟩
  have hsub : Refines [q.node] [.sub :: q.node] := ⟨by simp, by simp⟩
  cases c with
  | exec argv =>
    cases argv with
    | nil => exact ⟨.inl ⟨rfl, .exit⟩, refines_nil _⟩
    | cons w argv =>
      refine ⟨.inl ⟨rfl, ?_⟩, .refl _⟩
      unfold Process.Wired WiredCode
      simp only [Process.enter, settle, hfds]
      exact .exec hpart
  | redir c file mode fd =>
    refine ⟨.inl ⟨rfl, ?_⟩, hsub⟩
    unfold Process.Wired WiredCode
    simp only [Process.enter, settle, hfds]
    exact .redir hpart
  | list l r =>
    refine ⟨.inl ⟨rfl, ?_⟩, hsides⟩
    unfold Process.Wired WiredCode
    simp only [Process.enter, settle, hfds]
    exact .listFork hpart
  | back c =>
    refine ⟨.inl ⟨rfl, ?_⟩, hsub⟩
    unfold Process.Wired WiredCode
    simp only [Process.enter, settle, hfds]
    exact .back hpart
  | pipe l r =>
    cases ok with
    | false => exact ⟨.inl ⟨rfl, .exit⟩, refines_nil _⟩
    | true =>
      have henter : q.enter (.pipe l r) true k =
          ({ q with code := pipeCode l r 3 4, fds := σ.piped k }, k + 1) := by
        have hpipe : pipe q.fds k = some (3, 4, σ.piped k) := by
          rw [hfds]
          rfl
        simp only [Process.enter, if_true, hpipe]
      rw [henter]
      refine ⟨.inr ⟨rfl, ?_, ?_⟩, hsides⟩
      · exact .pipeFork (hpart.mono (extends_update hnone k)) (update_self ..)
      · intro r hr hsuffix
        have hlength := hsuffix.length_le
        have hr' : r ∈ [.left :: q.node, .right :: q.node] := hr
        simp only [List.mem_cons, List.not_mem_nil, or_false] at hr'
        rcases hr' with rfl | rfl <;> exact absurd hlength (Nat.not_succ_le_self _)

/-! ## All processes -/

def allClaims (procs : List Process) : List Node := procs.flatMap Process.claims

/-- In every state: the processes have their tables, the parts that are still to be run are apart
from each other and from those whose programs have been started, and they have no pipe yet. -/
structure Inv (root : Cmd (List Char)) (pipes : Node → Option ℕ) (started : List Node)
    (s : State) : Prop where
  wired : ∀ q ∈ s.procs, q.Wired pipes root
  used : ∀ p k, pipes p = some k → k < s.nextPipe
  inj : ∀ p p' k, pipes p = some k → pipes p' = some k → p = p'
  apart : (started ++ allClaims s.procs).Pairwise Apart
  fresh : ∀ r ∈ allClaims s.procs, ∀ p, r <:+ p → pipes p = none

theorem allClaims_cons_append (l r : List Process) (q : Process) :
    allClaims (l ++ q :: r) = allClaims l ++ (q.claims ++ allClaims r) := by
  simp [allClaims]

theorem allClaims_concat (r : List Process) (q : Process) :
    allClaims (r ++ [q]) = allClaims r ++ q.claims := by
  simp [allClaims]

/-- One process replaces its claims by parts of them. -/
theorem apart_of_refines {a b old new : List Node} (h : (a ++ (old ++ b)).Pairwise Apart)
    (href : Refines old new) : (a ++ (new ++ b)).Pairwise Apart := by
  rw [List.pairwise_append, List.pairwise_append] at h ⊢
  obtain ⟨ha, ⟨hold, hb, hob⟩, hab⟩ := h
  refine ⟨ha, ⟨href.pairwise hold, hb, ?_⟩, ?_⟩
  · intro x hx y hy
    obtain ⟨x₀, hx₀, hsuffix⟩ := href.part x hx
    exact (hob x₀ hx₀ y hy).mono hsuffix List.suffix_rfl
  · intro x hx y hy
    rcases List.mem_append.mp hy with hy | hy
    · obtain ⟨y₀, hy₀, hsuffix⟩ := href.part y hy
      exact (hab x hx y₀ (List.mem_append_left _ hy₀)).mono List.suffix_rfl hsuffix
    · exact hab x hx y (List.mem_append_right _ hy)

theorem Process.Wired.mono (h : q.Wired pipes root) (hext : Extends pipes pipes') :
    q.Wired pipes' root := Shell.Wired.mono h hext

theorem Inv.claims_set (h : Inv root pipes started s) (hs : s.procs = l ++ q :: r)
    (href : Refines q.claims q'.claims) :
    (started ++ allClaims (l ++ q' :: r)).Pairwise Apart ∧
      ∀ x ∈ allClaims (l ++ q' :: r), ∀ p, x <:+ p → pipes p = none := by
  have happart := h.apart
  rw [hs, allClaims_cons_append, ← List.append_assoc] at happart
  rw [allClaims_cons_append, ← List.append_assoc started]
  refine ⟨apart_of_refines happart href, ?_⟩
  intro x hx p hsuffix
  have hold : ∃ x₀ ∈ allClaims s.procs, x₀ <:+ x := by
    rw [hs, allClaims_cons_append]
    simp only [List.mem_append] at hx ⊢
    rcases hx with hx | hx | hx
    · exact ⟨x, .inl hx, List.suffix_rfl⟩
    · obtain ⟨x₀, hx₀, hsuffix⟩ := href.part x hx
      exact ⟨x₀, .inr (.inl hx₀), hsuffix⟩
    · exact ⟨x, .inr (.inr hx), List.suffix_rfl⟩
  obtain ⟨x₀, hx₀, hsuffix₀⟩ := hold
  exact h.fresh x₀ hx₀ p (hsuffix₀.trans hsuffix)

theorem forall_set {P : Process → Prop} (hall : ∀ x ∈ l ++ q :: r, P x) (hq' : P q') :
    ∀ x ∈ l ++ q' :: r, P x := by
  simp only [List.mem_append, List.mem_cons] at hall ⊢
  rintro x (hx | rfl | hx)
  · exact hall x (.inl hx)
  · exact hq'
  · exact hall x (.inr (.inr hx))

/-- One process changes, and no pipe is made. -/
theorem Inv.set (h : Inv root pipes started s) (hs : s.procs = l ++ q :: r)
    (hw : q'.Wired pipes root) (href : Refines q.claims q'.claims) :
    Inv root pipes started { s with procs := l ++ q' :: r } := by
  obtain ⟨happart, hfresh⟩ := h.claims_set hs href
  exact ⟨forall_set (hs ▸ h.wired) hw, h.used, h.inj, happart, hfresh⟩

/-- A process that runs a pipe makes it. -/
theorem Inv.makePipe (h : Inv root pipes started s) (hs : s.procs = l ++ q :: r)
    (hclaims : q.claims = [q'.node])
    (hw : q'.Wired (update pipes q'.node (some s.nextPipe)) root)
    (href : Refines q.claims q'.claims) (hnot : ∀ x ∈ q'.claims, ¬ x <:+ q'.node) :
    Inv root (update pipes q'.node (some s.nextPipe)) started
      ⟨l ++ q' :: r, s.nextPipe + 1⟩ := by
  obtain ⟨happart, hfresh⟩ := h.claims_set hs href
  have hmem : q'.node ∈ allClaims s.procs := by
    rw [hs, allClaims_cons_append, hclaims]
    simp
  have hnone := h.fresh _ hmem _ List.suffix_rfl
  have hext := extends_update hnone s.nextPipe
  refine ⟨forall_set (fun x hx => (h.wired x (hs ▸ hx)).mono hext) hw, ?_, ?_, happart, ?_⟩
  · intro p k hk
    by_cases hp : p = q'.node
    · subst hp
      rw [update_self] at hk
      cases hk
      exact Nat.lt_succ_self _
    · rw [update_of_ne hp] at hk
      exact Nat.lt_succ_of_lt (h.used p k hk)
  · intro p p' k hk hk'
    by_cases hp : p = q'.node <;> by_cases hp' : p' = q'.node
    · rw [hp, hp']
    · subst hp
      rw [update_self] at hk
      rw [update_of_ne hp'] at hk'
      cases hk
      exact absurd (h.used p' _ hk') (lt_irrefl _)
    · subst hp'
      rw [update_self] at hk'
      rw [update_of_ne hp] at hk
      cases hk'
      exact absurd (h.used p _ hk) (lt_irrefl _)
    · rw [update_of_ne hp] at hk
      rw [update_of_ne hp'] at hk'
      exact h.inj p p' k hk hk'
  · intro x hx p hsuffix
    by_cases hp : p = q'.node
    · -- The claims of the others are apart from the part that is being run.
      subst hp
      have hall := (List.pairwise_append.mp h.apart).2.1
      rw [hs, allClaims_cons_append, hclaims, List.pairwise_append, List.pairwise_append] at hall
      obtain ⟨-, ⟨-, -, hr⟩, hl⟩ := hall
      rw [allClaims_cons_append] at hx
      simp only [List.mem_append] at hx
      rcases hx with hx | hx | hx
      · exact absurd hsuffix (hl x hx _ (by simp)).1
      · exact absurd hsuffix (hnot x hx)
      · exact absurd hsuffix (hr _ (by simp) x hx).2
    · rw [update_of_ne hp]
      exact hfresh x hx p hsuffix

/-- The child takes a part of the claims. -/
theorem Inv.fork (h : Inv root pipes started s) (hs : s.procs = l ++ q :: r) {child next : Code}
    (hcode : q.code = .fork child next) (pid : ℕ) :
    Inv root pipes started
      ⟨l ++ { q with code := next } :: (r ++ [⟨some pid, q.node, child, q.fds⟩]), s.nextPipe⟩ := by
  have hw := h.wired q (by simp [hs])
  unfold Process.Wired WiredCode at hw
  rw [hcode] at hw
  obtain ⟨hchild, hnext⟩ := Wired.fork_inv hw
  have hperm : (allClaims (l ++ { q with code := next } ::
      (r ++ [⟨some pid, q.node, child, q.fds⟩]))).Perm (allClaims s.procs) := by
    have hq : q.claims = Shell.claims q.node child ++ Shell.claims q.node next := by
      rw [Process.claims, hcode]
      rfl
    rw [hs, allClaims_cons_append l (r ++ _), allClaims_concat, allClaims_cons_append l r, hq,
      List.append_assoc, ← List.append_assoc (Process.claims _)]
    exact List.perm_append_comm.append_left _
  refine ⟨?_, h.used, h.inj, ?_, ?_⟩
  · have hlast : ∀ x ∈ l ++ { q with code := next } :: r, x.Wired pipes root :=
      forall_set (hs ▸ h.wired) hnext
    intro x hx
    rw [← List.cons_append, ← List.append_assoc, List.mem_append, List.mem_singleton] at hx
    rcases hx with hx | rfl
    · exact hlast x hx
    · exact hchild
  · exact ((hperm.append_left started).pairwise_iff fun hab => hab.symm).mpr h.apart
  · exact fun x hx => h.fresh x (hperm.mem_iff.mp hx)

theorem Inv.setAt (h : Inv root pipes started s) {i : ℕ} (hq : s.procs[i]? = some q)
    (hw : q'.Wired pipes root) (href : Refines q.claims q'.claims) :
    Inv root pipes started { s with procs := s.procs.set i q' } := by
  obtain ⟨l, r, hs, -, hset⟩ := exists_split hq
  rw [hset]
  exact h.set hs hw href

/-- Who the parents are does not matter. -/
theorem Inv.reparent (h : Inv root pipes started s) (pid : ℕ) :
    Inv root pipes started { s with procs := s.procs.map (·.reparent pid) } := by
  have hsame : ∀ q : Process, (q.reparent pid).node = q.node ∧ (q.reparent pid).code = q.code ∧
      (q.reparent pid).fds = q.fds := by
    intro q
    unfold Process.reparent
    split_ifs <;> exact ⟨rfl, rfl, rfl⟩
  have hclaims : allClaims (s.procs.map (·.reparent pid)) = allClaims s.procs := by
    simp only [allClaims, List.flatMap_def, List.map_map]
    refine congrArg List.flatten (List.map_congr_left fun q _ => ?_)
    rw [comp_apply, Process.claims, (hsame q).1, (hsame q).2.1]
    rfl
  refine ⟨?_, h.used, h.inj, hclaims ▸ h.apart, hclaims ▸ h.fresh⟩
  intro x hx
  obtain ⟨q, hq, rfl⟩ := List.mem_map.mp hx
  have hw := h.wired q hq
  unfold Process.Wired at hw ⊢
  rwa [(hsame q).1, (hsame q).2.1, (hsame q).2.2]

theorem enter_node (q : Process) (c : Cmd (List Char)) (ok : Bool) (k : ℕ) :
    (q.enter c ok k).1.node = q.node := by
  cases c with
  | exec argv => cases argv <;> rfl
  | pipe l r =>
    simp only [Process.enter]
    split <;> rfl
  | _ => rfl

theorem Inv.enter (h : Inv root pipes started s) (hs : s.procs = l ++ q :: r) {side : Side}
    {cmd : Cmd (List Char)} (hcode : q.code = .runcmd side cmd) (ok : Bool) :
    ∃ pipes', Inv root pipes' started
      ⟨l ++ ({ q with node := side :: q.node }.enter cmd ok s.nextPipe).1 :: r,
        ({ q with node := side :: q.node }.enter cmd ok s.nextPipe).2⟩ := by
  have hw := h.wired q (by simp [hs])
  unfold Process.Wired WiredCode at hw
  rw [hcode] at hw
  obtain ⟨σ, hpart, hfds⟩ := Wired.runcmd_inv hw
  have hclaims : q.claims = [side :: q.node] := by
    rw [Process.claims, hcode]
    rfl
  have hnone : pipes (side :: q.node) = none := by
    refine h.fresh (side :: q.node) ?_ _ List.suffix_rfl
    rw [hs, allClaims_cons_append, hclaims]
    simp
  obtain ⟨henter, href⟩ := enter_wired (q := { q with node := side :: q.node }) hpart hfds hnone ok
    s.nextPipe
  have hnode := enter_node { q with node := side :: q.node } cmd ok s.nextPipe
  rcases henter with ⟨hk, hwired⟩ | ⟨hk, hwired, hnot⟩
  · refine ⟨pipes, ?_⟩
    rw [hk]
    exact h.set hs hwired (hclaims ▸ href)
  · have hpipe := h.makePipe hs (hnode ▸ hclaims) (hnode.symm ▸ hwired) (hclaims ▸ href)
      (hnode.symm ▸ hnot)
    rw [hk]
    exact ⟨_, hpipe⟩

/-- The part whose program is started by this step. -/
def startedAt (s : State) : Action → Option Node
  | .call pid true => s.procs[pid]?.bind fun q =>
    match q.code with
    | .exec _ => some q.node
    | _ => none
  | _ => none

theorem startedAt_eq_some {a : Action} {p : Node} (h : startedAt s a = some p)
    (hstep : step s a = some s') : ∃ l q r argv, s.procs = l ++ q :: r ∧ q.code = .exec argv ∧
      q.node = p ∧ s' = { s with procs := l ++ { q with code := .program argv } :: r } := by
  cases a with
  | reap pid child => cases h
  | call pid ok =>
    cases ok with
    | false => cases h
    | true =>
      obtain ⟨q, hq, hnode⟩ := Option.bind_eq_some_iff.mp h
      obtain ⟨q', hq', hcall⟩ := Option.bind_eq_some_iff.mp hstep
      cases hq.symm.trans hq'
      obtain ⟨l, r, hprocs, rfl, hset⟩ := exists_split hq
      cases hcode : q.code with
      | exec argv =>
        simp only [hcode] at hnode
        cases hnode
        simp only [call, hcode, hset, if_true] at hcall
        cases hcall
        exact ⟨l, q, r, argv, hprocs, hcode, rfl, rfl⟩
      | _ => simp [hcode] at hnode

/-- A process starts the program of its part, which is among the parts to be run. -/
theorem Inv.start (h : Inv root pipes started s) (hroot : root.Expressible)
    (hs : s.procs = l ++ q :: r) {argv : List (List Char)} (hcode : q.code = .exec argv) :
    Inv root pipes (started ++ [q.node])
      { s with procs := l ++ { q with code := .program argv } :: r } := by
  have hset := h.set hs ((Moves.exec hcode).wired (h.wired q (by simp [hs])) hroot)
    (Moves.exec hcode).refines
  refine ⟨hset.wired, hset.used, hset.inj, ?_, hset.fresh⟩
  have hclaims : q.claims = [q.node] := by
    rw [Process.claims, hcode]
    rfl
  have happart := h.apart
  rw [hs, allClaims_cons_append, hclaims] at happart
  rw [allClaims_cons_append, List.append_assoc]
  have hperm : (q.node :: (allClaims l ++ allClaims r)).Perm
      (allClaims l ++ q.node :: allClaims r) := List.perm_middle.symm
  exact ((hperm.append_left started).pairwise_iff fun hab => hab.symm).mpr happart

theorem Inv.keep (h : Inv root pipes started s) (hroot : root.Expressible) {a : Action}
    (hstep : step s a = some s') : ∃ pipes', Inv root pipes' started s' := by
  cases effect_of_step hstep with
  | move hs hm => exact ⟨pipes, h.set hs (hm.wired (h.wired _ (by simp [hs])) hroot) hm.refines⟩
  | runcmd ok hs hcode => exact h.enter hs hcode ok
  | fork hs hcode => exact ⟨pipes, h.fork hs hcode _⟩
  | @wait l q r next hs hcode hnone =>
    have hw := h.wired q (by simp [hs])
    unfold Process.Wired WiredCode at hw
    rw [hcode] at hw
    refine ⟨pipes, h.set hs hw.wait_inv ?_⟩
    unfold Process.claims
    rw [hcode]
    exact .refl _
  | exit hs hcode =>
    refine ⟨pipes, (h.set hs ?_ (refines_nil _)).reparent _⟩
    exact .zombie
  | @reap l q r next child x hs hcode hx hparent hzombie =>
    have hwx := h.wired x (List.mem_of_getElem? hx)
    have hwq := h.wired q (by simp [hs])
    unfold Process.Wired WiredCode at hwx hwq
    rw [hzombie] at hwx
    rw [hcode] at hwq
    have hq : s.procs[l.length]? = some q := by simp [hs]
    have hne : child ≠ l.length := by
      rintro rfl
      cases hx.symm.trans hq
      rw [hcode] at hzombie
      cases hzombie
    refine ⟨pipes, Inv.setAt (q := q) (h.setAt hx ?_ (refines_nil _)) ?_ hwq.wait_inv ?_⟩
    · have hfds : x.fds = fun _ => none := hwx.zombie_inv
      unfold Process.Wired WiredCode
      simp only [settle, hfds]
      exact .gone
    · rw [List.getElem?_set_ne hne, hq]
    · unfold Process.claims
      rw [hcode]
      exact .refl _

theorem Inv.step (h : Inv root pipes started s) (hroot : root.Expressible) {a : Action}
    (hstep : step s a = some s') :
    ∃ pipes', Inv root pipes' (started ++ (startedAt s a).toList) s' := by
  cases hstart : startedAt s a with
  | none => simpa using h.keep hroot hstep
  | some p =>
    obtain ⟨l, q, r, argv, hs, hcode, rfl, rfl⟩ := startedAt_eq_some hstart hstep
    exact ⟨pipes, h.start hroot hs hcode⟩

theorem inv_start (root : Cmd (List Char)) : Inv root (fun _ => none) [] (start root) := by
  refine ⟨?_, by simp, by simp, ?_, by simp⟩
  · intro q hq
    obtain rfl : q = _ := List.mem_singleton.mp hq
    exact .runcmd (σ := ⟨.inherited 0, .inherited 1⟩) .top
  · exact List.pairwise_singleton ..

theorem Inv.exec (h : Inv root pipes started s) (hroot : root.Expressible) {as : List Action}
    (hrun : Transition.exec Shell.step s as = some s') :
    ∃ pipes', Inv root pipes' (started ++ trace Shell.step startedAt s as) s' := by
  induction as generalizing s pipes started with
  | nil =>
    cases hrun
    exact ⟨pipes, by simpa [trace] using h⟩
  | cons a as ih =>
    obtain ⟨u, hu, hrest⟩ := Option.bind_eq_some_iff.mp hrun
    obtain ⟨pipes', hinv⟩ := h.step hroot hu
    obtain ⟨pipes'', hend⟩ := ih hinv hrest
    exact ⟨pipes'', by simpa [trace, hu] using hend⟩

/-! ## The programs and the pipes -/

/-- The process is not in the middle of setting up or closing descriptors. -/
def Code.placed : Code → Bool
  | .runcmd _ _ | .openFile _ _ _ | .wait _ | .exec _ | .program _ => true
  | _ => false

/-- The part of the command that a process is at. -/
def position : Node → Code → Node
  | p, .runcmd side _ => side :: p
  | p, _ => p

theorem settle_placed {code : Code} (h : code.placed = true) (fds : Fds) :
    settle code fds = (code, fds) := by
  cases code with
  | close | dup => cases h
  | _ => rfl

/-- The descriptors of a process are among those of its part of the command. -/
theorem Wired.setting {p : Node} {code : Code} {fds : Fds} (h : Wired pipes root p code fds)
    (hcode : code.placed = true) : ∃ c σ, Part pipes root (position p code) c σ ∧
      ∀ fd o, fds fd = some o → σ.fds fd = some o := by
  cases h with
  | runcmd h | exec h | program h | listWait h | pipeWait h | pipeWaitLast h =>
    exact ⟨_, _, h, fun _ _ hfd => hfd⟩
  | redir h =>
    refine ⟨_, _, h, fun fd' o hfd => ?_⟩
    rw [update_apply] at hfd
    exact (Option.ite_none_left_eq_some.mp hfd).2
  | listFork | back | pipeFork | pipeForkRight | exit | zombie | gone => cases hcode

theorem Setting.fds_eq {σ : Setting} {fd : ℕ} {o : Obj} (h : σ.fds fd = some o) :
    o = σ.stdin ∨ o = σ.stdout ∨ o = .inherited 2 := by
  match fd with
  | 0 => exact .inl (Option.some_inj.mp h).symm
  | 1 => exact .inr (.inl (Option.some_inj.mp h).symm)
  | 2 => exact .inr (.inr (Option.some_inj.mp h).symm)
  | n + 3 => cases h

theorem Wired.program_inv {p : Node} {argv : List (List Char)} {fds : Fds}
    (h : Wired pipes root p (.program argv) fds) :
    ∃ σ, Part pipes root p (.exec argv) σ ∧ fds = σ.fds := by
  cases h with
  | program h => exact ⟨_, h, rfl⟩

/-- In every run of a command no program is started twice. There is one pipe for each `|` that has
been reached, such that every program has the descriptors that the command gives it and no others,
and the ends of a pipe are held on its two sides only, apart from processes that are about to close
them or to exit. -/
theorem exec_wiring (hroot : root.Expressible) {as : List Action}
    (h : exec step (start root) as = some s) :
    (trace step startedAt (start root) as).Nodup ∧
    ∃ pipes : Node → Option ℕ, (∀ p p' k, pipes p = some k → pipes p' = some k → p = p') ∧
      (∀ q ∈ s.procs, ∀ argv, q.code = .program argv →
        ∃ σ, Part pipes root q.node (.exec argv) σ ∧ q.fds = σ.fds) ∧
      ∀ q ∈ s.procs, q.code.placed = true → ∀ fd k,
        (q.fds fd = some (.pipeWrite k) →
          ∃ p, pipes p = some k ∧ [.left] ++ p <:+ position q.node q.code) ∧
        (q.fds fd = some (.pipeRead k) →
          ∃ p, pipes p = some k ∧ [.right] ++ p <:+ position q.node q.code) := by
  obtain ⟨pipes, hinv⟩ := (inv_start root).exec hroot h
  refine ⟨?_, pipes, hinv.inj, ?_, ?_⟩
  · refine (List.pairwise_append.mp hinv.apart).1.imp ?_
    rintro p p' happart rfl
    exact happart.1 List.suffix_rfl
  · intro q hq argv hcode
    have hw := hinv.wired q hq
    unfold Process.Wired WiredCode at hw
    rw [hcode] at hw
    exact hw.program_inv
  · intro q hq hplaced fd k
    have hw := hinv.wired q hq
    unfold Process.Wired WiredCode at hw
    rw [settle_placed hplaced] at hw
    obtain ⟨c, σ, hpart, hfds⟩ := hw.setting hplaced
    refine ⟨fun hk => ?_, fun hk => ?_⟩
    · rcases Setting.fds_eq (hfds fd _ hk) with heq | heq | heq
      · exact absurd heq.symm (hpart.write_end.1 k)
      · exact hpart.write_end.2 k heq.symm
      · cases heq
    · rcases Setting.fds_eq (hfds fd _ hk) with heq | heq | heq
      · exact hpart.read_end.2 k heq.symm
      · exact absurd heq.symm (hpart.read_end.1 k)
      · cases heq

/-- Both sides of a pipe, started one after the other. -/
def pipelineRun : List Action :=
  [0, 0, 0, 0, 0, 1, 2, 1, 2, 1, 2, 1, 2, 1, 2, 1, 2].map (Action.call · true)

theorem exec_wiring_pipeline : ∃ s,
    exec step (start (.pipe (.exec [['a']]) (.exec [['b']]))) pipelineRun = some s ∧
    s.procs.map (fun q => (q.node, q.code)) =
      [([.top], .wait (.wait (.exit 0))), ([.left, .top], .program [['a']]),
        ([.right, .top], .program [['b']])] ∧
    trace step startedAt (start (.pipe (.exec [['a']]) (.exec [['b']]))) pipelineRun =
      [[.left, .top], [.right, .top]] ∧
    ∃ pipes : Node → Option ℕ, ∀ q ∈ s.procs, ∀ argv, q.code = .program argv →
      ∃ σ, Part pipes (.pipe (.exec [['a']]) (.exec [['b']])) q.node (.exec argv) σ ∧
        q.fds = σ.fds := by
  have hrun : (exec step (start (.pipe (.exec [['a']]) (.exec [['b']]))) pipelineRun).map
        (fun s => s.procs.map fun q => (q.node, q.code)) =
      some [([.top], .wait (.wait (.exit 0))), ([.left, .top], .program [['a']]),
        ([.right, .top], .program [['b']])] := by decide +kernel
  obtain ⟨s, hs, hprocs⟩ := Option.map_eq_some_iff.mp hrun
  have hroot : Cmd.Expressible (.pipe (.exec [['a']]) (.exec [['b']])) :=
    ⟨(by decide : 1 < 10), (by decide : 1 < 10)⟩
  obtain ⟨-, pipes, -, hprogram, -⟩ := exec_wiring hroot hs
  exact ⟨s, hs, hprocs, by decide +kernel, pipes, hprogram⟩

end CS352.Shell
