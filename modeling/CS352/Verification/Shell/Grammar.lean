import CS352.Verification.Shell.Lexer
import Mathlib.Data.List.Induction
import Mathlib.Logic.Function.Iterate

/-! # The grammar of the shell

The grammar is over lists of tokens. The parser accepts the texts whose tokens it derives, and
returns the command that it derives them for. -/

namespace CS352.Shell

variable {ω : Type*}

/-! ## Derivations -/

inductive Kind where
  | input
  | output
  | append
  deriving DecidableEq, Repr

namespace Kind

def tok : Kind → Tok ω
  | .input => .lt
  | .output => .gt
  | .append => .gtgt

def mode : Kind → UInt32
  | .input => oRdonly
  | .output => oWronly ||| oCreate ||| oTrunc
  | .append => oWronly ||| oCreate

def fd : Kind → ℕ
  | .input => 0
  | .output | .append => 1

end Kind

/-- A redirection is its kind and its file. -/
abbrev Redir (ω : Type*) := Kind × ω

def Redir.toks (r : Redir ω) : List (Tok ω) := [r.1.tok, .word r.2]

/-- A command with a redirection around it. -/
def Cmd.redirect (cmd : Cmd ω) (r : Redir ω) : Cmd ω := .redir cmd r.2 r.1.mode r.1.fd

/-- The redirections go around the command, the first one innermost. -/
def Cmd.redirects (cmd : Cmd ω) (rs : List (Redir ω)) : Cmd ω := rs.foldl Cmd.redirect cmd

def redirToks (rs : List (Redir ω)) : List (Tok ω) := rs.flatMap Redir.toks

/-- An argument, and the redirections behind it. -/
abbrev Arg (ω : Type*) := ω × List (Redir ω)

def argToks (args : List (Arg ω)) : List (Tok ω) :=
  args.flatMap fun a => .word a.1 :: redirToks a.2

inductive Nonterminal where
  | line
  | pipeline
  | simple

inductive Derives : Nonterminal → List (Tok ω) → Cmd ω → Prop where
  | exec (rs : List (Redir ω)) (args : List (Arg ω)) (h : args.length < maxArgs) :
      Derives .simple (redirToks rs ++ argToks args)
        ((Cmd.exec (args.map Prod.fst)).redirects (rs ++ args.flatMap Prod.snd))
  | block {ts c} (rs : List (Redir ω)) : Derives .line ts c →
      Derives .simple (.lparen :: (ts ++ .rparen :: redirToks rs)) (c.redirects rs)
  | command {ts c} : Derives .simple ts c → Derives .pipeline ts c
  | pipe {ts ts' c c'} : Derives .simple ts c → Derives .pipeline ts' c' →
      Derives .pipeline (ts ++ .bar :: ts') (.pipe c c')
  | job {ts c} (k : ℕ) : Derives .pipeline ts c →
      Derives .line (ts ++ List.replicate k .amp) (Cmd.back^[k] c)
  | jobs {ts ts' c c'} (k : ℕ) : Derives .pipeline ts c → Derives .line ts' c' →
      Derives .line (ts ++ (List.replicate k .amp ++ .semi :: ts')) (.list (Cmd.back^[k] c) c')

/-! ## Redirections and arguments -/

@[simp] theorem redirToks_nil : redirToks ([] : List (Redir ω)) = [] := rfl

@[simp] theorem redirToks_cons (r : Redir ω) (rs : List (Redir ω)) :
    redirToks (r :: rs) = r.1.tok :: .word r.2 :: redirToks rs := rfl

@[simp] theorem argToks_nil : argToks ([] : List (Arg ω)) = [] := rfl

@[simp] theorem argToks_cons (a : Arg ω) (args : List (Arg ω)) :
    argToks (a :: args) = .word a.1 :: (redirToks a.2 ++ argToks args) := rfl

@[simp] theorem redirects_nil (c : Cmd ω) : c.redirects [] = c := rfl

theorem redirects_cons (c : Cmd ω) (r : Redir ω) (rs : List (Redir ω)) :
    c.redirects (r :: rs) = (c.redirect r).redirects rs := rfl

theorem redirects_append (c : Cmd ω) (rs rs' : List (Redir ω)) :
    c.redirects (rs ++ rs') = (c.redirects rs).redirects rs' := List.foldl_append

/-- The argument is added to the command inside the redirections. -/
theorem addArg_redirects (argv : List ω) (rs : List (Redir ω)) (w : ω) :
    ((Cmd.exec argv).redirects rs).addArg w = (Cmd.exec (argv ++ [w])).redirects rs := by
  induction rs using List.reverseRecOn with
  | nil => rfl
  | append_singleton rs r ih =>
    rw [redirects_append, redirects_append]
    exact congrArg (fun c => Cmd.redirect c r) ih

/-! ## What `peek` sees -/

variable {s s' : Ptr} {t : Tok Span} {ts : List (Tok Span)} {toks : List Char}

theorem peek_of_nil (toks : List Char) (hs : tokens s = []) (h : toks ⊆ symbols) :
    (peek s toks).1 = false := by
  rw [peek_eq h, hs]
  rfl

theorem peek_of_cons (hs : tokens s = t :: ts) (h : toks ⊆ symbols) :
    (peek s toks).1 = t.first.any (· ∈ toks) := by
  rw [peek_eq h, hs]
  rfl

theorem exists_of_peek (hp : (peek s toks).1 = true) (h : toks ⊆ symbols) :
    ∃ t ts c, tokens s = t :: ts ∧ t.first = some c ∧ c ∈ toks := by
  cases hs : tokens s with
  | nil =>
    rw [peek_of_nil _ hs h] at hp
    cases hp
  | cons t ts =>
    rw [peek_of_cons hs h] at hp
    obtain ⟨c, hc, hmem⟩ := (Option.any_eq_true ..).mp hp
    exact ⟨t, ts, c, rfl, hc, by simpa using hmem⟩

theorem first_inj {t u : Tok ω} {c : Char} (ht : t.first = some c) (hu : u.first = some c)
    (hc : c ≠ '>') : t = u := by
  cases t <;> cases ht <;> cases u <;> simp_all [Tok.first]

theorem mem_symbols_of_first {t : Tok ω} {c : Char} (h : t.first = some c) : c ∈ symbols := by
  cases t <;> simp_all [Tok.first] <;> subst h <;> decide

/-- A symbol that no other token begins with. -/
theorem peek_iff {c : Char} (hc : t.first = some c) (hne : c ≠ '>') :
    (peek s [c]).1 = true ↔ ∃ ts, tokens s = t :: ts := by
  have hsymbols : [c] ⊆ symbols := by simp [mem_symbols_of_first hc]
  constructor
  · intro hp
    obtain ⟨u, ts, d, hs, hd, hmem⟩ := exists_of_peek hp hsymbols
    obtain rfl : d = c := by simpa using hmem
    exact ⟨ts, by rw [hs, first_inj hd hc hne]⟩
  · rintro ⟨ts, hs⟩
    rw [peek_of_cons hs hsymbols, hc]
    simp

/-! ## What the parser accepts -/

/-- A parse of `s` panics, or it derives a command from the tokens that it takes. -/
inductive Parses (D : List (Tok Span) → Cmd Span → Prop) (s : Ptr) :
    Except Abort (Cmd Span × Ptr) → Prop where
  | ok {c s' ts} : s'.length ≤ s.length → tokens s = ts ++ tokens s' → D ts c →
      Parses D s (.ok (c, s'))
  | panic (p : Panic) : Parses D s (.error (.panic p))

variable {D E : List (Tok Span) → Cmd Span → Prop}

/-- A parse, and what is done with its result. -/
theorem Parses.bind {r : Except Abort (Cmd Span × Ptr)}
    {f : Cmd Span × Ptr → Except Abort (Cmd Span × Ptr)} (h : Parses D s r)
    (hf : ∀ c s' ts, s'.length ≤ s.length → tokens s = ts ++ tokens s' → D ts c →
      Parses E s (f (c, s'))) : Parses E s (r >>= f) := by
  cases h with
  | ok hle htoks hd => exact hf _ _ _ hle htoks hd
  | panic p => exact .panic p

/-- What comes before a parse is added to what it takes. -/
theorem Parses.after {r : Except Abort (Cmd Span × Ptr)} (before : List (Tok Span))
    (h : Parses D s' r) (hle : s'.length ≤ s.length) (htoks : tokens s = before ++ tokens s')
    (hde : ∀ ts c, D ts c → E (before ++ ts) c) : Parses E s r := by
  cases h with
  | ok hle' htoks' hd =>
    refine .ok (hle'.trans hle) ?_ (hde _ _ hd)
    rw [htoks, htoks', List.append_assoc]
  | panic p => exact .panic p

/-- A token that is taken before a parse. -/
theorem Parses.token {r : Except Abort (Cmd Span × Ptr)} (h : Parses D (gettoken s).2 r)
    (hs : tokens s = t :: ts) (hde : ∀ ts c, D ts c → E (t :: ts) c) : Parses E s r := by
  obtain ⟨-, -, hrest, hlt⟩ := tokens_eq_cons hs
  exact h.after [t] hlt.le (by rw [hs, hrest]; rfl) hde

/-- A parse whose command becomes part of another one. -/
theorem Parses.map {r : Except Abort (Cmd Span × Ptr)} {g : Cmd Span → Cmd Span}
    (h : Parses D s r) (hde : ∀ ts c, D ts c → E ts (g c)) :
    Parses E s (r >>= fun x => pure (g x.1, x.2)) :=
  h.bind fun _ _ _ hle htoks hd => .ok hle htoks (hde _ _ hd)

theorem parses_return {c : Cmd Span} (hd : D [] c) : Parses D s (.ok (c, skip s)) :=
  .ok (length_skip_le s) (by simp) hd

theorem exists_kind {c : Char} (h : t.first = some c) (hc : c ∈ ['<', '>']) :
    ∃ k : Kind, t = k.tok := by
  cases t with
  | lt => exact ⟨.input, rfl⟩
  | gt => exact ⟨.output, rfl⟩
  | gtgt => exact ⟨.append, rfl⟩
  | nul | word => cases h
  | _ =>
    cases h
    exact absurd hc (by decide)

/-- A redirection in front of the text. -/
theorem parseredirs_redir {n : ℕ} {k : Kind} {file : Span} (cmd : Cmd Span)
    (hs : tokens s = k.tok :: ts) (hfile : gettoken (gettoken s).2 = (.word file, s')) :
    parseredirs (n + 1) cmd s = parseredirs n (cmd.redirect (k, file)) s' := by
  have hpeek : (peek s ['<', '>']).1 = true := by
    rw [peek_of_cons hs (by decide)]
    cases k <;> rfl
  have htok : (gettoken s).1 = k.tok := (tokens_eq_cons hs).1
  rw [parseredirs]
  simp only [hpeek, if_true]
  simp only [peek, gettoken_skip, hfile, htok]
  cases k <;> rfl

/-- `parseredirs` takes redirections. -/
theorem parseredirs_parses {n : ℕ} (cmd : Cmd Span) (hn : s.length < n) :
    Parses (fun ts c => ∃ rs, ts = redirToks rs ∧ c = cmd.redirects rs) s
      (parseredirs n cmd s) := by
  induction n generalizing s cmd with
  | zero => exact absurd hn (Nat.not_lt_zero _)
  | succ n ih =>
    by_cases hp : (peek s ['<', '>']).1 = true
    · obtain ⟨t, ts, c, hs, hfirst, hc⟩ := exists_of_peek hp (by decide)
      obtain ⟨k, rfl⟩ := exists_kind hfirst hc
      obtain ⟨-, -, hrest, hlt⟩ := tokens_eq_cons hs
      cases hfile : gettoken (gettoken s).2 with
      | mk f s' =>
        by_cases hword : ∃ file, f = .word file
        · obtain ⟨file, rfl⟩ := hword
          obtain ⟨hword, hlt'⟩ := tokens_of_gettoken hfile (by simp)
          rw [parseredirs_redir cmd hs hfile]
          refine (ih (cmd.redirect (k, file)) (by omega)).after
            [k.tok, .word file] (by omega) ?_ ?_
          · rw [hs, ← hrest, hword]
            rfl
          · rintro ts c ⟨rs, rfl, rfl⟩
            exact ⟨(k, file) :: rs, rfl, rfl⟩
        · have hpanic : parseredirs (n + 1) cmd s = .error (.panic .missingFile) := by
            rw [parseredirs]
            simp only [hp, if_true]
            simp only [peek, gettoken_skip, hfile]
            cases f with
            | word file => exact absurd ⟨file, rfl⟩ hword
            | _ => rfl
          rw [hpanic]
          exact .panic _
    · rw [parseredirs]
      simp only [hp]
      exact parses_return ⟨[], rfl, rfl⟩

/-- `parseargs` takes arguments with redirections behind them. -/
theorem parseargs_parses {n argc : ℕ} {argv : List Span} {rs : List (Redir Span)}
    (hn : s.length < n) (hargc : argc < maxArgs) :
    Parses (fun ts c => ∃ args : List (Arg Span), argc + args.length < maxArgs ∧
        ts = argToks args ∧ c = (Cmd.exec (argv ++ args.map Prod.fst)).redirects
          (rs ++ args.flatMap Prod.snd)) s
      (parseargs n argc ((Cmd.exec argv).redirects rs) s) := by
  induction n generalizing s argc argv rs with
  | zero => exact absurd hn (Nat.not_lt_zero _)
  | succ n ih =>
    rw [parseargs]
    by_cases hp : (peek s ['|', ')', '&', ';']).1 = true
    · simp only [hp, if_true]
      exact parses_return ⟨[], hargc, rfl, by simp⟩
    · simp only [hp]
      simp only [peek, gettoken_skip]
      cases hg : gettoken s with
      | mk t s' =>
        cases t with
        | nul =>
          obtain ⟨rfl, hnil⟩ := gettoken_nul hg
          have htoks : tokens s = [] ++ tokens [] := by
            rw [hnil, tokens_eq_nil_iff.mpr skip_nil]
            rfl
          exact .ok (Nat.zero_le _) htoks ⟨[], hargc, rfl, by simp⟩
        | word w =>
          obtain ⟨hword, hlt⟩ := tokens_of_gettoken hg (by simp)
          by_cases hmax : argc + 1 ≥ maxArgs
          · simp only [hmax, if_true]
            exact .panic _
          · simp only [hmax, if_false]
            rw [addArg_redirects]
            refine Parses.after [.word w] ?_ hlt.le hword fun ts c h => h
            refine (parseredirs_parses _ (Nat.lt_succ_self _)).bind ?_
            rintro c s₂ ts hle htoks ⟨rs', rfl, rfl⟩
            rw [← redirects_append]
            dsimp only
            refine (ih (by omega) (by omega)).after _ hle htoks ?_
            rintro ts c ⟨args, hargs, rfl, rfl⟩
            exact ⟨(w, rs') :: args, by simp; omega, by simp, by simp⟩
        | _ => exact .panic _

/-- `parsebacks` takes ampersands. -/
theorem parsebacks_parses {n : ℕ} (cmd : Cmd Span) (hn : s.length < n) :
    Parses (fun ts c => ∃ k, ts = List.replicate k .amp ∧ c = Cmd.back^[k] cmd) s
      (parsebacks n cmd s) := by
  induction n generalizing s cmd with
  | zero => exact absurd hn (Nat.not_lt_zero _)
  | succ n ih =>
    rw [parsebacks]
    by_cases hp : (peek s ['&']).1 = true
    · obtain ⟨ts, hs⟩ := (peek_iff (t := .amp) rfl (by decide)).mp hp
      have hlt := (tokens_eq_cons hs).2.2.2
      simp only [hp, if_true]
      simp only [peek, gettoken_skip]
      refine (ih (.back cmd) (by omega)).token hs ?_
      rintro ts c ⟨k, rfl, rfl⟩
      exact ⟨k + 1, rfl, rfl⟩
    · simp only [hp]
      exact parses_return ⟨0, rfl, rfl⟩

section Steps

variable {n : ℕ}

theorem parseline_parses (hpipe : Parses (Derives .pipeline) s (parsepipe n s))
    (hline : ∀ s', s'.length < s.length → Parses (Derives .line) s' (parseline n s')) :
    Parses (Derives .line) s (parseline (n + 1) s) := by
  rw [parseline]
  refine hpipe.bind ?_
  intro c s₁ ts hle htoks hc
  refine Parses.after (D := fun ts' c' => Derives .line (ts ++ ts') c') ts ?_ hle htoks
    fun _ _ h => h
  refine (parsebacks_parses c (Nat.lt_succ_self _)).bind ?_
  rintro c' s₂ ts' hle' htoks' ⟨k, rfl, rfl⟩
  refine Parses.after (List.replicate k .amp)
    (D := fun ts' c' => Derives .line (ts ++ (List.replicate k .amp ++ ts')) c') ?_ hle' htoks'
    fun _ _ h => h
  dsimp only
  by_cases hp : (peek s₂ [';']).1 = true
  · obtain ⟨ts₂, hs₂⟩ := (peek_iff (t := .semi) rfl (by decide)).mp hp
    have hlt := (tokens_eq_cons hs₂).2.2.2
    simp only [hp, if_true]
    simp only [peek, gettoken_skip]
    refine Parses.token (D := fun ts' c' =>
      Derives .line (ts ++ (List.replicate k .amp ++ .semi :: ts')) c') ?_ hs₂ fun _ _ h => h
    exact (hline _ (by omega)).map fun _ _ h => .jobs k hc h
  · simp only [hp]
    exact parses_return (by simpa using Derives.job k hc)

theorem parsepipe_parses (hexec : Parses (Derives .simple) s (parseexec n s))
    (hpipe : ∀ s', s'.length < s.length → Parses (Derives .pipeline) s' (parsepipe n s')) :
    Parses (Derives .pipeline) s (parsepipe (n + 1) s) := by
  rw [parsepipe]
  refine hexec.bind ?_
  intro c s₁ ts hle htoks hc
  refine Parses.after (D := fun ts' c' => Derives .pipeline (ts ++ ts') c') ts ?_ hle
    htoks fun _ _ h => h
  dsimp only
  by_cases hp : (peek s₁ ['|']).1 = true
  · obtain ⟨ts₁, hs₁⟩ := (peek_iff (t := .bar) rfl (by decide)).mp hp
    have hlt := (tokens_eq_cons hs₁).2.2.2
    simp only [hp, if_true]
    simp only [peek, gettoken_skip]
    refine Parses.token (D := fun ts' c' => Derives .pipeline (ts ++ .bar :: ts') c') ?_ hs₁
      fun _ _ h => h
    exact (hpipe _ (by omega)).map fun _ _ h => .pipe hc h
  · simp only [hp]
    exact parses_return (by simpa using Derives.command hc)

theorem parseblock_parses
    (hline : ∀ s', s'.length < s.length → Parses (Derives .line) s' (parseline n s')) :
    Parses (Derives .simple) s (parseblock (n + 1) s) := by
  rw [parseblock]
  by_cases hp : (peek s ['(']).1 = true
  · obtain ⟨ts, hs⟩ := (peek_iff (t := .lparen) rfl (by decide)).mp hp
    have hlt := (tokens_eq_cons hs).2.2.2
    simp only [hp, if_true]
    simp only [peek, gettoken_skip]
    refine Parses.token (D := fun ts c => Derives .simple (.lparen :: ts) c) ?_ hs fun _ _ h => h
    refine (hline _ hlt).bind ?_
    intro c s₁ ts₁ hle htoks hc
    refine Parses.after ts₁
      (D := fun ts' c' => Derives .simple (.lparen :: (ts₁ ++ ts')) c') ?_ hle htoks fun _ _ h => h
    dsimp only
    by_cases hp₁ : (peek s₁ [')']).1 = true
    · obtain ⟨ts₂, hs₂⟩ := (peek_iff (t := .rparen) rfl (by decide)).mp hp₁
      have hp₂ : (skip s₁).head?.any (· ∈ [')']) = true := hp₁
      simp only [hp₂, if_true]
      refine (parseredirs_parses c (Nat.lt_succ_self _)).token hs₂ ?_
      rintro _ _ ⟨rs, rfl, rfl⟩
      exact .block rs hc
    · have hp₂ : ¬ (skip s₁).head?.any (· ∈ [')']) = true := hp₁
      simp only [hp₂]
      exact .panic _
  · simp only [hp]
    exact .panic _

theorem parseexec_parses (hblock : Parses (Derives .simple) (skip s) (parseblock n (skip s))) :
    Parses (Derives .simple) s (parseexec (n + 1) s) := by
  rw [parseexec]
  by_cases hp : (peek s ['(']).1 = true
  · simp only [hp, if_true]
    exact hblock.after [] (length_skip_le s) (by simp) fun _ _ h => h
  · simp only [hp]
    refine Parses.after (D := Derives .simple) [] ?_ (length_skip_le s) (by simp)
      fun _ _ h => h
    refine (parseredirs_parses _ (Nat.lt_succ_self _)).bind ?_
    rintro c s₁ ts hle htoks ⟨rs, rfl, rfl⟩
    refine (parseargs_parses (Nat.lt_succ_self _) (by decide)).after _ hle htoks ?_
    rintro _ _ ⟨args, hargs, rfl, rfl⟩
    exact .exec rs args (by simpa using hargs)

end Steps

/-- Four passes for every character are enough. -/
theorem parse_parses (n : ℕ) (s : Ptr) :
    (4 * s.length + 4 ≤ n → Parses (Derives .line) s (parseline n s)) ∧
    (4 * s.length + 3 ≤ n → Parses (Derives .pipeline) s (parsepipe n s)) ∧
    (4 * s.length + 1 ≤ n → Parses (Derives .simple) s (parseblock n s)) ∧
    (4 * s.length + 2 ≤ n → Parses (Derives .simple) s (parseexec n s)) := by
  induction n generalizing s with
  | zero => exact ⟨by omega, by omega, by omega, by omega⟩
  | succ n ih =>
    refine ⟨?_, ?_, ?_, ?_⟩
    · intro hn
      exact parseline_parses ((ih s).2.1 (by omega)) fun s' hlt => (ih s').1 (by omega)
    · intro hn
      exact parsepipe_parses ((ih s).2.2.2 (by omega)) fun s' hlt => (ih s').2.1 (by omega)
    · intro hn
      exact parseblock_parses fun s' hlt => (ih s').1 (by omega)
    · intro hn
      have hle := length_skip_le s
      exact parseexec_parses ((ih (skip s)).2.2.1 (by omega))

end CS352.Shell
