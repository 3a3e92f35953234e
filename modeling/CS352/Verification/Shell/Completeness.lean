import CS352.Verification.Shell.Grammar

/-! # Completeness of the parser

What the grammar derives is accepted, with any text behind it that may follow. -/

namespace CS352.Shell

variable {ω : Type*} {s s' : Ptr} {t : Tok Span} {ts rest : List (Tok Span)} {n : ℕ}
  {toks : List Char} {c : Cmd Span}

/-- The parse succeeds and leaves the tokens of `rest`. -/
def Succeeds (r : Except Abort (Cmd Span × Ptr)) (s : Ptr) (c : Cmd Span)
    (rest : List (Tok Span)) : Prop :=
  ∃ s', r = .ok (c, s') ∧ tokens s' = rest ∧ s'.length ≤ s.length

/-- The symbols that may follow. -/
def Nonterminal.follow : Nonterminal → List Char
  | .line => [')']
  | .pipeline => [')', '&', ';']
  | .simple => [')', '&', ';', '|']

/-- The text ends, or its next token begins with one of the symbols. -/
def Begins (toks : List Char) (ts : List (Tok Span)) : Prop :=
  ∀ t ∈ ts.head?, ∃ c ∈ toks, t.first = some c

/-- No token of `toks` is next. -/
theorem peek_false (h : ∀ t ∈ (tokens s).head?, ∀ c ∈ toks, t.first ≠ some c)
    (htoks : toks ⊆ symbols) : (peek s toks).1 = false := by
  by_contra hp
  obtain ⟨t, ts, c, hs, hfirst, hc⟩ := exists_of_peek (by simpa using hp) htoks
  exact h t (by simp [hs]) c hc hfirst

theorem Begins.first_ne (others : List Char) (h : Begins toks rest)
    (hothers : others.all (· ∉ toks) = true) :
    ∀ t ∈ rest.head?, ∀ c ∈ others, t.first ≠ some c := by
  intro t ht c hc hfirst
  obtain ⟨d, hd, hfirst'⟩ := h t ht
  obtain rfl : c = d := Option.some_inj.mp (hfirst.symm.trans hfirst')
  exact of_decide_eq_true (List.all_eq_true.mp hothers c hc) hd

theorem Begins.peek_false {others : List Char} (h : Begins toks (tokens s))
    (hothers : others.all (· ∉ toks) = true) (hsymbols : others ⊆ symbols) :
    (peek s others).1 = false := Shell.peek_false (h.first_ne _ hothers) hsymbols

theorem gettoken_of_tokens (hs : tokens s = t :: ts) :
    ∃ s', gettoken s = (t, s') ∧ tokens s' = ts ∧ s'.length < s.length := by
  obtain ⟨ht, -, hts, hlt⟩ := tokens_eq_cons hs
  exact ⟨(gettoken s).2, Prod.ext ht rfl, hts, hlt⟩

theorem succeeds_return (hs : tokens s = rest) : Succeeds (.ok (c, skip s)) s c rest :=
  ⟨skip s, rfl, by rw [tokens_skip, hs], length_skip_le s⟩

theorem Succeeds.after {r : Except Abort (Cmd Span × Ptr)} (h : Succeeds r s' c rest)
    (hle : s'.length ≤ s.length) : Succeeds r s c rest := by
  obtain ⟨s₁, hr, hrest, hle₁⟩ := h
  exact ⟨s₁, hr, hrest, hle₁.trans hle⟩

theorem Succeeds.bind {r : Except Abort (Cmd Span × Ptr)} {c' : Cmd Span}
    {f : Cmd Span × Ptr → Except Abort (Cmd Span × Ptr)} {rest' : List (Tok Span)}
    (h : Succeeds r s c rest)
    (hf : ∀ s', tokens s' = rest → s'.length ≤ s.length → Succeeds (f (c, s')) s c' rest') :
    Succeeds (r >>= f) s c' rest' := by
  obtain ⟨s', rfl, hrest, hle⟩ := h
  exact hf s' hrest hle

theorem parseredirs_succeeds {rs : List (Redir Span)} (cmd : Cmd Span)
    (hs : tokens s = redirToks rs ++ rest)
    (hrest : ∀ t ∈ rest.head?, ∀ c ∈ ['<', '>'], t.first ≠ some c) (hn : s.length < n) :
    Succeeds (parseredirs n cmd s) s (cmd.redirects rs) rest := by
  induction rs generalizing s cmd n with
  | nil =>
    obtain ⟨n, rfl⟩ := Nat.exists_eq_succ_of_ne_zero (by omega : n ≠ 0)
    have hs' : tokens s = rest := hs
    have hp : (peek s ['<', '>']).1 = false := peek_false (by rwa [hs']) (by decide)
    rw [parseredirs]
    simp only [hp]
    exact succeeds_return hs'
  | cons r rs ih =>
    obtain ⟨n, rfl⟩ := Nat.exists_eq_succ_of_ne_zero (by omega : n ≠ 0)
    obtain ⟨s₁, hg₁, hs₁, hlt₁⟩ := gettoken_of_tokens hs
    obtain ⟨s₂, hg₂, hs₂, hlt₂⟩ := gettoken_of_tokens hs₁
    rw [parseredirs_redir cmd hs (by rw [hg₁]; exact hg₂)]
    exact (ih (n := n) (cmd.redirect r) hs₂ (by omega)).after (by omega)

theorem parsebacks_succeeds {k : ℕ} (cmd : Cmd Span)
    (hs : tokens s = List.replicate k .amp ++ rest)
    (hrest : ∀ t ∈ rest.head?, ∀ c ∈ ['&'], t.first ≠ some c) (hn : s.length < n) :
    Succeeds (parsebacks n cmd s) s (Cmd.back^[k] cmd) rest := by
  induction k generalizing s cmd n with
  | zero =>
    obtain ⟨n, rfl⟩ := Nat.exists_eq_succ_of_ne_zero (by omega : n ≠ 0)
    have hs' : tokens s = rest := hs
    have hp : (peek s ['&']).1 = false := peek_false (by rwa [hs']) (by decide)
    rw [parsebacks]
    simp only [hp]
    exact succeeds_return hs'
  | succ k ih =>
    obtain ⟨n, rfl⟩ := Nat.exists_eq_succ_of_ne_zero (by omega : n ≠ 0)
    have hp : (peek s ['&']).1 = true := (peek_iff (t := .amp) rfl (by decide)).mpr ⟨_, hs⟩
    obtain ⟨s₁, hg₁, hs₁, hlt₁⟩ := gettoken_of_tokens hs
    rw [parsebacks]
    simp only [hp, if_true]
    simp only [peek, gettoken_skip, hg₁]
    exact (ih (n := n) (.back cmd) hs₁ (by omega)).after hlt₁.le

/-- Neither an argument nor what follows a command is a redirection. -/
theorem args_not_redir (args : List (Arg Span))
    (hrest : Begins Nonterminal.simple.follow rest) :
    ∀ t ∈ (argToks args ++ rest).head?, ∀ c ∈ ['<', '>'], t.first ≠ some c := by
  intro t ht c hc hfirst
  cases args with
  | nil => exact hrest.first_ne _ (by decide) t ht c hc hfirst
  | cons a args =>
    obtain rfl : Tok.word a.1 = t := by simpa using ht
    cases hfirst

theorem parseargs_succeeds {argc : ℕ} (argv : List Span) (rs : List (Redir Span))
    {args : List (Arg Span)} (hs : tokens s = argToks args ++ rest)
    (hrest : Begins Nonterminal.simple.follow rest) (hargs : argc + args.length < maxArgs)
    (hn : s.length < n) :
    Succeeds (parseargs n argc ((Cmd.exec argv).redirects rs) s) s
      ((Cmd.exec (argv ++ args.map Prod.fst)).redirects (rs ++ args.flatMap Prod.snd)) rest := by
  induction args generalizing s argc argv rs n with
  | nil =>
    obtain ⟨n, rfl⟩ := Nat.exists_eq_succ_of_ne_zero (by omega : n ≠ 0)
    have hs' : tokens s = rest := hs
    simp only [List.map_nil, List.flatMap_nil, List.append_nil]
    rw [parseargs]
    cases rest with
    | nil =>
      have hp := peek_of_nil ['|', ')', '&', ';'] hs' (by decide)
      have hskip := tokens_eq_nil_iff.mp hs'
      simp only [hp]
      simp only [peek, gettoken, hskip, scan]
      exact ⟨[], rfl, tokens_eq_nil_iff.mpr rfl, Nat.zero_le _⟩
    | cons t ts =>
      obtain ⟨c, hc, hfirst⟩ := hrest t (by simp)
      have hp : (peek s ['|', ')', '&', ';']).1 = true := by
        rw [peek_of_cons hs' (by decide), hfirst]
        simp only [Nonterminal.follow, List.mem_cons, List.not_mem_nil, or_false] at hc
        rcases hc with rfl | rfl | rfl | rfl <;> rfl
      simp only [hp, if_true]
      exact succeeds_return hs'
  | cons a args ih =>
    obtain ⟨n, rfl⟩ := Nat.exists_eq_succ_of_ne_zero (by omega : n ≠ 0)
    rw [List.length_cons] at hargs
    have hp : (peek s ['|', ')', '&', ';']).1 = false := by
      rw [peek_of_cons hs (by decide)]
      rfl
    rw [argToks_cons, List.cons_append, List.append_assoc] at hs
    obtain ⟨s₁, hg₁, hs₁, hlt₁⟩ := gettoken_of_tokens hs
    have hargc : ¬ argc + 1 ≥ maxArgs := by omega
    rw [parseargs]
    simp only [hp]
    simp only [peek, gettoken_skip, hg₁, hargc, if_false]
    rw [addArg_redirects]
    refine Succeeds.after (Succeeds.bind (parseredirs_succeeds _ hs₁ (args_not_redir _ hrest)
      (Nat.lt_succ_self _)) ?_) hlt₁.le
    intro s₂ hs₂ hle₂
    rw [← redirects_append]
    have hrec := ih (n := n) (argv ++ [a.1]) (rs ++ a.2) hs₂
      (by omega : argc + 1 + args.length < maxArgs) (by omega)
    simpa using hrec.after hle₂

/-! ## Derivations -/

/-- The parse function of a nonterminal. -/
def Nonterminal.parse : Nonterminal → ℕ → Ptr → Except Abort (Cmd Span × Ptr)
  | .line => parseline
  | .pipeline => parsepipe
  | .simple => parseexec

/-- The passes that it makes beyond four for every character. -/
def Nonterminal.level : Nonterminal → ℕ
  | .line => 4
  | .pipeline => 3
  | .simple => 2

theorem Begins.mono {toks' : List Char} (h : Begins toks rest) (hsub : toks ⊆ toks') :
    Begins toks' rest := fun t ht => by
  obtain ⟨c, hc, hfirst⟩ := h t ht
  exact ⟨c, hsub hc, hfirst⟩

theorem begins_cons {c : Char} (toks : List Char) (h : t.first = some c) (hc : c ∈ toks)
    (ts : List (Tok Span)) : Begins toks (t :: ts) := by
  rintro u ⟨⟩
  exact ⟨c, hc, h⟩

theorem Begins.replicate (h : Begins Nonterminal.pipeline.follow rest) (k : ℕ) :
    Begins Nonterminal.pipeline.follow (List.replicate k .amp ++ rest) := by
  cases k with
  | zero => exact h
  | succ k => exact begins_cons (c := '&') _ rfl (by decide) _

/-- A simple command does not begin with a parenthesis. -/
theorem exec_not_block {rs : List (Redir Span)} {args : List (Arg Span)}
    (hrest : Begins Nonterminal.simple.follow rest) :
    ∀ t ∈ (redirToks rs ++ (argToks args ++ rest)).head?, ∀ c ∈ ['('], t.first ≠ some c := by
  intro t ht c hc hfirst
  cases rs with
  | cons r rs =>
    obtain rfl : c = '(' := by simpa using hc
    obtain rfl : r.1.tok = t := by simpa using ht
    cases hk : r.1 <;> simp [hk, Kind.tok, Tok.first] at hfirst
  | nil =>
    cases args with
    | cons a args =>
      obtain rfl : Tok.word a.1 = t := by simpa using ht
      cases hfirst
    | nil => exact hrest.first_ne _ (by decide) t ht c hc hfirst

section Steps

variable {c' : Cmd Span} {k : ℕ}

theorem parseexec_exec {rs : List (Redir Span)} {args : List (Arg Span)}
    (hs : tokens s = redirToks rs ++ (argToks args ++ rest))
    (hargs : args.length < maxArgs) (hrest : Begins Nonterminal.simple.follow rest) :
    Succeeds (parseexec (n + 1) s) s
      ((Cmd.exec (args.map Prod.fst)).redirects (rs ++ args.flatMap Prod.snd)) rest := by
  have hp : (peek s ['(']).1 = false :=
    peek_false (by rw [hs]; exact exec_not_block hrest) (by decide)
  simp only [parseexec, hp]
  refine Succeeds.after (Succeeds.bind (parseredirs_succeeds _ ((tokens_skip s).trans hs)
    (args_not_redir _ hrest) (Nat.lt_succ_self _)) ?_) (length_skip_le s)
  intro s₁ hs₁ hle₁
  exact (parseargs_succeeds _ _ hs₁ hrest (by simpa using hargs) (Nat.lt_succ_self _)).after hle₁

theorem parseexec_block {rs : List (Redir Span)} (ts : List (Tok Span))
    (hs : tokens s = .lparen :: ts) (hrest : Begins Nonterminal.simple.follow rest)
    (hline : ∀ s', tokens s' = ts → s'.length < s.length →
      Succeeds (parseline n s') s' c (.rparen :: (redirToks rs ++ rest))) :
    Succeeds (parseexec (n + 2) s) s (c.redirects rs) rest := by
  have hp : (peek s ['(']).1 = true := (peek_iff (t := .lparen) rfl (by decide)).mpr ⟨_, hs⟩
  have hp' : (skip s).head?.any (· ∈ ['(']) = true := hp
  obtain ⟨s₁, hg₁, hs₁, hlt₁⟩ := gettoken_of_tokens hs
  rw [parseexec]
  simp only [hp, if_true]
  rw [parseblock]
  simp only [peek, skip_skip, hp', if_true, gettoken_skip, hg₁]
  refine ((hline s₁ hs₁ hlt₁).bind ?_).after hlt₁.le
  intro s₂ hs₂ hle₂
  have hp₂ : (peek s₂ [')']).1 = true := (peek_iff (t := .rparen) rfl (by decide)).mpr ⟨_, hs₂⟩
  obtain ⟨s₃, hg₃, hs₃, hlt₃⟩ := gettoken_of_tokens hs₂
  simp only [peek] at hp₂
  simp only [hp₂, if_true, hg₃]
  exact (parseredirs_succeeds c hs₃ (args_not_redir [] hrest)
    (Nat.lt_succ_self _)).after (by omega)

theorem parsepipe_command (hexec : Succeeds (parseexec n s) s c rest)
    (hrest : Begins Nonterminal.pipeline.follow rest) :
    Succeeds (parsepipe (n + 1) s) s c rest := by
  rw [parsepipe]
  refine hexec.bind ?_
  intro s₁ hs₁ hle₁
  have hp : (peek s₁ ['|']).1 = false := (hs₁ ▸ hrest).peek_false (by decide) (by decide)
  simp only [hp]
  exact (succeeds_return hs₁).after hle₁

theorem parsepipe_pipe (hexec : Succeeds (parseexec n s) s c (.bar :: ts))
    (hpipe : ∀ s', tokens s' = ts → s'.length < s.length →
      Succeeds (parsepipe n s') s' c' rest) :
    Succeeds (parsepipe (n + 1) s) s (.pipe c c') rest := by
  rw [parsepipe]
  refine hexec.bind ?_
  intro s₁ hs₁ hle₁
  have hp : (peek s₁ ['|']).1 = true := (peek_iff (t := .bar) rfl (by decide)).mpr ⟨_, hs₁⟩
  obtain ⟨s₂, hg₂, hs₂, hlt₂⟩ := gettoken_of_tokens hs₁
  simp only [hp, if_true]
  simp only [peek, gettoken_skip, hg₂]
  obtain ⟨s₃, hparse, hs₃, hle₃⟩ := hpipe s₂ hs₂ (by omega)
  rw [hparse]
  exact ⟨s₃, rfl, hs₃, by omega⟩

theorem parseline_job (hpipe : Succeeds (parsepipe n s) s c (List.replicate k .amp ++ rest))
    (hrest : Begins Nonterminal.line.follow rest) :
    Succeeds (parseline (n + 1) s) s (Cmd.back^[k] c) rest := by
  rw [parseline]
  refine hpipe.bind ?_
  intro s₁ hs₁ hle₁
  have hamp := hrest.first_ne ['&'] (by decide)
  refine ((parsebacks_succeeds c hs₁ hamp (Nat.lt_succ_self _)).bind ?_).after hle₁
  intro s₂ hs₂ hle₂
  have hp : (peek s₂ [';']).1 = false := (hs₂ ▸ hrest).peek_false (by decide) (by decide)
  simp only [hp]
  exact (succeeds_return hs₂).after hle₂

theorem parseline_jobs
    (hpipe : Succeeds (parsepipe n s) s c (List.replicate k .amp ++ .semi :: ts))
    (hline : ∀ s', tokens s' = ts → s'.length < s.length →
      Succeeds (parseline n s') s' c' rest) :
    Succeeds (parseline (n + 1) s) s (.list (Cmd.back^[k] c) c') rest := by
  rw [parseline]
  refine hpipe.bind ?_
  intro s₁ hs₁ hle₁
  have hamp := (begins_cons (t := .semi) (c := ';') [';'] rfl (by decide) ts).first_ne ['&']
    (by decide)
  refine ((parsebacks_succeeds c hs₁ hamp (Nat.lt_succ_self _)).bind ?_).after hle₁
  intro s₂ hs₂ hle₂
  have hp : (peek s₂ [';']).1 = true := (peek_iff (t := .semi) rfl (by decide)).mpr ⟨_, hs₂⟩
  obtain ⟨s₃, hg₃, hs₃, hlt₃⟩ := gettoken_of_tokens hs₂
  simp only [hp, if_true]
  simp only [peek, gettoken_skip, hg₃]
  obtain ⟨s₄, hparse, hs₄, hle₄⟩ := hline s₃ hs₃ (by omega)
  rw [hparse]
  exact ⟨s₄, rfl, hs₄, by omega⟩

end Steps

theorem Derives.succeeds {N : Nonterminal} (h : Derives N ts c) : ∀ {s : Ptr} {n : ℕ}
    {rest : List (Tok Span)}, tokens s = ts ++ rest → Begins N.follow rest →
      4 * s.length + N.level ≤ n → Succeeds (N.parse n s) s c rest := by
  induction h with
  | exec rs args hargs =>
    intro s n rest hs hrest hn
    obtain ⟨n, rfl⟩ := Nat.exists_eq_add_of_le' ((Nat.le_add_left 1 _).trans hn)
    rw [List.append_assoc] at hs
    exact parseexec_exec hs hargs hrest
  | @block ts c rs h ih =>
    intro s n rest hs hrest hn
    obtain ⟨n, rfl⟩ := Nat.exists_eq_add_of_le' ((Nat.le_add_left 2 _).trans hn)
    refine parseexec_block (ts ++ .rparen :: (redirToks rs ++ rest)) (by simpa using hs)
      hrest ?_
    intro s' hs' hlt
    exact ih hs' (begins_cons (c := ')') _ rfl (by decide) _) (by
      simp only [Nonterminal.level] at hn ⊢
      omega)
  | command h ih =>
    intro s n rest hs hrest hn
    obtain ⟨n, rfl⟩ := Nat.exists_eq_add_of_le' ((Nat.le_add_left 1 _).trans hn)
    exact parsepipe_command (ih hs (hrest.mono (by decide)) (by
      simp only [Nonterminal.level] at hn ⊢
      omega)) hrest
  | @pipe ts ts' c c' h h' ih ih' =>
    intro s n rest hs hrest hn
    obtain ⟨n, rfl⟩ := Nat.exists_eq_add_of_le' ((Nat.le_add_left 1 _).trans hn)
    simp only [Nonterminal.level] at hn ih ih'
    rw [List.append_assoc, List.cons_append] at hs
    refine parsepipe_pipe (ih hs (begins_cons (c := '|') _ rfl (by decide) _) (by omega)) ?_
    exact fun s' hs' hlt => ih' hs' hrest (by omega)
  | @job ts c k h ih =>
    intro s n rest hs hrest hn
    obtain ⟨n, rfl⟩ := Nat.exists_eq_add_of_le' ((Nat.le_add_left 1 _).trans hn)
    simp only [Nonterminal.level] at hn ih
    rw [List.append_assoc] at hs
    exact parseline_job (ih hs ((hrest.mono (by decide)).replicate k) (by omega)) hrest
  | @jobs ts ts' c c' k h h' ih ih' =>
    intro s n rest hs hrest hn
    obtain ⟨n, rfl⟩ := Nat.exists_eq_add_of_le' ((Nat.le_add_left 1 _).trans hn)
    simp only [Nonterminal.level] at hn ih ih'
    rw [List.append_assoc, List.append_assoc, List.cons_append] at hs
    have hsemi : Begins Nonterminal.pipeline.follow (.semi :: (ts' ++ rest)) :=
      begins_cons (c := ';') _ rfl (by decide) _
    refine parseline_jobs (ih hs (hsemi.replicate k) (by omega)) ?_
    exact fun s' hs' hlt => ih' hs' hrest (by omega)

end CS352.Shell
