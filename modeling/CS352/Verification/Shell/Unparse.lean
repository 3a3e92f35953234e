import CS352.Verification.Shell.Strings

/-! # Printing commands

Every command can be written down so that the parser reads it back, with parentheses where the
grammar needs them. -/

namespace CS352.Shell

variable {ω : Type*}

/-! ## Tokens of a command -/

/-- Where a command stands. A job is a pipeline with ampersands behind it. -/
inductive Level where
  | line
  | job
  | pipeline
  | simple
  deriving DecidableEq

def paren (b : Bool) (ts : List (Tok ω)) : List (Tok ω) :=
  if b then .lparen :: (ts ++ [.rparen]) else ts

/-- The symbol of a redirection. -/
def redirTok (mode : UInt32) (fd : ℕ) : Tok ω :=
  if fd = 0 then .lt else if mode = Kind.output.mode then .gt else .gtgt

def Cmd.toks : Cmd ω → Level → List (Tok ω)
  | .exec argv, _ => argv.map .word
  | .redir cmd file mode fd, _ => cmd.toks .simple ++ [redirTok mode fd, .word file]
  | .pipe left right, level =>
    paren (level = .simple) (left.toks .simple ++ .bar :: right.toks .pipeline)
  | .back cmd, level => paren (level = .simple ∨ level = .pipeline) (cmd.toks .job ++ [.amp])
  | .list left right, level => paren (level ≠ .line) (left.toks .job ++ .semi :: right.toks .line)

/-- The commands that the shell can be given. -/
def Cmd.Expressible : Cmd ω → Prop
  | .exec argv => argv.length < maxArgs
  | .redir cmd _ mode fd => cmd.Expressible ∧ ∃ k : Kind, mode = k.mode ∧ fd = k.fd
  | .pipe left right | .list left right => left.Expressible ∧ right.Expressible
  | .back cmd => cmd.Expressible

theorem redirTok_eq (k : Kind) : (redirTok k.mode k.fd : Tok ω) = k.tok := by
  cases k <;> rfl

/-- A derivation at a level. -/
def DerivesAt : Level → List (Tok ω) → Cmd ω → Prop
  | .line, ts, c => Derives .line ts c
  | .job, ts, c => ∃ k ts₀ c₀, Derives .pipeline ts₀ c₀ ∧ ts = ts₀ ++ List.replicate k .amp ∧
      c = Cmd.back^[k] c₀
  | .pipeline, ts, c => Derives .pipeline ts c
  | .simple, ts, c => Derives .simple ts c

variable {ts ts' : List (Tok ω)} {c c' : Cmd ω} {level : Level}

theorem DerivesAt.line_of_job (h : DerivesAt .job ts c) : Derives .line ts c := by
  obtain ⟨k, ts₀, c₀, hd, rfl, rfl⟩ := h
  exact .job k hd

theorem Derives.at_pipeline (h : Derives .pipeline ts c) (hlevel : level ≠ .simple) :
    DerivesAt level ts c := by
  have hjob : DerivesAt .job ts c := ⟨0, ts, c, h, (List.append_nil ts).symm, rfl⟩
  cases level with
  | simple => exact absurd rfl hlevel
  | pipeline => exact h
  | job => exact hjob
  | line => exact hjob.line_of_job

theorem Derives.at_simple (h : Derives .simple ts c) : DerivesAt level ts c := by
  by_cases hlevel : level = .simple
  · subst hlevel
    exact h
  · exact (Derives.command h).at_pipeline hlevel

theorem Derives.at_paren (level : Level) (h : Derives .line ts c) :
    DerivesAt level (paren true ts) c := by
  have hblock : Derives .simple (paren true ts) c := Derives.block [] h
  exact hblock.at_simple

theorem redirToks_append (rs rs' : List (Redir ω)) :
    redirToks (rs ++ rs') = redirToks rs ++ redirToks rs' := List.flatMap_append

/-- A redirection behind a simple command goes around it. -/
theorem Derives.redirect (h : Derives .simple ts c) (r : Redir ω) :
    Derives .simple (ts ++ r.toks) (c.redirect r) := by
  have hr : redirToks [r] = r.toks := rfl
  have hc : ∀ c : Cmd ω, c.redirects [r] = c.redirect r := fun _ => rfl
  cases h with
  | exec rs args hargs =>
    rcases List.eq_nil_or_concat args with rfl | ⟨args, a, rfl⟩
    · have hexec := Derives.exec (rs ++ [r]) [] (by simp [maxArgs])
      simpa [redirToks_append, hr, redirects_append, hc] using hexec
    · have hexec := Derives.exec rs (args ++ [(a.1, a.2 ++ [r])]) (by simpa using hargs)
      simpa [argToks, redirToks_append, hr, redirects_append, hc] using hexec
  | block rs h =>
    have hblock := Derives.block (rs ++ [r]) h
    simpa [redirToks_append, hr, redirects_append, hc] using hblock

theorem derives_exec {argv : List ω} (h : argv.length < maxArgs) :
    Derives .simple (argv.map .word) (.exec argv) := by
  have htoks : argToks (argv.map fun w => ((w, []) : Arg ω)) = argv.map .word := by
    clear h
    induction argv with
    | nil => rfl
    | cons w argv ih => simpa using ih
  have hredirs : (argv.map fun w => ((w, []) : Arg ω)).flatMap Prod.snd = [] := by
    simp [List.flatMap_map]
  have hexec := Derives.exec [] (argv.map fun w => ((w, []) : Arg ω)) (by simpa using h)
  simpa [htoks, hredirs, Function.comp_def] using hexec

/-- The tokens of a command derive it. -/
theorem derivesAt_toks (level : Level) (hc : c.Expressible) :
    DerivesAt level (c.toks level) c := by
  induction c generalizing level with
  | exec argv => exact (derives_exec hc).at_simple
  | redir cmd file mode fd ih =>
    obtain ⟨hcmd, k, rfl, rfl⟩ := hc
    rw [Cmd.toks, redirTok_eq]
    exact ((ih .simple hcmd).redirect (k, file)).at_simple
  | pipe left right ihl ihr =>
    have hpipe : Derives .pipeline (left.toks .simple ++ .bar :: right.toks .pipeline)
        (.pipe left right) := .pipe (ihl .simple hc.1) (ihr .pipeline hc.2)
    rw [Cmd.toks]
    by_cases hlevel : level = .simple
    · rw [decide_eq_true hlevel]
      exact (DerivesAt.line_of_job (hpipe.at_pipeline (by decide))).at_paren _
    · rw [decide_eq_false hlevel]
      exact hpipe.at_pipeline hlevel
  | list left right ihl ihr =>
    obtain ⟨k, ts₀, c₀, hd, hts, hc₀⟩ := ihl .job hc.1
    have hline : Derives .line (left.toks .job ++ .semi :: right.toks .line)
        (.list left right) := by
      rw [hts, hc₀, List.append_assoc]
      exact .jobs k hd (ihr .line hc.2)
    rw [Cmd.toks]
    by_cases hlevel : level = .line
    · rw [decide_eq_false (not_not.mpr hlevel), hlevel]
      exact hline
    · rw [decide_eq_true hlevel]
      exact hline.at_paren _
  | back cmd ih =>
    obtain ⟨k, ts₀, c₀, hd, hts, hc₀⟩ := ih .job hc
    have hjob : DerivesAt .job (cmd.toks .job ++ [.amp]) (.back cmd) := by
      refine ⟨k + 1, ts₀, c₀, hd, ?_, ?_⟩
      · rw [hts, List.append_assoc, List.replicate_succ']
      · rw [hc₀, Function.iterate_succ_apply']
    rw [Cmd.toks]
    cases level with
    | line => exact hjob.line_of_job
    | job => exact hjob
    | pipeline => exact hjob.line_of_job.at_paren .pipeline
    | simple => exact hjob.line_of_job.at_paren .simple

/-! ## Texts -/

/-- The characters of a token. -/
def Tok.chars : Tok (List Char) → List Char
  | .nul => []
  | .bar => ['|']
  | .lparen => ['(']
  | .rparen => [')']
  | .semi => [';']
  | .amp => ['&']
  | .lt => ['<']
  | .gt => ['>']
  | .gtgt => ['>', '>']
  | .word w => w

/-- Every token with a blank behind it. -/
def render (ts : List (Tok (List Char))) : List Char := ts.flatMap fun t => t.chars ++ [' ']

def unparse (c : Cmd (List Char)) : List Char := render (c.toks .line)

/-- What can be an argument or a file name. -/
def Printable (w : List Char) : Prop :=
  w ≠ [] ∧ ∀ c ∈ w, c ∉ whitespace ∧ c ∉ symbols ∧ c ≠ '\x00'

theorem skipWord_append {w : List Char} (hw : Printable w) (s : Ptr) :
    skipWord (w ++ ' ' :: s) = ' ' :: s := by
  unfold skipWord
  rw [List.dropWhile_append_of_pos]
  · rfl
  · intro c hc
    have := hw.2 c hc
    simp [this.1, this.2.1]

instance (w : List Char) : Decidable (Printable w) := inferInstanceAs (Decidable (_ ∧ _))

/-- The token that is read from its characters. -/
theorem gettoken_chars {t : Tok (List Char)} (hne : t ≠ .nul)
    (hword : ∀ w, t = .word w → Printable w) (s : Ptr) :
    (gettoken (t.chars ++ ' ' :: s)).1.map Span.text = t ∧
      (gettoken (t.chars ++ ' ' :: s)).2 = skip s := by
  cases t with
  | nul => exact absurd rfl hne
  | word w =>
    have hw := hword w rfl
    have hskip := skipWord_append hw s
    obtain ⟨c, w, rfl⟩ := List.exists_cons_of_ne_nil hw.1
    have hc := hw.2 c (by simp)
    have hg : gettoken ((c :: w) ++ ' ' :: s) =
        (.word ⟨(c :: w) ++ ' ' :: s, ' ' :: s⟩, skip (' ' :: s)) := by
      rw [gettoken, List.cons_append, skip_of_not_mem hc.1, scan_word hc.2.1,
        ← List.cons_append, hskip]
    rw [Tok.chars, hg]
    exact ⟨congrArg Tok.word (take_of_append rfl), rfl⟩
  | _ => exact ⟨rfl, rfl⟩

theorem lexemes_render {ts : List (Tok (List Char))}
    (hts : ∀ t ∈ ts, t ≠ .nul ∧ ∀ w, t = .word w → Printable w) : lexemes (render ts) = ts := by
  induction ts with
  | nil => simp [lexemes, render, tokens_eq_nil_iff.mpr skip_nil]
  | cons t ts ih =>
    obtain ⟨hne, hword⟩ := hts t (by simp)
    have hrender : render (t :: ts) = t.chars ++ ' ' :: render ts := by
      simp [render]
    obtain ⟨htok, hrest⟩ := gettoken_chars hne hword (render ts)
    have hnul : (gettoken (t.chars ++ ' ' :: render ts)).1 ≠ .nul := by
      intro hnul
      rw [hnul] at htok
      exact hne htok.symm
    have hih := ih fun u hu => hts u (List.mem_cons_of_mem t hu)
    unfold lexemes at hih ⊢
    rw [hrender, tokens, if_neg hnul, List.map_cons, htok, hrest, tokens_skip, hih]

/-! ## The round trip -/

theorem mem_paren {b : Bool} {t : Tok ω} (ht : t ∈ paren b ts) :
    t = .lparen ∨ t ∈ ts ∨ t = .rparen := by
  cases b with
  | false => exact .inr (.inl ht)
  | true => simpa [paren] using ht

theorem redirTok_ne (mode : UInt32) (fd : ℕ) :
    (redirTok mode fd : Tok ω) ≠ .nul ∧ ∀ w, (redirTok mode fd : Tok ω) ≠ .word w := by
  unfold redirTok
  split_ifs <;> simp

/-- The words of the tokens are those of the command. -/
theorem mem_toks {t : Tok ω} (ht : t ∈ c.toks level) :
    t ≠ .nul ∧ ∀ w, t = .word w → w ∈ c.words := by
  induction c generalizing level with
  | exec argv =>
    obtain ⟨w, hw, rfl⟩ := List.mem_map.mp ht
    exact ⟨by simp, by rintro _ ⟨⟩; exact hw⟩
  | redir cmd file mode fd ih =>
    simp only [Cmd.toks, List.mem_append, List.mem_cons, List.not_mem_nil, or_false] at ht
    rcases ht with ht | rfl | rfl
    · exact (ih ht).imp_right fun h w hw => List.mem_append_left _ (h w hw)
    · exact (redirTok_ne mode fd).imp_right fun h w hw => absurd hw (h w)
    · simp [Cmd.words]
  | pipe left right ihl ihr | list left right ihl ihr =>
    rcases mem_paren ht with rfl | ht | rfl
    · simp
    · simp only [List.mem_append, List.mem_cons] at ht
      rcases ht with ht | rfl | ht
      · exact (ihl ht).imp_right fun h w hw => List.mem_append_left _ (h w hw)
      · simp
      · exact (ihr ht).imp_right fun h w hw => List.mem_append_right _ (h w hw)
    · simp
  | back cmd ih =>
    rcases mem_paren ht with rfl | ht | rfl
    · simp
    · simp only [List.mem_append, List.mem_singleton] at ht
      rcases ht with ht | rfl
      · exact ih ht
      · simp
    · simp

theorem not_mem_render {ts : List (Tok (List Char))}
    (hts : ∀ t ∈ ts, t ≠ .nul ∧ ∀ w, t = .word w → Printable w) : '\x00' ∉ render ts := by
  intro hmem
  obtain ⟨t, ht, hmem⟩ := List.mem_flatMap.mp hmem
  cases t with
  | word w =>
    have hw := (hts _ ht).2 w rfl
    rcases List.mem_append.mp hmem with hmem | hmem
    · exact (hw.2 _ hmem).2.2 rfl
    · exact absurd hmem (by decide)
  | _ => exact absurd hmem (by decide)

/-- What is printed for a command is parsed to it. -/
theorem parsecmd_unparse {c : Cmd (List Char)} (hc : c.Expressible)
    (hwords : ∀ w ∈ c.words, Printable w) :
    ∃ d buf, parsecmd (unparse c) = .ok (d, buf) ∧
      d.strings (unparse c).length buf = c := by
  have hts : ∀ t ∈ c.toks .line, t ≠ .nul ∧ ∀ w, t = .word w → Printable w := fun t ht =>
    (mem_toks ht).imp_right fun h w hw => hwords w (h w hw)
  refine (strings_iff_derives (not_mem_render hts)).mpr ?_
  rw [lexemes_render hts]
  exact derivesAt_toks .line hc

/-- `( a b ; < f ) &`. -/
def background : Cmd (List Char) :=
  .back (.list (.exec [['a'], ['b']]) (.redir (.exec []) ['f'] oRdonly 0))

theorem parsecmd_unparse_background :
    ∃ d buf, parsecmd (unparse background) = .ok (d, buf) ∧
      d.strings (unparse background).length buf = background :=
  parsecmd_unparse (c := background) ⟨(by decide : 2 < 10), (by decide : 0 < 10), .input, rfl, rfl⟩
    (by simp [background, Cmd.words, Printable, whitespace, symbols])

end CS352.Shell
