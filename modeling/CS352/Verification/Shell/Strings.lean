import CS352.Verification.Shell.Completeness

/-! # The strings of a command

`nulterminate` writes over the separators only, so the words that the command points to are the
strings that it was parsed from. -/

namespace CS352.Shell

variable {ω ω' : Type*} {s line : Ptr} {n : ℕ}

/-! ## Words as texts -/

def Span.text (w : Span) : List Char := w.q.take (w.q.length - w.eq.length)

def Tok.map (f : ω → ω') : Tok ω → Tok ω'
  | .nul => .nul
  | .bar => .bar
  | .lparen => .lparen
  | .rparen => .rparen
  | .semi => .semi
  | .amp => .amp
  | .lt => .lt
  | .gt => .gt
  | .gtgt => .gtgt
  | .word w => .word (f w)

def Cmd.map (f : ω → ω') : Cmd ω → Cmd ω'
  | .exec argv => .exec (argv.map f)
  | .redir cmd file mode fd => .redir (cmd.map f) (f file) mode fd
  | .pipe left right => .pipe (left.map f) (right.map f)
  | .list left right => .list (left.map f) (right.map f)
  | .back cmd => .back (cmd.map f)

def Cmd.words : Cmd ω → List ω
  | .exec argv => argv
  | .redir cmd file _ _ => cmd.words ++ [file]
  | .pipe left right | .list left right => left.words ++ right.words
  | .back cmd => cmd.words

theorem map_congr {f g : ω → ω'} {c : Cmd ω} (h : ∀ w ∈ c.words, f w = g w) :
    c.map f = c.map g := by
  induction c with
  | exec argv => exact congrArg Cmd.exec (List.map_congr_left h)
  | redir cmd file mode fd ih =>
    simp only [Cmd.words, List.mem_append, List.mem_singleton] at h
    simp only [Cmd.map, ih fun w hw => h w (.inl hw), h file (.inr rfl)]
  | pipe left right ihl ihr | list left right ihl ihr =>
    simp only [Cmd.words, List.mem_append] at h
    simp only [Cmd.map, ihl fun w hw => h w (.inl hw), ihr fun w hw => h w (.inr hw)]
  | back cmd ih => simp only [Cmd.map, ih h]

theorem words_redirects (c : Cmd ω) (rs : List (Redir ω)) {w : ω} :
    w ∈ (c.redirects rs).words ↔ w ∈ c.words ∨ ∃ r ∈ rs, r.2 = w := by
  induction rs generalizing c with
  | nil => simp
  | cons r rs ih =>
    rw [redirects_cons, ih]
    simp only [Cmd.redirect, Cmd.words, List.mem_append, List.mem_cons, List.not_mem_nil,
      or_false, exists_eq_or_imp, or_assoc, eq_comm (a := w)]

theorem words_back (c : Cmd ω) (k : ℕ) : (Cmd.back^[k] c).words = c.words := by
  induction k generalizing c with
  | zero => rfl
  | succ k ih => exact ih (.back c)

theorem mem_redirToks {rs : List (Redir ω)} {r : Redir ω} (hr : r ∈ rs) :
    .word r.2 ∈ redirToks rs :=
  List.mem_flatMap.mpr ⟨r, hr, by simp [Redir.toks]⟩

/-- The words of a command are words of the tokens that it is derived from. -/
theorem Derives.mem_of_words {N : Nonterminal} {ts : List (Tok ω)} {c : Cmd ω}
    (h : Derives N ts c) {w : ω} (hw : w ∈ c.words) : .word w ∈ ts := by
  induction h with
  | exec rs args hargs =>
    rcases (words_redirects _ _).mp hw with hw | ⟨r, hr, rfl⟩
    · obtain ⟨a, ha, rfl⟩ := List.mem_map.mp hw
      exact List.mem_append_right _ (List.mem_flatMap.mpr ⟨a, ha, by simp⟩)
    · rcases List.mem_append.mp hr with hr | hr
      · exact List.mem_append_left _ (mem_redirToks hr)
      · obtain ⟨a, ha, hr⟩ := List.mem_flatMap.mp hr
        exact List.mem_append_right _ (List.mem_flatMap.mpr ⟨a, ha, by simp [mem_redirToks hr]⟩)
  | block rs h ih =>
    rcases (words_redirects _ _).mp hw with hw | ⟨r, hr, rfl⟩
    · simp [ih hw]
    · simp [mem_redirToks hr]
  | command h ih => exact ih hw
  | pipe h h' ih ih' =>
    rcases List.mem_append.mp hw with hw | hw
    · simp [ih hw]
    · simp [ih' hw]
  | job k h ih =>
    rw [words_back] at hw
    simp [ih hw]
  | jobs k h h' ih ih' =>
    rcases List.mem_append.mp hw with hw | hw
    · rw [words_back] at hw
      simp [ih hw]
    · simp [ih' hw]

/-! ## The buffer -/

/-- The string that begins at a place of the buffer. -/
def cstring (buf : List Char) (i : ℕ) : List Char := (buf.drop i).takeWhile (· ≠ '\x00')

theorem takeWhile_eq_of_getElem {l a : List Char} (h : ∀ i < a.length, l[i]? = a[i]?)
    (hend : l[a.length]? = some '\x00') (ha : '\x00' ∉ a) :
    l.takeWhile (· ≠ '\x00') = a := by
  induction a generalizing l with
  | nil =>
    cases l with
    | nil => rfl
    | cons c l =>
      obtain rfl : c = '\x00' := by simpa using hend
      rfl
  | cons d a ih =>
    cases l with
    | nil => simp at hend
    | cons c l =>
      obtain rfl : c = d := by simpa using h 0 (by simp)
      obtain ⟨hne, ha⟩ := not_or.mp (mt List.mem_cons.mpr ha)
      have hrest := ih (fun i hi => by simpa using h (i + 1) (by simpa using hi))
        (by simpa using hend) ha
      rw [List.takeWhile_cons_of_pos (by simpa using Ne.symm hne), hrest]

theorem nulterminate_eq (c : Cmd Span) (buf : List Char) :
    nulterminate n c buf =
      (c.words.map fun w => offset n w.eq).foldl (fun buf i => buf.set i '\x00') buf := by
  induction c generalizing buf with
  | exec argv => rw [nulterminate, Cmd.words, List.foldl_map]
  | redir cmd file mode fd ih =>
    rw [nulterminate, ih, Cmd.words, List.map_append, List.foldl_append]
    rfl
  | pipe left right ihl ihr | list left right ihl ihr =>
    rw [nulterminate, ihr, ihl, Cmd.words, List.map_append, List.foldl_append]
  | back cmd ih => exact ih buf

theorem foldl_set_getElem {α : Type*} {x : α} {is : List ℕ} {buf : List α} {j : ℕ} :
    (is.foldl (fun buf i => buf.set i x) buf)[j]? =
      if j ∈ is then buf[j]?.map fun _ => x else buf[j]? := by
  induction is generalizing buf with
  | nil => simp
  | cons i is ih =>
    rw [List.foldl_cons, ih, List.getElem?_set]
    by_cases hij : i = j
    · subst hij
      by_cases hlt : i < buf.length
      · simp [hlt]
      · simp [hlt]
    · simp [hij, Ne.symm hij]

theorem take_of_append {q a b : List Char} (h : q = a ++ b) : q.take (q.length - b.length) = a := by
  subst h
  simp

/-- A word is its text, up to a separator. -/
theorem Span.IsWord.split {w : Span} (hw : w.IsWord) : w.q = w.text ++ w.eq ∧
    (∀ c ∈ w.text, c ∉ whitespace ∧ c ∉ symbols) ∧
    ∀ c ∈ w.eq.head?, c ∈ whitespace ∨ c ∈ symbols := by
  have htake := (List.takeWhile_append_dropWhile
    (p := fun c => c ∉ whitespace ∧ c ∉ symbols) (l := w.q)).symm
  have htext : w.text = w.q.takeWhile fun c => c ∉ whitespace ∧ c ∉ symbols := by
    rw [Span.text, hw.end_eq]
    exact take_of_append htake
  refine ⟨?_, ?_, ?_⟩
  · rw [htext, hw.end_eq]
    exact htake
  · intro c hc
    rw [htext] at hc
    simpa using List.mem_takeWhile_imp hc
  · intro c hc
    have hnot := List.head?_dropWhile_not (fun c => c ∉ whitespace ∧ c ∉ symbols) w.q
    rw [hw.end_eq, skipWord] at hc
    rw [hc] at hnot
    simp only [decide_eq_false_iff_not] at hnot
    tauto

theorem getElem_of_suffix {l r : List Char} (h : r <:+ l) {i : ℕ} :
    l[l.length - r.length + i]? = r[i]? := by
  obtain ⟨t, rfl⟩ := h
  rw [List.length_append, Nat.add_sub_cancel, List.getElem?_append_right (Nat.le_add_right ..),
    Nat.add_sub_cancel_left]

/-- The strings are the texts that the tokens had. -/
theorem cstring_eq {ws : List Span} {w : Span} (hnul : '\x00' ∉ line)
    (hws : ∀ v ∈ ws, v.IsWord ∧ v.q <:+ line) (hw : w ∈ ws) :
    cstring ((ws.map fun v => offset line.length v.eq).foldl (fun buf i => buf.set i '\x00')
      (line ++ ['\x00'])) (offset line.length w.q) = w.text := by
  obtain ⟨hword, hsuffix⟩ := hws w hw
  obtain ⟨hsplit, htext, -⟩ := hword.split
  have hlength := congrArg List.length hsplit
  have hle := hsuffix.length_le
  rw [List.length_append] at hlength
  -- The text of the word, in the line.
  have hline : ∀ i < w.text.length,
      (line ++ ['\x00'])[offset line.length w.q + i]? = w.text[i]? := by
    intro i hi
    rw [List.getElem?_append_left (by unfold offset; omega), offset, getElem_of_suffix hsuffix,
      hsplit, List.getElem?_append_left hi]
  refine takeWhile_eq_of_getElem ?_ ?_ ?_
  · intro i hi
    rw [List.getElem?_drop, foldl_set_getElem, if_neg, hline i hi]
    -- The end of a word is at a separator, or at the end of the line.
    intro hmem
    obtain ⟨v, hv, hoffset⟩ := List.mem_map.mp hmem
    obtain ⟨hword', hsuffix'⟩ := hws v hv
    obtain ⟨hsplit', -, hsep⟩ := hword'.split
    have heq : v.eq <:+ line := (hsplit' ▸ List.suffix_append ..).trans hsuffix'
    have hle' := heq.length_le
    unfold offset at hoffset
    have hat := getElem_of_suffix (i := 0) heq
    rw [Nat.add_zero, hoffset] at hat
    have hchar := hline i hi
    rw [offset, List.getElem?_append_left (by omega), hat, List.getElem?_eq_getElem hi] at hchar
    have hbad := hsep w.text[i] (by rw [List.head?_eq_getElem?]; exact hchar)
    exact hbad.elim (htext _ (List.getElem_mem hi)).1 (htext _ (List.getElem_mem hi)).2
  · have hend : offset line.length w.q + w.text.length = offset line.length w.eq := by
      unfold offset
      omega
    rw [List.getElem?_drop, foldl_set_getElem, hend, if_pos (List.mem_map_of_mem hw),
      List.getElem?_eq_getElem (by rw [List.length_append, List.length_singleton, offset]; omega)]
    rfl
  · intro hmem
    refine hnul (hsuffix.mem ?_)
    rw [hsplit]
    exact List.mem_append_left _ hmem

/-! ## Derivations with other words -/

section Map

variable (f : ω → ω')

def Redir.map (r : Redir ω) : Redir ω' := (r.1, f r.2)

def Arg.map (a : Arg ω) : Arg ω' := (f a.1, a.2.map (Redir.map f))

theorem map_tok (k : Kind) : (k.tok : Tok ω).map f = k.tok := by
  cases k <;> rfl

theorem map_redirects (c : Cmd ω) (rs : List (Redir ω)) :
    (c.redirects rs).map f = (c.map f).redirects (rs.map (Redir.map f)) := by
  induction rs generalizing c with
  | nil => rfl
  | cons r rs ih => exact ih (c.redirect r)

theorem map_back (c : Cmd ω) (k : ℕ) : (Cmd.back^[k] c).map f = Cmd.back^[k] (c.map f) := by
  induction k generalizing c with
  | zero => rfl
  | succ k ih => exact ih (.back c)

theorem map_redirToks (rs : List (Redir ω)) :
    (redirToks rs).map (Tok.map f) = redirToks (rs.map (Redir.map f)) := by
  induction rs with
  | nil => rfl
  | cons r rs ih =>
    simp only [redirToks_cons, List.map_cons, map_tok, ih]
    rfl

theorem map_argToks (args : List (Arg ω)) :
    (argToks args).map (Tok.map f) = argToks (args.map (Arg.map f)) := by
  induction args with
  | nil => rfl
  | cons a args ih =>
    simp only [argToks_cons, List.map_cons, List.map_append, map_redirToks, ih]
    rfl

theorem map_exec (rs : List (Redir ω)) (args : List (Arg ω)) :
    ((Cmd.exec (args.map Prod.fst)).redirects (rs ++ args.flatMap Prod.snd)).map f =
      (Cmd.exec ((args.map (Arg.map f)).map Prod.fst)).redirects
        (rs.map (Redir.map f) ++ (args.map (Arg.map f)).flatMap Prod.snd) := by
  rw [map_redirects]
  simp only [Cmd.map, List.map_map, List.map_append, List.map_flatMap, List.flatMap_map]
  rfl

theorem Derives.map {N : Nonterminal} {ts : List (Tok ω)} {c : Cmd ω} (h : Derives N ts c) :
    Derives N (ts.map (Tok.map f)) (c.map f) := by
  induction h with
  | exec rs args hargs =>
    rw [map_exec, List.map_append, map_redirToks, map_argToks]
    exact .exec _ _ (by simpa using hargs)
  | block rs h ih =>
    rw [map_redirects, List.map_cons, List.map_append, List.map_cons, map_redirToks]
    exact .block _ ih
  | command h ih => exact .command ih
  | pipe h h' ih ih' =>
    rw [List.map_append, List.map_cons]
    exact .pipe ih ih'
  | job k h ih =>
    rw [List.map_append, List.map_replicate, map_back]
    exact .job k ih
  | jobs k h h' ih ih' =>
    rw [List.map_append, List.map_append, List.map_replicate, List.map_cons, Cmd.map, map_back]
    exact .jobs k ih ih'

theorem map_symbol_inj {t u : Tok ω} (h : t.map f = u.map f) (hu : ∀ w, u ≠ .word w) :
    t = u := by
  cases t <;> cases u <;> simp_all [Tok.map]

/-- A list with a symbol in it, whose words are images. -/
theorem symbol_lift {u : Tok ω} {ts : List (Tok ω)} {l r : List (Tok ω')}
    (h : ts.map (Tok.map f) = l ++ u.map f :: r) (hu : ∀ w, u ≠ .word w) :
    ∃ l₀ r₀, ts = l₀ ++ u :: r₀ ∧ l₀.map (Tok.map f) = l ∧ r₀.map (Tok.map f) = r := by
  obtain ⟨l₀, ts₂, rfl, hl, h₂⟩ := List.map_eq_append_iff.mp h
  obtain ⟨t, r₀, rfl, ht, hr⟩ := List.map_eq_cons_iff.mp h₂
  exact ⟨l₀, r₀, by rw [map_symbol_inj f ht hu], hl, hr⟩

theorem replicate_lift {ts : List (Tok ω)} {k : ℕ}
    (h : ts.map (Tok.map f) = List.replicate k .amp) : ts = List.replicate k .amp := by
  obtain ⟨hlength, hall⟩ := List.eq_replicate_iff.mp h
  refine List.eq_replicate_iff.mpr ⟨by simpa using hlength, ?_⟩
  intro t ht
  exact map_symbol_inj f (hall _ (List.mem_map_of_mem ht)) (by simp)

theorem redirToks_lift {rs : List (Redir ω')} {ts : List (Tok ω)}
    (h : ts.map (Tok.map f) = redirToks rs) :
    ∃ rs₀, ts = redirToks rs₀ ∧ rs₀.map (Redir.map f) = rs := by
  induction rs generalizing ts with
  | nil => exact ⟨[], by simpa using h, rfl⟩
  | cons r rs ih =>
    obtain ⟨t, ts₁, rfl, ht, h₁⟩ := List.map_eq_cons_iff.mp h
    obtain ⟨u, ts₂, rfl, hu, h₂⟩ := List.map_eq_cons_iff.mp h₁
    obtain ⟨rs₀, rfl, rfl⟩ := ih h₂
    obtain rfl : t = r.1.tok := map_symbol_inj f (ht.trans (map_tok f r.1).symm) fun w hw => by
      cases hr : r.1 <;> simp [hr, Kind.tok] at hw
    cases u with
    | word w =>
      have hw : f w = r.2 := by simpa [Tok.map] using hu
      refine ⟨(r.1, w) :: rs₀, rfl, ?_⟩
      rw [List.map_cons, Redir.map, hw]
    | _ => cases hu

theorem argToks_lift {args : List (Arg ω')} {ts : List (Tok ω)}
    (h : ts.map (Tok.map f) = argToks args) :
    ∃ args₀, ts = argToks args₀ ∧ args₀.map (Arg.map f) = args := by
  induction args generalizing ts with
  | nil => exact ⟨[], by simpa using h, rfl⟩
  | cons a args ih =>
    obtain ⟨t, ts₁, rfl, ht, h₁⟩ := List.map_eq_cons_iff.mp h
    obtain ⟨ts₂, ts₃, rfl, h₂, h₃⟩ := List.map_eq_append_iff.mp h₁
    obtain ⟨rs₀, rfl, hrs⟩ := redirToks_lift f h₂
    obtain ⟨args₀, rfl, rfl⟩ := ih h₃
    cases t with
    | word w =>
      have hw : f w = a.1 := by simpa [Tok.map] using ht
      refine ⟨(w, rs₀) :: args₀, rfl, ?_⟩
      rw [List.map_cons, Arg.map, hrs, hw]
    | _ => cases ht

/-- A derivation of images comes from a derivation. -/
theorem Derives.lift {N : Nonterminal} {ts' : List (Tok ω')} {c' : Cmd ω'}
    (h : Derives N ts' c') : ∀ {ts : List (Tok ω)}, ts.map (Tok.map f) = ts' →
      ∃ c, Derives N ts c ∧ c.map f = c' := by
  induction h with
  | exec rs args hargs =>
    intro ts hts
    obtain ⟨ts₁, ts₂, rfl, h₁, h₂⟩ := List.map_eq_append_iff.mp hts
    obtain ⟨rs₀, rfl, rfl⟩ := redirToks_lift f h₁
    obtain ⟨args₀, rfl, rfl⟩ := argToks_lift f h₂
    exact ⟨_, .exec rs₀ args₀ (by simpa using hargs), map_exec f rs₀ args₀⟩
  | block rs h ih =>
    intro ts hts
    obtain ⟨t, ts₁, rfl, ht, h₁⟩ := List.map_eq_cons_iff.mp hts
    obtain rfl : t = .lparen := map_symbol_inj f ht (by simp)
    obtain ⟨l, r, rfl, hl, hr⟩ := symbol_lift f (u := .rparen) h₁ (by simp)
    obtain ⟨c, hc, rfl⟩ := ih hl
    obtain ⟨rs₀, rfl, rfl⟩ := redirToks_lift f hr
    exact ⟨_, .block rs₀ hc, map_redirects f c rs₀⟩
  | command h ih =>
    intro ts hts
    obtain ⟨c, hc, hmap⟩ := ih hts
    exact ⟨c, .command hc, hmap⟩
  | pipe h h' ih ih' =>
    intro ts hts
    obtain ⟨l, r, rfl, hl, hr⟩ := symbol_lift f (u := .bar) hts (by simp)
    obtain ⟨c, hc, rfl⟩ := ih hl
    obtain ⟨c', hc', rfl⟩ := ih' hr
    exact ⟨_, .pipe hc hc', rfl⟩
  | job k h ih =>
    intro ts hts
    obtain ⟨ts₁, ts₂, rfl, h₁, h₂⟩ := List.map_eq_append_iff.mp hts
    obtain rfl := replicate_lift f h₂
    obtain ⟨c, hc, rfl⟩ := ih h₁
    exact ⟨_, .job k hc, map_back f c k⟩
  | jobs k h h' ih ih' =>
    intro ts hts
    obtain ⟨ts₁, ts₂, rfl, h₁, h₂⟩ := List.map_eq_append_iff.mp hts
    obtain ⟨l, r, rfl, hl, hr⟩ := symbol_lift f (u := .semi) h₂ (by simp)
    obtain rfl := replicate_lift f hl
    obtain ⟨c, hc, rfl⟩ := ih h₁
    obtain ⟨c', hc', rfl⟩ := ih' hr
    exact ⟨_, .jobs k hc hc', by rw [Cmd.map, map_back]⟩

end Map

/-! ## The parser and the grammar -/

/-- The command with the strings that its words point to. -/
def Cmd.strings (n : ℕ) (buf : List Char) (c : Cmd Span) : Cmd (List Char) :=
  c.map fun w => cstring buf (offset n w.q)

/-- The tokens of a line, with the texts of the words. -/
def lexemes (line : Ptr) : List (Tok (List Char)) := (tokens line).map (Tok.map Span.text)

theorem bind_ok {ε : Type*} {α β : Type} {x : Except ε α} {f : α → Except ε β} {b : β}
    (h : (x >>= f) = .ok b) : ∃ a, x = .ok a ∧ f a = .ok b := by
  cases x with
  | error e => cases h
  | ok a => exact ⟨a, rfl, h⟩

/-- `parsecmd` succeeds with the commands that the grammar derives. -/
theorem parsecmd_ok_iff {c : Cmd Span} {buf : List Char} :
    parsecmd line = .ok (c, buf) ↔ Derives .line (tokens line) c ∧
      buf = nulterminate line.length c (line ++ ['\x00']) := by
  constructor
  · intro h
    obtain ⟨⟨c', rest⟩, hline, h⟩ := bind_ok h
    have hparses := (parse_parses (4 * line.length + 4) line).1 le_rfl
    rw [hline] at hparses
    dsimp only at h
    by_cases hrest : (peek rest []).2 = []
    · rw [if_neg (not_not.mpr hrest)] at h
      cases h
      cases hparses with
      | ok hle htoks hd =>
        have hnil : tokens rest = [] := tokens_eq_nil_iff.mpr hrest
        rw [hnil, List.append_nil] at htoks
        exact ⟨htoks ▸ hd, rfl⟩
    · rw [if_pos hrest] at h
      cases h
  · rintro ⟨hd, rfl⟩
    obtain ⟨rest, hline, htoks, -⟩ := hd.succeeds (n := 4 * line.length + 4)
      (List.append_nil _).symm (by rintro t ⟨⟩) le_rfl
    have hline' : parseline (4 * line.length + 4) line = .ok (c, rest) := hline
    have hrest : (peek rest []).2 = [] := tokens_eq_nil_iff.mp htoks
    rw [parsecmd, hline']
    exact if_neg (not_not.mpr hrest)

/-- The parser ends. -/
theorem parsecmd_ne_fuel : parsecmd line ≠ .error .fuel := by
  have hparses := (parse_parses (4 * line.length + 4) line).1 le_rfl
  rw [parsecmd]
  generalize parseline (4 * line.length + 4) line = r at hparses
  cases hparses with
  | @ok c rest ts hle htoks hd =>
    intro h
    change (if (peek rest []).2 ≠ [] then _ else _) = _ at h
    split_ifs at h <;> cases h
  | panic p => exact fun h => by cases h

theorem strings_eq {c : Cmd Span} (hnul : '\x00' ∉ line) (h : Derives .line (tokens line) c) :
    c.strings line.length (nulterminate line.length c (line ++ ['\x00'])) = c.map Span.text := by
  refine map_congr fun w hw => ?_
  rw [nulterminate_eq]
  exact cstring_eq hnul (fun v hv => isWord_of_mem_tokens (h.mem_of_words hv)) hw

/-- The commands that a line is parsed to are those that are derived. -/
theorem strings_iff_derives (hnul : '\x00' ∉ line) {t : Cmd (List Char)} :
    (∃ c buf, parsecmd line = .ok (c, buf) ∧ c.strings line.length buf = t) ↔
      Derives .line (lexemes line) t := by
  constructor
  · rintro ⟨c, buf, hparse, rfl⟩
    obtain ⟨hd, rfl⟩ := parsecmd_ok_iff.mp hparse
    rw [strings_eq hnul hd]
    exact hd.map Span.text
  · intro hd
    obtain ⟨c, hc, rfl⟩ := hd.lift Span.text rfl
    exact ⟨c, _, parsecmd_ok_iff.mpr ⟨hc, rfl⟩, strings_eq hnul hc⟩

/-- The parser accepts a line exactly if the grammar derives it. Then the command, with the
strings that its pointers point to after `nulterminate`, is the one that is derived. In all other
cases the shell panics. -/
theorem parsecmd_iff_derives (hnul : '\x00' ∉ line) (t : Cmd (List Char)) :
    ((∃ c buf, parsecmd line = .ok (c, buf) ∧ c.strings line.length buf = t) ↔
      Derives .line (lexemes line) t) ∧
    ((∃ p, parsecmd line = .error (.panic p)) ↔ ∀ t, ¬ Derives .line (lexemes line) t) := by
  refine ⟨strings_iff_derives hnul, ?_⟩
  constructor
  · rintro ⟨p, hpanic⟩ t hd
    obtain ⟨c, buf, hparse, -⟩ := (strings_iff_derives hnul).mpr hd
    rw [hpanic] at hparse
    cases hparse
  · intro hnone
    cases hparse : parsecmd line with
    | ok r => exact absurd ((strings_iff_derives hnul).mp ⟨r.1, r.2, hparse, rfl⟩) (hnone _)
    | error e =>
      cases e with
      | fuel => exact absurd hparse parsecmd_ne_fuel
      | panic p => exact ⟨p, rfl⟩

theorem parsecmd_iff_derives_pipeline :
    Derives .line (lexemes "ls -l|(wc;a b&)>>out\n".toList)
      (.pipe (.exec ["ls".toList, "-l".toList])
        (.redir (.list (.exec ["wc".toList]) (.back (.exec ["a".toList, "b".toList])))
          "out".toList (oWronly ||| oCreate) 1)) := by
  have hparse : ((parsecmd "ls -l|(wc;a b&)>>out\n".toList).toOption.map fun r =>
      r.1.strings 21 r.2) = some (.pipe (.exec ["ls".toList, "-l".toList])
        (.redir (.list (.exec ["wc".toList]) (.back (.exec ["a".toList, "b".toList])))
          "out".toList (oWronly ||| oCreate) 1)) := by decide +kernel
  cases hline : parsecmd "ls -l|(wc;a b&)>>out\n".toList with
  | error e =>
    rw [hline] at hparse
    cases hparse
  | ok r =>
    rw [hline] at hparse
    exact (parsecmd_iff_derives (by decide) _).1.mp ⟨r.1, r.2, hline, Option.some_inj.mp hparse⟩

end CS352.Shell
