import CS352.Model.ShellParser
import Mathlib.Data.List.TakeWhile

/-! # Tokens

The text as the list of its tokens. `gettoken` takes the first one off, and `peek` tells with
which character it begins. -/

namespace CS352.Shell

variable {ω : Type*} {s s' : Ptr} {t : Tok Span} {ts : List (Tok Span)} {toks : List Char}

theorem length_skip_le (s : Ptr) : (skip s).length ≤ s.length := List.length_dropWhile_le ..

theorem length_skipWord_le (s : Ptr) : (skipWord s).length ≤ s.length :=
  List.length_dropWhile_le ..

@[simp] theorem skip_nil : skip [] = [] := rfl

theorem skip_of_not_mem {c : Char} (hc : c ∉ whitespace) : skip (c :: s) = c :: s := by
  simp [skip, hc]

theorem not_mem_of_skip {c : Char} (h : skip s = c :: s') : c ∉ whitespace := by
  induction s with
  | nil => cases h
  | cons d s ih =>
    by_cases hd : d ∈ whitespace
    · exact ih (by simpa [skip, hd] using h)
    · rw [skip_of_not_mem hd] at h
      cases h
      exact hd

@[simp] theorem skip_skip (s : Ptr) : skip (skip s) = skip s := by
  cases h : skip s with
  | nil => rfl
  | cons c s' => exact skip_of_not_mem (not_mem_of_skip h)

/-! ## One token -/

/-- The character that a token begins with, except for words. -/
def Tok.first : Tok ω → Option Char
  | .bar => some '|'
  | .lparen => some '('
  | .rparen => some ')'
  | .semi => some ';'
  | .amp => some '&'
  | .lt => some '<'
  | .gt | .gtgt => some '>'
  | .nul | .word _ => none

/-- A word begins with a character that is not a separator and goes up to the next one. -/
structure Span.IsWord (w : Span) : Prop where
  end_eq : w.eq = skipWord w.q
  head : ∃ c q, w.q = c :: q ∧ c ∉ whitespace ∧ c ∉ symbols

/-- The switch finds a symbol. -/
theorem scan_symbol {c : Char} (hc : c ∈ symbols) (s : Ptr) :
    (scan (c :: s)).1.first = some c ∧ (scan (c :: s)).2.length ≤ s.length := by
  simp only [symbols, List.mem_cons, List.not_mem_nil, or_false] at hc
  rcases hc with rfl | rfl | rfl | rfl | rfl | rfl | rfl
  case inr.inr.inl =>
    by_cases hs : s.head? = some '>'
    · simp [scan, hs, Tok.first]
    · simp [scan, hs, Tok.first]
  all_goals simp [scan, Tok.first]

/-- The switch finds a word. -/
theorem scan_word {c : Char} (hc : c ∉ symbols) (s : Ptr) :
    scan (c :: s) = (.word ⟨c :: s, skipWord (c :: s)⟩, skipWord (c :: s)) := by
  simp only [symbols, List.mem_cons, List.not_mem_nil, or_false, not_or] at hc
  simp [scan, hc]

theorem gettoken_skip (s : Ptr) : gettoken (skip s) = gettoken s := by
  simp [gettoken]

theorem gettoken_nul_iff : (gettoken s).1 = .nul ↔ skip s = [] := by
  cases h : skip s with
  | nil => simp [gettoken, h, scan]
  | cons c s' =>
    by_cases hc : c ∈ symbols
    · have hfirst := (scan_symbol hc s').1
      simp only [gettoken, h, reduceCtorEq, iff_false]
      intro hnul
      rw [hnul] at hfirst
      cases hfirst
    · simp [gettoken, h, scan_word hc]

theorem length_gettoken_lt (h : (gettoken s).1 ≠ .nul) : (gettoken s).2.length < s.length := by
  have hle := length_skip_le s
  cases hs : skip s with
  | nil => exact absurd (gettoken_nul_iff.mpr hs) h
  | cons c s' =>
    rw [hs, List.length_cons] at hle
    simp only [gettoken, hs]
    refine (length_skip_le _).trans_lt (lt_of_lt_of_le ?_ hle)
    by_cases hc : c ∈ symbols
    · exact Nat.lt_succ_of_le (scan_symbol hc s').2
    · rw [scan_word hc]
      refine Nat.lt_succ_of_le ?_
      have hword : skipWord (c :: s') = skipWord s' := by
        simp [skipWord, hc, not_mem_of_skip hs]
      rw [hword]
      exact length_skipWord_le s'

/-- A word that `gettoken` returns. -/
theorem isWord_of_gettoken {w : Span} (h : (gettoken s).1 = .word w) : w.IsWord ∧ w.q <:+ s := by
  cases hs : skip s with
  | nil => simp [gettoken, hs, scan] at h
  | cons c s' =>
    have hsuffix : c :: s' <:+ s := hs ▸ List.dropWhile_suffix _
    simp only [gettoken, hs] at h
    by_cases hc : c ∈ symbols
    · have hfirst := (scan_symbol hc s').1
      rw [h] at hfirst
      cases hfirst
    · rw [scan_word hc] at h
      cases h
      exact ⟨⟨rfl, c, s', rfl, not_mem_of_skip hs, hc⟩, hsuffix⟩

theorem scan_suffix (s : Ptr) : (scan s).2 <:+ s := by
  cases s with
  | nil => exact List.suffix_rfl
  | cons c s =>
    by_cases hc : c ∈ symbols
    · simp only [symbols, List.mem_cons, List.not_mem_nil, or_false] at hc
      rcases hc with rfl | rfl | rfl | rfl | rfl | rfl | rfl
      case inr.inr.inl =>
        by_cases hs : s.head? = some '>'
        · simpa [scan, hs] using (List.tail_suffix s).trans (List.suffix_cons '>' s)
        · simp [scan, hs]
      all_goals simp [scan]
    · rw [scan_word hc]
      exact List.dropWhile_suffix _

theorem gettoken_suffix (s : Ptr) : (gettoken s).2 <:+ s :=
  ((List.dropWhile_suffix _).trans (scan_suffix _)).trans (List.dropWhile_suffix _)

/-! ## The tokens of a text -/

def tokens (s : Ptr) : List (Tok Span) :=
  if (gettoken s).1 = .nul then [] else (gettoken s).1 :: tokens (gettoken s).2
  termination_by s.length
  decreasing_by exact length_gettoken_lt ‹_›

@[simp] theorem tokens_skip (s : Ptr) : tokens (skip s) = tokens s := by
  rw [tokens, gettoken_skip, ← tokens]

theorem tokens_eq_nil_iff : tokens s = [] ↔ skip s = [] := by
  rw [tokens, ← gettoken_nul_iff]
  split_ifs with h <;> simp [h]

theorem tokens_eq_cons (h : tokens s = t :: ts) :
    (gettoken s).1 = t ∧ t ≠ .nul ∧ tokens (gettoken s).2 = ts ∧
      (gettoken s).2.length < s.length := by
  rw [tokens] at h
  split_ifs at h with hnul
  cases h
  exact ⟨rfl, hnul, rfl, length_gettoken_lt hnul⟩

theorem gettoken_nul (h : gettoken s = (.nul, s')) : s' = [] ∧ tokens s = [] := by
  have hskip : skip s = [] := gettoken_nul_iff.mp (by rw [h])
  refine ⟨?_, tokens_eq_nil_iff.mpr hskip⟩
  simpa [gettoken, hskip, scan, eq_comm] using h

theorem tokens_of_gettoken (h : gettoken s = (t, s')) (hne : t ≠ .nul) :
    tokens s = t :: tokens s' ∧ s'.length < s.length := by
  have htok : (gettoken s).1 ≠ .nul := by rwa [h]
  have hlt := length_gettoken_lt htok
  rw [tokens, if_neg htok]
  rw [h] at hlt ⊢
  exact ⟨rfl, hlt⟩

theorem isWord_of_mem_tokens {w : Span} (h : .word w ∈ tokens s) : w.IsWord ∧ w.q <:+ s := by
  induction s using tokens.induct with
  | case1 s hnul => simp [tokens, hnul] at h
  | case2 s hnul ih =>
    rw [tokens, if_neg hnul] at h
    rcases List.mem_cons.mp h with heq | h
    · exact isWord_of_gettoken heq.symm
    · exact (ih h).imp_right fun hq => hq.trans (gettoken_suffix s)

/-- `peek` tells whether the next token begins with one of the symbols. -/
theorem peek_eq (h : toks ⊆ symbols) :
    (peek s toks).1 = (tokens s).head?.any fun t => t.first.any (· ∈ toks) := by
  cases hs : skip s with
  | nil => simp [peek, hs, tokens_eq_nil_iff.mpr hs]
  | cons c s' =>
    have hnul : (gettoken s).1 ≠ .nul := fun hnul => by
      rw [gettoken_nul_iff.mp hnul] at hs
      cases hs
    rw [tokens, if_neg hnul]
    by_cases hc : c ∈ symbols
    · simp [peek, hs, gettoken, (scan_symbol hc s').1]
    · have hnot : c ∉ toks := fun hmem => hc (h hmem)
      simp [peek, hs, gettoken, scan_word hc, Tok.first, hnot]

end CS352.Shell
