import CS352.Model.Grep
import Mathlib.Computability.Language
import Mathlib.Tactic.SplitIfs

/-! # What `grep` prints -/

namespace CS352.Grep

variable {re text : List UInt8} {c : UInt8}

/-! ## Patterns -/

/-- A character of a pattern, alone or before a `*`. -/
inductive Piece where
  | one (c : UInt8)
  | many (c : UInt8)
  deriving DecidableEq

/-- The pieces of a pattern after a `^`, and whether it ends in `$`. -/
def pieces : List UInt8 → List Piece × Bool
  | [] => ([], false)
  | [c] => if c = dollar then ([], true) else ([.one c], false)
  | c :: d :: re =>
    if d = star then (.many c :: (pieces re).1, (pieces re).2)
    else (.one c :: (pieces (d :: re)).1, (pieces (d :: re)).2)

/-- The character `c` of a pattern stands for `x`. -/
def Admits (c x : UInt8) : Prop := c = dot ∨ c = x

def letters (c : UInt8) : Language UInt8 := {w | ∃ x, Admits c x ∧ w = [x]}

def Piece.language : Piece → Language UInt8
  | .one c => letters c
  | .many c => KStar.kstar (letters c)

/-- The words of a sequence of pieces. -/
def words (ps : List Piece) : Language UInt8 := (ps.map Piece.language).prod

theorem mem_words_one {ps : List Piece} {w : List UInt8} :
    w ∈ words (.one c :: ps) ↔ ∃ x v, w = x :: v ∧ Admits c x ∧ v ∈ words ps := by
  rw [words, List.map_cons, List.prod_cons, Language.mem_mul]
  constructor
  · rintro ⟨_, ⟨x, hx, rfl⟩, v, hv, rfl⟩
    exact ⟨x, v, rfl, hx, hv⟩
  · rintro ⟨x, v, rfl, hx, hv⟩
    exact ⟨[x], ⟨x, hx, rfl⟩, v, hv, rfl⟩

theorem mem_kstar_letters {w : List UInt8} :
    w ∈ KStar.kstar (letters c) ↔ ∀ x ∈ w, Admits c x := by
  rw [Language.mem_kstar]
  constructor
  · rintro ⟨l, rfl, hl⟩ x hx
    obtain ⟨y, hy, hxy⟩ := List.mem_flatten.mp hx
    obtain ⟨z, hz, rfl⟩ := hl y hy
    rwa [List.mem_singleton.mp hxy]
  · intro h
    have hflat : (w.map fun x => [x]).flatten = w := by induction w <;> simp_all
    refine ⟨w.map fun x => [x], hflat.symm, fun y hy => ?_⟩
    obtain ⟨x, hx, rfl⟩ := List.mem_map.mp hy
    exact ⟨x, h x hx, rfl⟩

theorem mem_words_many {ps : List Piece} {w : List UInt8} :
    w ∈ words (.many c :: ps) ↔
      ∃ u v, w = u ++ v ∧ (∀ x ∈ u, Admits c x) ∧ v ∈ words ps := by
  rw [words, List.map_cons, List.prod_cons, Language.mem_mul]
  constructor
  · rintro ⟨u, hu, v, hv, rfl⟩
    exact ⟨u, v, rfl, mem_kstar_letters.mp hu, hv⟩
  · rintro ⟨u, v, rfl, hu, hv⟩
    exact ⟨u, mem_kstar_letters.mpr hu, v, hv, rfl⟩

/-! ## The matcher -/

theorem matchstar_iff {here : List UInt8 → Bool} : matchstar c here text = true ↔
    ∃ u rest, text = u ++ rest ∧ (∀ x ∈ u, Admits c x) ∧ here rest = true := by
  induction text with
  | nil => simp [matchstar]
  | cons x text ih =>
    have hloop : matchstar c here (x :: text) = true ↔
        here (x :: text) = true ∨ Admits c x ∧ matchstar c here text = true := by
      have hadmits : (x = c ∨ c = dot) ↔ Admits c x :=
        ⟨fun h => h.symm.imp_right Eq.symm, fun h => (h.imp_right Eq.symm).symm⟩
      rw [matchstar, Bool.or_eq_true, Bool.and_eq_true, Bool.or_eq_true, decide_eq_true_iff,
        decide_eq_true_iff, hadmits]
    rw [hloop, ih]
    constructor
    · rintro (hhere | ⟨hx, u, rest, rfl, hu, hhere⟩)
      · exact ⟨[], x :: text, rfl, by simp, hhere⟩
      · exact ⟨x :: u, rest, rfl, List.forall_mem_cons.mpr ⟨hx, hu⟩, hhere⟩
    · rintro ⟨u, rest, heq, hu, hhere⟩
      cases u with
      | nil =>
        rw [List.nil_append] at heq
        exact .inl (heq ▸ hhere)
      | cons y u =>
        rw [List.cons_append, List.cons.injEq] at heq
        obtain ⟨rfl, rfl⟩ := heq
        rw [List.forall_mem_cons] at hu
        exact .inr ⟨hu.1, u, rest, rfl, hu.2, hhere⟩

/-- The text begins with a word of the pattern, and is this word if the pattern ends in `$`. -/
def Begins (re text : List UInt8) : Prop :=
  ∃ w rest, text = w ++ rest ∧ w ∈ words (pieces re).1 ∧ ((pieces re).2 = true → rest = [])

theorem begins_nil : Begins [] text := ⟨[], text, rfl, rfl, nofun⟩

theorem begins_one {re' : List UInt8}
    (hre : pieces re = (.one c :: (pieces re').1, (pieces re').2)) :
    Begins re text ↔ ∃ x rest, text = x :: rest ∧ Admits c x ∧ Begins re' rest := by
  unfold Begins
  rw [hre]
  constructor
  · rintro ⟨w, rest, rfl, hw, hend⟩
    obtain ⟨x, v, rfl, hx, hv⟩ := mem_words_one.mp hw
    exact ⟨x, v ++ rest, rfl, hx, v, rest, rfl, hv, hend⟩
  · rintro ⟨x, _, rfl, hx, v, rest, rfl, hv, hend⟩
    exact ⟨x :: v, rest, rfl, mem_words_one.mpr ⟨x, v, rfl, hx, hv⟩, hend⟩

theorem begins_many {re' : List UInt8}
    (hre : pieces re = (.many c :: (pieces re').1, (pieces re').2)) :
    Begins re text ↔ ∃ u rest, text = u ++ rest ∧ (∀ x ∈ u, Admits c x) ∧ Begins re' rest := by
  unfold Begins
  rw [hre]
  constructor
  · rintro ⟨w, rest, rfl, hw, hend⟩
    obtain ⟨u, v, rfl, hu, hv⟩ := mem_words_many.mp hw
    exact ⟨u, v ++ rest, List.append_assoc .., hu, v, rest, rfl, hv, hend⟩
  · rintro ⟨u, _, rfl, hu, v, rest, rfl, hv, hend⟩
    exact ⟨u ++ v, rest, (List.append_assoc ..).symm, mem_words_many.mpr ⟨u, v, rfl, hu, hv⟩, hend⟩

theorem matchhere_iff : matchhere re text = true ↔ Begins re text := by
  induction re using pieces.induct generalizing text with
  | case1 => simp [matchhere, begins_nil]
  | case2 => simp [matchhere, Begins, pieces, words]
  | case3 c hc =>
    have hre : pieces [c] = (.one c :: (pieces []).1, (pieces []).2) := by simp [pieces, hc]
    rw [begins_one hre]
    cases text with
    | nil => simp [matchhere, hc]
    | cons x text => simp [matchhere, hc, begins_nil, Admits]
  | case4 c re ih =>
    have hre : pieces (c :: star :: re) = (.many c :: (pieces re).1, (pieces re).2) := by
      rw [pieces, if_pos rfl]
    have hstar : matchhere (c :: star :: re) text = matchstar c (matchhere re) text := by
      simp [matchhere]
    rw [begins_many hre, hstar, matchstar_iff]
    simp only [ih]
  | case5 c d re hd ih =>
    have hre : pieces (c :: d :: re) =
        (.one c :: (pieces (d :: re)).1, (pieces (d :: re)).2) := by
      rw [pieces, if_neg hd]
    rw [begins_one hre, matchhere.eq_def]
    cases text with
    | nil => simp [hd]
    | cons x text => simp [hd, ← ih, Admits]

/-- The text has a word of the pattern in it: at its beginning if the pattern begins with `^`, and
at its end if it ends in `$`. -/
def Contains (re text : List UInt8) : Prop :=
  ∃ front w rest, text = front ++ w ++ rest ∧
    if re.head? = some caret then front = [] ∧ w ∈ words (pieces re.tail).1 ∧
      ((pieces re.tail).2 = true → rest = [])
    else w ∈ words (pieces re).1 ∧ ((pieces re).2 = true → rest = [])

theorem matchLoop_iff : matchLoop re text = true ↔
    ∃ front rest, text = front ++ rest ∧ Begins re rest := by
  induction text with
  | nil => simp [matchLoop, matchhere_iff]
  | cons x text ih =>
    rw [matchLoop, Bool.or_eq_true, matchhere_iff, ih]
    constructor
    · rintro (h | ⟨front, rest, rfl, h⟩)
      · exact ⟨[], x :: text, rfl, h⟩
      · exact ⟨x :: front, rest, rfl, h⟩
    · rintro ⟨front, rest, heq, h⟩
      cases front with
      | nil =>
        rw [List.nil_append] at heq
        exact .inl (heq ▸ h)
      | cons y front =>
        rw [List.cons_append, List.cons.injEq] at heq
        exact .inr ⟨front, rest, heq.2, h⟩

theorem matchText_iff (re text : List UInt8) : matchText re text = true ↔ Contains re text := by
  have hloop (re : List UInt8) (hre : re.head? ≠ some caret) :
      matchLoop re text = true ↔ Contains re text := by
    rw [matchLoop_iff]
    unfold Contains Begins
    simp only [if_neg hre]
    constructor
    · rintro ⟨front, _, rfl, w, rest, rfl, hw⟩
      exact ⟨front, w, rest, (List.append_assoc ..).symm, hw⟩
    · rintro ⟨front, w, rest, rfl, hw⟩
      exact ⟨front, w ++ rest, List.append_assoc .., w, rest, rfl, hw⟩
  cases re with
  | nil => exact hloop [] (by simp)
  | cons c re =>
    by_cases hc : c = caret
    · rw [matchText, if_pos hc, matchhere_iff]
      unfold Contains Begins
      simp [hc]
    · rw [matchText, if_neg hc]
      exact hloop (c :: re) (by simpa using hc)

/-! ## Lines -/

/-- The lines of a text that are printed: those that match, up to the first one for which there is
no room in the buffer. What follows the last newline is no line. -/
def printed (re text : List UInt8) : List UInt8 :=
  (((text.splitOn newline).dropLast.takeWhile fun l => l.length < bufSize - 1).filter
    (matchText re)).flatMap (· ++ [newline])

theorem beq_newline (h : newline ∉ text) : ∀ x ∈ text, (x == newline) = false :=
  fun _ hx => beq_eq_false_iff_ne.mpr fun heq => h (heq ▸ hx)

theorem printed_of_notMem (h : newline ∉ text) : printed re text = [] := by
  have hsplit : text.splitOn newline = [text] :=
    List.splitOnP_eq_singleton (beq_newline h)
  simp [printed, hsplit]

theorem printed_line {line : List UInt8} (h : newline ∉ line) (rest : List UInt8) :
    printed re (line ++ newline :: rest) = if line.length < bufSize - 1 then
      (if matchText re line then line ++ [newline] else []) ++ printed re rest else [] := by
  have hsplit : (line ++ newline :: rest).splitOn newline = line :: rest.splitOn newline :=
    List.splitOnP_append_cons_of_forall_mem (beq_newline h) _ (beq_self_eq_true _) rest
  have hne : rest.splitOn newline ≠ [] := List.splitOnP_ne_nil _ _
  rw [printed, hsplit, List.dropLast_cons_of_ne_nil hne, List.takeWhile_cons]
  by_cases hlt : line.length < bufSize - 1
  · by_cases hm : matchText re line = true <;> simp [hlt, hm, printed]
  · simp [hlt]

/-- A line that does not fit ends everything. -/
theorem printed_of_long {buf : List UInt8} (h : newline ∉ buf) (hlen : bufSize - 1 ≤ buf.length)
    (file : List UInt8) : printed re (buf ++ file) = [] := by
  by_cases hmem : newline ∈ file
  · obtain ⟨l, rest, rfl, hl⟩ := List.eq_append_cons_of_mem hmem
    have hline : newline ∉ buf ++ l := by simp [h, hl]
    rw [← List.append_assoc, printed_line hline, if_neg]
    rw [List.length_append]
    omega
  · exact printed_of_notMem (by simp [h, hmem])

theorem strchr_eq_none {p : List UInt8} (hnul : 0 ∉ p) (h : WordCount.strchr p c = none) :
    c ∉ p := by
  induction p with
  | nil => exact List.not_mem_nil
  | cons x p ih =>
    rw [List.mem_cons, not_or] at hnul
    rw [WordCount.strchr, if_neg (Ne.symm hnul.1)] at h
    split_ifs at h with hx
    rw [List.mem_cons, not_or]
    exact ⟨Ne.symm hx, ih hnul.2 h⟩

theorem strchr_eq_some {p q : List UInt8} (h : WordCount.strchr p c = some q) :
    ∃ line rest, p = line ++ c :: rest ∧ q = c :: rest ∧ c ∉ line := by
  induction p with
  | nil => cases h
  | cons x p ih =>
    rw [WordCount.strchr] at h
    split_ifs at h with h0 hx
    · cases h
      exact ⟨[], p, by rw [hx]; rfl, by rw [hx], List.not_mem_nil⟩
    · obtain ⟨line, rest, rfl, rfl, hline⟩ := ih h
      exact ⟨x :: line, rest, rfl, rfl, by simp [hline, Ne.symm hx]⟩

theorem grepLines_none {p : List UInt8} (h : WordCount.strchr p newline = none) :
    grepLines re p = ([], p) := by
  rw [grepLines]
  split
  · rfl
  · simp_all

theorem grepLines_line {line rest : List UInt8}
    (h : WordCount.strchr (line ++ newline :: rest) newline = some (newline :: rest)) :
    grepLines re (line ++ newline :: rest) =
      ((if matchText re line then line ++ [newline] else []) ++ (grepLines re rest).1,
        (grepLines re rest).2) := by
  have htake : (line ++ newline :: rest).take
      ((line ++ newline :: rest).length - (newline :: rest).length) = line := by simp
  rw [grepLines]
  split
  · simp_all
  · rename_i q hq
    obtain rfl : newline :: rest = q := Option.some.inj (h.symm.trans hq)
    rw [htake, List.tail_cons]
    by_cases hm : matchText re line = true <;> simp [hm]

/-- What the inner loop leaves is the beginning of a line. -/
theorem grepLines_spec (re : List UInt8) {p : List UInt8} (hnul : 0 ∉ p)
    (hlen : p.length < bufSize) :
    (newline ∉ (grepLines re p).2 ∧ 0 ∉ (grepLines re p).2 ∧
      (grepLines re p).2.length ≤ p.length) ∧
    ∀ file, printed re (p ++ file) =
      (grepLines re p).1 ++ printed re ((grepLines re p).2 ++ file) := by
  induction p using grepLines.induct re with
  | case1 p h =>
    rw [grepLines_none h]
    exact ⟨⟨strchr_eq_none hnul h, hnul, le_rfl⟩, fun _ => rfl⟩
  | case2 p q h ih =>
    obtain ⟨line, rest, rfl, rfl, hline⟩ := strchr_eq_some h
    have hzero : 0 ∉ rest := fun hmem => hnul (by simp [hmem])
    rw [List.length_append, List.length_cons] at hlen
    obtain ⟨⟨hnew, hrest, hle⟩, hfile⟩ := ih hzero (by rw [List.tail_cons]; omega)
    rw [grepLines_line h]
    refine ⟨⟨hnew, hrest, hle.trans ?_⟩, fun file => ?_⟩
    · rw [List.tail_cons, List.length_append, List.length_cons]
      omega
    · rw [List.append_assoc, List.cons_append, printed_line hline, if_pos (by omega),
        List.append_assoc]
      exact congrArg _ (hfile file)

theorem grepLoop_eq {reads : List ℕ} {buf file : List UInt8} (hbuf : newline ∉ buf)
    (hlen : buf.length < bufSize) (hnul : 0 ∉ buf ++ file) (hreads : ∀ n ∈ reads, 0 < n)
    (hfile : file.length < reads.length) :
    grepLoop re reads buf file = printed re (buf ++ file) := by
  induction reads generalizing buf file with
  | nil => cases hfile
  | cons n reads ih =>
    rw [grepLoop]
    obtain ⟨hn, hreads⟩ := List.forall_mem_cons.mp hreads
    dsimp only
    obtain ⟨k, hk⟩ : ∃ k, k = min n (bufSize - buf.length - 1) := ⟨_, rfl⟩
    rw [← hk]
    split_ifs with hempty
    · -- The file has ended, or the buffer is full.
      rcases List.take_eq_nil_iff.mp hempty with hzero | rfl
      · exact (printed_of_long hbuf (by omega) file).symm
      · rw [List.append_nil, printed_of_notMem hbuf]
    · have hpos : 0 < (file.take k).length := List.length_pos_iff.mpr hempty
      have htake : (file.take k).length ≤ k := List.length_take_le _ _
      have hfull : (buf ++ file.take k).length < bufSize := by
        rw [List.length_append]
        omega
      have hsplit : buf ++ file.take k ++ file.drop k = buf ++ file := by
        rw [List.append_assoc, List.take_append_drop]
      have hdrop : file.drop (file.take k).length = file.drop k := by
        rw [List.length_take]
        rcases le_total k file.length with hle | hle
        · rw [min_eq_left hle]
        · rw [min_eq_right hle, List.drop_length, List.drop_eq_nil_of_le hle]
      have hnul' : 0 ∉ buf ++ file.take k ∧ 0 ∉ file.drop k := by
        rw [← not_or, ← List.mem_append, hsplit]
        exact hnul
      obtain ⟨⟨hnew, hzero, hle⟩, hlines⟩ := grepLines_spec re hnul'.1 hfull
      have hshort : (file.drop k).length < reads.length := by
        rw [← hdrop, List.length_drop]
        rw [List.length_cons] at hfile
        have := List.length_take_le' k file
        omega
      have hrest : 0 ∉ (grepLines re (buf ++ file.take k)).2 ++ file.drop k := by
        rw [List.mem_append, not_or]
        exact ⟨hzero, hnul'.2⟩
      rw [hdrop, ih hnew (lt_of_le_of_lt hle hfull) hrest hreads hshort, ← hlines, hsplit]

/-- It does not matter how `read` cuts the file into pieces. -/
theorem grep_eq {reads : List ℕ} {file : List UInt8} (hnul : 0 ∉ file)
    (hreads : ∀ n ∈ reads, 0 < n) (hfile : file.length < reads.length) :
    grep re reads file = printed re file :=
  grepLoop_eq List.not_mem_nil (by decide) hnul hreads hfile

theorem grep_eq_pieces : grep [97, 42, 98, 36] [1, 3, 2, 1, 5, 1, 1, 1, 1]
    [97, 98, 10, 98, 97, 10, 98, 98] = [97, 98, 10] :=
  (grep_eq (by decide) (by decide) (by decide)).trans (by decide)

end CS352.Grep
