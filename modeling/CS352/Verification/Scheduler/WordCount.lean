import CS352.Model.Scheduler.WordCount

/-! # What `wc` counts

The counters depend on the bytes of a file and not on how `read` cuts them into chunks. -/

namespace CS352.WordCount

variable {buf : Buf} {k : Counters} {b : UInt8} {bytes : List UInt8} {chunks : List Chunk}
  {name : String}

/-! ## Specification -/

/-- Space, carriage return, tab, newline and vertical tab. -/
def isSeparator (b : UInt8) : Bool := b = 32 || b = 13 || b = 9 || b = 10 || b = 11

/-- The number of maximal runs of bytes that are not separators. -/
def words (bytes : List UInt8) : ℕ := (bytes.splitOnP isSeparator).countP (· ≠ [])

/-- The words that start behind the first separator. -/
def laterWords (bytes : List UInt8) : ℕ := (bytes.splitOnP isSeparator).tail.countP (· ≠ [])

/-! ## Words -/

/-- The local `strchr` matches exactly the separators; it never matches the NUL byte. -/
theorem strchr_blanks (b : UInt8) : (strchr blanks b).isSome = isSeparator b := by
  unfold isSeparator
  by_cases h32 : b = 32
  · subst b
    decide
  by_cases h13 : b = 13
  · subst b
    decide
  by_cases h9 : b = 9
  · subst b
    decide
  by_cases h10 : b = 10
  · subst b
    decide
  by_cases h11 : b = 11
  · subst b
    decide
  simp [strchr, blanks, h32, h13, h9, h10, h11, Ne.symm h32, Ne.symm h13, Ne.symm h9,
    Ne.symm h10, Ne.symm h11]

@[simp] theorem words_nil : words [] = 0 := rfl

@[simp] theorem laterWords_nil : laterWords [] = 0 := rfl

theorem words_separator (h : isSeparator b = true) : words (b :: bytes) = words bytes := by
  simp [words, List.splitOnP_cons_eq_if_modifyHead, h]

theorem laterWords_separator (h : isSeparator b = true) :
    laterWords (b :: bytes) = words bytes := by
  simp [words, laterWords, List.splitOnP_cons_eq_if_modifyHead, h]

/-- The first piece of a list that starts with `b` is not empty. -/
theorem words_letter (h : isSeparator b = false) : words (b :: bytes) = laterWords bytes + 1 := by
  unfold words laterWords
  obtain ⟨piece, pieces, hpieces⟩ := List.exists_cons_of_ne_nil
    (List.splitOnP_ne_nil isSeparator bytes)
  simp [List.splitOnP_cons_eq_if_modifyHead, h, hpieces]

theorem laterWords_letter (h : isSeparator b = false) :
    laterWords (b :: bytes) = laterWords bytes := by
  simp [laterWords, List.splitOnP_cons_eq_if_modifyHead, h]

/-! ## The loops -/

theorem countByte_l : (countByte k b).l = if b = 10 then k.l + 1 else k.l := by
  unfold countByte
  grind

theorem countByte_c : (countByte k b).c = k.c + 1 := by
  unfold countByte
  grind

theorem countByte_v : (countByte k b).v = if isVowel b then k.v + 1 else k.v := by
  unfold countByte
  grind

theorem countByte_separator (h : isSeparator b = true) :
    (countByte k b).w = k.w ∧ (countByte k b).inword = 0 := by
  rw [← strchr_blanks] at h
  unfold countByte
  grind

theorem countByte_letter (h : isSeparator b = false) :
    (countByte k b).w = (if k.inword = 0 then k.w + 1 else k.w) ∧ (countByte k b).inword ≠ 0 := by
  rw [← strchr_blanks] at h
  unfold countByte
  grind

/-- What `bytes` add to the counters; a word that runs on is not counted again. -/
def Counters.add (k : Counters) (bytes : List UInt8) (inword : Int32) : Counters :=
  { l := k.l + Int32.ofNat (bytes.count 10)
    w := k.w + Int32.ofNat (if k.inword = 0 then words bytes else laterWords bytes)
    c := k.c + Int32.ofNat bytes.length
    v := k.v + Int32.ofNat (bytes.countP isVowel)
    inword := inword }

theorem add_one_ofNat (x : Int32) (n : ℕ) : x + 1 + Int32.ofNat n = x + Int32.ofNat (n + 1) := by
  rw [Int32.ofNat_add, Int32.add_assoc, Int32.add_comm 1]
  rfl

theorem countByte_add_w :
    ((countByte k b).add bytes 0).w = (k.add (b :: bytes) 0).w := by
  unfold Counters.add
  cases hb : isSeparator b with
  | true =>
    obtain ⟨hw, hinword⟩ := countByte_separator (k := k) hb
    simp [hw, hinword, words_separator hb, laterWords_separator hb]
  | false =>
    obtain ⟨hw, hinword⟩ := countByte_letter (k := k) hb
    by_cases hk : k.inword = 0
    · simp [hw, hinword, hk, words_letter hb, add_one_ofNat]
    · simp [hw, hinword, hk, laterWords_letter hb]

theorem countByte_add (inword : Int32) :
    (countByte k b).add bytes inword = k.add (b :: bytes) inword := by
  have hw : ((countByte k b).add bytes inword).w = (k.add (b :: bytes) inword).w :=
    countByte_add_w
  have hl : ((countByte k b).add bytes inword).l = (k.add (b :: bytes) inword).l := by
    by_cases hb : b = 10 <;> simp [Counters.add, countByte_l, hb, add_one_ofNat]
  have hv : ((countByte k b).add bytes inword).v = (k.add (b :: bytes) inword).v := by
    cases hb : isVowel b <;>
      simp [Counters.add, countByte_v, hb, add_one_ofNat]
  have hc : ((countByte k b).add bytes inword).c = (k.add (b :: bytes) inword).c := by
    simp [Counters.add, countByte_c, add_one_ofNat]
  exact Counters.ext hl hw hc hv rfl

theorem foldl_countByte (bytes : List UInt8) (k : Counters) :
    ∃ inword, bytes.foldl countByte k = k.add bytes inword := by
  induction bytes generalizing k with
  | nil => exact ⟨k.inword, by simp [Counters.add]⟩
  | cons b bytes ih =>
    obtain ⟨inword, hrest⟩ := ih (countByte k b)
    refine ⟨inword, ?_⟩
    rw [List.foldl_cons, hrest, countByte_add]

/-- The inner loop reads the bytes that `read` has just written and nothing behind them. -/
theorem countBuf_fill (buf : Buf) (bytes : List UInt8) (k : Counters) :
    countBuf (fill buf bytes) bytes.length k = bytes.foldl countByte k := by
  have hread : (List.range bytes.length).map (fill buf bytes) = bytes := by
    apply List.ext_getElem
    · simp
    · intro i hi hi'
      simp [fill, hi']
  calc
    countBuf (fill buf bytes) bytes.length k
        = ((List.range bytes.length).map (fill buf bytes)).foldl countByte k := by
          rw [countBuf, List.foldl_map]
    _ = bytes.foldl countByte k := by rw [hread]

theorem countLoop_eq (buf : Buf) (k : Counters) (chunks : List Chunk) :
    (countLoop buf k chunks).2 = (chunks.flatMap Chunk.bytes).foldl countByte k := by
  induction chunks generalizing buf k with
  | nil => rfl
  | cons chunk rest ih =>
    rw [countLoop, ih, countBuf_fill, List.flatMap_cons, List.foldl_append]

/-! ## The program -/

/-- The line that is printed for a file with these bytes. -/
def line (bytes : List UInt8) (name : String) : String :=
  printCounts
    { l := Int32.ofNat (bytes.count 10)
      w := Int32.ofNat (words bytes)
      c := Int32.ofNat bytes.length
      v := Int32.ofNat (bytes.countP isVowel)
      inword := 0 } name

theorem printCounts_zero_add (bytes : List UInt8) (inword : Int32) (name : String) :
    printCounts (zero.add bytes inword) name = line bytes name := by
  simp [printCounts, line, Counters.add, zero]

theorem wc_eof (buf : Buf) {input : Input} (heof : input.last = 0) (name : String) :
    (wc buf input name).2 = .ok (line (input.chunks.flatMap Chunk.bytes) name) := by
  obtain ⟨inword, hcount⟩ := foldl_countByte (input.chunks.flatMap Chunk.bytes) zero
  have hloop : (countLoop buf zero input.chunks).2 = zero.add _ inword :=
    (countLoop_eq buf zero input.chunks).trans hcount
  unfold wc
  simp [heof, hloop, printCounts_zero_add]

/-- However `read` cuts `bytes` into chunks, and whatever the buffer held before, `wc` prints the
numbers of newlines, words, bytes and vowels of `bytes`. -/
theorem wc_prints_counts (bytes : List UInt8) (buf : Buf) (name : String) {input : Input}
    (hbytes : input.chunks.flatMap Chunk.bytes = bytes) (heof : input.last = 0) :
    (wc buf input name).2 = .ok (printCounts
      { l := Int32.ofNat (bytes.count 10)
        w := Int32.ofNat ((bytes.splitOnP isSeparator).countP (· ≠ []))
        c := Int32.ofNat bytes.length
        v := Int32.ofNat (bytes.countP isVowel)
        inword := 0 } name) := by
  rw [wc_eof buf heof name, hbytes]
  rfl

/-- The file `"ab e\n"`, cut inside its first word. -/
theorem wc_prints_counts_cut :
    (wc (fun _ => 32) ⟨[⟨[97], by decide, by decide⟩, ⟨[98, 32, 101, 10], by decide, by decide⟩],
      0, by decide⟩ "f").2 = .ok "1 2 5 2 f\n" := by
  exact (wc_prints_counts [97, 98, 32, 101, 10] (fun _ => 32) "f" rfl rfl).trans
    (congrArg Except.ok (by decide +kernel))

/-- `main` prints one line for each file, in order, and exits with 0. -/
theorem mainLoop_prints_lines (buf : Buf) (files : List (String × Input))
    (heof : ∀ f ∈ files, f.2.last = 0) :
    mainLoop buf (files.map fun f => (f.1, some f.2)) =
      ((files.map fun f => line (f.2.chunks.flatMap Chunk.bytes) f.1).foldr (· ++ ·) "", 0) := by
  induction files generalizing buf with
  | nil => rfl
  | cons f files ih =>
    have hline := wc_eof buf (heof f (by simp)) f.1
    have hrest := fun buf => ih buf fun g hg => heof g (by simp [hg])
    rw [List.map_cons, mainLoop]
    split
    case h_1 text hwc => simp [hwc] at hline
    case h_2 buf' text hwc =>
      have htext : text = line (f.2.chunks.flatMap Chunk.bytes) f.1 := by
        rw [hwc] at hline
        exact Except.ok.inj hline
      simp only [hrest buf', htext, List.map_cons, List.foldr_cons]

end CS352.WordCount
