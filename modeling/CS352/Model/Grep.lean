import CS352.Model.Scheduler.WordCount
import Mathlib.Tactic.SplitIfs

/-! # `grep`

The matcher and the main loop of `user/grep.c`. A string is the list of its bytes before the NUL
byte. -/

namespace CS352.Grep

def newline : UInt8 := 10

/-- `'^'`. -/
def caret : UInt8 := 94

/-- `'.'`. -/
def dot : UInt8 := 46

/-- `'*'`. -/
def star : UInt8 := 42

/-- `'$'`. -/
def dollar : UInt8 := 36

/-! ## The matcher -/

/-- `here` is `matchhere` for the rest of the pattern. -/
def matchstar (c : UInt8) (here : List UInt8 → Bool) : List UInt8 → Bool
  | [] => here []
  | x :: text => here (x :: text) || ((x = c || c = dot) && matchstar c here text)

def matchhere : List UInt8 → List UInt8 → Bool
  | [], _ => true
  | [c], text =>
    if c = dollar then text.isEmpty
    else
      match text with
      | [] => false
      | x :: text => (c = dot || c = x) && matchhere [] text
  | c :: d :: re, text =>
    if d = star then matchstar c (matchhere re) text
    else
      match text with
      | [] => false
      | x :: text => (c = dot || c = x) && matchhere (d :: re) text

/-- The loop of `match`. -/
def matchLoop (re : List UInt8) : List UInt8 → Bool
  | [] => matchhere re []
  | x :: text => matchhere re (x :: text) || matchLoop re text

/-- `match`. -/
def matchText : List UInt8 → List UInt8 → Bool
  | [], text => matchLoop [] text
  | c :: re, text => if c = caret then matchhere re text else matchLoop (c :: re) text

/-! ## Reading -/

/-- `sizeof(buf)`. -/
def bufSize : ℕ := 1024

theorem length_tail_of_strchr {p q : List UInt8} {c : UInt8} (h : WordCount.strchr p c = some q) :
    q.tail.length < p.length := by
  induction p with
  | nil => cases h
  | cons x p ih =>
    rw [WordCount.strchr] at h
    split_ifs at h
    · cases h
      exact Nat.lt_succ_self _
    · exact Nat.lt_succ_of_lt (ih h)

/-- The inner loop, with the bytes in the buffer from `p` on. The results are the bytes it writes
and those from the last value of `p` on. -/
def grepLines (re p : List UInt8) : List UInt8 × List UInt8 :=
  match h : WordCount.strchr p newline with
  | none => ([], p)
  | some q =>
    let line := p.take (p.length - q.length)
    let r := grepLines re q.tail
    (if matchText re line then line ++ newline :: r.1 else r.1, r.2)
termination_by p.length
decreasing_by exact length_tail_of_strchr h

/-- The outer loop, with the bytes that are left in the buffer. Each `read` returns at most the
number that is given for it, and nothing at the end of the file. -/
def grepLoop (re : List UInt8) : List ℕ → List UInt8 → List UInt8 → List UInt8
  | [], _, _ => []
  | n :: reads, buf, file =>
    let bytes := file.take (min n (bufSize - buf.length - 1))
    if bytes = [] then []
    else
      let r := grepLines re (buf ++ bytes)
      r.1 ++ grepLoop re reads r.2 (file.drop bytes.length)

/-- What `grep(pattern, fd)` writes. -/
def grep (re : List UInt8) (reads : List ℕ) (file : List UInt8) : List UInt8 :=
  grepLoop re reads [] file

end CS352.Grep
