import Mathlib.Data.Int.Notation
import Mathlib.Data.Nat.Notation

/-! # `wc`

The word count of the Scheduler kernel's `user/wc.c`, with its count of vowels, and the
`strchr` of `user/ulib.c`. -/

namespace CS352.WordCount

/-- `s` is the rest of a string up to its NUL byte; the result is the rest of it from the first
`c` on. -/
def strchr : List UInt8 → UInt8 → Option (List UInt8)
  | [], _ => none
  | x :: s, c => if x = 0 then none else if x = c then some (x :: s) else strchr s c

/-- The literal `" \r\t\n\v"`. -/
def blanks : List UInt8 := [32, 13, 9, 10, 11, 0]

/-! ## Input -/

def bufSize : ℕ := 512

/-- The bytes that a `read` of `bufSize` bytes with a positive result returns. -/
structure Chunk where
  bytes : List UInt8
  pos : 0 < bytes.length
  le : bytes.length ≤ bufSize
  deriving DecidableEq

/-- What the calls of `read` on a file descriptor give: some chunks, and then the first result
that is not positive. -/
structure Input where
  chunks : List Chunk
  last : ℤ
  nonpos : last ≤ 0

/-- The global `buf`. -/
abbrev Buf := ℕ → UInt8

/-- `read` writes to the front of the buffer. -/
def fill (buf : Buf) (bytes : List UInt8) : Buf := fun i => bytes.getD i (buf i)

/-! ## Counting -/

/-- The counters of `wc`: lines, words, bytes, vowels. -/
@[ext] structure Counters where
  l : Int32
  w : Int32
  c : Int32
  v : Int32
  inword : Int32
  deriving DecidableEq, Repr

def zero : Counters := ⟨0, 0, 0, 0, 0⟩

def isVowel (b : UInt8) : Bool :=
  b = 97 || b = 65 || b = 101 || b = 69 || b = 105 || b = 73 || b = 111 || b = 79 || b = 117 ||
    b = 85

/-- The body of the inner loop for the byte `b`. -/
def countByte (k : Counters) (b : UInt8) : Counters :=
  let k := { k with c := k.c + 1 }
  let k := if b = 10 then { k with l := k.l + 1 } else k
  let k := if isVowel b then { k with v := k.v + 1 } else k
  if (strchr blanks b).isSome then { k with inword := 0 }
  else if k.inword = 0 then { k with w := k.w + 1, inword := 1 }
  else k

/-- The inner loop over the first `n` bytes of the buffer. -/
def countBuf (buf : Buf) (n : ℕ) (k : Counters) : Counters :=
  (List.range n).foldl (fun k i => countByte k (buf i)) k

/-- The outer loop. -/
def countLoop : Buf → Counters → List Chunk → Buf × Counters
  | buf, k, [] => (buf, k)
  | buf, k, chunk :: rest =>
    let buf := fill buf chunk.bytes
    countLoop buf (countBuf buf chunk.bytes.length k) rest

/-! ## Output -/

/-- `printf("%d %d %d %d %s\n", l, w, c, v, name)`. -/
def printCounts (k : Counters) (name : String) : String :=
  toString k.l ++ " " ++ toString k.w ++ " " ++ toString k.c ++ " " ++ toString k.v ++ " " ++
    name ++ "\n"

/-- The buffer that `wc` leaves and what it prints; after an error text the program exits. -/
def wc (buf : Buf) (input : Input) (name : String) : Buf × Except String String :=
  let (buf, k) := countLoop buf zero input.chunks
  if input.last < 0 then (buf, .error "wc: read error\n") else (buf, .ok (printCounts k name))

/-- The loop of `main` over the arguments, each with what `open` gives for it; the result is what
is printed and the exit status. -/
def mainLoop : Buf → List (String × Option Input) → String × ℤ
  | _, [] => ("", 0)
  | _, (name, none) :: _ => ("wc: cannot open " ++ name ++ "\n", 1)
  | buf, (name, some input) :: rest =>
    match wc buf input name with
    | (_, .error text) => (text, 1)
    | (buf, .ok text) =>
      let (out, status) := mainLoop buf rest
      (text ++ out, status)

/-- `stdin` is read when there are no arguments. -/
def main (stdin : Input) (files : List (String × Option Input)) : String × ℤ :=
  if files.isEmpty then
    match wc (fun _ => 0) stdin "" with
    | (_, .error text) => (text, 1)
    | (_, .ok text) => (text, 0)
  else mainLoop (fun _ => 0) files

end CS352.WordCount
