import Mathlib.Data.Nat.Notation

/-! # The parser of the shell

`gettoken`, `peek` and the parse functions of `user/sh.c`. A pointer into the line is the text
from it to the end of the line, without the NUL that ends it. So `s < es` says that the text is
not empty, and `*s` is its first character or NUL. -/

namespace CS352.Shell

abbrev Ptr := List Char

/-- The pointers to the first character of a word and behind the last one. -/
structure Span where
  q : Ptr
  eq : Ptr
  deriving DecidableEq, Repr

/-- `struct cmd`, with the words that it holds. -/
inductive Cmd (ω : Type*) where
  | exec (argv : List ω)
  | redir (cmd : Cmd ω) (file : ω) (mode : UInt32) (fd : ℕ)
  | pipe (left right : Cmd ω)
  | list (left right : Cmd ω)
  | back (cmd : Cmd ω)
  deriving DecidableEq, Repr

/-- What `gettoken` returns. The pointers to a token are used for words only. -/
inductive Tok (ω : Type*) where
  | nul
  | bar
  | lparen
  | rparen
  | semi
  | amp
  | lt
  | gt
  | gtgt
  | word (w : ω)
  deriving DecidableEq, Repr

inductive Panic where
  | leftovers (s : Ptr)
  | badSyntax
  | missingFile
  | missingParen
  | parseblock
  | tooManyArgs
  deriving DecidableEq, Repr

/-- What is printed before the shell exits. -/
def Panic.message : Panic → String
  | .leftovers s => "leftovers: " ++ String.ofList s ++ "\nsyntax\n"
  | .badSyntax => "syntax\n"
  | .missingFile => "missing file for redirection\n"
  | .missingParen => "syntax - missing )\n"
  | .parseblock => "parseblock\n"
  | .tooManyArgs => "too many args\n"

/-- Why there is no command: the shell panics, or there are no passes left. -/
inductive Abort where
  | panic (p : Panic)
  | fuel
  deriving DecidableEq, Repr

def maxArgs : ℕ := 10

def oRdonly : UInt32 := 0x000
def oWronly : UInt32 := 0x001
def oCreate : UInt32 := 0x200
def oTrunc : UInt32 := 0x400

/-! ## Tokens -/

def whitespace : List Char := [' ', '\t', '\r', '\n', '\x0b']

def symbols : List Char := ['<', '|', '>', '&', ';', '(', ')']

/-- `while(s < es && strchr(whitespace, *s)) s++`. -/
def skip (s : Ptr) : Ptr := s.dropWhile (· ∈ whitespace)

/-- The loop over the characters of a word. -/
def skipWord (s : Ptr) : Ptr := s.dropWhile fun c => c ∉ whitespace ∧ c ∉ symbols

/-- The `switch` of `gettoken`. -/
def scan : Ptr → Tok Span × Ptr
  | [] => (.nul, [])
  | c :: s =>
    if c = '|' then (.bar, s)
    else if c = '(' then (.lparen, s)
    else if c = ')' then (.rparen, s)
    else if c = ';' then (.semi, s)
    else if c = '&' then (.amp, s)
    else if c = '<' then (.lt, s)
    else if c = '>' then if s.head? = some '>' then (.gtgt, s.tail) else (.gt, s)
    else (.word ⟨c :: s, skipWord (c :: s)⟩, skipWord (c :: s))

/-- The token, and where the text behind it goes on. -/
def gettoken (s : Ptr) : Tok Span × Ptr :=
  let t := scan (skip s)
  (t.1, skip t.2)

/-- Whether the next character is one of `toks`, and where it is. -/
def peek (s : Ptr) (toks : List Char) : Bool × Ptr :=
  let s := skip s
  (s.head?.any (· ∈ toks), s)

/-! ## Commands -/

/-- The loops make a pass for every token at most. -/
def parseredirs : ℕ → Cmd Span → Ptr → Except Abort (Cmd Span × Ptr)
  | 0, _, _ => .error .fuel
  | n + 1, cmd, s =>
    let p := peek s ['<', '>']
    if p.1 then
      let tok := gettoken p.2
      match gettoken tok.2 with
      | (.word file, s) =>
        match tok.1 with
        | .lt => parseredirs n (.redir cmd file oRdonly 0) s
        | .gt => parseredirs n (.redir cmd file (oWronly ||| oCreate ||| oTrunc) 1) s
        | .gtgt => parseredirs n (.redir cmd file (oWronly ||| oCreate) 1) s
        | _ => parseredirs n cmd s
      | _ => .error (.panic .missingFile)
    else .ok (cmd, p.2)

/-- `cmd->argv[argc] = q`, where `cmd` is the command inside the redirections. -/
def Cmd.addArg {ω : Type*} : Cmd ω → ω → Cmd ω
  | .exec argv, w => .exec (argv ++ [w])
  | .redir cmd file mode fd, w => .redir (cmd.addArg w) file mode fd
  | cmd, _ => cmd

/-- The loop of `parseexec`. -/
def parseargs : ℕ → ℕ → Cmd Span → Ptr → Except Abort (Cmd Span × Ptr)
  | 0, _, _, _ => .error .fuel
  | n + 1, argc, ret, s =>
    let p := peek s ['|', ')', '&', ';']
    if p.1 then .ok (ret, p.2)
    else
      match gettoken p.2 with
      | (.nul, s) => .ok (ret, s)
      | (.word w, s) =>
        if argc + 1 ≥ maxArgs then .error (.panic .tooManyArgs)
        else do
          let (ret, s) ← parseredirs (s.length + 1) (ret.addArg w) s
          parseargs n (argc + 1) ret s
      | _ => .error (.panic .badSyntax)

/-- The loop of `parseline`. -/
def parsebacks : ℕ → Cmd Span → Ptr → Except Abort (Cmd Span × Ptr)
  | 0, _, _ => .error .fuel
  | n + 1, cmd, s =>
    let p := peek s ['&']
    if p.1 then parsebacks n (.back cmd) (gettoken p.2).2 else .ok (cmd, p.2)

mutual

def parseline : ℕ → Ptr → Except Abort (Cmd Span × Ptr)
  | 0, _ => .error .fuel
  | n + 1, s => do
    let (cmd, s) ← parsepipe n s
    let (cmd, s) ← parsebacks (s.length + 1) cmd s
    let p := peek s [';']
    if p.1 then
      let (right, s) ← parseline n (gettoken p.2).2
      return (.list cmd right, s)
    else return (cmd, p.2)

def parsepipe : ℕ → Ptr → Except Abort (Cmd Span × Ptr)
  | 0, _ => .error .fuel
  | n + 1, s => do
    let (cmd, s) ← parseexec n s
    let p := peek s ['|']
    if p.1 then
      let (right, s) ← parsepipe n (gettoken p.2).2
      return (.pipe cmd right, s)
    else return (cmd, p.2)

def parseblock : ℕ → Ptr → Except Abort (Cmd Span × Ptr)
  | 0, _ => .error .fuel
  | n + 1, s =>
    let p := peek s ['(']
    if p.1 then do
      let (cmd, s) ← parseline n (gettoken p.2).2
      let p := peek s [')']
      if p.1 then
        let s := (gettoken p.2).2
        parseredirs (s.length + 1) cmd s
      else .error (.panic .missingParen)
    else .error (.panic .parseblock)

def parseexec : ℕ → Ptr → Except Abort (Cmd Span × Ptr)
  | 0, _ => .error .fuel
  | n + 1, s =>
    let p := peek s ['(']
    if p.1 then parseblock n p.2
    else do
      let (ret, s) ← parseredirs (p.2.length + 1) (.exec []) p.2
      parseargs (s.length + 1) 0 ret s

end

/-! ## The strings -/

/-- Where in the line of length `n` a pointer points to. -/
def offset (n : ℕ) (s : Ptr) : ℕ := n - s.length

/-- A NUL is put behind every word. The buffer holds the line and the NUL at its end. -/
def nulterminate (n : ℕ) : Cmd Span → List Char → List Char
  | .exec argv, buf => argv.foldl (fun buf w => buf.set (offset n w.eq) '\x00') buf
  | .redir cmd file _ _, buf => (nulterminate n cmd buf).set (offset n file.eq) '\x00'
  | .pipe left right, buf => nulterminate n right (nulterminate n left buf)
  | .list left right, buf => nulterminate n right (nulterminate n left buf)
  | .back cmd, buf => nulterminate n cmd buf

/-- The command that a line stands for, and the buffer with its strings. -/
def parsecmd (s : Ptr) : Except Abort (Cmd Span × List Char) := do
  let (cmd, rest) ← parseline (4 * s.length + 4) s
  let p := peek rest []
  if p.2 ≠ [] then .error (.panic (.leftovers p.2))
  else return (cmd, nulterminate s.length cmd (s ++ ['\x00']))

end CS352.Shell
