import Xv6Uac.Lib.Hoare
import Xv6Uac.Param

/-!
# The parser of the shell

`parsecmd` of `sh.c` with its scanner. The line is a list of bytes without the NUL at its end, and
a pointer into it is the rest of the line from there on, so `es` is the empty list and the pointer
`s` is at the offset `n - s.length` of a line of length `n`. The tree has two pointers for
each word, and `nulterminate` writes a NUL at the second one.

The loops and the recursion have fuel, more than there are bytes left. `panic` ends the shell. The
constructors get their memory.
-/

namespace Xv6Uac.Shell

open Hoare

abbrev MAXARGS : ℕ := 10

/-! ## Commands -/

/-- `struct cmd`, with words of any kind. -/
inductive Cmd (α : Type) where
  | exec (argv : List α)
  | redir (cmd : Cmd α) (file : α) (mode : BitVec 32) (fd : ℕ)
  | pipe (left right : Cmd α)
  | list (left right : Cmd α)
  | back (cmd : Cmd α)
deriving DecidableEq

variable {α β : Type}

def Cmd.map (f : α → β) : Cmd α → Cmd β
  | .exec argv => .exec (argv.map f)
  | .redir cmd file mode fd => .redir (cmd.map f) (f file) mode fd
  | .pipe left right => .pipe (left.map f) (right.map f)
  | .list left right => .list (left.map f) (right.map f)
  | .back cmd => .back (cmd.map f)

/-- The words of a command, in the order in which `nulterminate` comes to them. -/
def Cmd.words : Cmd α → List α
  | .exec argv => argv
  | .redir cmd file _ _ => cmd.words ++ [file]
  | .pipe left right | .list left right => left.words ++ right.words
  | .back cmd => cmd.words

/-- Set the next entry of `argv` of the command that redirections are put around. -/
def Cmd.push : Cmd α → α → Cmd α
  | .exec argv, word => .exec (argv ++ [word])
  | .redir cmd file mode fd, word => .redir (cmd.push word) file mode fd
  | cmd, _ => cmd

/-! ## The scanner -/

/-- The pointers `q` and `eq` to the start and the end of a word. -/
structure Word where
  q : List UInt8
  eq : List UInt8
deriving DecidableEq

/-- What `gettoken` returns: 0, the character, `'+'` for `>>` and `'a'` for a word. -/
inductive Tok where
  | eof | bar | lpar | rpar | semi | amp | lt | gt | app | word
deriving DecidableEq

inductive Halt where
  | panic (message : String)
  | fuel
deriving DecidableEq

abbrev Parser (α : Type) := Prog (List UInt8) Halt α

def whitespace : List UInt8 := [' ', '\t', '\r', '\n', '\x0b'].map Char.toUInt8

def symbols : List UInt8 := ['<', '|', '>', '&', ';', '(', ')'].map Char.toUInt8

def isSpace (c : UInt8) : Bool := whitespace.contains c

/-- A character that goes on with a word. -/
def inWord (c : UInt8) : Bool := !isSpace c && !symbols.contains c

def skip (s : List UInt8) : List UInt8 := s.dropWhile isSpace

/-- The `switch` of `gettoken`. -/
def scan : List UInt8 → Tok × List UInt8
  | [] => (.eof, [])
  | c :: s =>
    if c = '|'.toUInt8 then (.bar, s)
    else if c = '('.toUInt8 then (.lpar, s)
    else if c = ')'.toUInt8 then (.rpar, s)
    else if c = ';'.toUInt8 then (.semi, s)
    else if c = '&'.toUInt8 then (.amp, s)
    else if c = '<'.toUInt8 then (.lt, s)
    else if c = '>'.toUInt8 then
      if s.head? = some '>'.toUInt8 then (.app, s.tail) else (.gt, s)
    else (.word, (c :: s).dropWhile inWord)

def gettoken : Parser (Tok × Word) := do
  update skip
  let q ← gets id
  update fun _ => skip (scan q).2
  pure ((scan q).1, ⟨q, (scan q).2⟩)

def peek (toks : List Char) : Parser Bool := do
  update skip
  gets fun s => s.head?.any fun c => (toks.map Char.toUInt8).contains c

/-! ## The parser -/

def parseredirs : ℕ → Cmd Word → Parser (Cmd Word)
  | 0, _ => fail .fuel
  | fuel + 1, cmd => do
    let more ← peek ['<', '>']
    if more then
      let (tok, _) ← gettoken
      let (found, file) ← gettoken
      if found ≠ .word then
        fail (.panic "missing file for redirection")
      else
        match tok with
        | .lt => parseredirs fuel (.redir cmd file O_RDONLY 0)
        | .gt => parseredirs fuel (.redir cmd file (O_WRONLY ||| O_CREATE) 1)
        | .app => parseredirs fuel (.redir cmd file (O_WRONLY ||| O_CREATE) 1)
        | _ => parseredirs fuel cmd
    else
      pure cmd

/-- `parseblock`, with `parseline`. -/
def parseblock (parseline : Parser (Cmd Word)) (fuel : ℕ) : Parser (Cmd Word) := do
  let opens ← peek ['(']
  if opens then
    let _ ← gettoken
    let cmd ← parseline
    let closes ← peek [')']
    if closes then
      let _ ← gettoken
      parseredirs fuel cmd
    else
      fail (.panic "syntax - missing )")
  else
    fail (.panic "parseblock")

/-- The loop of `parseexec`. -/
def parseargs : ℕ → ℕ → Cmd Word → Parser (Cmd Word)
  | 0, _, _ => fail .fuel
  | fuel + 1, argc, ret => do
    let ends ← peek ['|', ')', '&', ';']
    if ends then
      pure ret
    else
      let (tok, word) ← gettoken
      if tok = .eof then
        pure ret
      else if tok ≠ .word then
        fail (.panic "syntax")
      else if MAXARGS ≤ argc + 1 then
        fail (.panic "too many args")
      else
        let ret ← parseredirs (fuel + 1) (ret.push word)
        parseargs fuel (argc + 1) ret

def parseexec (parseline : Parser (Cmd Word)) (fuel : ℕ) : Parser (Cmd Word) := do
  let opens ← peek ['(']
  if opens then
    parseblock parseline fuel
  else
    let ret ← parseredirs fuel (.exec [])
    parseargs fuel 0 ret

def parsepipe (parseline : Parser (Cmd Word)) : ℕ → Parser (Cmd Word)
  | 0 => fail .fuel
  | fuel + 1 => do
    let cmd ← parseexec parseline (fuel + 1)
    let more ← peek ['|']
    if more then
      let _ ← gettoken
      let right ← parsepipe parseline fuel
      pure (.pipe cmd right)
    else
      pure cmd

/-- The loop of `parseline`. -/
def parsebacks : ℕ → Cmd Word → Parser (Cmd Word)
  | 0, _ => fail .fuel
  | fuel + 1, cmd => do
    let more ← peek ['&']
    if more then
      let _ ← gettoken
      parsebacks fuel (.back cmd)
    else
      pure cmd

def parseline : ℕ → Parser (Cmd Word)
  | 0 => fail .fuel
  | fuel + 1 => do
    let first ← parsepipe (parseline fuel) (fuel + 1)
    let cmd ← parsebacks (fuel + 1) first
    let more ← peek [';']
    if more then
      let _ ← gettoken
      let right ← parseline fuel
      pure (.list cmd right)
    else
      pure cmd

/-- `*p = 0`. At the end of the line there is a NUL already. -/
def zeroAt (buf p : List UInt8) : List UInt8 := buf.set (buf.length - p.length) 0

def nulterminate : Cmd Word → List UInt8 → List UInt8
  | .exec argv, buf => argv.foldl (fun buf word => zeroAt buf word.eq) buf
  | .redir cmd file _ _, buf => zeroAt (nulterminate cmd buf) file.eq
  | .pipe left right, buf | .list left right, buf => nulterminate right (nulterminate left buf)
  | .back cmd, buf => nulterminate cmd buf

/-- `parsecmd` up to `nulterminate`, for a line of length `n`. -/
def parsewhole (n : ℕ) : Parser (Cmd Word) := do
  let cmd ← parseline (n + 1)
  let _ ← peek []
  let rest ← gets id
  if rest ≠ [] then fail (.panic "syntax") else pure cmd

/-- `parsecmd`. It returns the command and the line that the command points into. -/
def parsecmd (buf : List UInt8) : Except Halt (Cmd Word × List UInt8) :=
  let s := buf.takeWhile (· ≠ 0)
  (parsewhole s.length s).map fun (cmd, _) => (cmd, nulterminate cmd s)

/-- The string that a word of the command is after `parsecmd`. -/
def Word.string (buf : List UInt8) (word : Word) : List UInt8 :=
  (buf.drop (buf.length - word.q.length)).takeWhile (· ≠ 0)

end Xv6Uac.Shell
