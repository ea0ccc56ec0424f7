import Xv6Uac.Shell.Parser
import Mathlib.Data.List.Infix
import Mathlib.Data.List.TakeWhile

/-!
# The grammar of the shell

The tokens of a line, and the trees that the grammar

    line  = pipe '&'* [';' line]
    pipe  = exec ['|' pipe]
    exec  = '(' line ')' redir* | redir* (word redir*)*
    redir = ('<' | '>' | '>>') word

gives to lists of tokens, with fewer than `MAXARGS` words in a simple command.

What the parser does with a line depends on its tokens only: `peek` and `gettoken` look at the
first one (`peek_spec`, `gettoken_spec`).
-/

namespace Xv6Uac.Shell

open Hoare List

variable {s t line : List UInt8} {c : UInt8} {w : Word} {E : Halt → Prop}

/-! ## Tokens -/

inductive Token where
  | word (bytes : List UInt8)
  | bar | lpar | rpar | semi | amp | lt | gt | app

/-- What `gettoken` returns for a token. -/
def Token.tok : Token → Tok
  | .word _ => .word
  | .bar => .bar
  | .lpar => .lpar
  | .rpar => .rpar
  | .semi => .semi
  | .amp => .amp
  | .lt => .lt
  | .gt => .gt
  | .app => .app

/-- The symbol that a token starts with. -/
def Token.lead : Token → Option UInt8
  | .word _ => none
  | .bar => some '|'.toUInt8
  | .lpar => some '('.toUInt8
  | .rpar => some ')'.toUInt8
  | .semi => some ';'.toUInt8
  | .amp => some '&'.toUInt8
  | .lt => some '<'.toUInt8
  | .gt | .app => some '>'.toUInt8

def Token.ofTok (bytes : List UInt8) : Tok → Option Token
  | .eof => none
  | .word => some (.word bytes)
  | .bar => some .bar
  | .lpar => some .lpar
  | .rpar => some .rpar
  | .semi => some .semi
  | .amp => some .amp
  | .lt => some .lt
  | .gt => some .gt
  | .app => some .app

theorem Token.tok_of_ofTok {bytes : List UInt8} {tok : Tok} {token : Token}
    (is : Token.ofTok bytes tok = some token) : token.tok = tok := by
  cases tok <;> cases is <;> rfl

/-- The bytes from the start to the end of a word. -/
def Word.bytes (w : Word) : List UInt8 := w.q.take (w.q.length - w.eq.length)

/-- A word of the line, from its first byte to the end of the line or to a byte that ends it. -/
structure Word.In (line : List UInt8) (w : Word) : Prop where
  inside : w.q <:+ line
  parts : w.q = w.bytes ++ w.eq
  chars : ∀ c ∈ w.bytes, inWord c = true
  ends : ∀ c ∈ w.eq.head?, inWord c = false

theorem Word.In.mono (is : w.In s) (more : s <:+ line) : w.In line :=
  { is with inside := is.inside.trans more }

theorem skip_suffix (s : List UInt8) : skip s <:+ s := dropWhile_suffix _

theorem head_skip : c ∈ (skip s).head? → isSpace c = false := by
  intro first
  have := List.head?_dropWhile_not isSpace s
  rwa [show (s.dropWhile isSpace).head? = some c from first] at this

theorem skip_skip (s : List UInt8) : skip (skip s) = skip s := by
  cases rest : skip s with
  | nil => rfl
  | cons c r =>
    have := head_skip (by rw [rest]; rfl)
    rw [skip, dropWhile_cons, this]
    rfl

theorem mem_symbols : symbols.contains c = true ↔ c = '<'.toUInt8 ∨ c = '|'.toUInt8 ∨
    c = '>'.toUInt8 ∨ c = '&'.toUInt8 ∨ c = ';'.toUInt8 ∨ c = '('.toUInt8 ∨ c = ')'.toUInt8 := by
  simp [symbols]

/-- A character is a symbol, or it starts a word. -/
theorem scan_cons (visible : isSpace c = false) (r : List UInt8) :
    (symbols.contains c = true ∧ (scan (c :: r)).2 <:+ r ∧ ∀ bytes, ∃ token,
      Token.ofTok bytes (scan (c :: r)).1 = some token ∧ token.lead = some c) ∨
    (symbols.contains c = false ∧
      scan (c :: r) = (.word, (c :: r).dropWhile inWord) ∧ inWord c = true) := by
  cases symbol : symbols.contains c with
  | true =>
    refine .inl ⟨rfl, ?_⟩
    obtain rfl | rfl | rfl | rfl | rfl | rfl | rfl := mem_symbols.mp symbol
    case inr.inr.inl =>
      by_cases twice : r.head? = some '>'.toUInt8
      · have is : scan ('>'.toUInt8 :: r) = (.app, r.tail) := by
          simp only [scan, if_pos twice]
          rfl
        rw [is]
        exact ⟨tail_suffix r, fun _ => ⟨.app, rfl, rfl⟩⟩
      · have is : scan ('>'.toUInt8 :: r) = (.gt, r) := by
          simp only [scan, if_neg twice]
          rfl
        rw [is]
        exact ⟨suffix_refl r, fun _ => ⟨.gt, rfl, rfl⟩⟩
    all_goals exact ⟨suffix_refl r, fun _ => ⟨_, rfl, rfl⟩⟩
  | false =>
    have none := mem_symbols.not.mp (Bool.eq_false_iff.mp symbol)
    simp only [not_or] at none
    refine .inr ⟨rfl, ?_, ?_⟩
    · simp [scan, none]
    · rw [inWord, visible, symbol]
      rfl

/-- The word at the start of what is left of the line. -/
theorem scan_word_in (visible : isSpace c = false) (plain : symbols.contains c = false)
    {r : List UInt8} : Word.In (c :: r) ⟨c :: r, (c :: r).dropWhile inWord⟩ ∧
      ((c :: r).dropWhile inWord).length < (c :: r).length := by
  have bytes : Word.bytes ⟨c :: r, (c :: r).dropWhile inWord⟩ = (c :: r).takeWhile inWord := by
    have parts := takeWhile_append_dropWhile (p := inWord) (l := c :: r)
    have length := congrArg List.length parts
    rw [length_append] at length
    rw [Word.bytes, ← length, Nat.add_sub_cancel]
    nth_rewrite 2 [← parts]
    exact take_left
  refine ⟨⟨suffix_refl _, ?_, ?_, ?_⟩, ?_⟩
  · rw [bytes]
    exact List.takeWhile_append_dropWhile.symm
  · rw [bytes]
    intro d member
    exact mem_takeWhile_imp member
  · intro d first
    have := List.head?_dropWhile_not inWord (c :: r)
    rwa [show ((c :: r).dropWhile inWord).head? = some d from first] at this
  · have first : inWord c = true := by
      rw [inWord, visible, plain]
      rfl
    rw [dropWhile_cons_of_pos first]
    exact Nat.lt_succ_of_le (dropWhile_suffix _).length_le

theorem scan_skip_lt (more : (scan (skip s)).1 ≠ .eof) : (scan (skip s)).2.length < s.length := by
  have shorter := (skip_suffix s).length_le
  cases rest : skip s with
  | nil => exact absurd (by rw [rest]; rfl) more
  | cons c r =>
    have visible := head_skip (by rw [rest]; rfl)
    rw [rest] at shorter
    obtain ⟨-, tail, -⟩ | ⟨plain, is, -⟩ := scan_cons visible r
    · exact (Nat.lt_succ_of_le tail.length_le).trans_le shorter
    · rw [is]
      exact Nat.lt_of_lt_of_le (scan_word_in visible plain).2 shorter

/-- The tokens of a line. -/
def tokens (s : List UInt8) : List Token :=
  if _more : (scan (skip s)).1 = .eof then []
  else (Token.ofTok (Word.bytes ⟨skip s, (scan (skip s)).2⟩) (scan (skip s)).1).toList ++
    tokens (scan (skip s)).2
termination_by s.length
decreasing_by exact scan_skip_lt _more

theorem tokens_skip (s : List UInt8) : tokens (skip s) = tokens s := by
  rw [tokens, tokens.eq_def s, skip_skip]

theorem tokens_nil : tokens [] = [] := by
  rw [tokens]
  rfl

/-- The first token. -/
theorem tokens_cases (s : List UInt8) :
    (skip s = [] ∧ tokens s = []) ∨
    ∃ c r token, skip s = c :: r ∧ isSpace c = false ∧ tokens s = token :: tokens (scan (skip s)).2 ∧
      token.tok = (scan (skip s)).1 ∧ (scan (skip s)).2.length < s.length ∧
      (scan (skip s)).2 <:+ s ∧
      (symbols.contains c = true ∧ token.lead = some c ∨
        symbols.contains c = false ∧ token = .word (Word.bytes ⟨skip s, (scan (skip s)).2⟩) ∧
          Word.In s ⟨skip s, (scan (skip s)).2⟩) := by
  have suffix := skip_suffix s
  cases rest : skip s with
  | nil =>
    refine .inl ⟨rfl, ?_⟩
    rw [tokens, dif_pos (by rw [rest]; rfl)]
  | cons c r =>
    have visible := head_skip (by rw [rest]; rfl)
    have lt := scan_skip_lt (s := s)
    rw [rest] at suffix lt
    rw [tokens]
    simp only [rest]
    obtain ⟨symbol, tail, is⟩ | ⟨plain, is, -⟩ := scan_cons visible r
    · obtain ⟨token, ofTok, lead⟩ := is (Word.bytes ⟨c :: r, (scan (c :: r)).2⟩)
      have more : (scan (c :: r)).1 ≠ .eof := by
        intro eof
        rw [eof] at ofTok
        cases ofTok
      refine .inr ⟨c, r, token, rfl, visible, ?_, Token.tok_of_ofTok ofTok, lt more,
        tail.trans ((suffix_cons c r).trans suffix), .inl ⟨symbol, lead⟩⟩
      rw [dif_neg more, ofTok]
      rfl
    · have is1 : (scan (c :: r)).1 = .word := by rw [is]
      have is2 : (scan (c :: r)).2 = (c :: r).dropWhile inWord := by rw [is]
      have word := (scan_word_in visible plain (r := r)).1
      have more : (scan (c :: r)).1 ≠ .eof := by
        rw [is1]
        exact nofun
      rw [← is2] at word
      refine .inr ⟨c, r, .word (Word.bytes ⟨c :: r, (scan (c :: r)).2⟩), rfl, visible, ?_,
        is1.symm, lt more, ?_, .inr ⟨plain, rfl, word.mono suffix⟩⟩
      · rw [is1]
        rfl
      · rw [is2]
        exact (dropWhile_suffix _).trans suffix

/-- Whether tokens start with one of some symbols. -/
def starts (toks : List Char) (ts : List Token) : Bool :=
  ts.head?.any fun token => token.lead.any fun c => (toks.map Char.toUInt8).contains c

/-- `peek` looks at the first token. -/
theorem peek_spec {toks : List Char} (all : (toks.all fun c => symbols.contains c.toUInt8) = true)
    (s : List UInt8) : wp E (peek toks) (fun found t => found = starts toks (tokens s) ∧
      tokens t = tokens s ∧ t <:+ s) s := by
  refine ⟨?_, tokens_skip s, skip_suffix s⟩
  rcases tokens_cases s with ⟨empty, none⟩ | ⟨c, r, token, rest, -, first, -, -, -, lead⟩
  · rw [empty, none]
    rfl
  · rw [rest, first]
    rcases lead with ⟨-, lead⟩ | ⟨plain, rfl, -⟩
    · simp only [starts, List.head?_cons, Option.any_some, lead]
    · have other : (toks.map Char.toUInt8).contains c = false := by
        rw [Bool.eq_false_iff]
        intro member
        obtain ⟨d, inside, rfl⟩ := List.mem_map.mp (List.contains_iff_mem.mp member)
        rw [List.all_eq_true.mp all d inside] at plain
        cases plain
      exact other

/-- `gettoken` takes the first token. -/
theorem gettoken_spec (s : List UInt8) : wp E gettoken (fun out t => t <:+ s ∧
    ((tokens s = [] ∧ out.1 = .eof ∧ tokens t = []) ∨
      ∃ token, tokens s = token :: tokens t ∧ out.1 = token.tok ∧ t.length < s.length ∧
        ∀ bytes, token = .word bytes → out.2.bytes = bytes ∧ out.2.In s)) s := by
  have next : skip (scan (skip s)).2 <:+ (scan (skip s)).2 := skip_suffix _
  rcases tokens_cases s with ⟨empty, none⟩ |
    ⟨c, r, token, rest, -, first, kind, shorter, suffix, lead⟩
  · have here : scan (skip s) = (.eof, []) := by rw [empty]; rfl
    simp only [gettoken, wp_bind, wp_update, wp_gets, wp_pure, here, id]
    refine ⟨nil_suffix, .inl ⟨none, trivial, ?_⟩⟩
    rw [← none, tokens, tokens.eq_def s, empty]
    rfl
  · refine ⟨next.trans suffix, .inr ⟨token, ?_, kind.symm, ?_, fun bytes is => ?_⟩⟩
    · exact first.trans (congrArg (token :: ·) (tokens_skip _).symm)
    · exact next.length_le.trans_lt shorter
    · rcases lead with ⟨-, lead⟩ | ⟨-, same, word⟩
      · rw [is] at lead
        cases lead
      · rw [is] at same
        exact ⟨(Token.word.inj same).symm, word⟩

/-! ## The grammar -/

/-- A redirection to or from a file. -/
structure Redir where
  file : List UInt8
  mode : BitVec 32
  fd : ℕ

/-- `redir = ('<' | '>' | '>>') word`. The two kinds of output are the same to the shell. -/
inductive IsRedir : List Token → Redir → Prop where
  | input (file : List UInt8) : IsRedir [.lt, .word file] ⟨file, O_RDONLY, 0⟩
  | output (file : List UInt8) : IsRedir [.gt, .word file] ⟨file, O_WRONLY ||| O_CREATE, 1⟩
  | append (file : List UInt8) : IsRedir [.app, .word file] ⟨file, O_WRONLY ||| O_CREATE, 1⟩

/-- `redir*` -/
inductive Redirs : List Token → List Redir → Prop where
  | nil : Redirs [] []
  | cons {ts ts' : List Token} {redir : Redir} {redirs : List Redir} :
      IsRedir ts redir → Redirs ts' redirs → Redirs (ts ++ ts') (redir :: redirs)

/-- `(word redir*)*` -/
inductive Args : List Token → List (List UInt8) → List Redir → Prop where
  | nil : Args [] [] []
  | cons {word : List UInt8} {ts ts' : List Token} {redirs redirs' : List Redir}
      {words : List (List UInt8)} : Redirs ts redirs → Args ts' words redirs' →
      Args (.word word :: (ts ++ ts')) (word :: words) (redirs ++ redirs')

/-- The redirections around a command, the first one innermost. -/
def redirect (cmd : Cmd (List UInt8)) (redirs : List Redir) : Cmd (List UInt8) :=
  redirs.foldl (fun cmd redir => .redir cmd redir.file redir.mode redir.fd) cmd

/-- The tree of a command with `n` times `&`. -/
def backs (n : ℕ) (cmd : Cmd (List UInt8)) : Cmd (List UInt8) := Cmd.back^[n] cmd

mutual

/-- `line = pipe '&'* [';' line]` -/
inductive Line : List Token → Cmd (List UInt8) → Prop where
  | last {ts : List Token} {cmd : Cmd (List UInt8)} (n : ℕ) : Pipe ts cmd →
      Line (ts ++ List.replicate n .amp) (backs n cmd)
  | list {ts ts' : List Token} {cmd right : Cmd (List UInt8)} (n : ℕ) : Pipe ts cmd →
      Line ts' right → Line (ts ++ (List.replicate n .amp ++ .semi :: ts')) (.list (backs n cmd) right)

/-- `pipe = exec ['|' pipe]` -/
inductive Pipe : List Token → Cmd (List UInt8) → Prop where
  | last {ts : List Token} {cmd : Cmd (List UInt8)} : Exec ts cmd → Pipe ts cmd
  | pipe {ts ts' : List Token} {cmd right : Cmd (List UInt8)} : Exec ts cmd → Pipe ts' right →
      Pipe (ts ++ .bar :: ts') (.pipe cmd right)

/-- `exec = '(' line ')' redir* | redir* (word redir*)*`, with fewer than `MAXARGS` words -/
inductive Exec : List Token → Cmd (List UInt8) → Prop where
  | block {ts ts' : List Token} {cmd : Cmd (List UInt8)} {redirs : List Redir} : Line ts cmd →
      Redirs ts' redirs → Exec (.lpar :: (ts ++ .rpar :: ts')) (redirect cmd redirs)
  | simple {ts ts' : List Token} {words : List (List UInt8)} {redirs redirs' : List Redir} :
      Redirs ts redirs → Args ts' words redirs' → words.length < MAXARGS →
      Exec (ts ++ ts') (redirect (.exec words) (redirs ++ redirs'))

end

end Xv6Uac.Shell
