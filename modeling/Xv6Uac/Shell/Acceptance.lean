import Xv6Uac.Shell.Grammar

/-!
# The parser accepts its grammar

The parser accepts the lines whose tokens are a `Line` of the grammar, and no others, and it returns
the tree of the derivation (`parser_accepts_grammar`).

With enough fuel each function of the parser returns the tree of the tokens that it has taken, or
it fails with a panic (`parseline_sound`). The other way round, it follows a derivation if
what comes after it cannot go on with it (`parseline_complete`). Both are proved along the fuel.
The words of the tree are still there after `nulterminate`, because a NUL is only written where a
word has ended (`string_nulterminate`).
-/

namespace Xv6Uac.Shell

open Hoare List

variable {s t text : List UInt8} {w : Word} {cmd : Cmd Word} {fuel n : ℕ} {ts rest : List Token}

/-! ## Trees -/

section Trees

variable {α β : Type} {f g : α → β}

theorem Cmd.map_push (f : α → β) (cmd : Cmd α) (word : α) :
    (cmd.push word).map f = (cmd.map f).push (f word) := by
  induction cmd with
  | exec argv => simp [Cmd.push, Cmd.map]
  | redir cmd file mode fd ih => rw [Cmd.push, Cmd.map, ih, Cmd.map, Cmd.push]
  | _ => rfl

theorem Cmd.mem_words_push {cmd : Cmd α} {word x : α} (member : x ∈ (cmd.push word).words) :
    x ∈ cmd.words ∨ x = word := by
  induction cmd with
  | exec argv => simpa [Cmd.push, Cmd.words] using member
  | redir cmd file mode fd ih =>
    rw [Cmd.push, Cmd.words, mem_append] at member
    rw [Cmd.words, mem_append]
    rcases member with inside | last
    · rcases ih inside with old | new
      · exact .inl (.inl old)
      · exact .inr new
    · exact .inl (.inr last)
  | _ => exact .inl member

theorem Cmd.map_congr {cmd : Cmd α} (same : ∀ word ∈ cmd.words, f word = g word) :
    cmd.map f = cmd.map g := by
  induction cmd with
  | exec argv => exact congrArg Cmd.exec (map_congr_left same)
  | redir cmd file mode fd ih =>
    rw [Cmd.map, Cmd.map, ih fun word member => same word (mem_append_left _ member),
      same file (mem_append_right _ (List.mem_singleton.mpr rfl))]
  | pipe left right ihLeft ihRight | list left right ihLeft ihRight =>
    rw [Cmd.map, Cmd.map, ihLeft fun word member => same word (mem_append_left _ member),
      ihRight fun word member => same word (mem_append_right _ member)]
  | back cmd ih => rw [Cmd.map, Cmd.map, ih same]

end Trees

theorem redirect_append (tree : Cmd (List UInt8)) (redirs more : List Redir) :
    redirect tree (redirs ++ more) = redirect (redirect tree redirs) more :=
  foldl_append

/-- A word is put into the command that the redirections are around. -/
theorem redirect_push (words : List (List UInt8)) (redirs : List Redir) (word : List UInt8) :
    (redirect (.exec words) redirs).push word = redirect (.exec (words ++ [word])) redirs := by
  induction redirs using List.reverseRecOn with
  | nil => rfl
  | append_singleton redirs redir ih =>
    rw [redirect_append, redirect_append, ← ih]
    rfl

/-! ## The parser returns trees of the grammar -/

theorem Token.eq_word_of_tok {token : Token} (is : token.tok = .word) : ∃ bytes, token = .word bytes := by
  cases token <;> first | exact ⟨_, rfl⟩ | cases is

/-- The characters that are always a token of their own. -/
inductive Single : Char → Token → Prop where
  | bar : Single '|' .bar
  | lpar : Single '(' .lpar
  | rpar : Single ')' .rpar
  | semi : Single ';' .semi
  | amp : Single '&' .amp

variable {symbol : Token} {α : Type} {Q : α → List UInt8 → Prop} {found missing : Parser α} {i : ℕ}

theorem Single.starts_iff {c : Char} (single : Single c symbol) {token : Token} {ts : List Token} :
    starts [c] (token :: ts) = true ↔ token = symbol := by
  cases single <;> cases token <;>
    first
    | exact ⟨fun _ => rfl, fun _ => rfl⟩
    | exact ⟨fun found => (by cases found), fun same => (by cases same)⟩

theorem Single.isSymbol {c : Char} (single : Single c symbol) :
    ([c].all fun d => symbols.contains d.toUInt8) = true := by
  cases single <;> rfl

/-- The parser takes a symbol if it is there. -/
abbrev accept (c : Char) (found missing : Parser α) : Parser α := do
  let here ← peek [c]
  if here then
    let _ ← gettoken
    found
  else
    missing

theorem wp_accept {E : Halt → Prop} {c : Char} (single : Single c symbol)
    (yes : ∀ t, t <:+ s → t.length < s.length → tokens s = symbol :: tokens t → wp E found Q t)
    (no : ∀ t, t <:+ s → tokens t = tokens s → starts [c] (tokens s) = false → wp E missing Q t) :
    wp E (accept c found missing) Q s := by
  refine (peek_spec single.isSymbol s).seq fun here s₁ ⟨isHere, same, suffix⟩ => ?_
  refine wp.ite (fun is => ?_) fun is => ?_
  · refine (gettoken_spec s₁).seq fun _ t ⟨suffix', taken⟩ => ?_
    rw [is, ← same] at isHere
    rcases taken with ⟨none, -⟩ | ⟨token, first, -, shorter, -⟩
    · rw [none] at isHere
      cases isHere
    · rw [first] at isHere
      rw [single.starts_iff.mp isHere.symm, same] at first
      exact yes t (suffix'.trans suffix) (shorter.trans_le suffix.length_le) first
  · apply no s₁ suffix same
    rw [← isHere]
    exact Bool.eq_false_iff.mpr is

/-- Failures other than the lack of fuel. -/
abbrev Panics (halt : Halt) : Prop := halt ≠ .fuel

/-- The words of a command are in the line, apart from those of a part of it. -/
def Inside (s : List UInt8) (old cmd : Cmd Word) : Prop := ∀ w ∈ cmd.words, w ∈ old.words ∨ w.In s

theorem parseredirs_sound : ∀ {s : List UInt8} {cmd : Cmd Word}, s.length < fuel →
    wp Panics (parseredirs fuel cmd) (fun out t => t <:+ s ∧ Inside s cmd out ∧
      ∃ ts redirs, tokens s = ts ++ tokens t ∧ Redirs ts redirs ∧
        out.map Word.bytes = redirect (cmd.map Word.bytes) redirs) s := by
  induction fuel with
  | zero => exact fun bad => absurd bad (Nat.not_lt_zero _)
  | succ fuel ih =>
    intro s cmd enough
    refine (peek_spec rfl s).seq fun found s₁ ⟨isFound, same₁, suffix₁⟩ => ?_
    refine wp.ite (fun more => ?_) fun _ => ?_
    · rw [more] at isFound
      refine (gettoken_spec s₁).seq fun ⟨tok, _⟩ s₂ ⟨suffix₂, taken⟩ => ?_
      rcases taken with ⟨none, -⟩ | ⟨token, first, kind, shorter, -⟩
      · rw [← same₁, none] at isFound
        cases isFound
      refine (gettoken_spec s₂).seq fun ⟨found, file⟩ s₃ ⟨suffix₃, taken⟩ => ?_
      refine wp.ite (fun _ => nofun) fun isWord => ?_
      have isWord : found = .word := not_not.mp isWord
      rcases taken with ⟨-, eof, -⟩ | ⟨token', second, kind', shorter', word⟩
      · rw [isWord] at eof
        cases eof
      obtain ⟨bytes, rfl⟩ := Token.eq_word_of_tok (kind'.symm.trans isWord)
      obtain ⟨bytes, inside⟩ := word bytes rfl
      -- the redirection is put around the command
      have step : ∀ mode fd, IsRedir [token, .word file.bytes] ⟨file.bytes, mode, fd⟩ →
          wp Panics (parseredirs fuel (.redir cmd file mode fd)) (fun out t => t <:+ s ∧
            Inside s cmd out ∧ ∃ ts redirs, tokens s = ts ++ tokens t ∧ Redirs ts redirs ∧
              out.map Word.bytes = redirect (cmd.map Word.bytes) redirs) s₃ := by
        intro mode fd is
        have fewer : s₃.length < fuel := by
          have := suffix₁.length_le
          omega
        refine (ih fewer).mono fun out t ⟨suffix, words, ts, redirs, parts, are, tree⟩ =>
          ⟨suffix.trans (suffix₃.trans (suffix₂.trans suffix₁)), fun w member => ?_,
            [token, .word file.bytes] ++ ts, ⟨file.bytes, mode, fd⟩ :: redirs, ?_, .cons is are, tree⟩
        · rcases words w member with old | new
          · rcases List.mem_append.mp old with old | last
            · exact .inl old
            · rw [List.mem_singleton.mp last]
              exact .inr (inside.mono (suffix₂.trans suffix₁))
          · exact .inr (new.mono (suffix₃.trans (suffix₂.trans suffix₁)))
        · rw [← same₁, first, second, parts, bytes]
          rfl
      rw [← same₁, first] at isFound
      subst kind
      cases token with
      | lt => exact step _ _ (.input _)
      | gt => exact step _ _ (.output _)
      | app => exact step _ _ (.append _)
      | _ => cases isFound
    · exact ⟨suffix₁, fun w member => .inl member, [], [], same₁.symm, .nil, rfl⟩

theorem Inside.trans {a b c : Cmd Word} (first : Inside s a b) (suffix : t <:+ s)
    (second : Inside t b c) : Inside s a c := by
  intro w member
  rcases second w member with old | new
  · exact first w old
  · exact .inr (new.mono suffix)

theorem parseargs_sound : ∀ {s : List UInt8} {ret : Cmd Word} (words : List (List UInt8))
    {redirs : List Redir}, s.length < fuel → words.length < MAXARGS →
    ret.map Word.bytes = redirect (.exec words) redirs →
    wp Panics (parseargs fuel words.length ret) (fun out t => t <:+ s ∧ Inside s ret out ∧
      ∃ ts words' redirs', tokens s = ts ++ tokens t ∧ Args ts words' redirs' ∧
        (words ++ words').length < MAXARGS ∧
        out.map Word.bytes = redirect (.exec (words ++ words')) (redirs ++ redirs')) s := by
  induction fuel with
  | zero => exact fun _ _ bad => absurd bad (Nat.not_lt_zero _)
  | succ fuel ih =>
    intro s ret words redirs enough few tree
    -- the loop ends where it is
    have stops : ∀ {t}, t <:+ s → tokens t = tokens s → t <:+ s ∧ Inside s ret ret ∧
        ∃ ts words' redirs', tokens s = ts ++ tokens t ∧ Args ts words' redirs' ∧
          (words ++ words').length < MAXARGS ∧
          ret.map Word.bytes = redirect (.exec (words ++ words')) (redirs ++ redirs') := by
      intro t suffix same
      refine ⟨suffix, fun w member => .inl member, [], [], [], same.symm, .nil, ?_, ?_⟩
      · rwa [append_nil]
      · rwa [append_nil, append_nil]
    refine (peek_spec rfl s).seq fun found s₁ ⟨_, same₁, suffix₁⟩ => ?_
    refine wp.ite (fun _ => stops suffix₁ same₁) fun _ => ?_
    refine (gettoken_spec s₁).seq fun ⟨tok, word⟩ s₂ ⟨suffix₂, taken⟩ => ?_
    refine wp.ite (fun eof => ?_) fun notEof => ?_
    · rcases taken with ⟨none, -, none'⟩ | ⟨token, -, kind, -⟩
      · exact stops (suffix₂.trans suffix₁) (none'.trans (none.symm.trans same₁))
      · rw [eof] at kind
        cases token <;> cases kind
    refine wp.ite (fun _ => nofun) fun isWord => ?_
    have isWord : tok = .word := not_not.mp isWord
    refine wp.ite (fun _ => nofun) fun room => ?_
    rcases taken with ⟨-, eof, -⟩ | ⟨token, first, kind, shorter, isIn⟩
    · exact absurd eof notEof
    obtain ⟨bytes, rfl⟩ := Token.eq_word_of_tok (kind.symm.trans isWord)
    obtain ⟨rfl, inside⟩ := isIn bytes rfl
    have length₁ := suffix₁.length_le
    have length₂ : s₂.length < fuel + 1 := by omega
    refine (parseredirs_sound length₂).seq
      fun ret' s₃ ⟨suffix₃, inside₃, ts, redirs₃, parts₃, are₃, tree₃⟩ => ?_
    have pushed : ret'.map Word.bytes =
        redirect (.exec (words ++ [word.bytes])) (redirs ++ redirs₃) := by
      rw [tree₃, Cmd.map_push, tree, redirect_push, redirect_append]
    have next := ih (s := s₃) (words ++ [word.bytes]) (by
      have := suffix₃.length_le
      omega) (by simp only [length_append, length_singleton]; omega) pushed
    rw [length_append] at next
    refine next.mono fun out t ⟨suffix, insideT, ts', words', redirs', parts, are, small, same⟩ => ?_
    have old : Inside s ret (ret.push word) := by
      intro w member
      rcases Cmd.mem_words_push member with old | rfl
      · exact .inl old
      · exact .inr (inside.mono suffix₁)
    refine ⟨suffix.trans (suffix₃.trans (suffix₂.trans suffix₁)),
      (old.trans (suffix₂.trans suffix₁) inside₃).trans
        (suffix₃.trans (suffix₂.trans suffix₁)) insideT,
      .word word.bytes :: (ts ++ ts'), word.bytes :: words', redirs₃ ++ redirs', ?_,
      .cons are₃ are, ?_, ?_⟩
    · rw [← same₁, first, parts₃, parts]
      simp
    · simpa using small
    · simpa using same

/-- What a function of the parser returns: a tree of the tokens that it has taken. -/
def Finds (G : List Token → Cmd (List UInt8) → Prop) (s : List UInt8) (cmd : Cmd Word)
    (t : List UInt8) : Prop :=
  t <:+ s ∧ (∀ w ∈ cmd.words, w.In s) ∧
    ∃ ts, tokens s = ts ++ tokens t ∧ G ts (cmd.map Word.bytes)

/-- `parseline` does what it should on short lines. -/
def LineSound (n : ℕ) (parser : Parser (Cmd Word)) : Prop :=
  ∀ {s : List UInt8}, s.length < n → wp Panics parser (Finds Line s) s

variable {parser : Parser (Cmd Word)}

theorem parseblock_sound (sound : LineSound n parser) (short : s.length ≤ n)
    (enough : s.length < fuel) : wp Panics (parseblock parser fuel) (Finds Exec s) s := by
  refine wp_accept .lpar (fun s₁ suffix₁ shorter opens => ?_) fun _ _ _ _ => nofun
  refine (sound (shorter.trans_le short)).seq
    fun cmd s₂ ⟨suffix₂, inside₂, ts, parts₂, isLine⟩ => ?_
  refine wp_accept .rpar (fun s₃ suffix₃ _ closes => ?_) fun _ _ _ _ => nofun
  have suffix := suffix₃.trans (suffix₂.trans suffix₁)
  refine (parseredirs_sound (suffix.length_le.trans_lt enough)).mono
    fun out t ⟨suffixT, insideT, ts', redirs, parts, are, tree⟩ => ?_
  refine ⟨suffixT.trans suffix, fun w member => ?_, .lpar :: (ts ++ .rpar :: ts'), ?_, ?_⟩
  · rcases insideT w member with old | new
    · exact (inside₂ w old).mono suffix₁
    · exact new.mono suffix
  · rw [opens, parts₂, closes, parts]
    simp
  · rw [tree]
    exact .block isLine are

theorem parseexec_sound (sound : LineSound n parser) (short : s.length ≤ n)
    (enough : s.length < fuel) : wp Panics (parseexec parser fuel) (Finds Exec s) s := by
  refine (peek_spec rfl s).seq fun found s₁ ⟨isFound, same₁, suffix₁⟩ => ?_
  have length₁ := suffix₁.length_le
  refine wp.ite (fun opens => ?_) fun _ => ?_
  · refine (parseblock_sound sound (by omega) (by omega)).mono
      fun cmd t ⟨suffix, inside, ts, parts, tree⟩ => ?_
    exact ⟨suffix.trans suffix₁, fun w member => (inside w member).mono suffix₁, ts,
      same₁ ▸ parts, tree⟩
  · refine (parseredirs_sound (by omega)).seq
      fun ret s₂ ⟨suffix₂, inside₂, ts, redirs, parts₂, are, tree₂⟩ => ?_
    have length₂ := suffix₂.length_le
    refine (parseargs_sound [] (by omega) (by decide) tree₂).mono
      fun out t ⟨suffix, inside, ts', words, redirs', parts, args, few, tree⟩ => ?_
    refine ⟨suffix.trans (suffix₂.trans suffix₁), fun w member => ?_, ts ++ ts', ?_, ?_⟩
    · rcases inside w member with old | new
      · rcases inside₂ w old with none | new
        · cases none
        · exact new.mono suffix₁
      · exact new.mono (suffix₂.trans suffix₁)
    · rw [← same₁, parts₂, parts, append_assoc]
    · rw [tree]
      exact .simple are args few

theorem parsepipe_sound (sound : LineSound n parser) : ∀ {s : List UInt8}, s.length ≤ n →
    s.length < fuel → wp Panics (parsepipe parser fuel) (Finds Pipe s) s := by
  induction fuel with
  | zero => exact fun _ bad => absurd bad (Nat.not_lt_zero _)
  | succ fuel ih =>
    intro s short enough
    refine (parseexec_sound sound short enough).seq
      fun cmd s₁ ⟨suffix₁, inside₁, ts, parts₁, isExec⟩ => ?_
    refine wp_accept .bar (fun s₂ suffix₂ shorter bar => ?_) fun s₂ suffix₂ same _ => ?_
    · have suffix := suffix₂.trans suffix₁
      have length₁ := suffix₁.length_le
      refine (ih (by omega) (by omega)).seq
        fun right t ⟨suffixT, insideT, ts', parts, isPipe⟩ => ?_
      refine ⟨suffixT.trans suffix, fun w member => ?_, ts ++ .bar :: ts', ?_, .pipe isExec isPipe⟩
      · rcases List.mem_append.mp member with left | right
        · exact inside₁ w left
        · exact (insideT w right).mono suffix
      · rw [parts₁, bar, parts]
        simp
    · exact ⟨suffix₂.trans suffix₁, inside₁, ts, same ▸ parts₁, .last isExec⟩

theorem parsebacks_sound : ∀ {s : List UInt8} {cmd : Cmd Word}, s.length < fuel →
    wp Panics (parsebacks fuel cmd) (fun out t => t <:+ s ∧ Inside s cmd out ∧
      ∃ n, tokens s = List.replicate n .amp ++ tokens t ∧
        out.map Word.bytes = backs n (cmd.map Word.bytes)) s := by
  induction fuel with
  | zero => exact fun bad => absurd bad (Nat.not_lt_zero _)
  | succ fuel ih =>
    intro s cmd enough
    refine wp_accept .amp (fun s₁ suffix₁ shorter amp => ?_) fun s₁ suffix₁ same _ => ?_
    · refine (ih (by omega)).mono fun out t ⟨suffix, inside, n, parts, tree⟩ => ?_
      refine ⟨suffix.trans suffix₁, fun w member => ?_, n + 1, ?_, tree⟩
      · exact (inside w member).imp_right fun new => new.mono suffix₁
      · rw [amp, parts]
        rfl
    · exact ⟨suffix₁, fun w member => .inl member, 0, same.symm, rfl⟩

/-- **What `parseline` returns is a tree of the grammar.** -/
theorem parseline_sound : LineSound fuel (parseline fuel) := by
  induction fuel with
  | zero => exact fun bad => absurd bad (Nat.not_lt_zero _)
  | succ fuel ih =>
    intro s enough
    refine (parsepipe_sound ih (Nat.le_of_lt_succ enough) enough).seq
      fun first s₁ ⟨suffix₁, inside₁, ts, parts₁, isPipe⟩ => ?_
    have length₁ := suffix₁.length_le
    refine (parsebacks_sound (by omega)).seq
      fun cmd s₂ ⟨suffix₂, inside₂, n, parts₂, tree⟩ => ?_
    have insideCmd : ∀ w ∈ cmd.words, w.In s := by
      intro w member
      rcases inside₂ w member with old | new
      · exact inside₁ w old
      · exact new.mono suffix₁
    refine wp_accept .semi (fun s₃ suffix₃ shorter semi => ?_) fun s₃ suffix₃ same _ => ?_
    · have suffix := suffix₃.trans (suffix₂.trans suffix₁)
      have length₂ := suffix₂.length_le
      refine (ih (by omega)).seq
        fun right t ⟨suffixT, insideT, ts', parts, isLine⟩ => ?_
      refine ⟨suffixT.trans suffix, fun w member => ?_,
        ts ++ (List.replicate n .amp ++ .semi :: ts'), ?_, ?_⟩
      · rcases List.mem_append.mp member with left | right
        · exact insideCmd w left
        · exact (insideT w right).mono suffix
      · rw [parts₁, parts₂, semi, parts]
        simp
      · rw [Cmd.map, tree]
        exact .list n isPipe isLine
    · refine ⟨suffix₃.trans (suffix₂.trans suffix₁), insideCmd, ts ++ List.replicate n .amp, ?_, ?_⟩
      · rw [parts₁, parts₂, same, append_assoc]
      · rw [tree]
        exact .last n isPipe

/-! ## The parser follows derivations -/

/-- The lack of fuel is the only failure. -/
abbrev Starves (halt : Halt) : Prop := halt = .fuel

/-- The tokens end, or one of some symbols comes next. -/
def Ends (toks : List Char) (ts : List Token) : Prop := ts = [] ∨ starts toks ts = true

theorem exists_of_starts {toks : List Char} (found : starts toks ts = true) : ∃ c ∈ toks,
    ∀ others, starts others ts = (others.map Char.toUInt8).contains c.toUInt8 := by
  rcases ts with _ | ⟨token, ts⟩
  · cases found
  simp only [starts, List.head?_cons, Option.any_some] at found ⊢
  cases lead : token.lead with
  | none =>
    rw [lead] at found
    cases found
  | some c =>
    rw [lead, Option.any_some, contains_iff_mem, mem_map] at found
    obtain ⟨d, member, rfl⟩ := found
    exact ⟨d, member, fun _ => rfl⟩

/-- What comes next is none of some other symbols. -/
theorem Ends.not_starts {toks others : List Char} (ends : Ends toks ts)
    (apart : (toks.all fun c => !(others.map Char.toUInt8).contains c.toUInt8) = true) :
    starts others ts = false := by
  rcases ends with rfl | found
  · rfl
  · obtain ⟨c, member, next⟩ := exists_of_starts found
    rw [next, ← Bool.not_eq_true']
    exact List.all_eq_true.mp apart c member

theorem Ends.mono {toks more : List Char} (ends : Ends toks ts)
    (all : (toks.all fun c => (more.map Char.toUInt8).contains c.toUInt8) = true) : Ends more ts := by
  rcases ends with rfl | found
  · exact .inl rfl
  · obtain ⟨c, member, next⟩ := exists_of_starts found
    exact .inr ((next more).trans (List.all_eq_true.mp all c member))

/-- A redirection does not come after the redirections of a word. -/
theorem Args.not_redir {words : List (List UInt8)} {redirs : List Redir} (args : Args ts words redirs)
    (ends : Ends ['|', ')', '&', ';'] rest) : starts ['<', '>'] (ts ++ rest) = false := by
  cases args with
  | nil => exact ends.not_starts rfl
  | cons => rfl

/-- The next token is taken. -/
theorem gettoken_next {E : Halt → Prop} {token : Token} (next : tokens s = token :: rest) :
    wp E gettoken (fun (tok, word) t => tok = token.tok ∧ tokens t = rest ∧
      ∀ bytes, token = .word bytes → word.bytes = bytes) s := by
  refine (gettoken_spec s).mono fun _ t ⟨_, taken⟩ => ?_
  rw [next] at taken
  rcases taken with ⟨none, -⟩ | ⟨token', first, kind, -, word⟩
  · cases none
  · obtain ⟨rfl, more⟩ := List.cons.inj first
    exact ⟨kind, more.symm, fun bytes same => (word bytes same).1⟩

theorem parseredirs_complete : ∀ {s : List UInt8} {cmd : Cmd Word} {ts : List Token}
    {redirs : List Redir}, Redirs ts redirs → tokens s = ts ++ rest →
    starts ['<', '>'] rest = false →
    wp Starves (parseredirs fuel cmd) (fun out t => tokens t = rest ∧
      out.map Word.bytes = redirect (cmd.map Word.bytes) redirs) s := by
  induction fuel with
  | zero => exact fun _ _ _ => rfl
  | succ fuel ih =>
    intro s cmd ts redirs are parts ends
    refine (peek_spec rfl s).seq fun found s₁ ⟨isFound, same₁, _⟩ => ?_
    rw [wp_ite]
    cases are with
    | nil =>
      rw [parts, nil_append, ends] at isFound
      rw [isFound]
      exact ⟨nofun, fun _ => ⟨same₁.trans parts, rfl⟩⟩
    | @cons ts ts' redir redirs is are =>
      obtain ⟨token, file, rfl, opens⟩ : ∃ token file, ts = [token, .word file] ∧
          ∀ more, starts ['<', '>'] (token :: more) = true := by
        cases is <;> exact ⟨_, _, rfl, fun _ => rfl⟩
      rw [parts] at isFound
      rw [isFound.trans (opens _)]
      refine ⟨fun _ => ?_, fun bad => absurd rfl bad⟩
      refine (gettoken_next (same₁.trans parts)).seq fun ⟨tok, _⟩ s₂ ⟨kind, rest₂, _⟩ => ?_
      refine (gettoken_next rest₂).seq fun ⟨found, word⟩ s₃ ⟨kind', rest₃, bytes⟩ => ?_
      obtain rfl := bytes file rfl
      refine wp.ite (fun bad => absurd kind' bad) fun _ => ?_
      subst kind
      cases is <;> exact ih are rest₃ ends

theorem parseargs_complete : ∀ {s : List UInt8} {ret : Cmd Word} (words : List (List UInt8))
    {words' : List (List UInt8)} {redirs redirs' : List Redir} {ts : List Token}, Args ts words' redirs' →
    tokens s = ts ++ rest → Ends ['|', ')', '&', ';'] rest →
    (words ++ words').length < MAXARGS → ret.map Word.bytes = redirect (.exec words) redirs →
    wp Starves (parseargs fuel words.length ret) (fun out t => tokens t = rest ∧
      out.map Word.bytes = redirect (.exec (words ++ words')) (redirs ++ redirs')) s := by
  induction fuel with
  | zero =>
    intros
    rfl
  | succ fuel ih =>
    intro s ret words words' redirs redirs' ts args parts ends few tree
    rw [parseargs]
    refine (peek_spec rfl s).seq fun found s₁ ⟨isFound, same₁, _⟩ => ?_
    rw [wp_ite]
    cases args with
    | nil =>
      rw [append_nil, append_nil]
      rcases ends with rfl | ends
      · refine ⟨fun _ => ⟨same₁.trans parts, tree⟩, fun _ => ?_⟩
        refine (gettoken_spec s₁).seq fun ⟨tok, _⟩ s₂ ⟨_, taken⟩ => ?_
        rw [same₁, parts] at taken
        rcases taken with ⟨-, eof, none⟩ | ⟨token, first, -⟩
        · exact wp.ite (fun _ => ⟨none, tree⟩) fun bad => absurd eof bad
        · cases first
      · rw [parts, nil_append, ends] at isFound
        rw [isFound]
        exact ⟨fun _ => ⟨same₁.trans parts, tree⟩, fun bad => absurd rfl bad⟩
    | @cons word ts ts' redirs₁ redirs₂ words' are args =>
      rw [cons_append, append_assoc] at parts
      rw [parts] at isFound
      rw [show found = false from isFound]
      refine ⟨nofun, fun _ => ?_⟩
      refine (gettoken_next (same₁.trans parts)).seq fun ⟨tok, word⟩ s₂ ⟨kind, rest₂, bytes⟩ => ?_
      obtain rfl := bytes _ rfl
      have kind : tok = .word := kind
      have room : words.length + 1 + words'.length < MAXARGS := by
        simpa [Nat.add_assoc, Nat.add_comm 1] using few
      rw [wp_ite, kind]
      refine ⟨nofun, fun _ => ?_⟩
      refine wp.ite (fun bad => absurd rfl bad) fun _ => ?_
      refine wp.ite (fun many => by omega) fun _ => ?_
      refine (parseredirs_complete are rest₂ (args.not_redir ends)).seq fun ret' s₃ ⟨rest₃, tree₃⟩ => ?_
      have pushed : ret'.map Word.bytes =
          redirect (.exec (words ++ [word.bytes])) (redirs ++ redirs₁) := by
        rw [tree₃, Cmd.map_push, tree, redirect_push, redirect_append]
      have goes := ih (s := s₃) (words ++ [word.bytes]) args rest₃ ends
        (by simpa using few) pushed
      rw [length_append] at goes
      refine goes.mono fun out t ⟨rest', same⟩ => ⟨rest', ?_⟩
      simpa using same

/-- `parseline` follows the derivations that end where they have to. -/
def LineComplete (parser : Parser (Cmd Word)) : Prop :=
  ∀ {s : List UInt8} {ts rest : List Token} {tree : Cmd (List UInt8)}, Line ts tree →
    tokens s = ts ++ rest → Ends [')'] rest →
    wp Starves parser (fun cmd t => tokens t = rest ∧ cmd.map Word.bytes = tree) s

/-- A symbol that comes next is taken. -/
theorem wp_accept_found {c : Char} (single : Single c symbol) (here : tokens s = symbol :: rest)
    (goes : ∀ t, tokens t = rest → wp Starves found Q t) :
    wp Starves (accept c found missing) Q s := by
  refine wp_accept single (fun t _ _ taken => ?_) fun t _ _ none => ?_
  · rw [here] at taken
    exact goes t (List.cons.inj taken).2.symm
  · rw [here, Bool.eq_false_iff] at none
    exact absurd (single.starts_iff.mpr rfl) none

/-- A symbol that does not come next is not taken. -/
theorem wp_accept_missing {c : Char} (single : Single c symbol)
    (none : starts [c] (tokens s) = false)
    (goes : ∀ t, tokens t = tokens s → wp Starves missing Q t) :
    wp Starves (accept c found missing) Q s := by
  refine wp_accept single (fun t _ _ taken => ?_) fun t _ same _ => goes t same
  rw [taken, Bool.eq_false_iff] at none
  exact absurd (single.starts_iff.mpr rfl) none

theorem parseexec_complete (complete : LineComplete parser) {tree : Cmd (List UInt8)}
    (isExec : Exec ts tree) (parts : tokens s = ts ++ rest) (ends : Ends ['|', ')', '&', ';'] rest) :
    wp Starves (parseexec parser fuel)
      (fun cmd t => tokens t = rest ∧ cmd.map Word.bytes = tree) s := by
  rw [parseexec]
  refine (peek_spec rfl s).seq fun found s₁ ⟨isFound, same₁, _⟩ => ?_
  rw [wp_ite]
  cases isExec with
  | @block ts ts' tree redirs isLine are =>
    rw [parts] at isFound
    rw [show found = true from isFound]
    refine ⟨fun _ => ?_, fun bad => absurd rfl bad⟩
    rw [cons_append, append_assoc] at parts
    refine wp_accept_found .lpar (same₁.trans parts) fun s₂ rest₂ => ?_
    refine (complete isLine rest₂ (.inr rfl)).seq fun cmd s₃ ⟨rest₃, same₃⟩ => ?_
    refine wp_accept_found .rpar rest₃ fun s₄ rest₄ => ?_
    rw [← same₃]
    exact parseredirs_complete are rest₄ (ends.not_starts rfl)
  | @simple ts ts' words redirs redirs' are args few =>
    have noBlock : starts ['('] (ts ++ ts' ++ rest) = false := by
      cases are with
      | nil =>
        cases args with
        | nil => exact ends.not_starts rfl
        | cons => rfl
      | cons is => cases is <;> rfl
    rw [parts, noBlock] at isFound
    rw [isFound]
    refine ⟨nofun, fun _ => ?_⟩
    rw [append_assoc] at parts
    refine (parseredirs_complete are (same₁.trans parts) (args.not_redir ends)).seq
      fun ret s₂ ⟨rest₂, tree₂⟩ => ?_
    exact parseargs_complete [] args rest₂ ends few tree₂

theorem parsepipe_complete (complete : LineComplete parser) : ∀ {s : List UInt8} {ts : List Token}
    {tree : Cmd (List UInt8)}, Pipe ts tree → tokens s = ts ++ rest → Ends [')', '&', ';'] rest →
    wp Starves (parsepipe parser fuel)
      (fun cmd t => tokens t = rest ∧ cmd.map Word.bytes = tree) s := by
  induction fuel with
  | zero => exact fun _ _ _ => rfl
  | succ fuel ih =>
    intro s ts tree isPipe parts ends
    rw [parsepipe, wp_bind]
    cases isPipe with
    | last isExec =>
      refine (parseexec_complete complete isExec parts (ends.mono rfl)).mono
        fun cmd s₁ ⟨rest₁, same⟩ => ?_
      refine wp_accept_missing .bar ?_ fun t sameT => ⟨sameT.trans rest₁, same⟩
      rw [rest₁]
      exact ends.not_starts rfl
    | pipe isExec isPipe =>
      rw [append_assoc] at parts
      refine (parseexec_complete complete isExec parts (.inr rfl)).mono
        fun cmd s₁ ⟨rest₁, same⟩ => ?_
      refine wp_accept_found .bar rest₁ fun s₂ rest₂ => ?_
      refine (ih isPipe rest₂ ends).seq fun right t ⟨restT, sameT⟩ => ⟨restT, ?_⟩
      rw [Cmd.map, same, sameT]

theorem parsebacks_complete : ∀ {s : List UInt8} {cmd : Cmd Word} {n : ℕ},
    tokens s = List.replicate n .amp ++ rest → starts ['&'] rest = false →
    wp Starves (parsebacks fuel cmd) (fun out t => tokens t = rest ∧
      out.map Word.bytes = backs n (cmd.map Word.bytes)) s := by
  induction fuel with
  | zero => exact fun _ _ => rfl
  | succ fuel ih =>
    intro s cmd n parts ends
    cases n with
    | zero =>
      refine wp_accept_missing .amp ?_ fun t same => ⟨same.trans parts, rfl⟩
      rwa [parts]
    | succ n => exact wp_accept_found .amp parts fun s₁ rest₁ => ih rest₁ ends

/-- **`parseline` follows every derivation.** -/
theorem parseline_complete : LineComplete (parseline fuel) := by
  induction fuel with
  | zero => exact fun _ _ _ => rfl
  | succ fuel ih =>
    intro s ts rest tree isLine parts ends
    rw [parseline, wp_bind]
    cases isLine with
    | @last ts tree n isPipe =>
      rw [append_assoc] at parts
      have next : Ends [')', '&', ';'] (List.replicate n .amp ++ rest) := by
        cases n with
        | zero => exact ends.mono rfl
        | succ n => exact .inr rfl
      refine (parsepipe_complete ih isPipe parts next).mono fun first s₁ ⟨rest₁, same₁⟩ => ?_
      refine (parsebacks_complete rest₁ (ends.not_starts rfl)).seq
        fun cmd s₂ ⟨rest₂, same₂⟩ => ?_
      refine wp_accept_missing .semi ?_ fun t same => ⟨same.trans rest₂, ?_⟩
      · rw [rest₂]
        exact ends.not_starts rfl
      · rw [same₂, same₁]
    | @list ts ts' tree right n isPipe isLine =>
      rw [append_assoc, append_assoc] at parts
      have next : Ends [')', '&', ';'] (List.replicate n .amp ++ (.semi :: ts' ++ rest)) := by
        cases n with
        | zero => exact .inr rfl
        | succ n => exact .inr rfl
      refine (parsepipe_complete ih isPipe parts next).mono fun first s₁ ⟨rest₁, same₁⟩ => ?_
      refine (parsebacks_complete rest₁ rfl).seq fun cmd s₂ ⟨rest₂, same₂⟩ => ?_
      refine wp_accept_found .semi rest₂ fun s₃ rest₃ => ?_
      refine (ih isLine rest₃ ends).seq fun right t ⟨restT, sameT⟩ => ⟨restT, ?_⟩
      rw [Cmd.map, same₂, same₁, sameT]

/-! ## The words after `nulterminate` -/

/-- A NUL at the end of each word. -/
def zeros (words : List Word) (buf : List UInt8) : List UInt8 :=
  words.foldl (fun buf word => zeroAt buf word.eq) buf

theorem nulterminate_eq_zeros (cmd : Cmd Word) (buf : List UInt8) :
    nulterminate cmd buf = zeros cmd.words buf := by
  induction cmd generalizing buf with
  | exec argv => rfl
  | redir cmd file mode fd ih => rw [nulterminate, ih, Cmd.words, zeros, zeros, foldl_append]; rfl
  | pipe left right ihLeft ihRight | list left right ihLeft ihRight =>
    rw [nulterminate, ihLeft, ihRight, Cmd.words, zeros, zeros, zeros, foldl_append]
  | back cmd ih => exact ih buf

theorem length_zeros (words : List Word) (buf : List UInt8) :
    (zeros words buf).length = buf.length := by
  induction words generalizing buf with
  | nil => rfl
  | cons word words ih => exact (ih _).trans length_set

/-- The bytes where a word has ended are zero, the others are as before. -/
theorem getElem?_zeros (words : List Word) (buf : List UInt8) (i : ℕ) :
    (zeros words buf)[i]? = buf[i]?.map fun c =>
      if ∃ w ∈ words, i = buf.length - w.eq.length then 0 else c := by
  induction words generalizing buf with
  | nil => simp [zeros]
  | cons word words ih =>
    have length : (zeroAt buf word.eq).length = buf.length := length_set
    have one : (zeroAt buf word.eq)[i]? =
        buf[i]?.map fun c => if i = buf.length - word.eq.length then 0 else c := by
      rw [zeroAt]
      grind
    rw [zeros, foldl_cons, ← zeros, ih, length, one, Option.map_map]
    congr 1
    funext c
    by_cases later : ∃ w ∈ words, i = buf.length - w.eq.length <;> simp [later]

/-- Where a word of the line starts and ends. -/
theorem Word.In.split (is : w.In text) : ∃ front, text = front ++ (w.bytes ++ w.eq) ∧
    text.length - w.q.length = front.length ∧
    text.length - w.eq.length = front.length + w.bytes.length := by
  obtain ⟨front, whole⟩ := is.inside
  have length := congrArg List.length whole
  rw [is.parts] at whole
  have parts := congrArg List.length is.parts
  rw [length_append] at length parts
  exact ⟨front, whole.symm, by omega, by omega⟩

/-- A NUL is only written where a word has ended. -/
theorem Word.In.inside_word (is : w.In text) {v : Word} (other : v.In text)
    (inside : i < w.bytes.length) : text.length - w.q.length + i ≠ text.length - v.eq.length := by
  intro same
  obtain ⟨front, wholeW, startW, -⟩ := is.split
  obtain ⟨front', wholeV, -, endV⟩ := other.split
  rw [startW, endV] at same
  -- the byte at that place is in the one word and ends the other one
  have mine : text[front.length + i]? = some w.bytes[i] := by
    rw [wholeW, List.getElem?_append_right (Nat.le_add_right _ _), Nat.add_sub_cancel_left,
      List.getElem?_append_left inside, List.getElem?_eq_getElem inside]
  have theirs : text[front'.length + v.bytes.length]? = v.eq.head? := by
    rw [wholeV, ← append_assoc, List.getElem?_append_right (by simp), length_append, Nat.sub_self,
      List.head?_eq_getElem?]
  rw [same, theirs] at mine
  have plain := is.chars _ (getElem_mem inside)
  rw [other.ends _ mine] at plain
  cases plain

/-- **The words are still there.** -/
theorem string_nulterminate {cmd : Cmd Word} (noNul : 0 ∉ text) (all : ∀ v ∈ cmd.words, v.In text)
    (member : w ∈ cmd.words) : w.string (nulterminate cmd text) = w.bytes := by
  have is := all w member
  obtain ⟨front, whole, start, last⟩ := is.split
  rw [Word.string, nulterminate_eq_zeros, length_zeros, start]
  have keeps : w.bytes <+: (zeros cmd.words text).drop front.length := by
    rw [prefix_iff_getElem?]
    intro i inside
    have never : ¬∃ v ∈ cmd.words, front.length + i = text.length - v.eq.length := by
      rintro ⟨v, other, same⟩
      exact is.inside_word (all v other) inside (start ▸ same)
    have byte : text[front.length + i]? = some w.bytes[i] := by
      rw [whole, List.getElem?_append_right (Nat.le_add_right _ _), Nat.add_sub_cancel_left,
        List.getElem?_append_left inside, List.getElem?_eq_getElem inside]
    rw [List.getElem?_drop, getElem?_zeros, byte, Option.map_some, if_neg never]
  have ends : ∀ c ∈ ((zeros cmd.words text).drop front.length)[w.bytes.length]?, c = 0 := by
    intro c found
    rw [List.getElem?_drop, getElem?_zeros] at found
    obtain ⟨old, -, zero⟩ := Option.map_eq_some_iff.mp found
    rwa [if_pos ⟨w, member, last.symm⟩, eq_comm] at zero
  have plain : ∀ c ∈ w.bytes, decide (c ≠ 0) = true := by
    intro c inside
    refine decide_eq_true fun zero => noNul ?_
    rw [whole, ← zero]
    exact mem_append_right _ (mem_append_left _ inside)
  obtain ⟨tail, shape⟩ := keeps
  rw [← shape, takeWhile_append_of_pos plain]
  rw [← shape, List.getElem?_append_right le_rfl, Nat.sub_self] at ends
  cases tail with
  | nil => rw [takeWhile_nil, append_nil]
  | cons c tail => rw [ends c rfl, takeWhile_cons_of_neg (by simp), append_nil]

/-! ## The parser -/

theorem parsewhole_sound (s : List UInt8) :
    wp Panics (parsewhole s.length) (fun cmd _ => (∀ w ∈ cmd.words, w.In s) ∧
      Line (tokens s) (cmd.map Word.bytes)) s := by
  refine (parseline_sound (Nat.lt_succ_self _)).seq fun cmd t ⟨_, inside, ts, parts, isLine⟩ => ?_
  refine (peek_spec rfl t).seq fun _ u ⟨_, same, _⟩ => ?_
  refine wp.ite (fun _ => nofun) fun none => ⟨inside, ?_⟩
  have none : u = [] := not_not.mp none
  rw [none, tokens_nil] at same
  rwa [parts, ← same, append_nil]

theorem parsewhole_complete {tree : Cmd (List UInt8)} (isLine : Line (tokens s) tree) (n : ℕ) :
    wp Starves (parsewhole n) (fun cmd _ => cmd.map Word.bytes = tree) s := by
  refine (parseline_complete isLine (append_nil _).symm (.inl rfl)).seq
    fun cmd t ⟨empty, same⟩ => ?_
  have finished : skip t = [] := by
    rcases tokens_cases t with ⟨skipped, -⟩ | ⟨c, r, token, -, -, more, -⟩
    · exact skipped
    · rw [empty] at more
      cases more
  simp only [peek, wp_bind, wp_update, wp_gets, wp_ite]
  exact ⟨fun more => absurd finished more, fun _ => same⟩

theorem nul_not_mem_line (buf : List UInt8) : 0 ∉ buf.takeWhile (· ≠ 0) := by
  intro member
  simpa using mem_takeWhile_imp member

/-- **The parser of the shell accepts its grammar.** For every line `parsecmd` ends. It returns a
command, and the words of the command form the tree of a derivation of the tokens of the line, or
it panics, and there is no derivation. -/
theorem parser_accepts_grammar (buf : List UInt8) :
    (∀ tree, (∃ cmd line, parsecmd buf = .ok (cmd, line) ∧ cmd.map (Word.string line) = tree) ↔
      Line (tokens (buf.takeWhile (· ≠ 0))) tree) ∧
    ((∃ cmd line, parsecmd buf = .ok (cmd, line)) ∨
      ∃ message, parsecmd buf = .error (.panic message)) := by
  have noNul := nul_not_mem_line buf
  have sound := parsewhole_sound (buf.takeWhile (· ≠ 0))
  have complete : ∀ tree, Line (tokens (buf.takeWhile (· ≠ 0))) tree → wp Starves _ _ _ :=
    fun tree isLine => parsewhole_complete isLine (buf.takeWhile (· ≠ 0)).length
  rw [parsecmd]
  generalize buf.takeWhile (· ≠ 0) = s at *
  cases ran : parsewhole s.length s with
  | error halt =>
    rw [wp, ran] at sound
    cases halt with
    | fuel => exact absurd rfl sound
    | panic message =>
      refine ⟨fun tree => ⟨fun accepted => ?_, fun isLine => ?_⟩, .inr ⟨message, rfl⟩⟩
      · obtain ⟨_, _, accepted, _⟩ := accepted
        cases accepted
      have starves := complete tree isLine
      rw [wp, ran] at starves
      cases starves
  | ok out =>
    obtain ⟨cmd, t⟩ := out
    obtain ⟨inside, isLine⟩ := sound.of_ok ran
    have words : cmd.map (Word.string (nulterminate cmd s)) = cmd.map Word.bytes :=
      Cmd.map_congr fun w member => string_nulterminate noNul inside member
    refine ⟨fun tree => ⟨?_, fun derived => ?_⟩, .inl ⟨cmd, nulterminate cmd s, rfl⟩⟩
    · rintro ⟨cmd', line, same, rfl⟩
      cases same
      rwa [words]
    · exact ⟨cmd, nulterminate cmd s, rfl, words.trans ((complete tree derived).of_ok ran)⟩

/-- The line `a<f|b&` with its NUL. -/
example : ((parsecmd (['a', '<', 'f', '|', 'b', '&', '\x00'].map Char.toUInt8)).toOption.map
    fun (cmd, line) => cmd.map (Word.string line)) =
      some (.back (.pipe (.redir (.exec [[97]]) [102] O_RDONLY 0) (.exec [[98]]))) := by
  decide

/-- **Parsed words keep their text.** For every line that `parsecmd` accepts, each word of the
command is a word of the line, the string that starts there after `nulterminate` is its text, and a
byte of the line has changed only where a word ends. -/
theorem parsed_words_keep_text {buf after : List UInt8} {cmd : Cmd Word}
    (accepted : parsecmd buf = .ok (cmd, after)) :
    (∀ w ∈ cmd.words, w.In (buf.takeWhile (· ≠ 0)) ∧ w.eq <:+ buf.takeWhile (· ≠ 0) ∧
      w.string after = w.bytes) ∧
    after.length = (buf.takeWhile (· ≠ 0)).length ∧
    ∀ i, after[i]? ≠ (buf.takeWhile (· ≠ 0))[i]? →
      ∃ w ∈ cmd.words, i = (buf.takeWhile (· ≠ 0)).length - w.eq.length := by
  have noNul := nul_not_mem_line buf
  have sound := parsewhole_sound (buf.takeWhile (· ≠ 0))
  rw [parsecmd] at accepted
  generalize buf.takeWhile (· ≠ 0) = s at *
  cases ran : parsewhole s.length s with
  | error halt =>
    rw [ran] at accepted
    cases accepted
  | ok out =>
    rw [ran] at accepted
    cases accepted
    obtain ⟨inside, -⟩ := sound.of_ok ran
    refine ⟨fun w member => ⟨inside w member, ?_, string_nulterminate noNul inside member⟩, ?_, ?_⟩
    · have suffix : w.eq <:+ w.q := ⟨w.bytes, (inside w member).parts.symm⟩
      exact suffix.trans (inside w member).inside
    · rw [nulterminate_eq_zeros, length_zeros]
    · intro i changed
      by_contra none
      rw [nulterminate_eq_zeros, getElem?_zeros] at changed
      simp [none] at changed

/-- The file of the line `a<f|b` is still `f`. -/
theorem redirected_file_keeps_text : ∃ cmd, parsecmd [97, 60, 102, 124, 98] =
    .ok (cmd, [97, 0, 102, 0, 98]) ∧ ∃ w ∈ cmd.words, w.string [97, 0, 102, 0, 98] = [102] := by
  have accepted : parsecmd [97, 60, 102, 124, 98] = .ok (.pipe
      (.redir (.exec [⟨[97, 60, 102, 124, 98], [60, 102, 124, 98]⟩]) ⟨[102, 124, 98], [124, 98]⟩
        O_RDONLY 0) (.exec [⟨[98], []⟩]), [97, 0, 102, 0, 98]) := rfl
  have file := (parsed_words_keep_text accepted).1 ⟨[102, 124, 98], [124, 98]⟩ (by decide)
  exact ⟨_, accepted, _, by decide, file.2.2⟩

end Xv6Uac.Shell
