import Xv6Uac.Fs.OpenFiles

/-!
# Writers that share an open file

Processes that have got one `struct file` through `fork` or `dup` write to it at the same time.
`filewrite` writes pieces of at most `writeMax` bytes, each one between `begin_op` and `end_op` with
the inode locked, and other writers can come in between two pieces. A piece is written at the
offset that it finds, and the offset is advanced before the inode is unlocked.

So the pieces follow each other in the file in the order of the critical sections, whoever
wrote them (`shared_writes_merge`): nothing is overwritten, no piece is torn, and the pieces of one
call are in order. A piece that would make the file too large is refused and ends its call.
-/

namespace Xv6Uac.SharedWrites

open Words Hoare TraceRun List

/-! ## Interleaved calls -/

/-- Where a writer is in `filewrite`: outside, in the loop with `i` bytes written, after it. -/
inductive Phase where
  | idle
  | writing (src : List UInt8) (i : ℕ)
  | returning (r : ℤ)

structure Writers where
  kernel : Kernel
  phase : ℕ → Phase

/-- What the writers do. -/
inductive Event where
  | called (w : ℕ) (src : List UInt8)
  | wrote (w : ℕ) (piece : List UInt8)
  | refused (w : ℕ)
  | returned (w : ℕ) (r : ℤ)

inductive Action where
  | call (w : ℕ) (src : List UInt8)
  | round (w : ℕ)
  | finish (w : ℕ)

def Writers.goto (s : Writers) (w : ℕ) (phase : Phase) : Writers :=
  { s with phase := Function.update s.phase w phase }

/-- The value of `filewrite` after its loop. -/
def result (n i : ℕ) : ℤ := if i = n then n else -1

/-- `filewrite` on a file that points to entry `k` of the inode cache, up to the loop, through one
round of the loop, and after it. A panic is no step. -/
def act (cfg : Config) (f k : ℕ) (s : Writers) : Action → Option (Event × Writers)
  | .call w src =>
    match s.phase w with
    | .idle => some (.called w src, s.goto w
        (if (s.kernel.ftable f).writable = false then .returning (-1) else .writing src 0))
    | _ => none
  | .round w =>
    match s.phase w with
    | .writing src i =>
      if i < src.length then
        match filewriteRound cfg f k ((src.drop i).take writeMax) s.kernel with
        | .ok (r, t) =>
          if r < 0 then
            some (.refused w, { s with kernel := t }.goto w (.returning (result src.length i)))
          else if r ≠ ((src.drop i).take writeMax).length then none
          else
            some (.wrote w ((src.drop i).take writeMax),
              { s with kernel := t }.goto w (.writing src (i + r.toNat)))
        | .error _ => none
      else none
    | _ => none
  | .finish w =>
    match s.phase w with
    | .writing src i =>
      if i < src.length then none
      else some (.returned w (result src.length i), s.goto w .idle)
    | .returning r => some (.returned w r, s.goto w .idle)
    | .idle => none

def Step (cfg : Config) (f k : ℕ) (s : Writers) (e : Event) (t : Writers) : Prop :=
  ∃ a, act cfg f k s a = some (e, t)

/-! ## What a trace tells -/

/-- The pieces that are written, in order, with their writers. -/
def written : List Event → List (ℕ × List UInt8)
  | [] => []
  | .wrote w piece :: older => written older ++ [(w, piece)]
  | .called _ _ :: older | .refused _ :: older | .returned _ _ :: older => written older

/-- A call of `filewrite`, with the pieces it has written and its value. -/
structure Record where
  src : List UInt8
  pieces : List (List UInt8)
  value : Option ℤ

/-- The calls of a writer, the latest first. -/
def records (w : ℕ) : List Event → List Record
  | [] => []
  | .called v src :: older => if v = w then ⟨src, [], none⟩ :: records w older else records w older
  | .wrote v piece :: older =>
    if v = w then
      (records w older).modifyHead fun call => { call with pieces := call.pieces ++ [piece] }
    else records w older
  | .refused _ :: older => records w older
  | .returned v r :: older =>
    if v = w then (records w older).modifyHead fun call => { call with value := some r }
    else records w older

/-- The pieces of a list of bytes. -/
def piecesOf (src : List UInt8) : List (List UInt8) :=
  (List.range ((src.length + (writeMax - 1)) / writeMax)).map fun j =>
    (src.drop (j * writeMax)).take writeMax

/-- A call has written the first pieces of its bytes, and all of them if it returns their number.
Otherwise it returns -1. -/
def Record.InOrder (call : Record) : Prop :=
  call.pieces <+: piecesOf call.src ∧
    ∀ r, call.value = some r → r = -1 ∨ r = call.src.length ∧ call.pieces = piecesOf call.src

/-! ## The calls of one writer -/

variable {cfg : Config} {f k w : ℕ} {s t u : Writers} {e : Event} {trace : List Event}
  {src : List UInt8}

/-- The last call of a writer, as far as it has come. -/
def Last (calls : List Record) : Phase → Prop
  | .idle => True
  | .writing src i => ∃ j older, calls = ⟨src, (piecesOf src).take j, none⟩ :: older ∧
      j ≤ (piecesOf src).length ∧ i = min (j * writeMax) src.length
  | .returning r => r = -1 ∧ ∃ src j older, calls = ⟨src, (piecesOf src).take j, none⟩ :: older

theorem getElem_piecesOf {j : ℕ} (inside : j * writeMax < src.length) :
    (piecesOf src)[j]? = some ((src.drop (j * writeMax)).take writeMax) := by
  have small : j < (src.length + (writeMax - 1)) / writeMax := by
    rw [Nat.lt_div_iff_mul_lt (by decide)]
    omega
  simp [piecesOf, small]

/-- The next piece. -/
theorem take_succ_piecesOf {j : ℕ} (inside : j * writeMax < src.length) :
    (piecesOf src).take (j + 1) =
      (piecesOf src).take j ++ [(src.drop (j * writeMax)).take writeMax] := by
  rw [take_add_one, getElem_piecesOf inside]
  rfl

theorem length_piecesOf_le {j : ℕ} (enough : src.length ≤ j * writeMax) :
    (piecesOf src).length ≤ j := by
  rw [piecesOf, length_map, length_range]
  refine Nat.le_of_lt_succ ((Nat.div_lt_iff_lt_mul (by decide)).mpr ?_)
  have : 0 < writeMax := by decide
  rw [Nat.succ_mul]
  omega

theorem lt_length_piecesOf {j : ℕ} (inside : j * writeMax < src.length) :
    j < (piecesOf src).length := by
  by_contra none
  have := getElem_piecesOf inside
  rw [List.getElem?_eq_none (by omega)] at this
  cases this

/-- What is known of the calls of a writer. -/
structure Follows (calls : List Record) (phase : Phase) : Prop where
  last : Last calls phase
  inOrder : ∀ call ∈ calls, call.InOrder

theorem inOrder_of_unfinished (j : ℕ) : Record.InOrder ⟨src, (piecesOf src).take j, none⟩ :=
  ⟨List.take_prefix _ _, fun _ returned => nomatch returned⟩

namespace Follows

variable {calls : List Record} {phase : Phase} {i : ℕ}

theorem called (follows : Follows calls phase) (src : List UInt8) :
    Follows (⟨src, [], none⟩ :: calls) (.writing src 0) ∧
      Follows (⟨src, [], none⟩ :: calls) (.returning (-1)) := by
  have all : ∀ call ∈ (⟨src, [], none⟩ :: calls : List Record), call.InOrder := by
    intro call member
    obtain rfl | member := List.mem_cons.mp member
    · exact inOrder_of_unfinished 0
    · exact follows.inOrder call member
  exact ⟨⟨⟨0, calls, rfl, Nat.zero_le _, by simp⟩, all⟩, ⟨rfl, src, 0, calls, rfl⟩, all⟩

/-- A piece is the next one of the call. -/
theorem wrote (follows : Follows calls (.writing src i)) (more : i < src.length) :
    ∃ call older, calls = call :: older ∧ Follows
      ({ call with pieces := call.pieces ++ [(src.drop i).take writeMax] } :: older)
      (.writing src (i + ((src.drop i).take writeMax).length)) := by
  obtain ⟨j, older, rfl, few, count⟩ := follows.last
  have inside : j * writeMax < src.length := by omega
  obtain rfl : i = j * writeMax := by omega
  refine ⟨_, older, rfl, ⟨j + 1, older, ?_, lt_length_piecesOf inside, ?_⟩, fun call member => ?_⟩
  · rw [take_succ_piecesOf inside]
  · rw [length_take, length_drop, Nat.succ_mul]
    omega
  · obtain rfl | member := List.mem_cons.mp member
    · rw [← take_succ_piecesOf inside]
      exact inOrder_of_unfinished _
    · exact follows.inOrder call (mem_cons_of_mem _ member)

theorem refused (follows : Follows calls (.writing src i)) (more : i < src.length) :
    Follows calls (.returning (result src.length i)) := by
  obtain ⟨j, older, rfl, -⟩ := follows.last
  exact ⟨⟨if_neg (by omega), src, j, older, rfl⟩, follows.inOrder⟩

/-- A call that has written all pieces returns their length, any other one -1. -/
theorem returned (follows : Follows calls phase) {r : ℤ}
    (value : phase = .returning r ∨ ∃ i, phase = .writing src i ∧ ¬i < src.length ∧
      r = result src.length i) :
    ∃ call older, calls = call :: older ∧
      Follows ({ call with value := some r } :: older) .idle := by
  obtain rfl | ⟨i, rfl, done, rfl⟩ := value
  · obtain ⟨rfl, src, j, older, rfl⟩ := follows.last
    refine ⟨_, older, rfl, trivial, fun call member => ?_⟩
    obtain rfl | member := List.mem_cons.mp member
    · exact ⟨List.take_prefix _ _, fun r same => .inl (Option.some.inj same).symm⟩
    · exact follows.inOrder call (mem_cons_of_mem _ member)
  · obtain ⟨j, older, rfl, few, count⟩ := follows.last
    have all : (piecesOf src).take j = piecesOf src :=
      take_of_length_le (length_piecesOf_le (by omega))
    refine ⟨_, older, rfl, trivial, fun call member => ?_⟩
    obtain rfl | member := List.mem_cons.mp member
    · refine ⟨List.take_prefix _ _, fun r same => .inr ⟨?_, all⟩⟩
      rw [← Option.some.inj same, result, if_pos (by omega)]
    · exact follows.inOrder call (mem_cons_of_mem _ member)

end Follows

/-! ## What a step does -/

/-- The steps, one constructor for each outcome. -/
inductive Acts (cfg : Config) (f k : ℕ) (s : Writers) : Event → Writers → Prop where
  | called {w : ℕ} {src : List UInt8} (idle : s.phase w = .idle) :
      Acts cfg f k s (.called w src) (s.goto w
        (if (s.kernel.ftable f).writable = false then .returning (-1) else .writing src 0))
  | refused {w i : ℕ} {src : List UInt8} {r : ℤ} {t : Kernel} (loop : s.phase w = .writing src i)
      (more : i < src.length)
      (ran : filewriteRound cfg f k ((src.drop i).take writeMax) s.kernel = .ok (r, t))
      (failed : r < 0) :
      Acts cfg f k s (.refused w) ({ s with kernel := t }.goto w (.returning (result src.length i)))
  | wrote {w i : ℕ} {src : List UInt8} {t : Kernel} (loop : s.phase w = .writing src i)
      (more : i < src.length)
      (ran : filewriteRound cfg f k ((src.drop i).take writeMax) s.kernel =
        .ok (((src.drop i).take writeMax).length, t)) :
      Acts cfg f k s (.wrote w ((src.drop i).take writeMax))
        ({ s with kernel := t }.goto w
          (.writing src (i + ((src.drop i).take writeMax).length)))
  | returned {w : ℕ} {src : List UInt8} {r : ℤ} (value : s.phase w = .returning r ∨
      ∃ i, s.phase w = .writing src i ∧ ¬i < src.length ∧ r = result src.length i) :
      Acts cfg f k s (.returned w r) (s.goto w .idle)

theorem acts_of_step (taken : Step cfg f k s e t) : Acts cfg f k s e t := by
  obtain ⟨a, done⟩ := taken
  cases a with
  | call w src =>
    simp only [act] at done
    split at done
    · rename_i idle
      cases done
      exact .called idle
    · cases done
  | round w =>
    simp only [act] at done
    split at done
    · rename_i src i loop
      split at done
      · rename_i more
        split at done
        · rename_i r u ran
          split at done
          · rename_i failed
            cases done
            exact .refused loop more ran failed
          · split at done
            · cases done
            · rename_i whole
              obtain rfl := not_not.mp whole
              cases done
              exact .wrote loop more ran
        · cases done
      · cases done
    · cases done
  | finish w =>
    simp only [act] at done
    split at done
    · rename_i src i loop
      split at done
      · cases done
      · rename_i finished
        cases done
        exact .returned (.inr ⟨i, loop, finished, rfl⟩)
    · rename_i r value
      cases done
      exact @Acts.returned cfg f k s w [] r (.inl value)
    · cases done

/-- All bytes that are written, in order. -/
def stream (trace : List Event) : List UInt8 := ((written trace).map Prod.snd).flatten

/-- The file shows the stream from the first offset on. -/
structure Shows (cfg : Config) (f k : ℕ) (a : OpenFile) (trace : List Event) (s : Kernel) : Prop where
  attached : Attached cfg s f k
  start : written trace ≠ [] → a.off ≤ a.bytes.length
  view : view s f k = ⟨ByteFile.write a.bytes a.off (stream trace), a.off + (stream trace).length⟩

namespace Shows

variable {a : OpenFile} {kernel after : Kernel} {piece : List UInt8} {r : ℤ}

theorem initially (attached : Attached cfg kernel f k) :
    Shows cfg f k (Xv6Uac.view kernel f k) [] kernel where
  attached := attached
  start none := absurd rfl none
  view := by simp [stream, written, ByteFile.write_nil]

section

variable (shows : Shows cfg f k a trace kernel)
include shows

/-- A round leaves the file attached, with the file and the offset that it is meant to leave. -/
theorem round (log : LOGSIZE ≤ cfg.sb.nlog) (writable : (kernel.ftable f).writable = true)
    (few : piece.length ≤ writeMax) (ran : filewriteRound cfg f k piece kernel = .ok (r, after)) :
    Attached cfg after f k ∧ (after.ftable f).writable = true ∧
      ((r = piece.length ∧ (Xv6Uac.view kernel f k).off ≤ (Xv6Uac.view kernel f k).bytes.length ∧
        Xv6Uac.view after f k = ⟨ByteFile.write (Xv6Uac.view kernel f k).bytes
          (Xv6Uac.view kernel f k).off piece, (Xv6Uac.view kernel f k).off + piece.length⟩) ∨
      r = -1 ∧ Xv6Uac.view after f k = Xv6Uac.view kernel f k) := by
  have attached := shows.attached
  obtain ⟨L, inv⟩ := attached.inv
  have writes : Writes kernel f k := ⟨attached.points, writable⟩
  have length : (Xv6Uac.view kernel f k).bytes.length =
      (kernel.dinode (kernel.icache k).inum).size := length_bytesOf _ _
  obtain ⟨since, writesAfter⟩ := (filewriteRound_safe (.refl inv) attached.inside writes piece).of_ok ran
  have unlocked := (filewriteRound_locked (A := False) (N := False) attached.unlocked inv
    attached.inside writes piece).of_ok ran
  have outcome := (attached.filewriteRound (A := False) (b := 0) log few nofun).of_ok ran
  obtain ⟨⟨start, -⟩, count, moved, -⟩ | ⟨-, failed, moved⟩ := outcome
  · exact ⟨attached.moved moved since.inv unlocked, writesAfter.2,
      .inl ⟨count, length ▸ start, moved.view⟩⟩
  · exact ⟨attached.moved moved since.inv unlocked, writesAfter.2, .inr ⟨failed, moved.view⟩⟩

theorem quiet (attached : Attached cfg after f k)
    (same : Xv6Uac.view after f k = Xv6Uac.view kernel f k)
    (nothing : written (e :: trace) = written trace) : Shows cfg f k a (e :: trace) after where
  attached := attached
  start := nothing ▸ shows.start
  view := by rw [same, shows.view, stream, stream, nothing]

/-- The next piece goes to the end of the stream. -/
theorem wrote (attached : Attached cfg after f k)
    (start : (Xv6Uac.view kernel f k).off ≤ (Xv6Uac.view kernel f k).bytes.length)
    (moved : Xv6Uac.view after f k = ⟨ByteFile.write (Xv6Uac.view kernel f k).bytes
      (Xv6Uac.view kernel f k).off piece, (Xv6Uac.view kernel f k).off + piece.length⟩) :
    Shows cfg f k a (.wrote w piece :: trace) after := by
  have first : a.off ≤ a.bytes.length := by
    by_cases none : written trace = []
    · simpa [shows.view, stream, none, ByteFile.write_nil] using start
    · exact shows.start none
  have more : stream (.wrote w piece :: trace) = stream trace ++ piece := by
    simp [stream, written]
  refine ⟨attached, fun _ => first, ?_⟩
  rw [moved, shows.view, more, length_append, ← Nat.add_assoc]
  simp only [ByteFile.write_write first]

end

end Shows

/-! ## Runs -/

/-- What holds after every run. -/
structure Sound (cfg : Config) (f k : ℕ) (a : OpenFile) (trace : List Event) (s : Writers) :
    Prop where
  shows : Shows cfg f k a trace s.kernel
  writable : ∀ {w : ℕ} {src : List UInt8} {i : ℕ}, s.phase w = .writing src i →
    (s.kernel.ftable f).writable = true
  follows : ∀ w, Follows (records w trace) (s.phase w)
  merged : ∀ w, ((written trace).filter (·.1 = w)).map Prod.snd =
    (records w trace).reverse.flatMap Record.pieces

namespace Sound

variable {a : OpenFile}

theorem initially {kernel : Kernel} (attached : Attached cfg kernel f k) :
    Sound cfg f k (view kernel f k) [] ⟨kernel, fun _ => .idle⟩ where
  shows := .initially attached
  writable loop := nomatch loop
  follows _ := ⟨trivial, nofun⟩
  merged _ := rfl

section

variable (sound : Sound cfg f k a trace s)
include sound

variable {kernel : Kernel} {i : ℕ}

/-- The step of a writer leaves what is known of the others. -/
theorem follows_goto {phase : Phase}
    (others : ∀ v, v ≠ w → records v (e :: trace) = records v trace)
    (own : Follows (records w (e :: trace)) phase) (v : ℕ) :
    Follows (records v (e :: trace)) (({ s with kernel := kernel }.goto w phase).phase v) := by
  rw [Writers.goto]
  obtain rfl | other := eq_or_ne v w
  · simpa using own
  · simpa [others v other, other] using sound.follows v

theorem writable_goto {phase : Phase}
    (kept : (s.kernel.ftable f).writable = true → (kernel.ftable f).writable = true)
    (own : ∀ src i, phase = .writing src i → (kernel.ftable f).writable = true) {v : ℕ}
    {src : List UInt8}
    (loop : ({ s with kernel := kernel }.goto w phase).phase v = .writing src i) :
    (kernel.ftable f).writable = true := by
  rw [Writers.goto] at loop
  obtain rfl | other := eq_or_ne v w
  · exact own src i (by simpa using loop)
  · exact kept (sound.writable (by simpa [other] using loop))

theorem called :
    Sound cfg f k a (.called w src :: trace) (s.goto w
      (if (s.kernel.ftable f).writable = false then .returning (-1) else .writing src 0)) where
  shows := sound.shows.quiet sound.shows.attached rfl rfl
  writable loop := by
    refine sound.writable_goto id (fun src i starts => ?_) loop
    split at starts
    · cases starts
    · rename_i isOpen
      exact Bool.eq_true_of_not_eq_false isOpen
  follows := by
    refine sound.follows_goto (fun v other => if_neg other.symm) ?_
    rw [records, if_pos rfl]
    have both := (sound.follows w).called src
    split
    · exact both.2
    · exact both.1
  merged v := by
    rw [records, written, sound.merged v]
    split
    · simp
    · rfl

theorem refused (log : LOGSIZE ≤ cfg.sb.nlog) {r : ℤ} (loop : s.phase w = .writing src i)
    (more : i < src.length)
    (ran : filewriteRound cfg f k ((src.drop i).take writeMax) s.kernel = .ok (r, kernel))
    (failed : r < 0) :
    Sound cfg f k a (.refused w :: trace)
      ({ s with kernel := kernel }.goto w (.returning (result src.length i))) := by
  have few : ((src.drop i).take writeMax).length ≤ writeMax := length_take_le _ _
  obtain ⟨attached, writable, outcome⟩ := sound.shows.round log (sound.writable loop) few ran
  have same : view kernel f k = view s.kernel f k := by
    obtain ⟨count, -⟩ | ⟨-, same⟩ := outcome
    · omega
    · exact same
  refine ⟨sound.shows.quiet attached same rfl, fun loop => sound.writable_goto (fun _ => writable)
    (fun _ _ starts => by cases starts) loop, sound.follows_goto (fun v _ => rfl) ?_, sound.merged⟩
  have follows := sound.follows w
  rw [loop] at follows
  exact follows.refused more

theorem wrote (log : LOGSIZE ≤ cfg.sb.nlog) (loop : s.phase w = .writing src i)
    (more : i < src.length)
    (ran : filewriteRound cfg f k ((src.drop i).take writeMax) s.kernel =
      .ok (((src.drop i).take writeMax).length, kernel)) :
    Sound cfg f k a (.wrote w ((src.drop i).take writeMax) :: trace)
      ({ s with kernel := kernel }.goto w
        (.writing src (i + ((src.drop i).take writeMax).length))) := by
  have few : ((src.drop i).take writeMax).length ≤ writeMax := length_take_le _ _
  obtain ⟨attached, writable, outcome⟩ := sound.shows.round log (sound.writable loop) few ran
  have follows := sound.follows w
  rw [loop] at follows
  obtain ⟨call, older, calls, next⟩ := follows.wrote more
  obtain ⟨-, start, moved⟩ | ⟨failed, -⟩ := outcome
  swap
  · omega
  refine ⟨sound.shows.wrote attached start moved, fun loop => sound.writable_goto
    (fun _ => writable) (fun _ _ _ => writable) loop,
    sound.follows_goto (fun v other => if_neg other.symm) ?_, fun v => ?_⟩
  · rwa [records, if_pos rfl, calls]
  · have merged := sound.merged v
    rw [records, written, filter_append, map_append, merged]
    split
    · rename_i same
      subst same
      simp [calls]
    · rename_i other
      simp [other]

theorem returned {r : ℤ}
    (value : s.phase w = .returning r ∨
    ∃ i, s.phase w = .writing src i ∧ ¬i < src.length ∧ r = result src.length i) :
    Sound cfg f k a (.returned w r :: trace) (s.goto w .idle) := by
  obtain ⟨call, older, calls, next⟩ := (sound.follows w).returned value
  refine ⟨sound.shows.quiet sound.shows.attached rfl rfl,
    fun loop => sound.writable_goto id (fun _ _ starts => by cases starts) loop,
    sound.follows_goto (fun v other => if_neg other.symm) ?_, fun v => ?_⟩
  · rwa [records, if_pos rfl, calls]
  · rw [records, written, sound.merged v]
    split
    · rename_i same
      subst same
      simp [calls]
    · rfl

theorem step (log : LOGSIZE ≤ cfg.sb.nlog) (taken : Step cfg f k s e t) :
    Sound cfg f k a (e :: trace) t := by
  cases acts_of_step taken with
  | called idle => exact sound.called
  | refused loop more ran failed => exact sound.refused log loop more ran failed
  | wrote loop more ran => exact sound.wrote log loop more ran
  | returned value => exact sound.returned value

/-- A round is not stopped if its piece finds the blocks that it needs. -/
theorem goes_on (log : LOGSIZE ≤ cfg.sb.nlog) (loop : s.phase w = .writing src i)
    (more : i < src.length)
    (funds : (lacking s.kernel.data (s.kernel.dinode (s.kernel.icache k).inum)
      (wanted (s.kernel.ftable f).off ((src.drop i).take writeMax).length)).card ≤
        freeBlocks cfg s.kernel) : (act cfg f k s (.round w)).isSome := by
  have few : ((src.drop i).take writeMax).length ≤ writeMax := length_take_le _ _
  obtain ⟨r, kernel, ran, outcome⟩ := ((sound.shows.attached.filewriteRound (b := 0) log
    few fun _ _ _ => funds).weaken fun _ short => short trivial).exists_ok
  simp only [act, loop, if_pos more, ran]
  obtain ⟨-, count, -⟩ | ⟨-, failed, -⟩ := outcome
  · rw [if_neg (by omega), if_neg (by omega)]
    rfl
  · rw [if_pos (by omega)]
    rfl

end

end Sound

/-- **Shared descriptors lose no writes.** Any number of writers call `filewrite` on one open file,
and their rounds are interleaved in any way. From the first offset on the file has the pieces that
were written, one after the other, and the offset has advanced by their lengths. The pieces of each
writer are those of its calls, in order, and a call that returns the number of its bytes has written
all of its pieces. A round that finds the blocks that it needs is not stopped. -/
theorem shared_writes_merge (cfg : Config) (log : LOGSIZE ≤ cfg.sb.nlog) (s : Kernel) (f k : ℕ)
    (attached : Attached cfg s f k) (trace : List Event) (t : Writers)
    (run : Run (Step cfg f k) ⟨s, fun _ => .idle⟩ trace t) :
    (view t.kernel f k).bytes = ByteFile.write (view s f k).bytes (view s f k).off
        ((written trace).map Prod.snd).flatten ∧
      (view t.kernel f k).off =
        (view s f k).off + ((written trace).map fun piece => piece.2.length).sum ∧
      (∀ w, ((written trace).filter (·.1 = w)).map Prod.snd =
          (records w trace).reverse.flatMap Record.pieces ∧
        ∀ call ∈ records w trace, call.InOrder) ∧
      ∀ w src i, t.phase w = .writing src i → i < src.length →
        (lacking t.kernel.data (t.kernel.dinode (t.kernel.icache k).inum)
          (wanted (t.kernel.ftable f).off ((src.drop i).take writeMax).length)).card ≤
            freeBlocks cfg t.kernel →
        (act cfg f k t (.round w)).isSome := by
  have sound : Sound cfg f k (view s f k) trace t :=
    run.invariant (.initially attached) fun sound taken => sound.step log taken
  refine ⟨?_, ?_, fun w => ⟨sound.merged w, (sound.follows w).inOrder⟩,
    fun w src i loop more funds => sound.goes_on log loop more funds⟩
  · rw [sound.shows.view]
    rfl
  · rw [sound.shows.view]
    simp [stream, Function.comp_def]

open SmallImage in
/-- Two writers on a new file. The second one writes its byte between the two pieces of the first
one. -/
theorem shared_writes_merge_of_two :
    ∃ s t trace, Attached SmallImage.cfg s 0 1 ∧
      Run (Step SmallImage.cfg 0 1) ⟨s, fun _ => .idle⟩ trace t ∧
      (written trace).map (fun piece => (piece.1, piece.2.length)) = [(0, 1536), (1, 1), (0, 1)] ∧
      (view t.kernel 0 1).off = (view s 0 1).off + 1538 := by
  have played : (play SmallImage.cfg (imageOf rootOnly).boot [⟨0, .open [120] 0o76, 0⟩]).any
      (fun s => looksOpen s 0 1 &&
        (replay (fun a s => act SmallImage.cfg 0 1 s a) ⟨s, fun _ => .idle⟩
          [.round 0, .round 1, .round 0, .call 1 [7], .call 0 (List.replicate 1537 5)]).any
            fun (trace, _) => (written trace).map (fun piece => (piece.1, piece.2.length)) ==
              [(0, 1536), (1, 1), (0, 1)]) = true := by decide +kernel
  obtain ⟨s, opened, check⟩ := opened_of_play (rootOnly_formed.wellFormed rfl) played
  have steps : ∀ a s e t, act SmallImage.cfg 0 1 s a = some (e, t) → Step SmallImage.cfg 0 1 s e t :=
    fun a _ _ _ done => ⟨a, done⟩
  obtain ⟨trace, t, run, pieces⟩ := Run.exists_of_replay steps check
  have pieces := beq_iff_eq.mp pieces
  obtain ⟨-, advanced, -⟩ := shared_writes_merge SmallImage.cfg (by decide) s 0 1 opened.attached
    trace t run
  refine ⟨s, t, trace, opened.attached, run, pieces, advanced.trans ?_⟩
  have lengths := congrArg (List.map Prod.snd) pieces
  rw [map_map] at lengths
  exact congrArg (fun lengths => _ + List.sum lengths) lengths

end Xv6Uac.SharedWrites
