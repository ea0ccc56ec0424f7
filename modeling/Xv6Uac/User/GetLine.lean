import Xv6Uac.User.Lines
import Xv6Uac.User.Strings
import Xv6Uac.Lib.Separated

/-!
# `getline` byte by byte

`getline` of `ufile.c` with its buffer, its indices and the line buffer of its caller, which grows
by `realloc`. Every access is compared with the bounds of the array it is meant for. The memory from
`buf` on is a function: the indices from `BUFSIZE` on are outside of the array.

The lines and offsets are those of `Accounts.getline`, which takes a piece of the file at a time
(`byteLoop_refines`). The loop looks at `buf[128]` when a piece of 128 bytes has no newline, and
the first `realloc` copies four times the bytes of the line buffer. So the accesses are inside
if and only if the line is short (`getline_enumerates_lines`).
-/

namespace Xv6Uac.Accounts

open Programs List

/-! ## The function -/

/-- What a caller hands to `getline` as `*line` and `*linesize`: a block of at least `*linesize`
bytes. -/
structure LineBuffer where
  block : Bytes
  size : ℕ
  least : 2 ≤ size
  fits : size ≤ block.length

/-- The local variables of `getline`, with the caller's `*line` and `*linesize`. `inside` says
whether all accesses so far were inside of their arrays. -/
structure Frame where
  buf : ℕ → UInt8
  i : ℕ
  n : ℕ
  lineptr : ℕ
  block : Bytes
  size : ℕ
  inside : Bool

/-- What `getline` returns and stores. -/
structure Outcome where
  code : ℤ
  block : Bytes
  size : ℕ
  offset : ℤ
  inside : Bool

namespace Frame

variable (f : Frame)

/-- The access `buf[i]` of the loop condition. -/
def check : Frame := { f with inside := f.inside && decide (f.i < BUFSIZE) }

/-- `(*line)[lineptr++] = c`. -/
def store (c : UInt8) : Frame :=
  { f with
    block := ByteFile.write f.block f.lineptr [c]
    lineptr := f.lineptr + 1
    inside := f.inside && decide (f.lineptr < f.block.length) }

/-- `realloc(*line, *linesize, *linesize)`, which reads as many words as there are bytes. -/
def grow (junk : ℕ → UInt8) : Frame :=
  { f with
    block := realloc junk f.block f.size f.size
    size := f.size * 2
    inside := f.inside && decide (f.size * 4 ≤ f.block.length) }

/-- The end of the loop body. -/
def copy (junk : ℕ → UInt8) : Frame :=
  let f := if f.size ≤ f.lineptr + 2 then f.grow junk else f
  { f.store (f.buf f.i) with i := f.i + 1 }

/-- The buffer after `read` has returned some bytes. -/
def fill (data : Bytes) : Frame :=
  { f with
    buf := fun j =>
      if j < data.length then data.getD j 0
      else if j = data.length ∧ data.length < BUFSIZE then 0
      else f.buf j
    i := 0
    n := data.length }

/-- The line is ended and `getline` returns 0. -/
def finish (offset : ℤ) : Outcome :=
  let f := f.store 0
  ⟨0, f.block, f.size, offset + f.lineptr, f.inside⟩

end Frame

/-- The loop of `getline`. -/
def byteLoop (junk : ℕ → UInt8) (fd offset : ℤ) : ℕ → Frame → P Outcome
  | 0, _ => .undefined
  | k + 1, f =>
    let f := f.check
    if f.buf f.i = newline then pure (f.finish offset)
    else if f.n ≤ f.i then do
      let (n, data) ← read fd BUFSIZE
      if n ≤ 0 then
        pure (if f.lineptr = 0 then ⟨-1, f.block, f.size, offset, f.inside⟩ else f.finish offset)
      else byteLoop junk fd offset k (f.fill data)
    else byteLoop junk fd offset k (f.copy junk)

/-- Every two rounds of the loop move on by a byte. -/
abbrev BYTEROUNDS : ℕ := 2 * ROUNDS + 1

/-- `getline`, with the memory from `buf` on as it is found. -/
def byteGetline (junk mem : ℕ → UInt8) (fd : ℤ) (block : Bytes) (size : ℕ) (offset : ℤ) :
    P Outcome := do
  let _ ← lseek fd offset 0
  byteLoop junk fd offset BYTEROUNDS ⟨mem, 0, 0, 0, block, size, true⟩

/-- The lines that a loop over `getline` reads, up to the call that does not return 0. The memory
that a call finds may be another one each time. -/
def byteLines (junk mem : ℕ → ℕ → UInt8) (fd : ℤ) :
    ℕ → Bytes → ℕ → ℤ → P (List Bytes)
  | 0, _, _, _ => .undefined
  | k + 1, block, size, offset => do
    let o ← byteGetline (junk k) (mem k) fd block size offset
    if o.code = 0 then do
      let rest ← byteLines junk mem fd k o.block o.size o.offset
      pure (o.block.take (o.offset - offset - 1).toNat :: rest)
    else pure []

/-! ## Copying a piece -/

/-- The frame after the text has been put into a line buffer that was `line` at first. `clean` says
whether `buf` was read inside of its bounds. -/
structure Holds (line : LineBuffer) (text : Bytes) (clean : Prop) (f : Frame) : Prop where
  lineptr : f.lineptr = text.length
  copied : f.block.take text.length = text
  room : text.length + 1 < f.size
  fits : f.size ≤ f.block.length
  grown : f.size = line.size ∧ f.block.length = line.block.length ∨
    line.size ≤ text.length + 1 ∧ f.size * 4 ≤ f.block.length
  inside : f.inside = true ↔
    clean ∧ (text.length + 1 < line.size ∨ line.size * 4 ≤ line.block.length)

section Copying

variable {junk : ℕ → UInt8} {line : LineBuffer} {text data : Bytes} {clean : Prop} {f : Frame}
  {fd offset : ℤ} {c : UInt8}

theorem take_write_singleton {block : Bytes} {n : ℕ} (inside : n < block.length) :
    (ByteFile.write block n [c]).take (n + 1) = block.take n ++ [c] := by
  have length : (block.take n ++ [c]).length = n + 1 := by
    simp [Nat.min_eq_left inside.le]
  rw [ByteFile.write, ← length, take_left]

section

variable (holds : Holds line text clean f)
include holds

/-- The line is ended by a NUL behind its text. -/
theorem Holds.finish (offset : ℤ) :
    Terminated (f.finish offset).block text ∧ (f.finish offset).offset = offset + text.length + 1 ∧
      ((f.finish offset).inside = true ↔
        clean ∧ (text.length + 1 < line.size ∨ line.size * 4 ≤ line.block.length)) ∧
      (text.length + 1 < line.size →
        (f.finish offset).size = line.size ∧ (f.finish offset).block.length = line.block.length) := by
  have room := holds.room
  have fits := holds.fits
  have below : f.lineptr < f.block.length := by
    rw [holds.lineptr]
    omega
  refine ⟨⟨f.block.drop (text.length + 1), ?_⟩, ?_, ?_, fun short => ?_⟩
  · simp only [Frame.finish, Frame.store, ByteFile.write, holds.lineptr, holds.copied]
    simp
  · simp only [Frame.finish, Frame.store, holds.lineptr]
    omega
  · simp only [Frame.finish, Frame.store, Bool.and_eq_true, decide_eq_true_eq]
    rw [holds.inside]
    exact and_iff_left below
  · rcases holds.grown with ⟨size, length⟩ | ⟨grown, -⟩
    · refine ⟨size, ?_⟩
      simp only [Frame.finish, Frame.store]
      rw [ByteFile.length_write below.le, length_singleton]
      omega
    · omega

/-- There is room for one more byte, after the block has grown if need be. -/
theorem Holds.grow (junk : ℕ → UInt8) {g : Frame}
    (next : g = if f.size ≤ f.lineptr + 2 then f.grow junk else f) :
    g.buf = f.buf ∧ g.i = f.i ∧ g.lineptr = text.length ∧ g.block.take text.length = text ∧
      text.length + 2 < g.size ∧ g.size ≤ g.block.length ∧
      (g.size = line.size ∧ g.block.length = line.block.length ∨
        line.size ≤ text.length + 2 ∧ g.size * 4 ≤ g.block.length) ∧
      (g.inside = true ↔
        clean ∧ (text.length + 2 < line.size ∨ line.size * 4 ≤ line.block.length)) := by
  obtain ⟨lineptr, copied, room, fits, grown, inside⟩ := holds
  by_cases full : f.size ≤ f.lineptr + 2
  · rw [if_pos full] at next
    subst next
    have kept : (realloc junk f.block f.size f.size).take text.length = text := by
      rw [realloc, ByteFile.write_zero, take_append_of_le_length, take_take,
        Nat.min_eq_left (by omega), copied]
      rw [length_take]
      omega
    refine ⟨rfl, rfl, lineptr, kept, ?_, ?_, .inr ⟨?_, ?_⟩, ?_⟩
    · simp only [Frame.grow]
      omega
    · simp only [Frame.grow, length_realloc]
      omega
    · rcases grown with ⟨same, -⟩ | ⟨short, -⟩ <;> omega
    · simp only [Frame.grow, length_realloc]
      omega
    · simp only [Frame.grow, Bool.and_eq_true, decide_eq_true_eq, inside, and_assoc]
      refine and_congr_right fun _ => ?_
      rcases grown with ⟨same, length⟩ | ⟨short, large⟩
      · omega
      · omega
  · rw [if_neg full] at next
    subst next
    refine ⟨rfl, rfl, lineptr, copied, by omega, fits, ?_, ?_⟩
    · apply grown.imp_right
      rintro ⟨short, large⟩
      exact ⟨by omega, large⟩
    · rw [inside]
      refine and_congr_right fun _ => ?_
      rcases grown with ⟨same, -⟩ | ⟨short, -⟩ <;> omega

/-- A byte is copied. -/
theorem Holds.copy (junk : ℕ → UInt8) (byte : f.buf f.i = c) :
    Holds line (text ++ [c]) clean (f.copy junk) := by
  obtain ⟨buf, i, lineptr, copied, room, fits, grown, inside⟩ := holds.grow junk rfl
  simp only [Frame.copy, Frame.store]
  generalize (if f.size ≤ f.lineptr + 2 then f.grow junk else f) = g at *
  have below : g.lineptr < g.block.length := by omega
  have length : (ByteFile.write g.block g.lineptr [g.buf g.i]).length = g.block.length := by
    rw [ByteFile.length_write below.le, length_singleton]
    omega
  have more : (text ++ [c]).length = text.length + 1 := by simp
  refine ⟨?_, ?_, ?_, ?_, ?_, ?_⟩
  · rw [more, lineptr]
  · rw [more, ← lineptr, take_write_singleton below, lineptr, copied, buf, i, byte]
  · rwa [more]
  · rwa [length]
  · rwa [length, more]
  · rwa [more, Bool.and_eq_true, decide_eq_true_eq, and_iff_left below]

theorem Holds.check : Holds line text (clean ∧ f.i < BUFSIZE) f.check := by
  refine ⟨holds.lineptr, holds.copied, holds.room, holds.fits, holds.grown, ?_⟩
  simp only [Frame.check, Bool.and_eq_true, decide_eq_true_eq, holds.inside]
  tauto

theorem Holds.fill (data : Bytes) : Holds line text clean (f.fill data) :=
  ⟨holds.lineptr, holds.copied, holds.room, holds.fits, holds.grown, holds.inside⟩

end

theorem copy_buf (f : Frame) : (f.copy junk).buf = f.buf := by
  simp only [Frame.copy]
  split <;> rfl

theorem copy_i (f : Frame) : (f.copy junk).i = f.i + 1 := by
  simp only [Frame.copy]
  split <;> rfl

theorem copy_n (f : Frame) : (f.copy junk).n = f.n := by
  simp only [Frame.copy]
  split <;> rfl

/-- A run of bytes without a newline is copied. -/
theorem byteLoop_copies (junk : ℕ → UInt8) (fd offset : ℤ) (holds : Holds line text clean f)
    (bytes : Bytes) (k : ℕ)
    (there : ∀ j, j < bytes.length → f.buf (f.i + j) = bytes.getD j 0) (plain : newline ∉ bytes)
    (most : f.i + bytes.length ≤ f.n) (bound : f.n ≤ BUFSIZE) :
    ∃ g, byteLoop junk fd offset (k + bytes.length) f = byteLoop junk fd offset k g ∧
      Holds line (text ++ bytes) clean g ∧ g.buf = f.buf ∧ g.i = f.i + bytes.length ∧ g.n = f.n := by
  induction bytes generalizing f text with
  | nil => exact ⟨f, rfl, by rwa [append_nil], rfl, rfl, rfl⟩
  | cons b bytes ih =>
    have here : f.buf f.i = b := there 0 (Nat.zero_lt_succ _)
    have other : f.buf f.i ≠ newline := by
      rw [here]
      rintro rfl
      exact plain mem_cons_self
    have shorter : f.i + bytes.length + 1 ≤ f.n := by
      omega
    have stays : Holds line text clean f.check := by
      have checked := holds.check
      have below : f.i < BUFSIZE := by omega
      rwa [and_iff_left below] at checked
    obtain ⟨g, same, holdsG, buf, i, n⟩ := ih (stays.copy junk here)
      (fun j below => by
        have later := there (j + 1) (by rw [length_cons]; omega)
        rw [copy_buf, copy_i, Nat.add_assoc, Nat.add_comm 1 j]
        exact later)
      (fun inside => plain (mem_cons_of_mem b inside))
      (by rw [copy_i, copy_n]; show f.i + 1 + _ ≤ f.n; omega) (by rw [copy_n]; exact bound)
    refine ⟨g, ?_, by simpa using holdsG, by rw [buf, copy_buf]; rfl, ?_, by rw [n, copy_n]; rfl⟩
    · rw [← same]
      have more : ¬f.n ≤ f.i := by omega
      exact (if_neg other).trans (if_neg more)
    · rw [i, copy_i, length_cons]
      show f.i + 1 + _ = _
      omega

/-- The bytes of a piece in the buffer. -/
theorem fill_buf {j : ℕ} (below : j < data.length) : (f.fill data).buf j = data.getD j 0 :=
  if_pos below

/-- The byte behind a short piece. -/
theorem fill_buf_end (short : data.length < BUFSIZE) : (f.fill data).buf data.length = 0 := by
  simp [Frame.fill, short]

/-- The byte behind the buffer is never written. -/
theorem fill_buf_beyond (most : data.length ≤ BUFSIZE) : (f.fill data).buf BUFSIZE = f.buf BUFSIZE := by
  have outside : ¬BUFSIZE < data.length := not_lt.mpr most
  have notEnd : ¬(BUFSIZE = data.length ∧ data.length < BUFSIZE) := by omega
  simp only [Frame.fill, if_neg outside, if_neg notEnd]

end Copying

/-! ## Refinement -/

/-- The outcome has the line that the piecewise loop returns, and the accesses were inside if and
only if the line is short. -/
def Shows (line : LineBuffer) (offset : ℤ) (o : Outcome) : Option Bytes → Prop
  | none => o.code = -1 ∧ o.inside = true
  | some text => o.code = 0 ∧ Terminated o.block text ∧ o.offset = offset + text.length + 1 ∧
      (o.inside = true ↔ text.length < BUFSIZE ∧
        (text.length + 1 < line.size ∨ line.size * 4 ≤ line.block.length)) ∧
      (text.length + 1 < line.size → o.size = line.size ∧ o.block.length = line.block.length)

section Refinement

variable {junk : ℕ → UInt8} {line : LineBuffer} {text data bytes : Bytes} {clean : Prop}
  {f : Frame} {fd offset : ℤ} {s : State} {node off k K : ℕ} {stack : Stack}

theorem Holds.shows (holds : Holds line text clean f) (short : clean ↔ text.length < BUFSIZE) :
    Shows line offset (f.finish offset) (some text) := by
  obtain ⟨terminated, offset, inside, kept⟩ := holds.finish offset
  rw [short] at inside
  exact ⟨rfl, terminated, offset, inside, kept⟩

/-- The frame when the next piece has to be read. A line of less than 128 bytes is empty then, or
the file has been read. -/
structure Waits (line : LineBuffer) (stack : Stack) (text rest : Bytes) (f : Frame) : Prop where
  empty : f.n ≤ f.i
  other : f.buf f.i ≠ newline
  beyond : f.buf BUFSIZE = stack.beyond
  holds : Holds line text (text.length < BUFSIZE) f.check
  short : text.length < BUFSIZE → text = [] ∨ rest = []

section

variable (waits : Waits line stack text (bytes.drop off) f)
include waits

/-- Of a piece that has been read, the bytes before the first newline are copied. -/
theorem Waits.copies (junk : ℕ → UInt8) (fd offset : ℤ)
    (piece : data = (bytes.drop off).take BUFSIZE) (some : data ≠ []) {pre rest : Bytes}
    (split : data = pre ++ rest) (plain : newline ∉ pre) (K : ℕ) :
    ∃ g, byteLoop junk fd offset (K + pre.length) (f.check.fill data) =
        byteLoop junk fd offset K g ∧
      g.i = pre.length ∧ g.n = data.length ∧ g.buf = (f.check.fill data).buf ∧
      Holds line (text ++ pre) ((text ++ pre).length < BUFSIZE) g.check := by
  have length : data.length = pre.length + rest.length := by rw [split, length_append]
  have most : data.length ≤ BUFSIZE := by
    rw [piece]
    exact length_take_le _ _
  obtain ⟨g, same, holds, buf, i, n⟩ := byteLoop_copies junk fd offset
    (waits.holds.fill data) pre K
    (fun j below => by
      show (f.check.fill data).buf (0 + j) = _
      rw [Nat.zero_add, fill_buf (by omega), split, getD_append _ _ _ _ below])
    plain (by show 0 + pre.length ≤ data.length; omega) most
  have index : g.i = pre.length := by
    rw [i]
    exact Nat.zero_add _
  have nonempty : bytes.drop off ≠ [] := by
    intro none
    rw [none] at piece
    exact some piece
  have short : (text.length < BUFSIZE ∧ g.i < BUFSIZE) ↔ (text ++ pre).length < BUFSIZE := by
    rw [length_append]
    constructor
    · rintro ⟨shortText, shortPre⟩
      rw [(waits.short shortText).resolve_right nonempty, length_nil]
      omega
    · intro both
      omega
  have checked := holds.check
  rw [short] at checked
  exact ⟨g, same, index, n, buf, checked⟩

/-- A piece that has been read and has no newline in it. -/
theorem Waits.next (junk : ℕ → UInt8) (fd offset : ℤ) (piece : data = (bytes.drop off).take BUFSIZE)
    (some : data ≠ []) (plain : newline ∉ data) (K : ℕ) :
    ∃ g, byteLoop junk fd offset (K + data.length) (f.check.fill data) =
        byteLoop junk fd offset K g ∧
      g.i = data.length ∧ g.n = data.length ∧ g.buf = (f.check.fill data).buf ∧
      Holds line (text ++ data) ((text ++ data).length < BUFSIZE) g.check ∧
      ((text ++ data).length < BUFSIZE → bytes.drop (off + data.length) = []) := by
  obtain ⟨g, same, i, n, buf, holds⟩ := waits.copies junk fd offset piece some
    (append_nil data).symm plain K
  refine ⟨g, same, i, n, buf, holds, fun both => ?_⟩
  have shortData : data.length < BUFSIZE := by
    rw [length_append] at both
    omega
  rw [piece, length_take] at shortData
  have whole : (bytes.drop off).length ≤ BUFSIZE := by omega
  rw [piece, take_of_length_le whole, ← drop_drop, drop_length]

/-- A piece that has been read and has a newline in it. -/
theorem Waits.finds (junk : ℕ → UInt8) (fd offset : ℤ)
    (piece : data = (bytes.drop off).take BUFSIZE) (inside : newline ∈ data) (K : ℕ) :
    ∃ o, byteLoop junk fd offset (K + 1 + (data.takeWhile (· != newline)).length)
        (f.check.fill data) = pure o ∧
      Shows line offset o (some (text ++ data.takeWhile (· != newline))) := by
  obtain ⟨rest, split⟩ := Separated.split_first inside
  obtain ⟨g, same, i, -, buf, holds⟩ := waits.copies junk fd offset piece
    (ne_nil_of_mem inside) split (Separated.not_mem_takeWhile data) (K + 1)
  generalize data.takeWhile (· != newline) = pre at *
  have found : g.buf g.i = newline := by
    rw [buf, i, fill_buf (by rw [split, length_append, length_cons]; omega), split]
    simp
  refine ⟨g.check.finish offset, ?_, holds.shows Iff.rfl⟩
  rw [same]
  exact if_pos found

/-- At the end of the file both loops return. -/
theorem Waits.ended :
    Shows line offset (if f.check.lineptr = 0 then
        ⟨-1, f.check.block, f.check.size, offset, f.check.inside⟩ else f.check.finish offset)
      (if text = [] then none else some text) := by
  by_cases empty : text = []
  · have none : f.check.lineptr = 0 := by
      rw [waits.holds.lineptr, empty]
      rfl
    rw [if_pos empty, if_pos none]
    refine ⟨rfl, waits.holds.inside.mpr ?_⟩
    have least := line.least
    rw [empty, length_nil]
    exact ⟨by decide, .inl (by omega)⟩
  · have some : f.check.lineptr ≠ 0 := by
      rw [waits.holds.lineptr]
      exact fun zero => empty (List.length_eq_zero_iff.mp zero)
    rw [if_neg empty, if_neg some]
    exact waits.holds.shows Iff.rfl

end

/-- **Byte by byte `getline` reads the same lines.** -/
theorem byteLoop_refines (junk : ℕ → UInt8) (offset : ℤ) (valid : 0 ≤ fd) (content : s.disk.node node = bytes)
    {Q : Option Bytes → State → Prop} (waits : Waits line stack text (bytes.drop off) f)
    (enough : 2 * (bytes.length - off) + 2 ≤ K)
    (runs : Ends (getlineLoop stack fd k text) Q (s.seekTo fd node off)) :
    Ends (byteLoop junk fd offset K f) (fun o t => ∃ r, Q r t ∧ Shows line offset o r)
      (s.seekTo fd node off) := by
  induction k generalizing text off f K with
  | zero => exact runs.elim
  | succ k ih =>
    obtain ⟨K, rfl⟩ := Nat.exists_eq_add_of_le' (show 1 ≤ K by omega)
    rw [Ends, getlineLoop, read, always_perform_bind, kernel_read valid, content] at runs
    have unfolded : byteLoop junk fd offset (K + 1) f = (do
        let (n, data) ← read fd BUFSIZE
        if n ≤ 0 then
          pure (if f.check.lineptr = 0 then
            ⟨-1, f.check.block, f.check.size, offset, f.check.inside⟩ else f.check.finish offset)
        else byteLoop junk fd offset K (f.check.fill data)) := by
      exact (if_neg waits.other).trans (if_pos waits.empty)
    rw [Ends, unfolded, read, always_perform_bind, kernel_read valid, content]
    refine ⟨trivial, ?_⟩
    replace runs := runs.2
    by_cases beyond : bytes.length < off
    · simp only [OpenFile.read, if_pos beyond] at runs ⊢
      exact ⟨trivial, _, runs.2, waits.ended⟩
    · simp only [OpenFile.read, if_neg beyond, ByteFile.read] at runs ⊢
      generalize piece : (bytes.drop off).take BUFSIZE = data at *
      by_cases none : data = []
      · rw [if_pos (by simp [none])] at runs ⊢
        exact ⟨trivial, _, runs.2, waits.ended⟩
      · have pos : 0 < data.length := List.length_pos_iff.mpr none
        have most : data.length ≤ bytes.length - off := by
          rw [← piece, length_take, length_drop]
          omega
        rw [if_neg (by omega)] at runs ⊢
        by_cases found : newline ∈ data
        · have fewer : (data.takeWhile (· != newline)).length ≤ data.length :=
            (List.takeWhile_prefix _).length_le
          obtain ⟨rounds, rfl⟩ := Nat.exists_eq_add_of_le'
            (show 1 + (data.takeWhile (· != newline)).length ≤ K by omega)
          obtain ⟨o, same, shows⟩ := waits.finds junk fd offset piece.symm found rounds
          rw [if_pos found] at runs
          rw [← Nat.add_assoc, same]
          exact ⟨trivial, _, runs.2, shows⟩
        · obtain ⟨rounds, rfl⟩ := Nat.exists_eq_add_of_le' (show data.length ≤ K by omega)
          obtain ⟨g, same, i, n, buf, holds, ended⟩ :=
            waits.next junk fd offset piece.symm none found rounds
          have size : data.length ≤ BUFSIZE := by
            rw [← piece]
            exact length_take_le _ _
          have beyond : g.buf BUFSIZE = stack.beyond := by
            rw [buf, fill_buf_beyond size]
            exact waits.beyond
          rw [if_neg found] at runs
          rw [same]
          by_cases cut : data.length = BUFSIZE ∧ stack.beyond = newline
          · obtain ⟨rounds, rfl⟩ := Nat.exists_eq_add_of_le' (show 1 ≤ rounds by omega)
            rw [if_pos cut] at runs
            have newlineThere : g.buf g.i = newline := by
              rw [i, cut.1, beyond, cut.2]
            have done : byteLoop junk fd offset (rounds + 1) g = pure (g.check.finish offset) := by
              exact if_pos newlineThere
            rw [done]
            exact ⟨trivial, _, runs.2, holds.shows Iff.rfl⟩
          · rw [if_neg cut] at runs
            have other : g.buf g.i ≠ newline := by
              rw [i]
              by_cases full : data.length = BUFSIZE
              · rw [full, beyond]
                exact fun same => cut ⟨full, same⟩
              · rw [buf, fill_buf_end (by omega)]
                decide
            exact ih ⟨by omega, other, beyond, holds, fun short => .inr (ended short)⟩ (by omega)
              runs

/-- The frame at the first read. -/
theorem waits_start (line : LineBuffer) {mem : ℕ → UInt8} (quiet : mem 0 ≠ newline) (rest : Bytes) :
    Waits line ⟨mem 0, mem BUFSIZE⟩ [] rest ⟨mem, 0, 0, 0, line.block, line.size, true⟩ := by
  have least := line.least
  refine ⟨le_rfl, quiet, rfl, ⟨rfl, rfl, ?_, line.fits, .inl ⟨rfl, rfl⟩, ?_⟩, fun _ => .inl rfl⟩
  · exact least
  · refine iff_of_true rfl ⟨by decide, .inl ?_⟩
    exact least

/-- `getline` ends. It returns a line, or -1 at the end of the file. -/
theorem byteGetline_ends (junk : ℕ → UInt8) (line : LineBuffer) (valid : 0 ≤ fd) (content : s.disk.node node = bytes)
    (small : bytes.length ≤ MAXFILE * BSIZE) {mem : ℕ → UInt8} (quiet : mem 0 ≠ newline)
    (most : off < 2 ^ 32) (pos : ℕ) :
    Ends (byteGetline junk mem fd line.block line.size off) (fun o t => ∃ r,
      Shows line off o r ∧ (∃ pos', t = s.seekTo fd node pos') ∧
      (mem BUFSIZE ≠ newline ∨ (lineAt bytes off).length < BUFSIZE →
        r = if bytes.drop off = [] then none else some (lineAt bytes off)))
      (s.seekTo fd node pos) := by
  have loop := @getlineLoop_spec ⟨mem 0, mem BUFSIZE⟩ s fd node off ROUNDS [] bytes valid content
    (by rw [ROUNDS]; omega)
  have refined := byteLoop_refines junk off valid content (waits_start line quiet (bytes.drop off))
    (show _ ≤ BYTEROUNDS by rw [BYTEROUNDS, ROUNDS]; omega) loop
  rw [Ends, byteGetline, lseek, always_perform_bind,
    kernel_lseek valid (Int.natCast_nonneg off) (by exact_mod_cast most)]
  refine ⟨trivial, refined.mono (fun _ => id) fun o t _ after => ?_⟩
  obtain ⟨r, ⟨exact, place⟩, shows⟩ := after
  exact ⟨r, shows, place, by simpa using exact⟩

end Refinement

/-! ## Lines -/

/-- What `getline` is for: it returns -1 at the end of the file and else the line, and all accesses
are inside of their arrays. -/
def ReadsLine (bytes : Bytes) (off : ℕ) (o : Outcome) : Prop :=
  o.inside = true ∧
    if bytes.length ≤ off then o.code = -1
    else o.code = 0 ∧ Terminated o.block (lineAt bytes off) ∧
      o.offset = off + (lineAt bytes off).length + 1

/-- When `getline` reads a line, with `first` the byte that it finds in `buf[0]`. -/
def Readable (first : UInt8) (line : LineBuffer) (bytes : Bytes) (off : ℕ) : Prop :=
  first ≠ newline ∧ (lineAt bytes off).length < BUFSIZE ∧
      ((lineAt bytes off).length + 1 < line.size ∨ line.size * 4 ≤ line.block.length) ∨
    first = newline ∧ off < bytes.length ∧ lineAt bytes off = []

section Lines

variable {fd : ℤ} {s : State} {node off : ℕ} {bytes : Bytes} {line : LineBuffer}
  {junk mem : ℕ → UInt8}

theorem lineAt_of_le (ended : bytes.length ≤ off) : lineAt bytes off = [] := by
  rw [lineAt, drop_eq_nil_of_le ended]
  rfl

/-- A newline in the buffer is taken for the end of an empty line. -/
theorem byteGetline_loud (junk : ℕ → UInt8) (line : LineBuffer) (s : State) (node : ℕ)
    (valid : 0 ≤ fd) (loud : mem 0 = newline) (most : off < 2 ^ 32) (pos : ℕ) :
    ∃ o t, run kernel (byteGetline junk mem fd line.block line.size off) (s.seekTo fd node pos) =
        some (o, t) ∧ o.code = 0 ∧ Terminated o.block [] ∧ o.offset = off + 1 ∧ o.inside = true := by
  have least := line.least
  have holds : Holds line [] (0 < BUFSIZE) ⟨mem, 0, 0, 0, line.block, line.size, true⟩ := by
    refine ⟨rfl, rfl, ?_, line.fits, .inl ⟨rfl, rfl⟩, ?_⟩
    · exact least
    · refine iff_of_true rfl ⟨by decide, .inl ?_⟩
      exact least
  obtain ⟨terminated, offset, inside, -⟩ := holds.check.finish off
  refine ⟨_, s.seekTo fd node off, ?_, rfl, terminated, offset, inside.mpr
    ⟨⟨by decide, Nat.zero_lt_succ _⟩, .inl ?_⟩⟩
  · have loop : byteLoop junk fd off BYTEROUNDS ⟨mem, 0, 0, 0, line.block, line.size, true⟩ =
        pure ((Frame.check ⟨mem, 0, 0, 0, line.block, line.size, true⟩).finish off) := by
      exact if_pos loud
    rw [byteGetline, loop]
    show run kernel (pure _) (kernel (.lseek fd off 0) (s.seekTo fd node pos)).2 = _
    rw [kernel_lseek valid (Int.natCast_nonneg off) (by exact_mod_cast most)]
    rfl
  · exact least

theorem readsLine_iff (valid : 0 ≤ fd) (content : s.disk.node node = bytes)
    (small : bytes.length ≤ MAXFILE * BSIZE) (start : off ≤ bytes.length + 1) (pos : ℕ) :
    (∃ o t, run kernel (byteGetline junk mem fd line.block line.size off) (s.seekTo fd node pos) =
        some (o, t) ∧ ReadsLine bytes off o) ↔ Readable (mem 0) line bytes off := by
  have limit : MAXFILE * BSIZE + 1 < 2 ^ 32 := by decide
  have most : off < 2 ^ 32 := by omega
  have least := line.least
  by_cases loud : mem 0 = newline
  · obtain ⟨o, t, ran, code, terminated, offset, inside⟩ :=
      byteGetline_loud junk line s node valid loud most pos
    have reduced : ReadsLine bytes off o ↔ off < bytes.length ∧ lineAt bytes off = [] := by
      rw [ReadsLine, code, offset]
      split
      · rename_i ended
        exact iff_of_false (fun both => absurd both.2 (by decide)) fun both => by omega
      · rename_i more
        constructor
        · rintro ⟨-, -, -, same⟩
          exact ⟨not_le.mp more, List.length_eq_zero_iff.mp (by omega)⟩
        · rintro ⟨-, none⟩
          rw [none]
          exact ⟨inside, rfl, terminated, by simp⟩
    rw [Readable, ran]
    simp [loud, reduced]
  · obtain ⟨o, t, ran, r, shows, -, exact⟩ := always_true_iff.mp
      (byteGetline_ends junk line valid content small loud most pos)
    have ended : bytes.drop off = [] ↔ bytes.length ≤ off := drop_eq_nil_iff
    have reduced : ReadsLine bytes off o ↔ (lineAt bytes off).length < BUFSIZE ∧
        ((lineAt bytes off).length + 1 < line.size ∨ line.size * 4 ≤ line.block.length) := by
      rw [ReadsLine]
      by_cases atEnd : bytes.length ≤ off
      · have none := lineAt_of_le atEnd
        rw [none] at exact
        have result := exact (.inr (by decide))
        rw [if_pos (ended.mpr atEnd)] at result
        subst result
        rw [if_pos atEnd, none]
        exact iff_of_true ⟨shows.2, shows.1⟩ ⟨by decide, .inl least⟩
      · rw [if_neg atEnd]
        rw [if_neg (mt ended.mp atEnd)] at exact
        constructor
        · rintro ⟨inside, code, -, offset⟩
          cases r with
          | none => exact absurd (shows.1.symm.trans code) (by decide)
          | some text =>
            obtain ⟨-, -, offset', short, -⟩ := shows
            have same : text.length = (lineAt bytes off).length := by omega
            rw [same] at short
            exact short.mp inside
        · intro short
          have result := exact (.inr short.1)
          subst result
          obtain ⟨code, terminated, offset, inside, -⟩ := shows
          exact ⟨inside.mpr short, code, terminated, offset⟩
    rw [Readable, ran]
    simp [loud, reduced]

/-- A loop over `getline` reads the lines that are left. -/
theorem byteLines_ends (junk : ℕ → ℕ → UInt8) {mem : ℕ → ℕ → UInt8} (valid : 0 ≤ fd)
    (content : s.disk.node node = bytes) (small : bytes.length ≤ MAXFILE * BSIZE)
    (quiet : ∀ k, mem k 0 ≠ newline) (k : ℕ) : ∀ (line : LineBuffer) (off pos : ℕ),
      off ≤ bytes.length + 1 →
      (∀ l ∈ Separated.split newline (bytes.drop off),
        l.length < BUFSIZE ∧ l.length + 1 < line.size) →
      bytes.length + 1 - off < k →
      Ends (byteLines junk mem fd k line.block line.size off)
        (fun ls _ => ls = Separated.split newline (bytes.drop off)) (s.seekTo fd node pos) := by
  induction k with
  | zero =>
    intro line off pos _ _ enough
    omega
  | succ k ih =>
    intro line off pos start short enough
    have limit : MAXFILE * BSIZE + 1 < 2 ^ 32 := by decide
    have most : off < 2 ^ 32 := by omega
    have call := byteGetline_ends (junk k) line valid content small (quiet k) most pos
    rw [Ends, byteLines, always_bind]
    apply call.mono (fun _ => id)
    rintro o t _ ⟨r, shows, ⟨pos', rfl⟩, exact⟩
    by_cases none : bytes.drop off = []
    · have result := exact (.inr (by rw [lineAt, none]; decide))
      rw [if_pos none] at result
      subst result
      rw [if_neg (by rw [shows.1]; decide), none]
      exact ⟨trivial, rfl⟩
    · have more : off < bytes.length := by
        rwa [drop_eq_nil_iff, not_le] at none
      have rest := @Separated.split_of_ne_nil _ newline _ _ _ none
      have first := short (lineAt bytes off) (by rw [rest]; exact mem_cons_self)
      have result := exact (.inr first.1)
      rw [if_neg none] at result
      subst result
      obtain ⟨code, ⟨after, block⟩, offset, -, kept⟩ := shows
      obtain ⟨size, length⟩ := kept first.2
      have inside : (lineAt bytes off).length ≤ bytes.length - off := by
        have prefixed := (@List.takeWhile_prefix _ (bytes.drop off) (· != newline)).length_le
        rwa [length_drop] at prefixed
      have next : o.offset = ((off + (lineAt bytes off).length + 1 : ℕ) : ℤ) := by
        rw [offset]
        rfl
      have later : bytes.drop (off + (lineAt bytes off).length + 1) =
          (bytes.drop off).drop ((lineAt bytes off).length + 1) := by
        rw [drop_drop, Nat.add_assoc]
      have text : o.block.take (o.offset - off - 1).toNat = lineAt bytes off := by
        have count : (o.offset - off - 1).toNat = (lineAt bytes off).length := by omega
        rw [count, block, take_left]
      have others := ih ⟨o.block, o.size, size ▸ line.least, by rw [size, length]; exact line.fits⟩
        (off + (lineAt bytes off).length + 1) pos' (by omega)
        (fun l member => by
          rw [later] at member
          show l.length < BUFSIZE ∧ l.length + 1 < o.size
          rw [size]
          exact short l (by rw [rest]; exact mem_cons_of_mem _ member)) (by omega)
      rw [if_pos code, always_bind, text, next]
      refine others.mono (fun _ => id) fun ls t _ found => ⟨trivial, ?_⟩
      rw [found, rest, later]
      rfl

end Lines

/-- **`getline` reads the line at an offset, inside of its arrays, if and only if the byte it finds in
`buf[0]` is no newline and the line is short, or the line is empty and the byte is a newline.** With
such bytes a loop over `getline` reads the lines of a file of short lines. -/
theorem getline_enumerates_lines (fd : ℤ) (valid : 0 ≤ fd) (s : State) (node : ℕ) (bytes : Bytes)
    (content : s.disk.node node = bytes) (small : bytes.length ≤ MAXFILE * BSIZE) :
    (∀ (junk mem : ℕ → UInt8) (line : LineBuffer) (off pos : ℕ), off ≤ bytes.length + 1 →
      ((∃ o t, run kernel (byteGetline junk mem fd line.block line.size off)
          (s.seekTo fd node pos) = some (o, t) ∧ ReadsLine bytes off o) ↔
        Readable (mem 0) line bytes off)) ∧
    ∀ (junk mem : ℕ → ℕ → UInt8) (line : LineBuffer) (pos : ℕ), (∀ k, mem k 0 ≠ newline) →
      (∀ l ∈ Separated.split newline bytes, l.length < BUFSIZE ∧ l.length + 1 < line.size) →
      ∃ t, run kernel (byteLines junk mem fd (ROUNDS + 1) line.block line.size 0)
        (s.seekTo fd node pos) = some (Separated.split newline bytes, t) := by
  refine ⟨fun junk mem line off pos start => readsLine_iff valid content small start pos, ?_⟩
  intro junk mem line pos quiet short
  have enough : bytes.length + 1 - 0 < ROUNDS + 1 := by
    rw [ROUNDS]
    omega
  obtain ⟨ls, t, ran, rfl⟩ := always_true_iff.mp (byteLines_ends junk valid content small quiet
    (ROUNDS + 1) line 0 pos (Nat.zero_le _) short enough)
  exact ⟨t, ran⟩

/-- A process that has one file. -/
def oneFile (bytes : Bytes) : State where
  disk := ⟨fun _ => bytes, fun _ => none, 1, fun _ => false⟩
  task := ⟨fun _ => none, 0⟩

/-- The line buffer of the callers. -/
def callerBuffer : LineBuffer := ⟨List.replicate 128 0, 128, by decide, by simp⟩

/-- A file of two lines. -/
theorem getline_enumerates_two_lines :
    ∃ t, run kernel (byteLines (fun _ _ => 7) (fun _ _ => 7) 0 (ROUNDS + 1) callerBuffer.block
      callerBuffer.size 0) ((oneFile [97, 10, 98]).seekTo 0 0 0) = some ([[97], [98]], t) :=
  (getline_enumerates_lines 0 le_rfl (oneFile [97, 10, 98]) 0 [97, 10, 98] rfl (by decide)).2
    (fun _ _ => 7) (fun _ _ => 7) callerBuffer 0 (fun _ => by decide) (by decide)

/-- With a newline in the buffer, an empty line is read from a file without lines. A line of 127
bytes is not read inside of the line buffer. -/
theorem getline_reads_outside :
    (¬∃ o t, run kernel (byteGetline (fun _ => 7) (fun _ => 10) 0 callerBuffer.block
      callerBuffer.size (0 : ℕ)) ((oneFile []).seekTo 0 0 0) = some (o, t) ∧ ReadsLine [] 0 o) ∧
    ¬∃ o t, run kernel (byteGetline (fun _ => 7) (fun _ => 7) 0 callerBuffer.block
      callerBuffer.size (0 : ℕ)) ((oneFile (List.replicate 127 97)).seekTo 0 0 0) = some (o, t) ∧
        ReadsLine (List.replicate 127 97) 0 o := by
  have long : ¬Readable 7 callerBuffer (List.replicate 127 97) 0 := by
    have line : lineAt (List.replicate 127 97) 0 = List.replicate 127 97 := by decide
    rw [Readable, line]
    simp [callerBuffer]
  have empty : ¬Readable 10 callerBuffer [] 0 := by
    rw [Readable]
    decide
  have stored : ∀ bytes, (oneFile bytes).disk.node 0 = bytes := fun _ => rfl
  constructor
  · rwa [readsLine_iff le_rfl (stored []) (by decide) (Nat.zero_le _)]
  · rwa [readsLine_iff le_rfl (stored (List.replicate 127 97))
      (by rw [length_replicate]; decide) (Nat.zero_le _)]

end Xv6Uac.Accounts
