import Xv6Uac.User.System

/-!
# Lines of the account files

`getline`, `addline` and `changeline` of `ufile.c`. `changeline` copies what comes after the line
to a temporary file, and then writes the temporary file over the old line and the rest of the
file, in pieces of 128 bytes.

`getline` looks at its buffer before it has read anything, and at the byte after the buffer when
a piece of 128 bytes has no newline. C leaves both bytes open, and they are the `Stack` here.
-/

namespace Xv6Uac.Accounts

open Programs List

abbrev BUFSIZE : ℕ := 128

abbrev newline : UInt8 := 10

/-- The bytes that `getline` reads without having written them. -/
structure Stack where
  first : UInt8
  beyond : UInt8

/-- More than the rounds of a loop over a file: every round moves on by at least one byte. -/
abbrev ROUNDS : ℕ := MAXFILE * BSIZE + 1

/-! ## Reading a line -/

/-- The loop of `getline`, with the part of the line that it has. -/
def getlineLoop (stack : Stack) (fd : ℤ) : ℕ → Bytes → P (Option Bytes)
  | 0, _ => .undefined
  | k + 1, line => do
    let (n, buf) ← read fd BUFSIZE
    if n ≤ 0 then
      pure (if line = [] then none else some line)
    else if newline ∈ buf then
      pure (some (line ++ buf.takeWhile (· != newline)))
    else if buf.length = BUFSIZE ∧ stack.beyond = newline then
      pure (some (line ++ buf))
    else
      getlineLoop stack fd k (line ++ buf)

/-- The line at an offset and the offset of the next one. -/
def getline (stack : Stack) (fd offset : ℤ) : P (Option (Bytes × ℤ)) := do
  let _ ← lseek fd offset 0
  if stack.first = newline then
    pure (some ([], offset + 1))
  else do
    let line ← getlineLoop stack fd ROUNDS []
    pure (line.map fun line => (line, offset + line.length + 1))

/-- The line that starts at an offset. -/
def lineAt (bytes : Bytes) (off : ℕ) : Bytes := (bytes.drop off).takeWhile (· != newline)

section Reading

variable {stack : Stack} {s : State} {fd : ℤ} {node off k : ℕ} {line bytes : Bytes}

/-- A line ends in its first piece that has a newline. -/
theorem takeWhile_take {l : Bytes} {n : ℕ} (inside : newline ∈ l.take n) :
    (l.take n).takeWhile (· != newline) = l.takeWhile (· != newline) := by
  induction l generalizing n with
  | nil => simp
  | cons b l ih =>
    cases n with
    | zero => simp at inside
    | succ n =>
      by_cases same : b = newline
      · simp [same]
      · have later : newline ∈ l.take n := by simpa [Ne.symm same] using inside
        simp [same, ih later]

theorem takeWhile_of_not_mem {l : Bytes} {n : ℕ} (outside : newline ∉ l.take n) :
    l.takeWhile (· != newline) = l.take n ++ (l.drop n).takeWhile (· != newline) := by
  conv_lhs => rw [← take_append_drop n l]
  refine takeWhile_append_of_pos fun b member => ?_
  simp only [bne_iff_ne]
  rintro rfl
  exact outside member

theorem drop_length_take (l : Bytes) (n : ℕ) : l.drop (l.take n).length = l.drop n := by
  rw [length_take]
  obtain less | more := Nat.le_total n l.length
  · rw [Nat.min_eq_left less]
  · rw [Nat.min_eq_right more, drop_length, drop_eq_nil_of_le more]

/-- The loop ends. It goes on to the end of the line if the byte behind the buffer is no newline, or
if it never comes to that byte. -/
theorem getlineLoop_spec (valid : 0 ≤ fd) (content : s.disk.node node = bytes)
    (enough : bytes.length - off < k) :
    Ends (getlineLoop stack fd k line) (fun r t =>
      (stack.beyond ≠ newline ∨ (lineAt bytes off).length < BUFSIZE →
        r = if line = [] ∧ bytes.drop off = [] then none else some (line ++ lineAt bytes off)) ∧
      ∃ off', t = s.seekTo fd node off') (s.seekTo fd node off) := by
  induction k generalizing line off with
  | zero => omega
  | succ k ih =>
    rw [Ends, getlineLoop, read, always_perform_bind, kernel_read valid, content]
    refine ⟨trivial, ?_⟩
    by_cases beyond : bytes.length < off
    · have none : bytes.drop off = [] := drop_eq_nil_of_le beyond.le
      simp only [OpenFile.read, if_pos beyond]
      refine ⟨trivial, fun _ => ?_, off, rfl⟩
      by_cases empty : line = []
      · simp [empty, none]
      · simp [lineAt, none]
    · simp only [OpenFile.read, if_neg beyond, ByteFile.read]
      by_cases ended : bytes.drop off = []
      · rw [if_pos (by simp [ended])]
        refine ⟨trivial, fun _ => ?_, _, rfl⟩
        by_cases empty : line = []
        · simp [empty, ended]
        · simp [lineAt, ended]
      · have some : (bytes.drop off).take BUFSIZE ≠ [] := by
          simpa using List.drop_eq_nil_iff.not.mp ended
        have pos : 0 < ((bytes.drop off).take BUFSIZE).length := List.length_pos_iff.mpr some
        have unended : ¬(line = [] ∧ bytes.drop off = []) := fun both => ended both.2
        rw [if_neg (by omega), if_neg unended, always_ite]
        refine ⟨fun inside => ⟨trivial, fun _ => ?_, _, rfl⟩, fun outside => ?_⟩
        · rw [takeWhile_take inside, lineAt]
        · have long : lineAt bytes off = (bytes.drop off).take BUFSIZE ++
              lineAt bytes (off + ((bytes.drop off).take BUFSIZE).length) := by
            rw [lineAt, lineAt, takeWhile_of_not_mem outside, ← drop_length_take _ BUFSIZE,
              drop_drop]
          rw [always_ite]
          refine ⟨fun cut => ⟨trivial, fun quiet => ?_, _, rfl⟩, fun _ => ?_⟩
          · rcases quiet with quiet | short
            · exact absurd cut.2 quiet
            · rw [long, length_append] at short
              omega
          · have most : ((bytes.drop off).take BUFSIZE).length ≤ bytes.length - off := by simp
            refine (ih (by omega)).mono (fun _ => id) fun r t _ after => ⟨fun quiet => ?_, after.2⟩
            have rest : stack.beyond ≠ newline ∨
                (lineAt bytes (off + ((bytes.drop off).take BUFSIZE).length)).length < BUFSIZE := by
              refine quiet.imp_right fun short => ?_
              rw [long, length_append] at short
              omega
            rw [after.1 rest, if_neg (by simp [some]), long, append_assoc]

/-- **`getline` returns the line at an offset.** -/
theorem getline_spec {offset : ℤ} (valid : 0 ≤ fd) (quiet : stack.first ≠ newline)
    (quiet' : stack.beyond ≠ newline ∨ (lineAt bytes offset.toNat).length < BUFSIZE)
    (content : s.disk.node node = bytes) (small : bytes.length ≤ MAXFILE * BSIZE)
    (least : 0 ≤ offset) (most : offset < 2 ^ 32) :
    Ends (getline stack fd offset) (fun r t =>
      r = (if bytes.length ≤ offset.toNat then none
        else some (lineAt bytes offset.toNat, offset + (lineAt bytes offset.toNat).length + 1)) ∧
      ∃ off', t = s.seekTo fd node off') (s.seekTo fd node off) := by
  rw [Ends, getline, lseek, always_perform_bind, kernel_lseek valid least most, if_neg quiet,
    always_bind]
  have enough : bytes.length - offset.toNat < ROUNDS := by
    rw [ROUNDS]
    omega
  refine ⟨trivial, ?_⟩
  refine (getlineLoop_spec valid content enough).mono (fun _ => id)
    fun r t _ after => ⟨trivial, ?_, after.2⟩
  rw [after.1 quiet']
  by_cases ended : bytes.length ≤ offset.toNat
  · simp [ended]
  · simp [ended]

end Reading

/-! ## Writing a line -/

def addline (fd : ℤ) (line : Bytes) : P ℤ := do
  let _ ← lseek fd 0 2
  let _ ← write fd [newline]
  let _ ← write fd line
  pure 0

/-- The loop of `changeline` that copies the rest of the file. The first piece has been read. -/
def copyRest (fd fdtemp : ℤ) : ℕ → ℤ × Bytes → P Unit
  | 0, _ => .undefined
  | k + 1, (n, buf) =>
    if 0 < n then do
      let _ ← write fdtemp buf
      let next ← read fd BUFSIZE
      copyRest fd fdtemp k next
    else
      pure ()

/-- The loop of `changeline` that writes the temporary file back. -/
def writeBack (fd fdtemp : ℤ) : ℕ → ℤ → P ℤ
  | 0, _ => .undefined
  | k + 1, newsize => do
    let (n, buf) ← read fdtemp BUFSIZE
    if 0 < n then do
      let _ ← write fd buf
      writeBack fd fdtemp k (newsize + n)
    else
      pure newsize

/-- `changeline`. It returns what it stores in `*offset`. -/
def changeline (fd : ℤ) (line : Bytes) (file : Account) (offset oldlength : ℤ) : P ℤ := do
  let fdtemp ← sysOpen (.temp file) true
  let newsize := offset - oldlength - 1
  let _ ← lseek fd offset 0
  let rest ← read fd BUFSIZE
  let _ ← write fdtemp line
  let _ ← if 0 < rest.1 then write fdtemp [newline] else pure 0
  copyRest fd fdtemp ROUNDS rest
  let _ ← lseek fdtemp 0 0
  let _ ← lseek fd newsize 0
  let size ← writeBack fd fdtemp ROUNDS newsize
  let _ ← lseek fd size 0
  let _ ← trim fd
  let _ ← close fdtemp
  let _ ← unlink (.temp file)
  pure (newsize + line.length + 1)

end Xv6Uac.Accounts
