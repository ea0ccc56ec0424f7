import Xv6Uac.User.Lines

/-!
# Changing a line

`changeline` with the account file and the temporary file as two open files (`Edit.state`). While
it copies the rest of the file, the account file stays. Then its contents are those after each
piece of 128 bytes that is written back, and at last those after `trim` (`changeline_iff`).
-/

namespace Xv6Uac.Accounts

open Programs List
open Function (update update_comm update_idem)

/-! ## Two open files -/

/-- The descriptors of `changeline`: the account file and the temporary file. -/
structure Edit where
  base : State
  fd : ℕ
  fdtemp : ℕ
  node : ℕ
  temp : ℕ
  distinct : fd ≠ fdtemp
  apart : node ≠ temp

namespace Edit

/-- The state in which the two files are `a` and `b`. -/
def state (e : Edit) (a b : OpenFile) : State where
  disk := { e.base.disk with
    node := update (update e.base.disk.node e.node a.bytes) e.temp b.bytes }
  task := { e.base.task with
    ofile := update (update e.base.task.ofile e.fd (some ⟨e.node, a.off⟩))
      e.fdtemp (some ⟨e.temp, b.off⟩) }

variable (e : Edit) (a b c : OpenFile)

theorem descriptor_fd : (e.state a b).task.descriptor e.fd = some ⟨e.node, a.off⟩ := by
  simp [state, Task.descriptor, e.distinct]

theorem descriptor_fdtemp : (e.state a b).task.descriptor e.fdtemp = some ⟨e.temp, b.off⟩ := by
  simp [state, Task.descriptor]

theorem content : (e.state a b).disk.node e.node = a.bytes := by
  simp [state, e.apart]

theorem file_fd : (e.state a b).file ⟨e.node, a.off⟩ = a := by
  simp [State.file, content]

theorem file_fdtemp : (e.state a b).file ⟨e.temp, b.off⟩ = b := by
  simp [State.file, state]

theorem setFile_fd (off : ℕ) : (e.state a b).setFile e.fd ⟨e.node, off⟩ c = e.state c b := by
  simp only [state, State.setFile, Int.toNat_natCast]
  rw [update_comm e.apart, update_idem, update_comm e.distinct,
    update_idem, update_comm e.apart.symm, update_comm e.distinct.symm]

theorem setFile_fdtemp (off : ℕ) :
    (e.state a b).setFile e.fdtemp ⟨e.temp, off⟩ c = e.state a c := by
  simp [state, State.setFile]

theorem read_fd (n : ℕ) :
    kernel (.read e.fd n) (e.state a b) = ((a.read n).1, e.state (a.read n).2 b) := by
  simp only [kernel, descriptor_fd, file_fd, setFile_fd]

theorem read_fdtemp (n : ℕ) :
    kernel (.read e.fdtemp n) (e.state a b) = ((b.read n).1, e.state a (b.read n).2) := by
  simp only [kernel, descriptor_fdtemp, file_fdtemp, setFile_fdtemp]

theorem write_fd (src : Bytes) :
    kernel (.write e.fd src) (e.state a b) = ((a.write src).1, e.state (a.write src).2 b) := by
  simp only [kernel, descriptor_fd, file_fd, setFile_fd]

theorem write_fdtemp (src : Bytes) :
    kernel (.write e.fdtemp src) (e.state a b) = ((b.write src).1, e.state a (b.write src).2) := by
  simp only [kernel, descriptor_fdtemp, file_fdtemp, setFile_fdtemp]

theorem lseek_fd (offset : ℤ) :
    kernel (.lseek e.fd offset 0) (e.state a b) = (0, e.state (a.seek offset 0) b) := by
  simp only [kernel, descriptor_fd, file_fd, setFile_fd]

theorem lseek_fdtemp (offset : ℤ) :
    kernel (.lseek e.fdtemp offset 0) (e.state a b) = (0, e.state a (b.seek offset 0)) := by
  simp only [kernel, descriptor_fdtemp, file_fdtemp, setFile_fdtemp]

theorem trim_fd : kernel (.trim e.fd) (e.state a b) = (0, e.state a.trim b) := by
  simp only [kernel, descriptor_fd, file_fd, setFile_fd]

/-- The state after the temporary file has been closed and unlinked. -/
def finished (file : Account) (a b : OpenFile) : State where
  disk := { (e.state a b).disk with
    name := update e.base.disk.name (.temp file) none }
  task := { (e.state a b).task with ofile := update (e.state a b).task.ofile e.fdtemp none }

theorem close_unlink {file : Account} {node : ℕ} (named : e.base.disk.name (.temp file) = some node) :
    (kernel (.unlink (.temp file)) (kernel (.close e.fdtemp) (e.state a b)).2).2 =
      e.finished file a b := by
  simp only [kernel, descriptor_fdtemp]
  have name : (e.state a b).disk.name (.temp file) = some node := named
  simp only [name]
  rfl

theorem content_close : (kernel (.close e.fdtemp) (e.state a b)).2.disk.node e.node = a.bytes := by
  simp only [kernel, descriptor_fdtemp]
  exact e.content a b

theorem content_finished (file : Account) : (e.finished file a b).disk.node e.node = a.bytes :=
  e.content a b

end Edit

/-! ## The calls on one file -/

theorem seek_eq {bytes : Bytes} {off : ℕ} {offset : ℤ} (least : 0 ≤ offset)
    (most : offset < 2 ^ 32) : OpenFile.seek ⟨bytes, off⟩ offset 0 = ⟨bytes, offset.toNat⟩ := by
  simp only [OpenFile.seek, if_true]
  rw [Int.emod_eq_of_lt least most]

theorem write_eq {bytes src : Bytes} {off : ℕ} (start : off ≤ bytes.length)
    (fits : off + src.length ≤ MAXFILE * BSIZE) :
    (OpenFile.write ⟨bytes, off⟩ src).2 = ⟨ByteFile.write bytes off src, off + src.length⟩ := by
  have all : accepted bytes.length off src.length = src.length := by
    rw [accepted, if_neg (by omega), if_pos fits]
  simp [OpenFile.write, all]

theorem read_eq {bytes : Bytes} {off n : ℕ} (start : off ≤ bytes.length) :
    OpenFile.read ⟨bytes, off⟩ n =
      (((((bytes.drop off).take n).length : ℤ), (bytes.drop off).take n),
        ⟨bytes, off + ((bytes.drop off).take n).length⟩) := by
  rw [OpenFile.read, if_neg (by simpa using start)]
  rfl

theorem read_beyond {bytes : Bytes} {off n : ℕ} (beyond : bytes.length < off) :
    OpenFile.read ⟨bytes, off⟩ n = ((-1, []), ⟨bytes, off⟩) := by
  rw [OpenFile.read, if_pos beyond]

/-! ## The loops -/

section Loops

variable {e : Edit} {K : Bytes → Prop} {bytes temp buf : Bytes} {off toff k : ℕ}

/-- The rest of the file is copied, and the account file stays. -/
theorem copyRest_iff {Q : Unit → State → Prop} (inside : off ≤ bytes.length)
    (last : buf = [] → bytes.drop off = []) (start : toff ≤ temp.length)
    (fits : toff + (buf ++ bytes.drop off).length ≤ MAXFILE * BSIZE)
    (enough : bytes.length - off + min buf.length 1 < k) :
    always kernel (fun s => K (s.disk.node e.node)) (copyRest e.fd e.fdtemp k (buf.length, buf)) Q
        (e.state ⟨bytes, off⟩ ⟨temp, toff⟩) ↔
      K bytes ∧ Q () (e.state ⟨bytes, bytes.length⟩
        ⟨ByteFile.write temp toff (buf ++ bytes.drop off),
          toff + (buf ++ bytes.drop off).length⟩) := by
  induction k generalizing buf off temp toff with
  | zero => omega
  | succ k ih =>
    rw [copyRest]
    by_cases empty : buf = []
    · obtain rfl : off = bytes.length := by
        have ended := List.drop_eq_nil_iff.mp (last empty)
        omega
      subst empty
      rw [if_neg (by simp), always_pure, e.content]
      simp [ByteFile.write_nil]
    · have pos : 0 < buf.length := List.length_pos_iff.mpr empty
      have size : (buf ++ bytes.drop off).length = buf.length + (bytes.length - off) := by simp
      have rest : (bytes.drop off).length = bytes.length - off := length_drop
      have most : ((bytes.drop off).take BUFSIZE).length ≤ bytes.length - off := by simp
      have later : (bytes.drop off).take BUFSIZE = [] →
          bytes.drop (off + ((bytes.drop off).take BUFSIZE).length) = [] := by
        intro none
        rw [none]
        simpa using none
      have whole : (bytes.drop off).take BUFSIZE ++
          bytes.drop (off + ((bytes.drop off).take BUFSIZE).length) = bytes.drop off := by
        rw [← drop_drop, drop_length_take, take_append_drop]
      rw [if_pos (by omega), write, always_perform_bind, e.write_fdtemp,
        write_eq start (by omega), read, always_perform_bind, e.read_fd, read_eq inside,
        ih (by omega) later (by rw [ByteFile.length_write start]; omega) (by rw [whole]; omega)
          (by omega),
        whole, ByteFile.write_write start]
      simp [e.content, Nat.add_assoc]

/-- The beginnings of a list, by pieces: none, and those from the first piece on. -/
theorem forall_pieces {J : Bytes → Prop} (rest : Bytes) :
    (∀ j, J (rest.take (BUFSIZE * j))) ↔
      J [] ∧ ∀ j, J (rest.take BUFSIZE ++ (rest.drop BUFSIZE).take (BUFSIZE * j)) := by
  constructor
  · intro all
    refine ⟨all 0, fun j => ?_⟩
    rw [← take_add, show BUFSIZE + BUFSIZE * j = BUFSIZE * (j + 1) by ring]
    exact all (j + 1)
  · rintro ⟨none, more⟩ j
    cases j with
    | zero => exact none
    | succ j =>
      rw [show BUFSIZE * (j + 1) = BUFSIZE + BUFSIZE * j by ring, take_add]
      exact more j

/-- The temporary file is written back, piece by piece. -/
theorem writeBack_iff {Q : ℤ → State → Prop} {newsize : ℤ} {rest : Bytes}
    (left : rest = temp.drop toff) (inside : off ≤ bytes.length) (start : toff ≤ temp.length)
    (fits : off + rest.length ≤ MAXFILE * BSIZE) (enough : rest.length < k) :
    always kernel (fun s => K (s.disk.node e.node)) (writeBack e.fd e.fdtemp k newsize) Q
        (e.state ⟨bytes, off⟩ ⟨temp, toff⟩) ↔
      (∀ j, K (ByteFile.write bytes off (rest.take (BUFSIZE * j)))) ∧
        Q (newsize + rest.length)
          (e.state ⟨ByteFile.write bytes off rest, off + rest.length⟩ ⟨temp, temp.length⟩) := by
  induction k generalizing bytes off toff newsize rest with
  | zero => omega
  | succ k ih =>
    rw [writeBack, read, always_perform_bind, e.read_fdtemp, read_eq start, ← left]
    by_cases empty : rest = []
    · have ended : toff = temp.length := by
        have none := List.drop_eq_nil_iff.mp (left.symm.trans empty)
        omega
      subst empty ended
      simp [ByteFile.write_nil, always_pure, e.content]
    · have some : rest.take BUFSIZE ≠ [] := by simpa using empty
      have pos : 0 < (rest.take BUFSIZE).length := List.length_pos_iff.mpr some
      have count : (rest.take BUFSIZE).length + (rest.drop BUFSIZE).length = rest.length := by
        rw [← length_append, take_append_drop]
      have length : rest.length = temp.length - toff := by rw [left, length_drop]
      have later : rest.drop BUFSIZE = temp.drop (toff + (rest.take BUFSIZE).length) := by
        rw [← drop_drop, ← left, drop_length_take]
      have grown : off + (rest.take BUFSIZE).length ≤
          (ByteFile.write bytes off (rest.take BUFSIZE)).length := by
        rw [ByteFile.length_write inside]
        omega
      dsimp only
      rw [if_pos (by omega), write, always_perform_bind, e.write_fd,
        write_eq inside (by omega), ih later grown (by omega) (by omega) (by omega),
        ByteFile.write_write inside, take_append_drop]
      have pieces := forall_pieces (J := fun x => K (ByteFile.write bytes off x)) rest
      rw [pieces]
      simp only [ByteFile.write_write inside, ByteFile.write_nil, e.content]
      rw [Nat.add_assoc, add_assoc, ← Nat.cast_add, count]
      tauto

end Loops

/-! ## The whole function -/

/-- What `changeline` puts into the temporary file: the new line and the rest of the file. -/
def rewritten (line bytes : Bytes) (off : ℕ) : Bytes :=
  if bytes.drop off = [] then line else line ++ newline :: bytes.drop off

section Changeline

variable {e : Edit} {K : Bytes → Prop} {bytes temp line : Bytes} {file : Account}

/-- The second half of `changeline`, which writes the account file. -/
def changelineBack (fd fdtemp : ℤ) (file : Account) (newsize offset : ℤ) : P ℤ := do
  let _ ← lseek fdtemp 0 0
  let _ ← lseek fd newsize 0
  let size ← writeBack fd fdtemp ROUNDS newsize
  let _ ← lseek fd size 0
  let _ ← trim fd
  let _ ← close fdtemp
  let _ ← unlink (.temp file)
  pure offset

theorem changelineBack_iff {Q : ℤ → State → Prop} {start node : ℕ} {b : OpenFile}
    (named : e.base.disk.name (.temp file) = some node) (inside : start ≤ bytes.length)
    (content : b.bytes = temp) (fits : start + temp.length ≤ MAXFILE * BSIZE) (off : ℕ) (r : ℤ) :
    always kernel (fun s => K (s.disk.node e.node)) (changelineBack e.fd e.fdtemp file start r) Q
        (e.state ⟨bytes, off⟩ b) ↔
      K bytes ∧ (∀ j, K (ByteFile.write bytes start (temp.take (BUFSIZE * j)))) ∧
        K (bytes.take start ++ temp) ∧
        Q r (e.finished file ⟨bytes.take start ++ temp, start + temp.length⟩
          ⟨temp, temp.length⟩) := by
  obtain ⟨bBytes, bOff⟩ := b
  obtain rfl : bBytes = temp := content
  have limit : MAXFILE * BSIZE < 2 ^ 32 := by decide
  have least : (0 : ℤ) ≤ (start : ℤ) := Int.natCast_nonneg start
  have cut : ByteFile.resize 0 (ByteFile.write bytes start bBytes) (start + bBytes.length) =
      bytes.take start ++ bBytes := by
    have length : (bytes.take start ++ bBytes).length = start + bBytes.length := by
      rw [length_append, length_take, Nat.min_eq_left inside]
    have none : start + bBytes.length - (ByteFile.write bytes start bBytes).length = 0 := by
      rw [ByteFile.length_write inside]
      omega
    rw [ByteFile.resize, none, replicate_zero, append_nil, ByteFile.write, ← length,
      take_left]
  have size : (OpenFile.seek ⟨ByteFile.write bytes start bBytes, start + bBytes.length⟩
      ((start : ℤ) + bBytes.length) 0).trim =
        ⟨bytes.take start ++ bBytes, start + bBytes.length⟩ := by
    rw [seek_eq (by omega) (by omega), OpenFile.trim]
    simp only [← Nat.cast_add, Int.toNat_natCast, cut]
  rw [changelineBack, lseek, always_perform_bind, e.lseek_fdtemp, seek_eq le_rfl (by decide), lseek,
    always_perform_bind, e.lseek_fd, seek_eq least (by omega), always_bind]
  simp only [Int.toNat_natCast, Int.toNat_zero]
  rw [writeBack_iff List.drop_zero.symm inside (Nat.zero_le _) fits (by rw [ROUNDS]; omega), lseek,
    always_perform_bind, e.lseek_fd, trim, always_perform_bind, e.trim_fd, size, close,
    always_perform_bind, unlink, always_perform_bind, always_pure, e.close_unlink _ _ named,
    e.content_finished]
  simp only [e.content, e.content_close]
  constructor
  · rintro ⟨old, -, all, -, -, new, -, -, after⟩
    exact ⟨old, all, new, after⟩
  · rintro ⟨old, all, new, after⟩
    -- the last piece completes the file
    have whole : K (ByteFile.write bytes start bBytes) := by
      have last := all bBytes.length
      rwa [take_of_length_le (by rw [BUFSIZE]; omega)] at last
    exact ⟨old, old, all, whole, whole, new, new, new, after⟩

/-- The first half of `changeline` does not change the account file. It leaves the new line and the
rest of the file at the beginning of the temporary file. -/
theorem changeline_first {s : State} {start old next off : ℕ} (place : next = start + old + 1)
    (opened : kernel (.open (.temp file) true) s = ((e.fdtemp : ℤ), e.state ⟨bytes, off⟩ ⟨temp, 0⟩))
    (content : s.disk.node e.node = bytes) (inside : start + old ≤ bytes.length)
    (small : bytes.length ≤ MAXFILE * BSIZE)
    (fits : (rewritten line bytes next).length ≤ MAXFILE * BSIZE) :
    ∃ off' b, b.bytes = ByteFile.write temp 0 (rewritten line bytes next) ∧
      ∀ (K : Bytes → Prop) (Q : ℤ → State → Prop),
        always kernel (fun s => K (s.disk.node e.node)) (changeline e.fd line file (next : ℤ) old) Q s ↔
          always kernel (fun s => K (s.disk.node e.node))
            (changelineBack e.fd e.fdtemp file start (start + line.length + 1)) Q
            (e.state ⟨bytes, off'⟩ b) := by
  have limit : MAXFILE * BSIZE + 2 < 2 ^ 32 := by decide
  have newsize : (next : ℤ) - old - 1 = start := by omega
  have offset : OpenFile.seek ⟨bytes, off⟩ (next : ℤ) 0 = ⟨bytes, next⟩ := by
    rw [seek_eq (Int.natCast_nonneg _) (by omega), Int.toNat_natCast]
  have kept : ∀ {K : Bytes → Prop} {Q : ℤ → State → Prop} {p : P ℤ} {a b : OpenFile},
      always kernel (fun s => K (s.disk.node e.node)) p Q (e.state a b) → K a.bytes := by
    intro K Q p a b runs
    have here := runs.here
    rwa [e.content] at here
  by_cases ended : bytes.drop next = []
  · -- there is no further line
    have whole : rewritten line bytes next = line := if_pos ended
    rw [whole] at fits ⊢
    obtain ⟨n, none, nothing⟩ : ∃ n : ℤ, ¬0 < n ∧ OpenFile.read ⟨bytes, next⟩ BUFSIZE =
        ((n, []), ⟨bytes, next⟩) := by
      by_cases beyond : bytes.length < next
      · exact ⟨-1, by decide, read_beyond beyond⟩
      · refine ⟨0, by decide, ?_⟩
        rw [read_eq (by omega), ended]
        rfl
    refine ⟨next, ⟨ByteFile.write temp 0 line, 0 + line.length⟩, rfl, fun K Q => ?_⟩
    rw [changeline, sysOpen, always_perform_bind, opened, content, newsize, lseek,
      always_perform_bind, e.lseek_fd, offset, read, always_perform_bind, e.read_fd, nothing]
    rw [write, always_perform_bind, e.write_fdtemp, write_eq (Nat.zero_le _) (by omega),
      if_neg none, copyRest, if_neg none]
    simp only [e.content]
    exact ⟨fun all => all.2.2.2.2, fun runs =>
      ⟨kept runs, kept runs, kept runs, kept runs, runs⟩⟩
  · have more : next ≤ bytes.length := by
      rw [drop_eq_nil_iff] at ended
      omega
    have whole : rewritten line bytes next = line ++ newline :: bytes.drop next := if_neg ended
    rw [whole] at fits ⊢
    have some : (bytes.drop next).take BUFSIZE ≠ [] := by simpa using ended
    have pos : 0 < ((bytes.drop next).take BUFSIZE).length := List.length_pos_iff.mpr some
    have count : line.length + 1 + (bytes.length - next) ≤ MAXFILE * BSIZE := by
      rw [length_append, length_cons, length_drop] at fits
      omega
    generalize piece : (bytes.drop next).take BUFSIZE = data at *
    have got : OpenFile.read ⟨bytes, next⟩ BUFSIZE =
        (((data.length : ℤ), data), ⟨bytes, next + data.length⟩) := by
      rw [read_eq more, piece]
    have rest : data ++ bytes.drop (next + data.length) = bytes.drop next := by
      rw [← piece, ← drop_drop, drop_length_take, take_append_drop]
    have most : data.length ≤ bytes.length - next := by
      rw [← piece, length_take, length_drop]
      omega
    have grown : line.length ≤ (ByteFile.write temp 0 line).length := by
      rw [ByteFile.length_write (Nat.zero_le _)]
      omega
    have joined : ByteFile.write (ByteFile.write temp 0 (line ++ [newline]))
        (line.length + [newline].length) (bytes.drop next) =
          ByteFile.write temp 0 (line ++ newline :: bytes.drop next) := by
      rw [← length_append, ByteFile.write_zero_write, append_assoc]
      rfl
    refine ⟨bytes.length, ⟨_, line.length + [newline].length + (bytes.drop next).length⟩, joined,
      fun K Q => ?_⟩
    rw [changeline, sysOpen, always_perform_bind, opened, content, newsize, lseek,
      always_perform_bind, e.lseek_fd, offset, read, always_perform_bind, e.read_fd, got]
    simp only [e.content]
    rw [write, always_perform_bind, e.write_fdtemp, write_eq (Nat.zero_le _) (by omega),
      if_pos (by omega), write, always_perform_bind, e.write_fdtemp, Nat.zero_add,
      write_eq grown (by rw [length_singleton]; omega), ByteFile.write_zero_write, always_bind,
      copyRest_iff (by omega) (fun none => absurd none some) (by
        rw [ByteFile.length_write (Nat.zero_le _), length_append]; omega)
        (by rw [rest, length_drop]; omega) (by rw [ROUNDS]; omega), rest]
    simp only [e.content]
    exact ⟨fun all => all.2.2.2.2.2.2, fun runs =>
      ⟨kept runs, kept runs, kept runs, kept runs, kept runs, kept runs, runs⟩⟩

/-- **The account file during a call of `changeline`.** It has its old contents, then those after
each piece that is written back, and at last the part before the line followed by the temporary
file. -/
theorem changeline_iff {Q : ℤ → State → Prop} {s : State} {start old next off node : ℕ}
    (place : next = start + old + 1)
    (opened : kernel (.open (.temp file) true) s = ((e.fdtemp : ℤ), e.state ⟨bytes, off⟩ ⟨temp, 0⟩))
    (content : s.disk.node e.node = bytes) (named : e.base.disk.name (.temp file) = some node)
    (inside : start + old ≤ bytes.length) (small : bytes.length ≤ MAXFILE * BSIZE)
    {result : Bytes} (wanted : result = ByteFile.write temp 0 (rewritten line bytes next))
    (fits : start + result.length ≤ MAXFILE * BSIZE) :
    always kernel (fun s => K (s.disk.node e.node))
        (changeline e.fd line file (next : ℤ) old) Q s ↔
      K bytes ∧ (∀ j, K (ByteFile.write bytes start (result.take (BUFSIZE * j)))) ∧
        K (bytes.take start ++ result) ∧
        Q (start + line.length + 1)
          (e.finished file ⟨bytes.take start ++ result, start + result.length⟩
            ⟨result, result.length⟩) := by
  have fitsTemp : (rewritten line bytes next).length ≤ MAXFILE * BSIZE := by
    rw [wanted, ByteFile.length_write (Nat.zero_le _)] at fits
    omega
  obtain ⟨off', b, copied, runs⟩ := changeline_first place opened content inside small fitsTemp
  rw [runs K Q]
  exact changelineBack_iff named (by omega) (copied.trans wanted.symm) fits off' _

end Changeline

end Xv6Uac.Accounts
