import Xv6Uac.User.LineEdits

/-!
# An edit that is interrupted

`changeline` writes the account file in place, in pieces of 128 bytes, and then cuts it. A process
that stops in between leaves neither the old nor the new file, unless the two differ in one piece
only. It also leaves its temporary file, which the next call opens without cutting it
(`interrupted_edit_iff`).
-/

namespace Xv6Uac.Accounts

open Programs Separated

/-! ## The leftover temporary file -/

/-- The contents of the temporary file when `changeline` opens it. -/
def leftover (s : State) (file : Account) : Bytes :=
  match s.disk.name (.temp file) with
  | none => []
  | some temp => s.disk.node temp

section Leftover

variable {s : State} {fd node off fdtemp : ℕ} {file : Account}

theorem Opens.exists_edit (opens : Opens s fd node off) (free : s.task.fdalloc = some fdtemp)
    (apart : s.disk.name (.temp file) ≠ some node) :
    ∃ e : Edit, e.fd = fd ∧ e.fdtemp = fdtemp ∧ e.node = node ∧
      kernel (.open (.temp file) true) s =
        ((fdtemp : ℤ), e.state ⟨s.disk.node node, off⟩ ⟨leftover s file, 0⟩) ∧
      ∃ m, e.base.disk.name (.temp file) = some m := by
  rcases named : s.disk.name (.temp file) with _ | temp
  · have empty : leftover s file = [] := by simp only [leftover, named]
    refine ⟨opens.edit free file, rfl, rfl, rfl, ?_, s.disk.next, by simp [Opens.edit, Disk.create]⟩
    rw [empty]
    exact opens.opened free named
  · have other : node ≠ temp := by
      rintro rfl
      exact apart named
    have content : leftover s file = s.disk.node temp := by simp only [leftover, named]
    refine ⟨⟨s, fd, fdtemp, node, temp, opens.distinct free, other⟩, rfl, rfl, rfl, ?_, temp, named⟩
    have files : Function.update s.task.ofile fd (some ⟨node, off⟩) = s.task.ofile := by
      rw [← opens.descriptor, Function.update_eq_self]
    rw [content]
    simp only [kernel, named, State.open, free, Edit.state, Function.update_eq_self, files]

end Leftover

/-! ## The length of the result -/

section Size

variable {e : Edit} {a : OpenFile} {temp : Bytes} {toff k : ℕ} {file : Account}

/-- `writeBack` counts what it reads, also when a write fails. -/
theorem writeBack_counts {newsize : ℤ} (start : toff ≤ temp.length) (enough : temp.length - toff < k) :
    Ends (writeBack e.fd e.fdtemp k newsize) (fun n t => n = newsize + (temp.length - toff : ℕ) ∧
      ∃ a', t = e.state a' ⟨temp, temp.length⟩) (e.state a ⟨temp, toff⟩) := by
  induction k generalizing a toff newsize with
  | zero => omega
  | succ k ih =>
    have count : ((temp.drop toff).take BUFSIZE).length = min BUFSIZE (temp.length - toff) := by
      simp
    rw [Ends, writeBack, read, always_perform_bind, e.read_fdtemp, read_eq start]
    refine ⟨trivial, ?_⟩
    dsimp only
    by_cases more : 0 < temp.length - toff
    · have some : 0 < BUFSIZE := by decide
      rw [if_pos (by omega), write, always_perform_bind, e.write_fd]
      refine ⟨trivial, (ih (by omega) (by omega)).mono (fun _ _ => trivial) ?_⟩
      rintro n t - ⟨rfl, after⟩
      exact ⟨by omega, after⟩
    · obtain rfl : toff = temp.length := by omega
      rw [if_neg (by omega)]
      refine ⟨trivial, by omega, a, ?_⟩
      rw [List.drop_length]
      rfl

/-- The length of the file after `changeline` is that of the part before the line and of the
temporary file. -/
theorem changelineBack_length {start node : ℕ} {b : OpenFile} {r : ℤ}
    (named : e.base.disk.name (.temp file) = some node) (content : b.bytes = temp)
    (small : temp.length ≤ MAXFILE * BSIZE) (start_le : start ≤ MAXFILE * BSIZE) :
    Ends (changelineBack e.fd e.fdtemp file start r)
      (fun _ t => (t.disk.node e.node).length = start + temp.length) (e.state a b) := by
  obtain ⟨bBytes, bOff⟩ := b
  obtain rfl : bBytes = temp := content
  have limit : MAXFILE * BSIZE + MAXFILE * BSIZE < 2 ^ 32 := by decide
  rw [Ends, changelineBack, lseek, always_perform_bind, e.lseek_fdtemp,
    lseek, always_perform_bind, e.lseek_fd, always_bind]
  have counted := @writeBack_counts e (a.seek start 0) bBytes 0 ROUNDS start (Nat.zero_le _)
    (by rw [ROUNDS]; omega)
  refine ⟨trivial, trivial, counted.mono (fun _ _ => trivial) ?_⟩
  rintro n t - ⟨rfl, a', rfl⟩
  rw [lseek, always_perform_bind, e.lseek_fd, trim, always_perform_bind, e.trim_fd, close,
    always_perform_bind, unlink, always_perform_bind, always_pure, e.close_unlink _ _ named,
    e.content_finished]
  refine ⟨trivial, trivial, trivial, trivial, trivial, ?_⟩
  rw [seek_eq (by omega) (by omega), OpenFile.trim, ByteFile.length_resize]
  dsimp only
  omega

end Size

/-! ## The claim -/

/-- At every point between two system calls of `changeline` the file is the old or the new one, and
the call ends with the new one. -/
def EditsAtOnce (s : State) (fd node : ℕ) (file : Account) (pre : List Bytes) (old : Bytes)
    (post : List Bytes) (line : Bytes) : Prop :=
  (∀ t ∈ visits kernel (changeline fd line file (closed newline (pre ++ [old])).length old.length) s,
    t.disk.node node = join newline (pre ++ old :: post) ∨
      t.disk.node node = join newline (pre ++ line :: post)) ∧
  ∃ a t, run kernel (changeline fd line file (closed newline (pre ++ [old])).length old.length) s =
      some (a, t) ∧ t.disk.node node = join newline (pre ++ line :: post)

section Interrupted

variable {s : State} {fd node off : ℕ} {pre post : List Bytes} {old line : Bytes} {file : Account}

theorem editsAtOnce_iff_always : EditsAtOnce s fd node file pre old post line ↔
    always kernel (fun t => t.disk.node node = join newline (pre ++ old :: post) ∨
        t.disk.node node = join newline (pre ++ line :: post))
      (changeline fd line file (closed newline (pre ++ [old])).length old.length)
      (fun _ t => t.disk.node node = join newline (pre ++ line :: post)) s :=
  always_iff.symm

/-- With no descriptor for the temporary file. -/
theorem HasLines.editsAtOnce_without (has : HasLines s fd node off (pre ++ old :: post))
    (full : s.task.fdalloc = none) :
    EditsAtOnce s fd node file pre old post line ↔ line = [] ∧ post = [] := by
  constructor
  · rintro ⟨-, a, t, ran, new⟩
    have ends := @changeline_without s fd node (fun _ => True) (s.disk.node node) line file
      (closed newline pre).length old.length (closed newline (pre ++ [old])).length off
      (by simp [Nat.add_assoc]) has.toOpens full rfl has.inside has.small trivial trivial
    obtain ⟨a', t', ran', -, cut, -⟩ := always_true_iff.mp ends
    obtain ⟨rfl, rfl⟩ := Prod.mk.inj (Option.some.inj (ran.symm.trans ran'))
    exact closed_eq_join_iff.mp (has.before.symm.trans (cut.symm.trans new))
  · intro nothing
    have cut : (s.disk.node node).take (closed newline pre).length =
        join newline (pre ++ line :: post) := has.before.trans (closed_eq_join_iff.mpr nothing)
    rw [editsAtOnce_iff_always]
    refine (@changeline_without s fd node (fun x => x = join newline (pre ++ old :: post) ∨
        x = join newline (pre ++ line :: post)) (s.disk.node node) line file
      (closed newline pre).length old.length (closed newline (pre ++ [old])).length off
      (by simp [Nat.add_assoc]) has.toOpens full rfl has.inside has.small (.inl has.content)
      (.inr cut)).mono (fun _ stored => stored) ?_
    rintro _ t - ⟨-, content, -⟩
    exact content.trans cut

/-- With a descriptor, when the new file is not too large. -/
theorem HasLines.editsAtOnce_with (has : HasLines s fd node off (pre ++ old :: post))
    (room : s.task.fdalloc ≠ none) (apart : s.disk.name (.temp file) ≠ some node)
    (small : (leftover s file).length ≤ MAXFILE * BSIZE)
    (fits : (join newline (pre ++ line :: post)).length ≤ MAXFILE * BSIZE) :
    EditsAtOnce s fd node file pre old post line ↔
      (leftover s file).length ≤ (join newline (line :: post)).length ∧
        ByteFile.OnePiece BUFSIZE (closed newline pre).length (join newline (pre ++ old :: post))
          (join newline (pre ++ line :: post)) := by
  obtain ⟨fdtemp, free⟩ := Option.ne_none_iff_exists'.mp room
  obtain ⟨e, rfl, rfl, rfl, opened, m, named⟩ := has.toOpens.exists_edit free apart
  have place : (closed newline (pre ++ [old])).length =
      (closed newline pre).length + old.length + 1 := by simp [Nat.add_assoc]
  have copied : rewritten line (s.disk.node e.node) (closed newline (pre ++ [old])).length =
      join newline (line :: post) := by
    rw [has.content, rewritten_lines has.ended_after]
  have new : join newline (pre ++ line :: post) =
      (s.disk.node e.node).take (closed newline pre).length ++ join newline (line :: post) := by
    rw [has.before, join_append_cons]
  have size : (join newline (pre ++ line :: post)).length =
      (closed newline pre).length + (join newline (line :: post)).length := by
    rw [join_append_cons, List.length_append]
  have inside := has.inside
  by_cases short : (leftover s file).length ≤ (join newline (line :: post)).length
  · have written : join newline (line :: post) = ByteFile.write (leftover s file) 0
        (rewritten line (s.disk.node e.node) (closed newline (pre ++ [old])).length) := by
      rw [copied, ByteFile.write_zero, List.drop_eq_nil_of_le short, List.append_nil]
    have iff := @changeline_iff e (fun x => x = join newline (pre ++ old :: post) ∨
        x = join newline (pre ++ line :: post)) _ _ line file
      (fun _ t => t.disk.node e.node = join newline (pre ++ line :: post)) s _ old.length _ off m
      place opened rfl named inside has.small _ written (by omega)
    rw [editsAtOnce_iff_always, iff, e.content_finished, ← new, ← has.content,
      ByteFile.pieces_iff (by omega) (by decide) new]
    simp [short]
  · refine iff_of_false ?_ fun both => short both.1
    rintro ⟨-, a, t, ran, content⟩
    obtain ⟨off', b, same, runs⟩ := @changeline_first e _ _ line file s _ old.length _ off place opened
      rfl inside has.small (by rw [copied]; omega)
    have longer : b.bytes.length = (leftover s file).length := by
      rw [same, copied, ByteFile.length_write (Nat.zero_le _)]
      omega
    have ends := (runs (fun _ => True) _).mpr (changelineBack_length named rfl (by omega) (by omega))
    obtain ⟨a', t', ran', length⟩ := always_true_iff.mp ends
    obtain ⟨rfl, rfl⟩ := Prod.mk.inj (Option.some.inj (ran.symm.trans ran'))
    rw [content] at length
    omega

/-- What makes an edit one write: there is a descriptor for the temporary file, the new file is not
too large, what was left in the temporary file is not longer than what is written over it, and the
two files differ in one piece of 128 bytes. (With no descriptor, the text of the last line can be
removed.) -/
def OneWrite (s : State) (file : Account) (pre : List Bytes) (old : Bytes) (post : List Bytes)
    (line : Bytes) : Prop :=
  (s.task.fdalloc ≠ none ∧ (join newline (pre ++ line :: post)).length ≤ MAXFILE * BSIZE ∧
    (leftover s file).length ≤ (join newline (line :: post)).length ∧
    ByteFile.OnePiece BUFSIZE (closed newline pre).length (join newline (pre ++ old :: post))
      (join newline (pre ++ line :: post))) ∨
  (s.task.fdalloc = none ∧ line = [] ∧ post = [])

end Interrupted

end Xv6Uac.Accounts
