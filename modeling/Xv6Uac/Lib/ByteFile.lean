import Mathlib.Data.List.GetD
import Mathlib.Data.Nat.Order.Lemmas

/-!
# Files as lists

A file is the list of its bytes. `write` puts a list at an offset within the file or at
its end, `read` returns a range and `resize` sets the length. Writes that follow each
other are one write (`write_write`).

A file can also be given by its length and the byte at each offset. The last section says
what the operations are then.
-/

namespace ByteFile

open List

variable {α : Type}

/-- Put `src` at an offset. -/
def write (bytes : List α) (off : ℕ) (src : List α) : List α :=
  bytes.take off ++ src ++ bytes.drop (off + src.length)

/-- The bytes from an offset on, at most `n`. -/
def read (bytes : List α) (off n : ℕ) : List α := (bytes.drop off).take n

/-- Cut the file, or add `zero` at its end. -/
def resize (zero : α) (bytes : List α) (n : ℕ) : List α :=
  bytes.take n ++ List.replicate (n - bytes.length) zero

variable {bytes src rest : List α} {off n : ℕ}

theorem length_write (start : off ≤ bytes.length) :
    (write bytes off src).length = max bytes.length (off + src.length) := by
  simp only [write, length_append, length_take, length_drop]
  omega

theorem length_resize (zero : α) (bytes : List α) (n : ℕ) : (resize zero bytes n).length = n := by
  simp only [resize, length_append, length_take, length_replicate]
  omega

theorem write_nil (bytes : List α) (off : ℕ) : write bytes off [] = bytes := by
  simp [write]

/-- Two writes that follow each other. -/
theorem write_write (start : off ≤ bytes.length) :
    write (write bytes off src) (off + src.length) rest = write bytes off (src ++ rest) := by
  have before : (bytes.take off ++ src).length = off + src.length := by
    rw [length_append, length_take, Nat.min_eq_left start]
  have head : (write bytes off src).take (off + src.length) = bytes.take off ++ src := by
    rw [write, ← before, take_left']
    rfl
  have tail : (write bytes off src).drop (off + src.length + rest.length) =
      bytes.drop (off + src.length + rest.length) := by
    rw [write, drop_append, before, drop_eq_nil_of_le (by omega), nil_append,
      Nat.add_sub_cancel_left, drop_drop]
  rw [write, head, tail, write, length_append, Nat.add_assoc, append_assoc _ src rest]

/-- A file that is written from its beginning. -/
theorem write_zero (bytes src : List α) : write bytes 0 src = src ++ bytes.drop src.length := by
  simp [write]

theorem write_end (bytes src : List α) : write bytes bytes.length src = bytes ++ src := by
  simp [write]

/-- A second write from there on. -/
theorem write_zero_write (bytes src rest : List α) :
    write (write bytes 0 src) src.length rest = write bytes 0 (src ++ rest) := by
  have both := @write_write _ bytes src rest 0 (Nat.zero_le _)
  rwa [Nat.zero_add] at both

/-! ## Files by offsets -/

section Offsets

variable {f g : ℕ → α} {m : ℕ}

/-- Reading a file that is given by its offsets. -/
theorem read_map_range (f : ℕ → α) (n off m : ℕ) :
    read ((List.range n).map f) off m = (List.range (min m (n - off))).map fun j => f (off + j) := by
  refine ext_getElem ?_ fun j inside _ => ?_
  · simp [read]
  · simp [read]

/-- A write that is given by its offsets. -/
theorem map_range_eq_write (zero : α) (start : off ≤ n)
    (inside : ∀ o, off ≤ o → o < off + src.length → g o = src.getD (o - off) zero)
    (outside : ∀ o, o < n → o < off ∨ off + src.length ≤ o → g o = f o) :
    (List.range (max n (off + src.length))).map g = write ((List.range n).map f) off src := by
  refine ext_getElem ?_ fun o below _ => ?_
  · rw [length_write (by simpa using start)]
    simp
  · have below : o < max n (off + src.length) := by simpa using below
    simp only [getElem_map, getElem_range, write]
    have head : (((List.range n).map f).take off).length = off := by simp [start]
    have both : (((List.range n).map f).take off ++ src).length = off + src.length := by
      rw [length_append, head]
    obtain before | within := Nat.lt_or_ge o off
    · rw [outside o (by omega) (.inl before), getElem_append_left (by omega),
        getElem_append_left (by omega)]
      simp
    · obtain covered | after := Nat.lt_or_ge o (off + src.length)
      · rw [inside o within covered, getElem_append_left (by omega),
          getElem_append_right (by omega), getD_eq_getElem _ _ (by omega)]
        simp only [head]
      · rw [outside o (by omega) (.inr after), getElem_append_right (by omega)]
        simp only [getElem_drop, getElem_map, getElem_range]
        congr 1
        omega

/-- A new length, given by the offsets. -/
theorem map_range_eq_resize (zero : α) (kept : ∀ o, o < n → o < m → g o = f o)
    (new : ∀ o, n ≤ o → o < m → g o = zero) :
    (List.range m).map g = resize zero ((List.range n).map f) m := by
  refine ext_getElem ?_ fun o below _ => ?_
  · rw [length_resize]
    simp
  · have below : o < m := by simpa using below
    simp only [getElem_map, getElem_range, resize]
    have head : (((List.range n).map f).take m).length = min m n := by simp
    obtain old | added := Nat.lt_or_ge o n
    · rw [kept o old below, getElem_append_left (by omega)]
      simp
    · rw [new o added below, getElem_append_right (by omega)]
      simp

end Offsets

/-! ## Overwriting in pieces -/

section Pieces

variable {new : List α} {start m j : ℕ}

/-- Two files differ in one piece of `m` bytes only, counted from an offset, and the new one is not
shorter; or the new file is the beginning of the old one. -/
def OnePiece (m start : ℕ) (bytes new : List α) : Prop :=
  new <+: bytes ∨ bytes.length ≤ new.length ∧
    ∃ j, new.take (start + m * j) = bytes.take (start + m * j) ∧
      new.drop (start + m * (j + 1)) = bytes.drop (start + m * (j + 1))

/-- A file that is overwritten from its beginning on. -/
theorem write_zero_eq_self_iff : write bytes 0 src = bytes ↔ src <+: bytes := by
  rw [write_zero]
  constructor
  · intro same
    exact ⟨_, same⟩
  · rintro ⟨rest, rfl⟩
    rw [drop_left]

/-- What has been written is the beginning of the new file. -/
theorem write_take (inside : start ≤ bytes.length) (n : ℕ) :
    write bytes start (src.take n) = write bytes 0 ((bytes.take start ++ src).take (start + n)) := by
  have head : (bytes.take start).length = start := by
    rw [length_take, Nat.min_eq_left inside]
  have begun : (bytes.take start ++ src).take (start + n) = bytes.take start ++ src.take n := by
    rw [take_append, head, Nat.add_sub_cancel_left, take_of_length_le (by omega)]
  rw [begun, write_zero, write, length_append, head]

theorem write_take_eq_iff (n : ℕ) :
    write bytes 0 (new.take n) = new ↔ bytes.drop (min n new.length) = new.drop n := by
  rw [write_zero, length_take]
  constructor
  · intro same
    have both := same.trans (take_append_drop n new).symm
    exact append_cancel_left both
  · intro same
    rw [same, take_append_drop]

/-- While a file is overwritten in pieces, it is the old one or the new one exactly when they differ
in one piece. -/
theorem pieces_iff (inside : start ≤ bytes.length) (pos : 0 < m)
    (result : new = bytes.take start ++ src) :
    (∀ j, write bytes start (src.take (m * j)) = bytes ∨
      write bytes start (src.take (m * j)) = new) ↔ OnePiece m start bytes new := by
  simp only [write_take inside, ← result]
  constructor
  · intro all
    by_cases cut : new <+: bytes
    · exact .inl cut
    · have whole : new.length ≤ start + m * new.length :=
        (Nat.le_mul_of_pos_left _ pos).trans (Nat.le_add_left _ _)
      have changed : ∀ j, ¬new.take (start + m * j) <+: bytes →
          bytes.drop (min (start + m * j) new.length) = new.drop (start + m * j) := fun j differs =>
        (write_take_eq_iff _).mp ((all j).resolve_left (mt write_zero_eq_self_iff.mp differs))
      have longer : bytes.length ≤ new.length := by
        have last := changed new.length (by rwa [take_of_length_le whole])
        rw [Nat.min_eq_right whole, drop_of_length_le whole] at last
        exact List.drop_eq_nil_iff.mp last
      -- the last piece up to which nothing has changed
      obtain ⟨j, same, differs⟩ : ∃ j, new.take (start + m * j) <+: bytes ∧
          ¬new.take (start + m * (j + 1)) <+: bytes := by
        have begun : new.take (start + m * 0) <+: bytes := by
          rw [result, take_left' (by simp [inside])]
          exact take_prefix _ _
        have ended : ¬new.take (start + m * new.length) <+: bytes := by
          rwa [take_of_length_le whole]
        obtain ⟨j, same, differs⟩ := @Nat.exists_not_and_succ_of_not_zero_of_exists
          (fun j => ¬new.take (start + m * j) <+: bytes) (not_not.mpr begun) ⟨new.length, ended⟩
        exact ⟨j, not_not.mp same, differs⟩
      have short : start + m * j < new.length := by
        rw [← not_le]
        intro beyond
        rw [take_of_length_le beyond] at same
        exact cut same
      refine .inr ⟨longer, j, ?_, ?_⟩
      · have begun := List.prefix_iff_eq_take.mp same
        rwa [length_take, Nat.min_eq_left short.le] at begun
      · have rest := changed (j + 1) differs
        obtain within | beyond := Nat.le_total (start + m * (j + 1)) new.length
        · rw [← rest, Nat.min_eq_left within]
        · rw [drop_of_length_le beyond, drop_of_length_le (longer.trans beyond)]
  · rintro (cut | ⟨longer, j, before, after⟩) i
    · exact .inl (write_zero_eq_self_iff.mpr ((List.take_prefix _ _).trans cut))
    · obtain early | late := Nat.lt_or_ge j i
      · refine .inr ((write_take_eq_iff _).mpr ?_)
        obtain ⟨k, later⟩ := Nat.exists_eq_add_of_le (Nat.mul_le_mul_left m early)
        rw [show start + m * i = start + m * (j + 1) + k by rw [later, Nat.add_assoc]]
        obtain within | beyond := Nat.le_total (start + m * (j + 1) + k) new.length
        · rw [Nat.min_eq_left within, ← drop_drop, ← after, drop_drop]
        · rw [Nat.min_eq_right beyond, drop_of_length_le beyond,
            drop_of_length_le longer]
      · refine .inl (write_zero_eq_self_iff.mpr ?_)
        have shorter : start + m * i ≤ start + m * j :=
          Nat.add_le_add_left (Nat.mul_le_mul_left m late) start
        have sooner : new.take (start + m * i) <+: new.take (start + m * j) :=
          take_prefix_take_left shorter
        exact sooner.trans (before ▸ take_prefix _ _)

end Pieces

end ByteFile
