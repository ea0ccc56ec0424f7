import Mathlib.Tactic.Ring

/-!
# Little-endian words in a byte store

A byte store is a function from offsets to bytes. A word of `w` bytes at an
offset is read with the least significant byte first (`word`). Writing a word
(`putWord`) changes the `w` bytes it covers and no other byte.

Reading a word just written gives the value back when the value fits
(`word_putWord`), and reading a word that the write does not overlap gives the
old word (`word_putWord_of_disjoint`).
-/

namespace Words

/-- A store of bytes, indexed by offset. -/
abbrev Bytes := ℕ → UInt8

/-- The word of `w` bytes at `offset`, least significant byte first. -/
def word : ℕ → Bytes → ℕ → ℕ
  | 0, _, _ => 0
  | w + 1, bytes, offset => (bytes offset).toNat + 256 * word w bytes (offset + 1)

/-- Write `value` as a word of `w` bytes at `offset`. -/
def putWord (w : ℕ) (bytes : Bytes) (offset value : ℕ) : Bytes := fun j =>
  if offset ≤ j ∧ j < offset + w then UInt8.ofNat (value / 256 ^ (j - offset)) else bytes j

variable {w : ℕ} {bytes : Bytes} {offset value : ℕ}

/-- Two stores that agree on the bytes of a word hold the same word. -/
theorem word_congr {other : Bytes} (agree : ∀ j, offset ≤ j → j < offset + w → bytes j = other j) :
    word w bytes offset = word w other offset := by
  induction w generalizing offset with
  | zero => rfl
  | succ w ih =>
    rw [word, word, agree offset le_rfl (by omega),
      ih fun j low high => agree j (by omega) (by omega)]

/-- The bytes of a word, each the next base-256 digit of a value, are read as
that value. -/
theorem word_of_digits (fits : value < 256 ^ w)
    (digits : ∀ j, j < w → bytes (offset + j) = UInt8.ofNat (value / 256 ^ j)) :
    word w bytes offset = value := by
  induction w generalizing offset value with
  | zero =>
    have : value = 0 := by simpa using fits
    simp [word, this]
  | succ w ih =>
    have quotient : value / 256 < 256 ^ w := by
      omega
    have tail : word w bytes (offset + 1) = value / 256 := by
      refine ih quotient fun j small => ?_
      have digit := digits (j + 1) (by omega)
      rw [show offset + 1 + j = offset + (j + 1) by omega, digit, pow_succ, Nat.mul_comm,
        Nat.div_div_eq_div_mul]
    have head : bytes offset = UInt8.ofNat value := by
      simpa using digits 0 (by omega)
    rw [word, head, UInt8.toNat_ofNat']
    omega

/-- **A word just written is read back.** -/
theorem word_putWord (fits : value < 256 ^ w) :
    word w (putWord w bytes offset value) offset = value := by
  refine word_of_digits fits fun j small => ?_
  rw [putWord, if_pos ⟨by omega, by omega⟩, Nat.add_sub_cancel_left]

theorem putWord_of_disjoint {j : ℕ} (outside : j < offset ∨ offset + w ≤ j) :
    putWord w bytes offset value j = bytes j := by
  rw [putWord, if_neg (by omega)]

/-- A word that a write does not overlap keeps its value. -/
theorem word_putWord_of_disjoint {v other : ℕ}
    (disjoint : other + v ≤ offset ∨ offset + w ≤ other) :
    word v (putWord w bytes offset value) other = word v bytes other :=
  word_congr fun _ _ _ => putWord_of_disjoint (by omega)

end Words
