import Mathlib.Algebra.Group.Nat.Defs
import Mathlib.Tactic.SplitIfs

/-!
# Printing numbers on the console

`printint` of `console.c`, and the conversions of `cprintf` that call it. The digits go to a buffer
of 16 bytes and are printed from its end. The decimal numerals fit into it, but `%x` and `%p` print
in base 2, and a word with a bit beyond the low 16 does not (`print_exact_iff`).
-/

namespace Xv6Uac.Console

/-- `digits` -/
def digits : List Char :=
  ['0', '1', '2', '3', '4', '5', '6', '7', '8', '9', 'a', 'b', 'c', 'd', 'e', 'f']

/-- `sizeof(buf)` -/
abbrev printSize : ℕ := 16

/-- The `do` loop of `printint`: what it puts into the buffer, with the room that is left there. -/
def digitLoop (base : ℕ) : ℕ → ℕ → Option (List Char)
  | 0, _ => none
  | room + 1, x =>
    if x / base ≠ 0 then (digitLoop base room (x / base)).map (digits.getD (x % base) ' ' :: ·)
    else some [digits.getD (x % base) ' ']

/-- The characters that `printint` prints, or `none` if it writes beyond the buffer. -/
def printint (xx : BitVec 32) (base : ℕ) (sign : Bool) : Option (List Char) := do
  let sign := sign && xx.slt 0#32
  let x := if sign then -xx else xx
  let buf ← digitLoop base printSize x.toNat
  if sign then
    if buf.length < printSize then some (buf ++ ['-']).reverse else none
  else
    some buf.reverse

/-- The conversions of `cprintf` with a number. -/
inductive Conversion where
  | d | x | p
deriving DecidableEq

def Conversion.print (arg : BitVec 32) : Conversion → Option (List Char)
  | .d => printint arg 10 true
  | .x | .p => printint arg 2 false

/-- The numeral of an integer in a base. -/
def numeral (base : ℕ) (value : ℤ) : List Char :=
  (if value < 0 then ['-'] else []) ++ Nat.toDigits base value.natAbs

/-- What a conversion should print: the word as an `int` in base 10, or as an `uint` in base 2. -/
def Conversion.numeral (arg : BitVec 32) : Conversion → List Char
  | .d => Console.numeral 10 arg.toInt
  | .x | .p => Console.numeral 2 arg.toNat

theorem digits_getD : ∀ {d : ℕ}, d < 16 → digits.getD d ' ' = d.digitChar := by decide

/-- The loop stores the numeral backwards, if there is room for it. -/
theorem digitLoop_eq {base : ℕ} (two : 1 < base) (most : base ≤ 16) (room x : ℕ) :
    digitLoop base room x = if (Nat.toDigits base x).length ≤ room
      then some (Nat.toDigits base x).reverse else none := by
  induction room generalizing x with
  | zero => exact (if_neg (Nat.not_le.mpr Nat.length_toDigits_pos)).symm
  | succ room ih =>
    have digit := digits_getD (Nat.lt_of_lt_of_le (Nat.mod_lt x (Nat.zero_lt_of_lt two)) most)
    rw [digitLoop, digit, ih, Nat.toDigits_eq_if two (n := x)]
    by_cases last : x < base
    · simp [last, Nat.mod_eq_of_lt last]
    · have more : x / base ≠ 0 :=
        Nat.ne_of_gt (Nat.div_pos (Nat.not_lt.mp last) (Nat.zero_lt_of_lt two))
      simp only [if_neg last, List.length_append, List.length_singleton,
        Nat.add_le_add_iff_right, List.reverse_append]
      split_ifs <;> rfl

theorem print_binary_iff (arg : BitVec 32) :
    printint arg 2 false = some (numeral 2 arg.toNat) ↔ arg.toNat < 2 ^ 16 := by
  have fits := Nat.length_toDigits_le_iff (n := arg.toNat) (show 1 < 2 by decide)
    (show 0 < printSize by decide)
  have unsigned : numeral 2 arg.toNat = Nat.toDigits 2 arg.toNat := by
    rw [numeral, if_neg (Int.not_lt.mpr (Int.natCast_nonneg _)), Int.natAbs_natCast,
      List.nil_append]
  have printed : printint arg 2 false = (digitLoop 2 printSize arg.toNat).map List.reverse := by
    cases stored : digitLoop 2 printSize arg.toNat <;> simp [printint, stored]
  rw [printed, unsigned, digitLoop_eq (by decide) (by decide), ← fits]
  split_ifs with small <;> simp [small]

/-- The most negative `int` is its own negative, and its 10 digits are printed. -/
theorem print_decimal (arg : BitVec 32) : printint arg 10 true = some (numeral 10 arg.toInt) := by
  have fits : ∀ x : BitVec 32, (Nat.toDigits 10 x.toNat).length ≤ 10 := fun x =>
    (Nat.length_toDigits_le_iff (by decide) (by decide)).mpr (Nat.lt_trans x.isLt (by decide))
  have loop : ∀ x : BitVec 32, digitLoop 10 printSize x.toNat =
      some (Nat.toDigits 10 x.toNat).reverse := by
    intro x
    rw [digitLoop_eq (by decide) (by decide), if_pos (Nat.le_trans (fits x) (by decide))]
  by_cases negative : arg.slt 0#32 = true
  · have below : arg.toInt < 0 := BitVec.slt_iff_toInt_lt.mp negative
    have size : (-arg).toNat = arg.toInt.natAbs := by
      rw [BitVec.toInt_eq_toNat_cond] at *
      simp only [BitVec.toNat_neg]
      omega
    have room : (Nat.toDigits 10 (-arg).toNat).length < printSize :=
      Nat.lt_of_le_of_lt (fits _) (by decide)
    simp [printint, negative, loop, room, numeral, below, ← size, - BitVec.toNat_neg]
  · have above : ¬arg.toInt < 0 := fun below => negative (BitVec.slt_iff_toInt_lt.mpr below)
    have size : arg.toNat = arg.toInt.natAbs := by
      rw [BitVec.toInt_eq_toNat_cond] at *
      omega
    simp [printint, negative, loop, numeral, above, ← size]

/-- **Numbers are printed exactly, as far as they fit.** For every word and every conversion,
`printint` stays in its buffer and prints the numeral if and only if the conversion is `%d` or the
word is below `2 ^ 16`. -/
theorem print_exact_iff (arg : BitVec 32) (conversion : Conversion) :
    conversion.print arg = some (conversion.numeral arg) ↔
      conversion = .d ∨ arg.toNat < 2 ^ 16 := by
  cases conversion with
  | d => exact iff_of_true (print_decimal arg) (.inl rfl)
  | x | p => exact (print_binary_iff arg).trans (or_iff_right nofun).symm

/-- A kernel address does not fit. -/
theorem print_address : Conversion.p.print 0x80100000 = none := by
  decide

end Xv6Uac.Console
