import Xv6Uac.User.System
import Mathlib.Data.List.TakeWhile
import Mathlib.Tactic.IntervalCases

/-!
# The records of the account files

A line of `/etc/passwd` is a `struct user`, and a line of `/etc/group` is a `struct group`. `user`
and `group` take the fields of a line apart at the colons, and `writeuser` and `writegroup` put
them together again.

An id is written by a loop that takes its digits off from the right. For a negative id the
remainders are negative, so the characters that are written are below `0`. The loop of `writeuser`
for the uid moreover stops at once, and all but the last character are what the stack held before.
So a record comes back as it was written if and only if its ids are not negative
(`records_round_trip_iff`).
-/

namespace Xv6Uac.Accounts

open List

/-! ## Numbers -/

abbrev colon : UInt8 := 58

/-- A value as an `int`. -/
def toInt (n : ℤ) : ℤ := n.bmod (2 ^ 32)

/-- The values of type `int`. -/
def IsInt (n : ℤ) : Prop := -2 ^ 31 ≤ n ∧ n < 2 ^ 31

instance (n : ℤ) : Decidable (IsInt n) := inferInstanceAs (Decidable (_ ∧ _))

/-- No `int` has more digits. -/
abbrev INTDIGITS : ℕ := 10

def isDigit (b : UInt8) : Bool := 48 ≤ b && b ≤ 57

/-- The loop of `atoi`. -/
def atoiLoop (n : ℤ) : Bytes → ℤ
  | [] => n
  | b :: rest => if isDigit b then atoiLoop (toInt (n * 10 + b.toNat - 48)) rest else n

def atoi (s : Bytes) : ℤ := atoiLoop 0 s

/-- The loop of `digitcount`. -/
def digitcountLoop : ℕ → ℤ → ℕ → ℕ
  | 0, _, digits => digits
  | k + 1, val, digits =>
    if val.tdiv 10 = 0 then digits + 1 else digitcountLoop k (val.tdiv 10) (digits + 1)

def digitcount (val : ℤ) : ℕ := digitcountLoop INTDIGITS val 0

/-- The character `'0' + d`. -/
def digitChar (d : ℤ) : UInt8 := UInt8.ofNat (48 + d).toNat

/-- The loops that write a number from the right, up to a value for which they stop. -/
def digitsLoop (stop : ℤ → Bool) : ℕ → ℤ → Bytes → Bytes
  | 0, _, written => written
  | k + 1, temp, written =>
    let written := digitChar (temp.tmod 10) :: written
    if stop (temp.tdiv 10) then written else digitsLoop stop k (temp.tdiv 10) written

/-- An array of `digitcount val` characters after such a loop. The loop leaves the characters at
the front as they were. -/
def numberString (stop : ℤ → Bool) (garbage : ℕ → UInt8) (val : ℤ) : Bytes :=
  let written := digitsLoop stop INTDIGITS val []
  (List.range (digitcount val - written.length)).map garbage ++ written

/-- `uidstring` of `writeuser`. -/
def uidstring (garbage : ℕ → UInt8) (uid : ℤ) : Bytes := numberString (· ≤ 0) garbage uid

/-- `gidstring` of `writeuser` and `writegroup`. -/
def gidstring (garbage : ℕ → UInt8) (gid : ℤ) : Bytes := numberString (· = 0) garbage gid

/-! ## Records -/

/-- `struct user`. -/
structure User where
  username : Bytes
  password : Option Bytes
  uid : ℤ
  gid : ℤ
  fullname : Bytes
  homedir : Bytes
deriving DecidableEq

/-- `struct group`. -/
structure Group where
  groupname : Bytes
  gid : ℤ
  users : Option Bytes
deriving DecidableEq

def getuserlength (usr : User) : ℕ :=
  usr.username.length + 2 + (usr.password.elim 0 List.length) + (digitcount usr.uid + 1) +
    (digitcount usr.gid + 1) + (usr.fullname.length + 1) + usr.homedir.length

def getgrouplength (grp : Group) : ℕ :=
  grp.groupname.length + 1 + (digitcount grp.gid + 1) + (grp.users.elim 0 List.length)

/-- The `n` bytes that `strncpy` writes. -/
def strncpy (t : Bytes) (n : ℕ) : Bytes :=
  let copied := (t.take n).takeWhile (· != 0)
  copied ++ List.replicate (n - copied.length) 0

/-- The bytes of a string that may be missing. -/
def optional (field : Option Bytes) : Bytes := field.elim [] fun s => strncpy s s.length

/-- The line that `writeuser` hands to `addline` or `changeline`. -/
def userLine (garbage : ℕ → UInt8) (usr : User) : Bytes :=
  strncpy usr.username usr.username.length ++ [colon] ++ optional usr.password ++ [colon] ++
    strncpy (uidstring garbage usr.uid) (digitcount usr.uid) ++ [colon] ++
    strncpy (gidstring garbage usr.gid) (digitcount usr.gid) ++ [colon] ++
    strncpy usr.fullname usr.fullname.length ++ [colon] ++
    strncpy usr.homedir usr.homedir.length

/-- The line that `writegroup` hands to `addline` or `changeline`. -/
def groupLine (garbage : ℕ → UInt8) (grp : Group) : Bytes :=
  strncpy grp.groupname grp.groupname.length ++ [colon] ++
    strncpy (gidstring garbage grp.gid) (digitcount grp.gid) ++ [colon] ++ optional grp.users

/-- The field at the front of a buffer, and what comes after it and its delimiter: the next colon
or else the end of the string. A buffer without either is read beyond its end. -/
def segment (mem : Bytes) : Option (Bytes × Bytes) :=
  let field := mem.takeWhile fun b => b != colon && b != 0
  if field.length < mem.length then some (field, mem.drop (field.length + 1)) else none

/-- A field that is left out if it is empty. -/
def nonempty (field : Bytes) : Option Bytes := if field = [] then none else some field

/-- `user`, on a buffer that begins with the line. -/
def user (mem : Bytes) : Option User := do
  let (username, mem) ← segment mem
  let (password, mem) ← segment mem
  let (uid, mem) ← segment mem
  let (gid, mem) ← segment mem
  let (fullname, mem) ← segment mem
  let (homedir, _) ← segment mem
  pure ⟨username, nonempty password, atoi uid, atoi gid, fullname, homedir⟩

/-- `group`, on a buffer that begins with the line. -/
def group (mem : Bytes) : Option Group := do
  let (groupname, mem) ← segment mem
  let (gid, mem) ← segment mem
  let (users, _) ← segment mem
  pure ⟨groupname, atoi gid, nonempty users⟩

/-! ## Fields -/

/-- A string that can be a field: it has no colon, no newline and no NUL. -/
def Plain (s : Bytes) : Prop := ∀ b ∈ s, b ≠ colon ∧ b ≠ 10 ∧ b ≠ 0

instance (s : Bytes) : Decidable (Plain s) := List.decidableBAll _ s

/-- The bytes of a field of a line. -/
def Delimited (s : Bytes) : Prop := ∀ b ∈ s, b ≠ colon ∧ b ≠ 0

theorem Plain.delimited {s : Bytes} (plain : Plain s) : Delimited s := fun b member =>
  ⟨(plain b member).1, (plain b member).2.2⟩

theorem strncpy_self {s : Bytes} (delimited : Delimited s) : strncpy s s.length = s := by
  have all : s.takeWhile (· != 0) = s :=
    List.takeWhile_eq_self_iff.mpr fun b member => by simpa using (delimited b member).2
  simp [strncpy, all]

/-- A field is found again in front of its delimiter. -/
theorem segment_append {s rest : Bytes} (delimited : Delimited s) {d : UInt8}
    (delimiter : d = colon ∨ d = 0) : segment (s ++ d :: rest) = some (s, rest) := by
  have all : (s ++ d :: rest).takeWhile (fun b => b != colon && b != 0) = s := by
    rw [takeWhile_append_of_pos fun b member => by
      simpa using delimited b member]
    obtain rfl | rfl := delimiter <;> simp
  simp only [segment, all]
  simp

theorem segment_bind {α : Type} {s rest : Bytes} (delimited : Delimited s) {d : UInt8}
    (delimiter : d = colon ∨ d = 0) (next : Bytes × Bytes → Option α) :
    (segment (s ++ d :: rest) >>= next) = next (s, rest) := by
  rw [segment_append delimited delimiter]
  rfl

/-! ## Digits -/

section Digits

variable {stop : ℤ → Bool} {k : ℕ} {temp : ℤ} {written : Bytes}

theorem toInt_of_isInt {n : ℤ} (small : IsInt n) : toInt n = n := by
  obtain ⟨least, most⟩ := small
  exact Int.bmod_eq_of_le (by omega) (by omega)

theorem isDigit_digitChar {d : ℤ} (least : 0 ≤ d) (most : d < 10) :
    isDigit (digitChar d) = true ∧ ((digitChar d).toNat : ℤ) = 48 + d := by
  interval_cases d <;> decide

theorem not_isDigit_digitChar {d : ℤ} (least : -10 < d) (most : d < 0) :
    isDigit (digitChar d) = false := by
  interval_cases d <;> decide

theorem atoiLoop_digitChar {n d : ℤ} (least : 0 ≤ d) (most : d < 10) (rest : Bytes)
    (small : IsInt (n * 10 + d)) :
    atoiLoop n (digitChar d :: rest) = atoiLoop (n * 10 + d) rest := by
  obtain ⟨digit, value⟩ := isDigit_digitChar least most
  rw [atoiLoop, if_pos digit, value, show n * 10 + (48 + d) - 48 = n * 10 + d by ring,
    toInt_of_isInt small]

/-- `atoi` reads the digits that have been written and goes on with the rest. -/
theorem atoiLoop_digitsLoop (stops : ∀ n : ℤ, 0 ≤ n → (stop n = true ↔ n = 0)) (nonneg : 0 ≤ temp)
    (small : temp < 2 ^ 31) (enough : temp < 10 ^ k) :
    atoiLoop 0 (digitsLoop stop k temp written) = atoiLoop temp written := by
  induction k generalizing temp written with
  | zero =>
    have zero : temp = 0 := by simp at enough; omega
    rw [digitsLoop, zero]
  | succ k ih =>
    have last : ∀ n : ℤ, n * 10 + temp % 10 = temp →
        atoiLoop n (digitChar (temp % 10) :: written) = atoiLoop temp written := by
      intro n whole
      have isInt : IsInt (n * 10 + temp % 10) := by
        rw [IsInt]
        omega
      rw [atoiLoop_digitChar (by omega) (by omega) written isInt, whole]
    rw [digitsLoop, Int.tdiv_eq_ediv_of_nonneg nonneg, Int.tmod_eq_emod_of_nonneg nonneg]
    split
    · rename_i stopped
      have zero := (stops _ (by omega)).mp stopped
      exact last 0 (by omega)
    · rw [ih (by omega) (by omega) (by rw [pow_succ] at enough; omega)]
      exact last _ (by omega)

/-- Division of a negative number goes towards 0. -/
theorem tdiv_neg (negative : temp < 0) :
    temp.tdiv 10 = -(-temp / 10) ∧ temp.tmod 10 = -(-temp % 10) := by
  obtain ⟨n, rfl⟩ : ∃ n, temp = -n := ⟨-temp, (neg_neg temp).symm⟩
  rw [Int.neg_tdiv, Int.neg_tmod, neg_neg, Int.tdiv_eq_ediv_of_nonneg (by omega),
    Int.tmod_eq_emod_of_nonneg (by omega)]
  exact ⟨rfl, rfl⟩

/-- A negative number is read as 0. -/
theorem atoiLoop_digitsLoop_neg (stops : ∀ n : ℤ, stop n = true ↔ n = 0) (negative : temp < 0)
    (enough : -10 ^ k < temp) : atoiLoop 0 (digitsLoop stop k temp written) = 0 := by
  induction k generalizing temp written with
  | zero => simp at enough; omega
  | succ k ih =>
    obtain ⟨quotient, remainder⟩ := tdiv_neg negative
    rw [digitsLoop, quotient, remainder]
    split
    · rename_i stopped
      have zero := (stops _).mp stopped
      have other := not_isDigit_digitChar (d := -(-temp % 10)) (by omega) (by omega)
      rw [atoiLoop, other]
      rfl
    · rename_i more
      have nonzero : ¬-(-temp / 10) = 0 := fun zero => more ((stops _).mpr zero)
      exact ih (by omega) (by rw [pow_succ] at enough; omega)

/-- The loop writes as many characters as `digitcount` counts, if it stops at 0. -/
theorem length_digitsLoop (digits : ℕ)
    (stops : ∀ n : ℤ, (0 ≤ temp → 0 ≤ n) → (stop n = true ↔ n = 0)) :
    (digitsLoop stop k temp written).length + digits =
      digitcountLoop k temp digits + written.length := by
  induction k generalizing temp written digits with
  | zero =>
    rw [digitsLoop, digitcountLoop]
    omega
  | succ k ih =>
    have down : 0 ≤ temp → 0 ≤ temp.tdiv 10 := fun nonneg => Int.tdiv_nonneg nonneg (by decide)
    rw [digitsLoop, digitcountLoop]
    simp only [stops _ down]
    split
    · rw [length_cons]
      omega
    · have rest := @ih (temp.tdiv 10) (digitChar (temp.tmod 10) :: written) (digits + 1)
        fun n nonneg => stops n fun pos => nonneg (down pos)
      rw [length_cons] at rest
      omega

theorem le_digitcountLoop (k : ℕ) (val : ℤ) (digits : ℕ) : digits ≤ digitcountLoop k val digits := by
  induction k generalizing val digits with
  | zero => exact le_rfl
  | succ k ih =>
    rw [digitcountLoop]
    split
    · omega
    · exact (Nat.le_succ digits).trans (ih _ _)

theorem digitChar_plain (temp : ℤ) :
    digitChar (temp.tmod 10) ≠ colon ∧ digitChar (temp.tmod 10) ≠ 10 ∧
      digitChar (temp.tmod 10) ≠ 0 := by
  have least : -10 < temp.tmod 10 := Int.lt_tmod_of_pos temp (by decide)
  have most : temp.tmod 10 < 10 := Int.tmod_lt_of_pos temp (by decide)
  generalize temp.tmod 10 = d at *
  interval_cases d <;> decide

theorem plain_digitsLoop (plain : Plain written) : Plain (digitsLoop stop k temp written) := by
  induction k generalizing temp written with
  | zero => exact plain
  | succ k ih =>
    have next : Plain (digitChar (temp.tmod 10) :: written) :=
      List.forall_mem_cons.mpr ⟨digitChar_plain temp, plain⟩
    rw [digitsLoop]
    split
    · exact next
    · exact ih next

end Digits

/-! ## Ids -/

section Ids

variable {garbage : ℕ → UInt8} {id : ℤ}

theorem numberString_eq (garbage : ℕ → UInt8) {stop : ℤ → Bool}
    (stops : ∀ n : ℤ, (0 ≤ id → 0 ≤ n) → (stop n = true ↔ n = 0)) :
    numberString stop garbage id = digitsLoop stop INTDIGITS id [] ∧
      (digitsLoop stop INTDIGITS id []).length = digitcount id := by
  have same : (digitsLoop stop INTDIGITS id []).length = digitcount id :=
    length_digitsLoop 0 stops
  rw [numberString]
  simp [same]

/-- How an id stands in a line. -/
structure Stands (text : Bytes) (id : ℤ) : Prop where
  delimited : Delimited text
  length : text.length = digitcount id

theorem Stands.strncpy_eq {text : Bytes} (stands : Stands text id) :
    strncpy text (digitcount id) = text := by
  rw [← stands.length]
  exact strncpy_self stands.delimited

theorem stands_of_stops {stop : ℤ → Bool}
    (stops : ∀ n : ℤ, (0 ≤ id → 0 ≤ n) → (stop n = true ↔ n = 0)) :
    Stands (numberString stop garbage id) id := by
  obtain ⟨same, length⟩ := numberString_eq garbage stops
  have none : Plain [] := fun _ inside => absurd inside not_mem_nil
  rw [same]
  exact ⟨(plain_digitsLoop none).delimited, length⟩

/-- The loop for the gid stops at 0. -/
theorem gid_stops (n : ℤ) : decide (n = 0) = true ↔ n = 0 := decide_eq_true_iff

/-- The loop for the uid stops at 0 or below. -/
theorem uid_stops {n : ℤ} (nonneg : 0 ≤ n) : decide (n ≤ 0) = true ↔ n = 0 := by
  rw [decide_eq_true_iff]
  omega

theorem gidstring_stands (garbage : ℕ → UInt8) (gid : ℤ) : Stands (gidstring garbage gid) gid :=
  stands_of_stops fun n _ => gid_stops n

theorem uidstring_stands (garbage : ℕ → UInt8) (nonneg : 0 ≤ id) : Stands (uidstring garbage id) id :=
  stands_of_stops fun _ up => uid_stops (up nonneg)

theorem atoi_numberString {stop : ℤ → Bool} (stops : ∀ n : ℤ, 0 ≤ n → (stop n = true ↔ n = 0))
    (isInt : IsInt id) (nonneg : 0 ≤ id) : atoi (numberString stop garbage id) = id := by
  rw [IsInt] at isInt
  rw [(numberString_eq garbage fun n up => stops n (up nonneg)).1, atoi,
    atoiLoop_digitsLoop stops nonneg isInt.2 (by simp only [INTDIGITS]; omega)]
  rfl

theorem atoi_gidstring_neg (garbage : ℕ → UInt8) (isInt : IsInt id) (negative : id < 0) :
    atoi (gidstring garbage id) = 0 := by
  rw [IsInt] at isInt
  rw [gidstring, (numberString_eq garbage fun n _ => gid_stops n).1]
  exact atoiLoop_digitsLoop_neg gid_stops negative (by simp only [INTDIGITS]; omega)

/-- The loop for a negative uid writes one character. -/
theorem uidstring_neg (negative : id < 0) :
    uidstring garbage id =
      (List.range (digitcount id - 1)).map garbage ++ [digitChar (id.tmod 10)] := by
  have down : id.tdiv 10 ≤ 0 := by
    rw [(tdiv_neg negative).1]
    omega
  have one : digitsLoop (· ≤ 0) INTDIGITS id [] = [digitChar (id.tmod 10)] := by
    rw [digitsLoop, if_pos (decide_eq_true down)]
  rw [uidstring, numberString, one]
  rfl

/-- On a stack that holds letters a negative uid is read as 0. -/
theorem uidstring_letters (negative : id < 0) :
    Stands (uidstring (fun _ => 120) id) id ∧ atoi (uidstring (fun _ => 120) id) = 0 := by
  have counted : 1 ≤ digitcount id ∧ (id.tdiv 10 ≠ 0 → 2 ≤ digitcount id) := by
    rw [digitcount, digitcountLoop, digitcountLoop]
    split
    · exact ⟨le_rfl, fun more => absurd ‹_› more⟩
    · split
      · exact ⟨by decide, fun _ => le_rfl⟩
      · have least := le_digitcountLoop 8 ((id.tdiv 10).tdiv 10) 2
        exact ⟨(by decide : 1 ≤ 2).trans least, fun _ => least⟩
  rw [uidstring_neg negative]
  refine ⟨⟨?_, ?_⟩, ?_⟩
  · intro b member
    rw [mem_append, mem_map, mem_singleton] at member
    obtain ⟨-, -, rfl⟩ | rfl := member
    · decide
    · exact ⟨(digitChar_plain id).1, (digitChar_plain id).2.2⟩
  · simp only [length_append, length_map, length_range, length_singleton]
    omega
  · by_cases single : id.tdiv 10 = 0
    · have one : digitcount id = 1 := by rw [digitcount, digitcountLoop, if_pos single]
      obtain ⟨quotient, remainder⟩ := tdiv_neg negative
      have other := not_isDigit_digitChar (d := id.tmod 10) (by omega) (by omega)
      rw [one, atoi]
      simp [atoiLoop, other]
    · obtain ⟨n, many⟩ := Nat.exists_eq_add_of_le (counted.2 single)
      rw [many, show 2 + n - 1 = n + 1 by omega, range_succ_eq_map]
      rfl

end Ids

/-! ## Lines -/

/-- A record as `user` reads it: an empty password is none. -/
def User.read (usr : User) : User := { usr with password := usr.password.bind nonempty }

/-- A record as `group` reads it: an empty list of members is none. -/
def Group.read (grp : Group) : Group := { grp with users := grp.users.bind nonempty }

/-- The record comes back from its line, and the line has the length that was computed. -/
def User.RoundTrip (usr : User) : Prop :=
  ∀ garbage stale, user (userLine garbage usr ++ 0 :: stale) = some usr.read ∧
    (userLine garbage usr).length = getuserlength usr

def Group.RoundTrip (grp : Group) : Prop :=
  ∀ garbage stale, group (groupLine garbage grp ++ 0 :: stale) = some grp.read ∧
    (groupLine garbage grp).length = getgrouplength grp

/-- The fields of a record are strings without delimiters, and its ids are of type `int`. -/
structure User.Clean (usr : User) : Prop where
  username : Plain usr.username
  password : ∀ s ∈ usr.password, Plain s
  uid : IsInt usr.uid
  gid : IsInt usr.gid
  fullname : Plain usr.fullname
  homedir : Plain usr.homedir

structure Group.Clean (grp : Group) : Prop where
  groupname : Plain grp.groupname
  gid : IsInt grp.gid
  users : ∀ s ∈ grp.users, Plain s

instance (field : Option Bytes) : Decidable (∀ s ∈ field, Plain s) :=
  match field with
  | none => isTrue (fun _ none => nomatch none)
  | some s => decidable_of_iff (Plain s) (by simp)

/-- The bytes of a field that may be missing. -/
theorem optional_eq {field : Option Bytes} (plain : ∀ s ∈ field, Plain s) :
    optional field = field.getD [] ∧ Delimited (field.getD []) ∧
      nonempty (field.getD []) = field.bind nonempty ∧
      (field.getD []).length = field.elim 0 List.length := by
  cases field with
  | none => exact ⟨rfl, (fun _ none => nomatch none), rfl, rfl⟩
  | some s => exact ⟨strncpy_self (plain s rfl).delimited, (plain s rfl).delimited, rfl, rfl⟩

/-- The line of a clean record, and what `user` makes of it. -/
theorem user_userLine {garbage : ℕ → UInt8} {usr : User} (clean : usr.Clean)
    (stands : Stands (uidstring garbage usr.uid) usr.uid) :
    (userLine garbage usr).length = getuserlength usr ∧
      ∀ stale, user (userLine garbage usr ++ 0 :: stale) = some { usr.read with
        uid := atoi (uidstring garbage usr.uid), gid := atoi (gidstring garbage usr.gid) } := by
  have standsG := gidstring_stands garbage usr.gid
  obtain ⟨copied, delimited, read, length⟩ := optional_eq clean.password
  rw [userLine, copied, stands.strncpy_eq, standsG.strncpy_eq,
    strncpy_self clean.username.delimited, strncpy_self clean.fullname.delimited,
    strncpy_self clean.homedir.delimited]
  constructor
  · simp only [length_append, length_singleton, stands.length, standsG.length,
      getuserlength]
    omega
  · intro stale
    simp only [append_assoc, cons_append, nil_append, user]
    rw [segment_bind clean.username.delimited (.inl rfl), segment_bind delimited (.inl rfl),
      segment_bind stands.delimited (.inl rfl), segment_bind standsG.delimited (.inl rfl),
      segment_bind clean.fullname.delimited (.inl rfl),
      segment_bind clean.homedir.delimited (.inr rfl), read]
    rfl

/-- The line of a clean record, and what `group` makes of it. -/
theorem group_groupLine {grp : Group} (clean : grp.Clean) (garbage : ℕ → UInt8) :
    (groupLine garbage grp).length = getgrouplength grp ∧
      ∀ stale, group (groupLine garbage grp ++ 0 :: stale) = some { grp.read with
        gid := atoi (gidstring garbage grp.gid) } := by
  have stands := gidstring_stands garbage grp.gid
  obtain ⟨copied, delimited, read, length⟩ := optional_eq clean.users
  rw [groupLine, copied, stands.strncpy_eq, strncpy_self clean.groupname.delimited]
  constructor
  · simp only [length_append, length_singleton, stands.length, getgrouplength]
    omega
  · intro stale
    simp only [append_assoc, cons_append, nil_append, group]
    rw [segment_bind clean.groupname.delimited (.inl rfl),
      segment_bind stands.delimited (.inl rfl), segment_bind delimited (.inr rfl), read]
    rfl

/-- A group comes back if and only if its gid is not negative. -/
theorem Group.roundTrip_iff {grp : Group} (clean : grp.Clean) : grp.RoundTrip ↔ 0 ≤ grp.gid := by
  constructor
  · intro trip
    by_contra negative
    have same := (trip (fun _ => 0) []).1
    rw [(group_groupLine clean _).2, atoi_gidstring_neg _ clean.gid (by omega)] at same
    have zero : 0 = grp.gid := congrArg Group.gid (Option.some.inj same)
    omega
  · intro nonneg garbage stale
    obtain ⟨length, back⟩ := group_groupLine clean garbage
    have gid : atoi (gidstring garbage grp.gid) = grp.gid :=
      atoi_numberString (fun n _ => gid_stops n) clean.gid nonneg
    rw [back, gid]
    exact ⟨rfl, length⟩

/-- A user comes back if and only if both ids are not negative. -/
theorem User.roundTrip_iff {usr : User} (clean : usr.Clean) :
    usr.RoundTrip ↔ 0 ≤ usr.uid ∧ 0 ≤ usr.gid := by
  constructor
  · intro trip
    -- on a stack that holds letters both ids have to be read as they are
    have same := (trip (fun _ => 120) []).1
    have stands : Stands (uidstring (fun _ => 120) usr.uid) usr.uid ∧
        (usr.uid < 0 → atoi (uidstring (fun _ => 120) usr.uid) = 0) := by
      by_cases nonneg : 0 ≤ usr.uid
      · exact ⟨uidstring_stands _ nonneg, fun negative => by omega⟩
      · have letters := uidstring_letters (not_le.mp nonneg)
        exact ⟨letters.1, fun _ => letters.2⟩
    rw [(user_userLine clean stands.1).2] at same
    have uid : atoi (uidstring (fun _ => 120) usr.uid) = usr.uid :=
      congrArg User.uid (Option.some.inj same)
    have gid : atoi (gidstring (fun _ => 120) usr.gid) = usr.gid :=
      congrArg User.gid (Option.some.inj same)
    constructor
    · by_contra negative
      omega
    · by_contra negative
      have zero := atoi_gidstring_neg (fun _ => 120) clean.gid (by omega)
      omega
  · rintro ⟨nonnegU, nonnegG⟩ garbage stale
    obtain ⟨length, back⟩ := user_userLine clean (uidstring_stands garbage nonnegU)
    have uid : atoi (uidstring garbage usr.uid) = usr.uid :=
      atoi_numberString (fun _ => uid_stops) clean.uid nonnegU
    have gid : atoi (gidstring garbage usr.gid) = usr.gid :=
      atoi_numberString (fun n _ => gid_stops n) clean.gid nonnegG
    rw [back, uid, gid]
    exact ⟨rfl, length⟩

/-- **A clean record comes back from its line if and only if its ids are not negative.** -/
theorem records_round_trip_iff (usr : User) (cleanUser : usr.Clean) (grp : Group)
    (cleanGroup : grp.Clean) :
    (usr.RoundTrip ↔ 0 ≤ usr.uid ∧ 0 ≤ usr.gid) ∧ (grp.RoundTrip ↔ 0 ≤ grp.gid) :=
  ⟨User.roundTrip_iff cleanUser, Group.roundTrip_iff cleanGroup⟩

/-- The record of the user 0 and a group with two members come back. -/
theorem records_round_trip_of_root :
    User.RoundTrip ⟨[114], some [112], 0, 0, [], [47]⟩ ∧
      Group.RoundTrip ⟨[103], 1002, some [97, 44, 98]⟩ := by
  have spec := records_round_trip_iff ⟨[114], some [112], 0, 0, [], [47]⟩
    ⟨by decide, by decide, by decide, by decide, by decide, by decide⟩
    ⟨[103], 1002, some [97, 44, 98]⟩ ⟨by decide, by decide, by decide⟩
  exact ⟨spec.1.mpr ⟨by decide, by decide⟩, spec.2.mpr (by decide)⟩

/-- The user -1 is read as the user 0, and the group -1 as the group 0. -/
theorem negative_ids_read_as_zero :
    (user (userLine (fun _ => 0) ⟨[97], none, -1, 5, [], []⟩ ++ [0])).map User.uid = some 0 ∧
      (group (groupLine (fun _ => 0) ⟨[97], -1, none⟩ ++ [0])).map Group.gid = some 0 := by
  decide

end Xv6Uac.Accounts
