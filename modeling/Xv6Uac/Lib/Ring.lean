import Mathlib.Data.List.Basic
import Mathlib.Data.Nat.ModEq

/-!
# Ring buffers with free-running counters

A ring of `cap` places with a counter of what has been put in and one of what has been taken
out. The counters are machine words that are never reset: they wrap, and a place is found by
the remainder of a counter. Empty and full are told apart by equality of the counters and by
a difference of `cap`. All of this is right if `cap` divides the number of values of a word
and is less than it.

`Holds` says which queue a ring stands for. Putting in appends to it (`Holds.push`), and
taking out removes its first element (`Holds.pop`), across any number of wraps.
-/

namespace Ring

open List

variable {α : Type*} {w cap : ℕ}

/-- The places and the counters. -/
structure Buffer (α : Type*) (w : ℕ) where
  data : ℕ → α
  nread : BitVec w
  nwrite : BitVec w

namespace Buffer

/-- The place of a counter. -/
def place (cap : ℕ) (counter : BitVec w) : ℕ := counter.toNat % cap

/-- Nothing to take out. -/
def Empty (r : Buffer α w) : Prop := r.nread = r.nwrite

/-- No place to put anything in. -/
def Full (cap : ℕ) (r : Buffer α w) : Prop := r.nwrite = r.nread + BitVec.ofNat w cap

instance (r : Buffer α w) : Decidable r.Empty := inferInstanceAs (Decidable (_ = _))

instance (r : Buffer α w) : Decidable (r.Full cap) := inferInstanceAs (Decidable (_ = _))

/-- Put in. -/
def push (cap : ℕ) (r : Buffer α w) (a : α) : Buffer α w :=
  { r with data := Function.update r.data (place cap r.nwrite) a, nwrite := r.nwrite + 1 }

/-- What is taken out next. -/
def front (cap : ℕ) (r : Buffer α w) : α := r.data (place cap r.nread)

/-- Take out. -/
def pop (r : Buffer α w) : Buffer α w := { r with nread := r.nread + 1 }

end Buffer

/-- The queue that a ring stands for. -/
structure Holds (cap : ℕ) (r : Buffer α w) (queue : List α) : Prop where
  length : queue.length ≤ cap
  nwrite : r.nwrite = r.nread + BitVec.ofNat w queue.length
  at_ : ∀ k (small : k < queue.length), r.data ((r.nread.toNat + k) % cap) = queue[k]

section

variable {r : Buffer α w} {queue : List α} {a : α}

theorem place_add (divides : cap ∣ 2 ^ w) (counter : BitVec w) (k : ℕ) :
    Buffer.place cap (counter + BitVec.ofNat w k) = (counter.toNat + k) % cap := by
  rw [Buffer.place, BitVec.toNat_add, BitVec.toNat_ofNat, Nat.add_mod_mod,
    Nat.mod_mod_of_dvd _ divides]

/-- A counter tells two distances from another one apart, if they are less than a turn. -/
theorem add_ofNat_inj {counter : BitVec w} {i j : ℕ} (small : i < 2 ^ w) (small' : j < 2 ^ w) :
    counter + BitVec.ofNat w i = counter + BitVec.ofNat w j ↔ i = j := by
  constructor
  · intro same
    have same := congrArg BitVec.toNat (BitVec.add_right_inj counter |>.mp same)
    rwa [BitVec.toNat_ofNat, BitVec.toNat_ofNat, Nat.mod_eq_of_lt small,
      Nat.mod_eq_of_lt small'] at same
  · rintro rfl
    rfl

theorem Holds.empty_iff (holds : Holds cap r queue) (fits : cap < 2 ^ w) :
    r.Empty ↔ queue = [] := by
  have distance := @add_ofNat_inj w r.nread 0 queue.length (by omega)
    (by have := holds.length; omega)
  rw [BitVec.add_zero] at distance
  rw [Buffer.Empty, holds.nwrite, distance, eq_comm, length_eq_zero_iff]

theorem Holds.full_iff (holds : Holds cap r queue) (fits : cap < 2 ^ w) :
    r.Full cap ↔ queue.length = cap := by
  have := holds.length
  rw [Buffer.Full, holds.nwrite, add_ofNat_inj (by omega) fits]

theorem holds_nil {r : Buffer α w} (same : r.nread = r.nwrite) : Holds cap r [] :=
  ⟨by simp, by simp [same], by simp⟩

/-- **Putting in appends.** -/
theorem Holds.push (holds : Holds cap r queue) (divides : cap ∣ 2 ^ w)
    (room : queue.length < cap) : Holds cap (r.push cap a) (queue ++ [a]) where
  length := by
    rwa [length_append]
  nwrite := by
    simp only [Buffer.push, holds.nwrite, length_append]
    rw [BitVec.add_assoc, BitVec.ofNat_add]
    rfl
  at_ k small := by
    have last : Buffer.place cap r.nwrite = (r.nread.toNat + queue.length) % cap := by
      rw [holds.nwrite, place_add divides]
    simp only [Buffer.push, last]
    simp only [length_append, length_singleton] at small
    obtain rfl | before := Nat.lt_succ_iff_lt_or_eq.mp small |>.symm
    · simp
    · -- two places of one turn are different
      have apart : (r.nread.toNat + k) % cap ≠ (r.nread.toNat + queue.length) % cap := by
        intro same
        have same := Nat.ModEq.add_left_cancel' r.nread.toNat same
        rw [Nat.ModEq, Nat.mod_eq_of_lt (by omega), Nat.mod_eq_of_lt room] at same
        omega
      rw [Function.update_of_ne apart, holds.at_ k before, getElem_append_left before]

/-- What was put in last. -/
theorem Holds.last (holds : Holds cap r (queue ++ [a])) (divides : cap ∣ 2 ^ w) :
    r.data (Buffer.place cap (r.nwrite - 1)) = a := by
  have back : r.nwrite - 1 = r.nread + BitVec.ofNat w queue.length := by
    rw [holds.nwrite, length_append, BitVec.ofNat_add,
      ← BitVec.add_assoc]
    exact BitVec.add_sub_cancel _ _
  have at_ := holds.at_ queue.length (by simp)
  rw [back, place_add divides, at_]
  simp

/-- **Taking back what was put in last removes the last.** -/
theorem Holds.takeBack (holds : Holds cap r (queue ++ [a])) :
    Holds cap { r with nwrite := r.nwrite - 1 } queue where
  length := by
    have := holds.length
    rw [length_append] at this
    omega
  nwrite := by
    rw [holds.nwrite, length_append, BitVec.ofNat_add,
      ← BitVec.add_assoc]
    exact BitVec.add_sub_cancel _ _
  at_ k small := by
    have at_ := holds.at_ k (by rw [length_append]; omega)
    rw [at_, getElem_append_left small]

/-- The counters tell how many elements there are. -/
theorem Holds.distance (holds : Holds cap r queue) (fits : cap < 2 ^ w) :
    (r.nwrite - r.nread).toNat = queue.length := by
  have small := holds.length
  rw [holds.nwrite, BitVec.add_comm, BitVec.add_sub_cancel, BitVec.toNat_ofNat,
    Nat.mod_eq_of_lt (by omega)]

/-- **Taking out removes the first.** -/
theorem Holds.pop (holds : Holds cap r (a :: queue)) (divides : cap ∣ 2 ^ w) :
    r.front cap = a ∧ Holds cap r.pop queue := by
  constructor
  · have first := holds.at_ 0 (by simp)
    simpa [Buffer.front, Buffer.place] using first
  · refine ⟨by have := holds.length; simp at this; omega, ?_, fun k small => ?_⟩
    · simp only [Buffer.pop, holds.nwrite, length_cons]
      rw [BitVec.add_assoc, Nat.add_comm, BitVec.ofNat_add]
      rfl
    · have next := holds.at_ (k + 1) (by simpa using small)
      have shifted : r.pop.nread.toNat ≡ r.nread.toNat + 1 [MOD cap] := place_add divides r.nread 1
      have moved : (r.pop.nread.toNat + k) % cap = (r.nread.toNat + (k + 1)) % cap := by
        rw [Nat.add_comm k 1, ← Nat.add_assoc]
        exact shifted.add_right k
      rw [moved]
      simpa [Buffer.pop] using next

end

end Ring
