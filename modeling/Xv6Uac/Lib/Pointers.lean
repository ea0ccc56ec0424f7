import Mathlib.Data.Finset.Card

/-!
# Tables of pointers

How many entries of a table point to a cell, and what a change of one entry does to that number.
A reference count is right when it is such a number.
-/

namespace Pointers

variable {k : ℕ}

/-- How many of the first `n` pointers of a table point to `k`. -/
def pointers (n : ℕ) (g : ℕ → Option ℕ) (k : ℕ) : ℕ :=
  ((Finset.range n).filter fun x => g x = some k).card

theorem pointers_pos {n a : ℕ} {g : ℕ → Option ℕ} (small : a < n) (points : g a = some k) :
    0 < pointers n g k :=
  Finset.card_pos.mpr ⟨a, Finset.mem_filter.mpr ⟨Finset.mem_range.mpr small, points⟩⟩

/-- One pointer of a table that is changed. -/
theorem card_pointers_update {α : Type} [DecidableEq α] {table : Finset α} {a : α}
    (member : a ∈ table) {g g' : α → Option ℕ} (others : ∀ x, x ≠ a → g' x = g x) (k : ℕ) :
    (table.filter fun x => g' x = some k).card + (if g a = some k then 1 else 0) =
      (table.filter fun x => g x = some k).card + if g' a = some k then 1 else 0 := by
  have rest : ∀ h : α → Option ℕ, (table.filter fun x => h x = some k).card =
      ((table.erase a).filter fun x => h x = some k).card + if h a = some k then 1 else 0 := by
    intro h
    nth_rewrite 1 [← Finset.insert_erase member]
    rw [Finset.filter_insert]
    split
    · simp
    · rw [Nat.add_zero]
  have same : (table.erase a).filter (fun x => g' x = some k) =
      (table.erase a).filter fun x => g x = some k :=
    Finset.filter_congr fun x inside => by rw [others x (Finset.ne_of_mem_erase inside)]
  rw [rest g', rest g, same]
  omega

/-- A pointer that is changed to `b`. -/
theorem pointers_update {n a : ℕ} (small : a < n) (g : ℕ → Option ℕ) (b : Option ℕ) (k : ℕ) :
    pointers n (Function.update g a b) k + (if g a = some k then 1 else 0) =
      pointers n g k + if b = some k then 1 else 0 := by
  have updated := card_pointers_update (Finset.mem_range.mpr small)
    (fun x (other : x ≠ a) => Function.update_of_ne other b g) k
  rwa [Function.update_self] at updated

end Pointers
