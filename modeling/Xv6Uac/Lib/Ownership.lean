import Mathlib.Data.Set.Insert

/-!
# Owners of the cells of a pool

A pool is a region of cells of which some are set aside for good. An allocator
marks the cells in use. Places hold cells, each place at most one, and a cell
that was allocated but not yet put into a place, or taken out of its place but not
yet freed, is reserved.

`Owned` says that no two places hold one cell, and that exactly the cells set
aside, reserved or held are marked. Taking an unmarked cell reserves it
(`Owned.claim`), a reserved cell can be put into an empty place (`Owned.fill`) or
freed (`Owned.release`), and emptying places reserves what they held
(`Owned.detach`).
-/

namespace Ownership

variable {ι β : Type}

/-- No two places hold one cell, and the marked cells are those set aside,
reserved or held. -/
structure Owned (region base : Set β) (used : β → Bool) (reserved : Set β)
    (holds : ι → Option β) : Prop where
  unique : ∀ {i j : ι} {b : β}, holds i = some b → holds j = some b → i = j
  held : ∀ {i : ι} {b : β}, holds i = some b → b ∈ region ∧ b ∉ base ∧ b ∉ reserved
  kept : ∀ {b : β}, b ∈ reserved → b ∈ region ∧ b ∉ base
  used_iff : ∀ {b : β}, b ∈ region →
    (used b = true ↔ b ∈ base ∨ b ∈ reserved ∨ ∃ i, holds i = some b)

namespace Owned

variable {region base reserved : Set β} {used : β → Bool} {holds : ι → Option β}

section

variable (owned : Owned region base used reserved holds)
include owned

/-- No place holds an unmarked cell. -/
theorem not_held {b : β} (inside : b ∈ region) (unused : used b = false) (i : ι) :
    holds i ≠ some b := by
  intro has
  have marked := (owned.used_iff inside).mpr (.inr (.inr ⟨i, has⟩))
  rw [unused] at marked
  cases marked

theorem not_reserved {b : β} (inside : b ∈ region) (unused : used b = false) :
    b ∉ base ∧ b ∉ reserved := by
  constructor
  · intro aside
    have marked := (owned.used_iff inside).mpr (.inl aside)
    rw [unused] at marked
    cases marked
  · intro already
    have marked := (owned.used_iff inside).mpr (.inr (.inl already))
    rw [unused] at marked
    cases marked

/-- A reserved cell is marked. -/
theorem used_of_reserved {b : β} (mine : b ∈ reserved) : used b = true :=
  (owned.used_iff (owned.kept mine).1).mpr (.inr (.inl mine))

end

section Update

variable [DecidableEq β]

/-- **Marking an unmarked cell reserves it.** -/
theorem claim (owned : Owned region base used reserved holds) {b : β} (inside : b ∈ region)
    (unused : used b = false) :
    Owned region base (Function.update used b true) (insert b reserved) holds where
  unique := owned.unique
  held {i c} has := by
    obtain ⟨inRegion, notBase, notReserved⟩ := owned.held has
    refine ⟨inRegion, notBase, ?_⟩
    rintro (rfl | already)
    · exact owned.not_held inside unused i has
    · exact notReserved already
  kept {c} mine := by
    obtain rfl | already := mine
    · exact ⟨inside, (owned.not_reserved inside unused).1⟩
    · exact owned.kept already
  used_iff {c} inRegion := by
    obtain rfl | other := eq_or_ne c b
    · simp
    · rw [Function.update_of_ne other, owned.used_iff inRegion]
      simp [other]

/-- **Unmarking a reserved cell.** -/
theorem release (owned : Owned region base used reserved holds) {b : β} (mine : b ∈ reserved) :
    Owned region base (Function.update used b false) (reserved \ {b}) holds where
  unique := owned.unique
  held {i c} has := by
    obtain ⟨inRegion, notBase, notReserved⟩ := owned.held has
    exact ⟨inRegion, notBase, fun still => notReserved still.1⟩
  kept {c} still := owned.kept still.1
  used_iff {c} inRegion := by
    obtain rfl | other := eq_or_ne c b
    · have notHeld : ∀ i, holds i ≠ some c := fun i has => (owned.held has).2.2 mine
      simp [(owned.kept mine).2, notHeld]
    · rw [Function.update_of_ne other, owned.used_iff inRegion]
      simp [other]

end Update

/-- **Putting a reserved cell into an empty place.** -/
theorem fill (owned : Owned region base used reserved holds) {i : ι} {b : β}
    (empty : holds i = none) (mine : b ∈ reserved) {holds' : ι → Option β}
    (filled : holds' i = some b) (others : ∀ j, j ≠ i → holds' j = holds j) :
    Owned region base used (reserved \ {b}) holds' := by
  have notHeld : ∀ j, holds j ≠ some b := fun j has => (owned.held has).2.2 mine
  have cases_of : ∀ {j c}, holds' j = some c → (j = i ∧ c = b) ∨ (j ≠ i ∧ holds j = some c) := by
    intro j c has
    by_cases same : j = i
    · rw [same, filled] at has
      exact .inl ⟨same, (Option.some.inj has).symm⟩
    · rw [others j same] at has
      exact .inr ⟨same, has⟩
  refine ⟨fun {j k c} first second => ?_, fun {j c} has => ?_, fun {c} still => owned.kept still.1,
    fun {c} inside => ?_⟩
  · obtain ⟨rfl, rfl⟩ | ⟨-, old⟩ := cases_of first
    · obtain ⟨rfl, -⟩ | ⟨-, old⟩ := cases_of second
      · rfl
      · exact absurd old (notHeld k)
    · obtain ⟨-, rfl⟩ | ⟨-, old'⟩ := cases_of second
      · exact absurd old (notHeld j)
      · exact owned.unique old old'
  · obtain ⟨-, rfl⟩ | ⟨-, old⟩ := cases_of has
    · exact ⟨(owned.kept mine).1, (owned.kept mine).2, fun still => still.2 rfl⟩
    · obtain ⟨inRegion, notBase, notReserved⟩ := owned.held old
      exact ⟨inRegion, notBase, fun still => notReserved still.1⟩
  · rw [owned.used_iff inside]
    constructor
    · rintro (aside | already | ⟨j, has⟩)
      · exact .inl aside
      · by_cases same : c = b
        · exact .inr (.inr ⟨i, same ▸ filled⟩)
        · exact .inr (.inl ⟨already, same⟩)
      · refine .inr (.inr ⟨j, ?_⟩)
        rw [others j fun same => by simp [same, empty] at has]
        exact has
    · rintro (aside | still | ⟨j, has⟩)
      · exact .inl aside
      · exact .inr (.inl still.1)
      · obtain ⟨-, rfl⟩ | ⟨-, old⟩ := cases_of has
        · exact .inr (.inl mine)
        · exact .inr (.inr ⟨j, old⟩)

/-- **Emptying places reserves what they held.** -/
theorem detach (owned : Owned region base used reserved holds) (places : Set ι)
    {holds' : ι → Option β} (emptied : ∀ i ∈ places, holds' i = none)
    (others : ∀ i, i ∉ places → holds' i = holds i) :
    Owned region base used (reserved ∪ {b | ∃ i ∈ places, holds i = some b}) holds' := by
  have old : ∀ {i b}, holds' i = some b → i ∉ places ∧ holds i = some b := by
    intro i b has
    by_cases member : i ∈ places
    · rw [emptied i member] at has
      cases has
    · exact ⟨member, (others i member) ▸ has⟩
  refine ⟨fun {i j b} first second => owned.unique (old first).2 (old second).2,
    fun {i b} has => ?_, fun {b} mine => ?_, fun {b} inside => ?_⟩
  · obtain ⟨outside, has⟩ := old has
    obtain ⟨inRegion, notBase, notReserved⟩ := owned.held has
    refine ⟨inRegion, notBase, ?_⟩
    rintro (already | ⟨j, member, has'⟩)
    · exact notReserved already
    · exact outside (owned.unique has has' ▸ member)
  · obtain already | ⟨j, -, has⟩ := mine
    · exact owned.kept already
    · exact ⟨(owned.held has).1, (owned.held has).2.1⟩
  · rw [owned.used_iff inside]
    constructor
    · rintro (aside | already | ⟨j, has⟩)
      · exact .inl aside
      · exact .inr (.inl (.inl already))
      · by_cases member : j ∈ places
        · exact .inr (.inl (.inr ⟨j, member, has⟩))
        · exact .inr (.inr ⟨j, (others j member).trans has⟩)
    · rintro (aside | (already | ⟨j, -, has⟩) | ⟨j, has⟩)
      · exact .inl aside
      · exact .inr (.inl already)
      · exact .inr (.inr ⟨j, has⟩)
      · exact .inr (.inr ⟨j, (old has).2⟩)

end Owned

end Ownership
