import Xv6Uac.Kernel.Fs
import Mathlib.Data.Finset.Prod

/-!
# The tree of directories

What the calls that make and remove entries work on, without blocks and caches: the
kind and the link count of every inode, the slots of every directory and whether the
calling process may search it. A directory
is linked when its count is positive. The count of an inode should be the number of
entries of linked directories that name it, apart from the first entry of each directory
(`Tree.Consistent`), which is its entry `.`.

The counts come out right only if the linked directories form a tree
(`Tree.WellFormed`): every linked directory has the entries `.` and `..` in its first
two slots and, unless it is the root, one other entry names it, and that entry is in
the directory that its `..` names.
-/

namespace Xv6Uac

open Function (update update_of_ne update_self)

/-- Inodes, the entries of directories and the directories the process may search. -/
structure Tree where
  kind : ℕ → InodeType
  nlink : ℕ → ℤ
  slot : ℕ → ℕ → Option (ℕ × List UInt8)
  search : ℕ → Bool

namespace Tree

/-- A directory that some entry may name. -/
def Linked (T : Tree) (d : ℕ) : Prop := T.kind d = .dir ∧ 0 < T.nlink d

instance (T : Tree) (d : ℕ) : Decidable (T.Linked d) := inferInstanceAs (Decidable (_ ∧ _))

/-- A slot whose entry counts as a link to inode `i`. -/
def Counts (T : Tree) (i : ℕ) (x : ℕ × ℕ) : Prop :=
  T.Linked x.1 ∧ x.2 ≠ 0 ∧ ((T.slot x.1 x.2).any fun e => e.1 = i) = true

instance (T : Tree) (i : ℕ) (x : ℕ × ℕ) : Decidable (T.Counts i x) :=
  inferInstanceAs (Decidable (_ ∧ _))

theorem counts_iff {T : Tree} {i : ℕ} {x : ℕ × ℕ} :
    T.Counts i x ↔ T.Linked x.1 ∧ ∃ name, T.slot x.1 x.2 = some (i, name) ∧ x.2 ≠ 0 := by
  refine and_congr_right fun _ => ?_
  cases slot : T.slot x.1 x.2 with
  | none => simp
  | some e => simp [Prod.ext_iff, and_comm]

/-- The number of links to an inode, among the first `M` slots of the first `N`
inodes. -/
def count (T : Tree) (N M i : ℕ) : ℕ :=
  ((Finset.range N ×ˢ Finset.range M).filter (T.Counts i)).card

/-- Every link count is the number of links. -/
def Consistent (T : Tree) (N M : ℕ) : Prop :=
  ∀ i, T.kind i ≠ .free → T.nlink i = T.count N M i

/-- All entries are in the first `M` slots of the first `N` inodes. -/
def Within (T : Tree) (N M : ℕ) : Prop :=
  ∀ d n, T.slot d n ≠ none → d < N ∧ n < M

/-- The linked directories form a tree. -/
structure WellFormed (T : Tree) (root : ℕ) : Prop where
  zero : T.kind 0 = .free
  root_linked : T.Linked root
  root_parent : T.slot root 1 = some (root, dotdot)
  target : ∀ {d n : ℕ} {e : ℕ × List UInt8}, T.Linked d → T.slot d n = some e → T.kind e.1 ≠ .free
  self : ∀ {d : ℕ}, T.Linked d → T.slot d 0 = some (d, dot)
  parent : ∀ {d : ℕ}, T.Linked d → ∃ p, T.slot d 1 = some (p, dotdot) ∧ T.Linked p
  home : ∀ {d p : ℕ}, T.Linked d → d ≠ root → T.slot d 1 = some (p, dotdot) →
    ∃ n name, 2 ≤ n ∧ T.slot p n = some (d, name)
  once : ∀ {d d' n n' : ℕ} {e e' : ℕ × List UInt8}, T.Linked d → T.Linked d' → 2 ≤ n → 2 ≤ n' →
    T.slot d n = some e → T.slot d' n' = some e' → e.1 = e'.1 → T.kind e.1 = .dir →
    d = d' ∧ n = n'
  notRoot : ∀ {d n : ℕ} {e : ℕ × List UInt8}, T.Linked d → 2 ≤ n → T.slot d n = some e → e.1 ≠ root

/-! ## Changes -/

/-- The tree with another entry in a slot. -/
def setSlot (T : Tree) (d n : ℕ) (e : Option (ℕ × List UInt8)) : Tree :=
  { T with slot := update T.slot d (update (T.slot d) n e) }

/-- The tree with another link count. -/
def setNlink (T : Tree) (i : ℕ) (x : ℤ) : Tree := { T with nlink := update T.nlink i x }

/-- The tree with another permission to search. -/
def setSearch (T : Tree) (i : ℕ) (may : Bool) : Tree :=
  { T with search := update T.search i may }

/-- The tree with a new inode that has one link. -/
def alloc (T : Tree) (i : ℕ) (kind : InodeType) : Tree :=
  { T with
    kind := update T.kind i kind
    nlink := update T.nlink i 1
    slot := update T.slot i fun _ => none }

/-- The tree with a new directory `i`, which the slot `n` of `d` names, and with the
link count `x` of `d`. -/
def mkdir (T : Tree) (d n i : ℕ) (name : List UInt8) (x : ℤ) : Tree :=
  ((((T.alloc i .dir).setNlink d x).setSlot i 0 (some (i, dot))).setSlot i 1
    (some (d, dotdot))).setSlot d n (some (i, name))

/-- The tree without the entry for the directory `i` in the slot `n` of `d`, and with
the link counts `x` of `d` and `y` of `i`. -/
def rmdir (T : Tree) (d n i : ℕ) (x y : ℤ) : Tree :=
  ((T.setSlot d n none).setNlink d x).setNlink i y

/-- Some inodes without links are freed. -/
def Freed (T T' : Tree) : Prop :=
  ∀ i, (T'.kind i = T.kind i ∧ T'.nlink i = T.nlink i ∧ T'.slot i = T.slot i ∧
      T'.search i = T.search i) ∨
    (T.kind i ≠ .free ∧ T.nlink i = 0 ∧ T'.kind i = .free ∧ ∀ n, T'.slot i n = none)

@[simp] theorem setSlot_kind (T : Tree) (d n : ℕ) (e : Option (ℕ × List UInt8)) :
    (T.setSlot d n e).kind = T.kind := rfl

@[simp] theorem setSlot_nlink (T : Tree) (d n : ℕ) (e : Option (ℕ × List UInt8)) :
    (T.setSlot d n e).nlink = T.nlink := rfl

@[simp] theorem setNlink_kind (T : Tree) (i : ℕ) (x : ℤ) : (T.setNlink i x).kind = T.kind := rfl

@[simp] theorem setNlink_slot (T : Tree) (i : ℕ) (x : ℤ) : (T.setNlink i x).slot = T.slot := rfl

theorem setSlot_slot_self (T : Tree) (d n : ℕ) (e : Option (ℕ × List UInt8)) :
    (T.setSlot d n e).slot d n = e := by
  simp [setSlot]

theorem setSlot_slot_of_ne (T : Tree) {d n d' n' : ℕ} (e : Option (ℕ × List UInt8))
    (other : (d', n') ≠ (d, n)) : (T.setSlot d n e).slot d' n' = T.slot d' n' := by
  simp only [setSlot]
  by_cases same : d' = d
  · subst same
    have : n' ≠ n := fun same => other (by rw [same])
    rw [update_self, update_of_ne this]
  · rw [update_of_ne same]

/-- The first two slots of a directory are not among the later ones. -/
theorem slot_ne_of_lt {d n d' n' : ℕ} (two : 2 ≤ n) (small : n' < 2) : (d', n') ≠ (d, n) := by
  rintro ⟨⟩
  omega

/-- The entries of a tree that differs from an earlier one in one slot. -/
theorem setSlot_cases {T : Tree} {d n d' n' : ℕ} {b : Option (ℕ × List UInt8)} {e : ℕ × List UInt8}
    (slot : (T.setSlot d n b).slot d' n' = some e) :
    (d', n') = (d, n) ∧ b = some e ∨ (d', n') ≠ (d, n) ∧ T.slot d' n' = some e := by
  obtain same | other := eq_or_ne (d', n') (d, n)
  · obtain ⟨rfl, rfl⟩ := Prod.mk.inj same
    exact .inl ⟨rfl, (setSlot_slot_self T d' n' b).symm.trans slot⟩
  · exact .inr ⟨other, (setSlot_slot_of_ne T b other).symm.trans slot⟩

theorem ne_of_free {T : Tree} {d i : ℕ} (dir : T.kind d = .dir) (free : T.kind i = .free) :
    d ≠ i := by
  rintro rfl
  rw [dir] at free
  cases free

theorem setNlink_nlink_self (T : Tree) (i : ℕ) (x : ℤ) : (T.setNlink i x).nlink i = x := by
  simp [setNlink]

theorem setNlink_nlink_of_ne (T : Tree) {i j : ℕ} (x : ℤ) (other : j ≠ i) :
    (T.setNlink i x).nlink j = T.nlink j := by
  simp [setNlink, other]

theorem alloc_self (T : Tree) (i : ℕ) (kind : InodeType) :
    (T.alloc i kind).kind i = kind ∧ (T.alloc i kind).nlink i = 1 ∧
      ∀ n, (T.alloc i kind).slot i n = none := by
  simp [alloc]

theorem alloc_of_ne (T : Tree) {i j : ℕ} (kind : InodeType) (other : j ≠ i) :
    (T.alloc i kind).kind j = T.kind j ∧ (T.alloc i kind).nlink j = T.nlink j ∧
      (T.alloc i kind).slot j = T.slot j := by
  simp [alloc, other]

/-- The tree without what depends on the process. -/
def bare (T : Tree) : Tree := { T with search := fun _ => true }

theorem eq_of_bare {T T' : Tree} (same : T'.bare = T.bare) : T' = { T with search := T'.search } := by
  obtain ⟨kind, nlink, slot, search⟩ := T'
  obtain ⟨rfl, rfl, rfl⟩ : kind = T.kind ∧ nlink = T.nlink ∧ slot = T.slot := by
    simpa [bare] using same
  rfl

namespace Freed

theorem bare {T T' : Tree} (freed : Freed T T') : Freed T.bare T'.bare := fun i =>
  (freed i).imp (fun same => ⟨same.1, same.2.1, same.2.2.1, rfl⟩) id

theorem refl (T : Tree) : Freed T T := fun _ => .inl ⟨rfl, rfl, rfl, rfl⟩

theorem trans {T T' T'' : Tree} (first : Freed T T') (second : Freed T' T'') : Freed T T'' := by
  intro i
  obtain ⟨kind, nlink, slot, search⟩ | ⟨live, unlinked, gone, empty⟩ := second i
  · obtain ⟨kind', nlink', slot', search'⟩ | ⟨live', unlinked', gone', empty'⟩ := first i
    · exact .inl ⟨kind.trans kind', nlink.trans nlink', slot.trans slot', search.trans search'⟩
    · exact .inr ⟨live', unlinked', kind.trans gone', slot ▸ empty'⟩
  · obtain ⟨kind', nlink', -⟩ | ⟨-, -, gone', -⟩ := first i
    · exact .inr ⟨kind' ▸ live, nlink' ▸ unlinked, gone, empty⟩
    · exact absurd gone' live

/-- An inode that is allocated afterwards has not changed. -/
theorem live {T T' : Tree} (freed : Freed T T') {i : ℕ} (live : T'.kind i ≠ .free) :
    T'.kind i = T.kind i ∧ T'.nlink i = T.nlink i ∧ T'.slot i = T.slot i ∧
      T'.search i = T.search i :=
  (freed i).resolve_right fun gone => live gone.2.2.1

theorem within {T T' : Tree} {N M : ℕ} (freed : Freed T T') (within : T.Within N M) :
    T'.Within N M := by
  intro d n some
  obtain ⟨-, -, slot, -⟩ | gone := freed d
  · rw [slot] at some
    exact within d n some
  · exact absurd (gone.2.2.2 n) some

/-- Freeing and a change of the link count of another inode commute. -/
theorem setNlink {T T' : Tree} (freed : Freed T T') {i : ℕ} (live : T'.kind i ≠ .free) (x : ℤ) :
    Freed (T.setNlink i x) (T'.setNlink i x) := by
  intro j
  obtain rfl | other := eq_or_ne j i
  · obtain ⟨kind, -, slot, search⟩ := freed.live live
    exact .inl ⟨kind, by rw [setNlink_nlink_self, setNlink_nlink_self], slot, search⟩
  · rw [setNlink_nlink_of_ne _ x other, setNlink_nlink_of_ne _ x other]
    exact freed j

/-- Freeing and a change of a slot of another inode commute. -/
theorem setSlot {T T' : Tree} (freed : Freed T T') {d : ℕ} (live : T'.kind d ≠ .free) (n : ℕ)
    (e : Option (ℕ × List UInt8)) : Freed (T.setSlot d n e) (T'.setSlot d n e) := by
  intro j
  obtain rfl | other := eq_or_ne j d
  · obtain ⟨kind, nlink, slot, search⟩ := freed.live live
    refine .inl ⟨kind, nlink, ?_, search⟩
    simp only [Tree.setSlot, update_self, slot]
  · have same : ∀ S : Tree, (S.setSlot d n e).slot j = S.slot j := fun S =>
      update_of_ne other _ S.slot
    rw [same, same]
    exact freed j

end Freed

end Tree

end Xv6Uac
