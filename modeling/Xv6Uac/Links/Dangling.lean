import Mathlib.Data.Set.Card
import Xv6Uac.Locks.Deadlock
import Xv6Uac.Links.DeadDirectories

/-!
# Entries that name free inodes

`unlink` removes a directory that holds nothing but `.` and `..`, and lowers the link
count of the parent, since the `..` is gone. But a directory that some process still uses
keeps its `..`. If the parent is removed next, nobody keeps it from being freed, and the
`..` names a free inode (`parent_freed_under_child`). The next path through it makes
`ilock` panic.

The tree is safe as long as every inode is held by what names it. The entries that hold
an inode are those from slot 2 on that name it, and those of its own subdirectories, whose
`..` name it (`anchors`). The link count is at least their number, and every `..` names a
directory that has links (`Anchored`). A removal keeps this if no `..` names the directory
that is removed and its parent keeps a link (`Spares`).
-/

namespace Xv6Uac

open Words Hoare

variable {cfg : Config} {L : ℕ → ℕ} {s t : Kernel}

namespace Tree

variable {T T' : Tree} {N M root d n i j : ℕ} {short : ℤ → ℤ} {name : List UInt8} {x : ℤ}
  {made gone : ℕ → List UInt8 → Prop}

/-- The slots whose entries hold inode `i`: those that name it, and those of
subdirectories in it. -/
def anchors (T : Tree) (i : ℕ) : Set (ℕ × ℕ) :=
  {x | T.kind x.1 = .dir ∧ 2 ≤ x.2 ∧
    ∃ e, T.slot x.1 x.2 = some e ∧ (e.1 = i ∨ x.1 = i ∧ T.kind e.1 = .dir)}

/-- Every inode that an entry names is held. -/
structure Anchored (T : Tree) (N M root : ℕ) : Prop where
  within : T.Within N M
  rootDir : T.kind root = .dir ∧ T.slot root 1 = some (root, dotdot)
  self : ∀ {d : ℕ}, T.kind d = .dir → T.slot d 0 = some (d, dot)
  parent : ∀ {d : ℕ}, T.kind d = .dir →
    ∃ p, T.slot d 1 = some (p, dotdot) ∧ T.kind p = .dir ∧ 0 < T.nlink p
  target : ∀ {d n : ℕ} {e : ℕ × List UInt8}, T.kind d = .dir → T.slot d n = some e →
    T.kind e.1 ≠ .free
  holds : ∀ {i : ℕ}, T.kind i ≠ .free → ((T.anchors i).ncard : ℤ) ≤ T.nlink i

theorem Within.finite_anchors (within : T.Within N M) (i : ℕ) : (T.anchors i).Finite := by
  apply (Finset.range N ×ˢ Finset.range M).finite_toSet.subset
  rintro x ⟨-, -, e, slot, -⟩
  have inside := within x.1 x.2 (by rw [slot]; simp)
  simpa using inside

namespace Anchored

section

variable (anchored : T.Anchored N M root)
include anchored

theorem nonneg : T.Nonneg := fun _ live =>
  (Int.natCast_nonneg _).trans (anchored.holds live)

/-- What is held has a link. -/
theorem nlink_pos {x : ℕ × ℕ} (member : x ∈ T.anchors i) (live : T.kind i ≠ .free) :
    0 < T.nlink i := by
  have some := (Set.ncard_pos (anchored.within.finite_anchors i)).mpr ⟨x, member⟩
  have := anchored.holds live
  omega

/-- The first two slots of a directory are taken. -/
theorem two_le_of_none (dir : T.kind d = .dir) (empty : T.slot d n = none) : 2 ≤ n := by
  match n, empty with
  | 0, empty => exact nomatch (anchored.self dir).symm.trans empty
  | 1, empty =>
    obtain ⟨p, parent, -⟩ := anchored.parent dir
    exact nomatch parent.symm.trans empty
  | n + 2, _ => exact Nat.le_add_left 2 n

/-- An entry that is removed is not one of the first two. -/
theorem two_le_of_old (old : OldEntry gone T d n i name) : 2 ≤ n := by
  match n, old.slot with
  | 0, slot =>
    have same := Option.some.inj ((anchored.self old.dir).symm.trans slot)
    exact absurd (congrArg Prod.snd same).symm old.notDot
  | 1, slot =>
    obtain ⟨p, parent, -⟩ := anchored.parent old.dir
    have same := Option.some.inj (parent.symm.trans slot)
    exact absurd (congrArg Prod.snd same).symm old.notDotdot
  | n + 2, _ => exact Nat.le_add_left 2 n

theorem of_bare (same : T'.bare = T.bare) : T'.Anchored N M root := by
  rw [eq_of_bare same]
  exact { anchored with }

/-- Paths in such a tree are safe to walk. -/
theorem closed : T.Closed root := by
  refine ⟨?_, fun {d n e} dir slot => ⟨anchored.target dir slot, ?_⟩⟩
  · obtain ⟨p, parent, -, linked⟩ := anchored.parent anchored.rootDir.1
    obtain rfl : p = root :=
      congrArg Prod.fst (Option.some.inj (parent.symm.trans anchored.rootDir.2))
    exact ⟨by rw [anchored.rootDir.1]; decide, linked⟩
  · match n, slot with
    | 0, slot => exact .inl (congrArg Prod.fst (Option.some.inj (slot.symm.trans (anchored.self dir))))
    | 1, slot =>
      obtain ⟨p, parent, -, linked⟩ := anchored.parent dir
      obtain rfl := Option.some.inj (parent.symm.trans slot)
      exact .inr linked
    | n + 2, slot =>
      have member : (d, n + 2) ∈ T.anchors e.1 := ⟨dir, Nat.le_add_left 2 n, e, slot, .inl rfl⟩
      exact .inr (anchored.nlink_pos member (anchored.target dir slot))

end

/-! ## Freeing -/

theorem freed (anchored : T.Anchored N M root) (freed : Freed T T') : T'.Anchored N M root := by
  have closed := anchored.closed.freed freed
  have before : ∀ {d}, T'.kind d = .dir → T.kind d = .dir ∧ T'.slot d = T.slot d := by
    intro d dir
    obtain ⟨kind, -, slot, -⟩ := freed.live (by rw [dir]; decide)
    exact ⟨kind ▸ dir, slot⟩
  have kept : ∀ {p}, T.kind p = .dir → 0 < T.nlink p →
      T'.kind p = .dir ∧ T'.nlink p = T.nlink p ∧ T'.slot p = T.slot p := by
    intro p dir linked
    obtain ⟨kind, nlink, slot, -⟩ | gone := freed p
    · exact ⟨kind.trans dir, nlink, slot⟩
    · exact absurd gone.2.1 linked.ne'
  refine ⟨freed.within anchored.within, ?_, fun {d} dir => ?_, fun {d} dir => ?_,
    fun dir slot => (closed.target dir slot).1, fun {i} live => ?_⟩
  · obtain ⟨kind, -, slot⟩ := kept anchored.rootDir.1 anchored.closed.root.2
    rw [kind, slot]
    exact ⟨rfl, anchored.rootDir.2⟩
  · rw [(before dir).2]
    exact anchored.self (before dir).1
  · obtain ⟨p, parent, dirP, linked⟩ := anchored.parent (before dir).1
    obtain ⟨kind, nlink, -⟩ := kept dirP linked
    rw [(before dir).2]
    exact ⟨p, parent, kind, nlink ▸ linked⟩
  · obtain ⟨kind, nlink, -⟩ := freed.live live
    have fewer : T'.anchors i ⊆ T.anchors i := by
      rintro y ⟨dir, two, e, slot, held⟩
      obtain ⟨dir, same⟩ := before dir
      exact ⟨dir, two, e, same ▸ slot, held.imp id fun both => ⟨both.1, (before both.2).1⟩⟩
    have := Set.ncard_le_ncard fewer (anchored.within.finite_anchors i)
    have := anchored.holds (kind ▸ live)
    omega

/-! ## Parts of changes -/

/-- A link count that is still large enough. -/
theorem setNlink (anchored : T.Anchored N M root)
    (enough : T.kind i ≠ .free → ((T.anchors i).ncard : ℤ) ≤ x)
    (positive : ∀ d, T.kind d = .dir → T.slot d 1 = some (i, dotdot) → 0 < x) :
    (T.setNlink i x).Anchored N M root := by
  refine ⟨anchored.within, anchored.rootDir, anchored.self, fun {d} dir => ?_, anchored.target,
    fun {j} live => ?_⟩
  · obtain ⟨p, parent, dirP, linked⟩ := anchored.parent dir
    refine ⟨p, parent, dirP, ?_⟩
    obtain rfl | other := eq_or_ne p i
    · rw [setNlink_nlink_self]
      exact positive d dir parent
    · rwa [setNlink_nlink_of_ne _ _ other]
  · obtain rfl | other := eq_or_ne j i
    · rw [setNlink_nlink_self]
      exact enough live
    · rw [setNlink_nlink_of_ne _ _ other]
      exact anchored.holds live

/-- Another entry in a slot. -/
theorem setSlot (anchored : T.Anchored N M root) (two : 2 ≤ n) {b : Option (ℕ × List UInt8)}
    (fits : ∀ e, b = some e → (d < N ∧ n < M) ∧ T.kind e.1 ≠ .free)
    (enough : ∀ {j}, T.kind j ≠ .free → (((T.setSlot d n b).anchors j).ncard : ℤ) ≤ T.nlink j) :
    (T.setSlot d n b).Anchored N M root := by
  have low : ∀ d' n', n' < 2 → (T.setSlot d n b).slot d' n' = T.slot d' n' :=
    fun d' n' small => setSlot_slot_of_ne T b (slot_ne_of_lt two small)
  refine ⟨fun d' n' some => ?_, ⟨anchored.rootDir.1, ?_⟩, fun {d'} dir => ?_, fun {d'} dir => ?_,
    fun {d' n' e} dir slot => ?_, enough⟩
  · obtain ⟨e, slot⟩ := Option.ne_none_iff_exists'.mp some
    obtain ⟨same, is⟩ | ⟨-, slot⟩ := setSlot_cases slot
    · cases same
      exact (fits e is).1
    · exact anchored.within d' n' (by rw [slot]; simp)
  · rw [low root 1 (by decide)]
    exact anchored.rootDir.2
  · rw [low d' 0 (by decide)]
    exact anchored.self dir
  · rw [low d' 1 (by decide)]
    exact anchored.parent dir
  · obtain ⟨-, is⟩ | ⟨-, slot⟩ := setSlot_cases slot
    · exact (fits e is).2
    · exact anchored.target dir slot

theorem anchors_clear (T : Tree) (d n j : ℕ) :
    (T.setSlot d n none).anchors j ⊆ T.anchors j \ {(d, n)} := by
  rintro y ⟨dir, two, e, slot, held⟩
  obtain ⟨-, none⟩ | ⟨other, slot⟩ := setSlot_cases slot
  · cases none
  · exact ⟨⟨dir, two, e, slot, held⟩, other⟩

section

variable (anchored : T.Anchored N M root)
include anchored

/-- An entry less. -/
theorem clear (two : 2 ≤ n) : (T.setSlot d n none).Anchored N M root := by
  refine anchored.setSlot two (fun _ none => nomatch none) fun {j} live => ?_
  have fewer := (anchors_clear T d n j).trans Set.sdiff_subset
  have := Set.ncard_le_ncard fewer (anchored.within.finite_anchors j)
  have := anchored.holds live
  omega

/-- An inode that loses an entry that held it. -/
theorem ncard_clear (member : (d, n) ∈ T.anchors j) :
    ((T.setSlot d n none).anchors j).ncard + 1 ≤ (T.anchors j).ncard := by
  have finite := anchored.within.finite_anchors j
  rw [← Set.ncard_sdiff_singleton_add_one member finite]
  exact Nat.add_le_add_right
    (Set.ncard_le_ncard (anchors_clear T d n j) (finite.subset Set.sdiff_subset)) 1

/-- An entry more, for an inode whose link count has room for it. -/
theorem addEntry (dir : T.kind d = .dir) (inside : d < N ∧ n < M) (empty : T.slot d n = none)
    (live : T.kind i ≠ .free) (file : T.kind i ≠ .dir)
    (room : ((T.anchors i).ncard : ℤ) + 1 ≤ T.nlink i) :
    (T.setSlot d n (some (i, name))).Anchored N M root := by
  refine anchored.setSlot (anchored.two_le_of_none dir empty) (fun e is => ?_) fun {j} liveJ => ?_
  · cases is
    exact ⟨inside, live⟩
  · have finite := anchored.within.finite_anchors j
    have held := anchored.holds liveJ
    have more : ∀ y ∈ (T.setSlot d n (some (i, name))).anchors j,
        y ∈ T.anchors j ∨ y = (d, n) ∧ i = j := by
      rintro y ⟨dirY, twoY, e, slot, why⟩
      obtain ⟨same, is⟩ | ⟨-, slot⟩ := setSlot_cases slot
      · cases is
        exact .inr ⟨same, why.resolve_right fun both => file both.2⟩
      · exact .inl ⟨dirY, twoY, e, slot, why⟩
    obtain rfl | other := eq_or_ne j i
    · have within : (T.setSlot d n (some (j, name))).anchors j ⊆ insert (d, n) (T.anchors j) :=
        fun y member => (more y member).elim .inr fun new => .inl new.1
      have := Set.ncard_le_ncard within (finite.insert _)
      have := Set.ncard_insert_le (d, n) (T.anchors j)
      omega
    · have within : (T.setSlot d n (some (i, name))).anchors j ⊆ T.anchors j :=
        fun y member => (more y member).elim id fun new => absurd new.2.symm other
      have := Set.ncard_le_ncard within finite
      omega

/-- Nothing holds a free inode. -/
theorem anchors_free (free : T.kind i = .free) : T.anchors i = ∅ := by
  apply Set.eq_empty_iff_forall_notMem.mpr
  rintro y ⟨dir, -, e, slot, rfl | ⟨rfl, -⟩⟩
  · exact anchored.target dir slot free
  · rw [dir] at free
    cases free

/-- A new inode that is not a directory. -/
theorem alloc (free : T.kind i = .free) {kind : InodeType} (file : kind ≠ .dir) :
    (T.alloc i kind).Anchored N M root ∧ (T.alloc i kind).anchors i = ∅ := by
  have away : ∀ {d}, (T.alloc i kind).kind d = .dir → d ≠ i := by
    rintro d dir rfl
    exact file ((alloc_self T d kind).1.symm.trans dir)
  have dirs : ∀ {d}, (T.alloc i kind).kind d = .dir →
      T.kind d = .dir ∧ (T.alloc i kind).slot d = T.slot d := by
    intro d dir
    obtain ⟨same, -, slot⟩ := alloc_of_ne T kind (away dir)
    exact ⟨same ▸ dir, slot⟩
  have kept : ∀ {j}, T.kind j ≠ .free → (T.alloc i kind).kind j = T.kind j ∧
      (T.alloc i kind).nlink j = T.nlink j ∧ (T.alloc i kind).slot j = T.slot j :=
    fun liveJ => alloc_of_ne T kind fun same => liveJ (same ▸ free)
  have fewer : ∀ j, (T.alloc i kind).anchors j ⊆ T.anchors j := by
    rintro j y ⟨dir, two, e, slot, why⟩
    obtain ⟨dirY, same⟩ := dirs dir
    exact ⟨dirY, two, e, same ▸ slot, why.imp id fun both => ⟨both.1, (dirs both.2).1⟩⟩
  have none : (T.alloc i kind).anchors i = ∅ :=
    Set.subset_eq_empty (fewer i) (anchored.anchors_free free)
  refine ⟨⟨fun d n some => ?_, ?_, fun {d} dir => ?_, fun {d} dir => ?_, fun {d n e} dir slot => ?_,
    fun {j} liveJ => ?_⟩, none⟩
  · obtain rfl | other := eq_or_ne d i
    · exact absurd ((alloc_self T d kind).2.2 n) some
    · rw [(alloc_of_ne T kind other).2.2] at some
      exact anchored.within d n some
  · obtain ⟨sameKind, -, sameSlot⟩ := kept (by rw [anchored.rootDir.1]; decide)
    rw [sameKind, sameSlot]
    exact anchored.rootDir
  · rw [(dirs dir).2]
    exact anchored.self (dirs dir).1
  · obtain ⟨p, parent, dirP, linked⟩ := anchored.parent (dirs dir).1
    obtain ⟨sameKind, nlink, -⟩ := kept (by rw [dirP]; decide)
    rw [(dirs dir).2]
    exact ⟨p, parent, sameKind.trans dirP, nlink ▸ linked⟩
  · rw [(dirs dir).2] at slot
    have liveE := anchored.target (dirs dir).1 slot
    rwa [(kept liveE).1]
  · obtain rfl | other := eq_or_ne j i
    · rw [none, Set.ncard_empty, (alloc_self T j kind).2.1]
      decide
    · obtain ⟨sameKind, nlink, -⟩ := alloc_of_ne T kind other
      have := Set.ncard_le_ncard (fewer j) (anchored.within.finite_anchors j)
      have := anchored.holds (sameKind ▸ liveJ)
      omega

/-- A new directory. Its `..` names the directory that holds it, which has a link more. -/
theorem mkdir (dir : T.kind d = .dir) (inside : d < N ∧ n < M) (empty : T.slot d n = none)
    (free : T.kind i = .free) (inside' : i < N ∧ 1 < M) :
    (T.mkdir d n i name (T.nlink d + 1)).Anchored N M root := by
  have apart := ne_of_free dir free
  have two := anchored.two_le_of_none dir empty
  have slots : ∀ d' n', (T.mkdir d n i name (T.nlink d + 1)).slot d' n' = _ := mkdir_slot apart
  have kinds : ∀ j, (T.mkdir d n i name (T.nlink d + 1)).kind j = _ := mkdir_kind
  have nlinks : ∀ j, (T.mkdir d n i name (T.nlink d + 1)).nlink j = _ := mkdir_nlink apart
  have own : T.nlink d + 1 > 0 := by
    have := anchored.nonneg d (by rw [dir]; decide)
    omega
  have alive : ∀ {j}, T.kind j ≠ .free → j ≠ i := fun live same => live (same ▸ free)
  -- the entries of a directory that was there before, below the new one
  have low : ∀ {d' n'}, d' ≠ i → n' < 2 →
      (T.mkdir d n i name (T.nlink d + 1)).slot d' n' = T.slot d' n' := by
    intro d' n' other small
    rw [slots, if_neg other, if_neg fun both => by omega]
  have rootAway : root ≠ i := alive (by rw [anchored.rootDir.1]; decide)
  refine ⟨anchored.within.mkdir apart inside inside', ?_, fun {d'} dirD => ?_, fun {d'} dirD => ?_,
    fun {d' n' e} dirD slot => ?_, fun {j} live => ?_⟩
  · rw [kinds, if_neg rootAway, low rootAway (by decide)]
    exact anchored.rootDir
  · by_cases new : d' = i
    · rw [slots, if_pos new, if_pos rfl, new]
    · rw [kinds, if_neg new] at dirD
      rw [low new (by decide)]
      exact anchored.self dirD
  · by_cases new : d' = i
    · refine ⟨d, ?_, ?_, ?_⟩
      · rw [slots, if_pos new, if_neg (by decide), if_pos rfl]
      · rw [kinds, if_neg apart, dir]
      · rwa [nlinks, if_neg apart, if_pos rfl]
    · rw [kinds, if_neg new] at dirD
      obtain ⟨p, parent, dirP, linked⟩ := anchored.parent dirD
      have away : p ≠ i := alive (by rw [dirP]; decide)
      refine ⟨p, by rw [low new (by decide), parent], by rw [kinds, if_neg away, dirP], ?_⟩
      rw [nlinks, if_neg away]
      split
      · exact own
      · exact linked
  · rw [kinds]
    split
    · decide
    · rename_i away
      rw [slots] at slot
      rw [kinds] at dirD
      split at slot
      · split at slot
        · exact absurd (congrArg Prod.fst (Option.some.inj slot)).symm away
        · split at slot
          · rw [← congrArg Prod.fst (Option.some.inj slot), dir]
            decide
          · cases slot
      · rename_i old
        rw [if_neg old] at dirD
        split at slot
        · exact absurd (congrArg Prod.fst (Option.some.inj slot)).symm away
        · exact anchored.target dirD slot
  · have more : ∀ y ∈ (T.mkdir d n i name (T.nlink d + 1)).anchors j,
        y ∈ T.anchors j ∨ y = (d, n) ∧ (j = i ∨ j = d) := by
      rintro ⟨d', n'⟩ ⟨dirY, twoY, e, slot, why⟩
      rw [slots] at slot
      split at slot
      · rw [if_neg (by omega), if_neg (by omega)] at slot
        cases slot
      · rename_i old
        split at slot
        · rename_i both
          obtain ⟨rfl, rfl⟩ := both
          cases slot
          exact .inr ⟨rfl, why.imp Eq.symm fun inner => inner.1.symm⟩
        · rw [kinds, if_neg old] at dirY
          refine .inl ⟨dirY, twoY, e, slot, why.imp id fun inner => ⟨inner.1, ?_⟩⟩
          have away := alive (anchored.target dirY slot)
          rw [kinds, if_neg away] at inner
          exact inner.2
    have within : (T.mkdir d n i name (T.nlink d + 1)).anchors j ⊆ insert (d, n) (T.anchors j) :=
      fun y member => (more y member).elim .inr fun new => .inl new.1
    have finite := anchored.within.finite_anchors j
    rw [nlinks]
    split
    · rename_i new
      have none := anchored.anchors_free free
      rw [new, none] at within
      rw [new]
      have := Set.ncard_le_ncard within ((Set.finite_empty).insert _)
      have := Set.ncard_insert_le (d, n) (∅ : Set (ℕ × ℕ))
      rw [Set.ncard_empty] at this
      omega
    · rename_i old
      rw [kinds, if_neg old] at live
      have held := anchored.holds live
      split
      · rename_i parent
        have := Set.ncard_le_ncard within (finite.insert _)
        have := Set.ncard_insert_le (d, n) (T.anchors j)
        subst parent
        omega
      · rename_i other
        have within : (T.mkdir d n i name (T.nlink d + 1)).anchors j ⊆ T.anchors j :=
          fun y member => (more y member).elim id fun new => absurd new.2 (not_or.mpr ⟨old, other⟩)
        have := Set.ncard_le_ncard within finite
        omega

end

end Anchored

/-! ## Changes -/

/-- No `..` names an empty directory that loses its entry, and the directory of the entry
keeps a link. -/
def Spares (gone : ℕ → List UInt8 → Prop) (T : Tree) : Prop :=
  ∀ d n i name, OldEntry gone T d n i name → T.kind i = .dir →
    (∀ m, 2 ≤ m → T.slot i m = none) →
    2 ≤ T.nlink d ∧ ∀ p e, T.kind p = .dir → T.slot p 1 = some e → e.1 ≠ i

theorem Spares.freed (spares : Spares gone T) (freed : Freed T T') : Spares gone T' := by
  intro d n i name old dir empty
  have before : ∀ {j}, T'.kind j = .dir → T'.kind j = T.kind j ∧ T'.nlink j = T.nlink j ∧
      T'.slot j = T.slot j ∧ T'.search j = T.search j :=
    fun dir => freed.live (by rw [dir]; decide)
  obtain ⟨kindD, nlinkD, slotD, searchD⟩ := before old.dir
  obtain ⟨kindI, -, slotI, -⟩ := before dir
  obtain ⟨linked, away⟩ := spares d n i name
    ⟨old.parent, kindD ▸ old.dir, searchD ▸ old.may, slotD ▸ old.slot, old.notDot, old.notDotdot⟩
    (kindI ▸ dir) (slotI ▸ empty)
  refine ⟨nlinkD ▸ linked, fun p e dirP slot => ?_⟩
  obtain ⟨kindP, -, slotP, -⟩ := before dirP
  exact away p e (kindP ▸ dirP) (slotP ▸ slot)

/-- **A change keeps the tree anchored.** -/
theorem Anchored.change (anchored : T.Anchored N M root) (change : Change short made gone N M T T')
    (lowers : Lowers short T) (raises : ∀ d name, made d name → Raises short T)
    (spares : Spares gone T) : T'.Anchored N M root := by
  cases change with
  | none => exact anchored
  | @bump i live file =>
    have same : T.setNlink i (short (short (T.nlink i + 1) - 1)) = T := by
      rw [lowers.back live]
      simp [Tree.setNlink]
    rwa [same]
  | @link d n i name new live file =>
    rw [raises _ _ new.parent _ live]
    have held := anchored.holds live
    have raised : (T.setNlink i (T.nlink i + 1)).Anchored N M root :=
      anchored.setNlink (fun _ => by omega) fun _ _ _ => by omega
    apply raised.addEntry new.dir new.inside new.empty live file
    rw [setNlink_nlink_self]
    exact Int.add_le_add_right held 1
  | @unlink d n i name old file =>
    have two := anchored.two_le_of_old old
    have live : T.kind i ≠ .free := anchored.target old.dir old.slot
    have member : (d, n) ∈ T.anchors i := ⟨old.dir, two, _, old.slot, .inl rfl⟩
    rw [lowers.down live (anchored.nlink_pos member live)]
    refine (anchored.clear two).setNlink (fun _ => ?_) fun d' dir parent => ?_
    · have := anchored.ncard_clear member
      have := anchored.holds live
      omega
    · obtain ⟨p, slot, dirP, -⟩ := (anchored.clear two).parent dir
      obtain rfl : p = i := congrArg Prod.fst (Option.some.inj (slot.symm.trans parent))
      exact absurd dirP file
  | @rmdir d n i name old dir empty =>
    have two := anchored.two_le_of_old old
    have live : T.kind i ≠ .free := anchored.target old.dir old.slot
    have liveD : T.kind d ≠ .free := by rw [old.dir]; decide
    have member : (d, n) ∈ T.anchors i := ⟨old.dir, two, _, old.slot, .inl rfl⟩
    have member' : (d, n) ∈ T.anchors d := ⟨old.dir, two, _, old.slot, .inr ⟨rfl, dir⟩⟩
    obtain ⟨linked, away⟩ := spares d n i name old dir empty
    rw [lowers.down live (anchored.nlink_pos member live), lowers.down liveD (by omega)]
    have first : ((T.setSlot d n Option.none).setNlink d (T.nlink d - 1)).Anchored N M root := by
      refine (anchored.clear two).setNlink (fun _ => ?_) fun _ _ _ => by omega
      have := anchored.ncard_clear member'
      have := anchored.holds liveD
      omega
    refine first.setNlink (fun _ => ?_) fun p dirP parent => ?_
    · have fewer : (((T.setSlot d n Option.none).anchors i).ncard : ℤ) ≤ T.nlink i - 1 := by
        have := anchored.ncard_clear member
        have := anchored.holds live
        omega
      exact fewer
    · have parent := (setSlot_slot_of_ne T Option.none (slot_ne_of_lt two (by decide))).symm.trans
        parent
      exact absurd rfl (away p _ dirP parent)
  | @create d n i name kind may new nonzero free live file =>
    have apart := ne_of_free new.dir free
    obtain ⟨allocated, none⟩ := anchored.alloc free file
    obtain ⟨sameKind, -, sameSlot⟩ := alloc_of_ne T kind apart
    have added : ((T.alloc i kind).setSlot d n (some (i, name))).Anchored N M root := by
      refine allocated.addEntry (sameKind.trans new.dir) new.inside (sameSlot ▸ new.empty) ?_ ?_ ?_
      · rwa [(alloc_self T i kind).1]
      · rwa [(alloc_self T i kind).1]
      · rw [none, Set.ncard_empty, (alloc_self T i kind).2.1]
        decide
    exact added.of_bare rfl
  | @mkdir d n i name may new nonzero free inside =>
    rw [raises _ _ new.parent _ (by rw [new.dir]; decide)]
    exact Anchored.of_bare (anchored.mkdir new.dir new.inside new.empty free inside) rfl

/-- **A call keeps the tree anchored.** -/
theorem Anchored.effect (anchored : T.Anchored N M root) (small : T.Small)
    (effect : Effect short16 made gone N M T T')
    (room : ∀ d name, made d name → ∀ i, T.kind i ≠ .free → T.nlink i ≠ 2 ^ 15 - 1)
    (spares : Spares gone T) : T'.Anchored N M root ∧ T'.Small := by
  obtain ⟨T₁, T₂, before, change, after⟩ := effect
  have lowers := (anchored.nonneg.lowers small).freed before
  have raises : ∀ d name, made d name → Raises short16 T₁ := fun d name makes =>
    (anchored.nonneg.raises small (room d name makes)).freed before
  have changed := (anchored.freed before).change change lowers raises (spares.freed before)
  exact ⟨changed.freed after, ((small.freed before).change change).freed after⟩

end Tree

/-! ## Runs -/

/-- No link count is the largest `short` when a call makes an entry. -/
def Room (s : Kernel) (call : Call) : Prop :=
  ∀ path ∈ call.createPath, ∀ i, (s.dinode i).type ≠ .free → (s.dinode i).nlink ≠ 2 ^ 15 - 1

/-- A call that removes a directory, which no `..` names, and whose parent keeps a link. -/
def Spared (s : Kernel) (call : Call) : Prop := Tree.Spares (Removes s call) (tree s)

/-- Between two calls no lock is held, and every inode that an entry names is held. -/
structure Sheltered (cfg : Config) (s : Kernel) : Prop where
  inv : ∃ L, KernelInv cfg L s 0
  unlocked : Locked ∅ s
  anchored : (links s).Anchored cfg.sb.ninodes NSLOT ROOTINO
  small : (links s).Small

namespace Sheltered

/-- No call locks an inode that is not allocated. -/
theorem dispatch (sheltered : Sheltered cfg s) (short : cfg.short = short16) {call : Call} {p : ℕ}
    (process : p < NPROC) (whole : Whole (s.switch p) call) (room : Room (s.switch p) call) :
    wp (Moves False True) (Xv6Uac.dispatch cfg call) (fun _ t => Locked ∅ t) (s.switch p) := by
  obtain ⟨L, inv⟩ := sheltered.inv
  have ready : Ready cfg L True (s.switch p) 0 :=
    ⟨inv.switch process, sheltered.unlocked, fun _ => sheltered.anchored.closed⟩
  refine dispatch_locked ready False.elim fun _ => ⟨whole, ?_⟩
  rintro old new rfl i live linked
  have raised := sheltered.anchored.nonneg.raises sheltered.small (room new rfl) i live
  have linked : 0 < (links s).nlink i + 1 := by
    have := sheltered.anchored.nonneg i live
    omega
  rw [short]
  exact linked.trans_eq raised.symm

/-- A step keeps every inode that an entry names. -/
theorem step (sheltered : Sheltered cfg s) (short : cfg.short = short16) {taken : Step}
    (stepped : Xv6Uac.step cfg s taken t) (whole : Whole (s.switch taken.p) taken.call)
    (room : Room (s.switch taken.p) taken.call) (spared : Spared (s.switch taken.p) taken.call) :
    Sheltered cfg t := by
  have unlocked := (sheltered.dispatch short stepped.1 whole room).of_ok stepped.2.2
  obtain ⟨L, inv⟩ := sheltered.inv
  obtain ⟨L', called⟩ := inv.step whole stepped
  obtain ⟨T, same, effect⟩ := called.effect
  rw [short] at effect
  have anchored : (tree (s.switch taken.p)).Anchored cfg.sb.ninodes NSLOT ROOTINO :=
    sheltered.anchored.of_bare rfl
  obtain ⟨anchored, small⟩ := anchored.effect sheltered.small effect (fun d name makes => by
    obtain ⟨path, creates, -⟩ := leads_of_createPath makes
    exact room path creates) spared
  exact ⟨⟨L', called.inv⟩, unlocked, anchored.of_bare same.symm, same ▸ small⟩

theorem run {start : Kernel} {trace : List Step} (sheltered : Sheltered cfg start)
    (short : cfg.short = short16)
    (run : RunOf (fun u call => Whole u call ∧ Room u call ∧ Spared u call) cfg start trace s) :
    Sheltered cfg s := by
  induction run with
  | refl => exact sheltered
  | tail _ stepped ih => exact ih.step short stepped.1 stepped.2.1 stepped.2.2.1 stepped.2.2.2

end Sheltered

/-- Every entry of a directory names an allocated inode. -/
def NoDangling (s : Kernel) : Prop :=
  ∀ d n e, (s.dinode d).type = .dir → dirSlot s.data (s.dinode d) n = some e →
    (s.dinode e.1).type ≠ .free

theorem Sheltered.noDangling (sheltered : Sheltered cfg s) : NoDangling s := by
  intro d n e dir slot
  exact sheltered.anchored.target dir ((links_slot dir n).trans slot)

namespace SmallImage

theorem rootOnly_anchored : (links (imageOf rootOnly).boot).Anchored 10 NSLOT ROOTINO := by
  have dirs : ∀ {d}, (links (imageOf rootOnly).boot).kind d = .dir → d = 1 := by
    intro d dir
    by_contra other
    obtain _ | _ | d := d
    · cases dir
    · exact other rfl
    · cases dir
  have low : ∀ {d n e}, (links (imageOf rootOnly).boot).slot d n = some e → e.1 = 1 ∧ n < 2 := by
    intro d n e slot
    obtain ⟨-, ⟨rfl, rfl⟩ | ⟨rfl, rfl⟩⟩ := rootOnly_slot slot <;> decide
  refine ⟨rootOnly_sound.within, by decide, fun dir => ?_, fun dir => ?_,
    fun _ slot => ?_, fun {i} live => ?_⟩
  · rw [dirs dir]
    decide
  · rw [dirs dir]
    exact ⟨1, by decide⟩
  · rw [(low slot).1]
    decide
  · have none : (links (imageOf rootOnly).boot).anchors i = ∅ := by
      apply Set.eq_empty_iff_forall_notMem.mpr
      rintro y ⟨-, two, e, slot, -⟩
      exact absurd (low slot).2 (by omega)
    rw [none, Set.ncard_empty]
    exact (rootOnly_nlink live).1

end SmallImage

end Xv6Uac
