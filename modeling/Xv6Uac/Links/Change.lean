import Xv6Uac.Links.Counts

/-!
# What a call does to the tree

The calls `link`, `unlink`, `open`, `mkdir` and `mknod` change the tree in one of a few
ways (`Change`), and before and after that the last references to inodes without links
may go (`Effect`). The path of the call leads to a directory and a name, and only
there an entry is made (`made`) or removed (`gone`). A new entry goes into an empty slot. If the process
may search the directory then the name was not in it, and an entry is removed only
from a directory that the process may search.

Two things follow. A sound tree stays sound, if the directory is linked and no link
count overflows (`Sound.effect`). And the entries of a directory that the process may not
search stay (`Guarded.effect`).
-/

namespace Xv6Uac

namespace Tree

variable {short : ℤ → ℤ} {goal made gone : ℕ → List UInt8 → Prop} {N M root : ℕ} {T T' : Tree}

/-- The place of a new entry: an empty slot of the directory to which the path leads. -/
structure NewEntry (goal : ℕ → List UInt8 → Prop) (N M : ℕ) (T : Tree) (d n : ℕ)
    (name : List UInt8) : Prop where
  parent : goal d name
  dir : T.kind d = .dir
  inside : d < N ∧ n < M
  empty : T.slot d n = none
  absent : T.search d = true → ∀ m e, T.slot d m = some e → e.2 ≠ name

/-- The place of an entry that is removed. -/
structure OldEntry (goal : ℕ → List UInt8 → Prop) (T : Tree) (d n i : ℕ) (name : List UInt8) :
    Prop where
  parent : goal d name
  dir : T.kind d = .dir
  may : T.search d = true
  slot : T.slot d n = some (i, name)
  notDot : name ≠ dot
  notDotdot : name ≠ dotdot

/-- The changes of the tree. A link count is stored with the conversion `short`. -/
inductive Change (short : ℤ → ℤ) (made gone : ℕ → List UInt8 → Prop) (N M : ℕ) (T : Tree) :
    Tree → Prop
  | none : Change short made gone N M T T
  | bump {i : ℕ} (live : T.kind i ≠ .free) (file : T.kind i ≠ .dir) :
      Change short made gone N M T (T.setNlink i (short (short (T.nlink i + 1) - 1)))
  | link {d n i : ℕ} {name : List UInt8} (new : NewEntry made N M T d n name)
      (live : T.kind i ≠ .free) (file : T.kind i ≠ .dir) :
      Change short made gone N M T
        ((T.setNlink i (short (T.nlink i + 1))).setSlot d n (some (i, name)))
  | unlink {d n i : ℕ} {name : List UInt8} (old : OldEntry gone T d n i name)
      (file : T.kind i ≠ .dir) :
      Change short made gone N M T ((T.setSlot d n none).setNlink i (short (T.nlink i - 1)))
  | rmdir {d n i : ℕ} {name : List UInt8} (old : OldEntry gone T d n i name)
      (dir : T.kind i = .dir) (empty : ∀ m, 2 ≤ m → T.slot i m = none) :
      Change short made gone N M T (T.rmdir d n i (short (T.nlink d - 1)) (short (T.nlink i - 1)))
  | create {d n i : ℕ} {name : List UInt8} {kind : InodeType} (may : Bool)
      (new : NewEntry made N M T d n name) (nonzero : i ≠ 0) (free : T.kind i = .free)
      (live : kind ≠ .free) (file : kind ≠ .dir) :
      Change short made gone N M T (((T.alloc i kind).setSlot d n (some (i, name))).setSearch i may)
  | mkdir {d n i : ℕ} {name : List UInt8} (may : Bool) (new : NewEntry made N M T d n name)
      (nonzero : i ≠ 0) (free : T.kind i = .free) (inside : i < N ∧ 1 < M) :
      Change short made gone N M T ((T.mkdir d n i name (short (T.nlink d + 1))).setSearch i may)

/-- What a call does to the tree. -/
def Effect (short : ℤ → ℤ) (made gone : ℕ → List UInt8 → Prop) (N M : ℕ) (T T' : Tree) : Prop :=
  ∃ T₁ T₂, Freed T T₁ ∧ Change short made gone N M T₁ T₂ ∧ Freed T₂ T'

/-- A call that makes and removes no entry. -/
theorem Effect.of_freed (freed : Freed T T') : Effect short made gone N M T T' :=
  ⟨T', T', freed, .none, .refl T'⟩

theorem Effect.freed {T'' : Tree} (effect : Effect short made gone N M T T') (freed : Freed T' T'') :
    Effect short made gone N M T T'' := by
  obtain ⟨T₁, T₂, before, change, after⟩ := effect
  exact ⟨T₁, T₂, before, change, after.trans freed⟩

/-- Where entries are made and removed may be described less precisely. -/
theorem Change.mono {made' gone' : ℕ → List UInt8 → Prop}
    (change : Change short made gone N M T T') (more : ∀ d name, made d name → made' d name)
    (more' : ∀ d name, gone d name → gone' d name) : Change short made' gone' N M T T' := by
  have new : ∀ {d n name}, NewEntry made N M T d n name → NewEntry made' N M T d n name :=
    fun entry => ⟨more _ _ entry.parent, entry.dir, entry.inside, entry.empty, entry.absent⟩
  have old : ∀ {d n i name}, OldEntry gone T d n i name → OldEntry gone' T d n i name :=
    fun entry => ⟨more' _ _ entry.parent, entry.dir, entry.may, entry.slot, entry.notDot,
      entry.notDotdot⟩
  cases change with
  | none => exact .none
  | bump live file => exact .bump live file
  | link entry live file => exact .link (new entry) live file
  | unlink entry file => exact .unlink (old entry) file
  | rmdir entry dir empty => exact .rmdir (old entry) dir empty
  | create may entry nonzero free live file => exact .create may (new entry) nonzero free live file
  | mkdir may entry nonzero free inside => exact .mkdir may (new entry) nonzero free inside

theorem Effect.mono {made' gone' : ℕ → List UInt8 → Prop}
    (effect : Effect short made gone N M T T') (more : ∀ d name, made d name → made' d name)
    (more' : ∀ d name, gone d name → gone' d name) : Effect short made' gone' N M T T' := by
  obtain ⟨T₁, T₂, before, change, after⟩ := effect
  exact ⟨T₁, T₂, before, change.mono more more', after⟩

/-! ## Entries -/

/-- **What a change does to the slots.** An entry of the new tree was there before, or it
is the new entry, or it is one of the two entries of a new directory. -/
theorem Change.slots (change : Change short made gone N M T T') :
    ∃ place : Option (ℕ × ℕ), ∀ {d n : ℕ} {e : ℕ × List UInt8}, T'.slot d n = some e →
      T.slot d n = some e ∧ T'.kind d = T.kind d ∨
      place = some (d, n) ∧ NewEntry made N M T d n e.2 ∨
      T.kind d = .free ∧ T'.nlink d = 1 ∧ (n = 0 ∧ e = (d, dot) ∨ n = 1 ∧ e.2 = dotdot) := by
  cases change with
  | none | bump live file => exact ⟨Option.none, fun slot => .inl ⟨slot, rfl⟩⟩
  | @link d₀ n₀ i name new live file =>
    refine ⟨some (d₀, n₀), fun slot => ?_⟩
    obtain ⟨same, eq⟩ | ⟨-, old⟩ := setSlot_cases slot
    · cases same
      cases eq
      exact .inr (.inl ⟨rfl, new⟩)
    · exact .inl ⟨old, rfl⟩
  | unlink entry | rmdir entry =>
    refine ⟨Option.none, fun slot => ?_⟩
    obtain ⟨-, eq⟩ | ⟨-, old⟩ := setSlot_cases slot
    · cases eq
    · exact .inl ⟨old, rfl⟩
  | @create d₀ n₀ i name kind may new nonzero free live file =>
    refine ⟨some (d₀, n₀), fun {d n e} slot => ?_⟩
    obtain ⟨same, eq⟩ | ⟨-, old⟩ := setSlot_cases slot
    · cases same
      cases eq
      exact .inr (.inl ⟨rfl, new⟩)
    · obtain rfl | other := eq_or_ne d i
      · rw [(alloc_self T d kind).2.2 n] at old
        cases old
      · obtain ⟨sameKind, -, sameSlot⟩ := alloc_of_ne T kind other
        rw [sameSlot] at old
        exact .inl ⟨old, sameKind⟩
  | @mkdir d₀ n₀ i name may new nonzero free inside =>
    have apart := ne_of_free new.dir free
    refine ⟨some (d₀, n₀), fun {d n e} slot => ?_⟩
    have shown := (mkdir_slot apart d n).symm.trans slot
    obtain rfl | other := eq_or_ne d i
    · rw [if_pos rfl] at shown
      have nlink : (T.mkdir d₀ n₀ d name (short (T.nlink d₀ + 1))).nlink d = 1 :=
        (mkdir_nlink apart d).trans (if_pos rfl)
      refine .inr (.inr ⟨free, nlink, ?_⟩)
      split at shown
      · exact .inl ⟨‹_›, (Option.some.inj shown).symm⟩
      · split at shown
        · cases shown
          exact .inr ⟨‹_›, rfl⟩
        · cases shown
    · rw [if_neg other] at shown
      split at shown
      · rename_i same
        obtain ⟨rfl, rfl⟩ := same
        cases shown
        exact .inr (.inl ⟨rfl, new⟩)
      · have kind : (T.mkdir d₀ n₀ i name (short (T.nlink d₀ + 1))).kind d = T.kind d :=
          (mkdir_kind d).trans (if_neg other)
        exact .inl ⟨shown, kind⟩

/-! ## Link counts -/

/-- The conversion to `short` keeps link counts that are lowered, and one that is raised
and lowered again. -/
structure Lowers (short : ℤ → ℤ) (T : Tree) : Prop where
  down : ∀ {i : ℕ}, T.kind i ≠ .free → 0 < T.nlink i → short (T.nlink i - 1) = T.nlink i - 1
  back : ∀ {i : ℕ}, T.kind i ≠ .free → short (short (T.nlink i + 1) - 1) = T.nlink i

/-- The conversion to `short` keeps link counts that are raised. -/
def Raises (short : ℤ → ℤ) (T : Tree) : Prop :=
  ∀ i, T.kind i ≠ .free → short (T.nlink i + 1) = T.nlink i + 1

theorem Lowers.freed (lowers : Lowers short T) (freed : Freed T T') : Lowers short T' where
  down live positive := by
    obtain ⟨kind, nlink, -⟩ := freed.live live
    rw [nlink] at positive ⊢
    exact lowers.down (kind ▸ live) positive
  back live := by
    obtain ⟨kind, nlink, -⟩ := freed.live live
    rw [nlink]
    exact lowers.back (kind ▸ live)

theorem Raises.freed (raises : Raises short T) (freed : Freed T T') : Raises short T' := by
  intro i live
  obtain ⟨kind, nlink, -⟩ := freed.live live
  rw [nlink]
  exact raises i (kind ▸ live)

/-- An entry that is removed is not one of the first two. -/
theorem OldEntry.two_le {d n i : ℕ} {name : List UInt8} (old : OldEntry gone T d n i name)
    (shape : T.WellFormed root) (linked : T.Linked d) : 2 ≤ n := by
  refine shape.two_le linked fun e member => ?_
  obtain rfl := Option.some.inj (old.slot.symm.trans member)
  exact ⟨old.notDot, old.notDotdot⟩

/-- **A change keeps the tree sound**, if entries are made and removed in linked
directories and link counts do not overflow. -/
theorem Sound.change (sound : T.Sound N M root) (change : Change short made gone N M T T')
    (lowers : Lowers short T) (raises : ∀ d name, made d name → Raises short T)
    (linked : ∀ d name, made d name → T.kind d = .dir → 0 < T.nlink d)
    (linked' : ∀ {d n i name}, OldEntry gone T d n i name → 0 < T.nlink d) :
    T'.Sound N M root := by
  have newLinked : ∀ {d n name}, NewEntry made N M T d n name → T.Linked d := fun new =>
    ⟨new.dir, linked _ _ new.parent new.dir⟩
  have oldLinked : ∀ {d n i name}, OldEntry gone T d n i name → T.Linked d := fun old =>
    ⟨old.dir, linked' old⟩
  cases change with
  | none => exact sound
  | @bump i live file =>
    have same : T.setNlink i (short (short (T.nlink i + 1) - 1)) = T := by
      rw [lowers.back live]
      simp [setNlink]
    rwa [same]
  | link new live file =>
    rw [raises _ _ new.parent _ live]
    exact sound.addLink (newLinked new) new.inside new.empty live file
  | @unlink d n i name old file =>
    have isLinked := oldLinked old
    have two := old.two_le sound.shape isLinked
    have positive : 0 < T.nlink i :=
      sound.nlink_pos (x := (d, n)) (counts_iff.mpr ⟨isLinked, name, old.slot, by omega⟩)
    rw [lowers.down (sound.shape.target isLinked old.slot) positive]
    exact sound.removeLink isLinked old.slot file old.notDot old.notDotdot
  | @rmdir d n i name old dir empty =>
    have isLinked := oldLinked old
    have two := old.two_le sound.shape isLinked
    obtain ⟨child, -⟩ := sound.emptyDir isLinked two old.slot dir empty
    have live : ∀ {d}, T.Linked d → T.kind d ≠ .free := fun isLinked => by
      rw [isLinked.1]
      decide
    exact sound.rmdir isLinked old.slot dir old.notDot old.notDotdot empty
      (lowers.down (live isLinked) isLinked.2) (lowers.down (live child) child.2)
  | create may new nonzero free live file =>
    exact (sound.create (newLinked new) new.inside new.empty nonzero free live file).of_bare rfl
  | mkdir may new nonzero free inside =>
    have isLinked := newLinked new
    refine (sound.mkdir isLinked new.inside inside new.empty nonzero free ?_).of_bare rfl
    exact raises _ _ new.parent _ (by rw [new.dir]; decide)

/-- **A call keeps the tree sound.** -/
theorem Sound.effect (sound : T.Sound N M root) (effect : Effect short made gone N M T T')
    (lowers : Lowers short T) (raises : ∀ d name, made d name → Raises short T)
    (linked : ∀ d name, made d name → 0 < T.nlink d)
    (linked' : ∀ {T₁ d n i name}, Freed T T₁ → OldEntry gone T₁ d n i name → 0 < T₁.nlink d) :
    T'.Sound N M root := by
  obtain ⟨T₁, T₂, before, change, after⟩ := effect
  refine ((sound.freed before).change change (lowers.freed before)
    (fun d name makes => Raises.freed (raises d name makes) before) (fun d name makes dir => ?_)
    (linked' before)).freed after
  rw [(before.live (by rw [dir]; decide)).2.1]
  exact linked d name makes

/-! ## Directories that may not be searched -/

/-- The number of entries of a directory. -/
def used (T : Tree) (M d : ℕ) : ℕ := ((Finset.range M).filter fun n => T.slot d n ≠ none).card

theorem used_le (T : Tree) (M d : ℕ) : T.used M d ≤ M :=
  (Finset.card_filter_le _ _).trans (Finset.card_range M).le

theorem used_setSlot {d n : ℕ} (empty : T.slot d n = none) (small : n < M)
    (e : ℕ × List UInt8) : (T.setSlot d n (some e)).used M d = T.used M d + 1 := by
  have new : (Finset.range M).filter (fun m => (T.setSlot d n (some e)).slot d m ≠ none) =
      insert n ((Finset.range M).filter fun m => T.slot d m ≠ none) := by
    ext m
    obtain rfl | other := eq_or_ne m n
    · simp [setSlot_slot_self, small]
    · simp [setSlot_slot_of_ne T (some e) (fun eq => other (Prod.ext_iff.mp eq).2 :
        (d, m) ≠ (d, n)), other]
  rw [used, new, Finset.card_insert_of_notMem (by simp [empty]), used]

theorem used_congr {d : ℕ} (same : T'.slot d = T.slot d) : T'.used M d = T.used M d := by
  rw [used, used, same]

/-- A directory `d` that the process may not search and that is not empty, some calls
after the tree was `T₀`. Its entries are still there. Every entry that was added may
have raised its link count. -/
structure Guarded (short : ℤ → ℤ) (M d : ℕ) (T₀ T : Tree) : Prop where
  dir : T.kind d = .dir
  closed : T.search d = false
  slots : ∀ n e, T₀.slot d n = some e → T.slot d n = some e
  nlink : ∃ k : ℕ, T.nlink d = short (T₀.nlink d + k) ∧ k + T₀.used M d ≤ T.used M d

namespace Guarded

variable {d : ℕ} {T₀ : Tree}

variable (guarded : Guarded short M d T₀ T)
include guarded

/-- The directory is as before. -/
theorem congr (kind : T'.kind d = T.kind d) (search : T'.search d = T.search d)
    (slot : T'.slot d = T.slot d) (nlink : T'.nlink d = T.nlink d) : Guarded short M d T₀ T' where
  dir := kind.trans guarded.dir
  closed := search.trans guarded.closed
  slots := slot ▸ guarded.slots
  nlink := by
    rw [nlink, used_congr slot]
    exact guarded.nlink

theorem freed (linked : T.nlink d ≠ 0) (freed : Freed T T') : Guarded short M d T₀ T' := by
  obtain ⟨kind, nlink, slot, search⟩ | gone := freed d
  · exact guarded.congr kind search slot nlink
  · exact absurd gone.2.1 linked

/-- A new entry. The link count stays, or it is raised. -/
theorem newEntry {n : ℕ} {e : ℕ × List UInt8} (empty : T.slot d n = none) (small : n < M)
    (kind : T'.kind d = T.kind d) (search : T'.search d = T.search d)
    (slot : T'.slot d = (T.setSlot d n (some e)).slot d)
    (wraps : ∀ x, short (short x + 1) = short (x + 1))
    (nlink : T'.nlink d = T.nlink d ∨ T'.nlink d = short (T.nlink d + 1)) :
    Guarded short M d T₀ T' where
  dir := kind.trans guarded.dir
  closed := search.trans guarded.closed
  slots m x before := by
    have still := guarded.slots m x before
    have other : m ≠ n := by
      rintro rfl
      rw [empty] at still
      cases still
    rwa [slot, setSlot_slot_of_ne _ _ fun eq => other (Prod.ext_iff.mp eq).2]
  nlink := by
    rw [used_congr slot, used_setSlot empty small]
    obtain ⟨k, count, more⟩ := guarded.nlink
    obtain same | raised := nlink
    · exact ⟨k, same.trans count, by omega⟩
    · refine ⟨k + 1, ?_, by omega⟩
      rw [raised, count, wraps]
      push_cast
      rw [add_assoc]

/-- **A change keeps the entries of the directory.** -/
theorem change (nonempty : ∃ n, 2 ≤ n ∧ T₀.slot d n ≠ none)
    (wraps : ∀ x, short (short x + 1) = short (x + 1)) (change : Change short made gone N M T T') :
    Guarded short M d T₀ T' := by
  have file : ∀ {i}, T.kind i ≠ .dir → d ≠ i := by
    rintro i notDir rfl
    exact notDir guarded.dir
  have open_ : ∀ {d' n i name}, OldEntry gone T d' n i name → d ≠ d' := by
    rintro d' n i name old rfl
    have may := old.may
    rw [guarded.closed] at may
    cases may
  have away : ∀ {S : Tree} {d' n} {e : Option (ℕ × List UInt8)}, d ≠ d' →
      (S.setSlot d' n e).slot d = S.slot d := fun other => Function.update_of_ne other _ _
  cases change with
  | none => exact guarded
  | bump live notDir =>
    exact guarded.congr rfl rfl rfl (setNlink_nlink_of_ne _ _ (file notDir))
  | @link d' n i name new live notDir =>
    have nlink := setNlink_nlink_of_ne T (short (T.nlink i + 1)) (file notDir)
    obtain rfl | other := eq_or_ne d d'
    · exact guarded.newEntry new.empty new.inside.2 rfl rfl rfl wraps (.inl nlink)
    · exact guarded.congr rfl rfl (away other) nlink
  | unlink old notDir =>
    exact guarded.congr rfl rfl (away (open_ old)) (setNlink_nlink_of_ne _ _ (file notDir))
  | @rmdir d' n i name old dir empty =>
    have apart : d ≠ i := by
      rintro rfl
      obtain ⟨m, two, some⟩ := nonempty
      obtain ⟨e, slot⟩ := Option.ne_none_iff_exists'.mp some
      have still := guarded.slots m e slot
      rw [empty m two] at still
      cases still
    refine guarded.congr rfl rfl (away (open_ old)) ?_
    rw [Tree.rmdir, setNlink_nlink_of_ne _ _ apart, setNlink_nlink_of_ne _ _ (open_ old),
      setSlot_nlink]
  | @create d' n i name kind may new nonzero free live notDir =>
    have apart := ne_of_free guarded.dir free
    obtain ⟨same, nlink, slot⟩ := alloc_of_ne T kind apart
    have search := Function.update_of_ne apart may T.search
    obtain rfl | other := eq_or_ne d d'
    · refine guarded.newEntry (e := (i, name)) new.empty new.inside.2 same search ?_ wraps
        (.inl nlink)
      simp only [setSearch, setSlot, Function.update_self, slot]
    · exact guarded.congr same search ((away other).trans slot) nlink
  | @mkdir d' n i name may new nonzero free inside =>
    have apart := ne_of_free guarded.dir free
    have search := Function.update_of_ne apart may T.search
    have kind : (T.mkdir d' n i name (short (T.nlink d' + 1))).kind d = T.kind d :=
      (mkdir_kind d).trans (if_neg apart)
    have parent := ne_of_free new.dir free
    have nlink : (T.mkdir d' n i name (short (T.nlink d' + 1))).nlink d =
        if d = d' then short (T.nlink d' + 1) else T.nlink d :=
      (mkdir_nlink parent d).trans (if_neg apart)
    have slot : ∀ m, (T.mkdir d' n i name (short (T.nlink d' + 1))).slot d m =
        if d = d' ∧ m = n then some (i, name) else T.slot d m := fun m =>
      (mkdir_slot parent d m).trans (if_neg apart)
    obtain rfl | other := eq_or_ne d d'
    · rw [if_pos rfl] at nlink
      refine guarded.newEntry (e := (i, name)) new.empty new.inside.2 kind search ?_ wraps
        (.inr nlink)
      funext m
      apply (slot m).trans
      obtain rfl | other := eq_or_ne m n
      · rw [if_pos ⟨rfl, rfl⟩, setSlot_slot_self]
      · rw [if_neg fun both => other both.2,
          setSlot_slot_of_ne _ _ fun eq => other (Prod.ext_iff.mp eq).2]
    · rw [if_neg other] at nlink
      refine guarded.congr kind search (funext fun m => ?_) nlink
      exact (slot m).trans (if_neg fun both => other both.1)

/-- The link count of the directory does not reach 0, since every entry takes one of
its slots. -/
theorem linked (positive : ∀ k : ℕ, k ≤ M → short (T₀.nlink d + k) ≠ 0) : T.nlink d ≠ 0 := by
  obtain ⟨k, count, more⟩ := guarded.nlink
  have := T.used_le M d
  rw [count]
  exact positive k (by omega)

/-- **A call keeps the entries of the directory.** -/
theorem effect (nonempty : ∃ n, 2 ≤ n ∧ T₀.slot d n ≠ none)
    (wraps : ∀ x, short (short x + 1) = short (x + 1))
    (positive : ∀ k : ℕ, k ≤ M → short (T₀.nlink d + k) ≠ 0)
    (effect : Effect short made gone N M T T') : Guarded short M d T₀ T' := by
  obtain ⟨T₁, T₂, before, change, after⟩ := effect
  have first := guarded.freed (guarded.linked positive) before
  have second := first.change nonempty wraps change
  exact second.freed (second.linked positive) after

end Guarded

end Tree

end Xv6Uac
