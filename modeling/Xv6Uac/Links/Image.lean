import Xv6Uac.Fs.Invariant
import Xv6Uac.Links.Tree

/-!
# The tree of the kernel's file system

`treeOf p F data` is the tree that inodes and blocks stand for, and `tree s` the one of
a state between operations. A part of a call that only takes and drops references
frees inodes of the tree and changes nothing else (`Quiet`). A write of a slot and
a change of the attributes of an inode are the changes of the tree that they should
be (`SetSlot.tree`, `treeOf_setNlink`).
-/

namespace Xv6Uac

open Words Hoare
open Function (update_of_ne update_self)

variable {cfg : Config} {F F' : ℕ → Dinode} {D : Set ℕ} {s t u : Kernel} {i k : ℕ}
  {L δ ε δ' δ'' : ℕ → ℕ} {p : Proc}

/-- The tree that inodes and blocks stand for, as a process sees it. -/
def treeOf (p : Proc) (F : ℕ → Dinode) (data : ℕ → Bytes) : Tree where
  kind i := (F i).type
  nlink i := (F i).nlink
  slot i n := if (F i).type = .dir then dirSlot data (F i) n else none
  search i := mayExecute p (F i)

/-- The tree of a state. -/
def tree (s : Kernel) : Tree := treeOf s.myproc s.dinode s.data

/-- The number of slots of the largest directory. -/
abbrev NSLOT : ℕ := MAXFILE * BSIZE / DIRENT

variable {data : ℕ → Bytes}

/-- All entries are within the inode table and the size of a directory. -/
theorem Layout.within {R : Set ℕ} {bitmap : ℕ → Bool} (layout : Layout cfg F R bitmap data) :
    (treeOf p F data).Within cfg.sb.ninodes NSLOT := by
  intro d n some
  simp only [treeOf] at some
  split at some
  · rename_i dir
    have live : (F d).type ≠ .free := by rw [dir]; decide
    obtain ⟨e, slot⟩ := Option.ne_none_iff_exists'.mp some
    exact ⟨layout.inode_lt live,
      (dirSlot_lt slot).trans_le (Nat.div_le_div_right (layout.size_le live))⟩
  · exact absurd rfl some

/-- The slots of a directory in the tree. -/
theorem treeOf_slot (dir : (F i).type = .dir) (n : ℕ) :
    (treeOf p F data).slot i n = dirSlot data (F i) n := if_pos dir

/-- The tree has no entries of a free inode. -/
theorem freed_of_inodes
    (freed : ∀ i, F' i = F i ∨ (F i).nlink = 0 ∧ (F i).type ≠ .free ∧ (F' i).type = .free) :
    Tree.Freed (treeOf p F data) (treeOf p F' data) := by
  intro i
  obtain same | ⟨unlinked, live, gone⟩ := freed i
  · refine .inl ⟨?_, ?_, ?_, ?_⟩ <;> simp only [treeOf, same]
  · refine .inr ⟨live, unlinked, gone, fun n => if_neg ?_⟩
    rw [gone]
    decide

/-- A slot that is written. -/
theorem SetSlot.tree {n : ℕ} {e : Option (ℕ × List UInt8)} (set : SetSlot cfg F F' D i n e s t)
    (dir : (F i).type = .dir) : treeOf p F' t.data = (treeOf p F s.data).setSlot i n e := by
  have kinds : ∀ j, (F' j).type = (F j).type := set.type_eq
  simp only [treeOf, Tree.setSlot, Tree.mk.injEq]
  refine ⟨funext kinds, funext fun j => ?_, funext fun j => ?_, funext fun j => ?_⟩
  · obtain rfl | other := eq_or_ne j i
    · rw [set.fields]
    · rw [set.others j other]
  · obtain rfl | other := eq_or_ne j i
    · rw [update_self]
      funext m
      rw [kinds, if_pos dir]
      obtain rfl | other := eq_or_ne m n
      · rw [update_self, set.slot]
      · rw [update_of_ne other, set.rest m other, if_pos dir]
    · rw [update_of_ne other]
      funext m
      rw [kinds]
      split
      · rename_i dirJ
        exact set.elsewhere j other (by rw [dirJ]; decide) m
      · rfl
  · obtain rfl | other := eq_or_ne j i
    · rw [set.fields]
      rfl
    · rw [set.others j other]

/-- A change of attributes that the tree does not show, except for the link
count. -/
theorem treeOf_setAttrs {d : Dinode} (type : d.type = (F i).type) (addrs : d.addrs = (F i).addrs)
    (size : d.size = (F i).size) (search : mayExecute p d = mayExecute p (F i)) :
    treeOf p (Function.update F i d) data = (treeOf p F data).setNlink i d.nlink := by
  simp only [treeOf, Tree.setNlink, Tree.mk.injEq]
  refine ⟨funext fun j => ?_, funext fun j => ?_, funext fun j => funext fun n => ?_,
    funext fun j => ?_⟩
  · obtain rfl | other := eq_or_ne j i
    · rw [update_self, type]
    · rw [update_of_ne other]
  · obtain rfl | other := eq_or_ne j i
    · rw [update_self, update_self]
    · rw [update_of_ne other, update_of_ne other]
  · obtain rfl | other := eq_or_ne j i
    · rw [update_self, type, dirSlot_congr]
      · rw [size]
      · exact fun _ o _ _ => content_congr data addrs o
    · rw [update_of_ne other]
  · obtain rfl | other := eq_or_ne j i
    · rw [update_self, search]
    · rw [update_of_ne other]

/-! ## Parts of a call -/

/-- A part of a call, before which the call holds `δ` references and after which it
holds `δ'`. An entry that is held throughout keeps its inode. -/
structure Phase (cfg : Config) (L : ℕ → ℕ) (s t : Kernel) (δ δ' : ℕ → ℕ) : Prop where
  inv : KernelInv cfg L t δ'
  outside : Outside s t
  keeps : ∀ {j : ℕ}, (0 < holders s j ∨ 1 ≤ δ j ∧ 1 ≤ δ' j) →
    (t.icache j).inum = (s.icache j).inum ∧ ((s.icache j).valid = true → (t.icache j).valid = true)

namespace Phase

/-- An entry that is held stays held. -/
theorem held (phase : Phase cfg L s t δ δ') (mine : 1 ≤ δ k ∧ 1 ≤ δ' k) (held : Held s k i) :
    Held t k i := by
  obtain ⟨inum, valid⟩ := phase.keeps (.inr mine)
  exact ⟨phase.inv.used mine.2, valid held.valid, inum.trans held.inum⟩

/-- An entry that is held throughout two parts is held in each. -/
theorem parts (first : Phase cfg L s t δ δ') (between : ∀ j, 1 ≤ δ j → 1 ≤ δ'' j → 1 ≤ δ' j) {j : ℕ}
    (mine : 0 < holders s j ∨ 1 ≤ δ j ∧ 1 ≤ δ'' j) :
    (0 < holders s j ∨ 1 ≤ δ j ∧ 1 ≤ δ' j) ∧ (0 < holders t j ∨ 1 ≤ δ' j ∧ 1 ≤ δ'' j) := by
  rw [first.outside.holders]
  exact ⟨mine.imp id fun held => ⟨held.1, between j held.1 held.2⟩,
    mine.imp id fun held => ⟨between j held.1 held.2, held.2⟩⟩

theorem trans (first : Phase cfg L s t δ δ') (second : Phase cfg L t u δ' δ'')
    (between : ∀ j, 1 ≤ δ j → 1 ≤ δ'' j → 1 ≤ δ' j) : Phase cfg L s u δ δ'' where
  inv := second.inv
  outside := first.outside.trans second.outside
  keeps {j} mine := by
    obtain ⟨mine₁, mine₂⟩ := first.parts between mine
    obtain ⟨inum, valid⟩ := first.keeps mine₁
    obtain ⟨inum', valid'⟩ := second.keeps mine₂
    exact ⟨inum'.trans inum, fun isValid => valid' (valid isValid)⟩

/-- Parts of a call that starts with no references. -/
theorem next (first : Phase cfg L s t 0 δ') (second : Phase cfg L t u δ' δ'') : Phase cfg L s u 0 δ'' :=
  first.trans second fun _ mine => absurd mine (by simp)

end Phase

/-- What a part of a call leaves that takes `ε` references. -/
theorem KernelInv.phase (inv : KernelInv cfg L s δ) (fs : FsInv cfg F ∅ t)
    (named : Named cfg F t.data) (outside : Outside s t) (kept : Kept s t ε)
    (zero : (F 0).type = .free)
    (types : ∀ j, 0 < (s.icache j).ref → (s.dinode (s.icache j).inum).type ≠ .free →
      (F (s.icache j).inum).type = (s.dinode (s.icache j).inum).type) :
    Phase cfg L s t δ (δ + ε) := by
  refine ⟨inv.update fs named outside kept zero types, outside, fun {j} mine => ?_⟩
  have used : 0 < (s.icache j).ref := by
    have := inv.refs j
    omega
  exact ⟨kept.inum j used, kept.valid j used⟩

/-! ## Taking and dropping references -/

/-- A part of a call that takes and drops references. -/
structure Quiet (cfg : Config) (L : ℕ → ℕ) (s t : Kernel) (δ δ' : ℕ → ℕ) : Prop extends
    Phase cfg L s t δ δ' where
  data : t.data = s.data
  freed : Tree.Freed (tree s) (tree t)
  live : ∀ {i : ℕ}, (t.dinode i).type ≠ .free → t.dinode i = s.dinode i
  current : ∀ {j : ℕ}, (0 < holders s j ∨ 1 ≤ δ j ∧ 1 ≤ δ' j) →
    t.dinode (s.icache j).inum = s.dinode (s.icache j).inum

namespace Quiet

/-- An entry that is held keeps what it shows. -/
theorem held (quiet : Quiet cfg L s t δ δ') (mine : 1 ≤ δ k ∧ 1 ≤ δ' k) (held : Held s k i) :
    Held t k i ∧ t.dinode i = s.dinode i := by
  refine ⟨quiet.toPhase.held mine held, ?_⟩
  have same := quiet.current (.inr mine)
  rwa [held.inum] at same

theorem trans (first : Quiet cfg L s t δ δ') (second : Quiet cfg L t u δ' δ'')
    (between : ∀ j, 1 ≤ δ j → 1 ≤ δ'' j → 1 ≤ δ' j) : Quiet cfg L s u δ δ'' where
  toPhase := first.toPhase.trans second.toPhase between
  data := second.data.trans first.data
  freed := first.freed.trans second.freed
  live alive := by
    have same := second.live alive
    rw [same] at alive ⊢
    exact first.live alive
  current {j} mine := by
    obtain ⟨mine₁, mine₂⟩ := first.parts between mine
    have same := second.current mine₂
    rw [(first.keeps mine₁).1] at same
    exact same.trans (first.current mine₁)

/-- Parts of a call that starts with no references. -/
theorem next (first : Quiet cfg L s t 0 δ') (second : Quiet cfg L t u δ' δ'') : Quiet cfg L s u 0 δ'' :=
  first.trans second fun _ mine => absurd mine (by simp)

end Quiet

namespace KernelInv

variable (inv : KernelInv cfg L s δ)
include inv

theorem quiet_of_shrinks (run : Shrinks cfg s.dinode F ∅ s t ε) : Quiet cfg L s t δ (δ + ε) := by
  have disk := run.fsInv.dinode
  refine ⟨inv.phase run.fsInv (run.named inv.named) run.outside run.kept ?_ fun j used _ => ?_,
    run.data, ?_, fun {i} alive => ?_, fun {j} mine => ?_⟩
  · obtain same | gone := run.freed 0
    · rw [same, inv.zero]
    · exact gone.2.2
  · rw [run.current j used]
  · rw [tree, tree, run.data, disk, run.outside.myproc]
    exact freed_of_inodes run.freed
  · rw [disk] at alive ⊢
    exact run.live alive
  · have used : 0 < (s.icache j).ref := by
      have := inv.refs j
      omega
    rw [disk]
    exact run.current j used

/-- A change of the log alone. -/
theorem quiet_log (n : ℤ) (lh : List ℕ) : Quiet cfg L s { s with outstanding := n, lh := lh } δ δ :=
  ⟨⟨inv.congr ⟨rfl, rfl, rfl, rfl⟩ inv.cur rfl fun _ => ⟨rfl, rfl, rfl⟩, ⟨rfl, rfl, rfl⟩,
    fun _ => ⟨rfl, fun valid => valid⟩⟩, rfl, .refl _, fun _ => rfl, fun _ => rfl⟩

theorem beginOp : wp Benign beginOp (fun _ t => Quiet cfg L s t δ δ) s := by
  simp only [Xv6Uac.beginOp, wp_bind, wp_gets, wp_ite]
  exact ⟨fun _ => by simp [Benign], fun _ => inv.quiet_log _ s.lh⟩

theorem endOp : wp Benign endOp (fun _ t => Quiet cfg L s t δ δ) s := by
  simp only [Xv6Uac.endOp, wp_update]
  split
  · exact inv.quiet_log 0 []
  · exact inv.quiet_log _ s.lh

theorem iput (mine : 1 ≤ δ k) :
    wp Benign (iput cfg k) (fun _ t => Quiet cfg L s t δ (δ - Pi.single k 1)) s := by
  refine ((iput_spec inv.fs (inv.used mine)).and
    ((fsFrame_outside s).iput k s (.refl s))).mono fun _ t ⟨⟨F, drop⟩, outside⟩ => ?_
  have after := inv.dropped mine drop outside
  have disk := drop.fsInv.dinode
  have used : ∀ {j}, (0 < holders s j ∨ 1 ≤ δ j ∧ 1 ≤ (δ - Pi.single k 1 : ℕ → ℕ) j) →
      0 < (t.icache j).ref := by
    intro j held
    have := after.refs j
    rw [outside.holders] at this
    omega
  refine ⟨⟨after, outside, fun {j} held => ?_⟩, drop.data, ?_, fun {i} alive => ?_,
    fun {j} held => ?_⟩
  · exact drop.stays j (used held)
  · rw [tree, tree, drop.data, disk, outside.myproc]
    exact freed_of_inodes drop.eq_or_freed
  · rw [disk] at alive ⊢
    exact (drop.eq_or_freed i).resolve_right fun gone => alive gone.2.2
  · have same := drop.current inv.fs.cached (used held)
    rw [(drop.stays j (used held)).1] at same
    rwa [disk]

theorem ilock :
    wp Benign (ilock cfg k) (fun _ t => Quiet cfg L s t δ δ ∧ Held t k (s.icache k).inum ∧
      t.dinode = s.dinode ∧ (s.icache k).locked = false ∧ (t.icache k).locked = true) s := by
  refine (((Shrinks.refl inv.fs).ilock (Set.notMem_empty _)).mono
    fun _ t ⟨run, held, unlocked, locked⟩ => ?_)
  have quiet := inv.quiet_of_shrinks run
  exact ⟨quiet, held, run.fsInv.dinode, unlocked, locked⟩

theorem iunlock : wp Benign (iunlock k) (fun _ t => Quiet cfg L s t δ δ) s := by
  refine (((Shrinks.refl inv.fs).iunlock k).mono fun _ t ⟨run, _⟩ => ?_)
  have quiet := inv.quiet_of_shrinks run
  rwa [add_zero] at quiet

theorem iunlockput (mine : 1 ≤ δ k) :
    wp Benign (iunlockput cfg k) (fun _ t => Quiet cfg L s t δ (δ - Pi.single k 1)) s := by
  refine inv.iunlock.seq fun _ t unlocked => ?_
  refine (unlocked.inv.iput mine).mono fun _ u dropped => ?_
  exact unlocked.trans dropped fun _ mine _ => mine

/-- `namex` and what it finds. -/
theorem namex (path : List UInt8) (parent : Bool) :
    wp Benign (namex cfg path parent) (fun out t =>
      match out with
      | none => Quiet cfg L s t δ δ
      | some (k, name) => Quiet cfg L s t δ (δ + Pi.single k 1) ∧
          walkPath s.dinode s path parent = some ((t.icache k).inum, name) ∧
          (parent = true → (t.dinode (t.icache k).inum).type = .dir)) s := by
  refine (namex_spec inv.fs inv.named inv.root inv.mycwd path parent).mono fun out t walked => ?_
  cases out with
  | none =>
    obtain ⟨F, run⟩ := walked
    have quiet := inv.quiet_of_shrinks run
    rwa [add_zero] at quiet
  | some result =>
    obtain ⟨F, run, goal, dir⟩ := walked
    refine ⟨inv.quiet_of_shrinks run, goal, ?_⟩
    rwa [run.fsInv.dinode]

end KernelInv

end Xv6Uac
