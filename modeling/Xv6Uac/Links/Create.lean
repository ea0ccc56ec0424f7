import Xv6Uac.Links.Change
import Xv6Uac.Links.Phases

/-!
# Making an inode

`create` allocates an inode, fills it in, makes the entries `.` and `..` if it is a
directory, and links it into its parent. In the middle the new directory and its
parent have still to be written to disk. The first entry makes the new directory
grow, which writes it. The two entries therefore go into the slots 0 and 1, and at the
end the tree has changed by `Tree.mkdir` (`KernelInv.createNew`).
-/

namespace Xv6Uac

open Words
open Hoare hiding update
open Function (update update_comm update_idem update_of_ne update_self)

variable {cfg : Config} {F F' : ℕ → Dinode} {D : Set ℕ} {s t : Kernel} {i k d dp ip : ℕ}
  {L δ ε : ℕ → ℕ} {p : Proc}

/-- An inode without contents. -/
theorem treeOf_alloc {data : ℕ → Bytes} {new : Dinode} (one : new.nlink = 1)
    (empty : new.size = 0) :
    treeOf p (update F i new) data =
      ((treeOf p F data).alloc i new.type).setSearch i (mayExecute p new) := by
  simp only [treeOf, Tree.alloc, Tree.setSearch, Tree.mk.injEq]
  have none : ∀ n, dirSlot data new n = none := fun n => if_neg fun cond => by
    have := cond.1
    rw [empty] at this
    exact absurd this (by simp)
  refine ⟨funext fun j => ?_, funext fun j => ?_, funext fun j => ?_, funext fun j => ?_⟩
  all_goals
    obtain rfl | other := eq_or_ne j i
    · simp only [update_self, one, none, ite_self]
    · simp only [update_of_ne other]

/-- What `create` writes into a new inode. -/
def Dinode.filled (p : Proc) (type : InodeType) (major minor : ℤ) (mode : BitVec 16) : Dinode :=
  { Dinode.zero with
    type := type
    major := major
    minor := minor
    nlink := 1
    uid := p.uid
    gid := p.uid
    mode := mode }

namespace Works

theorem createInode {type : InodeType} (works : Works cfg L s F ∅ t ε)
    (inum : (t.icache k).inum = i) (fresh : F i = { Dinode.zero with type := type })
    (major minor : ℤ) :
    wp Benign (createInode cfg k major minor) (fun _ u =>
      Works cfg L s (update F i (.filled s.myproc type major minor 0o644)) ∅ u ε ∧
        u.data = t.data ∧ Kept t u 0 ∧ Held u k i) t := by
  rw [Xv6Uac.createInode, myproc, wp_read, works.outside.myproc]
  apply (works.ilock (Set.notMem_empty _)).seq
  rintro _ u ⟨locked, data, kept, held⟩
  rw [inum] at held
  apply (locked.modifyAttrs held rfl rfl rfl).seq
  rintro _ v ⟨changed, data', kept'⟩
  apply (changed.iupdate (kept'.held held)).mono
  rintro _ w ⟨written, data'', kept''⟩
  rw [Set.insert_sdiff_of_mem _ (Set.mem_singleton i), Set.empty_sdiff, fresh] at written
  refine ⟨written, data''.trans (data'.trans data), ?_, kept''.held (kept'.held held)⟩
  have total := (kept.trans kept').trans kept''
  rwa [add_zero, add_zero] at total

/-- The first entry of an empty directory is in slot 0, and it writes the directory to
disk. -/
theorem dirlinkFirst (works : Works cfg L s F {i} t ε) (held : Held t k i)
    (empty : (F i).size = 0) (name : List UInt8) {x : ℕ} (small : x < cfg.sb.ninodes)
    (nonzero : x ≠ 0) :
    wp Benign (Xv6Uac.dirlink cfg k name x) (fun r u => r < 0 ∨ ∃ F', Works cfg L s F' ∅ u ε ∧
      SetSlot cfg F F' {i} i 0 (some (x, nameOf name)) t u) t := by
  refine (works.dirlink held name small nonzero).mono fun r u result => ?_
  obtain failed | ⟨-, -, -, F', n, -, room, set, after⟩ := result
  · exact .inl failed
  · obtain rfl : n = 0 := by
      simp only [DIRENT, DIRSIZ] at room
      omega
    have cached := set.written (by rw [empty]; decide)
    rw [Set.sdiff_self] at cached
    exact .inr ⟨F', ⟨⟨cached, after.fsInv.layout⟩, after.named, after.outside, after.kept⟩, set⟩

/-- The second entry of a directory is in slot 1. -/
theorem dirlinkSecond (works : Works cfg L s F ∅ t ε) (held : Held t k i)
    (size : (F i).size = DIRENT) (first : dirSlot t.data (F i) 0 ≠ none) (name : List UInt8)
    {x : ℕ} (small : x < cfg.sb.ninodes) (nonzero : x ≠ 0) :
    wp Benign (Xv6Uac.dirlink cfg k name x) (fun r u => r < 0 ∨ ∃ F', Works cfg L s F' ∅ u ε ∧
      SetSlot cfg F F' ∅ i 1 (some (x, nameOf name)) t u) t := by
  refine (works.dirlink held name small nonzero).mono fun r u result => ?_
  obtain failed | ⟨-, -, -, F', n, free, room, set, after⟩ := result
  · exact .inl failed
  · have notZero : n ≠ 0 := by
      rintro rfl
      exact first free
    obtain rfl : n = 1 := by
      simp only [DIRENT, DIRSIZ] at room size
      omega
    exact .inr ⟨F', after, set⟩

/-- The link that `..` will be and the mode of the new directory. The parent is written to
disk, the new directory not yet. -/
theorem prepareDots (works : Works cfg L s F ∅ t ε) (heldParent : Held t dp d) (held : Held t ip i)
    (apart : d ≠ i) :
    wp Benign (modifyDinode dp fun d => { d with nlink := cfg.short (d.nlink + 1) }) (fun _ u =>
      wp Benign (modifyDinode ip fun d => { d with mode := 0o755 }) (fun _ v =>
        wp Benign (Xv6Uac.iupdate cfg dp) (fun _ w => Works cfg L s (update
          (update F d { F d with nlink := cfg.short ((F d).nlink + 1) }) i
          { F i with mode := 0o755 }) {i} w ε ∧ w.data = t.data ∧ Kept t w 0) v) u) t := by
  refine (works.modifyAttrs heldParent rfl rfl rfl).mono fun _ u ⟨raised, data, kept⟩ => ?_
  have atI : update F d { F d with nlink := cfg.short ((F d).nlink + 1) } i = F i :=
    update_of_ne (Ne.symm apart) _ _
  refine (raised.modifyAttrs (kept.held held) rfl rfl rfl).mono fun _ v ⟨opened, data', kept'⟩ => ?_
  refine (opened.iupdate (kept'.held (kept.held heldParent))).mono
    fun _ w ⟨written, data'', kept''⟩ => ?_
  rw [atI, LawfulSingleton.insert_empty_eq,
    Set.insert_sdiff_of_notMem _ (fun same => apart (Set.mem_singleton_iff.mp same).symm),
    Set.sdiff_self, LawfulSingleton.insert_empty_eq] at written
  have total := (kept.trans kept').trans kept''
  exact ⟨written, data''.trans (data'.trans data), total⟩

/-- The entries `.` and `..` and the link that the second one is. -/
theorem createDots (works : Works cfg L s F ∅ t ε) (heldParent : Held t dp d) (held : Held t ip i)
    (apart : d ≠ i) (nonzero : d ≠ 0) (nonzero' : i ≠ 0) (dir : (F i).type = .dir)
    (empty : (F i).size = 0) :
    wp Benign (createDots cfg dp ip) (fun _ u => ∃ F', Works cfg L s F' ∅ u ε ∧ Kept t u 0 ∧
      (∀ j, (F' j).type = (F j).type) ∧
      treeOf s.myproc F' u.data =
        ((((treeOf s.myproc (update F i { F i with mode := 0o755 }) t.data).setNlink d
          (cfg.short ((F d).nlink + 1))).setSlot i 0 (some (i, dot))).setSlot i 1
          (some (d, dotdot)))) t := by
  have inside : ∀ {u k j}, Works cfg L s F ∅ u ε → Held u k j → j < cfg.sb.ninodes := by
    intro u k j works held
    exact held.inum ▸ works.fsInv.cached.inside held.ref
  have smallParent := inside works heldParent
  have small := inside works held
  refine (works.prepareDots heldParent held apart).seq fun _ u raised => ?_
  refine raised.seq fun _ v opened => ?_
  refine opened.seq fun _ w ⟨written, data, kept⟩ => ?_
  generalize changed : update
    (update F d { F d with nlink := cfg.short ((F d).nlink + 1) }) i
    { F i with mode := 0o755 } = G at written
  have self : G i = { F i with mode := 0o755 } := by rw [← changed, update_self]
  have dirG : (G i).type = .dir := by rw [self, dir]
  have tree : treeOf s.myproc G w.data =
      (treeOf s.myproc (update F i { F i with mode := 0o755 }) t.data).setNlink d
        (cfg.short ((F d).nlink + 1)) := by
    have other : update F i { F i with mode := 0o755 } d = F d :=
      update_of_ne apart _ _
    rw [← changed, update_comm apart, data]
    exact treeOf_setAttrs (by rw [other]) (by rw [other]) (by rw [other]) (by rw [other]; rfl)
  have held := kept.held held
  rw [inode, wp_read, held.inum]
  refine (written.dirlinkFirst held (by rw [self, empty]) dot small nonzero').seq
    fun r x result => ?_
  refine wp.ite (fun _ => by simp [panic, Benign]) fun done => ?_
  obtain ⟨G', first, set⟩ := result.resolve_left done
  have heldParent := set.kept.held (kept.held heldParent)
  rw [inode, wp_read, heldParent.inum, wp_bind]
  have size : (G' i).size = DIRENT := by
    rw [set.fields, self, empty]
    rfl
  refine (first.dirlinkSecond (set.kept.held held) size ?_ dotdot smallParent nonzero).mono
    fun r y result => ?_
  · rw [set.slot]
    simp
  rw [wp_when]
  refine ⟨fun _ => by simp [panic, Benign], fun done => ?_⟩
  obtain ⟨G'', second, set'⟩ := result.resolve_left done
  refine ⟨G'', second, ?_, fun j => ?_, ?_⟩
  · have total := (kept.trans set.kept).trans set'.kept
    rwa [add_zero, add_zero] at total
  · rw [set'.type_eq, set.type_eq, ← changed]
    obtain rfl | other := eq_or_ne j i
    · rw [update_self]
    · rw [update_of_ne other]
      obtain rfl | other := eq_or_ne j d
      · rw [update_self]
      · rw [update_of_ne other]
  · rw [set'.tree (by rw [set.type_eq, dirG]), set.tree dirG, tree]
    rfl

/-- The tree before the entry of a new inode is made, for both kinds of inodes. -/
theorem createMiddle {type : InodeType} {major minor : ℤ}
    (filled : Works cfg L s
      (update s.dinode i (.filled s.myproc type major minor 0o644)) ∅ t ε)
    (heldParent : Held t dp d) (held : Held t ip i) (apart : d ≠ i) (nonzero : d ≠ 0)
    (nonzero' : i ≠ 0) (free : (s.dinode i).type = .free) (inside : i < cfg.sb.ninodes)
    (live : type ≠ .free) (data : t.data = s.data) (name : List UInt8)
    (made gone : ℕ → List UInt8 → Prop) :
    wp Benign (when (type = .dir) (Xv6Uac.createDots cfg dp ip)) (fun _ u =>
      ∃ F', Works cfg L s F' ∅ u ε ∧ Kept t u 0 ∧
        (∀ j, (F' j).type = update (fun j => (s.dinode j).type) i type j) ∧
        (treeOf s.myproc F' u.data).search d = (Xv6Uac.tree s).search d ∧
        (∀ n, (treeOf s.myproc F' u.data).slot d n = (Xv6Uac.tree s).slot d n) ∧
        ∀ n, Tree.NewEntry made cfg.sb.ninodes NSLOT (Xv6Uac.tree s) d n (nameOf name) →
          Tree.Change cfg.short made gone cfg.sb.ninodes NSLOT (Xv6Uac.tree s)
            ((treeOf s.myproc F' u.data).setSlot d n (some (i, nameOf name)))) t := by
  have start : ∀ mode, treeOf s.myproc
      (update s.dinode i (.filled s.myproc type major minor mode)) s.data =
      ((Xv6Uac.tree s).alloc i type).setSearch i
        (mayExecute s.myproc (.filled s.myproc type major minor mode)) :=
    fun mode => treeOf_alloc rfl rfl
  have types : ∀ j, (update s.dinode i
      (.filled s.myproc type major minor 0o644) j).type =
      update (fun j => (s.dinode j).type) i type j := by
    intro j
    obtain rfl | other := eq_or_ne j i
    · rw [update_self, update_self]
      rfl
    · rw [update_of_ne other, update_of_ne other]
  have searches : ∀ may, (((Xv6Uac.tree s).alloc i type).setSearch i may).search d =
      (Xv6Uac.tree s).search d := fun may => update_of_ne apart _ _
  rw [wp_when]
  constructor
  · rintro rfl
    refine (filled.createDots heldParent held apart nonzero nonzero'
      (by rw [update_self]; rfl) (by rw [update_self]; rfl)).mono
      fun _ v ⟨F', works, kept'', types', after⟩ => ?_
    rw [update_idem, update_self, update_of_ne apart, data] at after
    have after := after.trans (congrArg (fun T => ((T.setNlink d
      (cfg.short ((s.dinode d).nlink + 1))).setSlot i 0 (some (i, dot))).setSlot i 1
        (some (d, dotdot))) (start 0o755))
    refine ⟨F', works, kept'', fun j => (types' j).trans (types j), ?_, fun n => ?_,
      fun n new => ?_⟩
    · rw [after]
      exact searches _
    · rw [after, Tree.setSlot_slot_of_ne _ _ fun eq => apart (congrArg Prod.fst eq),
        Tree.setSlot_slot_of_ne _ _ fun eq => apart (congrArg Prod.fst eq)]
      exact congrFun (Tree.alloc_of_ne (Xv6Uac.tree s) .dir apart).2.2 n
    · rw [after]
      exact .mkdir _ new nonzero' free ⟨inside, by decide⟩
  · intro file
    have after := start 0o644
    rw [← data] at after
    refine ⟨_, filled, .refl t, types, ?_, fun n => ?_, fun n new => ?_⟩
    · rw [after]
      exact searches _
    · rw [after]
      exact congrFun (Tree.alloc_of_ne (Xv6Uac.tree s) type apart).2.2 n
    · rw [after]
      exact .create _ new nonzero' free live file

end Works

/-- **A new inode with its entry.** -/
theorem KernelInv.createNew (inv : KernelInv cfg L s δ) (held : Held s dp d) (mine : 1 ≤ δ dp)
    (dir : (s.dinode d).type = .dir) {name : List UInt8}
    (absent : (tree s).search d = true → dirFind s.data (s.dinode d) name = none)
    {made gone : ℕ → List UInt8 → Prop} (leads : made d (nameOf name)) {type : InodeType}
    (live : type ≠ .free) (major minor : ℤ) :
    wp Benign (createNew cfg dp name type major minor) (fun out t => ∃ ip i u, out = some ip ∧
      Tree.Change cfg.short made gone cfg.sb.ninodes NSLOT (tree s) (tree u) ∧
      Phase cfg L s u δ (δ + Pi.single ip 1) ∧
      Quiet cfg L u t (δ + Pi.single ip 1) (δ + Pi.single ip 1 - Pi.single dp 1) ∧
      Held t ip i ∧ (t.dinode i).type = type) s := by
  refine ((Works.start inv).ialloc type).seq
    fun ip t ⟨i, nonzero, inside, free, inum, data, allocated, kept⟩ => ?_
  rw [zero_add] at allocated
  have apart : d ≠ i := by
    rintro rfl
    rw [dir] at free
    cases free
  have parentNonzero : d ≠ 0 := by
    rintro rfl
    rw [inv.zero] at dir
    cases dir
  have held₁ := kept.held held
  refine (allocated.createInode inum (update_self ..) major minor).seq
    fun _ u ⟨filled, data', kept', heldNew⟩ => ?_
  rw [update_idem] at filled
  have held₂ := kept'.held held₁
  refine (filled.createMiddle held₂ heldNew apart parentNonzero nonzero free inside live
    (data'.trans data) name made gone).seq fun _ v ⟨F', works, kept'', types, _, slots, change⟩ => ?_
  have held₃ := kept''.held held₂
  have heldNew := kept''.held heldNew
  rw [inode, wp_read, heldNew.inum]
  refine (works.dirlink held₃ name inside nonzero).seq fun r w result => ?_
  refine wp.ite (fun _ => by simp [panic, Benign]) fun done => ?_
  obtain ⟨-, dir', -, F'', n, empty, -, set, linked⟩ := result.resolve_left done
  have new : Tree.NewEntry made cfg.sb.ninodes NSLOT (tree s) d n (nameOf name) := by
    refine ⟨leads, dir, set.inside (by rw [dir']; decide), ?_, fun may m e slot => ?_⟩
    · rw [← slots, treeOf_slot dir', empty]
    · exact treeOf_absent dir absent may slot
  have changed := change n new
  rw [← set.tree dir', ← linked.tree] at changed
  have phase : Phase cfg L s w δ (δ + Pi.single ip 1) := by
    refine linked.phase inv ?_ fun j alive => ?_
    · rw [set.type_eq, types, update_of_ne (Ne.symm nonzero), inv.zero]
    · rw [set.type_eq, types, update_of_ne]
      rintro rfl
      exact alive free
  refine (phase.inv.iunlockput (Nat.le_add_right_of_le mine)).seq fun _ x dropped => ?_
  have stays : 1 ≤ (δ + Pi.single ip 1 : ℕ → ℕ) ip ∧
      1 ≤ (δ + Pi.single ip 1 - Pi.single dp 1 : ℕ → ℕ) ip := by
    rw [Pi.sub_apply, Pi.add_apply, Pi.single_eq_same]
    refine ⟨by omega, ?_⟩
    obtain rfl | other := eq_or_ne ip dp
    · rw [Pi.single_eq_same]
      omega
    · rw [Pi.single_eq_of_ne other]
      omega
  obtain ⟨heldNew, same⟩ := dropped.held stays (set.kept.held heldNew)
  refine ⟨ip, i, w, rfl, changed, phase, dropped, heldNew, ?_⟩
  rw [same, linked.fsInv.dinode, set.type_eq, types, update_self]

end Xv6Uac
