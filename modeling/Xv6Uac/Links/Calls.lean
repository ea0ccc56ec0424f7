import Xv6Uac.Links.Create

/-!
# The calls that make and remove entries

For `link`, `unlink` and `create` the parts of the call are put together. The tree
changes in one of the ways of `Tree.Change`, at the directory and the name to which the
path leads at the start of the call (`Leads`). A part that drops references commutes
with a later change of an inode that is still allocated.
-/

namespace Xv6Uac

open Words Hoare

variable {cfg : Config} {F F' : ℕ → Dinode} {s t u : Kernel} {i k d dp ip : ℕ}
  {L δ δ' : ℕ → ℕ} {p : Proc} {made gone : ℕ → List UInt8 → Prop}

/-! ## Where a path leads -/

/-- The path leads to the directory and the name of an entry in it. -/
def Leads (s : Kernel) (path : List UInt8) (d : ℕ) (name : List UInt8) : Prop :=
  ∃ elem, walkPath s.dinode s path true = some (d, elem) ∧ nameOf elem = name

variable {path name : List UInt8} {parent : Bool} {type : InodeType}

/-- A path leads to one place. -/
theorem Leads.eq {elem : List UInt8} {d d' : ℕ} (leads : Leads s path d name)
    (found : walkPath s.dinode s path true = some (d', elem)) : d = d' ∧ name = nameOf elem := by
  obtain ⟨elem', found', rfl⟩ := leads
  obtain ⟨rfl, rfl⟩ := Prod.mk.inj (Option.some.inj (found'.symm.trans found))
  exact ⟨rfl, rfl⟩

/-- A walk succeeds if it succeeds after some directories are gone. -/
theorem walk_of_gone {data : ℕ → Bytes} (same : ∀ i, (F' i).type = .dir → F' i = F i)
    (elems : List (List UInt8)) :
    ∀ {i : ℕ} {name : List UInt8} {r : ℕ × List UInt8},
      walk p F' data parent i name elems = some r → walk p F data parent i name elems = some r := by
  induction elems with
  | nil => exact fun found => found
  | cons elem rest ih =>
    intro i name r found
    rw [walk] at found ⊢
    by_cases dir : (F' i).type = .dir
    · rw [← same i dir]
      rw [if_neg (not_not.mpr dir)] at found ⊢
      split at found
      · rwa [if_pos ‹_›]
      · rw [if_neg ‹_›]
        split at found
        · cases found
        · rw [if_neg ‹_›]
          split at found
          · cases found
          · exact ih found
    · rw [if_pos dir] at found
      cases found

/-- A path leads where it led at the start of the call, if no directory has changed. -/
theorem Phase.walkPath (phase : Phase cfg L s t δ δ') (inv : KernelInv cfg L s δ)
    (data : t.data = s.data) (same : ∀ i, (t.dinode i).type = .dir → t.dinode i = s.dinode i)
    {r : ℕ × List UInt8} (found : walkPath t.dinode t path parent = some r) :
    walkPath s.dinode s path parent = some r := by
  have start : walkStart t path = walkStart s path := by
    rw [walkStart, walkStart, phase.outside.myproc]
    split
    · rfl
    · exact Option.map_congr fun k cwd => (phase.keeps (.inl (holders_cwd inv.cur cwd))).1
  rw [Xv6Uac.walkPath, start, phase.outside.myproc, data] at found
  rw [Xv6Uac.walkPath]
  obtain ⟨i, begins, found⟩ := Option.bind_eq_some_iff.mp found
  rw [begins]
  exact walk_of_gone same _ found

theorem Quiet.walkPath (quiet : Quiet cfg L s t δ δ') (inv : KernelInv cfg L s δ)
    {r : ℕ × List UInt8} (found : walkPath t.dinode t path parent = some r) :
    walkPath s.dinode s path parent = some r :=
  quiet.toPhase.walkPath inv quiet.data (fun i dir => quiet.live (by rw [dir]; decide)) found

theorem Quiet.leads (quiet : Quiet cfg L s t δ δ') (inv : KernelInv cfg L s δ) {elem : List UInt8}
    (found : Xv6Uac.walkPath t.dinode t path true = some (d, elem)) :
    Leads s path d (nameOf elem) :=
  ⟨elem, quiet.walkPath inv found, rfl⟩

/-- A change in a file leaves the directories alone. -/
theorem Quiet.dirs_of_file {v w : Kernel} (quiet : Quiet cfg L s t δ δ')
    (file : (t.dinode i).type ≠ .dir) (others : ∀ j, j ≠ i → v.dinode j = t.dinode j)
    (kind : (v.dinode i).type = (t.dinode i).type) (after : Quiet cfg L v w δ' δ') (j : ℕ)
    (dir : (w.dinode j).type = .dir) : w.dinode j = s.dinode j := by
  have alive : (w.dinode j).type ≠ .free := by rw [dir]; decide
  have same := after.live alive
  have other : j ≠ i := by
    rintro rfl
    rw [same, kind] at dir
    exact file dir
  rw [same, others j other] at alive ⊢
  exact quiet.live alive

/-- The end of a call that has dropped its references. -/
theorem Quiet.endOp (quiet : Quiet cfg L s t 0 0) :
    wp Benign endOp (fun _ u => Quiet cfg L s u 0 0) t :=
  quiet.inv.endOp.mono fun _ _ ended => quiet.next ended

/-- A call that drops its last reference and ends. -/
theorem Quiet.iunlockput_endOp (quiet : Quiet cfg L s t 0 (Pi.single k 1)) (r : ℤ) :
    wp Benign (do
      iunlockput cfg k
      Xv6Uac.endOp
      pure r) (fun _ u => Quiet cfg L s u 0 0) t := by
  refine (quiet.inv.iunlockput (by simp)).seq fun _ u dropped => ?_
  rw [sub_single_self] at dropped
  exact (quiet.next dropped).endOp

/-- No place in the tree. -/
def Nowhere (_ : ℕ) (_ : List UInt8) : Prop := False

/-- A call has changed the tree where it may make and remove entries. -/
structure Done (cfg : Config) (L : ℕ → ℕ) (made gone : ℕ → List UInt8 → Prop) (s t : Kernel) :
    Prop where
  phase : Phase cfg L s t 0 0
  effect : Tree.Effect cfg.short made gone cfg.sb.ninodes NSLOT (tree s) (tree t)

theorem Quiet.done (quiet : Quiet cfg L s t 0 0) (made gone : ℕ → List UInt8 → Prop) :
    Done cfg L made gone s t :=
  ⟨quiet.toPhase, .of_freed quiet.freed⟩

/-! ## Unlink -/

/-- The last part of `unlink` drops both references and lowers the link count. -/
theorem unlinkEnd_spec (inv : KernelInv cfg L s (Pi.single dp 1 + Pi.single ip 1))
    (held : Held s ip i) :
    wp Benign (do
      iunlockput cfg dp
      modifyDinode ip fun d => { d with nlink := cfg.short (d.nlink - 1) }
      iupdate cfg ip
      iunlockput cfg ip
      endOp
      pure 0) (fun (_ : ℤ) t => Phase cfg L s t (Pi.single dp 1 + Pi.single ip 1) 0 ∧
        Tree.Freed ((tree s).setNlink i (cfg.short ((tree s).nlink i - 1))) (tree t)) s := by
  refine (inv.iunlockput (by simp)).seq fun _ t first => ?_
  rw [single_add_sub] at first
  obtain ⟨heldT, same⟩ := first.held (by simp) held
  refine (first.inv.setNlink heldT fun x => cfg.short (x - 1)).seq fun _ _ inner => ?_
  refine inner.seq fun _ u ⟨second, data, heldU, _, lowered⟩ => ?_
  refine (second.inv.iunlockput (by simp)).seq fun _ v third => ?_
  rw [sub_single_self] at third
  refine third.inv.endOp.seq fun _ w fourth => ?_
  constructor
  · refine ((first.toPhase.trans second ?_).trans third.toPhase ?_).trans fourth.toPhase ?_
    · exact fun j _ mine => mine
    · exact fun j _ mine => absurd mine (by simp)
    · exact fun j _ mine => mine
  · have nlink : (tree t).nlink i = (tree s).nlink i := congrArg Dinode.nlink same
    have live : (tree t).kind i ≠ .free := (first.inv.fs.cached.held heldT).2
    have commuted := first.freed.setNlink live (cfg.short ((tree t).nlink i - 1))
    rw [← lowered, nlink] at commuted
    exact (commuted.trans third.freed).trans fourth.freed

/-- What `unlink` does once the entry is found. -/
theorem unlinkEntry_spec (inv : KernelInv cfg L s (Pi.single dp 1 + Pi.single ip 1))
    (heldParent : Held s dp d) (held : Held s ip i) (apart : i ≠ d) {n : ℕ}
    (old : Tree.OldEntry gone (tree s) d n i name) (fits : DIRENT * n + DIRENT ≤ (s.dinode d).size)
    (empty : (s.dinode i).type = .dir → ∀ m, 2 ≤ m → (tree s).slot i m = none) :
    wp Benign (unlinkEntry cfg dp ip (DIRENT * n)) (fun _ t =>
      Phase cfg L s t (Pi.single dp 1 + Pi.single ip 1) 0 ∧
        ∃ T', Tree.Change cfg.short made gone cfg.sb.ninodes NSLOT (tree s) T' ∧
          Tree.Freed T' (tree t)) s := by
  refine (inv.clearEntry heldParent old.dir fits).seq fun r t cleared => ?_
  refine wp.ite (fun _ => by simp [panic, Benign]) fun full => ?_
  obtain ⟨first, clear⟩ := cleared (not_not.mp full)
  have heldT := first.held (by simp) held
  have heldParentT := first.held (by simp) heldParent
  have between : ∀ j, 1 ≤ (Pi.single dp 1 + Pi.single ip 1 : ℕ → ℕ) j → 1 ≤ (0 : ℕ → ℕ) j →
      1 ≤ (Pi.single dp 1 + Pi.single ip 1 : ℕ → ℕ) j := fun _ mine _ => mine
  have kind : (tree t).kind i = (tree s).kind i := by rw [clear, Tree.setSlot_kind]
  have shows : (t.icache ip).d.type = (tree s).kind i := by
    rwa [(first.inv.fs.cached.held heldT).1]
  rw [inode, wp_read, shows, wp_bind, wp_when]
  constructor
  · intro dir
    refine (first.inv.setNlink heldParentT fun x => cfg.short (x - 1)).seq fun _ _ inner => ?_
    apply inner.mono
    rintro _ u ⟨second, data, _, _, lowered⟩
    have heldU := second.held (by simp) heldT
    apply (unlinkEnd_spec second.inv heldU).mono
    rintro _ v ⟨third, freed⟩
    refine ⟨(first.trans second fun _ mine _ => mine).trans third between, _, ?_, freed⟩
    rw [lowered, Tree.setNlink_nlink_of_ne _ _ apart, clear]
    exact .rmdir old dir (empty dir)
  · intro file
    apply (unlinkEnd_spec first.inv heldT).mono
    rintro _ v ⟨third, freed⟩
    refine ⟨first.trans third between, _, ?_, freed⟩
    rw [clear]
    exact .unlink old file

theorem unlinkBad_spec (quiet : Quiet cfg L s t 0 (Pi.single dp 1)) :
    wp Benign (unlinkBad cfg dp) (fun _ u => Quiet cfg L s u 0 0) t :=
  quiet.iunlockput_endOp (-1)

/-- The locked parent is not the inode that is locked next. -/
theorem unlinkFound_spec (quiet : Quiet cfg L s t 0 (Pi.single dp 1 + Pi.single ip 1))
    (heldParent : Held t dp d) (locked : (t.icache dp).locked = true) {n : ℕ}
    (old : Tree.OldEntry (Leads s path) (tree t) d n (t.icache ip).inum name)
    (fits : DIRENT * n + DIRENT ≤ (t.dinode d).size) :
    wp Benign (unlinkFound cfg dp ip (DIRENT * n)) (fun _ u => Done cfg L Nowhere (Leads s path) s u) t := by
  apply quiet.inv.ilock.seq
  rintro _ u ⟨lock, held, disk, unlocked, _⟩
  generalize inum : (t.icache ip).inum = i at old held
  have quiet := quiet.next lock
  have heldParent := (lock.held (by simp) heldParent).1
  have apart : i ≠ d := by
    rintro rfl
    have same := quiet.inv.fs.cached.unique held.ref heldParent.ref
      (held.inum.trans heldParent.inum.symm)
    rw [same, locked] at unlocked
    cases unlocked
  have same : tree u = tree t := by
    rw [tree, tree, disk, lock.data, lock.outside.myproc]
  rw [← same] at old
  rw [← disk] at fits
  have shows := (quiet.inv.fs.cached.held held).1
  have finish : ((u.dinode i).type = .dir → ∀ m, 2 ≤ m → (tree u).slot i m = none) →
      wp Benign (unlinkEntry cfg dp ip (DIRENT * n))
        (fun _ v => Done cfg L Nowhere (Leads s path) s v) u := by
    intro empty
    exact (unlinkEntry_spec quiet.inv heldParent held apart old fits empty).mono
      fun _ v after => after.2.elim fun T' changed =>
        ⟨quiet.toPhase.next after.1, tree u, T', quiet.freed, changed⟩
  rw [inode, wp_read, shows]
  refine wp.ite (fun _ => by simp [panic, Benign]) fun _ => ?_
  apply wp.ite
  · intro dir
    apply (isdirempty_spec quiet.inv.fs held dir).seq
    rintro isEmpty v ⟨rfl, empty⟩
    apply wp.ite
    · intro isEmpty
      refine finish fun _ m two => ?_
      rw [tree, treeOf_slot dir]
      exact empty.mp isEmpty m two
    · intro _
      refine (quiet.inv.iunlockput (by simp)).seq fun _ w dropped => ?_
      rw [add_sub_single] at dropped
      exact (unlinkBad_spec (quiet.next dropped)).mono fun _ _ ended => ended.done _ _
  · exact fun file => finish fun dir => absurd dir file

/-- **`unlink` removes at most the entry to which its path leads.** -/
theorem sysUnlink_spec (inv : KernelInv cfg L s 0) (path : List UInt8) :
    wp Benign (sysUnlink cfg path) (fun _ t => Done cfg L Nowhere (Leads s path) s t) s := by
  refine inv.beginOp.seq fun _ t begun => ?_
  refine (begun.inv.namex path true).seq fun out u walked => ?_
  cases out with
  | none =>
    exact (begun.next walked).endOp.seq fun _ _ ended => ended.done _ _
  | some result =>
    obtain ⟨dp, name⟩ := result
    obtain ⟨quiet, found, isDir⟩ := walked
    rw [zero_add] at quiet
    have leads := begun.leads inv found
    have quiet := begun.next quiet
    refine quiet.inv.ilock.seq fun _ v ⟨lock, held, disk, _, locked⟩ => ?_
    generalize (u.icache dp).inum = d at leads held isDir
    have quiet := quiet.next lock
    refine wp.ite (fun _ => (unlinkBad_spec quiet).mono fun _ _ ended => ended.done _ _) fun noDots => ?_
    rw [namecmp_eq_zero, namecmp_eq_zero, not_or] at noDots
    refine (quiet.inv.dirlookup held name).seq fun out w ⟨dir, found⟩ => ?_
    cases out with
    | none =>
      obtain ⟨rfl, -⟩ := found
      exact (unlinkBad_spec quiet).mono fun _ _ ended => ended.done _ _
    | some result =>
      obtain ⟨ip, off⟩ := result
      obtain ⟨may, n, i, rfl, fits, slot, -, inum, got, disk', kept, locks⟩ := found
      have same : tree w = tree v := by
        rw [tree, tree, disk', got.data, got.outside.myproc]
      have old : Tree.OldEntry (Leads s path) (tree w) d n (w.icache ip).inum (nameOf name) := by
        rw [same, inum]
        exact ⟨leads, dir, may, slot, noDots.1, noDots.2⟩
      refine unlinkFound_spec (quiet.next got) (kept.held held) ?_ old (by rwa [disk'])
      rw [locks dp held.ref, locked]

/-! ## Link -/

/-- The link count is lowered again if `link` fails. -/
theorem linkBad_spec (inv : KernelInv cfg L s (Pi.single ip 1)) (inum : (s.icache ip).inum = i) :
    wp Benign (linkBad cfg ip) (fun _ t => Phase cfg L s t (Pi.single ip 1) 0 ∧
      Tree.Freed ((tree s).setNlink i (cfg.short ((tree s).nlink i - 1))) (tree t)) s := by
  refine inv.ilock.seq fun _ t ⟨lock, held, disk, _⟩ => ?_
  rw [inum] at held
  refine (lock.inv.setNlink held fun x => cfg.short (x - 1)).seq fun _ _ inner => ?_
  refine inner.seq fun _ u ⟨phase, _, _, _, lowered⟩ => ?_
  refine (phase.inv.iunlockput (by simp)).seq fun _ v dropped => ?_
  rw [sub_single_self] at dropped
  refine dropped.inv.endOp.seq fun _ w ended => ⟨?_, ?_⟩
  · refine ((lock.toPhase.trans phase ?_).trans dropped.toPhase ?_).trans ended.toPhase ?_
    · exact fun j mine _ => mine
    · exact fun j _ mine => absurd mine (by simp)
    · exact fun j _ mine => mine
  · have same : tree t = tree s := by
      rw [tree, tree, disk, lock.data, lock.outside.myproc]
    rw [same] at lowered
    rw [← lowered]
    exact dropped.freed.trans ended.freed

/-- The second half of `link` makes an entry, or lowers the link count again. -/
theorem linkInto_spec (inv : KernelInv cfg L s (Pi.single ip 1)) (held : Held s ip i)
    (new : List UInt8)
    (leads : ∀ d name, walkPath s.dinode s new true = some (d, name) → made d (nameOf name)) :
    wp Benign (linkInto cfg ip new) (fun _ t => Phase cfg L s t (Pi.single ip 1) 0 ∧
      (Tree.Freed ((tree s).setNlink i (cfg.short ((tree s).nlink i - 1))) (tree t) ∨
        ∃ d n name, Tree.NewEntry made cfg.sb.ninodes NSLOT (tree s) d n name ∧
          Tree.Freed ((tree s).setSlot d n (some (i, name))) (tree t))) s := by
  have live := (inv.fs.cached.held held).2
  have nonzero : i ≠ 0 := by
    rintro rfl
    exact live inv.zero
  -- all the failures, after a part that drops what it has taken
  have bad : ∀ {t}, Quiet cfg L s t (Pi.single ip 1) (Pi.single ip 1) →
      wp Benign (linkBad cfg ip) (fun _ u => Phase cfg L s u (Pi.single ip 1) 0 ∧
        (Tree.Freed ((tree s).setNlink i (cfg.short ((tree s).nlink i - 1))) (tree u) ∨
          ∃ d n name, Tree.NewEntry made cfg.sb.ninodes NSLOT (tree s) d n name ∧
            Tree.Freed ((tree s).setSlot d n (some (i, name))) (tree u))) t := by
    intro t quiet
    obtain ⟨heldT, same⟩ := quiet.held (by simp) held
    refine (linkBad_spec quiet.inv heldT.inum).mono fun _ u ⟨phase, freed⟩ => ?_
    refine ⟨quiet.toPhase.trans phase fun _ mine _ => mine, .inl ?_⟩
    have nlink : (tree t).nlink i = (tree s).nlink i := congrArg Dinode.nlink same
    rw [nlink] at freed
    exact (quiet.freed.setNlink (quiet.inv.fs.cached.held heldT).2 _).trans freed
  refine (inv.namex new true).seq fun out t walked => ?_
  cases out with
  | none => exact bad walked
  | some result =>
    obtain ⟨dp, name⟩ := result
    obtain ⟨quiet, found, -⟩ := walked
    have leads := leads _ _ found
    refine quiet.inv.ilock.seq fun _ u ⟨lock, heldParent, disk, _⟩ => ?_
    generalize (t.icache dp).inum = d at leads heldParent
    have quiet := quiet.trans lock fun _ mine _ => Nat.le_add_right_of_le mine
    have heldU := (quiet.held (by simp) held).1
    have inside : i < cfg.sb.ninodes := held.inum ▸ inv.fs.cached.inside held.ref
    rw [inode, wp_read, heldU.inum]
    refine (quiet.inv.dirlink heldParent name inside nonzero).seq fun r v result => ?_
    rw [wp_bind]
    obtain ⟨failed, same⟩ | ⟨done, linked, dir, absent, n, empty, small, after⟩ := result
    · refine (same.inv.iunlockput (by simp)).mono fun _ w dropped => ?_
      rw [add_sub_single] at dropped
      rw [if_pos failed]
      exact bad ((quiet.trans same fun _ mine _ => Nat.le_add_right_of_le mine).trans dropped
        fun _ mine _ => Nat.le_add_right_of_le mine)
    · refine (linked.inv.iunlockput (by simp)).mono fun _ w dropped => ?_
      rw [add_sub_single] at dropped
      rw [if_neg (by rw [done]; decide)]
      refine (dropped.inv.iput (by simp)).seq fun _ x last => ?_
      rw [sub_single_self] at last
      refine last.inv.endOp.seq fun _ y ended => ⟨?_, .inr ⟨d, n, nameOf name, ?_, ?_⟩⟩
      · have more : ∀ j, 1 ≤ (Pi.single ip 1 : ℕ → ℕ) j →
            1 ≤ (Pi.single ip 1 + Pi.single dp 1 : ℕ → ℕ) j :=
          fun _ mine => Nat.le_add_right_of_le mine
        refine (((quiet.toPhase.trans linked ?_).trans dropped.toPhase ?_).trans last.toPhase
          ?_).trans ended.toPhase ?_
        · exact fun j mine _ => more j mine
        · exact fun j mine _ => more j mine
        · exact fun j mine _ => mine
        · exact fun j _ mine => mine
      · obtain ⟨kind, -, slot, search⟩ := quiet.freed.live (by
          rw [show (tree u).kind d = .dir from dir]
          decide)
        refine ⟨leads, kind.symm.trans dir, small, slot ▸ empty, fun may m e there => ?_⟩
        rw [← slot] at there
        rw [← search] at may
        exact treeOf_absent dir absent may there
      · have commuted := quiet.freed.setSlot (by
          rw [show (tree u).kind d = .dir from dir]
          decide) n (some (i, nameOf name))
        rw [← after] at commuted
        exact ((commuted.trans dropped.freed).trans last.freed).trans ended.freed

/-- `namei` and what it finds. -/
theorem KernelInv.namei (inv : KernelInv cfg L s δ) (path : List UInt8) :
    wp Benign (namei cfg path) (fun out t =>
      match out with
      | none => Quiet cfg L s t δ δ
      | some k => Quiet cfg L s t δ (δ + Pi.single k 1) ∧
          ∃ name, walkPath s.dinode s path false = some ((t.icache k).inum, name)) s := by
  refine (inv.namex path false).seq fun out t walked => ?_
  cases out with
  | none => exact walked
  | some result => exact ⟨walked.1, result.2, walked.2.1⟩

/-- **`link` makes at most the entry to which its path leads.** -/
theorem sysLink_spec (inv : KernelInv cfg L s 0) (old new : List UInt8) :
    wp Benign (sysLink cfg old new) (fun _ t => Done cfg L (Leads s new) Nowhere s t) s := by
  refine inv.beginOp.seq fun _ t begun => ?_
  refine (begun.inv.namei old).seq fun out u found => ?_
  cases out with
  | none =>
    exact (begun.next found).endOp.seq fun _ _ ended => ended.done _ _
  | some ip =>
    have quiet := begun.next found.1
    rw [zero_add] at quiet
    apply quiet.inv.ilock.seq
    rintro _ v ⟨lock, held, disk, _⟩
    generalize (u.icache ip).inum = i at held
    have quiet := quiet.next lock
    obtain ⟨shows, live⟩ := quiet.inv.fs.cached.held held
    rw [inode, wp_read, shows]
    refine wp.ite (fun _ => (quiet.iunlockput_endOp (-1)).mono fun _ _ ended => ended.done _ _)
      fun file => ?_
    refine (quiet.inv.setNlink held fun x => cfg.short (x + 1)).seq fun _ _ inner => ?_
    apply inner.seq
    rintro _ w ⟨phase, data, heldW, others, raised⟩
    refine phase.inv.iunlock.seq fun _ x unlocked => ?_
    have phase := (quiet.toPhase.next phase).next unlocked.toPhase
    have kind : (tree w).kind i = (tree v).kind i := by rw [raised, Tree.setNlink_kind]
    have leads : ∀ d name, walkPath x.dinode x new true = some (d, name) →
        Leads s new d (nameOf name) := fun d name found =>
      ⟨name, phase.walkPath inv (by rw [unlocked.data, data, quiet.data])
        (quiet.dirs_of_file file others kind unlocked) found, rfl⟩
    obtain ⟨heldX, same⟩ := unlocked.held (by simp) heldW
    apply (linkInto_spec unlocked.inv heldX new leads).mono
    rintro _ y ⟨last, outcome⟩
    refine ⟨phase.next last, ?_⟩
    have nlink : (tree x).nlink i = cfg.short ((tree v).nlink i + 1) := by
      have nlinkW : (tree x).nlink i = (tree w).nlink i := congrArg Dinode.nlink same
      rw [nlinkW, raised, Tree.setNlink_nlink_self]
    have freed : Tree.Freed ((tree v).setNlink i (cfg.short ((tree v).nlink i + 1))) (tree x) :=
      raised ▸ unlocked.freed
    obtain lowered | ⟨d, n, name, entry, linked⟩ := outcome
    · rw [nlink] at lowered
      have commuted := freed.setNlink (unlocked.inv.fs.cached.held heldX).2
        (cfg.short (cfg.short ((tree v).nlink i + 1) - 1))
      refine ⟨tree v, _, quiet.freed, .bump live file, ?_⟩
      have twice : ∀ a b, ((tree v).setNlink i a).setNlink i b = (tree v).setNlink i b := by
        intro a b
        simp [Tree.setNlink]
      rw [twice] at commuted
      exact commuted.trans lowered
    · have alive : (tree x).kind d ≠ .free := by rw [entry.dir]; decide
      obtain ⟨kindD, -, slotD, searchD⟩ := freed.live alive
      refine ⟨tree v, _, quiet.freed, .link ?_ live file,
        (freed.setSlot alive n (some (i, name))).trans linked⟩
      refine ⟨entry.parent, kindD ▸ entry.dir, entry.inside, ?_, ?_⟩
      · have empty := entry.empty
        rwa [slotD] at empty
      · have absent := entry.absent
        rwa [slotD, searchD] at absent

/-! ## Create -/

/-- What `create` leaves: the new or the old inode, locked. -/
def Created (cfg : Config) (L : ℕ → ℕ) (path : List UInt8) (type : InodeType) (s : Kernel) (out : Option ℕ)
    (t : Kernel) : Prop :=
  match out with
  | none => Quiet cfg L s t 0 0
  | some ip => Phase cfg L s t 0 (Pi.single ip 1) ∧
      Tree.Effect cfg.short (Leads s path) Nowhere cfg.sb.ninodes NSLOT (tree s) (tree t) ∧
      ∃ i, Held t ip i ∧ ((t.dinode i).type = type ∨ (t.dinode i).type = .dev)

theorem createFound_spec (quiet : Quiet cfg L s t 0 (Pi.single dp 1 + Pi.single ip 1)) :
    wp Benign (createFound cfg dp ip type) (Created cfg L path type s) t := by
  refine (quiet.inv.iunlockput (by simp)).seq fun _ u dropped => ?_
  rw [single_add_sub] at dropped
  have quiet := quiet.next dropped
  refine quiet.inv.ilock.seq fun _ v ⟨lock, held, _⟩ => ?_
  have quiet := quiet.next lock
  rw [inode, wp_read, (quiet.inv.fs.cached.held held).1]
  apply wp.ite
  · intro allowed
    refine ⟨quiet.toPhase, .of_freed quiet.freed, _, held, ?_⟩
    exact allowed.imp (fun both => both.2.trans both.1.symm) id
  · intro _
    refine (quiet.inv.iunlockput (by simp)).seq fun _ w dropped => ?_
    rw [sub_single_self] at dropped
    exact quiet.next dropped

/-- **`create` makes at most the entry to which its path leads.** -/
theorem create_spec (inv : KernelInv cfg L s 0) (begun : Quiet cfg L s t 0 0) (path : List UInt8)
    (live : type ≠ .free) (major minor : ℤ) :
    wp Benign (create cfg path type major minor) (Created cfg L path type s) t := by
  refine (begun.inv.namex path true).seq fun out t' walked => ?_
  cases out with
  | none => exact begun.next walked
  | some result =>
    obtain ⟨dp, name⟩ := result
    obtain ⟨quiet, found, -⟩ := walked
    rw [zero_add] at quiet
    have leads := begun.leads inv found
    have quiet := begun.next quiet
    refine quiet.inv.ilock.seq fun _ u ⟨lock, held, _⟩ => ?_
    have quiet := quiet.next lock
    refine (quiet.inv.dirlookup held name).seq fun out v ⟨dir, found⟩ => ?_
    cases out with
    | some result =>
      obtain ⟨ip, off⟩ := result
      obtain ⟨-, n, i, -, -, -, -, -, got, -⟩ := found
      exact createFound_spec (quiet.next got)
    | none =>
      obtain ⟨rfl, absent⟩ := found
      refine (quiet.inv.createNew held (by simp) dir absent leads live major minor).mono
        fun out w ⟨ip, i, x, eq, (change : Tree.Change cfg.short _ Nowhere _ _ _ _), phase,
          dropped, heldNew, isType⟩ => ?_
      subst eq
      rw [single_add_sub] at dropped
      exact ⟨(quiet.toPhase.next phase).next dropped.toPhase,
        ⟨_, _, quiet.freed, change, dropped.freed⟩, i, heldNew, .inl isType⟩

/-- `mkdir` and `mknod`. -/
theorem createAndPut_spec (inv : KernelInv cfg L s 0) (path : List UInt8) (live : type ≠ .free)
    (major minor : ℤ) :
    wp Benign (createAndPut cfg path type major minor) (fun _ t => Done cfg L (Leads s path) Nowhere s t) s := by
  refine inv.beginOp.seq fun _ t begun => ?_
  refine (create_spec inv begun path live major minor).seq fun out u created => ?_
  cases out with
  | none =>
    exact (Quiet.endOp created).seq fun _ _ ended => ended.done _ _
  | some ip =>
    obtain ⟨phase, effect, -⟩ := created
    refine (phase.inv.iunlockput (by simp)).seq fun _ v dropped => ?_
    rw [sub_single_self] at dropped
    refine dropped.inv.endOp.seq fun _ w ended => ?_
    exact ⟨(phase.next dropped.toPhase).next ended.toPhase,
      (effect.freed dropped.freed).freed ended.freed⟩

end Xv6Uac
