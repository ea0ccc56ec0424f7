import Xv6Uac.Fs.Files

/-!
# The locks that a call holds

`ilock` and `iput` wait for the lock of an inode. A call that holds it already waits for
itself. `ilock` also panics on an inode that is not allocated. `Locked Λ` says which
entries of the inode cache are locked. The functions that take no locks keep it
(`storeFrame_locked`), and the others change it as they should, on two conditions: a lock
that is taken is free, and an inode that is locked is allocated.

The second condition is about the whole tree: a path is safe to walk if every entry of a
directory names an allocated inode (`Tree.Closed`).
-/

namespace Xv6Uac

open Words Hoare

variable {cfg : Config} {A N : Prop} {Λ D : Set ℕ} {F : ℕ → Dinode} {s t : Kernel} {i k : ℕ}
  {L δ δ' : ℕ → ℕ}

/-- A failure other than a deadlock, if `A` holds, and other than the lock of an inode
that is not allocated, if `N` holds. -/
def Moves (A N : Prop) (reason : Stop) : Prop :=
  (A → reason ≠ .deadlock) ∧ (N → reason ≠ .panic .ilockNoType)

theorem moves_of_not_ofLock {reason : Stop} (other : ¬reason.OfLock) : Moves A N reason :=
  ⟨fun _ same => other (.inl same), fun _ same => other (.inr same)⟩

/-- The entries of the inode cache that are locked. -/
def Locked (Λ : Set ℕ) (s : Kernel) : Prop := ∀ k, (s.icache k).locked = true ↔ k ∈ Λ

namespace Locked

/-- A change of an entry that leaves its lock. -/
theorem setEntry (locked : Locked Λ s) {ip : Inode} (same : ip.locked = (s.icache k).locked) :
    Locked Λ { s with icache := Function.update s.icache k ip } := by
  intro j
  obtain rfl | other := eq_or_ne j k
  · simpa [same] using locked j
  · simpa [other] using locked j

theorem lock (locked : Locked Λ s) (k : ℕ) :
    Locked (insert k Λ)
      { s with icache := Function.update s.icache k { s.icache k with locked := true } } := by
  intro j
  obtain rfl | other := eq_or_ne j k
  · simp
  · simpa [other] using locked j

theorem unlock (locked : Locked Λ s) (k : ℕ) :
    Locked (Λ \ {k})
      { s with icache := Function.update s.icache k { s.icache k with locked := false } } := by
  intro j
  obtain rfl | other := eq_or_ne j k
  · simp
  · simpa [other] using locked j

end Locked

/-- The functions that take no locks. -/
theorem storeFrame_locked : StoreFrame (Moves A N) (Locked Λ) where
  fails _ other := moves_of_not_ofLock other
  log _ _ _ locked := locked
  blocks _ _ _ locked := locked
  devices _ _ locked := locked
  entry _ _ _ locked _ _ _ same := locked.setEntry same
  store _ _ _ locked := locked
  alloc _ _ _ locked := locked

theorem modifyDinode_locked (k : ℕ) (f : Dinode → Dinode) :
    Preserves (Moves A N) (Locked Λ) (modifyDinode k f) :=
  .update fun _ locked => locked.setEntry rfl

/-! ## Locks -/

section

variable (locked : Locked Λ s)
include locked

theorem acquiresleep_locked (apart : A → k ∉ Λ) :
    wp (Moves A N) (acquiresleep k) (fun _ t => k ∉ Λ ∧
      t = { s with icache := Function.update s.icache k { s.icache k with locked := true } }) s := by
  simp only [acquiresleep, inode, modifyInode, wp_bind, wp_gets, wp_ite, wp_update]
  refine ⟨fun taken => ?_, fun free => ⟨fun member => free ((locked k).mpr member), trivial⟩⟩
  exact ⟨fun asked => absurd ((locked k).mp taken) (apart asked), fun _ => by decide⟩

theorem ilock_locked (apart : A → k ∉ Λ) (live : N → (s.dinode (s.icache k).inum).type ≠ .free) :
    wp (Moves A N) (ilock cfg k) (fun _ t => k ∉ Λ ∧ Locked (insert k Λ) t) s := by
  refine wp.ite (fun _ => moves_of_not_ofLock (by decide)) fun _ => ?_
  refine (acquiresleep_locked locked apart).seq fun _ t ⟨free, same⟩ => ?_
  subst same
  have taken := locked.lock k
  rw [wp_when]
  refine ⟨fun _ => ?_, fun _ => ⟨free, taken⟩⟩
  refine wp.ite (fun _ => ?_) fun _ => moves_of_not_ofLock (by decide)
  rw [wp_read, wp_bind, modifyInode, wp_update, wp_when]
  refine ⟨fun noType => ⟨fun _ => by decide, fun asked => absurd ?_ (live asked)⟩,
    fun _ => ⟨free, taken.setEntry rfl⟩⟩
  simpa using noType

theorem iunlock_locked : wp (Moves A N) (iunlock k) (fun _ t => Locked (Λ \ {k}) t) s := by
  exact wp.ite (fun _ => moves_of_not_ofLock (by decide)) fun _ => locked.unlock k

theorem iput_locked (apart : A → k ∉ Λ) :
    wp (Moves A N) (iput cfg k) (fun _ t => Locked Λ t) s := by
  apply (acquiresleep_locked locked apart).seq
  rintro _ t ⟨free, rfl⟩
  rw [inode, wp_read]
  refine (Preserves.when (fun _ => storeFrame_locked.ifree k) _ (locked.lock k)).seq
    fun _ u taken => ?_
  have given := taken.unlock k
  rw [Set.insert_sdiff_self_of_notMem free] at given
  exact given.setEntry rfl

theorem iunlockput_locked :
    wp (Moves A N) (iunlockput cfg k) (fun _ t => Locked (Λ \ {k}) t) s := by
  refine (iunlock_locked locked).seq fun _ t unlocked => ?_
  exact iput_locked unlocked fun _ => by simp

end

/-! ### A call that holds no other lock -/

theorem ilock_alone (locked : Locked ∅ s)
    (live : N → (s.dinode (s.icache k).inum).type ≠ .free) :
    wp (Moves A N) (ilock cfg k) (fun _ t => Locked {k} t) s := by
  refine (ilock_locked locked (fun _ => Set.notMem_empty k) live).mono fun _ t ⟨_, taken⟩ => ?_
  rwa [LawfulSingleton.insert_empty_eq] at taken

theorem iunlock_alone (locked : Locked {k} s) :
    wp (Moves A N) (iunlock k) (fun _ t => Locked ∅ t) s := by
  refine (iunlock_locked locked).mono fun _ t given => ?_
  rwa [Set.sdiff_self] at given

theorem iunlockput_alone (locked : Locked {k} s) :
    wp (Moves A N) (iunlockput cfg k) (fun _ t => Locked ∅ t) s := by
  refine (iunlockput_locked locked).mono fun _ t given => ?_
  rwa [Set.sdiff_self] at given

theorem iput_alone (locked : Locked ∅ s) :
    wp (Moves A N) (iput cfg k) (fun _ t => Locked ∅ t) s :=
  iput_locked locked fun _ => Set.notMem_empty k

theorem endWith_locked (locked : Locked Λ s) (r : ℤ) :
    wp (Moves A N) (do endOp; pure r) (fun _ t => Locked Λ t) s :=
  Preserves.bind storeFrame_locked.endOp (fun _ => .pure r) s locked

/-- The exits that put the locked inode, end the operation and return. -/
theorem putAndEnd_locked (locked : Locked {k} s) (r : ℤ) :
    wp (Moves A N) (do iunlockput cfg k; endOp; pure r) (fun _ t => Locked ∅ t) s := by
  exact (iunlockput_alone locked).seq fun _ t given => endWith_locked given r

/-! ## Directories -/

/-- `dirlink` puts an inode that it finds while it holds the lock of the directory. -/
theorem dirlink_locked (inv : FsInv cfg F D s) (held : Held s k i) (named : Named cfg F s.data)
    (locked : Locked Λ s) (used : ∀ l ∈ Λ, 0 < (s.icache l).ref) (name : List UInt8) (x : ℕ)
    (apart : A → mayExecute s.myproc (F i) = true → ∀ j ∈ lookup s.data (F i) name,
      ∀ l ∈ Λ, (s.icache l).inum ≠ j) :
    wp (Moves A N) (dirlink cfg k name x) (fun _ t => Locked Λ t) s := by
  refine ((storeFrame_locked.dirlookup k name s locked).and
    (dirlookup_spec inv held named name)).seq fun out t ⟨lockedT, _, found⟩ => ?_
  cases out with
  | none => exact storeFrame_locked.dirlinkWrite k _ t lockedT
  | some result =>
    obtain ⟨l, off⟩ := result
    obtain ⟨may, n, j, -, first, slot, ip, same, -, inum, kept, -⟩ := found
    rw [wp_bind]
    refine iput_locked lockedT fun asked member => ?_
    have next : j ∈ lookup s.data (F i) name := by
      rw [Option.mem_def, lookup, first, Option.bind_some, slot, Option.map_some]
    apply apart asked may j next l member
    rw [← kept.inum l (used l member), same]
    simpa using inum

/-! ## Paths -/

/-- Every entry of a directory names an allocated inode, and one with links unless it is
the directory itself. -/
structure Tree.Closed (T : Tree) (root : ℕ) : Prop where
  root : T.kind root ≠ .free ∧ 0 < T.nlink root
  target : ∀ {d n : ℕ} {e : ℕ × List UInt8}, T.kind d = .dir → T.slot d n = some e →
    T.kind e.1 ≠ .free ∧ (e.1 = d ∨ 0 < T.nlink e.1)

namespace Tree.Closed

variable {T T' : Tree} {root : ℕ}

/-- Only inodes without links are freed. -/
theorem freed (closed : T.Closed root) (freed : Freed T T') : T'.Closed root := by
  have linked : ∀ {i}, T.kind i ≠ .free → 0 < T.nlink i → T'.kind i ≠ .free ∧ 0 < T'.nlink i := by
    intro i live links
    obtain ⟨kind, nlink, -⟩ | gone := freed i
    · rw [kind, nlink]
      exact ⟨live, links⟩
    · exact absurd gone.2.1 links.ne'
  refine ⟨linked closed.root.1 closed.root.2, fun {d n e} dir slot => ?_⟩
  obtain ⟨kind, -, slots, -⟩ := freed.live (by rw [dir]; decide)
  obtain ⟨live, self | links⟩ := closed.target (kind ▸ dir) (slots ▸ slot)
  · exact ⟨by rw [self, dir]; decide, .inl self⟩
  · exact ⟨(linked live links).1, .inr (linked live links).2⟩

theorem setNlink (closed : T.Closed root) {i : ℕ} {x : ℤ} (stays : 0 < T.nlink i → 0 < x) :
    (T.setNlink i x).Closed root := by
  have linked : ∀ {j}, 0 < T.nlink j → 0 < (T.setNlink i x).nlink j := by
    intro j links
    obtain rfl | other := eq_or_ne j i
    · rw [setNlink_nlink_self]
      exact stays links
    · rwa [setNlink_nlink_of_ne _ _ other]
  refine ⟨⟨closed.root.1, linked closed.root.2⟩, fun dir slot => ?_⟩
  obtain ⟨live, where_⟩ := closed.target dir slot
  exact ⟨live, where_.imp id linked⟩

end Tree.Closed

/-- A call that holds `δ` references and no lock, in a tree whose paths are safe to walk if
`N` holds. -/
structure Ready (cfg : Config) (L : ℕ → ℕ) (N : Prop) (s : Kernel) (δ : ℕ → ℕ) : Prop where
  inv : KernelInv cfg L s δ
  locked : Locked ∅ s
  closed : N → (links s).Closed ROOTINO

namespace Ready

theorem quiet (ready : Ready cfg L N s δ) (quiet : Quiet cfg L s t δ δ') (locked : Locked ∅ t) :
    Ready cfg L N t δ' :=
  ⟨quiet.inv, locked, fun asked => (ready.closed asked).freed quiet.freed.bare⟩

theorem beginOp (ready : Ready cfg L N s δ) :
    wp (Moves A N) beginOp (fun _ t => Quiet cfg L s t δ δ ∧ Ready cfg L N t δ) s :=
  ((storeFrame_locked.beginOp s ready.locked).and ready.inv.beginOp).mono
    fun _ _ ⟨locked, begun⟩ => ⟨begun, ready.quiet begun locked⟩

/-- The entry of a directory that is locked names an allocated inode. -/
theorem entry_live (closed : N → (links s).Closed ROOTINO) (dir : (s.dinode i).type = .dir)
    {n : ℕ} {e : ℕ × List UInt8} (slot : dirSlot s.data (s.dinode i) n = some e) (asked : N) :
    (s.dinode e.1).type ≠ .free :=
  ((closed asked).target dir ((links_slot dir n).trans slot)).1

/-- A path is walked with one lock at a time. -/
theorem namexLoop (parent : Bool) (elems : List (List UInt8)) :
    ∀ {s : Kernel} {k : ℕ} (name : List UInt8), Ready cfg L N s (δ + Pi.single k 1) →
      (N → (s.dinode (s.icache k).inum).type ≠ .free) →
      wp (Moves A N) (namexLoop cfg parent k name elems) (fun out t => Locked ∅ t ∧
        ∀ r ∈ out, N → (t.dinode (t.icache r.1).inum).type ≠ .free) s := by
  have mine : ∀ k, 1 ≤ (δ + Pi.single k 1 : ℕ → ℕ) k := fun k => by simp
  induction elems with
  | nil =>
    intro s k name ready live
    apply wp.ite
    · intro _
      exact (iput_alone ready.locked).seq fun _ t given => ⟨given, fun _ none => nomatch none⟩
    · intro _
      refine ⟨ready.locked, ?_⟩
      rintro r ⟨⟩
      exact live
  | cons elem rest ih =>
    intro s k name ready live
    refine ((ilock_alone ready.locked live).and ready.inv.ilock).seq
      fun _ t ⟨locked, quiet, held, _⟩ => ?_
    generalize (s.icache k).inum = i at held
    have put : wp (Moves A N) (do iunlockput cfg k; pure none : K (Option (ℕ × List UInt8)))
        (fun out t => Locked ∅ t ∧
          ∀ r ∈ out, N → (t.dinode (t.icache r.1).inum).type ≠ .free) t := by
      exact (iunlockput_alone locked).seq fun _ u given => ⟨given, fun _ none => nomatch none⟩
    refine wp.ite (fun _ => put) fun _ => ?_
    apply wp.ite
    · intro _
      refine ((iunlock_alone locked).and quiet.inv.iunlock).seq fun _ u ⟨given, after⟩ => ?_
      refine ⟨given, ?_⟩
      rintro r ⟨⟩ _
      have heldU := (after.held ⟨mine k, mine k⟩ held).1
      rw [heldU.inum]
      exact (after.inv.fs.cached.held heldU).2
    · intro _
      refine ((storeFrame_locked.dirlookup k elem t locked).and
        (quiet.inv.dirlookup held elem)).seq fun next u ⟨lockedU, dir, found⟩ => ?_
      cases next with
      | none => exact found.1 ▸ put
      | some result =>
        obtain ⟨l, off⟩ := result
        obtain ⟨-, n, j, -, -, slot, -, inum, got, disk, -⟩ := found
        have closed : N → (links t).Closed ROOTINO := fun asked =>
          (ready.closed asked).freed quiet.freed.bare
        have slot : dirSlot t.data (t.dinode i) n = some (j, nameOf elem) :=
          (treeOf_slot dir n).symm.trans slot
        refine ((iunlockput_alone lockedU).and (got.inv.iunlockput (Nat.le_add_right_of_le (mine k)))).seq
          fun _ v ⟨given, dropped⟩ => ?_
        have left : δ + Pi.single k 1 + Pi.single l 1 - Pi.single k 1 =
            δ + (Pi.single l 1 : ℕ → ℕ) := by
          rw [add_right_comm, add_sub_single]
        rw [left] at dropped
        have both : 1 ≤ (δ + Pi.single k 1 + Pi.single l 1 : ℕ → ℕ) l ∧
            1 ≤ (δ + Pi.single l 1 : ℕ → ℕ) l := ⟨by simp, by simp⟩
        refine ih elem ⟨dropped.inv, given, fun asked =>
          ((closed asked).freed got.freed.bare).freed dropped.freed.bare⟩ fun asked => ?_
        rw [(dropped.keeps (.inr both)).1, dropped.current (.inr both), inum, disk]
        exact entry_live closed dir slot asked

theorem namexStart_locked (path : List UInt8) :
    Preserves (Moves A N) (Locked Λ) (namexStart path) := by
  refine .ite (fun _ => storeFrame_locked.iget _) fun _ => .read fun p => ?_
  split
  · exact .fail (moves_of_not_ofLock (by decide))
  · exact storeFrame_locked.idup _

theorem namex (ready : Ready cfg L N s δ) (path : List UInt8) (parent : Bool) :
    wp (Moves A N) (namex cfg path parent) (fun out t => Locked ∅ t ∧
      ∀ r ∈ out, N → (t.dinode (t.icache r.1).inum).type ≠ .free) s := by
  have inv := ready.inv
  refine ((namexStart_locked path s ready.locked).and
    (namexStart_spec inv.fs inv.root inv.mycwd path)).seq fun k t ⟨locked, run, begins⟩ => ?_
  have quiet := inv.quiet_of_shrinks run
  refine namexLoop parent _ [] (ready.quiet quiet locked) fun asked => ?_
  rw [run.fsInv.dinode]
  rw [walkStart] at begins
  split at begins
  · rw [← Option.some.inj begins]
    exact (ready.closed asked).root.1
  · obtain ⟨j, cwd, inum⟩ := Option.map_eq_some_iff.mp begins
    rw [← inum]
    exact inv.live (holders_cwd inv.cur cwd)

end Ready

end Xv6Uac
