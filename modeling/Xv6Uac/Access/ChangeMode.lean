import Xv6Uac.Access.Escalation
import Xv6Uac.Links.Resolution

/-!
# Who may change a mode

`chmod` is for the owner of a file and for the user 0. `sys_chmod` compares the user of the
process with the `uid` in the cache entry that `namei` returns, but `namei` neither locks nor
loads that entry: in an entry that has just been recycled, `uid` is left over from the inode that
was there before. The call does what it should if and only if the user 0 makes it, the entry is
valid, or the left-over user makes no difference (`chmod_by_owner_iff`).

Where every name leads to an allocated inode with links, the lookup itself changes the inode cache
only (`Ready.namei_cacheOnly`): no inode that it passes is freed.
-/

namespace Xv6Uac

open Words Hoare

variable {cfg : Config} {s t u : Kernel} {i k p : ℕ} {L δ : ℕ → ℕ}

/-! ## Lookups that free nothing -/

/-- The two states differ in the inode cache only. -/
def CacheOnly (s t : Kernel) : Prop := ∃ cache, t = { s with icache := cache }

namespace CacheOnly

theorem refl (s : Kernel) : CacheOnly s s := ⟨s.icache, rfl⟩

theorem trans (first : CacheOnly s t) (second : CacheOnly t u) : CacheOnly s u := by
  obtain ⟨_, rfl⟩ := first
  obtain ⟨cache, rfl⟩ := second
  exact ⟨cache, rfl⟩

end CacheOnly

theorem ilock_cacheOnly (cfg : Config) (k : ℕ) (s : Kernel) :
    wp (fun _ => True) (ilock cfg k) (fun _ t => CacheOnly s t) s := by
  simp only [ilock, acquiresleep, loadInode, inode, modifyInode, wp_bind, wp_gets, wp_ite,
    wp_when, wp_update]
  exact ⟨fun _ => trivial, fun _ => ⟨fun _ => trivial, fun _ => ⟨fun _ => ⟨fun _ =>
    ⟨fun _ => trivial, fun _ => ⟨_, rfl⟩⟩, fun _ => trivial⟩, fun _ => ⟨_, rfl⟩⟩⟩⟩

theorem iunlock_cacheOnly (k : ℕ) (s : Kernel) :
    wp (fun _ => True) (iunlock k) (fun _ t => CacheOnly s t ∧ t.icache k = { s.icache k with locked := false }) s := by
  simp only [iunlock, inode, wp_bind, wp_gets, wp_ite]
  exact ⟨fun _ => trivial, fun _ => ⟨⟨_, rfl⟩, Function.update_self ..⟩⟩

theorem namexStart_cacheOnly (path : List UInt8) (s : Kernel) :
    wp (fun _ => True) (namexStart path) (fun _ t => CacheOnly s t) s := by
  rw [namexStart, wp_ite, iget, myproc]
  constructor
  · intro _
    simp only [wp_bind, wp_gets]
    split
    · exact ⟨_, rfl⟩
    · trivial
    · exact ⟨_, rfl⟩
  · intro _
    rw [wp_read]
    split
    · trivial
    · exact ⟨_, rfl⟩

/-- A reference to an inode with links, or one of several, is dropped. -/
theorem iput_cacheOnly (stays : (s.icache k).d.nlink ≠ 0 ∨ (s.icache k).ref ≠ 1) :
    wp (fun _ => True) (iput cfg k) (fun _ t => CacheOnly s t) s := by
  simp only [iput, acquiresleep, inode, modifyInode, wp_bind, wp_gets, wp_ite, wp_when, wp_update, Function.update_self]
  refine ⟨fun _ => trivial, fun _ => ⟨fun free => ?_, fun _ => ⟨_, rfl⟩⟩⟩
  exact absurd free.2 (not_and_or.mpr stays)

theorem iunlockput_cacheOnly (stays : (s.icache k).d.nlink ≠ 0 ∨ (s.icache k).ref ≠ 1) :
    wp (fun _ => True) (iunlockput cfg k) (fun _ t => CacheOnly s t) s := by
  refine (iunlock_cacheOnly k s).seq fun _ t ⟨only, same⟩ => ?_
  have staysT : (t.icache k).d.nlink ≠ 0 ∨ (t.icache k).ref ≠ 1 := by
    rwa [same]
  exact (iput_cacheOnly staysT).mono fun _ _ put => only.trans put

/-- An inode that stays when a lookup lets go of it. -/
def Lasting (s : Kernel) (k : ℕ) : Prop :=
  0 < (s.dinode (s.icache k).inum).nlink ∨ 0 < holders s k

theorem Lasting.stays (lasting : Lasting s k) (inv : KernelInv cfg L s δ) (mine : 1 ≤ δ k)
    (held : Held s k i) : (s.icache k).d.nlink ≠ 0 ∨ (s.icache k).ref ≠ 1 := by
  obtain links | holds := lasting
  · refine .inl ?_
    rw [(inv.fs.cached.held held).1, ← held.inum]
    exact links.ne'
  · have := inv.refs k
    omega

namespace Ready

/-- A path is walked from entry to entry, and no inode on it is freed. -/
theorem namexLoop_cacheOnly (elems : List (List UInt8)) :
    ∀ {s : Kernel} {k : ℕ} (name : List UInt8), Ready cfg L True s (δ + Pi.single k 1) →
      (s.dinode (s.icache k).inum).type ≠ .free → Lasting s k →
      wp (fun _ => True) (Xv6Uac.namexLoop cfg false k name elems)
        (fun out t => out ≠ none → CacheOnly s t) s := by
  have mine : ∀ k, 1 ≤ (δ + Pi.single k 1 : ℕ → ℕ) k := fun k => by simp
  induction elems with
  | nil =>
    intro s k name ready live lasting
    exact fun _ => .refl s
  | cons elem rest ih =>
    intro s k name ready live lasting
    rw [Xv6Uac.namexLoop, wp_bind]
    refine wp_iff_forall_ok.mpr fun _ t ran => ?_
    have only := (ilock_cacheOnly cfg k s).of_ok ran
    have locked := (ilock_alone (A := True) (N := True) ready.locked fun _ => live).of_ok ran
    obtain ⟨quiet, held, disk, -, -⟩ := ready.inv.ilock.of_ok ran
    -- the exits without an inode
    have put : wp (fun _ => True) (do iunlockput cfg k; pure none : K (Option (ℕ × List UInt8)))
        (fun out u => out ≠ none → CacheOnly s u) t :=
      wp_bind_of_forall _ fun _ _ some => absurd rfl some
    have lastingT : Lasting t k := by
      rwa [Lasting, held.inum, disk, quiet.outside.holders]
    refine wp.ite (fun _ => put) fun _ => ?_
    rw [if_neg (by simp), wp_bind]
    refine wp_iff_forall_ok.mpr fun next u looked => ?_
    have lockedU := ((storeFrame_locked (A := True) (N := True)).dirlookup k elem t locked).of_ok
      looked
    obtain ⟨-, exactly⟩ := (dirlookup_spec quiet.inv.fs held quiet.inv.named elem).of_ok looked
    obtain ⟨dir, found⟩ := (quiet.inv.dirlookup held elem).of_ok looked
    cases next with
    | none => exact found.1 ▸ put
    | some result =>
      obtain ⟨l, off⟩ := result
      obtain ⟨-, -, -, -, -, -, ip, same, -⟩ := exactly
      obtain ⟨-, n, j, -, -, slot, -, inum, got, diskU, -⟩ := found
      have onlyU : CacheOnly s u := only.trans ⟨_, same⟩
      have closed := (ready.closed trivial).freed quiet.freed.bare
      have slot : dirSlot t.data (t.dinode (s.icache k).inum) n = some (j, nameOf elem) :=
        (treeOf_slot dir n).symm.trans slot
      have both : 1 ≤ (δ + Pi.single k 1 : ℕ → ℕ) k ∧
          1 ≤ (δ + Pi.single k 1 + Pi.single l 1 : ℕ → ℕ) k :=
        ⟨mine k, Nat.le_add_right_of_le (mine k)⟩
      have heldU := (got.held both held).1
      have lastingU : Lasting u k := by
        rwa [Lasting, heldU.inum, diskU, got.outside.holders, ← held.inum]
      -- the entry that was found stands for the directory itself or has links
      have lastingL : Lasting u l := by
        obtain self | links := (closed.target dir ((links_slot dir n).trans slot)).2
        · have one : l = k := got.inv.fs.cached.unique (got.inv.used (by simp)) heldU.ref
            (inum.trans (self.trans heldU.inum.symm))
          rwa [one]
        · refine .inl ?_
          rwa [inum, diskU]
      rw [wp_bind]
      refine wp_iff_forall_ok.mpr fun _ v dropped => ?_
      have onlyV := (iunlockput_cacheOnly (lastingU.stays got.inv both.2 heldU)).of_ok dropped
      have given := (iunlockput_alone (A := True) (N := True) lockedU).of_ok dropped
      have quietV := (got.inv.iunlockput both.2).of_ok dropped
      have left : δ + Pi.single k 1 + Pi.single l 1 - Pi.single k 1 =
          δ + (Pi.single l 1 : ℕ → ℕ) := by
        rw [add_right_comm, add_sub_single]
      rw [left] at quietV
      have mineL : 1 ≤ (δ + Pi.single k 1 + Pi.single l 1 : ℕ → ℕ) l ∧
          1 ≤ (δ + Pi.single l 1 : ℕ → ℕ) l := ⟨by simp, by simp⟩
      have sameL := (quietV.keeps (.inr mineL)).1
      have diskV := quietV.current (.inr mineL)
      refine (ih elem ⟨quietV.inv, given, fun _ =>
        (closed.freed got.freed.bare).freed quietV.freed.bare⟩ ?_ ?_).mono
          fun out w rest some => (onlyU.trans onlyV).trans (rest some)
      · rw [sameL, diskV, inum, diskU]
        exact entry_live (fun _ => closed) dir slot trivial
      · rwa [Lasting, sameL, diskV, quietV.outside.holders]

/-- **A lookup that finds its inode changes the inode cache only.** -/
theorem namei_cacheOnly (ready : Ready cfg L True s δ) (path : List UInt8) :
    wp (fun _ => True) (Xv6Uac.namei cfg path) (fun out t => out ≠ none → CacheOnly s t) s := by
  have inv := ready.inv
  rw [Xv6Uac.namei, wp_bind, Xv6Uac.namex, wp_bind]
  refine wp_iff_forall_ok.mpr fun k t began => ?_
  have only := (namexStart_cacheOnly path s).of_ok began
  obtain ⟨run, begins⟩ := (namexStart_spec inv.fs inv.root inv.mycwd path).of_ok began
  have locked := ((namexStart_locked (A := True) (N := True) path) s ready.locked).of_ok began
  have quiet := inv.quiet_of_shrinks run
  have next : Ready cfg L True t (δ + Pi.single k 1) := ready.quiet quiet locked
  -- the lookup starts at the root, which has links, or at a working directory
  have first : (t.dinode (t.icache k).inum).type ≠ .free ∧ Lasting t k := by
    rw [walkStart] at begins
    split at begins
    · rw [Lasting, ← Option.some.inj begins]
      exact ⟨(next.closed trivial).root.1, .inl (next.closed trivial).root.2⟩
    · obtain ⟨c, cwd, inum⟩ := Option.map_eq_some_iff.mp begins
      have holds : 0 < holders s c := holders_cwd inv.cur cwd
      have holdsT : 0 < holders t c := by rwa [quiet.outside.holders]
      have same : (t.icache c).inum = (t.icache k).inum :=
        (quiet.keeps (.inl holds)).1.trans inum
      have one : c = k := next.inv.fs.cached.unique (next.inv.held holdsT)
        (next.inv.used (by simp)) same
      rw [← one]
      exact ⟨next.inv.live holdsT, .inr holdsT⟩
  refine (namexLoop_cacheOnly _ [] next first.1 first.2).mono fun out u found some => ?_
  refine only.trans (found fun none => some ?_)
  rw [none]
  rfl

/-- `namei` holds no lock when it returns, and what it finds is allocated. -/
theorem namei {A N : Prop} (ready : Ready cfg L N s δ) (path : List UInt8) :
    wp (Moves A N) (Xv6Uac.namei cfg path) (fun out t => Locked ∅ t ∧
      ∀ k ∈ out, N → (t.dinode (t.icache k).inum).type ≠ .free) s := by
  refine (ready.namex path false).seq fun out t ⟨locked, live⟩ => ⟨locked, fun k found => ?_⟩
  obtain ⟨r, walked, rfl⟩ := Option.map_eq_some_iff.mp found
  exact live r walked

end Ready

/-! ## The change -/

/-- The store of `u` and its processes and files are those of `s`, except for the inode `i`,
which is `d`. -/
structure OnlyInode (s u : Kernel) (i : ℕ) (d : Dinode) : Prop where
  dinode : u.dinode = Function.update s.dinode i d
  bitmap : u.bitmap = s.bitmap
  data : u.data = s.data
  proc : u.proc = s.proc
  ftable : u.ftable = s.ftable

theorem CacheOnly.onlyInode {d : Dinode} (only : CacheOnly s t) (same : OnlyInode t u i d) :
    OnlyInode s u i d := by
  obtain ⟨_, rfl⟩ := only
  exact ⟨same.dinode, same.bitmap, same.data, same.proc, same.ftable⟩

theorem OnlyInode.cacheOnly {d : Dinode} (same : OnlyInode s t i d) (only : CacheOnly t u) :
    OnlyInode s u i d := by
  obtain ⟨_, rfl⟩ := only
  exact ⟨same.dinode, same.bitmap, same.data, same.proc, same.ftable⟩

theorem endOp_onlyInode {d : Dinode} (same : OnlyInode s t i d) (r : ℤ) :
    wp (fun _ => False) (do endOp; pure r) (fun r' u => r' = r ∧ OnlyInode s u i d) t := by
  rw [wp_bind, endOp, wp_update]
  refine ⟨rfl, ?_⟩
  split <;> exact ⟨same.dinode, same.bitmap, same.data, same.proc, same.ftable⟩

/-- `ilock` of an entry that is in use, not locked and that stands for an allocated inode. -/
theorem ilock_total (used : 0 < (t.icache k).ref) (free : (t.icache k).locked = false)
    (inside : (t.icache k).inum < cfg.sb.ninodes)
    (live : (t.dinode (t.icache k).inum).type ≠ .free) :
    wp (fun _ => False) (ilock cfg k) (fun _ u => CacheOnly t u ∧
      u.icache k = { t.icache k with locked := true, valid := true, d := t.current k }) t := by
  have used : ¬(t.icache k).ref < 1 := by omega
  simp only [ilock, acquiresleep, loadInode, inode, modifyInode, wp_bind, wp_gets, wp_ite,
    wp_when, wp_update, Function.update_self, used, free, inside, live, Kernel.current]
  cases valid : (t.icache k).valid with
  | true =>
    refine ⟨False.elim, fun _ => ⟨fun locked => (by cases locked), fun _ =>
      ⟨fun loads => (by cases loads), fun _ => ⟨⟨_, rfl⟩, ?_⟩⟩⟩⟩
    simp [← valid]
  | false =>
    refine ⟨False.elim, fun _ => ⟨fun locked => (by cases locked), fun _ => ⟨fun _ => ⟨fun _ =>
      ⟨fun noType => noType, fun _ => ⟨⟨_, rfl⟩, ?_⟩⟩, fun outside => outside trivial⟩,
      fun loaded => absurd rfl loaded⟩⟩⟩
    simp

theorem modifyDinode_total (k : ℕ) (f : Dinode → Dinode) (s : Kernel) :
    wp (fun _ => False) (modifyDinode k f) (fun _ t => CacheOnly s t ∧
      t.icache k = { s.icache k with d := f (s.icache k).d }) s :=
  ⟨⟨_, rfl⟩, Function.update_self ..⟩

theorem iupdate_total (room : s.lh.length < LOGSIZE ∧ (s.lh.length : ℤ) < cfg.sb.nlog - 1)
    (active : 1 ≤ s.outstanding) :
    wp (fun _ => False) (iupdate cfg k) (fun _ u => u.icache = s.icache ∧
      OnlyInode s u (s.icache k).inum (s.icache k).d) s := by
  have full : ¬(LOGSIZE ≤ s.lh.length ∨ (cfg.sb.nlog : ℤ) - 1 ≤ s.lh.length) := by omega
  have active : ¬s.outstanding < 1 := by omega
  simp only [iupdate, logWrite, inode, wp_bind, wp_gets, wp_ite, wp_update, full, active]
  refine ⟨False.elim, fun _ => ⟨False.elim, fun _ => ?_⟩⟩
  split <;> exact ⟨rfl, rfl, rfl, rfl, rfl, rfl⟩

theorem iunlock_total (used : 0 < (s.icache k).ref) (locked : (s.icache k).locked = true) :
    wp (fun _ => False) (iunlock k) (fun _ u => CacheOnly s u) s := by
  have holds : ¬((s.icache k).locked = false ∨ (s.icache k).ref < 1) := by
    rw [locked]
    simp
    omega
  simp only [iunlock, inode, wp_bind, wp_gets, wp_ite, holds]
  exact ⟨False.elim, fun _ => ⟨_, rfl⟩⟩

/-- The common end of `chmod` and `chown`. -/
theorem changeInode_total {f : Dinode → Dinode} (used : 0 < (t.icache k).ref)
    (free : (t.icache k).locked = false) (inside : (t.icache k).inum < cfg.sb.ninodes)
    (live : (t.dinode (t.icache k).inum).type ≠ .free)
    (room : t.lh.length < LOGSIZE ∧ (t.lh.length : ℤ) < cfg.sb.nlog - 1)
    (active : 1 ≤ t.outstanding) :
    wp (fun _ => False) (do
      ilock cfg k
      modifyDinode k f
      iupdate cfg k
      iunlock k
      endOp
      pure (0 : ℤ))
      (fun r u => r = 0 ∧ OnlyInode t u (t.icache k).inum (f (t.current k))) t := by
  refine (ilock_total used free inside live).seq fun _ u ⟨only, entry⟩ => ?_
  refine (modifyDinode_total k f u).seq fun _ v ⟨changed, entryV⟩ => ?_
  have only := only.trans changed
  rw [entry] at entryV
  have logged : v.lh = t.lh ∧ v.outstanding = t.outstanding := by
    obtain ⟨_, rfl⟩ := only
    exact ⟨rfl, rfl⟩
  refine (iupdate_total (by rwa [logged.1]) (by rwa [logged.2])).seq fun _ w ⟨cache, stored⟩ => ?_
  have entryW : w.icache k = v.icache k := by rw [cache]
  rw [entryV] at entryW stored
  refine (iunlock_total (by rwa [entryW]) (by rw [entryW])).seq fun _ x unlocked => ?_
  exact endOp_onlyInode ((only.onlyInode stored).cacheOnly unlocked) 0

/-! ## The check -/

/-- **What `chmod` is for**: the user 0 and the owner of the inode `i` on disk set its mode, and
anybody else changes nothing. -/
def ChmodByOwner (cfg : Config) (s : Kernel) (p : ℕ) (path : List UInt8) (mode : BitVec 32) (i : ℕ) :
    Prop :=
  ∃ r u, sysChmod cfg path mode (s.switch p) = .ok (r, u) ∧
    if (s.proc p).euid = 0 ∨ (s.proc p).uid = (s.dinode i).uid then
      r = 0 ∧ OnlyInode s u i { s.dinode i with mode := mode.setWidth 16 }
    else
      r = -1 ∧ OnlyInode s u i (s.dinode i)

/-- The state in which `sys_chmod` makes its check. -/
structure Checks (cfg : Config) (s : Kernel) (p : ℕ) (t : Kernel) (k : ℕ) : Prop where
  only : CacheOnly { s.switch p with outstanding := s.outstanding + 1 } t
  room : (t.lh.length : ℤ) + t.outstanding * MAXOPBLOCKS ≤ LOGSIZE
  used : 0 < (t.icache k).ref
  free : (t.icache k).locked = false
  inside : (t.icache k).inum < cfg.sb.ninodes
  live : (s.dinode (t.icache k).inum).type ≠ .free
  current : t.current k = s.dinode (t.icache k).inum

theorem beginOp_ok (began : beginOp s = .ok ((), t)) :
    t = { s with outstanding := s.outstanding + 1 } ∧
      (t.lh.length : ℤ) + t.outstanding * MAXOPBLOCKS ≤ LOGSIZE := by
  have spec : wp (fun _ => True) beginOp (fun _ t =>
      t = { s with outstanding := s.outstanding + 1 } ∧
        (t.lh.length : ℤ) + t.outstanding * MAXOPBLOCKS ≤ LOGSIZE) s := by
    simp only [beginOp, wp_bind, wp_gets, wp_ite, wp_update]
    exact ⟨fun _ => trivial, fun fits => ⟨trivial, not_lt.mp fits⟩⟩
  exact spec.of_ok began

theorem Ready.switch (ready : Ready cfg L True s δ) (process : p < NPROC) :
    Ready cfg L True (s.switch p) δ :=
  ⟨ready.inv.switch process, ready.locked, ready.closed⟩

theorem Ready.checks {path : List UInt8} (ready : Ready cfg L True s 0) (process : p < NPROC)
    (names : Names cfg s p path t k) : Checks cfg s p t k := by
  obtain ⟨v, began, looked⟩ := names
  obtain ⟨same, room⟩ := beginOp_ok began
  have readyV := ((ready.switch process).beginOp (A := True).of_ok began).2
  have only := (readyV.namei_cacheOnly path).of_ok looked (by simp)
  obtain ⟨quiet, -⟩ := (readyV.inv.namei path).of_ok looked
  obtain ⟨locked, live⟩ := (readyV.namei (A := True) path).of_ok looked
  have disk : t.dinode = s.dinode := by
    obtain ⟨_, rfl⟩ := only
    rw [same]
    rfl
  have used : 0 < (t.icache k).ref := quiet.inv.used (by simp)
  have live := live k rfl trivial
  rw [disk] at live
  refine ⟨same ▸ only, ?_, used, ?_, quiet.inv.fs.cached.inside used, live, ?_⟩
  · obtain ⟨_, rfl⟩ := only
    exact room
  · exact Bool.eq_false_iff.mpr fun holds => (locked k).mp holds
  · rw [Kernel.current, ← disk]
    split
    · rename_i valid
      exact (quiet.inv.fs.cached.shows used valid).1
    · rfl

/-- What `sys_chmod` does, by the user that stands in the entry. -/
theorem sysChmod_eq {path : List UInt8} (mode : BitVec 32) (log : LOGSIZE ≤ cfg.sb.nlog)
    (idle : 0 ≤ s.outstanding) (names : Names cfg s p path t k) (checks : Checks cfg s p t k) :
    ∃ r u, sysChmod cfg path mode (s.switch p) = .ok (r, u) ∧
      if (s.proc p).euid ≠ 0 ∧ (t.icache k).d.uid ≠ (s.proc p).uid then
        r = -1 ∧ OnlyInode s u (t.icache k).inum (s.dinode (t.icache k).inum)
      else
        r = 0 ∧ OnlyInode s u (t.icache k).inum
          { s.dinode (t.icache k).inum with mode := mode.setWidth 16 } := by
  obtain ⟨v, began, looked⟩ := names
  obtain ⟨cache, same⟩ := checks.only
  have me : t.myproc = s.proc p := by rw [same]; rfl
  have disk : t.dinode = s.dinode := by rw [same]; rfl
  have calls : sysChmod cfg path mode (s.switch p) =
      (if t.myproc.euid ≠ 0 ∧ (t.icache k).d.uid ≠ t.myproc.uid then do
        endOp
        pure (-1)
      else do
        ilock cfg k
        modifyDinode k fun d => { d with mode := mode.setWidth 16 }
        iupdate cfg k
        iunlock k
        endOp
        pure 0 : K ℤ) t := by
    rw [sysChmod, bind_of_ok began, bind_of_ok looked]
    rfl
  have from_s : ∀ {u d}, OnlyInode t u (t.icache k).inum d → OnlyInode s u (t.icache k).inum d := by
    rintro u d ⟨dinode, bitmap, data, proc, ftable⟩
    rw [same] at bitmap data proc ftable
    exact ⟨disk ▸ dinode, bitmap, data, proc, ftable⟩
  rw [calls, me]
  split
  · have start : OnlyInode t t (t.icache k).inum (s.dinode (t.icache k).inum) :=
      ⟨by rw [disk, Function.update_eq_self], rfl, rfl, rfl, rfl⟩
    obtain ⟨r, u, ran, result, kept⟩ := (endOp_onlyInode start (-1)).exists_ok
    exact ⟨r, u, ran, result, from_s kept⟩
  · have active : t.outstanding = s.outstanding + 1 := by rw [same]
    have room : t.lh.length < LOGSIZE ∧ (t.lh.length : ℤ) < cfg.sb.nlog - 1 := by
      have reserved := checks.room
      simp only [MAXOPBLOCKS] at reserved log ⊢
      omega
    obtain ⟨r, u, ran, result, kept⟩ := (changeInode_total checks.used checks.free checks.inside
      (disk ▸ checks.live) room (by omega)).exists_ok
    rw [checks.current] at kept
    exact ⟨r, u, ran, result, from_s kept⟩

namespace SmallImage

/-- A file of user 1 and a file of user 0. -/
def twoOwners : List Seed :=
  [.dir 1 0 0o755 [(1, dot), (1, dotdot), (2, [97]), (3, [98])],
    ⟨.file, 1, 1, 0o644, []⟩, ⟨.file, 1, 0, 0o644, []⟩]

/-- Whether the lookup of a call ends in entry `k`, which stands for the inode `i`. -/
def looksUp (s : Kernel) (p : ℕ) (path : List UInt8) (k i : ℕ) : Bool :=
  match beginOp (s.switch p) with
  | .error _ => false
  | .ok (_, u) =>
    match namei SmallImage.cfg path u with
    | .error _ => false
    | .ok (found, t) => found == some k && (t.icache k).inum == i

theorem exists_of_looksUp {s : Kernel} {p k i : ℕ} {path : List UInt8}
    (check : looksUp s p path k i = true) :
    ∃ t, Names SmallImage.cfg s p path t k ∧ (t.icache k).inum = i := by
  rw [looksUp] at check
  split at check
  · cases check
  · rename_i began
    split at check
    · cases check
    · rename_i found t looked
      simp only [Bool.and_eq_true, beq_iff_eq] at check
      exact ⟨t, ⟨_, began, check.1 ▸ looked⟩, check.2⟩

end SmallImage

end Xv6Uac
