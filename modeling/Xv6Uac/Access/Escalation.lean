import Xv6Uac.Kernel.CallFrame
import Xv6Uac.Kernel.SmallImage

/-!
# Becoming user 0

A step changes the effective user of a process from an ordinary one to 0 only by
`exec` of an inode with the set-uid bit, and the user of a process only by
`setuid` of a process whose effective user is 0. `exec` does not look at the
owner of the inode: a set-uid image runs as user 0, whoever owns it. So the inode
is owned by user 0 only if no other inode ever has the bit. This holds along
every run that starts with such a disk and in which `chmod` sets the bit only on
inodes of user 0 and `chown` gives none of them away (`noEscalation_of_careful`).
In general an owner may set the bit, and then becomes user 0
(`owner_becomes_root`).
-/

namespace Xv6Uac

open Hoare

/-! ## Set-uid inodes -/

/-- If the set-uid bit is set, user 0 is the owner. -/
def Rooted (d : Dinode) : Prop := d.mode.getLsbD 9 = true → d.uid = 0

/-- Every set-uid inode, on disk or in the cache, is owned by user 0. -/
structure SetuidRooted (s : Kernel) : Prop where
  disk : ∀ i, Rooted (s.dinode i)
  cache : ∀ k, Rooted (s.icache k).d

variable {s : Kernel} {p : ℕ} {path : List UInt8} {s' : Kernel} {taken : Step}

theorem SetuidRooted.setEntry (rooted : SetuidRooted s) {k : ℕ} {ip : Inode} (new : Rooted ip.d) :
    SetuidRooted { s with icache := Function.update s.icache k ip } where
  disk := rooted.disk
  cache j := by
    obtain rfl | other := eq_or_ne j k
    · simpa using new
    · simpa [other] using rooted.cache j

theorem SetuidRooted.setDinode (rooted : SetuidRooted s) {i : ℕ} {d : Dinode} (new : Rooted d) :
    SetuidRooted { s with dinode := Function.update s.dinode i d } where
  disk j := by
    obtain rfl | other := eq_or_ne j i
    · simpa using new
    · simpa [other] using rooted.disk j
  cache := rooted.cache

/-- The users of every process are those of another state. -/
def SameUsers (s t : Kernel) : Prop :=
  t.cur = s.cur ∧ ∀ q, (t.proc q).uid = (s.proc q).uid ∧ (t.proc q).euid = (s.proc q).euid

theorem SameUsers.refl (s : Kernel) : SameUsers s s := ⟨rfl, fun _ => ⟨rfl, rfl⟩⟩

/-- The calls that set no ids keep the owners of set-uid inodes and the users of
processes. -/
theorem callFrame_users (s : Kernel) : CallFrame fun t => SetuidRooted t ∧ SameUsers s t where
  fails _ _ := trivial
  log _ _ _ holds := ⟨⟨holds.1.disk, holds.1.cache⟩, holds.2⟩
  blocks _ _ _ holds := ⟨⟨holds.1.disk, holds.1.cache⟩, holds.2⟩
  devices _ _ holds := ⟨⟨holds.1.disk, holds.1.cache⟩, holds.2⟩
  entry t k ip holds uid _ mode _ := by
    refine ⟨holds.1.setEntry fun set => ?_, holds.2⟩
    rw [uid]
    exact holds.1.cache k (mode ▸ set)
  lock t k b holds := ⟨holds.1.setEntry (holds.1.cache k), holds.2⟩
  load t k ip i holds same := ⟨holds.1.setEntry (same ▸ holds.1.disk i), holds.2⟩
  store t k i holds := ⟨holds.1.setDinode (holds.1.cache k), holds.2⟩
  alloc t i type holds := ⟨holds.1.setDinode fun set => by simp [Dinode.zero] at set, holds.2⟩
  files _ _ _ _ holds := ⟨⟨holds.1.disk, holds.1.cache⟩, holds.2⟩
  procs t proc _ holds same := by
    refine ⟨⟨holds.1.disk, holds.1.cache⟩, holds.2.1, fun q => ?_⟩
    exact ⟨(same q).1.trans (holds.2.2 q).1, (same q).2.trans (holds.2.2 q).2⟩
  fresh t k ip holds clear := ⟨holds.1.setEntry fun set => (nomatch clear.symm.trans set), holds.2⟩

/-! ## Looking up a path -/

/-- The inode that a cache entry stands for, as `ilock` shows it. -/
def Kernel.current (s : Kernel) (k : ℕ) : Dinode :=
  if (s.icache k).valid then (s.icache k).d else s.dinode (s.icache k).inum

/-- The lookup with which a call of process `p` on `path` starts ends in entry
`k` of state `t`. -/
def Names (cfg : Config) (s : Kernel) (p : ℕ) (path : List UInt8) (t : Kernel) (k : ℕ) : Prop :=
  ∃ u, beginOp (s.switch p) = .ok ((), u) ∧ namei cfg path u = .ok (some k, t)

/-- `ilock` leaves the current inode in the entry. -/
theorem ilock_current (cfg : Config) (k : ℕ) (s : Kernel) :
    wp (fun _ => True) (ilock cfg k) (fun _ t => (t.icache k).d = s.current k) s := by
  simp only [ilock, acquiresleep, loadInode, inode, modifyInode, wp_bind, wp_gets, wp_ite,
    wp_when, wp_update, Kernel.current]
  refine ⟨fun _ => trivial, fun _ => ⟨fun _ => trivial, fun _ => ⟨fun invalid => ?_, ?_⟩⟩⟩
  · refine ⟨fun _ => ⟨fun _ => trivial, fun _ => ?_⟩, fun _ => trivial⟩
    simp [invalid]
  · intro valid
    simp [Bool.not_eq_false _ ▸ valid]

/-- After the lookup of a path, the current inode of the entry is in the entry. -/
theorem lookup_spec {cfg : Config} {Q : ℤ → Kernel → Prop} {m : ℕ → K ℤ} (rooted : SetuidRooted s)
    (missing : ∀ t, SetuidRooted t → SameUsers (s.switch p) t → Q (-1) t)
    (found : ∀ k t, Names cfg s p path t k → SetuidRooted t → SameUsers (s.switch p) t →
      wp (fun _ => True) (m k) Q t) :
    wp (fun _ => True) (do
      beginOp
      let found ← namei cfg path
      match found with
      | none => do
        endOp
        pure (-1)
      | some k => m k) Q (s.switch p) := by
  have frame := callFrame_users (s.switch p)
  have start : SetuidRooted (s.switch p) := ⟨rooted.disk, rooted.cache⟩
  rw [wp_bind]
  refine wp_iff_forall_ok.mpr fun _ u began => ?_
  have holds := (frame.beginOp _ ⟨start, .refl _⟩).of_ok began
  rw [wp_bind]
  refine wp_iff_forall_ok.mpr fun found t looked => ?_
  have holds := (frame.namei path u holds).of_ok looked
  cases found with
  | none =>
    have ended := frame.endOp t holds
    exact (wp_bind _ _ _).mpr (ended.mono fun _ t' kept => missing t' kept.1 kept.2)
  | some k => exact found k t ⟨u, began, looked⟩ holds.1 holds.2

/-- The common end of `chmod` and `chown`: change the current inode of an entry. -/
theorem changeInode_spec {cfg : Config} {t : Kernel} {k : ℕ} {f : Dinode → Dinode}
    (rooted : SetuidRooted t) (same : SameUsers s t) (new : Rooted (f (t.current k))) :
    wp (fun _ => True) (do
      ilock cfg k
      modifyDinode k f
      iupdate cfg k
      iunlock k
      endOp
      pure (0 : ℤ)) (fun _ t => SetuidRooted t ∧ SameUsers s t) t := by
  have frame := callFrame_users s
  refine ((frame.ilock k t ⟨rooted, same⟩).and (ilock_current cfg k t)).seq
    fun _ u ⟨kept, current⟩ => ?_
  have changed : SetuidRooted { u with
      icache := Function.update u.icache k { u.icache k with d := f (u.icache k).d } } :=
    kept.1.setEntry (current ▸ new)
  have rest : Keeps _ (do iupdate cfg k; iunlock k; endOp; pure (0 : ℤ)) :=
    .bind (frame.iupdate k) fun _ => .bind (frame.iunlock k) fun _ => frame.endWith 0
  exact rest _ ⟨changed, kept.2⟩

theorem sysChmod_spec {cfg : Config} {mode : BitVec 32} (rooted : SetuidRooted s)
    (careful : mode.getLsbD 9 = true → ∀ t k, Names cfg s p path t k → (t.current k).uid = 0) :
    wp (fun _ => True) (sysChmod cfg path mode)
      (fun _ t => SetuidRooted t ∧ SameUsers (s.switch p) t) (s.switch p) := by
  refine lookup_spec rooted (fun t rooted same => ⟨rooted, same⟩) fun k t names rooted same => ?_
  simp only [inode, myproc, wp_bind, wp_gets, wp_ite]
  refine ⟨fun _ => ?_, fun _ => ?_⟩
  · exact ((callFrame_users (s.switch p)).endOp t ⟨rooted, same⟩).mono fun _ _ kept => kept
  · simp only [← wp_bind]
    refine changeInode_spec rooted same fun set => careful ?_ t k names
    simpa using set

theorem sysChown_spec {cfg : Config} {owner group : ℤ} (rooted : SetuidRooted s)
    (careful : ∀ t k, Names cfg s p path t k → (t.current k).mode.getLsbD 9 = true → owner = 0) :
    wp (fun _ => True) (sysChown cfg path owner group)
      (fun _ t => SetuidRooted t ∧ SameUsers (s.switch p) t) (s.switch p) := by
  have start : SetuidRooted (s.switch p) := ⟨rooted.disk, rooted.cache⟩
  simp only [sysChown, myproc, wp_bind, wp_gets, wp_ite]
  refine ⟨fun _ => ⟨start, .refl _⟩, fun _ => ?_⟩
  simp only [← wp_bind]
  refine lookup_spec rooted (fun t rooted same => ⟨rooted, same⟩) fun k t names rooted same => ?_
  exact changeInode_spec rooted same fun set => careful t k names set

/-! ## Exec and fork -/

/-- Reading blocks keeps the mode of the inode of an entry. -/
theorem dataFrame_mode (k : ℕ) (mode : BitVec 16) :
    DataFrame (fun _ => True) fun s => (s.icache k).d.mode = mode where
  fails _ _ := trivial
  log _ _ _ holds := holds
  blocks _ _ _ holds := holds
  devices _ _ holds := holds
  entry s j ip holds _ _ same _ := by
    obtain rfl | other := eq_or_ne k j
    · simpa [same] using holds
    · simpa [other] using holds

/-- What a successful `exec` does to the users: the effective user of the calling
process becomes 0 or its user, by the set-uid bit of the inode. -/
structure ExecUsers (s : Kernel) (p : ℕ) (d : Dinode) (t : Kernel) : Prop where
  others : ∀ q, q ≠ p → (t.proc q).uid = (s.proc q).uid ∧ (t.proc q).euid = (s.proc q).euid
  uid : (t.proc p).uid = (s.proc p).uid
  euid : (t.proc p).euid = if d.mode.getLsbD 9 then 0 else (s.proc p).uid

theorem sysExec_spec {cfg : Config} {vm : Vm} (rooted : SetuidRooted s) :
    wp (fun _ => True) (sysExec cfg vm path)
      (fun r t => SetuidRooted t ∧ (SameUsers (s.switch p) t ∨
        r = 0 ∧ ∃ u k, Names cfg s p path u k ∧ ExecUsers s p (u.current k) t ∧
          Rooted (u.current k)))
      (s.switch p) := by
  refine lookup_spec rooted (fun t rooted same => ⟨rooted, .inl same⟩) fun k u names rooted same => ?_
  have frame := callFrame_users (s.switch p)
  have current : Rooted (u.current k) := by
    rw [Kernel.current]
    split
    · exact rooted.cache k
    · exact rooted.disk _
  apply ((frame.ilock k u ⟨rooted, same⟩).and (ilock_current cfg k u)).seq
  rintro _ v ⟨kept, now⟩
  refine ((execLoad_preserves (frame.readi k) vm v kept).and
    (execLoad_preserves ((dataFrame_mode k (u.current k).mode).readi k) vm v
      (congrArg Dinode.mode now))).seq ?_
  rintro loaded w ⟨kept, mode⟩
  simp only [inode, wp_bind, wp_gets]
  rw [mode]
  refine (frame.iunlockput k w kept).mono fun _ x kept => ?_
  apply (frame.endOp x kept).seq
  rintro _ y ⟨rooted, sameCur, sameUsers⟩
  refine wp.ite (fun _ => ?_) fun _ => ⟨rooted, .inl ⟨sameCur, sameUsers⟩⟩
  simp only [execCommit, modifyMyproc, wp_bind, wp_update, wp_pure]
  refine ⟨⟨rooted.disk, rooted.cache⟩, .inr ⟨trivial, u, k, names, ?_, current⟩⟩
  have atCur : y.cur = p := sameCur
  refine ⟨fun q other => ?_, ?_, ?_⟩
  · simpa [atCur, other] using sameUsers q
  · simpa [atCur, Kernel.myproc] using (sameUsers p).1
  · have uid : (y.proc p).uid = (s.proc p).uid := (sameUsers p).1
    simp [atCur, Kernel.myproc, uid]

/-- What `fork` does to the users: the new process, whose slot was unused, gets
those of the calling one. -/
def ForkUsers (s : Kernel) (p : ℕ) (t : Kernel) : Prop :=
  ∀ q, ((t.proc q).uid = (s.proc q).uid ∧ (t.proc q).euid = (s.proc q).euid) ∨
    ((s.proc q).state = .unused ∧
      (t.proc q).uid = (s.proc p).uid ∧ (t.proc q).euid = (s.proc p).euid)

/-- `allocproc` takes a slot that is unused. -/
theorem allocproc_unused (kalloc : Bool) (s : Kernel) :
    wp (fun _ => True) (allocproc kalloc)
      (fun new _ => ∀ np, new = some np → (s.proc np).state = .unused) s := by
  simp only [allocproc, wp_bind, wp_gets]
  split
  · intro np none
    cases none
  · rename_i np free
    have unused : (s.proc np).state = .unused := by simpa using List.find?_some free
    simp only [wp_bind, wp_gets, wp_update, wp_ite]
    refine ⟨fun _ _ same => ?_, fun _ _ none => by cases none⟩
    cases same
    exact unused

theorem sysFork_spec {kalloc copyuvm : Bool} (rooted : SetuidRooted s) :
    wp (fun _ => True) (sysFork kalloc copyuvm) (fun _ t => SetuidRooted t ∧ ForkUsers s p t)
      (s.switch p) := by
  have start : SetuidRooted (s.switch p) := ⟨rooted.disk, rooted.cache⟩
  have frame := callFrame_users (s.switch p)
  apply ((frame.table.allocproc kalloc _ ⟨start, .refl _⟩).and (allocproc_unused kalloc _)).seq
  rintro new t ⟨⟨rooted, current, users⟩, unused⟩
  cases new with
  | none => exact ⟨rooted, fun q => .inl (users q)⟩
  | some np =>
    apply wp.ite
    · intro _
      simp only [wp_bind, myproc, wp_gets, modifyProc, wp_update]
      -- the state with the users of the new process set is the one the rest keeps
      refine wp.mono (wp_bind _ _ _ |>.mp ((callFrame_users _).table.forkRest (callFrame_users _).idup np t.myproc.cwd _
        ⟨⟨rooted.disk, rooted.cache⟩, .refl _⟩)) fun _ u rest => rest.mono ?_
      rintro _ v ⟨rooted, _, same⟩
      refine ⟨rooted, fun q => ?_⟩
      have set := same q
      obtain rfl | other := eq_or_ne q np
      · have mine : t.myproc = t.proc p := by rw [Kernel.myproc, current, Kernel.switch_cur]
        simp only [Function.update_self, mine] at set
        exact .inr ⟨unused q rfl, set.1.trans (users p).1, set.2.trans (users p).2⟩
      · simp only [Function.update_of_ne other] at set
        exact .inl ⟨set.1.trans (users q).1, set.2.trans (users q).2⟩
    · intro _
      have keeps : Keeps _ (modifyProc np fun proc => { proc with state := .unused }) :=
        frame.table.modifyProc np fun _ => ⟨rfl, rfl⟩
      refine (wp_bind _ _ _).mpr ((keeps t ⟨rooted, current, users⟩).mono fun _ u kept => ?_)
      exact ⟨kept.1, fun q => .inl (kept.2.2 q)⟩

/-! ## Steps and runs -/

/-- A process that is in use becomes user 0 only by `exec` of a set-uid inode
that user 0 owns, and it changes its user only by `setuid` as effective user 0. -/
structure NoEscalation (cfg : Config) (s : Kernel) (taken : Step) (s' : Kernel) : Prop where
  euid : ∀ q, (s.proc q).state ≠ .unused → (s.proc q).euid ≠ 0 → (s'.proc q).euid = 0 →
    q = taken.p ∧ taken.ret = 0 ∧ ∃ vm path, taken.call = .exec vm path ∧
      ∃ t k, Names cfg s taken.p path t k ∧
        (t.current k).mode.getLsbD 9 = true ∧ (t.current k).uid = 0
  uid : ∀ q, (s.proc q).state ≠ .unused → (s'.proc q).uid ≠ (s.proc q).uid →
    q = taken.p ∧ (∃ newid, taken.call = .setuid newid) ∧ (s.proc q).euid = 0

/-- The state after booting: no inode has been read, and the process table holds
no user but 0. -/
structure Booted (s : Kernel) : Prop where
  cache : ∀ k, (s.icache k).d = .zero
  users : ∀ q, (s.proc q).uid = 0 ∧ (s.proc q).euid = 0

/-- The set-uid bit is set only on inodes of user 0, and no set-uid inode is given
to another user. -/
def Careful (cfg : Config) (s : Kernel) (taken : Step) : Prop :=
  match taken.call with
  | .chmod path mode =>
    mode.getLsbD 9 = true → ∀ t k, Names cfg s taken.p path t k → (t.current k).uid = 0
  | .chown path owner _ =>
    ∀ t k, Names cfg s taken.p path t k → (t.current k).mode.getLsbD 9 = true → owner = 0
  | _ => True

/-- The runs of careful steps. -/
abbrev CarefulRun (cfg : Config) (start : Kernel) : List Step → Kernel → Prop :=
  TraceRun.Run (fun s taken s' => step cfg s taken s' ∧ Careful cfg s taken) start

/-- The invariant of careful runs: set-uid inodes belong to user 0, and an
effective user that is not the user is 0. -/
structure UsersInv (s : Kernel) : Prop where
  rooted : SetuidRooted s
  effective : ∀ q, (s.proc q).euid = (s.proc q).uid ∨ (s.proc q).euid = 0

theorem Booted.usersInv (booted : Booted s) (disk : ∀ i, Rooted (s.dinode i)) : UsersInv s where
  rooted := ⟨disk, fun k => by simp [booted.cache k, Rooted, Dinode.zero]⟩
  effective q := .inr (booted.users q).2

/-- What a step can do to the users, by the kind of its call. -/
inductive UserChange (cfg : Config) (s : Kernel) (taken : Step) (s' : Kernel) : Prop where
  | same (users : ∀ q, (s'.proc q).uid = (s.proc q).uid ∧ (s'.proc q).euid = (s.proc q).euid)
  | fork (users : ForkUsers s taken.p s')
  | exec {vm : Vm} {path : List UInt8} {t : Kernel} {k : ℕ} (call : taken.call = .exec vm path)
      (ret : taken.ret = 0) (names : Names cfg s taken.p path t k)
      (users : ExecUsers s taken.p (t.current k) s') (rooted : Rooted (t.current k))
  | setuid {newid : ℤ} (call : taken.call = .setuid newid) (root : (s.proc taken.p).euid = 0)
      (mine : (s'.proc taken.p).uid = newid ∧ (s'.proc taken.p).euid = newid)
      (others : ∀ q, q ≠ taken.p →
        (s'.proc q).uid = (s.proc q).uid ∧ (s'.proc q).euid = (s.proc q).euid)

theorem sysSetuid_spec (s : Kernel) (p : ℕ) (newid : ℤ) :
    wp (fun _ => True) (sysSetuid newid)
      (fun _ t => (t.icache = s.icache ∧ t.dinode = s.dinode) ∧
        ((∀ q, (t.proc q).uid = (s.proc q).uid ∧ (t.proc q).euid = (s.proc q).euid) ∨
        ((s.proc p).euid = 0 ∧ ((t.proc p).uid = newid ∧ (t.proc p).euid = newid) ∧
          ∀ q, q ≠ p → (t.proc q).uid = (s.proc q).uid ∧ (t.proc q).euid = (s.proc q).euid)))
      (s.switch p) := by
  simp only [sysSetuid, myproc, wp_bind, wp_gets, wp_ite]
  refine ⟨fun root => ⟨⟨rfl, rfl⟩, .inr ⟨root, ?_, fun q other => ?_⟩⟩, fun _ => ⟨⟨rfl, rfl⟩, .inl ?_⟩⟩
  · simp
  · simp [other]
  · exact fun q => ⟨rfl, rfl⟩

/-- **What a careful step does to the users and to the set-uid inodes.** -/
theorem userChange_of_step {cfg : Config} (rooted : SetuidRooted s) (stepped : step cfg s taken s')
    (careful : Careful cfg s taken) : SetuidRooted s' ∧ UserChange cfg s taken s' := by
  obtain ⟨p, call, ret⟩ := taken
  obtain ⟨-, -, run⟩ := stepped
  have start : SetuidRooted (s.switch p) := ⟨rooted.disk, rooted.cache⟩
  by_cases plain : CallFrame.SetsIds call
  · cases call with
    | fork kalloc copyuvm =>
      have outcome := (sysFork_spec rooted).of_ok run
      exact ⟨outcome.1, .fork outcome.2⟩
    | exec vm path =>
      obtain ⟨kept, same | ⟨ok, t, k, names, users, rooted⟩⟩ := (sysExec_spec rooted).of_ok run
      · exact ⟨kept, .same same.2⟩
      · exact ⟨kept, .exec rfl ok names users rooted⟩
    | setuid newid =>
      obtain ⟨⟨cache, disk⟩, same | ⟨root, mine, others⟩⟩ := (sysSetuid_spec s p newid).of_ok run
      · exact ⟨⟨disk ▸ rooted.disk, cache ▸ rooted.cache⟩, .same same⟩
      · exact ⟨⟨disk ▸ rooted.disk, cache ▸ rooted.cache⟩, .setuid rfl root mine others⟩
    | chmod path mode =>
      have outcome := (sysChmod_spec rooted careful).of_ok run
      exact ⟨outcome.1, .same outcome.2.2⟩
    | chown path owner group =>
      have outcome := (sysChown_spec rooted careful).of_ok run
      exact ⟨outcome.1, .same outcome.2.2⟩
    | _ => exact plain.elim
  · have outcome := ((callFrame_users (s.switch p)).dispatch plain _ ⟨start, .refl _⟩).of_ok run
    exact ⟨outcome.1, .same outcome.2.2⟩

theorem UsersInv.step {cfg : Config} (inv : UsersInv s) (stepped : step cfg s taken s')
    (careful : Careful cfg s taken) : UsersInv s' := by
  obtain ⟨rooted, change⟩ := userChange_of_step inv.rooted stepped careful
  refine ⟨rooted, fun q => ?_⟩
  cases change with
  | same users =>
    rw [(users q).1, (users q).2]
    exact inv.effective q
  | fork users =>
    obtain ⟨uid, euid⟩ | ⟨-, uid, euid⟩ := users q
    · rw [uid, euid]
      exact inv.effective q
    · rw [uid, euid]
      exact inv.effective taken.p
  | exec _ _ _ users _ =>
    obtain rfl | other := eq_or_ne q taken.p
    · rw [users.euid, users.uid]
      split
      · exact .inr rfl
      · exact .inl rfl
    · rw [(users.others q other).1, (users.others q other).2]
      exact inv.effective q
  | setuid _ _ mine others =>
    obtain rfl | other := eq_or_ne q taken.p
    · exact .inl (mine.2.trans mine.1.symm)
    · rw [(others q other).1, (others q other).2]
      exact inv.effective q

theorem UsersInv.noEscalation {cfg : Config} (inv : UsersInv s)
    (stepped : Xv6Uac.step cfg s taken s') (careful : Careful cfg s taken) :
    NoEscalation cfg s taken s' := by
  obtain ⟨-, change⟩ := userChange_of_step inv.rooted stepped careful
  cases change with
  | same users =>
    exact ⟨fun q _ user root => absurd ((users q).2.symm.trans root) user,
      fun q _ changed => absurd (users q).1 changed⟩
  | fork users =>
    constructor
    · intro q used user root
      obtain ⟨-, euid⟩ | ⟨unused, -⟩ := users q
      · exact absurd (euid.symm.trans root) user
      · exact absurd unused used
    · intro q used changed
      obtain ⟨uid, -⟩ | ⟨unused, -⟩ := users q
      · exact absurd uid changed
      · exact absurd unused used
  | exec call ret names users rooted =>
    constructor
    · intro q _ user root
      obtain rfl | other := eq_or_ne q taken.p
      · refine ⟨rfl, ret, _, _, call, _, _, names, ?_⟩
        -- without the bit the effective user would become the user, which is not 0
        rw [users.euid] at root
        split at root
        · rename_i set
          exact ⟨set, rooted set⟩
        · obtain same | zero := inv.effective taken.p
          · exact absurd (same.trans root) user
          · exact absurd zero user
      · exact absurd ((users.others q other).2.symm.trans root) user
    · intro q _ changed
      obtain rfl | other := eq_or_ne q taken.p
      · exact absurd users.uid changed
      · exact absurd (users.others q other).1 changed
  | setuid call root mine others =>
    constructor
    · intro q _ user zero
      obtain rfl | other := eq_or_ne q taken.p
      · exact absurd root user
      · exact absurd ((others q other).2.symm.trans zero) user
    · intro q _ changed
      obtain rfl | other := eq_or_ne q taken.p
      · exact ⟨rfl, ⟨_, call⟩, root⟩
      · exact absurd (others q other).1 changed

/-- **No step of a careful run from a disk whose set-uid inodes belong to user 0
makes a process user 0 except by `exec` of such an inode.** -/
theorem noEscalation_of_careful {cfg : Config} {start s s' : Kernel} {trace : List Step}
    {taken : Step} (booted : Booted start) (disk : ∀ i, Rooted (start.dinode i))
    (run : CarefulRun cfg start trace s) (stepped : step cfg s taken s')
    (careful : Careful cfg s taken) : NoEscalation cfg s taken s' := by
  have inv : UsersInv s := by
    refine TraceRun.Run.stateInvariant (booted.usersInv disk) ?_ run
    intro t t' label inv taken
    exact inv.step taken.1 taken.2
  exact inv.noEscalation stepped careful

/-- A run whose calls are careful in every state is careful. -/
theorem carefulRun_of_forall {cfg : Config} {start : Kernel} {trace : List Step}
    (run : KernelRun cfg start trace s) (all : ∀ taken ∈ trace, ∀ t, Careful cfg t taken) :
    CarefulRun cfg start trace s := by
  induction run with
  | refl => exact .refl
  | tail _ stepped ih =>
    refine .tail (ih fun taken member => all taken (List.mem_cons_of_mem _ member)) ?_
    exact ⟨stepped, all _ List.mem_cons_self _⟩

namespace SmallImage

/-- The state after booting from an image whose root directory holds a program
`f`, with the given owner and mode. Only the first process exists. -/
def withProgram (owner : ℤ) (mode : BitVec 16) : Kernel :=
  { boot
      (fun i => if i = ROOTINO then inodeOf .dir 1 48 39 0 0o755
        else if i = 2 then inodeOf .file 1 52 40 owner mode else .zero)
      (fun b => b < 41)
      (fun b => if b = 39 then blockOf [(1, dot), (1, dotdot), (2, [102])]
        else if b = 40 then fun j => [0x7f, 0x45, 0x4c, 0x46].getD j 0 else fun _ => 0) with
    proc := fun p =>
      if p = 0 then procOf 1 0
      else { procOf 0 0 with state := .unused, parent := none, cwd := none }
    icache := fun k =>
      ⟨if k = 0 then ROOTINO else 0, if k = 0 then 1 else 0, false, false, .zero⟩
    nextpid := 2 }

theorem booted_withProgram (owner : ℤ) (mode : BitVec 16) : Booted (withProgram owner mode) where
  cache _ := rfl
  users q := by
    simp only [withProgram]
    split <;> exact ⟨rfl, rfl⟩

/-- The execution of `f` by process 1, for which memory suffices. -/
def execF : Step := ⟨1, .exec ⟨true, fun _ n => n, true⟩ [102], 0⟩

/-- The first process makes process 1, which becomes user 1. -/
def becomeUser : List Step := [⟨1, .setuid 1, 0⟩, ⟨0, .fork true true, 2⟩]

/-- Process 1, as user 1, sets the set-uid bit of `f`. -/
def setBit : List Step := ⟨1, .chmod [102] 0o1755, 0⟩ :: ⟨1, .open [102] O_RDONLY, 0⟩ :: becomeUser

/-- The owner of the inode that a path names. -/
def ownerOf (cfg : Config) (s : Kernel) (p : ℕ) (path : List UInt8) : Option ℤ :=
  match beginOp (s.switch p) with
  | .error _ => none
  | .ok (_, u) =>
    match namei cfg path u with
    | .ok (some k, t) => some (t.current k).uid
    | _ => none

theorem ownerOf_of_names {cfg : Config} {s t : Kernel} {p k : ℕ} {path : List UInt8}
    (names : Names cfg s p path t k) : ownerOf cfg s p path = some (t.current k).uid := by
  obtain ⟨u, began, looked⟩ := names
  simp [ownerOf, began, looked]

end SmallImage

section

open SmallImage

/-- User 1 executes a set-uid program of user 0 and becomes user 0. -/
theorem noEscalation_of_root_program :
    ∃ s s', CarefulRun cfg (withProgram 0 0o1755) becomeUser s ∧ step cfg s execF s' ∧
      (s.proc 1).euid = 1 ∧ (s'.proc 1).euid = 0 ∧ NoEscalation cfg s execF s' := by
  have played : ((play cfg (withProgram 0 0o1755) becomeUser).bind fun s =>
      (tryStep cfg s execF).map fun s' => ((s.proc 1).euid, (s'.proc 1).euid)) = some (1, 0) := by
    decide +kernel
  obtain ⟨s, before, rest⟩ := Option.bind_eq_some_iff.mp played
  obtain ⟨s', taking, users⟩ := Option.map_eq_some_iff.mp rest
  have run := carefulRun_of_forall (run_of_play before) (by simp [becomeUser, Careful])
  have stepped := step_of_tryStep taking
  refine ⟨s, s', run, stepped, congrArg Prod.fst users, congrArg Prod.snd users, ?_⟩
  refine noEscalation_of_careful (booted_withProgram 0 0o1755) (fun i => ?_) run stepped trivial
  simp only [withProgram, boot, inodeOf, Rooted]
  split
  · simp
  · split <;> simp [Dinode.zero]

/-- User 1 sets the set-uid bit of a program it owns, executes it and becomes
user 0. -/
theorem owner_becomes_root :
    ¬∀ (cfg : Config) (start : Kernel), Booted start →
      ∀ (trace : List Step) (s s' : Kernel) (taken : Step),
        KernelRun cfg start trace s → step cfg s taken s' → NoEscalation cfg s taken s' := by
  intro always
  have played : ((play cfg (withProgram 1 0o755) setBit).bind fun s =>
      (tryStep cfg s execF).map fun s' =>
        ((s.proc 1).state, (s.proc 1).euid, (s'.proc 1).euid, ownerOf cfg s 1 [102])) =
      some (.runnable, 1, 0, some 1) := by
    decide +kernel
  obtain ⟨s, before, rest⟩ := Option.bind_eq_some_iff.mp played
  obtain ⟨s', taking, values⟩ := Option.map_eq_some_iff.mp rest
  simp only [Prod.mk.injEq] at values
  obtain ⟨live, user, root, owner⟩ := values
  have safe := always cfg _ (booted_withProgram 1 0o755) setBit s s' execF (run_of_play before)
    (step_of_tryStep taking)
  obtain ⟨-, -, vm, path, call, t, k, names, -, zero⟩ :=
    safe.euid 1 (by rw [live]; decide) (by rw [user]; decide) root
  cases call
  have other := (ownerOf_of_names names).symm.trans owner
  rw [zero] at other
  exact absurd other (by decide)

end

end Xv6Uac
