import Xv6Uac.Locks.Basic
import Xv6Uac.Fs.Processes

/-!
# The locks of every call

Each call is walked through once, with the set of locks that it holds at every point. A
call holds one lock at a time, except that `unlink` and `create` lock an inode while they
hold its directory, and that `dirlink` puts the inode it finds. So `link` and `unlink`
wait for themselves if the entry at the end of their path names its own directory
(`LoopsAt`), and nothing else does (`dispatch_locked`). An inode that is locked is
allocated: it was found in a directory, it is a working directory or an open file, or it
is new.
-/

namespace Xv6Uac

open Words Hoare

variable {cfg : Config} {A N : Prop} {Λ : Set ℕ} {F : ℕ → Dinode} {s s₀ t : Kernel}
  {i k d f dp ip : ℕ} {L δ δ' : ℕ → ℕ} {α : Type}

/-! ## Paths that lead to themselves -/

/-- The path leads to a directory with an entry `name` that names the directory itself,
and the process may search the directory. -/
def LoopsAt (s : Kernel) (path name : List UInt8) : Prop :=
  ∃ d, walkPath s.dinode s path true = some (d, name) ∧
    mayExecute s.myproc (s.dinode d) = true ∧ lookup s.data (s.dinode d) name = some d

/-- A path to a parent leads to a directory. -/
theorem walk_dir {p : Proc} {data : ℕ → Bytes} (elems : List (List UInt8)) :
    ∀ {i : ℕ} {name : List UInt8} {r : ℕ × List UInt8},
      walk p F data true i name elems = some r → (F r.1).type = .dir := by
  induction elems with
  | nil => exact fun found => nomatch found
  | cons elem rest ih =>
    intro i name r found
    rw [walk] at found
    split at found
    · cases found
    · rename_i dir
      split at found
      · cases found
        exact not_not.mp dir
      · split at found
        · cases found
        · split at found
          · cases found
          · exact ih found

theorem walkPath_dir {path name : List UInt8}
    (found : walkPath F s path true = some (d, name)) : (F d).type = .dir := by
  obtain ⟨i, -, found⟩ := Option.bind_eq_some_iff.mp found
  exact walk_dir _ found

/-- A loop that is there in the middle of a call was there before. -/
theorem LoopsAt.before {path name : List UInt8} (loops : LoopsAt t path name)
    (phase : Phase cfg L s t δ δ') (inv : KernelInv cfg L s δ) (data : t.data = s.data)
    (same : ∀ j, (t.dinode j).type = .dir → t.dinode j = s.dinode j) : LoopsAt s path name := by
  obtain ⟨d, walked, may, found⟩ := loops
  have unchanged := same d (walkPath_dir walked)
  rw [unchanged, phase.outside.myproc] at may
  rw [unchanged, data] at found
  exact ⟨d, phase.walkPath inv data same walked, may, found⟩

/-- The condition under which a call does not wait for itself. -/
def Apart (s : Kernel) : Call → Prop
  | .link old new => (∃ i name, walkPath s.dinode s old false = some (i, name) ∧
      (s.dinode i).type ≠ .dir) → ∀ name, ¬LoopsAt s new name
  | .unlink path => ∀ name, namecmp name dot ≠ 0 → namecmp name dotdot ≠ 0 →
      ¬LoopsAt s path name
  | _ => True

/-! ## Shapes of calls -/

namespace Ready

/-- A call on the inode at a path. -/
theorem withPath (ready : Ready cfg L N s δ) (path : List UInt8) {m : ℕ → K ℤ}
    (found : ∀ k t name, Quiet cfg L s t δ (δ + Pi.single k 1) → Locked ∅ t →
      (N → (t.dinode (t.icache k).inum).type ≠ .free) →
      walkPath s.dinode s path false = some ((t.icache k).inum, name) →
      wp (Moves A N) (m k) (fun _ u => Locked ∅ u) t) :
    wp (Moves A N) (do
      let found ← namei cfg path
      match found with
      | none => do
        endOp
        pure (-1)
      | some k => m k) (fun _ u => Locked ∅ u) s := by
  rw [wp_bind]
  refine ((ready.namex path false).and (ready.inv.namex path false)).seq
    fun out t ⟨⟨locked, live⟩, walked⟩ => ?_
  rw [wp_pure]
  cases out with
  | none => exact endWith_locked locked _
  | some result => exact found result.1 t result.2 walked.1 locked (live result rfl) walked.2.1

/-- A call that locks the parent of a path. -/
theorem withParent (ready : Ready cfg L N s δ) (path : List UInt8) {m : ℕ → List UInt8 → K α}
    {m' : K α} {Q : α → Kernel → Prop}
    (missing : ∀ t, Quiet cfg L s t δ δ → Locked ∅ t → wp (Moves A N) m' Q t)
    (found : ∀ dp d t name, Quiet cfg L s t δ (δ + Pi.single dp 1) → Locked {dp} t →
      Held t dp d → walkPath s.dinode s path true = some (d, name) →
      wp (Moves A N) (m dp name) Q t) :
    wp (Moves A N) (do
      let parent ← nameiparent cfg path
      match parent with
      | none => m'
      | some (dp, name) => do
        ilock cfg dp
        m dp name) Q s := by
  refine ((ready.namex path true).and (ready.inv.namex path true)).seq
    fun out t ⟨⟨locked, live⟩, walked⟩ => ?_
  cases out with
  | none => exact missing t walked locked
  | some result =>
    obtain ⟨dp, name⟩ := result
    obtain ⟨quiet, leads, -⟩ := walked
    refine ((ilock_alone locked (live _ rfl)).and quiet.inv.ilock).seq
      fun _ u ⟨taken, lock, held, _⟩ => ?_
    exact found dp _ u name (quiet.trans lock fun _ mine _ => Nat.le_add_right_of_le mine) taken
      held leads

end Ready

/-! ## Unlink -/

theorem unlinkEntry_locked (locked : Locked (insert ip {dp}) s) (apart : ip ∉ ({dp} : Set ℕ))
    (off : ℕ) : wp (Moves A N) (unlinkEntry cfg dp ip off) (fun _ t => Locked ∅ t) s := by
  have frame : StoreFrame (Moves A N) (Locked (insert ip {dp})) := storeFrame_locked
  refine (frame.writei dp _ off s locked).seq fun r t locked => ?_
  refine wp.ite (fun _ => moves_of_not_ofLock (by decide)) fun _ => ?_
  rw [inode, wp_read]
  refine (Preserves.when (fun _ => .bind (modifyDinode_locked dp _) fun _ => frame.iupdate dp) t
    locked).seq fun _ u locked => ?_
  refine (iunlockput_locked locked).seq fun _ v locked => ?_
  rw [Set.pair_comm, Set.insert_sdiff_self_of_notMem fun same => apart same.symm] at locked
  refine (modifyDinode_locked ip _ v locked).seq fun _ w locked => ?_
  refine (storeFrame_locked.iupdate ip w locked).seq fun _ x locked => ?_
  exact putAndEnd_locked locked 0

theorem unlinkFound_locked (locked : Locked {dp} s) (apart : A → ip ∉ ({dp} : Set ℕ))
    (live : N → (s.dinode (s.icache ip).inum).type ≠ .free) (off : ℕ) :
    wp (Moves A N) (unlinkFound cfg dp ip off) (fun _ t => Locked ∅ t) s := by
  refine (ilock_locked locked apart live).seq fun _ t ⟨other, locked⟩ => ?_
  refine wp.ite (fun _ => moves_of_not_ofLock (by decide)) fun _ => ?_
  refine wp.ite (fun _ => ?_) fun _ => unlinkEntry_locked locked other off
  refine (storeFrame_locked.isdirempty ip t locked).seq fun empty u locked => ?_
  refine wp.ite (fun _ => unlinkEntry_locked locked other off) fun _ => ?_
  refine (iunlockput_locked locked).seq fun _ v locked => ?_
  rw [Set.insert_sdiff_self_of_notMem other] at locked
  exact putAndEnd_locked locked (-1)

theorem sysUnlink_locked (ready : Ready cfg L N s 0) (path : List UInt8)
    (apart : A → Apart s (.unlink path)) :
    wp (Moves A N) (sysUnlink cfg path) (fun _ t => Locked ∅ t) s := by
  refine ready.beginOp.seq fun _ t ⟨begun, readyT⟩ => ?_
  refine readyT.withParent path (fun u _ locked => endWith_locked locked _)
    fun dp d u name quiet locked held walked => ?_
  refine wp.ite (fun _ => putAndEnd_locked locked (-1)) fun noDots => ?_
  rw [not_or] at noDots
  refine ((storeFrame_locked.dirlookup dp name u locked).and
    (quiet.inv.dirlookup held name)).seq fun out v ⟨lockedV, dir, found⟩ => ?_
  cases out with
  | none => exact putAndEnd_locked lockedV (-1)
  | some result =>
    obtain ⟨ip, off⟩ := result
    obtain ⟨may, n, j, -, -, slot, first, inum, got, disk, kept, -⟩ := found
    have disk' : u.dinode d = t.dinode d := quiet.live (by rw [dir]; decide)
    refine unlinkFound_locked lockedV (fun asked same => ?_) (fun asked => ?_) off
    · obtain rfl := Set.mem_singleton_iff.mp same
      obtain rfl := inum.symm.trans (kept.held held).inum
      refine apart asked name noDots.1 noDots.2 (LoopsAt.before ⟨j, walked, ?_, ?_⟩
        begun.toPhase ready.inv begun.data fun l isDir => begun.live (by rw [isDir]; decide))
      · rwa [← disk', ← quiet.outside.myproc]
      · rwa [← disk', ← quiet.data]
    · rw [inum, disk]
      exact Ready.entry_live (fun asked => (readyT.closed asked).freed quiet.freed.bare) dir
        ((treeOf_slot dir n).symm.trans slot) asked

/-! ## Link -/

theorem linkBad_locked (locked : Locked ∅ s)
    (live : N → (s.dinode (s.icache ip).inum).type ≠ .free) :
    wp (Moves A N) (linkBad cfg ip) (fun _ t => Locked ∅ t) s := by
  refine (ilock_alone locked live).seq fun _ t locked => ?_
  refine (modifyDinode_locked ip _ t locked).seq fun _ u locked => ?_
  refine (storeFrame_locked.iupdate ip u locked).seq fun _ v locked => ?_
  exact putAndEnd_locked locked (-1)

theorem linkInto_locked (ready : Ready cfg L N s (Pi.single ip 1)) (held : Held s ip i)
    (new : List UInt8) (apart : A → ∀ name, ¬LoopsAt s new name) :
    wp (Moves A N) (linkInto cfg ip new) (fun _ t => Locked ∅ t) s := by
  have inside : i < cfg.sb.ninodes := held.inum ▸ ready.inv.fs.cached.inside held.ref
  have nonzero : i ≠ 0 := by
    rintro rfl
    exact (ready.inv.fs.cached.held held).2 ready.inv.zero
  -- the inode that is linked stays allocated as long as the call holds it
  have live : ∀ {t δ'}, Phase cfg L s t (Pi.single ip 1) δ' → 1 ≤ δ' ip →
      (t.dinode (t.icache ip).inum).type ≠ .free := by
    intro t δ' phase mine
    have heldT := phase.held ⟨by simp, mine⟩ held
    rw [heldT.inum]
    exact (phase.inv.fs.cached.held heldT).2
  have more : ∀ (dp j : ℕ), 1 ≤ (Pi.single ip 1 : ℕ → ℕ) j →
      1 ≤ (Pi.single ip 1 + Pi.single dp 1 : ℕ → ℕ) j :=
    fun _ _ mine => Nat.le_add_right_of_le mine
  refine ready.withParent new (fun t quiet locked => linkBad_locked locked fun _ =>
    live quiet.toPhase (by simp)) fun dp d t name quiet locked heldParent walked => ?_
  have heldT := (quiet.held (by simp) held).1
  rw [inode, wp_read, heldT.inum, wp_bind]
  have dirlink := dirlink_locked (A := A) (N := N) quiet.inv.fs heldParent quiet.inv.named locked
    (fun l member => Set.mem_singleton_iff.mp member ▸ heldParent.ref) name i
    fun asked may j found l member same => ?_
  · apply (dirlink.and (quiet.inv.dirlink heldParent name inside nonzero)).mono
    rintro r u ⟨locked, result⟩
    have linked : Phase cfg L t u (Pi.single ip 1 + Pi.single dp 1)
        (Pi.single ip 1 + Pi.single dp 1) :=
      result.elim (fun failed => failed.2.toPhase) fun done => done.2.1
    apply ((iunlockput_alone locked).and (linked.inv.iunlockput (by simp))).seq
    rintro _ v ⟨locked, dropped⟩
    apply wp.ite
    · intro _
      refine linkBad_locked locked fun _ => live ((quiet.toPhase.trans linked
        fun j mine _ => more dp j mine).trans dropped.toPhase fun j mine _ => more dp j mine) ?_
      simp
    · intro _
      exact (iput_alone locked).seq fun _ w locked => endWith_locked locked 0
  · rw [Set.mem_singleton_iff.mp member, heldParent.inum] at same
    subst same
    have dir := quiet.live (quiet.inv.fs.cached.held heldParent).2
    refine apart asked name ⟨d, walked, ?_, ?_⟩
    · rwa [← dir, ← quiet.outside.myproc]
    · rwa [← dir, ← quiet.data]

/-- The link counts that are positive stay positive when they are raised. -/
def RaisesLinks (cfg : Config) (s : Kernel) : Prop :=
  ∀ i, (s.dinode i).type ≠ .free → 0 < (s.dinode i).nlink → 0 < cfg.short ((s.dinode i).nlink + 1)

theorem sysLink_locked (ready : Ready cfg L N s 0) (old new : List UInt8)
    (apart : A → Apart s (.link old new)) (fits : N → RaisesLinks cfg s) :
    wp (Moves A N) (sysLink cfg old new) (fun _ t => Locked ∅ t) s := by
  apply ready.beginOp.seq
  rintro _ t ⟨begun, readyT⟩
  refine readyT.withPath old fun ip u name found locked live walked => ?_
  rw [zero_add] at found
  apply ((ilock_alone locked live).and found.inv.ilock).seq
  rintro _ v ⟨locked, lock, held, _⟩
  generalize (u.icache ip).inum = i at held walked
  have quiet := (begun.next found).next lock
  obtain ⟨shows, alive⟩ := quiet.inv.fs.cached.held held
  have same := quiet.live alive
  rw [inode, wp_read, shows]
  refine wp.ite (fun _ => putAndEnd_locked locked (-1)) fun file => ?_
  apply ((modifyDinode_locked ip _ v locked).and
    (quiet.inv.setNlink held fun x => cfg.short (x + 1))).seq
  rintro _ w ⟨locked, inner⟩
  apply ((storeFrame_locked.iupdate ip w locked).and inner).seq
  rintro _ x ⟨locked, phase, data, heldX, others, raised⟩
  apply ((iunlock_alone locked).and phase.inv.iunlock).seq
  rintro _ y ⟨locked, unlocked⟩
  have closed : N → (links y).Closed ROOTINO := by
    intro asked
    have before := (ready.closed asked).freed quiet.freed.bare
    have after : links x = (links v).setNlink i (cfg.short ((v.dinode i).nlink + 1)) :=
      congrArg Tree.bare raised
    have raised : (links x).Closed ROOTINO := by
      rw [after]
      refine before.setNlink fun linked => ?_
      rw [same] at alive ⊢
      exact fits asked i alive (by rwa [← same])
    exact raised.freed unlocked.freed.bare
  have kind : (x.dinode i).type = (v.dinode i).type := by
    have kinds : (tree x).kind i = (tree v).kind i := by rw [raised, Tree.setNlink_kind]
    exact kinds
  refine linkInto_locked ⟨unlocked.inv, locked, closed⟩ (unlocked.held (by simp) heldX).1 new
    fun asked name loops => ?_
  refine apart asked ⟨i, _, begun.walkPath ready.inv walked, same ▸ file⟩ name
    (loops.before ((quiet.toPhase.next phase).next unlocked.toPhase) ready.inv ?_
      (quiet.dirs_of_file file others kind unlocked))
  rw [unlocked.data, data, quiet.data]

/-! ## Create -/

/-- The entries `.` and `..` go into a directory in which nothing is found. -/
theorem createDots_locked {ε : ℕ → ℕ} (works : Works cfg L s F ∅ t ε) (heldParent : Held t dp d)
    (held : Held t ip i) (apart : d ≠ i) (nonzero : i ≠ 0) (empty : (F i).size = 0)
    (locked : Locked {ip, dp} t) :
    wp (Moves A N) (createDots cfg dp ip) (fun _ u => Locked {ip, dp} u) t := by
  have small : i < cfg.sb.ninodes := held.inum ▸ works.fsInv.cached.inside held.ref
  have used : ∀ {u}, Held u dp d → Held u ip i → ∀ l ∈ ({ip, dp} : Set ℕ), 0 < (u.icache l).ref := by
    rintro u heldParent held l (rfl | rfl)
    · exact held.ref
    · exact heldParent.ref
  apply ((modifyDinode_locked dp _ t locked).and (works.prepareDots heldParent held apart)).seq
  rintro _ u ⟨locked, raised⟩
  apply ((modifyDinode_locked ip _ u locked).and raised).seq
  rintro _ v ⟨locked, opened⟩
  apply ((storeFrame_locked.iupdate dp v locked).and opened).seq
  rintro _ w ⟨locked, written, _, kept⟩
  generalize changed : Function.update
    (Function.update F d { F d with nlink := cfg.short ((F d).nlink + 1) }) i
    { F i with mode := 0o755 } = G at written
  have self : G i = { F i with mode := 0o755 } := by rw [← changed, Function.update_self]
  have emptyG : (G i).size = 0 := by rw [self, empty]
  have held := kept.held held
  have heldParent := kept.held heldParent
  rw [inode, wp_read, held.inum, wp_bind]
  have first := dirlink_locked (A := A) (N := N) written.fsInv held written.named locked
    (used heldParent held) dot i fun _ _ j found => by
      rw [lookup, dirFind, emptyG] at found
      cases found
  apply (first.and (written.dirlinkFirst held emptyG dot small nonzero)).mono
  rintro r x ⟨locked, result⟩
  refine wp.ite (fun _ => moves_of_not_ofLock (by decide)) fun done => ?_
  obtain ⟨G', after, set⟩ := result.resolve_left done
  rw [inode, wp_read]
  refine (dirlink_locked after.fsInv (set.kept.held held) after.named locked
    (used (set.kept.held heldParent) (set.kept.held held)) dotdot _ fun _ _ j found => ?_).seq
    fun r y locked => ?_
  · obtain ⟨n, place, -⟩ := Option.bind_eq_some_iff.mp found
    obtain ⟨⟨j', slot⟩, -⟩ := dirFind_eq_some.mp place
    have size : (G' i).size = DIRENT := by
      rw [set.fields, emptyG]
      rfl
    have first : n = 0 := by
      have fits := (dirSlot_eq_some slot).1
      rw [size] at fits
      simp only [DIRENT, DIRSIZ] at fits
      omega
    rw [first, set.slot] at slot
    exact absurd (congrArg Prod.snd (Option.some.inj slot))
      (show nameOf dot ≠ nameOf dotdot by decide)
  · rw [wp_when]
    exact ⟨fun _ => moves_of_not_ofLock (by decide), fun _ => locked⟩

/-- The new inode is locked at the end, and its directory is not. -/
theorem createNew_locked (inv : KernelInv cfg L s δ) (held : Held s dp d)
    (dir : (s.dinode d).type = .dir) {name : List UInt8}
    (absent : (tree s).search d = true → dirFind s.data (s.dinode d) name = none)
    {type : InodeType} (live : type ≠ .free) (major minor : ℤ) (locked : Locked {dp} s) :
    wp (Moves A N) (createNew cfg dp name type major minor)
      (fun out t => ∃ ip, out = some ip ∧ Locked {ip} t) s := by
  apply ((storeFrame_locked.ialloc type s locked).and ((Works.start inv).ialloc type)).seq
  rintro ip t ⟨locked, i, nonzero, inside, free, inum, data, allocated, kept⟩
  have apart : d ≠ i := by
    rintro rfl
    rw [dir] at free
    cases free
  have parentNonzero : d ≠ 0 := by
    rintro rfl
    rw [inv.zero] at dir
    cases dir
  have held₁ := kept.held held
  have other : ip ∉ ({dp} : Set ℕ) := by
    intro same
    rw [Set.mem_singleton_iff.mp same, held₁.inum] at inum
    exact apart inum
  -- the new inode is locked as well
  have filling : wp (Moves A N) (createInode cfg ip major minor)
      (fun _ u => Locked {ip, dp} u) t := by
    rw [createInode, myproc, wp_read]
    refine (ilock_locked locked (fun _ => other) fun _ => ?_).seq fun _ u after => ?_
    · rwa [allocated.fsInv.dinode, inum, Function.update_self]
    · refine (modifyDinode_locked ip _ u after.2).seq fun _ v locked => ?_
      exact storeFrame_locked.iupdate ip v locked
  apply (filling.and (allocated.createInode inum (Function.update_self ..) major minor)).seq
  rintro _ u ⟨locked, filled, data', kept', heldNew⟩
  rw [Function.update_idem] at filled
  have held₂ := kept'.held held₁
  rw [wp_bind]
  have dots : wp (Moves A N) (when (type = .dir) (createDots cfg dp ip))
      (fun _ v => Locked {ip, dp} v) u := by
    rw [wp_when]
    refine ⟨fun _ => createDots_locked filled held₂ heldNew apart nonzero ?_ locked,
      fun _ => locked⟩
    rw [Function.update_self]
    rfl
  apply (dots.and (filled.createMiddle held₂ heldNew apart parentNonzero nonzero free inside live
    (data'.trans data) name Nowhere Nowhere)).mono
  rintro _ v ⟨locked, F', works, kept'', types, search, slots, _⟩
  have held₃ := kept''.held held₂
  have heldNew := kept''.held heldNew
  have dir' : (F' d).type = .dir := by rw [types, Function.update_of_ne apart, dir]
  rw [inode, wp_read]
  refine (dirlink_locked works.fsInv held₃ works.named locked ?_ name _
    fun _ may j found => ?_).seq fun r w locked => ?_
  · rintro l (rfl | rfl)
    · exact heldNew.ref
    · exact held₃.ref
  · obtain ⟨n, place, -⟩ := Option.bind_eq_some_iff.mp found
    obtain ⟨⟨j', slot⟩, -⟩ := dirFind_eq_some.mp place
    have there : (tree s).slot d n = some (j', nameOf name) := by
      rw [← slots, treeOf_slot dir', slot]
    rw [works.outside.myproc] at may
    exact absurd rfl (treeOf_absent dir absent (search.symm.trans may) there)
  · refine wp.ite (fun _ => moves_of_not_ofLock (by decide)) fun _ => ?_
    refine (iunlockput_locked locked).seq fun _ x locked => ?_
    rw [Set.pair_comm, Set.insert_sdiff_self_of_notMem fun same => other same.symm] at locked
    exact ⟨ip, rfl, locked⟩

theorem createFound_locked (quiet : Quiet cfg L s t 0 (Pi.single dp 1 + Pi.single ip 1))
    (locked : Locked {dp} t) (live : N → (t.dinode (t.icache ip).inum).type ≠ .free)
    (type : InodeType) :
    wp (Moves A N) (createFound cfg dp ip type) (fun out u =>
      Locked (out.elim ∅ fun ip => {ip}) u) t := by
  refine ((iunlockput_alone locked).and (quiet.inv.iunlockput (by simp))).seq
    fun _ u ⟨locked, dropped⟩ => ?_
  rw [single_add_sub] at dropped
  have both : 1 ≤ (Pi.single dp 1 + Pi.single ip 1 : ℕ → ℕ) ip ∧
      1 ≤ (Pi.single ip 1 : ℕ → ℕ) ip := ⟨by simp, by simp⟩
  refine (ilock_alone locked fun asked => ?_).seq fun _ v locked => ?_
  · rw [(dropped.keeps (.inr both)).1, dropped.current (.inr both)]
    exact live asked
  · refine wp.ite (fun _ => locked) fun _ => ?_
    rw [wp_bind]
    exact iunlockput_alone locked

theorem create_locked (ready : Ready cfg L N s 0) (path : List UInt8) {type : InodeType}
    (live : type ≠ .free) (major minor : ℤ) :
    wp (Moves A N) (create cfg path type major minor) (fun out t =>
      Locked (out.elim ∅ fun ip => {ip}) t) s := by
  refine ready.withParent path (fun t _ locked => locked)
    fun dp d t name quiet locked held walked => ?_
  rw [zero_add] at quiet
  refine ((storeFrame_locked.dirlookup dp name t locked).and
    (quiet.inv.dirlookup held name)).seq fun out u ⟨lockedU, dir, found⟩ => ?_
  cases out with
  | some result =>
    obtain ⟨ip, off⟩ := result
    obtain ⟨-, n, j, -, -, slot, -, inum, got, disk, -⟩ := found
    refine createFound_locked (quiet.next got) lockedU (fun asked => ?_) type
    rw [inum, disk]
    exact Ready.entry_live (fun asked => (ready.closed asked).freed quiet.freed.bare) dir
      ((treeOf_slot dir n).symm.trans slot) asked
  | none =>
    obtain ⟨rfl, absent⟩ := found
    apply (createNew_locked quiet.inv held dir absent live major minor lockedU).mono
    rintro out v ⟨ip, rfl, locked⟩
    exact locked

theorem createAndPut_locked (ready : Ready cfg L N s 0) (path : List UInt8) {type : InodeType}
    (live : type ≠ .free) (major minor : ℤ) :
    wp (Moves A N) (createAndPut cfg path type major minor) (fun _ t => Locked ∅ t) s := by
  refine ready.beginOp.seq fun _ t ⟨_, readyT⟩ => ?_
  refine (create_locked readyT path live major minor).seq fun out u locked => ?_
  cases out with
  | none => exact endWith_locked locked _
  | some ip => exact putAndEnd_locked locked 0

/-! ## Files -/

/-- Changes of files and processes. -/
theorem tableFrame_locked : TableFrame (Moves A N) (Locked Λ) where
  fails _ other := moves_of_not_ofLock other
  files _ _ _ _ locked := locked
  procs _ _ _ locked _ := locked

theorem modifyProc_locked (p : ℕ) (change : Proc → Proc) :
    Preserves (Moves A N) (Locked Λ) (modifyProc p change) := .update fun _ locked => locked

theorem modifyMyproc_locked (change : Proc → Proc) :
    Preserves (Moves A N) (Locked Λ) (modifyMyproc change) := .update fun _ locked => locked

/-- The last reference to a file puts its inode. -/
theorem fileclose_locked (locked : Locked Λ s)
    (apart : A → ∀ k, (s.ftable f).inode = some k → k ∉ Λ) :
    wp (Moves A N) (fileclose cfg f) (fun _ t => Locked Λ t) s := by
  refine wp.ite (fun _ => moves_of_not_ofLock (by decide)) fun _ => ?_
  refine wp.ite (fun _ => tableFrame_locked.modifyFile f _ s locked) fun _ => ?_
  refine (tableFrame_locked.modifyFile f _ s locked).seq fun _ t locked => ?_
  rw [fileRelease]
  split
  · exact locked
  · rename_i k isInode has
    refine (storeFrame_locked.beginOp t locked).seq fun _ u locked => ?_
    refine (iput_locked locked fun asked => apart asked k ?_).seq fun _ v locked => ?_
    · exact File.inode_eq_some.mpr ⟨isInode, has⟩
    · exact storeFrame_locked.endOp v locked
  · exact locked
  · exact moves_of_not_ofLock (by decide)

theorem fileclose_alone (f : ℕ) : Preserves (Moves A N) (Locked ∅) (fileclose cfg f) :=
  fun _ locked => fileclose_locked locked fun _ k _ => Set.notMem_empty k

/-- A fresh file has no inode yet that closing it could put. -/
theorem openFile_locked (inv : KernelInv cfg L s δ) (locked : Locked {ip} s) (omode : BitVec 32) :
    wp (Moves A N) (openFile cfg ip omode) (fun _ t => Locked ∅ t) s := by
  refine ((tableFrame_locked.filealloc s locked).and (filealloc_spec inv)).seq
    fun out t ⟨locked, invT, _, _, _, small, _⟩ => ?_
  cases out with
  | none => exact putAndEnd_locked locked (-1)
  | some f =>
    obtain ⟨small, fresh⟩ := small f rfl
    refine ((tableFrame_locked.fdalloc f t locked).and (fdalloc_spec invT small)).seq
      fun new u ⟨locked, _, _, ftable⟩ => ?_
    cases new with
    | none =>
      refine (fileclose_locked locked fun _ k points => ?_).seq fun _ v locked => ?_
      · rw [ftable, fresh.inode] at points
        cases points
      · exact putAndEnd_locked locked (-1)
    | some fd =>
      refine (iunlock_alone locked).seq fun _ v locked => ?_
      refine (storeFrame_locked.endOp v locked).seq fun _ w locked => ?_
      exact Preserves.bind (tableFrame_locked.modifyFile f _) (fun _ => .pure _) w locked

theorem sysOpen_locked (ready : Ready cfg L N s 0) (path : List UInt8) (omode : BitVec 32) :
    wp (Moves A N) (sysOpen cfg path omode) (fun _ t => Locked ∅ t) s := by
  refine ready.beginOp.seq fun _ t ⟨begun, readyT⟩ => ?_
  apply wp.ite
  · intro _
    refine ((create_locked readyT path (by decide) 0 0).and
      (create_spec ready.inv begun path (by decide) 0 0)).seq fun out u ⟨locked, created⟩ => ?_
    cases out with
    | none => exact endWith_locked locked _
    | some ip => exact openFile_locked created.1.inv locked omode
  · intro _
    refine readyT.withPath path fun ip u name quiet locked live _ => ?_
    refine ((ilock_alone locked live).and quiet.inv.ilock).seq fun _ v ⟨locked, lock, _⟩ => ?_
    rw [inode, wp_read]
    refine wp.ite (fun _ => putAndEnd_locked locked (-1)) fun _ => ?_
    exact wp.ite (fun _ => putAndEnd_locked locked (-1)) fun _ => openFile_locked lock.inv locked omode

/-- A call on a file that is open. -/
theorem withFile_locked (ready : Ready cfg L N s 0) (fd : ℤ) {m : ℕ → K ℤ}
    (each : ∀ f ∈ fileOf s fd, f < NFILE → wp (Moves A N) (m f) (fun _ t => Locked ∅ t) s) :
    wp (Moves A N) (do
      let file ← argfd fd
      match file with
      | none => pure (-1)
      | some f => m f) (fun _ t => Locked ∅ t) s := by
  rw [wp_argfd]
  split
  · exact ready.locked
  · rename_i f found
    exact each f found (ready.inv.fileOf_lt found)

/-- The inode of an open file is allocated. -/
theorem KernelInv.file_live (inv : KernelInv cfg L s δ) (small : f < NFILE)
    (isInode : (s.ftable f).type = .inode) (has : (s.ftable f).ip = some k) :
    (s.dinode (s.icache k).inum).type ≠ .free :=
  inv.live (holders_file small (File.inode_eq_some.mpr ⟨isInode, has⟩))

theorem fileread_locked (ready : Ready cfg L N s 0) (small : f < NFILE) (n : ℕ) :
    wp (Moves A N) (fileread cfg f n) (fun _ t => Locked ∅ t) s := by
  refine wp.ite (fun _ => ready.locked) fun _ => ?_
  split
  · exact tableFrame_locked.touches.piperead _ _ s ready.locked
  · rename_i k isInode has
    refine (ilock_alone ready.locked fun _ => ready.inv.file_live small isInode has).seq
      fun _ t locked => ?_
    refine (storeFrame_locked.readi k _ n t locked).seq fun out u locked => ?_
    refine (Preserves.when (fun _ => tableFrame_locked.modifyFile f _) u locked).seq fun _ v locked => ?_
    exact (iunlock_alone locked).seq fun _ _ locked => locked
  · exact moves_of_not_ofLock (by decide)
  · exact moves_of_not_ofLock (by decide)
  · exact moves_of_not_ofLock (by decide)

theorem filewriteRound_locked (locked : Locked ∅ s) (inv : KernelInv cfg L s 0)
    (small : f < NFILE) (writes : Writes s f k) (src : List UInt8) :
    wp (Moves A N) (filewriteRound cfg f k src) (fun _ t => Locked ∅ t) s := by
  refine ((storeFrame_locked.beginOp s locked).and inv.beginOp).seq
    fun _ t ⟨locked, begun⟩ => ?_
  have holds := holders_file small (writes.outside begun.outside).1
  refine (ilock_alone locked fun _ => begun.inv.live holds).seq fun _ u locked => ?_
  rw [wp_read]
  refine (storeFrame_locked.writei k src _ u locked).seq fun r v locked => ?_
  refine (Preserves.when (fun _ => tableFrame_locked.modifyFile f _) v locked).seq fun _ w locked => ?_
  exact (iunlock_alone locked).seq fun _ x locked =>
    Preserves.bind storeFrame_locked.endOp (fun _ => .pure r) x locked

theorem filewriteLoop_locked (small : f < NFILE) (fuel : ℕ) :
    ∀ {s : Kernel} (src : List UInt8), Locked ∅ s → Since cfg L 0 s₀ s → Writes s f k →
      wp (Moves A N) (filewriteLoop cfg f k fuel src) (fun _ t => Locked ∅ t) s := by
  induction fuel with
  | zero => exact fun src locked _ _ => locked
  | succ fuel ih =>
    intro s src locked since writes
    refine wp.ite (fun _ => locked) fun _ => ?_
    refine ((filewriteRound_locked locked since.inv small writes _).and
      (filewriteRound_safe since small writes _)).seq fun r t ⟨locked, since, writes⟩ => ?_
    refine wp.ite (fun _ => locked) fun _ => ?_
    exact wp.ite (fun _ => moves_of_not_ofLock (by decide)) fun _ => ih _ locked since writes

theorem filewrite_locked (ready : Ready cfg L N s 0) (small : f < NFILE) (src : List UInt8) :
    wp (Moves A N) (filewrite cfg f src) (fun _ t => Locked ∅ t) s := by
  refine wp.ite (fun _ => ready.locked) fun writable => ?_
  split
  · exact Preserves.bind (tableFrame_locked.touches.pipewriteLoop _ _) (fun _ => .pure _) s ready.locked
  · rename_i k isInode has
    refine (filewriteLoop_locked small _ _ ready.locked (.refl ready.inv) ⟨?_, ?_⟩).seq
      fun _ _ locked => locked
    · exact File.inode_eq_some.mpr ⟨isInode, has⟩
    · simpa using writable
  · exact wp.ite (fun _ => ready.locked) fun _ => moves_of_not_ofLock (by decide)
  · exact moves_of_not_ofLock (by decide)
  · exact moves_of_not_ofLock (by decide)

theorem filestat_locked (ready : Ready cfg L N s 0) (small : f < NFILE) :
    wp (Moves A N) (filestat cfg f) (fun _ t => Locked ∅ t) s := by
  rw [filestat, wp_read]
  split
  · rename_i k isInode has
    refine (ilock_alone ready.locked fun _ => ready.inv.file_live small isInode has).seq
      fun _ t locked => ?_
    rw [inode, wp_read]
    exact (iunlock_alone locked).seq fun _ _ locked => locked
  · exact moves_of_not_ofLock (by decide)
  · exact ready.locked

/-- `trim` looks neither at the type of the file nor at its mode. -/
theorem sysTrim_locked (ready : Ready cfg L N s 0) (fd : ℤ)
    (fits : N → ∀ f ∈ fileOf s fd, Trims s f) :
    wp (Moves A N) (sysTrim cfg fd) (fun _ t => Locked ∅ t) s := by
  refine withFile_locked ready fd fun f member small => ?_
  rw [wp_read]
  refine ready.beginOp.seq fun _ t ⟨begun, readyT⟩ => ?_
  split
  · exact moves_of_not_ofLock (by decide)
  · rename_i k has
    refine (ilock_alone readyT.locked fun asked => ?_).seq fun _ u locked => ?_
    · obtain ⟨j, writes, -⟩ := fits asked f member
      obtain rfl : j = k := Option.some.inj ((File.inode_eq_some.mp writes.1).2.symm.trans has)
      exact readyT.inv.live (holders_file small (writes.outside begun.outside).1)
    · refine (modifyDinode_locked k _ u locked).seq fun _ v locked => ?_
      refine (storeFrame_locked.iupdate k v locked).seq fun _ w locked => ?_
      exact (iunlock_alone locked).seq fun _ x locked => endWith_locked locked 0

/-! ## Working directories, attributes and images -/

theorem sysChdir_locked (ready : Ready cfg L N s 0) (path : List UInt8) :
    wp (Moves A N) (sysChdir cfg path) (fun _ t => Locked ∅ t) s := by
  refine ready.beginOp.seq fun _ t ⟨_, readyT⟩ => ?_
  refine readyT.withPath path fun ip u name quiet locked live _ => ?_
  refine (ilock_alone locked live).seq fun _ v locked => ?_
  refine wp.ite (fun _ => putAndEnd_locked locked (-1)) fun _ => ?_
  refine (iunlock_alone locked).seq fun _ w locked => ?_
  split
  · exact moves_of_not_ofLock (by decide)
  · refine (iput_alone locked).seq fun _ x locked => ?_
    exact Preserves.bind storeFrame_locked.endOp (fun _ => .bind (modifyMyproc_locked _)
      fun _ => .pure _) x locked

/-- A change of attributes of an inode. -/
theorem attrs_locked (locked : Locked ∅ s)
    (live : N → (s.dinode (s.icache ip).inum).type ≠ .free) (change : Dinode → Dinode) :
    wp (Moves A N) (do
      ilock cfg ip
      modifyDinode ip change
      iupdate cfg ip
      iunlock ip
      endOp
      pure 0) (fun (_ : ℤ) t => Locked ∅ t) s := by
  refine (ilock_alone locked live).seq fun _ t locked => ?_
  refine (modifyDinode_locked ip change t locked).seq fun _ u locked => ?_
  refine (storeFrame_locked.iupdate ip u locked).seq fun _ v locked => ?_
  exact (iunlock_alone locked).seq fun _ w locked => endWith_locked locked 0

theorem sysChmod_locked (ready : Ready cfg L N s 0) (path : List UInt8) (mode : BitVec 32) :
    wp (Moves A N) (sysChmod cfg path mode) (fun _ t => Locked ∅ t) s := by
  refine ready.beginOp.seq fun _ t ⟨_, readyT⟩ => ?_
  refine readyT.withPath path fun ip u name quiet locked live _ => ?_
  exact wp.ite (fun _ => endWith_locked locked (-1)) fun _ => wp.mono (attrs_locked locked live _)
    fun _ _ locked => locked

theorem sysChown_locked (ready : Ready cfg L N s 0) (path : List UInt8) (owner group : ℤ) :
    wp (Moves A N) (sysChown cfg path owner group) (fun _ t => Locked ∅ t) s := by
  refine wp.ite (fun _ => ready.locked) fun _ => ?_
  refine ready.beginOp.seq fun _ t ⟨_, readyT⟩ => ?_
  refine readyT.withPath path fun ip u name quiet locked live _ => ?_
  exact wp.mono (attrs_locked locked live _) fun _ _ locked => locked

theorem sysExec_locked (ready : Ready cfg L N s 0) (vm : Vm) (path : List UInt8) :
    wp (Moves A N) (sysExec cfg vm path) (fun _ t => Locked ∅ t) s := by
  refine ready.beginOp.seq fun _ t ⟨_, readyT⟩ => ?_
  refine readyT.withPath path fun k u name quiet locked live _ => ?_
  refine (ilock_alone locked live).seq fun _ v locked => ?_
  refine (execLoad_preserves (storeFrame_locked.readi k) vm v locked).seq fun loaded w locked => ?_
  rw [inode, wp_read]
  refine (iunlockput_alone locked).seq fun _ x locked => ?_
  exact Preserves.bind storeFrame_locked.endOp (fun _ => .ite (fun _ =>
    .bind (modifyMyproc_locked _) fun _ => .pure _) fun _ => .pure _) x locked

/-! ## Processes -/

theorem sysFork_locked (kalloc copyuvm : Bool) :
    Preserves (Moves A N) (Locked Λ) (sysFork kalloc copyuvm) := by
  refine .bind (tableFrame_locked.allocproc kalloc) fun new => ?_
  cases new with
  | none => exact .pure _
  | some np =>
    refine .ite (fun _ => .read fun _ => .read fun p => ?_) fun _ =>
      .bind (modifyProc_locked np _) fun _ => .pure _
    exact .bind (modifyProc_locked np _) fun _ =>
      tableFrame_locked.forkRest storeFrame_locked.idup np p.cwd

/-! ## All calls -/

/-- **No call waits for a lock that it holds or locks an inode that is not allocated**,
and at its end it holds no lock. -/
theorem dispatch_locked (ready : Ready cfg L N s 0) {call : Call} (apart : A → Apart s call)
    (fits : N → Whole s call ∧ ∀ old new, call = .link old new → RaisesLinks cfg s) :
    wp (Moves A N) (dispatch cfg call) (fun _ t => Locked ∅ t) s := by
  cases call with
  | fork kalloc copyuvm => exact sysFork_locked kalloc copyuvm s ready.locked
  | exit =>
    exact tableFrame_locked.sysExit fileclose_alone storeFrame_locked.beginOp
      (fun _ _ locked => iput_alone locked) storeFrame_locked.endOp s ready.locked
  | wait => exact tableFrame_locked.sysWait s ready.locked
  | pipe kalloc => exact tableFrame_locked.sysPipe fileclose_alone kalloc s ready.locked
  | read fd n =>
    refine withFile_locked ready fd fun f _ small => ?_
    exact (fileread_locked ready small n).seq fun _ _ locked => locked
  | kill pid => exact tableFrame_locked.sysKill pid s ready.locked
  | exec vm path => exact sysExec_locked ready vm path
  | fstat fd =>
    refine withFile_locked ready fd fun f _ small => ?_
    exact (filestat_locked ready small).seq fun _ _ locked => locked
  | chdir path => exact sysChdir_locked ready path
  | dup fd => exact tableFrame_locked.sysDup fd s ready.locked
  | getpid | getuid | geteuid | invalid | other => exact ready.locked
  | «open» path omode => exact sysOpen_locked ready path omode
  | write fd src => exact withFile_locked ready fd fun f _ small => filewrite_locked ready small src
  | mknod path major minor | mkdir path => exact createAndPut_locked ready path (by decide) _ _
  | unlink path => exact sysUnlink_locked ready path apart
  | link old new => exact sysLink_locked ready old new apart fun asked => (fits asked).2 old new rfl
  | close fd =>
    refine withFile_locked ready fd fun f _ _ => ?_
    exact Preserves.bind (modifyMyproc_locked _) (fun _ => .bind (fileclose_alone f)
      fun _ => .pure _) s ready.locked
  | setuid newid =>
    exact Preserves.bind (.gets _) (fun _ => .ite (fun _ => .bind (modifyMyproc_locked _)
      fun _ => .pure _) fun _ => .pure _) s ready.locked
  | chmod path mode => exact sysChmod_locked ready path mode
  | chown path owner group => exact sysChown_locked ready path owner group
  | lseek fd offset whence => exact tableFrame_locked.touches.sysLseek fd offset whence s ready.locked
  | trim fd => exact sysTrim_locked ready fd fun asked => (fits asked).1
  | setgrps ngroups gids => exact tableFrame_locked.sysSetgrps ngroups gids s ready.locked

end Xv6Uac
