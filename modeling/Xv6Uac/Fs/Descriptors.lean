import Xv6Uac.Fs.ReferenceCounts

/-!
# What a descriptor can change

The calls `read`, `write`, `lseek`, `trim` and `fstat` through a file of the file table
change no inode but the one of a file that is open for writing
(`descriptor_changes_own_inode`), except for `trim`. `trim` looks neither at the type of
the file nor at its access mode, so it also works through a file that is open for reading
only, and through a pipe whose `struct file` still has the inode of an earlier use
(`trim_needs_no_capability`).

A `trim` may make holes, and then the invariant of the file system does not hold any more.
What is left of it is `Intact`: the blocks of the inodes, as the cache has them, are owned
once. The sizes of the inodes do not matter for that. `writeLoop` does not look at sizes
(`writeLoop_sized`), so that its specification can be used with all sizes set to zero.
-/

namespace Xv6Uac

open Words Ownership
open Hoare hiding update
open Function (update update_idem update_of_ne update_self)

variable {cfg : Config} {F F' : ℕ → Dinode} {D : Set ℕ} {s s₀ t u : Kernel} {f k i j : ℕ}

/-! ## Other sizes -/

/-- The inode with another size. -/
def Dinode.sized (d : Dinode) (n : ℕ) : Dinode := { d with size := n }

/-- The entry with another size. -/
def Inode.sized (ip : Inode) (n : ℕ) : Inode := { ip with d := ip.d.sized n }

/-- The state with other sizes in the cache and on disk. -/
def Kernel.sized (cache disk : ℕ → ℕ) (s : Kernel) : Kernel :=
  { s with
    icache := fun k => (s.icache k).sized (cache k)
    dinode := fun i => (s.dinode i).sized (disk i) }

/-- The state with the size 0 for every inode. -/
abbrev Kernel.emptied (s : Kernel) : Kernel := s.sized (fun _ => 0) fun _ => 0

section Sized

variable {cache disk : ℕ → ℕ}

theorem logWrite_sized (b : ℕ) : Commutes (Kernel.sized cache disk) (logWrite cfg b) := by
  refine .gets_bind (fun _ => rfl) fun n => .gets_bind (fun _ => rfl) fun outstanding =>
    .ite (.fail _) (.ite (.fail _) (.update fun s => ?_))
  dsimp only [Kernel.sized]
  split <;> rfl

theorem bwrite_sized (b : ℕ) (change : Bytes → Bytes) :
    Commutes (Kernel.sized cache disk) (bwrite cfg b change) :=
  .ite (.bind (.update fun _ => rfl) fun _ => logWrite_sized b) (.fail _)

theorem balloc_sized : Commutes (Kernel.sized cache disk) (balloc cfg) := by
  refine .gets_bind (fun _ => rfl) fun free => ?_
  cases free with
  | none => exact .fail _
  | some b =>
    exact .bind (.update fun _ => rfl) fun _ => .bind (logWrite_sized _) fun _ =>
      .bind (bwrite_sized _ _) fun _ => .pure _

/-- A new address in an inode. -/
theorem modifyDinode_sized (k p addr : ℕ) : Commutes (Kernel.sized cache disk)
    (modifyDinode k fun d => { d with addrs := update d.addrs p addr }) := by
  refine .update fun s => ?_
  simp only [Kernel.sized, Kernel.mk.injEq, true_and, and_true]
  funext j
  obtain rfl | other := eq_or_ne j k
  · simp only [update_self]
    rfl
  · simp only [update_of_ne other]

theorem bmap_sized (k n : ℕ) : Commutes (Kernel.sized cache disk) (bmap cfg k n) := by
  refine .gets_bind (fun _ => rfl) fun ip => .ite (.ite ?_ (.pure _)) (.ite ?_ (.fail _))
  · exact .bind balloc_sized fun _ => .bind (modifyDinode_sized _ _ _) fun _ => .pure _
  · refine .bind (.when (.bind balloc_sized fun _ => modifyDinode_sized _ _ _)) fun _ => ?_
    refine .gets_bind (fun _ => rfl) fun ip =>
      .bind (.ite (.gets fun _ => rfl) (.fail _)) fun a => .ite ?_ (.pure _)
    exact .bind balloc_sized fun _ => .bind (bwrite_sized _ _) fun _ => .pure _

/-- **The loop of `writei` does not look at sizes.** -/
theorem writeLoop_sized (k fuel off : ℕ) (src : List UInt8) :
    Commutes (Kernel.sized cache disk) (writeLoop cfg k fuel off src) := by
  induction fuel generalizing off src with
  | zero => exact .pure _
  | succ fuel ih =>
    exact .ite (.pure _) (.bind (bmap_sized _ _) fun _ => .bind (bwrite_sized _ _) fun _ => ih _ _)

end Sized

/-! ## The inodes as they are now -/

namespace Kernel

/-- An inode as a process sees it: what a valid entry of the cache has, or else what the
disk has. -/
def inodeNow (s : Kernel) (i : ℕ) : Dinode :=
  match (List.range NINODE).find? fun k =>
      decide (0 < (s.icache k).ref) && (s.icache k).valid && (s.icache k).inum == i with
  | some k => (s.icache k).d
  | none => s.dinode i

/-- The byte at an offset of an inode, 0 where there is no block. -/
def byteAt (s : Kernel) (i o : ℕ) : UInt8 :=
  if o / BSIZE < MAXFILE ∧ place s.data (s.inodeNow i) (slotOf (o / BSIZE)) ≠ 0 then
    content s.data (s.inodeNow i) o
  else 0

/-- The contents of an inode. The length of the list is the size. -/
def bytes (s : Kernel) (i : ℕ) : List UInt8 := (List.range (s.inodeNow i).size).map (s.byteAt i)

theorem inodeNow_of_not_held (none : ∀ k, ¬Held s k i) : s.inodeNow i = s.dinode i := by
  rw [inodeNow]
  split
  · rename_i k found
    have holds := List.find?_some found
    simp only [Bool.and_eq_true, decide_eq_true_eq, beq_iff_eq] at holds
    exact absurd ⟨holds.1.1, holds.1.2, holds.2⟩ (none k)
  · rfl

theorem inodeNow_of_held (bound : ∀ {k : ℕ}, 0 < (s.icache k).ref → k < NINODE)
    (unique : ∀ {j k : ℕ}, 0 < (s.icache j).ref → 0 < (s.icache k).ref →
      (s.icache j).inum = (s.icache k).inum → j = k) (held : Held s k i) :
    s.inodeNow i = (s.icache k).d := by
  rw [inodeNow]
  split
  · rename_i j found
    have holds := List.find?_some found
    simp only [Bool.and_eq_true, decide_eq_true_eq, beq_iff_eq] at holds
    rw [unique holds.1.1 held.ref (holds.2.trans held.inum.symm)]
  · rename_i none
    have all := List.find?_eq_none.mp none k (List.mem_range.mpr (bound held.ref))
    simp [held.ref, held.valid, held.inum] at all

theorem bytes_congr (current : t.inodeNow i = s.inodeNow i) (data : t.data = s.data) :
    t.bytes i = s.bytes i := by
  have each : t.byteAt i = s.byteAt i := by
    funext o
    rw [byteAt, byteAt, current, data]
  rw [bytes, bytes, current, each]

end Kernel

/-- If the inodes still to be written are in the cache, a process sees the inodes. -/
theorem Cached.inodeNow_eq (cached : Cached cfg F D s) (dirty : ∀ i ∈ D, ∃ k, Held s k i) :
    s.inodeNow = F := by
  funext i
  by_cases shown : ∃ k, Held s k i
  · obtain ⟨k, held⟩ := shown
    rw [Kernel.inodeNow_of_held cached.bound cached.unique held, (cached.held held).1]
  · rw [Kernel.inodeNow_of_not_held fun k held => shown ⟨k, held⟩]
    exact cached.synced fun member => shown (dirty i member)

/-- The invariant of the file system, without what it says about sizes. -/
structure Intact (cfg : Config) (s : Kernel) : Prop where
  nonneg : ∀ k, 0 ≤ (s.icache k).ref
  inside : ∀ {k : ℕ}, 0 < (s.icache k).ref → (s.icache k).inum < cfg.sb.ninodes
  bound : ∀ {k : ℕ}, 0 < (s.icache k).ref → k < NINODE
  unique : ∀ {j k : ℕ}, 0 < (s.icache j).ref → 0 < (s.icache k).ref →
    (s.icache j).inum = (s.icache k).inum → j = k
  live : ∀ {k i : ℕ}, Held s k i → (s.icache k).d.type ≠ .free
  owned : Owned {b | b < cfg.sb.size} {b | b < cfg.sb.nmeta} s.bitmap ∅ (holder s.inodeNow s.data)
  inode_lt : ∀ {i : ℕ}, (s.inodeNow i).type ≠ .free → i < cfg.sb.ninodes
  files : ∀ {f k : ℕ}, f < NFILE → (s.ftable f).inode = some k → 0 < (s.icache k).ref

namespace Intact

theorem inodeNow_eq (intact : Intact cfg s) (held : Held s k i) : s.inodeNow i = (s.icache k).d :=
  Kernel.inodeNow_of_held intact.bound intact.unique held

theorem held_emptied (held : Held s k i) : Held s.emptied k i := ⟨held.ref, held.valid, held.inum⟩

/-- The cache and the disk show the inodes as they are now. -/
theorem cached (intact : Intact cfg s) : Cached cfg s.inodeNow {i | ∃ k, Held s k i} s where
  nonneg := intact.nonneg
  inside := intact.inside
  bound := intact.bound
  unique := intact.unique
  shows used valid := by
    rw [intact.inodeNow_eq ⟨used, valid, rfl⟩]
    exact ⟨rfl, intact.live ⟨used, valid, rfl⟩⟩
  synced clean := (Kernel.inodeNow_of_not_held fun k held => clean ⟨k, held⟩).symm

/-- With all sizes set to zero, the invariant of the file system holds. -/
theorem fsInv (intact : Intact cfg s) :
    FsInv cfg (fun i => (s.inodeNow i).sized 0) {i | ∃ k, Held s k i} s.emptied where
  cached :=
    { intact.cached with
      shows := fun used valid =>
        (intact.cached.shows used valid).imp_left (congrArg (Dinode.sized · 0))
      synced := fun clean => congrArg (Dinode.sized · 0) (intact.cached.synced clean) }
  layout :=
    { owned := intact.owned
      full := fun _ below => absurd below (not_lt_zero)
      size_le := fun _ => Nat.zero_le _
      inode_lt := intact.inode_lt }

theorem of_fsInv (fs : FsInv cfg F D s.emptied) (dirty : ∀ i ∈ D, ∃ k, Held s k i)
    (files : ∀ {f k : ℕ}, f < NFILE → (s.ftable f).inode = some k → 0 < (s.icache k).ref) :
    Intact cfg s := by
  have inodes : F = fun i => (s.inodeNow i).sized 0 := by
    rw [← fs.cached.inodeNow_eq fun i member => (dirty i member).imp fun _ => held_emptied]
    funext i
    rw [Kernel.inodeNow, Kernel.inodeNow]
    split <;> rename_i found <;> erw [found] <;> rfl
  subst inodes
  refine ⟨fs.cached.nonneg, fs.cached.inside, fs.cached.bound, fs.cached.unique,
    fun held free => ?_, fs.layout.owned, fs.layout.inode_lt, files⟩
  obtain ⟨shown, live⟩ := fs.cached.held (held_emptied held)
  exact live ((congrArg Dinode.type shown).symm.trans free)

end Intact

/-! ## What a call through a file changes -/

/-- The file is open for writing on the inode `i`. -/
def Owns (s : Kernel) (f i : ℕ) : Prop := ∃ k, Writes s f k ∧ (s.icache k).inum = i

/-- From `s` to `t` only offsets of files and, if `f` is open for writing, the inode of
`f` have changed. -/
structure Confined (f : ℕ) (s t : Kernel) : Prop where
  files : ∀ g, ∃ x, t.ftable g = { s.ftable g with off := x }
  entries : ∀ k, (t.icache k).ref = (s.icache k).ref ∧ (t.icache k).inum = (s.icache k).inum
  inodes : ∀ i, ¬Owns s f i → t.dinode i = s.dinode i ∧ t.inodeNow i = s.inodeNow i
  bytes : ∀ i, ¬Owns s f i → (s.inodeNow i).type ≠ .free → t.bytes i = s.bytes i
  pipe : (s.ftable f).type = .pipe →
    t.icache = s.icache ∧ t.dinode = s.dinode ∧ t.data = s.data ∧ t.bitmap = s.bitmap

namespace Confined

theorem refl (f : ℕ) (s : Kernel) : Confined f s s where
  files g := ⟨(s.ftable g).off, rfl⟩
  entries _ := ⟨rfl, rfl⟩
  inodes _ _ := ⟨rfl, rfl⟩
  bytes _ _ _ := rfl
  pipe _ := ⟨rfl, rfl, rfl, rfl⟩

theorem writes_iff (confined : Confined f s t) : Writes t f k ↔ Writes s f k := by
  obtain ⟨x, file⟩ := confined.files f
  rw [Writes, file]
  rfl

theorem owns_iff (confined : Confined f s t) : Owns t f i ↔ Owns s f i := by
  simp only [Owns, confined.writes_iff, (confined.entries _).2]

theorem trans (first : Confined f s t) (second : Confined f t u) : Confined f s u where
  files g := by
    obtain ⟨x, file⟩ := first.files g
    obtain ⟨y, file'⟩ := second.files g
    exact ⟨y, by rw [file', file]⟩
  entries k := ⟨(second.entries k).1.trans (first.entries k).1,
    (second.entries k).2.trans (first.entries k).2⟩
  inodes i other := by
    obtain ⟨disk, now⟩ := first.inodes i other
    obtain ⟨disk', now'⟩ := second.inodes i (mt first.owns_iff.mp other)
    exact ⟨disk'.trans disk, now'.trans now⟩
  bytes i other live := by
    have live' : (t.inodeNow i).type ≠ .free := by rwa [(first.inodes i other).2]
    rw [second.bytes i (mt first.owns_iff.mp other) live', first.bytes i other live]
  pipe isPipe := by
    obtain ⟨x, file⟩ := first.files f
    obtain ⟨cache, disk, data, map⟩ := first.pipe isPipe
    obtain ⟨cache', disk', data', map'⟩ := second.pipe (by rw [file]; exact isPipe)
    exact ⟨cache'.trans cache, disk'.trans disk, data'.trans data, map'.trans map⟩

end Confined

/-- The state of a call through `f` that started in `s₀`, with `n` open transactions. -/
structure Through (cfg : Config) (f : ℕ) (n : ℤ) (s₀ s : Kernel) : Prop where
  intact : Intact cfg s
  confined : Confined f s₀ s
  outstanding : s.outstanding = n

namespace Through

variable {n : ℤ}

variable (through : Through cfg f n s₀ s)
include through

/-- A step that changes neither inodes nor blocks. -/
theorem side (t : Kernel) (files : ∀ g, ∃ x, t.ftable g = { s.ftable g with off := x })
    (cache : t.icache = s.icache) (disk : t.dinode = s.dinode) (data : t.data = s.data)
    (bitmap : t.bitmap = s.bitmap) {m : ℤ} (outstanding : t.outstanding = m) :
    Through cfg f m s₀ t := by
  have current : t.inodeNow = s.inodeNow := by
    funext i
    rw [Kernel.inodeNow, Kernel.inodeNow, cache, disk]
  obtain ⟨nonneg, inside, bound, unique, live, owned, inode_lt, filesIn⟩ := through.intact
  refine ⟨⟨cache ▸ nonneg, cache ▸ inside, cache ▸ bound, cache ▸ unique, fun held => ?_, ?_,
    current ▸ inode_lt, fun {g k} small points => ?_⟩, through.confined.trans ?_, outstanding⟩
  · rw [cache]
    exact live ⟨cache ▸ held.ref, cache ▸ held.valid, cache ▸ held.inum⟩
  · rwa [bitmap, current, data]
  · obtain ⟨x, file⟩ := files g
    rw [cache]
    rw [file] at points
    exact filesIn small points
  · exact ⟨files, fun _ => by rw [cache]; exact ⟨rfl, rfl⟩, fun _ _ => ⟨by rw [disk], by rw [current]⟩,
      fun _ _ _ => Kernel.bytes_congr (by rw [current]) data, fun _ => ⟨cache, disk, data, bitmap⟩⟩

section

variable (notPipe : (s₀.ftable f).type ≠ .pipe)
include notPipe

/-- A step that locks, unlocks or loads an entry of the cache. -/
theorem entry {ip : Inode} (ref : ip.ref = (s.icache k).ref) (inum : ip.inum = (s.icache k).inum)
    (shown : ip.valid = (s.icache k).valid ∧ ip.d = (s.icache k).d ∨
      0 < ip.ref ∧ (s.icache k).valid = false ∧ ip.valid = true ∧ ip.d = s.dinode ip.inum ∧
        ip.d.type ≠ .free) :
    Through cfg f n s₀ { s with icache := update s.icache k ip } := by
  have intact := through.intact
  have refs : ∀ j, (update s.icache k ip j).ref = (s.icache j).ref ∧
      (update s.icache k ip j).inum = (s.icache j).inum := by
    intro j
    obtain rfl | other := eq_or_ne j k
    · rw [update_self]
      exact ⟨ref, inum⟩
    · rw [update_of_ne other]
      exact ⟨rfl, rfl⟩
  have cached := intact.cached.setEntry (ref ▸ intact.nonneg k) (fun used => ⟨ref ▸ used, inum⟩)
    fun used valid => by
      obtain ⟨was, d⟩ | ⟨-, invalid, -, d, live⟩ := shown
      · rw [d, inum]
        exact intact.cached.shows (ref ▸ used) (was ▸ valid)
      · -- an entry that is loaded was not valid before, so that the inode was the one on disk
        have now : s.inodeNow ip.inum = s.dinode ip.inum := by
          refine Kernel.inodeNow_of_not_held fun l before => ?_
          obtain rfl : l = k := intact.unique before.ref (ref ▸ used) (before.inum.trans inum)
          exact absurd before.valid (by rw [invalid]; decide)
        rw [now, ← d]
        exact ⟨rfl, live⟩
  have kept := (Kept.refl s).entry ref inum fun valid => by
    obtain ⟨was, -⟩ | ⟨-, -, isValid, -⟩ := shown
    · exact was.trans valid
    · exact isValid
  generalize same : { s with icache := update s.icache k ip } = t at cached kept ⊢
  have current := cached.inodeNow_eq fun i ⟨j, held⟩ => ⟨j, kept.held held⟩
  subst same
  refine ⟨⟨cached.nonneg, cached.inside, cached.bound, cached.unique, fun held => ?_, ?_,
    current ▸ intact.inode_lt, fun {g l} small points => ?_⟩,
    through.confined.trans ⟨fun g => ⟨_, rfl⟩, refs, fun i _ => ⟨rfl, by rw [current]⟩,
      fun i _ _ => Kernel.bytes_congr (by rw [current]) rfl, fun isPipe => ?_⟩,
    through.outstanding⟩
  · rw [(cached.held held).1]
    exact (cached.held held).2
  · rw [current]
    exact intact.owned
  · rw [(refs l).1]
    exact intact.files small points
  · obtain ⟨x, file⟩ := through.confined.files f
    rw [file] at isPipe
    exact absurd isPipe notPipe

theorem ilock (used : 0 < (s.icache k).ref) :
    wp (fun _ => True) (ilock cfg k) (fun _ t => Through cfg f n s₀ t ∧
      Held t k (s.icache k).inum) s := by
  simp only [Xv6Uac.ilock, acquiresleep, loadInode, inode, modifyInode, wp_bind, wp_gets,
    wp_ite, wp_when, wp_update, update_self, update_idem]
  refine ⟨fun _ => trivial, fun _ => ⟨fun _ => trivial, fun _ => ⟨fun invalid =>
    ⟨fun inside => ⟨fun _ => trivial, fun live => ⟨?_, ?_, ?_, ?_⟩⟩, fun _ => trivial⟩,
    fun valid => ⟨?_, ?_, ?_, ?_⟩⟩⟩⟩
  · exact through.entry notPipe rfl rfl (.inr ⟨used, invalid, rfl, rfl, live⟩)
  · simpa using used
  · simp
  · simp
  · exact through.entry notPipe rfl rfl (.inl ⟨rfl, rfl⟩)
  · simpa using used
  · simpa using valid
  · simp

theorem iunlock : wp (fun _ => True) (iunlock k) (fun _ t => Through cfg f n s₀ t) s := by
  simp only [Xv6Uac.iunlock, inode, wp_bind, wp_gets, wp_ite]
  exact ⟨fun _ => trivial, fun _ => through.entry notPipe rfl rfl (.inl ⟨rfl, rfl⟩)⟩

end

end Through

section

variable (idle : s.outstanding = 0)
include idle

/-- Outside of a transaction no block is allocated. -/
theorem balloc_idle (Q : ℕ → Kernel → Prop) : wp (fun _ => True) (balloc cfg) Q s := by
  simp only [balloc, logWrite, wp_bind, wp_gets]
  split
  · trivial
  · simp only [wp_bind, wp_update, wp_gets, wp_ite]
    exact ⟨fun _ => trivial, fun _ => ⟨fun _ => trivial, fun within => absurd (by omega) within⟩⟩

theorem bmap_idle (k n : ℕ) : wp (fun _ => True) (bmap cfg k n) (fun _ t => t = s) s := by
  simp only [bmap, inode, bread, wp_bind, wp_gets, wp_ite, wp_when]
  refine ⟨fun _ => ⟨fun _ => balloc_idle idle _, fun _ => rfl⟩, fun _ => ⟨fun _ =>
    ⟨fun _ => balloc_idle idle _, fun _ => ⟨fun _ => ⟨fun _ => balloc_idle idle _, fun _ => rfl⟩,
      fun _ => trivial⟩⟩, fun _ => trivial⟩⟩

theorem readLoop_idle (k fuel off n : ℕ) :
    wp (fun _ => True) (readLoop cfg k fuel off n) (fun _ t => t = s) s := by
  induction fuel generalizing off n with
  | zero => rfl
  | succ fuel ih =>
    refine wp.ite (fun _ => rfl) fun _ => ?_
    refine (bmap_idle idle k _).seq fun b t same => ?_
    subst same
    simp only [bread, wp_bind, wp_ite, wp_gets]
    exact ⟨fun _ => (ih _ _).mono fun _ _ same => same, fun _ => trivial⟩

/-- Outside of a transaction `readi` leaves the inodes and the blocks. -/
theorem readi_idle (k off n : ℕ) :
    wp (fun _ => True) (readi cfg k off n) (fun _ t => ∃ count, t = { s with devreads := count })
      s := by
  simp only [readi, inode, wp_bind, wp_gets, wp_ite]
  refine ⟨fun _ => ?_, fun _ => ⟨fun _ => ⟨s.devreads, rfl⟩, fun _ => ?_⟩⟩
  · split
    · exact ⟨s.devreads, rfl⟩
    · exact ⟨_, rfl⟩
  · exact (readLoop_idle idle k _ _ _).mono fun _ t same => ⟨t.devreads, same ▸ rfl⟩

end

/-- The cache and the disk after a change of inodes that are not shown by the disk. -/
theorem Cached.congr (cached : Cached cfg F D s) (cache : t.icache = s.icache)
    (disk : ∀ j ∉ D, t.dinode j = s.dinode j) : Cached cfg F D t where
  nonneg := cache ▸ cached.nonneg
  inside := cache ▸ cached.inside
  bound := cache ▸ cached.bound
  unique := cache ▸ cached.unique
  shows := cache ▸ cached.shows
  synced clean := (disk _ clean).trans (cached.synced clean)

namespace Through

variable {n : ℤ}

section

variable (through : Through cfg f n s₀ s)
include through

section

variable (writes : Writes s₀ f k)
include writes

/-- A step that changes the inode of a file that is open for writing. -/
theorem change (held : Held s k i) (fs : FsInv cfg F D t.emptied) (dirty : ∀ i ∈ D, ∃ k, Held s k i)
    (files : t.ftable = s.ftable) (outstanding : t.outstanding = s.outstanding) {d : Dinode}
    (cache : t.icache = update s.icache k { s.icache k with d := d })
    (disk : ∀ j, j ≠ i → t.dinode j = s.dinode j)
    (places : ∀ j, j ≠ i → (s.inodeNow j).type ≠ .free → ∀ p,
      place t.data (s.inodeNow j) p = place s.data (s.inodeNow j) p)
    (contents : ∀ j o, j ≠ i → (s.inodeNow j).type ≠ .free → o / BSIZE < MAXFILE →
      HasBlock s.data (s.inodeNow j) (o / BSIZE) →
      content t.data (s.inodeNow j) o = content s.data (s.inodeNow j) o) :
    Through cfg f n s₀ t := by
  have intact := through.intact
  have others : ∀ {j}, j ≠ k → t.icache j = s.icache j := fun other => by
    rw [cache, update_of_ne other]
  have same : ∀ j, (t.icache j).ref = (s.icache j).ref ∧ (t.icache j).valid = (s.icache j).valid ∧
      (t.icache j).inum = (s.icache j).inum := by
    intro j
    obtain rfl | other := eq_or_ne j k
    · rw [cache, update_self]
      exact ⟨rfl, rfl, rfl⟩
    · rw [others other]
      exact ⟨rfl, rfl, rfl⟩
  have heldIff : ∀ {j l}, Held t j l ↔ Held s j l := fun {j l} =>
    ⟨fun held => ⟨(same j).1 ▸ held.ref, (same j).2.1 ▸ held.valid, (same j).2.2 ▸ held.inum⟩,
      fun held => ⟨(same j).1 ▸ held.ref, (same j).2.1 ▸ held.valid, (same j).2.2 ▸ held.inum⟩⟩
  have intactT : Intact cfg t := .of_fsInv fs (fun j member => (dirty j member).imp
    fun _ => heldIff.mpr) fun {g l} small points => by
      rw [(same l).1]
      exact intact.files small (files ▸ points)
  have current : ∀ j, j ≠ i → t.inodeNow j = s.inodeNow j := by
    intro j other
    by_cases cached : ∃ l, Held s l j
    · obtain ⟨l, holds⟩ := cached
      have apart : l ≠ k := by
        rintro rfl
        exact other (holds.inum.symm.trans held.inum)
      rw [intactT.inodeNow_eq (heldIff.mpr holds), intact.inodeNow_eq holds, others apart]
    · rw [Kernel.inodeNow_of_not_held fun l holds => cached ⟨l, heldIff.mp holds⟩,
        Kernel.inodeNow_of_not_held fun l holds => cached ⟨l, holds⟩, disk j other]
  have owns : Owns s f i := ⟨k, through.confined.writes_iff.mpr writes, held.inum⟩
  refine ⟨intactT, through.confined.trans ⟨fun g => ⟨_, by rw [files]⟩,
    fun j => ⟨(same j).1, (same j).2.2⟩, fun j outside => ?_, fun j outside live => ?_,
    fun isPipe => ?_⟩, outstanding.trans through.outstanding⟩
  · have other : j ≠ i := fun eq => outside (eq ▸ owns)
    exact ⟨disk j other, current j other⟩
  · have other : j ≠ i := fun eq => outside (eq ▸ owns)
    have each : t.byteAt j = s.byteAt j := by
      funext o
      rw [Kernel.byteAt, Kernel.byteAt, current j other, places j other live]
      split
      · rename_i has
        exact contents j o other live has.1 has.2
      · rfl
    rw [Kernel.bytes, Kernel.bytes, each, current j other]
  · obtain ⟨x, file⟩ := through.confined.files f
    rw [file] at isPipe
    exact absurd (isPipe.symm.trans (File.inode_eq_some.mp writes.1).1) (by decide)

/-- The size of the inode is set and the inode is written to disk. -/
theorem store (held : Held s k i) (x : ℕ) (lh : List ℕ) :
    Through cfg f n s₀ { s with
      icache := update s.icache k ((s.icache k).sized x)
      dinode := update s.dinode i ((s.icache k).d.sized x)
      lh := lh } := by
  have fs := through.intact.fsInv
  -- with all sizes set to zero, only the disk has changed, and the inode is in the cache
  have cache : (fun j => (update s.icache k ((s.icache k).sized x) j).sized 0) =
      s.emptied.icache := by
    funext j
    obtain rfl | other := eq_or_ne j k
    · rw [update_self]
      rfl
    · rw [update_of_ne other]
      rfl
  refine through.change writes held (d := (s.icache k).d.sized x)
    ⟨?_, fs.layout⟩ (fun _ member => member) rfl rfl rfl (fun j other => update_of_ne other ..)
    (fun _ _ _ _ => rfl) fun _ _ _ _ _ _ => rfl
  refine fs.cached.congr cache fun j clean => ?_
  have other : j ≠ i := by
    rintro rfl
    exact clean ⟨k, held⟩
  simp only [Kernel.sized, update_of_ne other]

theorem writeLoop (held : Held s k i) (src : List UInt8) (off : ℕ)
    (fits : off + src.length ≤ MAXFILE * BSIZE) :
    wp (fun _ => True) (writeLoop cfg k src.length off src)
      (fun _ t => Through cfg f n s₀ t ∧ Held t k i) s := by
  have fs := through.intact.fsInv
  have own : s.sized (fun k => (s.icache k).d.size) (fun i => (s.dinode i).size) = s := rfl
  have spec := ((writeLoop_sized k src.length off src).wp
    (writeLoop_spec src.length off src fs (Intact.held_emptied held) le_rfl fits)).weaken
      fun _ _ => trivial
  refine ((spec.and ((writeLoop_sized k src.length off src).stays own)).and
    ((fsFrame_outside s).writeLoop k src.length off src s (.refl s))).mono
    fun last t ⟨⟨⟨_, F', wrote⟩, sizes⟩, outside⟩ => ?_
  have entries : ∀ j, t.icache j = ((t.icache j).sized 0).sized (s.icache j).d.size := fun j =>
    (congrFun (congrArg Kernel.icache sizes) j).symm
  have dinodes : ∀ j, t.dinode j = ((t.dinode j).sized 0).sized (s.dinode j).size := fun j =>
    (congrFun (congrArg Kernel.dinode sizes) j).symm
  have cache : t.icache = update s.icache k { s.icache k with
      d := (F' i).sized (s.icache k).d.size } := by
    funext j
    rw [entries j, show (t.icache j).sized 0 = t.emptied.icache j from rfl, wrote.cache]
    obtain rfl | other := eq_or_ne j k
    · rw [update_self, update_self]
      rfl
    · rw [update_of_ne other, update_of_ne other]
      rfl
  have disk : ∀ j, t.dinode j = s.dinode j := by
    intro j
    rw [dinodes j, show (t.dinode j).sized 0 = t.emptied.dinode j from rfl, wrote.disk]
    rfl
  have heldT : Held t k i := by
    have heldT := wrote.held (Intact.held_emptied held)
    exact ⟨heldT.ref, heldT.valid, heldT.inum⟩
  refine ⟨through.change writes held (wrote.fsInv fs (Intact.held_emptied held)) ?_ outside.ftable
    wrote.outstanding cache (fun j _ => disk j) (fun j other live p => ?_)
    fun j o other live small has => ?_, heldT⟩
  · rintro j (rfl | member)
    · exact ⟨k, held⟩
    · exact member
  · have kept := wrote.apart other live p
    rwa [wrote.others j other] at kept
  · have kept := wrote.outside j o live small has fun same => absurd same other
    rwa [wrote.others j other] at kept

/-- **`writei` through a file that is open for writing.** -/
theorem writei (held : Held s k i) (src : List UInt8) (off : ℕ) :
    wp (fun _ => True) (writei cfg k src off) (fun _ t => Through cfg f n s₀ t ∧ Held t k i) s := by
  simp only [Xv6Uac.writei, inode, wp_bind, wp_gets, wp_ite]
  refine ⟨fun _ => ?_, fun _ => ⟨fun _ => ⟨through, held⟩, fun _ => ⟨fun _ => ⟨through, held⟩,
    fun fits => ?_⟩⟩⟩
  · split <;> exact ⟨through, held⟩
  apply (through.writeLoop writes held src off (by omega)).mono
  rintro last t ⟨throughT, heldT⟩
  simp only [wp_bind, wp_gets, wp_when]
  refine ⟨fun _ => ?_, fun _ => ⟨throughT, heldT⟩⟩
  simp only [modifyDinode, modifyInode, iupdate, inode, wp_bind, wp_update, wp_gets,
    update_self]
  apply (logWrite_spec _).weaken (fun _ _ => trivial) |>.mono
  rintro _ u ⟨lh, same⟩
  have stored := throughT.store writes heldT last lh
  rw [← heldT.inum] at stored
  rw [same]
  refine ⟨stored, ?_, ?_, ?_⟩
  · simpa using heldT.ref
  · simpa using heldT.valid
  · simpa using heldT.inum

end

end

/-! ### The calls -/

theorem beginOp (through : Through cfg f 0 s₀ s) :
    wp (fun _ => True) beginOp (fun _ t => Through cfg f 1 s₀ t ∧ t.icache = s.icache) s := by
  simp only [Xv6Uac.beginOp, wp_bind, wp_gets, wp_ite, wp_update]
  refine ⟨fun _ => trivial, fun _ => ⟨through.side { s with outstanding := s.outstanding + 1 }
    (fun _ => ⟨_, rfl⟩) rfl rfl rfl rfl ?_, trivial⟩⟩
  rw [through.outstanding]
  rfl

theorem endOp (through : Through cfg f 1 s₀ s) :
    wp (fun _ => True) endOp (fun _ t => Through cfg f 0 s₀ t) s := by
  rw [Xv6Uac.endOp, wp_update, if_pos (by rw [through.outstanding]; rfl)]
  exact through.side { s with outstanding := 0, lh := [] } (fun _ => ⟨_, rfl⟩) rfl rfl rfl rfl rfl

section

variable (through : Through cfg f n s₀ s)
include through

theorem pipes (pipes : ℕ → Pipe) : Through cfg f n s₀ { s with pipes := pipes } :=
  through.side { s with pipes := pipes } (fun _ => ⟨_, rfl⟩) rfl rfl rfl rfl through.outstanding

theorem switch (p : ℕ) : Through cfg f n s₀ (s.switch p) :=
  through.side (s.switch p) (fun _ => ⟨_, rfl⟩) rfl rfl rfl rfl through.outstanding

theorem not_pipe (points : (s.ftable f).inode = some k) : (s₀.ftable f).type ≠ .pipe := by
  obtain ⟨x, file⟩ := through.confined.files f
  have isInode := (File.inode_eq_some.mp points).1
  rw [file] at isInode
  exact fun isPipe => absurd (isPipe.symm.trans isInode) (by decide)

/-- Another offset. -/
theorem seek (g : ℕ) (x : File → ℕ) :
    wp (fun _ => True) (modifyFile g fun file => { file with off := x file })
      (fun _ t => Through cfg f n s₀ t ∧ t.icache = s.icache) s := by
  refine ⟨through.side { s with ftable := update s.ftable g _ } (fun l => ?_) rfl rfl rfl rfl
    through.outstanding, rfl⟩
  obtain rfl | other := eq_or_ne l g
  · exact ⟨_, update_self ..⟩
  · exact ⟨_, update_of_ne other ..⟩

end

/-- A read from the file of an inode. -/
theorem fileread (through : Through cfg f 0 s₀ s) (small : f < NFILE) (count : ℕ) :
    wp (fun _ => True) (fileread cfg f count) (fun _ t => Through cfg f 0 s₀ t) s := by
  simp only [Xv6Uac.fileread, wp_bind, wp_gets, wp_ite]
  refine ⟨fun _ => through, fun _ => ?_⟩
  split
  · rename_i p isPipe _
    simp only [piperead, myproc, wp_bind, wp_gets, wp_ite]
    exact ⟨fun _ => ⟨fun _ => through, fun _ => trivial⟩, fun _ => through.pipes _⟩
  · rename_i k isInode has
    have points : (s.ftable f).inode = some k := File.inode_eq_some.mpr ⟨isInode, has⟩
    have notPipe := through.not_pipe points
    refine (through.ilock notPipe (through.intact.files small points)).seq fun _ t ⟨locked, _⟩ => ?_
    refine (readi_idle locked.outstanding k _ _).seq fun out u ⟨count, same⟩ => ?_
    have read : Through cfg f 0 s₀ u := by
      rw [same]
      exact locked.side { t with devreads := count } (fun _ => ⟨_, rfl⟩) rfl rfl rfl rfl
        locked.outstanding
    rw [wp_bind, wp_when]
    refine ⟨fun _ => (read.seek f _).mono fun _ v ⟨moved, _⟩ => ?_, fun _ => ?_⟩
    · exact (wp_bind ..).mpr ((moved.iunlock notPipe).mono fun _ _ done => done)
    · exact (wp_bind ..).mpr ((read.iunlock notPipe).mono fun _ _ done => done)
  · trivial
  · trivial
  · trivial

theorem filestat (through : Through cfg f 0 s₀ s) (small : f < NFILE) :
    wp (fun _ => True) (filestat cfg f) (fun _ t => Through cfg f 0 s₀ t) s := by
  simp only [Xv6Uac.filestat, wp_bind, wp_gets]
  split
  · rename_i k isInode has
    have points : (s.ftable f).inode = some k := File.inode_eq_some.mpr ⟨isInode, has⟩
    have notPipe := through.not_pipe points
    apply (through.ilock notPipe (through.intact.files small points)).seq
    rintro _ t ⟨locked, _⟩
    simp only [inode, wp_bind, wp_gets]
    exact (locked.iunlock notPipe).mono fun _ _ done => done
  · trivial
  · exact through

/-- The end of a call that has changed the inode. -/
theorem finish (through : Through cfg f 1 s₀ s) (notPipe : (s₀.ftable f).type ≠ .pipe) (r : ℤ) :
    wp (fun _ => True) (do
      Xv6Uac.iunlock k
      Xv6Uac.endOp
      pure r) (fun _ t => Through cfg f 0 s₀ t) s := by
  refine (through.iunlock notPipe).seq fun _ t unlocked => ?_
  exact unlocked.endOp.seq fun _ _ done => done

theorem filewriteRound (through : Through cfg f 0 s₀ s) (small : f < NFILE) (writes : Writes s₀ f k)
    (src : List UInt8) :
    wp (fun _ => True) (filewriteRound cfg f k src) (fun _ t => Through cfg f 0 s₀ t) s := by
  have points := (through.confined.writes_iff.mpr writes).1
  have notPipe := through.not_pipe points
  refine through.beginOp.seq fun _ t ⟨begun, cache⟩ => ?_
  refine (begun.ilock notPipe (cache ▸ through.intact.files small points)).seq
    fun _ u ⟨locked, held⟩ => ?_
  rw [wp_read]
  refine (locked.writei writes held src _).seq fun r v ⟨wrote, _⟩ => ?_
  rw [wp_bind, wp_when]
  exact ⟨fun _ => (wrote.seek f _).mono fun _ _ ⟨moved, _⟩ => moved.finish notPipe r,
    fun _ => wrote.finish notPipe r⟩

theorem filewriteLoop (small : f < NFILE) (writes : Writes s₀ f k) (fuel : ℕ) :
    ∀ {s : Kernel} (src : List UInt8), Through cfg f 0 s₀ s →
      wp (fun _ => True) (filewriteLoop cfg f k fuel src) (fun _ t => Through cfg f 0 s₀ t) s := by
  induction fuel with
  | zero => exact fun _ through => through
  | succ fuel ih =>
    intro s src through
    refine wp.ite (fun _ => through) fun _ => ?_
    refine (through.filewriteRound small writes _).seq fun r t done => ?_
    simp only [wp_ite]
    exact ⟨fun _ => done, fun _ => ⟨fun _ => trivial, fun _ => ih _ done⟩⟩

theorem pipewriteLoop (p : ℕ) (src : List UInt8) :
    ∀ {s : Kernel}, Through cfg f 0 s₀ s →
      wp (fun _ => True) (pipewriteLoop p src) (fun _ t => Through cfg f 0 s₀ t) s := by
  induction src with
  | nil => exact fun through => through
  | cons c rest ih =>
    intro s through
    simp only [Xv6Uac.pipewriteLoop, myproc, wp_bind, wp_gets, wp_ite]
    exact ⟨fun _ => ⟨fun _ => through, fun _ => trivial⟩, fun _ => ih (through.pipes _)⟩

theorem filewrite (through : Through cfg f 0 s₀ s) (small : f < NFILE) (src : List UInt8) :
    wp (fun _ => True) (filewrite cfg f src) (fun _ t => Through cfg f 0 s₀ t) s := by
  simp only [Xv6Uac.filewrite, wp_bind, wp_gets, wp_ite]
  refine ⟨fun _ => through, fun writable => ?_⟩
  split
  · simp only [pipewrite, wp_bind]
    exact (pipewriteLoop _ src through).mono fun _ _ done => done
  · rename_i k isInode has
    have writes : Writes s f k :=
      ⟨File.inode_eq_some.mpr ⟨isInode, has⟩, Bool.not_eq_false _ ▸ writable⟩
    exact (filewriteLoop small (through.confined.writes_iff.mp writes) _ src through).seq
      fun _ _ done => done
  · exact wp.ite (fun _ => through) fun _ => trivial
  · trivial
  · trivial

end Through

/-- A call through the file. -/
def Uses (f : ℕ) (s : Kernel) : Call → Prop
  | .read fd _ | .write fd _ | .lseek fd _ _ | .trim fd | .fstat fd => fileOf s fd = some f
  | _ => False

/-- A `trim` is through a file that is open for writing on an inode. -/
def TrimsOwn (f : ℕ) (s : Kernel) : Call → Prop
  | .trim _ => (s.ftable f).type = .inode ∧ (s.ftable f).writable = true
  | _ => True

namespace Through

variable (through : Through cfg f 0 s₀ s)
include through

theorem sysLseek {fd : ℤ} (on : fileOf s fd = some f) (offset whence : ℤ) :
    wp (fun _ => True) (sysLseek fd offset whence) (fun _ t => Through cfg f 0 s₀ t) s := by
  rw [Xv6Uac.sysLseek, wp_argfd, on]
  rw [wp_read, wp_ite, wp_ite, wp_ite]
  refine ⟨fun _ => ?_, fun _ => ⟨fun _ => ?_, fun _ => ⟨fun _ => ?_, fun _ => through⟩⟩⟩
  · exact (through.seek f _).seq fun _ _ ⟨moved, _⟩ => moved
  · exact (through.seek f _).seq fun _ _ ⟨moved, _⟩ => moved
  · split
    · trivial
    · simp only [inode, wp_bind, wp_gets]
      exact (through.seek f _).mono fun _ _ ⟨moved, _⟩ => moved

theorem sysTrim (small : f < NFILE) {fd : ℤ} (on : fileOf s fd = some f)
    (isInode : (s.ftable f).type = .inode) (writable : (s.ftable f).writable = true) :
    wp (fun _ => True) (sysTrim cfg fd) (fun _ t => Through cfg f 0 s₀ t) s := by
  rw [Xv6Uac.sysTrim, wp_argfd, on]
  rw [wp_read]
  apply through.beginOp.seq
  rintro _ t ⟨begun, cache⟩
  cases has : (s.ftable f).ip with
  | none => trivial
  | some k =>
  have writes : Writes s f k := ⟨File.inode_eq_some.mpr ⟨isInode, has⟩, writable⟩
  have notPipe := through.not_pipe writes.1
  apply (begun.ilock notPipe (cache ▸ through.intact.files small writes.1)).seq
  rintro _ u ⟨locked, held⟩
  simp only [modifyDinode, modifyInode, iupdate, inode, wp_bind, wp_update, wp_gets,
    update_self]
  apply ((logWrite_spec _).weaken fun _ _ => trivial).mono
  rintro _ v ⟨lh, same⟩
  have stored := locked.store (through.confined.writes_iff.mp writes) held (s.ftable f).off lh
  rw [← held.inum] at stored
  have stored : Through cfg f 1 s₀ v := same ▸ stored
  exact stored.finish notPipe 0

/-- **One call through the file.** -/
theorem dispatch (small : f < NFILE) {call : Call} (uses : Uses f s call)
    (own : TrimsOwn f s call) :
    wp (fun _ => True) (dispatch cfg call) (fun _ t => Through cfg f 0 s₀ t) s := by
  cases call with
  | read fd count =>
    rw [Xv6Uac.dispatch, sysRead, wp_argfd, uses]
    exact (through.fileread small count).seq fun _ _ done => done
  | fstat fd =>
    rw [Xv6Uac.dispatch, sysFstat, wp_argfd, uses]
    exact (through.filestat small).seq fun _ _ done => done
  | write fd src =>
    rw [Xv6Uac.dispatch, sysWrite, wp_argfd, uses]
    exact through.filewrite small src
  | lseek fd offset whence => exact through.sysLseek uses offset whence
  | trim fd => exact through.sysTrim small uses own.1 own.2
  | _ => exact uses.elim

/-- **All calls through the file.** -/
theorem run (small : f < NFILE) {trace : List Step}
    (run : RunOf (fun u call => Uses f u call ∧ TrimsOwn f u call) cfg s trace t) :
    Through cfg f 0 s₀ t := by
  induction run with
  | refl => exact through
  | tail _ stepped ih =>
    obtain ⟨⟨-, -, ran⟩, uses, own⟩ := stepped
    exact ((ih.switch _).dispatch small uses own).of_ok ran

end Through

/-- The invariant of the kernel implies that of the blocks. -/
theorem KernelInv.intact {L : ℕ → ℕ} (inv : KernelInv cfg L s 0) : Intact cfg s := by
  have cached := inv.fs.cached
  have current : s.inodeNow = s.dinode := by
    funext i
    by_cases held : ∃ k, Held s k i
    · obtain ⟨k, held⟩ := held
      rw [Kernel.inodeNow_of_held cached.bound cached.unique held, (cached.held held).1]
    · exact Kernel.inodeNow_of_not_held fun k holds => held ⟨k, holds⟩
  refine ⟨cached.nonneg, cached.inside, cached.bound, cached.unique, fun held => ?_, ?_, ?_,
    fun {f k} small points => ?_⟩
  · rw [(cached.held held).1]
    exact (cached.held held).2
  · rw [current]
    exact inv.fs.layout.owned
  · rw [current]
    exact inv.fs.layout.inode_lt
  · rw [inv.refs k]
    have := holders_file small points
    omega

/-- **A descriptor changes only its own inode.** The calls through a file `f` change the
size and the contents of an inode only if `f` is open for writing on the inode. The calls
through a pipe change neither inodes nor blocks. -/
theorem descriptor_changes_own_inode (cfg : Config) (s t : Kernel) (intact : Intact cfg s)
    (idle : s.outstanding = 0) (f : ℕ) (small : f < NFILE) (trace : List Step)
    (run : RunOf (fun u call => Uses f u call ∧ TrimsOwn f u call) cfg s trace t) :
    (∀ i, (s.inodeNow i).type ≠ .free → t.bytes i ≠ s.bytes i → Owns s f i) ∧
      (∀ i, t.dinode i ≠ s.dinode i ∨ t.inodeNow i ≠ s.inodeNow i → Owns s f i) ∧
      ((s.ftable f).type = .pipe →
        t.icache = s.icache ∧ t.dinode = s.dinode ∧ t.data = s.data ∧ t.bitmap = s.bitmap) := by
  have through : Through cfg f 0 s s := ⟨intact, .refl f s, idle⟩
  have confined := (through.run small run).confined
  refine ⟨fun i live changed => ?_, fun i changed => ?_, confined.pipe⟩
  · by_contra other
    exact changed (confined.bytes i other live)
  · by_contra other
    obtain ⟨disk, now⟩ := confined.inodes i other
    exact changed.elim (fun changed => changed disk) fun changed => changed now

/-! ## Runs on a small image -/

namespace SmallImage

/-- An image whose root directory holds a file `x` with three bytes. -/
def fullFile : List Seed :=
  [.dir 1 0 0o755 [(1, dot), (1, dotdot), (2, [120])], ⟨.file, 1, 0, 0o644, [7, 8, 9]⟩]

theorem fullFile_formed : (imageOf fullFile).WellFormed SmallImage.cfg :=
  (show Formed fullFile by decide).wellFormed rfl

instance (f : ℕ) (s : Kernel) : (call : Call) → Decidable (Uses f s call)
  | .read fd _ | .write fd _ | .lseek fd _ _ | .trim fd | .fstat fd =>
    inferInstanceAs (Decidable (fileOf s fd = some f))
  | .fork .. | .exit | .wait | .pipe _ | .kill _ | .exec .. | .chdir _ | .dup _ | .getpid
  | .open .. | .mknod .. | .unlink _ | .link .. | .mkdir _ | .close _ | .getuid | .geteuid
  | .setuid _ | .chmod .. | .chown .. | .setgrps .. | .invalid | .other =>
    inferInstanceAs (Decidable False)

instance (f : ℕ) (s : Kernel) : (call : Call) → Decidable (TrimsOwn f s call)
  | .trim _ => inferInstanceAs (Decidable (_ ∧ _))
  | .read .. | .write .. | .lseek .. | .fstat _ | .fork .. | .exit | .wait | .pipe _ | .kill _
  | .exec .. | .chdir _ | .dup _ | .getpid | .open .. | .mknod .. | .unlink _ | .link .. | .mkdir _
  | .close _ | .getuid | .geteuid | .setuid _ | .chmod .. | .chown .. | .setgrps .. | .invalid
  | .other => inferInstanceAs (Decidable True)

/-- A state after some calls, with a check on the calls through a file after it. -/
theorem intact_of_play {image : Image} (formed : image.WellFormed cfg) {trace : List Step}
    {check : Kernel → Bool} (noTrim : ∀ taken ∈ trace, ∀ fd, taken.call ≠ .trim fd)
    (passed : (play cfg image.boot trace).any (fun s => s.outstanding == 0 && check s) = true) :
    ∃ s, Intact cfg s ∧ s.outstanding = 0 ∧ check s = true := by
  obtain ⟨s, run, checked⟩ := exists_of_play passed
  simp only [Bool.and_eq_true, beq_iff_eq] at checked
  obtain ⟨L, inv⟩ := formed.kernelInv.run (fun _ _ whole => whole) (whole_run run noTrim)
  exact ⟨s, inv.intact, checked.1, checked.2⟩

end SmallImage

open SmallImage in
/-- The first process opens `x` for reading and writing, writes a byte, and sets the size
to 600 with `trim`. The root directory does not change. -/
theorem descriptor_changes_own_inode_of_trim :
    ∃ s t, Intact SmallImage.cfg s ∧ s.outstanding = 0 ∧
      KernelRun SmallImage.cfg s
        [⟨0, .trim 0, 0⟩, ⟨0, .lseek 0 600 0, 0⟩, ⟨0, .write 0 [1], 1⟩] t ∧
      t.bytes 2 ≠ s.bytes 2 ∧ t.bytes 1 = s.bytes 1 := by
  have played : (play SmallImage.cfg (imageOf fullFile).boot [⟨0, .open [120] 0o6, 0⟩]).any
      (fun s => s.outstanding == 0 && ((s.ftable 0).ip == some 1 && (s.icache 1).inum == 2 &&
        (s.inodeNow 1).type != .free &&
        (playOf (fun u call => Uses 0 u call ∧ TrimsOwn 0 u call) SmallImage.cfg s
          [⟨0, .trim 0, 0⟩, ⟨0, .lseek 0 600 0, 0⟩, ⟨0, .write 0 [1], 1⟩]).any fun t =>
            t.bytes 2 != s.bytes 2)) = true := by decide +kernel
  obtain ⟨s, intact, idle, check⟩ := intact_of_play fullFile_formed (by simp) played
  simp only [Bool.and_eq_true, beq_iff_eq, bne_iff_ne] at check
  obtain ⟨⟨⟨points, inum⟩, live⟩, more⟩ := check
  obtain ⟨t, run, changed⟩ := exists_of_playOf more
  have only := (descriptor_changes_own_inode _ s t intact idle 0 (by decide) _ run).1
  refine ⟨s, t, intact, idle, run.mono fun _ _ _ stepped => stepped.1, bne_iff_ne.mp changed, ?_⟩
  by_contra changed
  obtain ⟨k, writes, root⟩ := only 1 live changed
  obtain rfl : 1 = k := Option.some.inj (points.symm.trans (File.inode_eq_some.mp writes.1).2)
  rw [inum] at root
  cases root

open SmallImage in
/-- Two files that do not give the right to change `x`, but `trim` does. The first is open
for reading only. The second is the read end of a pipe, in the `struct file` of a file
that was open on `x` before. -/
theorem trim_needs_no_capability :
    (∃ s t, Intact SmallImage.cfg s ∧ s.outstanding = 0 ∧
      RunOf (Uses 0) SmallImage.cfg s [⟨0, .trim 0, 0⟩] t ∧
      (s.ftable 0).type = .inode ∧ (s.ftable 0).writable = false ∧ t.bytes 2 ≠ s.bytes 2) ∧
    ∃ s t, Intact SmallImage.cfg s ∧ s.outstanding = 0 ∧
      RunOf (Uses 0) SmallImage.cfg s [⟨0, .trim 0, 0⟩] t ∧
      (s.ftable 0).type = .pipe ∧ t.bytes 2 ≠ s.bytes 2 := by
  have readOnly : (play SmallImage.cfg (imageOf fullFile).boot [⟨0, .open [120] 0o4, 0⟩]).any
      (fun s => s.outstanding == 0 && ((s.ftable 0).type == .inode && !(s.ftable 0).writable &&
        (playOf (Uses 0) SmallImage.cfg s [⟨0, .trim 0, 0⟩]).any fun t =>
          t.bytes 2 != s.bytes 2)) = true := by decide
  have stale : (play SmallImage.cfg (imageOf fullFile).boot
      [⟨0, .pipe true, 0⟩, ⟨0, .close 0, 0⟩, ⟨0, .open [120] 0o4, 1⟩, ⟨0, .open [120] 0o4, 0⟩]).any
      (fun s => s.outstanding == 0 && ((s.ftable 0).type == .pipe &&
        (playOf (Uses 0) SmallImage.cfg s [⟨0, .trim 0, 0⟩]).any fun t =>
          t.bytes 2 != s.bytes 2)) = true := by decide
  constructor
  · obtain ⟨s, intact, idle, check⟩ := intact_of_play fullFile_formed (by simp) readOnly
    simp only [Bool.and_eq_true, beq_iff_eq, Bool.not_eq_true'] at check
    obtain ⟨t, run, changed⟩ := exists_of_playOf check.2
    exact ⟨s, t, intact, idle, run, check.1.1, check.1.2, by simpa using changed⟩
  · obtain ⟨s, intact, idle, check⟩ := intact_of_play fullFile_formed (by simp) stale
    simp only [Bool.and_eq_true, beq_iff_eq] at check
    obtain ⟨t, run, changed⟩ := exists_of_playOf check.2
    exact ⟨s, t, intact, idle, run, check.1, by simpa using changed⟩

end Xv6Uac
