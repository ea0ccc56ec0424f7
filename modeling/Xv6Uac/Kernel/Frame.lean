import Xv6Uac.Kernel.Fs

/-!
# What the file system layers leave alone

The functions of `fs.c` change the state through a few kinds of update: the
header of the log, the free map and the data blocks, the bookkeeping of a cache
entry, fields of an inode other than its owner and its mode, a copy between a
cache entry and the disk, and the zeroing of an allocated inode. A property that
every such update keeps (`FsFrame`) is kept by every function of `fs.c`. An
instance is that the processes and the open files do not change
(`fsFrame_outside`). The functions that allocate, read and write blocks make only
the first four kinds of update, so for them less has to be kept (`DataFrame`), and those
that also write inodes to disk take no locks (`StoreFrame`).
-/

namespace Xv6Uac

open Words Hoare

/-- Every failure is allowed: the property is about the calls that return. -/
abbrev Keeps {α : Type} (I : Kernel → Prop) (m : K α) : Prop := Preserves (fun _ => True) I m

/-- The failures of `ilock` and `iput`: a lock that the process holds, and an inode that
is not allocated. -/
def Stop.OfLock (reason : Stop) : Prop := reason = .deadlock ∨ reason = .panic .ilockNoType

instance (reason : Stop) : Decidable reason.OfLock := inferInstanceAs (Decidable (_ ∨ _))

/-- The properties that allocating, reading and writing blocks keeps. The failures allowed
are at least those that have nothing to do with locks. -/
structure DataFrame (E : Stop → Prop) (I : Kernel → Prop) : Prop where
  fails : ∀ reason : Stop, ¬reason.OfLock → E reason
  log : ∀ s n lh, I s → I { s with outstanding := n, lh := lh }
  blocks : ∀ s bitmap data, I s → I { s with bitmap := bitmap, data := data }
  devices : ∀ s n, I s → I { s with devreads := n }
  entry : ∀ s k ip, I s → ip.d.uid = (s.icache k).d.uid → ip.d.gid = (s.icache k).d.gid →
    ip.d.mode = (s.icache k).d.mode → ip.locked = (s.icache k).locked →
    I { s with icache := Function.update s.icache k ip }

/-- The properties that are also kept when an inode is written to disk. -/
structure StoreFrame (E : Stop → Prop) (I : Kernel → Prop) : Prop extends DataFrame E I where
  store : ∀ s k i, I s → I { s with dinode := Function.update s.dinode i (s.icache k).d }
  alloc : ∀ s i type, I s →
    I { s with dinode := Function.update s.dinode i { Dinode.zero with type := type } }

/-- The properties that the updates of `fs.c` keep. -/
structure FsFrame (I : Kernel → Prop) : Prop extends StoreFrame (fun _ => True) I where
  lock : ∀ s k b, I s →
    I { s with icache := Function.update s.icache k { s.icache k with locked := b } }
  load : ∀ s k ip i, I s → ip.d = s.dinode i →
    I { s with icache := Function.update s.icache k ip }

namespace DataFrame

variable {cfg : Config} {E : Stop → Prop} {I : Kernel → Prop}

/-! ## Blocks -/

section

variable (frame : DataFrame E I)
include frame

theorem beginOp : Preserves E I beginOp := by
  refine .read fun n => .read fun outstanding => .ite (fun _ => ?_) fun _ => ?_
  · exact .fail (frame.fails _ (by decide))
  · exact .update fun s holds => frame.log s _ s.lh holds

theorem endOp : Preserves E I endOp := by
  refine .update fun s holds => ?_
  split
  · exact frame.log s _ _ holds
  · exact frame.log s _ s.lh holds

theorem logWrite (b : ℕ) : Preserves E I (logWrite cfg b) := by
  refine .read fun n => .read fun outstanding =>
    .ite (fun _ => .fail (frame.fails _ (by decide))) fun _ =>
    .ite (fun _ => .fail (frame.fails _ (by decide))) fun _ => ?_
  refine .update fun s holds => ?_
  split
  · exact holds
  · exact frame.log s s.outstanding _ holds

theorem bread (b : ℕ) : Preserves E I (bread cfg b) :=
  .ite (fun _ => .gets _) fun _ => .fail (frame.fails _ (by decide))

theorem bwrite (b : ℕ) (f : Bytes → Bytes) : Preserves E I (bwrite cfg b f) := by
  refine .ite (fun _ => .bind (.update fun s holds => ?_) fun _ => frame.logWrite b)
    fun _ => .fail (frame.fails _ (by decide))
  exact frame.blocks s s.bitmap _ holds

theorem balloc : Preserves E I (balloc cfg) := by
  refine .read fun free => ?_
  cases free with
  | none => exact .fail (frame.fails _ (by decide))
  | some b =>
    refine .bind (.update fun s holds => ?_) fun _ => .bind (frame.logWrite _) fun _ =>
      .bind (frame.bwrite _ _) fun _ => .pure _
    exact frame.blocks s _ s.data holds

theorem bfree (b : ℕ) : Preserves E I (bfree cfg b) := by
  refine .read fun used => .ite (fun _ => ?_) fun _ => .fail (frame.fails _ (by decide))
  refine .bind (.update fun s holds => ?_) fun _ => frame.logWrite _
  exact frame.blocks s _ s.data holds

/-- Bookkeeping of a cache entry. -/
theorem modifyInode (k : ℕ) {f : Inode → Inode}
    (same : ∀ ip, (f ip).d = ip.d ∧ (f ip).locked = ip.locked) : Preserves E I (modifyInode k f) :=
  .update fun s holds => frame.entry s k _ holds (by rw [(same _).1]) (by rw [(same _).1])
    (by rw [(same _).1]) (same _).2

/-- A change of an inode that leaves its owner and its mode. -/
theorem modifyDinode (k : ℕ) {f : Dinode → Dinode}
    (same : ∀ d, (f d).uid = d.uid ∧ (f d).gid = d.gid ∧ (f d).mode = d.mode) :
    Preserves E I (modifyDinode k f) :=
  .update fun s holds => frame.entry s k _ holds (same _).1 (same _).2.1 (same _).2.2 rfl

theorem iget (inum : ℕ) : Preserves E I (iget inum) := by
  refine .read fun cached => .read fun empty => ?_
  cases cached with
  | some k => exact .bind (frame.modifyInode k fun _ => ⟨rfl, rfl⟩) fun _ => .pure _
  | none =>
    cases empty with
    | none => exact .fail (frame.fails _ (by decide))
    | some k => exact .bind (frame.modifyInode k fun _ => ⟨rfl, rfl⟩) fun _ => .pure _

theorem idup (k : ℕ) : Preserves E I (idup k) :=
  .bind (frame.modifyInode k fun _ => ⟨rfl, rfl⟩) fun _ => .pure _

theorem bmap (k bn : ℕ) : Preserves E I (bmap cfg k bn) := by
  refine .read fun ip => .ite (fun _ => .ite (fun _ => ?_) fun _ => .pure _) fun _ =>
    .ite (fun _ => ?_) fun _ => .fail (frame.fails _ (by decide))
  · exact .bind frame.balloc fun _ =>
      .bind (frame.modifyDinode k fun _ => ⟨rfl, rfl, rfl⟩) fun _ => .pure _
  · refine .bind (.when fun _ => .bind frame.balloc fun _ =>
      frame.modifyDinode k fun _ => ⟨rfl, rfl, rfl⟩) fun _ => ?_
    refine .read fun ip => .bind (frame.bread _) fun a =>
      .ite (fun _ => ?_) fun _ => .pure _
    exact .bind frame.balloc fun _ => .bind (frame.bwrite _ _) fun _ => .pure _

theorem readLoop (k fuel off n : ℕ) : Preserves E I (readLoop cfg k fuel off n) := by
  induction fuel generalizing off n with
  | zero => exact .pure _
  | succ fuel ih =>
    refine .early fun _ => ?_
    exact .bind (frame.bmap k _) fun _ => .bind (frame.bread _) fun _ =>
      .bind (ih _ _) fun _ => .pure _

theorem readi (k off n : ℕ) : Preserves E I (readi cfg k off n) := by
  refine .read fun ip => .ite (fun _ => ?_) fun _ => .early fun _ => ?_
  · split
    · exact .pure _
    · exact .read fun _ =>
        .bind (.update fun s holds => frame.devices s _ holds) fun _ => .pure _
  · exact .bind (frame.readLoop k _ _ _) fun _ => .pure _

theorem writeLoop (k fuel off : ℕ) (src : List UInt8) :
    Preserves E I (writeLoop cfg k fuel off src) := by
  induction fuel generalizing off src with
  | zero => exact .pure _
  | succ fuel ih =>
    refine .early fun _ => ?_
    exact .bind (frame.bmap k _) fun _ => .bind (frame.bwrite _ _) fun _ => ih _ _

theorem readDirent (k off : ℕ) : Preserves E I (readDirent cfg k off) :=
  .bind (frame.readi k off _) fun _ => .pure _

/-- A round of a loop over the entries of a directory. -/
theorem scan {α : Type} (k off : ℕ) {reason : Panic} {next : Dirent → K α}
    (allowed : ¬(Stop.panic reason).OfLock) (rest : ∀ de, Preserves E I (next de)) :
    Preserves E I (do
      let found ← Xv6Uac.readDirent cfg k off
      match found with
      | none => panic reason
      | some de => next de) := by
  refine .bind (frame.readDirent k off) fun found => ?_
  cases found with
  | none => exact .fail (frame.fails _ allowed)
  | some de => exact rest de

end

end DataFrame

namespace StoreFrame

variable {cfg : Config} {E : Stop → Prop} {I : Kernel → Prop}

variable (frame : StoreFrame E I)
include frame

theorem ialloc (type : InodeType) : Preserves E I (ialloc cfg type) := by
  refine .read fun free => ?_
  cases free with
  | none => exact .fail (frame.fails _ (by decide))
  | some i =>
    refine .bind (.update fun s holds => frame.alloc s i type holds) fun _ =>
      .bind (frame.logWrite _) fun _ => frame.iget i

theorem iupdate (k : ℕ) : Preserves E I (iupdate cfg k) := by
  intro s holds
  have stored := frame.store s k (s.icache k).inum holds
  exact frame.logWrite (cfg.sb.iblock (s.icache k).inum) _ stored

theorem itrunc (k : ℕ) : Preserves E I (itrunc cfg k) := by
  have direct : Preserves E I (upto NDIRECT (itruncDirect cfg k)) := by
    apply Preserves.upto
    intro i
    refine .read fun ip => .when fun _ => ?_
    exact .bind (frame.bfree _) fun _ => frame.modifyDinode k fun _ => ⟨rfl, rfl, rfl⟩
  have indirect : ∀ a, Preserves E I (upto NINDIRECT (itruncIndirect cfg a)) := by
    intro a
    apply Preserves.upto
    intro j
    exact .when fun _ => frame.bfree _
  refine .bind direct fun _ => .read fun ip => .bind (.when fun _ => ?_) fun _ =>
    .bind (frame.modifyDinode k fun _ => ⟨rfl, rfl, rfl⟩) fun _ => frame.iupdate k
  exact .bind (frame.bread _) fun a => .bind (indirect a) fun _ => .bind (frame.bfree _) fun _ =>
    frame.modifyDinode k fun _ => ⟨rfl, rfl, rfl⟩

theorem ifree (k : ℕ) : Preserves E I (ifree cfg k) :=
  .bind (frame.itrunc k) fun _ => .bind (frame.modifyDinode k fun _ => ⟨rfl, rfl, rfl⟩) fun _ =>
    .bind (frame.iupdate k) fun _ => frame.modifyInode k fun _ => ⟨rfl, rfl⟩

theorem writei (k : ℕ) (src : List UInt8) (off : ℕ) : Preserves E I (writei cfg k src off) := by
  refine .read fun ip => .ite (fun _ => ?_) fun _ => .early fun _ =>
    .early fun _ => ?_
  · split
    · exact .pure _
    · exact .pure _
  · refine .bind (frame.writeLoop k _ _ _) fun last => .read fun _ =>
      .bind (.when fun _ => ?_) fun _ => .pure _
    exact .bind (frame.modifyDinode k fun _ => ⟨rfl, rfl, rfl⟩) fun _ => frame.iupdate k

theorem dirlookup (k : ℕ) (name : List UInt8) : Preserves E I (dirlookup cfg k name) := by
  have loop : ∀ fuel off, Preserves E I (dirlookupLoop cfg k name fuel off) := by
    intro fuel
    induction fuel with
    | zero => exact fun _ => .pure _
    | succ fuel ih =>
      intro off
      refine .read fun dp => .ite (fun _ => ?_) fun _ => .pure _
      exact frame.scan k off (by decide) fun _ =>
        .ite (fun _ => .bind (frame.iget _) fun _ => .pure _) fun _ => ih _
  exact .read fun _ => .read fun _ =>
    .ite (fun _ => .fail (frame.fails _ (by decide))) fun _ =>
    .early fun _ => loop _ _

/-- The part of `dirlink` for a name that is not found. -/
theorem dirlinkWrite (k : ℕ) (bytes : List UInt8) :
    Preserves E I (do
      let dp ← inode k
      let off ← dirlinkLoop cfg k dp.d.size 0
      let r ← Xv6Uac.writei cfg k bytes off
      if r ≠ DIRENT then panic .dirlink else pure 0 : K ℤ) := by
  have loop : ∀ fuel off, Preserves E I (dirlinkLoop cfg k fuel off) := by
    intro fuel
    induction fuel with
    | zero => exact fun _ => .pure _
    | succ fuel ih =>
      intro off
      refine .read fun dp => .ite (fun _ => ?_) fun _ => .pure _
      exact frame.scan k off (by decide) fun _ => .early fun _ => ih _
  exact .read fun _ => .bind (loop _ _) fun _ => .bind (frame.writei _ _ _) fun _ =>
    .ite (fun _ => .fail (frame.fails _ (by decide))) fun _ => .pure _

end StoreFrame

namespace FsFrame

variable {cfg : Config} {I : Kernel → Prop}

/-! ## Locks -/

section

variable (frame : FsFrame I)
include frame

theorem acquiresleep (k : ℕ) : Keeps I (acquiresleep k) :=
  .read fun _ =>
    .ite (fun _ => .fail trivial) fun _ => .update fun s holds => frame.lock s k _ holds

theorem release (k : ℕ) : Keeps I (modifyInode k fun ip => { ip with locked := false }) :=
  .update fun s holds => frame.lock s k _ holds

theorem iunlock (k : ℕ) : Keeps I (iunlock k) :=
  .read fun _ => .ite (fun _ => .fail trivial) fun _ => frame.release k

theorem loadInode (k : ℕ) : Keeps I (loadInode cfg k) := by
  refine .read fun ip => .ite (fun _ => ?_) fun _ => .fail trivial
  intro s holds
  have loaded : I { s with
      icache := Function.update s.icache k
        { s.icache k with d := s.dinode ip.inum, valid := true } } :=
    frame.load s k _ ip.inum holds rfl
  exact Preserves.when (fun _ => .fail trivial) _ loaded

theorem ilock (k : ℕ) : Keeps I (ilock cfg k) :=
  .read fun _ => .ite (fun _ => .fail trivial) fun _ =>
    .bind (frame.acquiresleep k) fun _ => .when fun _ => frame.loadInode k

theorem iput (k : ℕ) : Keeps I (iput cfg k) :=
  .bind (frame.acquiresleep k) fun _ => .read fun _ =>
    .bind (.when fun _ => frame.ifree k) fun _ => .bind (frame.release k) fun _ =>
      frame.modifyInode k fun _ => ⟨rfl, rfl⟩

theorem iunlockput (k : ℕ) : Keeps I (iunlockput cfg k) :=
  .bind (frame.iunlock k) fun _ => frame.iput k

end

/-! ## Contents, directories and paths -/

theorem dirlink (frame : FsFrame I) (k : ℕ) (name : List UInt8) (inum : ℕ) :
    Keeps I (dirlink cfg k name inum) := by
  refine .bind (frame.dirlookup k name) fun found => ?_
  cases found with
  | some pair => exact .bind (frame.iput _) fun _ => .pure _
  | none => exact frame.dirlinkWrite k _

theorem namex (frame : FsFrame I) (path : List UInt8) (nameiparent : Bool) :
    Keeps I (namex cfg path nameiparent) := by
  have loop : ∀ elems ip name, Keeps I (namexLoop cfg nameiparent ip name elems) := by
    intro elems
    induction elems with
    | nil =>
      exact fun ip name => .ite (fun _ => .bind (frame.iput ip) fun _ => .pure _) fun _ => .pure _
    | cons elem rest ih =>
      intro ip name
      refine .bind (frame.ilock ip) fun _ => .read fun i => .ite
        (fun _ => .bind (frame.iunlockput ip) fun _ => .pure _) fun _ => .ite
        (fun _ => .bind (frame.iunlock ip) fun _ => .pure _) fun _ => ?_
      refine .bind (frame.dirlookup ip elem) fun next => .bind (frame.iunlockput ip) fun _ => ?_
      cases next with
      | none => exact .pure _
      | some pair => exact ih _ _
  have start : Keeps I (namexStart path) := by
    refine .ite (fun _ => frame.iget _) fun _ => .read fun p => ?_
    split
    · exact .fail trivial
    · exact frame.idup _
  exact .bind start fun ip => loop _ ip []

theorem namei (frame : FsFrame I) (path : List UInt8) : Keeps I (namei cfg path) :=
  .bind (frame.namex path false) fun _ => .pure _

theorem nameiparent (frame : FsFrame I) (path : List UInt8) : Keeps I (nameiparent cfg path) :=
  frame.namex path true

end FsFrame

/-! ## Instances -/

/-- The processes and the open files are those of `s`. -/
structure Outside (s t : Kernel) : Prop where
  proc : t.proc = s.proc
  cur : t.cur = s.cur
  ftable : t.ftable = s.ftable

theorem Outside.refl (s : Kernel) : Outside s s := ⟨rfl, rfl, rfl⟩

theorem Outside.trans {s t u : Kernel} (first : Outside s t) (second : Outside t u) :
    Outside s u :=
  ⟨second.proc.trans first.proc, second.cur.trans first.cur, second.ftable.trans first.ftable⟩

theorem Outside.myproc {s t : Kernel} (outside : Outside s t) : t.myproc = s.myproc := by
  rw [Kernel.myproc, Kernel.myproc, outside.proc, outside.cur]

/-- Properties of the processes, the open files and the pipes. -/
theorem FsFrame.of_outside {I : Kernel → Prop} (keeps : ∀ {s t : Kernel}, I s → Outside s t →
    t.pipes = s.pipes → t.npipe = s.npipe → I t) : FsFrame I where
  fails _ _ := trivial
  log _ _ _ holds := keeps holds ⟨rfl, rfl, rfl⟩ rfl rfl
  blocks _ _ _ holds := keeps holds ⟨rfl, rfl, rfl⟩ rfl rfl
  devices _ _ holds := keeps holds ⟨rfl, rfl, rfl⟩ rfl rfl
  entry _ _ _ holds _ _ _ _ := keeps holds ⟨rfl, rfl, rfl⟩ rfl rfl
  lock _ _ _ holds := keeps holds ⟨rfl, rfl, rfl⟩ rfl rfl
  load _ _ _ _ holds _ := keeps holds ⟨rfl, rfl, rfl⟩ rfl rfl
  store _ _ _ holds := keeps holds ⟨rfl, rfl, rfl⟩ rfl rfl
  alloc _ _ _ holds := keeps holds ⟨rfl, rfl, rfl⟩ rfl rfl

/-- `fs.c` changes neither the processes nor the open files. -/
theorem fsFrame_outside (s : Kernel) : FsFrame (Outside s) :=
  .of_outside fun before outside _ _ => before.trans outside

end Xv6Uac
