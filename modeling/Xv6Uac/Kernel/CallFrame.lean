import Xv6Uac.Kernel.Frame
import Xv6Uac.Kernel.Syscall

/-!
# What the system calls leave alone

`PathFrame` adds to the updates of `fs.c` those of the calls that make and remove
entries of directories, and `CallFrame` those of `file.c`, `sysfile.c` and `proc.c` that
leave the credentials of processes alone and that set no set-uid bit. A property that they keep as well is kept by every call except `fork`,
`exec`, `setuid`, `chmod` and `chown` (`CallFrame.dispatch`).
-/

namespace Xv6Uac

open Words Hoare

variable {E : Stop → Prop} {I : Kernel → Prop}

/-- Loading an image only reads the inode. -/
theorem execLoad_preserves {cfg : Config} {k : ℕ}
    (readi : ∀ off n, Preserves E I (readi cfg k off n)) (vm : Vm) :
    Preserves E I (execLoad cfg vm k) := by
  have segment : ∀ fuel off sz, Preserves E I (loaduvmLoop cfg k off fuel sz) := by
    intro fuel
    induction fuel with
    | zero => exact fun _ _ => .pure _
    | succ fuel ih =>
      exact fun off sz => .early fun _ => .bind (readi _ _) fun _ =>
        .early fun _ => ih _ _
  have segments : ∀ n off sz, Preserves E I (loadLoop cfg vm k n off sz) := by
    intro n
    induction n with
    | zero => exact fun _ _ => .pure _
    | succ n ih =>
      exact fun off sz => .bind (readi _ _) fun _ => .early fun _ =>
        .ite (fun _ => ih _ _) fun _ => .early fun _ =>
        .early fun _ => .early fun _ =>
        .early fun _ => .bind (segment _ _ _) fun _ =>
        .ite (fun _ => ih _ _) fun _ => .pure _
  exact .read fun _ => .read fun _ => .early fun _ =>
    .bind (readi _ _) fun _ => .early fun _ =>
      .bind (segments _ _ _) fun _ => .pure _

/-- Whether a directory is empty is read from it. -/
theorem DataFrame.isdirempty {cfg : Config} (frame : DataFrame E I) (k : ℕ) :
    Preserves E I (isdirempty cfg k) := by
  have loop : ∀ fuel off, Preserves E I (isdiremptyLoop cfg k fuel off) := by
    intro fuel
    induction fuel with
    | zero => exact fun _ => .pure _
    | succ fuel ih =>
      intro off
      refine .read fun _ => .ite (fun _ => ?_) fun _ => .pure _
      exact frame.scan k off (by decide) fun _ => .early fun _ => ih _
  exact .read fun _ => loop _ _

/-- The properties that are also kept when a fresh inode without set-uid bit is filled in. -/
structure PathFrame (I : Kernel → Prop) : Prop extends FsFrame I where
  fresh : ∀ s k ip, I s → ip.d.mode.getLsbD 9 = false →
    I { s with icache := Function.update s.icache k ip }

namespace PathFrame

variable {cfg : Config} {I : Kernel → Prop}

/-! ## Directories -/

section

variable (frame : PathFrame I)
include frame

/-- The exits that put an inode, end the operation and return. -/
theorem putAndEnd (k : ℕ) (r : ℤ) : Keeps I (do iunlockput cfg k; endOp; pure r) :=
  .bind (frame.iunlockput k) fun _ => .bind frame.endOp fun _ => .pure _

theorem endWith (r : ℤ) : Keeps I (do endOp; pure r) :=
  .bind frame.endOp fun _ => .pure _

/-- A call on a path ends with -1 if the path names nothing. -/
theorem withPath {m : ℕ → K ℤ} (path : List UInt8) (each : ∀ k, Keeps I (m k)) :
    Keeps I (do
      let found ← Xv6Uac.namei cfg path
      match found with
      | none => do
        endOp
        pure (-1)
      | some k => m k) := by
  refine .bind (frame.namei path) fun found => ?_
  cases found with
  | none => exact frame.endWith _
  | some k => exact each k

theorem sysLink (old new : List UInt8) : Keeps I (sysLink cfg old new) := by
  have bad : ∀ ip, Keeps I (linkBad cfg ip) := fun ip =>
    .bind (frame.ilock ip) fun _ => .bind (frame.modifyDinode ip fun _ => ⟨rfl, rfl, rfl⟩) fun _ =>
      .bind (frame.iupdate ip) fun _ => frame.putAndEnd ip _
  have into : ∀ ip, Keeps I (linkInto cfg ip new) := by
    intro ip
    refine .bind (frame.nameiparent new) fun parent => ?_
    match parent with
    | none => exact bad ip
    | some (dp, name) =>
      exact .bind (frame.ilock dp) fun _ => .read fun _ =>
        .bind (frame.dirlink dp name _) fun _ => .bind (frame.iunlockput dp) fun _ =>
          .ite (fun _ => bad ip) fun _ => .bind (frame.iput ip) fun _ => frame.endWith _
  refine .bind frame.beginOp fun _ => frame.withPath old fun ip => ?_
  exact .bind (frame.ilock ip) fun _ => .read fun _ =>
    .ite (fun _ => frame.putAndEnd ip _) fun _ =>
      .bind (frame.modifyDinode ip fun _ => ⟨rfl, rfl, rfl⟩) fun _ => .bind (frame.iupdate ip) fun _ =>
        .bind (frame.iunlock ip) fun _ => into ip

theorem sysUnlink (path : List UInt8) : Keeps I (sysUnlink cfg path) := by
  have entry : ∀ dp ip off, Keeps I (unlinkEntry cfg dp ip off) := fun dp ip off =>
    .bind (frame.writei dp _ off) fun _ => .ite (fun _ => .fail trivial) fun _ =>
      .read fun _ => .bind (.when fun _ =>
        .bind (frame.modifyDinode dp fun _ => ⟨rfl, rfl, rfl⟩) fun _ => frame.iupdate dp) fun _ =>
      .bind (frame.iunlockput dp) fun _ =>
      .bind (frame.modifyDinode ip fun _ => ⟨rfl, rfl, rfl⟩) fun _ => .bind (frame.iupdate ip) fun _ =>
        frame.putAndEnd ip _
  have found : ∀ dp ip off, Keeps I (unlinkFound cfg dp ip off) := fun dp ip off =>
    .bind (frame.ilock ip) fun _ => .read fun _ => .ite (fun _ => .fail trivial) fun _ =>
      .ite (fun _ => .bind (frame.isdirempty ip) fun _ => .ite (fun _ => entry dp ip off)
        fun _ => .bind (frame.iunlockput ip) fun _ => frame.putAndEnd dp _)
      fun _ => entry dp ip off
  refine .bind frame.beginOp fun _ => .bind (frame.nameiparent path) fun parent => ?_
  match parent with
  | none => exact frame.endWith _
  | some (dp, name) =>
    refine .bind (frame.ilock dp) fun _ => .ite (fun _ => frame.putAndEnd dp _) fun _ =>
      .bind (frame.dirlookup dp name) fun entry => ?_
    match entry with
    | none => exact frame.putAndEnd dp _
    | some (ip, off) => exact found dp ip off

/-- A field update of a cache entry that clears the set-uid bit. -/
theorem modifyFresh (k : ℕ) {f : Dinode → Dinode} (clear : ∀ d, (f d).mode.getLsbD 9 = false) :
    Keeps I (modifyDinode k f) :=
  .update fun s holds => frame.fresh s k _ holds (clear _)

theorem create (path : List UInt8) (type : InodeType) (major minor : ℤ) :
    Keeps I (create cfg path type major minor) := by
  have inode : ∀ ip, Keeps I (createInode cfg ip major minor) := fun ip =>
    .read fun _ => .bind (frame.ilock ip) fun _ =>
      .bind (frame.modifyFresh ip fun _ => (by decide : (0o644 : BitVec 16).getLsbD 9 = false))
        fun _ => frame.iupdate ip
  have dots : ∀ dp ip, Keeps I (createDots cfg dp ip) := fun dp ip =>
    .bind (frame.modifyDinode dp fun _ => ⟨rfl, rfl, rfl⟩) fun _ =>
      .bind (frame.modifyFresh ip fun _ => (by decide : (0o755 : BitVec 16).getLsbD 9 = false))
        fun _ => .bind (frame.iupdate dp) fun _ =>
      .read fun _ => .bind (frame.dirlink ip dot _) fun _ =>
      .ite (fun _ => .fail trivial) fun _ => .read fun _ =>
        .bind (frame.dirlink ip dotdot _) fun _ => .when fun _ => .fail trivial
  have new : ∀ dp name, Keeps I (createNew cfg dp name type major minor) := fun dp name =>
    .bind (frame.ialloc type) fun ip => .bind (inode ip) fun _ =>
      .bind (.when fun _ => dots dp ip) fun _ => .read fun _ =>
      .bind (frame.dirlink dp name _) fun _ => .ite (fun _ => .fail trivial) fun _ =>
        .bind (frame.iunlockput dp) fun _ => .pure _
  refine .bind (frame.nameiparent path) fun parent => ?_
  match parent with
  | none => exact .pure _
  | some (dp, name) =>
    refine .bind (frame.ilock dp) fun _ => .bind (frame.dirlookup dp name) fun found => ?_
    match found with
    | none => exact new dp name
    | some (ip, off) =>
      exact .bind (frame.iunlockput dp) fun _ => .bind (frame.ilock ip) fun _ =>
        .read fun _ => .early fun _ =>
          .bind (frame.iunlockput ip) fun _ => .pure _

theorem createAndPut (path : List UInt8) (type : InodeType) (major minor : ℤ) :
    Keeps I (createAndPut cfg path type major minor) := by
  refine .bind frame.beginOp fun _ => .bind (frame.create path type major minor) fun created => ?_
  cases created with
  | none => exact frame.endWith _
  | some ip => exact frame.putAndEnd ip _

end

end PathFrame

/-- Two files that differ in what reading and writing changes. -/
def SameFile (a b : File) : Prop :=
  a.type = b.type ∧ a.ref = b.ref ∧ a.pipe = b.pipe ∧ a.writable = b.writable

theorem SameFile.rfl {a : File} : SameFile a a := ⟨Eq.refl _, Eq.refl _, Eq.refl _, Eq.refl _⟩

/-- Whether an end of a pipe is open: the write end for true. -/
def Pipe.isOpen (pipe : Pipe) : Bool → Bool
  | true => pipe.writeopen
  | false => pipe.readopen

/-- The properties that are kept when bytes go through a file or a pipe. -/
structure TouchFrame (E : Stop → Prop) (I : Kernel → Prop) : Prop where
  fails : ∀ reason, ¬reason.OfLock → E reason
  touch : ∀ s ftable pipes, I s → (∀ f, SameFile (ftable f) (s.ftable f)) →
    (∀ q w, (pipes q).isOpen w = (s.pipes q).isOpen w) →
    I { s with ftable := ftable, pipes := pipes }

/-- A call on a descriptor returns -1 if the descriptor is not open. -/
theorem withFile_preserves {m : ℕ → K ℤ} (fd : ℤ) (each : ∀ f, Preserves E I (m f)) :
    Preserves E I (do
      let file ← argfd fd
      match file with
      | none => pure (-1)
      | some f => m f) := by
  refine .bind (.read fun _ => .pure _) fun file => ?_
  cases file with
  | none => exact .pure _
  | some f => exact each f

namespace TouchFrame

variable {E : Stop → Prop} {I : Kernel → Prop}

variable (frame : TouchFrame E I)
include frame

theorem touchFile (f : ℕ) {change : File → File} (same : ∀ file, SameFile (change file) file) :
    Preserves E I (modifyFile f change) := by
  refine .update fun s holds => frame.touch s _ s.pipes holds (fun g => ?_) fun _ _ => rfl
  obtain rfl | other := eq_or_ne g f
  · rw [Function.update_self]
    exact same _
  · rw [Function.update_of_ne other]
    exact .rfl

/-- Bytes are put into a pipe or taken out. -/
theorem touchPipe {s : Kernel} {p : ℕ} {pipe : Pipe} (holds : I s)
    (readopen : pipe.readopen = (s.pipes p).readopen)
    (writeopen : pipe.writeopen = (s.pipes p).writeopen) :
    I { s with pipes := Function.update s.pipes p pipe } := by
  refine frame.touch s s.ftable _ holds (fun _ => .rfl) fun q w => ?_
  obtain rfl | other := eq_or_ne q p
  · rw [Function.update_self]
    cases w
    · exact readopen
    · exact writeopen
  · rw [Function.update_of_ne other]

theorem pipewriteLoop (p : ℕ) (src : List UInt8) : Preserves E I (pipewriteLoop p src) := by
  induction src with
  | nil => exact .pure _
  | cons c rest ih =>
    intro s holds
    refine wp.ite (fun _ => ?_) fun _ => ?_
    · exact wp.ite (fun _ => holds) fun _ => frame.fails _ (by decide)
    · exact ih _ (frame.touchPipe holds rfl rfl)

theorem piperead (p n : ℕ) : Preserves E I (piperead p n) := by
  intro s holds
  refine wp.ite (fun _ => ?_) fun _ => ?_
  · exact wp.ite (fun _ => holds) fun _ => frame.fails _ (by decide)
  · exact frame.touchPipe holds rfl rfl

theorem sysLseek (fd offset whence : ℤ) : Preserves E I (sysLseek fd offset whence) := by
  refine withFile_preserves fd fun f => .read fun file => .ite
    (fun _ => .bind (frame.touchFile f fun _ => .rfl) fun _ => .pure _) fun _ => .ite
    (fun _ => .bind (frame.touchFile f fun _ => .rfl) fun _ => .pure _) fun _ => .ite
    (fun _ => ?_) fun _ => .pure _
  split
  · exact .fail (frame.fails _ (by decide))
  · exact .read fun _ => .bind (frame.touchFile f fun _ => .rfl) fun _ => .pure _

end TouchFrame

/-- The properties that are also kept when files are read and written. -/
structure FileFrame (I : Kernel → Prop) : Prop extends PathFrame I where
  touch : ∀ s ftable pipes, I s → (∀ f, SameFile (ftable f) (s.ftable f)) →
    (∀ q w, (pipes q).isOpen w = (s.pipes q).isOpen w) →
    I { s with ftable := ftable, pipes := pipes }

namespace FileFrame

variable {cfg : Config} {I : Kernel → Prop}

variable (frame : FileFrame I)
include frame

theorem touches : TouchFrame (fun _ => True) I :=
  ⟨fun _ _ => trivial, frame.touch⟩

theorem fileread (f n : ℕ) : Keeps I (fileread cfg f n) := by
  refine .read fun file => .early fun _ => ?_
  split
  · exact frame.touches.piperead _ _
  · exact .bind (frame.ilock _) fun _ => .bind (frame.readi _ _ _) fun _ =>
      .bind (.when fun _ => frame.touches.touchFile f fun _ => .rfl) fun _ => .bind (frame.iunlock _) fun _ => .pure _
  · exact .fail trivial
  · exact .fail trivial
  · exact .fail trivial

theorem filewrite (f : ℕ) (src : List UInt8) : Keeps I (filewrite cfg f src) := by
  have round : ∀ k part, Keeps I (filewriteRound cfg f k part) := fun k part =>
    .bind frame.beginOp fun _ => .bind (frame.ilock k) fun _ => .read fun _ =>
      .bind (frame.writei k part _) fun _ => .bind (.when fun _ => frame.touches.touchFile f fun _ => .rfl) fun _ =>
        .bind (frame.iunlock k) fun _ => .bind frame.endOp fun _ => .pure _
  have loop : ∀ fuel k part, Keeps I (filewriteLoop cfg f k fuel part) := by
    intro fuel k
    induction fuel with
    | zero => exact fun _ => .pure _
    | succ fuel ih =>
      exact fun part => .early fun _ => .bind (round k _) fun _ =>
        .early fun _ => .ite (fun _ => .fail trivial) fun _ => ih _
  refine .read fun file => .early fun _ => ?_
  split
  · exact .bind (frame.touches.pipewriteLoop _ _) fun _ => .pure _
  · exact .bind (loop _ _ _) fun _ => .pure _
  · exact .early fun _ => .fail trivial
  · exact .fail trivial
  · exact .fail trivial

theorem filestat (f : ℕ) : Keeps I (filestat cfg f) := by
  refine .read fun file => ?_
  split
  · exact .bind (frame.ilock _) fun _ => .read fun _ => .bind (frame.iunlock _) fun _ =>
      .pure _
  · exact .fail trivial
  · exact .pure _

theorem sysTrim (fd : ℤ) : Keeps I (sysTrim cfg fd) := by
  refine withFile_preserves fd fun f => .read fun file => .bind frame.beginOp fun _ => ?_
  split
  · exact .fail trivial
  · exact .bind (frame.ilock _) fun _ => .bind (frame.modifyDinode _ fun _ => ⟨rfl, rfl, rfl⟩) fun _ =>
      .bind (frame.iupdate _) fun _ => .bind (frame.iunlock _) fun _ => .bind frame.endOp fun _ =>
        .pure _

end FileFrame

/-- The properties that are kept when the tables of files, pipes and processes change and
the users of the processes stay. -/
structure TableFrame (E : Stop → Prop) (I : Kernel → Prop) : Prop where
  fails : ∀ reason, ¬reason.OfLock → E reason
  files : ∀ s ftable pipes npipe, I s →
    I { s with ftable := ftable, pipes := pipes, npipe := npipe }
  procs : ∀ s proc nextpid, I s →
    (∀ q, (proc q).uid = (s.proc q).uid ∧ (proc q).euid = (s.proc q).euid) →
    I { s with proc := proc, nextpid := nextpid }

namespace TableFrame

variable {E : Stop → Prop} {I : Kernel → Prop}

variable (frame : TableFrame E I)
include frame

theorem touches : TouchFrame E I :=
  ⟨frame.fails, fun s _ _ holds _ _ => frame.files s _ _ s.npipe holds⟩

theorem modifyFile (f : ℕ) (change : File → File) : Preserves E I (modifyFile f change) :=
  .update fun s holds => frame.files s _ s.pipes s.npipe holds

/-- A change of a process that leaves its users. -/
theorem modifyProc (p : ℕ) {change : Proc → Proc}
    (same : ∀ proc, (change proc).uid = proc.uid ∧ (change proc).euid = proc.euid) :
    Preserves E I (modifyProc p change) := by
  refine .update fun s holds => frame.procs s _ s.nextpid holds fun q => ?_
  obtain rfl | other := eq_or_ne q p
  · simpa using same (s.proc q)
  · simp [other]

theorem modifyMyproc {change : Proc → Proc}
    (same : ∀ proc, (change proc).uid = proc.uid ∧ (change proc).euid = proc.euid) :
    Preserves E I (modifyMyproc change) := fun s holds => frame.modifyProc s.cur same s holds

theorem filealloc : Preserves E I filealloc := by
  refine .read fun free => ?_
  cases free with
  | none => exact .pure _
  | some f => exact .bind (frame.modifyFile f _) fun _ => .pure _

theorem filedup (f : ℕ) : Preserves E I (filedup f) :=
  .read fun _ => .ite (fun _ => .fail (frame.fails _ (by decide))) fun _ =>
    frame.modifyFile f _

theorem fdalloc (f : ℕ) : Preserves E I (fdalloc f) := by
  refine .read fun p => ?_
  split
  · exact .pure _
  · exact .bind (frame.modifyMyproc fun _ => ⟨rfl, rfl⟩) fun _ => .pure _

theorem sysDup (fd : ℤ) : Preserves E I (sysDup fd) := by
  refine withFile_preserves fd fun f => .bind (frame.fdalloc f) fun new => ?_
  cases new with
  | none => exact .pure _
  | some _ => exact .bind (frame.filedup f) fun _ => .pure _

theorem allocproc (kalloc : Bool) : Preserves E I (allocproc kalloc) := by
  refine .read fun free => ?_
  cases free with
  | none => exact .pure _
  | some p =>
    refine .read fun pid => .bind (.update fun s holds => ?_) fun _ => .ite
      (fun _ => .bind (frame.modifyProc p fun _ => ⟨rfl, rfl⟩) fun _ => .pure _)
      fun _ => .bind (frame.modifyProc p fun _ => ⟨rfl, rfl⟩) fun _ => .pure _
    exact frame.procs s s.proc _ holds fun _ => ⟨rfl, rfl⟩

/-- The rest of `fork` after the users of the new process are set. -/
theorem forkRest (idup : ∀ k, Preserves E I (idup k)) (np : ℕ) (cwd : Option ℕ) :
    Preserves E I (do
      upto NOFILE (forkFiles np)
      match cwd with
      | none => fail .fault
      | some k => do
        let k ← Xv6Uac.idup k
        Xv6Uac.modifyProc np fun proc => { proc with cwd := some k, state := .runnable }
        let proc ← gets fun s => s.proc np
        pure proc.pid) := by
  have files : Preserves E I (upto NOFILE (forkFiles np)) := by
    apply Preserves.upto
    intro fd
    refine .read fun p => ?_
    split
    · exact .pure _
    · exact .bind (frame.filedup _) fun _ => frame.modifyProc np fun _ => ⟨rfl, rfl⟩
  refine .bind files fun _ => ?_
  cases cwd with
  | none => exact .fail (frame.fails _ (by decide))
  | some k =>
    exact .bind (idup k) fun _ => .bind (frame.modifyProc np fun _ => ⟨rfl, rfl⟩) fun _ =>
      .read fun _ => .pure _

theorem sysWait : Preserves E I sysWait := by
  refine .read fun _ => .read fun _ => .read fun dead =>
    .read fun kid => ?_
  cases dead with
  | some q =>
    exact .read fun _ => .bind (frame.modifyProc q fun _ => ⟨rfl, rfl⟩) fun _ => .pure _
  | none => exact .early fun _ => .fail (frame.fails _ (by decide))

theorem sysKill (pid : ℤ) : Preserves E I (sysKill pid) := by
  refine .read fun found => ?_
  cases found with
  | none => exact .pure _
  | some q => exact .bind (frame.modifyProc q fun _ => ⟨rfl, rfl⟩) fun _ => .pure _

theorem sysSetgrps (ngroups : ℤ) (gids : ℕ → ℤ) : Preserves E I (sysSetgrps ngroups gids) :=
  .read fun _ => .early fun _ => .early fun _ =>
    .ite (fun _ => .fail (frame.fails _ (by decide))) fun _ =>
      .bind (frame.modifyMyproc fun _ => ⟨rfl, rfl⟩) fun _ => .pure _

/-- A pipe is made of two new files, which are closed again if something is missing. -/
theorem sysPipe {cfg : Config} (close : ∀ f, Preserves E I (fileclose cfg f)) (kalloc : Bool) :
    Preserves E I (sysPipe cfg kalloc) := by
  have closeBoth : ∀ {α : Type} (rf wf : ℕ) (r : α), Preserves E I (do
      fileclose cfg rf
      fileclose cfg wf
      pure r) := fun rf wf _ => .bind (close rf) fun _ => .bind (close wf) fun _ => .pure _
  have alloc : Preserves E I (pipealloc cfg kalloc) := by
    refine .bind frame.filealloc fun first => ?_
    cases first with
    | none => exact .pure _
    | some f0 =>
      refine .bind frame.filealloc fun second => ?_
      cases second with
      | none => exact .bind (close f0) fun _ => .pure _
      | some f1 =>
        refine .ite (fun _ => .read fun p => .bind (.update fun s holds => ?_) fun _ =>
          .bind (frame.modifyFile f0 _) fun _ => .bind (frame.modifyFile f1 _) fun _ => .pure _)
          fun _ => closeBoth f0 f1 _
        exact frame.files s s.ftable _ _ holds
  refine .bind alloc fun pipe => ?_
  match pipe with
  | none => exact .pure _
  | some (rf, wf) =>
    refine .bind (frame.fdalloc rf) fun fd0 => ?_
    cases fd0 with
    | none => exact closeBoth rf wf _
    | some fd0 =>
      refine .bind (frame.fdalloc wf) fun fd1 => ?_
      cases fd1 with
      | none => exact .bind (frame.modifyMyproc fun _ => ⟨rfl, rfl⟩) fun _ => closeBoth rf wf _
      | some _ => exact .pure _

/-- The files are closed, and the working directory is put. -/
theorem sysExit {cfg : Config} (close : ∀ f, Preserves E I (fileclose cfg f))
    (begins : Preserves E I beginOp) (put : ∀ k, Preserves E I (iput cfg k))
    (ends : Preserves E I endOp) : Preserves E I (sysExit cfg) := by
  have files : Preserves E I (upto NOFILE (exitFile cfg)) := by
    apply Preserves.upto
    intro fd
    refine .read fun p => ?_
    split
    · exact .pure _
    · exact .bind (close _) fun _ => frame.modifyMyproc fun _ => ⟨rfl, rfl⟩
  refine .read fun cur => .read fun init =>
    .ite (fun _ => .fail (frame.fails _ (by decide))) fun _ =>
    .bind files fun _ => .read fun p => ?_
  split
  · exact .fail (frame.fails _ (by decide))
  · refine .bind begins fun _ => .bind (put _) fun _ => .bind ends fun _ =>
      .bind (frame.modifyMyproc fun _ => ⟨rfl, rfl⟩) fun _ => .bind (.update fun s holds => ?_)
      fun _ => .bind (frame.modifyMyproc fun _ => ⟨rfl, rfl⟩) fun _ => .pure _
    refine frame.procs s _ s.nextpid holds fun q => ?_
    split
    · exact ⟨rfl, rfl⟩
    · exact ⟨rfl, rfl⟩

end TableFrame

/-- The properties that calls keep if they set no credentials, no owner of an
existing inode and no set-uid bit. -/
structure CallFrame (I : Kernel → Prop) : Prop extends PathFrame I where
  files : ∀ s ftable pipes npipe, I s →
    I { s with ftable := ftable, pipes := pipes, npipe := npipe }
  procs : ∀ s proc nextpid, I s →
    (∀ q, (proc q).uid = (s.proc q).uid ∧ (proc q).euid = (s.proc q).euid) →
    I { s with proc := proc, nextpid := nextpid }

namespace CallFrame

variable {cfg : Config} {I : Kernel → Prop}

theorem table (frame : CallFrame I) : TableFrame (fun _ => True) I :=
  ⟨fun _ _ => trivial, frame.files, frame.procs⟩

theorem fileFrame (frame : CallFrame I) : FileFrame I where
  toPathFrame := frame.toPathFrame
  touch := frame.table.touches.touch

theorem fileclose (frame : CallFrame I) (f : ℕ) : Keeps I (fileclose cfg f) := by
  have release : ∀ ff, Keeps I (fileRelease cfg ff) := by
    intro ff
    simp only [fileRelease]
    split
    · exact .update fun s holds => frame.files s s.ftable _ s.npipe holds
    · exact .bind frame.beginOp fun _ => .bind (frame.iput _) fun _ => frame.endOp
    · exact .pure _
    · exact .fail trivial
  exact .read fun ff => .ite (fun _ => .fail trivial) fun _ =>
    .ite (fun _ => frame.table.modifyFile f _) fun _ => .bind (frame.table.modifyFile f _) fun _ => release ff

theorem sysClose (frame : CallFrame I) (fd : ℤ) : Keeps I (sysClose cfg fd) :=
  withFile_preserves fd fun f => .bind (frame.table.modifyMyproc fun _ => ⟨rfl, rfl⟩) fun _ =>
    .bind (frame.fileclose f) fun _ => .pure _

/-! ## Calls that open or enter -/

theorem sysOpen (frame : CallFrame I) (path : List UInt8) (omode : BitVec 32) :
    Keeps I (sysOpen cfg path omode) := by
  have file : ∀ ip, Keeps I (openFile cfg ip omode) := by
    intro ip
    refine .bind frame.table.filealloc fun new => ?_
    cases new with
    | none => exact frame.putAndEnd ip _
    | some f =>
      refine .bind (frame.table.fdalloc f) fun fd => ?_
      cases fd with
      | none => exact .bind (frame.fileclose f) fun _ => frame.putAndEnd ip _
      | some fd =>
        exact .bind (frame.iunlock ip) fun _ => .bind frame.endOp fun _ =>
          .bind (frame.table.modifyFile f _) fun _ => .pure _
  refine .bind frame.beginOp fun _ => .ite (fun _ => ?_) fun _ => ?_
  · refine .bind (frame.create path .file 0 0) fun created => ?_
    cases created with
    | none => exact frame.endWith _
    | some ip => exact file ip
  · refine frame.withPath path fun ip => ?_
    exact .bind (frame.ilock ip) fun _ => .read fun _ => .read fun _ =>
      .ite (fun _ => frame.putAndEnd ip _) fun _ => .ite (fun _ => frame.putAndEnd ip _)
        fun _ => file ip

theorem sysChdir (frame : CallFrame I) (path : List UInt8) : Keeps I (sysChdir cfg path) := by
  refine .bind frame.beginOp fun _ => frame.withPath path fun ip => ?_
  refine .bind (frame.ilock ip) fun _ => .read fun _ => .read fun p =>
    .ite (fun _ => frame.putAndEnd ip _) fun _ => .bind (frame.iunlock ip) fun _ => ?_
  split
  · exact .fail trivial
  · exact .bind (frame.iput _) fun _ => .bind frame.endOp fun _ =>
      .bind (frame.table.modifyMyproc fun _ => ⟨rfl, rfl⟩) fun _ => .pure _

/-- The calls that set credentials, the owner of an inode or a mode. -/
def SetsIds : Call → Prop
  | .fork _ _ | .exec _ _ | .setuid _ | .chmod _ _ | .chown _ _ _ => True
  | _ => False

/-- **Every other call keeps the properties of a frame.** -/
theorem dispatch (frame : CallFrame I) {call : Call} (plain : ¬SetsIds call) :
    Keeps I (dispatch cfg call) := by
  cases call with
  | fork _ _ | exec _ _ | setuid _ | chmod _ _ | chown _ _ _ => exact absurd trivial plain
  | exit => exact frame.table.sysExit frame.fileclose frame.beginOp frame.iput frame.endOp
  | wait => exact frame.table.sysWait
  | pipe kalloc => exact frame.table.sysPipe frame.fileclose kalloc
  | read fd n => exact withFile_preserves fd fun f => .bind (frame.fileFrame.fileread f n) fun _ => .pure _
  | kill pid => exact frame.table.sysKill pid
  | fstat fd => exact withFile_preserves fd fun f => .bind (frame.fileFrame.filestat f) fun _ => .pure _
  | chdir path => exact frame.sysChdir path
  | dup fd => exact frame.table.sysDup fd
  | getpid | getuid | geteuid => exact .gets _
  | «open» path omode => exact frame.sysOpen path omode
  | write fd src => exact withFile_preserves fd fun f => frame.fileFrame.filewrite f src
  | mknod path major minor => exact frame.createAndPut path .dev _ _
  | unlink path => exact frame.sysUnlink path
  | link old new => exact frame.sysLink old new
  | mkdir path => exact frame.createAndPut path .dir 0 0
  | close fd => exact frame.sysClose fd
  | lseek fd offset whence => exact frame.table.touches.sysLseek fd offset whence
  | trim fd => exact frame.fileFrame.sysTrim fd
  | setgrps ngroups gids => exact frame.table.sysSetgrps ngroups gids
  | invalid | other => exact .pure _

end CallFrame

end Xv6Uac
