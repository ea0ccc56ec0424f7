import Xv6Uac.Kernel.File

/-!
# File-system system calls

The functions of `sysfile.c` and `exec.c`. Arguments are given as fetched, and a
call whose arguments cannot be fetched is a call of its own in `Syscall`. The
memory management that `exec` calls is a parameter (`Vm`), since only whether it
succeeds matters to the state here.
-/

namespace Xv6Uac

open Words Hoare

variable (cfg : Config)

/-! ## Descriptors -/

/-- The file of a descriptor of the calling process. -/
def argfd (fd : ℤ) : K (Option ℕ) := do
  let p ← myproc
  pure (if fd < 0 ∨ NOFILE ≤ fd then none else p.ofile fd.toNat)

/-- Give a file the first free descriptor. -/
def fdalloc (f : ℕ) : K (Option ℕ) := do
  let p ← myproc
  match (List.range NOFILE).find? fun fd => (p.ofile fd).isNone with
  | none => pure none
  | some fd => do
    modifyMyproc fun p => { p with ofile := Function.update p.ofile fd (some f) }
    pure (some fd)

/-- `dup`. -/
def sysDup (fd : ℤ) : K ℤ := do
  let file ← argfd fd
  match file with
  | none => pure (-1)
  | some f => do
    let new ← fdalloc f
    match new with
    | none => pure (-1)
    | some fd => do
      filedup f
      pure fd

/-- `read`. -/
def sysRead (fd : ℤ) (n : ℕ) : K ℤ := do
  let file ← argfd fd
  match file with
  | none => pure (-1)
  | some f => do
    let out ← fileread cfg f n
    pure out.1

/-- `write`. -/
def sysWrite (fd : ℤ) (src : List UInt8) : K ℤ := do
  let file ← argfd fd
  match file with
  | none => pure (-1)
  | some f => filewrite cfg f src

/-- `close`. -/
def sysClose (fd : ℤ) : K ℤ := do
  let file ← argfd fd
  match file with
  | none => pure (-1)
  | some f => do
    modifyMyproc fun p => { p with ofile := Function.update p.ofile fd.toNat none }
    fileclose cfg f
    pure 0

/-- `fstat`. -/
def sysFstat (fd : ℤ) : K ℤ := do
  let file ← argfd fd
  match file with
  | none => pure (-1)
  | some f => do
    let st ← filestat cfg f
    pure (if st.isSome then 0 else -1)

/-- `lseek`. The size that `SEEK_END` adds to is read without the lock. -/
def sysLseek (fd offset whence : ℤ) : K ℤ := do
  let file ← argfd fd
  match file with
  | none => pure (-1)
  | some f => do
    let file ← gets fun s => s.ftable f
    if whence = 0 then do
      modifyFile f fun file => { file with off := (offset % 2 ^ 32).toNat }
      pure 0
    else if whence = 1 then do
      modifyFile f fun file => { file with off := ((file.off + offset) % 2 ^ 32).toNat }
      pure 0
    else if whence = 2 then
      match file.ip with
      | none => fail .fault
      | some k => do
        let ip ← inode k
        modifyFile f fun file => { file with off := ((ip.d.size + offset) % 2 ^ 32).toNat }
        pure 0
    else
      pure 0

/-- `trim`. -/
def sysTrim (fd : ℤ) : K ℤ := do
  let file ← argfd fd
  match file with
  | none => pure (-1)
  | some f => do
    let file ← gets fun s => s.ftable f
    beginOp
    match file.ip with
    | none => panic .ilock
    | some k => do
      ilock cfg k
      modifyDinode k fun d => { d with size := file.off }
      iupdate cfg k
      iunlock k
      endOp
      pure 0

/-- `pipe`. -/
def sysPipe (kalloc : Bool) : K ℤ := do
  let pipe ← pipealloc cfg kalloc
  match pipe with
  | none => pure (-1)
  | some (rf, wf) => do
    let fd0 ← fdalloc rf
    match fd0 with
    | none => do
      fileclose cfg rf
      fileclose cfg wf
      pure (-1)
    | some fd0 => do
      let fd1 ← fdalloc wf
      match fd1 with
      | none => do
        modifyMyproc fun p => { p with ofile := Function.update p.ofile fd0 none }
        fileclose cfg rf
        fileclose cfg wf
        pure (-1)
      | some _ => pure 0

/-! ## Directories -/

/-- The code at the label `bad` of `sys_link`. -/
def linkBad (ip : ℕ) : K ℤ := do
  ilock cfg ip
  modifyDinode ip fun d => { d with nlink := cfg.short (d.nlink - 1) }
  iupdate cfg ip
  iunlockput cfg ip
  endOp
  pure (-1)

/-- The second half of `sys_link`, after the count of `ip` is raised. -/
def linkInto (ip : ℕ) (new : List UInt8) : K ℤ := do
  let parent ← nameiparent cfg new
  match parent with
  | none => linkBad cfg ip
  | some (dp, name) => do
    ilock cfg dp
    let i ← inode ip
    let r ← dirlink cfg dp name i.inum
    iunlockput cfg dp
    if r < 0 then
      linkBad cfg ip
    else do
      iput cfg ip
      endOp
      pure 0

/-- `link`: create the path `new` as a link to the same inode as `old`. -/
def sysLink (old new : List UInt8) : K ℤ := do
  beginOp
  let found ← namei cfg old
  match found with
  | none => do
    endOp
    pure (-1)
  | some ip => do
    ilock cfg ip
    let i ← inode ip
    if i.d.type = .dir then do
      iunlockput cfg ip
      endOp
      pure (-1)
    else do
      modifyDinode ip fun d => { d with nlink := cfg.short (d.nlink + 1) }
      iupdate cfg ip
      iunlock ip
      linkInto cfg ip new

/-- The loop of `isdirempty`. -/
def isdiremptyLoop (k : ℕ) : ℕ → ℕ → K Bool
  | 0, _ => pure true
  | fuel + 1, off => do
    let dp ← inode k
    if off < dp.d.size then do
      let found ← readDirent cfg k off
      match found with
      | none => panic .isdiremptyReadi
      | some de => if de.inum ≠ 0 then pure false else isdiremptyLoop k fuel (off + DIRENT)
    else
      pure true

/-- Is the directory empty except for `.` and `..`? -/
def isdirempty (k : ℕ) : K Bool := do
  let dp ← inode k
  isdiremptyLoop cfg k dp.d.size (2 * DIRENT)

/-- The code at the label `bad` of `sys_unlink`. -/
def unlinkBad (dp : ℕ) : K ℤ := do
  iunlockput cfg dp
  endOp
  pure (-1)

/-- The last part of `sys_unlink`: clear the entry and lower the counts. -/
def unlinkEntry (dp ip off : ℕ) : K ℤ := do
  let r ← writei cfg dp (List.replicate DIRENT 0) off
  if r ≠ DIRENT then
    panic .unlinkWritei
  else do
    let i ← inode ip
    when (i.d.type = .dir) do
      modifyDinode dp fun d => { d with nlink := cfg.short (d.nlink - 1) }
      iupdate cfg dp
    iunlockput cfg dp
    modifyDinode ip fun d => { d with nlink := cfg.short (d.nlink - 1) }
    iupdate cfg ip
    iunlockput cfg ip
    endOp
    pure 0

/-- The part of `sys_unlink` after the entry is found at `off`. -/
def unlinkFound (dp ip off : ℕ) : K ℤ := do
  ilock cfg ip
  let i ← inode ip
  if i.d.nlink < 1 then
    panic .unlinkNlink
  else if i.d.type = .dir then do
    let empty ← isdirempty cfg ip
    if empty then
      unlinkEntry cfg dp ip off
    else do
      iunlockput cfg ip
      unlinkBad cfg dp
  else
    unlinkEntry cfg dp ip off

/-- `unlink`. -/
def sysUnlink (path : List UInt8) : K ℤ := do
  beginOp
  let parent ← nameiparent cfg path
  match parent with
  | none => do
    endOp
    pure (-1)
  | some (dp, name) => do
    ilock cfg dp
    -- cannot unlink "." or ".."
    if namecmp name dot = 0 ∨ namecmp name dotdot = 0 then
      unlinkBad cfg dp
    else do
      let found ← dirlookup cfg dp name
      match found with
      | none => unlinkBad cfg dp
      | some (ip, off) => unlinkFound cfg dp ip off

/-- The part of `create` that fills in a fresh inode. -/
def createInode (ip : ℕ) (major minor : ℤ) : K Unit := do
  let p ← myproc
  ilock cfg ip
  modifyDinode ip fun d =>
    { d with
      major := major
      minor := minor
      nlink := 1
      uid := p.uid
      gid := p.uid
      mode := 0o644 }
  iupdate cfg ip

/-- The part of `create` that makes the entries `.` and `..`. -/
def createDots (dp ip : ℕ) : K Unit := do
  modifyDinode dp fun d => { d with nlink := cfg.short (d.nlink + 1) }
  modifyDinode ip fun d => { d with mode := 0o755 }
  iupdate cfg dp
  let i ← inode ip
  let r ← dirlink cfg ip dot i.inum
  if r < 0 then
    panic .createDots
  else do
    let d ← inode dp
    let r ← dirlink cfg ip dotdot d.inum
    when (r < 0) (panic .createDots)

/-- The part of `create` for a name that is not in the directory. -/
def createNew (dp : ℕ) (name : List UInt8) (type : InodeType) (major minor : ℤ) :
    K (Option ℕ) := do
  let ip ← ialloc cfg type
  createInode cfg ip major minor
  when (type = .dir) (createDots cfg dp ip)
  let i ← inode ip
  let r ← dirlink cfg dp name i.inum
  if r < 0 then
    panic .createDirlink
  else do
    iunlockput cfg dp
    pure (some ip)

/-- The part of `create` for a name that is in the directory. -/
def createFound (dp ip : ℕ) (type : InodeType) : K (Option ℕ) := do
  iunlockput cfg dp
  ilock cfg ip
  let i ← inode ip
  if (type = .file ∧ i.d.type = .file) ∨ i.d.type = .dev then
    pure (some ip)
  else do
    iunlockput cfg ip
    pure none

/-- Create an inode and an entry for it. The inode is returned locked. -/
def create (path : List UInt8) (type : InodeType) (major minor : ℤ) : K (Option ℕ) := do
  let parent ← nameiparent cfg path
  match parent with
  | none => pure none
  | some (dp, name) => do
    ilock cfg dp
    let found ← dirlookup cfg dp name
    match found with
    | some (ip, _) => createFound cfg dp ip type
    | none => createNew cfg dp name type major minor

/-- Are all bits of `want` in `mode`? The field `mode` is a `short` that is
promoted to `int`. -/
def allBits (mode : BitVec 16) (want : BitVec 32) : Bool := mode.signExtend 32 &&& want == want

/-- The permission test of `sys_open`. -/
def mayOpen (p : Proc) (d : Dinode) (omode : BitVec 32) : Bool :=
  if p.euid != 0 && !allBits d.mode omode then
    if p.euid != d.uid || !allBits d.mode (omode <<< 6) then
      (List.range p.ngroups).any fun i => p.gids i == d.gid && allBits d.mode (omode <<< 3)
    else
      true
  else
    true

/-- The end of `sys_open`: a descriptor for the locked inode. -/
def openFile (ip : ℕ) (omode : BitVec 32) : K ℤ := do
  let file ← filealloc
  match file with
  | none => do
    iunlockput cfg ip
    endOp
    pure (-1)
  | some f => do
    let new ← fdalloc f
    match new with
    | none => do
      fileclose cfg f
      iunlockput cfg ip
      endOp
      pure (-1)
    | some fd => do
      iunlock ip
      endOp
      modifyFile f fun file =>
        { file with
          type := .inode
          ip := some ip
          off := 0
          readable := omode &&& O_RDONLY != 0
          writable := omode &&& O_WRONLY != 0 }
      pure fd

/-- `open` of a path that must exist. -/
def openExisting (path : List UInt8) (omode : BitVec 32) : K ℤ := do
  let found ← namei cfg path
  match found with
  | none => do
    endOp
    pure (-1)
  | some ip => do
    ilock cfg ip
    let i ← inode ip
    let p ← myproc
    if mayOpen p i.d omode = false then do
      iunlockput cfg ip
      endOp
      pure (-1)
    else if i.d.type = .dir ∧ omode ≠ O_RDONLY then do
      iunlockput cfg ip
      endOp
      pure (-1)
    else
      openFile cfg ip omode

/-- `open`. -/
def sysOpen (path : List UInt8) (omode : BitVec 32) : K ℤ := do
  beginOp
  if omode &&& O_CREATE ≠ 0 then do
    let created ← create cfg path .file 0 0
    match created with
    | none => do
      endOp
      pure (-1)
    | some ip => openFile cfg ip omode
  else
    openExisting cfg path omode

/-- The end of `sys_mkdir` and `sys_mknod`. -/
def createAndPut (path : List UInt8) (type : InodeType) (major minor : ℤ) : K ℤ := do
  beginOp
  let created ← create cfg path type major minor
  match created with
  | none => do
    endOp
    pure (-1)
  | some ip => do
    iunlockput cfg ip
    endOp
    pure 0

/-- `mkdir`. -/
def sysMkdir (path : List UInt8) : K ℤ := createAndPut cfg path .dir 0 0

/-- `mknod`. -/
def sysMknod (path : List UInt8) (major minor : ℤ) : K ℤ :=
  createAndPut cfg path .dev (cfg.short major) (cfg.short minor)

/-- `chdir`. -/
def sysChdir (path : List UInt8) : K ℤ := do
  beginOp
  let found ← namei cfg path
  match found with
  | none => do
    endOp
    pure (-1)
  | some ip => do
    ilock cfg ip
    let i ← inode ip
    let p ← myproc
    if i.d.type ≠ .dir ∨ mayExecute p i.d = false then do
      iunlockput cfg ip
      endOp
      pure (-1)
    else do
      iunlock ip
      match p.cwd with
      | none => fail .fault
      | some old => do
        iput cfg old
        endOp
        modifyMyproc fun p => { p with cwd := some ip }
        pure 0

/-- `chmod`. The owner is compared before the inode is locked, and the reference
that `namei` took is kept. -/
def sysChmod (path : List UInt8) (mode : BitVec 32) : K ℤ := do
  beginOp
  let found ← namei cfg path
  match found with
  | none => do
    endOp
    pure (-1)
  | some ip => do
    let i ← inode ip
    let p ← myproc
    if p.euid ≠ 0 ∧ i.d.uid ≠ p.uid then do
      endOp
      pure (-1)
    else do
      ilock cfg ip
      modifyDinode ip fun d => { d with mode := mode.setWidth 16 }
      iupdate cfg ip
      iunlock ip
      endOp
      pure 0

/-- `chown`. -/
def sysChown (path : List UInt8) (owner group : ℤ) : K ℤ := do
  let p ← myproc
  if p.euid ≠ 0 then
    pure (-1)
  else do
    beginOp
    let found ← namei cfg path
    match found with
    | none => do
      endOp
      pure (-1)
    | some ip => do
      ilock cfg ip
      modifyDinode ip fun d => { d with uid := owner, gid := group }
      iupdate cfg ip
      iunlock ip
      endOp
      pure 0

/-! ## Exec -/

/-- What the memory management calls of `exec` return: `setupkvm`, `allocuvm`
for the old and the new size, and whether the stack and the arguments are set
up. -/
structure Vm where
  setupkvm : Bool
  allocuvm : ℕ → ℕ → ℕ
  stack : Bool

/-- The loop of `loaduvm`: read a segment page by page. -/
def loaduvmLoop (k off : ℕ) : ℕ → ℕ → K Bool
  | 0, _ => pure true
  | fuel + 1, sz =>
    if sz = 0 then
      pure true
    else do
      let out ← readi cfg k (off % 2 ^ 32) (min sz PGSIZE)
      if out.1 ≠ (min sz PGSIZE : ℕ) then pure false
      else loaduvmLoop k (off + PGSIZE) fuel (sz - min sz PGSIZE)

/-- The word of `w` bytes at an offset of a header that was read. -/
def field (w : ℕ) (bytes : List UInt8) (o : ℕ) : ℕ := word w (fun j => bytes.getD j 0) o

/-- The loop of `exec` over the program headers: the size of the image. -/
def loadLoop (vm : Vm) (k : ℕ) : ℕ → ℕ → ℕ → K (Option ℕ)
  | 0, _, sz => pure (some sz)
  | n + 1, off, sz => do
    let out ← readi cfg k (off % 2 ^ 32) 32
    let ph := out.2
    if out.1 ≠ 32 then
      pure none
    else if field 4 ph 0 ≠ 1 then
      loadLoop vm k n (off + 32) sz
    else if field 4 ph 20 < field 4 ph 16 then
      pure none
    else if (field 4 ph 8 + field 4 ph 20) % 2 ^ 32 < field 4 ph 8 then
      pure none
    else if vm.allocuvm sz (field 4 ph 8 + field 4 ph 20) = 0 then
      pure none
    else if field 4 ph 8 % PGSIZE ≠ 0 then
      pure none
    else do
      let loaded ← loaduvmLoop cfg k (field 4 ph 4) (field 4 ph 16) (field 4 ph 16)
      if loaded then
        loadLoop vm k n (off + 32) (vm.allocuvm sz (field 4 ph 8 + field 4 ph 20))
      else
        pure none

/-- The checks of `exec` on the locked inode and the load of its segments. -/
def execLoad (vm : Vm) (k : ℕ) : K Bool := do
  let ip ← inode k
  let p ← myproc
  if mayExecute p ip.d = false then
    pure false
  else do
    let out ← readi cfg k 0 52
    if out.1 ≠ 52 ∨ field 4 out.2 0 ≠ 0x464C457F ∨ vm.setupkvm = false then
      pure false
    else do
      let sz ← loadLoop cfg vm k (field 2 out.2 44) (field 4 out.2 28) 0
      pure sz.isSome

/-- The user identity that a successful `exec` gives: a set-uid image runs as
user 0. -/
def execCommit (setuid : Bool) : K ℤ := do
  modifyMyproc fun p => { p with euid := if setuid then 0 else p.uid }
  pure 0

/-- `exec`. -/
def sysExec (vm : Vm) (path : List UInt8) : K ℤ := do
  beginOp
  let found ← namei cfg path
  match found with
  | none => do
    endOp
    pure (-1)
  | some k => do
    ilock cfg k
    let loaded ← execLoad cfg vm k
    let ip ← inode k
    iunlockput cfg k
    endOp
    if loaded && vm.stack then
      execCommit (ip.d.mode.getLsbD 9)
    else
      pure (-1)

end Xv6Uac
