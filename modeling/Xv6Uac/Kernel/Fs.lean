import Xv6Uac.Kernel.State

/-!
# The file system layers

The functions of `fs.c`, and those of `log.c` as a single process calls them:
the block allocator, the inode cache, the contents of inodes, directories and
path names. The commit of an operation copies blocks that the buffer cache
already shows, so here it only empties the header.
-/

namespace Xv6Uac

open Words Hoare

variable (cfg : Config)

/-! ## The log -/

/-- `begin_op`. It waits when the operation might exhaust the log. -/
def beginOp : K Unit := do
  let n ← gets fun s => s.lh.length
  let outstanding ← gets Kernel.outstanding
  if (n : ℤ) + (outstanding + 1) * MAXOPBLOCKS > LOGSIZE then
    fail .sleeping
  else
    update fun s => { s with outstanding := s.outstanding + 1 }

/-- `end_op`. The last operation to end commits. -/
def endOp : K Unit :=
  update fun s =>
    if s.outstanding - 1 = 0 then { s with outstanding := 0, lh := [] }
    else { s with outstanding := s.outstanding - 1 }

/-- `log_write`. -/
def logWrite (b : ℕ) : K Unit := do
  let n ← gets fun s => s.lh.length
  let outstanding ← gets Kernel.outstanding
  if LOGSIZE ≤ n ∨ (cfg.sb.nlog : ℤ) - 1 ≤ n then
    panic .tooBigTransaction
  else if outstanding < 1 then
    panic .logWriteOutsideOfTrans
  else
    update fun s => if b ∈ s.lh then s else { s with lh := s.lh ++ [b] }

/-! ## Blocks -/

/-- The blocks that inodes may point to. -/
def Config.DataBlock (b : ℕ) : Prop := cfg.sb.nmeta ≤ b ∧ b < cfg.sb.size

instance (b : ℕ) : Decidable (cfg.DataBlock b) := inferInstanceAs (Decidable (_ ∧ _))

/-- `bread` of a block of the data region. -/
def bread (b : ℕ) : K Bytes :=
  if cfg.DataBlock b then gets fun s => s.data b else fail .wildBlock

/-- Change the buffer of a data block and log it. -/
def bwrite (b : ℕ) (f : Bytes → Bytes) : K Unit :=
  if cfg.DataBlock b then do
    update fun s => { s with data := Function.update s.data b (f (s.data b)) }
    logWrite cfg b
  else
    fail .wildBlock

/-- Zero a block. -/
def bzero (bno : ℕ) : K Unit := bwrite cfg bno fun _ _ => 0

/-- Allocate a zeroed disk block. -/
def balloc : K ℕ := do
  let free ← gets fun s => (List.range cfg.sb.size).find? fun b => !s.bitmap b
  match free with
  | none => panic .ballocOutOfBlocks
  | some b => do
    update fun s => { s with bitmap := Function.update s.bitmap b true }
    logWrite cfg (cfg.sb.bblock b)
    bzero cfg b
    pure b

/-- Free a disk block. -/
def bfree (b : ℕ) : K Unit := do
  let used ← gets fun s => s.bitmap b
  if used then do
    update fun s => { s with bitmap := Function.update s.bitmap b false }
    logWrite cfg (cfg.sb.bblock b)
  else
    panic .freeingFreeBlock

/-! ## Inodes -/

/-- Find the inode with number `inum` in the cache, or give it an unused
entry. -/
def iget (inum : ℕ) : K ℕ := do
  let cached ← gets fun s => (List.range NINODE).find? fun k =>
    0 < (s.icache k).ref ∧ (s.icache k).inum = inum
  let empty ← gets fun s => (List.range NINODE).find? fun k => (s.icache k).ref = 0
  match cached, empty with
  | some k, _ => do
    modifyInode k fun ip => { ip with ref := ip.ref + 1 }
    pure k
  | none, none => panic .igetNoInodes
  | none, some k => do
    -- the entry is recycled; the copy of the inode in it is stale
    modifyInode k fun ip => { ip with inum := inum, ref := 1, valid := false }
    pure k

/-- Allocate an inode, marking it with its type. -/
def ialloc (type : InodeType) : K ℕ := do
  let free ← gets fun s =>
    (List.range cfg.sb.ninodes).find? fun i => 1 ≤ i ∧ (s.dinode i).type = .free
  match free with
  | none => panic .iallocNoInodes
  | some i => do
    update fun s =>
      { s with dinode := Function.update s.dinode i { Dinode.zero with type := type } }
    logWrite cfg (cfg.sb.iblock i)
    iget i

/-- Copy a modified in-memory inode to disk. -/
def iupdate (k : ℕ) : K Unit := do
  let ip ← inode k
  update fun s => { s with dinode := Function.update s.dinode ip.inum ip.d }
  logWrite cfg (cfg.sb.iblock ip.inum)

/-- Take another reference. -/
def idup (k : ℕ) : K ℕ := do
  modifyInode k fun ip => { ip with ref := ip.ref + 1 }
  pure k

/-- `acquiresleep` on the lock of an inode. -/
def acquiresleep (k : ℕ) : K Unit := do
  let ip ← inode k
  if ip.locked then
    fail .deadlock
  else
    modifyInode k fun ip => { ip with locked := true }

/-- Read the disk inode into its cache entry. -/
def loadInode (k : ℕ) : K Unit := do
  let ip ← inode k
  if ip.inum < cfg.sb.ninodes then do
    let d ← gets fun s => s.dinode ip.inum
    modifyInode k fun ip => { ip with d := d, valid := true }
    when (d.type = .free) (panic .ilockNoType)
  else
    fail .wildInode

/-- Lock an inode, reading it from disk if necessary. -/
def ilock (k : ℕ) : K Unit := do
  let ip ← inode k
  if ip.ref < 1 then
    panic .ilock
  else do
    acquiresleep k
    when (ip.valid = false) (loadInode cfg k)

/-- Unlock an inode. -/
def iunlock (k : ℕ) : K Unit := do
  let ip ← inode k
  if ip.locked = false ∨ ip.ref < 1 then
    panic .iunlock
  else
    modifyInode k fun ip => { ip with locked := false }

/-- The disk block of the `bn`-th block of an inode. If there is no such block,
one is allocated. -/
def bmap (k bn : ℕ) : K ℕ := do
  let ip ← inode k
  if bn < NDIRECT then
    if ip.d.addrs bn = 0 then do
      let addr ← balloc cfg
      modifyDinode k fun d => { d with addrs := Function.update d.addrs bn addr }
      pure addr
    else
      pure (ip.d.addrs bn)
  else if bn - NDIRECT < NINDIRECT then do
    when (ip.d.addrs NDIRECT = 0) do
      let addr ← balloc cfg
      modifyDinode k fun d => { d with addrs := Function.update d.addrs NDIRECT addr }
    let ip ← inode k
    let a ← bread cfg (ip.d.addrs NDIRECT)
    if word 4 a (4 * (bn - NDIRECT)) = 0 then do
      let addr ← balloc cfg
      bwrite cfg (ip.d.addrs NDIRECT) fun a => putWord 4 a (4 * (bn - NDIRECT)) addr
      pure addr
    else
      pure (word 4 a (4 * (bn - NDIRECT)))
  else
    panic .bmapOutOfRange

/-- The first loop of `itrunc`: free a direct block. -/
def itruncDirect (k i : ℕ) : K Unit := do
  let ip ← inode k
  when (ip.d.addrs i ≠ 0) do
    bfree cfg (ip.d.addrs i)
    modifyDinode k fun d => { d with addrs := Function.update d.addrs i 0 }

/-- The second loop of `itrunc`: free a block that the indirect block names. -/
def itruncIndirect (a : Bytes) (j : ℕ) : K Unit :=
  when (word 4 a (4 * j) ≠ 0) (bfree cfg (word 4 a (4 * j)))

/-- Truncate an inode, discarding its contents. -/
def itrunc (k : ℕ) : K Unit := do
  upto NDIRECT (itruncDirect cfg k)
  let ip ← inode k
  when (ip.d.addrs NDIRECT ≠ 0) do
    let a ← bread cfg (ip.d.addrs NDIRECT)
    upto NINDIRECT (itruncIndirect cfg a)
    bfree cfg (ip.d.addrs NDIRECT)
    modifyDinode k fun d => { d with addrs := Function.update d.addrs NDIRECT 0 }
  modifyDinode k fun d => { d with size := 0 }
  iupdate cfg k

/-- The part of `iput` that frees an inode without links and other
references. -/
def ifree (k : ℕ) : K Unit := do
  itrunc cfg k
  modifyDinode k fun d => { d with type := .free }
  iupdate cfg k
  modifyInode k fun ip => { ip with valid := false }

/-- Drop a reference to an in-memory inode. -/
def iput (k : ℕ) : K Unit := do
  acquiresleep k
  let ip ← inode k
  when (ip.valid ∧ ip.d.nlink = 0 ∧ ip.ref = 1) (ifree cfg k)
  modifyInode k fun ip => { ip with locked := false }
  modifyInode k fun ip => { ip with ref := ip.ref - 1 }

/-- Unlock, then put. -/
def iunlockput (k : ℕ) : K Unit := do
  iunlock k
  iput cfg k

/-! ## The contents of inodes -/

/-- The loop of `readi`: copy `n` bytes from `off`, block by block. Each round
copies at least one byte, so `n` rounds are enough. -/
def readLoop (k : ℕ) : ℕ → ℕ → ℕ → K (List UInt8)
  | 0, _, _ => pure []
  | fuel + 1, off, n =>
    if n = 0 then
      pure []
    else do
      let b ← bmap cfg k (off / BSIZE)
      let block ← bread cfg b
      let rest ← readLoop k fuel (off + min n (BSIZE - off % BSIZE))
        (n - min n (BSIZE - off % BSIZE))
      pure ((List.range (min n (BSIZE - off % BSIZE))).map
        (fun i => block (off % BSIZE + i)) ++ rest)

/-- Read data from an inode: the return value and the bytes copied. -/
def readi (k off n : ℕ) : K (ℤ × List UInt8) := do
  let ip ← inode k
  if ip.d.type = .dev then
    match if ip.d.major < 0 ∨ NDEV ≤ ip.d.major then none else cfg.devRead ip.d.major with
    | none => pure (-1, [])
    | some read => do
      let count ← gets Kernel.devreads
      update fun s => { s with devreads := s.devreads + 1 }
      pure (read count n)
  else if ip.d.size < off ∨ (off + n) % 2 ^ 32 < off then
    pure (-1, [])
  else do
    let bytes ← readLoop cfg k (min n (ip.d.size - off)) off (min n (ip.d.size - off))
    pure ((min n (ip.d.size - off) : ℕ), bytes)

/-- A block with `src` copied over the bytes from `o` on. -/
def splice (block : Bytes) (o : ℕ) (src : List UInt8) : Bytes := fun j =>
  if o ≤ j ∧ j < o + src.length then src.getD (j - o) 0 else block j

/-- The loop of `writei`. It returns the offset after the last byte. -/
def writeLoop (k : ℕ) : ℕ → ℕ → List UInt8 → K ℕ
  | 0, off, _ => pure off
  | fuel + 1, off, src =>
    if src.length = 0 then
      pure off
    else do
      let b ← bmap cfg k (off / BSIZE)
      bwrite cfg b fun block =>
        splice block (off % BSIZE) (src.take (BSIZE - off % BSIZE))
      writeLoop k fuel (off + min src.length (BSIZE - off % BSIZE))
        (src.drop (BSIZE - off % BSIZE))

/-- Write data to an inode. -/
def writei (k : ℕ) (src : List UInt8) (off : ℕ) : K ℤ := do
  let ip ← inode k
  if ip.d.type = .dev then
    match if ip.d.major < 0 ∨ NDEV ≤ ip.d.major then none else cfg.devWrite ip.d.major with
    | none => pure (-1)
    | some write => pure (write src)
  else if ip.d.size < off ∨ (off + src.length) % 2 ^ 32 < off then
    pure (-1)
  else if MAXFILE * BSIZE < off + src.length then
    pure (-1)
  else do
    let last ← writeLoop cfg k src.length off src
    let ip ← inode k
    when (0 < src.length ∧ ip.d.size < last) do
      modifyDinode k fun d => { d with size := last }
      iupdate cfg k
    pure (src.length : ℤ)

/-! ## Directories -/

/-- The name `.`. -/
abbrev dot : List UInt8 := [46]
/-- The name `..`. -/
abbrev dotdot : List UInt8 := [46, 46]

/-- `strncmp`, on strings that end at a NUL or at the end of the list. -/
def strncmp : ℕ → List UInt8 → List UInt8 → ℤ
  | 0, _, _ => 0
  | n + 1, p, q =>
    if p.headD 0 ≠ 0 ∧ p.headD 0 = q.headD 0 then strncmp n p.tail q.tail
    else ((p.headD 0).toNat : ℤ) - (q.headD 0).toNat

/-- `strncpy`: the string up to its NUL, filled up with NULs. -/
def strncpy : ℕ → List UInt8 → List UInt8
  | 0, _ => []
  | n + 1, t =>
    if t.headD 0 = 0 then List.replicate (n + 1) 0 else t.headD 0 :: strncpy n t.tail

/-- Compare two names. -/
def namecmp (s t : List UInt8) : ℤ := strncmp DIRSIZ s t

/-- `struct dirent`. -/
structure Dirent where
  inum : ℕ
  name : List UInt8
deriving DecidableEq, Repr

/-- The entry stored in the bytes of a directory. -/
def Dirent.ofBytes (bytes : List UInt8) : Dirent where
  inum := (bytes.getD 0 0).toNat + 256 * (bytes.getD 1 0).toNat
  name := bytes.drop 2

/-- The bytes an entry is stored as. -/
def Dirent.toBytes (de : Dirent) : List UInt8 :=
  UInt8.ofNat de.inum :: UInt8.ofNat (de.inum / 256) :: de.name

/-- Read the entry at an offset. There is none if fewer bytes are left. -/
def readDirent (k off : ℕ) : K (Option Dirent) := do
  let out ← readi cfg k off DIRENT
  pure (if out.1 = DIRENT then some (.ofBytes out.2) else none)

/-- The permission test of `dirlookup`, `sys_chdir` and `exec`: the execute bit
of others, of the owner if the effective user owns the inode, or of the group if
a group of the process is the inode's. -/
def mayExecute (p : Proc) (d : Dinode) : Bool :=
  if !d.mode.getLsbD 0 && (p.euid != d.uid || !d.mode.getLsbD 6) then
    (List.range p.ngroups).any fun i => p.gids i == d.gid && d.mode.getLsbD 3
  else
    true

/-- The loop of `dirlookup`, from an offset on. -/
def dirlookupLoop (k : ℕ) (name : List UInt8) : ℕ → ℕ → K (Option (ℕ × ℕ))
  | 0, _ => pure none
  | fuel + 1, off => do
    let dp ← inode k
    if off < dp.d.size then do
      let found ← readDirent cfg k off
      match found with
      | none => panic .dirlookupRead
      | some de =>
        if de.inum ≠ 0 ∧ namecmp name de.name = 0 then do
          let ip ← iget de.inum
          pure (some (ip, off))
        else
          dirlookupLoop k name fuel (off + DIRENT)
    else
      pure none

/-- Look for an entry in a directory: the inode and the offset of the entry. -/
def dirlookup (k : ℕ) (name : List UInt8) : K (Option (ℕ × ℕ)) := do
  let dp ← inode k
  let p ← myproc
  if dp.d.type ≠ .dir then
    panic .dirlookupNotDir
  else if mayExecute p dp.d = false then
    pure none
  else
    dirlookupLoop cfg k name dp.d.size 0

/-- The loop of `dirlink`: the offset of the first empty entry, or the size. -/
def dirlinkLoop (k : ℕ) : ℕ → ℕ → K ℕ
  | 0, off => pure off
  | fuel + 1, off => do
    let dp ← inode k
    if off < dp.d.size then do
      let found ← readDirent cfg k off
      match found with
      | none => panic .dirlinkRead
      | some de => if de.inum = 0 then pure off else dirlinkLoop k fuel (off + DIRENT)
    else
      pure off

/-- Write a new entry into a directory. -/
def dirlink (k : ℕ) (name : List UInt8) (inum : ℕ) : K ℤ := do
  let found ← dirlookup cfg k name
  match found with
  | some (ip, _) => do
    iput cfg ip
    pure (-1)
  | none => do
    let dp ← inode k
    let off ← dirlinkLoop cfg k dp.d.size 0
    let r ← writei cfg k (Dirent.toBytes ⟨inum % 2 ^ 16, strncpy DIRSIZ name⟩) off
    if r ≠ DIRENT then panic .dirlink else pure 0

/-! ## Paths -/

/-- The next element of a path and the path after it, without leading
slashes. -/
def skipelem (path : List UInt8) : Option (List UInt8 × List UInt8) :=
  let path := path.dropWhile (· = 47)
  if path = [] then none
  else some ((path.takeWhile (· ≠ 47)).take DIRSIZ,
    (path.dropWhile (· ≠ 47)).dropWhile (· = 47))

/-- The elements that a loop over `skipelem` yields. -/
def pathElems : ℕ → List UInt8 → List (List UInt8)
  | 0, _ => []
  | fuel + 1, path =>
    match skipelem path with
    | none => []
    | some (name, rest) => name :: pathElems fuel rest

/-- The loop of `namex` over the elements that are left. -/
def namexLoop (nameiparent : Bool) :
    ℕ → List UInt8 → List (List UInt8) → K (Option (ℕ × List UInt8))
  | ip, name, [] =>
    if nameiparent then do
      iput cfg ip
      pure none
    else
      pure (some (ip, name))
  | ip, _, name :: rest => do
    ilock cfg ip
    let i ← inode ip
    if i.d.type ≠ .dir then do
      iunlockput cfg ip
      pure none
    else if nameiparent ∧ rest = [] then do
      iunlock ip
      pure (some (ip, name))
    else do
      let next ← dirlookup cfg ip name
      iunlockput cfg ip
      match next with
      | none => pure none
      | some (next, _) => namexLoop nameiparent next name rest

/-- Where a path starts: at the root or at the current directory. -/
def namexStart (path : List UInt8) : K ℕ :=
  if path.head? = some 47 then
    iget ROOTINO
  else do
    let p ← myproc
    match p.cwd with
    | none => fail .fault
    | some k => idup k

/-- Look up a path: its inode, or the inode of its parent and the last
element. -/
def namex (path : List UInt8) (nameiparent : Bool) : K (Option (ℕ × List UInt8)) := do
  let ip ← namexStart path
  namexLoop cfg nameiparent ip [] (pathElems path.length path)

/-- The inode of a path. -/
def namei (path : List UInt8) : K (Option ℕ) := do
  let found ← namex cfg path false
  pure (found.map Prod.fst)

/-- The inode of the parent of a path and the last element. -/
def nameiparent (path : List UInt8) : K (Option (ℕ × List UInt8)) := namex cfg path true

end Xv6Uac
