import Xv6Uac.Lib.Hoare
import Xv6Uac.Lib.Words
import Xv6Uac.Param

/-!
# The state of the kernel

The state a system call works on: the disk as the buffer cache shows it, the
header of the log, the inode cache, the table of open files, the pipes and the
processes. A pointer into a table is the index of the entry, and a null pointer
is `none`.

The disk has three regions that system calls touch, and each is a table of what
it stores: the inodes, the bits of the free map and the data blocks. A block
number read from an inode or an indirect block is used only after a test that it
lies in the data region, and an inode number only after a test that it lies in
the inode table. The source has no such tests. On an image where they fail a
call stops here with `wildBlock` or `wildInode`, since the regions would then
overlap.

A call that runs into `panic`, that waits for an event no step of its own can
bring about, or that leaves the memory it may use, does not return. It fails
with a reason (`Stop`).
-/

namespace Xv6Uac

open Words Hoare

/-! ## The disk -/

/-- The field `type` of an inode: 0, `T_DIR`, `T_FILE` and `T_DEV`. -/
inductive InodeType where
  | free
  | dir
  | file
  | dev
deriving DecidableEq, Repr

/-- `struct dinode`. -/
structure Dinode where
  type : InodeType
  major : ℤ
  minor : ℤ
  nlink : ℤ
  size : ℕ
  addrs : ℕ → ℕ
  uid : ℤ
  gid : ℤ
  mode : BitVec 16

/-- An inode after `memset(dip, 0, sizeof(*dip))`. -/
def Dinode.zero : Dinode where
  type := .free
  major := 0
  minor := 0
  nlink := 0
  size := 0
  addrs _ := 0
  uid := 0
  gid := 0
  mode := 0

/-- `struct superblock`. Block numbers are stored as 32-bit words and inode
numbers in directory entries as 16-bit words, so both counts have a bound. -/
structure Superblock where
  size : ℕ
  ninodes : ℕ
  nlog : ℕ
  inodestart : ℕ
  bmapstart : ℕ
  size_lt : size < 256 ^ 4
  ninodes_le : ninodes ≤ 256 ^ 2

/-- Block containing inode `i`. -/
def Superblock.iblock (sb : Superblock) (i : ℕ) : ℕ := i / IPB + sb.inodestart

/-- Block of the free map containing the bit for block `b`. -/
def Superblock.bblock (sb : Superblock) (b : ℕ) : ℕ := b / BPB + sb.bmapstart

/-- The first block after the free map. The blocks before it hold metadata. -/
def Superblock.nmeta (sb : Superblock) : ℕ := sb.bmapstart + (sb.size / BPB + 1)

/-- What the kernel is compiled with and boots from: the superblock, the
conversion an assignment to a `short` makes, and the device switch. A device's
`read` gets the number of earlier device reads, since what it returns comes from
outside. -/
structure Config where
  sb : Superblock
  short : ℤ → ℤ
  devRead : ℤ → Option (ℕ → ℕ → ℤ × List UInt8)
  devWrite : ℤ → Option (List UInt8 → ℤ)

/-- The conversion to a 16-bit `short`. -/
def short16 (x : ℤ) : ℤ := x.bmod (2 ^ 16)

/-! ## The tables in memory -/

/-- `struct inode`: the bookkeeping of the cache and the copy of the disk
inode. -/
structure Inode where
  inum : ℕ
  ref : ℤ
  locked : Bool
  valid : Bool
  d : Dinode

/-- The field `type` of `struct file`. -/
inductive FdType where
  | none
  | pipe
  | inode
deriving DecidableEq, Repr

/-- `struct file`. -/
structure File where
  type : FdType
  ref : ℤ
  readable : Bool
  writable : Bool
  pipe : Option ℕ
  ip : Option ℕ
  off : ℕ

/-- `struct pipe`, with the bytes between `nread` and `nwrite`. -/
structure Pipe where
  data : List UInt8
  readopen : Bool
  writeopen : Bool

/-- `enum procstate`. A process that is in a call or could be scheduled is
`runnable` here. -/
inductive ProcState where
  | unused
  | embryo
  | runnable
  | zombie
deriving DecidableEq, Repr

/-- `struct proc`, without the fields of its memory and its saved registers. -/
structure Proc where
  state : ProcState
  pid : ℤ
  parent : Option ℕ
  killed : Bool
  ofile : ℕ → Option ℕ
  cwd : Option ℕ
  uid : ℤ
  euid : ℤ
  ngroups : ℕ
  gids : ℕ → ℤ

/-- The state of the kernel. `cur` is the process whose call runs. -/
structure Kernel where
  dinode : ℕ → Dinode
  bitmap : ℕ → Bool
  data : ℕ → Bytes
  outstanding : ℤ
  lh : List ℕ
  icache : ℕ → Inode
  ftable : ℕ → File
  pipes : ℕ → Pipe
  npipe : ℕ
  devreads : ℕ
  proc : ℕ → Proc
  nextpid : ℤ
  initproc : ℕ
  cur : ℕ

/-- `myproc()`. -/
def Kernel.myproc (s : Kernel) : Proc := s.proc s.cur

/-! ## Calls -/

/-- The calls of `panic` that the modelled functions contain. -/
inductive Panic where
  | tooBigTransaction
  | logWriteOutsideOfTrans
  | ballocOutOfBlocks
  | freeingFreeBlock
  | iallocNoInodes
  | igetNoInodes
  | ilock
  | ilockNoType
  | iunlock
  | bmapOutOfRange
  | dirlookupNotDir
  | dirlookupRead
  | dirlinkRead
  | dirlink
  | filedup
  | fileclose
  | fileread
  | filewrite
  | shortFilewrite
  | isdiremptyReadi
  | unlinkNlink
  | unlinkWritei
  | createDots
  | createDirlink
  | initExiting
deriving DecidableEq, Repr

/-- Why a call does not return: a panic, a sleep lock its own process holds, a
wait for another process, an access outside the memory of the kernel, or a block
or inode number outside its region of the disk. -/
inductive Stop where
  | panic (reason : Panic)
  | deadlock
  | sleeping
  | fault
  | wildBlock
  | wildInode
deriving DecidableEq, Repr

/-- A function of the kernel. -/
abbrev K (α : Type) : Type := Prog Kernel Stop α

/-- `panic`. -/
def panic {α : Type} (reason : Panic) : K α := fail (.panic reason)

/-- The entry of the inode cache. -/
def inode (k : ℕ) : K Inode := gets fun s => s.icache k

/-- Change an entry of the inode cache. -/
def modifyInode (k : ℕ) (f : Inode → Inode) : K Unit :=
  update fun s => { s with icache := Function.update s.icache k (f (s.icache k)) }

/-- Change fields of the copy of the disk inode. -/
def modifyDinode (k : ℕ) (f : Dinode → Dinode) : K Unit :=
  modifyInode k fun ip => { ip with d := f ip.d }

/-- Change an open file. -/
def modifyFile (f : ℕ) (change : File → File) : K Unit :=
  update fun s => { s with ftable := Function.update s.ftable f (change (s.ftable f)) }

/-- Change a process. -/
def modifyProc (p : ℕ) (change : Proc → Proc) : K Unit :=
  update fun s => { s with proc := Function.update s.proc p (change (s.proc p)) }

/-- `myproc()`. -/
def myproc : K Proc := gets Kernel.myproc

/-- Change the process whose call runs. -/
def modifyMyproc (change : Proc → Proc) : K Unit :=
  update fun s => { s with proc := Function.update s.proc s.cur (change s.myproc) }

end Xv6Uac
