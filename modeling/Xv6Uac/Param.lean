import Mathlib.Data.Nat.Notation

/-!
# Parameters of the kernel

The constants of `param.h`, `fs.h`, `fcntl.h` and `pipe.c` under the names they
have in the source.
-/

namespace Xv6Uac

/-- Processes. -/
abbrev NPROC : ℕ := 64
/-- CPUs. -/
abbrev NCPU : ℕ := 8
/-- Open files per process. -/
abbrev NOFILE : ℕ := 16
/-- Open files per system. -/
abbrev NFILE : ℕ := 100
/-- Active inodes. -/
abbrev NINODE : ℕ := 50
/-- Major device numbers. -/
abbrev NDEV : ℕ := 10
/-- Most blocks a file system operation may write. -/
abbrev MAXOPBLOCKS : ℕ := 10
/-- Most data blocks in the on-disk log. -/
abbrev LOGSIZE : ℕ := MAXOPBLOCKS * 3
/-- Buffers of the disk block cache. -/
abbrev NBUF : ℕ := MAXOPBLOCKS * 3
/-- Size of the file system in blocks. -/
abbrev FSSIZE : ℕ := 4000
/-- The device of the root file system. -/
abbrev ROOTDEV : ℕ := 1
/-- Arguments of `exec`. -/
abbrev MAXARG : ℕ := 32
/-- Supplementary groups of a process. -/
abbrev MAXGROUPS : ℕ := 32

/-- The inode of the root directory. -/
abbrev ROOTINO : ℕ := 1
/-- Bytes in a block. -/
abbrev BSIZE : ℕ := 512
/-- Direct block addresses of an inode. -/
abbrev NDIRECT : ℕ := 57
/-- Block addresses in an indirect block. -/
abbrev NINDIRECT : ℕ := BSIZE / 4
/-- Most blocks of one file. -/
abbrev MAXFILE : ℕ := NDIRECT + NINDIRECT
/-- Inodes in a block. -/
abbrev IPB : ℕ := BSIZE / 256
/-- Bitmap bits in a block. -/
abbrev BPB : ℕ := BSIZE * 8
/-- Bytes of a directory entry's name. -/
abbrev DIRSIZ : ℕ := 14
/-- Bytes of a directory entry, `sizeof(struct dirent)`. -/
abbrev DIRENT : ℕ := 2 + DIRSIZ
/-- Bytes of a page. -/
abbrev PGSIZE : ℕ := 4096
/-- Entries of a page directory, and of a page table. -/
abbrev NPTENTRIES : ℕ := 1024
/-- The first virtual address of the kernel. -/
abbrev KERNBASE : ℕ := 0x80000000
/-- Bytes a pipe holds. -/
abbrev PIPESIZE : ℕ := 512

/-- Open for reading. -/
abbrev O_RDONLY : BitVec 32 := 0o4
/-- Open for writing. -/
abbrev O_WRONLY : BitVec 32 := 0o2
/-- Create the file if the path names none. -/
abbrev O_CREATE : BitVec 32 := 0o70

end Xv6Uac
