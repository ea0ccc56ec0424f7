import Xv6Uac.Kernel.Syscall

/-!
# The state after booting

The state in which `userinit` leaves the kernel on an image: one process, which has the
root directory as its working directory. The entry of the root in the inode cache is not
valid yet, since `namei("/")` takes a reference and reads nothing.
-/

namespace Xv6Uac

open Words

/-- What the disk holds: the inodes, the free map and the data blocks. -/
structure Image where
  dinode : ℕ → Dinode
  bitmap : ℕ → Bool
  data : ℕ → Bytes

/-- The first process. -/
def Proc.init : Proc where
  state := .runnable
  pid := 1
  parent := none
  killed := false
  ofile _ := none
  cwd := some 0
  uid := 0
  euid := 0
  ngroups := 0
  gids _ := 0

/-- A slot of the process table that was never used. -/
def Proc.empty : Proc := { Proc.init with state := .unused, pid := 0, cwd := none }

/-- The state after `userinit`. -/
def Image.boot (image : Image) : Kernel where
  dinode := image.dinode
  bitmap := image.bitmap
  data := image.data
  outstanding := 0
  lh := []
  icache k := if k = 0 then ⟨ROOTINO, 1, false, false, .zero⟩ else ⟨0, 0, false, false, .zero⟩
  ftable _ := ⟨.none, 0, false, false, none, none, 0⟩
  pipes _ := ⟨[], false, false⟩
  npipe := 0
  devreads := 0
  proc p := if p = 0 then .init else .empty
  nextpid := 2
  initproc := 0
  cur := 0

end Xv6Uac
