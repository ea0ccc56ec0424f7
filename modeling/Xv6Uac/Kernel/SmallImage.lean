import Xv6Uac.Kernel.Boot

/-!
# A small file system

An image with a root directory and a few inodes, on which concrete calls can be
evaluated. The layout is the one `mkfs` gives an image of sixty blocks and ten
inodes. Process 0 is the first process and process 1 belongs to an ordinary user.
-/

namespace Xv6Uac.SmallImage

open Words

/-- The superblock of the image. -/
def sb : Superblock where
  size := 60
  ninodes := 10
  nlog := 30
  inodestart := 32
  bmapstart := 38
  size_lt := by decide
  ninodes_le := by decide

/-- A kernel without devices. -/
def cfg : Config where
  sb := sb
  short x := x.bmod (2 ^ 16)
  devRead _ := none
  devWrite _ := none

/-- An inode with at most one block. -/
def inodeOf (type : InodeType) (nlink : ℤ) (size block : ℕ) (uid : ℤ) (mode : BitVec 16) :
    Dinode :=
  { Dinode.zero with
    type := type
    nlink := nlink
    size := size
    addrs := fun i => if i = 0 then block else 0
    uid := uid
    gid := uid
    mode := mode }

/-- A block of directory entries. -/
def blockOf (entries : List (ℕ × List UInt8)) : Bytes := fun j =>
  (entries.flatMap fun e => Dirent.toBytes ⟨e.1, strncpy DIRSIZ e.2⟩).getD j 0

/-- A live process with the root as its current directory. -/
def procOf (pid uid : ℤ) : Proc where
  state := .runnable
  pid := pid
  parent := some 0
  killed := false
  ofile _ := none
  cwd := some 0
  uid := uid
  euid := uid
  ngroups := 0
  gids _ := 0

/-- The state after booting from an image, with an ordinary user's process
running. Entry 0 of the inode cache is the root directory. -/
def boot (dinode : ℕ → Dinode) (bitmap : ℕ → Bool) (data : ℕ → Bytes) : Kernel where
  dinode := dinode
  bitmap := bitmap
  data := data
  outstanding := 0
  lh := []
  icache k := ⟨if k = 0 then ROOTINO else 0, if k = 0 then 2 else 0, false, false, .zero⟩
  ftable _ := ⟨.none, 0, false, false, none, none, 0⟩
  pipes _ := ⟨[], false, false⟩
  npipe := 0
  devreads := 0
  proc p :=
    if p = 0 then procOf 1 0
    else if p = 1 then procOf 2 1
    else { procOf 0 0 with state := .unused, parent := none, cwd := none }
  nextpid := 3
  initproc := 0
  cur := 1

/-- An inode of an image and its contents, which fit into one block. -/
structure Seed where
  type : InodeType
  nlink : ℤ
  uid : ℤ
  mode : BitVec 16
  bytes : List UInt8
deriving DecidableEq

/-- A directory with the given entries. -/
def Seed.dir (nlink uid : ℤ) (mode : BitVec 16) (entries : List (ℕ × List UInt8)) : Seed where
  type := .dir
  nlink := nlink
  uid := uid
  mode := mode
  bytes := entries.flatMap fun e => Dirent.toBytes ⟨e.1, strncpy DIRSIZ e.2⟩

/-- The inode of a seed with the number `i`. -/
def Seed.inode (seed : Seed) (i : ℕ) : Dinode :=
  inodeOf seed.type seed.nlink seed.bytes.length (if seed.bytes = [] then 0 else 38 + i) seed.uid
    seed.mode

/-- The image with the given inodes from 1 on. Inode `i` has block `38 + i`, if it has
contents. -/
def imageOf (seeds : List Seed) : Image where
  dinode
    | 0 => .zero
    | i + 1 => ((seeds[i]?).map fun seed => seed.inode (i + 1)).getD .zero
  bitmap b := b < 39 || ((seeds[b - 39]?).map fun seed => seed.bytes != []).getD false
  data b j := if b < 39 then 0 else ((seeds[b - 39]?).map fun seed => seed.bytes.getD j 0).getD 0

/-- Run a call and test that it returns `r` in a state that passes a check. -/
def ends (m : K ℤ) (s : Kernel) (r : ℤ) (check : Kernel → Bool) : Bool :=
  match m s with
  | .ok (a, t) => a == r && check t
  | .error _ => false

theorem exists_of_ends {m : K ℤ} {s : Kernel} {r : ℤ} {check : Kernel → Bool}
    (passed : ends m s r check = true) : ∃ t, m s = .ok (r, t) ∧ check t = true := by
  simp only [ends] at passed
  split at passed
  · rename_i a t run
    simp only [Bool.and_eq_true, beq_iff_eq] at passed
    exact ⟨t, by rw [run, passed.1], passed.2⟩
  · cases passed

/-- Run a call and test that it stops for the given reason. -/
def stops (m : K ℤ) (s : Kernel) (reason : Stop) : Bool :=
  match m s with
  | .ok _ => false
  | .error why => why == reason

theorem error_of_stops {m : K ℤ} {s : Kernel} {reason : Stop} (stopped : stops m s reason = true) :
    m s = .error reason := by
  simp only [stops] at stopped
  split at stopped
  · cases stopped
  · rename_i why failed
    rw [failed, beq_iff_eq.mp stopped]

/-- Take a step, if the process is live and the call returns the given value. -/
def tryStep (cfg : Config) (s : Kernel) (taken : Step) : Option Kernel :=
  if taken.p < NPROC ∧ (s.proc taken.p).state = .runnable then
    match dispatch cfg taken.call (s.switch taken.p) with
    | .ok (r, t) => if r = taken.ret then some t else none
    | .error _ => none
  else
    none

theorem step_of_tryStep {cfg : Config} {s t : Kernel} {taken : Step}
    (taking : tryStep cfg s taken = some t) : step cfg s taken t := by
  simp only [tryStep] at taking
  split at taking
  · rename_i live
    split at taking
    · rename_i r u run
      split at taking
      · rename_i same
        cases taking
        exact ⟨live.1, live.2, by rw [run, same]⟩
      · cases taking
    · cases taking
  · cases taking

/-- A step to a state that passes a check. -/
theorem exists_of_tryStep {cfg : Config} {s : Kernel} {taken : Step} {check : Kernel → Bool}
    (passed : (tryStep cfg s taken).any check = true) :
    ∃ t, step cfg s taken t ∧ check t = true := by
  cases taking : tryStep cfg s taken with
  | none => simp [taking] at passed
  | some t => exact ⟨t, step_of_tryStep taking, by simpa [taking] using passed⟩

/-- Take the steps of a trace, the latest first in the list. -/
def play (cfg : Config) (start : Kernel) : List Step → Option Kernel
  | [] => some start
  | taken :: older => (play cfg start older).bind fun s => tryStep cfg s taken

theorem run_of_play {cfg : Config} {start : Kernel} {trace : List Step} {s : Kernel}
    (played : play cfg start trace = some s) : KernelRun cfg start trace s := by
  induction trace generalizing s with
  | nil =>
    cases played
    exact .refl
  | cons taken older ih =>
    obtain ⟨t, before, taking⟩ := Option.bind_eq_some_iff.mp played
    exact .tail (ih before) (step_of_tryStep taking)

/-- A run to a state that passes a check. -/
theorem exists_of_play {cfg : Config} {start : Kernel} {trace : List Step} {check : Kernel → Bool}
    (passed : (play cfg start trace).any check = true) :
    ∃ s, KernelRun cfg start trace s ∧ check s = true := by
  cases played : play cfg start trace with
  | none => simp [played] at passed
  | some s => exact ⟨s, run_of_play played, by simpa [played] using passed⟩

end Xv6Uac.SmallImage
