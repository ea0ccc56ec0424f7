import Xv6Uac.Fs.OpenFiles
import Xv6Uac.Lib.Programs

/-!
# The system calls of the account programs

What the programs that read and write `/etc/passwd` and `/etc/group` see of the system: the two
files, their temporary files and the descriptors of the process. A descriptor is a file and an
offset in it, with the calls of `OpenFile`, which the kernel implements
(`open_file_is_byte_array`). A file that is unlinked stays as long as a descriptor has it.
-/

namespace Xv6Uac.Accounts

open Programs
open Function (update)

abbrev Bytes : Type := List UInt8

instance : LawfulBEq Bytes := inferInstance

/-- `/etc/passwd` and `/etc/group`. -/
inductive Account where
  | passwd
  | group
deriving DecidableEq

/-- An account file, or the temporary file with `tmp` at the end of its name. -/
inductive Path where
  | account (file : Account)
  | temp (file : Account)
deriving DecidableEq

/-- A file that is open, and the offset in it. -/
structure Descriptor where
  node : ℕ
  off : ℕ
deriving DecidableEq

/-- The files. The numbers from `next` on are not in use. -/
structure Disk where
  node : ℕ → Bytes
  name : Path → Option ℕ
  next : ℕ
  isDir : Bytes → Bool

/-- The process. -/
structure Task where
  ofile : ℕ → Option Descriptor
  uid : ℤ

structure State where
  disk : Disk
  task : Task

inductive Sys where
  | open (path : Path) (create : Bool)
  | lseek (fd offset whence : ℤ)
  | read (fd : ℤ) (n : ℕ)
  | write (fd : ℤ) (src : Bytes)
  | trim (fd : ℤ)
  | close (fd : ℤ)
  | unlink (path : Path)
  | chdir (path : Bytes)
  | getuid

abbrev Reply : Sys → Type
  | .read _ _ => ℤ × Bytes
  | _ => ℤ

/-- A program that makes system calls. -/
abbrev P (α : Type) : Type := Program Sys Reply α

/-! ## Descriptors -/

/-- `argfd`. -/
def Task.descriptor (t : Task) (fd : ℤ) : Option Descriptor :=
  if fd < 0 then none else t.ofile fd.toNat

/-- `fdalloc`. -/
def Task.fdalloc (t : Task) : Option ℕ := (List.range NOFILE).find? fun fd => (t.ofile fd).isNone

/-- A descriptor as an open file. -/
def State.file (s : State) (d : Descriptor) : OpenFile := ⟨s.disk.node d.node, d.off⟩

/-- An open file after a call. -/
def State.setFile (s : State) (fd : ℤ) (d : Descriptor) (a : OpenFile) : State where
  disk := { s.disk with node := update s.disk.node d.node a.bytes }
  task := { s.task with ofile := update s.task.ofile fd.toNat (some ⟨d.node, a.off⟩) }

/-- A new file. -/
def Disk.create (k : Disk) (path : Path) : Disk :=
  { k with
    node := update k.node k.next []
    name := update k.name path (some k.next)
    next := k.next + 1 }

/-- A descriptor for a file. -/
def State.open (s : State) (node : ℕ) : ℤ × State :=
  match s.task.fdalloc with
  | none => (-1, s)
  | some fd =>
    (fd, { s with
      task := { s.task with ofile := update s.task.ofile fd (some ⟨node, 0⟩) } })

/-! ## Calls -/

/-- What the kernel does for a call. -/
def kernel : Handler Sys Reply State
  | .open path create, s =>
    match s.disk.name path with
    | some node => s.open node
    | none =>
      if create then { s with disk := s.disk.create path }.open s.disk.next else (-1, s)
  | .lseek fd offset whence, s =>
    match s.task.descriptor fd with
    | none => (-1, s)
    | some d => (0, s.setFile fd d ((s.file d).seek offset whence))
  | .read fd n, s =>
    match s.task.descriptor fd with
    | none => ((-1, []), s)
    | some d => (((s.file d).read n).1, s.setFile fd d ((s.file d).read n).2)
  | .write fd src, s =>
    match s.task.descriptor fd with
    | none => ((-1 : ℤ), s)
    | some d => (((s.file d).write src).1, s.setFile fd d ((s.file d).write src).2)
  | .trim fd, s =>
    match s.task.descriptor fd with
    | none => ((-1 : ℤ), s)
    | some d => ((0 : ℤ), s.setFile fd d (s.file d).trim)
  | .close fd, s =>
    match s.task.descriptor fd with
    | none => ((-1 : ℤ), s)
    | some _ => ((0 : ℤ), { s with
        task := { s.task with ofile := update s.task.ofile fd.toNat none } })
  | .unlink path, s =>
    match s.disk.name path with
    | none => ((-1 : ℤ), s)
    | some _ => ((0 : ℤ), { s with
        disk := { s.disk with name := update s.disk.name path none } })
  | .chdir path, s => (if s.disk.isDir path then 0 else -1, s)
  | .getuid, s => (s.task.uid, s)

/-! ## Reading -/

/-- The program ends with `Q`. -/
abbrev Ends {α : Type} (p : P α) (Q : α → State → Prop) (s : State) : Prop :=
  always kernel (fun _ => True) p Q s

/-- Another offset. -/
def State.seekTo (s : State) (fd : ℤ) (node off : ℕ) : State :=
  { s with task := { s.task with
      ofile := update s.task.ofile fd.toNat (some ⟨node, off⟩) } }

variable {s : State} {fd : ℤ} {node off off' n : ℕ}

theorem State.descriptor_seekTo (valid : 0 ≤ fd) :
    (s.seekTo fd node off).task.descriptor fd = some ⟨node, off⟩ := by
  simp [State.seekTo, Task.descriptor, Int.not_lt.mpr valid]

theorem kernel_read (valid : 0 ≤ fd) :
    kernel (.read fd n) (s.seekTo fd node off) =
      ((OpenFile.read ⟨s.disk.node node, off⟩ n).1,
        s.seekTo fd node (OpenFile.read ⟨s.disk.node node, off⟩ n).2.off) := by
  have bytes : (OpenFile.read ⟨s.disk.node node, off⟩ n).2.bytes = s.disk.node node := by
    rw [OpenFile.read]
    split <;> rfl
  simp only [kernel, State.descriptor_seekTo valid, State.file, State.setFile]
  simp [State.seekTo, bytes]

theorem kernel_lseek {offset : ℤ} (valid : 0 ≤ fd) (least : 0 ≤ offset) (small : offset < 2 ^ 32) :
    kernel (.lseek fd offset 0) (s.seekTo fd node off) = (0, s.seekTo fd node offset.toNat) := by
  have place : (offset % 2 ^ 32).toNat = offset.toNat := by rw [Int.emod_eq_of_lt least small]
  simp only [kernel, State.descriptor_seekTo valid, State.file, State.setFile, OpenFile.seek, place]
  simp [State.seekTo]

/-! ## Wrappers -/

def sysOpen (path : Path) (create : Bool) : P ℤ := perform (Sys.open path create)

def lseek (fd offset whence : ℤ) : P ℤ := perform (Sys.lseek fd offset whence)

def read (fd : ℤ) (n : ℕ) : P (ℤ × Bytes) := perform (Sys.read fd n)

def write (fd : ℤ) (src : Bytes) : P ℤ := perform (Sys.write fd src)

def trim (fd : ℤ) : P ℤ := perform (Sys.trim fd)

def close (fd : ℤ) : P ℤ := perform (Sys.close fd)

def unlink (path : Path) : P ℤ := perform (Sys.unlink path)

def chdir (path : Bytes) : P ℤ := perform (Sys.chdir path)

def getuid : P ℤ := perform Sys.getuid

end Xv6Uac.Accounts
