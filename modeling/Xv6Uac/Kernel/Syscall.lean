import Xv6Uac.Kernel.Process
import Xv6Uac.Lib.TraceRun

/-!
# System calls and runs

The calls a process can make, as fetched from its stack, and the runs of the
kernel: a step is a completed call of a process that is not dead. A call that
waits for another process is a step when it completes. Calls by different
processes follow each other in any order.
-/

namespace Xv6Uac

open Words Hoare

/-- The system calls. `invalid` is a call with an unknown number or with
arguments that cannot be fetched. `other` is one of `sbrk`, `sleep`, `uptime`,
`clrscr`, `hideinp` and `showinp`, which touch nothing that is modelled here. -/
inductive Call where
  | fork (kalloc copyuvm : Bool)
  | exit
  | wait
  | pipe (kalloc : Bool)
  | read (fd : ℤ) (n : ℕ)
  | kill (pid : ℤ)
  | exec (vm : Vm) (path : List UInt8)
  | fstat (fd : ℤ)
  | chdir (path : List UInt8)
  | dup (fd : ℤ)
  | getpid
  | open (path : List UInt8) (omode : BitVec 32)
  | write (fd : ℤ) (src : List UInt8)
  | mknod (path : List UInt8) (major minor : ℤ)
  | unlink (path : List UInt8)
  | link (old new : List UInt8)
  | mkdir (path : List UInt8)
  | close (fd : ℤ)
  | getuid
  | geteuid
  | setuid (newid : ℤ)
  | chmod (path : List UInt8) (mode : BitVec 32)
  | chown (path : List UInt8) (owner group : ℤ)
  | lseek (fd offset whence : ℤ)
  | trim (fd : ℤ)
  | setgrps (ngroups : ℤ) (gids : ℕ → ℤ)
  | invalid
  | other

/-- The table `syscalls`. -/
def dispatch (cfg : Config) : Call → K ℤ
  | .fork kalloc copyuvm => sysFork kalloc copyuvm
  | .exit => sysExit cfg
  | .wait => sysWait
  | .pipe kalloc => sysPipe cfg kalloc
  | .read fd n => sysRead cfg fd n
  | .kill pid => sysKill pid
  | .exec vm path => sysExec cfg vm path
  | .fstat fd => sysFstat cfg fd
  | .chdir path => sysChdir cfg path
  | .dup fd => sysDup fd
  | .getpid => gets fun s => s.myproc.pid
  | .open path omode => sysOpen cfg path omode
  | .write fd src => sysWrite cfg fd src
  | .mknod path major minor => sysMknod cfg path major minor
  | .unlink path => sysUnlink cfg path
  | .link old new => sysLink cfg old new
  | .mkdir path => sysMkdir cfg path
  | .close fd => sysClose cfg fd
  | .getuid => gets fun s => s.myproc.uid
  | .geteuid => gets fun s => s.myproc.euid
  | .setuid newid => sysSetuid newid
  | .chmod path mode => sysChmod cfg path mode
  | .chown path owner group => sysChown cfg path owner group
  | .lseek fd offset whence => sysLseek fd offset whence
  | .trim fd => sysTrim cfg fd
  | .setgrps ngroups gids => sysSetgrps ngroups gids
  | .invalid => pure (-1)
  | .other => pure 0

/-- The scheduler switches to process `p`. -/
def Kernel.switch (s : Kernel) (p : ℕ) : Kernel := { s with cur := p }

@[simp] theorem Kernel.switch_cur (s : Kernel) (p : ℕ) : (s.switch p).cur = p := rfl
@[simp] theorem Kernel.switch_proc (s : Kernel) (p : ℕ) : (s.switch p).proc = s.proc := rfl

/-- What a step of a run is: a process, its call and the value returned. -/
structure Step where
  p : ℕ
  call : Call
  ret : ℤ

/-- A completed call of a live process. -/
def step (cfg : Config) (s : Kernel) (taken : Step) (s' : Kernel) : Prop :=
  taken.p < NPROC ∧ (s.proc taken.p).state = .runnable ∧
    dispatch cfg taken.call (s.switch taken.p) = .ok (taken.ret, s')

/-- The runs of the kernel from a state. -/
abbrev KernelRun (cfg : Config) (start : Kernel) : List Step → Kernel → Prop :=
  TraceRun.Run (step cfg) start

end Xv6Uac
