import Xv6Uac.Kernel.Sysfile

/-!
# Processes

The functions of `proc.c` and `sysproc.c` that make, end and name processes and
that set their credentials. Whether memory can be allocated is an argument.
-/

namespace Xv6Uac

open Words Hoare

variable (cfg : Config)

/-- Look for an unused process and give it a pid. -/
def allocproc (kalloc : Bool) : K (Option ℕ) := do
  let free ← gets fun s => (List.range NPROC).find? fun p => (s.proc p).state = .unused
  match free with
  | none => pure none
  | some p => do
    let pid ← gets Kernel.nextpid
    update fun s => { s with nextpid := pid + 1 }
    if kalloc then do
      modifyProc p fun proc => { proc with state := .embryo, pid := pid }
      pure (some p)
    else do
      modifyProc p fun proc => { proc with state := .unused, pid := pid }
      pure none

/-- The loop of `fork` over the open files. -/
def forkFiles (np fd : ℕ) : K Unit := do
  let p ← myproc
  match p.ofile fd with
  | none => pure ()
  | some f => do
    filedup f
    modifyProc np fun proc => { proc with ofile := Function.update proc.ofile fd (some f) }

/-- `fork`. -/
def sysFork (kalloc copyuvm : Bool) : K ℤ := do
  let new ← allocproc kalloc
  match new with
  | none => pure (-1)
  | some np =>
    if copyuvm then do
      let cur ← gets Kernel.cur
      let p ← myproc
      modifyProc np fun proc =>
        { proc with
          parent := some cur
          uid := p.uid
          euid := p.euid
          ngroups := p.ngroups
          gids := fun i => if i < MAXGROUPS then p.gids i else proc.gids i }
      upto NOFILE (forkFiles np)
      match p.cwd with
      | none => fail .fault
      | some k => do
        let k ← idup k
        modifyProc np fun proc => { proc with cwd := some k, state := .runnable }
        let proc ← gets fun s => s.proc np
        pure proc.pid
    else do
      modifyProc np fun proc => { proc with state := .unused }
      pure (-1)

/-- The loop of `exit` over the open files. -/
def exitFile (fd : ℕ) : K Unit := do
  let p ← myproc
  match p.ofile fd with
  | none => pure ()
  | some f => do
    fileclose cfg f
    modifyMyproc fun p => { p with ofile := Function.update p.ofile fd none }

/-- `exit`. The process stays as a zombie until its parent waits for it. -/
def sysExit : K ℤ := do
  let cur ← gets Kernel.cur
  let init ← gets Kernel.initproc
  if cur = init then
    panic .initExiting
  else do
    upto NOFILE (exitFile cfg)
    let p ← myproc
    match p.cwd with
    | none => fail .fault
    | some k => do
      beginOp
      iput cfg k
      endOp
      modifyMyproc fun p => { p with cwd := none }
      -- pass abandoned children to init
      update fun s => { s with
        proc := fun q =>
          if (s.proc q).parent = some cur then { s.proc q with parent := some init }
          else s.proc q }
      modifyMyproc fun p => { p with state := .zombie }
      pure 0

/-- `wait`. -/
def sysWait : K ℤ := do
  let cur ← gets Kernel.cur
  let p ← myproc
  let dead ← gets fun s => (List.range NPROC).find? fun q =>
    (s.proc q).parent = some cur ∧ (s.proc q).state = .zombie
  let kid ← gets fun s => (List.range NPROC).find? fun q => (s.proc q).parent = some cur
  match dead with
  | some q => do
    let proc ← gets fun s => s.proc q
    modifyProc q fun proc =>
      { proc with pid := 0, parent := none, killed := false, state := .unused }
    pure proc.pid
  | none => if kid = none ∨ p.killed then pure (-1) else fail .sleeping

/-- `kill`. -/
def sysKill (pid : ℤ) : K ℤ := do
  let found ← gets fun s => (List.range NPROC).find? fun q => (s.proc q).pid = pid
  match found with
  | none => pure (-1)
  | some q => do
    modifyProc q fun proc => { proc with killed := true }
    pure 0

/-- `setuid`. -/
def sysSetuid (newid : ℤ) : K ℤ := do
  let p ← myproc
  if p.euid = 0 then do
    modifyMyproc fun p => { p with uid := newid, euid := newid }
    pure 0
  else
    pure (-1)

/-- `setgrps`. The size of the array is computed in 32 bits. A negative number
of groups whose product is not negative gets past the check, and the loop that
clears the rest of `gids` then runs over all of memory. -/
def sysSetgrps (ngroups : ℤ) (gids : ℕ → ℤ) : K ℤ := do
  let p ← myproc
  if p.euid ≠ 0 then
    pure (-1)
  else if (ngroups * 4).bmod (2 ^ 32) < 0 then
    pure (-1)
  else if ngroups < 0 then
    fail .fault
  else do
    modifyMyproc fun p =>
      { p with
        ngroups := min ngroups.toNat MAXGROUPS
        gids := fun i => if i < min ngroups.toNat MAXGROUPS then gids i
          else if i < MAXGROUPS then 0 else p.gids i }
    pure 0

end Xv6Uac
