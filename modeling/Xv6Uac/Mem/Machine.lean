import Xv6Uac.Kernel.State
import Xv6Uac.Lib.TraceRun
import Xv6Uac.Mem.Pages

/-!
# Calls that take and give back pages

`fork`, `exec`, `sbrk`, `exit`, `wait`, `pipe` and `close` on the memory of the machine: the
kernel stacks, page directories and sizes of the processes, and the pipes. A pipe is the page
that holds it. What `exec` reads from the file system is an argument.
-/

namespace Xv6Uac.Memory

open Hoare

/-- `struct proc`, as far as it is about memory and open files. -/
structure Proc where
  state : ProcState
  pid : ℤ
  parent : Option ℕ
  kstack : Option ℕ
  pgdir : Option ℕ
  sz : ℕ
  ofile : ℕ → Option ℕ

/-- `struct file`: the pipe of a file of type `FD_PIPE`, and whether it is the write end. -/
structure File where
  ref : ℤ
  pipe : Option (ℕ × Bool)

/-- The state. `stack` has the stacks on which the schedulers of the other CPUs run, and
`ends` the fields `readopen` and `writeopen` of the pipe in a page. -/
structure Machine where
  mem : Mem
  kpgdir : Option ℕ
  stack : ℕ → Option ℕ
  proc : ℕ → Proc
  nextpid : ℤ
  initproc : ℕ
  file : ℕ → File
  ends : ℕ → Bool → Bool
  cur : ℕ

abbrev M (α : Type) : Type := Prog Machine Stop α

/-- A function of `kalloc.c` or `vm.c`. -/
def vm {α : Type} (m : Prog Mem Stop α) : M α :=
  zoom Machine.mem (fun mem s => { s with mem := mem }) m

def modifyProc (p : ℕ) (change : Proc → Proc) : M Unit :=
  update fun s => { s with proc := Function.update s.proc p (change (s.proc p)) }

def modifyFile (i : ℕ) (change : File → File) : M Unit :=
  update fun s => { s with file := Function.update s.file i (change (s.file i)) }

def myproc : M Proc := gets fun s => s.proc s.cur

/-- `p->pgdir` where the kernel uses it. -/
def pgdir (proc : Proc) : M ℕ :=
  match proc.pgdir with
  | none => fail .fault
  | some d => pure d

variable (L : Layout)

/-! ## Files and pipes -/

def filealloc : M (Option ℕ) := do
  let free ← gets fun s => (List.range NFILE).find? fun i => (s.file i).ref = 0
  match free with
  | none => pure none
  | some i => do
    modifyFile i fun file => { file with ref := 1 }
    pure (some i)

def filedup (i : ℕ) : M Unit := do
  let file ← gets fun s => s.file i
  if file.ref < 1 then fail .filedup
  else modifyFile i fun file => { file with ref := file.ref + 1 }

def pipeclose (f : ℕ) (writable : Bool) : M Unit := do
  update fun s => { s with
    ends := Function.update s.ends f (Function.update (s.ends f) writable false) }
  let ends ← gets fun s => s.ends f
  when (ends false = false ∧ ends true = false) (vm (kfree L f))

def fileclose (i : ℕ) : M Unit := do
  let file ← gets fun s => s.file i
  if file.ref < 1 then
    fail .fileclose
  else if 1 < file.ref then
    modifyFile i fun file => { file with ref := file.ref - 1 }
  else do
    modifyFile i fun _ => ⟨0, none⟩
    match file.pipe with
    | none => pure ()
    | some (f, writable) => pipeclose L f writable

def pipealloc : M (Option (ℕ × ℕ)) := do
  let read ← filealloc
  match read with
  | none => pure none
  | some f0 => do
    let write ← filealloc
    match write with
    | none => do
      fileclose L f0
      pure none
    | some f1 => do
      let page ← vm (kalloc L)
      match page with
      | none => do
        fileclose L f0
        fileclose L f1
        pure none
      | some f => do
        update fun s => { s with ends := Function.update s.ends f fun _ => true }
        modifyFile f0 fun file => { file with pipe := some (f, false) }
        modifyFile f1 fun file => { file with pipe := some (f, true) }
        pure (some (f0, f1))

/-- Change a descriptor of the process. -/
def setOfile (p fd : ℕ) (i : Option ℕ) : M Unit :=
  modifyProc p fun proc => { proc with ofile := Function.update proc.ofile fd i }

def fdalloc (i : ℕ) : M (Option ℕ) := do
  let cur ← gets Machine.cur
  let p ← myproc
  match (List.range NOFILE).find? fun fd => (p.ofile fd).isNone with
  | none => pure none
  | some fd => do
    setOfile cur fd (some i)
    pure (some fd)

def sysPipe : M ℤ := do
  let made ← pipealloc L
  match made with
  | none => pure (-1)
  | some (rf, wf) => do
    let fd0 ← fdalloc rf
    match fd0 with
    | none => do
      fileclose L rf
      fileclose L wf
      pure (-1)
    | some fd0 => do
      let fd1 ← fdalloc wf
      match fd1 with
      | none => do
        let cur ← gets Machine.cur
        setOfile cur fd0 none
        fileclose L rf
        fileclose L wf
        pure (-1)
      | some _ => pure 0

def sysClose (fd : ℤ) : M ℤ := do
  let cur ← gets Machine.cur
  let p ← myproc
  match if fd < 0 ∨ NOFILE ≤ fd then none else p.ofile fd.toNat with
  | none => pure (-1)
  | some i => do
    setOfile cur fd.toNat none
    fileclose L i
    pure 0

/-! ## Processes -/

def allocproc : M (Option ℕ) := do
  let free ← gets fun s => (List.range NPROC).find? fun p => (s.proc p).state = .unused
  match free with
  | none => pure none
  | some p => do
    let pid ← gets Machine.nextpid
    update fun s => { s with nextpid := pid + 1 }
    modifyProc p fun proc => { proc with state := .embryo, pid := pid }
    let kstack ← vm (kalloc L)
    modifyProc p fun proc => { proc with kstack := kstack }
    match kstack with
    | none => do
      modifyProc p fun proc => { proc with state := .unused }
      pure none
    | some _ => pure (some p)

/-- `kfree(p->kstack); p->kstack = 0`. -/
def freeKstack (p : ℕ) : M Unit := do
  let proc ← gets fun s => s.proc p
  match proc.kstack with
  | none => fail .kfree
  | some f => do
    vm (kfree L f)
    modifyProc p fun proc => { proc with kstack := none }

/-- The loop of `fork` over the open files. -/
def forkFile (np fd : ℕ) : M Unit := do
  let p ← myproc
  match p.ofile fd with
  | none => pure ()
  | some i => do
    filedup i
    setOfile np fd (some i)

def fork : M ℤ := do
  let new ← allocproc L
  match new with
  | none => pure (-1)
  | some np => do
    let cur ← gets Machine.cur
    let p ← myproc
    let old ← pgdir p
    let copy ← vm (copyuvm L old p.sz)
    modifyProc np fun proc => { proc with pgdir := copy }
    match copy with
    | none => do
      freeKstack L np
      modifyProc np fun proc => { proc with state := .unused }
      pure (-1)
    | some _ => do
      modifyProc np fun proc => { proc with sz := p.sz, parent := some cur }
      upto NOFILE (forkFile np)
      modifyProc np fun proc => { proc with state := .runnable }
      let proc ← gets fun s => s.proc np
      pure proc.pid

/-- The loop of `exit` over the open files. -/
def exitFile (fd : ℕ) : M Unit := do
  let cur ← gets Machine.cur
  let p ← myproc
  match p.ofile fd with
  | none => pure ()
  | some i => do
    fileclose L i
    setOfile cur fd none

def exit : M ℤ := do
  let cur ← gets Machine.cur
  let init ← gets Machine.initproc
  if cur = init then
    fail .initExiting
  else do
    upto NOFILE (exitFile L)
    update fun s => { s with
      proc := fun q =>
        if (s.proc q).parent = some cur then { s.proc q with parent := some init }
        else s.proc q }
    modifyProc cur fun proc => { proc with state := .zombie }
    pure 0

def wait : M ℤ := do
  let cur ← gets Machine.cur
  let dead ← gets fun s => (List.range NPROC).find? fun q =>
    (s.proc q).parent = some cur ∧ (s.proc q).state = .zombie
  let kid ← gets fun s => (List.range NPROC).find? fun q => (s.proc q).parent = some cur
  match dead with
  | some q => do
    let proc ← gets fun s => s.proc q
    freeKstack L q
    let d ← pgdir proc
    vm (freevm L d)
    modifyProc q fun proc => { proc with pid := 0, parent := none, state := .unused }
    pure proc.pid
  | none => if kid = none then pure (-1) else fail .sleeping

/-- Grow the memory of the process by `n` bytes, an `int`. Sizes are added in 32 bits. -/
def growproc (n : BitVec 32) : M ℤ := do
  let cur ← gets Machine.cur
  let p ← myproc
  let d ← pgdir p
  if 0 < n.toInt then do
    let sz ← vm (allocuvm L d p.sz ((p.sz + n.toNat) % 2 ^ 32))
    if sz = 0 then
      pure (-1)
    else do
      modifyProc cur fun proc => { proc with sz := sz }
      pure 0
  else if n.toInt < 0 then do
    let sz ← vm (deallocuvm L d p.sz ((p.sz + n.toNat) % 2 ^ 32))
    if sz = 0 then
      pure (-1)
    else do
      modifyProc cur fun proc => { proc with sz := sz }
      pure 0
  else
    pure 0

def sysSbrk (n : BitVec 32) : M ℤ := do
  let p ← myproc
  let grown ← growproc L n
  if grown < 0 then pure (-1) else pure p.sz

/-! ## Exec -/

/-- A program header, whether it and the pages of its segment can be read. -/
structure Segment where
  read : Bool
  load : Bool
  vaddr : BitVec 32
  memsz : BitVec 32
  filesz : BitVec 32
  reads : ℕ → Bool

/-- A program: whether it is found, can be executed and has an ELF header, its program headers
and whether the arguments fit on the stack. -/
structure Program where
  found : Bool
  segments : List Segment
  args : Bool

/-- The loop of `exec` over the program headers: the size of the image. -/
def loadSegments (d : ℕ) : List Segment → ℕ → Prog Mem Stop (Option ℕ)
  | [], sz => pure (some sz)
  | ph :: rest, sz =>
    if ph.read = false then
      pure none
    else if ph.load = false then
      loadSegments d rest sz
    else if ph.memsz.toNat < ph.filesz.toNat then
      pure none
    else if (ph.vaddr + ph.memsz).toNat < ph.vaddr.toNat then
      pure none
    else do
      let sz ← allocuvm L d sz (ph.vaddr + ph.memsz).toNat
      if sz = 0 then
        pure none
      else if ph.vaddr.toNat % PGSIZE ≠ 0 then
        pure none
      else do
        let loaded ← loaduvm L d ph.reads (pages ph.filesz.toNat) (ph.vaddr.toNat / PGSIZE)
        if loaded then loadSegments d rest sz else pure none

/-- The size of the new image, with the stack. -/
def loadImage (d : ℕ) (program : Program) : Prog Mem Stop (Option ℕ) := do
  let image ← loadSegments L d program.segments 0
  match image with
  | none => pure none
  | some sz => do
    let sz ← allocuvm L d (pages sz * PGSIZE) (pages sz * PGSIZE + 2 * PGSIZE)
    if sz = 0 then
      pure none
    else do
      clearpteu L d (sz / PGSIZE - 2)
      if program.args then pure (some sz) else pure none

def exec (program : Program) : M ℤ :=
  if program.found = false then
    pure (-1)
  else do
    let new ← vm (setupkvm L)
    match new with
    | none => pure (-1)
    | some d => do
      let image ← vm (loadImage L d program)
      match image with
      | none => do
        vm (freevm L d)
        pure (-1)
      | some sz => do
        let cur ← gets Machine.cur
        let p ← myproc
        let old ← pgdir p
        modifyProc cur fun proc => { proc with pgdir := some d, sz := sz }
        vm (freevm L old)
        pure 0

/-! ## Boot -/

/-- `freerange` for the frames from `a` up to `b`. -/
def freerange (a b : ℕ) : Prog Mem Stop Unit := upto (b - a) fun i => kfree L (a + i)

def kvmalloc : M Unit := do
  let made ← vm (setupkvm L)
  match made with
  | none => fail .fault
  | some d => update fun s => { s with kpgdir := some d }

/-- The stack of another CPU. -/
def startother (c : ℕ) : M Unit := do
  let stack ← vm (kalloc L)
  match stack with
  | none => fail .fault
  | some f => update fun s => { s with stack := Function.update s.stack (c + 1) (some f) }

/-- `inituvm`. It does not look at what `kalloc` and `mappages` return, and the model stops
where they fail. -/
def inituvm (d : ℕ) : Prog Mem Stop Unit := do
  let mem ← kalloc L
  match mem with
  | none => fail .fault
  | some f => do
    memset f .zero
    let mapped ← mappages L d true true 1 0 f
    if mapped then pure () else fail .fault

def userinit : M Unit := do
  let new ← allocproc L
  match new with
  | none => fail .fault
  | some p => do
    update fun s => { s with initproc := p }
    let made ← vm (setupkvm L)
    match made with
    | none => fail .userinit
    | some d => do
      vm (inituvm L d)
      modifyProc p fun proc => { proc with pgdir := some d, sz := PGSIZE, state := .runnable }

/-- `main`, as far as it is about memory. -/
def boot : M Unit := do
  vm (freerange L L.first L.mid)
  kvmalloc L
  upto (L.ncpu - 1) (startother L)
  vm (freerange L L.mid L.last)
  userinit L

/-- The machine before `main`. -/
def Machine.off : Machine where
  mem := ⟨[], 0, fun _ _ => .zero⟩
  kpgdir := none
  stack _ := none
  proc _ := ⟨.unused, 0, none, none, none, 0, fun _ => none⟩
  nextpid := 1
  initproc := 0
  file _ := ⟨0, none⟩
  ends _ _ := false
  cur := 0

/-! ## Runs -/

inductive Call where
  | fork
  | exec (program : Program)
  | sbrk (n : BitVec 32)
  | exit
  | wait
  | pipe
  | close (fd : ℤ)

def dispatch : Call → M ℤ
  | .fork => fork L
  | .exec program => exec L program
  | .sbrk n => sysSbrk L n
  | .exit => exit L
  | .wait => wait L
  | .pipe => sysPipe L
  | .close fd => sysClose L fd

/-- A process, its call and the value returned. -/
structure Step where
  p : ℕ
  call : Call
  ret : ℤ

/-- The scheduler switches to a process. -/
def Machine.switch (s : Machine) (p : ℕ) : Machine := { s with cur := p }

/-- A completed call of a live process. -/
def step (s : Machine) (taken : Step) (t : Machine) : Prop :=
  (s.proc taken.p).state = .runnable ∧
    dispatch L taken.call (s.switch taken.p) = .ok (taken.ret, t)

/-- The states after booting. -/
def Boots (s : Machine) : Prop := boot L .off = .ok ((), s)

end Xv6Uac.Memory
