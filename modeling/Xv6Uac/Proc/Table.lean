import Mathlib.Data.Int.ModEq
import Xv6Uac.Kernel.State
import Xv6Uac.Lib.TraceRun

/-!
# The process table

`fork`, `exit`, `wait`, `kill`, `sleep` and `wakeup1` of `proc.c`, at the granularity of
`ptable.lock`: what a function does while it holds the lock is one action. `fork` is four
actions. `allocproc` takes a slot under the lock, the stack and the memory of the child are
allocated without it, the parent is set, and the child is made runnable under the lock
again. A process that is woken in `wait` gets the lock from the scheduler, so that the
scheduler's choice and the next scan of the table are one action.

A process can sleep for other reasons than `wait` (in `exit` while it closes its files, or
anywhere else in the kernel). The model has such sleeps and wakeups on other channels.

The slots have a `serial` number that the code does not have. It says which allocation of a
slot this is, so that processes can be told apart when slots and pids are used again.
-/

namespace Xv6Uac.Ptable

/-! ## State -/

/-- `enum procstate`. -/
inductive ProcState where
  | unused
  | embryo
  | sleeping
  | runnable
  | running
  | zombie
deriving DecidableEq, Repr

/-- What a process sleeps on: the address of a process, or something else. -/
inductive Chan where
  | proc (p : ℕ)
  | other (c : ℕ)
deriving DecidableEq, Repr

/-- A slot of the table. -/
structure Slot where
  state : ProcState
  pid : ℤ
  parent : Option ℕ
  chan : Option Chan
  killed : Bool
  serial : ℕ
deriving DecidableEq, Repr

/-- Where a process is: in `fork` with the slot of the child, before or after the child has
its memory and its parent, in `wait` after it went to sleep there, or anywhere else. -/
inductive Control where
  | elsewhere
  | forking (np : ℕ)
  | copied (np : ℕ)
  | waiting
deriving DecidableEq, Repr

/-- The process table, the variables of `proc.c`, and where each process is. -/
structure Table where
  proc : ℕ → Slot
  control : ℕ → Control
  nextpid : ℤ
  births : ℕ
  initproc : ℕ

/-- What can be seen of an action: the processes it is about, by their serial numbers, and
the value returned. -/
inductive Event where
  | silent
  | allocated (child : ℕ) (pid : ℤ)
  | forked (parent child : ℕ) (pid : ℤ)
  | exited (n : ℕ)
  | reaped (waiter child : ℕ) (pid : ℤ)
  | waitFailed (waiter : ℕ)
  | killed (pid ret : ℤ)
deriving DecidableEq, Repr

namespace Table

/-- Change a slot. -/
def modify (s : Table) (q : ℕ) (change : Slot → Slot) : Table :=
  { s with proc := Function.update s.proc q (change (s.proc q)) }

/-- A process goes on somewhere else. -/
def goto (s : Table) (p : ℕ) (control : Control) : Table :=
  { s with control := Function.update s.control p control }

/-! ## What happens under the lock -/

/-- The first part of `allocproc`, for the slot that it has found. -/
def allocproc (s : Table) (q : ℕ) : Table :=
  { s.modify q fun slot =>
      { slot with state := .embryo, pid := s.nextpid, serial := s.births } with
    nextpid := (s.nextpid + 1).bmod (2 ^ 32)
    births := s.births + 1 }

/-- Wake up all processes sleeping on a channel. -/
def wakeup1 (s : Table) (chan : Chan) : Table :=
  { s with
    proc := fun q =>
      if q < NPROC ∧ (s.proc q).state = .sleeping ∧ (s.proc q).chan = some chan then
        { s.proc q with state := .runnable }
      else s.proc q }

/-- `wakeup1(p->parent)`. No process sleeps on a null pointer. -/
def wakeupParent (s : Table) (p : ℕ) : Table :=
  match (s.proc p).parent with
  | none => s
  | some r => s.wakeup1 (.proc r)

/-- The loop of `exit` that passes abandoned children to init. -/
def reparent (s : Table) (p : ℕ) : Table :=
  let passed : Table :=
    { s with
      proc := fun q =>
        if q < NPROC ∧ (s.proc q).parent = some p then { s.proc q with parent := some s.initproc }
        else s.proc q }
  if ∃ q < NPROC, (s.proc q).parent = some p ∧ (s.proc q).state = .zombie then
    passed.wakeup1 (.proc s.initproc)
  else passed

/-- The last part of `exit`. -/
def exit (s : Table) (p : ℕ) : Table :=
  ((s.wakeupParent p).reparent p).modify p fun slot => { slot with state := .zombie }

/-- The first child of `p` that is a zombie. -/
def deadChild (s : Table) (p : ℕ) : Option ℕ :=
  (List.range NPROC).find? fun q => (s.proc q).parent = some p ∧ (s.proc q).state = .zombie

/-- `havekids`. -/
def HasKids (s : Table) (p : ℕ) : Prop := ∃ q < NPROC, (s.proc q).parent = some p

instance (s : Table) (p : ℕ) : Decidable (s.HasKids p) :=
  inferInstanceAs (Decidable (∃ q < NPROC, _))

/-- One round of the loop of `wait`. -/
def scan (s : Table) (p : ℕ) : Event × Table :=
  match s.deadChild p with
  | some q =>
    (.reaped (s.proc p).serial (s.proc q).serial (s.proc q).pid,
      (s.modify q fun slot =>
        { slot with pid := 0, parent := none, killed := false, state := .unused }).goto p .elsewhere)
  | none =>
    if ¬s.HasKids p ∨ (s.proc p).killed then
      (.waitFailed (s.proc p).serial, s.goto p .elsewhere)
    else
      (.silent, (s.modify p fun slot =>
        { slot with chan := some (.proc p), state := .sleeping }).goto p .waiting)

/-- `kill`. -/
def kill (s : Table) (pid : ℤ) : Event × Table :=
  match (List.range NPROC).find? fun q => (s.proc q).pid = pid with
  | none => (.killed pid (-1), s)
  | some q =>
    (.killed pid 0, s.modify q fun slot =>
      { slot with
        killed := true
        state := if slot.state = .sleeping then .runnable else slot.state })

end Table

/-! ## Actions -/

/-- The actions of a process, of the scheduler, and of whoever wakes a process that does
not sleep in `wait`. -/
inductive Action where
  | fork (p : ℕ)
  | forkFails (p : ℕ)
  | forkCopies (p : ℕ)
  | forkEnds (p : ℕ)
  | exit (p : ℕ)
  | wait (p : ℕ)
  | resume (p : ℕ)
  | kill (p : ℕ) (pid : ℤ)
  | run (p : ℕ)
  | yield (p : ℕ)
  | sleep (p c : ℕ)
  | wakeup (c : ℕ)
deriving DecidableEq, Repr

/-- The process runs and is in no call of `proc.c`. -/
def Table.Free (s : Table) (p : ℕ) : Prop :=
  p < NPROC ∧ (s.proc p).state = .running ∧ s.control p = .elsewhere

instance (s : Table) (p : ℕ) : Decidable (s.Free p) := inferInstanceAs (Decidable (_ ∧ _ ∧ _))

/-- An action, with the event that it is, or nothing if it cannot be taken. -/
def Table.act : Action → Table → Option (Event × Table)
  | .fork p, s =>
    if s.Free p then
      match (List.range NPROC).find? fun q => (s.proc q).state = .unused with
      | some q => some (.allocated s.births s.nextpid, (s.allocproc q).goto p (.forking q))
      | none => some (.silent, s)
    else none
  | .forkFails p, s =>
    match s.control p with
    | .forking q =>
      if (s.proc p).state = .running then
        some (.silent,
          (s.modify q fun slot => { slot with state := .unused }).goto p .elsewhere)
      else none
    | _ => none
  | .forkCopies p, s =>
    match s.control p with
    | .forking q =>
      if (s.proc p).state = .running then
        some (.silent,
          (s.modify q fun slot => { slot with parent := some p }).goto p (.copied q))
      else none
    | _ => none
  | .forkEnds p, s =>
    match s.control p with
    | .copied q =>
      if (s.proc p).state = .running then
        some (.forked (s.proc p).serial (s.proc q).serial (s.proc q).pid,
          ((s.modify q fun slot => { slot with state := .runnable }).goto q .elsewhere).goto p
            .elsewhere)
      else none
    | _ => none
  | .exit p, s =>
    if s.Free p ∧ p ≠ s.initproc then some (.exited (s.proc p).serial, s.exit p) else none
  | .wait p, s => if s.Free p then some (s.scan p) else none
  | .resume p, s =>
    if (s.proc p).state = .runnable ∧ s.control p = .waiting then
      some ((s.modify p fun slot => { slot with state := .running, chan := none }).scan p)
    else none
  | .kill p pid, s => if s.Free p then some (s.kill pid) else none
  | .run p, s =>
    if (s.proc p).state = .runnable ∧ s.control p ≠ .waiting then
      some (.silent, s.modify p fun slot => { slot with state := .running, chan := none })
    else none
  | .yield p, s =>
    if (s.proc p).state = .running then
      some (.silent, s.modify p fun slot => { slot with state := .runnable })
    else none
  | .sleep p c, s =>
    if (s.proc p).state = .running ∧ s.control p ≠ .waiting then
      some (.silent,
        s.modify p fun slot => { slot with chan := some (.other c), state := .sleeping })
    else none
  | .wakeup c, s => some (.silent, s.wakeup1 (.other c))

/-- The actions that are taken. -/
inductive Acts : Action → Table → Event → Table → Prop where
  /-- `allocproc` finds a slot. -/
  | fork {s : Table} {p q : ℕ} (free : s.Free p)
      (found : (List.range NPROC).find? (fun q => (s.proc q).state = .unused) = some q) :
      Acts (.fork p) s (.allocated s.births s.nextpid) ((s.allocproc q).goto p (.forking q))
  /-- `allocproc` finds no slot, and `fork` returns -1. -/
  | forkFull {s : Table} {p : ℕ} (free : s.Free p)
      (full : (List.range NPROC).find? (fun q => (s.proc q).state = .unused) = none) :
      Acts (.fork p) s .silent s
  /-- `kalloc` or `copyuvm` returns 0, and `fork` returns -1. -/
  | forkFails {s : Table} {p q : ℕ} (running : (s.proc p).state = .running)
      (at_ : s.control p = .forking q) :
      Acts (.forkFails p) s .silent
        ((s.modify q fun slot => { slot with state := .unused }).goto p .elsewhere)
  /-- The child gets its memory and its parent. -/
  | forkCopies {s : Table} {p q : ℕ} (running : (s.proc p).state = .running)
      (at_ : s.control p = .forking q) :
      Acts (.forkCopies p) s .silent
        ((s.modify q fun slot => { slot with parent := some p }).goto p (.copied q))
  /-- The child becomes runnable, and `fork` returns its pid. -/
  | forkEnds {s : Table} {p q : ℕ} (running : (s.proc p).state = .running)
      (at_ : s.control p = .copied q) :
      Acts (.forkEnds p) s (.forked (s.proc p).serial (s.proc q).serial (s.proc q).pid)
        (((s.modify q fun slot => { slot with state := .runnable }).goto q .elsewhere).goto p
          .elsewhere)
  /-- `exit` of a process other than init, which panics. -/
  | exit {s : Table} {p : ℕ} (free : s.Free p) (notInit : p ≠ s.initproc) :
      Acts (.exit p) s (.exited (s.proc p).serial) (s.exit p)
  | wait {s : Table} {p : ℕ} (free : s.Free p) :
      Acts (.wait p) s (s.scan p).1 (s.scan p).2
  /-- The scheduler runs a process that slept in `wait`. -/
  | resume {s : Table} {p : ℕ} (runnable : (s.proc p).state = .runnable)
      (at_ : s.control p = .waiting) :
      Acts (.resume p) s
        ((s.modify p fun slot => { slot with state := .running, chan := none }).scan p).1
        ((s.modify p fun slot => { slot with state := .running, chan := none }).scan p).2
  | kill {s : Table} {p : ℕ} (free : s.Free p) (pid : ℤ) :
      Acts (.kill p pid) s (s.kill pid).1 (s.kill pid).2
  | run {s : Table} {p : ℕ} (runnable : (s.proc p).state = .runnable)
      (at_ : s.control p ≠ .waiting) :
      Acts (.run p) s .silent (s.modify p fun slot => { slot with state := .running, chan := none })
  | yield {s : Table} {p : ℕ} (running : (s.proc p).state = .running) :
      Acts (.yield p) s .silent (s.modify p fun slot => { slot with state := .runnable })
  | sleep {s : Table} {p : ℕ} (running : (s.proc p).state = .running)
      (at_ : s.control p ≠ .waiting) (c : ℕ) :
      Acts (.sleep p c) s .silent
        (s.modify p fun slot => { slot with chan := some (.other c), state := .sleeping })
  | wakeup {s : Table} (c : ℕ) : Acts (.wakeup c) s .silent (s.wakeup1 (.other c))

/-- **What an action is.** -/
theorem acts_of_act {a : Action} {s t : Table} {e : Event} (taken : s.act a = some (e, t)) :
    Acts a s e t := by
  cases a with
  | fork p =>
    simp only [Table.act] at taken
    split at taken
    · rename_i free
      split at taken <;> rename_i found <;> cases taken
      · exact .fork free found
      · exact .forkFull free found
    · cases taken
  | forkFails p | forkCopies p | forkEnds p =>
    simp only [Table.act] at taken
    split at taken
    · rename_i at_
      obtain ⟨running, rfl, rfl⟩ := TraceRun.of_guard taken
      constructor <;> assumption
    · cases taken
  | exit p =>
    obtain ⟨⟨free, notInit⟩, rfl, rfl⟩ := TraceRun.of_guard taken
    exact .exit free notInit
  | wait p =>
    obtain ⟨free, rfl, rfl⟩ := TraceRun.of_guard taken
    exact .wait free
  | resume p =>
    obtain ⟨⟨runnable, at_⟩, rfl, rfl⟩ := TraceRun.of_guard taken
    exact .resume runnable at_
  | kill p pid =>
    obtain ⟨free, rfl, rfl⟩ := TraceRun.of_guard taken
    exact .kill free pid
  | run p =>
    obtain ⟨⟨runnable, at_⟩, rfl, rfl⟩ := TraceRun.of_guard taken
    exact .run runnable at_
  | yield p =>
    obtain ⟨running, rfl, rfl⟩ := TraceRun.of_guard taken
    exact .yield running
  | sleep p c =>
    obtain ⟨⟨running, at_⟩, rfl, rfl⟩ := TraceRun.of_guard taken
    exact .sleep running at_ c
  | wakeup c =>
    cases taken
    exact .wakeup c

/-! ## Runs -/

/-- The table before the first process: all bytes are zero, except the counter. -/
def cleared : Table where
  proc _ := ⟨.unused, 0, none, none, false, 0⟩
  control _ := .elsewhere
  nextpid := 1
  births := 0
  initproc := 0

/-- The table that `userinit` makes. -/
def userinit : Table :=
  (cleared.allocproc 0).modify 0 fun slot => { slot with state := .runnable }

/-- A step of the processes, the scheduler or an interrupt. -/
def Step (s : Table) (e : Event) (t : Table) : Prop := ∃ a, s.act a = some (e, t)

theorem step_of_act (a : Action) (s : Table) (e : Event) (t : Table)
    (taken : s.act a = some (e, t)) : Step s e t :=
  ⟨a, taken⟩

/-- The tables that a run of any number of processes reaches, with its events. -/
abbrev Reaches (trace : List Event) (s : Table) : Prop := TraceRun.Run Step userinit trace s

end Xv6Uac.Ptable
