import Xv6Uac.Kernel.State
import Xv6Uac.Lib.Ring
import Xv6Uac.Lib.TraceRun

/-!
# One pipe and the processes that use it

`pipewrite`, `piperead` and `pipeclose` of `pipe.c`, in steps between which `kill` can fall.
A process that holds `p->lock` goes on step by step, and no other process takes a step of
the pipe until it releases the lock. `kill` takes only `ptable.lock`, so it can come between
any two steps. `sleep` holds `ptable.lock` from before it releases `p->lock` until the process
is `SLEEPING`, so that is one step.

A process in `piperead` has the read end of the pipe open, and `fileclose` calls `pipeclose`
for an end when the last reference to it is gone. A call of an end does therefore not begin
after `pipeclose` of that end, and `pipeclose` does not begin while there is such a call.
-/

namespace Xv6Uac.Pipes

/-! ## State -/

/-- `&p->nread` and `&p->nwrite`. -/
inductive Chan where
  | nread
  | nwrite
deriving DecidableEq, Repr

/-- Where a process is in the code of the pipe, with its variables. -/
inductive Point where
  | outside
  /-- Before `acquire`, on entry or after a sleep. -/
  | writeAcquire (src : List UInt8) (i : ℕ)
  | writeLoop (src : List UInt8) (i : ℕ)
  /-- The pipe is full and the process is not killed. -/
  | writeFull (src : List UInt8) (i : ℕ)
  | writeSleep (src : List UInt8) (i : ℕ)
  | writeEnd (src : List UInt8)
  | writeRelease (src : List UInt8) (ret : ℤ)
  | readAcquire (n : ℕ)
  | readLoop (n : ℕ)
  | readSleep (n : ℕ)
  | readCopy (n : ℕ) (got : List UInt8)
  | readEnd (n : ℕ) (got : List UInt8)
  /-- With the bytes that are returned, or nothing for -1. -/
  | readRelease (n : ℕ) (got : Option (List UInt8))
  | closeAcquire (writable : Bool)
  | closeWake (writable : Bool)
  | closeRelease (writable : Bool)
deriving DecidableEq, Repr

/-- The pipe, its lock, and what the process table says of the processes. -/
structure State where
  ring : Ring.Buffer UInt8 32
  readopen : Bool
  writeopen : Bool
  lock : Option ℕ
  point : ℕ → Point
  asleep : ℕ → Option Chan
  killed : ℕ → Bool

/-- A call of a process. -/
inductive Call where
  | write (src : List UInt8)
  | read (n : ℕ)
  | close (writable : Bool)
deriving DecidableEq, Repr

/-- What can be seen of a step. -/
inductive Event where
  | silent
  | began (p : ℕ) (call : Call)
  | deposited (p : ℕ) (c : UInt8)
  | wrote (p : ℕ) (src : List UInt8) (ret : ℤ)
  | read (p n : ℕ) (got : Option (List UInt8))
  | killed (p : ℕ)
deriving DecidableEq, Repr

namespace Point

/-- In a critical section. -/
def inside : Point → Bool
  | outside | writeAcquire _ _ | readAcquire _ | closeAcquire _ => false
  | _ => true

/-- The end that a process uses or closes: true is the write end. -/
def side : Point → Option Bool
  | outside => none
  | writeAcquire _ _ | writeLoop _ _ | writeFull _ _ | writeSleep _ _ | writeEnd _
  | writeRelease _ _ => some true
  | readAcquire _ | readLoop _ | readSleep _ | readCopy _ _ | readEnd _ _
  | readRelease _ _ => some false
  | closeAcquire writable | closeWake writable | closeRelease writable => some writable

/-- The end that a process closes. -/
def closing : Point → Option Bool
  | closeAcquire writable | closeWake writable | closeRelease writable => some writable
  | _ => none

end Point

namespace State

/-- Whether an end is open. -/
def isOpen (s : State) : Bool → Bool
  | true => s.writeopen
  | false => s.readopen

/-- A process goes on at another point. -/
def goto (s : State) (p : ℕ) (point : Point) : State :=
  { s with point := Function.update s.point p point }

/-- `acquire(&p->lock)`. -/
def acquire (s : State) (p : ℕ) : State := { s with lock := some p }

/-- `release(&p->lock)`. -/
def release (s : State) : State := { s with lock := none }

/-- `wakeup`. -/
def wakeup (s : State) (chan : Chan) : State :=
  { s with asleep := fun q => if s.asleep q = some chan then none else s.asleep q }

/-- `sleep`, until the process is `SLEEPING`. -/
def sleep (s : State) (p : ℕ) (chan : Chan) : State :=
  { s.release with asleep := Function.update s.asleep p (some chan) }

/-- `kill`. -/
def kill (s : State) (p : ℕ) : State :=
  { s with
    killed := Function.update s.killed p true
    asleep := Function.update s.asleep p none }

/-- The first lines of `pipeclose`. -/
def shut (s : State) : Bool → State
  | true => { s with writeopen := false }
  | false => { s with readopen := false }

end State

/-! ## Steps -/

/-- The next step of a process that is in a call, if it can take one. -/
def next (s : State) (p : ℕ) : Option (Event × State) :=
  match s.point p with
  | .outside => none
  | .writeAcquire src i =>
    if s.lock = none ∧ s.asleep p = none then
      some (.silent, (s.acquire p).goto p (.writeLoop src i))
    else none
  | .writeLoop src i =>
    match src[i]? with
    | none => some (.silent, s.goto p (.writeEnd src))
    | some c =>
      if s.ring.Full PIPESIZE then
        if s.readopen = false ∨ s.killed p then
          some (.silent, s.goto p (.writeRelease src (-1)))
        else some (.silent, s.goto p (.writeFull src i))
      else
        some (.deposited p c,
          { s with ring := s.ring.push PIPESIZE c }.goto p (.writeLoop src (i + 1)))
  | .writeFull src i => some (.silent, (s.wakeup .nread).goto p (.writeSleep src i))
  | .writeSleep src i => some (.silent, (s.sleep p .nwrite).goto p (.writeAcquire src i))
  | .writeEnd src => some (.silent, (s.wakeup .nread).goto p (.writeRelease src src.length))
  | .writeRelease src ret => some (.wrote p src ret, s.release.goto p .outside)
  | .readAcquire n =>
    if s.lock = none ∧ s.asleep p = none then
      some (.silent, (s.acquire p).goto p (.readLoop n))
    else none
  | .readLoop n =>
    if s.ring.Empty ∧ s.writeopen then
      if s.killed p then some (.silent, s.goto p (.readRelease n none))
      else some (.silent, s.goto p (.readSleep n))
    else some (.silent, s.goto p (.readCopy n []))
  | .readSleep n => some (.silent, (s.sleep p .nread).goto p (.readAcquire n))
  | .readCopy n got =>
    if got.length < n ∧ ¬s.ring.Empty then
      some (.silent,
        { s with ring := s.ring.pop }.goto p (.readCopy n (got ++ [s.ring.front PIPESIZE])))
    else some (.silent, s.goto p (.readEnd n got))
  | .readEnd n got => some (.silent, (s.wakeup .nwrite).goto p (.readRelease n (some got)))
  | .readRelease n got => some (.read p n got, s.release.goto p .outside)
  | .closeAcquire writable =>
    if s.lock = none then
      some (.silent, ((s.acquire p).shut writable).goto p (.closeWake writable))
    else none
  | .closeWake writable =>
    some (.silent,
      (s.wakeup (if writable then .nread else .nwrite)).goto p (.closeRelease writable))
  | .closeRelease _ => some (.silent, s.release.goto p .outside)

/-- The first point of a call. -/
def Call.entry : Call → Point
  | .write src => .writeAcquire src 0
  | .read n => .readAcquire n
  | .close writable => .closeAcquire writable

/-- Whether a call can begin, with the references that processes have to the ends. -/
def Call.Admitted (procs : ℕ) (s : State) : Call → Prop
  | .write _ => s.writeopen = true ∧ ∀ q < procs, (s.point q).closing ≠ some true
  | .read _ => s.readopen = true ∧ ∀ q < procs, (s.point q).closing ≠ some false
  | .close writable =>
    s.isOpen writable = true ∧ ∀ q < procs, (s.point q).side ≠ some writable

instance (procs : ℕ) (s : State) : (call : Call) → Decidable (call.Admitted procs s)
  | .write _ | .read _ | .close _ => inferInstanceAs (Decidable (_ ∧ _))

/-- What can happen. -/
inductive Action where
  | begins (p : ℕ) (call : Call)
  | steps (p : ℕ)
  | kill (p : ℕ)
deriving DecidableEq, Repr

/-- An action of one of the processes, with the event that it is, or nothing if it cannot
be taken. -/
def State.act (procs : ℕ) : Action → State → Option (Event × State)
  | .begins p call, s =>
    if p < procs ∧ s.point p = .outside ∧ call.Admitted procs s then
      some (.began p call, s.goto p call.entry)
    else none
  | .steps p, s => next s p
  | .kill p, s => some (.killed p, s.kill p)

/-- The pipe that `pipealloc` makes, in a page with any contents, and processes of which
some may be killed. -/
def pipealloc (data : ℕ → UInt8) (killed : ℕ → Bool) : State where
  ring := ⟨data, 0, 0⟩
  readopen := true
  writeopen := true
  lock := none
  point _ := .outside
  asleep _ := none
  killed := killed

/-! ## What an action is -/

/-- The actions that are taken. -/
inductive Acts (procs : ℕ) (s : State) : Action → Event → State → Prop where
  | begins {p : ℕ} {call : Call} (small : p < procs) (at_ : s.point p = .outside)
      (admitted : call.Admitted procs s) :
      Acts procs s (.begins p call) (.began p call) (s.goto p call.entry)
  | kill (p : ℕ) : Acts procs s (.kill p) (.killed p) (s.kill p)
  | writeLocks {p i : ℕ} {src : List UInt8} (at_ : s.point p = .writeAcquire src i)
      (free : s.lock = none) (awake : s.asleep p = none) :
      Acts procs s (.steps p) .silent ((s.acquire p).goto p (.writeLoop src i))
  | writeStops {p i : ℕ} {src : List UInt8} (at_ : s.point p = .writeLoop src i)
      (all : src[i]? = none) : Acts procs s (.steps p) .silent (s.goto p (.writeEnd src))
  | writeFails {p i : ℕ} {c : UInt8} {src : List UInt8} (at_ : s.point p = .writeLoop src i)
      (more : src[i]? = some c) (full : s.ring.Full PIPESIZE)
      (fails : s.readopen = false ∨ s.killed p = true) :
      Acts procs s (.steps p) .silent (s.goto p (.writeRelease src (-1)))
  | writeBlocks {p i : ℕ} {c : UInt8} {src : List UInt8} (at_ : s.point p = .writeLoop src i)
      (more : src[i]? = some c) (full : s.ring.Full PIPESIZE)
      (opened : s.readopen = true) (lives : s.killed p = false) :
      Acts procs s (.steps p) .silent (s.goto p (.writeFull src i))
  | deposits {p i : ℕ} {c : UInt8} {src : List UInt8} (at_ : s.point p = .writeLoop src i)
      (more : src[i]? = some c) (room : ¬s.ring.Full PIPESIZE) :
      Acts procs s (.steps p) (.deposited p c)
        ({ s with ring := s.ring.push PIPESIZE c }.goto p (.writeLoop src (i + 1)))
  | writeWakes {p i : ℕ} {src : List UInt8} (at_ : s.point p = .writeFull src i) :
      Acts procs s (.steps p) .silent ((s.wakeup .nread).goto p (.writeSleep src i))
  | writeSleeps {p i : ℕ} {src : List UInt8} (at_ : s.point p = .writeSleep src i) :
      Acts procs s (.steps p) .silent ((s.sleep p .nwrite).goto p (.writeAcquire src i))
  | writeEnds {p : ℕ} {src : List UInt8} (at_ : s.point p = .writeEnd src) :
      Acts procs s (.steps p) .silent ((s.wakeup .nread).goto p (.writeRelease src src.length))
  | writeReturns {p : ℕ} {src : List UInt8} {ret : ℤ} (at_ : s.point p = .writeRelease src ret) :
      Acts procs s (.steps p) (.wrote p src ret) (s.release.goto p .outside)
  | readLocks {p n : ℕ} (at_ : s.point p = .readAcquire n) (free : s.lock = none)
      (awake : s.asleep p = none) :
      Acts procs s (.steps p) .silent ((s.acquire p).goto p (.readLoop n))
  | readFails {p n : ℕ} (at_ : s.point p = .readLoop n) (empty : s.ring.Empty)
      (opened : s.writeopen = true) (killed : s.killed p = true) :
      Acts procs s (.steps p) .silent (s.goto p (.readRelease n none))
  | readBlocks {p n : ℕ} (at_ : s.point p = .readLoop n) (empty : s.ring.Empty)
      (opened : s.writeopen = true) (lives : s.killed p = false) :
      Acts procs s (.steps p) .silent (s.goto p (.readSleep n))
  | readCopies {p n : ℕ} (at_ : s.point p = .readLoop n)
      (ready : ¬s.ring.Empty ∨ s.writeopen = false) :
      Acts procs s (.steps p) .silent (s.goto p (.readCopy n []))
  | readSleeps {p n : ℕ} (at_ : s.point p = .readSleep n) :
      Acts procs s (.steps p) .silent ((s.sleep p .nread).goto p (.readAcquire n))
  | takes {p n : ℕ} {got : List UInt8} (at_ : s.point p = .readCopy n got)
      (more : got.length < n) (filled : ¬s.ring.Empty) :
      Acts procs s (.steps p) .silent
        ({ s with ring := s.ring.pop }.goto p (.readCopy n (got ++ [s.ring.front PIPESIZE])))
  | readStops {p n : ℕ} {got : List UInt8} (at_ : s.point p = .readCopy n got)
      (all : n ≤ got.length ∨ s.ring.Empty) :
      Acts procs s (.steps p) .silent (s.goto p (.readEnd n got))
  | readEnds {p n : ℕ} {got : List UInt8} (at_ : s.point p = .readEnd n got) :
      Acts procs s (.steps p) .silent ((s.wakeup .nwrite).goto p (.readRelease n (some got)))
  | readReturns {p n : ℕ} {got : Option (List UInt8)} (at_ : s.point p = .readRelease n got) :
      Acts procs s (.steps p) (.read p n got) (s.release.goto p .outside)
  | closeLocks {p : ℕ} {writable : Bool} (at_ : s.point p = .closeAcquire writable)
      (free : s.lock = none) :
      Acts procs s (.steps p) .silent
        (((s.acquire p).shut writable).goto p (.closeWake writable))
  | closeWakes {p : ℕ} {writable : Bool} (at_ : s.point p = .closeWake writable) :
      Acts procs s (.steps p) .silent
        ((s.wakeup (if writable then .nread else .nwrite)).goto p (.closeRelease writable))
  | closeReturns {p : ℕ} {writable : Bool} (at_ : s.point p = .closeRelease writable) :
      Acts procs s (.steps p) .silent (s.release.goto p .outside)

theorem acts_of_next {procs p : ℕ} {s t : State} {e : Event} (taken : next s p = some (e, t)) :
    Acts procs s (.steps p) e t := by
  rw [next] at taken
  split at taken
  case h_1 => cases taken
  all_goals rename_i at_
  case h_2 =>
    obtain ⟨⟨free, awake⟩, same⟩ := Option.ite_none_right_eq_some.mp taken
    cases same
    exact .writeLocks at_ free awake
  case h_3 =>
    split at taken
    · rename_i all
      cases taken
      exact .writeStops at_ all
    · rename_i more
      split_ifs at taken with full fails <;> cases taken
      · exact .writeFails at_ more full fails
      · rw [not_or, Bool.not_eq_false, Bool.not_eq_true] at fails
        exact .writeBlocks at_ more full fails.1 fails.2
      · exact .deposits at_ more full
  case h_4 => cases taken; exact .writeWakes at_
  case h_5 => cases taken; exact .writeSleeps at_
  case h_6 => cases taken; exact .writeEnds at_
  case h_7 => cases taken; exact .writeReturns at_
  case h_8 =>
    obtain ⟨⟨free, awake⟩, same⟩ := Option.ite_none_right_eq_some.mp taken
    cases same
    exact .readLocks at_ free awake
  case h_9 =>
    split_ifs at taken with blocks killed <;> cases taken
    · exact .readFails at_ blocks.1 blocks.2 killed
    · exact .readBlocks at_ blocks.1 blocks.2 (Bool.not_eq_true _ ▸ killed)
    · rw [not_and_or, Bool.not_eq_true] at blocks
      exact .readCopies at_ blocks
  case h_10 => cases taken; exact .readSleeps at_
  case h_11 =>
    split_ifs at taken with more <;> cases taken
    · exact .takes at_ more.1 more.2
    · rw [not_and_or, not_not, Nat.not_lt] at more
      exact .readStops at_ more
  case h_12 => cases taken; exact .readEnds at_
  case h_13 => cases taken; exact .readReturns at_
  case h_14 =>
    obtain ⟨free, same⟩ := Option.ite_none_right_eq_some.mp taken
    cases same
    exact .closeLocks at_ free
  case h_15 => cases taken; exact .closeWakes at_
  case h_16 => cases taken; exact .closeReturns at_

/-- **What an action is.** -/
theorem acts_of_act {procs : ℕ} {a : Action} {s t : State} {e : Event}
    (taken : s.act procs a = some (e, t)) : Acts procs s a e t := by
  cases a with
  | begins p call =>
    obtain ⟨⟨small, at_, admitted⟩, same⟩ := Option.ite_none_right_eq_some.mp taken
    cases same
    exact .begins small at_ admitted
  | steps p => exact acts_of_next taken
  | kill p =>
    cases taken
    exact .kill p

end Xv6Uac.Pipes
