import Xv6Uac.Lib.TraceRun
import Xv6Uac.Param
import Mathlib.Data.Finset.Card

/-!
# The group-commit protocol

`begin_op`, `log_write` and `end_op` run as critical sections under
`log.lock`. The process whose `end_op` finds no other operation outstanding
sets `committing` and runs `commit` without the lock, so the steps of `commit`
interleave with the critical sections of every other process.

The model keeps the fields of `struct log` that these functions read, and for
each process the place it has reached: outside an operation, asleep in
`begin_op` on the channel `&log`, woken and about to test again, inside an
operation, or at one of the steps of `commit`. A call of a process is one
critical section or one step of `commit` (`step`). `kill` may wake a sleeping
process at any time.

Each step reports an event. The events since the last completed commit are the
history of the transaction that is open (`sinceCommit`).
-/

namespace Xv6Uac.Log

/-! ## States -/

/-- The steps of `commit`, in order. -/
inductive Stage where
  | start
  | writeLog (tail : ℕ)
  | writeHead
  | install (tail : ℕ)
  | clear
  | eraseHead
  | finish
deriving DecidableEq, Repr

/-- How far a process has come. -/
inductive Phase where
  | idle
  | asleep
  | awake
  | active
  | commit (stage : Stage)
deriving DecidableEq, Repr

/-- `struct log`, with the place each process has reached. -/
structure LogState where
  outstanding : ℤ
  committing : Bool
  lh : List ℕ
  phase : ℕ → Phase

/-- The state `initlog` leaves. -/
def LogState.init : LogState where
  outstanding := 0
  committing := false
  lh := []
  phase _ := .idle

/-- What a step did. -/
inductive Event where
  | began (p : ℕ)
  | slept (p : ℕ)
  | woken (p : ℕ)
  | logged (p b : ℕ)
  | ended (p : ℕ)
  | tested (p : ℕ)
  | copied (p b : ℕ)
  | wroteHead (p : ℕ)
  | installed (p b : ℕ)
  | cleared (p : ℕ)
  | erasedHead (p : ℕ)
  | committed (p : ℕ)
deriving DecidableEq, Repr

/-- The panics of `log.c`. -/
inductive LogPanic where
  | logCommitting
  | tooBigTransaction
  | outsideOfTrans
deriving DecidableEq, Repr

/-- What a call leads to: a next state, a panic, or nothing when the process is
not at a place where it makes this call. -/
inductive Result where
  | next (event : Event) (state : LogState)
  | panic (reason : LogPanic)
  | disabled

/-! ## The critical sections -/

/-- Move a process. -/
def LogState.goto (s : LogState) (p : ℕ) (phase : Phase) : LogState :=
  { s with phase := Function.update s.phase p phase }

/-- `wakeup(&log)`: every process asleep in `begin_op` becomes runnable. -/
def LogState.wakeup (s : LogState) : LogState :=
  { s with phase := fun p => if s.phase p = .asleep then .awake else s.phase p }

/-- One pass of the loop of `begin_op`. -/
def beginOp (p : ℕ) (s : LogState) : Result :=
  if s.committing then
    .next (.slept p) (s.goto p .asleep)
  else if (s.lh.length : ℤ) + (s.outstanding + 1) * MAXOPBLOCKS > LOGSIZE then
    -- this op might exhaust log space; wait for commit
    .next (.slept p) (s.goto p .asleep)
  else
    .next (.began p) ({ s with outstanding := s.outstanding + 1 }.goto p .active)

/-- `log_write`, for a log of `size` blocks. -/
def logWrite (size : ℕ) (p b : ℕ) (s : LogState) : Result :=
  if LOGSIZE ≤ s.lh.length ∨ (size : ℤ) - 1 ≤ s.lh.length then
    .panic .tooBigTransaction
  else if s.outstanding < 1 then
    .panic .outsideOfTrans
  else
    -- log absorption: a block already in the header is not added again
    .next (.logged p b) (if b ∈ s.lh then s else { s with lh := s.lh ++ [b] })

/-- The first critical section of `end_op`. -/
def endOp (p : ℕ) (s : LogState) : Result :=
  let s := { s with outstanding := s.outstanding - 1 }
  if s.committing then
    .panic .logCommitting
  else if s.outstanding = 0 then
    .next (.ended p) ({ s with committing := true }.goto p (.commit .start))
  else
    .next (.ended p) (s.wakeup.goto p .idle)

/-- The next step of `commit`, and last the second critical section of
`end_op`. -/
def commitStep (p : ℕ) (s : LogState) : Stage → Result
  | .start =>
    .next (.tested p)
      (s.goto p (.commit (if 0 < s.lh.length then .writeLog 0 else .finish)))
  | .writeLog tail =>
    match s.lh[tail]? with
    | some b => .next (.copied p b) (s.goto p (.commit (.writeLog (tail + 1))))
    | none => .next (.tested p) (s.goto p (.commit .writeHead))
  | .writeHead => .next (.wroteHead p) (s.goto p (.commit (.install 0)))
  | .install tail =>
    match s.lh[tail]? with
    | some b => .next (.installed p b) (s.goto p (.commit (.install (tail + 1))))
    | none => .next (.tested p) (s.goto p (.commit .clear))
  | .clear => .next (.cleared p) ({ s with lh := [] }.goto p (.commit .eraseHead))
  | .eraseHead => .next (.erasedHead p) (s.goto p (.commit .finish))
  | .finish => .next (.committed p) ({ s with committing := false }.wakeup.goto p .idle)

/-- What a process may do next. -/
inductive Call where
  | beginOp (p : ℕ)
  | kill (p : ℕ)
  | logWrite (p b : ℕ)
  | endOp (p : ℕ)
  | commit (p : ℕ)
deriving DecidableEq, Repr

/-- One critical section, one step of `commit`, or one wake-up by `kill`. -/
def step (size : ℕ) (s : LogState) : Call → Result
  | .beginOp p =>
    match s.phase p with
    | .idle => beginOp p s
    | .awake => beginOp p s
    | _ => .disabled
  | .kill p => if s.phase p = .asleep then .next (.woken p) (s.goto p .awake) else .disabled
  | .logWrite p b => if s.phase p = .active then logWrite size p b s else .disabled
  | .endOp p => if s.phase p = .active then endOp p s else .disabled
  | .commit p =>
    match s.phase p with
    | .commit stage => commitStep p s stage
    | _ => .disabled

end Xv6Uac.Log
