import Xv6Uac.Lib.LinkedCycle
import Xv6Uac.Lib.TraceRun
import Xv6Uac.Param

/-!
# The buffer cache

`binit`, `bget`, `bread`, `bwrite` and `brelse` of `bio.c` and `log_write`, for any number of
processes that use blocks of the device `ROOTDEV`. A process is stopped between its critical
sections: in `bget` after it has released `bcache.lock` and waits for the lock of the buffer, in
`bread` before `iderw`, and in `brelse` after it has released the lock of the buffer. A buffer that
is in `iderw` is locked and has references, so nobody else looks at its flags and its data, and
`iderw` is one step.

The contents that a process puts into `b->data` come with the call of `bwrite` or `log_write`
that follows: nobody else sees them before. The panics of `bget` (no buffer is left) and of
`log_write` are no steps.

The contents of a block can be of any type.
-/

namespace Xv6Uac.Bio

open LinkedCycle TraceRun

/-! ## State -/

/-- What a buffer caches: the flags, the block and its contents. -/
structure Slot (α : Type) where
  valid : Bool
  dirty : Bool
  dev : ℕ
  blockno : ℕ
  data : α

/-- `struct buf`, with the process that has its lock. The links are apart. -/
structure Buf (α : Type) extends Slot α where
  lock : Option ℕ
  refcnt : ℕ

/-- Where a process is: not in a call, in `bget` before `acquiresleep`, in `bread` after `bget`, in
`brelse` after `releasesleep`. -/
inductive Phase where
  | idle
  | locking (n b : ℕ)
  | reading (n b : ℕ)
  | releasing (b : ℕ)
deriving DecidableEq, Repr

/-- The node of `bcache.head` in the list. The buffers are the nodes below. -/
abbrev HEAD : ℕ := NBUF

structure State (α : Type) where
  buf : ℕ → Buf α
  links : Links ℕ
  disk : ℕ → α
  phase : ℕ → Phase

/-- What can be seen of a step: `bread` returns a buffer, or contents are written. -/
inductive Event (α : Type) where
  | silent
  | returned (p b n : ℕ) (d : α)
  | wrote (p n : ℕ) (d : α)

/-! ## Functions -/

namespace State

variable {α : Type}

def setBuf (s : State α) (b : ℕ) (f : Buf α → Buf α) : State α :=
  { s with buf := Function.update s.buf b (f (s.buf b)) }

def goto (s : State α) (p : ℕ) (phase : Phase) : State α :=
  { s with phase := Function.update s.phase p phase }

/-- The first loop of `bget`: the buffer of a block. -/
def cached (s : State α) (dev n : ℕ) : Option ℕ :=
  Links.scan s.links.next HEAD (fun b => (s.buf b).dev == dev && (s.buf b).blockno == n) (NBUF + 1)
    (s.links.next HEAD)

/-- The second loop of `bget`: a buffer that can be recycled. -/
def unused (s : State α) : Option ℕ :=
  Links.scan s.links.prev HEAD (fun b => (s.buf b).refcnt == 0 && !(s.buf b).dirty) (NBUF + 1)
    (s.links.prev HEAD)

/-- `bget` up to `acquiresleep`. -/
def bget (s : State α) (dev n : ℕ) : Option (ℕ × State α) :=
  match s.cached dev n with
  | some b => some (b, s.setBuf b fun buf => { buf with refcnt := buf.refcnt + 1 })
  | none =>
    s.unused.map fun b => (b, s.setBuf b fun buf =>
      { buf with dev := dev, blockno := n, valid := false, dirty := false, refcnt := 1 })

/-- The disk has written a dirty buffer or has read into another one. -/
def iderw (s : State α) (b : ℕ) : State α :=
  let buf := s.buf b
  if buf.dirty then
    { s.setBuf b fun buf => { buf with valid := true, dirty := false } with
      disk := Function.update s.disk buf.blockno buf.data }
  else
    s.setBuf b fun buf => { buf with data := s.disk buf.blockno, valid := true }

/-- The end of `brelse`, with `bcache.lock`. -/
def release (s : State α) (b : ℕ) : State α :=
  let s := s.setBuf b fun buf => { buf with refcnt := buf.refcnt - 1 }
  if (s.buf b).refcnt = 0 then
    { s with links := (s.links.unlink b).insertFront HEAD b }
  else
    s

end State

/-! ## Steps -/

/-- The steps of the processes. -/
inductive Action (α : Type) where
  | bread (p n : ℕ)
  | lock (p : ℕ)
  | read (p : ℕ)
  | bwrite (p b : ℕ) (d : α)
  | logWrite (p b : ℕ) (d : α)
  | brelse (p b : ℕ)
  | release (p : ℕ)

/-- A process that is not in a call and has the lock of a buffer. -/
def State.Holds {α : Type} (s : State α) (p b : ℕ) : Prop :=
  s.phase p = .idle ∧ b < NBUF ∧ (s.buf b).lock = some p

instance {α : Type} (s : State α) (p b : ℕ) : Decidable (s.Holds p b) :=
  inferInstanceAs (Decidable (_ ∧ _ ∧ _))

def act {α : Type} (procs : ℕ) (s : State α) : Action α → Option (Event α × State α)
  | .bread p n =>
    if p < procs ∧ s.phase p = .idle then
      (s.bget ROOTDEV n).map fun (b, t) => (.silent, t.goto p (.locking n b))
    else
      none
  | .lock p =>
    match s.phase p with
    | .locking n b =>
      if (s.buf b).lock = none then
        some (.silent,
          (s.setBuf b fun buf => { buf with lock := some p }).goto p (.reading n b))
      else
        none
    | _ => none
  | .read p =>
    match s.phase p with
    | .reading n b =>
      let t := if (s.buf b).valid then s else s.iderw b
      some (.returned p b n (t.buf b).data, t.goto p .idle)
    | _ => none
  | .bwrite p b d =>
    if s.Holds p b then
      some (.wrote p (s.buf b).blockno d,
        (s.setBuf b fun buf => { buf with data := d, dirty := true }).iderw b)
    else
      none
  | .logWrite p b d =>
    if s.Holds p b then
      some (.wrote p (s.buf b).blockno d,
        s.setBuf b fun buf => { buf with data := d, dirty := true })
    else
      none
  | .brelse p b =>
    if s.Holds p b then
      some (.silent, (s.setBuf b fun buf => { buf with lock := none }).goto p (.releasing b))
    else
      none
  | .release p =>
    match s.phase p with
    | .releasing b => some (.silent, (s.release b).goto p .idle)
    | _ => none

/-- A step of one of `procs` processes. -/
def Step {α : Type} (procs : ℕ) (s : State α) (e : Event α) (t : State α) : Prop :=
  ∃ a, act procs s a = some (e, t)

/-- `binit`: the buffers are put in one after the other. -/
def binitLinks : ℕ → Links ℕ
  | 0 => ⟨fun _ => HEAD, fun _ => HEAD⟩
  | b + 1 => (binitLinks b).insertFront HEAD b

/-- After `binit`. The buffers are zero, which is no block of `ROOTDEV`. -/
def binit {α : Type} (zero : α) (disk : ℕ → α) : State α where
  buf _ := ⟨⟨false, false, 0, 0, zero⟩, none, 0⟩
  links := binitLinks NBUF
  disk := disk
  phase _ := .idle

/-- The last contents of a block that were written, the latest event first. -/
def lastWritten {α : Type} (disk : ℕ → α) (n : ℕ) : List (Event α) → α
  | [] => disk n
  | .wrote _ m d :: older => if m = n then d else lastWritten disk n older
  | .silent :: older | .returned _ _ _ _ :: older => lastWritten disk n older

end Xv6Uac.Bio
