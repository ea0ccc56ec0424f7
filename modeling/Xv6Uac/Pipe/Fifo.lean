import Xv6Uac.Pipe.Wakeups

/-!
# Pipes are queues

The ring of a pipe stands for a queue, whatever number of bytes has gone through it. What
writers have put in is what readers have returned, then what the reader in its critical
section has taken out, then that queue (`Queued`). A write that returns its length has put in
its own bytes in order (`Wrote`), and a read that returns nothing has found the pipe empty
and closed (`Drained`).
-/

namespace Xv6Uac.Pipes

open List

variable {procs p q : ℕ} {s t : State} {a : Action} {e : Event} {trace : List Event}

/-! ## What a trace says -/

namespace Event

/-- The byte that is put in. -/
def puts : Event → List UInt8
  | deposited _ c => [c]
  | _ => []

/-- The bytes that are returned. -/
def gives : Event → List UInt8
  | read _ _ (some got) => got
  | _ => []

/-- The process that an event is about, if it begins a call or puts a byte in. -/
def of : Event → Option ℕ
  | began p _ | deposited p _ => some p
  | _ => none

end Event

/-- The bytes that writers have put in, the oldest first. -/
def deposited : List Event → List UInt8
  | [] => []
  | e :: older => deposited older ++ e.puts

/-- The bytes that reads have returned, in the order in which they were done. -/
def returned : List Event → List UInt8
  | [] => []
  | e :: older => returned older ++ e.gives

/-- The bytes that a process has put in since its last call began. -/
def ownDeposits (p : ℕ) : List Event → List UInt8
  | [] => []
  | .began q _ :: older => if q = p then [] else ownDeposits p older
  | .deposited q c :: older => if q = p then ownDeposits p older ++ [c] else ownDeposits p older
  | .silent :: older | .wrote _ _ _ :: older | .read _ _ _ :: older | .killed _ :: older =>
    ownDeposits p older

/-! ## The queue -/

namespace Point

/-- The bytes that a reader has taken out and not returned yet. -/
def taken : Point → List UInt8
  | readCopy _ got | readEnd _ got | readRelease _ (some got) => got
  | _ => []

end Point

/-- The bytes that the process with the lock has taken out. -/
def State.taken (s : State) : List UInt8 :=
  match s.lock with
  | some p => (s.point p).taken
  | none => []

theorem State.taken_of_lock (held : s.lock = some p) : s.taken = (s.point p).taken := by
  rw [State.taken, held]

theorem State.taken_of_free (free : s.lock = none) : s.taken = [] := by
  rw [State.taken, free]

/-- What has been put in and not been returned is what a reader has taken and the queue in
the ring. -/
def Queued (trace : List Event) (s : State) : Prop :=
  ∃ queue, Ring.Holds PIPESIZE s.ring queue ∧
    deposited trace = returned trace ++ (s.taken ++ queue) ∧ (s.taken ++ queue).length ≤ PIPESIZE

/-- The size of the ring divides the number of values of its counters. -/
theorem pipesize_dvd : PIPESIZE ∣ 2 ^ 32 := by decide

theorem pipesize_lt : PIPESIZE < 2 ^ 32 := by decide

namespace Queued

/-- A step that moves no byte. -/
theorem still (queued : Queued trace s) (ring : t.ring = s.ring) (taken : t.taken = s.taken)
    (puts : e.puts = []) (gives : e.gives = []) : Queued (e :: trace) t := by
  rwa [Queued, ring, taken, deposited, returned, puts, gives, append_nil, append_nil]

theorem deposit {c : UInt8} (queued : Queued trace s) (room : ¬s.ring.Full PIPESIZE)
    (ring : t.ring = s.ring.push PIPESIZE c) (before : s.taken = []) (after : t.taken = []) :
    Queued (.deposited p c :: trace) t := by
  obtain ⟨queue, holds, all, small⟩ := queued
  have less : queue.length < PIPESIZE :=
    lt_of_le_of_ne holds.length fun same => room ((holds.full_iff pipesize_lt).mpr same)
  refine ⟨queue ++ [c], ring ▸ holds.push pipesize_dvd less, ?_, ?_⟩
  · simp [deposited, returned, all, before, after, Event.puts, Event.gives]
  · rw [after, nil_append, length_append, length_singleton]
    omega

theorem take (queued : Queued trace s) (filled : ¬s.ring.Empty) (ring : t.ring = s.ring.pop)
    (taken : t.taken = s.taken ++ [s.ring.front PIPESIZE]) : Queued (.silent :: trace) t := by
  obtain ⟨queue, holds, all, small⟩ := queued
  cases queue with
  | nil => exact absurd ((holds.empty_iff pipesize_lt).mpr rfl) filled
  | cons c rest =>
    obtain ⟨front, popped⟩ := holds.pop pipesize_dvd
    rw [front] at taken
    refine ⟨rest, ring ▸ popped, ?_, ?_⟩
    · simp [deposited, returned, all, taken, Event.puts, Event.gives]
    · rw [taken]
      simpa using small

theorem give {n : ℕ} {got : List UInt8} (queued : Queued trace s) (ring : t.ring = s.ring)
    (before : s.taken = got) (after : t.taken = []) :
    Queued (.read p n (some got) :: trace) t := by
  obtain ⟨queue, holds, all, small⟩ := queued
  refine ⟨queue, ring ▸ holds, ?_, ?_⟩
  · simp [deposited, returned, all, before, after, Event.puts, Event.gives]
  · rw [after]
    rw [length_append] at small
    exact (Nat.le_add_left _ _).trans small

/-- The process that takes a step in a critical section has the lock. -/
theorem taken_of_inside {point : Point} (orderly : Orderly procs s) (at_ : s.point p = point)
    (inside : point.inside = true) : s.taken = point.taken := by
  rw [State.taken_of_lock (orderly.holder.mpr (at_ ▸ inside)), at_]

/-- A step in a critical section that moves no byte. -/
theorem inner {old new : Point} (queued : Queued trace s) (before : Orderly procs s)
    (after : Orderly procs t) (at_ : s.point p = old) (goes : t.point p = new)
    (inside : old.inside = true) (stays : new.inside = true) (ring : t.ring = s.ring)
    (taken : new.taken = old.taken) : Queued (.silent :: trace) t := by
  refine queued.still ring ?_ rfl rfl
  rw [taken_of_inside before at_ inside, taken_of_inside after goes stays, taken]

/-- The lock is taken. -/
theorem locks {new : Point} (queued : Queued trace s) (after : Orderly procs t)
    (free : s.lock = none) (goes : t.point p = new) (stays : new.inside = true)
    (ring : t.ring = s.ring) (taken : new.taken = []) : Queued (.silent :: trace) t := by
  refine queued.still ring ?_ rfl rfl
  rw [State.taken_of_free free, taken_of_inside after goes stays, taken]

theorem step (queued : Queued trace s) (orderly : Orderly procs s) (acts : Acts procs s a e t) :
    Queued (e :: trace) t := by
  have after := orderly.step acts
  have goes : ∀ {u : State} {p : ℕ} {point : Point}, (u.goto p point).point p = point := by
    intro u p point
    exact Function.update_self p point u.point
  cases acts with
  | @begins p call small at_ =>
    refine queued.still rfl ?_ rfl rfl
    cases lock : s.lock with
    | none => simp only [State.taken, State.goto, lock]
    | some r =>
      have other : r ≠ p := by
        rintro rfl
        have inside := orderly.holder.mp lock
        rw [at_] at inside
        cases inside
      simp only [State.taken, State.goto, lock, Function.update_of_ne other]
  | kill p => exact queued.still rfl rfl rfl rfl
  | writeLocks at_ free | readLocks at_ free => exact queued.locks after free goes rfl rfl rfl
  | writeStops at_ | writeFails at_ | writeBlocks at_ | writeWakes at_ | writeEnds at_
  | readFails at_ | readBlocks at_ | readCopies at_ | readStops at_ | readEnds at_
  | closeWakes at_ => exact queued.inner orderly after at_ goes rfl rfl rfl rfl
  | deposits at_ more room =>
    exact queued.deposit room rfl (taken_of_inside orderly at_ rfl)
      (taken_of_inside after goes rfl)
  | writeSleeps at_ | writeReturns at_ | readSleeps at_ | closeReturns at_ =>
    exact queued.still rfl (taken_of_inside orderly at_ rfl).symm rfl rfl
  | takes at_ more filled =>
    apply queued.take filled rfl
    rw [taken_of_inside after goes rfl, taken_of_inside orderly at_ rfl]
    rfl
  | @readReturns p n got at_ =>
    cases got with
    | none => exact queued.still rfl (taken_of_inside orderly at_ rfl).symm rfl rfl
    | some got => exact queued.give rfl (taken_of_inside orderly at_ rfl) rfl
  | @closeLocks p writable at_ free =>
    exact queued.locks after free goes rfl (by cases writable <;> rfl) rfl

end Queued

/-! ## Writes -/

/-- What a process has put in, at a point of `pipewrite`. -/
def Point.Wrote (bytes : List UInt8) : Point → Prop
  | writeAcquire src i | writeLoop src i | writeFull src i | writeSleep src i =>
    bytes = src.take i
  | writeEnd src => bytes = src
  | writeRelease src ret => ret = -1 ∨ ret = src.length ∧ bytes = src
  | _ => True

/-- Every write has put in the bytes it says. -/
def Wrote (trace : List Event) (s : State) : Prop :=
  ∀ p, (s.point p).Wrote (ownDeposits p trace)

theorem ownDeposits_of_ne (other : e.of ≠ some p) :
    ownDeposits p (e :: trace) = ownDeposits p trace := by
  cases e with
  | began q | deposited q =>
    have other : q ≠ p := fun same => other (congrArg some same)
    rw [ownDeposits, if_neg other]
  | _ => rfl

/-- A step of one process. -/
theorem Wrote.moves {point : Point} (wrote : Wrote trace s)
    (point_eq : t.point = Function.update s.point p point) (by_ : e.of = none ∨ e.of = some p)
    (own : point.Wrote (ownDeposits p (e :: trace))) : Wrote (e :: trace) t := by
  intro q
  rw [point_eq]
  obtain rfl | other := eq_or_ne q p
  · rwa [Function.update_self]
  · rw [Function.update_of_ne other, ownDeposits_of_ne]
    · exact wrote q
    · obtain none | some := by_
      · rw [none]
        simp
      · rw [some]
        exact fun same => other (Option.some.inj same).symm

theorem Wrote.step (wrote : Wrote trace s) (acts : Acts procs s a e t) : Wrote (e :: trace) t := by
  cases acts with
  | @begins p call small at_ =>
    apply wrote.moves rfl (.inr rfl)
    rw [ownDeposits, if_pos rfl]
    cases call <;> trivial
  | kill p => exact wrote
  | @deposits p i c src at_ more =>
    have own := wrote p
    rw [at_] at own
    apply wrote.moves rfl (.inr rfl)
    change ownDeposits p (.deposited p c :: trace) = src.take (i + 1)
    rw [ownDeposits, if_pos rfl, own, take_add_one, more]
    rfl
  | @writeStops p i src at_ all =>
    have own := wrote p
    rw [at_] at own
    refine wrote.moves rfl (.inl rfl) (Eq.trans own ?_)
    exact take_of_length_le (List.getElem?_eq_none_iff.mp all)
  | @writeLocks p i src at_ | @writeBlocks p i c src at_ | @writeWakes p i src at_
  | @writeSleeps p i src at_ =>
    have own := wrote p
    rw [at_] at own
    exact wrote.moves rfl (.inl rfl) own
  | @writeFails p i c src at_ => exact wrote.moves rfl (.inl rfl) (.inl rfl)
  | @writeEnds p src at_ =>
    have own := wrote p
    rw [at_] at own
    exact wrote.moves rfl (.inl rfl) (.inr ⟨rfl, own⟩)
  | @closeLocks p writable at_ => cases writable <;> exact wrote.moves rfl (.inl rfl) trivial
  | _ => exact wrote.moves rfl (.inl rfl) trivial

/-! ## Reads -/

/-- What a reader that has got nothing has seen. -/
def Point.Drained (s : State) : Point → Prop
  | readCopy _ got => got = [] → ¬s.ring.Empty ∨ s.writeopen = false
  | readEnd n got | readRelease n (some got) =>
    got = [] → 0 < n → s.ring.Empty ∧ s.writeopen = false
  | _ => True

/-- Every read that returns nothing has seen the pipe empty and closed. -/
def Drained (s : State) : Prop := ∀ p, (s.point p).Drained s

theorem Point.Drained.of_outside {point : Point} (outside : point.inside = false) :
    point.Drained s := by
  cases point <;> trivial

/-- A step of the process with the lock, or of one that gets it or gives it back. -/
theorem Drained.of_holder {point : Point} (after : Orderly procs t)
    (lock : ∀ q, t.lock = some q → q = p) (goes : t.point p = point) (own : point.Drained t) :
    Drained t := by
  intro q
  obtain rfl | other := eq_or_ne q p
  · rwa [goes]
  · refine .of_outside ?_
    by_contra inside
    rw [Bool.not_eq_false] at inside
    exact other (lock q (after.holder.mpr inside))

theorem Drained.step (drained : Drained s) (orderly : Orderly procs s) (acts : Acts procs s a e t) :
    Drained t := by
  have after := orderly.step acts
  have goes : ∀ {u : State} {p : ℕ} {point : Point}, (u.goto p point).point p = point := by
    intro u p point
    exact Function.update_self p point u.point
  have mine : ∀ {p : ℕ} {point : Point}, s.point p = point → point.inside = true →
      ∀ q, s.lock = some q → q = p := by
    intro p point at_ inside q held
    have own := orderly.holder.mpr (at_ ▸ inside)
    exact Option.some.inj (held.symm.trans own)
  cases acts with
  | @begins p call small at_ =>
    intro q
    obtain rfl | other := eq_or_ne q p
    · rw [goes]
      cases call <;> trivial
    · have same : (s.goto p call.entry).point q = s.point q := Function.update_of_ne other _ _
      rw [same]
      exact drained q
  | kill p => exact drained
  | readCopies at_ ready => exact .of_holder after (mine at_ rfl) goes fun _ => ready
  | takes at_ => exact .of_holder after (mine at_ rfl) goes fun empty => by simp at empty
  | @readStops p n got at_ all =>
    refine .of_holder after (mine at_ rfl) goes fun nothing wants => ?_
    have seen := drained p
    rw [at_] at seen
    have empty : s.ring.Empty := all.resolve_left (by rw [nothing]; exact Nat.not_le.mpr wants)
    exact ⟨empty, (seen nothing).resolve_left (not_not.mpr empty)⟩
  | @readEnds p n got at_ =>
    have seen := drained p
    rw [at_] at seen
    exact .of_holder after (mine at_ rfl) goes seen
  | @closeLocks p writable at_ free =>
    refine .of_holder after (fun q held => ?_) goes trivial
    cases writable <;> exact (Option.some.inj held).symm
  | writeLocks at_ free | readLocks at_ free =>
    exact .of_holder after (fun q held => (Option.some.inj held).symm) goes trivial
  | writeSleeps | writeReturns | readSleeps | readReturns | closeReturns =>
    exact .of_holder after (fun q held => nomatch held) goes trivial
  | writeStops at_ | writeFails at_ | writeBlocks at_ | deposits at_ | writeWakes at_
  | writeEnds at_ | readFails at_ | readBlocks at_ | closeWakes at_ =>
    exact .of_holder after (mine at_ rfl) goes trivial

/-! ## Runs -/

/-- What every run keeps. -/
structure Fifo (procs : ℕ) (trace : List Event) (s : State) : Prop where
  orderly : Orderly procs s
  queued : Queued trace s
  wrote : Wrote trace s
  drained : Drained s

theorem pipealloc_fifo (procs : ℕ) (data : ℕ → UInt8) (killed : ℕ → Bool) :
    Fifo procs [] (pipealloc data killed) where
  orderly := pipealloc_orderly procs data killed
  queued := ⟨[], Ring.holds_nil rfl, rfl, Nat.zero_le _⟩
  wrote _ := trivial
  drained _ := trivial

theorem Fifo.step (fifo : Fifo procs trace s) (step : Step procs s e t) :
    Fifo procs (e :: trace) t := by
  obtain ⟨a, taken⟩ := step
  have acts := acts_of_act taken
  exact ⟨fifo.orderly.step acts, fifo.queued.step fifo.orderly acts, fifo.wrote.step acts,
    fifo.drained.step fifo.orderly acts⟩

/-- **Pipes are lossless queues.** In every run of any processes on a pipe, of any length:
* what reads have returned is a prefix of what writers have put in, and at most `PIPESIZE`
  bytes have been put in and not been returned;
* a `pipewrite` that does not return -1 returns the number of its bytes, and has put in
  exactly those, in order;
* a `piperead` of more than nothing that returns no bytes has found the pipe empty and its
  write end closed. -/
theorem pipe_is_fifo {data : ℕ → UInt8} {killed : ℕ → Bool}
    (run : TraceRun.Run (Step procs) (pipealloc data killed) trace s) :
    (∃ flying, deposited trace = returned trace ++ flying ∧ flying.length ≤ PIPESIZE) ∧
    (∀ {p src ret t}, Step procs s (.wrote p src ret) t → ret ≠ -1 →
      ret = src.length ∧ ownDeposits p trace = src) ∧
    ∀ {p n t}, Step procs s (.read p n (some [])) t → 0 < n →
      s.ring.nread = s.ring.nwrite ∧ s.writeopen = false := by
  obtain ⟨-, queued, wrote, drained⟩ := run.invariant (pipealloc_fifo procs data killed) Fifo.step
  obtain ⟨queue, -, all, small⟩ := queued
  refine ⟨⟨s.taken ++ queue, all, small⟩, fun {p src ret t} step returns => ?_,
    fun {p n t} step wants => ?_⟩
  · obtain ⟨a, taken⟩ := step
    have acts := acts_of_act taken
    cases acts with
    | writeReturns at_ =>
      have own := wrote p
      rw [at_] at own
      exact own.resolve_left returns
  · obtain ⟨a, taken⟩ := step
    have acts := acts_of_act taken
    cases acts with
    | readReturns at_ =>
      have seen := drained p
      rw [at_] at seen
      exact seen rfl wants

/-- One process writes two bytes, another one reads them. -/
def writeThenRead : List Event :=
  [.read 0 5 (some [7, 8]), .silent, .silent, .silent, .silent, .silent, .silent,
    .began 0 (.read 5), .wrote 1 [7, 8] 2, .silent, .silent, .deposited 1 8, .deposited 1 7,
    .silent, .began 1 (.write [7, 8])]

theorem pipe_is_fifo_of_write :
    ∃ s, TraceRun.Run (Step 2) (pipealloc (fun _ => 0) fun _ => false) writeThenRead s ∧
      ∃ flying, deposited writeThenRead = returned writeThenRead ++ flying ∧
        flying.length ≤ PIPESIZE := by
  have played : (TraceRun.replay (fun a s => s.act 2 a) (pipealloc (fun _ => 0) fun _ => false)
      ([.steps 0, .steps 0, .steps 0, .steps 0, .steps 0, .steps 0, .steps 0, .begins 0 (.read 5),
        .steps 1, .steps 1, .steps 1, .steps 1, .steps 1, .steps 1,
        .begins 1 (.write [7, 8])])).any (fun (trace, _) => trace = writeThenRead) = true := by
    decide
  have sound : ∀ (a : Action) (s : State) (e : Event) (t : State),
      s.act 2 a = some (e, t) → Step 2 s e t := fun a _ _ _ taken => ⟨a, taken⟩
  obtain ⟨trace, s, run, same⟩ := TraceRun.Run.exists_of_replay sound played
  obtain rfl := of_decide_eq_true same
  exact ⟨s, run, (pipe_is_fifo run).1⟩

end Xv6Uac.Pipes
