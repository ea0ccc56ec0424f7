import Xv6Uac.Pipe.Protocol

/-!
# No lost wakeup

A process sleeps on `&p->nread` while the pipe is empty and on `&p->nwrite` while it is full,
and the other end is open. Whoever changes that wakes the sleepers before it releases
`p->lock` (`Waking`), with one exception: a process that is killed and finds the pipe full
leaves `pipewrite` without waking the readers, although it may have put bytes into the empty
pipe before.
-/

namespace Xv6Uac.Pipes

open Function (update update_apply update_of_ne update_self)

variable {procs p q : ℕ} {s t : State} {a : Action} {e : Event} {chan : Chan} {point : Point}

/-! ## The lock and the references -/

/-- The process that is in a critical section has the lock, and nobody uses an end that
somebody closes or has closed. -/
structure Orderly (procs : ℕ) (s : State) : Prop where
  bound : ∀ {q}, s.point q ≠ .outside → q < procs
  holder : ∀ {p}, s.lock = some p ↔ (s.point p).inside = true
  alone : ∀ {p q writable}, (s.point p).closing = some writable →
    (s.point q).side = some writable → q = p
  shut : ∀ {q writable}, s.isOpen writable = false → (s.point q).side = some writable →
    (s.point q).closing = some writable ∧ (s.point q).inside = true

/-- A process goes on in its call, or returns. -/
theorem Orderly.moves {old : Point} (orderly : Orderly procs s) (at_ : s.point p = old)
    (used : old ≠ .outside) (mine : s.lock = none ∨ s.lock = some p)
    (point_eq : t.point = update s.point p point) (opened : t.isOpen = s.isOpen)
    (lock : t.lock = if point.inside then some p else none)
    (stays : point = .outside ∨ point.side = old.side ∧ point.closing = old.closing ∧
      (old.closing ≠ none → old.inside = true → point.inside = true)) : Orderly procs t := by
  obtain ⟨bound, holder, alone, shut⟩ := orderly
  constructor <;> simp only [point_eq, opened]
  · grind
  · grind
  · grind [Point.side, Point.closing]
  · grind [Point.side]

/-- The same in a critical section. -/
theorem Orderly.inner {old : Point} (orderly : Orderly procs s) (at_ : s.point p = old)
    (inside : old.inside = true) (point_eq : t.point = update s.point p point)
    (opened : t.isOpen = s.isOpen) (lock : t.lock = if point.inside then s.lock else none)
    (stays : point = .outside ∨ point.side = old.side ∧ point.closing = old.closing ∧
      (old.closing ≠ none → point.inside = true)) : Orderly procs t := by
  have mine : s.lock = some p := orderly.holder.mpr (at_ ▸ inside)
  refine orderly.moves at_ ?_ (.inr mine) point_eq opened (mine ▸ lock)
    (stays.imp_right fun ⟨side, closing, kept⟩ => ⟨side, closing, fun some _ => kept some⟩)
  rintro rfl
  cases inside

/-- What the references say of a call that begins. -/
theorem Call.Admitted.entry {call : Call} (admitted : call.Admitted procs s) :
    ∃ writable, call.entry.side = some writable ∧ s.isOpen writable = true ∧
      (∀ q < procs, (s.point q).closing ≠ some writable) ∧
      (call.entry.closing ≠ none → ∀ q < procs, (s.point q).side ≠ some writable) := by
  cases call with
  | write => exact ⟨true, rfl, admitted.1, admitted.2, fun closes => absurd rfl closes⟩
  | read => exact ⟨false, rfl, admitted.1, admitted.2, fun closes => absurd rfl closes⟩
  | close writable =>
    refine ⟨writable, rfl, admitted.1, fun q small closes => admitted.2 q small ?_,
      fun _ => admitted.2⟩
    generalize s.point q = point at closes
    cases point <;> first | exact closes | cases closes

theorem Orderly.begins {call : Call} (orderly : Orderly procs s) (small : p < procs)
    (at_ : s.point p = .outside) (admitted : call.Admitted procs s) :
    Orderly procs (s.goto p call.entry) := by
  obtain ⟨bound, holder, alone, shut⟩ := orderly
  obtain ⟨writable, side, opened, free, closing⟩ := admitted.entry
  have waits : call.entry.inside = false := by cases call <;> rfl
  have closes : ∀ {side}, call.entry.closing = some side → side = writable := by
    intro other
    cases call <;> simp_all [Call.entry, Point.closing, Point.side]
  constructor <;> simp only [State.goto, update_apply]
  · grind
  · grind [Point.inside]
  · grind [Point.side, Point.closing]
  · change ∀ {q other}, s.isOpen other = false → _
    grind

theorem Orderly.closes {writable : Bool} (orderly : Orderly procs s)
    (at_ : s.point p = .closeAcquire writable) (free : s.lock = none) :
    Orderly procs (((s.acquire p).shut writable).goto p (.closeWake writable)) := by
  obtain ⟨bound, holder, alone, shut⟩ := orderly
  have opened : ∀ other, (((s.acquire p).shut writable).goto p (.closeWake writable)).isOpen other =
      if other = writable then false else s.isOpen other := by
    intro other
    cases writable <;> cases other <;> rfl
  have lock : (((s.acquire p).shut writable).goto p (.closeWake writable)).lock = some p := by
    cases writable <;> rfl
  have point : (((s.acquire p).shut writable).goto p (.closeWake writable)).point =
      update s.point p (.closeWake writable) := by
    cases writable <;> rfl
  constructor <;> simp only [point]
  · grind
  · grind [Point.inside]
  · grind [Point.side, Point.closing]
  · grind [Point.side, Point.closing, Point.inside]

theorem Orderly.step (orderly : Orderly procs s) (acts : Acts procs s a e t) :
    Orderly procs t := by
  -- a read or a write closes nothing
  have calls : ∀ {P : Prop}, none ≠ (none : Option Bool) → P := fun differs => absurd rfl differs
  cases acts with
  | begins small at_ admitted => exact orderly.begins small at_ admitted
  | kill p => exact ⟨orderly.bound, orderly.holder, orderly.alone, orderly.shut⟩
  | closeLocks at_ free => exact orderly.closes at_ free
  | writeLocks at_ free | readLocks at_ free =>
    exact orderly.moves at_ (by simp) (.inl free) rfl rfl rfl (.inr ⟨rfl, rfl, calls⟩)
  | writeStops at_ | writeFails at_ | writeBlocks at_ | deposits at_ | writeWakes at_
  | writeSleeps at_ | writeEnds at_ | readFails at_ | readBlocks at_ | readCopies at_
  | readSleeps at_ | takes at_ | readStops at_ | readEnds at_ =>
    exact orderly.inner at_ rfl rfl rfl rfl (.inr ⟨rfl, rfl, calls⟩)
  | writeReturns at_ | readReturns at_ | closeReturns at_ =>
    exact orderly.inner at_ rfl rfl rfl rfl (.inl rfl)
  | closeWakes at_ => exact orderly.inner at_ rfl rfl rfl rfl (.inr ⟨rfl, rfl, fun _ => rfl⟩)

/-! ## Reasons to sleep -/

/-- Why a process sleeps on a channel. -/
def Reason (s : State) : Chan → Prop
  | .nread => s.ring.Empty ∧ s.writeopen = true
  | .nwrite => s.ring.Full PIPESIZE ∧ s.readopen = true

theorem Reason.congr (reason : Reason s chan) (ring : t.ring = s.ring)
    (readopen : t.readopen = s.readopen) (writeopen : t.writeopen = s.writeopen) :
    Reason t chan := by
  cases chan
  · rwa [Reason, ring, writeopen]
  · rwa [Reason, ring, readopen]

namespace Point

/-- The channel on which a process at this point can be asleep. -/
def waitsOn : Point → Option Chan
  | readAcquire _ => some .nread
  | writeAcquire _ _ => some .nwrite
  | _ => none

/-- The channel on which a process goes to sleep. -/
def blockedOn : Point → Option Chan
  | readSleep _ => some .nread
  | writeFull _ _ | writeSleep _ _ => some .nwrite
  | _ => none

/-- The channel that a process wakes up before it releases the lock. -/
def wakes : Point → Option Chan
  | writeLoop _ _ | writeFull _ _ | writeEnd _ | closeWake true => some .nread
  | readCopy _ _ | readEnd _ _ | closeWake false => some .nwrite
  | _ => none

theorem inside_of_blockedOn (blocked : point.blockedOn = some chan) : point.inside = true := by
  cases point <;> first | rfl | cases blocked

theorem inside_of_wakes (wakes : point.wakes = some chan) : point.inside = true := by
  cases point <;> first | rfl | cases wakes

theorem not_inside_of_waitsOn (waits : point.waitsOn = some chan) : point.inside = false := by
  cases point <;> first | rfl | cases waits

end Point

/-- Who sleeps has a reason, or is woken up by the process that has the lock. -/
structure Waking (s : State) : Prop where
  waits : ∀ {q chan}, s.asleep q = some chan → (s.point q).waitsOn = some chan
  blocked : ∀ {p chan}, (s.point p).blockedOn = some chan → Reason s chan
  reason : ∀ {q chan}, s.asleep q = some chan →
    Reason s chan ∨ ∃ p, s.lock = some p ∧ (s.point p).wakes = some chan

/-- In the loop of `pipewrite` with bytes to go. -/
def Point.pending : Point → Bool
  | writeLoop src i => i < src.length
  | _ => false

/-- The process is killed and finds the pipe full in `pipewrite`. -/
def GivesUp (s : State) (p : ℕ) : Prop :=
  (s.point p).pending = true ∧ s.ring.Full PIPESIZE ∧ s.readopen = true ∧ s.killed p = true

instance (s : State) (p : ℕ) : Decidable (GivesUp s p) :=
  inferInstanceAs (Decidable (_ ∧ _ ∧ _ ∧ _))

/-- A process that gives up leaves no reader asleep. -/
def Announces (procs : ℕ) (s : State) : Action → Prop
  | .steps p => GivesUp s p → ∀ q < procs, s.asleep q ≠ some .nread
  | _ => True

instance (procs : ℕ) (s : State) : (a : Action) → Decidable (Announces procs s a)
  | .steps p => inferInstanceAs (Decidable (GivesUp s p → ∀ q < procs, _))
  | .begins _ _ | .kill _ => inferInstanceAs (Decidable True)

namespace Waking

variable (waking : Waking s)
include waking

variable {old : Point}

/-- A process that is awake goes on, and nobody falls asleep. -/
theorem moves (orderly : Orderly procs t) (at_ : s.point p = old) (awake : s.asleep p = none)
    (mine : s.lock = none ∨ s.lock = some p) (point_eq : t.point = update s.point p point)
    (fewer : ∀ {q chan}, t.asleep q = some chan → s.asleep q = some chan)
    (lock : t.lock = if point.inside then some p else none)
    (blocked : ∀ {chan}, point.blockedOn = some chan → Reason t chan)
    (reason : ∀ {q chan}, t.asleep q = some chan → Reason s chan ∨ old.wakes = some chan →
      Reason t chan ∨ point.wakes = some chan) : Waking t := by
  have now : t.point p = point := by rw [point_eq, update_self]
  have others : ∀ {q}, q ≠ p → t.point q = s.point q := by
    intro q other
    rw [point_eq, update_of_ne other]
  constructor
  · intro q chan sleeps
    have other : q ≠ p := by
      rintro rfl
      rw [fewer sleeps] at awake
      cases awake
    rw [others other]
    exact waking.waits (fewer sleeps)
  · intro q chan sleeps
    have held := orderly.holder.mpr (Point.inside_of_blockedOn sleeps)
    rw [lock] at held
    split at held
    · cases held
      exact blocked (now ▸ sleeps)
    · cases held
  · intro q chan sleeps
    have before : Reason s chan ∨ old.wakes = some chan := by
      refine (waking.reason (fewer sleeps)).imp_right fun ⟨r, held, wakes⟩ => ?_
      obtain rfl : r = p := by
        obtain free | mine := mine
        · rw [free] at held
          cases held
        · exact Option.some.inj (held.symm.trans mine)
      rwa [at_] at wakes
    refine (reason sleeps before).imp_right fun wakes => ⟨p, ?_, now ▸ wakes⟩
    rw [lock, if_pos (Point.inside_of_wakes wakes)]

/-- The same in a critical section. -/
theorem inner (before : Orderly procs s) (orderly : Orderly procs t) (at_ : s.point p = old)
    (inside : old.inside = true) (point_eq : t.point = update s.point p point)
    (fewer : ∀ {q chan}, t.asleep q = some chan → s.asleep q = some chan)
    (lock : t.lock = if point.inside then s.lock else none)
    (blocked : ∀ {chan}, point.blockedOn = some chan → Reason t chan)
    (reason : ∀ {q chan}, t.asleep q = some chan → Reason s chan ∨ old.wakes = some chan →
      Reason t chan ∨ point.wakes = some chan) : Waking t := by
  have mine : s.lock = some p := before.holder.mpr (at_ ▸ inside)
  refine waking.moves orderly at_ ?_ (.inr mine) point_eq fewer (mine ▸ lock) blocked reason
  cases sleeps : s.asleep p with
  | none => rfl
  | some chan =>
    have outside := Point.not_inside_of_waitsOn (waking.waits sleeps)
    rw [at_, inside] at outside
    cases outside

/-- The pipe stays as it is, and so does who sleeps. -/
theorem still (before : Orderly procs s) (orderly : Orderly procs t) (at_ : s.point p = old)
    (inside : old.inside = true) (point_eq : t.point = update s.point p point)
    (asleep : t.asleep = s.asleep) (lock : t.lock = if point.inside then s.lock else none)
    (ring : t.ring = s.ring) (readopen : t.readopen = s.readopen)
    (writeopen : t.writeopen = s.writeopen) (blocked : point.blockedOn = none)
    (owes : old.wakes = none ∨ point.wakes = old.wakes) : Waking t := by
  refine waking.inner before orderly at_ inside point_eq (fun sleeps => asleep ▸ sleeps) lock
    (fun blocks => ?_) fun _ reason => reason.imp (·.congr ring readopen writeopen) fun wakes => ?_
  · rw [blocked] at blocks
    cases blocks
  · obtain none | same := owes
    · rw [none] at wakes
      cases wakes
    · rwa [same]

/-- The sleepers that are due are woken up. -/
theorem wakesUp (before : Orderly procs s) (orderly : Orderly procs ((s.wakeup chan).goto p point))
    (at_ : s.point p = old) (due : old.wakes = some chan) (inside : point.inside = true)
    (blocked : point.blockedOn = old.blockedOn) : Waking ((s.wakeup chan).goto p point) := by
  have fewer : ∀ {q other}, ((s.wakeup chan).goto p point).asleep q = some other →
      s.asleep q = some other ∧ other ≠ chan := by
    intro q other sleeps
    simp only [State.wakeup, State.goto] at sleeps
    split_ifs at sleeps with woken
    exact ⟨sleeps, fun same => woken (same ▸ sleeps)⟩
  refine waking.inner before orderly at_ (Point.inside_of_wakes due) rfl (fun sleeps => (fewer sleeps).1)
    (if_pos inside).symm (fun blocks => ?_) fun sleeps reason => ?_
  · exact (waking.blocked (at_ ▸ blocked ▸ blocks)).congr rfl rfl rfl
  · obtain reason | wakes := reason
    · exact .inl (reason.congr rfl rfl rfl)
    · exact absurd (Option.some.inj (wakes.symm.trans due)) (fewer sleeps).2

/-- A process with a reason to sleep falls asleep. -/
theorem sleeps (orderly : Orderly procs s) (at_ : s.point p = old)
    (blocked : old.blockedOn = some chan) (calm : old.wakes = none)
    (waits : point.waitsOn = some chan) : Waking ((s.sleep p chan).goto p point) := by
  have mine : s.lock = some p := orderly.holder.mpr (at_ ▸ Point.inside_of_blockedOn blocked)
  have out := Point.not_inside_of_waitsOn waits
  constructor
  · intro q other sleeps
    simp only [State.sleep, State.goto, update_apply] at sleeps ⊢
    split_ifs at sleeps ⊢ with own
    · rwa [← Option.some.inj sleeps]
    · exact waking.waits sleeps
  · intro q other blocks
    have inside := Point.inside_of_blockedOn blocks
    simp only [State.goto, update_apply] at inside
    split_ifs at inside with own
    · rw [out] at inside
      cases inside
    · have held := orderly.holder.mpr inside
      exact absurd (Option.some.inj (held.symm.trans mine)) own
  · intro q other sleeps
    refine .inl (Reason.congr ?_ rfl rfl rfl)
    simp only [State.sleep, State.goto, update_apply] at sleeps
    split_ifs at sleeps with own
    · rw [← Option.some.inj sleeps]
      exact waking.blocked (at_ ▸ blocked)
    · obtain reason | ⟨r, held, wakes⟩ := waking.reason sleeps
      · exact reason
      · obtain rfl := Option.some.inj (held.symm.trans mine)
        rw [at_, calm] at wakes
        cases wakes

/-- The last test of a killed process, or of one that writes to a pipe without readers. -/
theorem fails {src : List UInt8} {i : ℕ} {c : UInt8} (orderly : Orderly procs s)
    (at_ : s.point p = .writeLoop src i) (more : src[i]? = some c) (full : s.ring.Full PIPESIZE)
    (fails : s.readopen = false ∨ s.killed p = true)
    (announces : GivesUp s p → ∀ q < procs, s.asleep q ≠ some .nread) :
    s.asleep q ≠ some .nread := by
  intro sleeps
  have waits := waking.waits sleeps
  cases opened : s.readopen with
  | false =>
    -- a reader would have the read end open
    have side : (s.point q).side = some false := by
      generalize s.point q = point at waits
      cases point <;> first | rfl | cases waits
    obtain ⟨-, inside⟩ := @Orderly.shut _ _ orderly q false opened side
    rw [Point.not_inside_of_waitsOn waits] at inside
    cases inside
  | true =>
    obtain closed | killed := fails
    · rw [opened] at closed
      cases closed
    · have small : q < procs := orderly.bound fun out => by
        rw [out] at waits
        cases waits
      obtain ⟨inRange, -⟩ := List.getElem?_eq_some_iff.mp more
      have givesUp : GivesUp s p := by
        rw [GivesUp, at_]
        exact ⟨decide_eq_true inRange, full, opened, killed⟩
      exact announces givesUp q small sleeps

end Waking

theorem Waking.begins {call : Call} (waking : Waking s) (at_ : s.point p = .outside) :
    Waking (s.goto p call.entry) := by
  have idle : call.entry.blockedOn = none := by cases call <;> rfl
  have others : ∀ {q}, q ≠ p → (s.goto p call.entry).point q = s.point q :=
    fun other => update_of_ne other _ _
  constructor
  · intro q chan sleeps
    have waits := waking.waits sleeps
    have other : q ≠ p := by
      rintro rfl
      rw [at_] at waits
      cases waits
    rwa [others other]
  · intro q chan blocked
    obtain rfl | other := eq_or_ne q p
    · simp only [State.goto, update_self, idle] at blocked
      cases blocked
    · rw [others other] at blocked
      exact (waking.blocked blocked).congr rfl rfl rfl
  · intro q chan sleeps
    refine (waking.reason sleeps).imp (·.congr rfl rfl rfl) fun ⟨r, held, wakes⟩ => ⟨r, held, ?_⟩
    have other : r ≠ p := by
      rintro rfl
      rw [at_] at wakes
      cases wakes
    rwa [others other]

theorem Waking.kill (waking : Waking s) (p : ℕ) : Waking (s.kill p) := by
  have fewer : ∀ {q chan}, (s.kill p).asleep q = some chan → s.asleep q = some chan := by
    intro q chan sleeps
    simp only [State.kill, update_apply] at sleeps
    split_ifs at sleeps
    exact sleeps
  exact ⟨fun sleeps => waking.waits (fewer sleeps),
    fun blocked => (waking.blocked blocked).congr rfl rfl rfl,
    fun sleeps => (waking.reason (fewer sleeps)).imp (·.congr rfl rfl rfl) id⟩

theorem Waking.closes {writable : Bool} (waking : Waking s)
    (orderly : Orderly procs (((s.acquire p).shut writable).goto p (.closeWake writable)))
    (at_ : s.point p = .closeAcquire writable) (free : s.lock = none) :
    Waking (((s.acquire p).shut writable).goto p (.closeWake writable)) := by
  have awake : s.asleep p = none := by
    cases sleeps : s.asleep p with
    | none => rfl
    | some chan =>
      have waits := waking.waits sleeps
      rw [at_] at waits
      cases waits
  cases writable with
  | true =>
    refine waking.moves orderly at_ awake (.inl free) rfl id rfl (by simp [Point.blockedOn])
      fun {q chan} _ reason => ?_
    cases chan with
    | nread => exact .inr rfl
    | nwrite =>
      obtain ⟨full, opened⟩ := reason.resolve_right (by simp [Point.wakes])
      exact .inl ⟨full, opened⟩
  | false =>
    refine waking.moves orderly at_ awake (.inl free) rfl id rfl (by simp [Point.blockedOn])
      fun {q chan} _ reason => ?_
    cases chan with
    | nwrite => exact .inr rfl
    | nread =>
      obtain ⟨empty, opened⟩ := reason.resolve_right (by simp [Point.wakes])
      exact .inl ⟨empty, opened⟩

theorem Waking.step (waking : Waking s) (orderly : Orderly procs s) (acts : Acts procs s a e t)
    (announces : Announces procs s a) : Waking t := by
  have after := orderly.step acts
  cases acts with
  | kill p => exact waking.kill p
  | begins small at_ => exact waking.begins at_
  | closeLocks at_ free => exact waking.closes after at_ free
  | writeLocks at_ free awake | readLocks at_ free awake =>
    exact waking.moves after at_ awake (.inl free) rfl id rfl (by simp [Point.blockedOn])
      fun _ before => before.imp (·.congr rfl rfl rfl) (by simp [Point.wakes])
  | writeStops at_ | readStops at_ =>
    exact waking.still orderly after at_ rfl rfl rfl rfl rfl rfl rfl rfl (.inr rfl)
  | writeFails at_ more full fails =>
    -- the readers are not woken up, so there must be none asleep
    have none := fun q => waking.fails (q := q) orderly at_ more full fails announces
    refine waking.inner orderly after at_ rfl rfl id rfl (by simp [Point.blockedOn])
      fun sleeps before => ?_
    obtain reason | wakes := before
    · exact .inl (reason.congr rfl rfl rfl)
    · cases wakes
      exact absurd sleeps (none _)
  | writeBlocks at_ more full opened =>
    refine waking.inner orderly after at_ rfl rfl id rfl (fun blocked => ?_)
      fun _ before => before.imp (·.congr rfl rfl rfl) id
    cases blocked
    exact ⟨full, opened⟩
  | deposits at_ more room =>
    refine waking.inner orderly after at_ rfl rfl id rfl (by simp [Point.blockedOn])
      fun {q chan} _ before => ?_
    cases chan with
    | nread => exact .inr rfl
    | nwrite => exact absurd (before.resolve_right (by simp [Point.wakes])).1 room
  | writeWakes at_ | writeEnds at_ | readEnds at_ =>
    exact waking.wakesUp orderly after at_ rfl rfl rfl
  | writeSleeps at_ | readSleeps at_ => exact waking.sleeps orderly at_ rfl rfl rfl
  | writeReturns at_ | readFails at_ | readCopies at_ | readReturns at_ | closeReturns at_ =>
    exact waking.still orderly after at_ rfl rfl rfl rfl rfl rfl rfl rfl (.inl rfl)
  | readBlocks at_ empty opened =>
    refine waking.inner orderly after at_ rfl rfl id rfl (fun blocked => ?_)
      fun _ before => before.imp (·.congr rfl rfl rfl) (by simp [Point.wakes])
    cases blocked
    exact ⟨empty, opened⟩
  | takes at_ more filled =>
    refine waking.inner orderly after at_ rfl rfl id rfl (by simp [Point.blockedOn])
      fun {q chan} _ before => ?_
    cases chan with
    | nwrite => exact .inr rfl
    | nread => exact absurd (before.resolve_right (by simp [Point.wakes])).1 filled
  | @closeWakes p writable at_ =>
    cases writable
    · exact waking.wakesUp orderly after at_ rfl rfl rfl
    · exact waking.wakesUp orderly after at_ rfl rfl rfl

/-! ## Runs -/

/-- A step in which a process that gives up leaves no reader asleep. -/
def AnnouncingStep (procs : ℕ) (s : State) (e : Event) (t : State) : Prop :=
  ∃ a, s.act procs a = some (e, t) ∧ Announces procs s a

/-- A step. -/
def Step (procs : ℕ) (s : State) (e : Event) (t : State) : Prop :=
  ∃ a, s.act procs a = some (e, t)

theorem pipealloc_orderly (procs : ℕ) (data : ℕ → UInt8) (killed : ℕ → Bool) :
    Orderly procs (pipealloc data killed) := by
  constructor <;> simp [pipealloc, Point.inside, Point.side]

theorem Waking.of_run {data : ℕ → UInt8} {killed : ℕ → Bool} {trace : List Event}
    (run : TraceRun.Run (AnnouncingStep procs) (pipealloc data killed) trace s) :
    Orderly procs s ∧ Waking s := by
  induction run with
  | refl =>
    refine ⟨pipealloc_orderly procs data killed, ?_⟩
    constructor <;> simp [pipealloc, Point.blockedOn]
  | tail _ taken ih =>
    obtain ⟨orderly, waking⟩ := ih
    obtain ⟨a, taken, announces⟩ := taken
    have acts := acts_of_act taken
    exact ⟨orderly.step acts, waking.step orderly acts announces⟩

/-- **No wakeup is lost** as long as no process that is killed finds the pipe full in
`pipewrite` while a reader is asleep: whenever the lock is free, who sleeps on `&p->nread` has
an empty pipe with an open write end, and who sleeps on `&p->nwrite` has a full pipe with an
open read end. -/
theorem no_lost_wakeup {data : ℕ → UInt8} {killed : ℕ → Bool} {trace : List Event}
    (run : TraceRun.Run (AnnouncingStep procs) (pipealloc data killed) trace s)
    (free : s.lock = none) (q : ℕ) :
    (s.asleep q = some .nread → s.ring.nread = s.ring.nwrite ∧ s.writeopen = true) ∧
      (s.asleep q = some .nwrite →
        s.ring.nwrite = s.ring.nread + BitVec.ofNat 32 PIPESIZE ∧ s.readopen = true) := by
  obtain ⟨-, waking⟩ := Waking.of_run run
  have reason : ∀ {chan}, s.asleep q = some chan → Reason s chan := by
    intro chan sleeps
    apply (waking.reason sleeps).resolve_right
    rintro ⟨p, held, -⟩
    rw [free] at held
    cases held
  exact ⟨reason, reason⟩

/-- A step in which a process that gives up leaves no reader asleep, computed. -/
def announcingAct (procs : ℕ) (a : Action) (s : State) : Option (Event × State) :=
  if Announces procs s a then s.act procs a else none

theorem announcingStep_of_announcingAct (a : Action) (s : State) (e : Event) (t : State)
    (taken : announcingAct procs a s = some (e, t)) : AnnouncingStep procs s e t := by
  obtain ⟨announces, taken⟩ := Option.ite_none_right_eq_some.mp taken
  exact ⟨a, taken, announces⟩

/-- A process reads from the empty pipe. -/
theorem no_lost_wakeup_of_reader :
    ∃ s trace, TraceRun.Run (AnnouncingStep 2) (pipealloc (fun _ => 0) fun _ => false) trace s ∧
      s.lock = none ∧ s.asleep 0 = some .nread ∧
      s.ring.nread = s.ring.nwrite ∧ s.writeopen = true := by
  have played : (TraceRun.replay (announcingAct 2) (pipealloc (fun _ => 0) fun _ => false)
      [.steps 0, .steps 0, .steps 0, .begins 0 (.read 1)]).any (fun (_, s) =>
        s.lock = none ∧ s.asleep 0 = some .nread) = true := by
    decide +kernel
  obtain ⟨trace, s, run, passed⟩ :=
    TraceRun.Run.exists_of_replay announcingStep_of_announcingAct played
  obtain ⟨free, sleeps⟩ := of_decide_eq_true passed
  exact ⟨s, trace, run, free, sleeps, (no_lost_wakeup run free 0).1 sleeps⟩

/-- A reader sleeps, a writer fills the pipe, is killed and leaves. The reader stays asleep
although there are 512 bytes to read. -/
theorem killed_writer_wakes_nobody :
    ∃ s trace, TraceRun.Run (Step 2) (pipealloc (fun _ => 0) fun _ => false) trace s ∧
      s.lock = none ∧ s.asleep 0 = some .nread ∧ s.ring.nread ≠ s.ring.nwrite := by
  have played : (TraceRun.replay (fun a s => s.act 2 a) (pipealloc (fun _ => 0) fun _ => false)
      (.steps 1 :: .steps 1 :: .kill 1 :: List.replicate 513 (.steps 1) ++
        [.begins 1 (.write (List.replicate 513 7)), .steps 0, .steps 0, .steps 0,
          .begins 0 (.read 1)])).any (fun (_, s) =>
        s.lock = none ∧ s.asleep 0 = some .nread ∧ s.ring.nread ≠ s.ring.nwrite) = true := by
    decide +kernel
  have sound : ∀ (a : Action) (s : State) (e : Event) (t : State),
      s.act 2 a = some (e, t) → Step 2 s e t := fun a _ _ _ taken => ⟨a, taken⟩
  obtain ⟨trace, s, run, passed⟩ := TraceRun.Run.exists_of_replay sound played
  exact ⟨s, trace, run, of_decide_eq_true passed⟩

end Xv6Uac.Pipes
