import Xv6Uac.Log.GroupCommitSafety

/-!
# What a commit covers

The events since the last completed commit are the history of the open
transaction (`sinceCommit`). `Balance` says that of the operations begun since
the last commit, those still running are the active ones. `Coverage` says that
the header names every block logged since the last commit until the commit
clears it, and what the steps of the commit have written so far.

The two invariants are kept together with `Control` by every transition
(`protocolInv`), and the group-commit protocol follows
(`group_commit_protocol`): a commit runs alone, it writes every block of the
operations it groups after all of them have ended, and no process sleeps in
`begin_op` without somebody left to wake it.
-/

namespace Xv6Uac.Log

open TraceRun List

/-! ## The history of the open transaction -/

/-- The events after the last completed commit, the latest first. -/
def sinceCommit : List Event → List Event
  | [] => []
  | .committed _ :: _ => []
  | event :: trace => event :: sinceCommit trace

variable {event : Event} {size : ℕ} {trace : List Event} {s s' : LogState}

theorem sinceCommit_cons (other : ∀ p, event ≠ .committed p) (trace : List Event) :
    sinceCommit (event :: trace) = event :: sinceCommit trace := by
  cases event <;> simp_all [sinceCommit]

/-- Of the operations begun since the last commit, the active ones have not
ended. -/
def Balance (trace : List Event) (s : LogState) : Prop :=
  ∀ q, (sinceCommit trace).count (.began q) =
    (sinceCommit trace).count (.ended q) + if s.phase q = .active then 1 else 0

namespace Balance

variable {trace : List Event} {s s' : LogState}

/-- A step that begins and ends no operation. -/
theorem other (balance : Balance trace s) {event : Event} (began : ∀ q, event ≠ .began q)
    (ended : ∀ q, event ≠ .ended q) (committed : ∀ q, event ≠ .committed q)
    (same : ∀ q, s'.phase q = .active ↔ s.phase q = .active) : Balance (event :: trace) s' := by
  intro q
  rw [sinceCommit_cons committed, count_cons_of_ne (began q), count_cons_of_ne (ended q),
    balance q]
  simp only [same]

theorem began (balance : Balance trace s) {p : ℕ} (outside : s.phase p ≠ .active)
    (after : ∀ q, s'.phase q = .active ↔ q = p ∨ s.phase q = .active) :
    Balance (.began p :: trace) s' := by
  intro q
  have here := balance q
  rw [sinceCommit_cons (by simp)]
  by_cases same : q = p
  · simp_all
  · simp_all [Ne.symm same]

theorem ended (balance : Balance trace s) {p : ℕ} (inside : s.phase p = .active)
    (after : ∀ q, s'.phase q = .active ↔ q ≠ p ∧ s.phase q = .active) :
    Balance (.ended p :: trace) s' := by
  intro q
  have here := balance q
  rw [sinceCommit_cons (by simp)]
  by_cases same : q = p
  · simp_all
  · simp_all [Ne.symm same]

theorem committed {p : ℕ} (none : ∀ q, s'.phase q ≠ .active) :
    Balance (.committed p :: trace) s' := by
  intro q
  simp [sinceCommit, none q]

end Balance

theorem Control.balance (control : Control s) (balance : Balance trace s)
    (taken : Step size s event s') : Balance (event :: trace) s' := by
  cases taken with
  | began p caller =>
    refine balance.began (by rcases caller with idle | awake <;> simp [*]) fun q => ?_
    by_cases same : q = p <;> simp [same]
  | slept p caller =>
    refine balance.other (by simp) (by simp) (by simp) fun q => ?_
    by_cases same : q = p
    · rcases caller with idle | awake <;> simp [*]
    · simp [same]
  | woken p sleeper =>
    refine balance.other (by simp) (by simp) (by simp) fun q => ?_
    by_cases same : q = p
    · subst same
      simp [sleeper]
    · simp [same]
  | logged p b => exact balance.other (by simp) (by simp) (by simp) fun q => by split <;> rfl
  | endedLast p inside =>
    refine balance.ended inside fun q => ?_
    by_cases same : q = p <;> simp [same]
  | ended p inside =>
    refine balance.ended inside fun q => ?_
    rw [Control.active_wakeup_goto]
    by_cases same : q = p <;> simp [same]
  | committed p here =>
    refine Balance.committed fun q => ?_
    rw [Ne, Control.active_wakeup_goto, goto_phase]
    split
    · simp
    · exact control.not_active_of_committing (control.flagged here) q
  | begunCommit p here | nothingToCommit p here | copied p _ _ here | copiedAll p _ here
  | wroteHead p here | installed p _ _ here | installedAll p _ here | cleared p here
  | erasedHead p here =>
    refine balance.other (by simp) (by simp) (by simp) fun q => ?_
    by_cases same : q = p
    · subst same
      simp [here]
    · simp [same]

/-! ## What a commit has written -/

/-- Every block logged since the last commit is copied to the log and to its
home location by the commit of `p`. -/
def Covered (history : List Event) (p : ℕ) : Prop :=
  ∀ q b, .logged q b ∈ history → .copied p b ∈ history ∧ .installed p b ∈ history

/-- What the commit of `p` has written when it reaches a stage. -/
def Progress (history : List Event) (lh : List ℕ) (p : ℕ) : Stage → Prop
  | .start => True
  | .writeLog tail => ∀ b ∈ lh.take tail, .copied p b ∈ history
  | .writeHead => ∀ b ∈ lh, .copied p b ∈ history
  | .install tail =>
    (∀ b ∈ lh, .copied p b ∈ history) ∧ ∀ b ∈ lh.take tail, .installed p b ∈ history
  | .clear => ∀ b ∈ lh, .copied p b ∈ history ∧ .installed p b ∈ history
  | .eraseHead => Covered history p ∧ lh = []
  | .finish => Covered history p ∧ lh = []

/-- The stages after the in-memory header is cleared. -/
def Stage.erased : Stage → Bool
  | .eraseHead => true
  | .finish => true
  | _ => false

/-- The header names every block logged since the last commit until the commit
clears it, and the commit has written what its stage says. -/
structure Coverage (history : List Event) (s : LogState) : Prop where
  header : (∀ p stage, s.phase p = .commit stage → stage.erased = false) →
    ∀ q b, .logged q b ∈ history → b ∈ s.lh
  progress : ∀ p stage, s.phase p = .commit stage → Progress history s.lh p stage

theorem Progress.cons {history : List Event} {lh : List ℕ} {p : ℕ} {stage : Stage}
    (progress : Progress history lh p stage) (other : ∀ q b, event ≠ .logged q b) :
    Progress (event :: history) lh p stage := by
  have covered : Covered history p → Covered (event :: history) p := by
    intro covered q b logged
    have earlier : .logged q b ∈ history :=
      (List.mem_cons.mp logged).resolve_left (other q b).symm
    exact ⟨mem_cons_of_mem _ (covered q b earlier).1,
      mem_cons_of_mem _ (covered q b earlier).2⟩
  cases stage with
  | start => trivial
  | writeLog tail | writeHead => exact fun b member => mem_cons_of_mem _ (progress b member)
  | install tail =>
    exact ⟨fun b member => mem_cons_of_mem _ (progress.1 b member),
      fun b member => mem_cons_of_mem _ (progress.2 b member)⟩
  | clear =>
    exact fun b member => ⟨mem_cons_of_mem _ (progress b member).1,
      mem_cons_of_mem _ (progress b member).2⟩
  | eraseHead | finish => exact ⟨covered progress.1, progress.2⟩

namespace Coverage

variable {history : List Event} {s s' : LogState}

variable (coverage : Coverage history s)
include coverage

/-- A step that logs nothing and leaves the header and the commit alone. -/
theorem other {event : Event} (notLogged : ∀ q b, event ≠ .logged q b) (same : s'.lh = s.lh)
    (phases : ∀ p stage, s'.phase p = .commit stage ↔ s.phase p = .commit stage) :
    Coverage (event :: history) s' where
  header open_ q b logged := by
    have earlier : .logged q b ∈ history :=
      (List.mem_cons.mp logged).resolve_left (notLogged q b).symm
    rw [same]
    exact coverage.header (fun p stage here => open_ p stage ((phases p stage).mpr here)) q b earlier
  progress p stage here := by
    rw [same]
    exact (coverage.progress p stage ((phases p stage).mp here)).cons notLogged

/-- The only commit in progress moves on to `next`. -/
theorem advance (control : Control s) {p : ℕ} {stage next : Stage} {event : Event}
    (here : s.phase p = .commit stage) (notLogged : ∀ q b, event ≠ .logged q b)
    (early : stage.erased = false) (reached : Progress (event :: history) s.lh p next) :
    Coverage (event :: history) (s.goto p (.commit next)) where
  header _ q b logged := by
    have earlier : .logged q b ∈ history :=
      (List.mem_cons.mp logged).resolve_left (notLogged q b).symm
    refine coverage.header (fun r stage' there => ?_) q b earlier
    have same := control.single there here
    subst same
    rw [here] at there
    cases there
    exact early
  progress q stage' there := by
    rw [goto_phase] at there
    split at there
    · next same =>
        cases there
        subst same
        exact reached
    · next different => exact absurd (control.single there here) different

/-- No commit is in progress, so the header names all logged blocks. -/
theorem mem_of_free (control : Control s) (free : s.committing = false) {q b : ℕ}
    (logged : .logged q b ∈ history) : b ∈ s.lh :=
  coverage.header (fun _ _ there => absurd (control.flagged there) (by simp [free])) q b logged

theorem mem_of_stage (control : Control s) {p : ℕ} {stage : Stage}
    (here : s.phase p = .commit stage) (early : stage.erased = false) {q b : ℕ}
    (logged : .logged q b ∈ history) : b ∈ s.lh := by
  refine coverage.header (fun r stage' there => ?_) q b logged
  have same := control.single there here
  subst same
  rw [here] at there
  cases there
  exact early

end Coverage

theorem forall_mem_take_succ {lh : List ℕ} {tail b : ℕ} (entry : lh[tail]? = some b)
    {holds : ℕ → Prop} (before : ∀ b' ∈ lh.take tail, holds b') (here : holds b) :
    ∀ b' ∈ lh.take (tail + 1), holds b' := by
  intro b' member
  rw [take_add_one, entry, mem_append] at member
  rcases member with early | last
  · exact before b' early
  · rw [Option.toList_some, mem_singleton] at last
    rwa [last]

theorem Control.coverage (control : Control s) (coverage : Coverage (sinceCommit trace) s)
    (taken : Step size s event s') : Coverage (sinceCommit (event :: trace)) s' := by
  cases taken with
  | began p caller | slept p caller =>
    refine coverage.other (by simp) rfl fun q stage => ?_
    by_cases same : q = p
    · subst same
      rcases caller with idle | awake <;> simp [*]
    · simp [same]
  | woken p sleeper =>
    refine coverage.other (by simp) rfl fun q stage => ?_
    by_cases same : q = p
    · subst same
      simp [sleeper]
    · simp [same]
  | logged p b inside =>
    have free := control.free_of_active inside
    refine ⟨fun _ q b' logged => ?_, fun q stage here => ?_⟩
    · rcases List.mem_cons.mp logged with now | earlier
      · cases now
        split
        · assumption
        · simp
      · have old := coverage.mem_of_free control free earlier
        split
        · exact old
        · exact mem_append_left _ old
    · have there : s.phase q = .commit stage := by
        split at here <;> exact here
      exact absurd (control.flagged there) (by simp [free])
  | endedLast p inside free =>
    refine ⟨fun _ q b logged => ?_, fun q stage here => ?_⟩
    · have earlier := (List.mem_cons.mp logged).resolve_left (by simp)
      exact coverage.mem_of_free control free earlier
    · rw [goto_phase] at here
      split at here
      · cases here
        trivial
      · exact absurd (control.flagged here) (by simp [free])
  | ended p inside free =>
    refine ⟨fun _ q b logged => ?_, fun q stage here => ?_⟩
    · have earlier := (List.mem_cons.mp logged).resolve_left (by simp)
      exact coverage.mem_of_free control free earlier
    · exact absurd (control.flagged (Control.phase_of_wakeup_goto here).2) (by simp [free])
  | begunCommit p here =>
    exact coverage.advance control here (by simp) rfl (by simp [Progress])
  | nothingToCommit p here none =>
    refine coverage.advance control here (by simp) rfl ⟨fun q b logged => ?_, none⟩
    have earlier := (List.mem_cons.mp logged).resolve_left (by simp)
    have listed := coverage.mem_of_stage control here rfl earlier
    simp [none] at listed
  | copied p b tail here entry =>
    apply coverage.advance control here (by simp) rfl
    exact forall_mem_take_succ entry
      (fun b' member => mem_cons_of_mem _ (coverage.progress p _ here b' member))
      mem_cons_self
  | copiedAll p tail here past =>
    refine coverage.advance control here (by simp) rfl fun b member => ?_
    have copied := coverage.progress p _ here
    rw [Progress, take_of_length_le past] at copied
    exact mem_cons_of_mem _ (copied b member)
  | wroteHead p here =>
    rw [sinceCommit_cons (by simp)]
    refine coverage.advance control here (by simp) rfl ⟨fun b member => ?_, by simp⟩
    exact mem_cons_of_mem _ (coverage.progress p _ here b member)
  | installed p b tail here entry =>
    rw [sinceCommit_cons (by simp)]
    obtain ⟨copied, installed⟩ := coverage.progress p _ here
    refine coverage.advance control here (by simp) rfl ⟨fun b' member => ?_, ?_⟩
    · exact mem_cons_of_mem _ (copied b' member)
    · exact forall_mem_take_succ entry
        (fun b' member => mem_cons_of_mem _ (installed b' member)) mem_cons_self
  | installedAll p tail here past =>
    rw [sinceCommit_cons (by simp)]
    obtain ⟨copied, installed⟩ := coverage.progress p _ here
    rw [take_of_length_le past] at installed
    refine coverage.advance control here (by simp) rfl fun b member => ?_
    exact ⟨mem_cons_of_mem _ (copied b member), mem_cons_of_mem _ (installed b member)⟩
  | cleared p here =>
    rw [sinceCommit_cons (by simp)]
    have written := coverage.progress p _ here
    have covered : Covered (.cleared p :: sinceCommit trace) p := by
      intro q b logged
      have earlier := (List.mem_cons.mp logged).resolve_left (by simp)
      have both := written b (coverage.mem_of_stage control here rfl earlier)
      exact ⟨mem_cons_of_mem _ both.1, mem_cons_of_mem _ both.2⟩
    refine ⟨fun early => ?_, fun q stage there => ?_⟩
    · have := early p .eraseHead (by simp)
      cases this
    · rw [goto_phase] at there
      split at there
      · next same =>
          cases there
          subst same
          exact ⟨covered, rfl⟩
      · next different => exact absurd (control.single there here) different
  | erasedHead p here =>
    rw [sinceCommit_cons (by simp)]
    have done : Progress (.erasedHead p :: sinceCommit trace) s.lh p .finish :=
      (coverage.progress p _ here).cons (by simp)
    refine ⟨fun early => ?_, fun q stage there => ?_⟩
    · have := early p .finish (by simp)
      cases this
    · rw [goto_phase] at there
      split at there
      · next same =>
          cases there
          subst same
          exact done
      · next different => exact absurd (control.single there here) different
  | committed p here =>
    refine ⟨fun _ q b logged => (by cases logged), fun q stage there => ?_⟩
    obtain ⟨other, there⟩ := Control.phase_of_wakeup_goto there
    exact absurd (control.single there here) other

/-! ## Every run -/

/-- The invariant of the protocol. -/
structure ProtocolInv (trace : List Event) (s : LogState) : Prop where
  control : Control s
  balance : Balance trace s
  coverage : Coverage (sinceCommit trace) s

theorem ProtocolInv.control_step (inv : ProtocolInv trace s) (taken : Step size s event s') :
    Control s' := by
  have control := inv.control
  cases taken with
  | began p caller free => exact control.began caller free
  | slept p caller full =>
    refine control.wait_goto ?_ (by simp) (by simp) fun _ => full
    rcases caller with idle | awake <;> simp [*]
  | woken p sleeper => exact control.wait_goto (by simp [sleeper]) (by simp) (by simp) (by simp)
  | logged p b inside =>
    split
    · exact control
    · exact control.logged inside
  | endedLast p inside free last => exact control.endedLast inside last
  | ended p inside free more => exact control.ended inside more
  | committed p here => exact control.committed here (inv.coverage.progress p _ here).2
  | begunCommit p here | nothingToCommit p here | copied p _ _ here | copiedAll p _ here
  | wroteHead p here | installed p _ _ here | installedAll p _ here | cleared p here
  | erasedHead p here => exact control.commit_goto here

theorem protocolInv (run : ProtocolRun size trace s) : ProtocolInv trace s := by
  refine ProtocolRun.invariant ?_ (fun before taken => ?_) run
  · exact ⟨Control.init, fun q => by simp [sinceCommit, LogState.init],
      ⟨fun _ q b logged => (by cases logged), fun p stage here => (by cases here)⟩⟩
  · exact ⟨before.control_step taken, before.control.balance before.balance taken,
      before.control.coverage before.coverage taken⟩

/-- What every transition from a state with the invariant keeps holds along
every run. -/
theorem ProtocolRun.invariant_of_inv (holds : List Event → LogState → Prop)
    (initially : holds [] LogState.init)
    (kept : ∀ {trace : List Event} {s s' : LogState} {event : Event},
      ProtocolInv trace s → holds trace s → Step size s event s' → holds (event :: trace) s')
    (run : ProtocolRun size trace s) : holds trace s := by
  induction run with
  | refl => exact initially
  | tail before moved ih =>
    obtain ⟨call, result⟩ := moved
    exact kept (protocolInv before) ih (step_cases result)

/-- Along every run, `end_op` does not reach the panic `log.committing`, and
`log_write` inside an operation does not reach `log_write outside of trans`. -/
theorem no_flag_panic (run : ProtocolRun size trace s) (call : Call) :
    step size s call ≠ .panic .logCommitting ∧ step size s call ≠ .panic .outsideOfTrans := by
  have control := (protocolInv run).control
  cases call with
  | beginOp p =>
    simp only [step, beginOp]
    split <;> (try split) <;> (try split) <;> simp
  | kill p =>
    simp only [step]
    split <;> simp
  | logWrite p b =>
    simp only [step]
    split
    · next inside =>
        obtain ⟨active, member, count⟩ := control.active
        have positive : 0 < active.card := Finset.card_pos.mpr ⟨p, (member p).mpr inside⟩
        have outstanding : ¬ s.outstanding < 1 := by omega
        rw [logWrite]
        split <;> simp
    · simp
  | endOp p =>
    simp only [step]
    split
    · next inside =>
        simp only [endOp, control.free_of_active inside, Bool.false_eq_true, if_false]
        split <;> simp
    · simp
  | commit p =>
    simp only [step]
    split
    · next stage here =>
        cases stage <;> simp only [commitStep] <;> (try split) <;> simp
    · simp

theorem no_flag_panic_of_begun : ∃ s, s.outstanding = 1 ∧
    step LOGSIZE s (.endOp 0) ≠ .panic .logCommitting :=
  have run : ProtocolRun LOGSIZE _ _ := .tail .refl ⟨.beginOp 0, rfl⟩
  ⟨_, rfl, (no_flag_panic run (.endOp 0)).1⟩

/-- **The group-commit protocol**, along every run of any number of processes.

* While `committing` is set, no operation is outstanding and no call completes
  a `begin_op` or a `log_write`; at most one process is in `commit`.
* When a commit completes, it has copied to the log and to its home location
  every block logged since the previous commit, and each operation begun since
  then has ended.
* A process asleep in `begin_op` has a reason to be asleep, and then a commit
  is in progress or an operation is outstanding. -/
theorem group_commit_protocol {size : ℕ} {trace : List Event} {s : LogState}
    (run : ProtocolRun size trace s) :
    (s.committing = true → s.outstanding = 0 ∧
      ∀ call event s', step size s call = .next event s' →
        (∀ p, event ≠ .began p) ∧ ∀ p b, event ≠ .logged p b) ∧
    (∀ p q stage stage', s.phase p = .commit stage → s.phase q = .commit stage' →
      p = q ∧ s.committing = true) ∧
    (∀ p earlier, trace = .committed p :: earlier →
      (∀ q b, .logged q b ∈ sinceCommit earlier →
        .copied p b ∈ sinceCommit earlier ∧ .installed p b ∈ sinceCommit earlier) ∧
      ∀ q, (sinceCommit earlier).count (.began q) = (sinceCommit earlier).count (.ended q)) ∧
    ∀ p, s.phase p = .asleep →
      (s.committing = true ∨
        LOGSIZE < (s.lh.length : ℤ) + (s.outstanding + 1) * MAXOPBLOCKS) ∧
      (s.committing = true ∨ 0 < s.outstanding) := by
  have inv := protocolInv run
  refine ⟨fun committing => ⟨inv.control.quiet committing, fun call event s' result => ?_⟩,
    fun p q stage stage' hp hq => ⟨inv.control.single hp hq, inv.control.flagged hp⟩, ?_,
    fun p sleeper => ⟨inv.control.asleep sleeper, ?_⟩⟩
  · have taken := step_cases result
    constructor
    · rintro p rfl
      cases taken with
      | began _ _ free => simp [committing] at free
    · rintro p b rfl
      cases taken with
      | logged _ _ inside => exact inv.control.not_active_of_committing committing p inside
  · rintro p earlier rfl
    cases run with
    | tail before moved =>
      obtain ⟨call, result⟩ := moved
      have earlier := protocolInv before
      cases step_cases result with
      | committed _ here =>
        refine ⟨(earlier.coverage.progress p _ here).1, fun q => ?_⟩
        have balance := earlier.balance q
        have committing := earlier.control.flagged here
        rwa [if_neg (earlier.control.not_active_of_committing committing q),
          Nat.add_zero] at balance
  · -- with no commit in progress and nothing outstanding the log is empty and has room
    by_contra nobody
    rw [not_or, not_lt] at nobody
    have none : s.outstanding = 0 := le_antisymm nobody.2 inv.control.outstanding_nonneg
    have empty := inv.control.drained (by simpa using nobody.1) none
    have full := (inv.control.asleep sleeper).resolve_left nobody.1
    rw [lt_demand_iff, empty, none] at full
    simp at full

/-- Make the calls of a list, the latest first, and return the events and the
state reached. -/
def runCalls (size : ℕ) : List Call → Option (List Event × LogState)
  | [] => some ([], LogState.init)
  | call :: earlier =>
    match runCalls size earlier with
    | some (trace, s) =>
      match step size s call with
      | .next event s' => some (event :: trace, s')
      | _ => none
    | none => none

theorem runCalls_run (size : ℕ) (calls : List Call)
    (result : runCalls size calls = some (trace, s)) : ProtocolRun size trace s := by
  induction calls generalizing trace s with
  | nil =>
    cases result
    exact .refl
  | cons call earlier ih =>
    simp only [runCalls] at result
    split at result
    · next trace' s' before =>
        split at result
        · next event s'' taken =>
            cases result
            exact .tail (ih before) ⟨call, taken⟩
        · cases result
    · cases result

/-- Two operations that overlap, and the commit that the second starts. -/
def twoOperations : List Call :=
  List.replicate 11 (.commit 1) ++
    [.endOp 1, .logWrite 1 8, .endOp 0, .logWrite 1 7, .beginOp 1, .logWrite 0 7, .beginOp 0]

theorem group_commit_of_two_operations :
    ∃ earlier s, ProtocolRun LOGSIZE (.committed 1 :: earlier) s ∧
      .logged 0 7 ∈ sinceCommit earlier ∧ .installed 1 7 ∈ sinceCommit earlier := by
  have run := runCalls_run LOGSIZE twoOperations rfl
  exact ⟨_, _, run, by decide,
    (((group_commit_protocol run).2.2.1 1 _ rfl).1 0 7 (by decide)).2⟩

end Xv6Uac.Log
