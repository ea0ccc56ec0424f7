import Xv6Uac.Log.GroupCommit

/-!
# Safety of the group-commit protocol

`Step` lists everything a call can do, with the tests it passed, and every
call that does not panic is one of these transitions (`step_cases`).

`Control` ties the flags of `struct log` to the places of the processes:
`outstanding` counts the processes inside an operation, a process in `commit`
is the only one there and has `committing` set, no operation is outstanding
then, and a process asleep in `begin_op` has a reason to be asleep. One lemma
for each kind of transition says that `Control` is kept.
-/

namespace Xv6Uac.Log

open TraceRun

/-! ## What a call can do -/

section

variable (s : LogState)
include s

@[simp] theorem goto_phase (p q : ℕ) (phase : Phase) :
    (s.goto p phase).phase q = if q = p then phase else s.phase q := by
  simp [LogState.goto, Function.update_apply]

@[simp] theorem goto_outstanding (p : ℕ) (phase : Phase) :
    (s.goto p phase).outstanding = s.outstanding := rfl

@[simp] theorem goto_committing (p : ℕ) (phase : Phase) :
    (s.goto p phase).committing = s.committing := rfl

@[simp] theorem goto_lh (p : ℕ) (phase : Phase) : (s.goto p phase).lh = s.lh := rfl

@[simp] theorem wakeup_phase (p : ℕ) :
    s.wakeup.phase p = if s.phase p = .asleep then .awake else s.phase p := rfl

@[simp] theorem wakeup_outstanding : s.wakeup.outstanding = s.outstanding := rfl

@[simp] theorem wakeup_committing : s.wakeup.committing = s.committing := rfl

@[simp] theorem wakeup_lh : s.wakeup.lh = s.lh := rfl

end

/-- The number of log blocks `begin_op` compares with `LOGSIZE`. -/
def LogState.demand (s : LogState) : ℤ := (s.lh.length : ℤ) + (s.outstanding + 1) * MAXOPBLOCKS

theorem lt_demand_iff (s : LogState) :
    (LOGSIZE : ℤ) < s.demand ↔ 30 < (s.lh.length : ℤ) + (s.outstanding + 1) * 10 :=
  Iff.rfl

/-- The transitions of the protocol, each with the tests it passed. -/
inductive Step (size : ℕ) (s : LogState) : Event → LogState → Prop where
  | began (p : ℕ) (caller : s.phase p = .idle ∨ s.phase p = .awake)
      (free : s.committing = false) (room : s.demand ≤ LOGSIZE) :
      Step size s (.began p) ({ s with outstanding := s.outstanding + 1 }.goto p .active)
  | slept (p : ℕ) (caller : s.phase p = .idle ∨ s.phase p = .awake)
      (full : s.committing = true ∨ LOGSIZE < s.demand) :
      Step size s (.slept p) (s.goto p .asleep)
  | woken (p : ℕ) (sleeper : s.phase p = .asleep) : Step size s (.woken p) (s.goto p .awake)
  | logged (p b : ℕ) (inside : s.phase p = .active) (room : s.lh.length < LOGSIZE)
      (fits : (s.lh.length : ℤ) < size - 1) :
      Step size s (.logged p b) (if b ∈ s.lh then s else { s with lh := s.lh ++ [b] })
  | endedLast (p : ℕ) (inside : s.phase p = .active) (free : s.committing = false)
      (last : s.outstanding = 1) :
      Step size s (.ended p)
        ({ s with outstanding := s.outstanding - 1, committing := true }.goto p (.commit .start))
  | ended (p : ℕ) (inside : s.phase p = .active) (free : s.committing = false)
      (more : s.outstanding ≠ 1) :
      Step size s (.ended p)
        ({ s with outstanding := s.outstanding - 1 }.wakeup.goto p .idle)
  | begunCommit (p : ℕ) (here : s.phase p = .commit .start) (some : 0 < s.lh.length) :
      Step size s (.tested p) (s.goto p (.commit (.writeLog 0)))
  | nothingToCommit (p : ℕ) (here : s.phase p = .commit .start) (none : s.lh = []) :
      Step size s (.tested p) (s.goto p (.commit .finish))
  | copied (p b tail : ℕ) (here : s.phase p = .commit (.writeLog tail))
      (entry : s.lh[tail]? = some b) :
      Step size s (.copied p b) (s.goto p (.commit (.writeLog (tail + 1))))
  | copiedAll (p tail : ℕ) (here : s.phase p = .commit (.writeLog tail))
      (past : s.lh.length ≤ tail) : Step size s (.tested p) (s.goto p (.commit .writeHead))
  | wroteHead (p : ℕ) (here : s.phase p = .commit .writeHead) :
      Step size s (.wroteHead p) (s.goto p (.commit (.install 0)))
  | installed (p b tail : ℕ) (here : s.phase p = .commit (.install tail))
      (entry : s.lh[tail]? = some b) :
      Step size s (.installed p b) (s.goto p (.commit (.install (tail + 1))))
  | installedAll (p tail : ℕ) (here : s.phase p = .commit (.install tail))
      (past : s.lh.length ≤ tail) : Step size s (.tested p) (s.goto p (.commit .clear))
  | cleared (p : ℕ) (here : s.phase p = .commit .clear) :
      Step size s (.cleared p) ({ s with lh := [] }.goto p (.commit .eraseHead))
  | erasedHead (p : ℕ) (here : s.phase p = .commit .eraseHead) :
      Step size s (.erasedHead p) (s.goto p (.commit .finish))
  | committed (p : ℕ) (here : s.phase p = .commit .finish) :
      Step size s (.committed p) ({ s with committing := false }.wakeup.goto p .idle)

variable {size : ℕ} {s s' : LogState} {p : ℕ} {event : Event}

theorem beginOp_step (caller : s.phase p = .idle ∨ s.phase p = .awake)
    (result : beginOp p s = .next event s') : Step size s event s' := by
  unfold beginOp at result
  split at result
  · next committing =>
      cases result
      exact .slept p caller (.inl committing)
  · next free =>
      split at result
      · next full =>
          cases result
          exact .slept p caller (.inr full)
      · next room =>
          cases result
          exact .began p caller (by simpa using free) (not_lt.mp room)

theorem logWrite_step {b : ℕ} (inside : s.phase p = .active)
    (result : logWrite size p b s = .next event s') : Step size s event s' := by
  unfold logWrite at result
  split at result
  · cases result
  · next room =>
      split at result
      · cases result
      · cases result
        rw [not_or, not_le, not_le] at room
        exact .logged p b inside room.1 room.2

theorem endOp_step (inside : s.phase p = .active) (result : endOp p s = .next event s') :
    Step size s event s' := by
  simp only [endOp] at result
  split at result
  · cases result
  · next free =>
      have free : s.committing = false := by simpa using free
      split at result
      · next last =>
          cases result
          exact .endedLast p inside free (by omega)
      · next more =>
          cases result
          exact .ended p inside free (by omega)

theorem commitStep_step {stage : Stage} (here : s.phase p = .commit stage)
    (result : commitStep p s stage = .next event s') : Step size s event s' := by
  cases stage with
  | start =>
    cases result
    split
    · next some => exact .begunCommit p here some
    · next none => exact .nothingToCommit p here (by simpa using none)
  | writeLog tail =>
    simp only [commitStep] at result
    split at result
    · next entry =>
        cases result
        exact .copied p _ tail here entry
    · next past =>
        cases result
        exact .copiedAll p tail here (List.getElem?_eq_none_iff.mp past)
  | writeHead =>
    cases result
    exact .wroteHead p here
  | install tail =>
    simp only [commitStep] at result
    split at result
    · next entry =>
        cases result
        exact .installed p _ tail here entry
    · next past =>
        cases result
        exact .installedAll p tail here (List.getElem?_eq_none_iff.mp past)
  | clear =>
    cases result
    exact .cleared p here
  | eraseHead =>
    cases result
    exact .erasedHead p here
  | finish =>
    cases result
    exact .committed p here

/-- Every call that does not panic is one of the listed transitions. -/
theorem step_cases {call : Call} (result : step size s call = .next event s') :
    Step size s event s' := by
  cases call with
  | beginOp p =>
    simp only [step] at result
    split at result
    · next idle => exact beginOp_step (.inl idle) result
    · next awake => exact beginOp_step (.inr awake) result
    · cases result
  | kill p =>
    simp only [step] at result
    split at result
    · next sleeper =>
        cases result
        exact .woken p sleeper
    · cases result
  | logWrite p b =>
    simp only [step] at result
    split at result
    · next inside => exact logWrite_step inside result
    · cases result
  | endOp p =>
    simp only [step] at result
    split at result
    · next inside => exact endOp_step inside result
    · cases result
  | commit p =>
    simp only [step] at result
    split at result
    · next stage here => exact commitStep_step here result
    · cases result

/-- A step of some process. -/
def Moves (size : ℕ) (s : LogState) (event : Event) (s' : LogState) : Prop :=
  ∃ call, step size s call = .next event s'

/-- The runs of the protocol from the state `initlog` leaves. -/
abbrev ProtocolRun (size : ℕ) (trace : List Event) (s : LogState) : Prop :=
  Run (Moves size) LogState.init trace s

/-- What every listed transition keeps holds along every run. -/
theorem ProtocolRun.invariant {holds : List Event → LogState → Prop}
    (initially : holds [] LogState.init)
    (kept : ∀ {trace : List Event} {s s' : LogState} {event : Event},
      holds trace s → Step size s event s' → holds (event :: trace) s') {trace : List Event}
    (run : ProtocolRun size trace s) : holds trace s :=
  Run.invariant initially (fun before ⟨_, result⟩ => kept before (step_cases result)) run

/-! ## Flags and places -/

/-- The flags of `struct log` agree with the places of the processes. -/
structure Control (s : LogState) : Prop where
  active : ∃ inside : Finset ℕ,
    (∀ p, p ∈ inside ↔ s.phase p = .active) ∧ s.outstanding = inside.card
  flagged : ∀ {p stage}, s.phase p = .commit stage → s.committing = true
  single : ∀ {p q stage stage'}, s.phase p = .commit stage → s.phase q = .commit stage' → p = q
  quiet : s.committing = true → s.outstanding = 0
  drained : s.committing = false → s.outstanding = 0 → s.lh = []
  asleep : ∀ {p}, s.phase p = .asleep → s.committing = true ∨ LOGSIZE < s.demand

theorem Control.init : Control LogState.init where
  active := ⟨∅, by simp [LogState.init], rfl⟩
  flagged here := by cases here
  single here := by cases here
  quiet committing := by cases committing
  drained _ _ := rfl
  asleep here := by cases here

namespace Control

variable {s : LogState}

/-- A process that goes to another place than `commit`. -/
theorem commit_of_goto {p q : ℕ} {stage : Stage} {phase : Phase}
    (here : (s.goto p phase).phase q = .commit stage) (commit : ∀ stage, phase ≠ .commit stage) :
    s.phase q = .commit stage := by
  rw [goto_phase] at here
  split at here
  · exact absurd here (commit stage)
  · exact here

/-- A process that goes to `commit` while no other one is there. -/
theorem eq_of_goto {p q : ℕ} {stage : Stage} {phase : Phase}
    (alone : ∀ {q stage}, s.phase q = .commit stage → q = p)
    (here : (s.goto p phase).phase q = .commit stage) : q = p := by
  by_contra other
  rw [goto_phase, if_neg other] at here
  exact other (alone here)

section

variable (control : Control s)
include control

/-- While a commit is in progress no process is inside an operation. -/
theorem not_active_of_committing (committing : s.committing = true) (p : ℕ) :
    s.phase p ≠ .active := by
  obtain ⟨inside, member, count⟩ := control.active
  intro active
  have positive : 0 < inside.card := Finset.card_pos.mpr ⟨p, (member p).mpr active⟩
  have := control.quiet committing
  omega

variable {p : ℕ}

/-- No commit is in progress while some process is inside an operation. -/
theorem free_of_active (active : s.phase p = .active) : s.committing = false := by
  by_contra committing
  exact control.not_active_of_committing (by simpa using committing) p active

theorem not_commit (active : s.phase p = .active) {q : ℕ} {stage : Stage} :
    s.phase q ≠ .commit stage :=
  fun there => control.not_active_of_committing (control.flagged there) p active

theorem outstanding_nonneg : 0 ≤ s.outstanding := by
  obtain ⟨inside, _, count⟩ := control.active
  omega

/-- A process that is not active moves to another such place. -/
theorem active_goto (phase : Phase) (before : s.phase p ≠ .active) (after : phase ≠ .active) :
    ∃ inside : Finset ℕ, (∀ q, q ∈ inside ↔ (s.goto p phase).phase q = .active) ∧
      s.outstanding = inside.card := by
  obtain ⟨inside, member, count⟩ := control.active
  refine ⟨inside, fun q => ?_, count⟩
  rw [member]
  by_cases same : q = p
  · subst same
    simp [before, after]
  · simp [same]

/-- The process inside `commit` moves to another step of it. -/
theorem commit_goto {stage next : Stage} {lh : List ℕ} (here : s.phase p = .commit stage) :
    Control ({ s with lh := lh }.goto p (.commit next)) where
  active := control.active_goto _ (by simp [here]) (by simp)
  flagged _ := control.flagged here
  single hq hr := by
    have alone : ∀ {q stage}, s.phase q = .commit stage → q = p :=
      fun there => control.single there here
    exact (eq_of_goto alone hq).trans (eq_of_goto alone hr).symm
  quiet := control.quiet
  drained free := absurd (control.flagged here) (by simpa using free)
  asleep _ := .inl (control.flagged here)

/-- A process that moves between waiting and running outside an operation. -/
theorem wait_goto {phase : Phase} (before : s.phase p ≠ .active) (active : phase ≠ .active)
    (commit : ∀ stage, phase ≠ .commit stage)
    (reason : phase = .asleep → s.committing = true ∨ LOGSIZE < s.demand) :
    Control (s.goto p phase) where
  active := control.active_goto phase before active
  flagged here := control.flagged (commit_of_goto here commit)
  single hq hr := control.single (commit_of_goto hq commit) (commit_of_goto hr commit)
  quiet := control.quiet
  drained := control.drained
  asleep {q} here := by
    rw [goto_phase] at here
    split at here
    · exact reason here
    · exact control.asleep here

theorem began (caller : s.phase p = .idle ∨ s.phase p = .awake) (free : s.committing = false) :
    Control ({ s with outstanding := s.outstanding + 1 }.goto p .active) where
  active := by
    obtain ⟨inside, member, count⟩ := control.active
    have outside : p ∉ inside := by
      rw [member]
      rcases caller with idle | awake
      · simp [idle]
      · simp [awake]
    refine ⟨insert p inside, fun q => ?_, ?_⟩
    · rw [Finset.mem_insert, member]
      by_cases same : q = p <;> simp [same]
    · rw [Finset.card_insert_of_notMem outside, goto_outstanding]
      push_cast
      rw [count]
  flagged here := control.flagged (commit_of_goto here nofun)
  single hq hr := control.single (commit_of_goto hq nofun) (commit_of_goto hr nofun)
  quiet committing := by simp [free] at committing
  drained _ none := by
    have := control.outstanding_nonneg
    simp only [goto_outstanding] at none
    omega
  asleep {q} here := by
    rw [goto_phase] at here
    split at here
    · cases here
    · refine (control.asleep here).imp_right fun full => ?_
      rw [lt_demand_iff] at full ⊢
      simp only [goto_lh, goto_outstanding]
      omega

theorem logged {b : ℕ} (inside : s.phase p = .active) : Control { s with lh := s.lh ++ [b] } where
  active := control.active
  flagged := control.flagged
  single := control.single
  quiet := control.quiet
  drained _ none := by
    obtain ⟨active, member, count⟩ := control.active
    have positive : 0 < active.card := Finset.card_pos.mpr ⟨p, (member p).mpr inside⟩
    simp only at none
    omega
  asleep here := by
    refine (control.asleep here).imp_right fun full => ?_
    rw [lt_demand_iff] at full ⊢
    simp only [List.length_append]
    omega

/-- The operation of `p` ends, and `p` moves on to a place outside it. -/
theorem active_ended (phase : Phase) (inside : s.phase p = .active) (after : phase ≠ .active) :
    ∃ left : Finset ℕ, (∀ q, q ∈ left ↔ (s.goto p phase).phase q = .active) ∧
      s.outstanding - 1 = left.card := by
  obtain ⟨active, member, count⟩ := control.active
  have present : p ∈ active := (member p).mpr inside
  refine ⟨active.erase p, fun q => ?_, ?_⟩
  · rw [Finset.mem_erase, member]
    by_cases same : q = p <;> simp [same, after]
  · have := Finset.card_erase_add_one present
    omega

theorem endedLast (inside : s.phase p = .active) (last : s.outstanding = 1) :
    Control ({ s with outstanding := s.outstanding - 1, committing := true }.goto p
      (.commit .start)) where
  active := control.active_ended _ inside (by simp)
  flagged _ := rfl
  single hq hr := by
    have alone : ∀ {q stage}, s.phase q = .commit stage → q = p :=
      fun there => absurd there (control.not_commit inside)
    exact (eq_of_goto alone hq).trans (eq_of_goto alone hr).symm
  quiet _ := by
    simp only [goto_outstanding]
    omega
  drained free := by cases free
  asleep _ := .inl rfl

end

/-- After `wakeup` no process is asleep. -/
theorem wakeup_goto_ne_asleep (s : LogState) (p q : ℕ) :
    (s.wakeup.goto p .idle).phase q ≠ .asleep := by
  rw [goto_phase, wakeup_phase]
  split
  · simp
  · split
    · simp
    · assumption

/-- Waking everybody and making `p` idle moves no process into or out of
`commit`, except `p`. -/
theorem phase_of_wakeup_goto {s : LogState} {p q : ℕ} {stage : Stage}
    (here : (s.wakeup.goto p .idle).phase q = .commit stage) :
    q ≠ p ∧ s.phase q = .commit stage := by
  rw [goto_phase, wakeup_phase] at here
  split at here
  · cases here
  · next other =>
      split at here
      · cases here
      · exact ⟨other, here⟩

theorem active_wakeup_goto {s : LogState} {p q : ℕ} :
    (s.wakeup.goto p .idle).phase q = .active ↔ (s.goto p .idle).phase q = .active := by
  rw [goto_phase, goto_phase, wakeup_phase]
  split
  · rfl
  · split
    · next asleep => simp [asleep]
    · rfl

theorem ended (control : Control s) {p : ℕ} (inside : s.phase p = .active)
    (more : s.outstanding ≠ 1) :
    Control ({ s with outstanding := s.outstanding - 1 }.wakeup.goto p .idle) where
  active := by
    obtain ⟨left, member, count⟩ := control.active_ended .idle inside (by simp)
    refine ⟨left, fun q => ?_, count⟩
    rw [active_wakeup_goto, member]
    rfl
  flagged here := control.flagged (phase_of_wakeup_goto here).2
  single hq hr := control.single (phase_of_wakeup_goto hq).2 (phase_of_wakeup_goto hr).2
  quiet committing := by
    have free := control.free_of_active inside
    simp [free] at committing
  drained _ none := by
    simp only [goto_outstanding, wakeup_outstanding] at none
    omega
  asleep here := absurd here (wakeup_goto_ne_asleep _ p _)

theorem committed (control : Control s) {p : ℕ} (here : s.phase p = .commit .finish)
    (erased : s.lh = []) :
    Control ({ s with committing := false }.wakeup.goto p .idle) where
  active := by
    obtain ⟨inside, member, count⟩ :=
      control.active_goto (p := p) .idle (by simp [here]) (by simp)
    refine ⟨inside, fun q => ?_, count⟩
    rw [active_wakeup_goto, member]
    rfl
  flagged at_commit := by
    obtain ⟨other, at_commit⟩ := phase_of_wakeup_goto at_commit
    exact absurd (control.single at_commit here) other
  single at_commit := by
    obtain ⟨other, at_commit⟩ := phase_of_wakeup_goto at_commit
    exact absurd (control.single at_commit here) other
  quiet committing := by cases committing
  drained _ _ := erased
  asleep here := absurd here (wakeup_goto_ne_asleep _ p _)

end Control

end Xv6Uac.Log
