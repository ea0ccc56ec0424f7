import Xv6Uac.Proc.Table

/-!
# Parents and children

What `fork`, `exit`, `wait` and `kill` keep, in any order of their actions:

* every process other than init has a parent that lives (`Kin`): a parent passes its
  children to init under the lock, in the action that makes it a zombie;
* no process sleeps in `wait` while it has a child to return (`Awake`): `exit` wakes the
  parent, and init if it gets a zombie, in the same action;
* a process that has exited is a zombie until one `wait` returns its pid, and no other
  `wait` does (`Ledger`);
* that `wait` is one of the process that forked it, or one of init if that process has
  exited before (`Lineage`).
-/

namespace Xv6Uac.Ptable

open Function (update_apply update_of_ne update_self)

variable {s t : Table} {p q r n : ℕ} {e : Event} {a : Action}

/-! ## Phases -/

/-- The states, without the difference between sleeping, runnable and running. -/
inductive Phase where
  | free
  | embryo
  | alive
  | zombie
deriving DecidableEq, Repr

/-- The phase of a state. -/
def ProcState.phase : ProcState → Phase
  | .unused => .free
  | .embryo => .embryo
  | .sleeping | .runnable | .running => .alive
  | .zombie => .zombie

/-- The phase of a slot. -/
def Table.phase (s : Table) (q : ℕ) : Phase := (s.proc q).state.phase

variable {state : ProcState} {trace : List Event}

theorem phase_eq_free : state.phase = .free ↔ state = .unused := by
  cases state <;> simp [ProcState.phase]

theorem phase_eq_embryo : state.phase = .embryo ↔ state = .embryo := by
  cases state <;> simp [ProcState.phase]

theorem phase_eq_zombie : state.phase = .zombie ↔ state = .zombie := by
  cases state <;> simp [ProcState.phase]

theorem Table.Free.alive (free : s.Free p) : s.phase p = .alive := by
  rw [Table.phase, free.2.1]
  rfl

/-- Nobody is born, dies or gets another parent. -/
structure Stirs (s t : Table) : Prop where
  phase : ∀ q, t.phase q = s.phase q
  parent : ∀ q, (t.proc q).parent = (s.proc q).parent
  pid : ∀ q, (t.proc q).pid = (s.proc q).pid
  serial : ∀ q, (t.proc q).serial = (s.proc q).serial
  forking : ∀ p q, t.control p = .forking q ↔ s.control p = .forking q
  copied : ∀ p q, t.control p = .copied q ↔ s.control p = .copied q
  births : t.births = s.births
  initproc : t.initproc = s.initproc

theorem Stirs.trans {u : Table} (first : Stirs s t) (second : Stirs t u) : Stirs s u where
  phase q := (second.phase q).trans (first.phase q)
  parent q := (second.parent q).trans (first.parent q)
  pid q := (second.pid q).trans (first.pid q)
  serial q := (second.serial q).trans (first.serial q)
  forking p q := (second.forking p q).trans (first.forking p q)
  copied p q := (second.copied p q).trans (first.copied p q)
  births := second.births.trans first.births
  initproc := second.initproc.trans first.initproc

/-- Another state of the same phase. -/
theorem Stirs.modify {change : Slot → Slot}
    (phase : (change (s.proc q)).state.phase = (s.proc q).state.phase)
    (parent : (change (s.proc q)).parent = (s.proc q).parent)
    (pid : (change (s.proc q)).pid = (s.proc q).pid)
    (serial : (change (s.proc q)).serial = (s.proc q).serial) : Stirs s (s.modify q change) := by
  have each : ∀ {α : Type} (field : Slot → α), field (change (s.proc q)) = field (s.proc q) →
      ∀ r, field ((s.modify q change).proc r) = field (s.proc r) := by
    intro α field same r
    obtain rfl | other := eq_or_ne r q
    · simpa [Table.modify] using same
    · simp [Table.modify, other]
  exact ⟨each (fun slot => slot.state.phase) phase, each Slot.parent parent, each Slot.pid pid,
    each Slot.serial serial, fun _ _ => .rfl, fun _ _ => .rfl, rfl, rfl⟩

/-- The scheduler runs a process. -/
theorem Stirs.run (runnable : (s.proc p).state = .runnable) :
    Stirs s (s.modify p fun slot => { slot with state := .running, chan := none }) :=
  .modify (by rw [runnable]; rfl) rfl rfl rfl

theorem Stirs.goto {control : Control} (before : ∀ q, s.control p ≠ .forking q ∧ s.control p ≠ .copied q)
    (after : ∀ q, control ≠ .forking q ∧ control ≠ .copied q) : Stirs s (s.goto p control) := by
  refine ⟨fun _ => rfl, fun _ => rfl, fun _ => rfl, fun _ => rfl, fun r q => ?_, fun r q => ?_, rfl, rfl⟩
  · obtain rfl | other := eq_or_ne r p
    · simp [Table.goto, (before q).1, (after q).1]
    · simp [Table.goto, other]
  · obtain rfl | other := eq_or_ne r p
    · simp [Table.goto, (before q).2, (after q).2]
    · simp [Table.goto, other]

theorem Stirs.wakeup1 (s : Table) (chan : Chan) : Stirs s (s.wakeup1 chan) := by
  have phase : ∀ q, (s.wakeup1 chan).phase q = s.phase q := by
    intro q
    simp only [Table.phase, Table.wakeup1]
    split
    · rename_i sleeps
      rw [sleeps.2.1]
      rfl
    · rfl
  refine ⟨phase, fun q => ?_, fun q => ?_, fun q => ?_, fun _ _ => .rfl, fun _ _ => .rfl, rfl, rfl⟩
  all_goals
    simp only [Table.wakeup1]
    split <;> rfl

theorem Stirs.refl (s : Table) : Stirs s s :=
  ⟨fun _ => rfl, fun _ => rfl, fun _ => rfl, fun _ => rfl, fun _ _ => .rfl, fun _ _ => .rfl, rfl, rfl⟩

theorem Stirs.wakeupParent (s : Table) (p : ℕ) : Stirs s (s.wakeupParent p) := by
  rw [Table.wakeupParent]
  split
  · exact .refl s
  · exact .wakeup1 s _

/-! ## Kinship -/

/-- Who is whose child. -/
structure Kin (s : Table) : Prop where
  bound : ∀ {q}, s.phase q ≠ .free → q < NPROC
  init : s.phase s.initproc = .alive
  initParent : (s.proc s.initproc).parent = none
  notSelf : ∀ {q}, (s.proc q).parent ≠ some q
  orphan : ∀ {q}, s.phase q = .free → (s.proc q).parent = none
  parentAlive : ∀ {q r}, (s.proc q).parent = some r → s.phase r = .alive
  hasParent : ∀ {q}, q ≠ s.initproc → s.phase q = .alive ∨ s.phase q = .zombie →
    (s.proc q).parent ≠ none
  forking : ∀ {p q}, s.control p = .forking q →
    s.phase p = .alive ∧ s.phase q = .embryo ∧ (s.proc q).parent = none
  copied : ∀ {p q}, s.control p = .copied q →
    s.phase p = .alive ∧ s.phase q = .embryo ∧ (s.proc q).parent = some p
  maker : ∀ {p r q}, s.control p = .forking q → s.control r = .forking q → p = r
  embryoParent : ∀ {q r}, s.phase q = .embryo → (s.proc q).parent = some r →
    s.control r = .copied q
  serialLt : ∀ {q}, s.phase q ≠ .free → (s.proc q).serial < s.births
  serialInj : ∀ {q r}, s.phase q ≠ .free → s.phase r ≠ .free →
    (s.proc q).serial = (s.proc r).serial → q = r

namespace Kin

theorem stirs (kin : Kin s) (stirs : Stirs s t) : Kin t := by
  obtain ⟨phase, parent, _, serial, forking, copied, births, initproc⟩ := stirs
  constructor <;> simp only [phase, parent, serial, forking, copied, births, initproc]
  · exact kin.bound
  · exact kin.init
  · exact kin.initParent
  · exact kin.notSelf
  · exact kin.orphan
  · exact kin.parentAlive
  · exact kin.hasParent
  · exact kin.forking
  · exact kin.copied
  · exact kin.maker
  · exact kin.embryoParent
  · exact kin.serialLt
  · exact kin.serialInj

/-- The children of a process that is not in `fork` go to init. -/
theorem passes (kin : Kin s) (at_ : s.control p = .elsewhere) :
    Kin { s with
      proc := fun q =>
        if q < NPROC ∧ (s.proc q).parent = some p then { s.proc q with parent := some s.initproc }
        else s.proc q } := by
  cases kin
  constructor
  all_goals
    simp only [Table.phase] at *
    grind [ProcState.phase]

/-- A process without children dies. -/
theorem dies (kin : Kin s) (alive : s.phase p = .alive) (at_ : s.control p = .elsewhere)
    (notInit : p ≠ s.initproc) (childless : ∀ q, (s.proc q).parent ≠ some p) :
    Kin (s.modify p fun slot => { slot with state := .zombie }) := by
  cases kin
  constructor
  all_goals
    simp only [Table.modify, Table.phase] at *
    grind [ProcState.phase]

/-- The slot of a zombie is free again. -/
theorem reaps (kin : Kin s) (dead : s.phase q = .zombie) :
    Kin (s.modify q fun slot =>
      { slot with pid := 0, parent := none, killed := false, state := .unused }) := by
  cases kin
  constructor
  all_goals
    simp only [Table.modify, Table.phase] at *
    grind [ProcState.phase]

end Kin

/-! ## Sleeping in `wait` -/

/-- No process sleeps in `wait` while it has a zombie child. -/
def Awake (s : Table) : Prop :=
  ∀ p, s.control p = .waiting → (s.proc p).state = .sleeping →
    (s.proc p).chan = some (.proc p) ∧
      ∀ q, (s.proc q).parent = some p → (s.proc q).state ≠ .zombie

/-- A step after which there are no more sleepers in `wait` and no more zombies. -/
theorem Awake.mono (awake : Awake s)
    (sleepers : ∀ {p}, t.control p = .waiting → (t.proc p).state = .sleeping →
      s.control p = .waiting ∧ (s.proc p).state = .sleeping ∧ (t.proc p).chan = (s.proc p).chan)
    (zombies : ∀ {q}, (t.proc q).state = .zombie →
      (s.proc q).state = .zombie ∧ (t.proc q).parent = (s.proc q).parent) : Awake t := by
  intro p at_ sleeps
  obtain ⟨at_, sleeps, chan⟩ := sleepers at_ sleeps
  obtain ⟨on, none⟩ := awake p at_ sleeps
  refine ⟨chan.trans on, fun q child dead => ?_⟩
  obtain ⟨dead, same⟩ := zombies dead
  exact none q (same ▸ child) dead

theorem wakeup1_proc (s : Table) (chan : Chan) (q : ℕ) :
    (s.wakeup1 chan).proc q =
      { s.proc q with
        state := if q < NPROC ∧ (s.proc q).state = .sleeping ∧ (s.proc q).chan = some chan then .runnable
          else (s.proc q).state } := by
  simp only [Table.wakeup1]
  split <;> rfl

/-- What `exit` wakes: those that sleep on the parent, and those that sleep on init if it
gets a zombie. -/
def Woken (s : Table) (p q : ℕ) : Prop :=
  q < NPROC ∧ (s.proc q).state = .sleeping ∧
    ((∃ r, (s.proc p).parent = some r ∧ (s.proc q).chan = some (.proc r)) ∨
      (∃ c < NPROC, (s.proc c).parent = some p ∧ (s.proc c).state = .zombie) ∧
        (s.proc q).chan = some (.proc s.initproc))

theorem wakeupParent_proc (s : Table) (p q : ℕ) :
    (s.wakeupParent p).proc q =
      { s.proc q with
        state := if q < NPROC ∧ (s.proc q).state = .sleeping ∧
            ∃ r, (s.proc p).parent = some r ∧ (s.proc q).chan = some (.proc r) then .runnable
          else (s.proc q).state } := by
  cases parent : (s.proc p).parent with
  | none => simp [Table.wakeupParent, parent]
  | some r => simp [Table.wakeupParent, parent, wakeup1_proc]

theorem wakeupParent_control (s : Table) (p : ℕ) : (s.wakeupParent p).control = s.control := by
  rw [Table.wakeupParent]
  split <;> rfl

theorem reparent_proc (s : Table) (p q : ℕ) :
    (s.reparent p).proc q =
      { s.proc q with
        state := if q < NPROC ∧ (s.proc q).state = .sleeping ∧
            (∃ c < NPROC, (s.proc c).parent = some p ∧ (s.proc c).state = .zombie) ∧
            (s.proc q).chan = some (.proc s.initproc) then .runnable
          else (s.proc q).state
        parent := if q < NPROC ∧ (s.proc q).parent = some p then some s.initproc
          else (s.proc q).parent } := by
  have passed : ∀ c, (if c < NPROC ∧ (s.proc c).parent = some p then
      { s.proc c with parent := some s.initproc } else s.proc c) =
      { s.proc c with parent := if c < NPROC ∧ (s.proc c).parent = some p then some s.initproc
        else (s.proc c).parent } := by
    intro c
    split <;> rfl
  by_cases zombie : ∃ c < NPROC, (s.proc c).parent = some p ∧ (s.proc c).state = .zombie
  · simp only [Table.reparent, passed, zombie, if_true, true_and, wakeup1_proc]
  · simp only [Table.reparent, passed, zombie, false_and, and_false, if_false]

open Classical in
/-- What `exit` does to a slot. -/
theorem exit_proc (s : Table) (p q : ℕ) :
    (s.exit p).proc q =
      { s.proc q with
        state := if q = p then .zombie else if Woken s p q then .runnable else (s.proc q).state
        parent := if q < NPROC ∧ (s.proc q).parent = some p then some s.initproc
          else (s.proc q).parent } := by
  have zombies : ∀ c, ((s.wakeupParent p).proc c).state = .zombie ↔ (s.proc c).state = .zombie := by
    intro c
    have same := (Stirs.wakeupParent s p).phase c
    rw [Table.phase, Table.phase] at same
    rw [← phase_eq_zombie, same, phase_eq_zombie]
  have init := (Stirs.wakeupParent s p).initproc
  have slot : ((s.wakeupParent p).reparent p).proc q =
      { s.proc q with
        state := if Woken s p q then .runnable else (s.proc q).state
        parent := if q < NPROC ∧ (s.proc q).parent = some p then some s.initproc
          else (s.proc q).parent } := by
    simp only [reparent_proc, zombies, init]
    simp only [wakeupParent_proc, Woken]
    congr 1
    by_cases parent : ∃ r, (s.proc p).parent = some r ∧ (s.proc q).chan = some (.proc r)
    · by_cases sleeps : q < NPROC ∧ (s.proc q).state = .sleeping
      · simp [parent, sleeps]
      · have others : ∀ {P : Prop}, ¬(q < NPROC ∧ (s.proc q).state = .sleeping ∧ P) :=
          fun both => sleeps ⟨both.1, both.2.1⟩
        simp only [others, if_false]
    · simp [parent]
  rw [Table.exit, Table.modify]
  obtain rfl | other := eq_or_ne q p
  · simp only [update_self, slot, if_true]
  · simp only [update_of_ne other, slot, other, if_false]

theorem exit_same (s : Table) (p : ℕ) : (s.exit p).control = s.control ∧
    (s.exit p).births = s.births ∧ (s.exit p).initproc = s.initproc := by
  have woken := Stirs.wakeupParent s p
  simp only [Table.exit, Table.reparent]
  split <;> exact ⟨wakeupParent_control s p, woken.births, woken.initproc⟩

/-- `exit` wakes the parent, and init if it gets a zombie. -/
theorem Awake.exit (awake : Awake s) (kin : Kin s) (free : s.Free p) : Awake (s.exit p) := by
  intro r at_ sleeps
  rw [(exit_same s p).1] at at_
  simp only [exit_proc] at sleeps ⊢
  split at sleeps
  · cases sleeps
  split at sleeps
  · cases sleeps
  rename_i other asleep
  obtain ⟨chan, none⟩ := awake r at_ sleeps
  refine ⟨chan, fun q child dead => asleep ?_⟩
  have small : r < NPROC := kin.bound (by rw [Table.phase, sleeps]; decide)
  obtain rfl | ne := eq_or_ne q p
  · have parent : (s.proc q).parent = some r := by
      rwa [if_neg fun own => kin.notSelf own.2] at child
    exact ⟨small, sleeps, .inl ⟨r, parent, chan⟩⟩
  · have dead : (s.proc q).state = .zombie := by
      rw [if_neg ne] at dead
      split at dead
      · cases dead
      · exact dead
    have inside : q < NPROC := kin.bound (by rw [Table.phase, dead]; decide)
    split at child
    · rename_i own
      cases child
      exact ⟨small, sleeps, .inr ⟨⟨q, inside, own.2, dead⟩, chan⟩⟩
    · exact absurd dead (none q child)

/-! ## What an action does -/

theorem exit_phase (s : Table) (p q : ℕ) :
    (s.exit p).phase q = if q = p then .zombie else s.phase q := by
  simp only [Table.phase, exit_proc]
  split
  · rfl
  · split
    · rename_i woken
      rw [woken.2.1]
      rfl
    · rfl

theorem Kin.exit (kin : Kin s) (free : s.Free p) (notInit : p ≠ s.initproc) : Kin (s.exit p) := by
  have woken := kin.stirs (.wakeupParent s p)
  have passed : Kin ((s.wakeupParent p).reparent p) := by
    have at_ : (s.wakeupParent p).control p = .elsewhere := by
      rw [wakeupParent_control]
      exact free.2.2
    rw [Table.reparent]
    split
    · exact (woken.passes at_).stirs (.wakeup1 _ _)
    · exact woken.passes at_
  have init : ((s.wakeupParent p).reparent p).initproc = s.initproc := (exit_same s p).2.2
  have alive : ((s.wakeupParent p).reparent p).phase p = .alive := by
    simp [Table.phase, reparent_proc, wakeupParent_proc, free.2.1, ProcState.phase]
  have at_ : ((s.wakeupParent p).reparent p).control p = .elsewhere :=
    (congrFun (exit_same s p).1 p).trans free.2.2
  refine passed.dies alive at_ (init ▸ notInit) fun q child => ?_
  simp only [reparent_proc] at child
  split at child
  · rw [(Stirs.wakeupParent s p).initproc] at child
    exact notInit (Option.some.inj child).symm
  · rename_i other
    have outside : ¬q < NPROC := fun small => other ⟨small, child⟩
    have freed : (s.wakeupParent p).phase q = .free := by
      by_contra used
      exact outside (woken.bound used)
    rw [woken.orphan freed] at child
    cases child

/-- One round of the loop of `wait`. -/
theorem scan_cases (s : Table) (p : ℕ) :
    (∃ q, (s.proc q).parent = some p ∧ (s.proc q).state = .zombie ∧
      s.scan p = (.reaped (s.proc p).serial (s.proc q).serial (s.proc q).pid,
        (s.modify q fun slot => { slot with
          pid := 0, parent := none, killed := false, state := .unused }).goto p .elsewhere)) ∨
    (∀ q < NPROC, (s.proc q).parent = some p → (s.proc q).state ≠ .zombie) ∧
      ((¬s.HasKids p ∨ (s.proc p).killed = true) ∧
          s.scan p = (.waitFailed (s.proc p).serial, s.goto p .elsewhere) ∨
        s.HasKids p ∧ (s.proc p).killed = false ∧
          s.scan p = (.silent, (s.modify p fun slot =>
            { slot with chan := some (.proc p), state := .sleeping }).goto p .waiting)) := by
  rw [Table.scan]
  cases found : s.deadChild p with
  | some q =>
    have dead := List.find?_some found
    simp only [decide_eq_true_eq] at dead
    exact .inl ⟨q, dead.1, dead.2, rfl⟩
  | none =>
    refine .inr ⟨fun q small child dead => ?_, ?_⟩
    · have all := List.find?_eq_none.mp found q (List.mem_range.mpr small)
      simp [child, dead] at all
    · dsimp only
      split
      · rename_i fails
        exact .inl ⟨fails, rfl⟩
      · rename_i waits
        simp only [not_or, not_not, Bool.not_eq_true] at waits
        exact .inr ⟨waits.1, waits.2, rfl⟩

/-- An event in which nobody is born, dies or is returned. -/
def Event.Quiet : Event → Prop
  | .silent | .allocated _ _ | .waitFailed _ | .killed _ _ => True
  | .forked _ _ _ | .exited _ | .reaped _ _ _ => False

/-- What an action does to the family. -/
inductive Effect (s : Table) : Event → Table → Prop where
  | stirs {e : Event} {t : Table} (quiet : e.Quiet) (stirs : Stirs s t) : Effect s e t
  | conceived {p q : ℕ} (free : s.Free p) (unused : s.phase q = .free) (small : q < NPROC) :
      Effect s (.allocated s.births s.nextpid) ((s.allocproc q).goto p (.forking q))
  | aborted {p q : ℕ} (at_ : s.control p = .forking q) :
      Effect s .silent
        ((s.modify q fun slot => { slot with state := .unused }).goto p .elsewhere)
  | copied {p q : ℕ} (at_ : s.control p = .forking q) :
      Effect s .silent
        ((s.modify q fun slot => { slot with parent := some p }).goto p (.copied q))
  | born {p q : ℕ} (at_ : s.control p = .copied q) :
      Effect s (.forked (s.proc p).serial (s.proc q).serial (s.proc q).pid)
        (((s.modify q fun slot => { slot with state := .runnable }).goto q .elsewhere).goto p
          .elsewhere)
  | dies {p : ℕ} (free : s.Free p) (notInit : p ≠ s.initproc) :
      Effect s (.exited (s.proc p).serial) (s.exit p)
  | reaped {u : Table} {p q : ℕ} (stirs : Stirs s u) (dead : u.phase q = .zombie)
      (child : (u.proc q).parent = some p) :
      Effect s (.reaped (u.proc p).serial (u.proc q).serial (u.proc q).pid)
        (u.modify q fun slot =>
          { slot with pid := 0, parent := none, killed := false, state := .unused })

theorem Stirs.kill (s : Table) (pid : ℤ) : Stirs s (s.kill pid).2 := by
  rw [Table.kill]
  split
  · exact .refl s
  · dsimp only
    apply Stirs.modify <;> dsimp only
    split
    · rename_i sleeps
      rw [sleeps]
      rfl
    · rfl

theorem kill_quiet (s : Table) (pid : ℤ) : (s.kill pid).1.Quiet := by
  rw [Table.kill]
  split <;> trivial

/-- A round of `wait`. -/
theorem Effect.scan {u : Table} (stirs : Stirs s u) (running : (u.proc p).state = .running)
    (at_ : ∀ q, u.control p ≠ .forking q ∧ u.control p ≠ .copied q) :
    Effect s (u.scan p).1 (u.scan p).2 := by
  have leaves : Stirs u (u.goto p .elsewhere) := .goto at_ (by simp)
  obtain ⟨q, child, dead, scan⟩ | ⟨-, ⟨-, scan⟩ | ⟨-, -, scan⟩⟩ := scan_cases u p
  · rw [scan]
    exact .reaped (stirs.trans leaves) (phase_eq_zombie.mpr dead) child
  · rw [scan]
    exact .stirs trivial (stirs.trans leaves)
  · rw [scan]
    have sleeps : Stirs u (u.modify p fun slot =>
        { slot with chan := some (.proc p), state := .sleeping }) :=
      .modify (by rw [running]; rfl) rfl rfl rfl
    exact .stirs trivial ((stirs.trans sleeps).trans (.goto at_ (by simp)))

/-- **What an action does.** -/
theorem Acts.effect (acts : Acts a s e t) : Effect s e t := by
  cases acts with
  | fork free found =>
    have unused := List.find?_some found
    have small := List.mem_range.mp (List.mem_of_find?_eq_some found)
    exact .conceived free (phase_eq_free.mpr (of_decide_eq_true unused)) small
  | forkFull => exact .stirs trivial (.refl s)
  | forkFails _ at_ => exact .aborted at_
  | forkCopies _ at_ => exact .copied at_
  | forkEnds _ at_ => exact .born at_
  | exit free notInit => exact .dies free notInit
  | wait free => exact .scan (.refl s) free.2.1 (by simp [free.2.2])
  | @resume _ p runnable at_ =>
    exact .scan (.run runnable) (by simp [Table.modify]) (by simp [Table.modify, at_])
  | kill free pid => exact .stirs (kill_quiet s pid) (.kill s pid)
  | run runnable => exact .stirs trivial (.run runnable)
  | yield running | sleep running =>
    exact .stirs trivial (.modify (by rw [running]; rfl) rfl rfl rfl)
  | wakeup c => exact .stirs trivial (.wakeup1 s _)

theorem Kin.step (kin : Kin s) (effect : Effect s e t) : Kin t := by
  cases effect with
  | stirs _ stirs => exact kin.stirs stirs
  | conceived | aborted | copied | born =>
    -- one slot and the places of one or two processes change
    cases kin
    constructor
    all_goals
      simp only [Table.Free, Table.allocproc, Table.goto, Table.modify, Table.phase,
        update_apply] at *
      grind [ProcState.phase]
  | dies free notInit => exact kin.exit free notInit
  | reaped stirs dead => exact (kin.stirs stirs).reaps dead

/-- A round of `wait` after which the process sleeps has found no zombie. -/
theorem Awake.scan (awake : Awake s) (kin : Kin s) (running : (s.proc p).state = .running) :
    Awake (s.scan p).2 := by
  obtain ⟨q, child, dead, scan⟩ | ⟨none, ⟨-, scan⟩ | ⟨-, -, scan⟩⟩ := scan_cases s p
  · rw [scan]
    refine awake.mono ?_ ?_ <;>
      simp only [Table.goto, Table.modify] <;> grind
  · rw [scan]
    refine awake.mono ?_ ?_ <;> simp only [Table.goto] <;> grind
  · rw [scan]
    intro r at_ sleeps
    simp only [Table.goto, Table.modify] at at_ sleeps ⊢
    obtain rfl | other := eq_or_ne r p
    · refine ⟨by simp, fun q child dead => ?_⟩
      have bound := @kin.bound
      simp only [Table.phase] at bound
      grind [ProcState.phase]
    · have before := awake r
      grind

theorem Awake.step (awake : Awake s) (kin : Kin s) (acts : Acts a s e t) : Awake t := by
  cases acts with
  | fork | forkFails | forkEnds | run | yield | sleep =>
    refine awake.mono ?_ ?_ <;>
      simp only [Table.allocproc, Table.goto, Table.modify] <;> grind
  | forkFull => exact awake
  | forkCopies _ at_ =>
    have embryo := phase_eq_embryo.mp (kin.forking at_).2.1
    refine awake.mono ?_ ?_ <;>
      simp only [Table.goto, Table.modify] <;> grind
  | exit free notInit => exact awake.exit kin free
  | wait free => exact awake.scan kin free.2.1
  | @resume _ p runnable at_ =>
    have before : Awake (s.modify p fun slot =>
        { slot with state := .running, chan := none }) := by
      refine awake.mono ?_ ?_ <;> simp only [Table.modify] <;> grind
    exact before.scan (kin.stirs (.run runnable)) (by simp [Table.modify])
  | kill free pid =>
    rw [Table.kill]
    split
    · exact awake
    · refine awake.mono ?_ ?_ <;> simp only [Table.modify] <;> grind
  | wakeup c =>
    refine awake.mono ?_ ?_ <;> simp only [wakeup1_proc]
    · simp only [Table.wakeup1]
      grind
    · grind

/-! ## Every child is returned once -/

/-- The process whose pid `wait` returns. -/
def Event.returned : Event → Option ℕ
  | .reaped _ child _ => some child
  | _ => none

/-- How often a process has exited. -/
def exits (trace : List Event) (n : ℕ) : ℕ := trace.count (.exited n)

/-- How often a process has been returned by `wait`. -/
def returns (trace : List Event) (n : ℕ) : ℕ :=
  trace.countP fun e => e.returned = some n

theorem exits_cons (trace : List Event) (e : Event) (n : ℕ) :
    exits (e :: trace) n = exits trace n + if e = .exited n then 1 else 0 := by
  simp [exits, List.count_cons]

theorem returns_cons (trace : List Event) (e : Event) (n : ℕ) :
    returns (e :: trace) n = returns trace n + if e.returned = some n then 1 else 0 := by
  simp [returns, List.countP_cons]

theorem Event.Quiet.ne_exited (quiet : e.Quiet) : e ≠ .exited n := by
  rintro rfl
  exact quiet

theorem Event.Quiet.returned (quiet : e.Quiet) : e.returned = none := by
  cases e <;> first | rfl | exact quiet.elim

/-- What a trace says of the processes in the table, and of those that are not in it. -/
structure Ledger (trace : List Event) (s : Table) : Prop where
  unborn : ∀ {n}, s.births ≤ n → exits trace n = 0 ∧ returns trace n = 0
  living : ∀ {q}, s.phase q = .alive ∨ s.phase q = .embryo →
    exits trace (s.proc q).serial = 0 ∧ returns trace (s.proc q).serial = 0
  dead : ∀ {q}, s.phase q = .zombie →
    exits trace (s.proc q).serial = 1 ∧ returns trace (s.proc q).serial = 0
  gone : ∀ {n}, (∀ q, s.phase q ≠ .free → (s.proc q).serial ≠ n) →
    exits trace n = returns trace n ∧ exits trace n ≤ 1

theorem Ledger.stirs (ledger : Ledger trace s) (stirs : Stirs s t) : Ledger trace t := by
  obtain ⟨phase, -, -, serial, -, -, births, -⟩ := stirs
  constructor <;> simp only [phase, serial, births]
  · exact ledger.unborn
  · exact ledger.living
  · exact ledger.dead
  · exact ledger.gone

theorem Ledger.quiet (ledger : Ledger trace s) (quiet : e.Quiet) : Ledger (e :: trace) s := by
  have exits : ∀ n, exits (e :: trace) n = exits trace n := by
    simp [exits_cons, quiet.ne_exited]
  have returns : ∀ n, returns (e :: trace) n = returns trace n := by
    simp [returns_cons, quiet.returned]
  constructor <;> simp only [exits, returns]
  · exact ledger.unborn
  · exact ledger.living
  · exact ledger.dead
  · exact ledger.gone

theorem Ledger.exit (ledger : Ledger trace s) (kin : Kin s) (alive : s.phase p = .alive) :
    Ledger (.exited (s.proc p).serial :: trace) (s.exit p) := by
  have serialInj := @kin.serialInj
  have serialLt := @kin.serialLt
  obtain ⟨unborn, living, dead, gone⟩ := ledger
  have serial : ∀ q, ((s.exit p).proc q).serial = (s.proc q).serial := by
    intro q
    rw [exit_proc]
  constructor <;> simp only [exits_cons, returns_cons, Event.returned, exit_phase,
    (exit_same s p).2.1] <;> grind

theorem Ledger.reap (ledger : Ledger trace s) (kin : Kin s) (zombie : s.phase q = .zombie) (p : ℕ) :
    Ledger (.reaped p (s.proc q).serial (s.proc q).pid :: trace) (s.modify q fun slot =>
      { slot with pid := 0, parent := none, killed := false, state := .unused }) := by
  have serialInj := @kin.serialInj
  obtain ⟨unborn, living, dead, gone⟩ := ledger
  constructor <;>
    simp only [exits_cons, returns_cons, Event.returned, Table.modify, Table.phase,
      update_apply] at * <;>
    grind [ProcState.phase]

theorem Ledger.step (ledger : Ledger trace s) (kin : Kin s) (effect : Effect s e t) :
    Ledger (e :: trace) t := by
  cases effect with
  | stirs quiet stirs => exact (ledger.stirs stirs).quiet quiet
  | dies free notInit => exact ledger.exit kin free.alive
  | reaped stirs dead => exact (ledger.stirs stirs).reap (kin.stirs stirs) dead _
  | conceived | aborted | copied =>
    refine Ledger.quiet ?_ trivial
    have embryo := @kin.forking
    obtain ⟨unborn, living, dead, gone⟩ := ledger
    constructor <;>
      simp only [Table.allocproc, Table.goto, Table.modify, Table.phase,
        update_apply] at * <;>
      grind [ProcState.phase]
  | born at_ =>
    have embryo := (kin.copied at_).2.1
    obtain ⟨unborn, living, dead, gone⟩ := ledger
    constructor <;>
      simp only [exits_cons, returns_cons, Event.returned, Table.goto,
        Table.modify, Table.phase, update_apply] at * <;>
      grind [ProcState.phase]

/-- A process has exited as often as it has been returned, once more while it is a zombie,
and at most once. -/
theorem Ledger.balance (ledger : Ledger trace s) (kin : Kin s) (n : ℕ) :
    exits trace n ≤ 1 ∧
      ((∃ q < NPROC, (s.proc q).state = .zombie ∧ (s.proc q).serial = n) ∧
          exits trace n = 1 ∧ returns trace n = 0 ∨
        (¬∃ q < NPROC, (s.proc q).state = .zombie ∧ (s.proc q).serial = n) ∧
          exits trace n = returns trace n) := by
  have bound := @kin.bound
  have serialInj := @kin.serialInj
  obtain ⟨unborn, living, dead, gone⟩ := ledger
  by_cases used : ∃ q, s.phase q ≠ .free ∧ (s.proc q).serial = n
  · obtain ⟨q, used, rfl⟩ := used
    cases phase : s.phase q with
    | free => exact absurd phase used
    | zombie =>
      obtain ⟨once, never⟩ := dead phase
      exact ⟨by omega, .inl ⟨⟨q, bound used, phase_eq_zombie.mp phase, rfl⟩, once, never⟩⟩
    | alive | embryo =>
      obtain ⟨never, none⟩ := living (q := q) (by simp [phase])
      refine ⟨by omega, .inr ⟨?_, by omega⟩⟩
      rintro ⟨r, -, zombie, same⟩
      have zombie : s.phase r = .zombie := phase_eq_zombie.mpr zombie
      obtain rfl := serialInj (by rw [zombie]; decide) used same
      rw [phase] at zombie
      cases zombie
  · have absent : ∀ q, s.phase q ≠ .free → (s.proc q).serial ≠ n :=
      fun q inUse same => used ⟨q, inUse, same⟩
    refine ⟨(gone absent).2, .inr ⟨?_, (gone absent).1⟩⟩
    rintro ⟨q, -, zombie, same⟩
    refine absent q ?_ same
    rw [Table.phase, zombie]
    decide

/-! ## Who returns a child -/

/-- The parent of a process is the one that forked it, or init if that one has exited. -/
structure Lineage (trace : List Event) (s : Table) : Prop where
  init : (s.proc s.initproc).serial = 0
  heir : ∀ {q r}, s.phase q = .alive ∨ s.phase q = .zombie → (s.proc q).parent = some r →
    ∃ m, .forked m (s.proc q).serial (s.proc q).pid ∈ trace ∧
      ((s.proc r).serial = m ∨ r = s.initproc ∧ .exited m ∈ trace)

theorem Lineage.stirs (lineage : Lineage trace s) (stirs : Stirs s t) : Lineage trace t := by
  obtain ⟨phase, parent, pid, serial, -, -, -, initproc⟩ := stirs
  constructor <;> simp only [phase, parent, pid, serial, initproc]
  · exact lineage.init
  · exact lineage.heir

theorem Lineage.longer (lineage : Lineage trace s) (e : Event) : Lineage (e :: trace) s where
  init := lineage.init
  heir lives child := by
    obtain ⟨m, forked, heir⟩ := lineage.heir lives child
    exact ⟨m, .tail _ forked, heir.imp id fun passed => ⟨passed.1, .tail _ passed.2⟩⟩

theorem Lineage.exit (lineage : Lineage trace s) (alive : s.phase p = .alive)
    (notInit : p ≠ s.initproc) : Lineage (.exited (s.proc p).serial :: trace) (s.exit p) := by
  have initproc := (exit_same s p).2.2
  constructor
  · simp only [initproc, exit_proc]
    exact lineage.init
  · intro q r lives child
    simp only [initproc, exit_proc, exit_phase] at lives child ⊢
    have lives : s.phase q = .alive ∨ s.phase q = .zombie := by
      split at lives
      · rename_i own
        rw [own]
        exact .inl alive
      · exact lives
    split at child
    · rename_i own
      obtain ⟨m, forked, heir⟩ := lineage.heir lives own.2
      cases child
      obtain rfl | ⟨init, -⟩ := heir
      · exact ⟨_, .tail _ forked, .inr ⟨rfl, .head _⟩⟩
      · exact absurd init notInit
    · exact (lineage.longer _).heir lives child

/-- A step that leaves the living and the dead as they are, or takes one of them away. -/
theorem Lineage.fewer (lineage : Lineage trace s) (kin : Kin s) (initproc : t.initproc = s.initproc)
    (kept : ∀ q, t.phase q = .alive ∨ t.phase q = .zombie →
      (s.phase q = .alive ∨ s.phase q = .zombie) ∧ (t.proc q).parent = (s.proc q).parent ∧
        (t.proc q).pid = (s.proc q).pid)
    (serial : ∀ q, s.phase q = .alive ∨ s.phase q = .zombie →
      (t.proc q).serial = (s.proc q).serial) : Lineage trace t where
  init := by
    rw [initproc, serial _ (.inl kin.init)]
    exact lineage.init
  heir := by
    intro q r lives child
    obtain ⟨before, parent, pid⟩ := kept q lives
    rw [parent] at child
    rw [initproc, pid, serial q before, serial r (.inl (kin.parentAlive child))]
    exact lineage.heir before child

theorem Lineage.step (lineage : Lineage trace s) (kin : Kin s) (effect : Effect s e t) :
    Lineage (e :: trace) t := by
  cases effect with
  | stirs quiet stirs => exact (lineage.stirs stirs).longer _
  | dies free notInit => exact lineage.exit free.alive notInit
  | reaped stirs dead child =>
    refine ((lineage.stirs stirs).longer _).fewer (kin.stirs stirs) rfl ?_ ?_ <;>
      simp only [Table.modify, Table.phase] at * <;>
      grind [ProcState.phase]
  | conceived | aborted | copied =>
    have embryo := @kin.forking
    refine (lineage.longer _).fewer kin rfl ?_ ?_ <;>
      simp only [Table.allocproc, Table.goto, Table.modify, Table.phase] at * <;>
      grind [ProcState.phase]
  | @born p q at_ =>
    obtain ⟨-, -, parent⟩ := kin.copied at_
    have before := lineage.longer
      (.forked (s.proc p).serial (s.proc q).serial (s.proc q).pid)
    constructor
    · have init := lineage.init
      simp only [Table.goto, Table.modify] at *
      grind
    · intro r u lives child
      obtain rfl | other := eq_or_ne r q
      · refine ⟨(s.proc p).serial, ?_, .inl ?_⟩ <;>
          simp only [Table.goto, Table.modify] at * <;>
          grind
      · have heir := @before.heir r u
        simp only [Table.goto, Table.modify, Table.phase] at *
        grind

/-- What a trace says of every return of `wait`. -/
def Rightful (trace : List Event) : Prop :=
  ∀ later earlier waiter child pid, trace = later ++ .reaped waiter child pid :: earlier →
    ∃ m, .forked m child pid ∈ earlier ∧ .exited child ∈ earlier ∧
      (waiter = m ∨ waiter = 0 ∧ .exited m ∈ earlier)

theorem Rightful.step (rightful : Rightful trace) (ledger : Ledger trace s)
    (lineage : Lineage trace s) (effect : Effect s e t) : Rightful (e :: trace) := by
  intro later earlier waiter child pid split
  cases later with
  | cons _ later =>
    obtain ⟨-, split⟩ := List.cons.inj split
    exact rightful later earlier waiter child pid split
  | nil =>
    cases split
    cases effect with
    | stirs quiet _ => exact quiet.elim
    | reaped stirs dead parent =>
      have now := lineage.stirs stirs
      obtain ⟨m, forked, heir⟩ := now.heir (.inr dead) parent
      obtain ⟨once, -⟩ := (ledger.stirs stirs).dead dead
      refine ⟨m, forked, List.count_pos_iff.mp (by rw [exits] at once; omega), ?_⟩
      obtain same | ⟨rfl, exited⟩ := heir
      · exact .inl same
      · exact .inr ⟨now.init, exited⟩

/-! ## Runs -/

/-- What every run keeps. -/
structure Family (trace : List Event) (s : Table) : Prop where
  kin : Kin s
  awake : Awake s
  ledger : Ledger trace s
  lineage : Lineage trace s
  rightful : Rightful trace

theorem userinit_family : Family [] userinit := by
  have slot : ∀ q, userinit.proc q = if q = 0 then ⟨.runnable, 1, none, none, false, 0⟩
      else ⟨.unused, 0, none, none, false, 0⟩ := by
    intro q
    obtain rfl | other := eq_or_ne q 0
    · rfl
    · simp [userinit, cleared, Table.allocproc, Table.modify, other]
  have phase : ∀ q, userinit.phase q = if q = 0 then .alive else .free := by
    intro q
    rw [Table.phase, slot]
    split <;> rfl
  have control : ∀ q, userinit.control q = .elsewhere := fun _ => rfl
  have births : userinit.births = 1 := rfl
  have init : userinit.initproc = 0 := rfl
  refine ⟨?_, ?_, ?_, ?_, ?_⟩
  · constructor <;> simp only [slot, phase, control] <;> grind
  · intro p at_
    cases at_
  · constructor <;> simp only [exits, returns] <;> grind
  · constructor <;> simp only [init] <;> grind
  · intro later earlier waiter child pid split
    cases later <;> cases split

theorem Family.step (family : Family trace s) (step : Step s e t) : Family (e :: trace) t := by
  obtain ⟨a, taken⟩ := step
  have acts := acts_of_act taken
  have effect := acts.effect
  exact ⟨family.kin.step effect, family.awake.step family.kin acts,
    family.ledger.step family.kin effect, family.lineage.step family.kin effect,
    family.rightful.step family.ledger family.lineage effect⟩

theorem Family.of_reaches (run : Reaches trace s) : Family trace s :=
  run.invariant userinit_family Family.step

/-- `wait` fails if the process has no children or is killed. -/
theorem Acts.waitFailed (acts : Acts a s (.waitFailed n) t) :
    ∃ p, (a = .wait p ∨ a = .resume p) ∧ (s.proc p).serial = n ∧
      (¬s.HasKids p ∨ (s.proc p).killed = true) := by
  have fails : ∀ {u : Table} {p : ℕ}, (u.scan p).1 = .waitFailed n →
      (u.proc p).serial = n ∧ (¬u.HasKids p ∨ (u.proc p).killed = true) := by
    intro u p event
    obtain ⟨q, -, -, scan⟩ | ⟨-, ⟨fails, scan⟩ | ⟨-, -, scan⟩⟩ := scan_cases u p <;>
      rw [scan] at event <;> cases event
    exact ⟨rfl, fails⟩
  generalize event : Event.waitFailed n = e at acts
  cases acts with
  | @wait _ p free => exact ⟨p, .inl rfl, fails event.symm⟩
  | @resume _ p runnable at_ =>
    obtain ⟨serial, failed⟩ := fails event.symm
    have runs := Stirs.run runnable
    simp only [Table.HasKids, runs.serial, runs.parent] at serial failed
    refine ⟨p, .inr rfl, serial, failed.imp id fun killed => ?_⟩
    simpa [Table.modify] using killed
  | kill free pid =>
    rw [Table.kill] at event
    split at event <;> cases event
  | _ => cases event

/-- **No child is lost, and none is returned twice.** In every run of any number of
processes:
* every process other than init that is not under construction has a parent that is neither
  `UNUSED` nor `ZOMBIE`;
* a process exits at most once; it is returned by no `wait` while it is a zombie, by one
  when it is not there any more, and by none if it has not exited;
* the `wait` that returns it is one of the process that forked it, with the pid that this
  `fork` returned, or one of init after that process has exited;
* a `wait` that returns -1 is one of a process that has no children or has been killed;
* a process that sleeps in `wait` has no zombie child. -/
theorem children_returned_once {trace : List Event} (run : Reaches trace s) :
    (∀ q, q ≠ s.initproc → (s.proc q).state ≠ .unused → (s.proc q).state ≠ .embryo →
      ∃ r < NPROC, (s.proc q).parent = some r ∧
        (s.proc r).state ≠ .unused ∧ (s.proc r).state ≠ .zombie) ∧
    (∀ n, exits trace n ≤ 1 ∧
      ((∃ q < NPROC, (s.proc q).state = .zombie ∧ (s.proc q).serial = n) ∧
          exits trace n = 1 ∧ returns trace n = 0 ∨
        (¬∃ q < NPROC, (s.proc q).state = .zombie ∧ (s.proc q).serial = n) ∧
          exits trace n = returns trace n)) ∧
    (∀ later earlier waiter child pid, trace = later ++ .reaped waiter child pid :: earlier →
      ∃ m, .forked m child pid ∈ earlier ∧ .exited child ∈ earlier ∧
        (waiter = m ∨ waiter = (s.proc s.initproc).serial ∧ .exited m ∈ earlier)) ∧
    (∀ {a n t}, s.act a = some (.waitFailed n, t) →
      ∃ p, (a = .wait p ∨ a = .resume p) ∧ (s.proc p).serial = n ∧
        (¬s.HasKids p ∨ (s.proc p).killed = true)) ∧
    ∀ p q, s.control p = .waiting → (s.proc p).state = .sleeping →
      (s.proc q).parent = some p → (s.proc q).state ≠ .zombie := by
  obtain ⟨kin, awake, ledger, lineage, rightful⟩ := Family.of_reaches run
  refine ⟨fun q other used built => ?_, fun n => ledger.balance kin n, ?_,
    fun taken => (acts_of_act taken).waitFailed, fun p q at_ sleeps => (awake p at_ sleeps).2 q⟩
  · have lives : s.phase q = .alive ∨ s.phase q = .zombie := by
      rw [Table.phase]
      cases state : (s.proc q).state <;> simp_all [ProcState.phase]
    obtain ⟨r, parent⟩ := Option.ne_none_iff_exists'.mp (kin.hasParent other lives)
    have alive := kin.parentAlive parent
    refine ⟨r, kin.bound (by rw [alive]; decide), parent, fun unused => ?_, fun zombie => ?_⟩
    · rw [Table.phase, unused] at alive
      cases alive
    · rw [Table.phase, zombie] at alive
      cases alive
  · rwa [lineage.init]

/-- Init forks a child, which forks one of its own and exits before it. -/
def orphanTrace : List Event :=
  [.exited 2, .silent, .exited 1, .forked 1 2 3, .silent, .allocated 2 3, .silent, .forked 0 1 2,
    .silent, .allocated 1 2, .silent]

/-- Init waits for both. -/
theorem children_returned_once_of_orphan :
    ∃ s, Reaches (.reaped 0 2 3 :: .reaped 0 1 2 :: orphanTrace) s ∧
      ∃ m, .forked m 2 3 ∈ .reaped 0 1 2 :: orphanTrace ∧
        .exited 2 ∈ .reaped 0 1 2 :: orphanTrace ∧
        (0 = m ∨ 0 = (s.proc s.initproc).serial ∧ .exited m ∈ .reaped 0 1 2 :: orphanTrace) := by
  have played : (TraceRun.replay (fun a s => s.act a) userinit
      [.wait 0, .wait 0, .exit 2, .run 2, .exit 1, .forkEnds 1, .forkCopies 1, .fork 1, .run 1,
        .forkEnds 0, .forkCopies 0, .fork 0, .run 0]).any
      (fun (trace, _) => trace = .reaped 0 2 3 :: .reaped 0 1 2 :: orphanTrace) = true := by
    decide +kernel
  obtain ⟨trace, s, run, same⟩ := TraceRun.Run.exists_of_replay step_of_act played
  obtain rfl := of_decide_eq_true same
  exact ⟨s, run, (children_returned_once run).2.2.1 [] _ 0 2 3 rfl⟩

end Xv6Uac.Ptable
