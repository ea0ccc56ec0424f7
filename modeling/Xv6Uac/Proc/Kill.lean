import Xv6Uac.Proc.Family

/-!
# Who is killed

`kill` looks for a pid in the whole table, also in slots that are `UNUSED`: those have the pid
0 after `wait`, or the pid of a `fork` that has failed. It sets `killed` there, and
`allocproc` does not clear it. A slot that is given back by a `fork` that fails keeps its
`killed` as well.

In a run in which `kill` finds no such slot, and no `fork` fails after its child has been
killed, a process is killed only by a `kill` of its pid after it was created (`Blame`).
-/

namespace Xv6Uac.Ptable

open Function (update_apply)

variable {s t : Table} {p q r n : ℕ} {pid : ℤ} {e : Event} {a : Action} {trace : List Event}

/-- The action does not mark a slot that is `UNUSED`, and does not give back a slot that is
marked. -/
def Spares (s : Table) : Action → Prop
  | .kill _ pid => ∀ q ∈ (List.range NPROC).find? (fun q => (s.proc q).pid = pid),
      (s.proc q).state ≠ .unused
  | .forkFails p => ∀ q < NPROC, s.control p = .forking q → (s.proc q).killed = false
  | _ => True

instance (s : Table) : (a : Action) → Decidable (Spares s a)
  | .kill _ _ => inferInstanceAs (Decidable (∀ q ∈ (_ : Option ℕ), _))
  | .forkFails _ => inferInstanceAs (Decidable (∀ q < NPROC, _))
  | .fork _ | .forkCopies _ | .forkEnds _ | .exit _ | .wait _ | .resume _ | .run _ | .yield _
  | .sleep _ _ | .wakeup _ => inferInstanceAs (Decidable True)

/-- A step of a run that spares the free slots. -/
def SparingStep (s : Table) (e : Event) (t : Table) : Prop :=
  ∃ a, s.act a = some (e, t) ∧ Spares s a

/-! ## Named by a kill -/

/-- A process has been created, and if it is killed, then by a `kill` after that. -/
def Named (trace : List Event) (n : ℕ) (pid : ℤ) (killed : Bool) : Prop :=
  ∃ since before, trace = since ++ .allocated n pid :: before ∧
    (killed = true → .killed pid 0 ∈ since)

theorem Named.cons {killed : Bool} (named : Named trace n pid killed) (e : Event) :
    Named (e :: trace) n pid killed := by
  obtain ⟨since, before, rfl, blamed⟩ := named
  exact ⟨e :: since, before, rfl, fun killed => .tail _ (blamed killed)⟩

theorem Named.created (trace : List Event) (n : ℕ) (pid : ℤ) :
    Named (.allocated n pid :: trace) n pid false :=
  ⟨[], trace, rfl, by simp⟩

theorem Named.kill {killed : Bool} (named : Named trace n pid killed) :
    Named (.killed pid 0 :: trace) n pid true := by
  obtain ⟨since, before, rfl, -⟩ := named
  exact ⟨.killed pid 0 :: since, before, rfl, fun _ => .head _⟩

/-! ## Blame -/

/-- Free slots are not marked, and a process that is has been named by a `kill`. -/
structure Blame (trace : List Event) (s : Table) : Prop where
  spare : ∀ {q}, s.phase q = .free → (s.proc q).killed = false
  blamed : ∀ {q}, s.phase q ≠ .free → q ≠ s.initproc →
    Named trace (s.proc q).serial (s.proc q).pid (s.proc q).killed

namespace Blame

variable (blame : Blame trace s)
include blame

theorem stirs (stirs : Stirs s t) (killed : ∀ q, (t.proc q).killed = (s.proc q).killed) :
    Blame trace t := by
  obtain ⟨phase, -, pid, serial, -, -, -, initproc⟩ := stirs
  constructor <;> simp only [phase, pid, serial, initproc, killed]
  · exact blame.spare
  · exact blame.blamed

theorem longer (e : Event) : Blame (e :: trace) s where
  spare := blame.spare
  blamed used other := (blame.blamed used other).cons e

theorem fork (unused : s.phase q = .free) :
    Blame (.allocated s.births s.nextpid :: trace) ((s.allocproc q).goto p (.forking q)) := by
  have created := Named.created trace s.births s.nextpid
  obtain ⟨spare, blamed⟩ := blame.longer (.allocated s.births s.nextpid)
  constructor <;>
    simp only [Table.allocproc, Table.goto, Table.modify, Table.phase] at * <;>
    grind [ProcState.phase]

theorem kill (spares : Spares s (.kill p pid)) :
    Blame ((s.kill pid).1 :: trace) (s.kill pid).2 := by
  rw [Table.kill]
  split
  · exact blame.longer _
  · rename_i q found
    have live := spares q found
    have same := List.find?_some found
    rw [decide_eq_true_eq] at same
    have killed := @blame.blamed q
    obtain ⟨spare, blamed⟩ := blame.longer (.killed pid 0)
    constructor <;>
      simp only [Table.modify, Table.phase, ne_eq, phase_eq_free] at *
    · grind
    · intro r used other
      by_cases own : r = q
      · have before := killed live (own ▸ other)
        simpa [own, same] using before.kill
      · grind

theorem reap :
    Blame trace (s.modify q fun slot =>
      { slot with pid := 0, parent := none, killed := false, state := .unused }) := by
  obtain ⟨spare, blamed⟩ := blame
  constructor <;> simp only [Table.modify, Table.phase] at * <;>
    grind [ProcState.phase]

theorem scan (running : (s.proc p).state = .running)
    (at_ : ∀ q, s.control p ≠ .forking q ∧ s.control p ≠ .copied q) : Blame trace (s.scan p).2 := by
  have leaves : Blame trace (s.goto p .elsewhere) :=
    blame.stirs (.goto at_ (by simp)) fun _ => rfl
  obtain ⟨q, -, -, scan⟩ | ⟨-, ⟨-, scan⟩ | ⟨-, -, scan⟩⟩ := scan_cases s p
  · rw [scan]
    exact leaves.reap
  · rwa [scan]
  · rw [scan]
    have sleeps : Stirs s (s.modify p fun slot =>
        { slot with chan := some (.proc p), state := .sleeping }) :=
      .modify (by rw [running]; rfl) rfl rfl rfl
    exact blame.stirs (sleeps.trans (.goto at_ (by simp))) fun q => by
      by_cases own : q = p <;> simp [Table.goto, Table.modify, own]

theorem exit (alive : s.phase p = .alive) : Blame trace (s.exit p) := by
  obtain ⟨spare, blamed⟩ := blame
  constructor <;> simp only [exit_phase, exit_proc, (exit_same s p).2.2] <;> grind

/-- A change of a slot that leaves its number, its pid and its mark. -/
theorem modify {change : Slot → Slot} (before : (s.proc q).state ≠ .unused)
    (after : (change (s.proc q)).state ≠ .unused) (pid : (change (s.proc q)).pid = (s.proc q).pid)
    (serial : (change (s.proc q)).serial = (s.proc q).serial)
    (killed : (change (s.proc q)).killed = (s.proc q).killed) :
    Blame trace (s.modify q change) := by
  obtain ⟨spare, blamed⟩ := blame
  constructor <;>
    simp only [Table.modify, Table.phase, ne_eq, phase_eq_free] at * <;>
    grind

theorem goto (control : Control) : Blame trace (s.goto p control) :=
  ⟨blame.spare, blame.blamed⟩

theorem step (kin : Kin s) (acts : Acts a s e t) (spares : Spares s a) : Blame (e :: trace) t := by
  cases acts with
  | fork free found =>
    have unused := List.find?_some found
    exact blame.fork (phase_eq_free.mpr (of_decide_eq_true unused))
  | forkFull => exact blame.longer _
  | @forkFails _ p q _ at_ =>
    have small := kin.bound (by rw [(kin.forking at_).2.1]; decide)
    have clear := spares q small at_
    refine Blame.longer (goto ?_ _) _
    obtain ⟨spare, blamed⟩ := blame
    constructor <;> simp only [Table.modify, Table.phase] at * <;>
      grind [ProcState.phase]
  | forkCopies _ at_ =>
    have embryo := phase_eq_embryo.mp (kin.forking at_).2.1
    exact ((blame.longer _).modify (by simp [embryo]) (by simp [embryo]) rfl rfl rfl).goto _
  | forkEnds _ at_ =>
    have embryo := phase_eq_embryo.mp (kin.copied at_).2.1
    exact (((blame.longer _).modify (by simp [embryo]) (by simp) rfl rfl rfl).goto _).goto _
  | exit free => exact (blame.exit free.alive).longer _
  | wait free => exact (blame.scan free.2.1 (by simp [free.2.2])).longer _
  | @resume _ p runnable at_ =>
    have runs : Blame trace (s.modify p fun slot =>
        { slot with state := .running, chan := none }) :=
      blame.modify (by simp [runnable]) (by simp) rfl rfl rfl
    exact (runs.scan (by simp [Table.modify]) (by simp [Table.modify, at_])).longer _
  | kill _ pid => exact blame.kill spares
  | run runnable => exact (blame.longer _).modify (by simp [runnable]) (by simp) rfl rfl rfl
  | yield running | sleep running =>
    exact (blame.longer _).modify (by simp [running]) (by simp) rfl rfl rfl
  | wakeup c => exact (blame.stirs (.wakeup1 s _) fun q => by rw [wakeup1_proc]).longer _

end Blame

/-! ## Runs -/

theorem userinit_blame : Blame [] userinit := by
  have clear : ∀ q, (userinit.proc q).killed = false := by
    intro q
    obtain rfl | other := eq_or_ne q 0
    · rfl
    · simp [userinit, cleared, Table.allocproc, Table.modify, other]
  refine ⟨fun _ => clear _, fun {q} used other => absurd ?_ used⟩
  have other : q ≠ 0 := other
  simp [Table.phase, userinit, cleared, Table.allocproc, Table.modify, other, ProcState.phase]

theorem Blame.of_run (run : TraceRun.Run SparingStep userinit trace s) :
    Kin s ∧ Blame trace s := by
  induction run with
  | refl => exact ⟨userinit_family.kin, userinit_blame⟩
  | tail _ taken ih =>
    obtain ⟨kin, blame⟩ := ih
    obtain ⟨a, taken, spares⟩ := taken
    have acts := acts_of_act taken
    exact ⟨kin.step acts.effect, blame.step kin acts spares⟩

/-- `kill` returns 0 if it finds the pid. -/
theorem Acts.killed (acts : Acts a s (.killed pid 0) t) :
    ∃ p q, a = .kill p pid ∧
      (List.range NPROC).find? (fun q => (s.proc q).pid = pid) = some q := by
  have scans : ∀ {u : Table} {p : ℕ}, (u.scan p).1 ≠ .killed pid 0 := by
    intro u p event
    obtain ⟨q, -, -, scan⟩ | ⟨-, ⟨-, scan⟩ | ⟨-, -, scan⟩⟩ := scan_cases u p <;>
      rw [scan] at event <;> cases event
  generalize event : Event.killed pid 0 = e at acts
  cases acts with
  | @kill _ p free pid' =>
    rw [Table.kill] at event
    split at event
    · cases event
    · rename_i q found
      cases event
      exact ⟨p, q, rfl, found⟩
  | wait | resume => exact absurd event.symm scans
  | _ => cases event

/-- **Who is killed.** In a run that spares the free slots, `kill` returns 0 only if a
process that is not `UNUSED` has the pid, and a process other than init is killed only if
`kill` was called with its pid after it was created, from the `fork` that makes it on. -/
theorem kill_reaches_named (run : TraceRun.Run SparingStep userinit trace s) :
    (∀ {e t}, SparingStep s e t → ∀ pid, e = .killed pid 0 →
      ∃ q < NPROC, (s.proc q).state ≠ .unused ∧ (s.proc q).pid = pid) ∧
    ∀ q, (s.proc q).state ≠ .unused → q ≠ s.initproc →
      ∃ since before, trace = since ++ .allocated (s.proc q).serial (s.proc q).pid :: before ∧
        ((s.proc q).killed = true → .killed (s.proc q).pid 0 ∈ since) := by
  obtain ⟨-, blame⟩ := Blame.of_run run
  refine ⟨?_, fun q used other => blame.blamed (by rwa [ne_eq, Table.phase, phase_eq_free]) other⟩
  rintro _ t ⟨a, taken, spares⟩ pid rfl
  obtain ⟨p, q, rfl, found⟩ := (acts_of_act taken).killed
  have small := List.mem_range.mp (List.mem_of_find?_eq_some found)
  have same := List.find?_some found
  exact ⟨q, small, spares q found, of_decide_eq_true same⟩

/-- An action that spares the free slots, computed. -/
def sparingAct (a : Action) (s : Table) : Option (Event × Table) :=
  if Spares s a then s.act a else none

theorem sparingStep_of_sparingAct (a : Action) (s : Table) (e : Event) (t : Table)
    (taken : sparingAct a s = some (e, t)) : SparingStep s e t := by
  obtain ⟨spares, taken⟩ := Option.ite_none_right_eq_some.mp taken
  exact ⟨a, taken, spares⟩

/-- Init forks a child and kills it. -/
def killedChild : List Event :=
  [.killed 2 0, .forked 0 1 2, .silent, .allocated 1 2, .silent]

theorem kill_reaches_named_of_child :
    ∃ s, TraceRun.Run SparingStep userinit killedChild s ∧ (s.proc 1).killed = true ∧
      ∃ since before,
        killedChild = since ++ .allocated (s.proc 1).serial (s.proc 1).pid :: before ∧
          ((s.proc 1).killed = true → .killed (s.proc 1).pid 0 ∈ since) := by
  have played : (TraceRun.replay sparingAct userinit
      [.kill 0 2, .forkEnds 0, .forkCopies 0, .fork 0, .run 0]).any (fun (trace, s) =>
        trace = killedChild ∧ (s.proc 1).killed = true ∧ (s.proc 1).state ≠ .unused ∧
          1 ≠ s.initproc) = true := by
    decide
  obtain ⟨trace, s, run, same⟩ :=
    TraceRun.Run.exists_of_replay sparingStep_of_sparingAct played
  obtain ⟨rfl, killed, used, other⟩ := of_decide_eq_true same
  exact ⟨s, run, killed, (kill_reaches_named run).2 1 used other⟩

/-- Init calls `kill(0)`. No process has the pid 0, but it returns 0, and the child that
init forks next is killed from the start. -/
theorem kill_marks_free_slot :
    (∃ s t, Reaches [.silent] s ∧ s.act (.kill 0 0) = some (.killed 0 0, t) ∧
      ∀ q < NPROC, (s.proc q).state ≠ .unused → (s.proc q).pid ≠ 0) ∧
    ∃ s, Reaches [.forked 0 1 2, .silent, .allocated 1 2, .killed 0 0, .silent] s ∧
      (s.proc 1).state = .runnable ∧ (s.proc 1).pid = 2 ∧ (s.proc 1).killed = true := by
  constructor
  · have played : (TraceRun.replay (fun a s => s.act a) userinit [.run 0]).any (fun (trace, s) =>
        trace = [.silent] ∧ ((s.act (.kill 0 0)).any fun (e, _) => e = .killed 0 0) = true ∧
          ∀ q < NPROC, (s.proc q).state ≠ .unused → (s.proc q).pid ≠ 0) = true := by
      decide
    obtain ⟨trace, s, run, same⟩ := TraceRun.Run.exists_of_replay step_of_act played
    obtain ⟨rfl, returns, none⟩ := of_decide_eq_true same
    obtain ⟨⟨e, t⟩, taken, event⟩ := Option.any_eq_true _ _ |>.mp returns
    obtain rfl := of_decide_eq_true event
    exact ⟨s, t, run, taken, none⟩
  · have played : (TraceRun.replay (fun a s => s.act a) userinit
        [.forkEnds 0, .forkCopies 0, .fork 0, .kill 0 0, .run 0]).any (fun (trace, s) =>
          trace = [.forked 0 1 2, .silent, .allocated 1 2, .killed 0 0, .silent] ∧
            (s.proc 1).state = .runnable ∧ (s.proc 1).pid = 2 ∧
            (s.proc 1).killed = true) = true := by
      decide
    obtain ⟨trace, s, run, same⟩ := TraceRun.Run.exists_of_replay step_of_act played
    obtain ⟨rfl, marked⟩ := of_decide_eq_true same
    exact ⟨s, run, marked⟩

end Xv6Uac.Ptable
