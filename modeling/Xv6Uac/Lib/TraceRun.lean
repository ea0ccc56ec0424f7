import Mathlib.Data.List.Basic

/-!
# Runs of labelled steps

A run of a labelled transition relation carries the list of the labels it took,
the latest first. What holds of the start with the empty trace and is kept by
every step holds of every run (`Run.invariant`).
-/

namespace TraceRun

variable {State Label : Type*}

/-- The states reached from `start`, with the labels of the steps taken, the
latest first. -/
inductive Run (step : State → Label → State → Prop) (start : State) :
    List Label → State → Prop where
  | refl : Run step start [] start
  | tail {trace : List Label} {s s' : State} {label : Label} :
      Run step start trace s → step s label s' → Run step start (label :: trace) s'

variable {step : State → Label → State → Prop} {start : State}

/-- **The invariant rule.** -/
theorem Run.invariant {holds : List Label → State → Prop} (initially : holds [] start)
    (kept : ∀ {trace : List Label} {s s' : State} {label : Label},
      holds trace s → step s label s' → holds (label :: trace) s')
    {trace : List Label} {s : State} (run : Run step start trace s) : holds trace s := by
  induction run with
  | refl => exact initially
  | tail _ taken ih => exact kept ih taken

/-- The invariant rule for a property of the state alone. -/
theorem Run.stateInvariant {holds : State → Prop} (initially : holds start)
    (kept : ∀ {s s' : State} {label : Label}, holds s → step s label s' → holds s')
    {trace : List Label} {s : State} (run : Run step start trace s) : holds s := by
  induction run with
  | refl => exact initially
  | tail _ taken ih => exact kept ih taken

variable {trace : List Label} {s : State}

/-- A run whose labels all meet a condition. -/
theorem Run.restrict {cond : Label → Prop} (run : Run step start trace s)
    (all : ∀ label ∈ trace, cond label) :
    Run (fun s label s' => step s label s' ∧ cond label) start trace s := by
  induction run with
  | refl => exact .refl
  | tail _ taken ih =>
    exact .tail (ih fun label member => all label (List.mem_cons_of_mem _ member))
      ⟨taken, all _ List.mem_cons_self⟩

/-- A run of steps that are steps of another relation too. -/
theorem Run.mono {step' : State → Label → State → Prop} (run : Run step start trace s)
    (more : ∀ s label s', step s label s' → step' s label s') : Run step' start trace s := by
  induction run with
  | refl => exact .refl
  | tail _ taken ih => exact .tail ih (more _ _ _ taken)

/-- A run that goes on after a first step. -/
theorem Run.head {next : State} {label : Label} (first : step start label next)
    (run : Run step next trace s) : Run step start (trace ++ [label]) s := by
  induction run with
  | refl => exact .tail .refl first
  | tail _ taken ih => exact .tail ih taken

/-- **The simulation rule.** If every step from related states is answered by a step with the same
label to related states, then every run is answered by a run with the same trace. -/
theorem Run.simulate {State' : Type*} {step' : State' → Label → State' → Prop}
    {related : State → State' → Prop} {start' : State'} (run : Run step start trace s)
    (initially : related start start')
    (answers : ∀ s t label s', related s s' → step s label t →
      ∃ t', step' s' label t' ∧ related t t') : ∃ s', Run step' start' trace s' ∧ related s s' := by
  induction run with
  | refl => exact ⟨start', .refl, initially⟩
  | tail _ taken ih =>
    obtain ⟨s', earlier, relatedS⟩ := ih
    obtain ⟨t', answer, relatedT⟩ := answers _ _ _ _ relatedS taken
    exact ⟨t', .tail earlier answer, relatedT⟩

/-! ## Runs that are computed -/

/-- Take the actions of a list, the latest first, as far as they can be taken. -/
def replay {Action : Type*} (act : Action → State → Option (Label × State)) (start : State) :
    List Action → Option (List Label × State)
  | [] => some ([], start)
  | action :: older => (replay act start older).bind fun (trace, s) =>
    (act action s).map fun (label, s') => (label :: trace, s')

/-- An action that can be taken under a condition. -/
theorem of_guard {P : Prop} [Decidable P] {result : Label × State} {label : Label}
    (taken : (if P then some result else none) = some (label, s)) :
    P ∧ result.1 = label ∧ result.2 = s := by
  obtain ⟨may, rfl⟩ := Option.ite_none_right_eq_some.mp taken |>.imp_right Option.some.inj
  exact ⟨may, rfl, rfl⟩

/-- What is computed is a run. -/
theorem Run.of_replay {Action : Type*} {act : Action → State → Option (Label × State)}
    (sound : ∀ action s label s', act action s = some (label, s') → step s label s')
    {actions : List Action} (computed : replay act start actions = some (trace, s)) :
    Run step start trace s := by
  induction actions generalizing trace s with
  | nil =>
    cases computed
    exact .refl
  | cons action older ih =>
    obtain ⟨⟨before, t⟩, earlier, last⟩ := Option.bind_eq_some_iff.mp computed
    obtain ⟨⟨label, t'⟩, taken, same⟩ := Option.map_eq_some_iff.mp last
    cases same
    exact .tail (ih earlier) (sound _ _ _ _ taken)

/-- A run with a trace that is computed, to a state that passes a check. -/
theorem Run.exists_of_replay {Action : Type*} {act : Action → State → Option (Label × State)}
    (sound : ∀ action s label s', act action s = some (label, s') → step s label s')
    {actions : List Action} {check : List Label × State → Bool}
    (passed : (replay act start actions).any check = true) :
    ∃ trace s, Run step start trace s ∧ check (trace, s) = true := by
  cases computed : replay act start actions with
  | none => simp [computed] at passed
  | some result =>
    obtain ⟨trace, s⟩ := result
    exact ⟨trace, s, .of_replay sound computed, by simpa [computed] using passed⟩

end TraceRun
