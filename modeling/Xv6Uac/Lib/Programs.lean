import Mathlib.Init

/-!
# Programs that make calls

A program is a tree: it is done, it does something undefined, or it makes a call and goes on with
the reply. A handler answers the calls in a state. `run` is the result of a program that is run
to its end, and `visits` are the states between its calls, where it can be stopped.

`always I p Q s` is the rule for both: started in `s` the program ends, with `Q`, and all states
that it visits meet `I` (`always_iff`). It computes along the program (`always_bind`).
-/

namespace Programs

/-- Programs with the calls `C` and the replies `R`. -/
inductive Program (C : Type) (R : C → Type) (α : Type) : Type
  | done (a : α)
  | undefined
  | call (c : C) (next : R c → Program C R α)

/-- What the system answers to a call. -/
abbrev Handler (C : Type) (R : C → Type) (S : Type) : Type := (c : C) → S → R c × S

variable {C : Type} {R : C → Type} {S α β : Type}

def Program.bind : Program C R α → (α → Program C R β) → Program C R β
  | .done a, f => f a
  | .undefined, _ => .undefined
  | .call c next, f => .call c fun r => (next r).bind f

instance : Monad (Program C R) where
  pure := .done
  bind := .bind

/-- The program that makes one call. -/
def perform (c : C) : Program C R (R c) := .call c .done

/-- Run a program to its end. -/
def run (h : Handler C R S) : Program C R α → S → Option (α × S)
  | .done a, s => some (a, s)
  | .undefined, _ => none
  | .call c next, s => run h (next (h c s).1) (h c s).2

/-- The states in which a program can be stopped: before each of its calls and at its end. -/
def visits (h : Handler C R S) : Program C R α → S → List S
  | .done _, s => [s]
  | .undefined, s => [s]
  | .call c next, s => s :: visits h (next (h c s).1) (h c s).2

/-- The program ends with `Q`, and all states that it visits meet `I`. -/
def always (h : Handler C R S) (I : S → Prop) : Program C R α → (α → S → Prop) → S → Prop
  | .done a, Q, s => I s ∧ Q a s
  | .undefined, _, _ => False
  | .call c next, Q, s => I s ∧ always h I (next (h c s).1) Q (h c s).2

variable {h : Handler C R S} {I : S → Prop} {Q : α → S → Prop} {s : S}

theorem always_pure (a : α) : always h I (pure a) Q s ↔ I s ∧ Q a s := .rfl

variable {p : Program C R α}

theorem always.here (runs : always h I p Q s) : I s := by
  cases p with
  | done a => exact runs.1
  | undefined => exact runs.elim
  | call c next => exact runs.1

theorem always_bind (p : Program C R α) (f : α → Program C R β) {Q : β → S → Prop} :
    always h I (p >>= f) Q s ↔ always h I p (fun a t => always h I (f a) Q t) s := by
  induction p generalizing s with
  | done a => exact ⟨fun runs => ⟨runs.here, runs⟩, And.right⟩
  | undefined => exact .rfl
  | call c next ih => exact and_congr_right fun _ => ih _

/-- A call in front of a program. -/
theorem always_perform_bind (c : C) (f : R c → Program C R β) {Q : β → S → Prop} :
    always h I (perform c >>= f) Q s ↔ I s ∧ always h I (f (h c s).1) Q (h c s).2 := .rfl

theorem always_ite {c : Prop} [Decidable c] (p q : Program C R α) :
    always h I (if c then p else q) Q s ↔
      (c → always h I p Q s) ∧ (¬c → always h I q Q s) := by
  split <;> simp [*]

theorem always.mono {J : S → Prop} {Q' : α → S → Prop} (runs : always h I p Q s)
    (weaker : ∀ t, I t → J t) (post : ∀ a t, I t → Q a t → Q' a t) : always h J p Q' s := by
  induction p generalizing s with
  | done a => exact ⟨weaker s runs.1, post a s runs.1 runs.2⟩
  | undefined => exact runs.elim
  | call c next ih => exact ⟨weaker s runs.1, ih _ runs.2⟩

theorem always_iff :
    always h I p Q s ↔
      (∀ t ∈ visits h p s, I t) ∧ ∃ a t, run h p s = some (a, t) ∧ Q a t := by
  induction p generalizing s with
  | done a => simp [always, visits, run, and_assoc]
  | undefined => simp [always, run]
  | call c next ih => simp [always, visits, run, ih, and_assoc]

/-- What every call keeps holds at the end of a program. -/
theorem run_invariant (kept : ∀ c s, I s → I (h c s).2) {a : α} {t : S}
    (ran : run h p s = some (a, t)) (start : I s) : I t := by
  induction p generalizing s with
  | done b =>
    obtain ⟨-, rfl⟩ := Prod.mk.inj (Option.some.inj ran)
    exact start
  | undefined => exact absurd ran (by simp [run])
  | call c next ih => exact ih _ ran (kept c s start)

/-- The result alone. -/
theorem always_true_iff :
    always h (fun _ => True) p Q s ↔ ∃ a t, run h p s = some (a, t) ∧ Q a t := by
  rw [always_iff]
  simp

/-- A program with known results in front of another one. -/
theorem always.of_bind {J : S → Prop} {f : α → Program C R β} {Q' : β → S → Prop}
    (runs : always h J (p >>= f) Q' s) (known : always h (fun _ => True) p Q s) :
    ∃ a t, Q a t ∧ always h J (f a) Q' t := by
  obtain ⟨a, t, ran, post⟩ := always_true_iff.mp known
  obtain ⟨-, a', t', ran', after⟩ := always_iff.mp ((always_bind p f).mp runs)
  obtain ⟨rfl, rfl⟩ := Prod.mk.inj (Option.some.inj (ran.symm.trans ran'))
  exact ⟨a, t, post, after⟩

/-- A program whose result is known meets what its result meets. -/
theorem always_iff_of_result {a : α} {t : S}
    (result : always h (fun _ => True) p (fun b u => b = a ∧ u = t) s) :
    always h (fun _ => True) p Q s ↔ Q a t := by
  obtain ⟨_, _, ran, rfl, rfl⟩ := always_true_iff.mp result
  rw [always_true_iff, ran]
  constructor
  · rintro ⟨b, u, same, post⟩
    cases same
    exact post
  · intro post
    exact ⟨_, _, rfl, post⟩

end Programs
