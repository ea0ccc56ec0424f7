import Mathlib.Data.Nat.Notation

/-!
# Weakest preconditions for programs with state and failure

A program of type `Prog σ ε α` takes a state to a result and a next state, or
fails. `wp E m Q s` says that from `s` the program `m` ends in a result and a
state that satisfy `Q`, or fails with a reason that `E` allows. One rule per
construct (`wp_pure`, `wp_bind`, `wp_ite`, `wp_upto`) reduces a program to its
primitive steps, and `wp.mono` and `wp.seq` replace the program of a callee by
its specification.

`Preserves E I m` is the special case of an invariant. It composes along binds,
branches and counted loops, so that a property kept by the primitive steps is
kept by every program built from them.

`Commutes g m` says that `m` neither uses nor changes the part of the state that `g`
replaces. A specification of `m` from `g s` is then one from `s` (`Commutes.wp`).
-/

namespace Hoare

variable {σ ε α β : Type}

/-- A program over the state `σ` that may fail with an `ε`. -/
abbrev Prog (σ ε α : Type) : Type := StateT σ (Except ε) α

/-- Fail. -/
def fail (reason : ε) : Prog σ ε α := fun _ => .error reason

/-- Read part of the state. -/
def gets (f : σ → α) : Prog σ ε α := fun s => .ok (f s, s)

/-- Change the state. -/
def update (f : σ → σ) : Prog σ ε Unit := fun s => .ok ((), f s)

/-- Run `m` if the condition holds. -/
def when (c : Prop) [Decidable c] (m : Prog σ ε Unit) : Prog σ ε Unit :=
  if c then m else pure ()

/-- `body 0`, …, `body (n - 1)` in this order. -/
def upto : ℕ → (ℕ → Prog σ ε Unit) → Prog σ ε Unit
  | 0, _ => pure ()
  | n + 1, body => do
    upto n body
    body n

/-- Run a program on a part of the state. -/
def zoom {τ : Type} (part : σ → τ) (put : τ → σ → σ) (m : Prog τ ε α) : Prog σ ε α := fun s =>
  (m (part s)).map fun out => (out.1, put out.2 s)

/-- From `s` the program ends in `Q`, or fails with a reason that `E` allows. -/
def wp (E : ε → Prop) (m : Prog σ ε α) (Q : α → σ → Prop) (s : σ) : Prop :=
  match m s with
  | .ok (a, s') => Q a s'
  | .error reason => E reason

/-! ## Rules -/

section Rules

variable {E : ε → Prop} {Q R : α → σ → Prop} {s : σ}

@[simp] theorem wp_pure (a : α) : wp E (pure a) Q s ↔ Q a s := Iff.rfl

@[simp] theorem wp_fail (reason : ε) : wp E (fail reason) Q s ↔ E reason := Iff.rfl

@[simp] theorem wp_gets (f : σ → α) : wp E (gets f) Q s ↔ Q (f s) s := Iff.rfl

@[simp] theorem wp_update (f : σ → σ) (P : Unit → σ → Prop) :
    wp E (update f) P s ↔ P () (f s) := Iff.rfl

@[simp] theorem wp_bind (m : Prog σ ε α) (f : α → Prog σ ε β) (P : β → σ → Prop) :
    wp E (m >>= f) P s ↔ wp E m (fun a => wp E (f a) P) s := by
  simp only [wp, bind, StateT.bind]
  cases m s <;> rfl

theorem wp_read (g : σ → α) (f : α → Prog σ ε β) (P : β → σ → Prop) :
    wp E (gets g >>= f) P s ↔ wp E (f (g s)) P s :=
  wp_bind (gets g) f P

variable {m : Prog σ ε α} {f : α → Prog σ ε β}

/-- What follows a step that ends. -/
theorem bind_of_ok {a : α} {t : σ} (ran : m s = .ok (a, t)) : (m >>= f) s = f a t := by
  simp only [bind, StateT.bind, Except.bind, ran]

theorem wp_zoom {τ : Type} (part : σ → τ) (put : τ → σ → σ) (m : Prog τ ε α) :
    wp E (zoom part put m) Q s ↔ wp E m (fun a t => Q a (put t s)) (part s) := by
  simp only [wp, zoom]
  cases m (part s) <;> rfl

theorem wp_ite (c : Prop) [Decidable c] (m n : Prog σ ε α) :
    wp E (if c then m else n) Q s ↔ (c → wp E m Q s) ∧ (¬c → wp E n Q s) := by
  by_cases h : c <;> simp [h]

theorem wp.ite {c : Prop} [Decidable c] {n : Prog σ ε α} (yes : c → wp E m Q s)
    (no : ¬c → wp E n Q s) : wp E (if c then m else n) Q s :=
  (wp_ite c m n).mpr ⟨yes, no⟩

theorem wp_when (c : Prop) [Decidable c] (m : Prog σ ε Unit) (P : Unit → σ → Prop) :
    wp E (when c m) P s ↔ (c → wp E m P s) ∧ (¬c → P () s) :=
  wp_ite c m (pure ())

/-- A specification of a callee gives any weaker one. -/
theorem wp.mono (spec : wp E m Q s) (weaker : ∀ a s', Q a s' → R a s') : wp E m R s := by
  simp only [wp] at spec ⊢
  cases run : m s with
  | ok result =>
    rw [run] at spec
    exact weaker _ _ spec
  | error reason =>
    rwa [run] at spec

/-- A callee by its specification, and then the rest of the program. -/
theorem wp.seq {P : β → σ → Prop} (spec : wp E m Q s) (rest : ∀ a t, Q a t → wp E (f a) P t) :
    wp E (m >>= f) P s :=
  (wp_bind m f P).mpr (spec.mono rest)

/-- More failures may be allowed. -/
theorem wp.weaken {E' : ε → Prop} (spec : wp E m Q s) (fewer : ∀ reason, E reason → E' reason) :
    wp E' m Q s := by
  simp only [wp] at spec ⊢
  cases run : m s with
  | ok result =>
    rwa [run] at spec
  | error reason =>
    rw [run] at spec
    exact fewer reason spec

/-- What holds of every outcome holds of the outcome of a run. -/
theorem wp.of_ok (spec : wp E m Q s) {a : α} {s' : σ} (run : m s = .ok (a, s')) : Q a s' := by
  simpa [wp, run] using spec

/-- A run fails only for an allowed reason. -/
theorem wp.of_error (spec : wp E m Q s) {reason : ε} (run : m s = .error reason) : E reason := by
  simpa [wp, run] using spec

/-- Without an allowed failure the program ends. -/
theorem wp.exists_ok (spec : wp (fun _ => False) m Q s) : ∃ a s', m s = .ok (a, s') ∧ Q a s' := by
  simp only [wp] at spec
  cases run : m s with
  | ok result =>
    rw [run] at spec
    exact ⟨_, _, rfl, spec⟩
  | error reason =>
    rw [run] at spec
    exact spec.elim

/-- With every failure allowed, `wp` speaks about the runs that end. -/
theorem wp_iff_forall_ok : wp (fun _ => True) m Q s ↔ ∀ a s', m s = .ok (a, s') → Q a s' := by
  constructor
  · intro spec a s' run
    exact spec.of_ok run
  · intro all
    simp only [wp]
    cases run : m s with
    | ok result => exact all _ _ run
    | error reason => trivial

/-- What follows a step whose outcome does not matter. -/
theorem wp_bind_of_forall (m : Prog σ ε α) {P : β → σ → Prop}
    (next : ∀ a t, wp (fun _ => True) (f a) P t) : wp (fun _ => True) (m >>= f) P s :=
  (wp_bind m f P).mpr (wp_iff_forall_ok.mpr fun a t _ => next a t)

/-- Two specifications of one program hold together. The failures of both are allowed, so
those of the first are. -/
theorem wp.and {E' : ε → Prop} (left : wp E m Q s) (right : wp E' m R s) :
    wp E m (fun a s' => Q a s' ∧ R a s') s := by
  simp only [wp] at left right ⊢
  cases run : m s with
  | ok result =>
    rw [run] at left right
    exact ⟨left, right⟩
  | error reason =>
    rwa [run] at left

/-- **The loop rule**: an invariant indexed by the number of rounds done. -/
theorem wp_upto {I : ℕ → σ → Prop} (n : ℕ) {body : ℕ → Prog σ ε Unit} (initially : I 0 s)
    (round : ∀ i, i < n → ∀ t, I i t → wp E (body i) (fun _ => I (i + 1)) t) :
    wp E (upto n body) (fun _ => I n) s := by
  induction n with
  | zero => exact initially
  | succ n ih =>
    refine (ih fun i small => round i (Nat.lt_succ_of_lt small)).seq fun _ t done => ?_
    exact round n (Nat.lt_succ_self n) t done

end Rules

/-! ## Invariants -/

/-- Every run of `m` from a state in `I` ends in `I`, or fails with a reason
that `E` allows. -/
def Preserves (E : ε → Prop) (I : σ → Prop) (m : Prog σ ε α) : Prop :=
  ∀ s, I s → wp E m (fun _ => I) s

namespace Preserves

variable {E : ε → Prop} {I : σ → Prop}

theorem pure (a : α) : Preserves E I (Pure.pure a : Prog σ ε α) := fun _ holds => holds

theorem fail {reason : ε} (allowed : E reason) :
    Preserves E I (Hoare.fail reason : Prog σ ε α) := fun _ _ => allowed

theorem gets (f : σ → α) : Preserves E I (Hoare.gets f : Prog σ ε α) := fun _ holds => holds

theorem update {f : σ → σ} (kept : ∀ s, I s → I (f s)) :
    Preserves E I (Hoare.update f : Prog σ ε Unit) := kept

theorem bind {m : Prog σ ε α} {f : α → Prog σ ε β} (first : Preserves E I m)
    (next : ∀ a, Preserves E I (f a)) : Preserves E I (m >>= f) := fun s holds =>
  (wp_bind m f _).mpr ((first s holds).mono fun a t kept => next a t kept)

theorem ite {c : Prop} [Decidable c] {m n : Prog σ ε α} (yes : c → Preserves E I m)
    (no : ¬c → Preserves E I n) : Preserves E I (if c then m else n) := by
  by_cases h : c
  · rw [if_pos h]
    exact yes h
  · rw [if_neg h]
    exact no h

/-- A program that reads the state first. -/
theorem read {f : σ → α} {next : α → Prog σ ε β} (each : ∀ a, Preserves E I (next a)) :
    Preserves E I (Hoare.gets f >>= next) :=
  bind (gets f) each

/-- An early return. -/
theorem early {c : Prop} [Decidable c] {a : α} {m : Prog σ ε α} (no : ¬c → Preserves E I m) :
    Preserves E I (if c then Pure.pure a else m) :=
  ite (fun _ => Preserves.pure a) no

theorem when {c : Prop} [Decidable c] {m : Prog σ ε Unit} (yes : c → Preserves E I m) :
    Preserves E I (Hoare.when c m) :=
  ite yes fun _ => Preserves.pure ()

theorem upto {n : ℕ} {body : ℕ → Prog σ ε Unit} (round : ∀ i, Preserves E I (body i)) :
    Preserves E I (Hoare.upto n body) := fun _ holds =>
  wp_upto n holds fun i _ t kept => round i t kept

end Preserves

/-- A loop that ends runs each of its rounds to the end. -/
theorem wp_upto_elim {I : σ → Prop} {P : Unit → σ → Prop} {s : σ} {n i : ℕ}
    {body : ℕ → Prog σ ε Unit} (ends : wp (fun _ => False) (upto n body) P s)
    (kept : ∀ i, Preserves (fun _ => True) I (body i)) (holds : I s) (small : i < n) :
    ∃ t, I t ∧ wp (fun _ => False) (body i) (fun _ _ => True) t := by
  induction n generalizing P with
  | zero => omega
  | succ n ih =>
    rw [upto, wp_bind] at ends
    obtain rfl | less := Nat.eq_or_lt_of_le (Nat.le_of_lt_succ small)
    · obtain ⟨_, t, ran, last⟩ := ends.exists_ok
      exact ⟨t, (Preserves.upto kept s holds).of_ok ran, last.mono fun _ _ _ => trivial⟩
    · exact ih ends less

/-! ## Parts of the state that a program does not use -/

/-- `m` does the same after `g` as before it. -/
def Commutes (g : σ → σ) (m : Prog σ ε α) : Prop :=
  ∀ s, m (g s) = (m s).map fun out => (out.1, g out.2)

namespace Commutes

variable {g : σ → σ}

theorem pure (a : α) : Commutes g (Pure.pure a : Prog σ ε α) := fun _ => rfl

theorem fail (reason : ε) : Commutes g (Hoare.fail reason : Prog σ ε α) := fun _ => rfl

theorem update {f : σ → σ} (swaps : ∀ s, f (g s) = g (f s)) :
    Commutes g (Hoare.update f : Prog σ ε Unit) :=
  fun s => congrArg (fun t => Except.ok ((), t)) (swaps s)

theorem bind {m : Prog σ ε α} {f : α → Prog σ ε β} (first : Commutes g m)
    (next : ∀ a, Commutes g (f a)) : Commutes g (m >>= f) := by
  intro s
  change (m (g s)).bind (fun out => f out.1 out.2) = ((m s).bind fun out => f out.1 out.2).map _
  rw [first s]
  cases m s with
  | error reason => rfl
  | ok out => exact next out.1 out.2

/-- A read of a part that `g` may replace, if what follows does not depend on it. -/
theorem gets_bind {f : σ → α} {next : α → Prog σ ε β} (same : ∀ s, next (f (g s)) = next (f s))
    (each : ∀ a, Commutes g (next a)) : Commutes g (Hoare.gets f >>= next) := fun s =>
  (congrFun (same s) (g s)).trans (each (f s) s)

theorem gets {f : σ → α} (same : ∀ s, f (g s) = f s) :
    Commutes g (Hoare.gets f : Prog σ ε α) :=
  fun s => congrArg (fun a => Except.ok (a, g s)) (same s)

theorem ite {c : Prop} [Decidable c] {m n : Prog σ ε α} (yes : Commutes g m)
    (no : Commutes g n) : Commutes g (if c then m else n) := by
  split
  · exact yes
  · exact no

theorem when {c : Prop} [Decidable c] {m : Prog σ ε Unit} (yes : Commutes g m) :
    Commutes g (Hoare.when c m) :=
  ite yes (Commutes.pure ())

protected theorem wp {m : Prog σ ε α} (commutes : Commutes g m) {E : ε → Prop}
    {Q : α → σ → Prop} {s : σ} (spec : wp E m Q (g s)) : wp E m (fun a t => Q a (g t)) s := by
  rw [Hoare.wp, commutes s] at spec
  rw [Hoare.wp]
  generalize m s = out at *
  cases out with
  | error reason => exact spec
  | ok out => exact spec

/-- What `g` leaves stays so. -/
theorem stays {m : Prog σ ε α} (commutes : Commutes g m) {s : σ} (fixed : g s = s) :
    Hoare.wp (fun _ => True) m (fun _ t => g t = t) s := by
  refine wp_iff_forall_ok.mpr fun a t run => ?_
  have same := commutes s
  rw [fixed, run] at same
  exact (congrArg Prod.snd (Except.ok.inj same)).symm

end Commutes

-- a loop with a large literal bound is not unfolded while unifying
attribute [irreducible] upto

end Hoare
