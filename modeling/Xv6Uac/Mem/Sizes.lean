import Xv6Uac.Mem.Conservation

/-!
# Sizes and mappings

The size of a process and its page table agree (`Agrees`): a failed `sbrk` changes neither, and
every page below the size is present. So `copyuvm` does not panic.

For `deallocuvm` the size 0 is a result, for `growproc` it is a failure: a process that gives back
exactly its size loses all its pages, but keeps its size. `sizes_agree_iff`: this is the only way
in which they come to differ.
-/

namespace Xv6Uac.Memory

open Hoare

variable {L : Layout} {ok : Prop} {G : ℕ → Prop} {own : Owners} {s t : Machine} {p : ℕ}

/-- The page that a process has at its page `v`. -/
def Machine.mapping (s : Machine) (p v : ℕ) : Option ℕ := s.mem.pte s.dirs (.proc p) v

/-- **Size and mappings agree after a call.** -/
structure Agrees (L : Layout) (s : Machine) (taken : Step) (t : Machine) : Prop where
  failed : ∀ n, taken.call = .sbrk n → taken.ret = -1 →
    (t.proc taken.p).sz = (s.proc taken.p).sz ∧
      ∀ v < USERPAGES, t.mapping taken.p v = s.mapping taken.p v
  below : ∀ p v, (t.proc p).Live → v * PGSIZE < (t.proc p).sz → t.mapping p v ≠ none
  calm : ∀ p reason, (t.proc p).state = .runnable → fork L (t.switch p) = .error reason →
    reason ≠ .pteShouldExist ∧ reason ≠ .pageNotPresent

namespace Between

theorem mapping_eq_some_iff (between : Between ok G s own) {v f : ℕ} (user : v < USERPAGES) :
    s.mapping p v = some f ↔ own f = some (.page (.proc p) v) := by
  rw [← between.kept.owned.page, and_iff_right user, Machine.mapping]

theorem below (between : Between True G s own) {v : ℕ} (live : (s.proc p).Live)
    (less : v * PGSIZE < (s.proc p).sz) : s.mapping p v ≠ none := by
  have small := between.kept.small live
  have user : v < USERPAGES := by
    simp only [USERPAGES, KERNBASE, PGSIZE] at *
    omega
  obtain ⟨f, at_⟩ := (between.kept.sized trivial live).grown v (Nat.zero_le v)
    (mul_lt_iff_lt_pages.mp less)
  rw [(between.mapping_eq_some_iff user).mpr at_]
  exact Option.some_ne_none f

theorem switch (between : Between ok G s own) (p : ℕ) : Between ok G (s.switch p) own :=
  ⟨{ between.kept with }, between.quiet⟩

theorem calm {reason : Stop} (between : Between True G s own) (runs : (s.proc p).state = .runnable)
    (stops : Memory.fork L (s.switch p) = .error reason) :
    reason ≠ .pteShouldExist ∧ reason ≠ .pageNotPresent :=
  ((between.switch p).fork runs).of_error stops trivial

/-- A completed `sbrk`. -/
theorem sbrk {n : BitVec 32} {ret : ℤ} (between : Between ok G s own)
    (runs : (s.proc s.cur).state = .runnable) (returns : sysSbrk L n s = .ok (ret, t)) :
    ∃ own' r, Between (ok ∧ Spares (s.proc s.cur).sz (.sbrk n)) G t own' ∧
      Resized ok s t own own' n r ∧ (ret = -1 → r = -1) := by
  have spec : wp (Calm ok) (sysSbrk L n) (fun ret t => ∃ own' r,
      Between (ok ∧ Spares (s.proc s.cur).sz (.sbrk n)) G t own' ∧
        Resized ok s t own own' n r ∧ (ret = -1 → r = -1)) s := by
    rw [sysSbrk, wp_bind]
    apply (between.growproc runs n).seq
    rintro r t ⟨own', kept, resized⟩
    have result := resized.result
    refine wp.ite (fun _ => ⟨own', r, kept, resized, fun _ => by omega⟩)
      fun _ => ⟨own', r, kept, resized, fun failed => by omega⟩
  exact spec.of_ok returns

/-- **A call that does not ask for the size 0 keeps size and mappings in agreement.** -/
theorem agrees {taken : Step} (between : Between True G s own) (steps : Memory.step L s taken t)
    (spares : Spares (s.proc taken.p).sz taken.call) : Agrees L s taken t := by
  obtain ⟨own', after⟩ := between.step steps
  have after : Between True G t own' := after.weaken fun _ => ⟨trivial, spares⟩
  refine ⟨fun n call failed => ?_, fun p v => after.below, fun p reason => after.calm⟩
  obtain ⟨runs, returns⟩ := steps
  rw [call] at returns spares
  obtain ⟨own₁, r, after₁, resized, fails⟩ := (between.switch taken.p).sbrk runs returns
  refine ⟨resized.size (fails failed), fun v user => Option.ext fun f => ?_⟩
  rw [after₁.mapping_eq_some_iff user, between.mapping_eq_some_iff user]
  exact resized.same (fails failed) trivial spares

/-- **A call that asks for the size 0 breaks the agreement.** -/
theorem spares_of_agrees {taken : Step} (between : Between True G s own)
    (steps : Memory.step L s taken t) (agrees : Agrees L s taken t) :
    Spares (s.proc taken.p).sz taken.call := by
  obtain ⟨runs, returns⟩ := steps
  cases call : taken.call with
  | sbrk n =>
    by_contra breaks
    rw [call] at returns
    obtain ⟨own', r, after, resized, -⟩ := (between.switch taken.p).sbrk runs returns
    obtain ⟨failed, bare⟩ := resized.emptied trivial breaks
    have size : (t.proc taken.p).sz = (s.proc taken.p).sz := resized.size failed
    have pos : 0 < (s.proc taken.p).sz := (between.kept.sized trivial (.inl runs)).pos
    have first : 0 < pages (s.proc taken.p).sz := by
      simp only [pages, PGSIZE]
      omega
    apply agrees.below taken.p 0 (.inl (resized.state.trans runs)) (by omega)
    rw [Option.eq_none_iff_forall_ne_some]
    intro f mapped
    rw [after.mapping_eq_some_iff (by norm_num [USERPAGES, KERNBASE, PGSIZE])] at mapped
    exact bare f 0 le_rfl first mapped
  | _ => trivial

end Between

/-! ## Runs -/

/-- A call that does not ask for the size 0. -/
def SparingStep (L : Layout) (s : Machine) (taken : Step) (t : Machine) : Prop :=
  step L s taken t ∧ Spares (s.proc taken.p).sz taken.call

/-- A call after which size and mappings agree. -/
def AgreeingStep (L : Layout) (s : Machine) (taken : Step) (t : Machine) : Prop :=
  step L s taken t ∧ Agrees L s taken t

theorem Between.of_sparing {s₀ : Machine} {trace : List Step} (boots : Boots L s₀)
    (run : TraceRun.Run (SparingStep L) s₀ trace s) : ∃ own, Between True L.Given s own := by
  let Holds (s : Machine) : Prop := ∃ own, Between True L.Given s own
  have start : Holds s₀ := (boot_between L).of_ok boots
  have steps : ∀ {s t taken}, Holds s → SparingStep L s taken t → Holds t := by
    rintro s t taken ⟨own, between⟩ ⟨steps, spares⟩
    exact (between.step steps).imp fun own' after => after.weaken fun _ => ⟨trivial, spares⟩
  exact run.stateInvariant start steps

/-- **Size and mappings agree after every call if and only if no call asks for the size 0.** -/
theorem sizes_agree_iff {s₀ : Machine} {trace : List Step} (boots : Boots L s₀) :
    TraceRun.Run (AgreeingStep L) s₀ trace s ↔ TraceRun.Run (SparingStep L) s₀ trace s := by
  constructor
  · intro run
    induction run with
    | refl => exact .refl
    | tail _ last sparing =>
      obtain ⟨own, between⟩ := Between.of_sparing boots sparing
      exact .tail sparing ⟨last.1, between.spares_of_agrees last.1 last.2⟩
  · intro run
    induction run with
    | refl => exact .refl
    | tail earlier last agreeing =>
      obtain ⟨own, between⟩ := Between.of_sparing boots earlier
      exact .tail agreeing ⟨last.1, between.agrees last.1 last.2⟩

instance (sz : ℕ) (c : Call) : Decidable (Spares sz c) :=
  match c with
  | .sbrk n => inferInstanceAs (Decidable ¬(n.toInt < 0 ∧ (sz + n.toNat) % 2 ^ 32 = 0))
  | .fork | .exec _ | .exit | .wait | .pipe | .close _ => .isTrue trivial

/-- A call that does not ask for the size 0, computed. -/
def sparingAct (L : Layout) (a : ℕ × Call) (s : Machine) : Option (Step × Machine) :=
  (act L a s).filter fun (taken, _) => Spares (s.proc taken.p).sz taken.call

theorem sparingStep_of_sparingAct (a : ℕ × Call) (s : Machine) (taken : Step) (t : Machine)
    (acts : sparingAct L a s = some (taken, t)) : SparingStep L s taken t := by
  obtain ⟨acts, spares⟩ := Option.filter_eq_some_iff.mp acts
  exact ⟨step_of_act a s taken t acts, of_decide_eq_true spares⟩

/-- The first process grows by two pages, forks and gives back one page. -/
theorem sizes_agree_of_grown : ∃ s₀ trace s, Boots (smallLayout 1 fun _ => false) s₀ ∧
    TraceRun.Run (AgreeingStep (smallLayout 1 fun _ => false)) s₀ trace s ∧
    trace.map Step.ret = [12288, 2, 4096] ∧ (s.proc 0).sz = 8192 := by
  have played : (play (smallLayout 1 fun _ => false) sparingAct [(0, .sbrk (-4096)), (0, .fork),
      (0, .sbrk 8192)]).any (fun (trace, s) =>
        trace.map Step.ret = [12288, 2, 4096] ∧ (s.proc 0).sz = 8192) = true := by
    decide +kernel
  obtain ⟨s₀, trace, s, boots, run, passed⟩ := exists_of_play sparingStep_of_sparingAct played
  exact ⟨s₀, trace, s, boots, (sizes_agree_iff boots).mpr run, of_decide_eq_true passed⟩

/-- A process of one page calls `sbrk(-4096)`. It fails, but the page is gone, and the next `fork`
panics. -/
theorem sbrk_to_zero : ∃ s₀ trace s t, Boots (smallLayout 1 fun _ => false) s₀ ∧
    TraceRun.Run (SparingStep (smallLayout 1 fun _ => false)) s₀ trace s ∧
    step (smallLayout 1 fun _ => false) s ⟨0, .sbrk (-4096), -1⟩ t ∧
    s.mapping 0 0 ≠ none ∧ t.mapping 0 0 = none ∧ (t.proc 0).sz = 4096 ∧
    (t.proc 0).state = .runnable ∧
    fork (smallLayout 1 fun _ => false) (t.switch 0) = .error .pageNotPresent := by
  have played : (play (smallLayout 1 fun _ => false) sparingAct []).any (fun (_, s) =>
      (s.proc 0).state = .runnable ∧ s.mapping 0 0 ≠ none ∧
      (match dispatch (smallLayout 1 fun _ => false) (.sbrk (-4096)) (s.switch 0) with
        | .error _ => false
        | .ok (ret, t) => ret = -1 ∧ t.mapping 0 0 = none ∧ (t.proc 0).sz = 4096 ∧
            (t.proc 0).state = .runnable ∧
            (match fork (smallLayout 1 fun _ => false) (t.switch 0) with
              | .error reason => decide (reason = .pageNotPresent)
              | .ok _ => false) = true) = true) = true := by
    decide +kernel
  obtain ⟨s₀, trace, s, boots, run, passed⟩ := exists_of_play sparingStep_of_sparingAct played
  obtain ⟨runs, mapped, after⟩ := of_decide_eq_true passed
  split at after
  · cases after
  · rename_i ret t returns
    obtain ⟨rfl, gone, size, still, panics⟩ := of_decide_eq_true after
    refine ⟨s₀, trace, s, t, boots, run, ⟨runs, returns⟩, mapped, gone, size, still, ?_⟩
    split at panics
    · rename_i reason stops
      rw [stops, of_decide_eq_true panics]
    · cases panics

end Xv6Uac.Memory
