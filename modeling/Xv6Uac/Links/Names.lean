import Xv6Uac.Links.Preservation

/-!
# Names in a directory

`create` and `dirlink` take it that a name is not in a directory when `dirlookup`
returns 0. But `dirlookup` also returns 0 when the process may not search the directory,
and then a second entry with the same name is made (`names_not_unique`). Names stay
unique as long as every call that makes an entry may search the directory in which it
makes it, or finds no such name there (`names_unique`).
-/

namespace Xv6Uac

open Words Hoare SmallImage

variable {cfg : Config} {L : ℕ → ℕ} {s t : Kernel}

namespace Tree

variable {T T' : Tree} {N M : ℕ} {short : ℤ → ℤ} {made gone : ℕ → List UInt8 → Prop}

/-- No directory holds two entries with the same name. -/
def Unique (T : Tree) : Prop :=
  ∀ d n m e e', T.kind d = .dir → T.slot d n = some e → T.slot d m = some e' → e.2 = e'.2 → n = m

/-- A name that is asked for is absent unless it can be seen. -/
def Seen (made : ℕ → List UInt8 → Prop) (T : Tree) : Prop :=
  ∀ d name, made d name → T.kind d = .dir →
    T.search d = true ∨ ∀ n e, T.slot d n = some e → e.2 ≠ name

theorem Unique.freed (unique : T.Unique) (freed : Freed T T') : T'.Unique := by
  intro d n m e e' dir first second
  obtain ⟨kind, -, slots, -⟩ := freed.live (by rw [dir]; decide)
  rw [kind] at dir
  rw [slots] at first second
  exact unique d n m e e' dir first second

theorem Seen.freed (seen : Seen made T) (freed : Freed T T') : Seen made T' := by
  intro d name makes dir
  obtain ⟨kind, -, slots, search⟩ := freed.live (by rw [dir]; decide)
  rw [search, slots]
  exact seen d name makes (kind.symm.trans dir)

/-- A new entry has a new name. -/
theorem Seen.absent (seen : Seen made T) {d n : ℕ} {name : List UInt8}
    (new : NewEntry made N M T d n name) : ∀ m e, T.slot d m = some e → e.2 ≠ name := by
  obtain may | absent := seen d name new.parent new.dir
  · exact new.absent may
  · exact absent

/-- **A change keeps names unique.** -/
theorem Unique.change (unique : T.Unique) (change : Change short made gone N M T T')
    (seen : Seen made T) : T'.Unique := by
  obtain ⟨place, cases⟩ := change.slots
  intro d n m e e' dir first second same
  -- an old entry and the new one have different names
  have apart : ∀ {n m : ℕ} {e e' : ℕ × List UInt8}, T.slot d n = some e →
      NewEntry made N M T d m e'.2 → e.2 ≠ e'.2 := fun old new => seen.absent new _ _ old
  have notFree : ∀ {n : ℕ} {e : ℕ × List UInt8}, T.slot d n = some e ∧ T'.kind d = T.kind d ∨
      place = some (d, n) ∧ NewEntry made N M T d n e.2 → T.kind d ≠ .free := by
    rintro n e (⟨-, kind⟩ | ⟨-, new⟩)
    · rw [← kind, dir]
      decide
    · rw [new.dir]
      decide
  obtain old | ⟨free, -, low⟩ := or_assoc.mpr (cases first)
  · obtain old' | ⟨free, -⟩ := or_assoc.mpr (cases second)
    · obtain ⟨slot, kind⟩ | ⟨here, new⟩ := old
      · obtain ⟨slot', -⟩ | ⟨-, new'⟩ := old'
        · exact unique d n m e e' (kind.symm.trans dir) slot slot' same
        · exact absurd same (apart slot new')
      · obtain ⟨slot', -⟩ | ⟨here', -⟩ := old'
        · exact absurd same.symm (apart slot' new)
        · exact (Prod.mk.inj (Option.some.inj (here.symm.trans here'))).2
    · exact absurd free (notFree old)
  · obtain old' | ⟨-, -, low'⟩ := or_assoc.mpr (cases second)
    · exact absurd free (notFree old')
    · -- the two entries of a new directory have different names
      have other : dot ≠ dotdot := by decide
      obtain ⟨rfl, rfl⟩ | ⟨rfl, name⟩ := low <;> obtain ⟨rfl, rfl⟩ | ⟨rfl, name'⟩ := low'
      · rfl
      · exact absurd (same.trans name') other
      · exact absurd (name.symm.trans same).symm other
      · rfl

theorem Unique.effect (unique : T.Unique) (effect : Effect short made gone N M T T')
    (seen : Seen made T) : T'.Unique := by
  obtain ⟨T₁, T₂, before, change, after⟩ := effect
  exact ((unique.freed before).change change (seen.freed before)).freed after

end Tree

/-- No directory holds two entries with the same name. -/
def UniqueNames (s : Kernel) : Prop :=
  ∀ d n m e e', (s.dinode d).type = .dir → dirSlot s.data (s.dinode d) n = some e →
    dirSlot s.data (s.dinode d) m = some e' → e.2 = e'.2 → n = m

theorem uniqueNames_iff {T : Tree} (same : T.bare = links s) : UniqueNames s ↔ T.Unique := by
  have kind : ∀ d, T.kind d = (s.dinode d).type := fun d => congrFun (congrArg Tree.kind same) d
  have slot : ∀ d, (s.dinode d).type = .dir → ∀ n, T.slot d n = dirSlot s.data (s.dinode d) n :=
    fun d dir n => (congrFun (congrFun (congrArg Tree.slot same) d) n).trans (links_slot dir n)
  constructor
  · intro unique d n m e e' dir first second
    rw [kind] at dir
    rw [slot d dir] at first second
    exact unique d n m e e' dir first second
  · intro unique d n m e e' dir first second
    rw [← slot d dir] at first second
    exact unique d n m e e' ((kind d).trans dir) first second

/-- A call that makes an entry may search the directory, or the name is not there. -/
def Searched (s : Kernel) (call : Call) : Prop :=
  ∀ d name, Makes s call d name → mayExecute s.myproc (s.dinode d) = true ∨
    ∀ n e, dirSlot s.data (s.dinode d) n = some e → e.2 ≠ name

/-- A call keeps names unique. -/
theorem UniqueNames.called {L' : ℕ → ℕ} {call : Call} (unique : UniqueNames s)
    (called : Called cfg L L' call s t) (searched : Searched s call) : UniqueNames t := by
  obtain ⟨T, same, effect⟩ := called.effect
  refine (uniqueNames_iff same).mpr (((uniqueNames_iff rfl).mp unique).effect effect ?_)
  intro d name makes dir
  refine (searched d name makes).imp id fun absent n e slot => absent n e ?_
  rwa [← treeOf_slot dir]

theorem UniqueNames.run {start : Kernel} {trace : List Step} (unique : UniqueNames start)
    (inv : KernelInv cfg L start 0)
    (run : RunOf (fun u call => Whole u call ∧ Searched u call) cfg start trace s) :
    (∃ L', KernelInv cfg L' s 0) ∧ UniqueNames s := by
  induction run with
  | refl => exact ⟨⟨L, inv⟩, unique⟩
  | @tail trace s t taken _ stepped ih =>
    obtain ⟨⟨L', invS⟩, uniqueS⟩ := ih
    obtain ⟨stepped, whole, searched⟩ := stepped
    obtain ⟨L'', called⟩ := invS.step whole stepped
    exact ⟨⟨L'', called.inv⟩, UniqueNames.called (s := s.switch taken.p) uniqueS called searched⟩

namespace SmallImage

/-- The names of a small image can be checked one by one. -/
theorem Formed.uniqueNames {seeds : List Seed} (formed : Formed seeds)
    (check : ∀ d < 10, ∀ n < 32, ∀ e ∈ (tree (imageOf seeds).boot).slot d n, ∀ m < 32,
      ∀ e' ∈ (tree (imageOf seeds).boot).slot d m, e.2 = e'.2 → n = m) :
    UniqueNames (imageOf seeds).boot := by
  refine (uniqueNames_iff rfl).mpr fun d n m e e' _ first second => ?_
  obtain ⟨small, smallN⟩ := formed.within d n (by rw [first]; simp)
  obtain ⟨-, smallM⟩ := formed.within d m (by rw [second]; simp)
  exact check d small n smallN e first m smallM e' second

end SmallImage

end Xv6Uac
