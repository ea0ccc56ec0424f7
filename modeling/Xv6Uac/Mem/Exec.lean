import Xv6Uac.Mem.Calls

/-!
# Exec and the pages

`exec` makes a page directory, fills it and then exchanges it for the old one, which it frees. If
it fails before that, it frees the new one.
-/

namespace Xv6Uac.Memory

open Hoare hiding update
open Function (update update_eq_self update_idem update_of_ne update_self)

variable {L : Layout} {ok : Prop} {G : ℕ → Prop} {D : Owner → Option ℕ} {own own' : Owners}
  {s : Machine} {m : Mem} {o : Owner} {d : ℕ}

/-! ## Loading -/

/-- One `allocuvm` of `exec`: the pages below the size stay the ones that are mapped. -/
theorem Mapped.allocuvm {oldsz newsz : ℕ} (mapped : Mapped own o oldsz) (owned : Owned D own m)
    (dir : D o = some d) (small : newsz < oldsz → oldsz < KERNBASE) :
    wp (Calm ok) (allocuvm L d oldsz newsz) (fun r m' => ∃ own', Owned D own' m' ∧
      Moves (Fresh o USERPAGES) own own' ∧ (r ≠ 0 → Mapped own' o r ∧ r < KERNBASE ∧
        r = max oldsz newsz)) m := by
  refine (owned.allocuvm dir).mono fun r m' after => ?_
  obtain ⟨-, rfl, rfl⟩ | ⟨-, less, rfl, rfl⟩ | ⟨inside, more, own', owned', moves, result⟩ := after
  · exact ⟨own, owned, .refl _ _, fun some => absurd rfl some⟩
  · exact ⟨own, owned, .refl _ _, fun _ => ⟨mapped, small less, by omega⟩⟩
  · have bounded : pages newsz ≤ USERPAGES := by
      simp only [pages, USERPAGES, KERNBASE, PGSIZE] at *
      omega
    refine ⟨own', owned', moves.mono fun a area => ?_, fun notZero => ?_⟩
    · exact .inr (area.mono (Nat.zero_le _) bounded a)
    · obtain ⟨rfl, grown⟩ | ⟨zero, -⟩ := result
      · exact ⟨mapped.grow more moves grown, inside, by omega⟩
      · exact absurd zero notZero

theorem Mapped.loadSegments {sz : ℕ} (phs : List Segment) (mapped : Mapped own o sz)
    (owned : Owned D own m) (dir : D o = some d) (small : sz < KERNBASE) :
    wp (Calm ok) (loadSegments L d phs sz) (fun r m' => ∃ own', Owned D own' m' ∧
      Moves (Fresh o USERPAGES) own own' ∧
      ∀ sz', r = some sz' → Mapped own' o sz' ∧ sz' < KERNBASE) m := by
  induction phs generalizing own m sz with
  | nil =>
    refine ⟨own, owned, .refl _ _, fun sz' same => ?_⟩
    cases same
    exact ⟨mapped, small⟩
  | cons ph phs ih =>
    have bad : ∀ {own' m'}, Owned D own' m' → Moves (Fresh o USERPAGES) own own' →
        wp (Calm ok) (pure none) (fun (r : Option ℕ) m' => ∃ own', Owned D own' m' ∧
          Moves (Fresh o USERPAGES) own own' ∧
          ∀ sz', r = some sz' → Mapped own' o sz' ∧ sz' < KERNBASE) m' :=
      fun owned moves => ⟨_, owned, moves, fun _ none => nomatch none⟩
    refine wp.ite (fun _ => bad owned (.refl _ _)) fun _ => ?_
    refine wp.ite (fun _ => ih mapped owned small) fun _ => ?_
    refine wp.ite (fun _ => bad owned (.refl _ _)) fun _ => ?_
    refine wp.ite (fun _ => bad owned (.refl _ _)) fun _ => ?_
    refine (mapped.allocuvm owned dir fun _ => small).seq fun r m₁ after => ?_
    obtain ⟨own₁, owned₁, moves, result⟩ := after
    refine wp.ite (fun _ => bad owned₁ moves) fun notZero => ?_
    obtain ⟨mapped₁, small₁, -⟩ := result notZero
    refine wp.ite (fun _ => bad owned₁ moves) fun _ => ?_
    refine (owned₁.loaduvm _ dir).seq fun loaded m₂ owned₂ => ?_
    refine wp.ite (fun _ => ?_) fun _ => bad owned₂ moves
    refine (ih mapped₁ owned₂ small₁).mono fun r m' done => ?_
    obtain ⟨own', owned', more, result⟩ := done
    exact ⟨own', owned', moves.trans more, result⟩

theorem pages_mul (n : ℕ) : pages (n * PGSIZE) = n := by
  simp only [pages, PGSIZE]
  omega

theorem Mapped.loadImage (program : Program) (mapped : Mapped own o 0) (owned : Owned D own m)
    (dir : D o = some d) :
    wp (Calm ok) (loadImage L d program) (fun r m' => ∃ own', Owned D own' m' ∧
      Moves (Fresh o USERPAGES) own own' ∧
      ∀ sz, r = some sz → Sized own' o sz ∧ sz < KERNBASE) m := by
  apply (mapped.loadSegments program.segments owned dir (by norm_num)).seq
  rintro r m₁ ⟨own₁, owned₁, moves₁, result⟩
  cases r with
  | none => exact ⟨own₁, owned₁, moves₁, fun _ none => nomatch none⟩
  | some sz =>
    have mapped₁ := (result sz rfl).1
    have rounded : Mapped own₁ o (pages sz * PGSIZE) := by
      constructor
      · rw [pages_mul]
        exact mapped₁.grown
      · rw [pages_mul]
        exact mapped₁.below
    rw [wp_bind]
    have more : pages sz * PGSIZE ≤ pages sz * PGSIZE + 2 * PGSIZE := Nat.le_add_right _ _
    generalize pages sz * PGSIZE + 2 * PGSIZE = newsz at more
    apply (rounded.allocuvm owned₁ dir fun less => by omega).mono
    rintro r m₂ ⟨own₂, owned₂, moves₂, result⟩
    have moves := moves₁.trans moves₂
    refine wp.ite (fun _ => ⟨own₂, owned₂, moves, fun _ none => nomatch none⟩) fun notZero => ?_
    obtain ⟨mapped₂, small₂, -⟩ := result notZero
    rw [wp_bind]
    have user : r / PGSIZE - 2 < USERPAGES := by
      simp only [USERPAGES, KERNBASE, PGSIZE] at *
      omega
    refine (owned₂.clearpteu dir user).mono fun _ m₃ owned₃ => ?_
    refine wp.ite (fun _ => ⟨own₂, owned₃, moves, fun sz' same => ?_⟩)
      fun _ => ⟨own₂, owned₃, moves, fun _ none => nomatch none⟩
    cases same
    exact ⟨⟨mapped₂, by omega⟩, small₂⟩

/-! ## The exchange -/

/-- The places of a page directory, and the free list. -/
def Place.Of (o o' : Owner) (a : Place Owner Holder) : Prop :=
  match a with
  | .free => True
  | .dir q => q = o ∨ q = o'
  | .table q _ => q = o ∨ q = o'
  | .page q _ => q = o ∨ q = o'
  | .other _ => False

/-- The pages of `o` go to `o'` and those of `o'` to the free list. -/
def Place.exchange (o o' : Owner) (a : Place Owner Holder) : Place Owner Holder :=
  (a.rename (Equiv.swap o o')).release o

theorem moves_exchange (o o' : Owner) :
    Moves (Place.Of o o') own (fun f => (own f).map (Place.exchange o o')) := by
  intro f
  dsimp only
  cases own f with
  | none => exact .inl rfl
  | some a =>
    by_cases inside : a.Of o o'
    · refine .inr ⟨a, a.exchange o o', rfl, rfl, inside, ?_⟩
      cases a <;> simp only [Place.exchange, Place.rename, Place.release, Place.Of] at * <;> grind
    · cases a <;> simp only [Option.map_some, Place.exchange, Place.rename, Place.release,
        Place.Of] at * <;> grind

theorem exchange_page {o o' : Owner} (distinct : o ≠ o') {f v : ℕ} :
    (own f).map (Place.exchange o o') = some (.page o' v) ↔ own f = some (.page o v) := by
  cases own f with
  | none => simp
  | some a =>
    cases a <;> simp only [Option.map_some, Place.exchange, Place.rename, Place.release] <;> grind

/-- The new page directory takes the place of the old one. -/
theorem Between.commit {mem : Mem} {sz : ℕ} (between : Between ok G s own)
    (runs : (s.proc s.cur).state = .runnable)
    (owned : Owned (update
        (update s.dirs .new (some d) ∘ Equiv.swap .new (.proc s.cur)) .new none)
      (fun f => (own' f).map (Place.exchange .new (.proc s.cur))) mem)
    (moves : Moves (Place.Of .new (.proc s.cur)) own own') (sized : Sized own' .new sz)
    (small : sz < KERNBASE) :
    Between ok G
      { s with
        mem := mem
        proc := update s.proc s.cur
          { s.proc s.cur with pgdir := some d, sz := sz } }
      (fun f => (own' f).map (Place.exchange .new (.proc s.cur))) := by
  have kept := between.kept
  have dirs : { s with
        mem := mem
        proc := update s.proc s.cur
          { s.proc s.cur with pgdir := some d, sz := sz } }.dirs = update
      (update s.dirs .new (some d) ∘ Equiv.swap .new (.proc s.cur)) .new none := by
    funext o
    cases o with
    | kernel => simp [Machine.dirs, Equiv.swap_apply_of_ne_of_ne]
    | new => simp [Machine.dirs]
    | proc q =>
      obtain rfl | other := eq_or_ne q s.cur
      · simp [Machine.dirs, Proc.Live, runs]
      · simp [other, Equiv.swap_apply_of_ne_of_ne, Machine.dirs]
  refine ⟨?_, fun {q} => ?_⟩
  · rw [dirs]
    refine kept.moveProc owned (moves.trans (moves_exchange _ _)) (fun _ => id)
      (fun q v other => by simp [Place.Of, other]) rfl kept.idle kept.inTable fun _ => .inr
      ⟨small, fun _ => ⟨⟨fun w least most => ?_, fun at_ => ?_⟩, sized.pos⟩⟩
    · exact (sized.grown w least most).imp fun f => (exchange_page (by simp)).mpr
    · exact sized.below ((exchange_page (by simp)).mp at_)
  · obtain rfl | other := eq_or_ne q s.cur
    · simp [runs]
    · simpa [other] using between.quiet

theorem Between.exec (between : Between ok G s own) (runs : (s.proc s.cur).state = .runnable)
    (program : Program) :
    wp (Calm ok) (exec L program) (fun _ t => ∃ own', Between ok G t own') s := by
  have kept := between.kept
  have live : (s.proc s.cur).Live := .inl runs
  refine wp.ite (fun _ => ⟨own, between⟩) fun _ => ?_
  rw [wp_bind, vm, wp_zoom]
  refine (kept.owned.setupkvm (o := .new) rfl).mono fun r mem after => ?_
  cases r with
  | none =>
    exact ⟨own, kept.setMem after, between.quiet⟩
  | some d =>
    obtain ⟨own₁, owned₁, moves₁⟩ := after
    have dir : update s.dirs .new (some d) .new = some d := update_self ..
    have unmapped : Mapped own₁ .new 0 :=
      .of_fresh kept.owned rfl moves₁ fun w _ less => absurd less (Nat.not_lt_zero w)
    rw [wp_bind, vm, wp_zoom]
    apply (unmapped.loadImage program owned₁ dir).mono
    rintro r mem₂ ⟨own₂, owned₂, moves₂, result⟩
    have moves : Moves (Fresh .new USERPAGES) own own₂ :=
      (moves₁.mono (Fresh.mono (Nat.zero_le _))).trans moves₂
    cases r with
    | none =>
      rw [wp_bind, vm, wp_zoom]
      refine (owned₂.freevm dir).mono fun _ mem₃ freed => ?_
      have same : update s.dirs .new none = s.dirs := update_eq_self Owner.new _
      rw [update_idem, kept.owned.release_of_none rfl moves, same] at freed
      exact ⟨own, kept.setMem freed, between.quiet⟩
    | some sz =>
      obtain ⟨sized, small⟩ := result sz rfl
      rw [wp_read, wp_bind, myproc, wp_gets, wp_bind]
      refine wp_pgdir fun old pgdir => ?_
      have pgdir : (s.proc s.cur).pgdir = some old := pgdir
      rw [wp_bind, modifyProc, wp_update, wp_bind, vm, wp_zoom]
      have renamed := owned₂.rename (g := Equiv.swap .new (.proc s.cur)) fun o => by simp
      have dir' : (update s.dirs .new (some d) ∘ Equiv.swap .new (.proc s.cur)) .new =
          some old := by
        simp [Machine.dirs, live, pgdir]
      refine (renamed.freevm dir').mono fun _ mem₃ freed => ?_
      simp only [Option.map_map] at freed
      refine ⟨_, between.commit runs freed ?_ sized small⟩
      apply moves.mono
      rintro a (rfl | area)
      · exact .inl rfl
      · cases area with
        | free => trivial
        | table i => exact .inl rfl
        | page above below => exact .inl rfl

end Xv6Uac.Memory
