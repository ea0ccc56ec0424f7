import Xv6Uac.Mem.Kept

/-!
# The calls keep the pages

Every call keeps where the pages are, also if `kalloc` fails in the middle of it. The pages
that a process has mapped stay those below its size, except for an `sbrk` that asks for a
size of 0 (`Spares`).
-/

namespace Xv6Uac.Memory

open Hoare hiding update
open Function (update update_apply update_eq_self update_eq_self_iff update_idem update_of_ne
  update_self)

variable {L : Layout} {ok : Prop} {G : ℕ → Prop} {D D' : Owner → Option ℕ} {own own' : Owners}
  {s t : Machine} {p f i : ℕ}

/-- The pages between two calls: no process is being made. -/
structure Between (ok : Prop) (G : ℕ → Prop) (s : Machine) (own : Owners) : Prop where
  kept : Kept ok G s.dirs own s
  quiet : ∀ {p}, (s.proc p).state ≠ .embryo

variable {proc : Proc} {ok' : Prop}

/-- A process changes, and with it its address space. -/
theorem dirs_update :
    { s with proc := update s.proc p proc }.dirs =
      update s.dirs (.proc p) (if proc.Live then proc.pgdir else none) := by
  funext o
  cases o with
  | kernel => rfl
  | new => rfl
  | proc q =>
    obtain rfl | other := eq_or_ne q p
    · simp [Machine.dirs]
    · simp [Machine.dirs, other]

/-- The page directories are those of the processes, but `np` is still being made. -/
theorem dirs_update_dead (dead : ¬(s.proc p).Live) (dead' : ¬proc.Live) :
    { s with proc := update s.proc p proc }.dirs = s.dirs := by
  rw [dirs_update, if_neg dead', update_eq_self_iff, Machine.dirs, if_neg dead]

namespace Kept

/-! ## Kernel stacks -/

/-- A page becomes the kernel stack of a process, or is it no more. -/
theorem setStack {mem : Mem} {a b : Place Owner Holder} {k : Option ℕ} (kept : Kept ok G D own s)
    (at_ : own f = some a) (owned : Owned D (update own f (some b)) mem)
    (source : a = .free ∨ a = .other (.kstack p)) (target : b = .free ∨ b = .other (.kstack p))
    (stack : ∀ g, update own f (some b) g = some (.other (.kstack p)) ↔ k = some g)
    (idle : (s.proc p).state = .unused → k = none) :
    Kept ok G D (update own f (some b))
      { s with
        mem := mem
        proc := update s.proc p { s.proc p with kstack := k } } := by
  have apart : ∀ {g c}, c ≠ .free → c ≠ .other (.kstack p) →
      (update own f (some b) g = some c ↔ own g = some c) := by
    intro g c notFree notStack
    refine update_iff at_ ?_ ?_
    · rintro rfl
      exact source.elim notFree notStack
    · rintro rfl
      exact target.elim notFree notStack
  have fields : ∀ q, (update s.proc p { s.proc p with kstack := k } q).state =
      (s.proc q).state ∧
      (update s.proc p { s.proc p with kstack := k } q).sz = (s.proc q).sz := by
    intro q
    obtain rfl | other := eq_or_ne q p
    · simp
    · simp [other]
  refine ⟨fun {g} => ?_, owned, fun {q g} => ?_, (apart (by simp) (by simp)).trans kept.cpu,
    fun held => kept.hand ((apart (by simp) (by simp)).mp held), ?_, fun {q} unused => ?_,
    fun {q} => ?_, fun {q} live => ?_, fun holds {q} live => ?_⟩
  · rw [← kept.given, update_apply]
    grind
  · obtain rfl | other := eq_or_ne q p
    · simpa using stack g
    · rw [apart (by simp) (by simpa using other)]
      simpa [other] using kept.kstack
  · simp only [apart (c := .other .pipe) (by simp) (by simp)]
    exact kept.filed
  · dsimp only at unused ⊢
    rw [(fields q).1] at unused
    obtain rfl | other := eq_or_ne q p
    · simpa using idle unused
    · simpa [other] using kept.idle unused
  · dsimp only
    rw [(fields q).1]
    exact kept.inTable
  · dsimp only at live ⊢
    rw [Proc.Live, (fields q).1] at live
    rw [(fields q).2]
    exact kept.small live
  · dsimp only at live ⊢
    rw [Proc.Live, (fields q).1] at live
    rw [(fields q).2]
    have old := kept.sized holds live
    exact ⟨old.congr (apart (by simp) (by simp)), old.pos⟩

/-- A kernel stack is given back. -/
theorem freeKstack (kept : Kept ok G D own s) (p : ℕ) :
    wp (Calm ok) (freeKstack L p) (fun _ t => ∃ own' mem, Kept ok G D own' t ∧
      t = { s with
        mem := mem
        proc := update s.proc p { s.proc p with kstack := none } }) s := by
  rw [Memory.freeKstack, wp_read]
  split
  · exact fun _ => by decide
  · rename_i f stack
    have held : own f = some (.other (.kstack p)) := kept.kstack.mpr stack
    rw [wp_bind, vm, wp_zoom]
    refine (kept.owned.kfree (f := f) fun a at_ => ⟨.kstack p, ?_⟩).mono fun _ mem after => ?_
    · rw [held] at at_
      exact (Option.some.inj at_).symm
    refine ⟨_, mem, kept.setStack held after.1 (.inr rfl) (.inl rfl) (fun g => ?_) fun _ => rfl, rfl⟩
    have old := kept.kstack (p := p) (f := g)
    rw [update_apply]
    grind

end Kept

/-! ## Fork -/

/-- A slot for a new process. -/
theorem Between.allocproc (between : Between ok G s own) :
    wp (Calm ok) (allocproc L) (fun r t => match r with
      | none => ∃ own', Between ok G t own'
      | some np => ∃ own', Kept ok G s.dirs own' t ∧ (t.proc np).state = .embryo ∧
          (s.proc np).state = .unused ∧ (∀ q, q ≠ np → t.proc q = s.proc q) ∧ t.cur = s.cur ∧
          t.dirs = s.dirs) s := by
  have kept := between.kept
  rw [Memory.allocproc, wp_read]
  split
  · exact ⟨own, between⟩
  · rename_i p found
    have small := List.mem_range.mp (List.mem_of_find?_eq_some found)
    have unused := List.find?_some found
    have unused : (s.proc p).state = .unused := of_decide_eq_true unused
    have dead : ¬(s.proc p).Live := by simp [Proc.Live, unused]
    rw [wp_read, wp_bind, wp_update, wp_bind]
    have kept₁ : Kept ok G s.dirs own { s with nextpid := s.nextpid + 1 } :=
      ⟨kept.given, kept.owned, kept.kstack, kept.cpu, kept.hand, kept.filed, kept.idle,
        kept.inTable, kept.small, kept.sized⟩
    apply (kept₁.modifyProc p rfl (fun none => by cases none) (fun _ => small)
      fun live => by cases live <;> contradiction).mono
    rintro _ s₂ ⟨kept₂, rfl⟩
    have bare : (s.proc p).kstack = none := kept.idle unused
    rw [wp_bind, vm, wp_zoom]
    apply (kept₂.owned.kalloc (.kstack p)).mono
    rintro r mem ⟨-, after⟩
    rw [wp_bind]
    cases r with
    | none =>
      apply ((kept₂.setMem after).modifyProc p (by simp [bare]) (by simp) (fun _ => small)
        (by simp [Proc.Live])).mono
      rintro _ s₄ ⟨kept₄, rfl⟩
      apply (kept₄.modifyProc p rfl (by simp) (by simp) (by simp [Proc.Live])).seq
      rintro _ t ⟨kept₅, rfl⟩
      refine ⟨own, ?_, fun {q} => ?_⟩
      · convert kept₅ using 1
        simp only [update_idem]
        exact dirs_update_dead dead (by simp [Proc.Live])
      · obtain rfl | other := eq_or_ne q p
        · simp
        · simpa [other] using between.quiet
    | some f =>
      obtain ⟨free, taken⟩ := after
      have stacked := kept₂.setStack (k := some f) free taken (.inl rfl) (.inr rfl) (fun g => ?_)
        (by simp)
      · refine ⟨_, stacked, by simp, unused, fun q other => by simp [other], rfl, ?_⟩
        simp only [update_idem]
        exact dirs_update_dead dead (by simp [Proc.Live])
      · have old := kept.kstack (p := p) (f := g)
        grind

theorem wp_pgdir {Q : ℕ → Machine → Prop} (each : ∀ d, proc.pgdir = some d → Q d s) :
    wp (Calm ok) (pgdir proc) Q s := by
  rw [pgdir]
  split
  · exact fun _ => by decide
  · rename_i d found
    exact each d found

/-- The loop over the descriptors. -/
theorem Kept.forkFiles (kept : Kept ok G D own s) (np : ℕ) :
    wp (Calm ok) (upto NOFILE (forkFile np)) (fun _ t => Kept ok G D own t ∧ Frame s t) s := by
  have start : Kept ok G D own s ∧ Frame s s := ⟨kept, .refl s⟩
  have round : ∀ fd, fd < NOFILE → ∀ t, Kept ok G D own t ∧ Frame s t →
      wp (Calm ok) (forkFile np fd) (fun _ u => Kept ok G D own u ∧ Frame s u) t := by
    rintro fd - t ⟨kept, frame⟩
    rw [forkFile, wp_bind, myproc, wp_gets]
    split
    · exact ⟨kept, frame⟩
    · refine (kept.filedup _).seq fun _ u after => ?_
      refine (after.1.setOfile _ _ _).mono fun _ v done => ?_
      exact ⟨done.1, (frame.trans after.2).trans done.2⟩
  exact wp_upto (I := fun _ t => Kept ok G D own t ∧ Frame s t) NOFILE start round

theorem Between.fork (between : Between ok G s own) (runs : (s.proc s.cur).state = .runnable) :
    wp (Calm ok) (fork L) (fun _ t => ∃ own', Between ok G t own') s := by
  refine between.allocproc.seq fun r s₁ after => ?_
  cases r with
  | none => exact after
  | some np =>
    obtain ⟨own₁, kept₁, embryo, unused, others, cur, dirs⟩ := after
    have distinct : s.cur ≠ np := by
      intro same
      rw [← same, runs] at unused
      cases unused
    have same : s₁.proc s₁.cur = s.proc s.cur := by rw [cur, others _ distinct]
    have live : (s₁.proc s₁.cur).Live := by
      rw [same]
      exact .inl runs
    have small := kept₁.small live
    have dead : ¬(s.proc np).Live := by simp [Proc.Live, unused]
    have dead₁ : ¬(s₁.proc np).Live := by simp [Proc.Live, embryo]
    have used : np < NPROC := kept₁.inTable (by simp [embryo])
    have fresh : s.dirs (.proc np) = none := by simp [Machine.dirs, dead]
    rw [wp_read, wp_bind, myproc, wp_gets, wp_bind]
    refine wp_pgdir fun old found => ?_
    have source : s.dirs (.proc s₁.cur) = some old := by
      rw [← dirs, ← found]
      simp [Machine.dirs, live]
    rw [wp_bind, vm, wp_zoom]
    refine (kept₁.owned.copyuvm fresh source small.le
      fun holds => (kept₁.sized holds live).grown).mono fun r mem after => ?_
    rw [wp_bind]
    cases r with
    | none =>
      apply ((kept₁.setMem after).modifyProc np rfl kept₁.idle kept₁.inTable
        fun live => absurd live dead₁).mono
      rintro _ s₃ ⟨kept₃, rfl⟩
      apply (kept₃.freeKstack np).seq
      rintro _ s₄ ⟨own₄, mem₄, kept₄, rfl⟩
      apply (kept₄.modifyProc np rfl (by simp) (by simp) (by simp [Proc.Live])).seq
      rintro _ t ⟨kept₅, rfl⟩
      refine ⟨own₄, ?_, fun {q} => ?_⟩
      · convert kept₅ using 1
        simp only [update_idem]
        exact (dirs_update_dead dead₁ (by simp [Proc.Live])).trans dirs
      · obtain rfl | other := eq_or_ne q np
        · simp
        · simpa [other, others q other] using between.quiet
    | some new =>
      obtain ⟨own₂, owned₂, moves, grown⟩ := after
      have kept₂ := kept₁.moveMem owned₂ moves Fresh.not_other ?_
      · apply (kept₂.modifyProc np rfl kept₁.idle kept₁.inTable
          fun live => absurd live dead₁).mono
        rintro _ s₃ ⟨kept₃, rfl⟩
        apply (kept₃.modifyProc np rfl (by simp [embryo]) (fun _ => used)
          (by simp [Proc.Live, embryo])).seq
        rintro _ s₄ ⟨kept₄, rfl⟩
        apply (kept₄.forkFiles np).seq
        rintro _ s₅ ⟨kept₅, frame⟩
        obtain ⟨ofile, child⟩ := frame.proc np
        rw [wp_bind]
        have size : (s₅.proc np).sz = (s₁.proc s₁.cur).sz := by simp [child]
        refine (kept₅.modifyProc np rfl (by simp) (fun _ => used) fun _ => .inr ⟨?_, ?_⟩).mono
          fun _ t after => ?_
        · exact size ▸ small
        · intro holds
          have parent := kept₁.sized holds live
          rw [size]
          exact ⟨.of_fresh kept₁.owned fresh moves grown, parent.pos⟩
        · obtain ⟨kept₆, rfl⟩ := after
          refine ⟨own₂, ?_, fun {q} => ?_⟩
          · convert kept₆ using 1
            rw [dirs_update, frame.dirs]
            simp only [update_idem, child, update_self]
            apply congrArg
              (fun D : Owner → Option ℕ => update D (.proc np) (some new))
            exact (dirs_update_dead dead₁ (by simp [Proc.Live, embryo])).trans dirs
          · obtain rfl | other := eq_or_ne q np
            · simp
            · simpa [other, frame.state, others q other] using between.quiet
      · intro q lives v made
        obtain ⟨⟨⟩, -⟩ := Fresh.page_iff.mp made
        exact dead₁ lives

/-! ## Exit and wait -/

theorem Stays.exitFile (fd : ℕ) : Preserves (Calm ok) (Stays ok G D s) (exitFile L fd) := by
  refine .read fun cur => .read fun p => ?_
  split
  · exact .pure _
  · exact .bind (fileclose _) fun _ => setOfile _ _ _

theorem Between.exit (between : Between ok G s own) (runs : (s.proc s.cur).state = .runnable) :
    wp (Calm ok) (exit L) (fun _ t => ∃ own', Between ok G t own') s := by
  refine wp.ite (fun _ _ => by decide) fun _ => ?_
  refine (Preserves.upto Stays.exitFile s ⟨own, between.kept, .refl s⟩).seq fun _ s₁ after => ?_
  obtain ⟨own₁, kept₁, frame⟩ := after
  have runs₁ : (s₁.proc s.cur).state = .runnable := (frame.state _).trans runs
  rw [wp_bind, wp_update, wp_bind]
  -- only parents change, and the process becomes a zombie
  have kept₂ : Kept ok G s.dirs own₁ { s₁ with
      proc := fun q =>
        if (s₁.proc q).parent = some s.cur then { s₁.proc q with parent := some s.initproc }
        else s₁.proc q } := by
    refine kept₁.move (P := fun _ => False) kept₁.owned (.refl _ _) (fun _ => id) (fun q => ?_)
      (fun q => ?_) (fun q => ?_) fun q => ?_
    · split <;> rfl
    · split <;> exact kept₁.idle
    · split <;> exact kept₁.inTable
    · split <;> exact fun live => .inl ⟨live, rfl, fun _ => id⟩
  refine (kept₂.modifyProc s.cur ?_ (by simp) ?_ ?_).mono fun _ t after => ?_
  · rfl
  · exact fun _ => between.kept.inTable (by simp [runs])
  · refine fun _ => .inl ⟨?_, rfl⟩
    dsimp only
    split <;> exact .inl runs₁
  · obtain ⟨kept₃, rfl⟩ := after
    refine ⟨own₁, ?_, fun {q} => ?_⟩
    · convert kept₃ using 1
      rw [dirs_update, ← frame.dirs]
      funext o
      cases o with
      | kernel => rfl
      | new => rfl
      | proc q =>
        obtain rfl | other := eq_or_ne q s.cur
        · have live : (s₁.proc s.cur).Live := .inl runs₁
          simp only [update_self, Machine.dirs]
          split <;> rfl
        · rw [update_of_ne (by simpa using other)]
          simp only [Machine.dirs]
          split <;> rfl
    · obtain rfl | other := eq_or_ne q s.cur
      · simp
      · simp only [update_of_ne other]
        have quiet := between.quiet (p := q)
        rw [← frame.state] at quiet
        split <;> exact quiet

theorem moves_release {o : Owner} :
    Moves (fun a => a.release o = .free) own (fun f => (own f).map (Place.release o)) := by
  intro f
  dsimp only
  cases own f with
  | none => exact .inl rfl
  | some a =>
    by_cases freed : a.release o = .free
    · exact .inr ⟨a, .free, rfl, by rw [Option.map_some, freed], freed, rfl⟩
    · cases a <;> simp_all [Place.release]

theorem Between.wait (between : Between ok G s own) :
    wp (Calm ok) (wait L) (fun _ t => ∃ own', Between ok G t own') s := by
  have kept := between.kept
  rw [Memory.wait, wp_read, wp_read, wp_read]
  split
  · rename_i q found
    have dead := List.find?_some found
    have dead : (s.proc q).state = .zombie := (of_decide_eq_true dead).2
    rw [wp_read]
    apply (kept.freeKstack q).seq
    rintro _ s₁ ⟨own₁, mem₁, kept₁, rfl⟩
    rw [wp_bind]
    refine wp_pgdir fun d pgdir => ?_
    have live : (s.proc q).Live := .inr dead
    have dir : s.dirs (.proc q) = some d := by simp [Machine.dirs, live, pgdir]
    rw [wp_bind, vm, wp_zoom]
    refine (kept₁.owned.freevm dir).mono fun _ mem freed => ?_
    refine ⟨fun f => (own₁ f).map (Place.release (.proc q)), ?_, fun {r} => ?_⟩
    · convert kept₁.moveProc (p := q) freed moves_release (by simp [Place.release])
        (fun r v other => by simp [Place.release, other]) ?_ ?_ ?_ ?_ using 1
      · simp only [update_idem]
        exact dirs_update.trans (by rw [if_neg (by simp [Proc.Live])])
      · rfl
      · simp
      · simp
      · simp [Proc.Live]
    · obtain rfl | other := eq_or_ne r q
      · simp
      · simpa [other] using between.quiet
  · exact wp.ite (fun _ => ⟨own, between⟩) fun _ _ => by decide

/-! ## Sbrk -/

/-- The call does not ask for a size of exactly 0. -/
def Spares (sz : ℕ) : Call → Prop
  | .sbrk n => ¬(n.toInt < 0 ∧ (sz + n.toNat) % 2 ^ 32 = 0)
  | _ => True

/-- The size of a process and its pages change. -/
theorem Between.resize {mem : Mem} {lo hi sz : ℕ} (between : Between ok G s own)
    (live : (s.proc p).Live) (owned : Owned s.dirs own' mem)
    (moves : Moves (Area (.proc p) lo hi) own own') (less : ok' → ok) (small : sz < KERNBASE)
    (sized : ok' → Sized own' (.proc p) sz) :
    Between ok' G
      { s with
        mem := mem
        proc := update s.proc p { s.proc p with sz := sz } } own' := by
  have kept : Kept ok' G s.dirs own s :=
    { between.kept with sized := fun holds => between.kept.sized (less holds) }
  have dirs : { s with mem := mem, proc := update s.proc p { s.proc p with sz := sz } }.dirs =
      s.dirs :=
    dirs_update.trans (update_eq_self_iff.mpr ((if_pos live).trans (if_pos live).symm))
  constructor
  · rw [dirs]
    refine kept.moveProc owned moves (by rintro x ⟨⟩) (fun q v other => ?_) rfl kept.idle
      kept.inTable fun _ => .inr ⟨small, sized⟩
    rintro ⟨⟩
    exact other rfl
  · intro q
    obtain rfl | other := eq_or_ne q p
    · simpa using between.quiet
    · simpa [other] using between.quiet

/-- The pages change, and the size does not. -/
theorem Between.repage {mem : Mem} {lo hi : ℕ} (between : Between ok G s own)
    (live : (s.proc p).Live) (owned : Owned s.dirs own' mem)
    (moves : Moves (Area (.proc p) lo hi) own own') (less : ok' → ok)
    (sized : ok' → Sized own' (.proc p) (s.proc p).sz) :
    Between ok' G { s with mem := mem } own' := by
  have same := between.resize live owned moves less (between.kept.small live) sized
  rwa [update_eq_self] at same

theorem Between.weaken (between : Between ok G s own) (less : ok' → ok) : Between ok' G s own :=
  ⟨{ between.kept with sized := fun holds => between.kept.sized (less holds) }, between.quiet⟩

/-- What `growproc` does when it fails: nothing, but if it is asked for a size of 0, it has removed
all pages before it fails. -/
structure Resized (ok : Prop) (s t : Machine) (own own' : Owners) (n : BitVec 32) (r : ℤ) :
    Prop where
  result : r = -1 ∨ r = 0
  state : (t.proc s.cur).state = (s.proc s.cur).state
  size : r = -1 → (t.proc s.cur).sz = (s.proc s.cur).sz
  same : r = -1 → ok → Spares (s.proc s.cur).sz (.sbrk n) →
    ∀ {f v}, own' f = some (.page (.proc s.cur) v) ↔ own f = some (.page (.proc s.cur) v)
  emptied : ok → ¬Spares (s.proc s.cur).sz (.sbrk n) →
    r = -1 ∧ Bare own' (.proc s.cur) 0 (pages (s.proc s.cur).sz)

/-- It has succeeded. -/
theorem Resized.of_zero {n : BitVec 32} (state : (t.proc s.cur).state = (s.proc s.cur).state)
    (spares : ok → Spares (s.proc s.cur).sz (.sbrk n)) :
    Resized ok s t own own' n 0 :=
  ⟨.inr rfl, state, (fun failed => nomatch failed), (fun failed => nomatch failed),
    fun holds breaks => absurd (spares holds) breaks⟩

/-- It has failed and changed nothing. -/
theorem Resized.of_same {n : BitVec 32} (pos : 0 < n.toInt)
    (state : (t.proc s.cur).state = (s.proc s.cur).state)
    (size : (t.proc s.cur).sz = (s.proc s.cur).sz)
    (same : ok → ∀ {f v}, own' f = some (.page (.proc s.cur) v) ↔
      own f = some (.page (.proc s.cur) v)) : Resized ok s t own own' n (-1) :=
  ⟨.inl rfl, state, fun _ => size, fun _ holds _ => same holds,
    fun _ breaks => absurd (fun asked => by omega) breaks⟩

/-- **`growproc` changes the size and the pages together**, unless it is asked to remove all
pages. -/
theorem Between.growproc (between : Between ok G s own)
    (runs : (s.proc s.cur).state = .runnable) (n : BitVec 32) :
    wp (Calm ok) (growproc L n) (fun r t =>
      ∃ own', Between (ok ∧ Spares (s.proc s.cur).sz (.sbrk n)) G t own' ∧
        Resized ok s t own own' n r) s := by
  have kept := between.kept
  have live : (s.proc s.cur).Live := .inl runs
  have small := kept.small live
  rw [Memory.growproc, wp_read, wp_bind, myproc, wp_gets, wp_bind]
  refine wp_pgdir fun d pgdir => ?_
  have dir : s.dirs (.proc s.cur) = some d := by simp [Machine.dirs, live, pgdir]
  refine wp.ite (fun pos => ?_) fun notPos => ?_
  · rw [wp_bind, vm, wp_zoom]
    refine (kept.owned.allocuvm dir).mono fun r mem after => ?_
    rw [wp_ite]
    obtain ⟨-, rfl, rfl⟩ | ⟨-, less, rfl, rfl⟩ | ⟨inside, more, own', owned, moves, result⟩ := after
    · exact ⟨fun _ => ⟨own, between.weaken And.left, .of_same pos rfl rfl fun _ => .rfl⟩,
        fun some => absurd rfl some⟩
    · refine ⟨fun zero => by omega, fun _ => ?_⟩
      refine ⟨own, ?_, .of_zero (by simp) fun _ asked => by omega⟩
      exact between.resize live kept.owned (.refl (Area _ 0 0) _) And.left small
        fun holds => kept.sized holds.1 live
    · refine ⟨fun zero => ?_, fun notZero => ?_⟩
      · -- the pages that were added are removed again
        have same : ok → ∀ {f v}, own' f = some (.page (.proc s.cur) v) ↔
            own f = some (.page (.proc s.cur) v) := by
          intro holds f v
          have before := kept.sized holds live
          obtain ⟨same, -⟩ | ⟨-, bare⟩ := result
          · have := before.pos
            omega
          · by_cases added : pages (s.proc s.cur).sz ≤ v ∧
                v < pages (((s.proc s.cur).sz + n.toNat) % 2 ^ 32)
            · refine iff_of_false (bare f v added.1 added.2) fun at_ => ?_
              exact absurd (before.below at_) (Nat.not_lt.mpr added.1)
            · exact moves.keeps (by rintro ⟨⟩; exact added ⟨by assumption, by assumption⟩)
        refine ⟨own', ?_, .of_same pos rfl rfl same⟩
        refine between.repage live owned moves And.left fun holds => ?_
        have before := kept.sized holds.1 live
        exact ⟨before.congr (same holds.1), before.pos⟩
      · obtain ⟨rfl, grown⟩ | ⟨zero, -⟩ := result
        · refine ⟨own', ?_, .of_zero (by simp) fun _ asked => by omega⟩
          refine between.resize live owned moves And.left inside fun holds => ?_
          exact ⟨(kept.sized holds.1 live).toMapped.grow more moves grown, by omega⟩
        · exact absurd zero notZero
  · refine wp.ite (fun neg => ?_) fun _ => ?_
    · rw [wp_bind, vm, wp_zoom]
      apply (kept.owned.deallocuvm dir small.le).mono
      rintro r mem ⟨rfl, own', owned, moves, bare⟩
      refine wp.ite (fun zero => ?_) fun notZero => ?_
      · have asks : ok → (((s.proc s.cur).sz + n.toNat) % 2 ^ 32) = 0 := by
          intro holds
          have := (kept.sized holds live).pos
          omega
        refine ⟨own', ?_, .inl rfl, rfl, fun _ => rfl, fun _ holds spares => ?_, fun holds _ => ⟨rfl, ?_⟩⟩
        · refine between.repage live owned moves And.left fun holds => ?_
          exact absurd ⟨neg, asks holds.1⟩ holds.2
        · exact absurd ⟨neg, asks holds⟩ spares
        · rwa [asks holds] at bare
      · refine ⟨own', ?_, .of_zero (by simp) fun _ asked => by omega⟩
        refine between.resize live owned moves And.left (by omega) fun holds => ?_
        have before := (kept.sized holds.1 live).toMapped
        refine ⟨?_, by omega⟩
        by_cases less : ((s.proc s.cur).sz + n.toNat) % 2 ^ 32 < (s.proc s.cur).sz
        · rw [Nat.min_eq_right less.le]
          exact before.shrink moves less.le bare
        · rw [Nat.min_eq_left (by omega)]
          refine before.congr fun {f v} => moves.keeps ?_
          rintro ⟨⟩
          rename_i above below
          simp only [pages, PGSIZE] at above below
          omega
    · exact ⟨own, between.weaken And.left, .of_zero rfl fun _ asked => by omega⟩

end Xv6Uac.Memory
