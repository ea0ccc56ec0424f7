import Xv6Uac.Mem.Exec

/-!
# Pages are conserved

After booting and after every call, each page that was given to the allocator is in exactly one
place (`pages_conserved`). Besides the places of processes and pipes there are the stacks of the
schedulers of the other CPUs, which `startothers` takes and never gives back.
-/

namespace Xv6Uac.Memory

open Hoare hiding update
open Function (update update_apply update_of_ne update_self)

variable {L : Layout} {ok : Prop} {G : ℕ → Prop} {D : Owner → Option ℕ} {own : Owners}
  {s t : Machine} {f : ℕ}

/-! ## Calls -/

theorem Between.of_stays (between : Between ok G s own) (stays : Stays ok G s.dirs s t) :
    ∃ own', Between ok G t own' := by
  obtain ⟨own', kept, frame⟩ := stays
  refine ⟨own', frame.dirs ▸ kept, fun {p} => ?_⟩
  rw [frame.state]
  exact between.quiet

/-- **Every call keeps the pages.** -/
theorem Between.dispatch (between : Between ok G s own)
    (runs : (s.proc s.cur).state = .runnable) (c : Call) :
    wp (Calm ok) (dispatch L c) (fun _ t =>
      ∃ own', Between (ok ∧ Spares (s.proc s.cur).sz c) G t own') s := by
  have whole : ∀ {m : M ℤ}, wp (Calm ok) m (fun _ t => ∃ own', Between ok G t own') s →
      wp (Calm ok) m (fun _ t => ∃ own', Between (ok ∧ Spares (s.proc s.cur).sz c) G t own') s :=
    fun spec => spec.mono fun _ _ after => after.imp fun _ kept => kept.weaken And.left
  cases c with
  | fork => exact whole (between.fork runs)
  | exec program => exact whole (between.exec runs program)
  | sbrk n =>
    rw [Memory.dispatch, sysSbrk, wp_bind]
    refine (between.growproc runs n).seq fun r t after => ?_
    have kept := after.imp fun _ done => done.1
    exact wp.ite (fun _ => kept) fun _ => kept
  | exit => exact whole (between.exit runs)
  | wait => exact whole between.wait
  | pipe =>
    exact whole ((Stays.sysPipe s ⟨own, between.kept, .refl s⟩).mono fun _ _ => between.of_stays)
  | close fd =>
    exact whole ((Stays.sysClose fd s ⟨own, between.kept, .refl s⟩).mono
      fun _ _ => between.of_stays)

/-! ## Boot -/

/-- The frames that `main` gives to the allocator. -/
def Layout.Given (L : Layout) (f : ℕ) : Prop :=
  L.first ≤ f ∧ f < L.mid ∨ L.mid ≤ f ∧ f < L.last

section

variable (kept : Kept ok G D own s)
include kept

/-- A frame is given to the allocator. -/
theorem Kept.give (fresh : ¬G f) :
    wp (Calm ok) (kfree L f) (fun _ mem => Kept ok (fun g => G g ∨ g = f) D
      (update own f (some .free)) { s with mem := mem }) s.mem := by
  have unknown : own f = none := by
    by_contra some
    exact fresh (kept.given.mp some)
  have apart : ∀ {g c}, c ≠ .free →
      (update own f (some .free) g = some c ↔ own g = some c) := by
    intro g c notFree
    grind
  refine (kept.owned.kfree fun a at_ => ?_).mono fun _ mem after => ?_
  · rw [unknown] at at_
    cases at_
  refine ⟨?_, after.1, (apart (by simp)).trans kept.kstack, (apart (by simp)).trans kept.cpu,
    fun held => kept.hand ((apart (by simp)).mp held), ?_, kept.idle, kept.inTable, kept.small,
    fun holds {p} live => ?_⟩
  · intro g
    rw [← kept.given]
    grind
  · simp only [apart (c := .other .pipe) (by simp)]
    exact kept.filed
  · have old := kept.sized holds live
    exact ⟨old.congr (apart (by simp)), old.pos⟩

theorem Kept.freerange (a b : ℕ) (fresh : ∀ f, a ≤ f → f < b → ¬G f) :
    wp (Calm ok) (freerange L a b) (fun _ mem => ∃ own',
      Kept ok (fun f => G f ∨ a ≤ f ∧ f < b) D own' { s with mem := mem }) s.mem := by
  let Upto (i : ℕ) (mem : Mem) : Prop := ∃ own',
    Kept ok (fun f => G f ∨ a ≤ f ∧ f < a + i) D own' { s with mem := mem }
  have start : Upto 0 s.mem := by
    refine ⟨own, { kept with given := kept.given.trans ?_ }⟩
    exact ⟨.inl, fun given => given.elim id fun range => by omega⟩
  have loop : wp (Calm ok) (Memory.freerange L a b) (fun _ => Upto (b - a)) s.mem := by
    apply wp_upto (b - a) start
    rintro i small mem ⟨own₁, kept₁⟩
    refine (kept₁.give ?_).mono fun _ mem' given => ⟨_, { given with given := ?_ }⟩
    · rintro (old | range)
      · exact fresh (a + i) (by omega) (by omega) old
      · omega
    · refine given.given.trans ?_
      rw [or_assoc]
      exact or_congr_right (by omega)
  apply loop.mono
  rintro _ mem ⟨own', kept'⟩
  refine ⟨own', { kept' with given := kept'.given.trans (or_congr_right ?_) }⟩
  omega

theorem Kept.kvmalloc (fresh : D .kernel = none) :
    wp (Calm ok) (kvmalloc L) (fun _ t => ∃ own' d mem,
      Kept ok G (update D .kernel (some d)) own' t ∧
        t = { s with mem := mem, kpgdir := some d }) s := by
  rw [Memory.kvmalloc, wp_bind, vm, wp_zoom]
  refine (kept.owned.setupkvm fresh).mono fun r mem after => ?_
  cases r with
  | none => exact fun _ => by decide
  | some d =>
    obtain ⟨own', owned, moves⟩ := after
    refine ⟨own', d, mem, ?_, rfl⟩
    have moved : Kept ok G (update D .kernel (some d)) own' { s with mem := mem } := by
      refine kept.moveMem owned moves Fresh.not_other fun p _ v made => ?_
      cases (Fresh.page_iff.mp made).1
    exact { moved with }

/-- A page becomes the stack of a scheduler. -/
theorem Kept.startother (c : ℕ) (fresh : s.stack (c + 1) = none) :
    wp (Calm ok) (startother L c) (fun _ t => ∃ own' g mem, Kept ok G D own' t ∧
      t = { s with mem := mem, stack := update s.stack (c + 1) (some g) }) s := by
  rw [Memory.startother, wp_bind, vm, wp_zoom]
  apply (kept.owned.kalloc (.cpu (c + 1))).mono
  rintro r mem ⟨-, after⟩
  cases r with
  | none => exact fun _ => by decide
  | some g =>
    obtain ⟨free, taken⟩ := after
    refine ⟨_, g, mem, ⟨?_, taken, ?_, ?_, ?_, ?_, kept.idle, kept.inTable, kept.small, ?_⟩, rfl⟩
    · intro h
      rw [← kept.given]
      grind
    · exact (update_iff free (by simp) (by simp)).trans kept.kstack
    · intro c' h
      have old := kept.cpu (c := c') (f := h)
      grind
    · exact fun held => kept.hand ((update_iff free (by simp) (by simp)).mp held)
    · simp only [update_iff free (c := .other .pipe) (b := .other (.cpu (c + 1))) (by simp)
        (by simp)]
      exact kept.filed
    · intro holds p live
      have old := kept.sized holds live
      exact ⟨old.congr (update_iff free (by simp) (by simp)), old.pos⟩

theorem Kept.startothers (fresh : ∀ c, s.stack c = none) (n : ℕ) :
    wp (Calm ok) (upto n (Memory.startother L)) (fun _ t => ∃ own' mem stack,
      Kept ok G D own' t ∧ t = { s with mem := mem, stack := stack }) s := by
  let Upto (i : ℕ) (t : Machine) : Prop := ∃ own' mem stack, Kept ok G D own' t ∧
    t = { s with mem := mem, stack := stack } ∧ ∀ c, i < c → stack c = none
  have start : Upto 0 s := ⟨own, s.mem, s.stack, kept, rfl, fun c _ => fresh c⟩
  have loop : wp (Calm ok) (upto n (Memory.startother L)) (fun _ => Upto n) s := by
    apply wp_upto n start
    rintro i _ t ⟨own₁, mem, stack, kept₁, rfl, none⟩
    apply (kept₁.startother i (none (i + 1) (by omega))).mono
    rintro _ u ⟨own₂, g, mem₂, kept₂, rfl⟩
    refine ⟨own₂, mem₂, _, kept₂, rfl, fun c later => ?_⟩
    rw [update_of_ne (by omega)]
    exact none c (by omega)
  apply loop.mono
  rintro _ t ⟨own', mem, stack, kept', same, -⟩
  exact ⟨own', mem, stack, kept', same⟩

end

/-- The first page of the first process. -/
theorem Owned.inituvm {m : Mem} {o : Owner} {d : ℕ} (owned : Owned D own m) (dir : D o = some d) :
    wp (Calm ok) (inituvm L d) (fun _ m' => ∃ own', Owned D own' m' ∧
      Moves (Area o 0 1) own own' ∧ Grown own' o 0 1) m := by
  rw [Memory.inituvm]
  apply (owned.kalloc default).seq
  rintro r m₁ ⟨-, after⟩
  cases r with
  | none => exact fun _ => by decide
  | some f =>
    obtain ⟨free, taken⟩ := after
    have blank := taken.fill (f := f) (fun _ => .zero) (by simp) (by simp)
    dsimp only
    rw [wp_bind, memset, wp_update]
    refine (blank.mappages_user dir (by norm_num [USERPAGES, KERNBASE, PGSIZE])
      (update_self ..)).seq fun r m₂ after => ?_
    refine wp.ite (fun mapped => ?_) fun _ _ => by decide
    rw [if_pos mapped] at after
    obtain ⟨own₁, moves, owned₂⟩ := after
    have none : Grown own o 0 0 := fun w least most => by omega
    obtain ⟨moved, grown⟩ := mapTaken free moves le_rfl Nat.one_pos none
    exact ⟨_, owned₂, moved, grown⟩

theorem Between.userinit (between : Between ok G s own) :
    wp (Calm ok) (userinit L) (fun _ t => ∃ own', Between ok G t own') s := by
  refine between.allocproc.seq fun r s₁ after => ?_
  cases r with
  | none => exact fun _ => by decide
  | some p =>
    obtain ⟨own₁, kept₁, embryo, unused, others, cur, dirs⟩ := after
    have dead : ¬(s.proc p).Live := by simp [Proc.Live, unused]
    have dead₁ : ¬(s₁.proc p).Live := by simp [Proc.Live, embryo]
    have fresh : s.dirs (.proc p) = none := by simp [Machine.dirs, dead]
    rw [wp_bind, wp_update, wp_bind, vm, wp_zoom]
    refine (kept₁.owned.setupkvm fresh).mono fun r mem after => ?_
    cases r with
    | none => exact fun _ => by decide
    | some d =>
      obtain ⟨own₂, owned₂, moves₂⟩ := after
      rw [wp_bind, vm, wp_zoom]
      apply (owned₂.inituvm (update_self ..)).mono
      rintro _ mem' ⟨own₃, owned₃, moves₃, grown⟩
      have moves : Moves (Fresh (.proc p) 1) own₁ own₃ :=
        (moves₂.mono (Fresh.mono (Nat.zero_le 1))).trans (moves₃.mono Fresh.of_area)
      have kept₂ := kept₁.moveMem owned₃ moves Fresh.not_other ?_
      · have kept₃ : Kept ok G (update s.dirs (.proc p) (some d)) own₃
            { s₁ with mem := mem', initproc := p } := { kept₂ with }
        have size : pages PGSIZE = 1 := by norm_num [pages, PGSIZE]
        refine (kept₃.modifyProc p rfl (by simp)
          (fun _ => kept₁.inTable (by simp [embryo])) fun _ => .inr ⟨?_, fun _ => ?_⟩).mono
          fun _ t after => ?_
        · simp only [PGSIZE, KERNBASE]
          omega
        · have mapped : Mapped own₃ (.proc p) PGSIZE :=
            .of_fresh kept₁.owned fresh (size ▸ moves) (size ▸ grown)
          exact ⟨mapped, by norm_num [PGSIZE]⟩
        · obtain ⟨kept₄, rfl⟩ := after
          refine ⟨own₃, ?_, fun {q} => ?_⟩
          · convert kept₄ using 1
            rw [dirs_update]
            exact congrArg
              (fun D : Owner → Option ℕ => update D (.proc p) (some d)) dirs
          · obtain rfl | other := eq_or_ne q p
            · simp
            · simpa [other, others q other] using between.quiet
      · intro q lives v made
        obtain ⟨⟨⟩, -⟩ := Fresh.page_iff.mp made
        exact dead₁ lives

/-- **Booting gives every page a place.** -/
theorem boot_between (L : Layout) :
    wp (Calm ok) (boot L) (fun _ t => ∃ own, Between ok L.Given t own) .off := by
  have start : Kept ok (fun _ => False) (fun _ => none) (fun _ => none) .off := by
    refine ⟨by simp, ⟨by simp [Machine.off], by simp [Machine.off], by simp, ?_, ?_⟩,
      by simp [Machine.off], by simp [Machine.off], by simp, ?_, fun _ => rfl, by simp [Machine.off],
      by simp [Machine.off], by simp [Machine.off, Proc.Live]⟩
    · simp [Mem.pde]
    · simp [Mem.pte, Mem.pde]
    · constructor <;> simp [Machine.off]
  rw [boot, wp_bind, vm, wp_zoom]
  apply (start.freerange L.first L.mid fun _ _ _ => id).mono
  rintro _ mem₁ ⟨own₁, kept₁⟩
  apply (kept₁.kvmalloc rfl).seq
  rintro _ s₂ ⟨own₂, d, mem₂, kept₂, rfl⟩
  apply (kept₂.startothers (fun _ => rfl) _).seq
  rintro _ s₃ ⟨own₃, mem₃, stack, kept₃, rfl⟩
  rw [wp_bind, vm, wp_zoom]
  refine (kept₃.freerange L.mid L.last ?_).mono fun _ mem₄ after => ?_
  · rintro f least most (⟨⟨⟩⟩ | range)
    omega
  · obtain ⟨own₄, kept₄⟩ := after
    refine Between.userinit ⟨(?_ : Kept ok _ _ own₄ _), fun {p} => by simp [Machine.off]⟩
    refine { kept₄ with given := kept₄.given.trans ?_, owned := ?_ }
    · simp [Layout.Given]
    · convert kept₄.owned using 1
      funext o
      cases o <;> simp [Machine.dirs, Machine.off, Proc.Live]

/-! ## Places of the machine -/

/-- The places of a page between calls: a position in the free list, the kernel stack of a process,
the stack of a scheduler, a page directory, a page table of a page directory, a mapping of a user
page or a pipe, which is known by the open files of its two ends. -/
inductive Spot where
  | free (i : ℕ)
  | kstack (p : ℕ)
  | cpu (c : ℕ)
  | pgdir (o : Owner)
  | table (o : Owner) (i : ℕ)
  | user (o : Owner) (v : ℕ)
  | pipe (read write : Option ℕ)

/-- The open file `i` is an end of the pipe `f`. -/
def Machine.IsEnd (s : Machine) (f : ℕ) (w : Bool) (i : ℕ) : Prop :=
  i < NFILE ∧ 0 < (s.file i).ref ∧ (s.file i).pipe = some (f, w)

/-- The page `f` is in a place. -/
def Machine.At (s : Machine) : Spot → ℕ → Prop
  | .free i, f => s.mem.freelist[i]? = some f
  | .kstack p, f => p < NPROC ∧ (s.proc p).state ≠ .unused ∧ (s.proc p).kstack = some f
  | .cpu c, f => s.stack c = some f
  | .pgdir o, f => s.dirs o = some f
  | .table o i, f => i < NPTENTRIES ∧ s.mem.pde s.dirs o i = some f
  | .user o v, f => v < USERPAGES ∧ s.mem.pte s.dirs o v = some f
  | .pipe read write, f => (read ≠ none ∨ write ≠ none) ∧
      (∀ i, s.IsEnd f false i ↔ read = some i) ∧ ∀ i, s.IsEnd f true i ↔ write = some i

/-- The owner of a page in a place. -/
def Spot.place : Spot → Place Owner Holder
  | .free _ => .free
  | .kstack p => .other (.kstack p)
  | .cpu c => .other (.cpu c)
  | .pgdir o => .dir o
  | .table o i => .table o i
  | .user o v => .page o v
  | .pipe _ _ => .other .pipe

namespace Between

variable (between : Between ok G s own)
include between

theorem isEnd_iff {w : Bool} {i : ℕ} : s.IsEnd f w i ↔ (s.file i).pipe = some (f, w) := by
  refine ⟨fun isEnd => isEnd.2.2, fun pipe => ?_⟩
  obtain ⟨used, small⟩ := between.kept.filed.typed (i := i) (by simp [pipe])
  exact ⟨small, used, pipe⟩

theorem own_of_at {spot : Spot} (at_ : s.At spot f) : own f = some spot.place := by
  have kept := between.kept
  cases spot with
  | free i => exact kept.owned.free.mp (List.mem_of_getElem? at_)
  | kstack p => exact kept.kstack.mpr at_.2.2
  | cpu c => exact kept.cpu.mpr at_
  | pgdir o => exact kept.owned.dir.mp at_
  | table o i => exact kept.owned.table.mp at_
  | user o v => exact kept.owned.page.mp at_
  | pipe read write =>
    obtain ⟨some, reads, writes⟩ := at_
    have isEnd : ∃ w i, s.IsEnd f w i := by
      obtain read' | write' := some
      · obtain ⟨i, rfl⟩ := Option.ne_none_iff_exists'.mp read'
        exact ⟨false, i, (reads i).mpr rfl⟩
      · obtain ⟨i, rfl⟩ := Option.ne_none_iff_exists'.mp write'
        exact ⟨true, i, (writes i).mpr rfl⟩
    obtain ⟨w, i, isEnd⟩ := isEnd
    exact kept.filed.pipe.mpr ⟨i, w, isEnd.2.2⟩

/-- The file of an end of a pipe. -/
theorem exists_end (w : Bool) : ∃ file : Option ℕ, ∀ i, s.IsEnd f w i ↔ file = some i := by
  by_cases some : ∃ i, (s.file i).pipe = some (f, w)
  · obtain ⟨i, pipe⟩ := some
    refine ⟨i, fun j => ?_⟩
    rw [between.isEnd_iff, Option.some.injEq]
    exact ⟨fun pipe' => between.kept.filed.single pipe pipe', fun same => same ▸ pipe⟩
  · refine ⟨none, fun j => ?_⟩
    rw [between.isEnd_iff]
    exact ⟨fun pipe => absurd ⟨j, pipe⟩ some, fun none => nomatch none⟩

theorem exists_at (given : G f) : ∃ spot, s.At spot f := by
  have kept := between.kept
  obtain ⟨a, at_⟩ := Option.ne_none_iff_exists'.mp (kept.given.mpr given)
  cases a with
  | free =>
    obtain ⟨i, found⟩ := List.getElem?_of_mem (kept.owned.free.mpr at_)
    exact ⟨.free i, found⟩
  | dir o => exact ⟨.pgdir o, kept.owned.dir.mpr at_⟩
  | table o i => exact ⟨.table o i, kept.owned.table.mpr at_⟩
  | page o v => exact ⟨.user o v, kept.owned.page.mpr at_⟩
  | other x =>
    cases x with
    | kstack p =>
      have stack := kept.kstack.mp at_
      have used : (s.proc p).state ≠ .unused := by
        intro unused
        rw [kept.idle unused] at stack
        cases stack
      exact ⟨.kstack p, kept.inTable used, used, stack⟩
    | cpu c => exact ⟨.cpu c, kept.cpu.mp at_⟩
    | pipe =>
      obtain ⟨read, reads⟩ := between.exists_end false
      obtain ⟨write, writes⟩ := between.exists_end true
      refine ⟨.pipe read write, ?_, reads, writes⟩
      obtain ⟨i, w, pipe⟩ := kept.filed.pipe.mp at_
      have isEnd := between.isEnd_iff.mpr pipe
      cases w
      · exact .inl (by simp [(reads i).mp isEnd])
      · exact .inr (by simp [(writes i).mp isEnd])
    | hand => exact absurd at_ kept.hand

/-- **Every page is in exactly one place.** -/
theorem existsUnique_at (given : G f) : ∃! spot, s.At spot f := by
  obtain ⟨spot, at_⟩ := between.exists_at given
  refine ⟨spot, at_, fun spot' at' => ?_⟩
  have same : spot'.place = spot.place :=
    Option.some.inj ((between.own_of_at at').symm.trans (between.own_of_at at_))
  cases spot <;> cases spot' <;> simp only [Spot.place] at same
  case free.free i j =>
      have small := (List.getElem?_eq_some_iff.mp at').1
      rw [(List.getElem?_inj small between.kept.owned.nodup).mp (at'.trans at_.symm)]
  case pipe.pipe read write read' write' =>
      have reads : read' = read := Option.ext fun i => ((at'.2.1 i).symm.trans (at_.2.1 i))
      have writes : write' = write := Option.ext fun i => ((at'.2.2 i).symm.trans (at_.2.2 i))
      rw [reads, writes]
  all_goals grind

end Between

/-! ## Runs -/

/-- A completed call keeps the pages. -/
theorem Between.step {taken : Step} (between : Between ok G s own) (steps : step L s taken t) :
    ∃ own', Between (ok ∧ Spares (s.proc taken.p).sz taken.call) G t own' := by
  obtain ⟨runs, result⟩ := steps
  have switched : Between ok G (s.switch taken.p) own := ⟨{ between.kept with }, between.quiet⟩
  exact (switched.dispatch runs taken.call).of_ok result

theorem Between.of_run {s₀ : Machine} {trace : List Step} (boots : Boots L s₀)
    (run : TraceRun.Run (Memory.step L) s₀ trace s) : ∃ own, Between False L.Given s own := by
  let Holds (s : Machine) : Prop := ∃ own, Between False L.Given s own
  have start : Holds s₀ := (boot_between L).of_ok boots
  have steps : ∀ {s t taken}, Holds s → Memory.step L s taken t → Holds t := by
    rintro s t taken ⟨own, between⟩ steps
    exact (between.step steps).imp fun own' after => after.weaken False.elim
  exact run.stateInvariant start steps

/-- **Pages are conserved.** -/
theorem pages_conserved {s₀ : Machine} {trace : List Step} (boots : Boots L s₀)
    (run : TraceRun.Run (step L) s₀ trace s) (given : L.Given f) : ∃! spot, s.At spot f := by
  obtain ⟨own, between⟩ := Between.of_run boots run
  exact between.existsUnique_at given

/-! ## A small machine -/

/-- A call of a process, computed. -/
def act (L : Layout) (a : ℕ × Call) (s : Machine) : Option (Step × Machine) :=
  if (s.proc a.1).state = .runnable then
    match dispatch L a.2 (s.switch a.1) with
    | .ok (ret, t) => some (⟨a.1, a.2, ret⟩, t)
    | .error _ => none
  else
    none

theorem step_of_act (a : ℕ × Call) (s : Machine) (taken : Step) (t : Machine)
    (acts : act L a s = some (taken, t)) : step L s taken t := by
  obtain ⟨runs, result⟩ := Option.ite_none_right_eq_some.mp acts
  split at result
  · rename_i ret t' returns
    cases result
    exact ⟨runs, returns⟩
  · cases result

/-- Boot and make calls, the latest first. -/
def play (L : Layout) (act : Layout → ℕ × Call → Machine → Option (Step × Machine))
    (actions : List (ℕ × Call)) : Option (List Step × Machine) :=
  match boot L .off with
  | .ok (_, s₀) => TraceRun.replay (act L) s₀ actions
  | .error _ => none

theorem exists_of_play {act : Layout → ℕ × Call → Machine → Option (Step × Machine)}
    {step : Machine → Step → Machine → Prop}
    (sound : ∀ a s taken t, act L a s = some (taken, t) → step s taken t)
    {actions : List (ℕ × Call)} {check : List Step × Machine → Bool}
    (passed : (play L act actions).any check = true) :
    ∃ s₀ trace s, Boots L s₀ ∧ TraceRun.Run step s₀ trace s ∧ check (trace, s) = true := by
  rw [play] at passed
  split at passed
  · rename_i s₀ boots
    obtain ⟨trace, s, run, checked⟩ := TraceRun.Run.exists_of_replay sound passed
    exact ⟨s₀, trace, s, boots, run, checked⟩
  · cases passed

/-- A machine with 19 pages. -/
def smallLayout (ncpu : ℕ) (deny : ℕ → Bool) : Layout where
  first := 1
  mid := 8
  last := 20
  kmap := [⟨KERNBASE, 0, PGSIZE, true⟩]
  ncpu := ncpu
  deny := deny
  kernel := by decide

/-- The first process makes a pipe, grows and forks. The child exits, and the second `fork` runs
out of memory in `copyuvm`. -/
theorem pages_conserved_of_fork : ∃ s₀ trace s, Boots (smallLayout 2 (· = 22)) s₀ ∧
    TraceRun.Run (step (smallLayout 2 (· = 22))) s₀ trace s ∧
    trace.map Step.ret = [-1, 2, 0, 2, 4096, 0] ∧
    ∀ f, (smallLayout 2 (· = 22)).Given f → ∃! spot, s.At spot f := by
  have played : (play (smallLayout 2 (· = 22)) act [(0, .fork), (0, .wait), (1, .exit),
      (0, .fork), (0, .sbrk 8192), (0, .pipe)]).any (fun (trace, _) =>
        trace.map Step.ret = [-1, 2, 0, 2, 4096, 0]) = true := by
    decide +kernel
  obtain ⟨s₀, trace, s, boots, run, returns⟩ := exists_of_play step_of_act played
  exact ⟨s₀, trace, s, boots, run, of_decide_eq_true returns,
    fun f given => pages_conserved boots run given⟩

/-- With two CPUs the page 5 becomes the stack of the scheduler of the second one, and is in no
other place. -/
theorem scheduler_stack_elsewhere : ∃ s₀ trace s, Boots (smallLayout 2 fun _ => false) s₀ ∧
    TraceRun.Run (step (smallLayout 2 fun _ => false)) s₀ trace s ∧
    trace.map Step.ret = [0] ∧ (smallLayout 2 fun _ => false).Given 5 ∧ s.stack 1 = some 5 ∧
    ∀ spot, s.At spot 5 → spot = .cpu 1 := by
  have played : (play (smallLayout 2 fun _ => false) act [(0, .pipe)]).any (fun (trace, s) =>
      trace.map Step.ret = [0] ∧ s.stack 1 = some 5) = true := by
    decide +kernel
  obtain ⟨s₀, trace, s, boots, run, passed⟩ := exists_of_play step_of_act played
  obtain ⟨returns, stack⟩ := of_decide_eq_true passed
  have given : (smallLayout 2 fun _ => false).Given 5 := .inl (by decide)
  obtain ⟨own, between⟩ := Between.of_run boots run
  exact ⟨s₀, trace, s, boots, run, returns, given, stack,
    fun spot at_ => (between.existsUnique_at given).unique at_ stack⟩

end Xv6Uac.Memory
