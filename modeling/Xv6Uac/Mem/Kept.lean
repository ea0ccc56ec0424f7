import Xv6Uac.Mem.Machine
import Xv6Uac.Mem.PageTables

/-!
# The pages of the machine

`Kept ok G D own s`: the pages `G` of the machine and where they are. The page directories `D` are the
kernel's, that of a program which `exec` loads and those of the processes. The other places
are the kernel stacks of the processes, the stacks of the schedulers and the pipes. If `ok`, the
pages that a process has mapped are those below its size (`Sized`).

The calls on descriptors keep this: a page that is a pipe is given back when its second end is
closed (`Filed`).
-/

namespace Xv6Uac.Memory

open Hoare hiding update
open Function (update update_apply update_of_ne update_self)

/-- The page directories. -/
inductive Owner where
  | kernel
  | new
  | proc (p : ℕ)
deriving DecidableEq

/-- The places of a page outside of the page tables. -/
inductive Holder where
  | kstack (p : ℕ)
  | cpu (c : ℕ)
  | pipe
  | hand
deriving DecidableEq

instance : Inhabited Holder := ⟨.hand⟩

/-- A process with an address space. -/
def Proc.Live (proc : Proc) : Prop := proc.state = .runnable ∨ proc.state = .zombie

instance (proc : Proc) : Decidable proc.Live :=
  inferInstanceAs (Decidable (proc.state = .runnable ∨ proc.state = .zombie))

/-- The page directories between calls. -/
def Machine.dirs (s : Machine) : Owner → Option ℕ
  | .kernel => s.kpgdir
  | .new => none
  | .proc p => if (s.proc p).Live then (s.proc p).pgdir else none

/-- The owner of a page, if it was given to the allocator. -/
abbrev Owners : Type := ℕ → Option (Place Owner Holder)

/-- The pages that are mapped are those below a size. -/
structure Mapped (own : Owners) (o : Owner) (sz : ℕ) : Prop where
  grown : Grown own o 0 (pages sz)
  below : ∀ {f v}, own f = some (.page o v) → v < pages sz

/-- The pages of a process are those below its size, which is not 0. -/
structure Sized (own : Owners) (o : Owner) (sz : ℕ) : Prop extends Mapped own o sz where
  pos : 0 < sz

/-! ## Pipes -/

/-- The pages that are pipes have an open file at each end that is open. -/
structure Filed (isPipe : ℕ → Prop) (file : ℕ → File) (ends : ℕ → Bool → Bool) : Prop where
  pipe : ∀ {f}, isPipe f ↔ ∃ i w, (file i).pipe = some (f, w)
  opened : ∀ {i f w}, (file i).pipe = some (f, w) → ends f w = true
  both : ∀ {f w}, isPipe f → ends f w = true → ∃ i, (file i).pipe = some (f, w)
  single : ∀ {i j f w}, (file i).pipe = some (f, w) → (file j).pipe = some (f, w) → i = j
  typed : ∀ {i}, (file i).pipe ≠ none → 0 < (file i).ref ∧ i < NFILE

namespace Filed

variable {isPipe : ℕ → Prop} {file : ℕ → File} {ends : ℕ → Bool → Bool} {i j f : ℕ} {w : Bool}

variable (filed : Filed isPipe file ends)
include filed

/-- Another reference count. -/
theorem setFile {a : File} (pipe : a.pipe = (file i).pipe) (used : a.pipe ≠ none → 0 < a.ref) :
    Filed isPipe (update file i a) ends := by
  have same : ∀ j, (update file i a j).pipe = (file j).pipe := by
    intro j
    obtain rfl | other := eq_or_ne j i
    · simpa using pipe
    · simp [other]
  refine ⟨?_, ?_, ?_, ?_, ?_⟩ <;> simp only [same]
  · exact filed.pipe
  · exact filed.opened
  · exact filed.both
  · exact filed.single
  · intro j some
    obtain rfl | other := eq_or_ne j i
    · exact ⟨by simpa using used (pipe ▸ some), (filed.typed some).2⟩
    · simpa [other] using filed.typed some

/-- A new pipe. -/
theorem newPipe {isPipe' : ℕ → Prop} {a b : File} (distinct : i ≠ j) (fresh : ¬isPipe f)
    (adds : ∀ g, isPipe' g ↔ isPipe g ∨ g = f) (read : a.pipe = some (f, false))
    (write : b.pipe = some (f, true)) (usedRead : 0 < a.ref ∧ i < NFILE)
    (usedWrite : 0 < b.ref ∧ j < NFILE) (plainRead : (file i).pipe = none)
    (plainWrite : (file j).pipe = none) :
    Filed isPipe' (update (update file i a) j b)
      (update ends f fun _ => true) := by
  have pipes : ∀ {k g w}, (update (update file i a) j b k).pipe = some (g, w) ↔
      k = i ∧ g = f ∧ w = false ∨ k = j ∧ g = f ∧ w = true ∨ (file k).pipe = some (g, w) := by
    intro k g w
    grind
  have old : ∀ {k g w}, (file k).pipe = some (g, w) → g ≠ f := by
    rintro k g w some rfl
    exact fresh (filed.pipe.mpr ⟨k, w, some⟩)
  refine ⟨fun {g} => ?_, fun {k g w} => ?_, fun {g w} => ?_, fun {k l g w} => ?_, fun {k} some => ?_⟩
  · rw [adds, filed.pipe]
    simp only [pipes]
    constructor
    · rintro (⟨k, w, some⟩ | rfl)
      · exact ⟨k, w, .inr (.inr some)⟩
      · exact ⟨i, false, .inl ⟨rfl, rfl, rfl⟩⟩
    · rintro ⟨k, w, ⟨-, rfl, -⟩ | ⟨-, rfl, -⟩ | some⟩
      · exact .inr rfl
      · exact .inr rfl
      · exact .inl ⟨k, w, some⟩
  · rw [pipes]
    rintro (⟨-, rfl, -⟩ | ⟨-, rfl, -⟩ | some)
    · simp
    · simp
    · rw [update_of_ne (old some)]
      exact filed.opened some
  · have := filed.both (f := g) (w := w)
    rw [update_apply]
    simp only [pipes]
    cases w <;> grind
  · have := filed.single (i := k) (j := l) (f := g) (w := w)
    grind
  · have := filed.typed (i := k)
    grind

/-- An end of a pipe is closed. The page stays a pipe as long as the other end is open. -/
theorem closeEnd {isPipe' : ℕ → Prop} (isEnd : (file i).pipe = some (f, w))
    (stays : ∀ g, isPipe' g ↔ isPipe g ∧ (g = f → ends f (!w) = true)) :
    Filed isPipe' (update file i ⟨0, none⟩)
      (update ends f (update (ends f) w false)) := by
  have pipes : ∀ {k g v}, (update file i ⟨0, none⟩ k).pipe = some (g, v) ↔
      (file k).pipe = some (g, v) ∧ ¬(g = f ∧ v = w) := by
    intro k g v
    have := filed.single (i := k) (j := i) (f := f) (w := w)
    grind
  have isPipe : isPipe f := filed.pipe.mpr ⟨i, w, isEnd⟩
  have both := filed.both (w := !w) isPipe
  refine ⟨fun {g} => ?_, fun {k g v} => ?_, fun {g v} => ?_, fun {k l g v} => ?_, fun {k} some => ?_⟩
  · simp only [pipes]
    have := filed.pipe (f := g)
    have ends := fun k => filed.opened (i := k) (f := f) (w := !w)
    obtain rfl | other := eq_or_ne g f
    · cases w <;> grind
    · grind
  · have := filed.opened (i := k) (f := g) (w := v)
    rw [pipes]
    simp only [update_apply]
    grind
  · have := filed.both (f := g) (w := v)
    simp only [update_apply]
    grind
  · rw [pipes, pipes]
    exact fun first second => filed.single first.1 second.1
  · have := filed.typed (i := k)
    grind

end Filed

/-! ## The invariant -/

/-- **The pages of the machine.** -/
structure Kept (ok : Prop) (G : ℕ → Prop) (D : Owner → Option ℕ) (own : Owners) (s : Machine) :
    Prop where
  given : ∀ {f}, own f ≠ none ↔ G f
  owned : Owned D own s.mem
  kstack : ∀ {p f}, own f = some (.other (.kstack p)) ↔ (s.proc p).kstack = some f
  cpu : ∀ {c f}, own f = some (.other (.cpu c)) ↔ s.stack c = some f
  hand : ∀ {f}, own f ≠ some (.other .hand)
  filed : Filed (fun f => own f = some (.other .pipe)) s.file s.ends
  idle : ∀ {p}, (s.proc p).state = .unused → (s.proc p).kstack = none
  inTable : ∀ {p}, (s.proc p).state ≠ .unused → p < NPROC
  small : ∀ {p}, (s.proc p).Live → (s.proc p).sz < KERNBASE
  sized : ok → ∀ {p}, (s.proc p).Live → Sized own (.proc p) (s.proc p).sz

variable {L : Layout} {ok : Prop} {G : ℕ → Prop} {D D' : Owner → Option ℕ} {own own' : Owners} {s t : Machine}
  {p f i : ℕ}

theorem Mapped.congr {o : Owner} {sz : ℕ} (mapped : Mapped own o sz)
    (same : ∀ {f v}, own' f = some (.page o v) ↔ own f = some (.page o v)) : Mapped own' o sz :=
  ⟨fun w least most => (mapped.grown w least most).imp fun _ => same.mpr,
    fun at_ => mapped.below (same.mp at_)⟩

/-- Pages are added. -/
theorem Mapped.grow {o : Owner} {sz sz' : ℕ} (mapped : Mapped own o sz) (more : sz ≤ sz')
    (moves : Moves (Area o (pages sz) (pages sz')) own own')
    (grown : Grown own' o (pages sz) (pages sz')) : Mapped own' o sz' := by
  have order : pages sz ≤ pages sz' := by
    simp only [pages, PGSIZE]
    omega
  refine ⟨fun w least most => ?_, fun {f v} at_ => ?_⟩
  · by_cases old : w < pages sz
    · obtain ⟨f, at_⟩ := mapped.grown w least old
      exact ⟨f, (moves.keeps (by rintro ⟨⟩; omega)).mpr at_⟩
    · exact grown w (by omega) most
  · by_contra large
    have old := (moves.keeps (by rintro ⟨⟩; omega)).mp at_
    exact large ((mapped.below old).trans_le order)

/-- Pages are removed from `sz` on. -/
theorem Mapped.shrink {o : Owner} {sz sz' : ℕ} (mapped : Mapped own o sz')
    (moves : Moves (Area o (pages sz) (pages sz')) own own') (less : sz ≤ sz')
    (bare : Bare own' o (pages sz) (pages sz')) : Mapped own' o sz := by
  have order : pages sz ≤ pages sz' := by
    simp only [pages, PGSIZE]
    omega
  refine ⟨fun w least most => ?_, fun {f v} at_ => ?_⟩
  · obtain ⟨f, at_⟩ := mapped.grown w least (most.trans_le order)
    exact ⟨f, (moves.keeps (by rintro ⟨⟩; omega)).mpr at_⟩
  · by_contra large
    by_cases inside : v < pages sz'
    · exact bare f v (by omega) inside at_
    · exact inside (mapped.below ((moves.keeps (by rintro ⟨⟩; omega)).mp at_))

/-- The pages of a page directory that is made. -/
theorem Mapped.of_fresh {m : Mem} {o : Owner} {sz : ℕ} (owned : Owned D own m) (fresh : D o = none)
    (moves : Moves (Fresh o (pages sz)) own own') (grown : Grown own' o 0 (pages sz)) :
    Mapped own' o sz := by
  refine ⟨grown, fun {f v} at_ => ?_⟩
  by_contra large
  rw [moves.keeps fun made => large (Fresh.page_iff.mp made).2, ← owned.page, Mem.pte, Mem.pde,
    fresh] at at_
  cases at_.2

/-- A place that the page `f` neither leaves nor gets keeps its page. -/
theorem update_iff {a b c : Place Owner Holder} (at_ : own f = some a) (left : c ≠ a)
    (gets : c ≠ b) {g : ℕ} :
    update own f (some b) g = some c ↔ own g = some c := by
  grind

/-- The page tables between calls depend on the processes. -/
theorem dirs_congr (proc : ∀ p, (t.proc p).state = (s.proc p).state ∧
    (t.proc p).pgdir = (s.proc p).pgdir) (kpgdir : t.kpgdir = s.kpgdir) : t.dirs = s.dirs := by
  funext o
  cases o with
  | kernel => exact kpgdir
  | new => rfl
  | proc p =>
    obtain ⟨state, pgdir⟩ := proc p
    have live : (t.proc p).Live ↔ (s.proc p).Live := by rw [Proc.Live, Proc.Live, state]
    simp only [Machine.dirs, live, pgdir]

/-- What calls on descriptors leave alone: of the processes only descriptors change. -/
structure Frame (s t : Machine) : Prop where
  proc : ∀ p, ∃ ofile, t.proc p = { s.proc p with ofile := ofile }
  cur : t.cur = s.cur
  kpgdir : t.kpgdir = s.kpgdir
  initproc : t.initproc = s.initproc

namespace Frame

theorem of_proc_eq (proc : t.proc = s.proc) (cur : t.cur = s.cur) (kpgdir : t.kpgdir = s.kpgdir)
    (initproc : t.initproc = s.initproc) : Frame s t :=
  ⟨fun p => ⟨(s.proc p).ofile, congrFun proc p⟩, cur, kpgdir, initproc⟩

theorem refl (s : Machine) : Frame s s := .of_proc_eq rfl rfl rfl rfl

theorem trans {u : Machine} (first : Frame s t) (second : Frame t u) : Frame s u := by
  refine ⟨fun p => ?_, second.cur.trans first.cur, second.kpgdir.trans first.kpgdir,
    second.initproc.trans first.initproc⟩
  obtain ⟨a, before⟩ := first.proc p
  obtain ⟨b, after⟩ := second.proc p
  exact ⟨b, by rw [after, before]⟩

theorem state (frame : Frame s t) (p : ℕ) : (t.proc p).state = (s.proc p).state := by
  obtain ⟨_, same⟩ := frame.proc p
  rw [same]

theorem dirs (frame : Frame s t) : t.dirs = s.dirs := by
  refine dirs_congr (fun p => ⟨frame.state p, ?_⟩) frame.kpgdir
  obtain ⟨_, same⟩ := frame.proc p
  rw [same]

end Frame

namespace Kept

/-- Pages move within the page tables, and processes change, but not their kernel stacks. -/
theorem move {P : Place Owner Holder → Prop} {mem : Mem} {proc : ℕ → Proc}
    (kept : Kept ok G D own s) (owned : Owned D' own' mem) (moves : Moves P own own')
    (outside : ∀ x, ¬P (.other x)) (kstack : ∀ p, (proc p).kstack = (s.proc p).kstack)
    (idle : ∀ p, (proc p).state = .unused → (s.proc p).kstack = none)
    (inTable : ∀ p, (proc p).state ≠ .unused → p < NPROC)
    (live : ∀ p, (proc p).Live → ((s.proc p).Live ∧ (proc p).sz = (s.proc p).sz ∧
      ∀ v, ¬P (.page (.proc p) v)) ∨
      (proc p).sz < KERNBASE ∧ (ok → Sized own' (.proc p) (proc p).sz)) :
    Kept ok G D' own' { s with mem := mem, proc := proc } where
  given := by
    intro f
    rw [← kept.given, ← Option.isSome_iff_ne_none, ← Option.isSome_iff_ne_none, moves.isSome]
  owned := owned
  kstack := by
    intro p f
    rw [kstack, moves.keeps (outside _)]
    exact kept.kstack
  cpu := (moves.keeps (outside _)).trans kept.cpu
  hand := fun at_ => kept.hand ((moves.keeps (outside _)).mp at_)
  filed := by
    simp only [moves.keeps (outside _)]
    exact kept.filed
  idle := by
    intro p unused
    rw [kstack]
    exact idle p unused
  inTable := inTable _
  small := by
    intro p lives
    obtain ⟨before, same, -⟩ | ⟨small, -⟩ := live p lives
    · exact same ▸ kept.small before
    · exact small
  sized := by
    intro holds p lives
    obtain ⟨before, same, out⟩ | ⟨-, sized⟩ := live p lives
    · have old := kept.sized holds before
      exact same ▸ ⟨old.congr (moves.keeps (out _)), old.pos⟩
    · exact sized holds

/-- Only the page tables change. -/
theorem moveMem {P : Place Owner Holder → Prop} {mem : Mem} (kept : Kept ok G D own s)
    (owned : Owned D' own' mem) (moves : Moves P own own') (outside : ∀ x, ¬P (.other x))
    (pages : ∀ p, (s.proc p).Live → ∀ v, ¬P (.page (.proc p) v)) :
    Kept ok G D' own' { s with mem := mem } :=
  kept.move owned moves outside (fun _ => rfl) (fun _ => kept.idle) (fun _ => kept.inTable)
    fun p live => .inl ⟨live, rfl, pages p live⟩

/-- Only the memory changes, and no page moves. -/
theorem setMem {mem : Mem} (kept : Kept ok G D own s) (owned : Owned D' own mem) :
    Kept ok G D' own { s with mem := mem } :=
  kept.moveMem (P := fun _ => False) owned (.refl _ _) (fun _ => id) fun _ _ _ => id

/-- Pages move within the page tables, and one process changes, but not its kernel stack. -/
theorem moveProc {P : Place Owner Holder → Prop} {mem : Mem} {a : Proc}
    (kept : Kept ok G D own s) (owned : Owned D' own' mem) (moves : Moves P own own')
    (outside : ∀ x, ¬P (.other x)) (others : ∀ q v, q ≠ p → ¬P (.page (.proc q) v))
    (kstack : a.kstack = (s.proc p).kstack)
    (idle : a.state = .unused → (s.proc p).kstack = none)
    (inTable : a.state ≠ .unused → p < NPROC)
    (live : a.Live → ((s.proc p).Live ∧ a.sz = (s.proc p).sz ∧ ∀ v, ¬P (.page (.proc p) v)) ∨
      a.sz < KERNBASE ∧ (ok → Sized own' (.proc p) a.sz)) :
    Kept ok G D' own' { s with mem := mem, proc := update s.proc p a } := by
  refine kept.move owned moves outside (fun q => ?_) (fun q => ?_) (fun q => ?_) fun q => ?_
  all_goals obtain rfl | other := eq_or_ne q p
  · simpa using kstack
  · simp [other]
  · simpa using idle
  · simpa [other] using kept.idle
  · simpa using inTable
  · simpa [other] using kept.inTable
  · simpa using live
  · rw [update_of_ne other]
    exact fun lives => .inl ⟨lives, rfl, fun v => others q v other⟩

/-- A change of one process that leaves its kernel stack. -/
theorem modifyProc {change : Proc → Proc} (kept : Kept ok G D own s) (p : ℕ)
    (kstack : (change (s.proc p)).kstack = (s.proc p).kstack)
    (idle : (change (s.proc p)).state = .unused → (s.proc p).kstack = none)
    (inTable : (change (s.proc p)).state ≠ .unused → p < NPROC)
    (live : (change (s.proc p)).Live → (s.proc p).Live ∧ (change (s.proc p)).sz = (s.proc p).sz ∨
      (change (s.proc p)).sz < KERNBASE ∧ (ok → Sized own (.proc p) (change (s.proc p)).sz)) :
    wp (Calm ok) (modifyProc p change) (fun _ t => Kept ok G D own t ∧
      t = { s with proc := update s.proc p (change (s.proc p)) }) s := by
  refine ⟨kept.moveProc (P := fun _ => False) kept.owned (.refl _ _) (fun _ => id)
    (fun _ _ _ => id) kstack idle inTable fun lives => ?_, rfl⟩
  exact (live lives).imp_left fun ⟨before, same⟩ => ⟨before, same, fun _ => id⟩

/-! ## Files -/

section

variable (kept : Kept ok G D own s)
include kept

theorem setFile {a : File} (pipe : a.pipe = (s.file i).pipe) (used : a.pipe ≠ none → 0 < a.ref) :
    Kept ok G D own { s with file := update s.file i a } :=
  ⟨kept.given, kept.owned, kept.kstack, kept.cpu, kept.hand, kept.filed.setFile pipe used, kept.idle,
    kept.inTable, kept.small, kept.sized⟩

theorem filedup (i : ℕ) :
    wp (Calm ok) (filedup i) (fun _ t => Kept ok G D own t ∧ Frame s t) s := by
  rw [Memory.filedup, wp_read]
  refine wp.ite (fun _ _ => by decide) fun used => ?_
  exact ⟨kept.setFile rfl fun _ => by dsimp only; omega, .of_proc_eq rfl rfl rfl rfl⟩

/-- A page becomes a pipe, or is it no more. -/
theorem pipePage {mem : Mem} {file : ℕ → File} {ends : ℕ → Bool → Bool}
    {a b : Place Owner Holder} (at_ : own f = some a)
    (places : a = .free ∧ b = .other .pipe ∨ a = .other .pipe ∧ b = .free)
    (owned : Owned D (update own f (some b)) mem)
    (filed : Filed (fun g => update own f (some b) g = some (.other .pipe)) file ends) :
    Kept ok G D (update own f (some b)) { s with mem := mem, file := file, ends := ends } := by
  have apart : ∀ {g c}, c ≠ .free → c ≠ .other .pipe →
      (update own f (some b) g = some c ↔ own g = some c) := by
    intro g c notFree notPipe
    exact update_iff at_ (by grind) (by grind)
  refine ⟨fun {g} => ?_, owned, (apart (by simp) (by simp)).trans kept.kstack,
    (apart (by simp) (by simp)).trans kept.cpu,
    fun held => kept.hand ((apart (by simp) (by simp)).mp held), filed, kept.idle, kept.inTable,
    kept.small, fun holds {p} live => ?_⟩
  · rw [← kept.given]
    grind
  · have old := kept.sized holds live
    exact ⟨old.congr (apart (by simp) (by simp)), old.pos⟩

theorem fileclose (i : ℕ) :
    wp (Calm ok) (fileclose L i) (fun _ t => ∃ own', Kept ok G D own' t ∧ Frame s t) s := by
  rw [Memory.fileclose, wp_read]
  refine wp.ite (fun _ _ => by decide) fun used => ?_
  refine wp.ite (fun more => ?_) fun last => ?_
  · exact ⟨own, kept.setFile rfl fun _ => by dsimp only; omega, .of_proc_eq rfl rfl rfl rfl⟩
  · rw [wp_bind]
    split
    · rename_i plain
      exact ⟨own, kept.setFile plain.symm fun some => absurd rfl some, .of_proc_eq rfl rfl rfl rfl⟩
    · rename_i f w isEnd
      have isPipe : own f = some (.other .pipe) := kept.filed.pipe.mpr ⟨i, w, isEnd⟩
      rw [pipeclose, modifyFile, wp_update, wp_bind, wp_update, wp_read, wp_when]
      have other : ∀ {e : Bool → Bool}, e w = false →
          ((e false = false ∧ e true = false) ↔ ¬e (!w) = true) := by
        intro e closed
        cases w <;> simp_all
      simp only [update_self]
      rw [other (by simp), update_of_ne (by simp)]
      refine ⟨fun closed => ?_, fun opened => ?_⟩
      · rw [vm, wp_zoom]
        refine (kept.owned.kfree fun a at_ => ⟨.pipe, ?_⟩).mono fun _ mem after => ?_
        · rw [isPipe] at at_
          exact (Option.some.inj at_).symm
        · refine ⟨_, kept.pipePage isPipe (.inr ⟨rfl, rfl⟩) after.1
            (kept.filed.closeEnd isEnd fun g => ?_), .of_proc_eq rfl rfl rfl rfl⟩
          obtain rfl | different := eq_or_ne g f
          · simp [closed]
          · simp [different]
      · refine ⟨own, ⟨kept.given, kept.owned, kept.kstack, kept.cpu, kept.hand, ?_, kept.idle, kept.inTable,
          kept.small, kept.sized⟩, .of_proc_eq rfl rfl rfl rfl⟩
        refine kept.filed.closeEnd isEnd fun g => ?_
        rw [not_not] at opened
        simp [opened]

theorem filealloc :
    wp (Calm ok) filealloc (fun r t => Kept ok G D own t ∧ Frame s t ∧ t.ends = s.ends ∧ match r with
      | none => True
      | some i => i < NFILE ∧ (s.file i).ref = 0 ∧ (t.file i).ref = 1 ∧ (t.file i).pipe = none ∧
          ∀ j, j ≠ i → t.file j = s.file j) s := by
  rw [Memory.filealloc, wp_read]
  split
  · exact ⟨kept, .of_proc_eq rfl rfl rfl rfl, rfl, trivial⟩
  · rename_i i found
    have small := List.mem_range.mp (List.mem_of_find?_eq_some found)
    have unused := List.find?_some found
    have unused : (s.file i).ref = 0 := of_decide_eq_true unused
    have plain : (s.file i).pipe = none := by
      by_contra some
      have := (kept.filed.typed some).1
      omega
    refine ⟨kept.setFile rfl fun _ => Int.one_pos, .of_proc_eq rfl rfl rfl rfl, rfl, small, unused, ?_, ?_,
      fun j other => ?_⟩
    · simp
    · simpa using plain
    · simp [other]

/-- Descriptors are not about memory. -/
theorem setOfile (p fd : ℕ) (i : Option ℕ) :
    wp (Calm ok) (setOfile p fd i) (fun _ t => Kept ok G D own t ∧ Frame s t) s := by
  apply (kept.modifyProc p rfl kept.idle kept.inTable fun live => .inl ⟨live, rfl⟩).mono
  rintro _ t ⟨kept', rfl⟩
  refine ⟨kept', fun q => ?_, rfl, rfl, rfl⟩
  obtain rfl | other := eq_or_ne q p
  · exact ⟨_, update_self ..⟩
  · exact ⟨(s.proc q).ofile, update_of_ne other ..⟩

theorem fdalloc (i : ℕ) :
    wp (Calm ok) (fdalloc i) (fun _ t => Kept ok G D own t ∧ Frame s t) s := by
  rw [Memory.fdalloc, wp_read, wp_bind, myproc, wp_gets]
  split
  · exact ⟨kept, .refl s⟩
  · exact kept.setOfile _ _ _

end

end Kept

/-- The pages are kept, and only descriptors have changed since `s`. -/
def Stays (ok : Prop) (G : ℕ → Prop) (D : Owner → Option ℕ) (s t : Machine) : Prop :=
  ∃ own, Kept ok G D own t ∧ Frame s t

namespace Stays

theorem of_kept {α : Type} {m : M α}
    (each : ∀ {own t}, Kept ok G D own t →
      wp (Calm ok) m (fun _ u => Kept ok G D own u ∧ Frame t u) t) :
    Preserves (Calm ok) (Stays ok G D s) m := by
  rintro t ⟨own, kept, frame⟩
  exact (each kept).mono fun _ u after => ⟨own, after.1, frame.trans after.2⟩

theorem setOfile (p fd : ℕ) (i : Option ℕ) :
    Preserves (Calm ok) (Stays ok G D s) (setOfile p fd i) :=
  of_kept fun kept => kept.setOfile p fd i

theorem fdalloc (i : ℕ) : Preserves (Calm ok) (Stays ok G D s) (fdalloc i) :=
  of_kept fun kept => kept.fdalloc i

theorem fileclose (i : ℕ) : Preserves (Calm ok) (Stays ok G D s) (fileclose L i) := by
  rintro t ⟨own, kept, frame⟩
  refine (kept.fileclose i).mono fun _ u after => ?_
  exact after.imp fun _ done => ⟨done.1, frame.trans done.2⟩

/-- Two files are closed, and the call fails. -/
theorem closeBoth {α : Type} (i j : ℕ) (r : α) :
    Preserves (Calm ok) (Stays ok G D s) (do Memory.fileclose L i; Memory.fileclose L j; pure r) :=
  .bind (fileclose i) fun _ => .bind (fileclose j) fun _ => .pure r

theorem pipealloc : Preserves (Calm ok) (Stays ok G D s) (pipealloc L) := by
  rintro t ⟨own, kept, frame⟩
  apply kept.filealloc.seq
  rintro r s₁ ⟨kept₁, frame₁, -, after⟩
  have frame₁ := frame.trans frame₁
  cases r with
  | none => exact ⟨own, kept₁, frame₁⟩
  | some f0 =>
    obtain ⟨small₀, -, ref₀, plain₀, -⟩ := after
    apply kept₁.filealloc.seq
    rintro r s₂ ⟨kept₂, frame₂, -, after⟩
    have frame₂ := frame₁.trans frame₂
    cases r with
    | none => exact Preserves.bind (fileclose f0) (fun _ => .pure _) s₂ ⟨own, kept₂, frame₂⟩
    | some f1 =>
      obtain ⟨small₁, unused₁, ref₁, plain₁, others⟩ := after
      have distinct : f0 ≠ f1 := by
        rintro rfl
        omega
      have same := others f0 distinct
      rw [wp_bind, vm, wp_zoom]
      apply (kept₂.owned.kalloc .pipe).mono
      rintro r mem ⟨-, after⟩
      cases r with
      | none =>
        exact closeBoth f0 f1 _ _
          ⟨own, kept₂.setMem after, frame₂.trans (.of_proc_eq rfl rfl rfl rfl)⟩
      | some f =>
        obtain ⟨free, taken⟩ := after
        have fresh : ¬own f = some (.other .pipe) := by simp [free]
        refine ⟨_, kept₂.pipePage free (.inl ⟨rfl, rfl⟩) taken (kept₂.filed.newPipe distinct fresh
          (fun g => ?_) rfl rfl ?_ ?_ ?_ plain₁), frame₂.trans (.of_proc_eq rfl rfl rfl rfl)⟩
        · obtain rfl | different := eq_or_ne g f
          · simp
          · simp [different]
        · rw [same, ref₀]
          exact ⟨Int.one_pos, small₀⟩
        · exact ⟨by simp [distinct.symm, ref₁], small₁⟩
        · rwa [same]

theorem sysPipe : Preserves (Calm ok) (Stays ok G D s) (sysPipe L) := by
  refine .bind pipealloc fun made => ?_
  match made with
  | none => exact .pure _
  | some (rf, wf) =>
    refine .bind (fdalloc rf) fun fd0 => ?_
    cases fd0 with
    | none => exact closeBoth rf wf _
    | some fd0 =>
      refine .bind (fdalloc wf) fun fd1 => ?_
      cases fd1 with
      | some fd1 => exact .pure _
      | none => exact .read fun _ => .bind (setOfile _ _ _) fun _ => closeBoth rf wf _

theorem sysClose (fd : ℤ) : Preserves (Calm ok) (Stays ok G D s) (sysClose L fd) := by
  refine .read fun cur => .read fun p => ?_
  split
  · exact .pure _
  · exact .bind (setOfile _ _ _) fun _ => .bind (fileclose _) fun _ => .pure _

end Stays

end Xv6Uac.Memory
