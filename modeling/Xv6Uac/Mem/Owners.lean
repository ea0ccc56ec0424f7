import Mathlib.Data.List.Nodup
import Xv6Uac.Mem.Pages

/-!
# Who owns a page

`Owned D own m`: the page directories are those of `D`, and `own` says where each page is that
was given to the allocator. It is on the free list, it is a page directory, it is the page
table at an entry of a page directory, a page directory maps it for the user, or it is held
outside of the page tables. Since `own` is a function, a page is in one place.

Each update of the memory is a move of one page to another place (`Owned.kalloc`,
`Owned.kfree`, `Owned.setPde`, `Owned.setPte`, `Owned.clearPte`, `Owned.newDir`), and `freevm`
moves all pages of a page directory (`Owned.dropDir`). `Moves P own own'` says that only pages
in places of `P` have moved, and to places of `P`.
-/

namespace Xv6Uac.Memory

open Hoare
open Function (update_apply update_comm update_idem update_of_ne update_self)

/-- Pages of the user part of an address space. -/
abbrev USERPAGES : ℕ := KERNBASE / PGSIZE

variable {ι ε : Type}

/-- Where a page can be. Page directories are told apart by an `ι`, and an `ε` is a place
outside of the page tables. -/
inductive Place (ι ε : Type) where
  | free
  | dir (o : ι)
  | table (o : ι) (i : ℕ)
  | page (o : ι) (v : ℕ)
  | other (x : ε)

/-- Where pages are when `o` is no page directory any more. -/
def Place.retire [DecidableEq ι] (o : ι) (x : ε) : Place ι ε → Place ι ε
  | .dir o' => if o' = o then .other x else .dir o'
  | .table o' i => if o' = o then .other x else .table o' i
  | a => a

theorem Place.retire_eq_iff [DecidableEq ι] {o : ι} {x : ε} {a b : Place ι ε} (outside : b ≠ .other x) :
    a.retire o x = b ↔ a = b ∧ b ≠ .dir o ∧ ∀ i, b ≠ .table o i := by
  cases a <;> simp only [Place.retire] <;> grind

/-- Where pages are after `freevm` of `o`. -/
def Place.release [DecidableEq ι] (o : ι) : Place ι ε → Place ι ε
  | .dir o' => if o' = o then .free else .dir o'
  | .table o' i => if o' = o then .free else .table o' i
  | .page o' v => if o' = o then .free else .page o' v
  | a => a

/-- The page directories get other names. -/
def Place.rename (g : ι → ι) : Place ι ε → Place ι ε
  | .free => .free
  | .dir o => .dir (g o)
  | .table o i => .table (g o) i
  | .page o v => .page (g o) v
  | .other x => .other x

theorem Place.rename_eq_iff {g : ι → ι} (involutive : Function.Involutive g) {a b : Place ι ε} :
    a.rename g = b ↔ a = b.rename g := by
  have injective : ∀ {o o'}, g o = o' ↔ o = g o' := involutive.eq_iff
  cases a <;> cases b <;> simp [Place.rename, injective]

/-- The page an entry points to. -/
def Pte.target (e : Pte) : Option ℕ := if e.present then some e.frame else none

@[simp] theorem Pte.target_zero : Pte.zero.target = none := rfl

/-- The page table at an entry of a page directory. -/
def Mem.pde (m : Mem) (D : ι → Option ℕ) (o : ι) (i : ℕ) : Option ℕ :=
  (D o).bind fun d => (m.word d i).target

/-- The page that a page directory maps at page `v`. -/
def Mem.pte (m : Mem) (D : ι → Option ℕ) (o : ι) (v : ℕ) : Option ℕ :=
  (m.pde D o (v / NPTENTRIES)).bind fun t => (m.word t (v % NPTENTRIES)).target

/-- The memory with another entry. -/
def Mem.setWord (m : Mem) (f i : ℕ) (e : Pte) : Mem :=
  { m with word := Function.update m.word f (Function.update (m.word f) i e) }

/-- **The pages and their owners.** -/
structure Owned (D : ι → Option ℕ) (own : ℕ → Option (Place ι ε)) (m : Mem) : Prop where
  nodup : m.freelist.Nodup
  free : ∀ {f}, f ∈ m.freelist ↔ own f = some .free
  dir : ∀ {o f}, D o = some f ↔ own f = some (.dir o)
  table : ∀ {o i f}, i < NPTENTRIES ∧ m.pde D o i = some f ↔ own f = some (.table o i)
  page : ∀ {o v f}, v < USERPAGES ∧ m.pte D o v = some f ↔ own f = some (.page o v)

/-! ## Moves -/

/-- Only pages in places of `P` have moved, and to places of `P`. -/
def Moves (P : Place ι ε → Prop) (own own' : ℕ → Option (Place ι ε)) : Prop :=
  ∀ f, own' f = own f ∨ ∃ a b, own f = some a ∧ own' f = some b ∧ P a ∧ P b

namespace Moves

variable {P Q : Place ι ε → Prop} {own own' own'' : ℕ → Option (Place ι ε)} {f : ℕ}
  {a b : Place ι ε}

theorem refl (P : Place ι ε → Prop) (own : ℕ → Option (Place ι ε)) : Moves P own own :=
  fun _ => .inl rfl

theorem trans (first : Moves P own own') (second : Moves P own' own'') : Moves P own own'' := by
  intro f
  have := first f
  have := second f
  grind

theorem mono (moves : Moves P own own') (more : ∀ a, P a → Q a) : Moves Q own own' := by
  intro f
  obtain same | ⟨a, b, before, after, pa, pb⟩ := moves f
  · exact .inl same
  · exact .inr ⟨a, b, before, after, more a pa, more b pb⟩

/-- A place that is not in `P` keeps its page. -/
theorem keeps (moves : Moves P own own') (out : ¬P a) : own' f = some a ↔ own f = some a := by
  have := moves f
  grind

theorem update (at_ : own f = some a) (pa : P a) (pb : P b) :
    Moves P own (Function.update own f (some b)) := by
  intro g
  obtain rfl | other := eq_or_ne g f
  · exact .inr ⟨a, b, at_, update_self .., pa, pb⟩
  · exact .inl (update_of_ne other ..)

/-- A page is taken out of the way while others move. -/
theorem through {c : Place ι ε} (at_ : own f = some a)
    (moves : Moves P (Function.update own f (some c)) own') (pa : P a) (pb : P b) :
    Moves P own (Function.update own' f (some b)) := by
  intro g
  obtain rfl | other := eq_or_ne g f
  · exact .inr ⟨a, b, at_, update_self .., pa, pb⟩
  · have := moves g
    rw [update_of_ne other] at this ⊢
    exact this

/-- What was given to the allocator stays given. -/
theorem isSome (moves : Moves P own own') (f : ℕ) : (own' f).isSome = (own f).isSome := by
  obtain same | ⟨a, b, before, after, -, -⟩ := moves f
  · rw [same]
  · rw [before, after]
    rfl

end Moves

namespace Owned

variable {D : ι → Option ℕ} {own : ℕ → Option (Place ι ε)} {m : Mem} {o : ι} {x : ε}
  {d t f v i : ℕ}

/-! ## Reading -/

theorem tableOf (owned : Owned D own m) (small : v < USERPAGES)
    (table : m.pde D o (v / NPTENTRIES) = some t) :
    own t = some (.table o (v / NPTENTRIES)) :=
  owned.table.mp ⟨by simp only [USERPAGES, NPTENTRIES, KERNBASE, PGSIZE] at *; omega, table⟩

/-- The memory is read only at page directories and page tables. -/
theorem congr (owned : Owned D own m) (word : ℕ → ℕ → Pte)
    (dirs : ∀ {o d}, own d = some (.dir o) → word d = m.word d)
    (tables : ∀ {o i t}, own t = some (.table o i) → word t = m.word t) :
    (∀ o i, { m with word := word }.pde D o i = m.pde D o i) ∧
      ∀ o v, v < USERPAGES → { m with word := word }.pte D o v = m.pte D o v := by
  have pde : ∀ o i, { m with word := word }.pde D o i = m.pde D o i := by
    intro o i
    rw [Mem.pde, Mem.pde]
    cases dir : D o with
    | none => rfl
    | some d => exact congrArg Pte.target (congrFun (dirs (owned.dir.mp dir)) i)
  refine ⟨pde, fun o v small => ?_⟩
  rw [Mem.pte, Mem.pte, pde]
  cases table : m.pde D o (v / NPTENTRIES) with
  | none => rfl
  | some t => exact congrArg Pte.target (congrFun (tables (owned.tableOf small table)) _)

/-- A page that is neither a page directory nor a page table can be overwritten. -/
theorem fill (owned : Owned D own m) (word : ℕ → Pte)
    (notDir : ∀ o, own f ≠ some (.dir o)) (notTable : ∀ o i, own f ≠ some (.table o i)) :
    Owned D own { m with word := Function.update m.word f word } := by
  obtain ⟨pde, pte⟩ := owned.congr (Function.update m.word f word)
    (fun {o d} dir => update_of_ne (by rintro rfl; exact notDir o dir) ..)
    (fun {o i t} table => update_of_ne (by rintro rfl; exact notTable o i table) ..)
  refine ⟨owned.nodup, owned.free, owned.dir, fun {o i g} => ?_, fun {o v g} => ?_⟩
  · rw [pde]
    exact owned.table
  · rw [← owned.page]
    exact and_congr_right fun small => by rw [pte o v small]

/-! ## The free list -/

theorem take {rest : List ℕ} (owned : Owned D own m) (x : ε) (list : m.freelist = f :: rest) :
    Owned D (Function.update own f (some (.other x))) { m with freelist := rest } := by
  have nodup := owned.nodup
  rw [list, List.nodup_cons] at nodup
  have free : own f = some .free := owned.free.mp (by simp [list])
  refine ⟨nodup.2, fun {g} => ?_, fun {o g} => ?_, fun {o i g} => ?_, fun {o v g} => ?_⟩
  · have old := owned.free (f := g)
    grind
  · rw [owned.dir]
    grind
  · change i < NPTENTRIES ∧ m.pde D o i = some g ↔ _
    rw [owned.table]
    grind
  · change v < USERPAGES ∧ m.pte D o v = some g ↔ _
    rw [owned.page]
    grind

/-- A page outside of the page tables is put on the free list. -/
theorem giveBack (owned : Owned D own m) (outside : ∀ a, own f = some a → ∃ x, a = .other x) :
    Owned D (Function.update own f (some .free))
      { m with
        word := Function.update m.word f fun _ => .junk
        freelist := f :: m.freelist } := by
  have filled := owned.fill (fun _ => .junk)
    (fun o at_ => by obtain ⟨x, same⟩ := outside _ at_; cases same)
    (fun o i at_ => by obtain ⟨x, same⟩ := outside _ at_; cases same)
  have absent : f ∉ m.freelist := by
    intro member
    obtain ⟨x, same⟩ := outside _ (owned.free.mp member)
    cases same
  refine ⟨List.nodup_cons.mpr ⟨absent, owned.nodup⟩, fun {g} => ?_, fun {o g} => ?_,
    fun {o i g} => ?_, fun {o v g} => ?_⟩
  · rw [List.mem_cons, owned.free]
    grind
  · rw [owned.dir]
    grind
  · apply filled.table.trans
    grind
  · apply filled.page.trans
    grind

/-! ## Entries -/

section Entries

variable {o' : ι} {v' j : ℕ} {e : Pte}

variable (owned : Owned D own m)
include owned

theorem setWord_pde (table : own t = some (.table o i)) (o' : ι) (k : ℕ) :
    (m.setWord t j e).pde D o' k = m.pde D o' k := by
  rw [Mem.pde, Mem.pde]
  cases dir : D o' with
  | none => rfl
  | some d =>
    have other : d ≠ t := by
      rintro rfl
      rw [owned.dir, table] at dir
      cases dir
    simp [Mem.setWord, other]

theorem setWord_pte_self (small : v < USERPAGES) (table : m.pde D o (v / NPTENTRIES) = some t) :
    (m.setWord t (v % NPTENTRIES) e).pte D o v = e.target := by
  rw [Mem.pte, owned.setWord_pde (owned.tableOf small table), table]
  simp [Mem.setWord]

theorem setWord_pte_of_ne (table : own t = some (.table o i)) (user : v' < USERPAGES)
    (other : ¬(o' = o ∧ v' / NPTENTRIES = i ∧ v' % NPTENTRIES = j)) :
    (m.setWord t j e).pte D o' v' = m.pte D o' v' := by
  rw [Mem.pte, Mem.pte, owned.setWord_pde table]
  cases found : m.pde D o' (v' / NPTENTRIES) with
  | none => rfl
  | some t' =>
    simp only [Mem.setWord]
    obtain rfl | different := eq_or_ne t' t
    · have same := owned.tableOf user found
      rw [table] at same
      cases same
      have column : v' % NPTENTRIES ≠ j := fun column => other ⟨rfl, rfl, column⟩
      simp [column]
    · simp [different]

section

variable (small : v < USERPAGES)
include small

section

variable (table : m.pde D o (v / NPTENTRIES) = some t)
include table

/-- The entry of a page `v` is written, and the page `f` moves to the place `b`. -/
theorem setPte_of {own' : ℕ → Option (Place ι ε)}
    (page : ∀ {g}, e.target = some g ↔ own' g = some (.page o v))
    (same : ∀ {g a}, a ≠ .page o v → (∀ x, a ≠ .other x) → (own' g = some a ↔ own g = some a)) :
    Owned D own' (m.setWord t (v % NPTENTRIES) e) := by
  have isTable := owned.tableOf small table
  refine ⟨owned.nodup, fun {g} => ?_, fun {o' g} => ?_, fun {o' k g} => ?_, fun {o' v' g} => ?_⟩
  · rw [same (by simp) (by simp)]
    exact owned.free
  · rw [same (by simp) (by simp)]
    exact owned.dir
  · rw [same (by simp) (by simp), owned.setWord_pde isTable]
    exact owned.table
  · by_cases this : o' = o ∧ v' = v
    · obtain ⟨rfl, rfl⟩ := this
      rw [owned.setWord_pte_self small table, page]
      exact and_iff_right small
    · rw [same (by simpa using this) (by simp), ← owned.page]
      refine and_congr_right fun user => ?_
      rw [owned.setWord_pte_of_ne isTable user]
      rintro ⟨rfl, row, column⟩
      exact this ⟨rfl, by rw [← Nat.div_add_mod v' NPTENTRIES, row, column, Nat.div_add_mod]⟩

/-- A page is mapped. -/
theorem setPte (none : m.pte D o v = none) (held : own f = some (.other x))
    (target : e.target = some f) :
    Owned D (Function.update own f (some (.page o v))) (m.setWord t (v % NPTENTRIES) e) := by
  have unmapped : ∀ g, own g ≠ some (.page o v) := by
    intro g mapped
    rw [← owned.page, none] at mapped
    cases mapped.2
  refine owned.setPte_of small table (fun {g} => ?_) fun {g a} notPage notOther => ?_
  · grind
  · grind

/-- A mapping is removed. -/
theorem clearPte (mapped : m.pte D o v = some f) (x : ε) :
    Owned D (Function.update own f (some (.other x))) (m.setWord t (v % NPTENTRIES) .zero) := by
  have page : own f = some (.page o v) := owned.page.mp ⟨small, mapped⟩
  have only : ∀ {g}, own g = some (.page o v) → g = f := by
    intro g at_
    rw [← owned.page, mapped] at at_
    exact (Option.some.inj at_.2).symm
  refine owned.setPte_of small table (fun {g} => ?_) fun {g a} notPage notOther => ?_
  · rw [Pte.target_zero]
    grind
  · grind

/-- A mapping is removed after its page was put on the free list. -/
theorem freePage [Inhabited ε] (mapped : m.pte D o v = some f) :
    Owned D (Function.update own f (some .free))
      (Mem.setWord
        { m with
          word := Function.update m.word f fun _ => .junk
          freelist := f :: m.freelist }
        t (v % NPTENTRIES) .zero) := by
  have apart : t ≠ f := by
    rintro rfl
    have page := owned.page.mp ⟨small, mapped⟩
    rw [owned.tableOf small table] at page
    cases page
  have cleared := owned.clearPte small table mapped default
  have back := cleared.giveBack (f := f) (by simp)
  rw [update_idem] at back
  -- the two updates touch different pages, so their order does not matter
  convert back using 1
  simp only [Mem.setWord, Mem.mk.injEq, update_of_ne apart, true_and]
  exact update_comm apart.symm _ _ _

/-- The flags of an entry are changed. -/
theorem setFlags (target : e.target = m.pte D o v) :
    Owned D own (m.setWord t (v % NPTENTRIES) e) := by
  refine owned.setPte_of small table (fun {g} => ?_) fun _ _ => Iff.rfl
  rw [target, ← owned.page]
  exact (and_iff_right small).symm

end

end

/-- An entry of the kernel's part is written. -/
theorem setKernelPte (large : USERPAGES ≤ v) (table : own t = some (.table o (v / NPTENTRIES))) :
    Owned D own (m.setWord t j e) := by
  refine ⟨owned.nodup, owned.free, owned.dir, fun {o' k g} => ?_, fun {o' v' g} => ?_⟩
  · rw [owned.setWord_pde table]
    exact owned.table
  · rw [← owned.page]
    refine and_congr_right fun user => ?_
    rw [owned.setWord_pte_of_ne table user]
    rintro ⟨-, row, -⟩
    simp only [USERPAGES, NPTENTRIES, KERNBASE, PGSIZE] at *
    omega

/-- A page table is entered into a page directory. -/
theorem setPde (dir : D o = some d) (inside : i < NPTENTRIES) (empty : m.pde D o i = none)
    (held : own t = some (.other x)) (blank : ∀ j, (m.word t j).target = none)
    (target : e.target = some t) :
    Owned D (Function.update own t (some (.table o i))) (m.setWord d i e) := by
  have isDir := owned.dir.mp dir
  have apart : t ≠ d := by
    rintro rfl
    rw [held] at isDir
    cases isDir
  have self : (m.setWord d i e).pde D o i = some t := by
    simp [Mem.pde, dir, Mem.setWord, target]
  have others : ∀ {o' k}, ¬(o' = o ∧ k = i) → (m.setWord d i e).pde D o' k = m.pde D o' k := by
    intro o' k other
    rw [Mem.pde, Mem.pde]
    cases found : D o' with
    | none => rfl
    | some d' =>
      simp only [Mem.setWord]
      obtain rfl | different := eq_or_ne d' d
      · have same := owned.dir.mp found
        rw [isDir] at same
        cases same
        have row : k ≠ i := fun row => other ⟨rfl, row⟩
        simp [row]
      · simp [different]
  refine ⟨owned.nodup, fun {g} => ?_, fun {o' g} => ?_, fun {o' k g} => ?_, fun {o' v' g} => ?_⟩
  · change g ∈ m.freelist ↔ _
    rw [owned.free]
    grind
  · rw [owned.dir]
    grind
  · by_cases this : o' = o ∧ k = i
    · obtain ⟨rfl, rfl⟩ := this
      have old : own g ≠ some (.table o' k) := by
        intro at_
        rw [← owned.table, empty] at at_
        cases at_.2
      grind
    · rw [others this, owned.table]
      grind
  · have pte : v' < USERPAGES → (m.setWord d i e).pte D o' v' = m.pte D o' v' := by
      intro user
      rw [Mem.pte, Mem.pte]
      by_cases this : o' = o ∧ v' / NPTENTRIES = i
      · obtain ⟨rfl, rfl⟩ := this
        rw [self, empty]
        simp [Mem.setWord, apart, blank]
      · rw [others this]
        cases found : m.pde D o' (v' / NPTENTRIES) with
        | none => rfl
        | some t' =>
          have different : t' ≠ d := by
            rintro rfl
            have same := owned.tableOf user found
            rw [isDir] at same
            cases same
          simp [Mem.setWord, different]
    have unchanged : v' < USERPAGES ∧ (m.setWord d i e).pte D o' v' = some g ↔
        own g = some (.page o' v') := by
      rw [← owned.page]
      exact and_congr_right fun user => by rw [pte user]
    grind

end Entries

/-! ## Page directories -/

variable [DecidableEq ι]

/-- A blank page becomes a page directory. -/
theorem newDir (owned : Owned D own m) (fresh : D o = none) (held : own d = some (.other x))
    (blank : ∀ j, (m.word d j).target = none) :
    Owned (Function.update D o (some d)) (Function.update own d (some (.dir o))) m := by
  have self : ∀ k, m.pde (Function.update D o (some d)) o k = none := by
    intro k
    simp [Mem.pde, blank]
  have others : ∀ {o'} k, o' ≠ o → m.pde (Function.update D o (some d)) o' k = m.pde D o' k := by
    intro o' k other
    simp [Mem.pde, other]
  have before : ∀ k, m.pde D o k = none := by
    intro k
    simp [Mem.pde, fresh]
  have pde : ∀ o' k, m.pde (Function.update D o (some d)) o' k = m.pde D o' k := by
    intro o' k
    obtain rfl | other := eq_or_ne o' o
    · rw [self, before]
    · exact others k other
  refine ⟨owned.nodup, fun {g} => ?_, fun {o' g} => ?_, fun {o' k g} => ?_, fun {o' v' g} => ?_⟩
  · rw [owned.free]
    grind
  · have old := owned.dir (o := o') (f := g)
    grind
  · rw [pde, owned.table]
    grind
  · rw [Mem.pte, pde, ← Mem.pte, owned.page]
    grind

/-- A page directory that maps no page for the user is given up. It and its page tables are
outside then. -/
theorem dropDir (owned : Owned D own m) (unmapped : ∀ f v, own f ≠ some (.page o v)) (x : ε) :
    Owned (Function.update D o none) (fun f => (own f).map (Place.retire o x)) m := by
  have self : ∀ k, m.pde (Function.update D o none) o k = none := by
    intro k
    simp [Mem.pde]
  have others : ∀ {o'} k, o' ≠ o → m.pde (Function.update D o none) o' k = m.pde D o' k := by
    intro o' k other
    simp [Mem.pde, other]
  have moved : ∀ {g b}, b ≠ .other x →
      ((own g).map (Place.retire o x) = some b ↔
        own g = some b ∧ b ≠ .dir o ∧ ∀ i, b ≠ .table o i) := by
    intro g b outside
    simp only [Option.map_eq_some_iff, Place.retire_eq_iff outside]
    grind
  refine ⟨owned.nodup, fun {g} => ?_, fun {o' g} => ?_, fun {o' k g} => ?_, fun {o' v g} => ?_⟩
  · rw [owned.free, moved (by simp)]
    simp
  · rw [moved (by simp)]
    obtain rfl | other := eq_or_ne o' o
    · simp
    · simp [other, owned.dir]
  · rw [moved (by simp)]
    obtain rfl | other := eq_or_ne o' o
    · simp [self]
    · rw [others k other, owned.table]
      simp [other]
  · rw [moved (by simp)]
    obtain rfl | other := eq_or_ne o' o
    · simp [Mem.pte, self, unmapped]
    · rw [Mem.pte, others _ other, ← Mem.pte, owned.page]
      simp

omit [DecidableEq ι] in
/-- The page directories get other names. -/
theorem rename {g : ι → ι} (owned : Owned D own m) (involutive : Function.Involutive g) :
    Owned (D ∘ g) (fun f => (own f).map (Place.rename g)) m := by
  have moved : ∀ {f b}, (own f).map (Place.rename g) = some b ↔ own f = some (b.rename g) := by
    intro f b
    simp only [Option.map_eq_some_iff, Place.rename_eq_iff involutive]
    exact ⟨fun ⟨a, at_, same⟩ => same ▸ at_, fun at_ => ⟨_, at_, rfl⟩⟩
  refine ⟨owned.nodup, ?_, ?_, ?_, ?_⟩ <;> intros <;> rw [moved]
  · exact owned.free
  · exact owned.dir
  · exact owned.table
  · exact owned.page

end Owned

end Xv6Uac.Memory
