import Xv6Uac.Mem.Owners

/-!
# What the functions of `vm.c` do to the pages

One specification for each function: between which places it moves pages, and which pages of
the user are mapped after it. A function that fails gives back every page it took.
-/

namespace Xv6Uac.Memory

open Hoare hiding update
open Function (update update_apply update_eq_self update_idem update_of_ne update_self)

variable {ι ε : Type}

/-- The places in which `walkpgdir`, `allocuvm` and `deallocuvm` take and put pages of the page
directory `o`: pages of the user from `lo` up to `hi`. -/
inductive Area (o : ι) (lo hi : ℕ) : Place ι ε → Prop
  | free : Area o lo hi .free
  | table (i : ℕ) : Area o lo hi (.table o i)
  | page {w : ℕ} (above : lo ≤ w) (below : w < hi) : Area o lo hi (.page o w)

theorem Area.mono {o : ι} {lo hi lo' hi' : ℕ} (less : lo' ≤ lo) (more : hi ≤ hi') (a : Place ι ε)
    (area : Area o lo hi a) : Area o lo' hi' a := by
  cases area with
  | free => exact .free
  | table i => exact .table i
  | page above below => exact .page (Nat.le_trans less above) (Nat.lt_of_lt_of_le below more)

/-- The places of a page directory that is made: pages of the user up to `hi`. -/
def Fresh (o : ι) (hi : ℕ) (a : Place ι ε) : Prop := a = .dir o ∨ Area o 0 hi a

theorem Fresh.of_area {o : ι} {lo hi : ℕ} (a : Place ι ε) (area : Area o lo hi a) : Fresh o hi a :=
  .inr (area.mono (Nat.zero_le _) (Nat.le_refl _) a)

theorem Fresh.mono {o : ι} {hi hi' : ℕ} (more : hi ≤ hi') (a : Place ι ε) (fresh : Fresh o hi a) :
    Fresh o hi' a :=
  fresh.imp_right (Area.mono (Nat.le_refl 0) more a)

theorem Fresh.not_other {o : ι} {hi : ℕ} (x : ε) : ¬Fresh o hi (.other x : Place ι ε) := by
  rintro (same | area)
  · cases same
  · cases area

theorem Fresh.page_iff {o o' : ι} {hi v : ℕ} :
    Fresh o hi (.page o' v : Place ι ε) ↔ o' = o ∧ v < hi := by
  constructor
  · rintro (same | area)
    · cases same
    · cases area
      exact ⟨rfl, by assumption⟩
  · rintro ⟨rfl, below⟩
    exact .inr (.page (Nat.zero_le v) below)

/-- The pages of the user from `lo` up to `hi` are mapped. -/
def Grown (own : ℕ → Option (Place ι ε)) (o : ι) (lo hi : ℕ) : Prop :=
  ∀ w, lo ≤ w → w < hi → ∃ f, own f = some (.page o w)

/-- No page of the user from `lo` up to `hi` is mapped. -/
def Bare (own : ℕ → Option (Place ι ε)) (o : ι) (lo hi : ℕ) : Prop :=
  ∀ f w, lo ≤ w → w < hi → own f ≠ some (.page o w)

/-- The panics of `copyuvm` do not occur if `ok`. -/
def Calm (ok : Prop) (reason : Stop) : Prop :=
  ok → reason ≠ .pteShouldExist ∧ reason ≠ .pageNotPresent

theorem mul_lt_iff_lt_pages {v sz : ℕ} : v * PGSIZE < sz ↔ v < pages sz := by
  simp only [pages, PGSIZE]
  omega

variable {L : Layout} {ok : Prop} {D : ι → Option ℕ} {own : ℕ → Option (Place ι ε)} {m : Mem}
  {o : ι} {d f v : ℕ}

namespace Owned

/-! ## The allocator -/

theorem kalloc (owned : Owned D own m) (x : ε) :
    wp (Calm ok) (kalloc L) (fun r m' => m'.word = m.word ∧ match r with
      | none => Owned D own m'
      | some f => own f = some .free ∧ Owned D (update own f (some (.other x))) m') m := by
  have later : Owned D own { m with kallocs := m.kallocs + 1 } :=
    ⟨owned.nodup, owned.free, owned.dir, owned.table, owned.page⟩
  rw [Memory.kalloc, wp_read, wp_bind, wp_update, wp_read]
  split
  · exact ⟨rfl, later⟩
  · rename_i f rest list
    refine wp.ite (fun _ => ⟨rfl, later⟩) fun _ => ?_
    refine ⟨rfl, owned.free.mp ?_, later.take x list⟩
    exact list ▸ List.mem_cons_self

theorem kfree (owned : Owned D own m) (outside : ∀ a, own f = some a → ∃ x, a = .other x) :
    wp (Calm ok) (kfree L f) (fun _ m' => Owned D (update own f (some .free)) m' ∧
      ∀ g, g ≠ f → m'.word g = m.word g) m := by
  refine wp.ite (fun _ _ => by decide) fun _ => ?_
  exact ⟨owned.giveBack outside, fun g other => update_of_ne other ..⟩

/-! ## Page tables -/

/-- Without `alloc` the page directory is only read. -/
theorem walkpgdir_false (dir : D o = some d) {Q : Option ℕ → Mem → Prop}
    (found : Q (m.pde D o (v / NPTENTRIES)) m) : wp (Calm ok) (walkpgdir L d v false) Q m := by
  rw [walkpgdir, wp_read]
  rw [Mem.pde, dir, Option.bind_some, Pte.target] at found
  split at found
  · rename_i present
    rwa [if_pos present]
  · rename_i absent
    rwa [if_neg absent]

theorem clearpteu (owned : Owned D own m) (dir : D o = some d) (small : v < USERPAGES) :
    wp (Calm ok) (clearpteu L d v) (fun _ m' => Owned D own m') m := by
  rw [Memory.clearpteu, wp_bind]
  apply walkpgdir_false dir
  cases table : m.pde D o (v / NPTENTRIES) with
  | none => exact fun _ => by decide
  | some t =>
    apply owned.setFlags small table
    rw [Mem.pte, table]
    rfl

theorem loaduvm {reads : ℕ → Bool} (n : ℕ) (owned : Owned D own m) (dir : D o = some d) :
    wp (Calm ok) (loaduvm L d reads n v) (fun _ m' => Owned D own m') m := by
  induction n generalizing v with
  | zero => exact owned
  | succ n ih =>
    rw [Memory.loaduvm, wp_bind]
    apply walkpgdir_false dir
    cases m.pde D o (v / NPTENTRIES) with
    | none => exact fun _ => by decide
    | some t =>
      exact wp.ite (fun _ => ih) fun _ => owned

/-- Without a page directory `o` no page is in a place of `o`. -/
theorem release_of_none [DecidableEq ι] (owned : Owned D own m) (fresh : D o = none) {own' : ℕ → Option (Place ι ε)}
    {hi : ℕ} (moves : Moves (Fresh o hi) own own') :
    (fun f => (own' f).map (Place.release o)) = own := by
  have pde : ∀ i, m.pde D o i = none := fun i => by simp [Mem.pde, fresh]
  have notDir : ∀ f, own f ≠ some (.dir o) := by
    intro f at_
    rw [← owned.dir, fresh] at at_
    cases at_
  have notTable : ∀ f i, own f ≠ some (.table o i) := by
    intro f i at_
    rw [← owned.table, pde] at at_
    cases at_.2
  have notPage : ∀ f v, own f ≠ some (.page o v) := by
    intro f v at_
    rw [← owned.page, Mem.pte, pde] at at_
    cases at_.2
  have stays : ∀ f, (own f).map (Place.release o) = own f := by
    intro f
    cases at_ : own f with
    | none => rfl
    | some a => cases a <;> simp only [Option.map_some, Place.release] <;> grind
  have freed : ∀ a, Fresh o hi a → (a : Place ι ε).release o = .free := by
    rintro a (rfl | area)
    · simp [Place.release]
    · cases area <;> simp [Place.release]
  funext f
  obtain same | ⟨a, b, before, after, ina, inb⟩ := moves f
  · rw [same, stays]
  · rw [← stays f, before, after, Option.map_some, Option.map_some, freed a ina, freed b inb]

/-- With `alloc` a missing page table is made. -/
theorem walkpgdir_true [Inhabited ε] (owned : Owned D own m) (dir : D o = some d)
    (small : v < NPTENTRIES * NPTENTRIES) :
    wp (Calm ok) (walkpgdir L d v true) (fun r m' => match r with
      | none => Owned D own m'
      | some t => ∃ own', Owned D own' m' ∧ Moves (Area o 0 0) own own' ∧
          m'.pde D o (v / NPTENTRIES) = some t) m := by
  have row : v / NPTENTRIES < NPTENTRIES := Nat.div_lt_of_lt_mul small
  refine wp.ite (fun present => ?_) fun absent => ?_
  · refine ⟨own, owned, .refl _ _, ?_⟩
    rw [Mem.pde, dir, Option.bind_some, Pte.target, if_pos present]
  · apply (owned.kalloc default).seq
    rintro r m₁ ⟨words, after⟩
    cases r with
    | none => exact after
    | some t =>
      obtain ⟨free, taken⟩ := after
      have held : update own t (some (.other default)) t = some (.other default) :=
        update_self ..
      have blank := taken.fill (f := t) (fun _ => .zero) (fun o => by simp) (by simp)
      have empty : m₁.pde D o (v / NPTENTRIES) = none := by
        rw [Mem.pde, dir, Option.bind_some, words, Pte.target, if_neg absent]
      have apart : d ≠ t := by
        rintro rfl
        rw [owned.dir, free] at dir
        cases dir
      have missing : { m₁ with word := update m₁.word t fun _ => .zero }.pde D o
          (v / NPTENTRIES) = none := by
        rw [Mem.pde, dir] at empty ⊢
        simpa [apart] using empty
      have entered := blank.setPde (e := ⟨true, true, true, t⟩) dir row missing held
        (fun j => by simp) rfl
      rw [update_idem] at entered
      refine ⟨_, entered, .update free .free (.table _), ?_⟩
      simp [Mem.pde, dir, Pte.target]

/-- A page that the call took is mapped. -/
theorem mapTaken {own₁ : ℕ → Option (Place ι ε)} {x : ε} {lo hi : ℕ} (free : own f = some .free)
    (moves : Moves (Area o 0 0) (update own f (some (.other x))) own₁) (above : lo ≤ v)
    (below : v < hi) (grown : Grown own o lo v) :
    Moves (Area o lo hi) own (update own₁ f (some (.page o v))) ∧
      Grown (update own₁ f (some (.page o v))) o lo (v + 1) := by
  have wider : Moves (Area o lo hi) (update own f (some (.other x))) own₁ :=
    moves.mono fun a area => by
      cases area with
      | free => exact .free
      | table i => exact .table i
      | page above below => omega
  refine ⟨.through free wider .free (.page above below), fun w least most => ?_⟩
  obtain less | rfl := Nat.lt_succ_iff_lt_or_eq.mp most
  · obtain ⟨g, mapped⟩ := grown w least less
    have other : g ≠ f := by
      rintro rfl
      rw [free] at mapped
      cases mapped
    refine ⟨g, ?_⟩
    rwa [update_of_ne other, moves.keeps (by rintro ⟨⟩; omega), update_of_ne other]
  · exact ⟨f, update_self ..⟩

variable [Inhabited ε]

/-- The mappings of the kernel take page tables, and map no page for the user. -/
theorem mappages_kernel {writable user : Bool} (n pa : ℕ) (owned : Owned D own m)
    (dir : D o = some d) (large : USERPAGES ≤ v) (small : v + n ≤ NPTENTRIES * NPTENTRIES) :
    wp (Calm ok) (mappages L d writable user n v pa) (fun _ m' =>
      ∃ own', Owned D own' m' ∧ Moves (Area o 0 0) own own') m := by
  induction n generalizing own m v pa with
  | zero => exact ⟨own, owned, .refl _ _⟩
  | succ n ih =>
    refine (owned.walkpgdir_true dir (by omega)).seq fun r m₁ after => ?_
    cases r with
    | none => exact ⟨own, after, .refl _ _⟩
    | some t =>
      obtain ⟨own₁, owned₁, moves, table⟩ := after
      have isTable : own₁ t = some (.table o (v / NPTENTRIES)) :=
        owned₁.table.mp ⟨Nat.div_lt_of_lt_mul (by omega), table⟩
      refine wp.ite (fun _ _ => by decide) fun _ => ?_
      have written := owned₁.setKernelPte (e := ⟨true, writable, user, pa⟩)
        (j := v % NPTENTRIES) large isTable
      apply (ih (pa + 1) written (by omega) (by omega)).mono
      rintro _ m' ⟨own', owned', more⟩
      exact ⟨own', owned', moves.trans more⟩

theorem mapKernel (ks : List Kmap) (owned : Owned D own m) (dir : D o = some d)
    (kernel : ∀ k ∈ ks, KERNBASE ≤ k.virt ∧ 0 < k.size ∧ k.virt + k.size ≤ 2 ^ 32) :
    wp (Calm ok) (mapKernel L d ks) (fun _ m' =>
      ∃ own', Owned D own' m' ∧ Moves (Area o 0 0) own own') m := by
  induction ks generalizing own m with
  | nil => exact ⟨own, owned, .refl _ _⟩
  | cons k ks ih =>
    obtain ⟨above, some, below⟩ := kernel k List.mem_cons_self
    refine (owned.mappages_kernel _ _ dir ?_ ?_).seq fun r m₁ after => ?_
    · simp only [USERPAGES, PGSIZE] at *
      omega
    · simp only [PGSIZE, NPTENTRIES] at *
      omega
    · obtain ⟨own₁, owned₁, moves⟩ := after
      refine wp.ite (fun _ => ?_) fun _ => ⟨own₁, owned₁, moves⟩
      apply (ih owned₁ fun k member => kernel k (List.mem_cons_of_mem _ member)).mono
      rintro _ m' ⟨own', owned', more⟩
      exact ⟨own', owned', moves.trans more⟩

/-- A page that the call holds is mapped at `v`. -/
theorem mappages_user {writable user : Bool} {x : ε} (owned : Owned D own m) (dir : D o = some d)
    (small : v < USERPAGES) (held : own f = some (.other x)) :
    wp (Calm ok) (mappages L d writable user 1 v f) (fun r m' =>
      if r then ∃ own', Moves (Area o 0 0) own own' ∧
        Owned D (update own' f (some (.page o v))) m'
      else Owned D own m') m := by
  rw [mappages, wp_bind]
  have inside : v < NPTENTRIES * NPTENTRIES := by
    simp only [USERPAGES, KERNBASE, PGSIZE, NPTENTRIES] at *
    omega
  refine (owned.walkpgdir_true dir inside).mono fun r m₁ after => ?_
  cases r with
  | none => exact after
  | some t =>
    obtain ⟨own₁, owned₁, moves, table⟩ := after
    refine wp.ite (fun _ _ => by decide) fun absent => ?_
    have free : m₁.pte D o v = none := by
      rw [Mem.pte, table, Option.bind_some, Pte.target, if_neg absent]
    have held₁ : own₁ f = some (.other x) := (moves.keeps (by rintro ⟨⟩)).mpr held
    exact ⟨own₁, moves, owned₁.setPte small table free held₁ rfl⟩

/-! ## Removing pages -/

theorem deallocLoop {oldsz : ℕ} (n : ℕ) (owned : Owned D own m) (dir : D o = some d)
    (bounded : oldsz ≤ KERNBASE) (enough : pages oldsz ≤ v + n) :
    wp (Calm ok) (deallocLoop L d oldsz n v) (fun _ m' =>
      ∃ own', Owned D own' m' ∧ Moves (Area o v (pages oldsz)) own own' ∧
        Bare own' o v (pages oldsz)) m := by
  induction n generalizing own m v with
  | zero => exact ⟨own, owned, .refl _ _, fun f w above below => by omega⟩
  | succ n ih =>
    refine wp.ite (fun inside => ?_) fun outside => ?_
    · rw [mul_lt_iff_lt_pages] at inside
      have user : v < USERPAGES := by
        simp only [pages, USERPAGES, KERNBASE, PGSIZE] at *
        omega
      rw [wp_bind]
      apply walkpgdir_false dir
      cases table : m.pde D o (v / NPTENTRIES) with
      | none =>
        -- no page of the missing page table is mapped
        have skipped : Bare own o v ((v / NPTENTRIES + 1) * NPTENTRIES) := by
          intro f w above below mapped
          have row : w / NPTENTRIES = v / NPTENTRIES := by
            simp only [NPTENTRIES] at *
            omega
          rw [← owned.page, Mem.pte, row, table] at mapped
          cases mapped.2
        have ahead : v + 1 ≤ (v / NPTENTRIES + 1) * NPTENTRIES := by
          simp only [NPTENTRIES]
          omega
        apply (ih owned (by omega)).mono
        rintro _ m' ⟨own', owned', moves, bare⟩
        refine ⟨own', owned', moves.mono (Area.mono (by omega) (Nat.le_refl _)), fun f w above below => ?_⟩
        by_cases jump : w < (v / NPTENTRIES + 1) * NPTENTRIES
        · rw [Ne, moves.keeps (by rintro ⟨⟩; omega)]
          exact skipped f w above jump
        · exact bare f w (by omega) below
      | some t =>
        rw [wp_read, wp_bind, wp_when]
        have last : ∀ {own₁ m₁}, Owned D own₁ m₁ → Moves (Area o v (pages oldsz)) own own₁ →
            (∀ f, own₁ f ≠ some (.page o v)) →
            wp (Calm ok) (Memory.deallocLoop L d oldsz n (v + 1)) (fun _ m' =>
              ∃ own', Owned D own' m' ∧ Moves (Area o v (pages oldsz)) own own' ∧
                Bare own' o v (pages oldsz)) m₁ := by
          intro own₁ m₁ owned₁ moves₁ gone
          apply (ih owned₁ (by omega)).mono
          rintro _ m' ⟨own', owned', moves, bare⟩
          refine ⟨own', owned', moves₁.trans (moves.mono (Area.mono (by omega) (Nat.le_refl _))),
            fun f w above below => ?_⟩
          obtain rfl | beyond := Nat.eq_or_lt_of_le above
          · rw [Ne, moves.keeps (by rintro ⟨⟩; omega)]
            exact gone f
          · exact bare f w beyond below
        refine ⟨fun present => ?_, fun absent => ?_⟩
        · have mapped : m.pte D o v = some (m.word t (v % NPTENTRIES)).frame := by
            rw [Mem.pte, table, Option.bind_some, Pte.target, if_pos present]
          have page := owned.page.mp ⟨user, mapped⟩
          rw [wp_bind]
          have freed := owned.freePage user table mapped
          refine wp.ite (fun _ _ => by decide) fun _ => ?_
          refine last freed (.update page (.page (Nat.le_refl v) inside) .free) fun g => ?_
          obtain rfl | other := eq_or_ne g (m.word t (v % NPTENTRIES)).frame
          · simp
          · rw [update_of_ne other]
            intro mapped'
            rw [← owned.page, mapped] at mapped'
            exact other (Option.some.inj mapped'.2).symm
        · refine last owned (.refl _ _) fun f mapped => ?_
          rw [← owned.page, Mem.pte, table, Option.bind_some, Pte.target, if_neg absent] at mapped
          cases mapped.2
    · rw [mul_lt_iff_lt_pages] at outside
      exact ⟨own, owned, .refl _ _, fun f w above below => by omega⟩

theorem deallocuvm {oldsz newsz : ℕ} (owned : Owned D own m) (dir : D o = some d)
    (bounded : oldsz ≤ KERNBASE) :
    wp (Calm ok) (deallocuvm L d oldsz newsz) (fun r m' => r = min oldsz newsz ∧
      ∃ own', Owned D own' m' ∧ Moves (Area o (pages newsz) (pages oldsz)) own own' ∧
        Bare own' o (pages newsz) (pages oldsz)) m := by
  refine wp.ite (fun less => ?_) fun more => ?_
  · refine ⟨(Nat.min_eq_left less).symm, own, owned, .refl _ _, fun f w above below => ?_⟩
    simp only [pages, PGSIZE] at *
    omega
  · refine (owned.deallocLoop _ dir bounded (by omega)).seq fun _ m' done => ?_
    exact ⟨by omega, done⟩

/-! ## Adding pages -/

theorem allocLoop {oldsz newsz : ℕ} (n : ℕ) (owned : Owned D own m) (dir : D o = some d)
    (bounded : newsz < KERNBASE) (above : pages oldsz ≤ v) (enough : v + n = pages newsz)
    (grown : Grown own o (pages oldsz) v) :
    wp (Calm ok) (allocLoop L d oldsz newsz n v) (fun r m' => ∃ own', Owned D own' m' ∧
      Moves (Area o (pages oldsz) (pages newsz)) own own' ∧
      (r = newsz ∧ Grown own' o (pages oldsz) (pages newsz) ∨
        r = 0 ∧ Bare own' o (pages oldsz) (pages newsz))) m := by
  induction n generalizing own m v with
  | zero =>
    obtain rfl : v = pages newsz := by omega
    exact ⟨own, owned, .refl _ _, .inl ⟨rfl, grown⟩⟩
  | succ n ih =>
    have user : v < USERPAGES := by
      simp only [pages, USERPAGES, KERNBASE, PGSIZE] at *
      omega
    apply (owned.kalloc default).seq
    rintro r m₁ ⟨-, after⟩
    cases r with
    | none =>
      apply (after.deallocuvm dir (Nat.le_of_lt bounded)).seq
      rintro _ m' ⟨-, own', owned', moves, bare⟩
      exact ⟨own', owned', moves, .inr ⟨rfl, bare⟩⟩
    | some f =>
      obtain ⟨free, taken⟩ := after
      have blank := taken.fill (f := f) (fun _ => .zero) (by simp) (by simp)
      rw [wp_bind]
      refine (blank.mappages_user dir user (update_self ..)).seq fun r m₂ after => ?_
      refine wp.ite (fun mapped => ?_) fun failed => ?_
      · rw [if_pos mapped] at after
        obtain ⟨own₁, moves, owned₂⟩ := after
        obtain ⟨moved, grown'⟩ := mapTaken free moves above (by omega : v < pages newsz) grown
        apply (ih owned₂ (by omega) (by omega) grown').mono
        rintro r m' ⟨own', owned', more, result⟩
        exact ⟨own', owned', moved.trans more, result⟩
      · rw [if_neg failed] at after
        apply (after.deallocuvm dir (Nat.le_of_lt bounded)).seq
        rintro _ m₃ ⟨-, own₃, owned₃, moves, bare⟩
        have held : own₃ f = some (.other default) :=
          (moves.keeps (by rintro ⟨⟩)).mpr (update_self ..)
        refine (owned₃.kfree ?_).seq fun _ m' after => ?_
        · intro a at_
          rw [held] at at_
          exact ⟨default, (Option.some.inj at_).symm⟩
        · refine ⟨_, after.1, .through free moves .free .free, .inr ⟨rfl, ?_⟩⟩
          intro g w least most
          obtain rfl | other := eq_or_ne g f
          · simp
          · rw [update_of_ne other]
            exact bare g w least most

/-- **`allocuvm` maps all of the new pages or none.** -/
theorem allocuvm {oldsz newsz : ℕ} (owned : Owned D own m) (dir : D o = some d) :
    wp (Calm ok) (allocuvm L d oldsz newsz) (fun r m' =>
      KERNBASE ≤ newsz ∧ r = 0 ∧ m' = m ∨ newsz < KERNBASE ∧ newsz < oldsz ∧ r = oldsz ∧ m' = m ∨
      newsz < KERNBASE ∧ oldsz ≤ newsz ∧ ∃ own', Owned D own' m' ∧
        Moves (Area o (pages oldsz) (pages newsz)) own own' ∧
        (r = newsz ∧ Grown own' o (pages oldsz) (pages newsz) ∨
          r = 0 ∧ Bare own' o (pages oldsz) (pages newsz))) m := by
  refine wp.ite (fun large => .inl ⟨large, rfl, rfl⟩) fun small => ?_
  refine wp.ite (fun less => .inr (.inl ⟨by omega, less, rfl, rfl⟩)) fun more => ?_
  have bounded : newsz < KERNBASE := by omega
  have order : pages oldsz ≤ pages newsz := by
    simp only [pages, PGSIZE]
    omega
  refine (owned.allocLoop _ dir bounded (Nat.le_refl _) (by omega) ?_).mono fun r m' done =>
    .inr (.inr ⟨bounded, by omega, done⟩)
  intro w least most
  omega

theorem copyLoop {src : ι} {old new sz : ℕ} (n : ℕ) (owned : Owned D own m) (different : o ≠ src)
    (dir : D o = some new) (source : D src = some old) (bounded : sz ≤ KERNBASE)
    (enough : v + n = pages sz) (grown : Grown own o 0 v)
    (full : ok → Grown own src 0 (pages sz)) :
    wp (Calm ok) (copyLoop L old new n v) (fun r m' => ∃ own', Owned D own' m' ∧
      Moves (Fresh o (pages sz)) own own' ∧ (r = true → Grown own' o 0 (pages sz))) m := by
  induction n generalizing own m v with
  | zero =>
    obtain rfl : v = pages sz := by omega
    exact ⟨own, owned, .refl _ _, fun _ => grown⟩
  | succ n ih =>
    have user : v < USERPAGES := by
      simp only [pages, USERPAGES, KERNBASE, PGSIZE] at *
      omega
    have mapped : ok → ∃ f, m.pte D src v = some f := fun holds =>
      (full holds v (Nat.zero_le v) (by omega)).imp fun f at_ => (owned.page.mpr at_).2
    rw [Memory.copyLoop, wp_bind]
    apply walkpgdir_false source
    cases table : m.pde D src (v / NPTENTRIES) with
    | none =>
      refine fun holds => absurd (mapped holds) ?_
      simp [Mem.pte, table]
    | some t =>
      refine wp.ite (fun absent holds => absurd (mapped holds) ?_) fun _ => ?_
      · simp [Mem.pte, table, Pte.target, absent]
      · apply (owned.kalloc default).seq
        rintro r m₁ ⟨-, after⟩
        cases r with
        | none => exact ⟨own, after, .refl _ _, fun none => by cases none⟩
        | some f =>
          obtain ⟨free, taken⟩ := after
          refine (taken.mappages_user dir user (update_self ..)).seq
            fun r m₂ after => ?_
          refine wp.ite (fun done => ?_) fun failed => ?_
          · rw [if_pos done] at after
            obtain ⟨own₁, moves, owned₂⟩ := after
            obtain ⟨moved, grown'⟩ := mapTaken free moves (Nat.zero_le v)
              (by omega : v < pages sz) grown
            have still : ok → Grown (update own₁ f (some (.page o v))) src 0 (pages sz) :=
              fun holds w least most => (full holds w least most).imp fun g at_ =>
                (moved.keeps (by rintro ⟨⟩; exact different rfl)).mpr at_
            apply (ih owned₂ (by omega) grown' still).mono
            rintro r m' ⟨own', owned', more, result⟩
            exact ⟨own', owned', (moved.mono Fresh.of_area).trans more, result⟩
          · rw [if_neg failed] at after
            refine (after.kfree ?_).seq fun _ m' done => ?_
            · simp
            · have same : update (update own f (some (.other default))) f
                  (some .free) = own := by
                rw [update_idem, ← free, update_eq_self]
              rw [same] at done
              exact ⟨own, done.1, .refl _ _, fun none => by cases none⟩

variable [DecidableEq ι]

/-- The tables of a page directory that was given up are put on the free list. -/
theorem freeTables (owned : Owned D own m) (dir : D o = some d)
    (unmapped : ∀ f v, own f ≠ some (.page o v)) :
    wp (Calm ok) (upto NPTENTRIES (freeTable L d)) (fun _ m' => ∃ own',
      Owned (update D o none) own' m' ∧ own' d = some (.other default) ∧
        ∀ f, f ≠ d → own' f = (own f).map (Place.release o)) m := by
  have isDir := owned.dir.mp dir
  -- the tables below `i` are free, and the others are still held
  let Freed (i : ℕ) (m' : Mem) : Prop := ∃ own',
    Owned (update D o none) own' m' ∧ m'.word d = m.word d ∧
      (∀ f j, own f = some (.table o j) → own' f = some (if j < i then .free else .other default)) ∧
      ∀ f, (∀ j, own f ≠ some (.table o j)) → own' f = (own f).map (Place.retire o default)
  have start : Freed 0 m := by
    refine ⟨_, owned.dropDir unmapped default, rfl, fun f j table => ?_, fun f _ => rfl⟩
    simp [table, Place.retire]
  have loop : wp (Calm ok) (upto NPTENTRIES (freeTable L d)) (fun _ => Freed NPTENTRIES) m := by
    apply wp_upto NPTENTRIES start
    rintro i small m₁ ⟨own₁, owned₁, words, tables, others⟩
    rw [freeTable, wp_read, wp_when, words]
    have tableOf : ∀ f, own f = some (.table o i) ↔ (m.word d i).target = some f := by
      intro f
      rw [← owned.table, Mem.pde, dir]
      exact and_iff_right small
    refine ⟨fun present => ?_, fun absent => ?_⟩
    · have table : own (m.word d i).frame = some (.table o i) := by
        rw [tableOf, Pte.target, if_pos present]
      have held := tables _ i table
      rw [if_neg (Nat.lt_irrefl i)] at held
      refine (owned₁.kfree (f := (m.word d i).frame) ?_).mono fun _ m₂ after => ?_
      · intro a at_
        rw [held] at at_
        exact ⟨default, (Option.some.inj at_).symm⟩
      obtain ⟨owned₂, same⟩ := after
      refine ⟨_, owned₂, ?_, fun f j at_ => ?_, fun f at_ => ?_⟩
      · refine (same d fun equal => ?_).trans words
        rw [← equal, isDir] at table
        cases table
      · grind
      · rw [update_of_ne, others f at_]
        rintro rfl
        exact at_ i table
    · refine ⟨own₁, owned₁, words, fun f j at_ => ?_, others⟩
      have other : j ≠ i := by
        rintro rfl
        rw [tableOf, Pte.target, if_neg absent] at at_
        cases at_
      rw [tables f j at_]
      have : j < i + 1 ↔ j < i := by omega
      simp [this]
  apply loop.mono
  rintro _ m' ⟨own', owned', -, tables, others⟩
  refine ⟨own', owned', ?_, fun f notDir => ?_⟩
  · rw [others d (by simp [isDir]), isDir]
    simp [Place.retire]
  · by_cases table : ∃ j, own f = some (.table o j)
    · obtain ⟨j, table⟩ := table
      have small : j < NPTENTRIES := (owned.table.mpr table).1
      rw [tables f j table, if_pos small, table]
      simp [Place.release]
    · rw [others f fun j at_ => table ⟨j, at_⟩]
      cases at_ : own f with
      | none => rfl
      | some a =>
        have dirs : a = .dir o → False := by
          rintro rfl
          rw [← owned.dir, dir] at at_
          exact notDir (Option.some.inj at_).symm
        cases a <;> simp only [Option.map_some, Place.retire, Place.release] <;> grind

/-- **`freevm` puts every page of the page directory on the free list**, and no other one. -/
theorem freevm (owned : Owned D own m) (dir : D o = some d) :
    wp (Calm ok) (freevm L d) (fun _ m' =>
      Owned (update D o none) (fun f => (own f).map (Place.release o)) m') m := by
  apply (owned.deallocuvm dir (Nat.le_refl _)).seq
  rintro _ m₁ ⟨-, own₁, owned₁, moves, bare⟩
  have unmapped : ∀ f v, own₁ f ≠ some (.page o v) := by
    intro f v at_
    have small := (owned₁.page.mpr at_).1
    refine bare f v (Nat.zero_le v) ?_ at_
    simp only [pages] at *
    omega
  have released : ∀ f, (own₁ f).map (Place.release o) = (own f).map (Place.release o) := by
    intro f
    obtain same | ⟨a, b, before, after, ina, inb⟩ := moves f
    · rw [same]
    · rw [before, after]
      cases ina <;> cases inb <;> simp [Place.release]
  apply (owned₁.freeTables dir unmapped).seq
  rintro _ m₂ ⟨own₂, owned₂, held, others⟩
  refine (owned₂.kfree fun a at_ => ⟨default, ?_⟩).mono fun _ m' after => ?_
  · rw [held] at at_
    exact (Option.some.inj at_).symm
  · convert after.1 using 1
    funext f
    obtain rfl | other := eq_or_ne f d
    · rw [← released, owned₁.dir.mp dir]
      simp [Place.release]
    · rw [update_of_ne other, others f other, released]

/-! ## Making page tables -/

/-- **A new page directory**, without pages of the user. -/
theorem setupkvm (owned : Owned D own m) (fresh : D o = none) :
    wp (Calm ok) (setupkvm L) (fun r m' => match r with
      | none => Owned D own m'
      | some d => ∃ own', Owned (update D o (some d)) own' m' ∧
          Moves (Fresh o 0) own own') m := by
  apply (owned.kalloc default).seq
  rintro r m₁ ⟨-, after⟩
  cases r with
  | none => exact after
  | some d =>
    obtain ⟨free, taken⟩ := after
    have blank := taken.fill (f := d) (fun _ => .zero) (by simp) (by simp)
    have made := blank.newDir (d := d) (x := default) fresh (by simp) (by simp)
    rw [update_idem] at made
    have moved : Moves (Fresh o 0) own (update own d (some (.dir o))) :=
      .update free (.inr .free) (.inl rfl)
    have dir : update D o (some d) o = some d := update_self ..
    rw [wp_bind]
    apply (made.mapKernel L.kmap dir L.kernel).seq
    rintro r m₂ ⟨own₂, owned₂, moves⟩
    have moves := moved.trans (moves.mono Fresh.of_area)
    refine wp.ite (fun _ => ⟨own₂, owned₂, moves⟩) fun _ => ?_
    refine (owned₂.freevm dir).seq fun _ m' freed => ?_
    rwa [update_idem, owned.release_of_none fresh moves, ← fresh,
      update_eq_self] at freed

/-- **A copy of an address space.** If all pages of the original are mapped, `copyuvm` does not
panic. -/
theorem copyuvm {src : ι} {old sz : ℕ} (owned : Owned D own m) (fresh : D o = none)
    (source : D src = some old) (bounded : sz ≤ KERNBASE)
    (full : ok → Grown own src 0 (pages sz)) :
    wp (Calm ok) (copyuvm L old sz) (fun r m' => match r with
      | none => Owned D own m'
      | some new => ∃ own', Owned (update D o (some new)) own' m' ∧
          Moves (Fresh o (pages sz)) own own' ∧ Grown own' o 0 (pages sz)) m := by
  have different : o ≠ src := by
    rintro rfl
    rw [fresh] at source
    cases source
  refine (owned.setupkvm fresh).seq fun r m₁ after => ?_
  cases r with
  | none => exact after
  | some new =>
    obtain ⟨own₁, owned₁, made⟩ := after
    have dir : update D o (some new) o = some new := update_self ..
    have source' : update D o (some new) src = some old := by
      rw [update_of_ne different.symm, source]
    have apart : ∀ w, ¬Fresh o 0 (.page src w : Place ι ε) :=
      fun w fresh => different (Fresh.page_iff.mp fresh).1.symm
    have full' : ok → Grown own₁ src 0 (pages sz) := fun holds w least most =>
      (full holds w least most).imp fun g at_ => (made.keeps (apart w)).mpr at_
    refine (owned₁.copyLoop _ different dir source' bounded (Nat.zero_add _) ?_ full').seq
      fun r m₂ after => ?_
    · exact fun w _ none => absurd none (Nat.not_lt_zero w)
    · obtain ⟨own₂, owned₂, moves, result⟩ := after
      have moved : Moves (Fresh o (pages sz)) own own₂ :=
        (made.mono fun a => Or.imp_right fun area => area.mono (Nat.le_refl _) (Nat.zero_le _)).trans
          moves
      refine wp.ite (fun copied => ⟨own₂, owned₂, moved, result copied⟩) fun _ => ?_
      refine (owned₂.freevm dir).seq fun _ m' freed => ?_
      rwa [update_idem, owned.release_of_none fresh moved, ← fresh,
        update_eq_self] at freed

end Owned

end Xv6Uac.Memory
