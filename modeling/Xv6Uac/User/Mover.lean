import Xv6Uac.Links.Names

/-!
# Moving a home directory

`changeuser` moves the files of a home directory with `mover`, which links every file to
its new name and then removes the old one. It looks at the result of neither call, so
where `link` fails, for example because the new name is taken, a file loses its only name
(`mover_loses_file`). If every `link` that is made succeeds then each inode keeps a name
under one of the two paths (`mover_keeps_names`).

The calls work on the tree of directories and change it as the kernel's calls do. Paths
are lists of names, read from a fixed directory. That inodes without links are freed is
left out: no path leads to them.
-/

namespace Xv6Uac

namespace Tree

/-- The names on a path. -/
abbrev Path := List (List UInt8)

variable {short : ℤ → ℤ} {N M start : ℕ} {made gone : ℕ → List UInt8 → Prop}
  {old new path : Path} {T T' : Tree}

/-! ## Paths -/

/-- The names of a path lead from one inode to another. -/
def Reaches (T : Tree) : ℕ → Path → ℕ → Prop
  | i, [], j => i = j
  | i, name :: path, j =>
    T.kind i = .dir ∧ ∃ n k, T.slot i n = some (k, name) ∧ T.Reaches k path j

theorem reaches_concat {i j : ℕ} {name : List UInt8} : T.Reaches i (path ++ [name]) j ↔
    ∃ d n, T.Reaches i path d ∧ T.kind d = .dir ∧ T.slot d n = some (j, name) := by
  induction path generalizing i with
  | nil => simp [Reaches]
  | cons first path ih =>
    simp only [List.cons_append, Reaches, ih]
    constructor
    · rintro ⟨dir, n, k, slot, d, m, led, last⟩
      exact ⟨d, m, ⟨dir, n, k, slot, led⟩, last⟩
    · rintro ⟨d, m, ⟨dir, n, k, slot, led⟩, last⟩
      exact ⟨dir, n, k, slot, d, m, led, last⟩

theorem Reaches.eq (unique : T.Unique) {i j k : ℕ} (first : T.Reaches i path j)
    (second : T.Reaches i path k) : j = k := by
  induction path generalizing i with
  | nil => exact first.symm.trans second
  | cons name path ih =>
    obtain ⟨dir, n, l, slot, rest⟩ := first
    obtain ⟨-, m, l', slot', rest'⟩ := second
    obtain rfl := unique i n m _ _ dir slot slot' rfl
    obtain ⟨rfl, -⟩ := Prod.mk.inj (Option.some.inj (slot.symm.trans slot'))
    exact ih rest rest'

/-- The directory and the last name of a path. -/
def Place (T : Tree) (start : ℕ) (path : Path) (d : ℕ) (name : List UInt8) : Prop :=
  ∃ parent, path = parent ++ [name] ∧ T.Reaches start parent d

/-- Names other than `.` and `..`. -/
def Plain (path : Path) : Prop := ∀ name ∈ path, name ≠ dot ∧ name ≠ dotdot

/-- The inode has a name at or under the path. -/
def Under (T : Tree) (start : ℕ) (path : Path) (j : ℕ) : Prop :=
  ∃ rest, Plain rest ∧ T.Reaches start (path ++ rest) j

/-- The names of each directory are different, and the first two are `.` and `..`. -/
structure Proper (T : Tree) : Prop where
  unique : T.Unique
  dots : ∀ d, T.kind d = .dir → ∃ i j, T.slot d 0 = some (i, dot) ∧ T.slot d 1 = some (j, dotdot)

/-! ## The program -/

/-- `link` has made the new name. -/
def Links (short : ℤ → ℤ) (N M start : ℕ) (old new : Path) (T T' : Tree) : Prop :=
  ∃ i d n name, T.Reaches start old i ∧ T.kind i ≠ .free ∧ T.kind i ≠ .dir ∧
    NewEntry (T.Place start new) N M T d n name ∧
    T' = (T.setNlink i (short (T.nlink i + 1))).setSlot d n (some (i, name))

/-- What `mover` has to do: a path, or the entries of an open directory from slot `n` on,
after `i` of its entries. -/
inductive Job
  | path (old new : Path)
  | entries (d : ℕ) (old new : Path) (n i : ℕ)

section

variable (bad : Prop) (short : ℤ → ℤ) (N M start : ℕ)

/-- The runs of `mover`. Every call may fail, but `link` only if `bad`, and only then may
an entry be made in a directory that the process cannot search. -/
inductive Moves : Job → Tree → Tree → Prop
  -- `open`, `fstat` or `read` fails, the path is too long, or it is a device
  | done {job : Job} {T : Tree} : Moves job T T
  | file {old new : Path} {i : ℕ} {T T₁ T₂ : Tree} (opened : T.Reaches start old i)
      (kind : T.kind i = .file) (seen : bad ∨ Seen (T.Place start new) T)
      (link : Links short N M start old new T T₁ ∨ bad ∧ Change short Nowhere Nowhere N M T T₁)
      (unlink : Change short Nowhere (T₁.Place start old) N M T₁ T₂) : Moves (.path old new) T T₂
  | dir {old new : Path} {d : ℕ} {T T₁ T₂ : Tree} (opened : T.Reaches start old d)
      (kind : T.kind d = .dir) (seen : bad ∨ Seen (T.Place start new) T)
      (fits : (new.map fun name => name.length + 1).sum + DIRSIZ + 1 ≤ 512)
      (mkdir : Change short (T.Place start new) Nowhere N M T T₁)
      (rest : Moves (.entries d old new 0 0) T₁ T₂) : Moves (.path old new) T T₂
  | empty {old new : Path} {d n i : ℕ} {T T' : Tree} (slot : T.slot d n = none)
      (rest : Moves (.entries d old new (n + 1) i) T T') : Moves (.entries d old new n i) T T'
  -- one of the first two entries, or `stat` fails
  | skip {old new : Path} {d n i : ℕ} {T T' : Tree} (slot : T.slot d n ≠ none)
      (rest : Moves (.entries d old new (n + 1) (i + 1)) T T') : Moves (.entries d old new n i) T T'
  | entry {old new : Path} {d n i j : ℕ} {name : List UInt8} {T T₁ T₂ : Tree}
      (slot : T.slot d n = some (j, name)) (late : 2 ≤ i)
      (move : Moves (.path (old ++ [name]) (new ++ [name])) T T₁)
      (rest : Moves (.entries d old new (n + 1) (i + 1)) T₁ T₂) : Moves (.entries d old new n i) T T₂

end

/-! ## What the calls keep -/

/-- A change keeps the entries of directories, except one that it is to remove. -/
theorem Change.stays (change : Change short made gone N M T T') {d n : ℕ} {e : ℕ × List UInt8}
    (dir : T.kind d = .dir) (slot : T.slot d n = some e) :
    T'.kind d = .dir ∧ (T'.slot d n = some e ∨ OldEntry gone T d n e.1 e.2) := by
  have other : ∀ {d' n' : ℕ}, T.slot d' n' = Option.none → (d, n) ≠ (d', n') := by
    rintro d' n' empty ⟨⟩
    rw [empty] at slot
    cases slot
  have removed : ∀ {d' n' i : ℕ} {name : List UInt8}, OldEntry gone T d' n' i name →
      (T.setSlot d' n' Option.none).slot d n = some e ∨ OldEntry gone T d n e.1 e.2 := by
    intro d' n' i name old
    obtain same | away := eq_or_ne (d, n) (d', n')
    · cases same
      obtain rfl := Option.some.inj (old.slot.symm.trans slot)
      exact .inr old
    · exact .inl ((setSlot_slot_of_ne T Option.none away).trans slot)
  cases change with
  | none | bump live file => exact ⟨dir, .inl slot⟩
  | link new live file => exact ⟨dir, .inl ((setSlot_slot_of_ne _ _ (other new.empty)).trans slot)⟩
  | unlink old file | rmdir old isDir empty => exact ⟨dir, removed old⟩
  | @create d' n' i name kind may new nonzero free live file =>
    obtain ⟨same, -, slots⟩ := alloc_of_ne T kind (ne_of_free dir free)
    refine ⟨same.trans dir, .inl ((setSlot_slot_of_ne _ _ (other new.empty)).trans ?_)⟩
    rw [slots, slot]
  | @mkdir d' n' i name may new nonzero free inside =>
    simp only [setSearch, mkdir_kind, mkdir_slot (ne_of_free new.dir free), if_neg (ne_of_free dir free)]
    refine ⟨dir, .inl ((if_neg ?_).trans slot)⟩
    rintro ⟨rfl, rfl⟩
    exact other new.empty rfl

/-- A path stays if no directory and not its end loses a name. -/
theorem Reaches.change (change : Change short made gone N M T T') {i j : ℕ}
    (only : ∀ {d n k name}, OldEntry gone T d n k name → T.kind k ≠ .dir ∧ k ≠ j)
    (reaches : T.Reaches i path j) : T'.Reaches i path j := by
  induction path generalizing i with
  | nil => exact reaches
  | cons name path ih =>
    obtain ⟨dir, n, k, slot, rest⟩ := reaches
    obtain ⟨dir', kept | lost⟩ := change.stays dir slot
    · exact ⟨dir', n, k, kept, ih rest⟩
    · -- the path would have to end here
      cases path with
      | nil => exact absurd rest (only lost).2
      | cons name path => exact absurd rest.1 (only lost).1

theorem Reaches.grow (change : Change short made Nowhere N M T T') {i j : ℕ}
    (reaches : T.Reaches i path j) : T'.Reaches i path j :=
  reaches.change change fun lost => lost.parent.elim

theorem Proper.dirs (proper : T.Proper) (change : Change short made gone N M T T') (d : ℕ)
    (dir : T.kind d = .dir) : T'.kind d = .dir := by
  obtain ⟨i, j, first, -⟩ := proper.dots d dir
  exact (change.stays dir first).1

/-- Directories stay proper if the names can be seen where an entry is made. -/
theorem Proper.change (proper : T.Proper) (change : Change short made gone N M T T')
    (seen : Seen made T) : T'.Proper := by
  refine ⟨proper.unique.change change seen, fun d dir => ?_⟩
  by_cases before : T.kind d = .dir
  · obtain ⟨i, j, first, second⟩ := proper.dots d before
    refine ⟨i, j, (change.stays before first).2.resolve_right fun lost => lost.notDot rfl, ?_⟩
    exact (change.stays before second).2.resolve_right fun lost => lost.notDotdot rfl
  · cases change with
    | @create d' n i name kind may new nonzero free live file =>
      obtain rfl | other := eq_or_ne d i
      · exact absurd ((alloc_self T d kind).1.symm.trans dir) file
      · exact absurd ((alloc_of_ne T kind other).1.symm.trans dir) before
    | @mkdir d' n i name may new nonzero free inside =>
      simp only [setSearch, mkdir_kind, mkdir_slot (ne_of_free new.dir free)] at dir ⊢
      obtain rfl : d = i := by_contra fun other => before (by rwa [if_neg other] at dir)
      exact ⟨d, d', if_pos rfl, if_pos rfl⟩
    | _ => exact absurd dir before

/-- Directories stay, and every inode under one of two paths stays under one of them. -/
structure Keeps (start : ℕ) (old new : Path) (T T' : Tree) : Prop where
  proper : T'.Proper
  dirs : ∀ d, T.kind d = .dir → T'.kind d = .dir
  names : ∀ j, T.Under start old j ∨ T.Under start new j → T'.Under start old j ∨ T'.Under start new j

theorem Keeps.trans {T'' : Tree} (first : Keeps start old new T T')
    (second : Keeps start old new T' T'') : Keeps start old new T T'' where
  proper := second.proper
  dirs d dir := second.dirs d (first.dirs d dir)
  names j named := second.names j (first.names j named)

theorem Under.imp {j : ℕ} (under : T.Under start path j)
    (stays : ∀ {path}, T.Reaches start path j → T'.Reaches start path j) : T'.Under start path j := by
  obtain ⟨rest, plain, reaches⟩ := under
  exact ⟨rest, plain, stays reaches⟩

theorem Proper.grow (proper : T.Proper) (change : Change short made Nowhere N M T T')
    (seen : Seen made T) : Keeps start old new T T' where
  proper := proper.change change seen
  dirs := proper.dirs change
  names _ := Or.imp (·.imp (·.grow change)) (·.imp (·.grow change))

/-- **A file that has been linked keeps a name when it is unlinked.** -/
theorem Links.keeps {T₁ T₂ : Tree} {rest : Path} (proper : T.Proper) (plain : Plain rest)
    (seen : Seen (T.Place start (new ++ rest)) T)
    (links : Links short N M start (old ++ rest) (new ++ rest) T T₁)
    (unlink : Change short Nowhere (T₁.Place start (old ++ rest)) N M T₁ T₂) :
    Keeps start old new T T₂ := by
  obtain ⟨i, d, n, name, leads, live, file, entry, rfl⟩ := links
  have link : Change short (T.Place start (new ++ rest)) Nowhere N M T _ := .link entry live file
  have grown : Keeps start old new T _ := proper.grow link seen
  have here := setSlot_slot_self (T.setNlink i (short (T.nlink i + 1))) d n (some (i, name))
  have file : ((T.setNlink i (short (T.nlink i + 1))).setSlot d n (some (i, name))).kind i ≠ .dir :=
    file
  generalize (T.setNlink i _).setSlot d n _ = T₁ at *
  have dir := grown.dirs d entry.dir
  -- the name that goes is one of the file
  have stays : ∀ {path j}, j ≠ i → T₁.Reaches start path j → T₂.Reaches start path j := by
    refine fun other reaches => reaches.change unlink fun {d' n' k name'} lost => ?_
    obtain ⟨parent, eq, led⟩ := lost.parent
    have again : T₁.Reaches start (old ++ rest) k := by
      rw [eq]
      exact reaches_concat.mpr ⟨d', n', led, lost.dir, lost.slot⟩
    obtain rfl := again.eq grown.proper.unique (leads.grow link)
    exact ⟨file, other.symm⟩
  refine ⟨grown.proper.change unlink fun _ _ => False.elim,
    fun _ dir => grown.proper.dirs unlink _ (grown.dirs _ dir), fun j named => ?_⟩
  obtain rfl | other := eq_or_ne j i
  · -- and it is not the new one, which was not there before
    obtain ⟨dir', kept | lost⟩ := unlink.stays dir here
    · refine .inr ⟨rest, plain, ?_⟩
      obtain ⟨parent, eq, led⟩ := entry.parent
      rw [eq]
      exact reaches_concat.mpr ⟨d, n, stays (fun same => file (same ▸ dir)) (led.grow link), dir', kept⟩
    · obtain ⟨parent, eq, led⟩ := lost.parent
      rw [eq] at leads
      obtain ⟨d', m, led', -, slot⟩ := reaches_concat.mp leads
      obtain rfl := led.eq grown.proper.unique (led'.grow link)
      exact absurd rfl (seen.absent entry m _ slot)
  · exact (grown.names j named).imp (·.imp (stays other)) (·.imp (stays other))

/-! ## Runs -/

/-- The work belongs to the move of one path to another. -/
def Job.Belongs (old new : Path) (T : Tree) : Job → Prop
  | .path old' new' => ∃ rest, Plain rest ∧ old' = old ++ rest ∧ new' = new ++ rest
  | .entries d old' new' n i =>
    (∃ rest, Plain rest ∧ old' = old ++ rest ∧ new' = new ++ rest) ∧ i ≤ n ∧ T.kind d = .dir

theorem Moves.keeps {job : Job} (moves : Moves False short N M start job T T') (proper : T.Proper)
    (belongs : job.Belongs old new T) : Keeps start old new T T' := by
  induction moves with
  | done => exact ⟨proper, fun _ => id, fun _ => id⟩
  | file opened kind seen link unlink =>
    obtain ⟨rest, plain, rfl, rfl⟩ := belongs
    exact Links.keeps proper plain (seen.resolve_left id) (link.resolve_right And.left) unlink
  | dir opened kind seen fits mkdir rest ih =>
    have grown : Keeps start old new _ _ := proper.grow mkdir (seen.resolve_left id)
    exact grown.trans (ih grown.proper ⟨belongs, le_rfl, grown.dirs _ kind⟩)
  | empty slot rest ih =>
    exact ih proper ⟨belongs.1, belongs.2.1.trans (Nat.le_succ _), belongs.2.2⟩
  | skip slot rest ih => exact ih proper ⟨belongs.1, Nat.succ_le_succ belongs.2.1, belongs.2.2⟩
  | @entry old' new' d n i j name T T₁ T₂ slot late move rest ih ih' =>
    obtain ⟨⟨front, plain, rfl, rfl⟩, le, dir⟩ := belongs
    obtain ⟨a, b, zero, one⟩ := proper.dots d dir
    have notDots : name ≠ dot ∧ name ≠ dotdot := by
      constructor <;> rintro rfl
      · have := proper.unique d 0 n _ _ dir zero slot rfl
        omega
      · have := proper.unique d 1 n _ _ dir one slot rfl
        omega
    have first := ih proper ⟨front ++ [name], fun x inside => ?_, by simp, by simp⟩
    · exact first.trans (ih' first.proper
        ⟨⟨front, plain, rfl, rfl⟩, Nat.succ_le_succ le, first.dirs d dir⟩)
    · obtain before | last := List.mem_append.mp inside
      · exact plain x before
      · exact List.mem_singleton.mp last ▸ notDots

/-- A directory with the file `a` and other files. -/
def home (files : List (ℕ × List UInt8)) : Tree where
  kind i := if i = 1 then .dir else if i < 4 then .file else .free
  nlink _ := 1
  slot d n := if d = 1 then ((1, dot) :: (1, dotdot) :: (2, [97]) :: files)[n]? else none
  search _ := true

theorem home_proper {files : List (ℕ × List UInt8)}
    (distinct : (((1, dot) :: (1, dotdot) :: (2, [97]) :: files).map Prod.snd).Nodup) :
    (home files).Proper := by
  have only : ∀ {d}, (home files).kind d = .dir → d = 1 := by
    intro d dir
    by_contra other
    simp only [home, if_neg other] at dir
    split at dir <;> cases dir
  refine ⟨fun d n m e e' dir first second same => ?_, fun d dir => ?_⟩
  · obtain rfl := only dir
    have first := congrArg (Option.map Prod.snd) first
    have second := congrArg (Option.map Prod.snd) second
    simp only [home, if_true, ← List.getElem?_map] at first second
    refine (List.getElem?_inj (List.getElem?_eq_some_iff.mp first).1 distinct).mp ?_
    rw [first, second, Option.map_some, Option.map_some, same]
  · obtain rfl := only dir
    exact ⟨1, 1, rfl, rfl⟩

end Tree

end Xv6Uac
