import Xv6Uac.Links.Calls

/-!
# Open files keep the invariant

The functions of `file.c` and the calls on descriptors. They change the table of files
and the descriptors of the process, and the references go with the files. `read` and
`write` reach the inode of a file, and a file that is open for writing is not a
directory, so no entry of a directory changes. `open` may make an inode first
(`sysOpen_spec`).
-/

namespace Xv6Uac

open Words Hoare
open Function (update_of_ne update_self)

variable {cfg : Config} {s t u : Kernel} {i k f ip : ℕ} {L δ δ' δ'' : ℕ → ℕ}

/-- A part of a call that may change the tables of files and processes, and after which
the call holds `δ'` references. -/
structure Calm (cfg : Config) (L : ℕ → ℕ) (s t : Kernel) (δ' : ℕ → ℕ) : Prop where
  inv : KernelInv cfg L t δ'
  cur : t.cur = s.cur
  freed : Tree.Freed (tree s) (tree t)

theorem Quiet.calm (quiet : Quiet cfg L s t δ δ') : Calm cfg L s t δ' :=
  ⟨quiet.inv, quiet.outside.cur, quiet.freed⟩

theorem Calm.trans (first : Calm cfg L s t δ') (second : Calm cfg L t u δ'') : Calm cfg L s u δ'' :=
  ⟨second.inv, second.cur.trans first.cur, first.freed.trans second.freed⟩

/-- The tree depends on the file system and on the permissions of the process. -/
theorem tree_congr (same : SameFs s t)
    (may : ∀ d, mayExecute t.myproc d = mayExecute s.myproc d) : tree t = tree s := by
  simp only [tree, treeOf, same.dinode, same.data, may]

/-- A change of the tables alone. -/
theorem Calm.of_same (inv : KernelInv cfg L t δ') (same : SameFs s t) (cur : t.cur = s.cur)
    (may : ∀ d, mayExecute t.myproc d = mayExecute s.myproc d) : Calm cfg L s t δ' :=
  ⟨inv, cur, tree_congr same may ▸ .refl _⟩

/-! ## Files -/

/-- A file that was allocated and is not set up yet. -/
def Fresh (s : Kernel) (f : ℕ) : Prop := (s.ftable f).type = .none ∧ 0 < (s.ftable f).ref

theorem Fresh.inode (fresh : Fresh s f) : (s.ftable f).inode = none := by
  rw [File.inode, fresh.1]
  rfl

theorem filealloc_spec (inv : KernelInv cfg L s δ) :
    wp Benign filealloc (fun out t => KernelInv cfg L t δ ∧ SameFs s t ∧ t.proc = s.proc ∧
      t.cur = s.cur ∧ (∀ f ∈ out, f < NFILE ∧ Fresh t f) ∧ ∀ f, Fresh s f → Fresh t f) s := by
  rw [filealloc, wp_read]
  split
  · exact ⟨inv, .refl s, rfl, rfl, fun _ none => absurd none (by simp), fun _ fresh => fresh⟩
  · rename_i f found
    have small : f < NFILE := List.mem_range.mp (List.mem_of_find?_eq_some found)
    have unused : (s.ftable f).ref = 0 := by simpa using List.find?_some found
    have type : (s.ftable f).type = .none := by
      by_contra used
      have := inv.tables.tidy used
      omega
    refine ⟨inv.touchFile small _ rfl rfl fun _ => Int.one_pos, ⟨rfl, rfl, rfl, rfl⟩, rfl, rfl,
      ?_, fun g fresh => ?_⟩
    · rintro g ⟨⟩
      refine ⟨small, ?_⟩
      simp only [Fresh, update_self]
      exact ⟨type, Int.one_pos⟩
    · obtain rfl | other := eq_or_ne g f
      · simp only [Fresh, update_self]
        exact ⟨fresh.1, Int.one_pos⟩
      · simp only [Fresh, update_of_ne other]
        exact fresh

theorem fdalloc_spec (inv : KernelInv cfg L s δ) (small : f < NFILE) :
    wp Benign (fdalloc f) (fun _ t => Calm cfg L s t δ ∧ SameFs s t ∧ t.ftable = s.ftable) s := by
  rw [fdalloc, myproc, wp_read]
  split
  · exact ⟨⟨inv, rfl, .refl _⟩, .refl s, rfl⟩
  · rename_i fd _
    have same : SameFs s { s with
        proc := Function.update s.proc s.cur
          { s.myproc with ofile := Function.update s.myproc.ofile fd (some f) } } :=
      ⟨rfl, rfl, rfl, rfl⟩
    refine ⟨.of_same ?_ same rfl fun d => ?_, same, rfl⟩
    · refine inv.touchProc inv.cur _ rfl (fun {fd' g} has => ?_) inv.tables.idle
      dsimp only at has
      obtain rfl | other := eq_or_ne fd' fd
      · rw [update_self] at has
        cases has
        exact small
      · rw [update_of_ne other] at has
        exact inv.tables.files has
    · simp only [Kernel.myproc, update_self]
      rfl

/-- The last reference to a file takes its reference to the inode with it. -/
theorem fileclose_spec (inv : KernelInv cfg L s δ) (small : f < NFILE) :
    wp Benign (fileclose cfg f) (fun _ t => Calm cfg L s t δ) s := by
  refine wp.ite (fun _ => by simp [panic, Benign]) fun _ => ?_
  apply wp.ite
  · intro more
    exact .of_same (inv.touchFile small _ rfl rfl fun _ => more) ⟨rfl, rfl, rfl, rfl⟩ rfl
      fun _ => rfl
  · intro _
    rw [wp_bind, modifyFile]
    have closed : File.inode { s.ftable f with ref := 0, type := .none } = none := by
      simp [File.inode]
    have noWrite : ∀ {k}, File.inode { s.ftable f with ref := 0, type := .none } = some k →
        File.writable { s.ftable f with ref := 0, type := .none } = true →
        (s.dinode (s.icache k).inum).type = .file ∨ (s.dinode (s.icache k).inum).type = .dev := by
      intro k points
      cases points
    have noInode : ∀ {k}, File.inode { s.ftable f with ref := 0, type := .none } = some k →
        (s.dinode (s.icache k).inum).type ≠ .free := by
      intro k points
      cases points
    have plain := fun before => inv.plainFile small _ before closed fun used => absurd rfl used
    rw [fileRelease]
    split
    · rename_i pp isPipe _
      have before : (s.ftable f).inode = none := by
        rw [File.inode, isPipe]
        rfl
      exact .of_same ((plain before).congr ⟨rfl, rfl, rfl, rfl⟩ inv.cur rfl
        fun _ => ⟨rfl, rfl, rfl⟩) ⟨rfl, rfl, rfl, rfl⟩ rfl fun _ => rfl
    · rename_i k isInode has
      have taken : KernelInv cfg L _ (δ + Pi.single k 1) := inv.setFile small
        { s.ftable f with ref := 0, type := .none } (fun j => by
          have points : (s.ftable f).inode = some k := by rw [File.inode, if_pos isInode, has]
          rw [closed, points, Pi.add_apply, single_eq_ite]
          simp) (fun used => absurd rfl used) noWrite noInode
      have start : Calm cfg L s _ (δ + Pi.single k 1) :=
        .of_same taken ⟨rfl, rfl, rfl, rfl⟩ rfl fun _ => rfl
      refine taken.beginOp.seq fun _ t begun => ?_
      refine (begun.inv.iput (by simp)).seq fun _ u dropped => ?_
      rw [add_sub_single] at dropped
      refine dropped.inv.endOp.mono fun _ v ended => ?_
      exact ((start.trans begun.calm).trans dropped.calm).trans ended.calm
    · rename_i isNone
      have before : (s.ftable f).inode = none := by
        rw [File.inode, isNone]
        rfl
      exact .of_same (plain before) ⟨rfl, rfl, rfl, rfl⟩ rfl fun _ => rfl
    · simp [Benign]

/-! ## Open -/

/-- The end of `open`. A file that is opened for writing is not a directory. -/
theorem openFile_calm {omode : BitVec 32} (inv : KernelInv cfg L s (Pi.single ip 1))
    (held : Held s ip i)
    (plain : (omode &&& O_WRONLY != 0) = true →
      (s.dinode i).type = .file ∨ (s.dinode i).type = .dev) :
    wp Benign (openFile cfg ip omode) (fun _ t => Calm cfg L s t 0) s := by
  -- the ends of the two failures
  have give : ∀ {t}, Calm cfg L s t (Pi.single ip 1) →
      wp Benign (do
        iunlockput cfg ip
        endOp
        pure (-1)) (fun (_ : ℤ) u => Calm cfg L s u 0) t := by
    intro t calm
    refine (calm.inv.iunlockput (by simp)).seq fun _ u dropped => ?_
    rw [sub_single_self] at dropped
    refine dropped.inv.endOp.seq fun _ v ended => ?_
    exact (calm.trans dropped.calm).trans ended.calm
  apply (filealloc_spec inv).seq
  rintro out t ⟨invT, same, proc, cur, small, _⟩
  have calm : Calm cfg L s t (Pi.single ip 1) :=
    .of_same invT same cur fun d => by rw [Kernel.myproc, Kernel.myproc, proc, cur]
  cases out with
  | none => exact give calm
  | some f =>
    obtain ⟨small, fresh⟩ := small f rfl
    apply (fdalloc_spec invT small).seq
    rintro new u ⟨calm', same', ftable⟩
    have calm := calm.trans calm'
    cases new with
    | none =>
      refine (fileclose_spec calm.inv small).seq fun _ v closed => ?_
      exact give (calm.trans closed)
    | some fd =>
      have heldU : Held u ip i := by
        have cache : u.icache = s.icache := same'.icache.trans same.icache
        refine ⟨?_, ?_, ?_⟩
        · rw [cache]
          exact held.ref
        · rw [cache]
          exact held.valid
        · rw [cache]
          exact held.inum
      refine calm.inv.iunlock.seq fun _ v unlocked => ?_
      obtain ⟨heldV, sameV⟩ := unlocked.held (by simp) heldU
      refine unlocked.inv.endOp.seq fun _ w ended => ?_
      obtain ⟨heldW, sameW⟩ := ended.held (by simp) heldV
      have type : w.dinode i = s.dinode i := by
        rw [sameW, sameV, same'.dinode, same.dinode]
      have fresh : Fresh w f := by
        rwa [Fresh, ended.outside.ftable, unlocked.outside.ftable, ftable]
      refine ((calm.trans unlocked.calm).trans ended.calm).trans (.of_same ?_
        ⟨rfl, rfl, rfl, rfl⟩ rfl fun _ => rfl)
      refine ended.inv.setFile small _ (fun j => ?_) (fun _ => fresh.2)
        (fun {k} points writes => ?_) fun {k} points => ?_
      · rw [fresh.inode, single_eq_ite]
        simp [File.inode]
      · cases points
        rw [heldW.inum, type]
        exact plain writes
      · cases points
        rw [heldW.inum]
        exact (ended.inv.fs.cached.held heldW).2

theorem openExisting_calm (inv : KernelInv cfg L s 0) (path : List UInt8) (omode : BitVec 32) :
    wp Benign (openExisting cfg path omode) (fun _ t => Calm cfg L s t 0) s := by
  refine (inv.namei path).seq fun out t found => ?_
  cases out with
  | none =>
    exact (Quiet.endOp found).seq fun _ _ ended => ended.calm
  | some ip =>
    have quiet : Quiet cfg L s t 0 (0 + Pi.single ip 1) := found.1
    rw [zero_add] at quiet
    refine quiet.inv.ilock.seq fun _ u ⟨lock, held, _⟩ => ?_
    generalize (t.icache ip).inum = i at held
    have quiet := quiet.next lock
    obtain ⟨shows, live⟩ := quiet.inv.fs.cached.held held
    have give := (quiet.iunlockput_endOp (-1)).mono fun _ _ ended => ended.calm
    rw [inode, wp_read, shows]
    refine wp.ite (fun _ => give) fun _ => ?_
    refine wp.ite (fun _ => give) fun mayWrite => ?_
    refine (openFile_calm quiet.inv held fun writes => ?_).mono fun _ v calm =>
      quiet.calm.trans calm
    cases type : (u.dinode i).type with
    | free => exact absurd type live
    | file => exact .inl rfl
    | dev => exact .inr rfl
    | dir =>
      have readOnly : omode = O_RDONLY := not_not.mp fun differs => mayWrite ⟨type, differs⟩
      rw [readOnly] at writes
      exact absurd writes (by decide)

/-- Where `open` may make an entry. -/
def OpenMakes (s : Kernel) (path : List UInt8) (omode : BitVec 32) (d : ℕ) (name : List UInt8) :
    Prop := omode &&& O_CREATE ≠ 0 ∧ Leads s path d name

/-- **`open` makes at most the entry to which its path leads.** -/
theorem sysOpen_spec (inv : KernelInv cfg L s 0) (path : List UInt8) (omode : BitVec 32) :
    wp Benign (sysOpen cfg path omode) (fun _ t => KernelInv cfg L t 0 ∧ t.cur = s.cur ∧
      Tree.Effect cfg.short (OpenMakes s path omode) Nowhere cfg.sb.ninodes NSLOT (tree s)
        (tree t)) s := by
  refine inv.beginOp.seq fun _ t begun => ?_
  apply wp.ite
  · intro creates
    refine (create_spec inv begun path (by decide) 0 0).seq fun out u created => ?_
    cases out with
    | none =>
      exact (Quiet.endOp created).seq fun _ _ ended =>
        ⟨ended.inv, ended.outside.cur, .of_freed ended.freed⟩
    | some ip =>
      obtain ⟨phase, effect, i, held, type⟩ := created
      refine (openFile_calm phase.inv held fun _ => type).mono fun _ v calm => ?_
      exact ⟨calm.inv, calm.cur.trans phase.outside.cur, (effect.mono
        (fun _ _ leads => ⟨by simpa using creates, leads⟩) fun _ _ gone => gone).freed calm.freed⟩
  · intro _
    refine (openExisting_calm begun.inv path omode).mono fun _ u calm => ?_
    have calm := begun.calm.trans calm
    exact ⟨calm.inv, calm.cur, .of_freed calm.freed⟩

/-! ## Calls that make no entries -/

/-- The links of a state. -/
def links (s : Kernel) : Tree := (tree s).bare

theorem links_slot {d : ℕ} (dir : (s.dinode d).type = .dir) (n : ℕ) :
    (links s).slot d n = dirSlot s.data (s.dinode d) n := if_pos dir

theorem links_congr (same : SameFs s t) : links t = links s := by
  simp only [links, tree, treeOf, Tree.bare, same.dinode, same.data]

/-- Since `s₀` inodes without links were freed and no links changed. -/
structure Since (cfg : Config) (L δ : ℕ → ℕ) (s₀ s : Kernel) : Prop where
  inv : KernelInv cfg L s δ
  freed : Tree.Freed (links s₀) (links s)

variable {s₀ : Kernel}

namespace Since

theorem refl (inv : KernelInv cfg L s δ) : Since cfg L δ s s := ⟨inv, .refl _⟩

section

variable (since : Since cfg L δ s₀ s)
include since

theorem calm (calm : Calm cfg L s t δ') : Since cfg L δ' s₀ t :=
  ⟨calm.inv, since.freed.trans calm.freed.bare⟩

theorem quiet (quiet : Quiet cfg L s t δ δ') : Since cfg L δ' s₀ t :=
  since.calm quiet.calm

/-- A change of the tables alone. -/
theorem same (inv : KernelInv cfg L t δ') (same : SameFs s t) : Since cfg L δ' s₀ t :=
  ⟨inv, links_congr same ▸ since.freed⟩

/-- Nothing that the invariant speaks about has changed. -/
theorem congr (same : SameFs s t) (cur : t.cur < NPROC) (ftable : t.ftable = s.ftable)
    (proc : ∀ p, (t.proc p).cwd = (s.proc p).cwd ∧ (t.proc p).ofile = (s.proc p).ofile ∧
      (t.proc p).state = (s.proc p).state) : Since cfg L δ s₀ t :=
  since.same (since.inv.congr same cur ftable proc) same

end

end Since

/-- The program keeps the invariant and the links, and it does not fail on account of the
file system. -/
abbrev Safe {α : Type} (cfg : Config) (L : ℕ → ℕ) (m : K α) : Prop :=
  ∀ s₀, Preserves Benign (Since cfg L 0 s₀) m

namespace Safe

variable {α β : Type}

theorem pure (a : α) : Safe cfg L (Pure.pure a) := fun _ => .pure a

theorem gets (g : Kernel → α) : Safe cfg L (Hoare.gets g) := fun _ => .gets g

theorem fail {reason : Stop} (allowed : Benign reason) : Safe cfg L (Hoare.fail reason : K α) :=
  fun _ => .fail allowed

theorem bind {m : K α} {next : α → K β} (first : Safe cfg L m) (rest : ∀ a, Safe cfg L (next a)) :
    Safe cfg L (m >>= next) := fun s₀ => .bind (first s₀) fun a => rest a s₀

theorem ite {c : Prop} [Decidable c] {m n : K α} (yes : c → Safe cfg L m)
    (no : ¬c → Safe cfg L n) : Safe cfg L (if c then m else n) := fun s₀ =>
  .ite (fun holds => yes holds s₀) fun fails => no fails s₀

theorem upto {n : ℕ} {body : ℕ → K Unit} (round : ∀ i, Safe cfg L (body i)) :
    Safe cfg L (Hoare.upto n body) := fun s₀ => .upto fun i => round i s₀

/-- A specification of one run. -/
theorem of_calm {m : K α} (spec : ∀ {s}, KernelInv cfg L s 0 →
    wp Benign m (fun _ t => Calm cfg L s t 0) s) : Safe cfg L m := fun _ _ since =>
  (spec since.inv).mono fun _ _ calm => since.calm calm

end Safe

/-! ## Read and write -/

/-- A write to an inode that is not a directory. -/
theorem KernelInv.wrote {F' : ℕ → Dinode} {off : ℕ} {src : List UInt8} (inv : KernelInv cfg L s δ)
    (notDir : (s.dinode i).type ≠ .dir) (wrote : Wrote cfg s.dinode F' ∅ i k off src s t)
    (outside : Outside s t) : Phase cfg L s t δ δ ∧ links t = links s := by
  have named : Named cfg F' t.data := by
    intro j n e dir slot
    rw [wrote.type_eq] at dir
    have other : j ≠ i := fun same => notDir (same ▸ dir)
    rw [wrote.slot_other (by rw [dir]; decide) other] at slot
    exact inv.named dir slot
  have phase := inv.phase wrote.fsInv named outside wrote.kept
    ((wrote.type_eq 0).trans inv.zero) fun j _ _ => wrote.type_eq _
  refine ⟨phase, ?_⟩
  have slots : ∀ j n, (tree t).slot j n = (tree s).slot j n := by
    intro j n
    simp only [tree, treeOf, wrote.fsInv.dinode, wrote.type_eq]
    split
    · rename_i dir
      exact wrote.slot_other (by rw [dir]; decide) (fun same => notDir (same ▸ dir)) n
    · rfl
  have nlink : ∀ j, (tree t).nlink j = (tree s).nlink j := by
    intro j
    simp only [tree, treeOf, wrote.fsInv.dinode, wrote.nlink_eq]
  have kind : ∀ j, (tree t).kind j = (tree s).kind j := by
    intro j
    simp only [tree, treeOf, wrote.fsInv.dinode, wrote.type_eq]
  rw [links, links, Tree.bare, Tree.bare, funext kind, funext nlink,
    funext fun j => funext (slots j)]

theorem endOp_safe : Safe cfg L endOp := fun _ _ since =>
  since.inv.endOp.mono fun _ _ ended => since.quiet ended

theorem iunlock_safe (k : ℕ) : Safe cfg L (iunlock k) := fun _ _ since =>
  since.inv.iunlock.mono fun _ _ unlocked => since.quiet unlocked

/-- A change of the offset of a file. -/
theorem Since.seek (since : Since cfg L δ s₀ s) (small : f < NFILE) (n : ℕ) :
    Since cfg L δ s₀
      { s with ftable := Function.update s.ftable f { s.ftable f with off := n } } :=
  since.same (since.inv.touchFile small _ rfl rfl since.inv.tables.tidy) ⟨rfl, rfl, rfl, rfl⟩

theorem seek_safe (small : f < NFILE) (off : File → ℕ) :
    Safe cfg L (modifyFile f fun file => { file with off := off file }) := fun _ s since =>
  since.seek small (off (s.ftable f))

/-- A read of a locked inode. -/
theorem readi_holds (k i off n : ℕ) (δ : ℕ → ℕ) :
    Preserves Benign (fun s => Since cfg L δ s₀ s ∧ Held s k i) (readi cfg k off n) := by
  rintro s ⟨since, held⟩
  apply (readi_spec since.inv.fs held off n).mono
  rintro _ t ⟨⟨count, rfl⟩, _⟩
  exact ⟨since.congr ⟨rfl, rfl, rfl, rfl⟩ since.inv.cur rfl fun _ => ⟨rfl, rfl, rfl⟩,
    held.ref, held.valid, held.inum⟩

theorem piperead_safe (p n : ℕ) : Safe cfg L (piperead p n) := by
  refine .bind (.gets _) fun _ => .bind (.gets _) fun _ => .ite (fun _ => .ite (fun _ => .pure _)
    fun _ => .fail (by simp [Benign])) fun _ => .bind (fun _ => .update fun s since => ?_)
      fun _ => .pure _
  exact since.congr ⟨rfl, rfl, rfl, rfl⟩ since.inv.cur rfl fun _ => ⟨rfl, rfl, rfl⟩

theorem fileread_safe (small : f < NFILE) (n : ℕ) : Safe cfg L (fileread cfg f n) := by
  refine .bind (.gets _) fun file => .ite (fun _ => .pure _) fun _ => ?_
  split
  · exact piperead_safe _ _
  · rename_i k _ _
    intro s₀ s since
    refine since.inv.ilock.seq fun _ t ⟨lock, held, _⟩ => ?_
    refine (readi_holds k _ _ _ 0 t ⟨since.quiet lock, held⟩).seq fun out u ⟨sinceU, _⟩ => ?_
    have finish : Safe cfg L (do
        iunlock k
        pure out) := .bind (iunlock_safe _) fun _ => .pure _
    rw [wp_bind, wp_when]
    exact ⟨fun _ => finish s₀ _ (sinceU.seek small _), fun _ => finish s₀ u sinceU⟩
  · exact .fail (by simp [Benign])
  · exact .fail (by simp [Benign])
  · exact .fail (by simp [Benign])

/-- A file that is open for writing on an entry of the inode cache. -/
def Writes (s : Kernel) (f k : ℕ) : Prop :=
  (s.ftable f).inode = some k ∧ (s.ftable f).writable = true

theorem Writes.outside (writes : Writes s f k) (outside : Outside s t) : Writes t f k := by
  rwa [Writes, outside.ftable]

theorem filewriteRound_safe (since : Since cfg L 0 s₀ s) (small : f < NFILE) (writes : Writes s f k)
    (src : List UInt8) :
    wp Benign (filewriteRound cfg f k src) (fun _ t => Since cfg L 0 s₀ t ∧ Writes t f k) s := by
  refine since.inv.beginOp.seq fun _ t begun => ?_
  refine begun.inv.ilock.seq fun _ u ⟨lock, held, disk, _⟩ => ?_
  have quiet := begun.next lock
  have writesU := writes.outside quiet.outside
  generalize inum : (t.icache k).inum = i at held
  have notDir : (u.dinode i).type ≠ .dir := by
    have kinds := quiet.inv.writable small writesU.1 writesU.2
    rw [held.inum] at kinds
    intro dir
    rw [dir] at kinds
    exact absurd kinds (by decide)
  rw [wp_read]
  refine ((writei_spec quiet.inv.fs held src _).and
    ((fsFrame_outside u).writei k src _ u (.refl u))).seq fun r v ⟨written, outside⟩ => ?_
  have since := since.quiet quiet
  have after : Since cfg L 0 s₀ v ∧ Writes v f k := by
    obtain ⟨rfl, -⟩ | ⟨-, -, -, F', wrote⟩ := written
    · exact ⟨since, writesU⟩
    · obtain ⟨phase, same⟩ := quiet.inv.wrote notDir wrote outside
      exact ⟨⟨phase.inv, same ▸ since.freed⟩, writesU.outside phase.outside⟩
  have finish : ∀ {w}, Since cfg L 0 s₀ w ∧ Writes w f k →
      wp Benign (do
        iunlock k
        endOp
        pure r) (fun _ x => Since cfg L 0 s₀ x ∧ Writes x f k) w := by
    rintro w ⟨sinceW, writesW⟩
    refine sinceW.inv.iunlock.seq fun _ x unlocked => ?_
    refine unlocked.inv.endOp.seq fun _ y ended => ?_
    have quiet := unlocked.next ended
    exact ⟨sinceW.quiet quiet, writesW.outside quiet.outside⟩
  rw [wp_bind, wp_when]
  refine ⟨fun _ => ?_, fun _ => finish after⟩
  refine finish ⟨after.1.seek small _, ?_⟩
  simp only [Writes, update_self]
  exact after.2

theorem filewriteLoop_safe (small : f < NFILE) (fuel : ℕ) :
    ∀ {s : Kernel} (src : List UInt8), Since cfg L 0 s₀ s → Writes s f k →
      wp Benign (filewriteLoop cfg f k fuel src) (fun _ t => Since cfg L 0 s₀ t) s := by
  induction fuel with
  | zero => exact fun src since _ => since
  | succ fuel ih =>
    intro s src since writes
    refine wp.ite (fun _ => since) fun _ => ?_
    refine (filewriteRound_safe since small writes _).seq fun r t ⟨sinceT, writesT⟩ => ?_
    refine wp.ite (fun _ => sinceT) fun _ => ?_
    exact wp.ite (fun _ => by simp [panic, Benign]) fun _ => ih _ sinceT writesT

theorem pipewrite_safe (p : ℕ) (src : List UInt8) : Safe cfg L (pipewrite p src) := by
  refine .bind ?_ fun _ => .pure _
  induction src with
  | nil => exact .pure _
  | cons c rest ih =>
    refine .bind (.gets _) fun _ => .bind (.gets _) fun _ => .ite (fun _ => .ite (fun _ => .pure _)
      fun _ => .fail (by simp [Benign])) fun _ => .bind (fun _ => .update fun s since => ?_)
        fun _ => ih
    exact since.congr ⟨rfl, rfl, rfl, rfl⟩ since.inv.cur rfl fun _ => ⟨rfl, rfl, rfl⟩

theorem filewrite_safe (small : f < NFILE) (src : List UInt8) :
    Safe cfg L (filewrite cfg f src) := by
  intro s₀ s since
  refine wp.ite (fun _ => since) fun writable => ?_
  split
  · exact pipewrite_safe _ _ s₀ s since
  · rename_i k isInode has
    rw [wp_bind]
    have points : (s.ftable f).inode = some k := by rw [File.inode, if_pos isInode, has]
    exact filewriteLoop_safe small _ _ since ⟨points, by simpa using writable⟩
  · exact wp.ite (fun _ => since) fun _ => by simp [panic, Benign]
  · simp [panic, Benign]
  · simp [Benign]

/-! ## Calls on descriptors -/

/-- The file behind a descriptor of the calling process. -/
def fileOf (s : Kernel) (fd : ℤ) : Option ℕ :=
  if fd < 0 ∨ NOFILE ≤ fd then none else s.myproc.ofile fd.toNat

theorem wp_argfd {α : Type} {E : Stop → Prop} {Q : α → Kernel → Prop} (fd : ℤ)
    (m : Option ℕ → K α) : wp E (argfd fd >>= m) Q s ↔ wp E (m (fileOf s fd)) Q s :=
  .rfl

theorem KernelInv.fileOf_lt (inv : KernelInv cfg L s δ) {fd : ℤ} (found : fileOf s fd = some f) :
    f < NFILE := by
  rw [fileOf] at found
  split at found
  · cases found
  · exact inv.tables.files found

/-- A call on a descriptor reaches a file of the table. -/
theorem withFile_safe {m : ℕ → K ℤ} (fd : ℤ) (each : ∀ f, f < NFILE → Safe cfg L (m f)) :
    Safe cfg L (do
      let file ← argfd fd
      match file with
      | none => pure (-1)
      | some f => m f) := by
  intro s₀ s since
  rw [wp_argfd]
  split
  · exact since
  · rename_i f found
    exact each f (since.inv.fileOf_lt found) s₀ s since

theorem sysRead_safe (fd : ℤ) (n : ℕ) : Safe cfg L (sysRead cfg fd n) :=
  withFile_safe fd fun _ small => .bind (fileread_safe small n) fun _ => .pure _

theorem sysWrite_safe (fd : ℤ) (src : List UInt8) : Safe cfg L (sysWrite cfg fd src) :=
  withFile_safe fd fun _ small => filewrite_safe small src

theorem fileclose_safe (small : f < NFILE) : Safe cfg L (fileclose cfg f) :=
  .of_calm fun inv => fileclose_spec inv small

/-- A descriptor is forgotten. -/
theorem dropOfile_safe (fd : ℕ) :
    Safe cfg L (modifyMyproc fun p => { p with ofile := Function.update p.ofile fd none }) := by
  refine fun _ => .update fun s since => since.same (since.inv.touchProc since.inv.cur _ rfl
    (fun {fd' f} has => ?_) since.inv.tables.idle) ⟨rfl, rfl, rfl, rfl⟩
  dsimp only at has
  obtain rfl | other := eq_or_ne fd' fd
  · rw [update_self] at has
    cases has
  · rw [update_of_ne other] at has
    exact since.inv.tables.files has

theorem sysClose_safe (fd : ℤ) : Safe cfg L (sysClose cfg fd) :=
  withFile_safe fd fun _ small => .bind (dropOfile_safe _) fun _ =>
    .bind (fileclose_safe small) fun _ => .pure _

theorem filedup_safe (small : f < NFILE) : Safe cfg L (filedup f) := by
  intro s₀ s since
  rw [filedup, wp_read]
  refine wp.ite (fun _ => by simp [panic, Benign]) fun used => ?_
  refine since.same (since.inv.touchFile small _ rfl rfl fun _ => ?_) ⟨rfl, rfl, rfl, rfl⟩
  dsimp only
  omega

theorem fdalloc_safe (small : f < NFILE) : Safe cfg L (fdalloc f) :=
  .of_calm fun inv => (fdalloc_spec inv small).mono fun _ _ calm => calm.1

theorem sysDup_safe (fd : ℤ) : Safe cfg L (sysDup fd) := by
  refine withFile_safe fd fun f small => .bind (fdalloc_safe small) fun new => ?_
  cases new with
  | none => exact .pure _
  | some fd => exact .bind (filedup_safe small) fun _ => .pure _

theorem sysFstat_safe (fd : ℤ) : Safe cfg L (sysFstat cfg fd) := by
  refine withFile_safe fd fun f small => .bind (.bind (.gets _) fun file => ?_) fun _ => .pure _
  split
  · refine .bind (fun s₀ s since => since.inv.ilock.mono fun _ t locked => since.quiet locked.1)
      fun _ => ?_
    exact .bind (.gets _) fun _ => .bind (iunlock_safe _) fun _ => .pure _
  · exact .fail (by simp [Benign])
  · exact .pure _

theorem sysLseek_safe (fd offset whence : ℤ) : Safe cfg L (sysLseek fd offset whence) := by
  refine withFile_safe fd fun f small => .bind (.gets _) fun file => ?_
  refine .ite (fun _ => .bind (seek_safe small _) fun _ => .pure _) fun _ => ?_
  refine .ite (fun _ => .bind (seek_safe small _) fun _ => .pure _) fun _ => ?_
  refine .ite (fun _ => ?_) fun _ => .pure _
  split
  · exact .fail (by simp [Benign])
  · exact .bind (.gets _) fun _ => .bind (seek_safe small _) fun _ => .pure _

/-! ## Trim -/

/-- The offset of a file open for writing, with all blocks below it in the inode. -/
def Trims (s : Kernel) (f : ℕ) : Prop :=
  ∃ k, Writes s f k ∧ (s.ftable f).off ≤ MAXFILE * BSIZE ∧
    ∀ n, n * BSIZE < (s.ftable f).off → place s.data (s.dinode (s.icache k).inum) (slotOf n) ≠ 0

/-- The links of a directory do not depend on the size of a file. -/
theorem links_of_size {x : ℕ} (disk : t.dinode = Function.update s.dinode i { s.dinode i with size := x })
    (data : t.data = s.data) (notDir : (s.dinode i).type ≠ .dir) : links t = links s := by
  have each : ∀ j, (tree t).kind j = (tree s).kind j ∧ (tree t).nlink j = (tree s).nlink j ∧
      ∀ n, (tree t).slot j n = (tree s).slot j n := by
    intro j
    simp only [tree, treeOf, disk, data]
    obtain rfl | other := eq_or_ne j i
    · simp [notDir]
    · simp [update_of_ne other]
  rw [links, links, Tree.bare, Tree.bare, funext fun j => (each j).1, funext fun j => (each j).2.1,
    funext fun j => funext (each j).2.2]

/-- `trim` keeps the invariant if the blocks below the new size are there. -/
theorem sysTrim_since (since : Since cfg L 0 s₀ s) {fd : ℤ} (fits : ∀ f ∈ fileOf s fd, Trims s f) :
    wp Benign (sysTrim cfg fd) (fun _ t => Since cfg L 0 s₀ t) s := by
  rw [sysTrim, wp_argfd]
  split
  · exact since
  · rename_i f found
    obtain ⟨k, ⟨points, writable⟩, small, full⟩ := fits f found
    have smallF := since.inv.fileOf_lt found
    have kinds := since.inv.writable smallF points writable
    have has := (File.inode_eq_some.mp points).2
    rw [wp_read]
    refine since.inv.beginOp.seq fun _ t begun => ?_
    rw [has]
    refine begun.inv.ilock.seq fun _ u ⟨lock, held, _⟩ => ?_
    have quiet := begun.next lock
    have holds := holders_file smallF points
    have inum := (begun.keeps (.inl holds)).1
    rw [inum] at held
    have same := quiet.current (.inl holds)
    rw [← same, ← quiet.data] at full
    rw [← same] at kinds
    rw [wp_bind]
    have notDir : (u.dinode (s.icache k).inum).type ≠ .dir := by
      intro dir
      rw [dir] at kinds
      exact absurd kinds (by decide)
    refine (lock.inv.setSize held notDir small full).mono fun _ v inner => ?_
    refine inner.seq fun _ w ⟨phase, data, _, disk⟩ => ?_
    have since : Since cfg L 0 s₀ w :=
      ⟨phase.inv, links_of_size disk data notDir ▸ (since.quiet quiet).freed⟩
    exact Safe.bind (iunlock_safe k) (fun _ => .bind endOp_safe fun _ => .pure _) s₀ w since

end Xv6Uac
