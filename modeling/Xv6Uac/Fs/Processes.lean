import Xv6Uac.Kernel.CallFrame
import Xv6Uac.Fs.Files

/-!
# Every call keeps the invariant

The calls on paths and processes, and with them every call (`dispatch_spec`) except a
`trim` that leaves a hole. `trim` sets the size of an inode to any offset, and then
blocks within the size may be missing. A run that makes no holes stays within the
invariant (`KernelInv.run`).
-/

namespace Xv6Uac

open Words
open Hoare hiding update
open Function (update update_of_ne update_self)

variable {cfg : Config} {s t u : Kernel} {i k f p ip : ℕ} {dir : Option ℕ} {L δ δ' : ℕ → ℕ}
  {s₀ : Kernel}

/-! ## Pipes -/

/-- Both ends of a new pipe are files of the table. -/
theorem pipealloc_spec (since : Since cfg L 0 s₀ s) (kalloc : Bool) :
    wp Benign (pipealloc cfg kalloc) (fun out t => Since cfg L 0 s₀ t ∧
      ∀ rf wf, out = some (rf, wf) → rf < NFILE ∧ wf < NFILE) s := by
  refine (filealloc_spec since.inv).seq fun first t ⟨invT, sameT, _, _, small, _⟩ => ?_
  have since := since.same invT sameT
  cases first with
  | none => exact ⟨since, fun _ _ none => nomatch none⟩
  | some f0 =>
    obtain ⟨small, fresh⟩ := small f0 rfl
    refine (filealloc_spec since.inv).seq fun second u ⟨invU, sameU, _, _, small', still⟩ => ?_
    have since := since.same invU sameU
    have fresh := still f0 fresh
    cases second with
    | none =>
      refine (fileclose_safe small s₀ u since).seq fun _ v sinceV => ?_
      exact ⟨sinceV, fun _ _ none => nomatch none⟩
    | some f1 =>
      obtain ⟨small', fresh'⟩ := small' f1 rfl
      apply wp.ite
      · intro _
        have pipes := since.congr (t := { u with
          npipe := u.npipe + 1
          pipes := update u.pipes u.npipe ⟨[], true, true⟩ }) ⟨rfl, rfl, rfl, rfl⟩
          since.inv.cur rfl fun _ => ⟨rfl, rfl, rfl⟩
        have first := pipes.inv.plainFile small { u.ftable f0 with
          type := .pipe
          readable := true
          writable := false
          pipe := some u.npipe } fresh.inode (by simp [File.inode]) fun _ => fresh.2
        refine ⟨(pipes.same first ⟨rfl, rfl, rfl, rfl⟩).same (first.plainFile small' _ ?_ ?_ ?_)
          ⟨rfl, rfl, rfl, rfl⟩, fun rf wf eq => ?_⟩
        · obtain rfl | other := eq_or_ne f1 f0
          · simp [File.inode]
          · simpa only [update_of_ne other] using fresh'.inode
        · simp [File.inode]
        · intro _
          obtain rfl | other := eq_or_ne f1 f0
          · simpa only [update_self] using fresh'.2
          · simpa only [update_of_ne other] using fresh'.2
        · cases eq
          exact ⟨small, small'⟩
      · intro _
        refine (fileclose_safe small s₀ u since).seq fun _ v sinceV => ?_
        refine (fileclose_safe small' s₀ v sinceV).seq fun _ w sinceW => ?_
        exact ⟨sinceW, fun _ _ none => nomatch none⟩

theorem sysPipe_safe (kalloc : Bool) : Safe cfg L (sysPipe cfg kalloc) := by
  intro s₀ s since
  refine (pipealloc_spec since kalloc).seq fun out t ⟨sinceT, small⟩ => ?_
  cases out with
  | none => exact sinceT
  | some ends =>
    obtain ⟨rf, wf⟩ := ends
    obtain ⟨smallR, smallW⟩ := small rf wf rfl
    have close : Safe cfg L (do
        fileclose cfg rf
        fileclose cfg wf
        pure (-1) : K ℤ) :=
      .bind (fileclose_safe smallR) fun _ => .bind (fileclose_safe smallW) fun _ => .pure _
    refine (fdalloc_safe smallR s₀ t sinceT).seq fun fd0 u sinceU => ?_
    cases fd0 with
    | none => exact close s₀ u sinceU
    | some fd0 =>
      refine (fdalloc_safe smallW s₀ u sinceU).seq fun fd1 v sinceV => ?_
      cases fd1 with
      | none => exact Safe.bind (dropOfile_safe fd0) (fun _ => close) s₀ v sinceV
      | some _ => exact sinceV

/-! ## Paths -/

/-- The tree after a reference was dropped. -/
theorem Dropped.links {F : ℕ → Dinode} (drop : Dropped cfg s.dinode F ∅ k s t) (same : SameFs t u) :
    Tree.Freed (links s) (links u) := by
  have freed : Tree.Freed (tree s) (treeOf s.myproc F s.data) := freed_of_inodes drop.eq_or_freed
  have after : (treeOf s.myproc F s.data).bare = Xv6Uac.links u := by
    simp only [Xv6Uac.links, tree, treeOf, Tree.bare, same.dinode, same.data, drop.data,
      drop.fsInv.dinode]
  rw [← after]
  exact freed.bare

/-- A call begins with a path, and gives up if there is no such file. -/
theorem pathCall_spec (inv : KernelInv cfg L s 0) {path : List UInt8} {rest : ℕ → K ℤ}
    {Q : ℤ → Kernel → Prop} (missing : ∀ t, Quiet cfg L s t 0 0 → Q (-1) t)
    (found : ∀ ip t, Quiet cfg L s t 0 (Pi.single ip 1) →
      walkPath s.dinode s path false ≠ none → wp Benign (rest ip) Q t) :
    wp Benign (do
      beginOp
      let found ← namei cfg path
      match found with
      | none => do
        endOp
        pure (-1)
      | some ip => rest ip) Q s := by
  refine inv.beginOp.seq fun _ t begun => ?_
  refine (begun.inv.namei path).seq fun out u led => ?_
  cases out with
  | none =>
    exact (begun.next led).endOp.seq fun _ v ended => missing v ended
  | some ip =>
    obtain ⟨quiet, name, walked⟩ := led
    have quiet := begun.next quiet
    rw [zero_add] at quiet
    apply found ip u quiet
    rw [begun.walkPath inv walked]
    exact Option.some_ne_none _

theorem sysChdir_safe (path : List UInt8) : Safe cfg L (sysChdir cfg path) := by
  intro s₀ s since
  refine pathCall_spec since.inv (fun _ ended => since.quiet ended) fun ip u quiet _ => ?_
  apply quiet.inv.ilock.seq
  rintro _ v ⟨lock, held, _⟩
  have quiet := quiet.next lock
  refine wp.ite (fun _ => (quiet.iunlockput_endOp (-1)).mono fun _ _ ended => since.quiet ended)
    fun _ => ?_
  refine quiet.inv.iunlock.seq fun _ w unlocked => ?_
  have invW := unlocked.inv
  have sinceW := (since.quiet quiet).quiet unlocked
  have heldW := (unlocked.held (by simp) held).1
  have same : w.myproc = v.myproc := unlocked.outside.myproc
  rw [← same]
  split
  · simp [Benign]
  · rename_i old cwd
    -- the old directory is dropped while the process still points to it
    apply ((iput_spec invW.fs (invW.mycwd old cwd)).and
      ((fsFrame_outside w).iput old w (.refl w))).seq
    rintro _ x ⟨⟨F, drop⟩, outside⟩
    have after : ∀ {y}, SameFs x y → y.ftable = x.ftable → y.cur = x.cur →
        y.proc = update x.proc x.cur { x.myproc with cwd := some ip } →
        Since cfg L 0 s₀ y := by
      intro y same ftable cur proc
      rw [outside.proc, outside.cur, outside.myproc] at proc
      refine ⟨invW.changeDir drop cwd same (ftable.trans outside.ftable)
        (cur.trans outside.cur) proc rfl rfl (fun j => ?_) fun {j} points => ?_,
        sinceW.freed.trans (drop.links same)⟩
      · rw [single_eq_ite, Pi.zero_apply, zero_add]
      · cases points
        rw [heldW.inum]
        exact (invW.fs.cached.held heldW).2
    rw [wp_bind, endOp, wp_update]
    split
    · exact after ⟨rfl, rfl, rfl, rfl⟩ rfl rfl rfl
    · exact after ⟨rfl, rfl, rfl, rfl⟩ rfl rfl rfl

/-- Permissions and owners have nothing to do with links. -/
theorem links_of_attrs {d : Dinode} (disk : t.dinode = update s.dinode i d)
    (data : t.data = s.data) (type : d.type = (s.dinode i).type)
    (nlink : d.nlink = (s.dinode i).nlink) (addrs : d.addrs = (s.dinode i).addrs)
    (size : d.size = (s.dinode i).size) : links t = links s := by
  have each : ∀ j, (t.dinode j).type = (s.dinode j).type ∧
      (t.dinode j).nlink = (s.dinode j).nlink ∧
      ∀ n, dirSlot t.data (t.dinode j) n = dirSlot s.data (s.dinode j) n := by
    intro j
    rw [disk, data]
    obtain rfl | other := eq_or_ne j i
    · rw [update_self]
      refine ⟨type, nlink, fun n => dirSlot_congr (by rw [size]) ?_⟩
      exact fun _ o _ _ => content_congr s.data addrs o
    · rw [update_of_ne other]
      exact ⟨rfl, rfl, fun _ => rfl⟩
  simp only [links, tree, treeOf, Tree.bare, (each _).1, (each _).2.1, (each _).2.2]

/-- A change of attributes of the inode at a path. The reference to it is lost. -/
theorem attrs_spec (since : Since cfg L (Pi.single ip 1) s₀ s) {change : Dinode → Dinode}
    (type : ∀ d, (change d).type = d.type) (nlink : ∀ d, (change d).nlink = d.nlink)
    (addrs : ∀ d, (change d).addrs = d.addrs) (size : ∀ d, (change d).size = d.size) :
    wp Benign (do
      ilock cfg ip
      modifyDinode ip change
      iupdate cfg ip
      iunlock ip
      endOp
      pure 0) (fun (_ : ℤ) t => Since cfg (L + Pi.single ip 1) 0 s₀ t) s := by
  refine since.inv.ilock.seq fun _ t ⟨lock, held, _⟩ => ?_
  have since := since.quiet lock
  refine (lock.inv.setAttrs held change type addrs size).seq fun _ _ inner => ?_
  refine inner.seq fun _ u ⟨phase, data, _, disk⟩ => ?_
  have same := links_of_attrs disk data (type _) (nlink _) (addrs _) (size _)
  have since : Since cfg L (Pi.single ip 1) s₀ u := ⟨phase.inv, same ▸ since.freed⟩
  refine since.inv.iunlock.seq fun _ v unlocked => ?_
  refine unlocked.inv.endOp.seq fun _ w ended => ?_
  have since := (since.quiet unlocked).quiet ended
  exact ⟨since.inv.lose, since.freed⟩

/-- A call that may lose a reference to the inode at a path, but not where `safe`
holds. -/
def MayLose (cfg : Config) (L : ℕ → ℕ) (safe : Kernel → Prop) (m : K ℤ) : Prop :=
  ∀ s₀ s, Since cfg L 0 s₀ s → wp Benign m (fun _ t => ∃ L', Since cfg L' 0 s₀ t ∧
    (safe s → L' = L)) s

theorem sysChmod_loses (path : List UInt8) (mode : BitVec 32) :
    MayLose cfg L (fun s => walkPath s.dinode s path false = none) (sysChmod cfg path mode) := by
  intro s₀ s since
  refine pathCall_spec since.inv (fun _ ended => ⟨L, since.quiet ended, fun _ => rfl⟩)
    fun ip u quiet somewhere => ?_
  apply wp.ite
  · intro _
    refine quiet.inv.endOp.seq fun _ _ ended => ⟨L + Pi.single ip 1, ?_, fun nowhere =>
      absurd nowhere somewhere⟩
    have since := (since.quiet quiet).quiet ended
    exact ⟨since.inv.lose, since.freed⟩
  · intro _
    refine wp.mono (attrs_spec (since.quiet quiet) (fun _ => rfl) (fun _ => rfl)
      (fun _ => rfl) fun _ => rfl) fun _ _ lost => ?_
    exact ⟨_, lost, fun nowhere => absurd nowhere somewhere⟩

theorem sysChown_loses (path : List UInt8) (owner group : ℤ) :
    MayLose cfg L (fun s => s.myproc.euid ≠ 0 ∨ walkPath s.dinode s path false = none)
      (sysChown cfg path owner group) := by
  intro s₀ s since
  refine wp.ite (fun _ => ⟨L, since, fun _ => rfl⟩) fun root => ?_
  refine pathCall_spec since.inv (fun _ ended => ⟨L, since.quiet ended, fun _ => rfl⟩)
    fun ip u quiet somewhere => ?_
  refine wp.mono (attrs_spec (since.quiet quiet) (fun _ => rfl) (fun _ => rfl)
    (fun _ => rfl) fun _ => rfl) fun _ _ lost => ?_
  exact ⟨_, lost, fun nowhere => absurd nowhere (not_or.mpr ⟨root, somewhere⟩)⟩

/-! ## Exec -/

/-- A change of a process that stays in its directory and its state and keeps its
files. -/
theorem modifyProc_safe (small : p < NPROC) {change : Proc → Proc}
    (same : ∀ proc, (change proc).cwd = proc.cwd ∧ (change proc).ofile = proc.ofile ∧
      (change proc).state = proc.state) :
    Safe cfg L (modifyProc p change) := fun _ s since => by
  refine since.same (since.inv.touchProc small _ (same _).1 (fun {fd f} has => ?_) fun dead => ?_)
    ⟨rfl, rfl, rfl, rfl⟩
  · rw [(same _).2.1] at has
    exact since.inv.tables.files has
  · rw [(same _).2.2] at dead
    rw [(same _).1]
    exact since.inv.tables.idle dead

theorem modifyMyproc_safe {change : Proc → Proc}
    (same : ∀ proc, (change proc).cwd = proc.cwd ∧ (change proc).ofile = proc.ofile ∧
      (change proc).state = proc.state) :
    Safe cfg L (modifyMyproc change) := fun s₀ s since =>
  modifyProc_safe since.inv.cur same s₀ s since

theorem execCommit_safe (setuid : Bool) : Safe cfg L (execCommit setuid) :=
  .bind (modifyMyproc_safe fun _ => ⟨rfl, rfl, rfl⟩) fun _ => .pure _

theorem sysExec_safe (vm : Vm) (path : List UInt8) : Safe cfg L (sysExec cfg vm path) := by
  intro s₀ s since
  refine pathCall_spec since.inv (fun _ ended => since.quiet ended) fun k u quiet _ => ?_
  refine quiet.inv.ilock.seq fun _ v ⟨lock, held, _⟩ => ?_
  have since := (since.quiet quiet).quiet lock
  refine (execLoad_preserves (fun off n => readi_holds k _ off n _) vm v ⟨since, held⟩).seq
    fun loaded w ⟨since, _⟩ => ?_
  rw [inode, wp_read]
  refine (since.inv.iunlockput (by simp)).seq fun _ x dropped => ?_
  rw [sub_single_self] at dropped
  have since := since.quiet dropped
  refine since.inv.endOp.seq fun _ y ended => ?_
  have since := since.quiet ended
  exact wp.ite (fun _ => execCommit_safe _ s₀ y since) fun _ => since

/-! ## Processes -/

/-- A slot of the process table that has no working directory yet. -/
theorem allocproc_spec (since : Since cfg L 0 s₀ s) (kalloc : Bool) :
    wp Benign (allocproc kalloc) (fun out t => Since cfg L 0 s₀ t ∧
      ∀ np ∈ out, np < NPROC ∧ (t.proc np).cwd = none) s := by
  rw [allocproc, wp_read]
  split
  · exact ⟨since, fun _ none => nomatch none⟩
  · rename_i np found
    have small : np < NPROC := List.mem_range.mp (List.mem_of_find?_eq_some found)
    have unused : (s.proc np).state = .unused := by simpa using List.find?_some found
    have noDir := since.inv.tables.idle (.inl unused)
    have pid := since.congr (t := { s with nextpid := s.nextpid + 1 }) ⟨rfl, rfl, rfl, rfl⟩
      since.inv.cur rfl fun _ => ⟨rfl, rfl, rfl⟩
    have files : ∀ {fd f}, (s.proc np).ofile fd = some f → f < NFILE := fun has =>
      since.inv.tables.files has
    apply wp.ite
    · intro _
      refine ⟨pid.same (pid.inv.touchProc small _ rfl files fun _ => noDir) ⟨rfl, rfl, rfl, rfl⟩, ?_⟩
      rintro _ ⟨⟩
      exact ⟨small, by simpa using noDir⟩
    · intro _
      exact ⟨pid.same (pid.inv.touchProc small _ rfl files fun _ => noDir) ⟨rfl, rfl, rfl, rfl⟩,
        fun _ none => nomatch none⟩

/-- In `fork`, the calling process still has the working directory `dir` and the new one
has none. -/
structure Forking (cfg : Config) (L : ℕ → ℕ) (dir : Option ℕ) (np : ℕ) (s₀ s : Kernel) : Prop where
  since : Since cfg L 0 s₀ s
  here : s.myproc.cwd = dir
  noDir : (s.proc np).cwd = none

theorem modifyProc_forking (small : p < NPROC) {change : Proc → Proc}
    (same : ∀ proc, (change proc).cwd = proc.cwd)
    (files : ∀ {s : Kernel} {fd f : ℕ}, Tables s → (change (s.proc p)).ofile fd = some f →
      f < NFILE) :
    Preserves Benign (Forking cfg L dir p s₀) (modifyProc p change) := by
  rintro s ⟨since, here, noDir⟩
  have cwd : ∀ q, (update s.proc p (change (s.proc p)) q).cwd = (s.proc q).cwd := by
    intro q
    obtain rfl | other := eq_or_ne q p
    · rw [update_self, same]
    · rw [update_of_ne other]
  refine ⟨since.same (since.inv.touchProc small _ (same _) (files since.inv.tables) fun _ => ?_)
    ⟨rfl, rfl, rfl, rfl⟩, (cwd s.cur).trans here, (cwd p).trans noDir⟩
  rw [same, noDir]

theorem forkFiles_forking (small : p < NPROC) (fd : ℕ) :
    Preserves Benign (Forking cfg L dir p s₀) (forkFiles p fd) := by
  intro s forking
  rw [forkFiles, myproc, wp_read]
  split
  · exact forking
  · rename_i f has
    have smallF := forking.since.inv.tables.files has
    rw [wp_bind, filedup, wp_read]
    refine wp.ite (fun _ => by simp [panic, Benign]) fun used => ?_
    rw [modifyFile, wp_update]
    refine (?_ : Preserves Benign (Forking cfg L dir p s₀) _) _ ⟨forking.since.same
      (forking.since.inv.touchFile smallF _ rfl rfl fun _ => ?_) ⟨rfl, rfl, rfl, rfl⟩,
      forking.here, forking.noDir⟩
    · refine modifyProc_forking small (fun _ => rfl) fun {t fd' g} tables hasG => ?_
      dsimp only at hasG
      obtain rfl | other := eq_or_ne fd' fd
      · rw [update_self] at hasG
        cases hasG
        exact smallF
      · rw [update_of_ne other] at hasG
        exact tables.files hasG
    · dsimp only
      omega

/-- The new process gets a reference to the working directory. -/
theorem sysFork_safe (kalloc copyuvm : Bool) : Safe cfg L (sysFork kalloc copyuvm) := by
  intro s₀ s since
  apply (allocproc_spec since kalloc).seq
  rintro out t ⟨since, small⟩
  cases out with
  | none => exact since
  | some np =>
    obtain ⟨small, noDir⟩ := small np rfl
    apply wp.ite
    · intro _
      rw [wp_read, wp_bind]
      refine wp.seq ((?_ : Preserves Benign (Forking cfg L t.myproc.cwd np s₀) _) t
        ⟨since, rfl, noDir⟩) fun _ u forking => ?_
      · exact modifyProc_forking small (fun _ => rfl) fun tables has => tables.files has
      apply (Preserves.upto (forkFiles_forking small) u forking).seq
      rintro _ v ⟨sinceV, here, noDir⟩
      split
      · simp [Benign]
      · rename_i k cwd
        have here := here.trans cwd
        have invV := sinceV.inv
        apply ((Shrinks.refl invV.fs).idup (invV.mycwd k here)).seq
        rintro j w ⟨rfl, run, _⟩
        have quiet := invV.quiet_of_shrinks run
        rw [zero_add, zero_add] at quiet
        have holds := holders_cwd invV.cur here
        have live := quiet.inv.live (quiet.outside.holders j ▸ holds)
        have noDir : (w.proc np).cwd = none := by rw [quiet.outside.proc, noDir]
        refine (sinceV.quiet quiet).same (quiet.inv.setProc small _ (fun i => ?_)
          quiet.inv.tables.files (fun dead => ?_) fun {i} points => ?_)
          ⟨rfl, rfl, rfl, rfl⟩
        · rw [single_eq_ite, noDir]
          simp
        · exact absurd dead (by simp)
        · cases points
          exact live
    · intro _
      exact since.same (since.inv.touchProc small _ rfl
        since.inv.tables.files fun _ => noDir) ⟨rfl, rfl, rfl, rfl⟩

theorem exitFile_safe (fd : ℕ) : Safe cfg L (exitFile cfg fd) := by
  intro s₀ s since
  rw [exitFile, myproc, wp_read]
  split
  · exact since
  · rename_i f has
    refine (fileclose_safe (since.inv.tables.files has) s₀ s since).seq fun _ t sinceT => ?_
    exact dropOfile_safe fd s₀ t sinceT

/-- The last step of `exit`, when the process has no working directory any more. -/
theorem zombie_since (since : Since cfg L 0 s₀ s) (cwd : s.myproc.cwd = none) :
    Since cfg L 0 s₀ { s with
      proc := update s.proc s.cur { s.myproc with state := .zombie } } :=
  since.same (since.inv.touchProc since.inv.cur _ rfl since.inv.tables.files
    fun _ => cwd) ⟨rfl, rfl, rfl, rfl⟩

/-- The process leaves its working directory for good. -/
theorem sysExit_safe : Safe cfg L (sysExit cfg) := by
  intro s₀ s since
  refine wp.ite (fun _ => by simp [panic, Benign]) fun _ => ?_
  refine (Safe.upto exitFile_safe s₀ s since).seq fun _ t since => ?_
  rw [wp_bind, myproc, wp_gets]
  split
  · simp [Benign]
  · rename_i k cwd
    refine since.inv.beginOp.seq fun _ u begun => ?_
    have since := since.quiet begun
    rw [← begun.outside.myproc] at cwd
    apply ((iput_spec begun.inv.fs (begun.inv.mycwd k cwd)).and
      ((fsFrame_outside u).iput k u (.refl u))).seq
    rintro _ v ⟨⟨F, drop⟩, outside⟩
    have after : ∀ {w}, SameFs v w → w.ftable = v.ftable → w.cur = v.cur →
        w.proc = update v.proc v.cur { v.myproc with cwd := none } →
        Since cfg L 0 s₀ w ∧ w.myproc.cwd = none := by
      intro w same ftable cur proc
      refine ⟨?_, by simp [Kernel.myproc, cur, proc]⟩
      rw [outside.proc, outside.cur, outside.myproc] at proc
      refine ⟨begun.inv.changeDir drop cwd same (ftable.trans outside.ftable)
        (cur.trans outside.cur) proc rfl rfl (fun j => by simp) (fun points => by cases points),
        since.freed.trans (drop.links same)⟩
    rw [wp_bind, endOp, wp_update]
    have finish : ∀ {w}, Since cfg L 0 s₀ w ∧ w.myproc.cwd = none → ∀ init cur,
        wp Benign (do
          Hoare.update fun s => { s with
            proc := fun q =>
              if (s.proc q).parent = some cur then { s.proc q with parent := some init }
              else s.proc q }
          modifyMyproc fun p => { p with state := .zombie }
          pure 0) (fun (_ : ℤ) x => Since cfg L 0 s₀ x) w := by
      rintro w ⟨sinceW, noDir⟩ init cur
      refine zombie_since (sinceW.congr ⟨rfl, rfl, rfl, rfl⟩ sinceW.inv.cur rfl fun q => ?_) ?_
      · dsimp only
        split <;> exact ⟨rfl, rfl, rfl⟩
      · simp only [Kernel.myproc]
        split <;> exact noDir
    split
    · refine finish ?_ _ _
      exact after ⟨rfl, rfl, rfl, rfl⟩ rfl rfl rfl
    · refine finish ?_ _ _
      exact after ⟨rfl, rfl, rfl, rfl⟩ rfl rfl rfl

theorem sysWait_safe : Safe cfg L sysWait := by
  intro s₀ s since
  rw [sysWait, myproc, wp_read, wp_read, wp_read]
  split
  · rename_i q found
    have small : q < NPROC := List.mem_range.mp (List.mem_of_find?_eq_some found)
    have dead : (s.proc q).state = .zombie := by
      have holds := List.find?_some found
      simp only [decide_eq_true_eq] at holds
      exact holds.2
    exact since.same (since.inv.touchProc small _ rfl since.inv.tables.files
      fun _ => since.inv.tables.idle (.inr dead)) ⟨rfl, rfl, rfl, rfl⟩
  · exact wp.ite (fun _ => since) fun _ => by simp [Benign]

theorem sysKill_safe (pid : ℤ) : Safe cfg L (sysKill pid) := by
  intro s₀ s since
  rw [sysKill, wp_read]
  split
  · exact since
  · rename_i q found
    have small : q < NPROC := List.mem_range.mp (List.mem_of_find?_eq_some found)
    refine (?_ : Safe cfg L _) s₀ s since
    exact .bind (modifyProc_safe small fun _ => ⟨rfl, rfl, rfl⟩) fun _ => .pure _

theorem sysSetuid_safe (newid : ℤ) : Safe cfg L (sysSetuid newid) :=
  .bind (.gets _) fun _ => .ite (fun _ => .bind (modifyMyproc_safe fun _ => ⟨rfl, rfl, rfl⟩)
    fun _ => .pure _) fun _ => .pure _

theorem sysSetgrps_safe (ngroups : ℤ) (gids : ℕ → ℤ) : Safe cfg L (sysSetgrps ngroups gids) :=
  .bind (.gets _) fun _ => .ite (fun _ => .pure _) fun _ => .ite (fun _ => .pure _) fun _ =>
    .ite (fun _ => .fail (by simp [Benign])) fun _ =>
      .bind (modifyMyproc_safe fun _ => ⟨rfl, rfl, rfl⟩) fun _ => .pure _

/-! ## All calls -/

/-- Where a call may make an entry. -/
def Makes (s : Kernel) : Call → ℕ → List UInt8 → Prop
  | .open path omode => OpenMakes s path omode
  | .mknod path _ _ => Leads s path
  | .mkdir path => Leads s path
  | .link _ new => Leads s new
  | _ => Nowhere

/-- Where a call may remove an entry. -/
def Removes (s : Kernel) : Call → ℕ → List UInt8 → Prop
  | .unlink path => Leads s path
  | _ => Nowhere

/-- The path at which a call makes or removes an entry. -/
def Call.entryPath : Call → Option (List UInt8)
  | .open path _ => some path
  | .mknod path _ _ => some path
  | .unlink path => some path
  | .link _ new => some new
  | .mkdir path => some path
  | _ => none

variable {call : Call} {trace : List Step}

/-- **What a call that makes or removes entries does to the tree.** -/
theorem dispatch_effect (inv : KernelInv cfg L s 0) (makes : call.entryPath ≠ none) :
    wp Benign (dispatch cfg call) (fun _ t => KernelInv cfg L t 0 ∧ t.cur = s.cur ∧
      Tree.Effect cfg.short (Makes s call) (Removes s call) cfg.sb.ninodes NSLOT (tree s)
        (tree t)) s := by
  have done : ∀ {m : K ℤ}, wp Benign m (fun _ t => Done cfg L (Makes s call) (Removes s call) s t) s →
      wp Benign m (fun _ t => KernelInv cfg L t 0 ∧ t.cur = s.cur ∧
        Tree.Effect cfg.short (Makes s call) (Removes s call) cfg.sb.ninodes NSLOT (tree s)
          (tree t)) s :=
    fun spec => spec.mono fun _ t done => ⟨done.phase.inv, done.phase.outside.cur, done.effect⟩
  cases call with
  | «open» path omode => exact sysOpen_spec inv path omode
  | mknod path major minor | mkdir path => exact done (createAndPut_spec inv path (by decide) _ _)
  | unlink path => exact done (sysUnlink_spec inv path)
  | link old new => exact done (sysLink_spec inv old new)
  | _ => exact absurd rfl makes

/-- Entries are made and removed where the path of the call leads. -/
theorem leads_of_makes {path : List UInt8} (entry : call.entryPath = some path) {d : ℕ}
    {name : List UInt8} (made : Makes s call d name ∨ Removes s call d name) :
    Leads s path d name := by
  cases call <;> cases entry
  case «open».refl omode => exact made.elim And.right False.elim
  case unlink.refl => exact made.elim False.elim id
  all_goals exact made.elim id False.elim

/-- A call keeps files without holes. Only a `trim` may not. -/
def Whole (s : Kernel) : Call → Prop
  | .trim fd => ∀ f ∈ fileOf s fd, Trims s f
  | _ => True

/-- A call gives back the references that it takes. `chmod` and `chown` do not give back
the one to the inode they change. -/
def Returns (s : Kernel) : Call → Prop
  | .chmod path _ => walkPath s.dinode s path false = none
  | .chown path _ _ => s.myproc.euid ≠ 0 ∨ walkPath s.dinode s path false = none
  | _ => True

theorem whole_of_noTrim (noTrim : ∀ fd, call ≠ .trim fd) : Whole s call := by
  cases call with
  | trim fd => exact absurd rfl (noTrim fd)
  | _ => exact trivial

/-- What a call does to the links. -/
def LinkEffect (cfg : Config) (call : Call) (s t : Kernel) : Prop :=
  ∃ T, T.bare = links t ∧ Tree.Effect cfg.short (Makes s call) (Removes s call) cfg.sb.ninodes NSLOT
    (tree s) T

theorem LinkEffect.of_freed (freed : Tree.Freed (links s) (links t)) : LinkEffect cfg call s t := by
  refine ⟨{ links t with search := (tree s).search }, rfl, .of_freed fun i => ?_⟩
  obtain ⟨kind, nlink, slot, -⟩ | gone := freed i
  · exact .inl ⟨kind, nlink, slot, rfl⟩
  · exact .inr gone

/-- After a call the invariant holds, with the references that the call lost. -/
structure Called (cfg : Config) (L L' : ℕ → ℕ) (call : Call) (s t : Kernel) : Prop where
  inv : KernelInv cfg L' t 0
  effect : LinkEffect cfg call s t
  kept : Returns s call → L' = L

theorem Since.called (since : Since cfg L 0 s t) : Called cfg L L call s t :=
  ⟨since.inv, .of_freed since.freed, fun _ => rfl⟩

theorem Safe.called {m : K ℤ} (safe : Safe cfg L m) (inv : KernelInv cfg L s 0) :
    wp Benign m (fun _ t => ∃ L', Called cfg L L' call s t) s :=
  (safe s s (.refl inv)).mono fun _ _ since => ⟨L, since.called⟩

theorem Call.called (makes : call.entryPath ≠ none) (inv : KernelInv cfg L s 0) :
    wp Benign (dispatch cfg call) (fun _ t => ∃ L', Called cfg L L' call s t) s :=
  (dispatch_effect inv makes).mono fun _ t ⟨invT, _, effect⟩ =>
    ⟨L, invT, ⟨tree t, rfl, effect⟩, fun _ => rfl⟩

/-- **Every call keeps the invariant**, apart from a `trim` that makes a hole. -/
theorem dispatch_spec (inv : KernelInv cfg L s 0) (whole : Whole s call) :
    wp Benign (dispatch cfg call) (fun _ t => ∃ L', Called cfg L L' call s t) s := by
  cases call with
  | fork kalloc copyuvm => exact (sysFork_safe kalloc copyuvm).called inv
  | exit => exact sysExit_safe.called inv
  | wait => exact sysWait_safe.called inv
  | pipe kalloc => exact (sysPipe_safe kalloc).called inv
  | read fd n => exact (sysRead_safe fd n).called inv
  | kill pid => exact (sysKill_safe pid).called inv
  | exec vm path => exact (sysExec_safe vm path).called inv
  | fstat fd => exact (sysFstat_safe fd).called inv
  | chdir path => exact (sysChdir_safe path).called inv
  | dup fd => exact (sysDup_safe fd).called inv
  | getpid | getuid | geteuid => exact (Safe.gets _).called inv
  | «open» path omode | mknod path major minor | unlink path | link old new | mkdir path =>
    exact Call.called (Option.some_ne_none _) inv
  | write fd src => exact (sysWrite_safe fd src).called inv
  | close fd => exact (sysClose_safe fd).called inv
  | setuid newid => exact (sysSetuid_safe newid).called inv
  | chmod path mode =>
    exact (sysChmod_loses path mode s s (.refl inv)).mono fun _ _ ⟨L', since, kept⟩ =>
      ⟨L', since.inv, .of_freed since.freed, kept⟩
  | chown path owner group =>
    exact (sysChown_loses path owner group s s (.refl inv)).mono fun _ _ ⟨L', since, kept⟩ =>
      ⟨L', since.inv, .of_freed since.freed, kept⟩
  | lseek fd offset whence => exact (sysLseek_safe fd offset whence).called inv
  | trim fd => exact (sysTrim_since (.refl inv) whole).mono fun _ _ since => ⟨L, since.called⟩
  | setgrps ngroups gids => exact (sysSetgrps_safe ngroups gids).called inv
  | invalid | other => exact (Safe.pure _).called inv

/-! ## Runs -/

/-- The scheduler may switch to any process. -/
theorem KernelInv.switch (inv : KernelInv cfg L s δ) (small : p < NPROC) :
    KernelInv cfg L (s.switch p) δ :=
  inv.congr ⟨rfl, rfl, rfl, rfl⟩ small rfl fun _ => ⟨rfl, rfl, rfl⟩

/-- A step of a run keeps the invariant. -/
theorem KernelInv.step {taken : Step} (inv : KernelInv cfg L s 0)
    (whole : Whole (s.switch taken.p) taken.call) (stepped : step cfg s taken t) :
    ∃ L', Called cfg L L' taken.call (s.switch taken.p) t :=
  (dispatch_spec (inv.switch stepped.1) whole).of_ok stepped.2.2

/-- The runs whose steps all meet a condition. -/
abbrev RunOf (cond : Kernel → Call → Prop) (cfg : Config) (start : Kernel) :
    List Step → Kernel → Prop :=
  TraceRun.Run (fun s taken t => step cfg s taken t ∧ cond (s.switch taken.p) taken.call) start

/-- A run whose calls meet the condition in any state. -/
theorem runOf_of_forall {cond : Kernel → Call → Prop} (run : KernelRun cfg s trace t)
    (all : ∀ taken ∈ trace, ∀ u, cond u taken.call) : RunOf cond cfg s trace t :=
  (run.restrict all).mono fun _ _ _ ⟨stepped, fine⟩ => ⟨stepped, fine _⟩

/-- A run without `trim`. -/
theorem whole_run (run : KernelRun cfg s trace t)
    (noTrim : ∀ taken ∈ trace, ∀ fd, taken.call ≠ .trim fd) : RunOf Whole cfg s trace t :=
  runOf_of_forall run fun taken member _ => whole_of_noTrim (noTrim taken member)

/-- **A run that makes no holes stays within the invariant.** -/
theorem KernelInv.run {cond : Kernel → Call → Prop} (inv : KernelInv cfg L s 0)
    (whole : ∀ u call, cond u call → Whole u call) (run : RunOf cond cfg s trace t) :
    ∃ L', KernelInv cfg L' t 0 := by
  induction run with
  | refl => exact ⟨L, inv⟩
  | tail _ stepped ih =>
    obtain ⟨L', inv'⟩ := ih
    obtain ⟨L'', called⟩ := inv'.step (whole _ _ stepped.2) stepped.1
    exact ⟨L'', called.inv⟩

end Xv6Uac
