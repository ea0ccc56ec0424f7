import Xv6Uac.Fs.Path
import Xv6Uac.Kernel.Syscall
import Xv6Uac.Lib.Pointers

/-!
# The invariant of the kernel

Between calls every inode is on disk as the cache shows it, so the inodes of the
file-system invariant are those of the disk. The rest of the invariant
(`KernelInv`) is about who holds references: the references of an entry of the inode
cache are the working directories and open files that point to it, the references `L`
that some call has lost, and in the middle of a call the `δ` that the call holds.

A file that is open for writing is not a directory, so that entries of directories
are written by `dirlink` and `unlink` only. A working directory or open file is on an
allocated inode.

A change of the tables of files and processes keeps the invariant if it adds as many
holders as the call gives up (`KernelInv.setFile`, `KernelInv.setProc`). `chdir` and
`exit` drop the reference to the old working directory before they forget it, so there
the two changes are taken together (`KernelInv.leave`).
-/

namespace Xv6Uac

open Words Hoare Pointers
open Function (update_of_ne update_self)

variable {cfg : Config} {F F' : ℕ → Dinode} {D : Set ℕ} {s t u : Kernel} {k f p : ℕ}
  {L δ δ' ε : ℕ → ℕ}

/-! ## Holders of references -/

theorem single_eq_ite (k j : ℕ) : (Pi.single k 1 : ℕ → ℕ) j = if some k = some j then 1 else 0 := by
  simp only [Pi.single_apply, Option.some.injEq, eq_comm]

/-- The entry of the inode cache that an open file points to. -/
def File.inode (file : File) : Option ℕ := if file.type = .inode then file.ip else none

theorem File.inode_eq_some {file : File} :
    file.inode = some k ↔ file.type = .inode ∧ file.ip = some k := by
  rw [File.inode]
  split <;> simp_all

/-- The number of working directories and open files that point to an entry. -/
def holders (s : Kernel) (k : ℕ) : ℕ :=
  pointers NPROC (fun p => (s.proc p).cwd) k + pointers NFILE (fun f => (s.ftable f).inode) k

/-- The references depend on the processes and the files only. -/
theorem Outside.holders (outside : Outside s t) (k : ℕ) : holders t k = holders s k := by
  rw [Xv6Uac.holders, Xv6Uac.holders, outside.proc, outside.ftable]

theorem holders_cwd (small : p < NPROC) (cwd : (s.proc p).cwd = some k) : 0 < holders s k :=
  Nat.add_pos_left (pointers_pos small cwd) _

theorem holders_file (small : f < NFILE) (points : (s.ftable f).inode = some k) :
    0 < holders s k :=
  Nat.add_pos_right _ (pointers_pos (g := fun f => (s.ftable f).inode) small points)

/-! ## The invariant -/

/-- The tables of processes and files are in order: descriptors are files of the table, a
file with a type has references, and a slot without a live process has no working
directory. -/
structure Tables (s : Kernel) : Prop where
  files : ∀ {p fd f : ℕ}, (s.proc p).ofile fd = some f → f < NFILE
  tidy : ∀ {f : ℕ}, (s.ftable f).type ≠ .none → 0 < (s.ftable f).ref
  idle : ∀ {p : ℕ}, (s.proc p).state = .unused ∨ (s.proc p).state = .zombie →
    (s.proc p).cwd = none

/-- **The invariant of the kernel** in a call that holds `δ` references, after earlier
calls have lost `L`. -/
structure KernelInv (cfg : Config) (L : ℕ → ℕ) (s : Kernel) (δ : ℕ → ℕ) : Prop where
  root : ROOTINO < cfg.sb.ninodes
  zero : (s.dinode 0).type = .free
  cur : s.cur < NPROC
  fs : FsInv cfg s.dinode ∅ s
  named : Named cfg s.dinode s.data
  refs : ∀ k, (s.icache k).ref = ((holders s k + L k + δ k : ℕ) : ℤ)
  tables : Tables s
  writable : ∀ {f k : ℕ}, f < NFILE → (s.ftable f).inode = some k →
    (s.ftable f).writable = true →
    (s.dinode (s.icache k).inum).type = .file ∨ (s.dinode (s.icache k).inum).type = .dev
  live : ∀ {k : ℕ}, 0 < holders s k → (s.dinode (s.icache k).inum).type ≠ .free

/-- With nothing left to write the disk shows every inode. -/
theorem FsInv.dinode (inv : FsInv cfg F ∅ s) : s.dinode = F := by
  funext i
  exact inv.cached.synced (Set.notMem_empty i)

theorem FsInv.onDisk (inv : FsInv cfg F ∅ s) : FsInv cfg s.dinode ∅ s := by
  rwa [inv.dinode]

/-- The file system is the same in both states. -/
structure SameFs (s t : Kernel) : Prop where
  dinode : t.dinode = s.dinode
  bitmap : t.bitmap = s.bitmap
  data : t.data = s.data
  icache : t.icache = s.icache

theorem SameFs.refl (s : Kernel) : SameFs s s := ⟨rfl, rfl, rfl, rfl⟩

theorem FsInv.congr (inv : FsInv cfg F D s) (same : SameFs s t) : FsInv cfg F D t := by
  obtain ⟨⟨nonneg, inside, bound, unique, shows, synced⟩, layout⟩ := inv
  rw [← same.icache] at nonneg inside bound unique shows
  rw [← same.dinode] at synced
  rw [← same.bitmap, ← same.data] at layout
  exact ⟨⟨nonneg, inside, bound, unique, shows, synced⟩, layout⟩

namespace Tables

theorem outside (tables : Tables s) (outside : Outside s t) : Tables t := by
  obtain ⟨files, tidy, idle⟩ := tables
  rw [← outside.proc] at files idle
  rw [← outside.ftable] at tidy
  exact ⟨files, tidy, idle⟩

theorem setFile (tables : Tables s) {file : File} (used : file.type ≠ .none → 0 < file.ref) :
    Tables { s with ftable := Function.update s.ftable f file } where
  files := tables.files
  tidy {g} type := by
    dsimp only at type ⊢
    obtain rfl | other := eq_or_ne g f
    · rw [update_self] at type ⊢
      exact used type
    · rw [update_of_ne other] at type ⊢
      exact tables.tidy type
  idle := tables.idle

theorem setProc {proc : Proc} (tables : Tables s) (ftable : t.ftable = s.ftable)
    (change : t.proc = Function.update s.proc p proc)
    (files : ∀ {fd f : ℕ}, proc.ofile fd = some f → f < NFILE)
    (idle : proc.state = .unused ∨ proc.state = .zombie → proc.cwd = none) : Tables t where
  files {q fd f} has := by
    rw [change] at has
    obtain rfl | other := eq_or_ne q p
    · rw [update_self] at has
      exact files has
    · rw [update_of_ne other] at has
      exact tables.files has
  tidy := ftable ▸ tables.tidy
  idle {q} dead := by
    rw [change] at dead ⊢
    obtain rfl | other := eq_or_ne q p
    · rw [update_self] at dead ⊢
      exact idle dead
    · rw [update_of_ne other] at dead ⊢
      exact tables.idle dead

end Tables

namespace KernelInv

/-- A reference that the call holds. -/
theorem used (inv : KernelInv cfg L s δ) (mine : 1 ≤ δ k) : 0 < (s.icache k).ref := by
  have := inv.refs k
  omega

/-- An entry that somebody points to is in use. -/
theorem held (inv : KernelInv cfg L s δ) (holds : 0 < holders s k) : 0 < (s.icache k).ref := by
  have := inv.refs k
  omega

theorem mycwd (inv : KernelInv cfg L s δ) : ∀ k ∈ s.myproc.cwd, 0 < (s.icache k).ref :=
  fun _ dir => inv.held (holders_cwd inv.cur dir)

/-! ## Parts of a call -/

/-- What a part of a call leaves that takes `ε` references and that changes the
type of no allocated inode that is in use. -/
theorem update (inv : KernelInv cfg L s δ) (fs : FsInv cfg F ∅ t) (named : Named cfg F t.data)
    (outside : Outside s t) (kept : Kept s t ε) (zero : (F 0).type = .free)
    (types : ∀ j, 0 < (s.icache j).ref → (s.dinode (s.icache j).inum).type ≠ .free →
      (F (s.icache j).inum).type = (s.dinode (s.icache j).inum).type) :
    KernelInv cfg L t (δ + ε) where
  root := inv.root
  zero := by rwa [fs.dinode]
  cur := outside.cur ▸ inv.cur
  fs := fs.onDisk
  named := by
    rwa [fs.dinode]
  refs k := by
    have := inv.refs k
    rw [outside.holders, kept.ref k, Pi.add_apply]
    omega
  tables := inv.tables.outside outside
  writable {f k} small points writable := by
    rw [outside.ftable] at points writable
    have holds := holders_file small points
    rw [fs.dinode, kept.inum k (inv.held holds), types k (inv.held holds) (inv.live holds)]
    exact inv.writable small points writable
  live {k} holds := by
    rw [outside.holders] at holds
    rw [fs.dinode, kept.inum k (inv.held holds), types k (inv.held holds) (inv.live holds)]
    exact inv.live holds

/-- A reference is dropped, and then the tables of processes change. -/
theorem leave (inv : KernelInv cfg L s δ) (drop : Dropped cfg s.dinode F ∅ k s t)
    (same : SameFs t u) (ftable : u.ftable = s.ftable) (cur : u.cur < NPROC)
    (refs : ∀ j, holders u j + δ' j + (Pi.single k 1 : ℕ → ℕ) j = holders s j + δ j)
    (tables : Tables u)
    (live : ∀ {j : ℕ}, 0 < holders u j → (s.dinode (s.icache j).inum).type ≠ .free) :
    KernelInv cfg L u δ' := by
  have fs := drop.fsInv.congr same
  have refs : ∀ j, (u.icache j).ref = ((holders u j + L j + δ' j : ℕ) : ℤ) := by
    intro j
    have := inv.refs j
    have count := refs j
    rw [same.icache]
    obtain rfl | other := eq_or_ne j k
    · rw [Pi.single_eq_same] at count
      rw [drop.ref]
      omega
    · rw [Pi.single_eq_of_ne other] at count
      rw [drop.others j other]
      omega
  -- an inode that is still pointed to has not changed
  have current : ∀ {j}, 0 < holders u j →
      u.dinode (u.icache j).inum = s.dinode (s.icache j).inum := by
    intro j holds
    have used : 0 < (t.icache j).ref := by
      have := refs j
      rw [same.icache] at this
      omega
    rw [fs.dinode, same.icache, drop.current inv.fs.cached used, (drop.stays j used).1]
  refine ⟨inv.root, ?_, cur, fs.onDisk, ?_, refs, tables, ?_, ?_⟩
  · rw [fs.dinode]
    obtain same | gone := drop.eq_or_freed 0
    · rw [same, inv.zero]
    · exact gone.2.2
  · intro i n e dir slot
    rw [fs.dinode] at dir slot
    have unchanged : F i = s.dinode i :=
      (drop.eq_or_freed i).resolve_right fun gone => by rw [gone.2.2] at dir; cases dir
    rw [unchanged] at dir slot
    rw [same.data, drop.data] at slot
    exact inv.named dir slot
  · intro f j small points writable
    rw [current (holders_file small points)]
    rw [ftable] at points writable
    exact inv.writable small points writable
  · intro j holds
    rw [current holds]
    exact live holds

/-- What dropping a reference leaves. -/
theorem dropped (inv : KernelInv cfg L s δ) (mine : 1 ≤ δ k)
    (drop : Dropped cfg s.dinode F ∅ k s t) (outside : Outside s t) :
    KernelInv cfg L t (δ - Pi.single k 1) := by
  refine inv.leave drop (.refl t) outside.ftable (outside.cur ▸ inv.cur) (fun j => ?_)
    (inv.tables.outside outside) fun {j} holds => ?_
  · rw [outside.holders, Pi.sub_apply]
    obtain rfl | other := eq_or_ne j k
    · rw [Pi.single_eq_same]
      omega
    · rw [Pi.single_eq_of_ne other]
      omega
  · rw [outside.holders] at holds
    exact inv.live holds

/-! ## Changes of the tables -/

section

variable (inv : KernelInv cfg L s δ)
include inv

/-- A change of the tables that adds as many holders as the call gives up. -/
theorem retable (same : SameFs s t) (cur : t.cur < NPROC)
    (refs : ∀ k, holders t k + δ' k = holders s k + δ k) (tables : Tables t)
    (writable : ∀ {f k : ℕ}, f < NFILE → (t.ftable f).inode = some k →
      (t.ftable f).writable = true →
      (s.dinode (s.icache k).inum).type = .file ∨ (s.dinode (s.icache k).inum).type = .dev)
    (live : ∀ {k : ℕ}, 0 < holders t k → (s.dinode (s.icache k).inum).type ≠ .free) :
    KernelInv cfg L t δ' where
  root := inv.root
  zero := by
    rw [same.dinode]
    exact inv.zero
  cur := cur
  fs := by
    rw [same.dinode]
    exact inv.fs.congr same
  named := by
    rw [same.dinode, same.data]
    exact inv.named
  refs k := by
    have := inv.refs k
    have := refs k
    rw [same.icache]
    omega
  tables := tables
  writable := by
    rwa [same.dinode, same.icache]
  live := by
    rwa [same.dinode, same.icache]

/-- Nothing that the invariant speaks about has changed. -/
theorem congr (same : SameFs s t) (cur : t.cur < NPROC) (ftable : t.ftable = s.ftable)
    (proc : ∀ p, (t.proc p).cwd = (s.proc p).cwd ∧ (t.proc p).ofile = (s.proc p).ofile ∧
      (t.proc p).state = (s.proc p).state) : KernelInv cfg L t δ := by
  have count : ∀ k, holders t k = holders s k := fun k => by
    simp only [holders, ftable, (proc _).1]
  refine inv.retable same cur (fun k => by rw [count]) ⟨fun {p fd f} has => ?_, ?_, fun {p} dead => ?_⟩
    ?_ fun {k} holds => ?_
  · rw [(proc p).2.1] at has
    exact inv.tables.files has
  · rw [ftable]
    exact inv.tables.tidy
  · rw [(proc p).2.2] at dead
    rw [(proc p).1]
    exact inv.tables.idle dead
  · rw [ftable]
    exact inv.writable
  · rw [count] at holds
    exact inv.live holds

/-- The call forgets its references. -/
theorem lose : KernelInv cfg (L + δ) s 0 :=
  ⟨inv.root, inv.zero, inv.cur, inv.fs, inv.named, fun k => by
    rw [inv.refs k, Pi.add_apply, Pi.zero_apply]
    ring, inv.tables, inv.writable, inv.live⟩

/-- **A change of a file**, which takes over a reference of the call or leaves one to
it. -/
theorem setFile (small : f < NFILE) (file : File)
    (refs : ∀ j, δ' j + (if file.inode = some j then 1 else 0) =
      δ j + if (s.ftable f).inode = some j then 1 else 0) (used : file.type ≠ .none → 0 < file.ref)
    (writable : ∀ {k : ℕ}, file.inode = some k → file.writable = true →
      (s.dinode (s.icache k).inum).type = .file ∨ (s.dinode (s.icache k).inum).type = .dev)
    (live : ∀ {k : ℕ}, file.inode = some k → (s.dinode (s.icache k).inum).type ≠ .free) :
    KernelInv cfg L { s with ftable := Function.update s.ftable f file } δ' := by
  have count : ∀ j, holders { s with ftable := Function.update s.ftable f file } j +
      (if (s.ftable f).inode = some j then 1 else 0) =
        holders s j + if file.inode = some j then 1 else 0 := by
    intro j
    have table : (fun g => (Function.update s.ftable f file g).inode) =
        Function.update (fun g => (s.ftable g).inode) f file.inode := by
      funext g
      obtain rfl | other := eq_or_ne g f
      · rw [update_self, update_self]
      · rw [update_of_ne other, update_of_ne other]
    have count := pointers_update small (fun g => (s.ftable g).inode) file.inode j
    simp only [holders, table]
    omega
  refine inv.retable ⟨rfl, rfl, rfl, rfl⟩ inv.cur (fun j => ?_) (inv.tables.setFile used) ?_
    fun {j} holds => ?_
  · have := refs j
    have := count j
    omega
  · intro g k smallG points isWritable
    dsimp only at points isWritable
    obtain rfl | other := eq_or_ne g f
    · rw [update_self] at points isWritable
      exact writable points isWritable
    · rw [update_of_ne other] at points isWritable
      exact inv.writable smallG points isWritable
  · by_cases points : file.inode = some j
    · exact live points
    · have := count j
      rw [if_neg points] at this
      exact inv.live (by omega)

/-- A change of a file that stays with its inode. -/
theorem touchFile (small : f < NFILE) (file : File) (inode : file.inode = (s.ftable f).inode)
    (writable : file.writable = (s.ftable f).writable) (used : file.type ≠ .none → 0 < file.ref) :
    KernelInv cfg L { s with ftable := Function.update s.ftable f file } δ :=
  inv.setFile small file (fun _ => by rw [inode]) used
    (fun points isWritable => inv.writable small (inode ▸ points) (writable ▸ isWritable))
    fun points => inv.live (holders_file small (inode ▸ points))

/-- A file that pointed to no inode and still does not. -/
theorem plainFile (small : f < NFILE) (file : File) (before : (s.ftable f).inode = none)
    (plain : file.inode = none) (used : file.type ≠ .none → 0 < file.ref) :
    KernelInv cfg L { s with ftable := Function.update s.ftable f file } δ :=
  inv.setFile small file (fun _ => by simp [plain, before]) used
    (fun points => by
      rw [plain] at points
      cases points)
    fun points => by
      rw [plain] at points
      cases points

end

/-- The number of holders after a change of a process. -/
theorem holders_setProc {proc : Proc} (small : p < NPROC) (ftable : t.ftable = s.ftable)
    (change : t.proc = Function.update s.proc p proc) (j : ℕ) :
    holders t j + (if (s.proc p).cwd = some j then 1 else 0) =
      holders s j + if proc.cwd = some j then 1 else 0 := by
  have table : (fun q => (Function.update s.proc p proc q).cwd) =
      Function.update (fun q => (s.proc q).cwd) p proc.cwd := by
    funext q
    obtain rfl | other := eq_or_ne q p
    · rw [update_self, update_self]
    · rw [update_of_ne other, update_of_ne other]
  have count := pointers_update small (fun q => (s.proc q).cwd) proc.cwd j
  rw [holders, holders, ftable, change, table]
  omega

/-- The process drops the reference of its working directory, and then it changes to
one that the call holds, or to none. -/
theorem changeDir {old : ℕ} {proc : Proc} (inv : KernelInv cfg L s δ)
    (drop : Dropped cfg s.dinode F ∅ old s t) (cwd : s.myproc.cwd = some old)
    (same : SameFs t u) (ftable : u.ftable = s.ftable) (cur : u.cur = s.cur)
    (change : u.proc = Function.update s.proc s.cur proc)
    (ofile : proc.ofile = s.myproc.ofile) (state : proc.state = s.myproc.state)
    (refs : ∀ j, δ' j + (if proc.cwd = some j then 1 else 0) = δ j)
    (live : ∀ {j : ℕ}, proc.cwd = some j → (s.dinode (s.icache j).inum).type ≠ .free) :
    KernelInv cfg L u δ' := by
  have mine : (s.proc s.cur).cwd = some old := cwd
  have count := holders_setProc inv.cur ftable change
  refine inv.leave drop same ftable (cur ▸ inv.cur) (fun j => ?_)
    (inv.tables.setProc ftable change (fun {fd f} has => ?_) fun dead => ?_) fun {j} holds => ?_
  · have := refs j
    have := count j
    rw [mine] at this
    rw [single_eq_ite]
    omega
  · rw [ofile] at has
    exact inv.tables.files has
  · rw [state] at dead
    have none := inv.tables.idle dead
    rw [mine] at none
    cases none
  · by_cases points : proc.cwd = some j
    · exact live points
    · have := count j
      rw [if_neg points] at this
      exact inv.live (by omega)

/-- **A change of a process**, whose working directory takes over a reference of the
call or leaves one to it. -/
theorem setProc (inv : KernelInv cfg L s δ) (small : p < NPROC) (proc : Proc)
    (refs : ∀ j, δ' j + (if proc.cwd = some j then 1 else 0) =
      δ j + if (s.proc p).cwd = some j then 1 else 0)
    (files : ∀ {fd f : ℕ}, proc.ofile fd = some f → f < NFILE)
    (idle : proc.state = .unused ∨ proc.state = .zombie → proc.cwd = none)
    (live : ∀ {j : ℕ}, proc.cwd = some j → (s.dinode (s.icache j).inum).type ≠ .free) :
    KernelInv cfg L { s with proc := Function.update s.proc p proc } δ' := by
  have count := holders_setProc (s := s) (t := { s with proc := Function.update s.proc p proc })
    small rfl rfl
  refine inv.retable ⟨rfl, rfl, rfl, rfl⟩ inv.cur (fun j => ?_)
    (inv.tables.setProc rfl rfl files idle) inv.writable fun {j} holds => ?_
  · have := count j
    have := refs j
    omega
  · by_cases points : proc.cwd = some j
    · exact live points
    · have := count j
      rw [if_neg points] at this
      exact inv.live (by omega)

/-- A change of a process that stays in its working directory. -/
theorem touchProc (inv : KernelInv cfg L s δ) (small : p < NPROC) (proc : Proc)
    (cwd : proc.cwd = (s.proc p).cwd) (files : ∀ {fd f : ℕ}, proc.ofile fd = some f → f < NFILE)
    (idle : proc.state = .unused ∨ proc.state = .zombie → proc.cwd = none) :
    KernelInv cfg L { s with proc := Function.update s.proc p proc } δ :=
  inv.setProc small proc (fun _ => by rw [cwd]) files idle fun points =>
    inv.live (holders_cwd small (cwd ▸ points))

end KernelInv

end Xv6Uac
