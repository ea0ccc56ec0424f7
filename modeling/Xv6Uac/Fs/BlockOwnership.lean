import Xv6Uac.Fs.Processes
import Xv6Uac.Kernel.SmallImage

/-!
# Block ownership

On a well-formed image every block of the data region has at most one place in an
allocated inode, and its bit in the free map is set exactly if it has one. Every run
without `trim` keeps this (`block_ownership`). So `bfree` never meets a free block, and
`itrunc` clears the bits of the blocks of one inode and no others.
-/

namespace Xv6Uac

open Words Hoare Pointers SmallImage

variable {cfg : Config} {s t : Kernel} {i k : ℕ}

/-- A well-formed image: the blocks are owned as they should be, the entries of
directories name inodes of the table, the root is a directory of the table, and inode 0
is not used. -/
structure Image.WellFormed (cfg : Config) (image : Image) : Prop where
  layout : Layout cfg image.dinode ∅ image.bitmap image.data
  named : Named cfg image.dinode image.data
  root : ROOTINO < cfg.sb.ninodes
  rootDir : (image.dinode ROOTINO).type = .dir
  zero : (image.dinode 0).type = .free

theorem Image.boot_ref (image : Image) (k : ℕ) :
    (image.boot.icache k).ref = if k = 0 then 1 else 0 := by
  by_cases first : k = 0 <;> simp [Image.boot, first]

theorem Image.boot_file (image : Image) (f : ℕ) : (image.boot.ftable f).inode = none := by
  simp [Image.boot, File.inode]

theorem Image.boot_cwd (image : Image) (p : ℕ) :
    (image.boot.proc p).cwd = if p = 0 then some 0 else none := by
  by_cases first : p = 0 <;> simp [Image.boot, first, Proc.init, Proc.empty]

/-- Only the first process holds a reference, the one to the root. -/
theorem Image.boot_holders (image : Image) (k : ℕ) :
    holders image.boot k = if k = 0 then 1 else 0 := by
  have files : pointers NFILE (fun f => (image.boot.ftable f).inode) k = 0 := by
    simp [pointers, image.boot_file]
  have cwds : pointers NPROC (fun p => (image.boot.proc p).cwd) k = if k = 0 then 1 else 0 := by
    simp only [image.boot_cwd]
    by_cases first : k = 0
    · subst first
      refine Finset.card_eq_one.mpr ⟨0, ?_⟩
      ext p
      by_cases zero : p = 0 <;> simp [zero]
    · rw [if_neg first]
      refine Finset.card_eq_zero.mpr (Finset.filter_eq_empty_iff.mpr fun p _ => ?_)
      by_cases zero : p = 0 <;> simp [Ne.symm first]
  rw [holders, files, cwds, add_zero]

/-- **Booting from a well-formed image establishes the invariant.** -/
theorem Image.WellFormed.kernelInv {image : Image} (formed : image.WellFormed cfg) :
    KernelInv cfg 0 image.boot 0 := by
  have used : ∀ {k}, 0 < (image.boot.icache k).ref → k = 0 := by
    intro k inUse
    rw [image.boot_ref] at inUse
    by_contra other
    omega
  refine ⟨formed.root, formed.zero, Nat.zero_lt_succ _, ⟨⟨fun k => ?_, fun {k} inUse => ?_,
    fun {k} inUse => ?_, fun {j k} first second _ => ?_, fun {k} inUse valid => ?_, fun _ => rfl⟩,
    formed.layout⟩, formed.named, fun k => ?_, ⟨fun {p fd f} has => ?_, fun {f} typed => ?_,
    fun {p} dead => ?_⟩, fun {f k} _ points => ?_, fun {k} held => ?_⟩
  · rw [image.boot_ref]
    split <;> omega
  · rw [used inUse]
    exact formed.root
  · rw [used inUse]
    decide
  · rw [used first, used second]
  · rw [used inUse] at valid
    cases valid
  · rw [image.boot_holders, image.boot_ref]
    split <;> rfl
  · by_cases first : p = 0 <;> simp [Image.boot, first, Proc.init, Proc.empty] at has
  · exact absurd rfl typed
  · rw [image.boot_cwd]
    by_cases first : p = 0
    · simp [Image.boot, first, Proc.init] at dead
    · rw [if_neg first]
  · cases points
  · rw [image.boot_holders] at held
    by_cases first : k = 0
    · subst first
      have root : (image.boot.dinode (image.boot.icache 0).inum).type = .dir := formed.rootDir
      rw [root]
      decide
    · rw [if_neg first] at held
      omega

/-! ## What the invariant says about blocks -/

/-- Every block is at one place of an allocated inode at most, and the marked blocks are
the metadata blocks and those at a place. -/
structure BlocksOwned (cfg : Config) (s : Kernel) : Prop where
  unique : ∀ {i j p q : ℕ}, (s.dinode i).type ≠ .free → (s.dinode j).type ≠ .free →
    p < NPLACE → q < NPLACE → place s.data (s.dinode i) p ≠ 0 →
    place s.data (s.dinode i) p = place s.data (s.dinode j) q → i = j ∧ p = q
  marked : ∀ {b : ℕ}, b < cfg.sb.size → (s.bitmap b = true ↔
    b < cfg.sb.nmeta ∨ ∃ i, (s.dinode i).type ≠ .free ∧ b ∈ blocksOf s.data (s.dinode i))

theorem exists_holder {F : ℕ → Dinode} {data : ℕ → Bytes} {b : ℕ} :
    (∃ x, holder F data x = some b) ↔ ∃ i, (F i).type ≠ .free ∧ b ∈ blocksOf data (F i) := by
  constructor
  · rintro ⟨⟨i, p⟩, has⟩
    obtain ⟨live, small, same, nonzero⟩ := holder_eq_some.mp has
    exact ⟨i, live, nonzero, p, small, same⟩
  · rintro ⟨i, live, nonzero, p, small, same⟩
    exact ⟨(i, p), holder_eq_some.mpr ⟨live, small, same, nonzero⟩⟩

theorem Layout.marked {F : ℕ → Dinode} {bitmap : ℕ → Bool} {data : ℕ → Bytes}
    (layout : Layout cfg F ∅ bitmap data) {b : ℕ} (inside : b < cfg.sb.size) :
    bitmap b = true ↔
      b < cfg.sb.nmeta ∨ ∃ i, (F i).type ≠ .free ∧ b ∈ blocksOf data (F i) := by
  rw [layout.owned.used_iff inside, exists_holder]
  simp

theorem KernelInv.blocksOwned {L δ : ℕ → ℕ} (inv : KernelInv cfg L s δ) : BlocksOwned cfg s :=
  ⟨inv.fs.layout.unique, inv.fs.layout.marked⟩

/-- **`itrunc` clears the bits of the blocks of its inode and no others.** -/
theorem FsInv.itrunc {F : ℕ → Dinode} {D : Set ℕ} (inv : FsInv cfg F D s) (held : Held s k i) :
    wp Benign (itrunc cfg k) (fun _ t => ∀ b,
      t.bitmap b = true ↔ s.bitmap b = true ∧ b ∉ blocksOf s.data (F i)) s := by
  have live := (inv.cached.held held).2
  refine (itrunc_spec inv held (rfl : Dinode.zero.type = .free)).mono
    fun _ t ⟨_, layout, others⟩ b => ?_
  by_cases mine : b ∈ blocksOf s.data (F i)
  · obtain ⟨nonzero, p, small, same⟩ := mine
    have dataBlock := inv.layout.dataBlock live small (same ▸ nonzero)
    rw [same] at dataBlock
    refine ⟨fun marked => ?_, fun both => absurd ⟨nonzero, p, small, same⟩ both.2⟩
    obtain isMeta | ⟨j, liveJ, -, q, smallQ, sameQ⟩ := (layout.marked dataBlock.2).mp marked
    · exact absurd isMeta (Nat.not_lt_of_le dataBlock.1)
    · -- the block would be at a place of another inode too
      by_cases other : j = i
      · subst other
        simp [Dinode.zero] at liveJ
      · rw [Function.update_of_ne other] at liveJ sameQ
        exact absurd (inv.layout.unique liveJ live smallQ small (sameQ ▸ nonzero)
          (sameQ.trans same.symm)).1 other
  · rw [others b mine]
    simp [mine]

namespace SmallImage

variable {seeds : List Seed}

/-- Take the steps of a trace that meet a condition, the latest first in the list. -/
def playOf (cond : Kernel → Call → Prop) [∀ s call, Decidable (cond s call)] (cfg : Config)
    (start : Kernel) : List Step → Option Kernel
  | [] => some start
  | taken :: older => (playOf cond cfg start older).bind fun s =>
    if cond (s.switch taken.p) taken.call then tryStep cfg s taken else none

theorem runOf_of_playOf {cond : Kernel → Call → Prop} [∀ s call, Decidable (cond s call)]
    {start s : Kernel} {trace : List Step} (played : playOf cond cfg start trace = some s) :
    RunOf cond cfg start trace s := by
  induction trace generalizing s with
  | nil =>
    cases played
    exact .refl
  | cons taken older ih =>
    obtain ⟨t, before, taking⟩ := Option.bind_eq_some_iff.mp played
    split at taking
    · rename_i meets
      exact .tail (ih before) ⟨step_of_tryStep taking, meets⟩
    · cases taking

/-- A run to a state that passes a check. -/
theorem exists_of_playOf {cond : Kernel → Call → Prop} [∀ s call, Decidable (cond s call)]
    {start : Kernel} {trace : List Step} {check : Kernel → Bool}
    (passed : (playOf cond cfg start trace).any check = true) :
    ∃ s, RunOf cond cfg start trace s ∧ check s = true := by
  cases played : playOf cond cfg start trace with
  | none => simp [played] at passed
  | some s => exact ⟨s, runOf_of_playOf played, by simpa [played] using passed⟩

/-- What an image of the small file system needs to be well formed. -/
def Formed (seeds : List Seed) : Prop :=
  seeds.length < 10 ∧ (∀ seed ∈ seeds, seed.type ≠ .free ∧ seed.bytes.length ≤ BSIZE) ∧
    ((imageOf seeds).dinode ROOTINO).type = .dir ∧
    ∀ i < 10, ∀ n < 32, ((imageOf seeds).dinode i).type = .dir →
      ∀ e ∈ dirSlot (imageOf seeds).data ((imageOf seeds).dinode i) n, e.1 < 10

instance (seeds : List Seed) : Decidable (Formed seeds) :=
  inferInstanceAs (Decidable (_ ∧ _ ∧ _ ∧ _))

theorem imageOf_dinode {i : ℕ} (live : ((imageOf seeds).dinode i).type ≠ .free) :
    ∃ j seed, i = j + 1 ∧ seeds[j]? = some seed ∧ (imageOf seeds).dinode i = seed.inode i := by
  cases i with
  | zero => exact absurd rfl live
  | succ j =>
    cases found : seeds[j]? with
    | none =>
      refine absurd ?_ live
      simp only [imageOf, found]
      rfl
    | some seed =>
      refine ⟨j, seed, rfl, found, ?_⟩
      simp only [imageOf, found]
      rfl

theorem Seed.place_inode (seed : Seed) (data : ℕ → Bytes) (i p : ℕ) :
    place data (seed.inode i) p = if p = 0 ∧ seed.bytes ≠ [] then 38 + i else 0 := by
  have rest : ∀ q, q ≠ 0 → (seed.inode i).addrs q = 0 := by
    intro q other
    simp [Seed.inode, inodeOf, other]
  by_cases first : p = 0
  · subst first
    rw [place_of_le _ _ (Nat.zero_le _)]
    by_cases empty : seed.bytes = [] <;> simp [Seed.inode, inodeOf]
  · rw [if_neg fun both => first both.1, place, rest NDIRECT (by decide)]
    split
    · exact rest p first
    · rw [if_pos rfl]

theorem holder_imageOf {x : ℕ × ℕ} {b : ℕ} (data : ℕ → Bytes)
    (formed : Formed seeds) :
    holder (imageOf seeds).dinode data x = some b ↔
      x = (b - 38, 0) ∧ 39 ≤ b ∧ ∃ seed, seeds[b - 39]? = some seed ∧ seed.bytes ≠ [] := by
  obtain ⟨i, p⟩ := x
  rw [holder_eq_some]
  constructor
  · rintro ⟨live, -, same, nonzero⟩
    obtain ⟨j, seed, rfl, found, eq⟩ := imageOf_dinode live
    rw [eq, seed.place_inode] at same
    split at same
    · rename_i both
      obtain ⟨rfl, nonempty⟩ := both
      subst same
      exact ⟨by rw [Nat.add_sub_cancel_left], by omega, seed,
        by rwa [show 38 + (j + 1) - 39 = j by omega], nonempty⟩
    · exact absurd same.symm nonzero
  · rintro ⟨eq, above, seed, found, nonempty⟩
    cases eq
    have number : b - 38 = b - 39 + 1 := by omega
    have inode : (imageOf seeds).dinode (b - 38) = seed.inode (b - 38) := by
      rw [number]
      simp only [imageOf, found]
      rfl
    rw [inode, seed.place_inode, if_pos ⟨rfl, nonempty⟩]
    exact ⟨(formed.2.1 seed (List.mem_of_getElem? found)).1, by decide, by omega, by omega⟩

/-- An image with few small inodes is well formed on a disk that has their blocks. -/
theorem Formed.wellFormed_of_fits (formed : Formed seeds) (nmeta : cfg.sb.nmeta = 39)
    (ninodes : cfg.sb.ninodes = 10)
    (fits : ∀ j seed, seeds[j]? = some seed → seed.bytes ≠ [] → j + 39 < cfg.sb.size) :
    (imageOf seeds).WellFormed cfg := by
  have few := formed.1
  have size : ∀ (seed : Seed) (i : ℕ), (seed.inode i).size = seed.bytes.length := fun _ _ => rfl
  refine ⟨⟨⟨?_, ?_, ?_, ?_⟩, ?_, ?_, ?_⟩, ?_, by rw [ninodes]; decide, formed.2.2.1,
    rfl⟩
  · intro x y b first second
    rw [holder_imageOf _ formed] at first second
    rw [first.1, second.1]
  · intro x b has
    obtain ⟨-, above, seed, found, nonempty⟩ := (holder_imageOf _ formed).mp has
    have inside := fits _ seed found nonempty
    rw [nmeta]
    exact ⟨show b < cfg.sb.size by omega, show ¬b < 39 by omega, id⟩
  · exact fun none => absurd none id
  · intro b inside
    have bits : (imageOf seeds).bitmap b = true ↔
        b < 39 ∨ ∃ seed, seeds[b - 39]? = some seed ∧ seed.bytes ≠ [] := by
      simp only [imageOf]
      cases seeds[b - 39]? <;> simp
    rw [bits, nmeta]
    constructor
    · rintro (isMeta | has)
      · exact .inl isMeta
      · by_cases isMeta : b < 39
        · exact .inl isMeta
        · exact .inr (.inr ⟨_, (holder_imageOf _ formed).mpr ⟨rfl, by omega, has⟩⟩)
    · rintro (isMeta | none | ⟨x, has⟩)
      · exact .inl isMeta
      · exact absurd none id
      · exact .inr ((holder_imageOf _ formed).mp has).2.2
  · intro i n live below
    obtain ⟨j, seed, rfl, found, eq⟩ := imageOf_dinode live
    have fits := (formed.2.1 seed (List.mem_of_getElem? found)).2
    rw [eq, size] at below
    have first : n = 0 := by
      simp only [BSIZE] at below fits
      omega
    subst first
    have nonempty : seed.bytes ≠ [] := by
      intro empty
      simp [empty] at below
    rw [eq, seed.place_inode, if_pos ⟨rfl, nonempty⟩]
    omega
  · intro i live
    obtain ⟨j, seed, rfl, found, eq⟩ := imageOf_dinode live
    rw [eq]
    exact (formed.2.1 seed (List.mem_of_getElem? found)).2.trans (by decide)
  · intro i live
    obtain ⟨j, seed, rfl, found, eq⟩ := imageOf_dinode live
    have := (List.getElem?_eq_some_iff.mp found).1
    omega
  · intro i n e dir slot
    obtain ⟨j, seed, rfl, found, eq⟩ := imageOf_dinode
      (by rw [dir]; decide : ((imageOf seeds).dinode i).type ≠ .free)
    have inTable := (List.getElem?_eq_some_iff.mp found).1
    have fits := (formed.2.1 seed (List.mem_of_getElem? found)).2
    have inside := (dirSlot_eq_some slot).1
    rw [eq, size] at inside
    rw [ninodes]
    refine formed.2.2.2 (j + 1) (by omega) n ?_ dir e slot
    simp only [DIRENT, DIRSIZ, BSIZE] at inside fits
    omega

/-- An image with few small inodes is well formed. -/
theorem Formed.wellFormed (formed : Formed seeds) (small : cfg.sb = sb) :
    (imageOf seeds).WellFormed cfg := by
  refine formed.wellFormed_of_fits (by rw [small]; rfl) (by rw [small]; rfl) fun j seed found _ => ?_
  have := (List.getElem?_eq_some_iff.mp found).1
  have := formed.1
  rw [small]
  exact show j + 39 < 60 by omega

/-- An image with nothing but the root directory. -/
def rootOnly : List Seed := [.dir 1 0 0o755 [(1, dot), (1, dotdot)]]

/-- An image whose root directory holds a directory `d` of user 0, with the given mode,
and an empty file `f` in it. -/
def withDirectory (mode : BitVec 16) : List Seed :=
  [.dir 2 0 0o755 [(1, dot), (1, dotdot), (2, [100])],
    .dir 1 0 mode [(2, dot), (1, dotdot), (3, [102])],
    ⟨.file, 1, 0, 0o644, []⟩]

/-- The first process makes a process of user 1. -/
def userStarts : List Step := [⟨1, .setuid 1, 0⟩, ⟨0, .fork true true, 2⟩]

/-- A call of the process of user 1 on such an image returns `r`, in a state that passes
a check. -/
def userCalls (mode : BitVec 16) (call : Call) (r : ℤ) (check : Kernel → Bool) : Bool :=
  ((play SmallImage.cfg (imageOf (withDirectory mode)).boot userStarts).bind fun s =>
    (play SmallImage.cfg s [⟨1, call, r⟩]).map fun t =>
      (s.proc 1).euid == 1 && (s.proc 1).ngroups == 0 && (s.dinode 2).type == .dir &&
        (s.dinode 2).mode == mode && (s.dinode 2).uid == 0 && (s.dinode 2).nlink == 1 &&
        dirSlot s.data (s.dinode 2) 2 == some (3, [102]) && check t).getD false

/-- The states before and after the call. -/
theorem exists_of_userCalls {mode : BitVec 16} {call : Call} {r : ℤ} {check : Kernel → Bool}
    (formed : Formed (withDirectory mode)) (passed : userCalls mode call r check = true) :
    ∃ L s t, KernelRun SmallImage.cfg (imageOf (withDirectory mode)).boot userStarts s ∧
      KernelInv SmallImage.cfg L s 0 ∧ KernelRun SmallImage.cfg s [⟨1, call, r⟩] t ∧
      (s.proc 1).euid = 1 ∧ (s.proc 1).ngroups = 0 ∧ (s.dinode 2).type = .dir ∧
      (s.dinode 2).mode = mode ∧ (s.dinode 2).uid = 0 ∧ (s.dinode 2).nlink = 1 ∧
      dirSlot s.data (s.dinode 2) 2 = some (3, [102]) ∧ check t = true := by
  rw [userCalls] at passed
  cases before : play SmallImage.cfg (imageOf (withDirectory mode)).boot userStarts with
  | none => simp [before] at passed
  | some s =>
    cases after : play SmallImage.cfg s [⟨1, call, r⟩] with
    | none => simp [before, after] at passed
    | some t =>
      simp only [before, after, Option.bind_some, Option.map_some, Option.getD_some,
        Bool.and_eq_true, beq_iff_eq, and_assoc] at passed
      obtain ⟨L, inv⟩ := (formed.wellFormed rfl).kernelInv.run (fun _ _ whole => whole)
        (whole_run (run_of_play before) (by simp [userStarts]))
      exact ⟨L, s, t, run_of_play before, inv, run_of_play after, passed⟩

end SmallImage

end Xv6Uac
