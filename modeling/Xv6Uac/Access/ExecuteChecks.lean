import Xv6Uac.Access.OpenMode
import Xv6Uac.Fs.BlockOwnership

/-!
# The checks of the execute bit

`sys_open` tests the bits of a request for others, for the owner and for the groups of a process,
and lets the user 0 pass. `dirlookup`, `sys_chdir` and `exec` test the execute bit by the same
rule (`mayExecute`), but without the exception for the user 0. They agree with `sys_open` on every
process and every inode, except where the user 0 needs that exception
(`execute_checks_agree_iff`).
-/

namespace Xv6Uac

open Hoare SmallImage

variable {cfg : Config} {s : Kernel} {k : ℕ} {p : Proc} {d : Dinode}

/-- The bit of a mode that lets others execute. -/
abbrev executeBit : ℕ := 0

/-- The request for the execute bit. -/
abbrev executeMode : BitVec 32 := 1

/-! ## The rules -/

/-- The rule of `dirlookup`, `sys_chdir` and `exec`. -/
theorem mayExecute_iff : mayExecute p d = true ↔ Grants p d executeBit := by
  show (if _ then _ else _) = true ↔ d.mode.getLsbD 0 = true ∨
    (p.euid = d.uid ∧ d.mode.getLsbD 6 = true) ∨
    ∃ i < p.ngroups, p.gids i = d.gid ∧ d.mode.getLsbD 3 = true
  generalize d.mode.getLsbD 0 = others, d.mode.getLsbD 6 = owner, d.mode.getLsbD 3 = group
  cases others with
  | true => simp
  | false =>
    by_cases own : p.euid = d.uid ∧ owner = true
    · simp [own]
    · simp [own]

/-- One bit of the test for all bits. -/
theorem allBits_twoPow {mode : BitVec 16} {i : ℕ} (low : i < 16) :
    allBits mode (BitVec.twoPow 32 i) = true ↔ mode.getLsbD i = true := by
  constructor
  · intro all
    exact getLsbD_of_allBits all low (by simp [show i < 32 by omega])
  · intro set
    rw [allBits, BitVec.and_twoPow]
    rw [BitVec.getLsbD_signExtend]
    simp [set, low, show i < 32 by omega]

/-- The rule of `sys_open` for the execute bit. -/
theorem mayOpen_execute_iff :
    mayOpen p d executeMode = true ↔ p.euid = 0 ∨ Grants p d executeBit := by
  have others : allBits d.mode executeMode = d.mode.getLsbD 0 :=
    Bool.eq_iff_iff.mpr (allBits_twoPow (i := 0) (by decide))
  have owner : allBits d.mode (executeMode <<< 6) = d.mode.getLsbD 6 :=
    Bool.eq_iff_iff.mpr (allBits_twoPow (by decide))
  have group : allBits d.mode (executeMode <<< 3) = d.mode.getLsbD 3 :=
    Bool.eq_iff_iff.mpr (allBits_twoPow (by decide))
  rw [← mayExecute_iff, mayOpen, mayExecute, others, owner, group]
  generalize d.mode.getLsbD 0 = others, d.mode.getLsbD 6 = owner
  by_cases root : p.euid = 0
  · simp [root]
  · cases others <;> simp [root]

/-- **The checks agree with `sys_open` if and only if the user 0 is granted what it gets there.** -/
theorem execute_checks_agree_iff (p : Proc) (d : Dinode) :
    mayExecute p d = mayOpen p d executeMode ↔ (p.euid = 0 → Grants p d executeBit) := by
  rw [Bool.eq_iff_iff, mayExecute_iff, mayOpen_execute_iff]
  constructor
  · intro same root
    exact same.mpr (.inl root)
  · intro granted
    exact ⟨.inr, fun admitted => admitted.elim granted id⟩

/-! ## The calls -/

/-- The user 0 makes a directory and takes all bits of its mode away. `sys_open` lets it pass,
but it can neither search the directory nor change into it. -/
theorem root_refused : ∃ s, KernelRun SmallImage.cfg (imageOf rootOnly).boot
      [⟨0, .chdir [100], -1⟩, ⟨0, .chmod [100] 0, 0⟩, ⟨0, .mkdir [100], 0⟩] s ∧
    (s.proc 0).euid = 0 ∧ (s.dinode 2).type = .dir ∧
    mayOpen (s.proc 0) (s.dinode 2) executeMode = true ∧
    mayExecute (s.proc 0) (s.dinode 2) = false := by
  have played : (play cfg (imageOf rootOnly).boot
      [⟨0, .chdir [100], -1⟩, ⟨0, .chmod [100] 0, 0⟩, ⟨0, .mkdir [100], 0⟩]).any (fun s =>
        (s.proc 0).euid = 0 ∧ (s.dinode 2).type = .dir ∧
          mayOpen (s.proc 0) (s.dinode 2) executeMode = true ∧
          mayExecute (s.proc 0) (s.dinode 2) = false) = true := by
    decide +kernel
  obtain ⟨s, run, checked⟩ := exists_of_play played
  exact ⟨s, run, of_decide_eq_true checked⟩

end Xv6Uac
