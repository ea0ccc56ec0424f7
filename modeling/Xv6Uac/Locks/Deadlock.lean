import Xv6Uac.Locks.Calls
import Xv6Uac.Fs.BlockOwnership

/-!
# Calls that wait for themselves

`dirlink` returns an error if the name is there already, and before that it puts the inode
that it has found. `iput` takes the lock of the inode. In `link(old, "d/.")` the inode
found is `d`, which `link` has locked, so the process waits for itself
(`link_waits_for_itself`). `unlink` would do the same with an entry that names its own
directory under a name other than `.` and `..`. No other call does
(`no_self_deadlock`).
-/

namespace Xv6Uac

open Words Hoare

/-- **A call waits for a lock that it holds only if the entry at the end of its path names
its own directory.** At the end of a call no lock is held. -/
theorem no_self_deadlock (cfg : Config) (L : ℕ → ℕ) (s : Kernel) (inv : KernelInv cfg L s 0)
    (unlocked : Locked ∅ s) (call : Call) (apart : Apart s call) :
    dispatch cfg call s ≠ .error .deadlock ∧
      ∀ r t, dispatch cfg call s = .ok (r, t) → Locked ∅ t := by
  have spec : wp (Moves True False) (dispatch cfg call) (fun _ t => Locked ∅ t) s :=
    dispatch_locked ⟨inv, unlocked, False.elim⟩ (fun _ => apart) False.elim
  exact ⟨fun failed => (spec.of_error failed).1 trivial rfl, fun _ _ run => spec.of_ok run⟩

/-- After booting no inode is locked. -/
theorem Image.boot_unlocked (image : Image) : Locked ∅ image.boot := by
  intro k
  simp only [Image.boot]
  split <;> simp

namespace SmallImage

theorem withDirectory_formed : Formed (withDirectory 0o755) := by decide

end SmallImage

open SmallImage in
/-- `link("d/f", "g")` does not wait for itself. -/
theorem no_self_deadlock_of_link :
    dispatch SmallImage.cfg (.link [100, 47, 102] [103]) (imageOf (withDirectory 0o755)).boot ≠
      .error .deadlock := by
  refine (no_self_deadlock SmallImage.cfg 0 _ (withDirectory_formed.wellFormed rfl).kernelInv
    (Image.boot_unlocked _) (.link [100, 47, 102] [103]) fun _ name => ?_).1
  rintro ⟨d, walked, -, found⟩
  have leads : walkPath (imageOf (withDirectory 0o755)).boot.dinode
      (imageOf (withDirectory 0o755)).boot [103] true = some (1, [103]) := by decide
  obtain ⟨rfl, rfl⟩ := Prod.mk.inj (Option.some.inj (leads.symm.trans walked))
  have absent : lookup (imageOf (withDirectory 0o755)).boot.data
      ((imageOf (withDirectory 0o755)).boot.dinode 1) [103] = none := by decide
  rw [absent] at found
  cases found

open SmallImage in
/-- `link("d/f", "d/.")` finds `d` in `d`, and puts it while it holds its lock. -/
theorem link_waits_for_itself :
    ¬∀ (cfg : Config) (L : ℕ → ℕ) (s : Kernel) (call : Call), KernelInv cfg L s 0 → Locked ∅ s →
      dispatch cfg call s ≠ .error .deadlock := by
  intro never
  have stopped : stops (dispatch SmallImage.cfg (.link [100, 47, 102] [100, 47, 46]))
      (imageOf (withDirectory 0o755)).boot .deadlock = true := by decide +kernel
  exact never SmallImage.cfg 0 _ _ (withDirectory_formed.wellFormed rfl).kernelInv
    (Image.boot_unlocked _) (error_of_stops stopped)

end Xv6Uac
