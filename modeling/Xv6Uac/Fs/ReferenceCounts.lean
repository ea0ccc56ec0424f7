import Xv6Uac.Links.Preservation

/-!
# References to inodes

The references of an entry of the inode cache are meant to be the working directories and
the open files that point to it. `chmod` and `chown` look up an inode and never put it,
so each call on an existing file leaves a reference that nobody holds
(`chmod_leaks_reference`). All other calls, also where they fail, give back what they
take: without a `chmod` or `chown` that finds its file the counts are exact
(`references_exact`).
-/

namespace Xv6Uac

open Words Hoare SmallImage

variable {cfg : Config} {L : ℕ → ℕ} {s : Kernel}

/-- The processes whose working directory an entry of the inode cache is, and the open
files on it. -/
def users (s : Kernel) (k : ℕ) : ℕ :=
  ((Finset.range NPROC).filter fun p => (s.proc p).cwd = some k).card +
    ((Finset.range NFILE).filter fun f => 0 < (s.ftable f).ref ∧ (s.ftable f).type = .inode ∧
      (s.ftable f).ip = some k).card

/-- A file that points to an inode is in use. -/
theorem Tables.holders_eq (tables : Tables s) (k : ℕ) : holders s k = users s k := by
  refine congrArg (_ + ·) (congrArg Finset.card (Finset.filter_congr fun f _ => ?_))
  refine File.inode_eq_some.trans ⟨fun points => ⟨?_, points⟩, And.right⟩
  exact tables.tidy (by rw [points.1]; decide)

/-- `iget` fails only if all entries have references. -/
theorem iget_panics {inum : ℕ} (failed : iget inum s = .error (.panic .igetNoInodes)) {k : ℕ}
    (small : k < NINODE) : (s.icache k).ref ≠ 0 := by
  have spec : wp (fun _ => ∀ k < NINODE, (s.icache k).ref ≠ 0) (iget inum) (fun _ _ => True) s := by
    rw [iget, wp_read, wp_read]
    split
    · exact trivial
    · rename_i empty
      intro k small
      simpa using List.find?_eq_none.mp empty k (List.mem_range.mpr small)
    · exact trivial
  exact spec.of_error failed k small

/-- A run that gives back its references loses none. -/
theorem KernelInv.run_exact {start : Kernel} {trace : List Step} (inv : KernelInv cfg L start 0)
    (run : RunOf (fun u call => Whole u call ∧ Returns u call) cfg start trace s) :
    KernelInv cfg L s 0 := by
  induction run with
  | refl => exact inv
  | tail _ stepped ih =>
    obtain ⟨stepped, whole, returns⟩ := stepped
    obtain ⟨L', called⟩ := ih.step whole stepped
    obtain rfl := called.kept returns
    exact called.inv

/-- **The references of every entry are its users**, in every state that a run from a
well-formed image reaches in which no `chmod` and no `chown` of user 0 finds its file. So
an entry without users has no references, and `iget` finds no entry only if all have
users. -/
theorem references_exact (cfg : Config) (image : Image) (formed : image.WellFormed cfg)
    (trace : List Step) (s : Kernel)
    (run : RunOf (fun u call => Whole u call ∧ Returns u call) cfg image.boot trace s) :
    (∀ k, (s.icache k).ref = users s k) ∧
      (∀ k, users s k = 0 → (s.icache k).ref = 0) ∧
      ∀ inum, iget inum s = .error (.panic .igetNoInodes) → ∀ k < NINODE, 0 < users s k := by
  have inv := formed.kernelInv.run_exact run
  have exact' : ∀ k, (s.icache k).ref = users s k := by
    intro k
    rw [inv.refs k, inv.tables.holders_eq, Pi.zero_apply, add_zero, add_zero]
  refine ⟨exact', fun k none => ?_, fun inum failed k small => ?_⟩
  · rw [exact' k, none]
    rfl
  · have used := iget_panics failed small
    rw [exact' k] at used
    omega

/-- The first process makes a directory and enters it. -/
theorem references_exact_of_chdir :
    ∃ s, KernelRun SmallImage.cfg (imageOf rootOnly).boot
      [⟨0, .chdir [97], 0⟩, ⟨0, .mkdir [97], 0⟩] s ∧ ∀ k, (s.icache k).ref = users s k := by
  have played : (play SmallImage.cfg (imageOf rootOnly).boot
      [⟨0, .chdir [97], 0⟩, ⟨0, .mkdir [97], 0⟩]).any (fun _ => true) = true := by decide +kernel
  obtain ⟨s, run, -⟩ := exists_of_play played
  refine ⟨s, run, (references_exact _ _ (rootOnly_formed.wellFormed rfl) _ s
    (runOf_of_forall run fun taken member u => ?_)).1⟩
  simp only [List.mem_cons, List.not_mem_nil, or_false] at member
  obtain rfl | rfl := member <;> exact ⟨trivial, trivial⟩

/-- After `chmod("/", 0755)` the entry of the root has two references, but only the first
process uses it. -/
theorem chmod_leaks_reference :
    ¬∀ (cfg : Config) (image : Image), image.WellFormed cfg → ∀ (trace : List Step) (s : Kernel),
      (∀ taken ∈ trace, ∀ fd, taken.call ≠ .trim fd) → KernelRun cfg image.boot trace s →
      ∀ k, (s.icache k).ref = users s k := by
  intro always
  have played : (play SmallImage.cfg (imageOf rootOnly).boot
      [⟨0, .chmod [47] 0o755, 0⟩]).any
        (fun s => (s.icache 0).ref == 2 && users s 0 == 1) = true := by decide
  obtain ⟨s, run, check⟩ := exists_of_play played
  simp only [Bool.and_eq_true, beq_iff_eq] at check
  have same := always SmallImage.cfg _ (rootOnly_formed.wellFormed rfl) _ s (by simp) run 0
  rw [check.1, check.2] at same
  cases same

end Xv6Uac
