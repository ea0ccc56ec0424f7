import Xv6Uac.Access.OpenMode
import Xv6Uac.Links.Preservation

/-!
# What protects the entries of a directory

The write bits of a directory protect nothing: no call tests them when it makes or
removes an entry (`write_permission_ignored`). What is tested is the permission to
search the directory, in `dirlookup`. A process that may not search a directory cannot
remove or alter its entries with any sequence of `link`, `unlink`, `open`, `mkdir` and
`mknod` (`entries_kept_of_unsearchable`). A directory that holds only `.` and `..` is the
exception, since it can be removed with its parent's entry.
-/

namespace Xv6Uac

open Words Hoare SmallImage

variable {cfg : Config} {L : ℕ → ℕ} {s t : Kernel} {d : ℕ}

theorem short16_wraps (x : ℤ) : short16 (short16 x + 1) = short16 (x + 1) :=
  Int.bmod_add_bmod

/-- A link count that grows by at most the number of slots does not come to 0. -/
theorem short16_ne_zero {x : ℤ} (positive : 0 < x) (small : x < 2 ^ 15) {k : ℕ} (few : k ≤ NSLOT) :
    short16 (x + k) ≠ 0 := by
  intro zero
  have divides := Int.emod_eq_zero_of_dvd (Int.dvd_of_bmod_eq_zero zero)
  simp only [NSLOT, MAXFILE, NDIRECT, NINDIRECT, BSIZE, DIRENT, DIRSIZ] at few
  omega

/-- The trace of a process that only makes and removes entries. -/
def EntryCalls (p : ℕ) (trace : List Step) : Prop :=
  ∀ taken ∈ trace, taken.p = p ∧ taken.call.entryPath ≠ none

/-- The start of a run. -/
theorem guarded_refl {p : ℕ} (dir : (s.dinode d).type = .dir)
    (closed : mayExecute (s.proc p) (s.dinode d) = false) (positive : 0 < (s.dinode d).nlink)
    (small : (s.dinode d).nlink < 2 ^ 15) :
    Tree.Guarded short16 NSLOT d (tree (s.switch p)) (tree (s.switch p)) where
  dir := dir
  closed := closed
  slots _ _ before := before
  nlink := by
    refine ⟨0, ?_, by omega⟩
    have same : (tree (s.switch p)).nlink d = (s.dinode d).nlink := rfl
    rw [Nat.cast_zero, add_zero, short16, Int.bmod_eq_of_le (by omega) (by omega)]

/-- **A process keeps the entries of a directory that it may not search.** -/
theorem guarded_run {p : ℕ} {trace : List Step} (short : cfg.short = short16)
    (inv : KernelInv cfg L s 0) (dir : (s.dinode d).type = .dir)
    (closed : mayExecute (s.proc p) (s.dinode d) = false) (positive : 0 < (s.dinode d).nlink)
    (small : (s.dinode d).nlink < 2 ^ 15)
    (nonempty : ∃ n, 2 ≤ n ∧ (tree (s.switch p)).slot d n ≠ none)
    (calls : EntryCalls p trace) (run : KernelRun cfg s trace t) :
    KernelInv cfg L t 0 ∧
      Tree.Guarded short16 NSLOT d (tree (s.switch p)) (tree (t.switch p)) := by
  induction run with
  | refl => exact ⟨inv, guarded_refl dir closed positive small⟩
  | @tail trace t u taken _ stepped ih =>
    obtain ⟨inv, guarded⟩ := ih fun old member => calls old (List.mem_cons_of_mem _ member)
    obtain ⟨mine, makes⟩ := calls taken List.mem_cons_self
    obtain ⟨inRange, -, ended⟩ := stepped
    rw [mine] at inRange ended
    obtain ⟨inv', cur, effect⟩ := (dispatch_effect (inv.switch inRange) makes).of_ok ended
    rw [short] at effect
    refine ⟨inv', ?_⟩
    -- the process still runs, so switching to it changes nothing
    have same : u.switch p = u := by
      rw [Kernel.switch, ← show u.cur = p from cur]
    rw [same]
    exact guarded.effect nonempty short16_wraps (fun k few => short16_ne_zero positive small few)
      effect

/-- **Entries stay** in a directory that a process may not search and that holds an entry
besides `.` and `..`, through any sequence of calls of the process that make or remove
entries. -/
theorem entries_kept_of_unsearchable (cfg : Config) (short : cfg.short = short16) (L : ℕ → ℕ)
    (s : Kernel) (inv : KernelInv cfg L s 0) (p d : ℕ) (dir : (s.dinode d).type = .dir)
    (closed : mayExecute (s.proc p) (s.dinode d) = false) (positive : 0 < (s.dinode d).nlink)
    (small : (s.dinode d).nlink < 2 ^ 15)
    (nonempty : ∃ n, 2 ≤ n ∧ dirSlot s.data (s.dinode d) n ≠ none) (trace : List Step)
    (calls : EntryCalls p trace) (t : Kernel) (run : KernelRun cfg s trace t) :
    (t.dinode d).type = .dir ∧ ∀ n e, dirSlot s.data (s.dinode d) n = some e →
      dirSlot t.data (t.dinode d) n = some e := by
  have slots : ∀ n, (tree (s.switch p)).slot d n = dirSlot s.data (s.dinode d) n :=
    treeOf_slot dir
  obtain ⟨-, guarded⟩ := guarded_run short inv dir closed positive small
    (by simpa only [slots] using nonempty) calls run
  have dir' : (t.dinode d).type = .dir := guarded.dir
  have slots' : ∀ n, (tree (t.switch p)).slot d n = dirSlot t.data (t.dinode d) n :=
    treeOf_slot dir'
  refine ⟨dir', fun n e slot => ?_⟩
  rw [← slots']
  exact guarded.slots n e ((slots n).trans slot)

/-- User 1 fails to remove an entry of a directory that only its owner may search. -/
theorem entries_kept_of_private_directory :
    ∃ s t, KernelRun SmallImage.cfg s [⟨1, .unlink [100, 47, 102], -1⟩] t ∧
      dirSlot s.data (s.dinode 2) 2 = some (3, [102]) ∧
      dirSlot t.data (t.dinode 2) 2 = some (3, [102]) := by
  have passed : userCalls 0o700 (.unlink [100, 47, 102]) (-1) (fun _ => true) = true := by
    decide +kernel
  obtain ⟨L, s, t, -, inv, run, user, groups, dir, mode, owner, nlink, slot, -⟩ :=
    exists_of_userCalls (by decide +kernel) passed
  have closed : mayExecute (s.proc 1) (s.dinode 2) = false := by
    simp [mayExecute, user, mode, owner]
  refine ⟨s, t, run, slot, (entries_kept_of_unsearchable _ rfl L s inv 1 2 dir closed
    (by rw [nlink]; decide) (by rw [nlink]; decide) ⟨2, le_rfl, by rw [slot]; simp⟩ _ ?_ t run).2
    2 _ slot⟩
  simp [EntryCalls, Call.entryPath]

/-- User 1 removes an entry of a directory that belongs to user 0 and has the mode
0755. -/
theorem write_permission_ignored :
    ¬∀ (cfg : Config) (L : ℕ → ℕ) (s : Kernel) (p d : ℕ) (trace : List Step) (t : Kernel),
      KernelInv cfg L s 0 → (s.proc p).euid ≠ 0 → (s.dinode d).type = .dir →
      ¬Grants (s.proc p) (s.dinode d) 1 → EntryCalls p trace → KernelRun cfg s trace t →
      ∀ n, dirSlot t.data (t.dinode d) n = dirSlot s.data (s.dinode d) n := by
  intro always
  have passed : userCalls 0o755 (.unlink [100, 47, 102]) 0
      (fun t => dirSlot t.data (t.dinode 2) 2 == none) = true := by decide +kernel
  obtain ⟨L, s, t, -, inv, run, user, groups, dir, mode, owner, nlink, slot, removed⟩ :=
    exists_of_userCalls (by decide +kernel) passed
  have denied : ¬Grants (s.proc 1) (s.dinode 2) 1 := by
    simp [Grants, user, mode, owner]
  have same := always SmallImage.cfg L s 1 2 _ t inv (by rw [user]; decide) dir denied
    (by simp [EntryCalls, Call.entryPath]) run 2
  rw [slot, beq_iff_eq.mp removed] at same
  cases same

end Xv6Uac
