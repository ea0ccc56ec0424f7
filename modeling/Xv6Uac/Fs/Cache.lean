import Xv6Uac.Fs.Layout
import Xv6Uac.Kernel.Frame

/-!
# The inode cache

The state of the file system is described by the inodes as they are now: `F i` is
inode `i` as a call that locks it sees it. `Cached cfg F D s` relates them to the
cache and the disk. No inode has two entries, an entry that is in use and valid
shows the inode, and the disk shows it unless a call is about to write it back
(the set `D`). `FsInv` joins this with the layout of the blocks.

Each function on cache entries has one specification. A specification says what
the state is afterwards and allows every failure except an access outside the
data blocks or the inodes and the panic of `bfree` (`Benign`).
-/

namespace Xv6Uac

open Words
open Hoare hiding update
open Function (update update_idem update_of_ne update_self)

/-! ## The invariant -/

/-- The reasons for which a call may fail on a well-formed file system. -/
def Benign (reason : Stop) : Prop :=
  reason ≠ .panic .freeingFreeBlock ∧ reason ≠ .wildBlock ∧ reason ≠ .wildInode

/-- The cache and the disk show the inodes `F`, except that those in `D` are still
to be written to disk. -/
structure Cached (cfg : Config) (F : ℕ → Dinode) (D : Set ℕ) (s : Kernel) : Prop where
  nonneg : ∀ k, 0 ≤ (s.icache k).ref
  inside : ∀ {k : ℕ}, 0 < (s.icache k).ref → (s.icache k).inum < cfg.sb.ninodes
  bound : ∀ {k : ℕ}, 0 < (s.icache k).ref → k < NINODE
  unique : ∀ {j k : ℕ}, 0 < (s.icache j).ref → 0 < (s.icache k).ref →
    (s.icache j).inum = (s.icache k).inum → j = k
  shows : ∀ {k : ℕ}, 0 < (s.icache k).ref → (s.icache k).valid = true →
    (s.icache k).d = F (s.icache k).inum ∧ (F (s.icache k).inum).type ≠ .free
  synced : ∀ {i : ℕ}, i ∉ D → s.dinode i = F i

/-- The invariant of the file system. -/
structure FsInv (cfg : Config) (F : ℕ → Dinode) (D : Set ℕ) (s : Kernel) : Prop where
  cached : Cached cfg F D s
  layout : Layout cfg F ∅ s.bitmap s.data

/-- Entry `k` is in use, valid, and of inode `i`. -/
structure Held (s : Kernel) (k i : ℕ) : Prop where
  ref : 0 < (s.icache k).ref
  valid : (s.icache k).valid = true
  inum : (s.icache k).inum = i

namespace Cached

variable {cfg : Config} {F : ℕ → Dinode} {D : Set ℕ} {s : Kernel}

variable (cached : Cached cfg F D s)
include cached

theorem held {k i : ℕ} (held : Held s k i) : (s.icache k).d = F i ∧ (F i).type ≠ .free := by
  have shown := cached.shows held.ref held.valid
  rwa [held.inum] at shown

/-- An update of one entry. -/
theorem replace {k : ℕ} {ip : Inode} (nonneg : 0 ≤ ip.ref)
    (inside : 0 < ip.ref → ip.inum < cfg.sb.ninodes) (bound : 0 < ip.ref → k < NINODE)
    (unique : 0 < ip.ref → ∀ j ≠ k, 0 < (s.icache j).ref → (s.icache j).inum ≠ ip.inum)
    (shows : 0 < ip.ref → ip.valid = true → ip.d = F ip.inum ∧ (F ip.inum).type ≠ .free) :
    Cached cfg F D { s with icache := update s.icache k ip } where
  nonneg j := by
    dsimp only
    obtain rfl | other := eq_or_ne j k
    · rwa [update_self]
    · rw [update_of_ne other]
      exact cached.nonneg j
  inside {j} used := by
    dsimp only at used ⊢
    obtain rfl | other := eq_or_ne j k
    · rw [update_self] at used ⊢
      exact inside used
    · rw [update_of_ne other] at used ⊢
      exact cached.inside used
  bound {j} used := by
    dsimp only at used
    obtain rfl | other := eq_or_ne j k
    · rw [update_self] at used
      exact bound used
    · rw [update_of_ne other] at used
      exact cached.bound used
  unique {j l} first second same := by
    dsimp only at first second same
    obtain rfl | other := eq_or_ne j k
    · obtain rfl | other' := eq_or_ne l j
      · rfl
      · rw [update_self] at first same
        rw [update_of_ne other'] at second same
        exact absurd same.symm (unique first l other' second)
    · obtain rfl | other' := eq_or_ne l k
      · rw [update_self] at second same
        rw [update_of_ne other] at first same
        exact absurd same (unique second j other first)
      · rw [update_of_ne other] at first same
        rw [update_of_ne other'] at second same
        exact cached.unique first second same
  shows {j} used valid := by
    dsimp only at used valid ⊢
    obtain rfl | other := eq_or_ne j k
    · rw [update_self] at used valid ⊢
      exact shows used valid
    · rw [update_of_ne other] at used valid ⊢
      exact cached.shows used valid
  synced := cached.synced

/-- An update of one entry that keeps its inode. -/
theorem setEntry {k : ℕ} {ip : Inode} (nonneg : 0 ≤ ip.ref)
    (inum : 0 < ip.ref → 0 < (s.icache k).ref ∧ ip.inum = (s.icache k).inum)
    (shows : 0 < ip.ref → ip.valid = true → ip.d = F ip.inum ∧ (F ip.inum).type ≠ .free) :
    Cached cfg F D { s with icache := update s.icache k ip } := by
  refine cached.replace nonneg (fun used => (inum used).2 ▸ cached.inside (inum used).1)
    (fun used => cached.bound (inum used).1) (fun used j other usedJ same => ?_) shows
  exact other (cached.unique usedJ (inum used).1 (same.trans (inum used).2))

/-- An unused entry is taken for an inode that has none. -/
theorem recycle {k : ℕ} (small : k < NINODE) {ip : Inode} (nonneg : 0 ≤ ip.ref)
    (inside : ip.inum < cfg.sb.ninodes) (invalid : ip.valid = false)
    (missing : ∀ j, 0 < (s.icache j).ref → (s.icache j).inum ≠ ip.inum) :
    Cached cfg F D { s with icache := update s.icache k ip } := by
  apply cached.replace nonneg (fun _ => inside) (fun _ => small) (fun _ j _ => missing j)
  intro _ valid
  rw [invalid] at valid
  cases valid

/-- A change of the inode in a held entry. It is then to be written to disk. -/
theorem setHeld {k i : ℕ} (held : Held s k i) {d : Dinode} (live : d.type ≠ .free) :
    Cached cfg (update F i d) (insert i D)
      { s with icache := update s.icache k { s.icache k with d := d } } := by
  have entry : ∀ m, ((update s.icache k { s.icache k with d := d }) m).ref =
      (s.icache m).ref ∧ ((update s.icache k { s.icache k with d := d }) m).inum =
      (s.icache m).inum := by
    intro m
    by_cases eq : m = k <;> simp [eq]
  refine ⟨fun j => ?_, fun {j} used => ?_, fun {j} used => ?_, fun {j l} first second same => ?_,
    fun {j} used valid => ?_, fun {j} outside => ?_⟩
  · exact (entry j).1 ▸ cached.nonneg j
  · exact (entry j).2 ▸ cached.inside ((entry j).1 ▸ used)
  · exact cached.bound ((entry j).1 ▸ used)
  · rw [(entry j).1] at first
    rw [(entry l).1] at second
    rw [(entry j).2, (entry l).2] at same
    exact cached.unique first second same
  · dsimp only at used valid ⊢
    obtain rfl | other := eq_or_ne j k
    · simp only [update_self, held.inum, true_and]
      exact live
    · rw [update_of_ne other] at used valid ⊢
      have apart : (s.icache j).inum ≠ i := fun same =>
        other (cached.unique used held.ref (same.trans held.inum.symm))
      rw [update_of_ne apart]
      exact cached.shows used valid
  · have apart : j ≠ i := fun same => outside (same ▸ Set.mem_insert i D)
    rw [update_of_ne apart]
    exact cached.synced fun member => outside (Set.mem_insert_of_mem i member)

/-- Writing an inode to disk. -/
theorem setDisk (i : ℕ) :
    Cached cfg F (D \ {i}) { s with dinode := update s.dinode i (F i) } where
  nonneg := cached.nonneg
  inside := cached.inside
  bound := cached.bound
  unique := cached.unique
  shows := cached.shows
  synced {j} outside := by
    obtain rfl | other := eq_or_ne j i
    · simp
    · dsimp only
      rw [update_of_ne other]
      exact cached.synced fun member => outside ⟨member, other⟩

/-- The set of inodes to be written may be larger. -/
theorem mono {D' : Set ℕ} (sub : D ⊆ D') : Cached cfg F D' s :=
  ⟨cached.nonneg, cached.inside, cached.bound, cached.unique, cached.shows, fun outside =>
    cached.synced fun member => outside (sub member)⟩

end Cached

/-! ## Entries across calls -/

/-- Between two states every entry gains `δ` references, and an entry that was in
use stays with its inode. -/
structure Kept (s t : Kernel) (δ : ℕ → ℕ) : Prop where
  ref : ∀ j, (t.icache j).ref = (s.icache j).ref + δ j
  inum : ∀ j, 0 < (s.icache j).ref → (t.icache j).inum = (s.icache j).inum
  valid : ∀ j, 0 < (s.icache j).ref → (s.icache j).valid = true → (t.icache j).valid = true

namespace Kept

variable {s t u : Kernel} {δ : ℕ → ℕ}

theorem refl (s : Kernel) : Kept s s 0 := ⟨by simp, fun _ _ => rfl, fun _ _ valid => valid⟩

section

variable (kept : Kept s t δ)
include kept

/-- The cache is all that matters. -/
theorem congr (same : u.icache = t.icache) : Kept s u δ :=
  ⟨same ▸ kept.ref, same ▸ kept.inum, same ▸ kept.valid⟩

theorem pos {j : ℕ} (used : 0 < (s.icache j).ref) : 0 < (t.icache j).ref := by
  have := kept.ref j
  omega

/-- A held entry stays held. -/
theorem held {k i : ℕ} (held : Held s k i) : Held t k i :=
  ⟨kept.pos held.ref, kept.valid k held.ref held.valid, (kept.inum k held.ref).trans held.inum⟩

/-- More references to an entry. -/
theorem take {k n : ℕ} {ip : Inode} (ref : ip.ref = (t.icache k).ref + n)
    (same : 0 < (t.icache k).ref →
      ip.inum = (t.icache k).inum ∧ ((t.icache k).valid = true → ip.valid = true)) :
    Kept s { t with icache := update t.icache k ip } (δ + Pi.single k n) := by
  refine ⟨fun j => ?_, fun j used => ?_, fun j used isValid => ?_⟩
  · obtain rfl | other := eq_or_ne j k
    · simp only [update_self, ref, kept.ref, Pi.add_apply, Pi.single_eq_same]
      omega
    · simp [other, kept.ref]
  · dsimp only
    obtain rfl | other := eq_or_ne j k
    · rw [update_self, (same (kept.pos used)).1, kept.inum j used]
    · rw [update_of_ne other, kept.inum j used]
  · dsimp only
    obtain rfl | other := eq_or_ne j k
    · rw [update_self]
      exact (same (kept.pos used)).2 (kept.valid j used isValid)
    · rw [update_of_ne other]
      exact kept.valid j used isValid

/-- A change of one entry that keeps its references, its inode and its validity. -/
theorem entry {k : ℕ} {ip : Inode} (ref : ip.ref = (t.icache k).ref)
    (inum : ip.inum = (t.icache k).inum) (valid : (t.icache k).valid = true → ip.valid = true) :
    Kept s { t with icache := update t.icache k ip } δ := by
  have kept := kept.take (n := 0) (ref.trans (add_zero _).symm) fun _ => ⟨inum, valid⟩
  rwa [Pi.single_zero, add_zero] at kept

end

/-- A change of the inode that an entry shows. -/
theorem setInode (s : Kernel) (k : ℕ) (d : Dinode) :
    Kept s { s with icache := update s.icache k { s.icache k with d := d } } 0 :=
  (Kept.refl s).entry rfl rfl fun valid => valid

end Kept

/-! ## Specifications -/

section Specs

variable {cfg : Config} {F : ℕ → Dinode} {D : Set ℕ} {s : Kernel}

theorem logWrite_spec (b : ℕ) :
    wp Benign (logWrite cfg b) (fun _ t => ∃ lh, t = { s with lh := lh }) s := by
  simp only [logWrite, panic, wp_bind, wp_gets, wp_ite, wp_update]
  refine ⟨fun _ => by simp [Benign], fun _ => ⟨fun _ => by simp [Benign], fun _ => ?_⟩⟩
  split
  · exact ⟨s.lh, rfl⟩
  · exact ⟨_, rfl⟩

section

variable (cached : Cached cfg F D s)
include cached

/-- `iget` finds the entry of the inode or takes an unused one. -/
theorem iget_spec {i : ℕ} (inside : i < cfg.sb.ninodes) :
    wp Benign (iget i) (fun k t => ∃ ip, t = { s with icache := update s.icache k ip } ∧
      Cached cfg F D t ∧ ip.inum = i ∧ Kept s t (Pi.single k 1) ∧
      (0 < (s.icache k).ref → ip.locked = (s.icache k).locked)) s := by
  simp only [iget, wp_bind, wp_gets]
  split
  · rename_i k found
    have found : 0 < (s.icache k).ref ∧ (s.icache k).inum = i := by
      simpa using List.find?_some found
    refine ⟨_, rfl, cached.setEntry ?_ ?_ ?_, found.2, ?_, fun _ => rfl⟩
    · exact (Int.add_pos_of_pos_of_nonneg found.1 Int.one_nonneg).le
    · exact fun _ => ⟨found.1, rfl⟩
    · exact fun _ valid => cached.shows found.1 valid
    · rw [← zero_add (Pi.single k 1)]
      exact (Kept.refl s).take rfl fun _ => ⟨rfl, fun valid => valid⟩
  · simp [panic, Benign]
  · rename_i k missing empty
    have unused : (s.icache k).ref = 0 := by simpa using List.find?_some empty
    have small : k < NINODE := List.mem_range.mp (List.mem_of_find?_eq_some empty)
    have missing : ∀ j, 0 < (s.icache j).ref → (s.icache j).inum ≠ i := by
      intro j used
      have none := List.find?_eq_none.mp missing j (List.mem_range.mpr (cached.bound used))
      simpa [used] using none
    refine ⟨_, rfl, cached.recycle small Int.one_nonneg inside rfl missing, rfl, ?_,
      fun _ => rfl⟩
    rw [← zero_add (Pi.single k 1)]
    exact (Kept.refl s).take (by simp [unused]) fun used => by omega

theorem idup_spec {k : ℕ} (used : 0 < (s.icache k).ref) :
    wp Benign (idup k) (fun j t => j = k ∧
      ∃ ip, t = { s with icache := update s.icache k ip } ∧ Cached cfg F D t ∧
        ip.inum = (s.icache k).inum ∧ 0 < ip.ref ∧ Kept s t (Pi.single k 1)) s := by
  simp only [idup, modifyInode, wp_bind, wp_update, wp_pure, true_and]
  refine ⟨_, rfl, cached.setEntry ?_ ?_ ?_, rfl, ?_, ?_⟩
  · exact (Int.add_pos_of_pos_of_nonneg used Int.one_nonneg).le
  · exact fun _ => ⟨used, rfl⟩
  · exact fun _ valid => cached.shows used valid
  · exact Int.add_pos_of_pos_of_nonneg used Int.one_nonneg
  · rw [← zero_add (Pi.single k 1)]
    exact (Kept.refl s).take rfl fun _ => ⟨rfl, fun valid => valid⟩

/-- `ilock` makes an entry held. -/
theorem ilock_spec {k : ℕ} (clean : (s.icache k).inum ∉ D) :
    wp Benign (ilock cfg k) (fun _ t =>
      ∃ ip, t = { s with icache := update s.icache k ip } ∧ Cached cfg F D t ∧
        Held t k (s.icache k).inum ∧ Kept s t 0 ∧ (s.icache k).locked = false ∧
        ip.locked = true) s := by
  simp only [ilock, acquiresleep, loadInode, inode, modifyInode, panic, wp_bind, wp_gets, wp_ite,
    wp_when, wp_update, update_self]
  refine ⟨fun _ => by simp [Benign], fun ref => ⟨fun _ => by simp [Benign], fun unlocked =>
    ⟨?_, ?_⟩⟩⟩
  · intro _
    have used : 0 < (s.icache k).ref := by omega
    refine ⟨fun _ => ⟨fun _ => by simp [Benign], fun live => ?_⟩,
      fun outside => absurd (cached.inside used) outside⟩
    simp only [update_idem]
    refine ⟨_, rfl, cached.setEntry used.le (fun _ => ⟨used, rfl⟩) fun _ _ => ?_, ⟨?_, ?_, ?_⟩,
      (Kept.refl s).entry rfl rfl fun _ => rfl, by simpa using unlocked, rfl⟩
    · have disk := cached.synced clean
      exact ⟨disk, disk ▸ live⟩
    · simpa using used
    · simp
    · simp
  · intro valid
    have used : 0 < (s.icache k).ref := by omega
    refine ⟨_, rfl, cached.setEntry used.le (fun _ => ⟨used, rfl⟩) fun _ valid => cached.shows used valid,
      ⟨?_, ?_, ?_⟩, (Kept.refl s).entry rfl rfl fun valid => valid, by simpa using unlocked, rfl⟩
    · simpa using used
    · simpa using valid
    · simp

theorem iunlock_spec (k : ℕ) :
    wp Benign (iunlock k) (fun _ t =>
      ∃ ip, t = { s with icache := update s.icache k ip } ∧ Cached cfg F D t ∧
        0 < (s.icache k).ref ∧ Kept s t 0) s := by
  simp only [iunlock, inode, panic, wp_bind, wp_gets, wp_ite]
  refine ⟨fun _ => by simp [Benign], fun ok => ?_⟩
  have used : 0 < (s.icache k).ref := by omega
  exact ⟨_, rfl, cached.setEntry used.le (fun _ => ⟨used, rfl⟩) fun _ valid => cached.shows used valid, used,
    (Kept.refl s).entry rfl rfl fun valid => valid⟩

/-- `iupdate` brings the disk up to date. -/
theorem iupdate_spec {k i : ℕ} (held : Held s k i) :
    wp Benign (iupdate cfg k) (fun _ t =>
      ∃ lh, t = { s with dinode := update s.dinode i (F i), lh := lh } ∧
        Cached cfg F (D \ {i}) t) s := by
  simp only [iupdate, inode, wp_bind, wp_gets]
  rw [(cached.held held).1, held.inum]
  apply (logWrite_spec _).mono
  rintro _ t ⟨lh, same⟩
  refine ⟨lh, same, ?_⟩
  have written := cached.setDisk i
  exact same ▸ ⟨written.nonneg, written.inside, written.bound, written.unique, written.shows, written.synced⟩

end

end Specs

end Xv6Uac
