import Xv6Uac.Fs.Blocks

/-!
# Freeing an inode

`itrunc` frees the blocks of an inode one by one. Before it starts, all of them
are counted as reserved, so that after each step the reserved blocks are those
that are still to be freed (`Layout.freePlace`). At its end the free map has lost
exactly the blocks of the inode (`itrunc_spec`).

`iput` drops a reference, and frees the inode if this was the last one and the
inode has no links (`iput_spec`). No entry that is still in use loses its inode
(`Dropped.current`).
-/

namespace Xv6Uac

open Words
open Hoare hiding update
open Function (update update_eq_self update_eq_self_iff update_idem update_of_ne update_self)

variable {cfg : Config} {F F' : ℕ → Dinode} {D R : Set ℕ} {s t : Kernel} {i k : ℕ}

/-! ## Blocks that are still to be freed -/

/-- The blocks at some of the places of an inode. -/
def blocksAt (data : ℕ → Bytes) (d : Dinode) (P : ℕ → Prop) : Set ℕ :=
  {b | b ≠ 0 ∧ ∃ p < NPLACE, P p ∧ place data d p = b}

theorem blocksOf_eq (data : ℕ → Bytes) (d : Dinode) :
    blocksOf data d = blocksAt data d fun _ => True := by
  simp [blocksOf, blocksAt]

theorem blocksAt_congr {data : ℕ → Bytes} {d : Dinode} {P Q : ℕ → Prop}
    (same : ∀ p, p < NPLACE → place data d p ≠ 0 → (P p ↔ Q p)) :
    blocksAt data d P = blocksAt data d Q := by
  ext b
  constructor
  · rintro ⟨nonzero, p, small, holds, rfl⟩
    exact ⟨nonzero, p, small, (same p small nonzero).mp holds, rfl⟩
  · rintro ⟨nonzero, p, small, holds, rfl⟩
    exact ⟨nonzero, p, small, (same p small nonzero).mpr holds, rfl⟩

/-- Without one block of an inode, the blocks at the other places are left. -/
theorem blocksAt_diff (layout : Layout cfg F R s.bitmap s.data) (live : (F i).type ≠ .free)
    {P : ℕ → Prop} {q : ℕ} (small : q < NPLACE) :
    blocksAt s.data (F i) P \ {place s.data (F i) q} =
      blocksAt s.data (F i) fun p => P p ∧ p ≠ q := by
  ext b
  simp only [Set.mem_sdiff, Set.mem_singleton_iff]
  constructor
  · rintro ⟨⟨nonzero, p, small', holds, rfl⟩, other⟩
    exact ⟨nonzero, p, small', ⟨holds, fun same => other (by rw [same])⟩, rfl⟩
  · rintro ⟨nonzero, p, small', ⟨holds, other⟩, rfl⟩
    refine ⟨⟨nonzero, p, small', holds, rfl⟩, fun same => other ?_⟩
    exact (layout.unique live live small' small nonzero same).2

/-- The state of `itrunc` while it runs: the reserved blocks are those at the places
in `P`, and no bit of another block has changed. -/
structure Truncating (cfg : Config) (F : ℕ → Dinode) (i k : ℕ) (d gone : Dinode) (P : ℕ → Prop)
    (s t : Kernel) : Prop where
  state : ∃ bitmap lh, t = { s with
    bitmap := bitmap
    icache := update s.icache k { s.icache k with d := d }
    lh := lh }
  layout : Layout cfg (update F i gone) (blocksAt s.data (F i) P) t.bitmap s.data
  others : ∀ b, b ∉ blocksOf s.data (F i) → t.bitmap b = s.bitmap b

namespace Truncating

variable {d gone : Dinode} {P : ℕ → Prop}

section

variable (run : Truncating cfg F i k d gone P s t)
include run

theorem data : t.data = s.data := by
  obtain ⟨bitmap, lh, same⟩ := run.state
  rw [same]

theorem entry : t.icache k = { s.icache k with d := d } := by
  obtain ⟨bitmap, lh, same⟩ := run.state
  rw [same]
  simp

/-- A place that holds no block needs no step. -/
theorem skip {q : ℕ} (empty : place s.data (F i) q = 0) :
    Truncating cfg F i k d gone (fun p => P p ∧ p ≠ q) s t := by
  refine ⟨run.state, ?_, run.others⟩
  rw [← blocksAt_congr (fun p _ some => ?_)]
  · exact run.layout
  · exact ⟨fun holds => ⟨holds, fun same => some (same ▸ empty)⟩, fun holds => holds.1⟩

end

/-- `bfree` of the block at a place. -/
theorem freePlace (inv : FsInv cfg F D s) (live : (F i).type ≠ .free)
    (run : Truncating cfg F i k d gone P s t) {q : ℕ} (small : q < NPLACE) (holds : P q)
    (some : place s.data (F i) q ≠ 0) :
    wp Benign (bfree cfg (place s.data (F i) q))
      (fun _ u => Truncating cfg F i k d gone (fun p => P p ∧ p ≠ q) s u) t := by
  have mine : place s.data (F i) q ∈ blocksAt s.data (F i) P := ⟨some, q, small, holds, rfl⟩
  have layout := run.layout
  rw [← run.data] at layout
  apply (bfree_spec layout (run.data.symm ▸ mine)).mono
  rintro _ u ⟨lh, rfl⟩
  obtain ⟨bitmap, lh', state⟩ := run.state
  refine ⟨⟨update bitmap (place s.data (F i) q) false, lh, ?_⟩, ?_, fun b outside => ?_⟩
  · rw [state]
  · rw [← blocksAt_diff inv.layout live small]
    exact run.layout.release mine
  · have apart : b ≠ place s.data (F i) q := fun same =>
      outside (same ▸ ⟨some, q, small, rfl⟩)
    dsimp only
    rw [update_of_ne apart]
    exact run.others b outside

/-- A change of the inode in the entry. -/
theorem setDinode (run : Truncating cfg F i k d gone P s t) (f : Dinode → Dinode) :
    wp Benign (modifyDinode k f) (fun _ u => Truncating cfg F i k (f d) gone P s u) t := by
  obtain ⟨bitmap, lh, state⟩ := run.state
  refine ⟨⟨bitmap, lh, ?_⟩, run.layout, run.others⟩
  rw [state]
  simp

end Truncating

/-! ## `itrunc` -/

/-- An inode without its first `m` addresses. -/
def cleared (d : Dinode) (m : ℕ) : Dinode :=
  { d with addrs := fun p => if p < m then 0 else d.addrs p }

/-- An inode without contents. -/
def emptied (d : Dinode) : Dinode := { cleared d (NDIRECT + 1) with size := 0 }

theorem cleared_zero (d : Dinode) : cleared d 0 = d := by
  simp [cleared]

theorem cleared_succ (d : Dinode) (m : ℕ) :
    { cleared d m with addrs := update (cleared d m).addrs m 0 } = cleared d (m + 1) := by
  simp only [cleared, Dinode.mk.injEq, true_and, and_true]
  funext p
  obtain rfl | other := eq_or_ne p m
  · simp
  · rw [update_of_ne other]
    by_cases lt : p < m
    · rw [if_pos lt, if_pos (by omega)]
    · rw [if_neg lt, if_neg (by omega)]

theorem cleared_succ_of_zero {d : Dinode} {m : ℕ} (zero : d.addrs m = 0) :
    cleared d (m + 1) = cleared d m := by
  rw [← cleared_succ]
  simp only [cleared, Dinode.mk.injEq, true_and, and_true]
  apply update_eq_self_iff.mpr
  simp [zero]

section Itrunc

variable {gone : Dinode}

variable (inv : FsInv cfg F D s)
include inv

/-- The state after `m` rounds of the first loop. -/
theorem itruncDirect_spec (live : (F i).type ≠ .free) {m : ℕ} (small : m < NDIRECT)
    (run : Truncating cfg F i k (cleared (F i) m) gone (fun p => m ≤ p) s t) :
    wp Benign (itruncDirect cfg k m)
      (fun _ u => Truncating cfg F i k (cleared (F i) (m + 1)) gone (fun p => m + 1 ≤ p) s u)
      t := by
  have address : (t.icache k).d.addrs m = place s.data (F i) m := by
    rw [run.entry, place_of_le _ _ small.le]
    simp [cleared]
  have rest : (fun p => m ≤ p ∧ p ≠ m) = fun p => m + 1 ≤ p := by
    funext p
    simp only [eq_iff_iff]
    omega
  have inside : m < NPLACE := by simp only [NPLACE]; omega
  simp only [itruncDirect, inode, wp_bind, wp_gets]
  rw [wp_when, address]
  constructor
  · intro some
    rw [wp_bind, ← cleared_succ, ← rest]
    exact (run.freePlace inv live inside le_rfl some).mono fun _ u freed => freed.setDinode _
  · intro empty
    have empty := not_not.mp empty
    rw [cleared_succ_of_zero ((place_of_le _ _ small.le).symm.trans empty), ← rest]
    exact run.skip empty

/-- A round of the second loop. -/
theorem itruncIndirect_spec (live : (F i).type ≠ .free) {d : Dinode} {j : ℕ} (small : j < NINDIRECT)
    (indirect : (F i).addrs NDIRECT ≠ 0)
    (run : Truncating cfg F i k d gone (fun p => p = NDIRECT ∨ NDIRECT + 1 + j ≤ p) s t) :
    wp Benign (itruncIndirect cfg (s.data ((F i).addrs NDIRECT)) j)
      (fun _ u => Truncating cfg F i k d gone (fun p => p = NDIRECT ∨ NDIRECT + 1 + (j + 1) ≤ p) s u)
      t := by
  have entry := place_entry s.data indirect j
  have rest : (fun p => (p = NDIRECT ∨ NDIRECT + 1 + j ≤ p) ∧ p ≠ NDIRECT + 1 + j) =
      fun p => p = NDIRECT ∨ NDIRECT + 1 + (j + 1) ≤ p := by
    funext p
    simp only [eq_iff_iff]
    omega
  have inside : NDIRECT + 1 + j < NPLACE := by simp only [NPLACE]; omega
  rw [itruncIndirect, ← entry, wp_when, ← rest]
  constructor
  · intro some
    exact run.freePlace inv live inside (.inr le_rfl) some
  · intro empty
    exact run.skip (not_not.mp empty)

/-- The part of `itrunc` that frees the indirect block. -/
theorem itruncLast_spec (live : (F i).type ≠ .free)
    (run : Truncating cfg F i k (cleared (F i) NDIRECT) gone (fun p => NDIRECT ≤ p) s t) :
    wp Benign (when ((t.icache k).d.addrs NDIRECT ≠ 0) do
        let a ← bread cfg ((t.icache k).d.addrs NDIRECT)
        upto NINDIRECT (itruncIndirect cfg a)
        bfree cfg ((t.icache k).d.addrs NDIRECT)
        modifyDinode k fun d => { d with addrs := update d.addrs NDIRECT 0 })
      (fun _ u => Truncating cfg F i k (cleared (F i) (NDIRECT + 1)) gone (fun _ => False) s u)
      t := by
  have placed : place s.data (F i) NDIRECT = (F i).addrs NDIRECT := place_of_le _ _ le_rfl
  have address : (t.icache k).d.addrs NDIRECT = (F i).addrs NDIRECT := by
    rw [run.entry]
    simp [cleared]
  rw [wp_when, address]
  constructor
  · intro indirect
    have some : place s.data (F i) NDIRECT ≠ 0 := placed ▸ indirect
    have inside := inv.layout.dataBlock live (by decide) some
    refine (bread_spec inside).seq fun a u ⟨same, block⟩ => ?_
    subst same block
    rw [run.data, wp_bind]
    have start : Truncating cfg F i k (cleared (F i) NDIRECT) gone
        (fun p => p = NDIRECT ∨ NDIRECT + 1 + 0 ≤ p) s u := by
      refine ⟨run.state, ?_, run.others⟩
      rw [← blocksAt_congr fun p _ _ => ?_]
      · exact run.layout
      · omega
    refine (wp_upto (I := fun j t => Truncating cfg F i k (cleared (F i) NDIRECT) gone
      (fun p => p = NDIRECT ∨ NDIRECT + 1 + j ≤ p) s t) NINDIRECT start
      fun j small t run => itruncIndirect_spec inv live small indirect run).mono
      fun _ v last => ?_
    rw [wp_bind]
    refine (last.freePlace inv live (by decide) (.inl rfl) some).mono fun _ w freed => ?_
    rw [← cleared_succ]
    have done : Truncating cfg F i k (cleared (F i) NDIRECT) gone (fun _ => False) s w := by
      refine ⟨freed.state, ?_, freed.others⟩
      rw [← blocksAt_congr fun p small _ => ?_]
      · exact freed.layout
      · simp only [NPLACE] at small
        simp only [iff_false]
        omega
    exact done.setDinode _
  · intro none
    have none := not_not.mp none
    rw [cleared_succ_of_zero none]
    refine ⟨run.state, ?_, run.others⟩
    rw [← blocksAt_congr fun p small some => ?_]
    · exact run.layout
    · -- without an indirect block there is nothing at these places
      refine ⟨fun above => some ?_, False.elim⟩
      obtain rfl | gt := above.eq_or_lt
      · exact placed.trans none
      · rw [place, if_neg (by omega), if_pos none]

/-- **`itrunc` frees exactly the blocks of the inode.** -/
theorem itrunc_spec (held : Held s k i) (free : gone.type = .free) :
    wp Benign (itrunc cfg k) (fun _ t =>
      (∃ bitmap lh, t = { s with
        bitmap := bitmap
        icache := update s.icache k { s.icache k with d := emptied (F i) }
        dinode := update s.dinode i (emptied (F i))
        lh := lh }) ∧
      Layout cfg (update F i gone) ∅ t.bitmap s.data ∧
      ∀ b, b ∉ blocksOf s.data (F i) → t.bitmap b = s.bitmap b) s := by
  have live := (inv.cached.held held).2
  have start : Truncating cfg F i k (cleared (F i) 0) gone (fun p => 0 ≤ p) s s := by
    refine ⟨⟨s.bitmap, s.lh, ?_⟩, ?_, fun _ _ => rfl⟩
    · rw [cleared_zero, ← (inv.cached.held held).1, update_eq_self]
    · have detached := inv.layout.detach live free
      rwa [Set.empty_union, blocksOf_eq, blocksAt_congr fun _ _ _ => ?_] at detached
      simp
  refine (wp_upto (I := fun m t =>
    Truncating cfg F i k (cleared (F i) m) gone (fun p => m ≤ p) s t) NDIRECT start
    fun m small t run => itruncDirect_spec inv live small run).seq fun _ t direct => ?_
  simp only [inode]
  rw [wp_read]
  refine (itruncLast_spec inv live direct).seq fun _ u done => ?_
  refine (done.setDinode _).seq fun _ v sized => ?_
  apply (logWrite_spec _).mono
  rintro _ w ⟨lh, same⟩
  have layout := sized.layout
  have none : blocksAt s.data (F i) (fun _ => False) = ∅ := by
    ext b
    simp [blocksAt]
  rw [none] at layout
  obtain ⟨bitmap, lh', rfl⟩ := sized.state
  subst same
  refine ⟨⟨bitmap, lh, ?_⟩, layout, sized.others⟩
  simp [emptied, held.inum]

end Itrunc

/-! ## `iput` -/

/-- An inode after `iput` has freed it. -/
def Dinode.freed (d : Dinode) : Dinode := { emptied d with type := .free }

/-- `ifree` turns the inode of an entry into a free one. -/
theorem ifree_spec (inv : FsInv cfg F D s) (held : Held s k i) :
    wp Benign (ifree cfg k) (fun _ t => ∃ bitmap lh,
      t = { s with
        bitmap := bitmap
        icache := update s.icache k
          { s.icache k with d := (F i).freed, valid := false }
        dinode := update s.dinode i (F i).freed
        lh := lh } ∧
      Layout cfg (update F i (F i).freed) ∅ t.bitmap t.data ∧
      ∀ b, b ∉ blocksOf s.data (F i) → t.bitmap b = s.bitmap b) s := by
  have free : (F i).freed.type = .free := rfl
  apply (itrunc_spec inv held free).seq
  rintro _ t ⟨⟨bitmap, lh, rfl⟩, layout, others⟩
  simp only [modifyDinode, modifyInode, wp_bind, wp_update]
  apply (logWrite_spec _).mono
  rintro _ u ⟨lh', rfl⟩
  refine ⟨bitmap, lh', ?_, layout, others⟩
  simp [held.inum, Dinode.freed]

/-- What `iput` of entry `k` does: one reference less, and the inode is freed if
nothing else refers to it. -/
structure Dropped (cfg : Config) (F F' : ℕ → Dinode) (D : Set ℕ) (k : ℕ) (s t : Kernel) :
    Prop where
  fsInv : FsInv cfg F' D t
  data : t.data = s.data
  inodes : F' = F ∨ (s.icache k).ref = 1 ∧ (F (s.icache k).inum).nlink = 0 ∧
    (F (s.icache k).inum).type ≠ .free ∧
    F' = update F (s.icache k).inum (F (s.icache k).inum).freed
  others : ∀ j, j ≠ k → t.icache j = s.icache j
  ref : (t.icache k).ref = (s.icache k).ref - 1
  entry : 0 < (t.icache k).ref →
    (t.icache k).inum = (s.icache k).inum ∧ (t.icache k).valid = (s.icache k).valid

/-- The last reference to an inode goes, and the inode changes on disk. -/
theorem Cached.free (cached : Cached cfg F D s) (used : 0 < (s.icache k).ref) (ip : Inode)
    (unused : ip.ref = 0) (d : Dinode) :
    Cached cfg (update F (s.icache k).inum d) D { s with
      icache := update s.icache k ip
      dinode := update s.dinode (s.icache k).inum d } := by
  have other : ∀ {j}, 0 < (update s.icache k ip j).ref →
      j ≠ k ∧ update s.icache k ip j = s.icache j := by
    intro j inUse
    obtain rfl | other := eq_or_ne j k
    · rw [update_self] at inUse
      omega
    · exact ⟨other, update_of_ne other ip s.icache⟩
  refine ⟨fun j => ?_, fun {j} inUse => ?_, fun {j} inUse => ?_, fun {j l} first second same => ?_,
    fun {j} inUse valid => ?_, fun {j} outside => ?_⟩
  · dsimp only
    obtain rfl | apart := eq_or_ne j k
    · rw [update_self, unused]
    · rw [update_of_ne apart]
      exact cached.nonneg j
  · dsimp only at inUse ⊢
    have same := (other inUse).2
    rw [same] at inUse ⊢
    exact cached.inside inUse
  · dsimp only at inUse
    rw [(other inUse).2] at inUse
    exact cached.bound inUse
  · dsimp only at first second same
    rw [(other first).2, (other second).2] at same
    rw [(other first).2] at first
    rw [(other second).2] at second
    exact cached.unique first second same
  · obtain ⟨apart, eq⟩ := other inUse
    dsimp only at inUse valid ⊢
    rw [eq] at inUse valid ⊢
    have distinct : (s.icache j).inum ≠ (s.icache k).inum := fun same =>
      apart (cached.unique inUse used same)
    rw [update_of_ne distinct]
    exact cached.shows inUse valid
  · dsimp only
    obtain rfl | apart := eq_or_ne j (s.icache k).inum
    · rw [update_self, update_self]
    · rw [update_of_ne apart, update_of_ne apart]
      exact cached.synced outside

/-- **`iput` drops one reference.** -/
theorem iput_spec (inv : FsInv cfg F D s) (used : 0 < (s.icache k).ref) :
    wp Benign (iput cfg k) (fun _ t => ∃ F', Dropped cfg F F' D k s t) s := by
  simp only [iput, acquiresleep, inode, modifyInode, wp_bind, wp_gets, wp_ite, wp_update]
  refine ⟨fun _ => by simp [Benign], fun _ => ?_⟩
  have locked : FsInv cfg F D { s with
      icache := update s.icache k { s.icache k with locked := true } } :=
    ⟨inv.cached.setEntry used.le (fun _ => ⟨used, rfl⟩) fun _ valid => inv.cached.shows used valid,
      inv.layout⟩
  rw [wp_when]
  constructor
  · rintro ⟨valid, unlinked, last⟩
    rw [update_self] at valid unlinked last
    have held : Held { s with
        icache := update s.icache k { s.icache k with locked := true } } k
        (s.icache k).inum := by
      refine ⟨?_, ?_, ?_⟩
      · simpa using used
      · simpa using valid
      · simp
    have shown := inv.cached.shows used valid
    apply (ifree_spec locked held).mono
    rintro _ t ⟨bitmap, lh, rfl, layout, _⟩
    refine ⟨_, ⟨?_, layout⟩, rfl, .inr ⟨last, shown.1 ▸ unlinked, shown.2, rfl⟩, fun j other => ?_,
      ?_, fun inUse => ?_⟩
    · have freed := inv.cached.free used { s.icache k with
        d := (F (s.icache k).inum).freed, valid := false, locked := false, ref := 0 } rfl
        (F (s.icache k).inum).freed
      simp only [update_idem, update_self, last]
      exact ⟨freed.nonneg, freed.inside, freed.bound, freed.unique, freed.shows, freed.synced⟩
    · simp [other]
    · simp
    · simp [last] at inUse
  · intro _
    simp only [wp_bind, wp_update, update_idem, update_self]
    refine ⟨F, ⟨?_, inv.layout⟩, rfl, .inl rfl, fun j other => ?_, ?_, fun inUse => ?_⟩
    · refine inv.cached.setEntry ?_ (fun _ => ⟨used, rfl⟩) fun _ valid => inv.cached.shows used valid
      dsimp only
      omega
    · simp [other]
    · simp
    · simp

namespace Dropped

/-- An inode keeps what it is, or it had no links and is free now. -/
theorem eq_or_freed (drop : Dropped cfg F F' D k s t) (i : ℕ) :
    F' i = F i ∨ (F i).nlink = 0 ∧ (F i).type ≠ .free ∧ (F' i).type = .free := by
  obtain same | ⟨-, unlinked, live, freed⟩ := drop.inodes
  · exact .inl (congrFun same i)
  · rw [freed]
    obtain rfl | other := eq_or_ne i (s.icache k).inum
    · refine .inr ⟨unlinked, live, ?_⟩
      rw [update_self]
      rfl
    · exact .inl (update_of_ne other _ F)

/-- **The inode of an entry that is still in use does not change.** -/
theorem current (drop : Dropped cfg F F' D k s t) (cached : Cached cfg F D s) {j : ℕ}
    (used : 0 < (t.icache j).ref) : F' (t.icache j).inum = F (t.icache j).inum := by
  obtain same | ⟨last, -, -, freed⟩ := drop.inodes
  · rw [same]
  · have other : j ≠ k := by
      rintro rfl
      have := drop.ref
      omega
    rw [drop.others j other] at used ⊢
    have distinct : (s.icache j).inum ≠ (s.icache k).inum := fun same =>
      other (cached.unique used (by omega) same)
    rw [freed, update_of_ne distinct]

end Dropped

end Xv6Uac
