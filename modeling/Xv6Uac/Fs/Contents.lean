import Xv6Uac.Fs.Truncate
import Mathlib.Data.List.GetD

/-!
# Reading and writing the contents of inodes

`content data d o` is the byte at offset `o` of an inode. `readi` returns these
bytes and leaves the state (`readi_spec`), since every block below the size of an
inode is allocated. `writei` changes the bytes of the range that it is given and
no other byte of any inode (`writei_spec`). It may allocate blocks on the way, and
it writes the inode to disk exactly when it grows. An inode that does not grow
already has all the blocks, so that its addresses on disk are up to date then.
-/

namespace Xv6Uac

open Words List
open Hoare hiding update
open Function (comp_apply update update_eq_self update_of_ne update_self)

variable {cfg : Config} {F F' : ℕ → Dinode} {D : Set ℕ} {s t : Kernel} {i k : ℕ}

/-- The byte at an offset of an inode. -/
def content (data : ℕ → Bytes) (d : Dinode) (o : ℕ) : UInt8 :=
  data (place data d (slotOf (o / BSIZE))) (o % BSIZE)

/-- The contents of an inode depend on its addresses only. -/
theorem content_congr (data : ℕ → Bytes) {d d' : Dinode} (addrs : d'.addrs = d.addrs) (o : ℕ) :
    content data d' o = content data d o := by
  have places : ∀ p, place data d' p = place data d p :=
    place_congr (fun _ _ => by rw [addrs]) (.inr rfl)
  rw [content, content, places]

/-- The block at an offset below the size is allocated. -/
theorem Layout.hasBlock {R : Set ℕ} {bitmap : ℕ → Bool} {data : ℕ → Bytes}
    (layout : Layout cfg F R bitmap data) (live : (F i).type ≠ .free) {o : ℕ}
    (below : o < (F i).size) : o / BSIZE < MAXFILE ∧ HasBlock data (F i) (o / BSIZE) := by
  have bound := layout.size_le live
  refine ⟨?_, layout.full live ?_⟩
  · exact (Nat.div_lt_iff_lt_mul (by decide)).mpr (below.trans_le bound)
  · exact (Nat.div_mul_le_self o BSIZE).trans_lt below

/-! ## `readi` -/

/-- The bytes of one block that a round of `readi` or `writei` handles. -/
theorem div_mod_round {o j : ℕ} (within : j < BSIZE - o % BSIZE) :
    (o + j) / BSIZE = o / BSIZE ∧ (o + j) % BSIZE = o % BSIZE + j := by
  simp only [BSIZE] at within ⊢
  omega

theorem readLoop_spec {E : Stop → Prop} (inv : FsInv cfg F D s) (held : Held s k i) (fuel : ℕ) :
    ∀ off n, n ≤ fuel → off + n ≤ (F i).size →
      wp E (readLoop cfg k fuel off n) (fun out t => t = s ∧
        out = (List.range n).map fun j => content s.data (F i) (off + j)) s := by
  have live := (inv.cached.held held).2
  induction fuel with
  | zero =>
    intro off n enough below
    obtain rfl : n = 0 := Nat.le_zero.mp enough
    exact ⟨rfl, rfl⟩
  | succ fuel ih =>
    intro off n enough below
    apply wp.ite
    · rintro rfl
      exact ⟨rfl, rfl⟩
    · intro some
      obtain ⟨small, has⟩ := inv.layout.hasBlock live (o := off) (by omega)
      refine (bmap_present inv held small has).seq fun b t ⟨same, placed⟩ => ?_
      subst same placed
      have inside := inv.layout.dataBlock live (slotOf_lt small) has
      refine (bread_spec inside).seq fun a u ⟨same, block⟩ => ?_
      subst same block
      have round : off % BSIZE < BSIZE := Nat.mod_lt _ (by decide)
      generalize size : min n (BSIZE - off % BSIZE) = m
      refine (ih (off + m) (n - m) (by omega) (by omega)).seq fun rest v ⟨same, bytes⟩ => ?_
      subst same bytes
      refine ⟨rfl, ?_⟩
      conv_rhs => rw [show n = m + (n - m) by omega, range_add, map_append, map_map]
      congr 1
      · refine map_congr_left fun j member => ?_
        have within : j < BSIZE - off % BSIZE := by
          have := List.mem_range.mp member
          omega
        rw [content, (div_mod_round within).1, (div_mod_round within).2]
      · refine map_congr_left fun j _ => ?_
        rw [comp_apply, Nat.add_assoc]

/-- What `readi` returns for an inode that is not a device. -/
def readResult (data : ℕ → Bytes) (d : Dinode) (off n : ℕ) : ℤ × List UInt8 :=
  if d.size < off ∨ (off + n) % 2 ^ 32 < off then (-1, [])
  else ((min n (d.size - off) : ℕ),
    (List.range (min n (d.size - off))).map fun j => content data d (off + j))

/-- **`readi` returns the contents and leaves the file system.** It does not fail. -/
theorem readi_spec {E : Stop → Prop} (inv : FsInv cfg F D s) (held : Held s k i) (off n : ℕ) :
    wp E (readi cfg k off n) (fun out t => (∃ count, t = { s with devreads := count }) ∧
      ((F i).type ≠ .dev → t = s ∧ out = readResult s.data (F i) off n)) s := by
  simp only [readi, inode, wp_bind, wp_gets, (inv.cached.held held).1, wp_ite]
  refine ⟨fun dev => ?_, fun notDev => ⟨fun bad => ?_, fun good => ?_⟩⟩
  · split
    · exact ⟨⟨s.devreads, rfl⟩, fun notDev => absurd dev notDev⟩
    · exact ⟨⟨_, rfl⟩, fun notDev => absurd dev notDev⟩
  · exact ⟨⟨s.devreads, rfl⟩, fun _ => ⟨rfl, (if_pos bad).symm⟩⟩
  · apply (readLoop_spec inv held _ off _ le_rfl (by omega)).mono
    rintro out t ⟨same, bytes⟩
    subst same bytes
    exact ⟨⟨t.devreads, rfl⟩, fun _ => ⟨rfl, (if_neg good).symm⟩⟩

/-! ## `writei` -/

/-- From `s` to `t` the bytes of inode `i` from `off` on have become `src`. -/
structure Rewrote (cfg : Config) (F F' : ℕ → Dinode) (i k off : ℕ) (src : List UInt8)
    (s t : Kernel) : Prop extends Grows cfg F F' i k s t where
  present : ∀ {j p : ℕ}, (F j).type ≠ .free → place s.data (F j) p ≠ 0 → place t.data (F' j) p ≠ 0
  covered : ∀ o, off ≤ o → o < off + src.length → HasBlock t.data (F' i) (o / BSIZE)
  inside : ∀ o, off ≤ o → o < off + src.length → content t.data (F' i) o = src.getD (o - off) 0
  outside : ∀ j o, (F j).type ≠ .free → o / BSIZE < MAXFILE → HasBlock s.data (F j) (o / BSIZE) →
    (j = i → o < off ∨ off + src.length ≤ o) → content t.data (F' j) o = content s.data (F j) o
  same : (∀ o, off ≤ o → o < off + src.length → HasBlock s.data (F i) (o / BSIZE)) → F' = F
  apart : ∀ {j : ℕ}, j ≠ i → (F j).type ≠ .free → ∀ p,
    place t.data (F' j) p = place s.data (F j) p

namespace Rewrote

theorem refl (inv : FsInv cfg F D s) (held : Held s k i) (off : ℕ) :
    Rewrote cfg F F i k off [] s s where
  toGrows := .refl inv held
  present _ has := has
  covered o from_ below := by
    simp only [length_nil] at below
    omega
  inside o from_ below := by
    simp only [length_nil] at below
    omega
  outside _ _ _ _ _ _ := rfl
  same _ := rfl
  apart _ _ _ := rfl

/-- Two ranges that follow each other. -/
theorem trans {F'' : ℕ → Dinode} {u : Kernel} {off : ℕ} {src rest : List UInt8}
    (live : (F i).type ≠ .free) (fits : off + src.length ≤ MAXFILE * BSIZE)
    (first : Rewrote cfg F F' i k off src s t)
    (second : Rewrote cfg F' F'' i k (off + src.length) rest t u) :
    Rewrote cfg F F'' i k off (src ++ rest) s u := by
  have live' : ∀ {j}, (F j).type ≠ .free → (F' j).type ≠ .free := fun live =>
    first.type_eq _ ▸ live
  have small : ∀ {o}, o < off + src.length → o / BSIZE < MAXFILE := fun below =>
    (Nat.div_lt_iff_lt_mul (by decide)).mpr (below.trans_le fits)
  refine ⟨first.toGrows.trans second.toGrows, fun live has =>
    second.present (live' live) (first.present live has), fun o above below => ?_,
    fun o above below => ?_, fun j o liveJ small' has apart => ?_, fun present => ?_,
    fun {j} other liveJ p => ?_⟩
  · rw [length_append] at below
    obtain lt | ge := Nat.lt_or_ge o (off + src.length)
    · exact second.present (live' live) (first.covered o above lt)
    · exact second.covered o ge (by omega)
  · rw [length_append] at below
    obtain lt | ge := Nat.lt_or_ge o (off + src.length)
    · rw [second.outside i o (live' live) (small lt) (first.covered o above lt) fun _ => .inl lt,
        first.inside o above lt, getD_append _ _ _ _ (by omega)]
    · rw [second.inside o ge (by omega), getD_append_right _ _ _ _ (by omega)]
      congr 1
      omega
  · rw [length_append] at apart
    rw [second.outside j o (live' liveJ) small' (first.present liveJ has) fun same => ?_,
      first.outside j o liveJ small' has fun same => ?_]
    · omega
    · omega
  · have same : F' = F := first.same fun o above below =>
      present o above (by rw [length_append]; omega)
    have same' : F'' = F' := second.same fun o above below =>
      first.present live (present o (by omega) (by rw [length_append]; omega))
    rw [same', same]
  · exact (second.apart other (live' liveJ) p).trans (first.apart other liveJ p)

end Rewrote

/-- The contents do not change when an inode gets new addresses. -/
theorem Extends.content_eq (ext : Extends cfg F F' i k s t) {j o : ℕ} (live : (F j).type ≠ .free)
    (small : o / BSIZE < MAXFILE) (has : HasBlock s.data (F j) (o / BSIZE)) :
    content t.data (F' j) o = content s.data (F j) o := by
  rw [content, content, ext.places live has, ext.blocks live small has]

/-- **One round of `writei`**: the bytes of one block. -/
theorem Extends.rewrote (ext : Extends cfg F F' i k s t) (live : (F i).type ≠ .free) {off b : ℕ}
    {src : List UInt8} (small : off / BSIZE < MAXFILE)
    (placed : place t.data (F' i) (slotOf (off / BSIZE)) = b) (nonzero : b ≠ 0)
    (same : HasBlock s.data (F i) (off / BSIZE) → F' = F)
    (some : src ≠ []) (round : src.length ≤ BSIZE - off % BSIZE) (lh : List ℕ) :
    Rewrote cfg F F' i k off src s { t with
      data := update t.data b (splice (t.data b) (off % BSIZE) src)
      lh := lh } := by
  have live' : ∀ {j}, (F j).type ≠ .free → (F' j).type ≠ .free := fun live => ext.type_eq _ ▸ live
  have has' : place t.data (F' i) (slotOf (off / BSIZE)) ≠ 0 := placed ▸ nonzero
  have places : ∀ {j}, (F j).type ≠ .free → ∀ p,
      place (update t.data b (splice (t.data b) (off % BSIZE) src)) (F' j) p =
        place t.data (F' j) p := fun liveJ p => by
    rw [← placed]
    exact ext.layout.place_write (live' live) small has' _ (live' liveJ) p
  have sameBlock : ∀ o, off ≤ o → o < off + src.length →
      o / BSIZE = off / BSIZE ∧ o % BSIZE = off % BSIZE + (o - off) := by
    intro o above below
    have at_ := div_mod_round (o := off) (j := o - off) (by omega)
    rwa [Nat.add_sub_cancel' above] at at_
  refine ⟨⟨ext.others, ext.fields, ext.cache, ext.disk, ext.outstanding, ?_⟩, fun {j p} liveJ has => ?_,
    fun o above below => ?_, fun o above below => ?_, fun j o liveJ small' has apart => ?_,
    fun present => ?_, fun {j} other liveJ p => ?_⟩
  · rw [← placed]
    exact ext.layout.write (live' live) small has' _
  · rwa [places liveJ, ext.places liveJ has]
  · rwa [HasBlock, places live, (sameBlock o above below).1, placed]
  · obtain ⟨block, byte⟩ := sameBlock o above below
    rw [content, places live, block, placed]
    dsimp only
    rw [update_self, splice, if_pos (by omega)]
    congr 1
    omega
  · rw [← ext.content_eq liveJ small' has, content, places liveJ, content]
    dsimp only
    obtain eq | ne := eq_or_ne (place t.data (F' j) (slotOf (o / BSIZE))) b
    · -- the block is the one that is written, but the byte is outside the range
      have has'' : place t.data (F' j) (slotOf (o / BSIZE)) ≠ 0 := eq ▸ nonzero
      obtain ⟨rfl, slot⟩ := ext.layout.unique (live' liveJ) (live' live) (slotOf_lt small')
        (slotOf_lt small) has'' (eq.trans placed.symm)
      have block := slotOf_injective slot
      rw [eq, update_self, splice, if_neg]
      have := Nat.div_add_mod o BSIZE
      have := Nat.div_add_mod off BSIZE
      rw [block] at *
      omega
    · rw [update_of_ne ne]
  · have positive : 0 < src.length := List.length_pos_iff.mpr some
    exact same (present off le_rfl (by omega))
  · exact (places liveJ p).trans (ext.apart other liveJ p)

/-- The bytes that a round writes. -/
theorem writeRound {src : List UInt8} (some : src.length ≠ 0) (off : ℕ) :
    off % BSIZE < BSIZE ∧
      (src.take (BSIZE - off % BSIZE)).length = min src.length (BSIZE - off % BSIZE) ∧
      src.take (BSIZE - off % BSIZE) ≠ [] := by
  have round : off % BSIZE < BSIZE := Nat.mod_lt _ (by decide)
  rw [← length_pos_iff, length_take, Nat.min_comm]
  exact ⟨round, rfl, by omega⟩

theorem writeLoop_spec (fuel : ℕ) :
    ∀ {F : ℕ → Dinode} {D : Set ℕ} {s : Kernel} (off : ℕ) (src : List UInt8),
      FsInv cfg F D s → Held s k i → src.length ≤ fuel → off + src.length ≤ MAXFILE * BSIZE →
      wp Benign (writeLoop cfg k fuel off src) (fun last t => last = off + src.length ∧
        ∃ F', Rewrote cfg F F' i k off src s t) s := by
  induction fuel with
  | zero =>
    intro F D s off src inv held enough fits
    obtain rfl : src = [] := List.length_eq_zero_iff.mp (Nat.le_zero.mp enough)
    exact ⟨rfl, F, .refl inv held off⟩
  | succ fuel ih =>
    intro F D s off src inv held enough fits
    have live := (inv.cached.held held).2
    apply wp.ite
    · intro none
      obtain rfl : src = [] := List.length_eq_zero_iff.mp none
      exact ⟨rfl, F, .refl inv held off⟩
    · intro some
      have small : off / BSIZE < MAXFILE :=
        (Nat.div_lt_iff_lt_mul (by decide)).mpr (by omega)
      refine (bmap_spec inv held small).seq fun b t ⟨F', ext, placed, nonzero, same⟩ => ?_
      have live' : (F' i).type ≠ .free := ext.type_eq i ▸ live
      have inside := ext.layout.dataBlock live' (slotOf_lt small) (placed ▸ nonzero)
      rw [placed] at inside
      refine (bwrite_spec inside _).seq fun _ u ⟨lh, eq⟩ => ?_
      obtain ⟨round, length, piece⟩ := writeRound some off
      have first := ext.rewrote live small placed nonzero (fun has => (same has).1) piece
        (by omega) lh
      rw [← eq] at first
      rw [← length]
      refine (ih _ _ (first.fsInv inv held) (first.held held) (by rw [length_drop]; omega)
        (by rw [length_drop]; omega)).mono fun last v ⟨end_, F'', second⟩ => ?_
      rw [end_, Nat.add_assoc, ← length_append, take_append_drop]
      refine ⟨rfl, F'', ?_⟩
      rw [← take_append_drop (BSIZE - off % BSIZE) src]
      exact first.trans live (by omega) second

/-- What `writei` does to the inode `i` in entry `k`. -/
structure Wrote (cfg : Config) (F F' : ℕ → Dinode) (D : Set ℕ) (i k off : ℕ) (src : List UInt8)
    (s t : Kernel) : Prop where
  fsInv : FsInv cfg F' D t
  written : (F i).size < off + src.length → Cached cfg F' (D \ {i}) t
  others : ∀ j, j ≠ i → F' j = F j
  fields : F' i = { F i with
    addrs := (F' i).addrs
    size := max (F i).size (off + src.length) }
  cache : t.icache = update s.icache k { s.icache k with d := F' i }
  outstanding : t.outstanding = s.outstanding
  present : ∀ {p : ℕ}, place s.data (F i) p ≠ 0 → place t.data (F' i) p ≠ 0
  covered : ∀ o, off ≤ o → o < off + src.length → HasBlock t.data (F' i) (o / BSIZE)
  inside : ∀ o, off ≤ o → o < off + src.length → content t.data (F' i) o = src.getD (o - off) 0
  outside : ∀ j o, (F j).type ≠ .free → o < (F j).size →
    (j = i → o < off ∨ off + src.length ≤ o) → content t.data (F' j) o = content s.data (F j) o

section Writei

variable {off : ℕ} {src : List UInt8}

section

variable (run : Rewrote cfg F F' i k off src s t)
include run

theorem Rewrote.outside_size (inv : FsInv cfg F D s) {j o : ℕ} (live : (F j).type ≠ .free)
    (below : o < (F j).size) (apart : j = i → o < off ∨ off + src.length ≤ o) :
    content t.data (F' j) o = content s.data (F j) o := by
  obtain ⟨small, has⟩ := inv.layout.hasBlock live below
  exact run.outside j o live small has apart

/-- Without growth the addresses of the inode are those on disk. -/
theorem Rewrote.wrote (inv : FsInv cfg F D s) (held : Held s k i)
    (within : off + src.length ≤ (F i).size) : Wrote cfg F F' D i k off src s t := by
  have live := (inv.cached.held held).2
  have same : F' = F := run.same fun o _ below => (inv.layout.hasBlock live (by omega)).2
  have cache : t.icache = s.icache := by
    rw [run.cache, same, ← (inv.cached.held held).1, update_eq_self]
  refine ⟨⟨⟨cache ▸ inv.cached.nonneg, cache ▸ inv.cached.inside, cache ▸ inv.cached.bound,
    cache ▸ inv.cached.unique, ?_, ?_⟩, run.layout⟩, fun grown => absurd within (by omega),
    run.others, ?_, run.cache, run.outstanding, run.present live, run.covered, run.inside,
    fun j o => run.outside_size inv⟩
  · rw [cache, same]
    exact inv.cached.shows
  · rw [run.disk, same]
    exact inv.cached.synced
  · rw [max_eq_left within, same]

/-- With the new size every block below it is allocated. -/
theorem Rewrote.layout_grown (inv : FsInv cfg F D s) (held : Held s k i) (start : off ≤ (F i).size)
    (fits : off + src.length ≤ MAXFILE * BSIZE) :
    Layout cfg (update F' i { F' i with size := off + src.length }) ∅ t.bitmap t.data := by
  have live := (inv.cached.held held).2
  refine run.layout.setInode (by simp) rfl (fun _ n below => ?_) fun _ => fits
  obtain lt | ge := Nat.lt_or_ge (n * BSIZE) (F i).size
  · exact run.present live (inv.layout.full live lt)
  · have covered := run.covered (n * BSIZE) (start.trans ge) below
    rwa [Nat.mul_div_cancel n (by decide)] at covered

end

/-- **`writei` writes the bytes that it is given**, or leaves the state. -/
theorem writei_spec (inv : FsInv cfg F D s) (held : Held s k i) (src : List UInt8) (off : ℕ) :
    wp Benign (writei cfg k src off) (fun r t =>
      (t = s ∧ ((F i).type = .dev ∨ r = -1)) ∨
      ((F i).type ≠ .dev ∧ off ≤ (F i).size ∧ r = src.length ∧
        ∃ F', Wrote cfg F F' D i k off src s t)) s := by
  simp only [writei, inode, wp_bind, wp_gets, (inv.cached.held held).1, wp_ite]
  refine ⟨fun dev => ?_, fun notDev => ⟨fun bad => .inl ⟨rfl, .inr rfl⟩, fun good =>
    ⟨fun bad => .inl ⟨rfl, .inr rfl⟩, fun fits => ?_⟩⟩⟩
  · split
    · exact .inl ⟨rfl, .inl dev⟩
    · exact .inl ⟨rfl, .inl dev⟩
  · apply (writeLoop_spec src.length off src inv held le_rfl (by omega)).mono
    rintro last t ⟨rfl, F', run⟩
    have inv' := run.fsInv inv held
    have held' := run.held held
    have shown := (inv'.cached.held held').1
    rw [wp_read, wp_bind, wp_when, shown, run.size_eq i]
    constructor
    · rintro ⟨-, grown⟩
      simp only [modifyDinode, modifyInode, wp_bind, wp_update, shown]
      let d : Dinode := { F' i with size := off + src.length }
      have sized := inv'.cached.setHeld held' (d := d) (inv'.cached.held held').2
      have entry : Held { t with icache := update t.icache k { t.icache k with d := d } }
          k i := by
        refine ⟨?_, ?_, ?_⟩ <;> simp [held'.ref, held'.valid, held'.inum]
      have bytes : ∀ j o, content t.data (update F' i d j) o = content t.data (F' j) o := by
        intro j o
        refine content_congr _ ?_ o
        obtain rfl | other := eq_or_ne j i
        · rw [update_self]
        · rw [update_of_ne other]
      apply (iupdate_spec sized entry).mono
      rintro _ u ⟨lh, same, cached⟩
      rw [Set.insert_idem, Set.insert_sdiff_of_mem _ (Set.mem_singleton i)] at cached
      have places : ∀ p, place t.data (update F' i d i) p = place t.data (F' i) p := by
        rw [update_self]
        exact fun p => place_congr (fun _ _ => rfl) (.inr rfl) p
      refine .inr ⟨notDev, by omega, rfl, _, ⟨cached.mono Set.sdiff_subset, ?_⟩, fun _ => cached,
        fun j other => ?_, ?_, ?_, ?_, fun {p} some => ?_, fun o above below => ?_,
        fun o above below => ?_, fun j o liveJ below apart => ?_⟩
      · rw [same]
        exact run.layout_grown inv held (by omega) (by omega)
      · rw [update_of_ne other, run.others j other]
      · have fields := run.fields
        rw [update_self, max_eq_right grown.le]
        simp only [d]
        rw [fields]
      · rw [same, run.cache]
        simp
      · rw [same]
        exact run.outstanding
      · rw [same, places]
        exact run.present (inv.cached.held held).2 some
      · rw [same, HasBlock, places]
        exact run.covered o above below
      · rw [same, bytes]
        exact run.inside o above below
      · rw [same, bytes]
        exact run.outside_size inv liveJ below apart
    · intro notGrown
      refine .inr ⟨notDev, by omega, rfl, F', run.wrote inv held ?_⟩
      by_cases positive : 0 < src.length
      · by_contra large
        exact notGrown ⟨positive, by omega⟩
      · omega

end Writei

end Xv6Uac
