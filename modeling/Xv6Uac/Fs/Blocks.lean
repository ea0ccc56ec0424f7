import Xv6Uac.Fs.Cache

/-!
# Allocating the blocks of an inode

Specifications of `balloc`, `bfree` and `bmap`. `bmap` returns the block of the
contents that it is asked for. If it has to allocate one, or an indirect block, the
inode gets new addresses, no block that was at a place moves or changes its
contents (`Extends`), and the layout stays intact (`bmap_spec`).
-/

namespace Xv6Uac

open Words
open Hoare hiding update
open Function (update update_eq_self update_idem update_of_ne update_self)

variable {cfg : Config} {F F' : ℕ → Dinode} {D R : Set ℕ} {s t : Kernel}

/-! ## Blocks -/

theorem bread_spec {E : Stop → Prop} {b : ℕ} (inside : cfg.DataBlock b) :
    wp E (bread cfg b) (fun a t => t = s ∧ a = s.data b) s := by
  rw [bread, if_pos inside]
  exact ⟨rfl, rfl⟩

theorem bwrite_spec {b : ℕ} (inside : cfg.DataBlock b) (f : Bytes → Bytes) :
    wp Benign (bwrite cfg b f) (fun _ t =>
      ∃ lh, t = { s with data := update s.data b (f (s.data b)), lh := lh }) s := by
  rw [bwrite, if_pos inside]
  exact (logWrite_spec b).mono fun _ t ⟨lh, same⟩ => ⟨lh, same⟩

/-- `balloc` takes a free block and zeroes it. -/
theorem balloc_spec (layout : Layout cfg F R s.bitmap s.data) :
    wp Benign (balloc cfg) (fun b t => b < cfg.sb.size ∧ s.bitmap b = false ∧ ∃ lh,
      t = { s with
        bitmap := update s.bitmap b true
        data := update s.data b (fun _ => 0)
        lh := lh }) s := by
  simp only [balloc, wp_bind, wp_gets]
  split
  · simp [panic, Benign]
  · rename_i b found
    have unused : s.bitmap b = false := by simpa using List.find?_some found
    have small : b < cfg.sb.size := List.mem_range.mp (List.mem_of_find?_eq_some found)
    have inside : cfg.DataBlock b :=
      ⟨Nat.le_of_not_lt (layout.owned.not_reserved small unused).1, small⟩
    rw [wp_bind]
    apply (logWrite_spec _).seq
    rintro _ t ⟨lh, rfl⟩
    refine (bwrite_spec inside _).seq fun _ u ⟨lh', same⟩ => ?_
    exact ⟨small, unused, lh', same⟩

/-- `bfree` of a reserved block does not panic. -/
theorem bfree_spec (layout : Layout cfg F R s.bitmap s.data) {b : ℕ} (mine : b ∈ R) :
    wp Benign (bfree cfg b) (fun _ t =>
      ∃ lh, t = { s with bitmap := update s.bitmap b false, lh := lh }) s := by
  have used := layout.owned.used_of_reserved mine
  simp only [bfree, wp_bind, wp_gets, used]
  exact logWrite_spec _

/-! ## New addresses -/

/-- The inode has a block for the `n`-th block of its contents. -/
def HasBlock (data : ℕ → Bytes) (d : Dinode) (n : ℕ) : Prop := place data d (slotOf n) ≠ 0

/-- From `s` to `t` the inode `i` in entry `k` may have gained addresses. -/
structure Grows (cfg : Config) (F F' : ℕ → Dinode) (i k : ℕ) (s t : Kernel) : Prop where
  others : ∀ j, j ≠ i → F' j = F j
  fields : F' i = { F i with addrs := (F' i).addrs }
  cache : t.icache = update s.icache k { s.icache k with d := F' i }
  disk : t.dinode = s.dinode
  outstanding : t.outstanding = s.outstanding
  layout : Layout cfg F' ∅ t.bitmap t.data

namespace Grows

variable {i k : ℕ}

theorem refl (inv : FsInv cfg F D s) (held : Held s k i) : Grows cfg F F i k s s where
  others _ _ := rfl
  fields := rfl
  cache := by rw [← (inv.cached.held held).1, update_eq_self]
  disk := rfl
  outstanding := rfl
  layout := inv.layout

theorem type_eq (grows : Grows cfg F F' i k s t) (j : ℕ) : (F' j).type = (F j).type := by
  obtain rfl | other := eq_or_ne j i
  · rw [grows.fields]
  · rw [grows.others j other]

theorem size_eq (grows : Grows cfg F F' i k s t) (j : ℕ) : (F' j).size = (F j).size := by
  obtain rfl | other := eq_or_ne j i
  · rw [grows.fields]
  · rw [grows.others j other]

theorem trans {F'' : ℕ → Dinode} {u : Kernel} (first : Grows cfg F F' i k s t)
    (second : Grows cfg F' F'' i k t u) : Grows cfg F F'' i k s u where
  others j other := (second.others j other).trans (first.others j other)
  fields := by
    rw [second.fields, first.fields]
  cache := by
    rw [second.cache, first.cache, update_idem, update_self]
  disk := second.disk.trans first.disk
  outstanding := second.outstanding.trans first.outstanding
  layout := second.layout

/-- The inodes after the change are shown by the cache, and the disk still has to
get the new addresses. -/
theorem fsInv (grows : Grows cfg F F' i k s t) (inv : FsInv cfg F D s) (held : Held s k i) :
    FsInv cfg F' (insert i D) t := by
  have live : (F' i).type ≠ .free := grows.type_eq i ▸ (inv.cached.held held).2
  have changed := inv.cached.setHeld held live
  have inodes : update F i (F' i) = F' := by
    funext j
    obtain rfl | other := eq_or_ne j i
    · rw [update_self]
    · rw [update_of_ne other, grows.others j other]
  rw [inodes] at changed
  exact ⟨⟨grows.cache ▸ changed.nonneg, grows.cache ▸ changed.inside, grows.cache ▸ changed.bound,
    grows.cache ▸ changed.unique, grows.cache ▸ changed.shows, grows.disk ▸ changed.synced⟩,
    grows.layout⟩

theorem held (grows : Grows cfg F F' i k s t) (held : Held s k i) : Held t k i := by
  refine ⟨?_, ?_, ?_⟩
  · rw [grows.cache, update_self]
    exact held.ref
  · rw [grows.cache, update_self]
    exact held.valid
  · rw [grows.cache, update_self]
    exact held.inum

end Grows

/-- The inode may have gained addresses, and nothing that was at a place has
changed. -/
structure Extends (cfg : Config) (F F' : ℕ → Dinode) (i k : ℕ) (s t : Kernel) : Prop
    extends Grows cfg F F' i k s t where
  places : ∀ {j p : ℕ}, (F j).type ≠ .free → place s.data (F j) p ≠ 0 →
    place t.data (F' j) p = place s.data (F j) p
  blocks : ∀ {j n : ℕ}, (F j).type ≠ .free → n < MAXFILE → HasBlock s.data (F j) n →
    t.data (place s.data (F j) (slotOf n)) = s.data (place s.data (F j) (slotOf n))
  apart : ∀ {j : ℕ}, j ≠ i → (F j).type ≠ .free → ∀ p,
    place t.data (F' j) p = place s.data (F j) p

namespace Extends

variable {i k : ℕ}

theorem refl (inv : FsInv cfg F D s) (held : Held s k i) : Extends cfg F F i k s s :=
  ⟨.refl inv held, fun _ _ => rfl, fun _ _ _ => rfl, fun _ _ _ => rfl⟩

theorem trans {F'' : ℕ → Dinode} {u : Kernel} (first : Extends cfg F F' i k s t)
    (second : Extends cfg F' F'' i k t u) : Extends cfg F F'' i k s u := by
  refine ⟨first.toGrows.trans second.toGrows, fun {j p} live some => ?_,
    fun {j n} live small has => ?_, fun {j} other live p => ?_⟩
  · have kept := first.places live some
    have live' : (F' j).type ≠ .free := first.type_eq j ▸ live
    exact (second.places live' (kept ▸ some)).trans kept
  · have kept := first.places live has
    have live' : (F' j).type ≠ .free := first.type_eq j ▸ live
    have has' : HasBlock t.data (F' j) n := by rw [HasBlock, kept]; exact has
    have same := second.blocks live' small has'
    rw [kept] at same
    exact same.trans (first.blocks live small has)
  · exact (second.apart other (first.type_eq j ▸ live) p).trans (first.apart other live p)

end Extends

/-- The places of an inode with a new direct address or a new, zeroed indirect
block. -/
theorem place_setAddr {data : ℕ → Bytes} {d : Dinode} {p q b : ℕ}
    (empty : d.addrs p = 0) (some : place data d q ≠ 0)
    (indirect : d.addrs NDIRECT = 0 ∨ d.addrs NDIRECT ≠ b) :
    place (update data b (fun _ => 0))
      { d with addrs := update d.addrs p b } q = place data d q := by
  simp only [place] at some ⊢
  split
  · rename_i le
    rw [if_pos le] at some
    have other : q ≠ p := fun same => some (same ▸ empty)
    rw [update_of_ne other]
  · rename_i gt
    rw [if_neg gt] at some
    have nonzero : d.addrs NDIRECT ≠ 0 := fun zero => some (if_pos zero)
    have other : NDIRECT ≠ p := fun same => nonzero (same ▸ empty)
    rw [update_of_ne other, if_neg nonzero, if_neg nonzero,
      update_of_ne (indirect.resolve_left nonzero)]

/-- **A new direct address, or a new indirect block.** -/
theorem Extends.claimAddr (inv : FsInv cfg F D s) {i k b p : ℕ} (held : Held s k i)
    (direct : p ≤ NDIRECT) (empty : (F i).addrs p = 0) (small : b < cfg.sb.size)
    (unused : s.bitmap b = false) (lh : List ℕ) :
    Extends cfg F
      (update F i { F i with addrs := update (F i).addrs p b }) i k s
      { s with
        bitmap := update s.bitmap b true
        data := update s.data b (fun _ => 0)
        lh := lh
        icache := update s.icache k { s.icache k with
          d := { F i with addrs := update (F i).addrs p b } } } := by
  have live := (inv.cached.held held).2
  have notHeld := inv.layout.owned.not_held small unused
  refine ⟨⟨fun j other => update_of_ne other _ F, by simp, ?_, rfl, rfl, ?_⟩,
    fun {j q} liveJ some => ?_, fun {j n} liveJ small' has => ?_, fun {j} other liveJ q => ?_⟩
  · rw [update_self]
  · have claimed := inv.layout.claim small unused (fun _ => 0)
    have mine : b ∈ insert b (∅ : Set ℕ) := Set.mem_insert b ∅
    have none : (insert b ∅ : Set ℕ) \ {b} = ∅ := by simp
    rw [← none]
    exact claimed.fillAddr live direct empty mine (by simp)
  · obtain rfl | other := eq_or_ne j i
    · rw [update_self]
      exact place_setAddr empty some (Layout.indirect_ne live notHeld)
    · rw [update_of_ne other]
      exact Layout.place_update notHeld liveJ q
  · dsimp only
    rw [update_of_ne]
    intro same
    exact notHeld (j, slotOf n) (holder_eq_some.mpr ⟨liveJ, slotOf_lt small', same, same ▸ has⟩)
  · rw [update_of_ne other]
    exact Layout.place_update notHeld liveJ q

/-- **A new entry of the indirect block.** -/
theorem Extends.claimEntry (inv : FsInv cfg F D s) {i k b n : ℕ} (held : Held s k i)
    (entry : n < NINDIRECT) (indirect : (F i).addrs NDIRECT ≠ 0)
    (empty : place s.data (F i) (NDIRECT + 1 + n) = 0) (small : b < cfg.sb.size)
    (unused : s.bitmap b = false) (lh : List ℕ) :
    Extends cfg F F i k s
      { s with
        bitmap := update s.bitmap b true
        data := update (update s.data b (fun _ => 0)) ((F i).addrs NDIRECT)
          (putWord 4 (s.data ((F i).addrs NDIRECT)) (4 * n) b)
        lh := lh } := by
  have live := (inv.cached.held held).2
  have notHeld := inv.layout.owned.not_held small unused
  have apart : (F i).addrs NDIRECT ≠ b := (Layout.indirect_ne live notHeld).resolve_left indirect
  have claimed := inv.layout.claim small unused (fun _ => 0)
  have empty' : place (update s.data b fun _ => 0) (F i) (NDIRECT + 1 + n) = 0 :=
    (Layout.place_update notHeld live _).trans empty
  have none : (insert b ∅ : Set ℕ) \ {b} = ∅ := by simp
  have filled := claimed.fillEntry live entry indirect empty' (Set.mem_insert b ∅)
  rw [none, update_of_ne apart] at filled
  have kept : ∀ {j q : ℕ}, (F j).type ≠ .free → (j, q) ≠ (i, NDIRECT + 1 + n) →
      place (update (update s.data b (fun _ => 0)) ((F i).addrs NDIRECT)
        (putWord 4 (s.data ((F i).addrs NDIRECT)) (4 * n) b)) (F j) q = place s.data (F j) q := by
    intro j q liveJ other
    have kept := claimed.place_setEntry live indirect b liveJ other
    rw [update_of_ne apart] at kept
    exact kept.trans (Layout.place_update notHeld liveJ q)
  refine ⟨⟨fun _ _ => rfl, rfl, ?_, rfl, rfl, filled⟩, fun {j q} liveJ some => kept liveJ ?_,
    fun {j m} liveJ small' has => ?_, fun {j} other liveJ q => kept liveJ ?_⟩
  · rw [← (inv.cached.held held).1, update_eq_self]
  · rintro ⟨⟩
    exact some empty
  · dsimp only
    have first : place s.data (F j) (slotOf m) ≠ (F i).addrs NDIRECT := fun same =>
      (inv.layout.indirect_ne_slot liveJ live small' has).resolve_left indirect same.symm
    have second : place s.data (F j) (slotOf m) ≠ b := fun same =>
      notHeld (j, slotOf m) (holder_eq_some.mpr ⟨liveJ, slotOf_lt small', same, same ▸ has⟩)
    rw [update_of_ne first, update_of_ne second]
  · rintro ⟨⟩
    exact other rfl

/-! ## The blocks of the contents -/

section Bmap

variable {i k : ℕ}

variable (inv : FsInv cfg F D s)
include inv

/-- The first step of `bmap` for an indirect block: there is one afterwards. -/
theorem bmapIndirect_spec (held : Held s k i) :
    wp Benign (when ((s.icache k).d.addrs NDIRECT = 0) do
        let addr ← balloc cfg
        modifyDinode k fun d => { d with addrs := update d.addrs NDIRECT addr })
      (fun _ t => ∃ F', Extends cfg F F' i k s t ∧ (F' i).addrs NDIRECT ≠ 0 ∧
        ((F i).addrs NDIRECT ≠ 0 → F' = F ∧ t = s)) s := by
  rw [wp_when, (inv.cached.held held).1]
  constructor
  · intro empty
    apply (balloc_spec inv.layout).seq
    rintro b t ⟨small, unused, lh, rfl⟩
    simp only [modifyDinode, modifyInode, wp_update]
    rw [(inv.cached.held held).1]
    have ext := Extends.claimAddr inv held le_rfl empty small unused lh
    refine ⟨_, ext, ?_, fun nonempty => absurd empty nonempty⟩
    have mine := (inv.layout.claim small unused (fun _ => 0)).reserved (Set.mem_insert b ∅)
    simpa using mine.2
  · intro nonempty
    exact ⟨F, .refl inv held, nonempty, fun _ => ⟨rfl, rfl⟩⟩

/-- The second step of `bmap` for an indirect block: there is an entry
afterwards. -/
theorem bmapEntry_spec (held : Held s k i) {n : ℕ} (small : n < NINDIRECT)
    (indirect : (F i).addrs NDIRECT ≠ 0) :
    wp Benign (do
        let ip ← inode k
        let a ← bread cfg (ip.d.addrs NDIRECT)
        if word 4 a (4 * n) = 0 then do
          let addr ← balloc cfg
          bwrite cfg (ip.d.addrs NDIRECT) fun a => putWord 4 a (4 * n) addr
          pure addr
        else
          pure (word 4 a (4 * n)))
      (fun b t => ∃ F', Extends cfg F F' i k s t ∧
        place t.data (F' i) (NDIRECT + 1 + n) = b ∧ b ≠ 0 ∧
        (place s.data (F i) (NDIRECT + 1 + n) ≠ 0 → F' = F ∧ t = s)) s := by
  have live := (inv.cached.held held).2
  have inside := inv.layout.indirectBlock live indirect
  simp only [inode, wp_bind, wp_gets, (inv.cached.held held).1]
  apply (bread_spec inside).mono
  rintro a t ⟨same, block⟩
  subst same block
  rw [← place_entry _ indirect]
  apply wp.ite
  · intro empty
    apply (balloc_spec inv.layout).seq
    rintro b t ⟨free, unused, lh, rfl⟩
    have apart : (F i).addrs NDIRECT ≠ b :=
      (Layout.indirect_ne live (inv.layout.owned.not_held free unused)).resolve_left indirect
    apply (bwrite_spec inside _).seq
    rintro _ t ⟨lh', same⟩
    simp only [update_of_ne apart] at same
    have ext := Extends.claimEntry inv held small indirect empty free unused lh'
    have mine := (inv.layout.claim free unused (fun _ => 0)).reserved (Set.mem_insert b ∅)
    refine ⟨F, same ▸ ext, ?_, mine.2, fun nonempty => absurd empty nonempty⟩
    rw [same, place_entry _ indirect]
    simp only [update_self]
    exact word_putWord (mine.1.2.trans cfg.sb.size_lt)
  · intro nonempty
    exact ⟨F, .refl inv held, rfl, nonempty, fun _ => ⟨rfl, rfl⟩⟩

/-- `bmap` does not fail and leaves the state if there is a block. -/
theorem bmap_present {E : Stop → Prop} (held : Held s k i) {n : ℕ} (small : n < MAXFILE)
    (has : HasBlock s.data (F i) n) :
    wp E (bmap cfg k n) (fun b t => t = s ∧ b = place s.data (F i) (slotOf n)) s := by
  obtain ⟨shown, live⟩ := inv.cached.held held
  simp only [bmap, inode, wp_bind, wp_gets, shown]
  by_cases direct : n < NDIRECT
  · have slot : slotOf n = n := if_pos direct
    rw [HasBlock, slot, place_of_le _ _ direct.le] at has
    rw [if_pos direct, slot, place_of_le _ _ direct.le, if_neg has]
    exact ⟨rfl, rfl⟩
  · have entry : n - NDIRECT < NINDIRECT := by simp only [MAXFILE] at small; omega
    have slot : slotOf n = NDIRECT + 1 + (n - NDIRECT) := by
      rw [slotOf, if_neg direct]
      omega
    have indirect : (F i).addrs NDIRECT ≠ 0 := by
      intro zero
      rw [HasBlock, place, if_neg (by omega), if_pos zero] at has
      exact has rfl
    have inside := inv.layout.indirectBlock live indirect
    have word := place_entry s.data indirect (n - NDIRECT)
    rw [← slot] at word
    rw [HasBlock, word] at has
    rw [if_neg direct, if_pos entry, wp_bind, wp_when, shown]
    refine ⟨fun zero => absurd zero indirect, fun _ => ?_⟩
    rw [wp_read, shown]
    apply (bread_spec inside).seq
    rintro a t ⟨same, block⟩
    rw [block, if_neg has, word]
    exact ⟨same, rfl⟩

/-- **`bmap` returns the block of the contents**, and leaves the state if there was
one. -/
theorem bmap_spec (held : Held s k i) {n : ℕ} (small : n < MAXFILE) :
    wp Benign (bmap cfg k n) (fun b t => ∃ F', Extends cfg F F' i k s t ∧
      place t.data (F' i) (slotOf n) = b ∧ b ≠ 0 ∧
      (HasBlock s.data (F i) n → F' = F ∧ t = s)) s := by
  simp only [bmap, inode, wp_bind, wp_gets, (inv.cached.held held).1]
  by_cases direct : n < NDIRECT
  · have slot : slotOf n = n := if_pos direct
    rw [if_pos direct, HasBlock, slot, place_of_le _ _ direct.le]
    apply wp.ite
    · intro empty
      apply (balloc_spec inv.layout).seq
      rintro b t ⟨free, unused, lh, rfl⟩
      simp only [modifyDinode, modifyInode, wp_bind, wp_update]
      rw [(inv.cached.held held).1]
      have mine := (inv.layout.claim free unused (fun _ => 0)).reserved (Set.mem_insert b ∅)
      refine ⟨_, Extends.claimAddr inv held direct.le empty free unused lh, ?_, mine.2,
        fun nonempty => absurd empty nonempty⟩
      rw [place_of_le _ _ direct.le]
      simp
    · intro nonempty
      exact ⟨F, .refl inv held, place_of_le _ _ direct.le, nonempty, fun _ => ⟨rfl, rfl⟩⟩
  · have entry : n - NDIRECT < NINDIRECT := by simp only [MAXFILE] at small; omega
    have slot : slotOf n = NDIRECT + 1 + (n - NDIRECT) := by
      rw [slotOf, if_neg direct]
      omega
    rw [if_neg direct, if_pos entry, HasBlock, slot]
    apply (bmapIndirect_spec inv held).seq
    rintro _ t ⟨F₁, first, indirect, same⟩
    apply (bmapEntry_spec (first.fsInv inv held) (first.held held) entry indirect).mono
    rintro b u ⟨F₂, second, placed, nonzero, same'⟩
    refine ⟨F₂, first.trans second, placed, nonzero, fun has => ?_⟩
    -- an entry at the place means that there was an indirect block
    have before : (F i).addrs NDIRECT ≠ 0 := by
      intro zero
      rw [place, if_neg (by omega), if_pos zero] at has
      exact has rfl
    obtain ⟨rfl, rfl⟩ := same before
    exact same' has

end Bmap

end Xv6Uac
