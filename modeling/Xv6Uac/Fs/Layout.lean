import Xv6Uac.Kernel.Fs
import Xv6Uac.Lib.Ownership

/-!
# Which inode owns which block

An inode has a place for each direct address, one for the address of its indirect
block and one for each entry of that block (`place`). `Layout` says that no block
is at two places of allocated inodes, that the bits of the free map are those of
the metadata blocks, of the blocks at a place and of the blocks that are reserved
by a call in progress, and that a file has a block for every byte below its size.

The lemmas follow the updates that `fs.c` makes: a block is taken from the free map
(`Layout.claim`) and put into a place (`Layout.fill`), the blocks of an inode are
reserved (`Layout.detach`) and freed (`Layout.release`), an inode is allocated
(`Layout.alloc`), and the contents of a block change (`Layout.write`).
-/

namespace Xv6Uac

open Words Ownership
open Function (update_of_ne update_self)

/-! ## Places -/

/-- Places of an inode for block numbers. -/
abbrev NPLACE : ℕ := NDIRECT + 1 + NINDIRECT

/-- The block number at a place of an inode, 0 if there is none. -/
def place (data : ℕ → Bytes) (d : Dinode) (p : ℕ) : ℕ :=
  if p ≤ NDIRECT then d.addrs p
  else if d.addrs NDIRECT = 0 then 0
  else word 4 (data (d.addrs NDIRECT)) (4 * (p - (NDIRECT + 1)))

/-- The place of the `n`-th block of the contents. The address of the indirect
block comes between the direct addresses and the entries. -/
def slotOf (n : ℕ) : ℕ := if n < NDIRECT then n else n + 1

/-- The block that a place of an allocated inode holds. -/
def holder (F : ℕ → Dinode) (data : ℕ → Bytes) (x : ℕ × ℕ) : Option ℕ :=
  if (F x.1).type ≠ .free ∧ x.2 < NPLACE ∧ place data (F x.1) x.2 ≠ 0 then
    some (place data (F x.1) x.2)
  else none

/-- The blocks of an inode. -/
def blocksOf (data : ℕ → Bytes) (d : Dinode) : Set ℕ :=
  {b | b ≠ 0 ∧ ∃ p < NPLACE, place data d p = b}

theorem slotOf_lt {n : ℕ} (small : n < MAXFILE) : slotOf n < NPLACE := by
  simp only [slotOf, NPLACE, MAXFILE] at small ⊢
  split <;> omega

theorem slotOf_ne (n : ℕ) : slotOf n ≠ NDIRECT := by
  simp only [slotOf]
  split <;> omega

theorem slotOf_injective {n m : ℕ} (same : slotOf n = slotOf m) : n = m := by
  simp only [slotOf] at same
  split at same <;> split at same <;> omega

theorem place_of_le (data : ℕ → Bytes) (d : Dinode) {p : ℕ} (direct : p ≤ NDIRECT) :
    place data d p = d.addrs p := if_pos direct

theorem place_entry (data : ℕ → Bytes) {d : Dinode} (indirect : d.addrs NDIRECT ≠ 0) (n : ℕ) :
    place data d (NDIRECT + 1 + n) = word 4 (data (d.addrs NDIRECT)) (4 * n) := by
  rw [place, if_neg (by omega), if_neg indirect, Nat.add_sub_cancel_left]

/-- The places of an inode depend on its addresses and on its indirect block. -/
theorem place_congr {data data' : ℕ → Bytes} {d d' : Dinode}
    (addrs : ∀ p ≤ NDIRECT, d'.addrs p = d.addrs p)
    (indirect : d.addrs NDIRECT = 0 ∨ data' (d.addrs NDIRECT) = data (d.addrs NDIRECT)) (p : ℕ) :
    place data' d' p = place data d p := by
  simp only [place, addrs NDIRECT le_rfl]
  split
  · exact addrs p ‹_›
  · split
    · rfl
    · rw [indirect.resolve_left ‹_›]

section Holder

variable {F : ℕ → Dinode} {data : ℕ → Bytes}

theorem holder_eq_some {i p b : ℕ} :
    holder F data (i, p) = some b ↔
      (F i).type ≠ .free ∧ p < NPLACE ∧ place data (F i) p = b ∧ b ≠ 0 := by
  simp only [holder]
  constructor
  · intro has
    split at has
    · rename_i cond
      cases has
      exact ⟨cond.1, cond.2.1, rfl, cond.2.2⟩
    · cases has
  · rintro ⟨live, small, rfl, some⟩
    rw [if_pos ⟨live, small, some⟩]

theorem holder_of_free {i : ℕ} (free : (F i).type = .free) (p : ℕ) : holder F data (i, p) = none :=
  if_neg fun cond => cond.1 free

/-- The block that a place holds is determined by the type and the number there. -/
theorem holder_congr {F' : ℕ → Dinode} {data' : ℕ → Bytes} {i p : ℕ}
    (type : (F' i).type = (F i).type) (same : place data' (F' i) p = place data (F i) p) :
    holder F' data' (i, p) = holder F data (i, p) := by
  simp only [holder, type, same]

end Holder

/-! ## The layout -/

/-- The owners of blocks for the inodes `F`, with the blocks in `R` reserved. -/
structure Layout (cfg : Config) (F : ℕ → Dinode) (R : Set ℕ) (bitmap : ℕ → Bool)
    (data : ℕ → Bytes) : Prop where
  owned : Owned {b | b < cfg.sb.size} {b | b < cfg.sb.nmeta} bitmap R (holder F data)
  full : ∀ {i n : ℕ}, (F i).type ≠ .free → n * BSIZE < (F i).size →
    place data (F i) (slotOf n) ≠ 0
  size_le : ∀ {i : ℕ}, (F i).type ≠ .free → (F i).size ≤ MAXFILE * BSIZE
  inode_lt : ∀ {i : ℕ}, (F i).type ≠ .free → i < cfg.sb.ninodes

namespace Layout

variable {cfg : Config} {F : ℕ → Dinode} {R : Set ℕ} {bitmap : ℕ → Bool} {data : ℕ → Bytes}

section

variable (layout : Layout cfg F R bitmap data)
include layout

/-- A block at a place is a data block. -/
theorem dataBlock {i p : ℕ} (live : (F i).type ≠ .free) (small : p < NPLACE)
    (some : place data (F i) p ≠ 0) : cfg.DataBlock (place data (F i) p) := by
  obtain ⟨inside, notMeta, -⟩ := layout.owned.held (holder_eq_some.mpr ⟨live, small, rfl, some⟩)
  exact ⟨Nat.le_of_not_lt notMeta, inside⟩

theorem indirectBlock {i : ℕ} (live : (F i).type ≠ .free) (indirect : (F i).addrs NDIRECT ≠ 0) :
    cfg.DataBlock ((F i).addrs NDIRECT) := by
  have placed := place_of_le data (F i) le_rfl
  rw [← placed] at indirect ⊢
  exact layout.dataBlock live (by decide) indirect

/-- A block is at one place only. -/
theorem unique {i j p q : ℕ} (live : (F i).type ≠ .free) (live' : (F j).type ≠ .free)
    (small : p < NPLACE) (small' : q < NPLACE) (some : place data (F i) p ≠ 0)
    (same : place data (F i) p = place data (F j) q) : i = j ∧ p = q := by
  have first := holder_eq_some.mpr ⟨live, small, rfl, some⟩
  have second : holder F data (j, q) = Option.some (place data (F i) p) :=
    holder_eq_some.mpr ⟨live', small', same.symm, some⟩
  have eq := layout.owned.unique first second
  exact ⟨congrArg Prod.fst eq, congrArg Prod.snd eq⟩

/-- Reserved blocks are data blocks, so none of them is block 0. -/
theorem reserved {b : ℕ} (mine : b ∈ R) : cfg.DataBlock b ∧ b ≠ 0 := by
  obtain ⟨inside, notMeta⟩ := layout.owned.kept mine
  have above : cfg.sb.nmeta ≤ b := Nat.le_of_not_lt notMeta
  refine ⟨⟨above, inside⟩, ?_⟩
  rintro rfl
  simp [Superblock.nmeta] at above

end

/-- The indirect block of an allocated inode is not a block outside the places. -/
theorem indirect_ne {i b : ℕ} (live : (F i).type ≠ .free)
    (notHeld : ∀ x, holder F data x ≠ Option.some b) :
    (F i).addrs NDIRECT = 0 ∨ (F i).addrs NDIRECT ≠ b := by
  by_cases zero : (F i).addrs NDIRECT = 0
  · exact .inl zero
  · refine .inr fun same => notHeld (i, NDIRECT) (holder_eq_some.mpr ?_)
    exact ⟨live, by decide, (place_of_le data (F i) le_rfl).trans same, same ▸ zero⟩

/-- The contents of a block that is at no place do not matter. -/
theorem place_update {b : ℕ} {block : Bytes}
    (notHeld : ∀ x, holder F data x ≠ Option.some b) {i : ℕ} (live : (F i).type ≠ .free) (p : ℕ) :
    place (Function.update data b block) (F i) p = place data (F i) p := by
  refine place_congr (fun _ _ => rfl) ?_ p
  obtain zero | other := indirect_ne live notHeld
  · exact .inl zero
  · exact .inr (update_of_ne other block data)

section

variable (layout : Layout cfg F R bitmap data)
include layout

/-- The places may be read from other data that shows the same places. -/
theorem of_places {data' : ℕ → Bytes}
    (same : ∀ {i : ℕ}, (F i).type ≠ .free → ∀ p, place data' (F i) p = place data (F i) p) :
    Layout cfg F R bitmap data' where
  owned := by
    have eq : holder F data' = holder F data := by
      funext x
      by_cases live : (F x.1).type = .free
      · rw [holder_of_free live x.2, holder_of_free live x.2]
      · exact holder_congr rfl (same live x.2)
    rw [eq]
    exact layout.owned
  full live below := by
    rw [same live]
    exact layout.full live below
  size_le := layout.size_le
  inode_lt := layout.inode_lt

variable {b i j : ℕ} {d : Dinode} {n : ℕ}

/-- **Taking a block from the free map.** -/
theorem claim (inside : b < cfg.sb.size) (unused : bitmap b = false) (block : Bytes) :
    Layout cfg F (insert b R) (Function.update bitmap b true) (Function.update data b block) := by
  have claimed : Layout cfg F (insert b R) (Function.update bitmap b true) data :=
    ⟨layout.owned.claim inside unused, layout.full, layout.size_le, layout.inode_lt⟩
  exact claimed.of_places fun live p =>
    place_update (layout.owned.not_held inside unused) live p

/-- **Freeing a reserved block.** -/
theorem release (mine : b ∈ R) : Layout cfg F (R \ {b}) (Function.update bitmap b false) data :=
  ⟨layout.owned.release mine, layout.full, layout.size_le, layout.inode_lt⟩

/-- **Putting a reserved block into an empty place.** -/
theorem fill {p : ℕ} {F' : ℕ → Dinode} {data' : ℕ → Bytes} (live : (F i).type ≠ .free)
    (small : p < NPLACE) (empty : place data (F i) p = 0) (mine : b ∈ R)
    (types : ∀ j, (F' j).type = (F j).type) (sizes : ∀ j, (F' j).size = (F j).size)
    (filled : place data' (F' i) p = b)
    (others : ∀ j q, (F j).type ≠ .free → q < NPLACE → (j, q) ≠ (i, p) →
      place data' (F' j) q = place data (F j) q) : Layout cfg F' (R \ {b}) bitmap data' := by
  have nonzero := (layout.reserved mine).2
  have live' : (F' i).type ≠ .free := types i ▸ live
  refine ⟨layout.owned.fill (i := (i, p)) ?_ mine ?_ ?_, ?_, ?_, ?_⟩
  · rw [holder, if_neg]
    exact fun cond => cond.2.2 empty
  · exact holder_eq_some.mpr ⟨live', small, filled, nonzero⟩
  · rintro ⟨j, q⟩ other
    by_cases cond : (F j).type ≠ .free ∧ q < NPLACE
    · exact holder_congr (types j) (others j q cond.1 cond.2 other)
    · simp only [holder, types j]
      rw [if_neg fun c => cond ⟨c.1, c.2.1⟩, if_neg fun c => cond ⟨c.1, c.2.1⟩]
  · intro j n liveJ below
    rw [types] at liveJ
    rw [sizes] at below
    have bound := layout.size_le liveJ
    have lt : slotOf n < NPLACE := slotOf_lt (by simp only [BSIZE] at below bound ⊢; omega)
    by_cases same : (j, slotOf n) = (i, p)
    · cases same
      rwa [filled]
    · rw [others j _ liveJ lt same]
      exact layout.full liveJ below
  · intro j liveJ
    rw [sizes]
    exact layout.size_le (types j ▸ liveJ)
  · exact fun {j} liveJ => layout.inode_lt (types j ▸ liveJ)

/-- A direct address is set to a reserved block, or the address of the indirect block to a
reserved block of zeros. -/
theorem fillAddr {p : ℕ} (live : (F i).type ≠ .free) (direct : p ≤ NDIRECT)
    (empty : (F i).addrs p = 0) (mine : b ∈ R) (zeros : data b = fun _ => 0) :
    Layout cfg
      (Function.update F i { F i with addrs := Function.update (F i).addrs p b }) (R \ {b})
      bitmap data := by
  refine layout.fill live (by simp only [NPLACE]; omega)
    ((place_of_le data _ direct).trans empty) mine (fun j => ?_) (fun j => ?_) ?_ ?_
  · by_cases same : j = i <;> simp [same]
  · by_cases same : j = i <;> simp [same]
  · simp [place_of_le data _ direct]
  · intro j q _ _ other
    by_cases same : j = i
    · subst same
      have ne : q ≠ p := fun h => other (by rw [h])
      obtain rfl | apart := eq_or_ne NDIRECT p
      · simp only [update_self, place, update_of_ne ne, empty, zeros]
        -- the entries of the new indirect block are zero, as the places were
        simp [word]
      · simp only [update_self, place, update_of_ne ne, update_of_ne apart]
    · rw [update_of_ne same]

/-- Setting an entry of an indirect block moves no other place. -/
theorem place_setEntry (live : (F i).type ≠ .free) (indirect : (F i).addrs NDIRECT ≠ 0) (b : ℕ)
    {k q : ℕ} (liveK : (F k).type ≠ .free) (other : (k, q) ≠ (i, NDIRECT + 1 + j)) :
    place (Function.update data ((F i).addrs NDIRECT)
      (putWord 4 (data ((F i).addrs NDIRECT)) (4 * j) b)) (F k) q = place data (F k) q := by
  by_cases same : k = i
  · subst same
    simp only [place, update_self]
    split
    · rfl
    · rename_i entry
      apply word_putWord_of_disjoint
      have ne : q ≠ NDIRECT + 1 + j := fun h => other (by rw [h])
      omega
  · -- no other inode has the same indirect block
    refine place_congr (fun _ _ => rfl) ?_ q
    by_cases zero : (F k).addrs NDIRECT = 0
    · exact .inl zero
    · refine .inr (update_of_ne (fun shared => same ?_) _ _)
      have first := place_of_le data (F k) le_rfl
      have second := place_of_le data (F i) le_rfl
      exact (layout.unique liveK live (by decide) (by decide) (first ▸ zero)
        (first.trans (shared.trans second.symm))).1

/-- An entry of the indirect block is set to a reserved block. -/
theorem fillEntry (live : (F i).type ≠ .free) (small : j < NINDIRECT)
    (indirect : (F i).addrs NDIRECT ≠ 0) (empty : place data (F i) (NDIRECT + 1 + j) = 0)
    (mine : b ∈ R) :
    Layout cfg F (R \ {b}) bitmap
      (Function.update data ((F i).addrs NDIRECT)
        (putWord 4 (data ((F i).addrs NDIRECT)) (4 * j) b)) := by
  have fits : b < 256 ^ 4 := (layout.reserved mine).1.2.trans cfg.sb.size_lt
  refine layout.fill live (by simp only [NPLACE]; omega) empty mine
    (fun _ => rfl) (fun _ => rfl) ?_ fun k q liveK _ other =>
      layout.place_setEntry live indirect b liveK other
  simp only [place, indirect, if_false, update_self]
  rw [if_neg (by omega), show NDIRECT + 1 + j - (NDIRECT + 1) = j by omega, word_putWord fits]

/-- **Reserving the blocks of an inode that is freed.** -/
theorem detach (live : (F i).type ≠ .free) (free : d.type = .free) :
    Layout cfg (Function.update F i d) (R ∪ blocksOf data (F i)) bitmap data := by
  have others : ∀ j, j ≠ i → Function.update F i d j = F j := fun j other =>
    update_of_ne other d F
  have liveOther : ∀ {j}, (Function.update F i d j).type ≠ .free →
      j ≠ i ∧ (F j).type ≠ .free := by
    intro j liveJ
    by_cases same : j = i
    · subst same
      exact absurd free (by simpa using liveJ)
    · exact ⟨same, others j same ▸ liveJ⟩
  refine ⟨?_, ?_, ?_, ?_⟩
  · have reserved : blocksOf data (F i) = {b | ∃ x ∈ {x : ℕ × ℕ | x.1 = i}, holder F data x = some b} := by
      ext b
      constructor
      · rintro ⟨nonzero, p, small, rfl⟩
        exact ⟨(i, p), rfl, holder_eq_some.mpr ⟨live, small, rfl, nonzero⟩⟩
      · rintro ⟨⟨j, p⟩, rfl, has⟩
        obtain ⟨-, small, same, nonzero⟩ := holder_eq_some.mp has
        exact ⟨nonzero, p, small, same⟩
    rw [reserved]
    refine layout.owned.detach {x | x.1 = i} ?_ ?_
    · rintro ⟨j, p⟩ rfl
      exact holder_of_free (by simpa using free) p
    · rintro ⟨j, p⟩ other
      exact holder_congr (by rw [others j other]) (by rw [others j other])
  · intro j n liveJ below
    obtain ⟨other, liveJ⟩ := liveOther liveJ
    rw [others j other] at below ⊢
    exact layout.full liveJ below
  · intro j liveJ
    obtain ⟨other, liveJ⟩ := liveOther liveJ
    rw [others j other]
    exact layout.size_le liveJ
  · exact fun {j} liveJ => layout.inode_lt (liveOther liveJ).2

/-- Another inode that holds the same blocks. -/
theorem update (held : ∀ p, holder (Function.update F i d) data (i, p) = holder F data (i, p))
    (full : d.type ≠ .free → ∀ n, n * BSIZE < d.size → place data d (slotOf n) ≠ 0)
    (size_le : d.type ≠ .free → d.size ≤ MAXFILE * BSIZE)
    (inside : d.type ≠ .free → i < cfg.sb.ninodes) :
    Layout cfg (Function.update F i d) R bitmap data := by
  refine ⟨?_, ?_, ?_, ?_⟩
  · have eq : holder (Function.update F i d) data = holder F data := by
      funext ⟨j, p⟩
      by_cases same : j = i
      · rw [same, held]
      · exact holder_congr (by rw [update_of_ne same]) (by rw [update_of_ne same])
    rw [eq]
    exact layout.owned
  all_goals
    intro j
    by_cases same : j = i
  · subst same
    rw [update_self]
    exact fun live below => full live _ below
  · rw [update_of_ne same]
    exact layout.full
  · subst same
    rwa [update_self]
  · rw [update_of_ne same]
    exact layout.size_le
  · subst same
    rwa [update_self]
  · rw [update_of_ne same]
    exact layout.inode_lt

/-- **Changing an inode without its addresses.** The size may grow as far as the
file has blocks. -/
theorem setInode (free : d.type = .free ↔ (F i).type = .free) (addrs : d.addrs = (F i).addrs)
    (full : d.type ≠ .free → ∀ n, n * BSIZE < d.size → place data (F i) (slotOf n) ≠ 0)
    (size_le : d.type ≠ .free → d.size ≤ MAXFILE * BSIZE) :
    Layout cfg (Function.update F i d) R bitmap data := by
  have places : ∀ p, place data d p = place data (F i) p :=
    place_congr (fun _ _ => by rw [addrs]) (.inr rfl)
  refine layout.update (fun p => by simp [holder, places, free]) (fun live n below => ?_) size_le
    fun live => layout.inode_lt fun isFree => live (free.mpr isFree)
  rw [places]
  exact full live n below

/-- Changing fields other than the type, the size and the addresses. -/
theorem setAttrs (type : d.type = (F i).type) (addrs : d.addrs = (F i).addrs)
    (size : d.size = (F i).size) : Layout cfg (Function.update F i d) R bitmap data := by
  refine layout.setInode (by rw [type]) addrs ?_ ?_
  · intro live n below
    rw [type] at live
    exact layout.full live (size ▸ below)
  · intro live
    rw [type] at live
    exact size ▸ layout.size_le live

/-- **Allocating an inode.** -/
theorem alloc (inside : i < cfg.sb.ninodes) (free : (F i).type = .free) (type : InodeType) :
    Layout cfg (Function.update F i { Dinode.zero with type := type }) R bitmap data := by
  refine layout.update (fun p => ?_) (fun _ n below => ?_) (by simp [Dinode.zero]) fun _ => inside
  · rw [holder_of_free free p, holder]
    simp [place, Dinode.zero]
  · simp [Dinode.zero] at below

/-- A block of the contents of an inode is the indirect block of none. -/
theorem indirect_ne_slot (live : (F i).type ≠ .free) (live' : (F j).type ≠ .free)
    (small : n < MAXFILE) (some : place data (F i) (slotOf n) ≠ 0) :
    (F j).addrs NDIRECT = 0 ∨ (F j).addrs NDIRECT ≠ place data (F i) (slotOf n) := by
  refine .inr fun same => slotOf_ne n ?_
  have indirect := place_of_le data (F j) le_rfl
  exact (layout.unique live live' (slotOf_lt small) (by decide) some
    (same.symm.trans indirect.symm)).2

/-- **Changing the contents of a block of a file moves no place.** -/
theorem place_write (live : (F i).type ≠ .free) (small : n < MAXFILE)
    (some : place data (F i) (slotOf n) ≠ 0) (block : Bytes) (live' : (F j).type ≠ .free) (p : ℕ) :
    place (Function.update data (place data (F i) (slotOf n)) block) (F j) p =
      place data (F j) p := by
  refine place_congr (fun _ _ => rfl) ?_ p
  obtain zero | other := layout.indirect_ne_slot live live' small some
  · exact .inl zero
  · exact .inr (update_of_ne other _ _)

theorem write (live : (F i).type ≠ .free) (small : n < MAXFILE)
    (some : place data (F i) (slotOf n) ≠ 0) (block : Bytes) :
    Layout cfg F R bitmap (Function.update data (place data (F i) (slotOf n)) block) :=
  layout.of_places fun live' p => layout.place_write live small some block live' p

end

end Layout

end Xv6Uac
