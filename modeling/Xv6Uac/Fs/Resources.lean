import Mathlib.Order.Interval.Finset.Nat
import Xv6Uac.Fs.Contents

/-!
# What a write needs

A write fails for want of blocks, of room in the log or of a transaction, and for no other
reason. `Funded cfg s blocks logs` says that in `s` there are that many free blocks and
that much room in the log. Each function has a lemma that says what it takes from these
funds. A write of some bytes takes a block for every place that it needs and that is empty
(`lacking`), and a log entry for every block that it touches, three more for every block
that it takes, and one for the inode (`writei_short`).

The lemmas are stated for a proposition `A`, and the funds are there if `A` holds. With
`A := False` they say why a call can fail, and with `A := True` that it does not.
-/

namespace Xv6Uac

open Words Hoare Finset

variable {cfg : Config} {F F' : ℕ → Dinode} {D R : Set ℕ} {s t : Kernel} {i k : ℕ} {A : Prop}

/-- The panics for want of free blocks, of room in the log and of a transaction. -/
def Starved (reason : Stop) : Prop :=
  reason = .panic .ballocOutOfBlocks ∨ reason = .panic .tooBigTransaction ∨
    reason = .panic .logWriteOutsideOfTrans

/-- How a call fails that has what it needs if `A` holds. -/
def Short (A : Prop) (reason : Stop) : Prop := ¬A ∧ Starved reason

/-- The number of free blocks. -/
def freeBlocks (cfg : Config) (s : Kernel) : ℕ :=
  ((Finset.range cfg.sb.size).filter fun b => s.bitmap b = false).card

/-- In a transaction, with free blocks and room in the log. -/
structure Funded (cfg : Config) (s : Kernel) (blocks logs : ℕ) : Prop where
  trans : 1 ≤ s.outstanding
  size : s.lh.length + logs ≤ LOGSIZE
  room : s.lh.length + logs < cfg.sb.nlog
  free : blocks ≤ freeBlocks cfg s

theorem Funded.mono {blocks blocks' logs logs' : ℕ} (funded : Funded cfg s blocks logs)
    (fewer : blocks' ≤ blocks) (less : logs' ≤ logs) : Funded cfg s blocks' logs' :=
  ⟨funded.trans, (Nat.add_le_add_left less _).trans funded.size,
    (Nat.add_le_add_left less _).trans_lt funded.room, fewer.trans funded.free⟩

/-- Only the log and the free map matter. -/
theorem Funded.congr {blocks logs : ℕ} (funded : Funded cfg s blocks logs)
    (outstanding : t.outstanding = s.outstanding) (lh : t.lh = s.lh) (bitmap : t.bitmap = s.bitmap) :
    Funded cfg t blocks logs :=
  ⟨outstanding ▸ funded.trans, lh ▸ funded.size, lh ▸ funded.room, by
    rw [freeBlocks, bitmap]
    exact funded.free⟩

variable {b l : ℕ}

theorem logWrite_short (x : ℕ) (funds : A → Funded cfg s b (l + 1)) :
    wp (Short A) (logWrite cfg x) (fun _ t => A → Funded cfg t b l) s := by
  simp only [logWrite, wp_bind, wp_gets, wp_ite, wp_update]
  refine ⟨fun full => ⟨fun asked => ?_, .inr (.inl rfl)⟩, fun room =>
    ⟨fun outside => ⟨fun asked => ?_, .inr (.inr rfl)⟩, fun inside asked => ?_⟩⟩
  · have funded := funds asked
    have := funded.size
    have := funded.room
    omega
  · have := (funds asked).trans
    omega
  · have funded := funds asked
    split
    · exact funded.mono le_rfl (Nat.le_succ l)
    · refine ⟨funded.trans, ?_, ?_, funded.free⟩
      · have := funded.size
        rw [List.length_append, List.length_singleton]
        omega
      · have := funded.room
        rw [List.length_append, List.length_singleton]
        omega

theorem bwrite_short {x : ℕ} (inside : cfg.DataBlock x) (f : Bytes → Bytes)
    (funds : A → Funded cfg s b (l + 1)) :
    wp (Short A) (bwrite cfg x f) (fun _ t => A → Funded cfg t b l) s := by
  rw [bwrite, if_pos inside]
  exact logWrite_short x fun asked => (funds asked).congr rfl rfl rfl

theorem modifyDinode_short (k : ℕ) (f : Dinode → Dinode) (funds : A → Funded cfg s b l) :
    wp (Short A) (modifyDinode k f) (fun _ t => A → Funded cfg t b l) s :=
  fun asked => (funds asked).congr rfl rfl rfl

theorem iupdate_short (k : ℕ) (funds : A → Funded cfg s b (l + 1)) :
    wp (Short A) (iupdate cfg k) (fun _ t => A → Funded cfg t b l) s := by
  exact logWrite_short _ fun asked => (funds asked).congr rfl rfl rfl

/-- `balloc` takes one of the free blocks, and logs the free map and the block. -/
theorem balloc_short (layout : Layout cfg F R s.bitmap s.data)
    (funds : A → Funded cfg s (b + 1) (l + 2)) :
    wp (Short A) (balloc cfg) (fun _ t => A → Funded cfg t b l) s := by
  simp only [balloc, wp_bind, wp_gets]
  split
  · rename_i none
    refine ⟨fun asked => ?_, .inl rfl⟩
    obtain ⟨x, free⟩ := Finset.card_pos.mp (Nat.zero_lt_of_lt (funds asked).free)
    obtain ⟨inside, unused⟩ := Finset.mem_filter.mp free
    simpa [unused] using List.find?_eq_none.mp none x (List.mem_range.mpr (Finset.mem_range.mp inside))
  · rename_i x found
    have unused : s.bitmap x = false := by simpa using List.find?_some found
    have small : x < cfg.sb.size := List.mem_range.mp (List.mem_of_find?_eq_some found)
    have inside : cfg.DataBlock x :=
      ⟨Nat.le_of_not_lt (layout.owned.not_reserved small unused).1, small⟩
    have taken : freeBlocks cfg { s with bitmap := Function.update s.bitmap x true } + 1 =
        freeBlocks cfg s := by
      have member : x ∈ (Finset.range cfg.sb.size).filter fun b => s.bitmap b = false :=
        Finset.mem_filter.mpr ⟨Finset.mem_range.mpr small, unused⟩
      rw [freeBlocks, freeBlocks, ← card_erase_add_one member]
      congr 2
      ext y
      by_cases same : y = x <;> simp [same]
    rw [wp_bind, wp_update]
    refine (logWrite_short (b := b) (l := l + 1) _ fun asked => ?_).seq fun _ t funds => ?_
    · have funded := funds asked
      refine ⟨funded.trans, funded.size, funded.room, ?_⟩
      have := funded.free
      omega
    · exact (bwrite_short inside _ funds).seq fun _ _ funds => funds

/-! ## The places of a range -/

/-- The places that the `n`-th block of a file needs. -/
def blockPlaces (n : ℕ) : Finset ℕ := if n < NDIRECT then {n} else {NDIRECT, n + 1}

/-- The blocks of the file that a range touches. -/
def touched (off n : ℕ) : Finset ℕ := (Finset.range n).image fun j => (off + j) / BSIZE

/-- The places that a range needs. -/
def wanted (off n : ℕ) : Finset ℕ := (touched off n).biUnion blockPlaces

/-- Those that have no block. -/
def lacking (data : ℕ → Bytes) (d : Dinode) (places : Finset ℕ) : Finset ℕ :=
  places.filter fun p => place data d p = 0

theorem place_ne_zero_of_hasBlock {data : ℕ → Bytes} {d : Dinode} {n p : ℕ}
    (has : HasBlock data d n) (member : p ∈ blockPlaces n) : place data d p ≠ 0 := by
  rw [HasBlock, slotOf] at has
  rw [blockPlaces] at member
  split at member
  · rename_i direct
    rw [if_pos direct] at has
    rwa [Finset.mem_singleton.mp member]
  · rename_i indirect
    rw [if_neg indirect] at has
    obtain rfl | same := Finset.mem_insert.mp member
    · rw [place_of_le _ _ le_rfl]
      intro zero
      rw [place, if_neg (by omega), if_pos zero] at has
      exact has rfl
    · rwa [Finset.mem_singleton.mp same]

theorem touched_add (off m n : ℕ) : touched off (m + n) = touched off m ∪ touched (off + m) n := by
  ext x
  simp only [touched, mem_image, mem_range, mem_union]
  constructor
  · rintro ⟨j, below, rfl⟩
    obtain first | second := Nat.lt_or_ge j m
    · exact .inl ⟨j, first, rfl⟩
    · exact .inr ⟨j - m, by omega, by congr 1; omega⟩
  · rintro (⟨j, below, rfl⟩ | ⟨j, below, rfl⟩)
    · exact ⟨j, by omega, rfl⟩
    · exact ⟨m + j, by omega, by congr 1; omega⟩

theorem wanted_add (off m n : ℕ) : wanted off (m + n) = wanted off m ∪ wanted (off + m) n := by
  rw [wanted, touched_add, union_biUnion, wanted, wanted]

/-- A range within one block. -/
theorem touched_round {off m : ℕ} (positive : 0 < m) (within : m ≤ BSIZE - off % BSIZE) :
    touched off m = {off / BSIZE} := by
  ext x
  simp only [touched, mem_image, mem_range, mem_singleton]
  constructor
  · rintro ⟨j, below, rfl⟩
    exact (div_mod_round (by omega)).1
  · rintro rfl
    exact ⟨0, positive, rfl⟩

/-- After the end of a block the range touches other blocks. -/
theorem card_touched_round {off m n : ℕ} (positive : 0 < m) (within : m ≤ BSIZE - off % BSIZE)
    (last : m = BSIZE - off % BSIZE ∨ n = 0) :
    (touched off (m + n)).card = 1 + (touched (off + m) n).card := by
  rw [touched_add, touched_round positive within, card_union_of_disjoint, card_singleton]
  rw [disjoint_singleton_left, touched, mem_image]
  rintro ⟨j, below, same⟩
  have below := Finset.mem_range.mp below
  obtain rfl | none := last
  · have := Nat.div_add_mod off BSIZE
    have := Nat.div_add_mod (off + (BSIZE - off % BSIZE) + j) BSIZE
    have := Nat.mod_lt (off + (BSIZE - off % BSIZE) + j) (show 0 < BSIZE by decide)
    rw [same] at *
    omega
  · omega

/-- What a write of `m` bytes leaves lacking for the range that follows. -/
theorem lacking_rest {off m n : ℕ}
    (present : ∀ {p}, place s.data (F i) p ≠ 0 → place t.data (F' i) p ≠ 0)
    (blocks : ∀ o, off ≤ o → o < off + m → HasBlock t.data (F' i) (o / BSIZE)) :
    (lacking s.data (F i) (wanted off m)).card +
        (lacking t.data (F' i) (wanted (off + m) n)).card ≤
      (lacking s.data (F i) (wanted off (m + n))).card := by
  have covered : ∀ p ∈ wanted off m, place t.data (F' i) p ≠ 0 := by
    intro p member
    obtain ⟨x, touches, needs⟩ := Finset.mem_biUnion.mp member
    obtain ⟨j, below, rfl⟩ := Finset.mem_image.mp touches
    have below := Finset.mem_range.mp below
    exact place_ne_zero_of_hasBlock (blocks (off + j) (by omega) (by omega)) needs
  have apart : Disjoint (lacking s.data (F i) (wanted off m))
      (lacking t.data (F' i) (wanted (off + m) n)) := by
    rw [disjoint_left]
    intro p first second
    exact covered p (Finset.mem_filter.mp first).1 (Finset.mem_filter.mp second).2
  rw [← card_union_of_disjoint apart]
  refine card_le_card fun p member => ?_
  rw [wanted_add, lacking, mem_filter, mem_union]
  obtain first | second := Finset.mem_union.mp member
  · have first := Finset.mem_filter.mp first
    exact ⟨.inl first.1, first.2⟩
  · have second := Finset.mem_filter.mp second
    exact ⟨.inr second.1, by_contra fun some => present some second.2⟩

/-! ## `bmap` and `writei` -/

theorem bmapIndirect_short (inv : FsInv cfg F D s) (held : Held s k i)
    (funds : A → Funded cfg s ((if (F i).addrs NDIRECT = 0 then 1 else 0) + b)
      ((if (F i).addrs NDIRECT = 0 then 2 else 0) + l)) :
    wp (Short A) (when ((s.icache k).d.addrs NDIRECT = 0) do
        let addr ← balloc cfg
        modifyDinode k fun d => { d with addrs := Function.update d.addrs NDIRECT addr })
      (fun _ t => A → Funded cfg t b l) s := by
  rw [wp_when, (inv.cached.held held).1]
  refine ⟨fun empty => ?_, fun some asked => ?_⟩
  · refine (balloc_short inv.layout fun asked => ?_).seq fun x t funds =>
      modifyDinode_short k _ funds
    have funded := funds asked
    rw [if_pos empty, if_pos empty] at funded
    exact funded.mono (by omega) (by omega)
  · have funded := funds asked
    exact funded.mono (by omega) (by omega)

theorem bmapEntry_short (inv : FsInv cfg F D s) (held : Held s k i) {n : ℕ}
    (indirect : (F i).addrs NDIRECT ≠ 0)
    (funds : A → Funded cfg s ((if place s.data (F i) (NDIRECT + 1 + n) = 0 then 1 else 0) + b)
      ((if place s.data (F i) (NDIRECT + 1 + n) = 0 then 3 else 0) + l)) :
    wp (Short A) (do
        let ip ← inode k
        let a ← bread cfg (ip.d.addrs NDIRECT)
        if word 4 a (4 * n) = 0 then do
          let addr ← balloc cfg
          bwrite cfg (ip.d.addrs NDIRECT) fun a => putWord 4 a (4 * n) addr
          pure addr
        else
          pure (word 4 a (4 * n)))
      (fun _ t => A → Funded cfg t b l) s := by
  have live := (inv.cached.held held).2
  have inside := inv.layout.indirectBlock live indirect
  simp only [inode, wp_bind, wp_gets, (inv.cached.held held).1]
  apply (bread_spec inside).mono
  rintro a t ⟨same, block⟩
  subst same block
  rw [← place_entry _ indirect]
  refine wp.ite (fun empty => ?_) fun some asked => ?_
  · refine (balloc_short (b := b) (l := l + 1) inv.layout fun asked => ?_).seq fun x u funds => ?_
    · have funded := funds asked
      rw [if_pos empty, if_pos empty] at funded
      exact funded.mono (by omega) (by omega)
    · exact (bwrite_short inside _ funds).seq fun _ _ funds => funds
  · have funded := funds asked
    exact funded.mono (by omega) (by omega)

/-- **`bmap` takes a block for every place that it needs and that is empty.** -/
theorem bmap_short (inv : FsInv cfg F D s) (held : Held s k i) {n : ℕ} (small : n < MAXFILE)
    (funds : A → Funded cfg s ((lacking s.data (F i) (blockPlaces n)).card + b)
      (3 * (lacking s.data (F i) (blockPlaces n)).card + l)) :
    wp (Short A) (bmap cfg k n) (fun _ t => A → Funded cfg t b l) s := by
  simp only [bmap, inode, wp_bind, wp_gets]
  by_cases direct : n < NDIRECT
  · rw [if_pos direct, (inv.cached.held held).1]
    refine wp.ite (fun empty => ?_) fun some asked => (funds asked).mono (by omega) (by omega)
    have one : (lacking s.data (F i) (blockPlaces n)).card = 1 := by
      rw [lacking, blockPlaces, if_pos direct, filter_singleton,
        if_pos (by rwa [place_of_le _ _ direct.le]), card_singleton]
    refine (balloc_short (b := b) (l := l) inv.layout fun asked =>
      (funds asked).mono (by omega) (by omega)).seq fun x t funds => ?_
    exact (modifyDinode_short k _ funds).seq fun _ _ funds => funds
  · have entry : n - NDIRECT < NINDIRECT := by simp only [MAXFILE] at small; omega
    have slot : n + 1 = NDIRECT + 1 + (n - NDIRECT) := by omega
    rw [if_neg direct, if_pos entry, wp_bind]
    -- an empty indirect block leaves its entry lacking too
    have count : (lacking s.data (F i) (blockPlaces n)).card =
        (if (F i).addrs NDIRECT = 0 then 1 else 0) +
          if place s.data (F i) (NDIRECT + 1 + (n - NDIRECT)) = 0 then 1 else 0 := by
      rw [lacking, blockPlaces, if_neg direct, filter_insert, filter_singleton,
        place_of_le _ _ le_rfl, slot]
      split
      · rw [card_insert_of_notMem]
        · split <;> simp [Nat.add_comm]
        · split
          · rw [mem_singleton]
            omega
          · simp
      · split <;> simp
    have empty : (F i).addrs NDIRECT = 0 → place s.data (F i) (NDIRECT + 1 + (n - NDIRECT)) = 0 := by
      intro zero
      rw [place, if_neg (by omega), if_pos zero]
    let e := if place s.data (F i) (NDIRECT + 1 + (n - NDIRECT)) = 0 then 1 else 0
    refine ((bmapIndirect_short (b := e + b) (l := 3 * e + l) inv held fun asked => ?_).and
      (bmapIndirect_spec inv held)).mono fun _ t after => ?_
    · have funded := funds asked
      rw [count] at funded
      refine funded.mono (by omega) ?_
      split <;> omega
    · obtain ⟨funds, F₁, ext, indirect, same⟩ := after
      refine bmapEntry_short (ext.fsInv inv held) (ext.held held) indirect fun asked => ?_
      refine (funds asked).mono ?_ ?_
      · by_cases zero : (F i).addrs NDIRECT = 0
        · simp only [e, if_pos (empty zero)]
          split <;> omega
        · obtain ⟨rfl, rfl⟩ := same zero
          exact le_rfl
      · by_cases zero : (F i).addrs NDIRECT = 0
        · simp only [e, if_pos (empty zero)]
          split <;> omega
        · obtain ⟨rfl, rfl⟩ := same zero
          simp only [e]
          split <;> omega

theorem writeLoop_short (fuel : ℕ) :
    ∀ {F : ℕ → Dinode} {D : Set ℕ} {s : Kernel} (off : ℕ) (src : List UInt8),
      FsInv cfg F D s → Held s k i → src.length ≤ fuel → off + src.length ≤ MAXFILE * BSIZE →
      (A → Funded cfg s ((lacking s.data (F i) (wanted off src.length)).card + b)
        ((touched off src.length).card +
          3 * (lacking s.data (F i) (wanted off src.length)).card + l)) →
      wp (Short A) (writeLoop cfg k fuel off src) (fun _ t => A → Funded cfg t b l) s := by
  induction fuel with
  | zero =>
    intro F D s off src inv held enough fits funds asked
    exact (funds asked).mono (by omega) (by omega)
  | succ fuel ih =>
    intro F D s off src inv held enough fits funds
    have live := (inv.cached.held held).2
    refine wp.ite (fun none asked => (funds asked).mono (by omega) (by omega)) fun some => ?_
    have small : off / BSIZE < MAXFILE := (Nat.div_lt_iff_lt_mul (by decide)).mpr (by omega)
    obtain ⟨round, length, piece⟩ := writeRound some off
    have parts : src.length = (src.take (BSIZE - off % BSIZE)).length +
        (src.drop (BSIZE - off % BSIZE)).length := by
      rw [← List.length_append, List.take_append_drop]
    generalize first : src.take (BSIZE - off % BSIZE) = head at *
    generalize rest : src.drop (BSIZE - off % BSIZE) = tail at *
    have positive : 0 < head.length := List.length_pos_iff.mpr piece
    have block : wanted off head.length = blockPlaces (off / BSIZE) := by
      rw [wanted, touched_round positive (by omega), singleton_biUnion]
    have rounds : (touched off src.length).card = 1 + (touched (off + head.length) tail.length).card := by
      rw [parts]
      exact card_touched_round positive (by omega) (by omega)
    have fewer : (lacking s.data (F i) (blockPlaces (off / BSIZE))).card ≤
        (lacking s.data (F i) (wanted off src.length)).card := by
      refine card_le_card (filter_subset_filter _ ?_)
      rw [parts, wanted_add, block]
      exact subset_union_left
    refine ((bmap_short
      (b := (lacking s.data (F i) (wanted off src.length)).card -
        (lacking s.data (F i) (blockPlaces (off / BSIZE))).card + b)
      (l := 1 + ((touched (off + head.length) tail.length).card +
        3 * ((lacking s.data (F i) (wanted off src.length)).card -
          (lacking s.data (F i) (blockPlaces (off / BSIZE))).card) + l))
      inv held small fun asked => ?_).and (bmap_spec inv held small)).seq
      fun x t ⟨funds, F', ext, placed, nonzero, same⟩ => ?_
    · exact (funds asked).mono (by omega) (by omega)
    · have live' : (F' i).type ≠ .free := ext.type_eq i ▸ live
      have inside := ext.layout.dataBlock live' (slotOf_lt small) (placed ▸ nonzero)
      rw [placed] at inside
      refine ((bwrite_short inside _ fun asked => (funds asked).mono le_rfl
        (Nat.add_comm 1 _).ge).and (bwrite_spec inside _)).seq fun _ u ⟨funds, lh, eq⟩ => ?_
      have wrote := ext.rewrote live small placed nonzero (fun has => (same has).1) piece
        (by omega) lh
      rw [← eq] at wrote
      rw [← length]
      refine ih _ _ (wrote.fsInv inv held) (wrote.held held) (by omega) (by omega) fun asked => ?_
      have left := lacking_rest (n := tail.length) (wrote.present live) wrote.covered
      rw [← parts, block] at left
      exact (funds asked).mono (by omega) (by omega)

/-- **What `writei` takes.** -/
theorem writei_short (inv : FsInv cfg F D s) (held : Held s k i) (src : List UInt8) (off : ℕ)
    (funds : A → Funded cfg s ((lacking s.data (F i) (wanted off src.length)).card + b)
      ((touched off src.length).card +
        3 * (lacking s.data (F i) (wanted off src.length)).card + 1 + l)) :
    wp (Short A) (writei cfg k src off) (fun _ t => A → Funded cfg t b l) s := by
  have enough : A → Funded cfg s b l := fun asked => (funds asked).mono (by omega) (by omega)
  simp only [writei, inode, wp_bind, wp_gets, wp_ite]
  refine ⟨fun _ => ?_, fun _ => ⟨fun _ => enough, fun _ => ⟨fun _ => enough, fun fits => ?_⟩⟩⟩
  · split
    · exact enough
    · exact enough
  · refine (writeLoop_short (l := l + 1) src.length off src inv held le_rfl (by omega)
      fun asked => (funds asked).mono le_rfl (by omega)).mono fun last t funds => ?_
    rw [wp_read, wp_bind, wp_when]
    refine ⟨fun _ => ?_, fun _ asked => (funds asked).mono le_rfl (Nat.le_succ l)⟩
    refine (modifyDinode_short k _ funds).seq fun _ u funds => ?_
    exact (iupdate_short k funds).mono fun _ _ funds => funds

end Xv6Uac
