import Xv6Uac.Fs.Contents
import Xv6Uac.Fs.References
import Xv6Uac.Kernel.Sysfile

/-!
# Directories

A directory is a list of slots. `dirSlot data d n` is the entry in the `n`-th slot:
an inode number and a name, or nothing if the slot is empty or beyond the size. A
name on disk is filled up with NULs, and `nameOf` is the name without them, so that
`namecmp` decides equality of names (`namecmp_eq_zero`).

`dirlookup` finds the first slot with the name if the process may search the
directory, and nothing otherwise (`dirlookup_spec`). `isdirempty` looks at the
slots after the first two (`isdirempty_spec`). A write of one entry changes one slot
of one directory (`Wrote.slot_self`, `Wrote.slot_other`).
-/

namespace Xv6Uac

open Words Hoare List

variable {cfg : Config} {F F' : ℕ → Dinode} {D : Set ℕ} {s t : Kernel} {i k : ℕ}

/-! ## Names -/

/-- The string in the field `name`. -/
def nameOf (bytes : List UInt8) : List UInt8 := (bytes.take DIRSIZ).takeWhile (· ≠ 0)

theorem strncmp_eq_zero (n : ℕ) : ∀ p q : List UInt8,
    strncmp n p q = 0 ↔ (p.take n).takeWhile (· ≠ 0) = (q.take n).takeWhile (· ≠ 0) := by
  induction n with
  | zero => simp [strncmp]
  | succ n ih =>
    intro p q
    rw [strncmp]
    split
    · rename_i same
      rw [ih]
      obtain ⟨nonzero, eq⟩ := same
      cases p with
      | nil => simp at nonzero
      | cons a p =>
        cases q with
        | nil => simp_all
        | cons b q =>
          simp only [headD_cons] at nonzero eq
          subst eq
          simp [nonzero]
    · rename_i differ
      have toNat : ∀ a b : UInt8, ((a.toNat : ℤ) - b.toNat = 0 ↔ a = b) := by
        intro a b
        rw [sub_eq_zero, Int.natCast_inj, UInt8.toNat_inj]
      rw [toNat]
      cases p with
      | nil =>
        cases q with
        | nil => simp
        | cons b q =>
          by_cases zero : b = 0
          · simp [zero]
          · simp [zero, Ne.symm zero]
      | cons a p =>
        cases q with
        | nil => by_cases zero : a = 0 <;> simp [zero]
        | cons b q =>
          by_cases zero : a = 0
          · by_cases zero' : b = 0
            · simp [zero, zero']
            · simp [zero, zero', Ne.symm zero']
          · have other : a ≠ b := fun eq => differ ⟨zero, eq⟩
            by_cases zero' : b = 0
            · simp [zero, zero']
            · simp [zero, zero', other]

/-- `namecmp` compares the strings. -/
theorem namecmp_eq_zero (p q : List UInt8) : namecmp p q = 0 ↔ nameOf p = nameOf q :=
  strncmp_eq_zero DIRSIZ p q

theorem length_strncpy (n : ℕ) (name : List UInt8) : (strncpy n name).length = n := by
  induction n generalizing name with
  | zero => rfl
  | succ n ih =>
    rw [strncpy]
    split
    · simp
    · simp [ih]

/-- The name that `strncpy` stores is the name it is given. -/
theorem nameOf_strncpy (name : List UInt8) : nameOf (strncpy DIRSIZ name) = nameOf name := by
  have general : ∀ (n : ℕ) (name : List UInt8),
      ((strncpy n name).take n).takeWhile (· ≠ 0) = (name.take n).takeWhile (· ≠ 0) := by
    intro n
    induction n with
    | zero => simp
    | succ n ih =>
      intro name
      rw [strncpy]
      split
      · rename_i zero
        cases name with
        | nil => simp [replicate_succ]
        | cons a name =>
          simp only [headD_cons] at zero
          simp [zero]
      · rename_i nonzero
        cases name with
        | nil => simp at nonzero
        | cons a name =>
          simp only [headD_cons] at nonzero
          simpa [nonzero] using ih name
  exact general DIRSIZ name

/-! ## Slots -/

/-- The bytes of the `n`-th slot of a directory, as an entry. -/
def entryAt (data : ℕ → Bytes) (d : Dinode) (n : ℕ) : Dirent :=
  .ofBytes ((List.range DIRENT).map fun j => content data d (DIRENT * n + j))

/-- The entry in the `n`-th slot of a directory: its inode and its name. -/
def dirSlot (data : ℕ → Bytes) (d : Dinode) (n : ℕ) : Option (ℕ × List UInt8) :=
  if DIRENT * n + DIRENT ≤ d.size ∧ (entryAt data d n).inum ≠ 0 then
    some ((entryAt data d n).inum, nameOf (entryAt data d n).name)
  else none

/-- The first slot with a name. -/
def dirFind (data : ℕ → Bytes) (d : Dinode) (name : List UInt8) : Option ℕ :=
  (List.range (d.size / DIRENT)).find? fun n => (dirSlot data d n).any fun e => e.2 = nameOf name

/-- The inode with a name. -/
def lookup (data : ℕ → Bytes) (d : Dinode) (name : List UInt8) : Option ℕ :=
  (dirFind data d name).bind fun n => (dirSlot data d n).map Prod.fst

/-- The entries of directories name inodes of the table. -/
def Named (cfg : Config) (F : ℕ → Dinode) (data : ℕ → Bytes) : Prop :=
  ∀ {i n : ℕ} {e : ℕ × List UInt8}, (F i).type = .dir → dirSlot data (F i) n = some e →
    e.1 < cfg.sb.ninodes

section Slots

variable {data : ℕ → Bytes} {d : Dinode} {n : ℕ}

theorem dirSlot_eq_some {e : ℕ × List UInt8} (slot : dirSlot data d n = some e) :
    DIRENT * n + DIRENT ≤ d.size ∧ (entryAt data d n).inum ≠ 0 ∧
      e = ((entryAt data d n).inum, nameOf (entryAt data d n).name) := by
  rw [dirSlot] at slot
  split at slot
  · rename_i cond
    exact ⟨cond.1, cond.2, (Option.some.inj slot).symm⟩
  · cases slot

theorem dirSlot_lt {e : ℕ × List UInt8} (slot : dirSlot data d n = some e) :
    n < d.size / DIRENT := by
  apply (Nat.le_div_iff_mul_le (by decide)).mpr
  rw [Nat.mul_comm]
  exact (dirSlot_eq_some slot).1

/-- No slot has the name if `dirFind` finds none. -/
theorem dirFind_eq_none {name : List UInt8} (none : dirFind data d name = none) {e : ℕ × List UInt8}
    (slot : dirSlot data d n = some e) : e.2 ≠ nameOf name := by
  intro same
  have := List.find?_eq_none.mp none n (List.mem_range.mpr (dirSlot_lt slot))
  simp [slot, same] at this

theorem dirFind_eq_some {name : List UInt8} :
    dirFind data d name = some n ↔ (∃ j, dirSlot data d n = some (j, nameOf name)) ∧
      ∀ m < n, ∀ e, dirSlot data d m = some e → e.2 ≠ nameOf name := by
  have holds : ∀ m, (dirSlot data d m).any (fun e => e.2 = nameOf name) = true ↔
      ∃ j, dirSlot data d m = some (j, nameOf name) := by
    intro m
    cases dirSlot data d m with
    | none => simp
    | some e => simp [Prod.ext_iff]
  rw [dirFind, List.find?_range_eq_some, holds]
  constructor
  · rintro ⟨found, -, first⟩
    refine ⟨found, fun m lt e slot same => ?_⟩
    have := first m lt
    simp [slot, same] at this
  · rintro ⟨⟨j, slot⟩, first⟩
    refine ⟨⟨j, slot⟩, List.mem_range.mpr (dirSlot_lt slot), fun m lt => ?_⟩
    cases other : dirSlot data d m with
    | none => simp
    | some e => simpa using first m lt e other

end Slots

/-! ## Reading a directory -/

variable {data : ℕ → Bytes} {n : ℕ}

/-- The size of an inode is far below the range of offsets. -/
theorem Layout.offset_lt {R : Set ℕ} {bitmap : ℕ → Bool} (layout : Layout cfg F R bitmap data)
    (live : (F i).type ≠ .free) {off : ℕ} (le : off ≤ (F i).size) :
    (off + DIRENT) % 2 ^ 32 = off + DIRENT := by
  have := layout.size_le live
  simp only [MAXFILE, NDIRECT, NINDIRECT, BSIZE, DIRENT, DIRSIZ] at this ⊢
  omega

theorem readDirent_spec {E : Stop → Prop} (inv : FsInv cfg F D s) (held : Held s k i)
    (dir : (F i).type = .dir) (below : DIRENT * n < (F i).size) :
    wp E (readDirent cfg k (DIRENT * n)) (fun out t => t = s ∧
      out = if DIRENT * n + DIRENT ≤ (F i).size then some (entryAt s.data (F i) n) else none)
      s := by
  have live := (inv.cached.held held).2
  refine (readi_spec inv held (DIRENT * n) DIRENT).seq fun out t ⟨_, read⟩ => ?_
  obtain ⟨same, result⟩ := read (by rw [dir]; decide)
  have room : ¬((F i).size < DIRENT * n ∨ (DIRENT * n + DIRENT) % 2 ^ 32 < DIRENT * n) := by
    rw [inv.layout.offset_lt live below.le]
    omega
  rw [readResult, if_neg room] at result
  subst result
  refine ⟨same, ?_⟩
  by_cases fits : DIRENT * n + DIRENT ≤ (F i).size
  · have size : min DIRENT ((F i).size - DIRENT * n) = DIRENT := by omega
    rw [if_pos fits, size]
    exact if_pos rfl
  · have size : min DIRENT ((F i).size - DIRENT * n) ≠ DIRENT := by omega
    rw [if_neg fits]
    exact if_neg fun same => size (Int.natCast_inj.mp same)

/-- What a loop over the slots of a directory does at a slot within the size. -/
theorem wp_readDirent {α : Type} (inv : FsInv cfg F D s) (held : Held s k i)
    (dir : (F i).type = .dir) (below : DIRENT * n < (F i).size) {reason : Panic}
    (allowed : Benign (.panic reason)) {next : Dirent → K α} {Q : α → Kernel → Prop}
    (after : DIRENT * n + DIRENT ≤ (F i).size → wp Benign (next (entryAt s.data (F i) n)) Q s) :
    wp Benign (do
      let found ← readDirent cfg k (DIRENT * n)
      match found with
      | none => panic reason
      | some de => next de) Q s := by
  refine (readDirent_spec inv held dir below).seq fun out t ⟨same, result⟩ => ?_
  subst same result
  by_cases fits : DIRENT * n + DIRENT ≤ (F i).size
  · rw [if_pos fits]
    exact after fits
  · rwa [if_neg fits]

/-- There are no slots beyond the size. -/
theorem dirSlot_beyond {d : Dinode} (covered : d.size ≤ DIRENT * n) (m : ℕ) (le : n ≤ m) :
    dirSlot data d m = none := by
  refine if_neg fun cond => ?_
  simp only [DIRENT, DIRSIZ] at *
  omega

theorem slots_next {size fuel : ℕ} (enough : size ≤ fuel + 1 + DIRENT * n) :
    size ≤ fuel + DIRENT * (n + 1) := by
  simp only [DIRENT, DIRSIZ] at *
  omega

section

variable (inv : FsInv cfg F D s)
include inv

section

variable (held : Held s k i)
include held

theorem dirlookupLoop_spec (dir : (F i).type = .dir) (named : Named cfg F s.data)
    (name : List UInt8) (fuel : ℕ) :
    ∀ n, (F i).size ≤ fuel + DIRENT * n →
      (∀ m < n, ∀ e, dirSlot s.data (F i) m = some e → e.2 ≠ nameOf name) →
      wp Benign (dirlookupLoop cfg k name fuel (DIRENT * n)) (fun out t =>
        match out with
        | none => t = s ∧ dirFind s.data (F i) name = none
        | some (l, off) => ∃ n j, off = DIRENT * n ∧ dirFind s.data (F i) name = some n ∧
            dirSlot s.data (F i) n = some (j, nameOf name) ∧
            ∃ ip, t = { s with icache := Function.update s.icache l ip } ∧ Cached cfg F D t ∧
              ip.inum = j ∧ Kept s t (Pi.single l 1) ∧
              (0 < (s.icache l).ref → ip.locked = (s.icache l).locked)) s := by
  have missing : ∀ n, (F i).size ≤ DIRENT * n →
      (∀ m < n, ∀ e, dirSlot s.data (F i) m = some e → e.2 ≠ nameOf name) →
      dirFind s.data (F i) name = none := by
    intro n covered first
    cases found : dirFind s.data (F i) name with
    | none => rfl
    | some m =>
      obtain ⟨⟨j, slot⟩, -⟩ := dirFind_eq_some.mp found
      have lt : m < n := by
        by_contra ge
        rw [dirSlot_beyond covered m (Nat.le_of_not_lt ge)] at slot
        cases slot
      exact absurd rfl (first m lt _ slot)
  induction fuel with
  | zero =>
    intro n enough first
    exact ⟨rfl, missing n (by omega) first⟩
  | succ fuel ih =>
    intro n enough first
    simp only [dirlookupLoop, inode]
    rw [wp_read, (inv.cached.held held).1]
    refine wp.ite (fun below => ?_) fun above => ⟨rfl, missing n (by omega) first⟩
    refine wp_readDirent inv held dir below (by simp [Benign]) fun fits => ?_
    apply wp.ite
    · rintro ⟨used, same⟩
      have slot : dirSlot s.data (F i) n =
          some ((entryAt s.data (F i) n).inum, nameOf name) := by
        rw [dirSlot, if_pos ⟨fits, used⟩, (namecmp_eq_zero _ _).mp same]
      refine (iget_spec inv.cached (named dir slot)).seq fun l t got => ?_
      exact ⟨n, _, rfl, dirFind_eq_some.mpr ⟨⟨_, slot⟩, first⟩, slot, got⟩
    · intro differ
      rw [← Nat.mul_succ]
      refine ih (n + 1) (slots_next enough) fun m lt e slot => ?_
      obtain lt' | rfl := Nat.lt_succ_iff_lt_or_eq.mp lt
      · exact first m lt' e slot
      · obtain ⟨-, used, rfl⟩ := dirSlot_eq_some slot
        exact fun same => differ ⟨used, (namecmp_eq_zero _ _).mpr same.symm⟩

/-- **`dirlookup` finds an entry only in a directory that the process may search.** -/
theorem dirlookup_spec (named : Named cfg F s.data) (name : List UInt8) :
    wp Benign (dirlookup cfg k name) (fun out t => (F i).type = .dir ∧
      match out with
      | none => t = s ∧ (mayExecute s.myproc (F i) = true → dirFind s.data (F i) name = none)
      | some (l, off) => mayExecute s.myproc (F i) = true ∧
          ∃ n j, off = DIRENT * n ∧ dirFind s.data (F i) name = some n ∧
            dirSlot s.data (F i) n = some (j, nameOf name) ∧
            ∃ ip, t = { s with icache := Function.update s.icache l ip } ∧ Cached cfg F D t ∧
              ip.inum = j ∧ Kept s t (Pi.single l 1) ∧
              (0 < (s.icache l).ref → ip.locked = (s.icache l).locked)) s := by
  simp only [dirlookup, inode, myproc, wp_bind, wp_gets, (inv.cached.held held).1, wp_ite]
  refine ⟨fun _ => by simp [panic, Benign], fun dir => ⟨fun denied => ?_, fun allowed => ?_⟩⟩
  · exact ⟨not_not.mp dir, rfl, fun allowed => by rw [denied] at allowed; cases allowed⟩
  · have dir := not_not.mp dir
    refine (dirlookupLoop_spec inv held dir named name _ 0 (by omega)
      fun m lt => absurd lt (Nat.not_lt_zero m)).mono fun out t found => ⟨dir, ?_⟩
    cases out with
    | none => exact ⟨found.1, fun _ => found.2⟩
    | some result => exact ⟨by simpa using allowed, found⟩

theorem isdiremptyLoop_spec (dir : (F i).type = .dir) (fuel : ℕ) :
    ∀ n, (F i).size ≤ fuel + DIRENT * n →
      wp Benign (isdiremptyLoop cfg k fuel (DIRENT * n)) (fun empty t => t = s ∧
        (empty = true ↔ ∀ m, n ≤ m → dirSlot s.data (F i) m = none)) s := by
  induction fuel with
  | zero =>
    intro n enough
    exact ⟨rfl, fun _ => dirSlot_beyond (by omega), fun _ => rfl⟩
  | succ fuel ih =>
    intro n enough
    simp only [isdiremptyLoop, inode]
    rw [wp_read, (inv.cached.held held).1]
    refine wp.ite (fun below => ?_) fun above => ⟨rfl, fun _ => dirSlot_beyond (by omega), fun _ => rfl⟩
    refine wp_readDirent inv held dir below (by simp [Benign]) fun fits => ?_
    apply wp.ite
    · intro used
      refine ⟨rfl, fun wrong => (by cases wrong), fun empty => ?_⟩
      have := empty n le_rfl
      rw [dirSlot, if_pos ⟨fits, used⟩] at this
      cases this
    · intro unused
      apply (ih (n + 1) (slots_next enough)).mono
      rintro empty t ⟨same, rest⟩
      refine ⟨same, ?_⟩
      rw [rest]
      constructor
      · intro later m le
        obtain rfl | lt := le.eq_or_lt
        · exact if_neg fun cond => unused cond.2
        · exact later m lt
      · exact fun all m le => all m (Nat.le_of_succ_le le)

theorem isdirempty_spec (dir : (F i).type = .dir) :
    wp Benign (isdirempty cfg k) (fun empty t => t = s ∧
      (empty = true ↔ ∀ m, 2 ≤ m → dirSlot s.data (F i) m = none)) s := by
  rw [isdirempty, inode, wp_read, (inv.cached.held held).1]
  exact isdiremptyLoop_spec inv held dir _ 2 (by omega)

/-- The slot in which `dirlink` puts an entry is empty, and it is within the
directory or follows its last one. -/
theorem dirlinkLoop_spec (dir : (F i).type = .dir) (fuel : ℕ) :
    ∀ n, (F i).size ≤ fuel + DIRENT * n → DIRENT * n ≤ (F i).size →
      wp Benign (dirlinkLoop cfg k fuel (DIRENT * n)) (fun off t => t = s ∧ ∃ m,
        off = DIRENT * m ∧ dirSlot s.data (F i) m = none ∧
        (DIRENT * m + DIRENT ≤ (F i).size ∨ DIRENT * m = (F i).size)) s := by
  induction fuel with
  | zero =>
    intro n enough within
    have end_ : DIRENT * n = (F i).size := by omega
    exact ⟨rfl, n, rfl, dirSlot_beyond end_.ge n le_rfl, .inr end_⟩
  | succ fuel ih =>
    intro n enough within
    simp only [dirlinkLoop, inode]
    rw [wp_read, (inv.cached.held held).1]
    refine wp.ite (fun below => ?_) fun above => ?_
    · refine wp_readDirent inv held dir below (by simp [Benign]) fun fits => ?_
      apply wp.ite
      · intro unused
        exact ⟨rfl, n, rfl, if_neg fun cond => cond.2 unused, .inl fits⟩
      · intro used
        exact ih (n + 1) (slots_next enough) fits
    · have end_ : DIRENT * n = (F i).size := by omega
      exact ⟨rfl, n, rfl, dirSlot_beyond end_.ge n le_rfl, .inr end_⟩

end

end

/-! ## Writing an entry -/

/-- A slot depends on the bytes in it. -/
theorem dirSlot_congr {data' : ℕ → Bytes} {d d' : Dinode}
    (within : DIRENT * n + DIRENT ≤ d'.size ↔ DIRENT * n + DIRENT ≤ d.size)
    (bytes : DIRENT * n + DIRENT ≤ d.size → ∀ o, DIRENT * n ≤ o → o < DIRENT * n + DIRENT →
      content data' d' o = content data d o) : dirSlot data' d' n = dirSlot data d n := by
  by_cases fits : DIRENT * n + DIRENT ≤ d.size
  · have same : entryAt data' d' n = entryAt data d n := by
      rw [entryAt]
      congr 1
      refine map_congr_left fun j member => ?_
      have := List.mem_range.mp member
      exact bytes fits _ (by omega) (by omega)
    simp only [dirSlot, same, within]
  · rw [dirSlot, dirSlot, if_neg fun cond => fits (within.mp cond.1), if_neg fun cond => fits cond.1]

namespace Wrote

variable {off n : ℕ} {src : List UInt8}

section

variable (wrote : Wrote cfg F F' D i k off src s t)
include wrote

theorem nlink_eq (j : ℕ) : (F' j).nlink = (F j).nlink := by
  obtain rfl | other := eq_or_ne j i
  · rw [wrote.fields]
  · rw [wrote.others j other]

theorem type_eq (j : ℕ) : (F' j).type = (F j).type := by
  obtain rfl | other := eq_or_ne j i
  · rw [wrote.fields]
  · rw [wrote.others j other]

/-- The slots of other inodes stay. -/
theorem slot_other {j : ℕ} (live : (F j).type ≠ .free) (other : j ≠ i) (m : ℕ) :
    dirSlot t.data (F' j) m = dirSlot s.data (F j) m := by
  refine dirSlot_congr ?_ fun fits o _ below => ?_
  · rw [wrote.others j other]
  · exact wrote.outside j o live (by omega) fun same => absurd same other

end

/-- The other slots of the directory stay. -/
theorem slot_rest (wrote : Wrote cfg F F' D i k (DIRENT * n) src s t) (live : (F i).type ≠ .free)
    (length : src.length = DIRENT)
    (room : DIRENT * n + DIRENT ≤ (F i).size ∨ DIRENT * n = (F i).size) {m : ℕ} (other : m ≠ n) :
    dirSlot t.data (F' i) m = dirSlot s.data (F i) m := by
  have apart : DIRENT * m + DIRENT ≤ DIRENT * n ∨ DIRENT * n + DIRENT ≤ DIRENT * m := by
    simp only [DIRENT, DIRSIZ]
    omega
  refine dirSlot_congr ?_ fun fits o above below => ?_
  · rw [wrote.fields]
    dsimp only
    omega
  · refine wrote.outside i o live (by omega) fun _ => ?_
    omega

/-- The slot that was written holds the new entry. -/
theorem slot_self (wrote : Wrote cfg F F' D i k (DIRENT * n) src s t)
    (length : src.length = DIRENT) :
    dirSlot t.data (F' i) n =
      if (Dirent.ofBytes src).inum ≠ 0 then
        some ((Dirent.ofBytes src).inum, nameOf (Dirent.ofBytes src).name)
      else none := by
  have bytes : entryAt t.data (F' i) n = .ofBytes src := by
    rw [entryAt]
    congr 1
    refine ext_getElem (by simp [length]) fun j small small' => ?_
    rw [getElem_map, getElem_range, wrote.inside _ (Nat.le_add_right _ _) (by omega),
      Nat.add_sub_cancel_left, getD_eq_getElem _ _ small']
  have fits : DIRENT * n + DIRENT ≤ (F' i).size := by
    rw [wrote.fields]
    rw [length]
    exact le_max_right _ _
  rw [dirSlot, bytes]
  simp only [fits, true_and]

/-- Entries are kept except for those of a cache entry's copy of the inode. -/
theorem kept (wrote : Wrote cfg F F' D i k off src s t) : Kept s t 0 :=
  (Kept.setInode s k (F' i)).congr wrote.cache

end Wrote

/-- An entry that is stored and read again. -/
theorem ofBytes_toBytes {inum : ℕ} (small : inum < 256 ^ 2) (name : List UInt8) :
    Dirent.ofBytes (Dirent.toBytes ⟨inum, name⟩) = ⟨inum, name⟩ := by
  simp only [Dirent.ofBytes, Dirent.toBytes, getD_cons_zero, getD_cons_succ,
    UInt8.toNat_ofNat', Dirent.mk.injEq]
  refine ⟨?_, rfl⟩
  omega

/-- One slot of the directory `i` in entry `k` has changed. -/
structure SetSlot (cfg : Config) (F F' : ℕ → Dinode) (D : Set ℕ) (i n : ℕ)
    (e : Option (ℕ × List UInt8)) (s t : Kernel) : Prop where
  fsInv : FsInv cfg F' D t
  outside : Outside s t
  kept : Kept s t 0
  others : ∀ j, j ≠ i → F' j = F j
  fields : F' i = { F i with addrs := (F' i).addrs, size := max (F i).size (DIRENT * n + DIRENT) }
  written : (F i).size < DIRENT * n + DIRENT → Cached cfg F' (D \ {i}) t
  slot : dirSlot t.data (F' i) n = e
  rest : ∀ m, m ≠ n → dirSlot t.data (F' i) m = dirSlot s.data (F i) m
  elsewhere : ∀ j, j ≠ i → (F j).type ≠ .free → ∀ m,
    dirSlot t.data (F' j) m = dirSlot s.data (F j) m

namespace SetSlot

variable {n : ℕ} {e : Option (ℕ × List UInt8)}

theorem type_eq (set : SetSlot cfg F F' D i n e s t) (j : ℕ) : (F' j).type = (F j).type := by
  obtain rfl | other := eq_or_ne j i
  · rw [set.fields]
  · rw [set.others j other]

/-- The entries still name inodes of the table. -/
theorem named (set : SetSlot cfg F F' D i n e s t) (named : Named cfg F s.data)
    (inside : ∀ x ∈ e, x.1 < cfg.sb.ninodes) : Named cfg F' t.data := by
  intro j m x dir slot
  rw [set.type_eq] at dir
  obtain rfl | other := eq_or_ne j i
  · obtain rfl | other := eq_or_ne m n
    · rw [set.slot] at slot
      exact inside x slot
    · rw [set.rest m other] at slot
      exact named dir slot
  · rw [set.elsewhere j other (by rw [dir]; decide)] at slot
    exact named dir slot

end SetSlot

/-- The entry that the bytes of a slot stand for. -/
def slotEntry (src : List UInt8) : Option (ℕ × List UInt8) :=
  if (Dirent.ofBytes src).inum ≠ 0 then
    some ((Dirent.ofBytes src).inum, nameOf (Dirent.ofBytes src).name)
  else none

/-- A slot that is written by `writei`. -/
theorem writeEntry_spec (inv : FsInv cfg F D s) (held : Held s k i) (dir : (F i).type = .dir)
    {src : List UInt8} (length : src.length = DIRENT)
    (room : DIRENT * n + DIRENT ≤ (F i).size ∨ DIRENT * n = (F i).size) :
    wp Benign (writei cfg k src (DIRENT * n)) (fun r t => r = DIRENT →
      ∃ F', SetSlot cfg F F' D i n (slotEntry src) s t) s := by
  have live := (inv.cached.held held).2
  refine ((writei_spec inv held src (DIRENT * n)).and
    ((fsFrame_outside s).writei k src _ s (.refl s))).mono fun r t ⟨written, outside⟩ => ?_
  intro full
  obtain ⟨-, dev | failed⟩ | ⟨-, -, -, F', wrote⟩ := written
  · rw [dir] at dev
    cases dev
  · rw [failed] at full
    cases full
  · refine ⟨F', wrote.fsInv, outside, wrote.kept, wrote.others, ?_, ?_, wrote.slot_self length,
      fun m other => wrote.slot_rest live length room other,
      fun j other liveJ m => wrote.slot_other liveJ other m⟩
    · have fields := wrote.fields
      rwa [length] at fields
    · have written := wrote.written
      rwa [length] at written

/-- The slot that `dirlink` fills. The number 0 means that a slot is empty. -/
def newEntry (x : ℕ) (name : List UInt8) : Option (ℕ × List UInt8) :=
  if x ≠ 0 then some (x, nameOf name) else none

/-- **`dirlink` puts the entry into an empty slot**, or finds the name. -/
theorem dirlink_spec (inv : FsInv cfg F D s) (held : Held s k i) (named : Named cfg F s.data)
    (name : List UInt8) {x : ℕ} (small : x < cfg.sb.ninodes) :
    wp Benign (dirlink cfg k name x) (fun r t => (F i).type = .dir ∧
      ((r = -1 ∧ ∃ F', Shrinks cfg F F' D s t 0) ∨
      (r = 0 ∧ (mayExecute s.myproc (F i) = true → dirFind s.data (F i) name = none) ∧
        ∃ F' n, dirSlot s.data (F i) n = none ∧
          (DIRENT * n + DIRENT ≤ (F i).size ∨ DIRENT * n = (F i).size) ∧
          SetSlot cfg F F' D i n (newEntry x name) s t))) s := by
  apply (dirlookup_spec inv held named name).seq
  rintro out t ⟨dir, found⟩
  cases out with
  | some result =>
    obtain ⟨-, n, j, -, -, -, ip, rfl, cached, -, kept, -⟩ := found
    apply (((Shrinks.refl inv).step cached kept).iput (by simp)).seq
    rintro _ u ⟨F', dropped, _⟩
    rw [add_sub_single] at dropped
    exact ⟨dir, .inl ⟨rfl, F', dropped⟩⟩
  | none =>
    obtain ⟨rfl, absent⟩ := found
    simp only [inode]
    rw [wp_read, (inv.cached.held held).1, wp_bind]
    have start := dirlinkLoop_spec inv held dir (F i).size 0 (by omega) (by omega)
    apply start.mono
    rintro off u ⟨same, n, at_, empty, room⟩
    subst same at_
    have fits : x % 2 ^ 16 = x := Nat.mod_eq_of_lt (small.trans_le cfg.sb.ninodes_le)
    rw [wp_bind, fits]
    have length : (Dirent.toBytes ⟨x, strncpy DIRSIZ name⟩).length = DIRENT := by
      rw [Dirent.toBytes, length_cons, length_cons, length_strncpy]
      rfl
    have entry : slotEntry (Dirent.toBytes ⟨x, strncpy DIRSIZ name⟩) = newEntry x name := by
      rw [slotEntry, ofBytes_toBytes (small.trans_le cfg.sb.ninodes_le), nameOf_strncpy, newEntry]
    refine (writeEntry_spec inv held dir length room).mono fun r v written => ?_
    refine wp.ite (fun _ => by simp [panic, Benign]) fun full => ?_
    obtain ⟨F', set⟩ := written (not_not.mp full)
    rw [entry] at set
    exact ⟨dir, .inr ⟨rfl, absent, F', n, empty, room, set⟩⟩

end Xv6Uac
