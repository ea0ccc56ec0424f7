import Xv6Uac.Fs.ByteFiles
import Xv6Uac.Fs.WriteThrough

/-!
# Open files as byte arrays

What a process sees of a regular file that is open for reading and writing is a byte array
and an offset (`OpenFile`). `read` and `write` move along the array, `lseek` sets the
offset and `trim` sets the length to the offset.

The kernel implements this (`open_file_is_byte_array`), with two exceptions
(`open_file_fails`). A write that finds no free block ends in a panic. And `trim` sets the
size of the inode and leaves its blocks alone. A longer file shows what its last block
holds after the old end, and where there is no block, a `read` tries to allocate one
outside of a transaction and panics. The condition `Fits` excludes both.
-/

namespace Xv6Uac

open Words Hoare Finset
open Function (update_eq_self update_self)

variable {cfg : Config} {E : Stop → Prop} {L : ℕ → ℕ} {s t u : Kernel} {f k i : ℕ}

/-! ## The byte array -/

/-- A file of bytes and an offset in it. -/
structure OpenFile where
  bytes : List UInt8
  off : ℕ

/-- How many of `n` bytes a write takes. It writes pieces of `writeMax` bytes, and stops
at the first one that goes beyond the largest file. -/
def accepted (size off n : ℕ) : ℕ :=
  if size < off then 0
  else if off + n ≤ MAXFILE * BSIZE then n
  else (MAXFILE * BSIZE - off) / writeMax * writeMax

namespace OpenFile

/-- The bytes from the offset on. -/
def read (a : OpenFile) (n : ℕ) : (ℤ × List UInt8) × OpenFile :=
  if a.bytes.length < a.off then ((-1, []), a)
  else
    (((ByteFile.read a.bytes a.off n).length, ByteFile.read a.bytes a.off n),
      { a with off := a.off + (ByteFile.read a.bytes a.off n).length })

/-- Put bytes at the offset. -/
def write (a : OpenFile) (src : List UInt8) : ℤ × OpenFile :=
  (if accepted a.bytes.length a.off src.length = src.length then src.length else -1,
    { bytes := ByteFile.write a.bytes a.off (src.take (accepted a.bytes.length a.off src.length))
      off := a.off + accepted a.bytes.length a.off src.length })

/-- Set the offset, as an unsigned number of 32 bits. -/
def seek (a : OpenFile) (offset whence : ℤ) : OpenFile :=
  { a with
    off :=
      if whence = 0 then (offset % 2 ^ 32).toNat
      else if whence = 1 then ((a.off + offset) % 2 ^ 32).toNat
      else if whence = 2 then ((a.bytes.length + offset) % 2 ^ 32).toNat
      else a.off }

/-- Set the length to the offset. New bytes are zero. -/
def trim (a : OpenFile) : OpenFile := { a with bytes := ByteFile.resize 0 a.bytes a.off }

/-- What a call on the file returns, with the bytes that it reads. -/
def step (a : OpenFile) : Call → (ℤ × List UInt8) × OpenFile
  | .read _ n => a.read n
  | .write _ src => (((a.write src).1, []), (a.write src).2)
  | .lseek _ offset whence => ((0, []), a.seek offset whence)
  | .trim _ => ((0, []), a.trim)
  | _ => ((-1, []), a)

/-- The file after some calls, the last one first. -/
def after (a : OpenFile) : List Step → OpenFile
  | [] => a
  | taken :: earlier => ((a.after earlier).step taken.call).2

end OpenFile

theorem OpenFile.write_nothing {a : OpenFile} {src : List UInt8}
    (none : accepted a.bytes.length a.off src.length = 0) : (a.write src).2 = a := by
  rw [OpenFile.write, none, List.take_zero, ByteFile.write_nil, Nat.add_zero]

/-- A write is the write of its first piece and that of the rest. -/
theorem accepted_piece {size off n m : ℕ} (start : off ≤ size)
    (piece : m = min n writeMax) (fits : off + m ≤ MAXFILE * BSIZE) :
    accepted size off n = m + accepted (max size (off + m)) (off + m) (n - m) := by
  have first : ¬size < off := by omega
  have second : ¬max size (off + m) < off + m := by omega
  rw [accepted, accepted, if_neg first, if_neg second]
  by_cases all : off + n ≤ MAXFILE * BSIZE
  · have rest : off + m + (n - m) ≤ MAXFILE * BSIZE := by omega
    rw [if_pos all, if_pos rest]
    omega
  · have rest : ¬off + m + (n - m) ≤ MAXFILE * BSIZE := by omega
    have step : MAXFILE * BSIZE - off = MAXFILE * BSIZE - (off + m) + writeMax := by omega
    rw [if_neg all, if_neg rest, step, Nat.add_div_right _ (by decide), Nat.succ_mul]
    omega

theorem OpenFile.write_pieces {a : OpenFile} {head tail : List UInt8}
    (start : a.off ≤ a.bytes.length) (piece : head.length = min (head ++ tail).length writeMax)
    (fits : a.off + head.length ≤ MAXFILE * BSIZE) :
    ((⟨ByteFile.write a.bytes a.off head, a.off + head.length⟩ : OpenFile).write tail).2 =
      (a.write (head ++ tail)).2 := by
  simp only [OpenFile.write, ByteFile.length_write start, ByteFile.write_write start]
  rw [accepted_piece start piece fits, List.take_length_add_append, Nat.add_assoc,
    List.length_append, Nat.add_sub_cancel_left]

/-- A write whose first piece does not fit. -/
theorem accepted_none {size off n : ℕ} (bound : size ≤ MAXFILE * BSIZE)
    (bad : ¬(off ≤ size ∧ off + min n writeMax ≤ MAXFILE * BSIZE)) : accepted size off n = 0 := by
  rw [accepted]
  split
  · rfl
  · rw [if_neg (by omega), Nat.div_eq_of_lt (by omega), Nat.zero_mul]

/-! ## The kernel -/

/-- Between two calls, `f` points to a regular file, on entry `k` of the inode cache. -/
structure Attached (cfg : Config) (s : Kernel) (f k : ℕ) : Prop where
  inv : ∃ L, KernelInv cfg L s 0
  unlocked : Locked ∅ s
  idle : s.outstanding = 0 ∧ s.lh = []
  inside : f < NFILE
  points : (s.ftable f).inode = some k
  regular : (s.dinode (s.icache k).inum).type = .file
  small : (s.ftable f).off < 2 ^ 32

/-- Between two calls, `f` is a regular file that is open for reading and writing, on
entry `k` of the inode cache. -/
structure Opened (cfg : Config) (s : Kernel) (f k : ℕ) : Prop where
  inv : ∃ L, KernelInv cfg L s 0
  unlocked : Locked ∅ s
  idle : s.outstanding = 0 ∧ s.lh = []
  inside : f < NFILE
  points : (s.ftable f).inode = some k
  readable : (s.ftable f).readable = true
  writable : (s.ftable f).writable = true
  valid : (s.icache k).valid = true
  regular : (s.dinode (s.icache k).inum).type = .file
  small : (s.ftable f).off < 2 ^ 32

/-- Between two calls, `f` is a regular file that is open for writing. -/
structure ForWriting (cfg : Config) (s : Kernel) (f k : ℕ) : Prop extends Attached cfg s f k where
  writable : (s.ftable f).writable = true
  valid : (s.icache k).valid = true

/-- What a process sees of an open file. -/
def view (s : Kernel) (f k : ℕ) : OpenFile :=
  ⟨bytesOf s.data (s.dinode (s.icache k).inum), (s.ftable f).off⟩

/-- The state with another offset of a file. -/
def Kernel.seek (s : Kernel) (f x : ℕ) : Kernel :=
  { s with ftable := Function.update s.ftable f { s.ftable f with off := x } }

theorem Kernel.seek_self (s : Kernel) (f : ℕ) : s.seek f (s.ftable f).off = s := by
  rw [Kernel.seek, update_eq_self]

/-- From `s` to `t` the file has become `a`. -/
structure Moved (s : Kernel) (f k : ℕ) (a : OpenFile) (t : Kernel) : Prop where
  idle : t.outstanding = 0 ∧ t.lh = []
  file : t.ftable f = { s.ftable f with off := a.off }
  valid : (t.icache k).valid = true
  inum : (t.icache k).inum = (s.icache k).inum
  regular : (t.dinode (s.icache k).inum).type = .file
  bytes : bytesOf t.data (t.dinode (s.icache k).inum) = a.bytes
  small : a.off < 2 ^ 32

theorem Moved.trans {a b : OpenFile} (first : Moved s f k a t) (second : Moved t f k b u) :
    Moved s f k b u where
  idle := second.idle
  file := by rw [second.file, first.file]
  valid := second.valid
  inum := second.inum.trans first.inum
  regular := first.inum ▸ second.regular
  bytes := first.inum ▸ second.bytes
  small := second.small

theorem Moved.view {a : OpenFile} (moved : Moved s f k a t) : view t f k = a := by
  rw [Xv6Uac.view, moved.inum, moved.bytes, moved.file]

namespace Opened

theorem moved {a : OpenFile} (opened : Opened cfg s f k) (moved : Moved s f k a t)
    (inv : KernelInv cfg L t 0) (unlocked : Locked ∅ t) : Opened cfg t f k where
  inv := ⟨L, inv⟩
  unlocked := unlocked
  idle := moved.idle
  inside := opened.inside
  points := by
    rw [moved.file]
    exact opened.points
  readable := by
    rw [moved.file]
    exact opened.readable
  writable := by
    rw [moved.file]
    exact opened.writable
  valid := moved.valid
  regular := moved.inum ▸ moved.regular
  small := by
    rw [moved.file]
    exact moved.small

theorem switch (opened : Opened cfg s f k) {p : ℕ} (process : p < NPROC) :
    Opened cfg (s.switch p) f k := by
  obtain ⟨L, inv⟩ := opened.inv
  exact ⟨⟨L, inv.switch process⟩, opened.unlocked, opened.idle, opened.inside, opened.points,
    opened.readable, opened.writable, opened.valid, opened.regular, opened.small⟩

theorem attached (opened : Opened cfg s f k) : Attached cfg s f k :=
  ⟨opened.inv, opened.unlocked, opened.idle, opened.inside, opened.points, opened.regular,
    opened.small⟩

theorem forWriting (opened : Opened cfg s f k) : ForWriting cfg s f k :=
  ⟨opened.attached, opened.writable, opened.valid⟩

end Opened

namespace Attached

theorem used (attached : Attached cfg s f k) : 0 < (s.icache k).ref := by
  obtain ⟨L, inv⟩ := attached.inv
  rw [inv.refs k]
  have := holders_file attached.inside attached.points
  omega

theorem size_le (attached : Attached cfg s f k) :
    (s.dinode (s.icache k).inum).size ≤ MAXFILE * BSIZE := by
  obtain ⟨L, inv⟩ := attached.inv
  exact inv.fs.layout.size_le (by rw [attached.regular]; decide)

theorem moved {a : OpenFile} (attached : Attached cfg s f k) (moved : Moved s f k a t)
    (inv : KernelInv cfg L t 0) (unlocked : Locked ∅ t) : Attached cfg t f k where
  inv := ⟨L, inv⟩
  unlocked := unlocked
  idle := moved.idle
  inside := attached.inside
  points := by
    rw [moved.file]
    exact attached.points
  regular := moved.inum ▸ moved.regular
  small := by
    rw [moved.file]
    exact moved.small

end Attached

theorem ForWriting.moved {a : OpenFile} (opened : ForWriting cfg s f k) (moved : Moved s f k a t)
    (inv : KernelInv cfg L t 0) (unlocked : Locked ∅ t) : ForWriting cfg t f k :=
  ⟨opened.toAttached.moved moved inv unlocked, by rw [moved.file]; exact opened.writable, moved.valid⟩

/-! ## Steps that do not fail -/

theorem beginOp_idle (idle : s.outstanding = 0 ∧ s.lh = []) :
    wp E beginOp (fun _ t => t = { s with outstanding := 1 }) s := by
  simp only [beginOp, wp_bind, wp_gets, wp_ite, wp_update, idle.1, idle.2]
  exact ⟨fun full => absurd full (by decide), fun _ => rfl⟩

theorem endOp_last (last : s.outstanding = 1) :
    wp E endOp (fun _ t => t = { s with outstanding := 0, lh := [] }) s := by
  rw [endOp, wp_update, if_pos (by rw [last]; rfl)]

/-- `ilock` of an inode that is in use and allocated. -/
theorem ilock_ready (fs : FsInv cfg s.dinode ∅ s) (used : 0 < (s.icache k).ref)
    (unlocked : (s.icache k).locked = false)
    (live : (s.dinode (s.icache k).inum).type ≠ .free) :
    wp E (ilock cfg k) (fun _ t => ∃ ip,
      t = { s with icache := Function.update s.icache k ip } ∧ FsInv cfg s.dinode ∅ t ∧
        Held t k (s.icache k).inum ∧ ip.locked = true) s := by
  have total : wp E (ilock cfg k) (fun _ _ => True) s := by
    simp only [ilock, acquiresleep, loadInode, inode, modifyInode, wp_bind, wp_gets, wp_ite,
      wp_when, wp_update, update_self]
    refine ⟨fun unused => absurd unused (by omega), fun _ => ⟨fun locked => ?_, fun _ =>
      ⟨fun _ => ⟨fun _ => ⟨fun free => absurd free live, fun _ => trivial⟩, fun outside =>
        absurd (fs.cached.inside used) outside⟩, fun _ => trivial⟩⟩⟩
    rw [unlocked] at locked
    cases locked
  apply (total.and (ilock_spec fs.cached (Set.notMem_empty _))).mono
  rintro _ t ⟨_, ip, same, cached, held, _, _, locked⟩
  refine ⟨ip, same, ⟨cached, ?_⟩, held, locked⟩
  rw [same]
  exact fs.layout

theorem iunlock_held (held : Held s k i) (locked : (s.icache k).locked = true) :
    wp E (iunlock k) (fun _ t =>
      t = { s with
        icache := Function.update s.icache k { s.icache k with locked := false } }) s := by
  have used := held.ref
  simp only [iunlock, inode, modifyInode, wp_bind, wp_gets, wp_ite, wp_update,
    locked]
  exact ⟨fun bad => absurd bad (by simp; omega), fun _ => trivial⟩

/-- The end of a call that has changed the file. -/
theorem unlockAndEnd {a : OpenFile} {x : ℤ} (held : Held t k (s.icache k).inum)
    (locked : (t.icache k).locked = true) (one : t.outstanding = 1)
    (file : t.ftable f = { s.ftable f with off := a.off })
    (regular : (t.dinode (s.icache k).inum).type = .file)
    (bytes : bytesOf t.data (t.dinode (s.icache k).inum) = a.bytes) (small : a.off < 2 ^ 32) :
    wp E (do
      iunlock k
      endOp
      pure x) (fun r u => r = x ∧ Moved s f k a u ∧ u.data = t.data ∧ u.dinode = t.dinode ∧
        u.bitmap = t.bitmap) t := by
  refine (iunlock_held held locked).seq fun _ u same => ?_
  refine (endOp_last (by rw [same]; exact one)).seq fun _ v same' => ?_
  subst same same'
  refine ⟨rfl, ⟨⟨rfl, rfl⟩, file, ?_, ?_, regular, bytes, small⟩, rfl, rfl, rfl⟩
  · simpa using held.valid
  · simpa using held.inum

/-- The log of an operation has room for a piece of a write. -/
theorem card_touched_le (off n : ℕ) : (touched off n).card ≤ (n - 1) / BSIZE + 2 := by
  have within : touched off n ⊆ Finset.Icc (off / BSIZE) (off / BSIZE + ((n - 1) / BSIZE + 1)) := by
    intro x member
    obtain ⟨j, below, rfl⟩ := Finset.mem_image.mp member
    have below := Finset.mem_range.mp below
    simp only [mem_Icc, BSIZE]
    omega
  apply (card_le_card within).trans
  rw [Nat.card_Icc]
  generalize (n - 1) / BSIZE = m
  omega

theorem card_wanted_le (off n : ℕ) : (wanted off n).card ≤ (touched off n).card + 1 := by
  have within : wanted off n ⊆ insert NDIRECT ((touched off n).image slotOf) := by
    intro p member
    obtain ⟨x, touches, needs⟩ := Finset.mem_biUnion.mp member
    rw [blockPlaces] at needs
    rw [mem_insert, mem_image]
    split at needs
    · rename_i direct
      exact .inr ⟨x, touches, by rw [slotOf, if_pos direct, Finset.mem_singleton.mp needs]⟩
    · rename_i indirect
      obtain same | same := Finset.mem_insert.mp needs
      · exact .inl same
      · exact .inr ⟨x, touches, by rw [slotOf, if_neg indirect, Finset.mem_singleton.mp same]⟩
  exact (card_le_card within).trans ((card_insert_le _ _).trans
    (Nat.add_le_add_right card_image_le 1))

/-! ## The calls -/

namespace Attached

variable (attached : Attached cfg s f k)
include attached

/-- `ilock` of the inode of the file. -/
theorem ilock (same : SameFs s t) (locked : t.icache = s.icache) :
    wp E (ilock cfg k) (fun _ u => ∃ ip, u = { t with icache := Function.update t.icache k ip } ∧
      FsInv cfg s.dinode ∅ u ∧ Held u k (s.icache k).inum ∧ ip.locked = true) t := by
  obtain ⟨L, inv⟩ := attached.inv
  have fs : FsInv cfg t.dinode ∅ t := same.dinode ▸ inv.fs.congr same
  refine (ilock_ready fs (locked ▸ attached.used) ?_ ?_).mono fun _ u ⟨ip, eq, fsU, held, isLocked⟩ =>
    ⟨ip, eq, same.dinode ▸ fsU, locked ▸ held, isLocked⟩
  · rw [locked]
    simpa using attached.unlocked k
  · rw [same.dinode, locked, attached.regular]
    decide

/-- **One piece of a write.** It fails only for want of blocks. -/
theorem filewriteRound {A : Prop} (log : LOGSIZE ≤ cfg.sb.nlog) {src : List UInt8}
    (few : src.length ≤ writeMax) {b : ℕ}
    (funds : A → (s.ftable f).off ≤ (s.dinode (s.icache k).inum).size →
      (s.ftable f).off + src.length ≤ MAXFILE * BSIZE →
      (lacking s.data (s.dinode (s.icache k).inum) (wanted (s.ftable f).off src.length)).card + b ≤
        freeBlocks cfg s) :
    wp (fun _ => ¬A) (filewriteRound cfg f k src) (fun r t =>
      (((s.ftable f).off ≤ (s.dinode (s.icache k).inum).size ∧
          (s.ftable f).off + src.length ≤ MAXFILE * BSIZE) ∧ r = src.length ∧
        Moved s f k ⟨ByteFile.write (view s f k).bytes (s.ftable f).off src,
          (s.ftable f).off + src.length⟩ t ∧ (A → b ≤ freeBlocks cfg t) ∧
        ∀ n, (lacking s.data (s.dinode (s.icache k).inum)
              (wanted (s.ftable f).off src.length)).card +
            (lacking t.data (t.dinode (s.icache k).inum)
              (wanted ((s.ftable f).off + src.length) n)).card ≤
          (lacking s.data (s.dinode (s.icache k).inum)
            (wanted (s.ftable f).off (src.length + n))).card) ∨
      (¬((s.ftable f).off ≤ (s.dinode (s.icache k).inum).size ∧
          (s.ftable f).off + src.length ≤ MAXFILE * BSIZE) ∧ r = -1 ∧
        Moved s f k (view s f k) t)) s := by
  have largest : MAXFILE * BSIZE < 2 ^ 31 := by decide
  have limit : writeMax = 1536 := by decide
  have small := attached.small
  have notDev : (s.dinode (s.icache k).inum).type ≠ .dev := by rw [attached.regular]; decide
  refine (beginOp_idle attached.idle).seq fun _ s₁ begun => ?_
  apply (attached.ilock (by rw [begun]; exact ⟨rfl, rfl, rfl, rfl⟩) (by rw [begun])).seq
  rintro _ t ⟨ip, same, fs, held, locked⟩
  rw [begun] at same
  have entry : t.icache k = ip := by
    rw [same]
    exact update_self ..
  have file : t.ftable = s.ftable := by rw [same]
  have one : t.outstanding = 1 := by rw [same]
  have data : t.data = s.data := by rw [same]
  rw [wp_read, wp_bind, file]
  by_cases fits : (s.ftable f).off ≤ (s.dinode (s.icache k).inum).size ∧
      (s.ftable f).off + src.length ≤ MAXFILE * BSIZE
  · have accepts : ¬Refused (s.dinode (s.icache k).inum) (s.ftable f).off src.length := by
      rintro (beyond | wraps | large) <;> omega
    have places : (lacking t.data (s.dinode (s.icache k).inum)
        (wanted (s.ftable f).off src.length)).card ≤ 5 := by
      have := card_touched_le (s.ftable f).off src.length
      have := card_wanted_le (s.ftable f).off src.length
      have : (src.length - 1) / BSIZE ≤ 2 := by
        simp only [BSIZE]
        omega
      exact (card_filter_le _ _).trans (by omega)
    have funded : A → Funded cfg t
        ((lacking t.data (s.dinode (s.icache k).inum)
          (wanted (s.ftable f).off src.length)).card + b)
        ((touched (s.ftable f).off src.length).card +
          3 * (lacking t.data (s.dinode (s.icache k).inum)
            (wanted (s.ftable f).off src.length)).card + 1 + 0) := by
      intro asked
      have touches : (touched (s.ftable f).off src.length).card ≤ 4 := by
        apply (card_touched_le _ _).trans
        simp only [BSIZE]
        omega
      have empty : t.lh = [] := by rw [same]; exact attached.idle.2
      have free : freeBlocks cfg t = freeBlocks cfg s := by rw [freeBlocks, freeBlocks, same]
      have size : LOGSIZE = 30 := rfl
      refine ⟨by rw [one], ?_, ?_, ?_⟩
      · rw [empty, List.length_nil]
        omega
      · rw [empty, List.length_nil]
        omega
      · rw [free, data]
        exact funds asked fits.1 fits.2
    refine ((((writei_short fs held src _ funded).and
      (writei_accepted fs held notDev small (by omega) accepts)).and
      ((fsFrame_outside t).writei k src _ t (.refl t))).weaken fun _ short => short.1).mono ?_
    rintro r u ⟨⟨left, count, start, F', wrote⟩, outside⟩
    have spliced := wrote.spliced held (fs.cached.held held).2 start
    have disk : u.dinode = F' := wrote.fsInv.dinode
    have entryU : u.icache k = { ip with d := F' (s.icache k).inum } := by
      rw [wrote.cache, update_self, entry]
    -- the offset after the piece; an empty piece leaves it
    have seek : (when (0 < r) (modifyFile f fun file =>
        { file with off := (file.off + r.toNat) % 2 ^ 32 })) u =
          .ok ((), u.seek f ((s.ftable f).off + src.length)) := by
      have files : u.ftable f = s.ftable f := by rw [outside.ftable, file]
      rw [count]
      by_cases some : 0 < src.length
      · rw [when, if_pos (by omega), modifyFile, update, Kernel.seek, files, Int.toNat_natCast,
          Nat.mod_eq_of_lt (by omega)]
      · have none : src.length = 0 := by omega
        rw [when, none, Nat.add_zero, ← files, Kernel.seek_self]
        rfl
    rw [wp_bind, wp, seek]
    refine (unlockAndEnd (a := ⟨ByteFile.write (view s f k).bytes (s.ftable f).off
      src, (s.ftable f).off + src.length⟩) ⟨?_, ?_, ?_⟩ ?_ ?_ ?_ ?_ ?_ ?_).mono
      fun x v after => .inl ⟨fits, after.1.trans count, after.2.1, ?_, ?_⟩
    · exact spliced.held.ref
    · exact spliced.held.valid
    · exact spliced.held.inum
    · change (u.icache k).locked = true
      rwa [entryU]
    · exact wrote.outstanding.trans one
    · simp [Kernel.seek, outside.ftable, file]
    · change (u.dinode _).type = _
      rw [disk, spliced.fields]
      exact attached.regular
    · change bytesOf u.data (u.dinode _) = _
      rw [disk, spliced.bytes, data]
      rfl
    · dsimp only
      omega
    · have free : freeBlocks cfg v = freeBlocks cfg u := by rw [freeBlocks, after.2.2.2.2]; rfl
      rw [free]
      exact fun asked => (left asked).free
    · intro n
      rw [after.2.2.1, after.2.2.2.1]
      change _ + (lacking u.data (u.dinode _) _).card ≤ _
      rw [disk, ← data]
      exact lacking_rest wrote.present wrote.covered
  · have refuses : Refused (s.dinode (s.icache k).inum) (s.ftable f).off src.length := by
      by_contra accepts
      simp only [Refused, not_or] at accepts
      omega
    apply (writei_refused fs held notDev small (by omega) refuses).mono
    rintro r u ⟨failed, rfl⟩
    rw [wp_bind, wp_when, failed]
    refine ⟨fun positive => absurd positive (by decide), fun _ => ?_⟩
    refine (unlockAndEnd held ?_ one ?_ ?_ ?_ small).mono
      fun x v after => .inr ⟨fits, after.1, after.2.1⟩
    · rwa [entry]
    · rw [file]
      rfl
    · rw [fs.dinode]
      exact attached.regular
    · rw [fs.dinode, data]
      rfl

end Attached

namespace Opened

variable (opened : Opened cfg s f k)
include opened

theorem fileread {n : ℕ} (few : n < 2 ^ 31) :
    wp E (fileread cfg f n) (fun out t => out = ((view s f k).read n).1 ∧
      Moved s f k ((view s f k).read n).2 t) s := by
  obtain ⟨isInode, has⟩ := File.inode_eq_some.mp opened.points
  have bound := opened.attached.size_le
  have largest : MAXFILE * BSIZE < 2 ^ 31 := by decide
  have small := opened.small
  have notDev : (s.dinode (s.icache k).inum).type ≠ .dev := by rw [opened.regular]; decide
  simp only [Xv6Uac.fileread, wp_bind, wp_gets, opened.readable, isInode, has,
    Bool.true_eq_false, if_false]
  apply (opened.attached.ilock (.refl s) rfl).mono
  rintro _ t ⟨ip, same, fs, held, locked⟩
  apply (readi_spec fs held _ n).seq
  rintro out u ⟨_, result⟩
  obtain ⟨rfl, value⟩ := result notDev
  have data : u.data = s.data := by rw [same]
  have entry : u.icache k = ip := by
    rw [same]
    exact update_self ..
  -- what is left is to set the offset and to unlock the inode
  have finish : ∀ {x : ℕ}, x < 2 ^ 32 →
      wp E (do
        iunlock k
        pure out) (fun r v => r = out ∧ Moved s f k { view s f k with off := x } v)
        (u.seek f x) := by
    intro x fits
    have heldX : Held (u.seek f x) k (s.icache k).inum := ⟨held.ref, held.valid, held.inum⟩
    have lockedX : ((u.seek f x).icache k).locked = true := by rwa [← entry] at locked
    refine (iunlock_held heldX lockedX).seq fun _ v eq => ⟨rfl, ?_⟩
    subst eq same
    refine ⟨opened.idle, ?_, ?_, ?_, opened.regular, rfl, fits⟩
    · simp [Kernel.seek]
    · simpa [Kernel.seek] using held.valid
    · simpa [Kernel.seek] using held.inum
  have ftable : u.ftable f = s.ftable f := by rw [same]
  have noSeek : u.seek f (s.ftable f).off = u := ftable ▸ u.seek_self f
  rw [wp_bind, wp_when]
  by_cases beyond : (s.dinode (s.icache k).inum).size < (s.ftable f).off
  · have failed : (view s f k).read n = ((-1, []), view s f k) := by
      rw [OpenFile.read, if_pos (by simpa [view] using beyond)]
    have value : out = (-1, []) := value.trans (if_pos (.inl beyond))
    refine ⟨fun positive => absurd positive (by rw [value]; decide), fun _ => ?_⟩
    rw [← noSeek, failed, ← value]
    exact finish small
  · have good : ¬((s.dinode (s.icache k).inum).size < (s.ftable f).off ∨
        ((s.ftable f).off + n) % 2 ^ 32 < (s.ftable f).off) := by omega
    have value := value.trans (if_neg good)
    have bytes : ByteFile.read (view s f k).bytes (s.ftable f).off n = out.2 := by
      rw [value, view, bytesOf, ByteFile.read_map_range, data]
    have length : out.2.length = min n ((s.dinode (s.icache k).inum).size - (s.ftable f).off) := by
      rw [value]
      simp
    have count : out.1 = (out.2.length : ℤ) := by
      rw [length, value]
    have done : (view s f k).read n = (out, { view s f k with
        off := (s.ftable f).off + out.2.length }) := by
      rw [OpenFile.read, if_neg (by simpa [view] using beyond)]
      change ((((ByteFile.read (view s f k).bytes (s.ftable f).off n).length : ℤ),
        ByteFile.read (view s f k).bytes (s.ftable f).off n), _) = _
      rw [bytes, ← count]
      change (out, { view s f k with off := (s.ftable f).off +
        (ByteFile.read (view s f k).bytes (s.ftable f).off n).length }) = _
      rw [bytes]
    rw [done]
    refine ⟨fun positive => ?_, fun none => ?_⟩
    · have next : ((u.ftable f).off + out.1.toNat) % 2 ^ 32 =
          (s.ftable f).off + out.2.length := by
        rw [ftable, count]
        exact Nat.mod_eq_of_lt (by omega)
      rw [modifyFile, wp_update, next]
      exact finish (by omega)
    · have zero : out.2.length = 0 := by omega
      rw [← noSeek, zero]
      exact finish small

/-- `trim` to an offset up to which the file has zeros. -/
theorem sysTrim (log : LOGSIZE ≤ cfg.sb.nlog) {fd : ℤ} (on : fileOf s fd = some f)
    (zeros : ∀ o, (s.dinode (s.icache k).inum).size ≤ o → o < (s.ftable f).off →
      content s.data (s.dinode (s.icache k).inum) o = 0) :
    wp E (sysTrim cfg fd) (fun r t => r = 0 ∧ Moved s f k (view s f k).trim t) s := by
  obtain ⟨isInode, has⟩ := File.inode_eq_some.mp opened.points
  rw [Xv6Uac.sysTrim, wp_argfd, on]
  rw [wp_read]
  refine (beginOp_idle opened.idle).seq fun _ s₁ begun => ?_
  rw [has]
  apply (opened.attached.ilock (by rw [begun]; exact ⟨rfl, rfl, rfl, rfl⟩) (by rw [begun])).seq
  rintro _ t ⟨ip, same, fs, held, locked⟩
  rw [begun] at same
  have entry : t.icache k = ip := by
    rw [same]
    exact update_self ..
  have shown : ip.d = s.dinode (s.icache k).inum := entry ▸ (fs.cached.held held).1
  have inum : ip.inum = (s.icache k).inum := entry ▸ held.inum
  simp only [modifyDinode, modifyInode, wp_bind, wp_update, entry, shown, inum]
  refine (((logWrite_short (b := 0) (l := 0) _ fun _ => ?_).and
    (logWrite_spec _)).weaken fun _ short => absurd trivial short.1).mono
    fun _ u logged => ?_
  · have size : LOGSIZE = 30 := rfl
    subst same
    refine ⟨le_rfl, ?_, ?_, Nat.zero_le _⟩
    · simp only [opened.idle.2, List.length_nil]
      omega
    · simp only [opened.idle.2, List.length_nil]
      omega
  · obtain ⟨-, lh, eq⟩ := logged
    subst same
    refine (unlockAndEnd (f := f) (a := (view s f k).trim) ⟨?_, ?_, ?_⟩ ?_ ?_ ?_ ?_
      ?_ opened.small).mono fun _ _ after => ⟨after.1, after.2.1⟩
    all_goals subst eq
    · simpa using held.ref
    · simpa using held.valid
    · simp
    · simpa using locked
    · rfl
    · rfl
    · simpa using opened.regular
    · have bytes : ∀ o, content s.data
          { s.dinode (s.icache k).inum with size := (s.ftable f).off } o =
            content s.data (s.dinode (s.icache k).inum) o := content_congr s.data rfl
      simp only [update_self]
      refine ByteFile.map_range_eq_resize 0 (fun o _ _ => bytes o) fun o new below => ?_
      exact zeros o new below

theorem sysLseek {fd : ℤ} (on : fileOf s fd = some f) (offset whence : ℤ) :
    wp E (sysLseek fd offset whence) (fun r t => r = 0 ∧
      Moved s f k ((view s f k).seek offset whence) t) s := by
  obtain ⟨isInode, has⟩ := File.inode_eq_some.mp opened.points
  obtain ⟨L, inv⟩ := opened.inv
  have shown : (s.icache k).d = s.dinode (s.icache k).inum :=
    (inv.fs.cached.shows opened.attached.used opened.valid).1
  have moved : ∀ {x : ℕ}, x < 2 ^ 32 → Moved s f k { view s f k with off := x } (s.seek f x) :=
    fun fits => ⟨opened.idle, by simp [Kernel.seek], opened.valid, rfl, opened.regular, rfl, fits⟩
  have word : ∀ x : ℤ, (x % 2 ^ 32).toNat < 2 ^ 32 := fun x => by omega
  rw [Xv6Uac.sysLseek, wp_argfd, on]
  simp only [wp_bind, wp_gets, wp_ite, modifyFile, wp_update, wp_pure, true_and]
  refine ⟨fun set => ?_, fun notSet => ⟨fun cur => ?_, fun notCur => ⟨fun ends => ?_,
    fun other => ?_⟩⟩⟩
  · rw [OpenFile.seek, if_pos set]
    exact moved (word _)
  · rw [OpenFile.seek, if_neg notSet, if_pos cur]
    exact moved (word _)
  · have length : (view s f k).bytes.length = (s.dinode (s.icache k).inum).size :=
      length_bytesOf _ _
    rw [OpenFile.seek, if_neg notSet, if_neg notCur, if_pos ends, length, ← shown, has]
    exact ⟨rfl, moved (word _)⟩
  · rw [OpenFile.seek, if_neg notSet, if_neg notCur, if_neg other]
    have stays := moved opened.small
    rwa [Kernel.seek_self] at stays

end Opened

/-- A write of nothing. -/
theorem ForWriting.write_nil (opened : ForWriting cfg s f k) :
    true = decide (accepted (view s f k).bytes.length (s.ftable f).off ([] : List UInt8).length =
      ([] : List UInt8).length) ∧ Moved s f k ((view s f k).write []).2 s := by
  have none : accepted (view s f k).bytes.length (s.ftable f).off 0 = 0 := by
    have length : (view s f k).bytes.length = (s.dinode (s.icache k).inum).size :=
      length_bytesOf _ _
    have bound := opened.size_le
    rw [accepted]
    split
    · rfl
    · rw [if_pos (by omega)]
  refine ⟨by rw [List.length_nil, none]; rfl, ?_⟩
  rw [OpenFile.write_nothing none]
  exact ⟨opened.idle, rfl, opened.valid, rfl, opened.regular, rfl, opened.small⟩

/-- **All pieces of a write.** -/
theorem filewriteLoop_view {A : Prop} (log : LOGSIZE ≤ cfg.sb.nlog) (fuel : ℕ) :
    ∀ {s : Kernel} (src : List UInt8), ForWriting cfg s f k → src.length ≤ fuel →
      src.length < 2 ^ 31 →
      (A → (lacking s.data (s.dinode (s.icache k).inum) (wanted (s.ftable f).off
        (accepted (view s f k).bytes.length (s.ftable f).off src.length))).card ≤
          freeBlocks cfg s) →
      wp (fun _ => ¬A) (filewriteLoop cfg f k fuel src) (fun done t =>
        done = decide (accepted (view s f k).bytes.length (s.ftable f).off src.length = src.length) ∧
        Moved s f k ((view s f k).write src).2 t) s := by
  induction fuel with
  | zero =>
    intro s src opened enough few funds
    obtain rfl : src = [] := List.length_eq_zero_iff.mp (Nat.le_zero.mp enough)
    exact opened.write_nil
  | succ fuel ih =>
    intro s src opened enough few funds
    have length : (view s f k).bytes.length = (s.dinode (s.icache k).inum).size :=
      length_bytesOf _ _
    have bound := opened.size_le
    refine wp.ite (fun none => ?_) fun some => ?_
    · obtain rfl : src = [] := List.length_eq_zero_iff.mp none
      exact opened.write_nil
    obtain ⟨L, inv⟩ := opened.inv
    have writes : Writes s f k := ⟨opened.points, opened.writable⟩
    have piece : (src.take writeMax).length = min src.length writeMax := by
      rw [List.length_take, Nat.min_comm]
    have rest : (src.drop writeMax).length = src.length - (src.take writeMax).length := by
      rw [List.length_drop]
      omega
    have whole : src.take writeMax ++ src.drop writeMax = src := List.take_append_drop ..
    have step : 0 < writeMax := by decide
    generalize src.take writeMax = head at *
    generalize src.drop writeMax = tail at *
    rw [length] at funds
    -- what the first piece leaves for the rest
    let taken := accepted (s.dinode (s.icache k).inum).size (s.ftable f).off src.length
    let lacks := fun n => (lacking s.data (s.dinode (s.icache k).inum)
      (wanted (s.ftable f).off n)).card
    have split : (s.ftable f).off ≤ (s.dinode (s.icache k).inum).size →
        (s.ftable f).off + head.length ≤ MAXFILE * BSIZE → taken = head.length +
          accepted (max (s.dinode (s.icache k).inum).size ((s.ftable f).off + head.length))
            ((s.ftable f).off + head.length) tail.length := by
      intro start fits
      rw [rest]
      exact accepted_piece start piece fits
    refine (((opened.filewriteRound log (by omega)
      (b := lacks taken - lacks head.length) fun holds start fits => ?_).and
      (filewriteRound_safe (.refl inv) opened.inside writes head)).and
      (filewriteRound_locked (A := False) (N := False) opened.unlocked inv opened.inside writes
        head)).seq fun r t ⟨⟨round, since, _⟩, unlocked⟩ => ?_
    · have fewer : lacks head.length ≤ lacks taken := by
        refine card_le_card (filter_subset_filter _ ?_)
        rw [split start fits, wanted_add]
        exact subset_union_left
      have funds : lacks taken ≤ freeBlocks cfg s := funds holds
      change lacks head.length + (lacks taken - lacks head.length) ≤ _
      omega
    obtain ⟨⟨start, fits⟩, count, moved, left, lack⟩ | ⟨bad, failed, moved⟩ := round
    · have split := split start fits
      have openedT := opened.moved moved since.inv unlocked
      have viewT := moved.view
      have offT : (t.ftable f).off = (s.ftable f).off + head.length := by rw [moved.file]
      have lengthT : (view t f k).bytes.length =
          max (s.dinode (s.icache k).inum).size ((s.ftable f).off + head.length) := by
        rw [viewT, ByteFile.length_write (by rw [length]; exact start), length]
      rw [if_neg (by omega), if_neg (by omega)]
      refine (ih tail openedT (by omega) (by omega) fun holds => ?_).mono
        fun done u ⟨result, movedU⟩ => ⟨result.trans ?_, ?_⟩
      · have left := left holds
        rw [offT, lengthT, moved.inum]
        have lack := lack (taken - head.length)
        rw [Nat.add_sub_cancel' (by omega)] at lack
        have lack : lacks head.length + _ ≤ lacks taken := lack
        rw [show taken - head.length = _ from by rw [split, Nat.add_sub_cancel_left]] at lack
        omega
      · rw [offT, lengthT, length]
        apply decide_eq_decide.mpr
        omega
      · have after : ((view t f k).write tail).2 = ((view s f k).write src).2 := by
          rw [viewT, ← whole]
          exact OpenFile.write_pieces (length ▸ start) (whole ▸ piece) fits
        exact after ▸ moved.trans movedU
    · have none := accepted_none bound (by rwa [← piece])
      rw [if_pos (by omega), length]
      refine ⟨by simp; omega, ?_⟩
      rw [OpenFile.write_nothing (by rw [length]; exact none)]
      exact moved

theorem ForWriting.filewrite {A : Prop} (opened : ForWriting cfg s f k)
    (log : LOGSIZE ≤ cfg.sb.nlog) {src : List UInt8} (few : src.length < 2 ^ 31)
    (funds : A → (lacking s.data (s.dinode (s.icache k).inum) (wanted (s.ftable f).off
      (accepted (s.dinode (s.icache k).inum).size (s.ftable f).off src.length))).card ≤
        freeBlocks cfg s) :
    wp (fun _ => ¬A) (filewrite cfg f src) (fun r t =>
      r = ((view s f k).write src).1 ∧ Moved s f k ((view s f k).write src).2 t) s := by
  obtain ⟨isInode, has⟩ := File.inode_eq_some.mp opened.points
  have length : (view s f k).bytes.length = (s.dinode (s.icache k).inum).size :=
    length_bytesOf _ _
  simp only [Xv6Uac.filewrite, wp_bind, wp_gets, opened.writable, isInode, has,
    Bool.true_eq_false, if_false]
  apply (filewriteLoop_view log _ src opened le_rfl few (length ▸ funds)).mono
  rintro done t ⟨result, moved⟩
  refine ⟨?_, moved⟩
  rw [result]
  simp only [decide_eq_true_eq]
  rfl

/-! ## Calls on the file -/

/-- A call on the file, with a length that is an `int`. -/
def OnFile (f : ℕ) (s : Kernel) : Call → Prop
  | .read fd n => fileOf s fd = some f ∧ n < 2 ^ 31
  | .write fd src => fileOf s fd = some f ∧ src.length < 2 ^ 31
  | .lseek fd _ _ => fileOf s fd = some f
  | .trim fd => fileOf s fd = some f
  | _ => False

/-- A write finds the blocks that it needs. A `trim` that lengthens the file finds blocks
with zeros up to the new end. -/
def Fits (cfg : Config) (f k : ℕ) (s : Kernel) : Call → Prop
  | .write _ src =>
    (lacking s.data (s.dinode (s.icache k).inum) (wanted (s.ftable f).off
      (accepted (s.dinode (s.icache k).inum).size (s.ftable f).off src.length))).card ≤
        freeBlocks cfg s
  | .trim _ =>
    (s.ftable f).off ≤ MAXFILE * BSIZE ∧
      ∀ o, (s.dinode (s.icache k).inum).size ≤ o → o < (s.ftable f).off →
        HasBlock s.data (s.dinode (s.icache k).inum) (o / BSIZE) ∧
          content s.data (s.dinode (s.icache k).inum) o = 0
  | _ => True

namespace Opened

variable (opened : Opened cfg s f k)
include opened

/-- A `trim` that fits makes no hole. -/
theorem whole {call : Call} (on : OnFile f s call) (fits : Fits cfg f k s call) : Whole s call := by
  cases call with
  | trim fd =>
    obtain ⟨L, inv⟩ := opened.inv
    intro g found
    obtain rfl : f = g := Option.some.inj (on.symm.trans found)
    refine ⟨k, ⟨opened.points, opened.writable⟩, fits.1, fun n below => ?_⟩
    by_cases old : n * BSIZE < (s.dinode (s.icache k).inum).size
    · exact inv.fs.layout.full (by rw [opened.regular]; decide) old
    · have has := (fits.2 (n * BSIZE) (Nat.le_of_not_lt old) below).1
      rwa [Nat.mul_div_cancel _ (by decide)] at has
  | _ => trivial

/-- **One call** does on the file what it does on the byte array. -/
theorem dispatch (log : LOGSIZE ≤ cfg.sb.nlog) {call : Call} (on : OnFile f s call)
    (fits : Fits cfg f k s call) :
    wp E (Xv6Uac.dispatch cfg call) (fun r t => r = ((view s f k).step call).1.1 ∧
      Moved s f k ((view s f k).step call).2 t ∧ ∀ fd n, call = .read fd n →
        Xv6Uac.fileread cfg f n s = .ok (((view s f k).step call).1, t)) s := by
  cases call with
  | read fd n =>
    obtain ⟨out, t, run, rfl, moved⟩ := (opened.fileread on.2).exists_ok
    rw [Xv6Uac.dispatch, sysRead, wp_argfd, on.1]
    rw [wp_bind, wp, run]
    refine ⟨rfl, moved, fun fd' n' same => ?_⟩
    cases same
    exact run
  | write fd src =>
    rw [Xv6Uac.dispatch, sysWrite, wp_argfd, on.1]
    apply ((opened.forWriting.filewrite log on.2 fun _ : True => fits).weaken
      fun _ short => absurd trivial short).mono
    rintro _ _ ⟨result, moved⟩
    exact ⟨result, moved, fun _ _ same => by cases same⟩
  | lseek fd offset whence =>
    apply (opened.sysLseek on offset whence).mono
    rintro _ _ ⟨result, moved⟩
    exact ⟨result, moved, fun _ _ same => by cases same⟩
  | trim fd =>
    apply (opened.sysTrim log on fun o new below => (fits.2 o new below).2).mono
    rintro _ _ ⟨result, moved⟩
    exact ⟨result, moved, fun _ _ same => by cases same⟩
  | _ => exact on.elim

/-- The file stays open. -/
theorem step (log : LOGSIZE ≤ cfg.sb.nlog) {taken : Step} (stepped : step cfg s taken t)
    (on : OnFile f (s.switch taken.p) taken.call)
    (fits : Fits cfg f k (s.switch taken.p) taken.call) :
    Opened cfg t f k ∧ view t f k = ((view s f k).step taken.call).2 := by
  have switched := opened.switch stepped.1
  have spec : wp (fun _ => False) _ _ _ := switched.dispatch log on fits
  obtain ⟨_, moved, _⟩ := spec.of_ok stepped.2.2
  obtain ⟨L, inv⟩ := opened.inv
  obtain ⟨L', called⟩ := inv.step (switched.whole on fits) stepped
  exact ⟨switched.moved moved called.inv (inv.step_unlocked opened.unlocked stepped), moved.view⟩

theorem run (log : LOGSIZE ≤ cfg.sb.nlog) {trace : List Step}
    (run : RunOf (fun u call => OnFile f u call ∧ Fits cfg f k u call) cfg s trace t) :
    Opened cfg t f k ∧ view t f k = (view s f k).after trace := by
  induction run with
  | refl => exact ⟨opened, rfl⟩
  | tail _ stepped ih =>
    obtain ⟨opened', same⟩ := ih
    obtain ⟨opened'', moved⟩ := opened'.step log stepped.1 stepped.2.1 stepped.2.2
    exact ⟨opened'', by rw [moved, same]; rfl⟩

end Opened

/-- **An open file is a byte array.** After any calls on a regular file that is open for
reading and writing, its bytes and its offset are those of the byte array after the same
calls. The next call of any process on the file does not fail, it returns what the byte
array returns, and a `read` finds the bytes of the array. -/
theorem open_file_is_byte_array (cfg : Config) (log : LOGSIZE ≤ cfg.sb.nlog) (s t : Kernel)
    (f k : ℕ) (opened : Opened cfg s f k) (trace : List Step)
    (run : RunOf (fun u call => OnFile f u call ∧ Fits cfg f k u call) cfg s trace t) :
    view t f k = (view s f k).after trace ∧
      ∀ p < NPROC, ∀ call, OnFile f (t.switch p) call → Fits cfg f k (t.switch p) call →
        ∃ u, dispatch cfg call (t.switch p) = .ok (((view t f k).step call).1.1, u) ∧
          view u f k = ((view t f k).step call).2 ∧
          ∀ fd n, call = .read fd n →
            fileread cfg f n (t.switch p) = .ok (((view t f k).step call).1, u) := by
  obtain ⟨openedT, same⟩ := opened.run log run
  refine ⟨same, fun p process call on fits => ?_⟩
  obtain ⟨r, u, ran, result, moved, reads⟩ :=
    ((openedT.switch process).dispatch log on fits).exists_ok
  exact ⟨u, result ▸ ran, moved.view, reads⟩

/-! ## One write of all bytes -/

/-- What a single `writei` at the offset does. -/
def OpenFile.writei (a : OpenFile) (src : List UInt8) : ℤ × OpenFile :=
  if a.bytes.length < a.off ∨ MAXFILE * BSIZE < a.off + src.length then (-1, a)
  else (src.length, ⟨ByteFile.write a.bytes a.off src, a.off + src.length⟩)

theorem writei_view {F : ℕ → Dinode} {D : Set ℕ} {a : OpenFile} {src : List UInt8}
    (inv : FsInv cfg F D s) (held : Held s k i) (regular : (F i).type = .file)
    (bytes : bytesOf s.data (F i) = a.bytes) (small : a.off < 2 ^ 32) (few : src.length < 2 ^ 31) :
    wp Benign (writei cfg k src a.off) (fun r t => r = (a.writei src).1 ∧
      ∃ F', FsInv cfg F' D t ∧ bytesOf t.data (F' i) = (a.writei src).2.bytes) s := by
  have length : a.bytes.length = (F i).size := by rw [← bytes, length_bytesOf]
  have notDev : (F i).type ≠ .dev := by simp [regular]
  have most : MAXFILE * BSIZE < 2 ^ 32 := by decide
  have same : Refused (F i) a.off src.length ↔
      a.bytes.length < a.off ∨ MAXFILE * BSIZE < a.off + src.length := by
    rw [Refused, length]
    omega
  by_cases refused : Refused (F i) a.off src.length
  · rw [OpenFile.writei, if_pos (same.mp refused)]
    apply (writei_refused inv held notDev small (by omega) refused).mono
    rintro _ _ ⟨count, stays⟩
    exact ⟨count, F, stays ▸ inv, stays ▸ bytes⟩
  · rw [OpenFile.writei, if_neg (same.not.mp refused), ← bytes]
    apply (writei_accepted inv held notDev small (by omega) refused).mono
    rintro _ _ ⟨count, start, F', wrote⟩
    refine ⟨count, F', wrote.fsInv, ?_⟩
    exact (wrote.spliced held (by simp [regular]) start).bytes

/-- A write that the pieces do not show in: a write of nothing starts inside of the file, and
another one is turned down at its start, or it goes beyond the largest file not at all or in
the first piece. -/
def Undivided (size off n : ℕ) : Prop :=
  if n = 0 then off ≤ size
  else size < off ∨ off + n ≤ MAXFILE * BSIZE ∨ MAXFILE * BSIZE < off + writeMax

instance (size off n : ℕ) : Decidable (Undivided size off n) :=
  inferInstanceAs (Decidable (ite _ _ _))

theorem OpenFile.write_eq_writei_iff {a : OpenFile} {src : List UInt8}
    (bound : a.bytes.length ≤ MAXFILE * BSIZE) :
    a.write src = a.writei src ↔ Undivided a.bytes.length a.off src.length := by
  have unchanged : accepted a.bytes.length a.off src.length = 0 → a.write src =
      (if 0 = src.length then (src.length : ℤ) else -1, a) := by
    intro none
    refine Prod.ext ?_ (OpenFile.write_nothing none)
    rw [OpenFile.write, none]
  rw [Undivided, OpenFile.writei]
  by_cases beyond : a.bytes.length < a.off
  · rw [unchanged (by rw [accepted, if_pos beyond]), if_pos (Or.inl beyond)]
    by_cases empty : src.length = 0
    · simp [empty, beyond]
    · simp [empty, Ne.symm empty, beyond]
  by_cases fits : a.off + src.length ≤ MAXFILE * BSIZE
  · have all : accepted a.bytes.length a.off src.length = src.length := by
      rw [accepted, if_neg beyond, if_pos fits]
    rw [if_neg (by omega), OpenFile.write, all, if_pos rfl, List.take_length]
    simp [Nat.le_of_not_lt beyond, fits]
  · have pieces : accepted a.bytes.length a.off src.length =
        (MAXFILE * BSIZE - a.off) / writeMax * writeMax := by
      rw [accepted, if_neg beyond, if_neg fits]
    have step : 0 < writeMax := by decide
    rw [if_pos (by omega), if_neg (by omega)]
    constructor
    · intro same
      have off : a.off + accepted a.bytes.length a.off src.length = a.off :=
        congrArg (fun r => r.2.off) same
      have none : (MAXFILE * BSIZE - a.off) / writeMax * writeMax = 0 := by omega
      have less := Nat.lt_of_div_eq_zero step
        ((Nat.mul_eq_zero.mp none).resolve_right step.ne')
      omega
    · intro near
      rw [unchanged (accepted_none bound (by omega)), if_neg (by omega)]

/-- **A write in pieces and a single `writei`.** A `writei` of all bytes turns them down or puts
them into the file, wherever it finds the blocks and the room in the log. A `filewrite` that
finds the blocks returns the same and leaves the same file and the same offset in just the
cases of `Undivided`. -/
theorem filewrite_writei_iff (cfg : Config) (log : LOGSIZE ≤ cfg.sb.nlog) (s : Kernel) (f k : ℕ)
    (opened : ForWriting cfg s f k) (src : List UInt8) (few : src.length < 2 ^ 31) :
    (∀ F D u i, FsInv cfg F D u → Held u k i → (F i).type = .file →
      bytesOf u.data (F i) = (view s f k).bytes →
      wp Benign (writei cfg k src (view s f k).off) (fun r v => r = ((view s f k).writei src).1 ∧
        ∃ F', FsInv cfg F' D v ∧ bytesOf v.data (F' i) = ((view s f k).writei src).2.bytes) u) ∧
    wp (fun _ => ¬Fits cfg f k s (.write 0 src)) (filewrite cfg f src) (fun r t =>
      (r, view t f k) = (view s f k).writei src ↔
        Undivided (view s f k).bytes.length (view s f k).off src.length) s := by
  refine ⟨fun F D u i inv held regular bytes =>
    writei_view inv held regular bytes opened.small few, ?_⟩
  refine (opened.filewrite log few id).mono fun r t ⟨result, moved⟩ => ?_
  have length : (view s f k).bytes.length = (s.dinode (s.icache k).inum).size :=
    length_bytesOf _ _
  rw [moved.view, result]
  exact OpenFile.write_eq_writei_iff (length ▸ opened.size_le)

/-! ## Runs on a small image -/

instance (f : ℕ) (s : Kernel) : (call : Call) → Decidable (OnFile f s call)
  | .read fd n => inferInstanceAs (Decidable (fileOf s fd = some f ∧ n < 2 ^ 31))
  | .write fd src => inferInstanceAs (Decidable (fileOf s fd = some f ∧ src.length < 2 ^ 31))
  | .lseek fd _ _ | .trim fd => inferInstanceAs (Decidable (fileOf s fd = some f))
  | .fork .. | .exit | .wait | .pipe _ | .kill _ | .exec .. | .fstat _ | .chdir _ | .dup _ | .getpid
  | .open .. | .mknod .. | .unlink _ | .link .. | .mkdir _ | .close _ | .getuid | .geteuid
  | .setuid _ | .chmod .. | .chown .. | .setgrps .. | .invalid | .other =>
    inferInstanceAs (Decidable False)

instance (cfg : Config) (f k : ℕ) (s : Kernel) (fd : ℤ) (src : List UInt8) :
    Decidable (Fits cfg f k s (.write fd src)) :=
  inferInstanceAs (Decidable (_ ≤ _))

/-- A test that a file is open for reading and writing, between two calls. -/
def looksOpen (s : Kernel) (f k : ℕ) : Bool :=
  s.outstanding == 0 && s.lh == [] && (s.ftable f).inode == some k && (s.ftable f).readable &&
    (s.ftable f).writable && (s.icache k).valid && (s.dinode (s.icache k).inum).type == .file &&
    decide ((s.ftable f).off < 2 ^ 32)

theorem Image.WellFormed.opened {image : Image} (formed : image.WellFormed cfg)
    {trace : List Step} (run : RunOf Whole cfg image.boot trace s) (inside : f < NFILE)
    (looks : looksOpen s f k = true) : Opened cfg s f k := by
  obtain ⟨inv, unlocked⟩ := formed.kernelInv.run_unlocked image.boot_unlocked run
  simp only [looksOpen, Bool.and_eq_true, beq_iff_eq, decide_eq_true_eq] at looks
  obtain ⟨⟨⟨⟨⟨⟨⟨idle, empty⟩, points⟩, readable⟩, writable⟩, valid⟩, regular⟩, small⟩ := looks
  exact ⟨inv, unlocked, ⟨idle, empty⟩, inside, points, readable, writable, valid, regular, small⟩

namespace SmallImage

/-- A file that the first process opens, with more steps on it. -/
theorem opened_of_play {image : Image} (formed : image.WellFormed cfg) {path : List UInt8}
    {omode : BitVec 32} {r : ℤ} {check : Kernel → Bool}
    (passed : (play cfg image.boot [⟨0, .open path omode, r⟩]).any
      (fun s => looksOpen s 0 1 && check s) = true) : ∃ s, Opened cfg s 0 1 ∧ check s = true := by
  obtain ⟨s, run, checked⟩ := exists_of_play passed
  simp only [Bool.and_eq_true] at checked
  exact ⟨s, formed.opened (whole_run run (by simp)) (by decide) checked.1, checked.2⟩

/-- A file that is empty. -/
theorem empty_of_play {image : Image} (formed : image.WellFormed cfg) {path : List UInt8}
    {omode : BitVec 32} {r : ℤ} {check : Kernel → Bool}
    (passed : (play cfg image.boot [⟨0, .open path omode, r⟩]).any
      (fun s => looksOpen s 0 1 && ((s.dinode (s.icache 1).inum).size == 0 && (s.ftable 0).off == 0 &&
        check s)) = true) : ∃ s, Opened cfg s 0 1 ∧ view s 0 1 = ⟨[], 0⟩ ∧ check s = true := by
  obtain ⟨s, opened, checked⟩ := opened_of_play formed passed
  simp only [Bool.and_eq_true, beq_iff_eq] at checked
  obtain ⟨⟨empty, start⟩, checked⟩ := checked
  refine ⟨s, opened, ?_, checked⟩
  rw [view, start, bytesOf, empty]
  rfl

/-- A disk with room for a file of the largest size. -/
def largeCfg : Config :=
  { SmallImage.cfg with
    sb := { sb with size := 300, size_lt := by decide } }

end SmallImage

open SmallImage in
/-- The first process opens a new file and writes three bytes. -/
theorem filewrite_writei_of_three :
    ∃ s t, ForWriting SmallImage.cfg s 0 1 ∧ filewrite SmallImage.cfg 0 [1, 2, 3] s = .ok (3, t) ∧
      view t 0 1 = ⟨[1, 2, 3], 3⟩ := by
  have played : (play SmallImage.cfg (imageOf rootOnly).boot [⟨0, .open [120] 0o76, 0⟩]).any
      (fun s => looksOpen s 0 1 && ((s.dinode (s.icache 1).inum).size == 0 && (s.ftable 0).off == 0 &&
        decide (Fits SmallImage.cfg 0 1 s (.write 0 [1, 2, 3])))) = true := by decide +kernel
  obtain ⟨s, opened, shown, fits⟩ := empty_of_play (rootOnly_formed.wellFormed rfl) played
  have write := (filewrite_writei_iff SmallImage.cfg (by decide) s 0 1 opened.forWriting [1, 2, 3]
    (by decide)).2
  obtain ⟨r, t, ran, same⟩ :=
    (write.weaken fun _ short => short (of_decide_eq_true fits)).exists_ok
  rw [shown] at same
  obtain ⟨rfl, after⟩ := Prod.mk.inj (same.mpr (by decide))
  exact ⟨s, t, opened.forWriting, ran, after⟩

open SmallImage in
/-- A write to an empty file of one byte more than a file can have returns -1, after it has
written 61 pieces and moved the offset. A single `writei` would have changed nothing. -/
theorem filewrite_fails_in_part :
    ∃ s t, ForWriting largeCfg s 0 1 ∧
      filewrite largeCfg 0 (List.replicate (MAXFILE * BSIZE + 1) 7) s = .ok (-1, t) ∧
      view t 0 1 = ⟨List.replicate (61 * writeMax) 7, 61 * writeMax⟩ ∧
      (view s 0 1).writei (List.replicate (MAXFILE * BSIZE + 1) 7) = (-1, ⟨[], 0⟩) := by
  have played : (play largeCfg (imageOf rootOnly).boot [⟨0, .open [120] 0o76, 0⟩]).any
      (fun s => looksOpen s 0 1 && ((s.dinode (s.icache 1).inum).size == 0 && (s.ftable 0).off == 0 &&
        decide (185 ≤ freeBlocks largeCfg s))) = true := by decide +kernel
  have formed : (imageOf rootOnly).WellFormed largeCfg := by
    refine rootOnly_formed.wellFormed_of_fits rfl rfl fun j seed found _ => ?_
    have few : j < rootOnly.length := (List.getElem?_eq_some_iff.mp found).1
    exact (Nat.add_lt_add_right few 39).trans (by decide)
  obtain ⟨s, opened, shown, free⟩ := empty_of_play formed played
  have length : (s.dinode (s.icache 1).inum).size = 0 := by
    rw [← length_bytesOf s.data]
    exact congrArg (fun a => a.bytes.length) shown
  have start : (s.ftable 0).off = 0 := congrArg OpenFile.off shown
  have takes : accepted 0 0 (MAXFILE * BSIZE + 1) = 61 * writeMax := by decide
  have fits : Fits largeCfg 0 1 s (.write 0 (List.replicate (MAXFILE * BSIZE + 1) 7)) := by
    rw [Fits, List.length_replicate, length, start, takes]
    refine (card_le_card (filter_subset _ _)).trans ((card_wanted_le _ _).trans ?_)
    exact (Nat.add_le_add_right (card_touched_le _ _) 1).trans
      (Nat.le_trans (by decide) (of_decide_eq_true free))
  obtain ⟨r, t, ran, rfl, moved⟩ := ((opened.forWriting.filewrite (by decide)
    (by rw [List.length_replicate]; decide) fun _ : True => fits).weaken
    fun _ short => absurd trivial short).exists_ok
  have after := moved.view
  rw [shown] at ran after
  simp only [OpenFile.write, List.length_replicate, List.length_nil, takes] at ran after
  refine ⟨s, t, opened.forWriting, ran.trans (by rw [if_neg (by decide)]), ?_, ?_⟩
  · rw [after, List.take_replicate, ByteFile.write_zero, List.drop_nil, List.append_nil,
      Nat.zero_add, Nat.min_eq_left (by decide)]
  · rw [shown, OpenFile.writei, List.length_replicate, if_pos (.inr (by decide))]

open SmallImage in
/-- The first process opens a new file, writes three bytes and goes back to the start. It
then reads the three bytes. -/
theorem open_file_is_byte_array_of_write :
    ∃ s t, Opened SmallImage.cfg s 0 1 ∧
      KernelRun SmallImage.cfg s [⟨0, .lseek 0 0 0, 0⟩, ⟨0, .write 0 [1, 2, 3], 3⟩] t ∧
      ∃ u, fileread SmallImage.cfg 0 5 (t.switch 0) = .ok ((3, [1, 2, 3]), u) := by
  have played : (play SmallImage.cfg (imageOf rootOnly).boot [⟨0, .open [120] 0o76, 0⟩]).any
      (fun s => looksOpen s 0 1 && ((s.dinode (s.icache 1).inum).size == 0 && (s.ftable 0).off == 0 &&
        (decide (Fits SmallImage.cfg 0 1 (s.switch 0) (.write 0 [1, 2, 3])) &&
          (playOf (OnFile 0) SmallImage.cfg s
            [⟨0, .lseek 0 0 0, 0⟩, ⟨0, .write 0 [1, 2, 3], 3⟩]).any fun t =>
              decide (OnFile 0 (t.switch 0) (.read 0 5))))) = true := by decide +kernel
  obtain ⟨s, opened, shown, check⟩ := empty_of_play (rootOnly_formed.wellFormed rfl) played
  simp only [Bool.and_eq_true, decide_eq_true_eq] at check
  obtain ⟨fits, more⟩ := check
  obtain ⟨t, run, reads⟩ := exists_of_playOf more
  cases run with
  | tail before second =>
    cases before with
    | tail before first =>
      cases before
      obtain ⟨same, next⟩ := open_file_is_byte_array SmallImage.cfg (by decide) s t 0 1 opened _
        (.tail (.tail .refl ⟨first.1, first.2, fits⟩) ⟨second.1, second.2, trivial⟩)
      obtain ⟨u, -, -, read⟩ := next 0 (by decide) (.read 0 5) (of_decide_eq_true reads) trivial
      refine ⟨s, t, opened, .tail (.tail .refl first.1) second.1, u, ?_⟩
      rw [read 0 5 rfl, same, shown]
      rfl

open SmallImage in
/-- Two ways to a panic. On a full disk it is enough to write one byte. And after
`lseek(fd, 600, SEEK_SET)` and `trim(fd)` the first block of a file is missing, so that
`read` allocates it outside of a transaction. -/
theorem open_file_fails :
    (∃ s, Opened fullCfg s 0 1 ∧ OnFile 0 (s.switch 0) (.write 0 [1]) ∧
      dispatch fullCfg (.write 0 [1]) (s.switch 0) = .error (.panic .ballocOutOfBlocks)) ∧
    ∃ s t, Opened SmallImage.cfg s 0 1 ∧
      RunOf (OnFile 0) SmallImage.cfg s
        [⟨0, .lseek 0 0 0, 0⟩, ⟨0, .trim 0, 0⟩, ⟨0, .lseek 0 600 0, 0⟩] t ∧
      OnFile 0 (t.switch 0) (.read 0 1) ∧
      dispatch SmallImage.cfg (.read 0 1) (t.switch 0) =
        .error (.panic .logWriteOutsideOfTrans) := by
  have full : (play fullCfg (imageOf emptyFile).boot [⟨0, .open [120] 0o6, 0⟩]).any
      (fun s => looksOpen s 0 1 && (decide (OnFile 0 (s.switch 0) (.write 0 [1])) &&
        stops (dispatch fullCfg (.write 0 [1])) (s.switch 0) (.panic .ballocOutOfBlocks))) =
      true := by decide +kernel
  have hole : (play SmallImage.cfg (imageOf rootOnly).boot [⟨0, .open [120] 0o76, 0⟩]).any
      (fun s => looksOpen s 0 1 && (playOf (OnFile 0) SmallImage.cfg s
        [⟨0, .lseek 0 0 0, 0⟩, ⟨0, .trim 0, 0⟩, ⟨0, .lseek 0 600 0, 0⟩]).any fun t =>
          decide (OnFile 0 (t.switch 0) (.read 0 1)) && stops (dispatch SmallImage.cfg (.read 0 1))
            (t.switch 0) (.panic .logWriteOutsideOfTrans)) = true := by decide +kernel
  constructor
  · obtain ⟨s, opened, check⟩ := opened_of_play emptyFile_full full
    simp only [Bool.and_eq_true, decide_eq_true_eq] at check
    exact ⟨s, opened, check.1, error_of_stops check.2⟩
  · obtain ⟨s, opened, more⟩ := opened_of_play (rootOnly_formed.wellFormed rfl) hole
    obtain ⟨t, run, check⟩ := exists_of_playOf more
    simp only [Bool.and_eq_true, decide_eq_true_eq] at check
    exact ⟨s, t, opened, run, check.1, error_of_stops check.2⟩

end Xv6Uac
