import Xv6Uac.Lib.Words
import Xv6Uac.Lib.DiskWrites
import Xv6Uac.Param

/-!
# The redo log on the disk

The log of `log.c` is a header block followed by copies of the blocks of one
transaction. `commit` copies the blocks of the transaction to the log, writes
the header, copies the logged blocks to their home locations and clears the
header. `recoverFromLog` reads the header and repeats the second half.

Every function issues its block writes through `Io.bwrite`, which records them
in order. A crash keeps a prefix of the recorded writes.

The header block is read back as it was written (`readHead_headerBlock`). The
writes of each function are listed in closed form: `writeLog_eq` for the copies
to the log, and `installTrans_eq` for the copies home, which holds when the log
holds the new contents and no home block lies in the log.
-/

namespace Xv6Uac.Log

open Words DiskWrites List

/-! ## The functions of `log.c` that write the disk -/

/-- `log.start` and `log.size`: the header block, followed by the log blocks. -/
structure LogArea where
  start : ℕ
  size : ℕ
  has_header : 0 < size

/-- The disk, with the block writes issued so far, oldest first. -/
structure Io where
  disk : Disk Bytes
  writes : List (ℕ × Bytes)

/-- Write a buffer to its block. -/
def Io.bwrite (io : Io) (blockno : ℕ) (data : Bytes) : Io where
  disk := write io.disk (blockno, data)
  writes := io.writes ++ [(blockno, data)]

/-- The signed value of a 32-bit word. -/
def signed32 (value : ℕ) : ℤ := if value < 2 ^ 31 then value else (value : ℤ) - 2 ^ 32

/-- The field `n` of a header block. -/
def headerCount (block : Bytes) : ℤ := signed32 (word 4 block 0)

/-- `read_head`: the block numbers in the log header. -/
def readHead (area : LogArea) (disk : Disk Bytes) : List ℕ :=
  (List.range (headerCount (disk area.start)).toNat).map fun i =>
    word 4 (disk area.start) (4 + 4 * i)

/-- Store the block numbers of `lh` in a header buffer, from entry `i` on. -/
def putBlocks : Bytes → ℕ → List ℕ → Bytes
  | hb, _, [] => hb
  | hb, i, b :: rest => putBlocks (putWord 4 hb (4 + 4 * i) b) (i + 1) rest

/-- `write_head`: write the in-memory log header to the disk. -/
def writeHead (area : LogArea) (lh : List ℕ) (io : Io) : Io :=
  io.bwrite area.start (putBlocks (putWord 4 (io.disk area.start) 0 lh.length) 0 lh)

/-- `install_trans`: copy committed blocks from the log to their home
location, for the header entries from `tail` on. -/
def installTrans (area : LogArea) : ℕ → List ℕ → Io → Io
  | _, [], io => io
  | tail, b :: rest, io =>
    installTrans area (tail + 1) rest (io.bwrite b (io.disk (area.start + tail + 1)))

/-- `write_log`: copy modified blocks from the cache to the log. -/
def writeLog (area : LogArea) (cache : ℕ → Bytes) : ℕ → List ℕ → Io → Io
  | _, [], io => io
  | tail, b :: rest, io =>
    writeLog area cache (tail + 1) rest (io.bwrite (area.start + tail + 1) (cache b))

/-- `recover_from_log`. -/
def recoverFromLog (area : LogArea) (io : Io) : Io :=
  writeHead area [] (installTrans area 0 (readHead area io.disk) io)

/-- `commit`, for the in-memory header `lh` and the cached contents of the
blocks it names. -/
def commit (area : LogArea) (cache : ℕ → Bytes) (lh : List ℕ) (io : Io) : Io :=
  if 0 < lh.length then
    writeHead area []
      (installTrans area 0 lh (writeHead area lh (writeLog area cache 0 lh io)))
  else io

/-- The writes of a whole recovery. -/
def recoverWrites (area : LogArea) (disk : Disk Bytes) : List (ℕ × Bytes) :=
  (recoverFromLog area ⟨disk, []⟩).writes

/-- The writes of a whole commit. -/
def commitWrites (area : LogArea) (cache : ℕ → Bytes) (lh : List ℕ) (disk : Disk Bytes) :
    List (ℕ × Bytes) :=
  (commit area cache lh ⟨disk, []⟩).writes

/-- A series of recoveries, each cut by a crash after the given number of
writes. -/
def recoverCrashes (area : LogArea) : List ℕ → Disk Bytes → Disk Bytes
  | [], disk => disk
  | j :: rest, disk => recoverCrashes area rest (crashed disk (recoverWrites area disk) j)

/-- Boot: a recovery that runs to completion. -/
def recovered (area : LogArea) (disk : Disk Bytes) : Disk Bytes :=
  (recoverFromLog area ⟨disk, []⟩).disk

/-! ## The header block -/

theorem signed32_of_lt {value : ℕ} (small : value < 2 ^ 31) : signed32 value = value :=
  if_pos small

/-- Storing block numbers leaves the bytes before the first stored entry. -/
theorem putBlocks_before (hb : Bytes) (i : ℕ) (lh : List ℕ) {j : ℕ} (before : j < 4 + 4 * i) :
    putBlocks hb i lh j = hb j := by
  induction lh generalizing hb i with
  | nil => rfl
  | cons b rest ih =>
    rw [putBlocks, ih _ _ (by omega), putWord_of_disjoint (.inl before)]

variable {lh : List ℕ} {area : LogArea} {disk : Disk Bytes}

/-- The entries of a header just stored are the block numbers. -/
theorem word_putBlocks (bounded : ∀ b ∈ lh, b < 2 ^ 32) (hb : Bytes) (i : ℕ) :
    (List.range lh.length).map (fun j => word 4 (putBlocks hb i lh) (4 + 4 * (i + j))) = lh := by
  induction lh generalizing hb i with
  | nil => rfl
  | cons b rest ih =>
    have head : word 4 (putBlocks hb i (b :: rest)) (4 + 4 * i) = b := by
      rw [putBlocks, word_congr fun j _ high =>
        putBlocks_before (putWord 4 hb (4 + 4 * i) b) (i + 1) rest (by omega)]
      exact word_putWord (bounded b mem_cons_self)
    have tail := ih (fun b member => bounded b (mem_cons_of_mem _ member))
      (putWord 4 hb (4 + 4 * i) b) (i + 1)
    rw [length_cons, range_succ_eq_map, map_cons, map_map, Nat.add_zero, head]
    refine congrArg (b :: ·) (Eq.trans (map_congr_left fun j _ => ?_) tail)
    rw [Function.comp_apply, putBlocks,
      show i + (j + 1) = i + 1 + j by omega]

/-- The header buffer `write_head` writes for the block numbers `lh`. -/
def headerBlock (hb : Bytes) (lh : List ℕ) : Bytes := putBlocks (putWord 4 hb 0 lh.length) 0 lh

theorem headerCount_headerBlock (hb : Bytes) (short : lh.length < 2 ^ 31) :
    headerCount (headerBlock hb lh) = lh.length := by
  rw [headerCount, headerBlock, word_congr fun j _ high =>
    putBlocks_before (putWord 4 hb 0 lh.length) 0 lh (by omega),
    word_putWord (by omega), signed32_of_lt short]

theorem readHead_headerBlock {hb : Bytes} (short : lh.length < 2 ^ 31)
    (bounded : ∀ b ∈ lh, b < 2 ^ 32) (header : disk area.start = headerBlock hb lh) :
    readHead area disk = lh := by
  rw [readHead, header, headerCount_headerBlock hb short, headerBlock]
  simpa using word_putBlocks bounded (putWord 4 hb 0 lh.length) 0

theorem readHead_of_headerCount_zero (empty : headerCount (disk area.start) = 0) :
    readHead area disk = [] := by
  rw [readHead, empty]
  rfl

/-! ## The writes each function issues -/

/-- Issue a list of writes. -/
def Io.writeAll (io : Io) (writes : List (ℕ × Bytes)) : Io where
  disk := run io.disk writes
  writes := io.writes ++ writes

theorem Io.writeAll_nil (io : Io) : io.writeAll [] = io := by
  rw [writeAll, run_nil, append_nil]

theorem Io.writeAll_bwrite (io : Io) (b : ℕ) (data : Bytes) (writes : List (ℕ × Bytes)) :
    (io.bwrite b data).writeAll writes = io.writeAll ((b, data) :: writes) := by
  rw [writeAll, writeAll, bwrite, run_cons, append_assoc, singleton_append]

theorem Io.writeAll_writeAll (io : Io) (first second : List (ℕ × Bytes)) :
    (io.writeAll first).writeAll second = io.writeAll (first ++ second) := by
  rw [writeAll, writeAll, writeAll, run_append, append_assoc]

theorem writeHead_eq (area : LogArea) (lh : List ℕ) (io : Io) :
    writeHead area lh io =
      io.writeAll [(area.start, headerBlock (io.disk area.start) lh)] := by
  rfl

/-- The copies `write_log` makes, from log block `tail` on. -/
def logWrites (area : LogArea) (cache : ℕ → Bytes) : ℕ → List ℕ → List (ℕ × Bytes)
  | _, [] => []
  | tail, b :: rest => (area.start + tail + 1, cache b) :: logWrites area cache (tail + 1) rest

theorem writeLog_eq (area : LogArea) (cache : ℕ → Bytes) (tail : ℕ) (lh : List ℕ) (io : Io) :
    writeLog area cache tail lh io = io.writeAll (logWrites area cache tail lh) := by
  induction lh generalizing tail io with
  | nil => exact (io.writeAll_nil).symm
  | cons b rest ih => rw [writeLog, ih, logWrites, Io.writeAll_bwrite]

/-- The home blocks of a transaction, with the contents to install. -/
def homeWrites (new : ℕ → Bytes) (lh : List ℕ) : List (ℕ × Bytes) := lh.map fun b => (b, new b)

/-- The log blocks from `tail` on hold the new contents of the blocks of `lh`. -/
def LogHolds (area : LogArea) (new : ℕ → Bytes) (disk : Disk Bytes) : ℕ → List ℕ → Prop
  | _, [] => True
  | tail, b :: rest =>
    disk (area.start + tail + 1) = new b ∧ LogHolds area new disk (tail + 1) rest

/-- Blocks outside the log: the home blocks. -/
def LogArea.Outside (area : LogArea) (b : ℕ) : Prop := b < area.start ∨ area.start + area.size ≤ b

theorem LogHolds.congr {new : ℕ → Bytes} {disk' : Disk Bytes} {tail : ℕ}
    (holds : LogHolds area new disk tail lh)
    (agree : ∀ i, tail ≤ i → i < tail + lh.length →
      disk' (area.start + i + 1) = disk (area.start + i + 1)) :
    LogHolds area new disk' tail lh := by
  induction lh generalizing tail with
  | nil => trivial
  | cons b rest ih =>
    have room : tail < tail + (b :: rest).length := by
      rw [length_cons]
      omega
    refine ⟨(agree tail le_rfl room).trans holds.1, ih holds.2 fun i low high => ?_⟩
    exact agree i (by omega) (by rw [length_cons]; omega)

/-- `install_trans` issues one write for each home block, when the log holds
the new contents and no home block lies in the log. -/
theorem installTrans_eq (new : ℕ → Bytes) {tail : ℕ} {io : Io} (room : tail + lh.length < area.size)
    (outside : ∀ b ∈ lh, area.Outside b) (holds : LogHolds area new io.disk tail lh) :
    installTrans area tail lh io = io.writeAll (homeWrites new lh) := by
  induction lh generalizing tail io with
  | nil => exact (io.writeAll_nil).symm
  | cons b rest ih =>
    rw [length_cons] at room
    have later : LogHolds area new (io.bwrite b (new b)).disk (tail + 1) rest := by
      refine holds.2.congr fun i low high => write_of_ne ?_
      have := outside b mem_cons_self
      simp only [LogArea.Outside] at this
      omega
    rw [installTrans, holds.1,
      ih (by omega) (fun b member => outside b (mem_cons_of_mem _ member)) later,
      Io.writeAll_bwrite]
    rfl

end Xv6Uac.Log
