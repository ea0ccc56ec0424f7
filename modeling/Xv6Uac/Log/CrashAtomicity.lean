import Xv6Uac.Log.Recovery

/-!
# A commit survives crashes as a whole or not at all

A disk is clean for some home contents when its header is empty and its blocks
outside the log hold these contents (`Clean`). It is committed when the header
names the blocks of the transaction, the log holds their new contents, and the
blocks not in the transaction hold the contents they had (`Committed`).

A crash of `commit` leaves the disk clean for the old contents, committed, or
clean for the new contents, depending on whether the header write and the
clearing write were among the writes that reached the disk (`commit_crash`).
A crash of `recoverFromLog` keeps a clean disk clean and leaves a committed
disk committed or clean for the new contents (`Clean.crashed_recover`,
`Committed.crashed_recover`). The recovery that completes leaves a clean disk
(`crash_atomicity`).
-/

namespace Xv6Uac.Log

open Words DiskWrites List

/-- A transaction: distinct blocks outside the log, no more than the log and
its header have room for, with the contents the cache holds for them. -/
structure Transaction (area : LogArea) where
  blocks : List ℕ
  cache : ℕ → Bytes
  distinct : blocks.Nodup
  outside : ∀ b ∈ blocks, area.Outside b
  bounded : ∀ b ∈ blocks, b < 2 ^ 32
  fits : blocks.length ≤ area.size - 1
  header_fits : blocks.length ≤ LOGSIZE

/-- The home contents after the transaction. -/
def Transaction.apply {area : LogArea} (t : Transaction area) (home : Disk Bytes) : Disk Bytes :=
  fun b => if b ∈ t.blocks then t.cache b else home b

/-- An empty header, and the given contents in the home blocks. -/
structure Clean (area : LogArea) (home disk : Disk Bytes) : Prop where
  count : headerCount (disk area.start) = 0
  home_eq : ∀ b, area.Outside b → disk b = home b

/-- The header and the log hold the transaction, and the blocks outside it
hold the contents they had. -/
structure Committed {area : LogArea} (t : Transaction area) (home disk : Disk Bytes) : Prop where
  head : readHead area disk = t.blocks
  holds : LogHolds area t.cache disk 0 t.blocks
  others : ∀ b, area.Outside b → b ∉ t.blocks → disk b = home b

variable {area : LogArea} {home disk : Disk Bytes}

theorem Outside.ne_start {b : ℕ} (outside : area.Outside b) :
    b ≠ area.start := by
  have := area.has_header
  simp only [LogArea.Outside] at outside
  omega

/-! ## Recovery from a clean disk -/

/-- Recovery of a clean disk clears the header once more. -/
theorem Clean.recoverWrites_eq (clean : Clean area home disk) :
    recoverWrites area disk = [(area.start, headerBlock (disk area.start) [])] := by
  rw [recoverWrites, recoverFromLog, readHead_of_headerCount_zero clean.count]
  rfl

theorem Clean.write_header (hb : Bytes)
    (home_eq : ∀ b, area.Outside b → disk b = home b) :
    Clean area home (write disk (area.start, headerBlock hb [])) where
  count := by
    rw [write_self]
    rfl
  home_eq b outside := by
    rw [write_of_ne (Outside.ne_start outside), home_eq b outside]

theorem Clean.crashed_recover (clean : Clean area home disk) (k : ℕ) :
    Clean area home (crashed disk (recoverWrites area disk) k) := by
  rw [clean.recoverWrites_eq, crashed]
  cases k with
  | zero => exact clean
  | succ k => simpa using Clean.write_header _ clean.home_eq

/-! ## Recovery from a committed disk -/

/-- Recovery of a committed disk installs the transaction and clears the
header. -/
theorem Committed.recoverWrites_eq {t : Transaction area}
    (committed : Committed t home disk) :
    recoverWrites area disk = homeWrites t.cache t.blocks ++
      [(area.start, headerBlock (run disk (homeWrites t.cache t.blocks) area.start) [])] := by
  have fits := t.fits
  have := area.has_header
  rw [recoverWrites, recoverFromLog, committed.head,
    installTrans_eq t.cache (by omega) t.outside committed.holds]
  rfl

/-- Installing some of the home blocks keeps the disk committed. -/
theorem Committed.run_take {t : Transaction area}
    (committed : Committed t home disk) (k : ℕ) :
    Committed t home (run disk ((homeWrites t.cache t.blocks).take k)) := by
  have fits := t.fits
  have target : ∀ w ∈ (homeWrites t.cache t.blocks).take k, w.1 ∈ t.blocks := by
    intro w member
    obtain ⟨b, listed, rfl⟩ := List.mem_map.mp (mem_of_mem_take member)
    exact listed
  -- the header and the log blocks are not home blocks, so no write reaches them
  have inLog : ∀ b, ¬ area.Outside b →
      run disk ((homeWrites t.cache t.blocks).take k) b = disk b := by
    intro b inside
    exact run_of_forall_ne fun w member same => inside (same ▸ t.outside _ (target w member))
  have header := inLog area.start fun out => Outside.ne_start out rfl
  refine ⟨?_, ?_, ?_⟩
  · rw [readHead, header]
    exact committed.head
  · refine committed.holds.congr fun i _ high => inLog _ ?_
    simp only [LogArea.Outside]
    omega
  · intro b outside notListed
    have untouched : ∀ w ∈ (homeWrites t.cache t.blocks).take k, w.1 ≠ b := by
      rintro w member rfl
      exact notListed (target w member)
    rw [run_of_forall_ne untouched]
    exact committed.others b outside notListed

/-- After all home blocks are installed, the home contents are the new ones. -/
theorem Committed.run_all {t : Transaction area} (committed : Committed t home disk) {b : ℕ}
    (outside : area.Outside b) :
    run disk (homeWrites t.cache t.blocks) b = t.apply home b := by
  by_cases listed : b ∈ t.blocks
  · have distinct : ((homeWrites t.cache t.blocks).map Prod.fst).Nodup := by
      rw [homeWrites]
      simpa [Function.comp_def] using t.distinct
    have member : (b, t.cache b) ∈ homeWrites t.cache t.blocks :=
      List.mem_map.mpr ⟨b, listed, rfl⟩
    rw [run_of_mem distinct member, Transaction.apply, if_pos listed]
  · rw [Transaction.apply, if_neg listed, run_of_forall_ne, committed.others b outside listed]
    rintro w member rfl
    obtain ⟨b, inBlocks, rfl⟩ := List.mem_map.mp member
    exact listed inBlocks

/-- Clearing the header of a disk with all home blocks installed. -/
theorem Committed.clean_of_run_all {t : Transaction area}
    (committed : Committed t home disk) (hb : Bytes) :
    Clean area (t.apply home)
      (write (run disk (homeWrites t.cache t.blocks)) (area.start, headerBlock hb [])) :=
  Clean.write_header hb fun _ outside => committed.run_all outside

/-- A crash of the install phase and the clearing write that follows it. -/
theorem Committed.crashed_install {t : Transaction area}
    (committed : Committed t home disk) (hb : Bytes) (k : ℕ) :
    Committed t home
        (crashed disk (homeWrites t.cache t.blocks ++ [(area.start, headerBlock hb [])]) k) ∨
      Clean area (t.apply home)
        (crashed disk (homeWrites t.cache t.blocks ++ [(area.start, headerBlock hb [])]) k) := by
  rw [crashed]
  by_cases within : k ≤ (homeWrites t.cache t.blocks).length
  · rw [take_append_of_le_length within]
    exact .inl (committed.run_take k)
  · rw [take_of_length_le (by rw [length_append, length_singleton]; omega),
      run_append]
    exact .inr (committed.clean_of_run_all hb)

theorem Committed.crashed_recover {t : Transaction area}
    (committed : Committed t home disk) (k : ℕ) :
    Committed t home (crashed disk (recoverWrites area disk) k) ∨
      Clean area (t.apply home) (crashed disk (recoverWrites area disk) k) := by
  rw [committed.recoverWrites_eq]
  exact committed.crashed_install _ k

/-! ## Any number of crashes during recovery -/

/-- The writes of a recovery lead to the disk it returns. -/
theorem recovered_eq_run (disk : Disk Bytes) (area : LogArea) :
    recovered area disk = run disk (recoverWrites area disk) := by
  have install : ∀ (lh : List ℕ) (tail : ℕ) (io : Io), io.disk = run disk io.writes →
      (installTrans area tail lh io).disk = run disk (installTrans area tail lh io).writes := by
    intro lh
    induction lh with
    | nil => exact fun _ _ same => same
    | cons b rest ih =>
      intro tail io same
      apply ih (tail + 1) _
      simp only [Io.bwrite]
      rw [run_append, ← same]
      rfl
  simp only [recovered, recoverWrites, recoverFromLog, writeHead_eq, Io.writeAll]
  rw [run_append, ← install _ 0 ⟨disk, []⟩ rfl]

theorem Clean.recoverCrashes (clean : Clean area home disk)
    (crashes : List ℕ) : Clean area home (recoverCrashes area crashes disk) := by
  induction crashes generalizing disk with
  | nil => exact clean
  | cons j rest ih => exact ih (clean.crashed_recover j)

theorem Committed.recoverCrashes {t : Transaction area}
    (committed : Committed t home disk) (crashes : List ℕ) :
    Committed t home (recoverCrashes area crashes disk) ∨
      Clean area (t.apply home) (recoverCrashes area crashes disk) := by
  induction crashes generalizing disk with
  | nil => exact .inl committed
  | cons j rest ih =>
    rcases committed.crashed_recover j with still | done
    · exact ih still
    · exact .inr (done.recoverCrashes rest)

theorem Clean.recovered (clean : Clean area home disk) :
    Clean area home (recovered area disk) := by
  rw [recovered_eq_run, clean.recoverWrites_eq]
  exact Clean.write_header _ clean.home_eq

theorem Committed.recovered {t : Transaction area}
    (committed : Committed t home disk) : Clean area (t.apply home) (recovered area disk) := by
  rw [recovered_eq_run, committed.recoverWrites_eq, run_append]
  exact committed.clean_of_run_all _

/-- Boot leaves a clean disk, whatever the disk held. -/
theorem clean_recovered (disk : Disk Bytes) :
    Clean area (Log.recovered area disk) (Log.recovered area disk) where
  count := by
    rw [Log.recovered, recoverFromLog, writeHead_eq]
    simp only [Io.writeAll, run_cons, run_nil, write_self]
    rfl
  home_eq _ _ := rfl

/-! ## Crashes of a commit -/

/-- The writes of `write_log` go to log blocks. -/
theorem mem_logWrites {cache : ℕ → Bytes} {tail : ℕ} {lh : List ℕ} {w : ℕ × Bytes}
    (member : w ∈ logWrites area cache tail lh) :
    area.start + tail + 1 ≤ w.1 ∧ w.1 < area.start + tail + 1 + lh.length := by
  induction lh generalizing tail with
  | nil => cases member
  | cons b rest ih =>
    rw [length_cons]
    rcases List.mem_cons.mp member with rfl | later
    · omega
    · have := ih later
      omega

theorem length_logWrites (cache : ℕ → Bytes) (tail : ℕ) (lh : List ℕ) :
    (logWrites area cache tail lh).length = lh.length := by
  induction lh generalizing tail with
  | nil => rfl
  | cons b rest ih => rw [logWrites, length_cons, length_cons, ih]

/-- After `write_log` the log holds the cached contents. -/
theorem logHolds_run_logWrites (cache : ℕ → Bytes) (disk : Disk Bytes) (tail : ℕ) (lh : List ℕ) :
    LogHolds area cache (run disk (logWrites area cache tail lh)) tail lh := by
  induction lh generalizing tail disk with
  | nil => trivial
  | cons b rest ih =>
    refine ⟨?_, ih _ _⟩
    rw [logWrites, run_cons, run_of_forall_ne]
    · exact write_self disk _ _
    · intro w member same
      have := mem_logWrites member
      omega

/-- The writes of a commit: the log, the header, the home blocks, the cleared
header. -/
theorem commitWrites_eq (t : Transaction area) (nonempty : 0 < t.blocks.length)
    (disk : Disk Bytes) :
    ∃ first last : Bytes, commitWrites area t.cache t.blocks disk =
      logWrites area t.cache 0 t.blocks ++ ((area.start, headerBlock first t.blocks) ::
        (homeWrites t.cache t.blocks ++ [(area.start, headerBlock last [])])) := by
  have fits := t.fits
  have holds : LogHolds area t.cache (run disk (logWrites area t.cache 0 t.blocks)) 0 t.blocks :=
    logHolds_run_logWrites t.cache disk 0 t.blocks
  rw [commitWrites, commit, if_pos nonempty, writeLog_eq, writeHead_eq area t.blocks, installTrans_eq t.cache (by omega) t.outside,
    writeHead_eq, Io.writeAll_writeAll, Io.writeAll_writeAll]
  · exact ⟨_, _, rfl⟩
  · -- the header write does not touch the log blocks
    refine holds.congr fun i _ _ => ?_
    exact write_of_ne (by simp only; omega)

/-- While the log is being written, the header and the home blocks keep their
contents. -/
theorem Clean.crashed_writeLog (t : Transaction area) (clean : Clean area home disk) (k : ℕ) :
    Clean area home (crashed disk (logWrites area t.cache 0 t.blocks) k) := by
  have fits := t.fits
  have inLog : ∀ w ∈ (logWrites area t.cache 0 t.blocks).take k,
      w.1 ≠ area.start ∧ ¬ area.Outside w.1 := by
    intro w member
    have range := mem_logWrites (mem_of_mem_take member)
    simp only [LogArea.Outside]
    omega
  refine ⟨?_, fun b outside => ?_⟩
  · rw [crashed, run_of_forall_ne fun w member => (inLog w member).1]
    exact clean.count
  · rw [crashed, run_of_forall_ne fun w member same => (inLog w member).2 (same ▸ outside)]
    exact clean.home_eq b outside

/-- The header write commits the transaction. -/
theorem Clean.committed_of_header (t : Transaction area) (clean : Clean area home disk)
    (hb : Bytes) :
    Committed t home
      (write (run disk (logWrites area t.cache 0 t.blocks))
        (area.start, headerBlock hb t.blocks)) := by
  have short := t.header_fits
  have logged := (clean.crashed_writeLog t t.blocks.length).home_eq
  rw [crashed, take_of_length_le (Nat.le_of_eq (length_logWrites _ _ _))] at logged
  refine ⟨?_, ?_, fun b outside _ => ?_⟩
  · exact readHead_headerBlock (by simp only [LOGSIZE, MAXOPBLOCKS] at short; omega) t.bounded
      (write_self _ _ _)
  · refine (logHolds_run_logWrites t.cache disk 0 t.blocks).congr fun i _ _ => write_of_ne ?_
    omega
  · rw [write_of_ne (Outside.ne_start outside), logged b outside]

/-- **What a crash of `commit` leaves.** Before the header write the disk is
clean for the old contents; from then on it is committed, or clean for the new
contents. -/
theorem commit_crash (t : Transaction area) (clean : Clean area home disk) (k : ℕ) :
    (k ≤ t.blocks.length →
      Clean area home (crashed disk (commitWrites area t.cache t.blocks disk) k)) ∧
    (t.blocks.length < k →
      Committed t home (crashed disk (commitWrites area t.cache t.blocks disk) k) ∨
        Clean area (t.apply home)
          (crashed disk (commitWrites area t.cache t.blocks disk) k)) := by
  by_cases nonempty : 0 < t.blocks.length
  · obtain ⟨first, last, writes⟩ := commitWrites_eq t nonempty disk
    have length : (logWrites area t.cache 0 t.blocks).length = t.blocks.length :=
      length_logWrites t.cache 0 t.blocks
    rw [writes]
    refine ⟨fun early => ?_, fun late => ?_⟩
    · rw [crashed, take_append_of_le_length (by omega)]
      exact clean.crashed_writeLog t k
    · obtain ⟨j, rfl⟩ : ∃ j, k = (logWrites area t.cache 0 t.blocks).length + (j + 1) :=
        ⟨k - (t.blocks.length + 1), by omega⟩
      rw [crashed, take_length_add_append, run_append]
      exact (clean.committed_of_header t first).crashed_install last j
  · -- an empty transaction issues no write
    have none : t.blocks = [] := eq_nil_of_length_eq_zero (by omega)
    have same : t.apply home = home := by
      funext b
      rw [Transaction.apply, if_neg (by rw [none]; exact not_mem_nil)]
    have noWrite : crashed disk (commitWrites area t.cache t.blocks disk) k = disk := by
      rw [commitWrites, commit, if_neg nonempty, crashed, take_nil, run_nil]
    rw [noWrite, same]
    exact ⟨fun _ => clean, fun _ => .inr clean⟩

/-- **Crash atomicity of the redo log.** Boot from any disk, start to commit a
transaction, crash after any number `k` of the writes of `commit`, crash any
number of times during recovery, and let one recovery complete. The header is
then empty, and the home blocks all hold their old contents or all hold their
new contents. They hold the new contents when the header write, which is write
number `t.blocks.length + 1`, took place, and the old ones otherwise. -/
theorem crash_atomicity (area : LogArea) (image : Disk Bytes) (t : Transaction area) (k : ℕ)
    (crashes : List ℕ) :
    let old := recovered area image
    let after := recovered area (recoverCrashes area crashes
      (crashed old (commitWrites area t.cache t.blocks old) k))
    headerCount (after area.start) = 0 ∧
      (k ≤ t.blocks.length → ∀ b, area.Outside b → after b = old b) ∧
      (t.blocks.length < k → ∀ b, area.Outside b →
        after b = if b ∈ t.blocks then t.cache b else old b) := by
  intro old after
  have boot : Clean area old old := clean_recovered image
  obtain ⟨early, late⟩ := commit_crash t boot k
  by_cases before : k ≤ t.blocks.length
  · have final : Clean area old after := ((early before).recoverCrashes crashes).recovered
    exact ⟨final.count, fun _ => final.home_eq, fun late => absurd before (by omega)⟩
  · have final : Clean area (t.apply old) after := by
      rcases late (by omega) with committed | clean
      · rcases committed.recoverCrashes crashes with committed | clean
        · exact committed.recovered
        · exact clean.recovered
      · exact (clean.recoverCrashes crashes).recovered
    exact ⟨final.count, fun early => absurd early before, fun _ => final.home_eq⟩

end Xv6Uac.Log
