import Xv6Uac.Bio.BufferCache
import Xv6Uac.Lib.Pointers

/-!
# The buffer cache is coherent

Three invariants of every run. The list of the buffers is a doubly linked cycle through all of them
(`Listed`), so that the loops of `bget` look at every buffer. The reference count of a buffer is the
number of processes that use it (`Orderly`), so a buffer is recycled only when nobody does. And no
two buffers stand for one block, a buffer that is valid has the last contents that were written to
its block, and so has the disk unless there is a dirty buffer (`Coherent`). Together: `bread`
returns the last contents that were written (`buffer_cache_coherent`).
-/

namespace Xv6Uac.Bio

open LinkedCycle TraceRun Pointers List
open Function (update update_eq_self update_of_ne update_self)

variable {α : Type} {procs p b n : ℕ} {s t : State α} {e : Event α} {trace : List (Event α)}

/-! ## The list -/

/-- The list of the buffers is a doubly linked cycle through the head. -/
def Listed (s : State α) : Prop :=
  ∃ order, s.links.Cycle HEAD order ∧ ∀ b, b ∈ order ↔ b < NBUF

theorem binit_listed (zero : α) (disk : ℕ → α) : Listed (binit zero disk) := by
  suffices all : ∀ k ≤ NBUF, ∃ order, (binitLinks k).Cycle HEAD order ∧ ∀ b, b ∈ order ↔ b < k from
    all NBUF le_rfl
  intro k
  induction k with
  | zero =>
    intro _
    exact ⟨[], ⟨by simp, isChain_cons_cons.mpr ⟨⟨rfl, rfl⟩, .singleton _⟩⟩, by simp⟩
  | succ k ih =>
    intro small
    obtain ⟨order, cycle, members⟩ := ih (by omega)
    have new : k ∉ HEAD :: order := by
      rw [mem_cons, members, HEAD]
      omega
    refine ⟨k :: order, cycle.insertFront new, fun b => ?_⟩
    rw [mem_cons, members]
    omega

namespace Listed

/-- A buffer goes to the front when nobody uses it any more. -/
theorem release (listed : Listed s) (inside : b < NBUF) : Listed (s.release b) := by
  simp only [State.release]
  split
  swap
  · exact listed
  obtain ⟨order, cycle, members⟩ := listed
  obtain ⟨xs, ys, rfl⟩ := append_of_mem ((members b).mpr inside)
  have out : b ∉ HEAD :: (xs ++ ys) := by
    have nodup := cycle.nodup
    rw [← cons_append, nodup_middle] at nodup
    exact (nodup_cons.mp nodup).1
  refine ⟨b :: (xs ++ ys), cycle.unlink.insertFront out, fun c => ?_⟩
  rw [← members c]
  simp only [mem_cons, mem_append]
  tauto

/-- The loops of `bget` look at every buffer. -/
theorem length_lt {order : List ℕ} (nodup : order.Nodup) (members : ∀ b, b ∈ order ↔ b < NBUF) :
    order.length < NBUF + 1 := by
  have most := (nodup.subperm fun b inside => mem_range.mpr ((members b).mp inside)).length_le
  rw [length_range] at most
  omega

theorem cached_some {dev : ℕ} (listed : Listed s) (found : s.cached dev n = some b) :
    b < NBUF ∧ (s.buf b).dev = dev ∧ (s.buf b).blockno = n := by
  obtain ⟨order, cycle, members⟩ := listed
  rw [State.cached, cycle.scan_next _ (length_lt (nodup_cons.mp cycle.nodup).2 members)] at found
  have matches_ := find?_some found
  simp only [Bool.and_eq_true, beq_iff_eq] at matches_
  exact ⟨(members b).mp (mem_of_find?_eq_some found), matches_⟩

theorem cached_none {dev : ℕ} (listed : Listed s) (missing : s.cached dev n = none) :
    ∀ b < NBUF, ¬((s.buf b).dev = dev ∧ (s.buf b).blockno = n) := by
  obtain ⟨order, cycle, members⟩ := listed
  rw [State.cached, cycle.scan_next _ (length_lt (nodup_cons.mp cycle.nodup).2 members),
    find?_eq_none] at missing
  intro b inside
  simpa using missing b ((members b).mpr inside)

theorem unused_some (listed : Listed s) (found : s.unused = some b) :
    b < NBUF ∧ (s.buf b).refcnt = 0 ∧ (s.buf b).dirty = false := by
  obtain ⟨order, cycle, members⟩ := listed
  rw [State.unused, cycle.scan_prev _ (length_lt (nodup_cons.mp cycle.nodup).2 members)] at found
  have free := find?_some found
  simp only [Bool.and_eq_true, beq_iff_eq, Bool.not_eq_true'] at free
  refine ⟨(members b).mp ?_, free⟩
  simpa using mem_of_find?_eq_some found

theorem unused_none (listed : Listed s) (missing : s.unused = none) :
    ∀ b < NBUF, (s.buf b).refcnt ≠ 0 ∨ (s.buf b).dirty = true := by
  obtain ⟨order, cycle, members⟩ := listed
  rw [State.unused, cycle.scan_prev _ (length_lt (nodup_cons.mp cycle.nodup).2 members),
    find?_eq_none] at missing
  intro b inside
  have busy := missing b (mem_reverse.mpr ((members b).mpr inside))
  simp only [Bool.and_eq_true, beq_iff_eq, not_and] at busy
  exact or_iff_not_imp_left.mpr fun free => by simpa using busy (not_not.mp free)

end Listed

/-! ## What a step does -/

/-- The steps, with what the loops of `bget` have found. -/
inductive Acts (procs : ℕ) (s : State α) : Event α → State α → Prop where
  | hit {p n b : ℕ} (process : p < procs) (idle : s.phase p = .idle) (inside : b < NBUF)
      (block : (s.buf b).dev = ROOTDEV ∧ (s.buf b).blockno = n) :
      Acts procs s .silent
        ((s.setBuf b fun buf => { buf with refcnt := buf.refcnt + 1 }).goto p (.locking n b))
  | recycle {p n b : ℕ} (process : p < procs) (idle : s.phase p = .idle) (inside : b < NBUF)
      (missing : ∀ c < NBUF, ¬((s.buf c).dev = ROOTDEV ∧ (s.buf c).blockno = n))
      (free : (s.buf b).refcnt = 0) (clean : (s.buf b).dirty = false) :
      Acts procs s .silent ((s.setBuf b fun buf => { buf with
        dev := ROOTDEV, blockno := n, valid := false, dirty := false, refcnt := 1 }).goto p
          (.locking n b))
  | lock {p n b : ℕ} (asked : s.phase p = .locking n b) (free : (s.buf b).lock = none) :
      Acts procs s .silent
        ((s.setBuf b fun buf => { buf with lock := some p }).goto p (.reading n b))
  | read {p n b : ℕ} (asked : s.phase p = .reading n b) (valid : (s.buf b).valid = true) :
      Acts procs s (.returned p b n (s.buf b).data) (s.goto p .idle)
  | load {p n b : ℕ} (asked : s.phase p = .reading n b) (invalid : (s.buf b).valid = false) :
      Acts procs s (.returned p b n ((s.iderw b).buf b).data) ((s.iderw b).goto p .idle)
  | bwrite {p b : ℕ} {d : α} (holds : s.Holds p b) :
      Acts procs s (.wrote p (s.buf b).blockno d)
        { s.setBuf b fun buf => { buf with data := d, valid := true, dirty := false } with
          disk := update s.disk (s.buf b).blockno d }
  | logWrite {p b : ℕ} {d : α} (holds : s.Holds p b) :
      Acts procs s (.wrote p (s.buf b).blockno d)
        (s.setBuf b fun buf => { buf with data := d, dirty := true })
  | brelse {p b : ℕ} (holds : s.Holds p b) :
      Acts procs s .silent
        ((s.setBuf b fun buf => { buf with lock := none }).goto p (.releasing b))
  | release {p b : ℕ} (asked : s.phase p = .releasing b) :
      Acts procs s .silent ((s.release b).goto p .idle)

/-- A buffer that is dirty goes to the disk. -/
theorem iderw_written (s : State α) (b : ℕ) (d : α) :
    (s.setBuf b fun buf => { buf with data := d, dirty := true }).iderw b =
      { s.setBuf b fun buf => { buf with data := d, valid := true, dirty := false } with
        disk := update s.disk (s.buf b).blockno d } := by
  simp [State.iderw, State.setBuf]

/-- A buffer that is not dirty is read from the disk. -/
theorem iderw_clean (clean : (s.buf b).dirty = false) :
    s.iderw b = s.setBuf b fun buf => { buf with data := s.disk buf.blockno, valid := true } := by
  simp [State.iderw, clean]

theorem release_buf (s : State α) (b : ℕ) :
    (s.release b).buf = update s.buf b { s.buf b with refcnt := (s.buf b).refcnt - 1 } := by
  simp only [State.release]
  split <;> rfl

theorem release_phase (s : State α) (b : ℕ) : (s.release b).phase = s.phase := by
  simp only [State.release]
  split <;> rfl

theorem release_disk (s : State α) (b : ℕ) : (s.release b).disk = s.disk := by
  simp only [State.release]
  split <;> rfl

theorem acts_of_step (listed : Listed s) (taken : Step procs s e t) : Acts procs s e t := by
  obtain ⟨a, done⟩ := taken
  cases a with
  | bread p n =>
    simp only [act] at done
    split at done
    · rename_i may
      obtain ⟨⟨b, u⟩, got, same⟩ := Option.map_eq_some_iff.mp done
      cases same
      rw [State.bget] at got
      split at got
      · rename_i found
        cases got
        obtain ⟨inside, block⟩ := listed.cached_some found
        exact .hit may.1 may.2 inside block
      · rename_i missing
        obtain ⟨c, found, same⟩ := Option.map_eq_some_iff.mp got
        cases same
        obtain ⟨inside, free, clean⟩ := listed.unused_some found
        exact .recycle may.1 may.2 inside (listed.cached_none missing) free clean
    · cases done
  | lock p =>
    simp only [act] at done
    split at done
    · rename_i asked
      obtain ⟨free, rfl, rfl⟩ := of_guard done
      exact .lock asked free
    · cases done
  | read p =>
    simp only [act] at done
    split at done
    · rename_i asked
      cases done
      split
      · rename_i valid
        exact .read asked valid
      · rename_i invalid
        exact .load asked (Bool.eq_false_iff.mpr invalid)
    · cases done
  | bwrite p b d =>
    obtain ⟨holds, rfl, rfl⟩ := of_guard done
    rw [iderw_written]
    exact .bwrite holds
  | logWrite p b d =>
    obtain ⟨holds, rfl, rfl⟩ := of_guard done
    exact .logWrite holds
  | brelse p b =>
    obtain ⟨holds, rfl, rfl⟩ := of_guard done
    exact .brelse holds
  | release p =>
    simp only [act] at done
    split at done
    · rename_i asked
      cases done
      exact .release asked
    · cases done

/-! ## Contents -/

/-- Whether a slot stands for a block of `ROOTDEV`. -/
def Slot.Is (slot : Slot α) (n : ℕ) : Prop := slot.dev = ROOTDEV ∧ slot.blockno = n

/-- The buffers and the disk show the last contents that were written. -/
structure Coherent (slot : ℕ → Slot α) (disk last : ℕ → α) : Prop where
  unique : ∀ {b c n : ℕ}, b < NBUF → c < NBUF → (slot b).Is n → (slot c).Is n → b = c
  device : ∀ {b : ℕ}, b < NBUF → (slot b).valid = true → (slot b).dev = ROOTDEV
  dirty : ∀ {b : ℕ}, b < NBUF → (slot b).dirty = true → (slot b).valid = true
  valid : ∀ {b n : ℕ}, b < NBUF → (slot b).Is n → (slot b).valid = true → (slot b).data = last n
  clean : ∀ {b n : ℕ}, b < NBUF → (slot b).Is n → (slot b).dirty = false → disk n = last n
  uncached : ∀ {n : ℕ}, (∀ b < NBUF, ¬(slot b).Is n) → disk n = last n

namespace Coherent

variable {slot : ℕ → Slot α} {disk last : ℕ → α} {d : α}

variable (coherent : Coherent slot disk last)
include coherent

/-- A buffer that is not dirty is recycled for a block that is not cached. -/
theorem recycle (inside : b < NBUF) (missing : ∀ c < NBUF, ¬(slot c).Is n)
    (clean : (slot b).dirty = false) {new : Slot α} (is : new.Is n) (invalid : new.valid = false)
    (fresh : new.dirty = false) : Coherent (update slot b new) disk last where
  unique {c c' m} insideC insideC' isC isC' := by
    -- the new block is the block of no other buffer
    have alone : ∀ {x y}, x < NBUF → x ≠ b → (update slot b new x).Is m →
        (update slot b new y).Is m → y ≠ b := by
      rintro x y insideX other isX isY rfl
      rw [update_self] at isY
      rw [update_of_ne other] at isX
      obtain rfl : n = m := is.2.symm.trans isY.2
      exact missing x insideX isX
    by_cases first : c = b
    · by_contra differ
      refine alone insideC' (fun same => differ (first.trans same.symm)) isC' isC first
    · have second := alone insideC first isC isC'
      rw [update_of_ne first] at isC
      rw [update_of_ne second] at isC'
      exact coherent.unique insideC insideC' isC isC'
  device {c} insideC isValid := by
    obtain rfl | other := eq_or_ne c b
    · rw [update_self]
      exact is.1
    · rw [update_of_ne other] at isValid ⊢
      exact coherent.device insideC isValid
  dirty {c} insideC isDirty := by
    obtain rfl | other := eq_or_ne c b
    · rw [update_self, fresh] at isDirty
      cases isDirty
    · rw [update_of_ne other] at isDirty ⊢
      exact coherent.dirty insideC isDirty
  valid {c m} insideC isC isValid := by
    obtain rfl | other := eq_or_ne c b
    · rw [update_self, invalid] at isValid
      cases isValid
    · rw [update_of_ne other] at isC isValid ⊢
      exact coherent.valid insideC isC isValid
  clean {c m} insideC isC isClean := by
    obtain rfl | other := eq_or_ne c b
    · rw [update_self] at isC
      obtain rfl : n = m := is.2.symm.trans isC.2
      exact coherent.uncached missing
    · rw [update_of_ne other] at isC isClean
      exact coherent.clean insideC isC isClean
  uncached {m} none := by
    -- the block that the buffer stood for is on the disk
    by_cases old : (slot b).Is m
    · exact coherent.clean inside old clean
    · refine coherent.uncached fun c insideC isC => none c insideC ?_
      rwa [update_of_ne]
      rintro rfl
      exact old isC

/-- A buffer that goes on to stand for its block, and the disk and the last contents of that
block. -/
theorem change (inside : b < NBUF) (is : (slot b).Is n) {new : Slot α} {disk' last' : ℕ → α}
    (same : new.Is n) (others : ∀ m, m ≠ n → disk' m = disk m ∧ last' m = last m)
    (dirty : new.dirty = true → new.valid = true) (valid : new.valid = true → new.data = last' n)
    (clean : new.dirty = false → disk' n = last' n) : Coherent (update slot b new) disk' last' := by
  have stands : ∀ {c m}, (update slot b new c).Is m ↔ (slot c).Is m := by
    intro c m
    obtain rfl | other := eq_or_ne c b
    · rw [update_self]
      refine ⟨fun isC => ?_, fun isC => ?_⟩
      · rwa [← isC.2, same.2]
      · rwa [← isC.2, is.2]
    · rw [update_of_ne other]
  have apart : ∀ {c m}, c < NBUF → c ≠ b → (slot c).Is m → m ≠ n := by
    rintro c m insideC other isC rfl
    exact other (coherent.unique insideC inside isC is)
  refine ⟨fun insideB insideC isB isC => coherent.unique insideB insideC (stands.mp isB)
    (stands.mp isC), fun {c} insideC isValid => ?_, fun {c} insideC isDirty => ?_,
    fun {c m} insideC isC isValid => ?_, fun {c m} insideC isC isClean => ?_, fun {m} none => ?_⟩
  · obtain rfl | other := eq_or_ne c b
    · rw [update_self]
      exact same.1
    · rw [update_of_ne other] at isValid ⊢
      exact coherent.device insideC isValid
  · obtain rfl | other := eq_or_ne c b
    · rw [update_self] at isDirty ⊢
      exact dirty isDirty
    · rw [update_of_ne other] at isDirty ⊢
      exact coherent.dirty insideC isDirty
  · rw [stands] at isC
    obtain rfl | other := eq_or_ne c b
    · obtain rfl : n = m := is.2.symm.trans isC.2
      rw [update_self] at isValid ⊢
      exact valid isValid
    · rw [update_of_ne other] at isValid ⊢
      rw [(others m (apart insideC other isC)).2]
      exact coherent.valid insideC isC isValid
  · rw [stands] at isC
    obtain rfl | other := eq_or_ne c b
    · obtain rfl : n = m := is.2.symm.trans isC.2
      rw [update_self] at isClean
      exact clean isClean
    · rw [update_of_ne other] at isClean
      obtain ⟨sameDisk, sameLast⟩ := others m (apart insideC other isC)
      rw [sameDisk, sameLast]
      exact coherent.clean insideC isC isClean
  · have other : m ≠ n := by
      rintro rfl
      exact none b inside (stands.mpr is)
    rw [(others m other).1, (others m other).2]
    exact coherent.uncached fun c insideC isC => none c insideC (stands.mpr isC)

theorem clean_of_invalid (inside : b < NBUF) (invalid : (slot b).valid = false) :
    (slot b).dirty = false := by
  rw [← Bool.not_eq_true]
  intro dirty
  rw [coherent.dirty inside dirty] at invalid
  cases invalid

end Coherent

/-! ## Locks and references -/

/-- The buffer that a process uses without its lock. -/
def Phase.uses : Phase → Option ℕ
  | .locking _ b | .releasing b => some b
  | .idle | .reading _ _ => none

/-- A process that is at no other buffer. -/
def Phase.At (b : ℕ) : Phase → Prop
  | .idle => True
  | .locking _ c | .reading _ c | .releasing c => c = b

variable {phase : Phase} {buf : ℕ → Buf α} {new : Buf α}

theorem Phase.At.uses (here : phase.At b) {c : ℕ} (uses : phase.uses = some c) : c = b := by
  cases phase <;> simp_all [Phase.uses, Phase.At]

/-- A process that asks for a block is at the buffer of that block, with the lock if it is past
`acquiresleep`. -/
def Phase.Fits (p : ℕ) (buf : ℕ → Buf α) : Phase → Prop
  | .idle => True
  | .locking n b => b < NBUF ∧ (buf b).Is n
  | .reading n b => b < NBUF ∧ (buf b).Is n ∧ (buf b).lock = some p
  | .releasing b => b < NBUF

/-- A buffer that goes on to stand for its block. -/
theorem Phase.Fits.change (fits : phase.Fits p buf)
    (same : new.dev = (buf b).dev ∧ new.blockno = (buf b).blockno)
    (locked : (buf b).lock = some p → new.lock = some p) : phase.Fits p (update buf b new) := by
  have stands : ∀ {c m}, (buf c).Is m → (update buf b new c).Is m := by
    intro c m is
    obtain rfl | other := eq_or_ne c b
    · rw [update_self]
      exact ⟨same.1.trans is.1, same.2.trans is.2⟩
    · rwa [update_of_ne other]
  cases phase with
  | idle => trivial
  | locking n c => exact ⟨fits.1, stands fits.2⟩
  | reading n c =>
    refine ⟨fits.1, stands fits.2.1, ?_⟩
    obtain rfl | other := eq_or_ne c b
    · rw [update_self]
      exact locked fits.2.2
    · rw [update_of_ne other]
      exact fits.2.2
  | releasing c => exact fits

/-- A buffer that the process is not at can become another block's. -/
theorem Phase.Fits.recycle (fits : phase.Fits p buf) (away : phase.uses ≠ some b)
    (unlocked : (buf b).lock ≠ some p) : phase.Fits p (update buf b new) := by
  cases phase with
  | idle => trivial
  | locking n c =>
    have other : c ≠ b := fun same => away (congrArg some same)
    rwa [Phase.Fits, update_of_ne other]
  | reading n c =>
    have other : c ≠ b := by
      rintro rfl
      exact unlocked fits.2.2
    rwa [Phase.Fits, update_of_ne other]
  | releasing c => exact fits

/-- The step of another process. -/
theorem Phase.reading_update {phases : ℕ → Phase} {q m c : ℕ} {next : Phase}
    (away : ∀ m c, phases p ≠ .reading m c) (reading : phases q = .reading m c) :
    update phases p next q = .reading m c := by
  rwa [update_of_ne]
  rintro rfl
  exact away m c reading

/-- Processes are where they ask to be, a buffer that is held is valid, and the references are
counted. -/
structure Orderly (procs : ℕ) (s : State α) : Prop where
  outside : ∀ {p : ℕ}, procs ≤ p → s.phase p = .idle
  fits : ∀ p, (s.phase p).Fits p s.buf
  holder : ∀ {b p : ℕ}, b < NBUF → (s.buf b).lock = some p → p < procs ∧
    (s.buf b).dev = ROOTDEV ∧ ((s.buf b).valid = true ∨ ∃ n, s.phase p = .reading n b)
  counts : ∀ {b : ℕ}, b < NBUF → (s.buf b).refcnt =
    pointers procs (fun p => (s.phase p).uses) b + if (s.buf b).lock.isSome then 1 else 0

namespace Orderly

section

variable (orderly : Orderly procs s)
include orderly

theorem inside_of_ne_idle (busy : s.phase p ≠ .idle) : p < procs :=
  Nat.lt_of_not_le fun outside => busy (orderly.outside outside)

theorem fits_reading (asked : s.phase p = .reading n b) :
    b < NBUF ∧ (s.buf b).Is n ∧ (s.buf b).lock = some p := by
  simpa [asked, Phase.Fits] using orderly.fits p

theorem fits_releasing (asked : s.phase p = .releasing b) : b < NBUF := by
  simpa [asked, Phase.Fits] using orderly.fits p

theorem valid_of_holds (holds : s.Holds p b) :
    p < procs ∧ (s.buf b).Is (s.buf b).blockno ∧ (s.buf b).valid = true := by
  obtain ⟨idle, inside, locked⟩ := holds
  obtain ⟨process, device, valid | ⟨n, reading⟩⟩ := orderly.holder inside locked
  · exact ⟨process, ⟨device, rfl⟩, valid⟩
  · rw [idle] at reading
    cases reading

/-- Nobody uses a buffer without references. -/
theorem unused (inside : b < NBUF) (free : (s.buf b).refcnt = 0) :
    (s.buf b).lock = none ∧ ∀ q, (s.phase q).uses ≠ some b := by
  have count := orderly.counts inside
  rw [free] at count
  refine ⟨?_, fun q uses => ?_⟩
  · cases locked : (s.buf b).lock with
    | none => rfl
    | some p => simp [locked] at count
  · have process : q < procs := orderly.inside_of_ne_idle fun idle => by simp [idle, Phase.uses] at uses
    have some := pointers_pos (g := fun p => (s.phase p).uses) process uses
    omega

/-- A process goes on at a buffer, and the reference count of the buffer follows. -/
theorem step {new : Buf α} {phase : Phase} (process : p < procs) (buf : t.buf = update s.buf b new)
    (goes : t.phase = update s.phase p phase)
    (count : new.refcnt + (if (s.phase p).uses = some b then 1 else 0) +
        (if (s.buf b).lock.isSome then 1 else 0) =
      (s.buf b).refcnt + (if phase.uses = some b then 1 else 0) + if new.lock.isSome then 1 else 0)
    (before : (s.phase p).At b) (after : phase.At b)
    (others : ∀ q, q ≠ p → (s.phase q).Fits q t.buf) (fits : phase.Fits p t.buf)
    (holder : ∀ q, new.lock = some q → q < procs ∧ new.dev = ROOTDEV ∧
      (new.valid = true ∨ ∃ n, t.phase q = .reading n b)) : Orderly procs t where
  outside {q} out := by
    rw [goes, update_of_ne (by omega)]
    exact orderly.outside out
  fits q := by
    rw [goes]
    obtain rfl | other := eq_or_ne q p
    · rwa [update_self]
    · rw [update_of_ne other]
      exact others q other
  holder {c q} inside locked := by
    obtain rfl | other := eq_or_ne c b
    · rw [buf, update_self] at locked ⊢
      exact holder q locked
    · rw [buf, update_of_ne other] at locked ⊢
      obtain ⟨processQ, device, valid | ⟨n, reading⟩⟩ := orderly.holder inside locked
      · exact ⟨processQ, device, .inl valid⟩
      · refine ⟨processQ, device, .inr ⟨n, ?_⟩⟩
        rwa [goes, update_of_ne]
        rintro rfl
        rw [reading] at before
        exact other before
  counts {c} inside := by
    have uses : (fun q => (t.phase q).uses) =
        update (fun q => (s.phase q).uses) p phase.uses := by
      rw [goes]
      exact funext fun q => Function.apply_update (fun _ => Phase.uses) s.phase p phase q
    have moved := pointers_update process (fun q => (s.phase q).uses) phase.uses c
    have old := orderly.counts inside
    rw [uses, buf]
    obtain rfl | other := eq_or_ne c b
    · rw [update_self]
      omega
    · rw [if_neg fun is => other (before.uses is), if_neg fun is => other (after.uses is)] at moved
      rw [update_of_ne other]
      omega

end

theorem binit_orderly (procs : ℕ) (zero : α) (disk : ℕ → α) :
    Orderly procs (binit zero disk) where
  outside _ := rfl
  fits _ := trivial
  holder _ locked := nomatch locked
  counts _ := by simp [binit, pointers, Phase.uses]

section

variable (orderly : Orderly procs s)
include orderly

/-- The step of a process to another phase, for a buffer that goes on to stand for its block. -/
theorem step_same {new : Buf α} {phase : Phase} (process : p < procs)
    (buf : t.buf = update s.buf b new) (goes : t.phase = update s.phase p phase)
    (same : new.dev = (s.buf b).dev ∧ new.blockno = (s.buf b).blockno)
    (count : new.refcnt + (if (s.phase p).uses = some b then 1 else 0) +
        (if (s.buf b).lock.isSome then 1 else 0) =
      (s.buf b).refcnt + (if phase.uses = some b then 1 else 0) + if new.lock.isSome then 1 else 0)
    (before : (s.phase p).At b) (after : phase.At b)
    (others : ∀ q, q ≠ p → (s.buf b).lock = some q → new.lock = some q) (fits : phase.Fits p t.buf)
    (holder : ∀ q, new.lock = some q → q < procs ∧ new.dev = ROOTDEV ∧
      (new.valid = true ∨ ∃ n, t.phase q = .reading n b)) : Orderly procs t := by
  refine orderly.step process buf goes count before after (fun q other => ?_) fits holder
  rw [buf]
  exact (orderly.fits q).change same (others q other)

theorem hit (process : p < procs) (idle : s.phase p = .idle) (inside : b < NBUF)
    (block : (s.buf b).Is n) :
    Orderly procs
      ((s.setBuf b fun buf => { buf with refcnt := buf.refcnt + 1 }).goto p (.locking n b)) := by
  refine orderly.step_same process rfl rfl ⟨rfl, rfl⟩ ?_ (idle ▸ trivial) rfl (fun q _ => id)
    ⟨inside, ?_⟩ (fun q locked => ?_)
  · simp [idle, Phase.uses]
  · simpa [State.goto, State.setBuf] using block
  · obtain ⟨processQ, device, valid⟩ := orderly.holder inside locked
    have away : ∀ m c, s.phase p ≠ .reading m c := by simp [idle]
    exact ⟨processQ, device, valid.imp_right fun ⟨m, reading⟩ =>
      ⟨m, Phase.reading_update away reading⟩⟩

theorem recycle (process : p < procs) (idle : s.phase p = .idle) (inside : b < NBUF)
    (free : (s.buf b).refcnt = 0) :
    Orderly procs ((s.setBuf b fun buf => { buf with
      dev := ROOTDEV, blockno := n, valid := false, dirty := false, refcnt := 1 }).goto p
        (.locking n b)) := by
  obtain ⟨unlocked, unused⟩ := orderly.unused inside free
  refine orderly.step process rfl rfl ?_ (idle ▸ trivial) rfl (fun q _ => ?_)
    ⟨inside, ?_⟩ (fun q locked => ?_)
  · simp [idle, Phase.uses, free]
  · exact (orderly.fits q).recycle (unused q) (by simp [unlocked])
  · simp [State.goto, State.setBuf, Slot.Is]
  · rw [unlocked] at locked
    cases locked

theorem lock (asked : s.phase p = .locking n b) (free : (s.buf b).lock = none) :
    Orderly procs ((s.setBuf b fun buf => { buf with lock := some p }).goto p (.reading n b)) := by
  have process := orderly.inside_of_ne_idle (p := p) (by simp [asked])
  obtain ⟨inside, block⟩ : b < NBUF ∧ (s.buf b).Is n := by
    simpa [asked, Phase.Fits] using orderly.fits p
  refine orderly.step_same process rfl rfl ⟨rfl, rfl⟩ ?_ (asked ▸ rfl) rfl (fun q _ locked => ?_)
    ⟨inside, ?_, ?_⟩ (fun q locked => ?_)
  · simp [asked, Phase.uses, free]
  · rw [free] at locked
    cases locked
  · simpa [State.goto, State.setBuf] using block
  · simp [State.goto, State.setBuf]
  · obtain rfl : p = q := Option.some.inj locked
    exact ⟨process, block.1, .inr ⟨n, by simp [State.goto]⟩⟩

/-- `bread` returns a buffer that is valid. -/
theorem returns (asked : s.phase p = .reading n b) {new : Buf α} (buf : t.buf = update s.buf b new)
    (goes : t.phase = update s.phase p .idle)
    (same : new.dev = (s.buf b).dev ∧ new.blockno = (s.buf b).blockno)
    (kept : new.lock = (s.buf b).lock ∧ new.refcnt = (s.buf b).refcnt) (valid : new.valid = true) :
    Orderly procs t := by
  have process := orderly.inside_of_ne_idle (p := p) (by simp [asked])
  obtain ⟨inside, block, locked⟩ := orderly.fits_reading asked
  refine orderly.step_same process buf goes same ?_ (asked ▸ rfl) trivial
    (fun q _ locked => kept.1.trans locked) trivial (fun q lockedQ => ?_)
  · simp [asked, Phase.uses, kept]
  · obtain rfl : p = q := Option.some.inj (locked.symm.trans (kept.1.symm.trans lockedQ))
    exact ⟨process, same.1.trans block.1, .inl valid⟩

/-- `bwrite` and `log_write` leave a valid buffer. -/
theorem written (holds : s.Holds p b) {new : Buf α} (buf : t.buf = update s.buf b new)
    (same : new.dev = (s.buf b).dev ∧ new.blockno = (s.buf b).blockno)
    (kept : new.lock = (s.buf b).lock ∧ new.refcnt = (s.buf b).refcnt) (valid : new.valid = true)
    (phase : t.phase = s.phase) : Orderly procs t := by
  obtain ⟨process, block, -⟩ := orderly.valid_of_holds holds
  obtain ⟨idle, inside, locked⟩ := holds
  refine orderly.step_same process buf (phase.trans (update_eq_self p s.phase).symm) same ?_
    (idle ▸ trivial) (idle ▸ trivial) (fun q _ locked => kept.1.trans locked) (idle ▸ trivial)
    (fun q lockedQ => ?_)
  · simp [kept]
  · obtain rfl : p = q := Option.some.inj (locked.symm.trans (kept.1.symm.trans lockedQ))
    exact ⟨process, same.1.trans block.1, .inl valid⟩

theorem brelse (holds : s.Holds p b) :
    Orderly procs
      ((s.setBuf b fun buf => { buf with lock := none }).goto p (.releasing b)) := by
  obtain ⟨process, -, -⟩ := orderly.valid_of_holds holds
  obtain ⟨idle, inside, locked⟩ := holds
  refine orderly.step_same process rfl rfl ⟨rfl, rfl⟩ ?_ (idle ▸ trivial) rfl
    (fun q other lockedQ => ?_) inside (fun q lockedQ => nomatch lockedQ)
  · simp [idle, Phase.uses, locked]
  · exact absurd (Option.some.inj (lockedQ.symm.trans locked)) other

theorem release (asked : s.phase p = .releasing b) :
    Orderly procs ((s.release b).goto p .idle) := by
  have process := orderly.inside_of_ne_idle (p := p) (by simp [asked])
  have inside := orderly.fits_releasing asked
  have counted := orderly.counts inside
  have used := pointers_pos (g := fun q => (s.phase q).uses) process (by rw [asked]; rfl)
  have buf : ((s.release b).goto p .idle).buf =
      update s.buf b { s.buf b with refcnt := (s.buf b).refcnt - 1 } := release_buf s b
  have goes : ((s.release b).goto p .idle).phase = update s.phase p .idle := by
    rw [State.goto, release_phase]
  refine orderly.step_same process buf goes ⟨rfl, rfl⟩ ?_ (asked ▸ rfl) trivial (fun q _ => id)
    trivial (fun q locked => ?_)
  · simp only [asked, Phase.uses, if_true, reduceCtorEq, if_false]
    omega
  · obtain ⟨processQ, device, valid⟩ := orderly.holder inside locked
    refine ⟨processQ, device, valid.imp_right fun ⟨m, reading⟩ => ⟨m, ?_⟩⟩
    rw [goes]
    exact Phase.reading_update (by simp [asked]) reading

end

end Orderly

/-! ## Runs -/

/-- What holds after every run. -/
structure Sound (procs : ℕ) (disk : ℕ → α) (trace : List (Event α)) (s : State α) : Prop where
  listed : Listed s
  orderly : Orderly procs s
  coherent : Coherent (fun b => (s.buf b).toSlot) s.disk fun n => lastWritten disk n trace

theorem slots_update (buf : ℕ → Buf α) (b : ℕ) (new : Buf α) :
    (fun c => (update buf b new c).toSlot) =
      update (fun c => (buf c).toSlot) b new.toSlot :=
  funext fun c => Function.apply_update (fun _ => Buf.toSlot) buf b new c

theorem Coherent.of_update {disk last : ℕ → α}
    (coherent : Coherent (update (fun c => (buf c).toSlot) b new.toSlot) disk last) :
    Coherent (fun c => (update buf b new c).toSlot) disk last := by
  rwa [slots_update]

/-- Buffers that show what they showed. -/
theorem slots_same (same : new.toSlot = (buf b).toSlot) :
    (fun c => (update buf b new c).toSlot) = fun c => (buf c).toSlot := by
  rw [slots_update, same]
  exact update_eq_self b _

theorem binit_coherent (zero : α) (disk : ℕ → α) :
    Coherent (fun b => ((binit zero disk).buf b).toSlot) disk disk where
  unique _ _ is := nomatch is.1
  device _ valid := nomatch valid
  dirty _ dirty := nomatch dirty
  valid _ _ valid := nomatch valid
  clean _ _ _ := rfl
  uncached _ := rfl

namespace Sound

variable {disk : ℕ → α}

theorem initially (procs : ℕ) (zero : α) (disk : ℕ → α) : Sound procs disk [] (binit zero disk) :=
  ⟨binit_listed zero disk, .binit_orderly procs zero disk, binit_coherent zero disk⟩

/-- Contents that are written to the block of a buffer that is held. -/
theorem written (sound : Sound procs disk trace s) (holds : s.Holds p b) {d : α} {new : Buf α}
    (buf : t.buf = update s.buf b new)
    (same : new.dev = (s.buf b).dev ∧ new.blockno = (s.buf b).blockno)
    (kept : new.lock = (s.buf b).lock ∧ new.refcnt = (s.buf b).refcnt) (valid : new.valid = true)
    (data : new.data = d) (links : t.links = s.links) (phase : t.phase = s.phase)
    (others : ∀ m, m ≠ (s.buf b).blockno → t.disk m = s.disk m)
    (clean : new.dirty = false → t.disk (s.buf b).blockno = d) :
    Sound procs disk (.wrote p (s.buf b).blockno d :: trace) t where
  listed := by
    rw [Listed, links]
    exact sound.listed
  orderly := sound.orderly.written holds buf same kept valid phase
  coherent := by
    obtain ⟨-, block, -⟩ := sound.orderly.valid_of_holds holds
    rw [buf, slots_update]
    refine sound.coherent.change holds.2.1 block ⟨same.1.trans block.1, same.2⟩ (fun m other => ?_)
      (fun _ => valid) (fun _ => ?_) (fun isClean => ?_)
    · exact ⟨others m other, if_neg other.symm⟩
    · rwa [lastWritten, if_pos rfl]
    · rw [lastWritten, if_pos rfl]
      exact clean isClean

/-- A step that writes nothing and changes no slot. -/
theorem quiet (sound : Sound procs disk trace s) (listed : Listed t) (orderly : Orderly procs t)
    (slots : (fun b => (t.buf b).toSlot) = fun b => (s.buf b).toSlot) (same : t.disk = s.disk)
    (last : ∀ n, lastWritten disk n (e :: trace) = lastWritten disk n trace) :
    Sound procs disk (e :: trace) t where
  listed := listed
  orderly := orderly
  coherent := by
    rw [slots, same, funext last]
    exact sound.coherent

theorem step (sound : Sound procs disk trace s) (taken : Step procs s e t) :
    Sound procs disk (e :: trace) t := by
  have acts := acts_of_step sound.listed taken
  cases acts with
  | hit process idle inside block =>
    exact sound.quiet sound.listed (sound.orderly.hit process idle inside block) (slots_same rfl)
      rfl fun _ => rfl
  | @recycle p n b process idle inside missing free clean =>
    refine ⟨sound.listed, sound.orderly.recycle process idle inside free, ?_⟩
    exact .of_update (sound.coherent.recycle inside missing clean ⟨rfl, rfl⟩ rfl rfl)
  | lock asked free =>
    exact sound.quiet sound.listed (sound.orderly.lock asked free) (slots_same rfl) rfl fun _ => rfl
  | @read p n b asked valid =>
    refine sound.quiet sound.listed ?_ rfl rfl fun _ => rfl
    exact sound.orderly.returns asked (update_eq_self b s.buf).symm rfl ⟨rfl, rfl⟩
      ⟨rfl, rfl⟩ valid
  | @load p n b asked invalid =>
    obtain ⟨inside, block, -⟩ := sound.orderly.fits_reading asked
    have clean := sound.coherent.clean_of_invalid inside invalid
    rw [iderw_clean clean]
    refine ⟨sound.listed,
      sound.orderly.returns asked rfl rfl ⟨rfl, rfl⟩ ⟨rfl, rfl⟩ rfl, ?_⟩
    have loaded := sound.coherent.clean inside block clean
    exact .of_update (sound.coherent.change inside block block (fun _ _ => ⟨rfl, rfl⟩)
      (fun _ => rfl) (fun _ => (congrArg s.disk block.2).trans loaded) (fun _ => loaded))
  | @bwrite p b d holds =>
    refine sound.written holds rfl ⟨rfl, rfl⟩ ⟨rfl, rfl⟩ rfl rfl rfl rfl (fun m other => ?_)
      fun _ => ?_
    · exact update_of_ne other _ _
    · exact update_self _ _ _
  | @logWrite p b d holds =>
    obtain ⟨-, -, valid⟩ := sound.orderly.valid_of_holds holds
    exact sound.written holds rfl ⟨rfl, rfl⟩ ⟨rfl, rfl⟩ valid rfl rfl rfl (fun _ _ => rfl)
      (fun isClean => nomatch isClean)
  | brelse holds =>
    exact sound.quiet sound.listed (sound.orderly.brelse holds) (slots_same rfl) rfl fun _ => rfl
  | @release p b asked =>
    refine sound.quiet ?_ (sound.orderly.release asked) ?_ (release_disk s b) fun _ => rfl
    · exact sound.listed.release (sound.orderly.fits_releasing asked)
    · simp only [State.goto, release_buf]
      exact slots_same rfl

theorem of_run {zero : α} (run : Run (Step procs) (binit zero disk) trace s) :
    Sound procs disk trace s :=
  run.invariant (initially procs zero disk) fun sound taken => sound.step taken

theorem is_of_dirty (sound : Sound procs disk trace s) (inside : b < NBUF)
    (dirty : (s.buf b).dirty = true) : (s.buf b).Is (s.buf b).blockno :=
  ⟨sound.coherent.device inside (sound.coherent.dirty inside dirty), rfl⟩

/-- A buffer that is referenced or dirty goes on to stand for its block. -/
theorem keeps_block (sound : Sound procs disk trace s) (taken : Step procs s e t) (inside : b < NBUF)
    (pinned : 0 < (s.buf b).refcnt ∨ (s.buf b).dirty = true) :
    (t.buf b).dev = (s.buf b).dev ∧ (t.buf b).blockno = (s.buf b).blockno := by
  -- only a buffer that is neither is recycled
  have other : ∀ {c : ℕ} {new : Buf α}, (c = b → new.dev = (s.buf b).dev ∧
      new.blockno = (s.buf b).blockno) → (update s.buf c new b).dev = (s.buf b).dev ∧
        (update s.buf c new b).blockno = (s.buf b).blockno := by
    intro c new same
    obtain rfl | differ := eq_or_ne b c
    · rw [update_self]
      exact same rfl
    · rw [update_of_ne differ]
      exact ⟨rfl, rfl⟩
  cases acts_of_step sound.listed taken with
  | hit | lock | bwrite | logWrite | brelse =>
    apply other
    rintro rfl
    exact ⟨rfl, rfl⟩
  | recycle process idle inside missing free clean =>
    apply other
    rintro rfl
    rw [free, clean] at pinned
    simp at pinned
  | read => exact ⟨rfl, rfl⟩
  | @load p n c asked invalid =>
    obtain ⟨insideC, -, -⟩ := sound.orderly.fits_reading asked
    rw [iderw_clean (sound.coherent.clean_of_invalid insideC invalid)]
    apply other
    rintro rfl
    exact ⟨rfl, rfl⟩
  | release =>
    rw [State.goto, release_buf]
    apply other
    rintro rfl
    exact ⟨rfl, rfl⟩

/-- `bread` returns the last contents that were written. -/
theorem returned (sound : Sound procs disk trace s) {d : α}
    (taken : Step procs s (.returned p b n d) t) :
    b < NBUF ∧ (t.buf b).Is n ∧ (t.buf b).lock = some p ∧ d = (t.buf b).data ∧
      d = lastWritten disk n trace := by
  cases acts_of_step sound.listed taken with
  | read asked valid =>
    obtain ⟨inside, block, locked⟩ := sound.orderly.fits_reading asked
    exact ⟨inside, block, locked, rfl, sound.coherent.valid inside block valid⟩
  | load asked invalid =>
    obtain ⟨inside, block, locked⟩ := sound.orderly.fits_reading asked
    have clean := sound.coherent.clean_of_invalid inside invalid
    have loaded := sound.coherent.clean inside block clean
    rw [iderw_clean clean]
    simp only [State.goto, State.setBuf, update_self]
    exact ⟨inside, block, locked, trivial, (congrArg s.disk block.2).trans loaded⟩

end Sound

/-- **The buffer cache is coherent.** For every run of `bread`, `bwrite`, `log_write` and `brelse`
calls of any processes from `binit`, the list is a doubly linked cycle through the head and every
buffer, a block is cached once, a buffer that is referenced or dirty is not recycled, and `bread`
returns the last contents that were written to the block. -/
theorem buffer_cache_coherent {α : Type} (procs : ℕ) (zero : α) (disk : ℕ → α)
    (trace : List (Event α)) (s : State α) (run : Run (Step procs) (binit zero disk) trace s) :
    (∃ order, s.links.Cycle HEAD order ∧ ∀ b, b ∈ order ↔ b < NBUF) ∧
      (∀ b c, b < NBUF → c < NBUF → (s.buf b).dev = ROOTDEV ∨ (s.buf b).valid = true →
        (s.buf c).dev = (s.buf b).dev → (s.buf c).blockno = (s.buf b).blockno → b = c) ∧
      (∀ e t, Step procs s e t → ∀ b, b < NBUF →
        0 < (s.buf b).refcnt ∨ (s.buf b).dirty = true →
          (t.buf b).dev = (s.buf b).dev ∧ (t.buf b).blockno = (s.buf b).blockno) ∧
      ∀ p b n d t, Step procs s (.returned p b n d) t →
        b < NBUF ∧ ((t.buf b).dev = ROOTDEV ∧ (t.buf b).blockno = n) ∧ (t.buf b).lock = some p ∧
          d = (t.buf b).data ∧ d = lastWritten disk n trace := by
  have sound := Sound.of_run run
  refine ⟨sound.listed, fun b c insideB insideC cached sameDev sameBlock => ?_,
    fun e t taken b inside pinned => sound.keeps_block taken inside pinned,
    fun p b n d t taken => sound.returned taken⟩
  have device : (s.buf b).dev = ROOTDEV := cached.elim id (sound.coherent.device insideB)
  exact sound.coherent.unique insideB insideC ⟨device, rfl⟩ ⟨sameDev.trans device, sameBlock⟩

/-- Process 0 writes to block 7 and releases it, and process 1 reads the block. -/
theorem buffer_cache_coherent_of_write :
    ∃ (trace : List (Event ℕ)) (s t : State ℕ) (b : ℕ), Run (Step 2) (binit 0 fun _ => 0) trace s ∧
      Step 2 s (.returned 1 b 7 5) t ∧ 5 = lastWritten (fun _ => 0) 7 trace := by
  have played : (replay (fun a s => act 2 s a) (binit 0 fun _ => 0) [.lock 1, .bread 1 7, .release 0,
      .brelse 0 0, .logWrite 0 0 5, .read 0, .lock 0, .bread 0 7]).any (fun (_, s) =>
        match act 2 s (.read 1) with
        | some (.returned 1 _ 7 5, _) => true
        | _ => false) = true := by
    decide +kernel
  have steps : ∀ (a : Action ℕ) (s : State ℕ) (e : Event ℕ) (t : State ℕ),
      act 2 s a = some (e, t) → Step 2 s e t := fun a _ _ _ done => ⟨a, done⟩
  obtain ⟨trace, s, run, reads⟩ := Run.exists_of_replay steps played
  simp only at reads
  split at reads
  · rename_i b t done
    obtain ⟨-, -, -, returns⟩ := buffer_cache_coherent 2 0 (fun _ => 0) trace s run
    exact ⟨trace, s, t, b, run, ⟨_, done⟩, (returns 1 b 7 5 t ⟨_, done⟩).2.2.2.2⟩
  · cases reads

end Xv6Uac.Bio
