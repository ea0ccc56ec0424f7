import Mathlib.Data.List.ReduceOption
import Xv6Uac.Bio.Coherence
import Xv6Uac.Log.Admission

/-!
# Whether there is a buffer left

The log and the buffer cache as one system. `log_write` makes the buffer of the block that it
logs dirty, and `bget` does not recycle a dirty buffer, until `install_trans` has written it to
disk. The log can hold as many blocks as there are buffers, and operations and `commit` use
buffers of further blocks while they run.

The dirty buffers are those of blocks that are still to be installed (`System.Pinned`), so that
the reservations of `begin_op` bound their number. Operations that log at most `MAXOPBLOCKS - 2`
distinct blocks leave two buffers for each process; with one block more, `bget` panics
(`buffers_suffice_iff`).
-/

namespace Xv6Uac.Capacity

open TraceRun Finset
open Function (update_of_ne update_self)

variable {α : Type} {procs k p n b : ℕ}

/-! ## The system -/

structure System (α : Type) where
  log : Log.LogState
  cache : Bio.State α

/-- A process that is inside an operation or in `commit`. -/
def works : Log.Phase → Bool
  | .active | .commit _ => true
  | .idle | .asleep | .awake => false

/-- The buffers that a process has locked, or waits for, or is about to release. -/
def System.uses (s : System α) (p : ℕ) : Finset ℕ :=
  (range NBUF).filter fun b =>
    (s.cache.buf b).lock = some p ∨ (s.cache.phase p).uses = some b

/-- A process uses at most two buffers, and none outside of operations and `commit`. -/
def System.Frugal (procs : ℕ) (s : System α) : Prop :=
  ∀ p < procs, (s.uses p).card ≤ 2 ∧ (s.uses p = ∅ ∨ works (s.log.phase p) = true)

instance (procs : ℕ) (s : System α) : Decidable (s.Frugal procs) :=
  inferInstanceAs (Decidable (∀ p < procs, _))

/-- The steps of the log that write a buffer: `log_write` and the writes of `commit`. -/
def writes : Log.Event → Bool
  | .logged _ _ | .copied _ _ | .wroteHead _ | .installed _ _ | .erasedHead _ => true
  | _ => false

/-- Process `p` writes block `n` in such a step. `log_write` makes the buffer dirty, and `commit`
writes to disk. -/
def pairs (p n : ℕ) : Log.Event → Bio.Action α → Bool
  | .logged q m, .logWrite _ _ _ | .installed q m, .bwrite _ _ _ => q = p ∧ m = n
  | .copied q _, .bwrite _ _ _ | .wroteHead q, .bwrite _ _ _ | .erasedHead q, .bwrite _ _ _ => q = p
  | _, _ => false

/-- A step of the log, of the cache or of both. -/
inductive Action (α : Type) where
  | log (call : Log.Call)
  | cache (a : Bio.Action α)
  | both (call : Log.Call) (a : Bio.Action α)

def System.next (procs : ℕ) (s : System α) : Action α → Option (Option Log.Event × System α)
  | .log call =>
    match Log.step LOGSIZE s.log call with
    | .next event log => if writes event then none else some (some event, ⟨log, s.cache⟩)
    | _ => none
  | .cache a =>
    match Bio.act procs s.cache a with
    | some (.silent, cache) | some (.returned _ _ _ _, cache) => some (none, ⟨s.log, cache⟩)
    | _ => none
  | .both call a =>
    match Log.step LOGSIZE s.log call, Bio.act procs s.cache a with
    | .next event log, some (.wrote p n _, cache) =>
      if pairs p n event a then some (some event, ⟨log, cache⟩) else none
    | _, _ => none

/-- A step after which the processes are still frugal. -/
def act (procs : ℕ) (a : Action α) (s : System α) : Option (Option Log.Event × System α) :=
  (s.next procs a).filter fun (_, t) => t.Frugal procs

def Step (procs : ℕ) (s : System α) (event : Option Log.Event) (t : System α) : Prop :=
  ∃ a, act procs a s = some (event, t)

/-- After `binit` and `initlog`. -/
def boot (zero : α) (disk : ℕ → α) : System α := ⟨.init, Bio.binit zero disk⟩

/-- The cache suffices for operations of at most `k` distinct blocks: in every run of such
operations, a process that uses at most one buffer gets another one from `bget`. -/
def BuffersSuffice (k : ℕ) : Prop :=
  ∀ (α : Type) (procs : ℕ) (zero : α) (disk : ℕ → α) (trace : List (Option Log.Event))
    (s : System α), Run (Step procs) (boot zero disk) trace s →
    Log.OpsWithin k trace.reduceOption →
    ∀ p < procs, works (s.log.phase p) = true → (s.uses p).card ≤ 1 →
      ∀ n, (s.cache.bget ROOTDEV n).isSome

/-! ## Dirty buffers are still to be installed -/

/-- The blocks of the header that a stage of `commit` leaves to be installed. -/
def left : Log.Stage → List ℕ → List ℕ
  | .install tail, lh => lh.drop tail
  | .clear, _ => []
  | _, lh => lh

/-- The block is logged and still to be installed. -/
def Pending (log : Log.LogState) (n : ℕ) : Prop :=
  n ∈ log.lh ∧ ∀ p stage, log.phase p = .commit stage → n ∈ left stage log.lh

namespace Pending

variable {log log' : Log.LogState} {event : Log.Event}

theorem goto (pending : Pending log n) {phase : Log.Phase}
    (next : ∀ stage, phase = .commit stage → n ∈ left stage log.lh) :
    Pending (log.goto p phase) n := by
  refine ⟨pending.1, fun q stage here => ?_⟩
  rw [Log.goto_phase] at here
  split at here
  · exact next stage here
  · exact pending.2 q stage here

theorem of_logged (control : Log.Control log) (taken : Log.Step LOGSIZE log (.logged p n) log') :
    Pending log' n := by
  cases taken with
  | logged _ _ inside =>
    split
    · next member => exact ⟨member, fun q stage there => absurd there (control.not_commit inside)⟩
    · exact ⟨List.mem_append_right _ (List.mem_singleton_self n), fun q stage there =>
        absurd there (control.not_commit inside)⟩

theorem step (pending : Pending log n) (control : Log.Control log)
    (taken : Log.Step LOGSIZE log event log') (other : ∀ p, event ≠ .installed p n) :
    Pending log' n := by
  cases taken with
  | began | slept | woken => exact pending.goto nofun
  | logged p b inside =>
    split
    · exact pending
    · exact ⟨List.mem_append_left _ pending.1, fun q stage there =>
        absurd there (control.not_commit inside)⟩
  | endedLast | begunCommit | nothingToCommit | copied | copiedAll | wroteHead | erasedHead =>
    apply pending.goto
    rintro _ ⟨⟩
    exact pending.1
  | ended | committed =>
    exact ⟨pending.1, fun q stage here =>
      pending.2 q stage (Log.Control.phase_of_wakeup_goto here).2⟩
  | installed p m tail here entry =>
    apply pending.goto
    rintro _ ⟨⟩
    have later := pending.2 p _ here
    rw [left, List.drop_eq_getElem?_toList_append, entry] at later
    rcases List.mem_append.mp later with now | later
    · cases List.mem_singleton.mp now
      exact absurd rfl (other p)
    · exact later
  | installedAll p tail here past =>
    have none := pending.2 p _ here
    rw [left, List.drop_eq_nil_of_le past] at none
    cases none
  | cleared p here => cases pending.2 p _ here

end Pending

/-- Every dirty buffer is still to be installed. -/
def System.Pinned (s : System α) : Prop :=
  ∀ b < NBUF, (s.cache.buf b).dirty = true → Pending s.log (s.cache.buf b).blockno

/-- A step of the cache that writes nothing makes no buffer dirty. -/
theorem dirty_of_quiet {disk : ℕ → α} {older : List (Bio.Event α)} {s t : Bio.State α}
    {e : Bio.Event α} (sound : Bio.Sound procs disk older s) (acts : Bio.Acts procs s e t)
    (quiet : ∀ p n d, e ≠ .wrote p n d) (dirty : (t.buf b).dirty = true) :
    (s.buf b).dirty = true ∧ (t.buf b).blockno = (s.buf b).blockno := by
  cases acts with
  | hit | recycle | lock | brelse =>
    simp only [Bio.State.goto, Bio.State.setBuf, Function.update_apply] at dirty ⊢
    split at dirty <;> simp_all
  | read => exact ⟨dirty, rfl⟩
  | load asked invalid =>
    obtain ⟨inside, -, -⟩ := sound.orderly.fits_reading asked
    rw [Bio.iderw_clean (sound.coherent.clean_of_invalid inside invalid)] at dirty ⊢
    simp only [Bio.State.goto, Bio.State.setBuf, Function.update_apply] at dirty ⊢
    split at dirty <;> simp_all
  | bwrite | logWrite => exact absurd rfl (quiet _ _ _)
  | release =>
    simp only [Bio.State.goto, Bio.release_buf, Function.update_apply] at dirty ⊢
    split at dirty <;> simp_all

/-! ## Runs -/

/-- What holds after every run. -/
structure Inv (procs : ℕ) (disk : ℕ → α) (trace : List (Option Log.Event)) (s : System α) :
    Prop where
  log : Log.ProtocolRun LOGSIZE trace.reduceOption s.log
  cache : ∃ older, Bio.Sound procs disk older s.cache
  frugal : s.Frugal procs
  pinned : s.Pinned

namespace Inv

variable {disk : ℕ → α} {trace : List (Option Log.Event)} {event : Option Log.Event}
  {s t : System α}

section

variable (inv : Inv procs disk trace s)
include inv

theorem control : Log.Control s.log := (Log.protocolInv inv.log).control

/-- A step of `log_write` or of `commit` that writes a buffer. -/
theorem pinned_of_pairs {older : List (Bio.Event α)} (sound : Bio.Sound procs disk older s.cache)
    {cache : Bio.State α} {log : Log.LogState} {event : Log.Event}
    (moves : Log.Step LOGSIZE s.log event log) {a : Bio.Action α} {d : α}
    (taken : Bio.act procs s.cache a = some (.wrote p n d, cache))
    (together : pairs p n event a = true) : System.Pinned ⟨log, cache⟩ := by
  intro b inside dirty
  cases a with
  | logWrite q c d =>
    obtain ⟨holds, same⟩ := Option.ite_none_right_eq_some.mp taken
    cases same
    cases event <;> simp [pairs] at together
    obtain ⟨rfl, rfl⟩ := together
    dsimp only [Bio.State.setBuf] at dirty ⊢
    obtain rfl | other := eq_or_ne b c
    · rw [update_self]
      exact .of_logged inv.control moves
    · rw [update_of_ne other] at dirty ⊢
      exact (inv.pinned b inside dirty).step inv.control moves nofun
  | bwrite q c d =>
    obtain ⟨holds, same⟩ := Option.ite_none_right_eq_some.mp taken
    rw [Bio.iderw_written] at same
    cases same
    dsimp only [Bio.State.setBuf] at dirty ⊢
    obtain rfl | other := eq_or_ne b c
    · rw [update_self] at dirty
      cases dirty
    · rw [update_of_ne other] at dirty ⊢
      apply (inv.pinned b inside dirty).step inv.control moves
      -- the buffer of the block that is installed is the one that is written
      rintro q rfl
      simp only [pairs, decide_eq_true_eq] at together
      exact other (sound.coherent.unique inside holds.2.1 (sound.is_of_dirty inside dirty)
        ⟨(sound.orderly.valid_of_holds holds).2.1.1, together.2.symm⟩)
  | _ => cases event <;> simp [pairs] at together

theorem step (taken : Step procs s event t) : Inv procs disk (event :: trace) t := by
  obtain ⟨a, done⟩ := taken
  obtain ⟨done, checked⟩ := Option.filter_eq_some_iff.mp done
  have frugal : t.Frugal procs := of_decide_eq_true checked
  obtain ⟨older, sound⟩ := inv.cache
  cases a with
  | log call =>
    simp only [System.next] at done
    split at done
    · next event log moves =>
        obtain ⟨silent, same⟩ := Option.ite_none_left_eq_some.mp done
        cases same
        refine ⟨inv.log.tail ⟨call, moves⟩, inv.cache, frugal, fun b inside dirty => ?_⟩
        apply (inv.pinned b inside dirty).step inv.control (Log.step_cases moves)
        rintro p rfl
        exact silent rfl
    · cases done
  | cache a =>
    have quiet : ∀ {e cache}, Bio.act procs s.cache a = some (e, cache) →
        (∀ p n d, e ≠ .wrote p n d) → System.Frugal procs ⟨s.log, cache⟩ →
        Inv procs disk (none :: trace) ⟨s.log, cache⟩ := by
      refine fun taken quiet frugal =>
        ⟨inv.log, ⟨_, sound.step ⟨a, taken⟩⟩, frugal, fun b inside dirty => ?_⟩
      have before := dirty_of_quiet sound (Bio.acts_of_step sound.listed ⟨a, taken⟩) quiet dirty
      rw [before.2]
      exact inv.pinned b inside before.1
    simp only [System.next] at done
    split at done <;> cases done <;> rename_i taken <;> exact quiet taken nofun frugal
  | both call a =>
    simp only [System.next] at done
    split at done
    · next moves taken =>
        obtain ⟨together, same⟩ := Option.ite_none_right_eq_some.mp done
        cases same
        exact ⟨inv.log.tail ⟨call, moves⟩, ⟨_, sound.step ⟨a, taken⟩⟩, frugal,
          inv.pinned_of_pairs sound (Log.step_cases moves) taken together⟩
    · cases done

/-- The dirty buffers are of different blocks of the header. -/
theorem card_dirty_le :
    ((range NBUF).filter fun b => (s.cache.buf b).dirty = true).card ≤ s.log.lh.length := by
  obtain ⟨older, sound⟩ := inv.cache
  refine le_trans ?_ s.log.lh.toFinset_card_le
  refine card_le_card_of_injOn (fun b => (s.cache.buf b).blockno) (fun b member => ?_) ?_
  · obtain ⟨inside, dirty⟩ := mem_filter.mp member
    exact List.mem_toFinset.mpr (inv.pinned b (mem_range.mp inside) dirty).1
  · intro b member c member' same
    obtain ⟨inside, dirty⟩ := mem_filter.mp member
    obtain ⟨inside', dirty'⟩ := mem_filter.mp member'
    rw [mem_range] at inside inside'
    exact sound.coherent.unique inside inside' (sound.is_of_dirty inside dirty)
      ⟨(sound.is_of_dirty inside' dirty').1, same.symm⟩

/-- A buffer with references is used by a process. -/
theorem user (inside : b < NBUF) (busy : (s.cache.buf b).refcnt ≠ 0) :
    ∃ q < procs, b ∈ s.uses q := by
  obtain ⟨older, sound⟩ := inv.cache
  have count := sound.orderly.counts inside
  have member : ∀ q, (s.cache.buf b).lock = some q ∨ (s.cache.phase q).uses = some b →
      b ∈ s.uses q := fun q uses => mem_filter.mpr ⟨mem_range.mpr inside, uses⟩
  cases locked : (s.cache.buf b).lock with
  | some q => exact ⟨q, (sound.orderly.holder inside locked).1, member q (.inl locked)⟩
  | none =>
    rw [locked, Option.isSome_none, if_neg Bool.false_ne_true, Nat.add_zero] at count
    obtain ⟨q, points⟩ := card_pos.mp (Nat.pos_of_ne_zero (count ▸ busy))
    obtain ⟨process, uses⟩ := mem_filter.mp points
    exact ⟨q, mem_range.mp process, member q (.inr uses)⟩

/-- The processes inside operations and in `commit` leave room for two buffers each. -/
theorem workers (small : k ≤ MAXOPBLOCKS - 2) (within : Log.OpsWithin k trace.reduceOption)
    (working : works (s.log.phase p) = true) :
    ∃ workers : Finset ℕ, p ∈ workers ∧ (∀ q, works (s.log.phase q) = true → q ∈ workers) ∧
      s.log.lh.length + 2 * workers.card ≤ LOGSIZE := by
  have control := inv.control
  obtain ⟨active, member, -⟩ := control.active
  have room := (Log.Headroom.of_opsWithin inv.log (small.trans (Nat.sub_le _ _)) within).room
    active member
  have least : 2 ≤ MAXOPBLOCKS - k := by
    simp only [MAXOPBLOCKS] at small ⊢
    omega
  have twice := Nat.mul_le_mul_right (max 2 active.card) least
  cases here : s.log.phase p with
  | active =>
    refine ⟨active, (member p).mpr here, fun q working => ?_, by omega⟩
    cases there : s.log.phase q with
    | active => exact (member q).mpr there
    | commit stage => exact absurd there (control.not_commit here)
    | _ => simp [there, works] at working
  | commit stage =>
    refine ⟨{p}, mem_singleton_self p, fun q working => ?_, ?_⟩
    · cases there : s.log.phase q with
      | active => exact absurd here (control.not_commit there)
      | commit stage => exact mem_singleton.mpr (control.single there here)
      | _ => simp [there, works] at working
    · rw [card_singleton]
      omega
  | _ => simp [here, works] at working

end

theorem of_run {zero : α} (run : Run (Step procs) (boot zero disk) trace s) :
    Inv procs disk trace s := by
  refine run.invariant ⟨.refl, ⟨[], .initially procs zero disk⟩, fun p _ => ?_, nofun⟩
    fun inv taken => inv.step taken
  exact ⟨Nat.zero_le 2, .inl rfl⟩

end Inv

/-! ## The number of buffers -/

theorem buffersSuffice_of_le (small : k ≤ MAXOPBLOCKS - 2) : BuffersSuffice k := by
  intro α procs zero disk trace s run within p process working few n
  have inv := Inv.of_run run
  obtain ⟨workers, mine, all, room⟩ := inv.workers small within working
  obtain ⟨older, sound⟩ := inv.cache
  by_contra none
  have full : ∀ b < NBUF, (s.cache.buf b).refcnt ≠ 0 ∨ (s.cache.buf b).dirty = true := by
    apply sound.listed.unused_none
    rw [Bio.State.bget] at none
    split at none
    · exact absurd rfl none
    · simpa using none
  -- every buffer is dirty or used by one of the workers, and `p` uses at most one
  have covered : range NBUF ⊆
      ((range NBUF).filter fun b => (s.cache.buf b).dirty = true) ∪
        (workers.filter (· < procs)).biUnion s.uses := by
    intro b member
    have inside := mem_range.mp member
    rw [mem_union, mem_filter, mem_biUnion]
    obtain busy | dirty := full b inside
    · obtain ⟨q, small, uses⟩ := inv.user inside busy
      have works := (inv.frugal q small).2.resolve_left (ne_empty_of_mem uses)
      exact .inr ⟨q, mem_filter.mpr ⟨all q works, small⟩, uses⟩
    · exact .inl ⟨member, dirty⟩
  have present : p ∈ workers.filter (· < procs) := mem_filter.mpr ⟨mine, process⟩
  have others : ∑ q ∈ (workers.filter (· < procs)).erase p, (s.uses q).card ≤
      ((workers.filter (· < procs)).card - 1) * 2 :=
    (sum_le_sum fun q member =>
      (inv.frugal q (mem_filter.mp (mem_of_mem_erase member)).2).1).trans_eq
        (by rw [sum_const, card_erase_of_mem present]; rfl)
  have each := card_biUnion_le (s := workers.filter (· < procs)) (t := s.uses)
  rw [← add_sum_erase _ _ present] at each
  have most := (card_le_card covered).trans (card_union_le _ _)
  rw [card_range] at most
  have fewer := card_filter_le workers (· < procs)
  have some := card_pos.mpr ⟨p, present⟩
  have dirty := inv.card_dirty_le
  simp only [NBUF, LOGSIZE] at *
  omega

/-- Process `p` reads block `n`. -/
def reads (p n : ℕ) : List (Action Unit) :=
  [.cache (.bread p n), .cache (.lock p), .cache (.read p)]

/-- Process `p` reads and logs block `n`, which is in buffer `n`. -/
def logs (p n : ℕ) : List (Action Unit) :=
  reads p n ++ [.both (.logWrite p n) (.logWrite p n ()), .cache (.brelse p n), .cache (.release p)]

/-- Three operations log nine blocks each, and two of them read three further blocks. -/
def threeOperations : List (Action Unit) :=
  [.log (.beginOp 0), .log (.beginOp 1), .log (.beginOp 2)] ++
    (List.range 27).flatMap (fun n => logs (n / 9) n) ++ reads 0 27 ++ reads 0 28 ++ reads 1 29

/-- A block is logged by one of the first three processes. -/
def byFirstThree : Log.Event → Bool
  | .logged q _ => q < 3
  | _ => true

theorem not_buffersSuffice (large : MAXOPBLOCKS - 1 ≤ k) : ¬BuffersSuffice k := by
  have played : ((replay (act 3) (boot () fun _ => ()) threeOperations.reverse).any fun (trace, s) =>
      trace.reduceOption.tails.all (fun earlier => (List.range 3).all fun q =>
        Log.opSize q earlier ≤ MAXOPBLOCKS - 1) &&
      trace.reduceOption.all byFirstThree &&
      works (s.log.phase 2) && (s.uses 2).card ≤ 1 && (s.cache.bget ROOTDEV 30).isNone) = true := by
    decide +kernel
  have steps : ∀ a (s : System Unit) e t, act 3 a s = some (e, t) → Step 3 s e t :=
    fun a _ _ _ done => ⟨a, done⟩
  obtain ⟨trace, s, run, checked⟩ := Run.exists_of_replay steps played
  simp only [Bool.and_eq_true, List.all_eq_true, decide_eq_true_eq, List.mem_range] at checked
  obtain ⟨⟨⟨⟨small, who⟩, working⟩, few⟩, dry⟩ := checked
  have within := Log.opsWithin_of_tails 3 (fun q b member => of_decide_eq_true (who _ member)) small
  intro suffices_
  have found := suffices_ Unit 3 () _ trace s run (within.mono large) 2 (by decide) working few 30
  rw [← Option.not_isNone] at found
  simp [dry] at found

/-- **Which operations the buffer cache suffices for.** -/
theorem buffers_suffice_iff (k : ℕ) : BuffersSuffice k ↔ k ≤ MAXOPBLOCKS - 2 := by
  refine ⟨fun suffices_ => ?_, buffersSuffice_of_le⟩
  by_contra large
  exact not_buffersSuffice (by simp only [MAXOPBLOCKS] at large ⊢; omega) suffices_

/-- **The buffer cache runs dry** when operations use the reservations of `begin_op`. -/
theorem buffers_run_dry : ¬BuffersSuffice MAXOPBLOCKS := not_buffersSuffice (by decide)

end Xv6Uac.Capacity
