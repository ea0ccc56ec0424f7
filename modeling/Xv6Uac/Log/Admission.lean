import Xv6Uac.Log.GroupCommitHistory
import Mathlib.Algebra.Order.BigOperators.Group.Finset

/-!
# Admission control of the log

`begin_op` admits an operation when the blocks already logged, and
`MAXOPBLOCKS` for each operation admitted, fit in `LOGSIZE` blocks. `log_write`
panics as soon as `log.size - 1` blocks are logged, and `mkfs` sets `log.size`
to `LOGSIZE`: the header takes one of the blocks that `begin_op` gives out.

`log_write` panics exactly when `LOGSIZE - 1` distinct blocks have been logged
since the last commit (`logWrite_panic_iff`). Three operations that use their
whole reservation reach that point. Operations of at most `MAXOPBLOCKS - 1`
distinct blocks do not, because the blocks logged and the unused part of the
smaller reservations never exceed `LOGSIZE - 2` (`Reserved`).
-/

namespace Xv6Uac.Log

open TraceRun List

/-! ## Blocks logged by an operation and by a transaction -/

/-- The blocks that the current operation of `p` has logged. -/
def opBlocks (p : ℕ) : List Event → List ℕ
  | [] => []
  | .began q :: trace => if q = p then [] else opBlocks p trace
  | .logged q b :: trace => if q = p then b :: opBlocks p trace else opBlocks p trace
  | _ :: trace => opBlocks p trace

/-- The distinct blocks that the current operation of `p` has logged. -/
def opSize (p : ℕ) (trace : List Event) : ℕ := (opBlocks p trace).toFinset.card

/-- No operation ever logs more than `k` distinct blocks. -/
def OpsWithin (k : ℕ) (trace : List Event) : Prop :=
  ∀ earlier, earlier <:+ trace → ∀ p, opSize p earlier ≤ k

/-- The blocks logged since the last commit. -/
def txnBlocks (trace : List Event) : List ℕ :=
  (sinceCommit trace).filterMap fun event =>
    match event with
    | .logged _ b => some b
    | _ => none

variable {trace : List Event} {k : ℕ} {event : Event} {p : ℕ} {s : LogState} {size : ℕ}

theorem mem_txnBlocks {b : ℕ} : b ∈ txnBlocks trace ↔ ∃ q, .logged q b ∈ sinceCommit trace := by
  rw [txnBlocks, mem_filterMap]
  constructor
  · rintro ⟨event, member, same⟩
    cases event with
    | logged q b' =>
      cases same
      exact ⟨q, member⟩
    | _ => cases same
  · rintro ⟨q, member⟩
    exact ⟨_, member, rfl⟩

theorem OpsWithin.tail (within : OpsWithin k (event :: trace)) : OpsWithin k trace :=
  fun earlier suffix => within earlier (suffix.trans (suffix_cons event trace))

theorem OpsWithin.mono {k' : ℕ} (within : OpsWithin k trace) (le : k ≤ k') : OpsWithin k' trace :=
  fun earlier suffix p => (within earlier suffix p).trans le

theorem opBlocks_began (p : ℕ) (trace : List Event) : opBlocks p (.began p :: trace) = [] :=
  if_pos rfl

theorem opBlocks_logged (p b : ℕ) (trace : List Event) :
    opBlocks p (.logged p b :: trace) = b :: opBlocks p trace :=
  if_pos rfl

/-- An event that is neither the begin of an operation of `p` nor a block it
logs. -/
theorem opBlocks_other (began : event ≠ .began p) (logged : ∀ b, event ≠ .logged p b)
    (trace : List Event) : opBlocks p (event :: trace) = opBlocks p trace := by
  cases event with
  | began q =>
    have other : q ≠ p := fun same => began (congrArg Event.began same)
    exact if_neg other
  | logged q b =>
    have other : q ≠ p := fun same => logged b (congrArg (Event.logged · b) same)
    exact if_neg other
  | _ => rfl

/-! ## The header holds the blocks of the transaction -/

/-- The header lists distinct blocks, all of them logged since the last
commit. -/
structure HeaderExact (trace : List Event) (s : LogState) : Prop where
  distinct : s.lh.Nodup
  logged : ∀ b ∈ s.lh, b ∈ txnBlocks trace

theorem HeaderExact.other {s' : LogState} (exact_ : HeaderExact trace s)
    (committed : ∀ p, event ≠ .committed p) (same : s'.lh = s.lh) :
    HeaderExact (event :: trace) s' where
  distinct := same ▸ exact_.distinct
  logged b member := by
    rw [same] at member
    obtain ⟨q, earlier⟩ := mem_txnBlocks.mp (exact_.logged b member)
    rw [mem_txnBlocks, sinceCommit_cons committed]
    exact ⟨q, mem_cons_of_mem _ earlier⟩

theorem HeaderExact.step {s' : LogState} (inv : ProtocolInv trace s) (exact_ : HeaderExact trace s)
    (taken : Step size s event s') : HeaderExact (event :: trace) s' := by
  cases taken with
  | logged p b inside =>
    split
    · exact exact_.other (by simp) rfl
    · next fresh =>
        refine ⟨?_, fun b' member => ?_⟩
        · rw [nodup_append]
          refine ⟨exact_.distinct, nodup_singleton b, ?_⟩
          intro b' member new isNew same
          rw [mem_singleton] at isNew
          exact fresh (isNew ▸ same ▸ member)
        · rw [mem_txnBlocks]
          rcases List.mem_append.mp member with old | new
          · obtain ⟨q, earlier⟩ := mem_txnBlocks.mp (exact_.logged b' old)
            exact ⟨q, mem_cons_of_mem _ earlier⟩
          · rw [mem_singleton] at new
            subst new
            exact ⟨p, mem_cons_self⟩
  | cleared p here => exact ⟨nodup_nil, fun b member => by cases member⟩
  | committed p here =>
    have erased : s.lh = [] := (inv.coverage.progress p _ here).2
    refine ⟨?_, fun b member => ?_⟩
    · simp [erased]
    · simp [erased] at member
  | began p | slept p | woken p | endedLast p | ended p | begunCommit p | nothingToCommit p
  | copied p | copiedAll p | wroteHead p | installed p | installedAll p | erasedHead p =>
    exact exact_.other (by simp) rfl

theorem headerExact (run : ProtocolRun size trace s) : HeaderExact trace s := by
  refine run.invariant_of_inv HeaderExact ?_ fun inv before taken => before.step inv taken
  exact ⟨nodup_nil, fun b member => (by cases member)⟩

/-- While an operation is running, the header counts the distinct blocks logged
since the last commit. -/
theorem length_lh (run : ProtocolRun size trace s) (inside : s.phase p = .active) :
    s.lh.length = (txnBlocks trace).toFinset.card := by
  have inv := protocolInv run
  have header := headerExact run
  have free := inv.control.free_of_active inside
  have same : s.lh.toFinset = (txnBlocks trace).toFinset := by
    ext b
    rw [mem_toFinset, mem_toFinset]
    constructor
    · exact header.logged b
    · intro member
      obtain ⟨q, logged⟩ := mem_txnBlocks.mp member
      exact inv.coverage.mem_of_free inv.control free logged
  rw [← same, toFinset_card_of_nodup header.distinct]

/-- **When `log_write` panics.** In every run, a process inside an operation
panics with `too big a transaction` exactly when `LOGSIZE - 1` distinct blocks
have been logged since the last commit. -/
theorem logWrite_panic_iff (run : ProtocolRun LOGSIZE trace s) (inside : s.phase p = .active)
    (b : ℕ) :
    step LOGSIZE s (.logWrite p b) = .panic .tooBigTransaction ↔
      LOGSIZE - 1 ≤ (txnBlocks trace).toFinset.card := by
  rw [← length_lh run inside, step, if_pos inside, logWrite]
  by_cases full : LOGSIZE ≤ s.lh.length ∨ ((LOGSIZE : ℕ) : ℤ) - 1 ≤ s.lh.length
  · rw [if_pos full]
    simp only [true_iff]
    omega
  · rw [if_neg full]
    refine ⟨fun panic => ?_, fun enough => absurd enough (by omega)⟩
    split at panic
    · cases panic
    · cases panic

/-! ## Smaller reservations -/

/-- The blocks logged and the unused part of reservations of `MAXOPBLOCKS - 1`
blocks fit in `LOGSIZE - 2` blocks. -/
structure Reserved (trace : List Event) (s : LogState) : Prop where
  listed : ∀ p, s.phase p = .active → ∀ b ∈ opBlocks p trace, b ∈ s.lh
  room : ∀ inside : Finset ℕ, (∀ p, p ∈ inside ↔ s.phase p = .active) →
    s.lh.length + ∑ p ∈ inside, (MAXOPBLOCKS - 1 - opSize p trace) ≤ LOGSIZE - 2

/-- The same for reservations of `k` blocks: what `begin_op` reserves beyond them is left,
once for each operation and at least twice. -/
structure Headroom (k : ℕ) (trace : List Event) (s : LogState) : Prop where
  listed : ∀ p, s.phase p = .active → ∀ b ∈ opBlocks p trace, b ∈ s.lh
  room : ∀ inside : Finset ℕ, (∀ p, p ∈ inside ↔ s.phase p = .active) →
    s.lh.length + ∑ p ∈ inside, (k - opSize p trace) + (MAXOPBLOCKS - k) * max 2 inside.card ≤
      LOGSIZE

namespace Headroom

variable {trace : List Event} {s s' : LogState}

/-- A step that logs no block and begins no operation, and after which no
further process is active. -/
theorem other (headroom : Headroom k trace s) (control : Control s) {event : Event}
    (began : ∀ p, event ≠ .began p) (logged : ∀ p b, event ≠ .logged p b) (same : s'.lh = s.lh)
    (fewer : ∀ p, s'.phase p = .active → s.phase p = .active) :
    Headroom k (event :: trace) s' where
  listed p inside b member := by
    rw [opBlocks_other (began p) (logged p)] at member
    rw [same]
    exact headroom.listed p (fewer p inside) b member
  room inside member := by
    obtain ⟨active, activeMember, _⟩ := control.active
    have subset : inside ⊆ active := fun p here =>
      (activeMember p).mpr (fewer p ((member p).mp here))
    have smaller := Finset.sum_le_sum_of_subset
      (f := fun p => k - opSize p (event :: trace)) subset
    have equal : ∀ p, opSize p (event :: trace) = opSize p trace := fun p => by
      rw [opSize, opBlocks_other (began p) (logged p), opSize]
    simp only [equal] at smaller ⊢
    have left := Nat.mul_le_mul_left (MAXOPBLOCKS - k)
      (max_le_max (le_refl 2) (Finset.card_le_card subset))
    have before := headroom.room active activeMember
    rw [same]
    omega

theorem began (headroom : Headroom k trace s) (control : Control s) {p : ℕ} (small : k ≤ MAXOPBLOCKS)
    (caller : s.phase p = .idle ∨ s.phase p = .awake) (free : s.committing = false)
    (room : s.demand ≤ LOGSIZE) :
    Headroom k (.began p :: trace) ({ s with outstanding := s.outstanding + 1 }.goto p .active) where
  listed q inside b member := by
    by_cases same : q = p
    · subst same
      rw [opBlocks_began] at member
      cases member
    · rw [opBlocks_other (by simpa using Ne.symm same) (by simp)] at member
      rw [goto_phase, if_neg same] at inside
      exact headroom.listed q inside b member
  room inside member := by
    obtain ⟨active, activeMember, count⟩ := control.active
    have outside : p ∉ active := by
      rw [activeMember]
      rcases caller with idle | awake
      · simp [idle]
      · simp [awake]
    have split : inside = insert p active := by
      ext q
      rw [member, Finset.mem_insert, activeMember]
      by_cases same : q = p <;> simp [same]
    have others : ∑ q ∈ active, (k - opSize q (.began p :: trace)) ≤ active.card * k :=
      (Finset.sum_le_sum fun q _ => Nat.sub_le _ _).trans_eq (by simp)
    -- the first operation of a transaction finds the log empty
    have empty : active.card = 0 → s.lh = [] := fun none =>
      control.drained free (by rw [count, none]; rfl)
    rw [← not_lt, lt_demand_iff] at room
    rw [split, Finset.sum_insert outside, Finset.card_insert_of_notMem outside, goto_lh]
    simp only [LOGSIZE, MAXOPBLOCKS] at small ⊢
    generalize active.card = n at *
    obtain rfl | rfl | rfl : n = 0 ∨ n = 1 ∨ n = 2 := by omega
    · simp only [empty rfl, length_nil, Nat.reduceLeDiff, max_eq_left]
      omega
    · simp only [max_self]
      omega
    · simp only [Nat.reduceLeDiff, max_eq_right]
      omega

theorem logged (headroom : Headroom k trace s) {p b : ℕ} (inside : s.phase p = .active)
    (within : opSize p (.logged p b :: trace) ≤ k) :
    Headroom k (.logged p b :: trace) (if b ∈ s.lh then s else { s with lh := s.lh ++ [b] }) where
  listed q active b' member := by
    have active : s.phase q = .active := by
      split at active <;> exact active
    have kept : ∀ b'' ∈ s.lh, b'' ∈ (if b ∈ s.lh then s else { s with lh := s.lh ++ [b] }).lh := by
      intro b'' old
      split
      · exact old
      · exact mem_append_left _ old
    by_cases same : q = p
    · subst same
      rw [opBlocks_logged] at member
      rcases List.mem_cons.mp member with now | earlier
      · subst now
        split
        · assumption
        · simp
      · exact kept b' (headroom.listed q active b' earlier)
    · rw [opBlocks_other (by simp) (by simpa using fun h => absurd h.symm same)] at member
      exact kept b' (headroom.listed q active b' member)
  room active member := by
    have member : ∀ q, q ∈ active ↔ s.phase q = .active := by
      intro q
      rw [member q]
      split <;> rfl
    have present : p ∈ active := (member p).mpr inside
    have before := headroom.room active member
    have others : ∑ q ∈ active.erase p, (k - opSize q (.logged p b :: trace)) =
        ∑ q ∈ active.erase p, (k - opSize q trace) := by
      refine Finset.sum_congr rfl fun q here => ?_
      have other : q ≠ p := Finset.ne_of_mem_erase here
      rw [opSize, opBlocks_other (by simp) (by simpa using fun h => absurd h.symm other), opSize]
    rw [← Finset.add_sum_erase _ _ present] at before ⊢
    have grows : opSize p trace ≤ opSize p (.logged p b :: trace) := by
      rw [opSize, opSize, opBlocks_logged, toFinset_cons]
      exact Finset.card_le_card (Finset.subset_insert _ _)
    split
    · omega
    · next fresh =>
        have new : opSize p (.logged p b :: trace) = opSize p trace + 1 := by
          rw [opSize, opBlocks_logged, toFinset_cons, Finset.card_insert_of_notMem, opSize]
          rw [mem_toFinset]
          exact fun old => fresh (headroom.listed p inside b old)
        simp only [length_append, length_singleton]
        omega

/-- Without operations and blocks. -/
theorem cleared (none : ∀ q, s.phase q ≠ .active) (empty : s.lh = []) : Headroom k trace s where
  listed q inside := absurd inside (none q)
  room inside member := by
    have noOne : inside = ∅ := Finset.eq_empty_of_forall_notMem fun q here =>
      none q ((member q).mp here)
    rw [noOne, empty]
    simp only [length_nil, Finset.sum_empty, Finset.card_empty, Nat.zero_le, max_eq_left,
      LOGSIZE]
    omega

theorem step {size : ℕ} {event : Event} (inv : ProtocolInv trace s) (headroom : Headroom k trace s)
    (small : k ≤ MAXOPBLOCKS) (taken : Step size s event s') (within : OpsWithin k (event :: trace)) :
    Headroom k (event :: trace) s' := by
  have control := inv.control
  cases taken with
  | began p caller free room => exact headroom.began control small caller free room
  | logged p b inside => exact headroom.logged inside (within _ suffix_rfl p)
  | cleared p here =>
    refine Headroom.cleared (fun q => ?_) rfl
    rw [goto_phase]
    split
    · simp
    · exact control.not_active_of_committing (control.flagged here) q
  | ended p | committed p =>
    refine headroom.other control (by simp) (by simp) rfl fun q active => ?_
    rw [Control.active_wakeup_goto, goto_phase] at active
    split at active
    · cases active
    · exact active
  | slept p | woken p | endedLast p | begunCommit p | nothingToCommit p
  | copied p | copiedAll p | wroteHead p | installed p | installedAll p | erasedHead p =>
    refine headroom.other control (by simp) (by simp) rfl fun q active => ?_
    rw [goto_phase] at active
    split at active
    · cases active
    · exact active

theorem of_opsWithin (run : ProtocolRun size trace s) (small : k ≤ MAXOPBLOCKS)
    (within : OpsWithin k trace) : Headroom k trace s :=
  run.invariant_of_inv (fun trace s => OpsWithin k trace → Headroom k trace s)
    (fun _ => .cleared nofun rfl)
    (fun inv before taken within => (before within.tail).step inv small taken within) within

end Headroom

theorem reserved_of_opsWithin (run : ProtocolRun size trace s)
    (within : OpsWithin (MAXOPBLOCKS - 1) trace) : Reserved trace s := by
  obtain ⟨listed, room⟩ := Headroom.of_opsWithin run (Nat.sub_le _ _) within
  refine ⟨listed, fun inside member => ?_⟩
  have room := room inside member
  simp only [MAXOPBLOCKS] at room ⊢
  omega

/-! ## Which operations the admission control is sufficient for -/

/-- Admission control is sufficient for operations of at most `k` distinct
blocks: in every run of such operations, `log_write` does not reach the panic
`too big a transaction`. -/
def AdmissionSuffices (k : ℕ) : Prop :=
  ∀ trace s, ProtocolRun LOGSIZE trace s → ∀ p b, s.phase p = .active →
    OpsWithin k (.logged p b :: trace) →
    step LOGSIZE s (.logWrite p b) ≠ .panic .tooBigTransaction

theorem admissionSuffices_of_lt (small : k < MAXOPBLOCKS) : AdmissionSuffices k := by
  intro trace s run p b inside within panic
  have reserved := reserved_of_opsWithin run (within.tail.mono (by omega))
  obtain ⟨active, member, _⟩ := (protocolInv run).control.active
  have room := reserved.room active member
  rw [logWrite_panic_iff run inside, ← length_lh run inside] at panic
  simp only [LOGSIZE] at panic room
  omega

/-- Three operations begin and log ten, ten and nine distinct blocks. -/
def threeFullOperations : List Call :=
  (List.range 29).reverse.map (fun i => .logWrite (i / 10) i) ++
    [.beginOp 2, .beginOp 1, .beginOp 0]

/-- The events of these calls. -/
def threeFullEvents : List Event :=
  (List.range 29).reverse.map (fun i => .logged (i / 10) i) ++ [.began 2, .began 1, .began 0]

theorem opBlocks_eq_nil (none : ∀ b, .logged p b ∉ trace) : opBlocks p trace = [] := by
  induction trace with
  | nil => rfl
  | cons event trace ih =>
    have later := ih fun b member => none b (mem_cons_of_mem _ member)
    by_cases begins : event = .began p
    · rw [begins, opBlocks_began]
    · rw [opBlocks_other begins fun b same => none b (same ▸ mem_cons_self), later]

theorem opsWithin_of_tails (procs : ℕ) (who : ∀ q b, .logged q b ∈ trace → q < procs)
    (small : ∀ earlier ∈ trace.tails, ∀ q < procs, opSize q earlier ≤ k) : OpsWithin k trace := by
  intro earlier suffix q
  by_cases known : q < procs
  · exact small earlier ((mem_tails _ _).mpr suffix) q known
  · rw [opSize, opBlocks_eq_nil fun b member => known (who q b (suffix.subset member))]
    exact Nat.zero_le k

theorem opsWithin_threeFullOperations :
    OpsWithin MAXOPBLOCKS (.logged 2 29 :: threeFullEvents) := by
  refine opsWithin_of_tails 3 (fun q b member => ?_) (by decide)
  simp only [threeFullEvents, mem_cons, mem_append, mem_map] at member
  rcases member with now | ⟨i, inRange, same⟩ | began
  · cases now
    omega
  · rw [mem_reverse, mem_range] at inRange
    cases same
    omega
  · simp at began

/-- The third of these operations panics when it logs its tenth block. -/
theorem exists_run_threeFullOperations :
    ∃ s, ProtocolRun LOGSIZE threeFullEvents s ∧ s.phase 2 = .active ∧
      step LOGSIZE s (.logWrite 2 29) = .panic .tooBigTransaction :=
  ⟨_, runCalls_run LOGSIZE threeFullOperations rfl, rfl, rfl⟩

/-- **Admission control is not sufficient.** Three operations of ten distinct
blocks each are admitted together, and the last block panics. -/
theorem not_admissionSuffices_maxopblocks : ¬ AdmissionSuffices MAXOPBLOCKS := by
  intro suffices_
  obtain ⟨s, run, inside, panic⟩ := exists_run_threeFullOperations
  exact suffices_ _ s run 2 29 inside opsWithin_threeFullOperations panic

/-- **Which operations the admission control is sufficient for.** It is
sufficient for operations of at most `k` distinct blocks exactly when
`k < MAXOPBLOCKS`. In a single run, the panic is reached exactly when
`LOGSIZE - 1` distinct blocks have been logged since the last commit. -/
theorem admission_control (k : ℕ) :
    (AdmissionSuffices k ↔ k < MAXOPBLOCKS) ∧
      ∀ trace s, ProtocolRun LOGSIZE trace s → ∀ p b, s.phase p = .active →
        (step LOGSIZE s (.logWrite p b) = .panic .tooBigTransaction ↔
          LOGSIZE - 1 ≤ (txnBlocks trace).toFinset.card) := by
  refine ⟨⟨fun suffices_ => ?_, admissionSuffices_of_lt⟩,
    fun trace s run p b inside => logWrite_panic_iff run inside b⟩
  by_contra large
  obtain ⟨s, run, inside, panic⟩ := exists_run_threeFullOperations
  exact suffices_ _ s run 2 29 inside (opsWithin_threeFullOperations.mono (not_lt.mp large)) panic

end Xv6Uac.Log
