import Xv6Uac.Locks.Sleep
import Xv6Uac.Param

/-!
# The queue of the disk driver

`iderw`, `idestart` and `ideintr` of `ide.c`. What a process or the handler does while it holds
`idelock` is one step: `iderw` up to its `sleep`, one more round of its loop, and `ideintr`. The
device raises one interrupt for each command, and a panic ends the run. `kill` wakes up a process
in `sleep`.

Only the holder of the sleep lock of a buffer gets past the first test of `iderw`, and it keeps the
lock there. So `phase` says for each buffer where its holder is, and the buffer and its lock change
in other ways only while that is outside. The ports of the disk and the data are left out.
-/

namespace Xv6Uac.Ide

open Function Relation

/-! ## The driver -/

/-- The fields of `struct buf` that the driver looks at, with its two flags. -/
structure Buf where
  dev : ℕ
  blockno : ℕ
  valid : Bool
  dirty : Bool

/-- `(b->flags & (B_VALID|B_DIRTY)) == B_VALID` -/
def Buf.ready (b : Buf) : Bool := b.valid && !b.dirty

/-- Where the holder of the lock of a buffer is in `iderw`. -/
inductive Phase where
  | outside
  | asleep
  | awake
deriving DecidableEq

/-- The command in progress is for a buffer, and writes it if the flag is set. The last three fields
are the requests so far, the oldest first. -/
structure State where
  queue : List ℕ
  command : Option (ℕ × Bool)
  buf : ℕ → Buf
  lock : ℕ → Sync.State
  havedisk1 : Bool
  phase : ℕ → Phase
  queued : List ℕ
  started : List ℕ
  completed : List ℕ

namespace State

/-- `idestart`, or `none` for its panic. -/
def idestart (s : State) (b : ℕ) : Option State :=
  if FSSIZE ≤ (s.buf b).blockno then none
  else some { s with command := some (b, (s.buf b).dirty), started := s.started ++ [b] }

/-- The buffer is appended to the queue, and its process sleeps. -/
def append (s : State) (b : ℕ) : State :=
  { s with
    queue := s.queue ++ [b]
    queued := s.queued ++ [b]
    phase := update s.phase b .asleep }

/-- `iderw` of the process `p` up to its `sleep`, or `none` for a panic. -/
def iderw (s : State) (p b : ℕ) : Option State :=
  if !(s.lock b).holdingsleep p ∨ (s.buf b).ready ∨ (s.buf b).dev ≠ 0 ∧ !s.havedisk1 then none
  else if (s.append b).queue.head? = some b then (s.append b).idestart b
  else some (s.append b)

/-- The first request is done, and its process is woken up. -/
def complete (s : State) (b : ℕ) (rest : List ℕ) : State :=
  { s with
    queue := rest
    command := none
    completed := s.completed ++ [b]
    buf := update s.buf b { s.buf b with valid := true, dirty := false }
    phase := update s.phase b (if s.phase b = .asleep then .awake else s.phase b) }

/-- `ideintr`, or `none` for the panic of `idestart`. -/
def ideintr (s : State) : Option State :=
  match s.queue with
  | [] => some { s with command := none }
  | [b] => some (s.complete b [])
  | b :: c :: rest => (s.complete b (c :: rest)).idestart c

end State

inductive Step (s : State) : State → Prop where
  | iderw {p b : ℕ} {t : State} : s.phase b = .outside → s.iderw p b = some t → Step s t
  | ideintr {t : State} : s.command.isSome → s.ideintr = some t → Step s t
  | returned {b : ℕ} : s.phase b = .awake → (s.buf b).ready = true →
      Step s { s with phase := update s.phase b .outside }
  | sleep {b : ℕ} : s.phase b = .awake → (s.buf b).ready = false →
      Step s { s with phase := update s.phase b .asleep }
  | kill {b : ℕ} : s.phase b = .asleep → Step s { s with phase := update s.phase b .awake }
  | other {b : ℕ} (new : Buf) (lock : Sync.State) : s.phase b = .outside →
      Step s { s with buf := update s.buf b new, lock := update s.lock b lock }

/-! ## The order of the requests -/

/-- What holds when `idelock` is free. -/
structure Orderly (s : State) : Prop where
  active : s.command.map Prod.fst = s.queue.head?
  writes : ∀ b w, s.command = some (b, w) → w = (s.buf b).dirty
  once : s.queue.Nodup
  busy : ∀ b ∈ s.queue, s.phase b ≠ .outside
  ready : ∀ b, s.phase b ≠ .outside → ((s.buf b).ready = true ↔ b ∉ s.queue)
  asleep : ∀ b, s.phase b = .asleep → b ∈ s.queue
  completed : s.queued = s.completed ++ s.queue
  started : s.started = s.completed ++ s.queue.head?.toList

variable {s t : State} {b : ℕ} {command : Option (ℕ × Bool)} {started : List ℕ}

theorem mem_of_active {queue : List ℕ} {w : Bool} (active : command.map Prod.fst = queue.head?)
    (is : command = some (b, w)) : b ∈ queue := by
  apply List.mem_of_head?
  rw [← active, is, Option.map_some]

/-- A request is put behind the others, and the first one is started. -/
theorem Orderly.append (orderly : Orderly s) (outside : s.phase b = .outside)
    (unready : (s.buf b).ready = false) (active : command.map Prod.fst = (s.queue ++ [b]).head?)
    (writes : ∀ c w, command = some (c, w) → w = (s.buf c).dirty)
    (starts : started = s.completed ++ (s.queue ++ [b]).head?.toList) :
    Orderly { s.append b with command, started } := by
  obtain ⟨-, -, once, busy, ready, asleep, completed, -⟩ := orderly
  refine ⟨active, writes, ?_, ?_, ?_, ?_, ?_, starts⟩ <;> simp only [State.append, update_apply] <;>
    grind

theorem Orderly.iderw {p : ℕ} (orderly : Orderly s) (outside : s.phase b = .outside)
    (ran : s.iderw p b = some t) : Orderly t := by
  have fresh : b ∉ s.queue := fun member => orderly.busy b member outside
  have first : (s.append b).queue.head? = some b ↔ s.queue = [] := by
    cases queue : s.queue <;> grind [State.append]
  simp only [State.iderw, first] at ran
  obtain ⟨ok, ran⟩ := Option.ite_none_left_eq_some.mp ran
  have unready : (s.buf b).ready = false := by grind
  split at ran
  · rename_i empty
    obtain ⟨-, ran⟩ := Option.ite_none_left_eq_some.mp ran
    cases ran
    apply orderly.append outside unready <;> grind [State.append, orderly.started]
  · rename_i more
    have head : (s.queue ++ [b]).head? = s.queue.head? := List.head?_append_of_ne_nil _ more
    cases ran
    exact orderly.append outside unready (by rw [head, orderly.active]) orderly.writes
      (by rw [head, orderly.started])

/-- The first request is done, and the next one is started. -/
theorem Orderly.complete {rest : List ℕ} (orderly : Orderly s) (queue : s.queue = b :: rest)
    (active : command.map Prod.fst = rest.head?)
    (writes : ∀ c w, command = some (c, w) → c ≠ b → w = (s.buf c).dirty)
    (starts : started = s.started ++ rest.head?.toList) :
    Orderly { s.complete b rest with command, started } := by
  have next := fun c w => mem_of_active (b := c) (w := w) active
  obtain ⟨-, -, once, busy, ready, asleep, completed, begun⟩ := orderly
  rw [queue] at once busy ready asleep completed begun
  constructor <;> simp only [State.complete, update_apply] <;> grind [Buf.ready]

theorem Orderly.ideintr (orderly : Orderly s) (running : s.command.isSome)
    (ran : s.ideintr = some t) : Orderly t := by
  rw [State.ideintr] at ran
  split at ran
  · have active := orderly.active
    simp_all
  · cases ran
    apply orderly.complete <;> grind [State.complete]
  · obtain ⟨-, ran⟩ := Option.ite_none_left_eq_some.mp ran
    cases ran
    refine orderly.complete ‹_› rfl (fun c w is other => ?_) rfl
    cases is
    simp [State.complete, update_of_ne other]

theorem Orderly.step (orderly : Orderly s) (step : Step s t) : Orderly t := by
  cases step with
  | iderw outside ran => exact orderly.iderw outside ran
  | ideintr running ran => exact orderly.ideintr running ran
  | returned | sleep | kill | other =>
    have first := fun c w => mem_of_active (b := c) (w := w) orderly.active
    obtain ⟨active, writes, once, busy, ready, asleep, completed, started⟩ := orderly
    constructor <;> simp only [update_apply] <;> grind

/-- No request, and no process in `iderw`. -/
def idle (buf : ℕ → Buf) (lock : ℕ → Sync.State) (havedisk1 : Bool) : State :=
  ⟨[], none, buf, lock, havedisk1, fun _ => .outside, [], [], []⟩

/-- **Disk requests complete once and in order.** In every run of `iderw` and `ideintr` from an idle
disk the command in progress is for the head of the queue. The requests so far are those that are
completed and then those of the queue, and only the first of these is started. While a process is in
`iderw`, the condition of its loop says whether the request of its buffer is completed, and the
process does not sleep when it is. -/
theorem disk_requests_in_order {buf : ℕ → Buf} {lock : ℕ → Sync.State} {havedisk1 : Bool}
    (run : ReflTransGen Step (idle buf lock havedisk1) s) : Orderly s := by
  induction run with
  | refl => constructor <;> simp [idle]
  | tail _ step ih => exact ih.step step

theorem disk_requests_of_read : ∃ s : State, s.phase 2 = .asleep ∧ s.command = some (2, false) ∧
    s.queued = s.completed ++ s.queue :=
  have run : ReflTransGen Step (idle (fun _ => ⟨1, 0, false, false⟩)
      (fun _ => Sync.initsleeplock.acquiresleep 1) true) _ :=
    .single (.iderw (p := 1) (b := 2) rfl rfl)
  ⟨_, rfl, rfl, (disk_requests_in_order run).completed⟩

end Xv6Uac.Ide
