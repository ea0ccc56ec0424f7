import Mathlib.Data.List.Chain

/-!
# Interrupts and sleep locks

`pushcli` and `popcli` of `spinlock.c` on one CPU, and `sleeplock.c`. There a step is what a
process does while it holds `lk->lk`: a test of the loop of `acquiresleep` with what follows, or
`releasesleep`, which only the holder calls. `kill` wakes up a process in `sleep`.
-/

namespace Xv6Uac.Sync

open Function Relation

/-- The fields of `struct cpu`, and the flag `FL_IF`. -/
structure Cpu where
  flag : Bool
  ncli : ℕ
  intena : Bool

def Cpu.pushcli (c : Cpu) : Cpu := ⟨false, c.ncli + 1, if c.ncli = 0 then c.flag else c.intena⟩

/-- `popcli`, or `none` for a panic. -/
def Cpu.popcli : Cpu → Option Cpu
  | ⟨false, n + 1, intena⟩ => some ⟨n == 0 && intena, n, intena⟩
  | _ => none

def Cpu.Step (c d : Cpu) : Prop := d = c.pushcli ∨ c.popcli = some d

/-- Where a process is with the lock. -/
inductive Phase where
  | outside | asleep | awake | holding
deriving DecidableEq

/-- The lock, and the processes by their `pid`. -/
structure State where
  locked : Bool
  pid : ℕ
  phase : ℕ → Phase

def initsleeplock : State := ⟨false, 0, fun _ => .outside⟩

/-- A test of the loop of `acquiresleep`: the process sleeps, or it gets the lock. -/
def State.acquiresleep (s : State) (p : ℕ) : State :=
  if s.locked then { s with phase := update s.phase p .asleep }
  else ⟨true, p, update s.phase p .holding⟩

def State.releasesleep (s : State) (p : ℕ) : State where
  locked := false
  pid := 0
  phase q := if q = p then .outside else if s.phase q = .asleep then .awake else s.phase q

def State.holdingsleep (s : State) (p : ℕ) : Bool := s.locked && s.pid == p

inductive Step (s : State) : State → Prop where
  | acquiresleep {p : ℕ} : s.phase p = .outside ∨ s.phase p = .awake → Step s (s.acquiresleep p)
  | releasesleep {p : ℕ} : s.phase p = .holding → Step s (s.releasesleep p)
  | kill {p : ℕ} : s.phase p = .asleep → Step s { s with phase := update s.phase p .awake }

/-- What holds when `lk->lk` is free. -/
structure Sound (s : State) : Prop where
  holder : ∀ p, s.phase p = .holding ↔ s.holdingsleep p = true
  waits : ∀ p, s.phase p = .asleep → s.locked = true

variable {s t : State}

theorem Sound.step (sound : Sound s) (step : Step s t) : Sound t := by
  obtain ⟨holder, waits⟩ := sound
  simp only [State.holdingsleep, Bool.and_eq_true, beq_iff_eq] at holder
  cases step with
  | acquiresleep =>
    rw [State.acquiresleep]
    split <;> constructor <;> simp only [State.holdingsleep, update_apply] <;> grind
  | releasesleep | kill =>
    constructor <;> simp only [State.releasesleep, State.holdingsleep, update_apply] <;> grind

/-- **A sleep lock has one holder.** In every run from a free lock a process is between
`acquiresleep` and `releasesleep` just when `holdingsleep` says so, two processes never are, and
none sleeps while the lock is free. -/
theorem sleeplock_excludes (run : ReflTransGen Step initsleeplock s) :
    Sound s ∧ ∀ p q, s.phase p = .holding → s.phase q = .holding → p = q := by
  have sound : Sound s := by
    induction run with
    | refl => constructor <;> simp [State.holdingsleep, initsleeplock]
    | tail _ step ih => exact ih.step step
  refine ⟨sound, fun p q => ?_⟩
  rw [sound.holder, sound.holder]
  grind [State.holdingsleep]

theorem sleeplock_excludes_of_two : ∃ s : State, s.phase 2 = .asleep ∧ s.locked = true :=
  have run : ReflTransGen Step initsleeplock _ :=
    .tail (.single (.acquiresleep (p := 1) (.inl rfl))) (.acquiresleep (p := 2) (.inl rfl))
  ⟨_, rfl, (sleeplock_excludes run).1.waits 2 rfl⟩

end Xv6Uac.Sync
