import Xv6Uac.Lib.Ring
import Xv6Uac.Lib.TraceRun
import Mathlib.Data.List.Induction

/-!
# The line discipline of the console

`consoleintr` edits a line in the ring `input`: the indices `r`, `w` and `e` run freely and wrap.
`consoleread` takes bytes out between `r` and `w`. Both hold `cons.lock`, except that a reader gives
it up to sleep when it finds `r = w`, so the steps here are one key code, and what a reader does
from the start or from a wakeup to its end or to its next sleep.

The reference is an editor with two lists, the bytes that are committed and the line that is
edited (`Editor`). The console shows such an editor (`Shows`), and so every run of the console is a
run of the editor in which all reads get the same bytes (`console_is_line_editor`).

The echo on the screen is left out.
-/

namespace Xv6Uac.Console

open TraceRun List

abbrev INPUT_BUF : ℕ := 128

/-- `C(x)`. -/
abbrev ctrl (x : Char) : UInt8 := UInt8.ofNat (x.toNat - '@'.toNat)

abbrev newline : UInt8 := 10

abbrev carriageReturn : UInt8 := 13

abbrev delete : UInt8 := 0x7f

/-! ## Readers -/

/-- The variables of a `consoleread`: the bytes it has copied, and how many it still wants. -/
structure Reader where
  target : ℕ
  n : ℕ
  dst : List UInt8
deriving DecidableEq

/-- How a reader leaves `cons.lock`: it returns a number of bytes, it returns -1, or it sleeps. -/
inductive Progress where
  | returned (count : ℕ) (dst : List UInt8)
  | killed
  | sleeping (rd : Reader)
deriving DecidableEq

/-- A console: what it stores, the readers that sleep and the processes that are killed. -/
structure Desk (σ : Type) where
  store : σ
  reader : ℕ → Option Reader
  killed : ℕ → Bool

/-- How a console deals with a key code, and how it serves a reader. -/
structure Discipline (σ : Type) where
  key : σ → UInt8 → σ
  serve : Bool → Reader → σ → σ × Progress

/-- What happens: a key code arrives, a process calls `consoleread` or wakes up in it, a process is
killed. -/
inductive Event where
  | key (c : UInt8)
  | read (p n : ℕ) (progress : Progress)
  | wake (p : ℕ) (progress : Progress)
  | kill (p : ℕ)
deriving DecidableEq

/-- The reader that sleeps after a step. -/
def Progress.reader : Progress → Option Reader
  | .sleeping rd => some rd
  | _ => none

section Steps

variable {σ : Type} (d : Discipline σ)

/-- A reader has the lock. -/
def Desk.serve (s : Desk σ) (p : ℕ) (rd : Reader) : Desk σ × Progress :=
  let (store, progress) := d.serve (s.killed p) rd s.store
  ({ s with store := store, reader := Function.update s.reader p progress.reader }, progress)

def Desk.step (s : Desk σ) : Event → Desk σ → Prop
  | .key c, t => t = { s with store := d.key s.store c }
  | .read p n progress, t => s.reader p = none ∧ s.serve d p ⟨n, n, []⟩ = (t, progress)
  | .wake p progress, t => ∃ rd, s.reader p = some rd ∧ s.serve d p rd = (t, progress)
  | .kill p, t => t = { s with killed := Function.update s.killed p true }

end Steps

/-! ## The source -/

/-- `input`. -/
structure Input where
  buf : ℕ → UInt8
  r : BitVec 32
  w : BitVec 32
  e : BitVec 32

namespace Input

/-- The loop of `consoleintr` that kills a line. -/
def killLine : ℕ → Input → Input
  | 0, i => i
  | k + 1, i =>
    if i.e ≠ i.w ∧ i.buf ((i.e - 1).toNat % INPUT_BUF) ≠ newline then
      killLine k { i with e := i.e - 1 }
    else
      i

/-- One round of the loop of `consoleintr`. -/
def consoleintr (i : Input) (c : UInt8) : Input :=
  if c = ctrl 'P' then
    i
  else if c = ctrl 'U' then
    -- a round takes `e` one step back towards `w`
    i.killLine (i.e - i.w).toNat
  else if c = ctrl 'H' ∨ c = delete then
    if i.e ≠ i.w then { i with e := i.e - 1 } else i
  else if c ≠ 0 ∧ (i.e - i.r).toNat < INPUT_BUF then
    let c := if c = carriageReturn then newline else c
    let i := { i with buf := Function.update i.buf (i.e.toNat % INPUT_BUF) c, e := i.e + 1 }
    if c = newline ∨ c = ctrl 'D' ∨ i.e = i.r + BitVec.ofNat 32 INPUT_BUF then
      { i with w := i.e }
    else
      i
  else
    i

/-- The loop of `consoleread`, with `n` bytes still to copy. -/
def consolereadLoop (killed : Bool) (target : ℕ) :
    ℕ → List UInt8 → Input → Input × Progress
  | 0, dst, i => (i, .returned target dst)
  | n + 1, dst, i =>
    if i.r = i.w then
      (i, if killed then .killed else .sleeping ⟨target, n + 1, dst⟩)
    else
      let c := i.buf (i.r.toNat % INPUT_BUF)
      let i := { i with r := i.r + 1 }
      if c = ctrl 'D' then
        -- the byte is saved for the next read if this one has got bytes
        (if n + 1 < target then { i with r := i.r - 1 } else i, .returned (target - (n + 1)) dst)
      else if c = newline then
        (i, .returned (target - n) (dst ++ [c]))
      else
        consolereadLoop killed target n (dst ++ [c]) i

end Input

/-- The discipline of `console.c`. -/
def console : Discipline Input where
  key := Input.consoleintr
  serve killed rd i := i.consolereadLoop killed rd.target rd.n rd.dst

/-! ## The reference -/

/-- The bytes that are committed and the line that is edited. -/
structure Editor where
  committed : List UInt8
  tail : List UInt8
deriving DecidableEq

namespace Editor

/-- The number of bytes in the buffer. -/
def size (a : Editor) : ℕ := a.committed.length + a.tail.length

def commit (a : Editor) : Editor := ⟨a.committed ++ a.tail, []⟩

def insert (a : Editor) (c : UInt8) : Editor := { a with tail := a.tail ++ [c] }

/-- A key code. Keys for editing change the tail only. A byte that does not fit is dropped. A
newline, a `^D` or the last byte that fits commits the tail. -/
def key (a : Editor) (c : UInt8) : Editor :=
  if c = ctrl 'P' ∨ c = 0 then a
  else if c = ctrl 'U' then { a with tail := [] }
  else if c = ctrl 'H' ∨ c = delete then { a with tail := a.tail.dropLast }
  else if a.size < INPUT_BUF then
    let c := if c = carriageReturn then newline else c
    if c = newline ∨ c = ctrl 'D' ∨ a.size + 1 = INPUT_BUF then (a.insert c).commit else a.insert c
  else
    a

/-- A reader takes bytes that are committed, up to a newline. A `^D` ends it: if it has got
nothing, it returns nothing and the `^D` is gone. -/
def serve (killed : Bool) (target : ℕ) : ℕ → List UInt8 → Editor → Editor × Progress
  | 0, dst, a => (a, .returned dst.length dst)
  | n + 1, dst, a =>
    match a.committed with
    | [] => (a, if killed then .killed else .sleeping ⟨target, n + 1, dst⟩)
    | c :: rest =>
      if c = ctrl 'D' then
        (if dst = [] then { a with committed := rest } else a, .returned dst.length dst)
      else if c = newline then
        ({ a with committed := rest }, .returned (dst.length + 1) (dst ++ [c]))
      else
        serve killed target n (dst ++ [c]) { a with committed := rest }

end Editor

def editor : Discipline Editor where
  key := Editor.key
  serve killed rd a := a.serve killed rd.target rd.n rd.dst

/-! ## The ring shows an editor -/

/-- The ring of the console, from the next byte to read to the end of the line that is edited. -/
def Input.ring (i : Input) : Ring.Buffer UInt8 32 := ⟨i.buf, i.r, i.e⟩

structure Shows (i : Input) (a : Editor) : Prop where
  holds : Ring.Holds INPUT_BUF i.ring (a.committed ++ a.tail)
  committed : i.w = i.r + BitVec.ofNat 32 a.committed.length
  plain : newline ∉ a.tail

theorem input_buf_dvd : INPUT_BUF ∣ 2 ^ 32 := by decide

theorem input_buf_lt : INPUT_BUF < 2 ^ 32 := by decide

namespace Shows

variable {i : Input} {a : Editor}

theorem size_le (shows : Shows i a) : a.size ≤ INPUT_BUF := by
  have length := shows.holds.length
  rwa [length_append] at length

/-- The distances of the indices. -/
theorem distances (shows : Shows i a) :
    (i.w - i.r).toNat = a.committed.length ∧ (i.e - i.r).toNat = a.size := by
  constructor
  · have small := shows.size_le
    rw [Editor.size] at small
    rw [shows.committed, BitVec.add_comm, BitVec.add_sub_cancel, BitVec.toNat_ofNat,
      Nat.mod_eq_of_lt (by have := input_buf_lt; omega)]
  · have distance := shows.holds.distance input_buf_lt
    rwa [length_append] at distance

/-- The line that is edited is empty if `e` has come down to `w`. -/
theorem at_start_iff (shows : Shows i a) : i.e = i.w ↔ a.tail = [] := by
  have small := shows.size_le
  rw [Editor.size] at small
  have lt := input_buf_lt
  have e : i.e = i.r + BitVec.ofNat 32 (a.committed ++ a.tail).length := shows.holds.nwrite
  rw [e, shows.committed, Ring.add_ofNat_inj (by rw [length_append]; omega) (by omega),
    length_append, Nat.add_eq_left, length_eq_zero_iff]

theorem line_length (shows : Shows i a) : (i.e - i.w).toNat = a.tail.length := by
  have small := shows.size_le
  rw [Editor.size] at small
  have lt := input_buf_lt
  have e : i.e = i.r + BitVec.ofNat 32 (a.committed ++ a.tail).length := shows.holds.nwrite
  have apart : i.e = i.w + BitVec.ofNat 32 a.tail.length := by
    rw [e, shows.committed, BitVec.add_assoc, ← BitVec.ofNat_add, length_append]
  rw [apart, BitVec.add_comm, BitVec.add_sub_cancel, BitVec.toNat_ofNat,
    Nat.mod_eq_of_lt (by omega)]

/-- One byte of the line is taken back. -/
theorem takeBack {line : List UInt8} {c : UInt8} (shows : Shows i ⟨a.committed, line ++ [c]⟩) :
    Shows { i with e := i.e - 1 } ⟨a.committed, line⟩ ∧
      i.buf ((i.e - 1).toNat % INPUT_BUF) = c := by
  have holds : Ring.Holds INPUT_BUF i.ring ((a.committed ++ line) ++ [c]) := by
    rw [append_assoc]
    exact shows.holds
  refine ⟨⟨holds.takeBack, shows.committed, fun member => shows.plain ?_⟩,
    holds.last input_buf_dvd⟩
  exact mem_append_left _ member

/-- The whole line is taken back. -/
theorem killLine {line : List UInt8} (shows : Shows i ⟨a.committed, line⟩) :
    Shows (i.killLine line.length) ⟨a.committed, []⟩ := by
  induction line using List.reverseRecOn generalizing i with
  | nil => exact shows
  | append_singleton line c ih =>
    obtain ⟨back, last⟩ := shows.takeBack
    have other : i.e ≠ i.w := fun same => by simpa using shows.at_start_iff.mp same
    have notNewline : i.buf ((i.e - 1).toNat % INPUT_BUF) ≠ newline := by
      rw [last]
      rintro rfl
      exact shows.plain (by simp)
    rw [length_append, length_singleton, Input.killLine, if_pos ⟨other, notNewline⟩]
    exact ih back

/-- A byte is put in at the end of the line. -/
theorem pushed (shows : Shows i a) (room : a.size < INPUT_BUF) (c : UInt8) :
    Ring.Holds INPUT_BUF
      (Input.ring { i with buf := Function.update i.buf (i.e.toNat % INPUT_BUF) c, e := i.e + 1 })
      ((a.insert c).committed ++ (a.insert c).tail) := by
  have fits : (a.committed ++ a.tail).length < INPUT_BUF := by
    rwa [length_append]
  have holds := shows.holds.push (a := c) input_buf_dvd fits
  rwa [append_assoc] at holds

end Shows

variable {i : Input} {a : Editor}

/-- The line is committed. -/
theorem shows_commit (holds : Ring.Holds INPUT_BUF i.ring (a.committed ++ a.tail)) :
    Shows { i with w := i.e } a.commit where
  holds := by
    rwa [Editor.commit, append_nil]
  committed := holds.nwrite
  plain := not_mem_nil

/-- A byte for the line, and what it commits. -/
theorem Shows.insert (shows : Shows i a) (room : a.size < INPUT_BUF) (c : UInt8) :
    Shows
      (let i := { i with buf := Function.update i.buf (i.e.toNat % INPUT_BUF) c, e := i.e + 1 }
        if c = newline ∨ c = ctrl 'D' ∨ i.e = i.r + BitVec.ofNat 32 INPUT_BUF then
          { i with w := i.e }
        else
          i)
      (if c = newline ∨ c = ctrl 'D' ∨ a.size + 1 = INPUT_BUF then (a.insert c).commit
        else a.insert c) := by
  have holds := shows.pushed room c
  have full : i.e + 1 = i.r + BitVec.ofNat 32 INPUT_BUF ↔ a.size + 1 = INPUT_BUF := by
    apply (holds.full_iff input_buf_lt).trans
    simp only [Editor.insert, Editor.size, length_append, length_singleton, add_assoc]
  by_cases commits : c = newline ∨ c = ctrl 'D' ∨ a.size + 1 = INPUT_BUF
  · rw [if_pos commits, if_pos (by rwa [full])]
    exact shows_commit holds
  · rw [if_neg commits, if_neg (by rwa [full])]
    refine ⟨holds, shows.committed, fun member => ?_⟩
    obtain earlier | last := List.mem_append.mp member
    · exact shows.plain earlier
    · exact commits (.inl (List.mem_singleton.mp last).symm)

/-- The last byte of the line is taken back, if there is one. -/
theorem Shows.backspace (shows : Shows i a) :
    Shows (if i.e ≠ i.w then { i with e := i.e - 1 } else i) ⟨a.committed, a.tail.dropLast⟩ := by
  obtain empty | ⟨line, last, whole⟩ := eq_nil_or_concat a.tail
  · rwa [if_neg (not_not.mpr (shows.at_start_iff.mpr empty)), empty, dropLast_nil, ← empty]
  · rw [concat_eq_append] at whole
    have some : i.e ≠ i.w := fun same => by simpa [whole] using shows.at_start_iff.mp same
    have shown : Shows i ⟨a.committed, line ++ [last]⟩ := whole ▸ shows
    rw [if_pos some, whole, dropLast_concat]
    exact shown.takeBack.1

/-- **A key code.** -/
theorem Shows.key (shows : Shows i a) (c : UInt8) : Shows (i.consoleintr c) (a.key c) := by
  rw [Editor.key]
  by_cases ignored : c = ctrl 'P' ∨ c = 0
  · have same : i.consoleintr c = i := by
      obtain rfl | rfl := ignored
      · rw [Input.consoleintr, if_pos rfl]
      · rw [Input.consoleintr, if_neg (by decide), if_neg (by decide), if_neg (by decide),
          if_neg (by simp)]
    rwa [if_pos ignored, same]
  obtain ⟨noList, nonzero⟩ := not_or.mp ignored
  by_cases kill : c = ctrl 'U'
  · rw [if_neg ignored, if_pos kill, Input.consoleintr, if_neg noList, if_pos kill,
      shows.line_length]
    exact shows.killLine
  by_cases back : c = ctrl 'H' ∨ c = delete
  · rw [if_neg ignored, if_neg kill, if_pos back, Input.consoleintr, if_neg noList, if_neg kill,
      if_pos back]
    exact shows.backspace
  by_cases room : a.size < INPUT_BUF
  · rw [if_neg ignored, if_neg kill, if_neg back, if_pos room, Input.consoleintr, if_neg noList,
      if_neg kill, if_neg back, if_pos ⟨nonzero, shows.distances.2 ▸ room⟩]
    exact shows.insert room _
  · rwa [if_neg ignored, if_neg kill, if_neg back, if_neg room, Input.consoleintr, if_neg noList,
      if_neg kill, if_neg back, if_neg fun fits => room (shows.distances.2 ▸ fits.2)]

/-! ## Readers -/

/-- What the two consoles have in common. -/
structure Related (s : Desk Input) (a : Desk Editor) : Prop where
  shows : Shows s.store a.store
  reader : a.reader = s.reader
  killed : a.killed = s.killed
  counts : ∀ p rd, s.reader p = some rd → rd.dst.length + rd.n = rd.target

/-- There is nothing to take out. -/
theorem Shows.nothing {line : List UInt8} (shows : Shows i ⟨[], line⟩) : i.r = i.w := by
  rw [shows.committed]
  exact (BitVec.add_zero i.r).symm

/-- A byte is taken out. -/
theorem Shows.take {c : UInt8} {rest line : List UInt8} (shows : Shows i ⟨c :: rest, line⟩) :
    i.buf (i.r.toNat % INPUT_BUF) = c ∧ i.r ≠ i.w ∧ Shows { i with r := i.r + 1 } ⟨rest, line⟩ := by
  obtain ⟨front, popped⟩ := Ring.Holds.pop shows.holds input_buf_dvd
  have small := shows.size_le
  rw [Editor.size, length_cons] at small
  have lt := input_buf_lt
  have w : i.w = i.r + BitVec.ofNat 32 (rest.length + 1) := shows.committed
  refine ⟨front, fun same => ?_, popped, ?_, shows.plain⟩
  · have zero : i.r + BitVec.ofNat 32 0 = i.r + BitVec.ofNat 32 (rest.length + 1) := by
      rw [← w, ← same]
      exact BitVec.add_zero i.r
    have := (Ring.add_ofNat_inj (by omega) (by omega)).mp zero
    omega
  · rw [w, Nat.add_comm, BitVec.ofNat_add, ← BitVec.add_assoc]
    rfl

/-- **A reader is served.** -/
theorem Shows.serve (shows : Shows i a) (killed : Bool) {target n : ℕ} {dst : List UInt8}
    (count : dst.length + n = target) :
    (a.serve killed target n dst).2 = (i.consolereadLoop killed target n dst).2 ∧
      Shows (i.consolereadLoop killed target n dst).1 (a.serve killed target n dst).1 ∧
      ∀ rd, (i.consolereadLoop killed target n dst).2.reader = some rd →
        rd.dst.length + rd.n = rd.target := by
  induction n generalizing i a dst with
  | zero =>
    rw [← count]
    exact ⟨rfl, shows, fun _ none => nomatch none⟩
  | succ n ih =>
    obtain ⟨committed, line⟩ := a
    cases committed with
    | nil =>
      rw [Input.consolereadLoop, if_pos shows.nothing]
      refine ⟨rfl, shows, fun rd sleeps => ?_⟩
      cases killed with
      | true => cases sleeps
      | false =>
        cases sleeps
        exact count
    | cons c rest =>
      obtain ⟨byte, some, taken⟩ := shows.take
      simp only [Editor.serve, Input.consolereadLoop, if_neg some, byte]
      by_cases eof : c = ctrl 'D'
      · simp only [if_pos eof]
        have got : target - (n + 1) = dst.length := by omega
        refine ⟨by rw [got], ?_, fun _ none => nomatch none⟩
        by_cases first : dst = []
        · rw [if_pos first, if_neg (by simp [first] at count; omega)]
          exact taken
        · -- the `^D` is pushed back
          have pos := List.length_pos_iff.mpr first
          rwa [if_neg first, if_pos (by omega), BitVec.add_sub_cancel]
      · simp only [if_neg eof]
        by_cases ends : c = newline
        · simp only [if_pos ends]
          have got : target - n = dst.length + 1 := by omega
          exact ⟨by rw [got], taken, fun _ none => nomatch none⟩
        · simp only [if_neg ends]
          exact ih taken (by rw [length_append, length_singleton]; omega)

/-! ## Runs -/

/-- The console at the start: the ring is empty, wherever its indices stand. -/
def boot (buf : ℕ → UInt8) (start : BitVec 32) : Desk Input where
  store := ⟨buf, start, start, start⟩
  reader _ := none
  killed _ := false

def blank : Desk Editor where
  store := ⟨[], []⟩
  reader _ := none
  killed _ := false

theorem related_boot (buf : ℕ → UInt8) (start : BitVec 32) : Related (boot buf start) blank where
  shows := ⟨Ring.holds_nil rfl, (BitVec.add_zero start).symm, not_mem_nil⟩
  reader := rfl
  killed := rfl
  counts _ _ none := nomatch none

namespace Related

variable {s t : Desk Input} {a : Desk Editor} {p : ℕ} {rd : Reader} {progress : Progress}

/-- A reader is served on both consoles. -/
theorem serve (related : Related s a) (count : rd.dst.length + rd.n = rd.target)
    (served : s.serve console p rd = (t, progress)) :
    ∃ b, a.serve editor p rd = (b, progress) ∧ Related t b := by
  obtain ⟨same, shows, counts⟩ := related.shows.serve (s.killed p) count
  cases served
  simp only [Desk.serve, editor, related.killed, related.reader, same]
  refine ⟨_, rfl, shows, rfl, rfl, fun q rd' sleeps => ?_⟩
  dsimp only at sleeps
  obtain rfl | other := eq_or_ne q p
  · rw [Function.update_self] at sleeps
    exact counts rd' sleeps
  · rw [Function.update_of_ne other] at sleeps
    exact related.counts q rd' sleeps

/-- **A step of the console is a step of the editor.** -/
theorem step (related : Related s a) {event : Event} (taken : s.step console event t) :
    ∃ b, a.step editor event b ∧ Related t b := by
  cases event with
  | key c =>
    subst taken
    exact ⟨_, rfl, related.shows.key c, related.reader, related.killed, related.counts⟩
  | read p n progress =>
    obtain ⟨free, served⟩ := taken
    obtain ⟨b, servedA, next⟩ := related.serve (by simp) served
    exact ⟨b, ⟨by rw [related.reader, free], servedA⟩, next⟩
  | wake p progress =>
    obtain ⟨rd, sleeps, served⟩ := taken
    obtain ⟨b, servedA, next⟩ := related.serve (related.counts p rd sleeps) served
    exact ⟨b, ⟨rd, by rw [related.reader, sleeps], servedA⟩, next⟩
  | kill p =>
    subst taken
    refine ⟨_, rfl, related.shows, related.reader, ?_, related.counts⟩
    simp only [related.killed]

end Related

/-- **The console is a line editor.** From any start of the indices and for any key codes, reads,
wakeups and kills, the indices are in order, and the editor gets the same key codes and serves all
reads with the same bytes. -/
theorem console_is_line_editor (buf : ℕ → UInt8) (start : BitVec 32) (trace : List Event)
    (s : Desk Input) (run : Run (Desk.step console) (boot buf start) trace s) :
    (s.store.w - s.store.r).toNat ≤ (s.store.e - s.store.r).toNat ∧
      (s.store.e - s.store.r).toNat ≤ INPUT_BUF ∧
      ∃ a, Run (Desk.step editor) blank trace a := by
  obtain ⟨a, runA, related⟩ := run.simulate (related_boot buf start)
    fun _ _ _ _ related taken => related.step taken
  obtain ⟨committed, size⟩ := related.shows.distances
  have small := related.shows.size_le
  rw [committed, size]
  exact ⟨Nat.le_add_right _ _, small, a, runA⟩

/-- Just before the indices wrap: a line with a backspace, and a read that gets it. -/
def shortLine : List Event :=
  [.read 0 10 (.returned 2 [97, 10]), .key 13, .key 8, .key 98, .key 97]

theorem console_is_line_editor_of_line :
    ∃ s, Run (Desk.step console) (boot (fun _ => 0) (-1)) shortLine s ∧
      (s.store.e - s.store.r).toNat ≤ INPUT_BUF ∧ ∃ a, Run (Desk.step editor) blank shortLine a := by
  obtain ⟨s, run⟩ : ∃ s, Run (Desk.step console) (boot (fun _ => 0) (-1)) shortLine s :=
    ⟨_, .tail (.tail (.tail (.tail (.tail .refl rfl) rfl) rfl) rfl)
      ⟨rfl, Prod.eq_iff_fst_eq_snd_eq.mpr ⟨rfl, by decide⟩⟩⟩
  obtain ⟨-, small, same⟩ := console_is_line_editor _ _ _ s run
  exact ⟨s, run, small, same⟩

end Xv6Uac.Console
