import Mathlib.Data.Finset.Prod
import Xv6Uac.Fs.Invariant
import Xv6Uac.Kernel.CallFrame

/-!
# References to open files

The references of a `struct file` are the descriptors that point to it, a file without
references has no type, and a pipe has an end open as long as a file is that end
(`Counted`). In the middle of a call the counts are off by `δ`: `filealloc` gives the call a
reference that `fdalloc` hands over to a descriptor, `dup` makes the descriptor before it
takes the reference, and `exit` gives up the reference before it clears the descriptor.

This holds in every run, also of calls that fail: it does not depend on the file system.
-/

namespace Xv6Uac

open Words Pointers
open Hoare hiding update
open Function (update update_apply update_of_ne update_self)

variable {cfg : Config} {δ : ℕ → ℤ} {s t : Kernel} {p fd f q : ℕ} {w : Bool}

/-! ## Counting -/

/-- How many pointers of a table of `n` rows and `m` columns point to `k`. -/
def tablePointers (n m : ℕ) (g : ℕ → ℕ → Option ℕ) (k : ℕ) : ℕ :=
  ((Finset.range n ×ˢ Finset.range m).filter fun x => g x.1 x.2 = some k).card

/-- A pointer of the table that is changed. -/
theorem tablePointers_update {n m a b : ℕ} (row : a < n) (column : b < m)
    {g g' : ℕ → ℕ → Option ℕ} (others : ∀ x y, (x, y) ≠ (a, b) → g' x y = g x y) (k : ℕ) :
    tablePointers n m g' k + (if g a b = some k then 1 else 0) =
      tablePointers n m g k + if g' a b = some k then 1 else 0 := by
  have member : (a, b) ∈ Finset.range n ×ˢ Finset.range m :=
    Finset.mem_product.mpr ⟨Finset.mem_range.mpr row, Finset.mem_range.mpr column⟩
  have kept : ∀ x : ℕ × ℕ, x ≠ (a, b) → g' x.1 x.2 = g x.1 x.2 :=
    fun x other => others x.1 x.2 other
  exact card_pointers_update member kept k

theorem exists_of_tablePointers {n m k : ℕ} {g : ℕ → ℕ → Option ℕ}
    (some : tablePointers n m g k ≠ 0) : ∃ x y, g x y = Option.some k := by
  obtain ⟨x, points⟩ := Finset.card_ne_zero.mp some
  exact ⟨x.1, x.2, (Finset.mem_filter.mp points).2⟩

/-- The descriptors that point to a file. -/
def slots (s : Kernel) (f : ℕ) : ℕ := tablePointers NPROC NOFILE (fun p => (s.proc p).ofile) f

/-- A file is an end of a pipe: the write end if `w`. -/
def File.IsEnd (file : File) (q : ℕ) (w : Bool) : Prop :=
  file.type = .pipe ∧ file.pipe = some q ∧ file.writable = w

/-- A slot of the process table without a process that can make calls. -/
def Proc.Idle (proc : Proc) : Prop := proc.state = .unused ∨ proc.state = .zombie

/-- **The references to files**, in a call that has `δ` more than the descriptors show. -/
structure Counted (δ : ℕ → ℤ) (s : Kernel) : Prop where
  bound : ∀ {p fd f}, (s.proc p).ofile fd = some f → p < NPROC ∧ fd < NOFILE ∧ f < NFILE
  idle : ∀ {p}, (s.proc p).Idle → ∀ fd, (s.proc p).ofile fd = none
  refs : ∀ f, (s.ftable f).ref = slots s f + δ f
  typed : ∀ {f}, (s.ftable f).ref = 0 → (s.ftable f).type = .none
  ends : ∀ {q w}, (s.pipes q).isOpen w = true ↔ ∃ f, (s.ftable f).IsEnd q w
  single : ∀ {q w f g}, (s.ftable f).IsEnd q w → (s.ftable g).IsEnd q w → f = g
  old : ∀ {q w f}, (s.ftable f).IsEnd q w → q < s.npipe

/-- A descriptor that is changed to `b`. -/
theorem slots_update {b : Option ℕ} (small : p < NPROC) (inside : fd < NOFILE)
    (at_ : (t.proc p).ofile fd = b)
    (others : ∀ q i, (q, i) ≠ (p, fd) → (t.proc q).ofile i = (s.proc q).ofile i) (f : ℕ) :
    slots t f + (if (s.proc p).ofile fd = some f then 1 else 0) =
      slots s f + if b = some f then 1 else 0 := by
  rw [← at_]
  exact tablePointers_update small inside others f

theorem slots_congr (same : ∀ p, (t.proc p).ofile = (s.proc p).ofile) (f : ℕ) :
    slots t f = slots s f := by
  simp only [slots, same]

/-! ## Updates -/

/-- Another file for a descriptor, or none. -/
def Kernel.setOfile (s : Kernel) (p fd : ℕ) (b : Option ℕ) : Kernel :=
  { s with
    proc := update s.proc p
      { s.proc p with ofile := update (s.proc p).ofile fd b } }

theorem setOfile_ofile (s : Kernel) (p fd : ℕ) (b : Option ℕ) (q i : ℕ) :
    ((s.setOfile p fd b).proc q).ofile i = if q = p ∧ i = fd then b else (s.proc q).ofile i := by
  rw [Kernel.setOfile]
  obtain rfl | other := eq_or_ne q p
  · obtain rfl | other := eq_or_ne i fd
    · simp
    · simp [other]
  · simp [other]

theorem setOfile_state (s : Kernel) (p fd : ℕ) (b : Option ℕ) (q : ℕ) :
    ((s.setOfile p fd b).proc q).state = (s.proc q).state := by
  rw [Kernel.setOfile]
  obtain rfl | other := eq_or_ne q p
  · simp
  · simp [other]

theorem SameFile.isEnd {a b : File} (same : SameFile a b) : a.IsEnd q w ↔ b.IsEnd q w := by
  rw [File.IsEnd, File.IsEnd, same.1, same.2.2.1, same.2.2.2]

namespace Counted

variable (counted : Counted δ s)
include counted

/-- Nothing that is counted changes. -/
theorem congr (ofile : ∀ p, (t.proc p).ofile = (s.proc p).ofile)
    (idle : ∀ p, (t.proc p).Idle → (s.proc p).Idle ∨ ∀ fd, (s.proc p).ofile fd = none)
    (file : ∀ f, SameFile (t.ftable f) (s.ftable f))
    (pipes : ∀ q w, (t.pipes q).isOpen w = (s.pipes q).isOpen w) (npipe : t.npipe = s.npipe) :
    Counted δ t := by
  have same : ∀ {q w f}, (t.ftable f).IsEnd q w ↔ (s.ftable f).IsEnd q w := (file _).isEnd
  constructor
  · intro p fd f
    rw [ofile]
    exact counted.bound
  · intro p out fd
    rw [ofile]
    exact (idle p out).elim (fun out => counted.idle out fd) fun none => none fd
  · intro f
    rw [(file f).2.1, slots_congr ofile]
    exact counted.refs f
  · intro f
    rw [(file f).1, (file f).2.1]
    exact counted.typed
  · intro q w
    simp only [pipes, same]
    exact counted.ends
  · intro q w f g
    rw [same, same]
    exact counted.single
  · intro q w f
    rw [same, npipe]
    exact counted.old

/-- A change of a file that leaves it the end of a pipe that it is. -/
theorem setFile (f : ℕ) (file : File) (ends : ∀ q w, file.IsEnd q w ↔ (s.ftable f).IsEnd q w)
    (typed : file.ref = 0 → file.type = .none) :
    Counted (δ + Pi.single f (file.ref - (s.ftable f).ref))
      { s with ftable := update s.ftable f file } := by
  have same : ∀ {q w g}, (update s.ftable f file g).IsEnd q w ↔
      (s.ftable g).IsEnd q w := by
    intro q w g
    obtain rfl | other := eq_or_ne g f
    · rw [update_self]
      exact ends q w
    · rw [update_of_ne other]
  refine ⟨counted.bound, counted.idle, fun g => ?_, fun {g} none => ?_, ?_, ?_, ?_⟩
  · have refs := counted.refs g
    obtain rfl | other := eq_or_ne g f
    · simp only [update_self, Pi.add_apply, Pi.single_eq_same]
      change file.ref = (slots s g : ℤ) + _
      omega
    · simp only [update_of_ne other, Pi.add_apply, Pi.single_eq_of_ne other, add_zero]
      exact refs
  · obtain rfl | other := eq_or_ne g f
    · simp only [update_self] at none ⊢
      exact typed none
    · simp only [update_of_ne other] at none ⊢
      exact counted.typed none
  · intro q w
    simp only [same]
    exact counted.ends
  · intro q w g h
    rw [same, same]
    exact counted.single
  · intro q w g
    rw [same]
    exact counted.old

/-- Another file for a descriptor. -/
theorem setOfile {b : Option ℕ} (small : p < NPROC) (inside : fd < NOFILE)
    (file : ∀ g, b = some g → g < NFILE) (busy : b ≠ none → ¬(s.proc p).Idle) :
    Counted (fun g => δ g + (if (s.proc p).ofile fd = some g then 1 else 0) -
      if b = some g then 1 else 0) (s.setOfile p fd b) := by
  refine ⟨fun {q i g} points => ?_, fun {q} out i => ?_, fun g => ?_, counted.typed, counted.ends,
    counted.single, counted.old⟩
  · rw [setOfile_ofile] at points
    split at points
    · rename_i own
      exact ⟨own.1 ▸ small, own.2 ▸ inside, file g points⟩
    · exact counted.bound points
  · rw [Proc.Idle, setOfile_state] at out
    rw [setOfile_ofile]
    split
    · rename_i own
      by_contra some
      exact busy some (own.1 ▸ out)
    · exact counted.idle out i
  · have count : slots (s.setOfile p fd b) g + (if (s.proc p).ofile fd = some g then 1 else 0) =
        slots s g + if b = some g then 1 else 0 := by
      refine slots_update small inside (by simp [setOfile_ofile]) (fun q i other => ?_) g
      rw [setOfile_ofile, if_neg]
      rintro ⟨rfl, rfl⟩
      exact other rfl
    have refs := counted.refs g
    change (s.ftable g).ref = _
    split_ifs at count ⊢ <;> omega

/-- A descriptor gets a reference that the call has. -/
theorem point (small : p < NPROC) (inside : fd < NOFILE) (file : f < NFILE)
    (free : (s.proc p).ofile fd = none) (busy : ¬(s.proc p).Idle) :
    Counted (δ - Pi.single f 1) (s.setOfile p fd (some f)) := by
  have set := counted.setOfile small inside (fun g same => by
    obtain rfl := Option.some.inj same
    exact file) fun _ => busy
  convert set using 1
  funext g
  simp only [free, Pi.sub_apply, Pi.single_apply, eq_comm]
  simp

/-- A descriptor gives its reference to the call. -/
theorem clear (points : (s.proc p).ofile fd = some f) :
    Counted (δ + Pi.single f 1) (s.setOfile p fd none) := by
  obtain ⟨small, inside, -⟩ := counted.bound points
  have set := counted.setOfile (b := none) small inside (fun g same => nomatch same)
    fun some => absurd rfl some
  convert set using 1
  funext g
  simp only [points, Pi.add_apply, Pi.single_apply, eq_comm]
  simp

/-- The last reference to an end of a pipe is given up, and the end is closed. -/
theorem closeEnd {pipe : Pipe} (last : (s.ftable f).ref = 1) (isEnd : (s.ftable f).IsEnd q w)
    (closed : pipe.isOpen w = false) (other : pipe.isOpen (!w) = (s.pipes q).isOpen (!w)) :
    Counted (δ - Pi.single f 1)
      { s with
        ftable := update s.ftable f { s.ftable f with ref := 0, type := .none }
        pipes := update s.pipes q pipe } := by
  have ends : ∀ {r v g}, (update s.ftable f
      { s.ftable f with ref := 0, type := .none } g).IsEnd r v ↔
      g ≠ f ∧ (s.ftable g).IsEnd r v := by
    intro r v g
    obtain rfl | other := eq_or_ne g f
    · simp [File.IsEnd]
    · simp [other]
  refine ⟨counted.bound, counted.idle, fun g => ?_, fun {g} none => ?_, fun {r v} => ?_, ?_, ?_⟩
  · have refs := counted.refs g
    obtain rfl | other := eq_or_ne g f
    · simp only [update_self, Pi.sub_apply, Pi.single_eq_same]
      change (0 : ℤ) = (slots s g : ℤ) + _
      omega
    · simp only [update_of_ne other, Pi.sub_apply, Pi.single_eq_of_ne other, sub_zero]
      exact refs
  · obtain rfl | other := eq_or_ne g f
    · simp
    · simp only [update_of_ne other] at none ⊢
      exact counted.typed none
  · simp only [ends]
    obtain rfl | different := eq_or_ne r q
    · rw [update_self]
      obtain rfl | opposite := eq_or_ne v w
      · rw [closed]
        constructor
        · intro open_
          cases open_
        · rintro ⟨g, distinct, isEnd'⟩
          exact absurd (counted.single isEnd' isEnd) distinct
      · obtain rfl : v = !w := by cases v <;> cases w <;> simp_all
        rw [other, counted.ends]
        refine exists_congr fun g => ⟨fun isEnd' => ⟨?_, isEnd'⟩, And.right⟩
        rintro rfl
        exact opposite (isEnd'.2.2.symm.trans isEnd.2.2)
    · rw [update_of_ne different, counted.ends]
      refine exists_congr fun g => ⟨fun isEnd' => ⟨?_, isEnd'⟩, And.right⟩
      rintro rfl
      exact different (Option.some.inj (isEnd'.2.1.symm.trans isEnd.2.1))
  · intro r v g h
    rw [ends, ends]
    exact fun first second => counted.single first.2 second.2
  · intro r v g
    rw [ends]
    exact fun isEnd' => counted.old isEnd'.2

/-- A new pipe, and two files that become its ends. -/
theorem newPipe {f₀ f₁ : ℕ} {a b : File} (distinct : f₀ ≠ f₁) (plain₀ : (s.ftable f₀).type ≠ .pipe)
    (plain₁ : (s.ftable f₁).type ≠ .pipe) (read : a.IsEnd s.npipe false)
    (write : b.IsEnd s.npipe true) (ref₀ : a.ref = (s.ftable f₀).ref)
    (ref₁ : b.ref = (s.ftable f₁).ref) (used₀ : a.ref ≠ 0) (used₁ : b.ref ≠ 0) :
    Counted δ
      { s with
        ftable := update (update s.ftable f₀ a) f₁ b
        npipe := s.npipe + 1
        pipes := update s.pipes s.npipe ⟨[], true, true⟩ } := by
  have ends : ∀ {r v g}, (update (update s.ftable f₀ a) f₁ b g).IsEnd r v ↔
      g = f₀ ∧ r = s.npipe ∧ v = false ∨ g = f₁ ∧ r = s.npipe ∧ v = true ∨
        (s.ftable g).IsEnd r v := by
    intro r v g
    simp only [File.IsEnd] at read write ⊢
    grind
  refine ⟨counted.bound, counted.idle, fun g => ?_, fun {g} none => ?_, fun {r v} => ?_, ?_, ?_⟩
  · have refs := counted.refs g
    change (update (update s.ftable f₀ a) f₁ b g).ref = slots s g + δ g
    grind
  · have typed := counted.typed (f := g)
    grind
  · simp only [ends]
    obtain rfl | different := eq_or_ne r s.npipe
    · rw [update_self]
      cases v
      · exact iff_of_true rfl ⟨f₀, .inl ⟨rfl, rfl, rfl⟩⟩
      · exact iff_of_true rfl ⟨f₁, .inr (.inl ⟨rfl, rfl, rfl⟩)⟩
    · rw [update_of_ne different, counted.ends]
      simp [different]
  · intro r v g h
    have fresh : ∀ {g}, (s.ftable g).IsEnd r v → r ≠ s.npipe := fun isEnd =>
      (counted.old isEnd).ne
    have single := counted.single (q := r) (w := v) (f := g) (g := h)
    grind
  · intro r v g
    have old := counted.old (q := r) (w := v) (f := g)
    grind

end Counted

end Xv6Uac
