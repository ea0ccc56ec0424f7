import Xv6Uac.User.Edits
import Xv6Uac.Lib.Separated

/-!
# Line edits as list edits

A file of lines with newlines between them is a list. `addline` adds a line at the end of the list
and `changeline` replaces one, as long as the new file is not too large and there is a descriptor
for the temporary file (`line_edits_refine`). Neither function looks at what `open` and `write`
return: without a descriptor the file ends before the line that was to be changed, and what goes
beyond the largest file is lost.
-/

namespace Xv6Uac.Accounts

open Programs Separated List
open Function (update update_comm update_eq_self update_idem update_self)

/-! ## The temporary file -/

/-- A process that has a file open. The numbers of files that are in use are below `next`. -/
structure Opens (s : State) (fd node off : ℕ) : Prop where
  descriptor : s.task.ofile fd = some ⟨node, off⟩
  used : node < s.disk.next

section Opening

variable {s : State} {fd node off fdtemp : ℕ} {file : Account}

theorem fdalloc_free (free : s.task.fdalloc = some fdtemp) : s.task.ofile fdtemp = none := by
  have found := List.find?_some free
  simpa using found

theorem Opens.distinct (opens : Opens s fd node off) (free : s.task.fdalloc = some fdtemp) :
    fd ≠ fdtemp := by
  rintro rfl
  have none := fdalloc_free free
  rw [opens.descriptor] at none
  cases none

/-- The two files of `changeline`, when there was no temporary file. -/
def Opens.edit (opens : Opens s fd node off) (free : s.task.fdalloc = some fdtemp) (file : Account) :
    Edit where
  base := { s with disk := s.disk.create (.temp file) }
  fd := fd
  fdtemp := fdtemp
  node := node
  temp := s.disk.next
  distinct := opens.distinct free
  apart := opens.used.ne

theorem Opens.opened (opens : Opens s fd node off) (free : s.task.fdalloc = some fdtemp)
    (absent : s.disk.name (.temp file) = none) :
    kernel (.open (.temp file) true) s = ((fdtemp : ℤ), (opens.edit free file).state
      ⟨s.disk.node node, off⟩ ⟨[], 0⟩) := by
  have other : node ≠ s.disk.next := opens.used.ne
  have nodes : update (update (update s.disk.node s.disk.next []) node
      (s.disk.node node)) s.disk.next [] = update s.disk.node s.disk.next [] := by
    rw [update_comm other, update_idem, update_comm other.symm,
      update_eq_self]
  have files : update s.task.ofile fd (some ⟨node, off⟩) = s.task.ofile := by
    rw [← opens.descriptor, update_eq_self]
  simp only [kernel, absent, if_true, State.open, free, Edit.state, Opens.edit, Disk.create, nodes,
    files]

/-- A call of `changeline` when there was no temporary file. -/
theorem Opens.changeline {start old next : ℕ} {line copied : Bytes} (opens : Opens s fd node off)
    (free : s.task.fdalloc = some fdtemp) (absent : s.disk.name (.temp file) = none)
    (place : next = start + old + 1) (inside : start + old ≤ (s.disk.node node).length)
    (small : (s.disk.node node).length ≤ MAXFILE * BSIZE)
    (fits : start + copied.length ≤ MAXFILE * BSIZE)
    (wanted : copied = rewritten line (s.disk.node node) next) :
    Ends (changeline fd line file next old) (fun a t => a = start + line.length + 1 ∧
      t = (opens.edit free file).finished file
        ⟨(s.disk.node node).take start ++ copied, start + copied.length⟩
        ⟨copied, copied.length⟩) s := by
  have written : copied = ByteFile.write [] 0 (rewritten line (s.disk.node node) next) := by
    rw [ByteFile.write_zero, drop_nil, append_nil, wanted]
  have named : (opens.edit free file).base.disk.name (.temp file) = some s.disk.next := by
    simp [Opens.edit, Disk.create]
  refine (@changeline_iff (opens.edit free file) (fun _ => True) _ [] line file _ s start old next
    off s.disk.next place (opens.opened free absent) rfl named inside small copied written
    fits).mpr ⟨trivial, fun _ => trivial, trivial, rfl, rfl⟩

end Opening

/-! ## The largest file -/

/-- No byte beyond the largest file is ever written. -/
def Bounded (bytes : Bytes) : Prop := ∀ b ∈ bytes.drop (MAXFILE * BSIZE), b = 0

section Bounds

variable {bytes src : Bytes} {off : ℕ} {s : State}

theorem bounded_of_le (small : bytes.length ≤ MAXFILE * BSIZE) : Bounded bytes := by
  intro b inside
  rw [drop_eq_nil_of_le small] at inside
  exact absurd inside not_mem_nil

theorem accepted_le (size n : ℕ) (some : accepted size off n ≠ 0) :
    off ≤ size ∧ off + accepted size off n ≤ MAXFILE * BSIZE := by
  rw [accepted] at some ⊢
  split at some
  · exact absurd rfl some
  · rename_i inside
    rw [if_neg inside]
    split at some
    · rename_i fits
      rw [if_pos fits]
      exact ⟨not_lt.mp inside, fits⟩
    · rename_i large
      rw [if_neg large]
      have pieces := Nat.div_mul_le_self (MAXFILE * BSIZE - off) writeMax
      omega

theorem Bounded.write (bounded : Bounded bytes) (src : Bytes) :
    Bounded (OpenFile.write ⟨bytes, off⟩ src).2.bytes := by
  by_cases none : accepted bytes.length off src.length = 0
  · rwa [OpenFile.write_nothing none]
  · obtain ⟨inside, fits⟩ := accepted_le _ _ none
    have length : (src.take (accepted bytes.length off src.length)).length ≤
        accepted bytes.length off src.length := length_take_le _ _
    simp only [OpenFile.write]
    generalize src.take (accepted bytes.length off src.length) = new at *
    have before : (bytes.take off ++ new).length ≤ MAXFILE * BSIZE := by
      rw [length_append, length_take]
      omega
    have shift : off + new.length + (MAXFILE * BSIZE - (bytes.take off ++ new).length) =
        MAXFILE * BSIZE := by
      rw [length_append, length_take] at before ⊢
      omega
    intro b inside'
    rw [ByteFile.write, drop_append, drop_eq_nil_of_le before,
      drop_drop, shift] at inside'
    exact bounded b inside'

theorem OpenFile.read_bytes (f : OpenFile) (n : ℕ) : (f.read n).2.bytes = f.bytes := by
  rw [OpenFile.read]
  split <;> rfl

theorem OpenFile.le_read_off (f : OpenFile) (n : ℕ) : f.off ≤ (f.read n).2.off := by
  rw [OpenFile.read]
  split
  · exact le_rfl
  · exact Nat.le_add_right _ _

theorem Bounded.trim (bounded : Bounded bytes) : Bounded (OpenFile.trim ⟨bytes, off⟩).bytes := by
  intro b inside
  rw [OpenFile.trim, ByteFile.resize, drop_append, mem_append] at inside
  rcases inside with old | new
  · rw [drop_take] at old
    exact bounded b (mem_of_mem_take old)
  · exact eq_of_mem_replicate (mem_of_mem_drop new)

/-- A file that is bounded stays so. -/
theorem kernel_bounded (c : Sys) (s : State) (node : ℕ) (bounded : Bounded (s.disk.node node)) :
    Bounded ((kernel c s).2.disk.node node) := by
  have set : ∀ (fd : ℤ) (d : Descriptor) (a : OpenFile),
      (Bounded (s.disk.node d.node) → Bounded a.bytes) →
      Bounded ((s.setFile fd d a).disk.node node) := by
    intro fd d a kept
    by_cases same : node = d.node
    · subst same
      simpa [State.setFile] using kept bounded
    · simpa [State.setFile, same] using bounded
  have opened : ∀ (s : State) (file : ℕ), Bounded (s.disk.node node) →
      Bounded ((s.open file).2.disk.node node) := by
    intro s file boundedS
    rw [State.open]
    split <;> exact boundedS
  cases c with
  | «open» path create =>
    simp only [kernel]
    split
    · exact opened s _ bounded
    · split
      · apply opened _ _
        by_cases same : node = s.disk.next
        · subst same
          simpa [Disk.create] using bounded_of_le (Nat.zero_le _)
        · simpa [Disk.create, same] using bounded
      · exact bounded
  | lseek fd offset whence =>
    simp only [kernel]
    split
    · exact bounded
    · exact set _ _ _ fun old => old
  | read fd n =>
    simp only [kernel]
    split
    · exact bounded
    · refine set _ _ _ fun old => ?_
      rwa [OpenFile.read_bytes]
  | write fd src =>
    simp only [kernel]
    split
    · exact bounded
    · exact set _ _ _ fun old => old.write src
  | trim fd =>
    simp only [kernel]
    split
    · exact bounded
    · exact set _ _ _ fun old => old.trim
  | close fd | unlink path =>
    simp only [kernel]
    split <;> exact bounded
  | chdir path | getuid => exact bounded

end Bounds

/-! ## One open file -/

section OneFile

variable {s : State} {fd node o : ℕ} (f g : OpenFile)

theorem State.setFile_setFile :
    (s.setFile fd ⟨node, o⟩ f).setFile fd ⟨node, f.off⟩ g = s.setFile fd ⟨node, o⟩ g := by
  simp [State.setFile]

theorem State.content_setFile : (s.setFile fd ⟨node, o⟩ f).disk.node node = f.bytes := by
  simp [State.setFile]

theorem State.descriptor_setFile :
    (s.setFile fd ⟨node, o⟩ f).task.descriptor fd = some ⟨node, f.off⟩ := by
  simp [State.setFile, Task.descriptor]

theorem State.file_setFile : (s.setFile fd ⟨node, o⟩ f).file ⟨node, f.off⟩ = f := by
  simp [State.file, State.setFile]

theorem Opens.setFile {off : ℕ} (opens : Opens s fd node off) :
    s = s.setFile fd ⟨node, off⟩ ⟨s.disk.node node, off⟩ := by
  simp [State.setFile, ← opens.descriptor]

theorem read_setFile (n : ℕ) : kernel (.read fd n) (s.setFile fd ⟨node, o⟩ f) =
    ((f.read n).1, s.setFile fd ⟨node, o⟩ (f.read n).2) := by
  simp only [kernel, State.descriptor_setFile, State.file_setFile, State.setFile_setFile]

theorem write_setFile (src : Bytes) : kernel (.write fd src) (s.setFile fd ⟨node, o⟩ f) =
    ((f.write src).1, s.setFile fd ⟨node, o⟩ (f.write src).2) := by
  simp only [kernel, State.descriptor_setFile, State.file_setFile, State.setFile_setFile]

theorem lseek_setFile (offset whence : ℤ) :
    kernel (.lseek fd offset whence) (s.setFile fd ⟨node, o⟩ f) =
      (0, s.setFile fd ⟨node, o⟩ (f.seek offset whence)) := by
  simp only [kernel, State.descriptor_setFile, State.file_setFile, State.setFile_setFile]

theorem trim_setFile : kernel (.trim fd) (s.setFile fd ⟨node, o⟩ f) =
    (0, s.setFile fd ⟨node, o⟩ f.trim) := by
  simp only [kernel, State.descriptor_setFile, State.file_setFile, State.setFile_setFile]

end OneFile

/-! ## Adding a line -/

section Adding

variable {s : State} {fd node off : ℕ} {line : Bytes}

/-- A call of `addline` ends with the line after a newline at the end of the file. -/
def AddsLine (s : State) (fd node : ℕ) (line : Bytes) : Prop :=
  ∃ t, run kernel (addline fd line) s = some (0, t) ∧
    t.disk.node node = s.disk.node node ++ newline :: line

theorem seek_end {bytes : Bytes} (small : bytes.length ≤ MAXFILE * BSIZE) :
    OpenFile.seek ⟨bytes, off⟩ 0 2 = ⟨bytes, bytes.length⟩ := by
  have limit : MAXFILE * BSIZE < 2 ^ 32 := by decide
  have size : ((bytes.length : ℤ) + 0) % 2 ^ 32 = bytes.length := by
    rw [add_zero, Int.emod_eq_of_lt (by omega) (by omega)]
  simp only [OpenFile.seek, size]
  rfl

theorem run_addline (opens : Opens s fd node off)
    (small : (s.disk.node node).length ≤ MAXFILE * BSIZE) :
    run kernel (addline fd line) s = some (0, s.setFile fd ⟨node, off⟩
      ((OpenFile.write ⟨s.disk.node node, (s.disk.node node).length⟩ [newline]).2.write line).2) := by
  have sought : kernel (.lseek fd 0 2) s =
      (0, s.setFile fd ⟨node, off⟩ ⟨s.disk.node node, (s.disk.node node).length⟩) := by
    have calls := @lseek_setFile s fd node off ⟨s.disk.node node, off⟩ 0 2
    rwa [← opens.setFile, seek_end small] at calls
  have ends : Ends (addline fd line) (fun a t => a = 0 ∧ t = s.setFile fd ⟨node, off⟩
      ((OpenFile.write ⟨s.disk.node node, (s.disk.node node).length⟩ [newline]).2.write line).2) s := by
    rw [Ends, addline, lseek, always_perform_bind, sought, write, always_perform_bind, write_setFile,
      write, always_perform_bind, write_setFile]
    exact ⟨trivial, trivial, trivial, trivial, rfl, rfl⟩
  obtain ⟨a, t, ran, rfl, rfl⟩ := always_true_iff.mp ends
  exact ran

theorem length_write_le {f : OpenFile} (src : Bytes) (small : f.bytes.length ≤ MAXFILE * BSIZE) :
    (f.write src).2.bytes.length ≤ MAXFILE * BSIZE := by
  by_cases none : accepted f.bytes.length f.off src.length = 0
  · rwa [OpenFile.write_nothing none]
  · obtain ⟨inside, fits⟩ := accepted_le _ _ none
    rw [OpenFile.write, ByteFile.length_write inside, length_take]
    omega

/-- `addline` adds its line exactly when the file does not become too large. -/
theorem addsLine_iff (opens : Opens s fd node off)
    (small : (s.disk.node node).length ≤ MAXFILE * BSIZE) :
    AddsLine s fd node line ↔ (s.disk.node node).length + 1 + line.length ≤ MAXFILE * BSIZE := by
  rw [AddsLine, run_addline opens small]
  constructor
  · rintro ⟨t, ran, new⟩
    obtain rfl := (Prod.mk.inj (Option.some.inj ran)).2
    have most := length_write_le line
      (@length_write_le ⟨s.disk.node node, (s.disk.node node).length⟩ [newline] small)
    rw [State.content_setFile] at new
    rw [new, length_append, length_cons] at most
    omega
  · intro fits
    refine ⟨_, rfl, ?_⟩
    have longer : (s.disk.node node ++ [newline]).length = (s.disk.node node).length + 1 := by simp
    rw [State.content_setFile, write_eq le_rfl (by rw [length_singleton]; omega),
      ByteFile.write_end, length_singleton, ← longer, write_eq le_rfl (by omega),
      ByteFile.write_end, append_assoc]
    rfl

end Adding

/-! ## Changing a line without a temporary file -/

section Without

variable {s : State} {fd node o : ℕ} {K : Bytes → Prop} {bytes line : Bytes} {file : Account}

theorem State.stored_setFile {f : OpenFile} (kept : K f.bytes) :
    K ((s.setFile fd ⟨node, o⟩ f).disk.node node) := by
  rwa [State.content_setFile]

/-- With no descriptor for the temporary file, the rest of the file is only read. -/
theorem copyRest_without {k off : ℕ} {n : ℤ} {buf : Bytes} (kept : K bytes)
    (enough : 0 < k ∧ (0 < n → bytes.length - off + 1 < k)) :
    always kernel (fun s => K (s.disk.node node)) (copyRest fd (-1) k (n, buf))
      (fun _ t => ∃ off', t = s.setFile fd ⟨node, o⟩ ⟨bytes, off'⟩)
      (s.setFile fd ⟨node, o⟩ ⟨bytes, off⟩) := by
  have here : ∀ off, K ((s.setFile fd ⟨node, o⟩ ⟨bytes, off⟩).disk.node node) :=
    fun _ => State.stored_setFile kept
  induction k generalizing n buf off with
  | zero => omega
  | succ k ih =>
    rw [copyRest]
    by_cases more : 0 < n
    · rw [if_pos more]
      refine ⟨here off, here off, ?_⟩
      have unwritten : (kernel (.write (-1) buf) (s.setFile fd ⟨node, o⟩ ⟨bytes, off⟩)).2 =
        s.setFile fd ⟨node, o⟩ ⟨bytes, off⟩ := rfl
      rw [unwritten, read_setFile]
      by_cases beyond : bytes.length < off
      · rw [read_beyond beyond]
        exact ih ⟨by omega, fun some => absurd some (by decide)⟩
      · rw [read_eq (not_lt.mp beyond)]
        refine ih ⟨by omega, fun some => ?_⟩
        have size : ((bytes.drop off).take BUFSIZE).length ≤ bytes.length - off := by simp
        omega
    · rw [if_neg more]
      exact ⟨here off, off, rfl⟩

/-- `open` makes the temporary file before it finds no descriptor. -/
theorem open_without {off : ℕ} (opens : Opens s fd node off) (full : s.task.fdalloc = none) :
    ∃ u m, kernel (.open (.temp file) true) s = ((-1 : ℤ), u) ∧ Opens u fd node off ∧
      u.disk.node node = s.disk.node node ∧ u.disk.name (.temp file) = some m := by
  rcases named : s.disk.name (.temp file) with _ | m
  · refine ⟨{ s with disk := s.disk.create (.temp file) }, s.disk.next, ?_,
      ⟨opens.descriptor, opens.used.trans (Nat.lt_succ_self _)⟩, ?_, ?_⟩
    · simp only [kernel, named, if_true, State.open, full]
    · simp [Disk.create, opens.used.ne]
    · simp [Disk.create]
  · refine ⟨s, m, ?_, opens, rfl, named⟩
    simp only [kernel, named, State.open, full]

/-- Nothing is written back, and the file ends before the line. -/
theorem changeline_second_without {start m : ℕ} (kept : K bytes) (cut : K (bytes.take start))
    (inside : start ≤ bytes.length) (small : bytes.length ≤ MAXFILE * BSIZE)
    (named : s.disk.name (.temp file) = some m) (off : ℕ) (r : ℤ) :
    always kernel (fun s => K (s.disk.node node)) (do
        let _ ← lseek (-1) 0 0
        let _ ← lseek fd start 0
        let size ← writeBack fd (-1) ROUNDS start
        let _ ← lseek fd size 0
        let _ ← trim fd
        let _ ← close (-1)
        let _ ← unlink (.temp file)
        pure r)
      (fun a t => a = r ∧ t.disk.node node = bytes.take start ∧ t.disk.name (.temp file) = none)
      (s.setFile fd ⟨node, o⟩ ⟨bytes, off⟩) := by
  have limit : MAXFILE * BSIZE < 2 ^ 32 := by decide
  have here : ∀ off, K ((s.setFile fd ⟨node, o⟩ ⟨bytes, off⟩).disk.node node) :=
    fun _ => State.stored_setFile kept
  have after : K ((s.setFile fd ⟨node, o⟩ ⟨bytes.take start, start⟩).disk.node node) :=
    State.stored_setFile cut
  have sought : ∀ off, OpenFile.seek ⟨bytes, off⟩ start 0 = ⟨bytes, start⟩ := by
    intro off
    rw [seek_eq (Int.natCast_nonneg _) (by omega), Int.toNat_natCast]
  have trimmed : OpenFile.trim ⟨bytes, start⟩ = ⟨bytes.take start, start⟩ := by
    simp only [OpenFile.trim, ByteFile.resize, Nat.sub_eq_zero_of_le inside, replicate_zero,
      append_nil]
  have unread : always kernel (fun s => K (s.disk.node node)) (writeBack fd (-1) ROUNDS start)
      (fun a t => a = start ∧ t = s.setFile fd ⟨node, o⟩ ⟨bytes, start⟩)
      (s.setFile fd ⟨node, o⟩ ⟨bytes, start⟩) :=
    ⟨here start, here start, rfl, rfl⟩
  have unsought : (kernel (.lseek (-1) 0 0) (s.setFile fd ⟨node, o⟩ ⟨bytes, off⟩)).2 =
    s.setFile fd ⟨node, o⟩ ⟨bytes, off⟩ := rfl
  have unclosed : (kernel (.close (-1)) (s.setFile fd ⟨node, o⟩ ⟨bytes.take start, start⟩)).2 =
    s.setFile fd ⟨node, o⟩ ⟨bytes.take start, start⟩ := rfl
  have name : (s.setFile fd ⟨node, o⟩ ⟨bytes.take start, start⟩).disk.name (.temp file) = some m :=
    named
  rw [lseek, always_perform_bind, lseek, always_perform_bind, unsought, lseek_setFile, sought,
    always_bind]
  refine ⟨here off, here off, unread.mono (fun _ stored => stored) ?_⟩
  rintro _ _ - ⟨rfl, rfl⟩
  rw [lseek, always_perform_bind, lseek_setFile, sought, trim, always_perform_bind, trim_setFile,
    trimmed, close, always_perform_bind, unclosed, unlink, always_perform_bind, always_pure]
  refine ⟨here start, here start, after, after, ?_⟩
  simp only [kernel, name]
  exact ⟨after, trivial, State.content_setFile _, update_self _ _ _⟩

/-- A call with no descriptor for the temporary file. -/
theorem changeline_without {start old next off : ℕ} (place : next = start + old + 1)
    (opens : Opens s fd node off) (full : s.task.fdalloc = none)
    (content : s.disk.node node = bytes) (inside : start + old ≤ bytes.length)
    (small : bytes.length ≤ MAXFILE * BSIZE) (kept : K bytes) (cut : K (bytes.take start)) :
    always kernel (fun s => K (s.disk.node node)) (changeline fd line file next old)
      (fun a t => a = start + line.length + 1 ∧ t.disk.node node = bytes.take start ∧
        t.disk.name (.temp file) = none) s := by
  have limit : MAXFILE * BSIZE + 2 < 2 ^ 32 := by decide
  have newsize : (next : ℤ) - old - 1 = start := by omega
  obtain ⟨u, m, opened, opens', content', named⟩ := @open_without s fd node file off opens full
  have here : ∀ off', K ((u.setFile fd ⟨node, off⟩ ⟨bytes, off'⟩).disk.node node) :=
    fun _ => State.stored_setFile kept
  have sought : kernel (.lseek fd next 0) u = (0, u.setFile fd ⟨node, off⟩ ⟨bytes, next⟩) := by
    have calls := @lseek_setFile u fd node off ⟨u.disk.node node, off⟩ next 0
    rwa [← opens'.setFile, seek_eq (Int.natCast_nonneg _) (by omega), Int.toNat_natCast, content',
      content] at calls
  obtain ⟨⟨n, buf⟩, off', later, got⟩ : ∃ r off', next ≤ off' ∧
      OpenFile.read ⟨bytes, next⟩ BUFSIZE = (r, ⟨bytes, off'⟩) :=
    ⟨_, _, OpenFile.le_read_off ⟨bytes, next⟩ BUFSIZE,
      Prod.ext rfl (congrArg₂ OpenFile.mk (OpenFile.read_bytes _ _) rfl)⟩
  have rest : always kernel (fun s => K (s.disk.node node)) (copyRest fd (-1) ROUNDS (n, buf))
      (fun _ t => ∃ off', t = u.setFile fd ⟨node, off⟩ ⟨bytes, off'⟩)
      (u.setFile fd ⟨node, off⟩ ⟨bytes, off'⟩) := by
    refine copyRest_without kept ⟨by decide, fun _ => ?_⟩
    have some : 0 < MAXFILE * BSIZE := by decide
    rw [ROUNDS]
    omega
  have second : always kernel (fun s => K (s.disk.node node)) (do
      copyRest fd (-1) ROUNDS (n, buf)
      let _ ← lseek (-1) 0 0
      let _ ← lseek fd start 0
      let size ← writeBack fd (-1) ROUNDS start
      let _ ← lseek fd size 0
      let _ ← trim fd
      let _ ← close (-1)
      let _ ← unlink (.temp file)
      pure ((start : ℤ) + line.length + 1)) (fun a t => a = start + line.length + 1 ∧
        t.disk.node node = bytes.take start ∧ t.disk.name (.temp file) = none)
      (u.setFile fd ⟨node, off⟩ ⟨bytes, off'⟩) := by
    rw [always_bind]
    apply rest.mono (fun _ stored => stored)
    rintro _ _ - ⟨off'', rfl⟩
    exact changeline_second_without kept cut (by omega) small named off'' _
  rw [changeline, sysOpen, always_perform_bind, opened, newsize, lseek, always_perform_bind, sought,
    read, always_perform_bind, read_setFile, got]
  refine ⟨content ▸ kept, content'.trans content ▸ kept, here next, here off', ?_⟩
  by_cases more : 0 < n
  · rw [if_pos more]
    exact ⟨here off', second⟩
  · rwa [if_neg more]

end Without

/-! ## Lists of lines -/

/-- A process has an account file open that consists of these lines, with a newline between any two
of them and none at the end. -/
structure HasLines (s : State) (fd node off : ℕ) (lines : List Bytes) : Prop
    extends Opens s fd node off where
  content : s.disk.node node = join newline lines
  size : (join newline lines).length ≤ MAXFILE * BSIZE
  nonempty : lines ≠ []
  ended : ∀ last ∈ lines.getLast?, last ≠ []

/-- `addline` adds a line to the list. -/
def AppendsLine (s : State) (fd node : ℕ) (lines : List Bytes) (line : Bytes) : Prop :=
  ∃ t, run kernel (addline fd line) s = some (0, t) ∧
    t.disk.node node = join newline (lines ++ [line])

/-- `changeline`, with the offset that `getline` leaves after the line `old` and with its length,
replaces that line of the list. It leaves the offset after the new line. -/
def ReplacesLine (s : State) (fd node : ℕ) (file : Account) (pre : List Bytes) (old : Bytes)
    (post : List Bytes) (line : Bytes) : Prop :=
  ∃ t, run kernel (changeline fd line file (closed newline (pre ++ [old])).length old.length) s =
      some (((closed newline (pre ++ [line])).length : ℤ), t) ∧
    t.disk.node node = join newline (pre ++ line :: post) ∧ t.disk.name (.temp file) = none

section ListEdits

variable {s : State} {fd node off : ℕ} {lines pre post : List Bytes} {old line : Bytes}
  {file : Account}

theorem join_eq_nil_iff (ended : ∀ last ∈ post.getLast?, last ≠ []) :
    join newline post = [] ↔ post = [] := by
  rcases post with _ | ⟨first, _ | ⟨second, rest⟩⟩
  · simp
  · have last : first ≠ [] := ended first rfl
    simp [last]
  · simp

theorem HasLines.ended_after (has : HasLines s fd node off (pre ++ old :: post)) :
    ∀ last ∈ post.getLast?, last ≠ [] := by
  intro last isLast
  apply has.ended last
  rw [List.getLast?_append, List.getLast?_cons, Option.mem_def.mp isLast]
  rfl

/-- What is copied behind the new line are the lines after the old one. -/
theorem rewritten_lines (ended : ∀ last ∈ post.getLast?, last ≠ []) :
    rewritten line (join newline (pre ++ old :: post)) (closed newline (pre ++ [old])).length =
      join newline (line :: post) := by
  have rest : (join newline (pre ++ old :: post)).drop (closed newline (pre ++ [old])).length =
      join newline post := by
    have place : (closed newline (pre ++ [old])).length =
        (closed newline pre).length + (old.length + 1) := by simp
    rw [place, ← drop_drop, join_append_cons, drop_left, drop_join]
  rw [rewritten, rest]
  by_cases none : post = []
  · subst none
    simp
  · obtain ⟨next, later, rfl⟩ := exists_cons_of_ne_nil none
    rw [if_neg (mt (join_eq_nil_iff ended).mp none), join_cons_cons]

theorem HasLines.inside (has : HasLines s fd node off (pre ++ old :: post)) :
    (closed newline pre).length + old.length ≤ (s.disk.node node).length := by
  rw [has.content, join_append_cons]
  cases post with
  | nil => simp
  | cons next later => simp

theorem length_closed_concat :
    ((closed newline (pre ++ [line])).length : ℤ) = (closed newline pre).length + line.length + 1 := by
  simp [add_assoc]

theorem HasLines.small (has : HasLines s fd node off lines) :
    (s.disk.node node).length ≤ MAXFILE * BSIZE := by
  rw [has.content]
  exact has.size

section

variable (has : HasLines s fd node off (pre ++ old :: post))
include has

/-- What stands before the line. -/
theorem HasLines.before :
    (s.disk.node node).take (closed newline pre).length = closed newline pre := by
  rw [has.content, join_append_cons, take_left]

/-- A call of `changeline` with a temporary file. -/
theorem HasLines.changeline_ends {fdtemp : ℕ} (absent : s.disk.name (.temp file) = none)
    (fits : (join newline (pre ++ line :: post)).length ≤ MAXFILE * BSIZE)
    (free : s.task.fdalloc = some fdtemp) :
    Ends (changeline fd line file (closed newline (pre ++ [old])).length old.length) (fun a t =>
      a = (closed newline pre).length + line.length + 1 ∧
        t = (has.toOpens.edit free file).finished file
          ⟨(s.disk.node node).take (closed newline pre).length ++ join newline (line :: post),
            (closed newline pre).length + (join newline (line :: post)).length⟩
          ⟨join newline (line :: post), (join newline (line :: post)).length⟩) s := by
  have copied : join newline (line :: post) =
      rewritten line (s.disk.node node) (closed newline (pre ++ [old])).length := by
    rw [has.content, rewritten_lines has.ended_after]
  have place : (closed newline (pre ++ [old])).length =
      (closed newline pre).length + old.length + 1 := by simp [Nat.add_assoc]
  exact has.toOpens.changeline free absent place has.inside has.small
    (by rwa [join_append_cons, length_append] at fits) copied

/-- With a temporary file, the line is replaced. -/
theorem HasLines.replacesLine (absent : s.disk.name (.temp file) = none)
    (fits : (join newline (pre ++ line :: post)).length ≤ MAXFILE * BSIZE)
    (room : s.task.fdalloc ≠ none) : ReplacesLine s fd node file pre old post line := by
  obtain ⟨fdtemp, free⟩ := Option.ne_none_iff_exists'.mp room
  obtain ⟨a, t, ran, rfl, rfl⟩ := always_true_iff.mp (has.changeline_ends absent fits free)
  rw [← length_closed_concat] at ran
  refine ⟨_, ran, ?_, ?_⟩
  · apply (Edit.content_finished _ _ _ file).trans
    rw [has.before, join_append_cons]
  · simp [Edit.finished]

end

theorem closed_eq_join_iff :
    closed newline pre = join newline (pre ++ line :: post) ↔ line = [] ∧ post = [] := by
  rw [join_append_cons]
  cases post <;> simp

/-- Without a descriptor for it, the line and what follows are lost. -/
theorem HasLines.replacesLine_without (has : HasLines s fd node off (pre ++ old :: post))
    (full : s.task.fdalloc = none) :
    ReplacesLine s fd node file pre old post line ↔ line = [] ∧ post = [] := by
  have ends := @changeline_without s fd node (fun _ => True) (s.disk.node node) line file
    (closed newline pre).length old.length (closed newline (pre ++ [old])).length off
    (by simp [Nat.add_assoc]) has.toOpens full rfl has.inside has.small
    trivial trivial
  obtain ⟨a, t, ran, rfl, cut, gone⟩ := always_true_iff.mp ends
  rw [← length_closed_concat] at ran
  rw [has.before] at cut
  rw [← closed_eq_join_iff]
  constructor
  · rintro ⟨t', ran', new, -⟩
    obtain rfl := (Prod.mk.inj (Option.some.inj (ran.symm.trans ran'))).2
    exact cut.symm.trans new
  · intro same
    exact ⟨t, ran, cut.trans same, gone⟩

/-- No program makes a file of text that is too large. -/
theorem HasLines.fits_of_run {α : Type} {p : P α} {a : α} {t : State}
    (has : HasLines s fd node off lines) (ran : run kernel p s = some (a, t))
    (new : t.disk.node node = join newline (pre ++ line :: post))
    (text : 0 ∉ join newline (pre ++ line :: post)) :
    (join newline (pre ++ line :: post)).length ≤ MAXFILE * BSIZE := by
  have bounded : Bounded (t.disk.node node) :=
    run_invariant (fun c s => kernel_bounded c s node) ran
      (bounded_of_le has.small)
  rw [new] at bounded
  by_contra large
  obtain ⟨b, rest, shape⟩ := exists_cons_of_ne_nil
    (mt List.drop_eq_nil_iff.mp large)
  have first : b ∈ (join newline (pre ++ line :: post)).drop (MAXFILE * BSIZE) := by simp [shape]
  rw [bounded b first] at first
  exact text (mem_of_mem_drop first)

end ListEdits

/-- A process with a file of the lines `a` and `b`, and with other files. -/
def twoLines (files : ℕ → Option Descriptor) : State where
  disk := ⟨fun _ => [97, newline, 98], fun _ => none, 1, fun _ => false⟩
  task := ⟨update files 0 (some ⟨0, 0⟩), 0⟩

theorem twoLines_hasLines (files : ℕ → Option Descriptor) :
    HasLines (twoLines files) 0 0 0 [[97], [98]] where
  descriptor := by simp [twoLines]
  used := Nat.zero_lt_one
  content := rfl
  size := by decide
  nonempty := by decide
  ended := by simp

end Xv6Uac.Accounts
