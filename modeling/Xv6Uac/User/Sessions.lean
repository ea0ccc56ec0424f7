import Xv6Uac.User.Find
import Xv6Uac.User.LineEdits

/-!
# An account file in use

A program that has an account file open searches it, adds lines and replaces lines. `InUse` is what
it needs for that, and each of the three keeps it (`InUse.find`, `InUse.append`, `InUse.change`).
`Touches` is what it leaves alone: the names, the other files and the other descriptors. A program
that closes the file again has touched nothing but its contents (`Touches.close`).
-/

namespace Xv6Uac.Accounts

open Programs Separated List
open Function (update update_comm update_eq_self_iff update_idem update_of_ne update_self)

/-- What a function returns when it cannot open the file. -/
abbrev NOPERMS : ℤ := -1000

/-! ## What is left alone -/

/-- From `s` to `t` nothing happened but to the contents of one file and to the offset of one
descriptor for it. Files that are not in use do not count. -/
structure Touches (fd node : ℕ) (s t : State) : Prop where
  ofile : ∃ off, t.task.ofile = update s.task.ofile fd (some ⟨node, off⟩)
  uid : t.task.uid = s.task.uid
  name : t.disk.name = s.disk.name
  isDir : t.disk.isDir = s.disk.isDir
  others : ∀ n < s.disk.next, n ≠ node → t.disk.node n = s.disk.node n
  next : s.disk.next ≤ t.disk.next

section Touches

variable {s t u : State} {fd node off : ℕ}

theorem Touches.trans (first : Touches fd node s t) (second : Touches fd node t u) :
    Touches fd node s u where
  ofile := by
    obtain ⟨_, files⟩ := first.ofile
    obtain ⟨off, files'⟩ := second.ofile
    exact ⟨off, by rw [files', files, update_idem]⟩
  uid := second.uid.trans first.uid
  name := second.name.trans first.name
  isDir := second.isDir.trans first.isDir
  others n used other :=
    (second.others n (used.trans_le first.next) other).trans (first.others n used other)
  next := first.next.trans second.next

theorem Touches.opens (touches : Touches fd node s t) (used : node < s.disk.next) :
    ∃ off, Opens t fd node off := by
  obtain ⟨off, files⟩ := touches.ofile
  exact ⟨off, by rw [files, update_self], used.trans_le touches.next⟩

/-- The descriptors in use are the same. -/
theorem Touches.fdalloc (touches : Touches fd node s t) (opens : Opens s fd node off) :
    t.task.fdalloc = s.task.fdalloc := by
  obtain ⟨off', files⟩ := touches.ofile
  have same : (fun n => (t.task.ofile n).isNone) = fun n => (s.task.ofile n).isNone := by
    funext n
    rw [files]
    by_cases here : n = fd
    · rw [here, update_self, opens.descriptor]
      rfl
    · rw [update_of_ne here]
  rw [Task.fdalloc, Task.fdalloc, same]

theorem seekTo_touches (s : State) (fd node off : ℕ) : Touches fd node s (s.seekTo fd node off) :=
  ⟨⟨off, rfl⟩, rfl, rfl, rfl, fun _ _ _ => rfl, le_rfl⟩

theorem setFile_touches (s : State) (fd node off : ℕ) (f : OpenFile) :
    Touches fd node s (s.setFile fd ⟨node, off⟩ f) :=
  ⟨⟨f.off, rfl⟩, rfl, rfl, rfl, fun _ _ other => update_of_ne other _ _, le_rfl⟩

/-- Opening an account file that is there. -/
theorem open_account {file : Account} (named : s.disk.name (.account file) = some node)
    (free : s.task.fdalloc = some fd) :
    kernel (.open (.account file) false) s = ((fd : ℤ), s.seekTo fd node 0) := by
  simp only [kernel, named, State.open, free]
  rfl

/-- Closing the file leaves what was done to its contents. -/
theorem Touches.close (touches : Touches fd node s t) (unused : s.task.ofile fd = none) :
    kernel (.close fd) t = ((0 : ℤ), { t with task := s.task }) := by
  obtain ⟨off, files⟩ := touches.ofile
  have descriptor : t.task.descriptor fd = some ⟨node, off⟩ := by
    simp [Task.descriptor, files]
  have restored : update t.task.ofile fd none = s.task.ofile := by
    rw [files, update_idem]
    exact update_eq_self_iff.mpr unused.symm
  simp only [kernel, descriptor, Int.toNat_natCast, restored]
  rw [show (⟨s.task.ofile, t.task.uid⟩ : Task) = s.task by rw [touches.uid]]

theorem Opens.touches (opens : Opens s fd node off) : Touches fd node s s :=
  ⟨⟨off, by simp [← opens.descriptor]⟩, rfl, rfl, rfl, fun _ _ _ => rfl, le_rfl⟩

/-- A state in which a file is open is one in which an offset was set. -/
theorem Opens.seekTo (opens : Opens s fd node off) : s = s.seekTo fd node off := by
  simp [State.seekTo, ← opens.descriptor]

end Touches

/-- From `s` to `t` nothing happened but to the contents of one file. Files that are not in use do
not count. -/
structure Leaves (node : ℕ) (s t : State) : Prop where
  task : t.task = s.task
  name : t.disk.name = s.disk.name
  isDir : t.disk.isDir = s.disk.isDir
  others : ∀ n < s.disk.next, n ≠ node → t.disk.node n = s.disk.node n
  next : s.disk.next ≤ t.disk.next

/-- A file that was opened and closed again. -/
theorem Touches.leaves {s t : State} {fd node : ℕ} (touches : Touches fd node s t) :
    Leaves node s { t with task := s.task } where
  task := rfl
  name := touches.name
  isDir := touches.isDir
  others := touches.others
  next := touches.next

/-! ## Free descriptors -/

/-- How many files the process can still open. -/
def Task.free (t : Task) : ℕ := ((Finset.range NOFILE).filter fun fd => t.ofile fd = none).card

section Free

variable {s t : State} {fd node off : ℕ}

theorem fdalloc_ne_none_iff : s.task.fdalloc ≠ none ↔ 0 < s.task.free := by
  rw [Task.free, Task.fdalloc]
  simp [Finset.Nonempty]

theorem fdalloc_lt (free : s.task.fdalloc = some fd) : fd < NOFILE :=
  List.mem_range.mp (mem_of_find?_eq_some free)

/-- A file that is opened takes one descriptor. -/
theorem free_seekTo (free : s.task.fdalloc = some fd) :
    (s.seekTo fd node off).task.free + 1 = s.task.free := by
  have here : fd ∈ (Finset.range NOFILE).filter fun fd => s.task.ofile fd = none :=
    Finset.mem_filter.mpr ⟨Finset.mem_range.mpr (fdalloc_lt free), fdalloc_free free⟩
  have fewer : ((Finset.range NOFILE).filter fun n => (s.seekTo fd node off).task.ofile n = none) =
      ((Finset.range NOFILE).filter fun fd => s.task.ofile fd = none).erase fd := by
    ext n
    rw [Finset.mem_filter]
    by_cases same : n = fd
    · simp [State.seekTo, same]
    · simp [State.seekTo, same]
  rw [Task.free, Task.free, fewer, Finset.card_erase_add_one here]

end Free

/-! ## Lines of a file in use -/

/-- An account file that consists of these lines, with a newline between any two of them and none
at the end. There is no temporary file left over. -/
structure Stored (s : State) (file : Account) (node : ℕ) (lines : List Bytes) : Prop where
  named : s.disk.name (.account file) = some node
  used : node < s.disk.next
  content : s.disk.node node = join newline lines
  size : (join newline lines).length ≤ MAXFILE * BSIZE
  ended : ∀ last ∈ lines.getLast?, last ≠ []
  absent : s.disk.name (.temp file) = none

/-- A process has an account file open that consists of these lines, with a newline between any two
of them and none at the end. There is no temporary file left over, and there is a descriptor for
one. -/
structure InUse (s : State) (fd node : ℕ) (file : Account) (lines : List Bytes) : Prop where
  opens : ∃ off, Opens s fd node off
  content : s.disk.node node = join newline lines
  size : (join newline lines).length ≤ MAXFILE * BSIZE
  ended : ∀ last ∈ lines.getLast?, last ≠ []
  absent : s.disk.name (.temp file) = none
  room : s.task.fdalloc ≠ none

section InUse

variable {s t : State} {fd node : ℕ} {file : Account} {lines pre post : List Bytes}
  {old line : Bytes} {α : Type} {parse : Bytes → Option α} {wanted : α → Bool}
  {left : ℕ → Leftover} {entries : List (Bytes × α)}

theorem InUse.used (inUse : InUse s fd node file lines) : node < s.disk.next := by
  obtain ⟨off, opens⟩ := inUse.opens
  exact opens.used

theorem InUse.hasLines (inUse : InUse s fd node file lines) (some : lines ≠ []) :
    ∃ off, HasLines s fd node off lines := by
  obtain ⟨off, opens⟩ := inUse.opens
  exact ⟨off, opens, inUse.content, inUse.size, some, inUse.ended⟩

/-- The file is opened. -/
theorem Stored.inUse (stored : Stored s file node lines) (free : s.task.fdalloc = some fd)
    (two : 2 ≤ s.task.free) : InUse (s.seekTo fd node 0) fd node file lines where
  opens := (seekTo_touches s fd node 0).opens stored.used
  content := stored.content
  size := stored.size
  ended := stored.ended
  absent := stored.absent
  room := by
    have taken := @free_seekTo s fd node 0 free
    rw [fdalloc_ne_none_iff]
    omega

/-- The file is closed. -/
theorem Stored.changed (stored : Stored s file node lines) (leaves : Leaves node s t)
    {lines' : List Bytes} (content : t.disk.node node = join newline lines')
    (size : (join newline lines').length ≤ MAXFILE * BSIZE)
    (ended : ∀ last ∈ lines'.getLast?, last ≠ []) : Stored t file node lines' where
  named := by rw [leaves.name, stored.named]
  used := stored.used.trans_le leaves.next
  content := content
  size := size
  ended := ended
  absent := by rw [leaves.name, stored.absent]

/-- New contents of the file. -/
theorem InUse.touched (inUse : InUse s fd node file lines) (touches : Touches fd node s t)
    {lines' : List Bytes} (content : t.disk.node node = join newline lines')
    (size : (join newline lines').length ≤ MAXFILE * BSIZE)
    (ended : ∀ last ∈ lines'.getLast?, last ≠ []) : InUse t fd node file lines' where
  opens := touches.opens inUse.used
  content := content
  size := size
  ended := ended
  absent := by rw [touches.name, inUse.absent]
  room := by
    obtain ⟨off, opens⟩ := inUse.opens
    rw [touches.fdalloc opens]
    exact inUse.room

/-- The contents are as before. -/
theorem InUse.kept (inUse : InUse s fd node file lines) (touches : Touches fd node s t)
    (same : t.disk.node node = s.disk.node node) : InUse t fd node file lines :=
  inUse.touched touches (same.trans inUse.content) inUse.size inUse.ended

/-- The lines of the file. -/
theorem split_lines (free : ∀ line ∈ lines, newline ∉ line)
    (ended : ∀ last ∈ lines.getLast?, last ≠ []) : split newline (join newline lines) = lines := by
  rcases eq_nil_or_concat lines with rfl | ⟨front, last, rfl⟩
  · rw [join_nil, split_nil]
  · rw [concat_eq_append] at *
    exact split_join (fun a member => free a (mem_append_left _ member))
      (free last (by simp)) (ended last (by simp))

/-- A search from the start of the file. -/
theorem InUse.find (inUse : InUse s fd node file (entries.map Prod.fst))
    (free : ∀ line ∈ entries.map Prod.fst, newline ∉ line)
    (quiet : Quiet left (entries.map Prod.fst)) (parsed : Parsed parse entries)
    (record : Option α) :
    Ends (findRecord parse wanted left fd ROUNDS 0 record 0) (fun r t =>
      r = seek wanted record 0 entries ∧ Touches fd node s t ∧
        InUse t fd node file (entries.map Prod.fst)) s := by
  obtain ⟨off, opens⟩ := inUse.opens
  have lines : split newline ((s.disk.node node).drop (0 : ℤ).toNat) = entries.map Prod.fst := by
    rw [Int.toNat_zero, drop_zero, inUse.content, split_lines free inUse.ended]
  have small : (s.disk.node node).length ≤ MAXFILE * BSIZE := by
    rw [inUse.content]
    exact inUse.size
  have enough : entries.length < ROUNDS := by
    have most := @length_split_le _ newline _ _ (s.disk.node node)
    rw [Int.toNat_zero, drop_zero] at lines
    rw [lines, length_map] at most
    rw [ROUNDS]
    omega
  have spec := @findRecord_spec α parse wanted left s fd 0 node _ entries (Int.natCast_nonneg fd)
    rfl small quiet parsed le_rfl (by omega) lines ROUNDS enough 0 record off
  rw [← opens.seekTo] at spec
  apply spec.mono (fun _ => id)
  rintro r _ - ⟨rfl, off', rfl⟩
  exact ⟨rfl, seekTo_touches s fd node off', inUse.kept (seekTo_touches s fd node off') rfl⟩

/-- The line at the start of the file. -/
theorem InUse.getline {stack : Stack} {offset : ℤ} (inUse : InUse s fd node file lines)
    (quiet : stack.first ≠ newline)
    (short : (lineAt (join newline lines) offset.toNat).length < BUFSIZE) (least : 0 ≤ offset)
    (most : offset < 2 ^ 32) :
    Ends (getline stack fd offset) (fun r t =>
      (r = none ↔ (join newline lines).length ≤ offset.toNat) ∧ Touches fd node s t ∧
        InUse t fd node file lines) s := by
  obtain ⟨off, opens⟩ := inUse.opens
  have spec := @getline_spec stack s fd node off _ offset (Int.natCast_nonneg fd) quiet (.inr short)
    inUse.content inUse.size least most
  rw [← opens.seekTo] at spec
  apply spec.mono (fun _ => id)
  rintro _ _ - ⟨rfl, off', rfl⟩
  refine ⟨?_, seekTo_touches s fd node off', inUse.kept (seekTo_touches s fd node off') rfl⟩
  split <;> simp [*]

/-- Another offset does not matter. -/
theorem InUse.lseek (inUse : InUse s fd node file lines) (offset whence : ℤ) :
    Touches fd node s (kernel (.lseek fd offset whence) s).2 ∧
      InUse (kernel (.lseek fd offset whence) s).2 fd node file lines := by
  obtain ⟨off, opens⟩ := inUse.opens
  have moved := @lseek_setFile s fd node off ⟨s.disk.node node, off⟩ offset whence
  rw [← opens.setFile] at moved
  rw [moved]
  refine ⟨setFile_touches _ _ _ _ _, inUse.kept (setFile_touches _ _ _ _ _) ?_⟩
  rw [State.content_setFile, OpenFile.seek]

/-- `changeline` leaves the names and the other files and descriptors alone. -/
theorem finished_touches {off fdtemp : ℕ} (opens : Opens s fd node off)
    (free : s.task.fdalloc = some fdtemp) (absent : s.disk.name (.temp file) = none)
    (a b : OpenFile) : Touches fd node s ((opens.edit free file).finished file a b) where
  ofile := by
    refine ⟨a.off, ?_⟩
    have unused : update s.task.ofile fdtemp none = s.task.ofile :=
      update_eq_self_iff.mpr (fdalloc_free free).symm
    simp only [Edit.finished, Edit.state, Opens.edit]
    rw [update_idem, update_comm (opens.distinct free), unused]
  uid := rfl
  name := by
    simp only [Edit.finished, Opens.edit, Disk.create]
    rw [update_idem]
    exact update_eq_self_iff.mpr absent.symm
  isDir := rfl
  others n used other := by
    simp [Edit.finished, Edit.state, Opens.edit, Disk.create, used.ne, other]
  next := Nat.le_succ _

/-- `changeline` replaces a line of the list. -/
theorem InUse.change (inUse : InUse s fd node file (pre ++ old :: post)) (nonempty : line ≠ [])
    (fits : (join newline (pre ++ line :: post)).length ≤ MAXFILE * BSIZE) :
    Ends (changeline fd line file (closed newline (pre ++ [old])).length old.length) (fun _ t =>
      Touches fd node s t ∧ InUse t fd node file (pre ++ line :: post)) s := by
  obtain ⟨off, has⟩ := inUse.hasLines (by simp)
  obtain ⟨fdtemp, free⟩ := Option.ne_none_iff_exists'.mp inUse.room
  apply (has.changeline_ends inUse.absent fits free).mono (fun _ => id)
  rintro _ t - ⟨rfl, rfl⟩
  have touches := finished_touches has.toOpens free inUse.absent
  refine ⟨touches _ _, inUse.touched (touches _ _) ?_ fits fun last isLast => ?_⟩
  · apply (Edit.content_finished _ _ _ file).trans
    rw [has.before, join_append_cons]
  · rcases eq_nil_or_concat post with rfl | ⟨front, final, rfl⟩
    · rw [List.getLast?_concat, Option.mem_some] at isLast
      exact isLast ▸ nonempty
    · apply inUse.ended last
      rw [concat_eq_append, ← cons_append, ← append_assoc,
        List.getLast?_concat] at isLast ⊢
      exact isLast

end InUse

end Xv6Uac.Accounts
