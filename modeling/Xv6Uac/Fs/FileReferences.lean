import Xv6Uac.Fs.FileCounts
import Xv6Uac.Kernel.SmallImage

/-!
# The calls keep the references to files

Each function of `file.c` and `sysfile.c` with what it does to the references that the call
has. A call begins and ends with none.
-/

namespace Xv6Uac

open Words Hoare SmallImage

variable {cfg : Config} {δ : ℕ → ℤ} {s t : Kernel} {p fd f q : ℕ}

/-! ## In a call -/

/-- A running process is in a call that has `δ` references. -/
structure InCall (δ : ℕ → ℤ) (s : Kernel) : Prop where
  counted : Counted δ s
  cur : s.cur < NPROC
  runs : (s.proc s.cur).state = .runnable

theorem add_single_of_sub_one {a b : ℤ} (less : a = b - 1) :
    δ + Pi.single f (a - b) = δ - Pi.single f 1 := by
  funext g
  simp only [Pi.add_apply, Pi.sub_apply, Pi.single_apply]
  split <;> omega

namespace InCall

/-- Files, pipes and processes stay. -/
theorem apart (call : InCall δ s) (outside : Outside s t) (pipes : t.pipes = s.pipes)
    (npipe : t.npipe = s.npipe) : InCall δ t where
  counted := call.counted.congr (fun _ => by rw [outside.proc])
    (fun _ idle => .inl (by rwa [outside.proc] at idle))
    (fun _ => by rw [outside.ftable]; exact ⟨rfl, rfl, rfl, rfl⟩) (fun _ _ => by rw [pipes]) npipe
  cur := outside.cur ▸ call.cur
  runs := by
    rw [outside.proc, outside.cur]
    exact call.runs

theorem busy (call : InCall δ s) : ¬(s.proc s.cur).Idle := by
  rw [Proc.Idle, call.runs]
  decide

/-- Reading and writing changes no references. -/
theorem fileFrame (δ : ℕ → ℤ) : FileFrame (InCall δ) where
  toFsFrame := .of_outside apart
  fresh _ _ _ call _ := call.apart ⟨rfl, rfl, rfl⟩ rfl rfl
  touch _ _ _ call file pipes :=
    ⟨call.counted.congr (fun _ => rfl) (fun _ => .inl) file pipes rfl, call.cur, call.runs⟩

/-- The file system changes neither files nor processes. -/
theorem fsFrame (δ : ℕ → ℤ) (s : Kernel) : FsFrame fun t => InCall δ t ∧ Outside s t :=
  .of_outside fun ⟨call, before⟩ outside pipes npipe =>
    ⟨call.apart outside pipes npipe, before.trans outside⟩

/-- A change of a file that leaves it the end of a pipe that it is. -/
theorem modifyFile {change : File → File} (call : InCall δ s)
    (ends : ∀ q w, (change (s.ftable f)).IsEnd q w ↔ (s.ftable f).IsEnd q w)
    (typed : (change (s.ftable f)).ref = 0 → (change (s.ftable f)).type = .none) :
    wp (fun _ => True) (modifyFile f change)
      (fun _ t => InCall (δ + Pi.single f ((change (s.ftable f)).ref - (s.ftable f).ref)) t ∧
        t.proc = s.proc ∧ t.cur = s.cur ∧
        t.ftable = Function.update s.ftable f (change (s.ftable f))) s :=
  ⟨⟨call.counted.setFile f _ ends typed, call.cur, call.runs⟩, rfl, rfl, rfl⟩

/-! ## `file.c` -/

section

variable (call : InCall δ s)
include call

theorem filealloc :
    wp (fun _ => True) filealloc (fun new t => match new with
      | none => InCall δ t
      | some f => f < NFILE ∧ InCall (δ + Pi.single f 1) t ∧ (t.ftable f).type = .none ∧
          (t.ftable f).ref = 1 ∧ (s.ftable f).ref = 0 ∧ ∀ g, g ≠ f → t.ftable g = s.ftable g) s := by
  rw [Xv6Uac.filealloc, wp_read]
  split
  · exact call
  · rename_i f found
    have free := List.find?_some found
    have free : (s.ftable f).ref = 0 := of_decide_eq_true free
    have none := call.counted.typed free
    apply (call.modifyFile (fun _ _ => Iff.rfl) (by simp)).seq
    rintro _ t ⟨after, -, -, ftable⟩
    refine ⟨List.mem_range.mp (List.mem_of_find?_eq_some found), ?_, ?_, ?_, free, fun g other => ?_⟩
    · simpa [free] using after
    · simpa [ftable] using none
    · simp [ftable]
    · rw [ftable, Function.update_of_ne other]

theorem filedup (f : ℕ) :
    wp (fun _ => True) (filedup f)
      (fun _ t => InCall (δ + Pi.single f 1) t ∧ t.proc = s.proc ∧ t.cur = s.cur) s := by
  rw [Xv6Uac.filedup, wp_read]
  refine wp.ite (fun _ => trivial) fun used => ?_
  have typed : (s.ftable f).ref + 1 = 0 → (s.ftable f).type = .none := fun none => by omega
  apply (call.modifyFile (fun _ _ => Iff.rfl) typed).mono
  rintro _ t ⟨after, proc, cur, -⟩
  refine ⟨?_, proc, cur⟩
  simpa using after

/-- The last reference is given up. -/
theorem fileRelease (last : (s.ftable f).ref = 1) :
    wp (fun _ => True) (fileRelease cfg (s.ftable f))
      (fun _ t => InCall (δ - Pi.single f 1) t ∧ t.proc = s.proc ∧ t.cur = s.cur)
      { s with ftable := Function.update s.ftable f { s.ftable f with ref := 0, type := .none } } := by
  have plain : (s.ftable f).type ≠ .pipe → InCall (δ - Pi.single f 1)
      { s with
        ftable := Function.update s.ftable f { s.ftable f with ref := 0, type := .none } } := by
    intro plain
    have set := call.counted.setFile f { s.ftable f with ref := 0, type := .none }
      (fun q w => by simp [File.IsEnd, plain]) fun _ => rfl
    rw [add_single_of_sub_one (by rw [last]; rfl)] at set
    exact ⟨set, call.cur, call.runs⟩
  rw [Xv6Uac.fileRelease]
  split
  · rename_i p type pipe
    refine ⟨⟨call.counted.closeEnd last ⟨type, pipe, rfl⟩ ?_ ?_, call.cur, call.runs⟩, rfl, rfl⟩
    · cases (s.ftable f).writable <;> rfl
    · cases (s.ftable f).writable <;> rfl
  · rename_i k type _
    have frame := fsFrame (δ - Pi.single f 1)
      { s with ftable := Function.update s.ftable f { s.ftable f with ref := 0, type := .none } }
    have kept : Keeps _ (do beginOp; iput cfg k; endOp) :=
      .bind frame.beginOp fun _ => .bind (frame.iput k) fun _ => frame.endOp
    refine (kept _ ⟨plain (by rw [type]; decide), .refl _⟩).mono fun _ t holds => ?_
    exact ⟨holds.1, holds.2.proc, holds.2.cur⟩
  · rename_i type
    exact ⟨plain (by rw [type]; decide), rfl, rfl⟩
  · trivial

theorem fileclose (f : ℕ) :
    wp (fun _ => True) (fileclose cfg f)
      (fun _ t => InCall (δ - Pi.single f 1) t ∧ t.proc = s.proc ∧ t.cur = s.cur) s := by
  rw [Xv6Uac.fileclose, wp_read]
  refine wp.ite (fun _ => trivial) fun used => ?_
  refine wp.ite (fun more => ?_) fun last => ?_
  · have typed : (s.ftable f).ref - 1 = 0 → (s.ftable f).type = .none := fun none => by omega
    apply (call.modifyFile (fun _ _ => Iff.rfl) typed).mono
    rintro _ t ⟨after, proc, cur, -⟩
    rw [add_single_of_sub_one rfl] at after
    exact ⟨after, proc, cur⟩
  · exact call.fileRelease (by omega)

theorem pipealloc (kalloc : Bool) :
    wp (fun _ => True) (pipealloc cfg kalloc) (fun made t => match made with
      | none => InCall δ t
      | some (rf, wf) => rf < NFILE ∧ wf < NFILE ∧
          InCall (δ + Pi.single rf 1 + Pi.single wf 1) t) s := by
  refine call.filealloc.seq fun first s₁ after => ?_
  cases first with
  | none => exact after
  | some f₀ =>
    obtain ⟨small₀, call₀, none₀, ref₀, -, -⟩ := after
    refine call₀.filealloc.seq fun second s₂ after => ?_
    cases second with
    | none =>
      refine (after.fileclose f₀).seq fun _ t closed => ?_
      rw [add_sub_cancel_right] at closed
      exact closed.1
    | some f₁ =>
      obtain ⟨small₁, call₁, none₁, ref₁, free₁, others⟩ := after
      have distinct : f₀ ≠ f₁ := by
        rintro rfl
        rw [ref₀] at free₁
        cases free₁
      have same := others f₀ distinct
      rw [← same] at none₀ ref₀
      cases kalloc with
      | true =>
        have made := call₁.counted.newPipe (a := { s₂.ftable f₀ with
            type := .pipe, readable := true, writable := false, pipe := some s₂.npipe })
          (b := { s₂.ftable f₁ with
            type := .pipe, readable := false, writable := true, pipe := some s₂.npipe })
          distinct (by simp [none₀]) (by simp [none₁]) ⟨rfl, rfl, rfl⟩ ⟨rfl, rfl, rfl⟩ rfl rfl
          (by simp [ref₀]) (by simp [ref₁])
        simp only [if_true, wp_bind, wp_gets, wp_update, Xv6Uac.modifyFile,
          Function.update_of_ne distinct.symm]
        exact ⟨small₀, small₁, made, call₁.cur, call₁.runs⟩
      | false =>
        simp only [Bool.false_eq_true, if_false, wp_bind]
        refine (call₁.fileclose f₀).mono fun _ u closed => ?_
        refine (closed.1.fileclose f₁).seq fun _ t closed => ?_
        rw [add_right_comm, add_sub_cancel_right, add_sub_cancel_right] at closed
        exact closed.1

theorem fdalloc (file : f < NFILE) :
    wp (fun _ => True) (fdalloc f) (fun new t => match new with
      | none => t = s
      | some fd => fd < NOFILE ∧ (t.proc t.cur).ofile fd = some f ∧
          InCall (δ - Pi.single f 1) t ∧ t.ftable = s.ftable ∧ t.cur = s.cur) s := by
  rw [Xv6Uac.fdalloc, wp_bind, myproc, wp_gets]
  split
  · rfl
  · rename_i fd found
    have inside := List.mem_range.mp (List.mem_of_find?_eq_some found)
    have free := List.find?_some found
    have free : (s.proc s.cur).ofile fd = none := Option.isNone_iff_eq_none.mp free
    have pointed := call.counted.point call.cur inside file free call.busy
    refine ⟨inside, ?_, ⟨pointed, call.cur, ?_⟩, rfl, rfl⟩
    · simp
    · have same := setOfile_state s s.cur fd (some f) s.cur
      exact same.trans call.runs

end

/-! ## Calls on descriptors -/

/-- A call on a descriptor that is open. -/
theorem withFile {m : ℕ → K ℤ} (call : InCall 0 s) (fd : ℤ)
    (each : ∀ f, (s.proc s.cur).ofile fd.toNat = some f →
      wp (fun _ => True) (m f) (fun _ t => Counted 0 t) s) :
    wp (fun _ => True) (do
      let file ← argfd fd
      match file with
      | none => pure (-1)
      | some f => m f) (fun _ t => Counted 0 t) s := by
  rw [argfd, wp_bind, wp_bind, myproc, wp_gets, wp_pure]
  split
  · exact call.counted
  · rename_i f found
    split at found
    · cases found
    · exact each f found

theorem sysDup (call : InCall 0 s) (fd : ℤ) :
    wp (fun _ => True) (sysDup fd) (fun _ t => Counted 0 t) s := by
  refine call.withFile fd fun f points => ?_
  refine (call.fdalloc (call.counted.bound points).2.2).seq fun new t after => ?_
  cases new with
  | none =>
    obtain rfl := after
    exact call.counted
  | some fd =>
    obtain ⟨-, -, after, -⟩ := after
    refine (after.filedup f).seq fun _ u done => ?_
    rw [sub_add_cancel] at done
    exact done.1.counted

theorem sysClose (call : InCall 0 s) (fd : ℤ) :
    wp (fun _ => True) (sysClose cfg fd) (fun _ t => Counted 0 t) s := by
  refine call.withFile fd fun f points => ?_
  have cleared : InCall (0 + Pi.single f 1) (s.setOfile s.cur fd.toNat none) :=
    ⟨call.counted.clear points, call.cur, (setOfile_state _ _ _ _ _).trans call.runs⟩
  rw [wp_bind]
  refine (cleared.fileclose f).seq fun _ t closed => ?_
  rw [add_sub_cancel_right] at closed
  exact closed.1.counted

theorem sysPipe (call : InCall 0 s) (kalloc : Bool) :
    wp (fun _ => True) (sysPipe cfg kalloc) (fun _ t => Counted 0 t) s := by
  refine (call.pipealloc kalloc).seq fun made s₁ after => ?_
  -- both ends are closed again if a descriptor is missing
  have undo : ∀ {u : Kernel} {rf wf : ℕ}, InCall (0 + Pi.single rf 1 + Pi.single wf 1) u →
      wp (fun _ => True) (do
        Xv6Uac.fileclose cfg rf
        Xv6Uac.fileclose cfg wf
        pure (-1)) (fun (_ : ℤ) t => Counted 0 t) u := by
    intro u rf wf call
    refine (call.fileclose rf).seq fun _ u closed => ?_
    refine (closed.1.fileclose wf).seq fun _ t closed => ?_
    rw [add_right_comm, add_sub_cancel_right, add_sub_cancel_right] at closed
    exact closed.1.counted
  match made with
  | none => exact after.counted
  | some (rf, wf) =>
    obtain ⟨smallRf, smallWf, both⟩ := after
    refine (both.fdalloc smallRf).seq fun first s₂ after => ?_
    cases first with
    | none =>
      obtain rfl := after
      exact undo both
    | some fd₀ =>
      obtain ⟨-, points, one, -, -⟩ := after
      refine (one.fdalloc smallWf).seq fun second s₃ after => ?_
      cases second with
      | none =>
        obtain rfl := after
        have cleared : InCall (0 + Pi.single rf 1 + Pi.single wf 1)
            (s₃.setOfile s₃.cur fd₀ none) := by
          have clear := one.counted.clear points
          rw [sub_add_cancel] at clear
          exact ⟨clear, one.cur, (setOfile_state _ _ _ _ _).trans one.runs⟩
        exact undo cleared
      | some fd₁ =>
        obtain ⟨-, -, none, -, -⟩ := after
        rw [add_right_comm, add_sub_cancel_right, add_sub_cancel_right] at none
        exact none.counted

/-! ## Open -/

theorem openFile (call : InCall 0 s) (ip : ℕ) (omode : BitVec 32) :
    wp (fun _ => True) (openFile cfg ip omode) (fun _ t => Counted 0 t) s := by
  have fails : ∀ {u : Kernel}, InCall 0 u →
      wp (fun _ => True) (do iunlockput cfg ip; endOp; pure (-1)) (fun (_ : ℤ) t => Counted 0 t) u :=
    fun call => ((fileFrame 0).putAndEnd ip _ _ call).mono fun _ _ after => after.counted
  refine call.filealloc.seq fun file s₁ after => ?_
  cases file with
  | none => exact fails after
  | some f =>
    obtain ⟨small, call₁, none, ref, -, -⟩ := after
    refine (call₁.fdalloc small).seq fun new s₂ after => ?_
    cases new with
    | none =>
      obtain rfl := after
      refine (call₁.fileclose f).seq fun _ u closed => ?_
      rw [add_sub_cancel_right] at closed
      exact fails closed.1
    | some fd =>
      obtain ⟨-, -, call₂, ftable, -⟩ := after
      rw [add_sub_cancel_right] at call₂
      rw [← ftable] at none ref
      have frame := fsFrame 0 s₂
      refine (frame.iunlock ip s₂ ⟨call₂, .refl s₂⟩).seq fun _ u after => ?_
      refine (frame.endOp u after).seq fun _ u after => ?_
      obtain ⟨call₃, outside⟩ := after
      rw [← outside.ftable] at none ref
      refine (call₃.modifyFile (fun q w => ?_) ?_).seq fun _ t after => ?_
      · simp [File.IsEnd, none]
      · simp [ref]
      · simpa using after.1.counted

theorem sysOpen (call : InCall 0 s) (path : List UInt8) (omode : BitVec 32) :
    wp (fun _ => True) (sysOpen cfg path omode) (fun _ t => Counted 0 t) s := by
  have frame := fileFrame 0
  have done : ∀ {m : K ℤ} {u : Kernel}, Keeps (InCall 0) m → InCall 0 u →
      wp (fun _ => True) m (fun _ t => Counted 0 t) u :=
    fun keeps call => (keeps _ call).mono fun _ _ after => after.counted
  refine (frame.beginOp s call).seq fun _ s₁ call => ?_
  refine wp.ite (fun _ => ?_) fun _ => ?_
  · refine (frame.create path .file 0 0 s₁ call).seq fun created s₂ call => ?_
    cases created with
    | none => exact done (frame.endWith _) call
    | some ip => exact call.openFile ip omode
  · refine (frame.namei path s₁ call).seq fun found s₂ call => ?_
    cases found with
    | none => exact done (frame.endWith _) call
    | some ip =>
      refine (frame.ilock ip s₂ call).seq fun _ s₃ call => ?_
      rw [wp_bind]
      refine wp.ite (fun _ => done (frame.putAndEnd ip _) call) fun _ => ?_
      exact wp.ite (fun _ => done (frame.putAndEnd ip _) call) fun _ => call.openFile ip omode

/-! ## Processes -/

/-- A process is changed and stays with its files, and the call goes on. -/
theorem modifyProc {change : Proc → Proc} (call : InCall δ s) (p : ℕ)
    (files : (change (s.proc p)).ofile = (s.proc p).ofile)
    (idle : (change (s.proc p)).Idle → (s.proc p).Idle ∨ ∀ fd, (s.proc p).ofile fd = none)
    (runs : p = s.cur → (change (s.proc p)).state = .runnable) :
    wp (fun _ => True) (modifyProc p change) (fun _ t => InCall δ t) s := by
  have other : ∀ {q}, q ≠ p → Function.update s.proc p (change (s.proc p)) q = s.proc q :=
    fun other => Function.update_of_ne other _ _
  have own : Function.update s.proc p (change (s.proc p)) p = change (s.proc p) :=
    Function.update_self ..
  refine ⟨call.counted.congr (fun q => ?_) (fun q out => ?_) (fun _ => .rfl) (fun _ _ => rfl) rfl,
    call.cur, ?_⟩
  · obtain rfl | different := eq_or_ne q p
    · exact (congrArg Proc.ofile own).trans files
    · exact congrArg Proc.ofile (other different)
  · obtain rfl | different := eq_or_ne q p
    · exact idle (own ▸ out)
    · exact .inl (other different ▸ out)
  · obtain rfl | different := eq_or_ne s.cur p
    · exact (congrArg Proc.state own).trans (runs rfl)
    · exact (congrArg Proc.state (other different)).trans call.runs

/-- A change of the running process that leaves its files and lets it run. -/
theorem modifyMyproc {change : Proc → Proc} (files : ∀ proc, (change proc).ofile = proc.ofile)
    (runs : ∀ proc, (change proc).state = proc.state) :
    Keeps (InCall δ) (modifyMyproc change) := by
  intro s call
  have same : (change (s.proc s.cur)).state = .runnable := (runs _).trans call.runs
  refine call.modifyProc s.cur (files _) (fun idle => ?_) fun _ => same
  rw [Proc.Idle, same] at idle
  exact absurd idle (by decide)

/-- The state of inodes is not counted. -/
theorem modifyInode (k : ℕ) (change : Inode → Inode) :
    Keeps (InCall δ) (modifyInode k change) :=
  fun _ call => call.apart ⟨rfl, rfl, rfl⟩ rfl rfl

theorem sysChdir (path : List UInt8) : Keeps (InCall δ) (sysChdir cfg path) := by
  have frame := fileFrame δ
  refine .bind frame.beginOp fun _ => frame.withPath path fun ip => ?_
  refine .bind (frame.ilock ip) fun _ => .read fun _ => .read fun p => ?_
  refine .ite (fun _ => frame.putAndEnd ip _) fun _ => .bind (frame.iunlock ip) fun _ => ?_
  cases p.cwd with
  | none => exact .fail trivial
  | some old =>
    exact .bind (frame.iput old) fun _ => .bind frame.endOp fun _ =>
      .bind (modifyMyproc (fun _ => rfl) fun _ => rfl) fun _ => .pure _

theorem sysChmod (path : List UInt8) (mode : BitVec 32) :
    Keeps (InCall δ) (sysChmod cfg path mode) := by
  have frame := fileFrame δ
  refine .bind frame.beginOp fun _ => frame.withPath path fun ip => ?_
  refine .read fun _ => .read fun _ => .ite (fun _ => frame.endWith _) fun _ => ?_
  exact .bind (frame.ilock ip) fun _ => .bind (modifyInode ip _) fun _ =>
    .bind (frame.iupdate ip) fun _ => .bind (frame.iunlock ip) fun _ => frame.endWith _

theorem sysChown (path : List UInt8) (owner group : ℤ) :
    Keeps (InCall δ) (sysChown cfg path owner group) := by
  have frame := fileFrame δ
  refine .read fun _ => .early fun _ => ?_
  refine .bind frame.beginOp fun _ => frame.withPath path fun ip => ?_
  exact .bind (frame.ilock ip) fun _ => .bind (modifyInode ip _) fun _ =>
    .bind (frame.iupdate ip) fun _ => .bind (frame.iunlock ip) fun _ => frame.endWith _

theorem sysExec (vm : Vm) (path : List UInt8) : Keeps (InCall δ) (sysExec cfg vm path) := by
  have frame := fileFrame δ
  refine .bind frame.beginOp fun _ => frame.withPath path fun k => ?_
  refine .bind (frame.ilock k) fun _ => ?_
  refine .bind (execLoad_preserves (fun off n => frame.readi k off n) vm) fun _ => ?_
  refine .read fun _ => .bind (frame.iunlockput k) fun _ => .bind frame.endOp fun _ => ?_
  exact .ite (fun _ => .bind (modifyMyproc (fun _ => rfl) fun _ => rfl) fun _ => .pure _)
    fun _ => .pure _

theorem sysSetuid (newid : ℤ) : Keeps (InCall δ) (sysSetuid newid) :=
  .read fun _ => .ite
    (fun _ => .bind (modifyMyproc (fun _ => rfl) fun _ => rfl) fun _ => .pure _) fun _ => .pure _

theorem sysSetgrps (ngroups : ℤ) (gids : ℕ → ℤ) : Keeps (InCall δ) (sysSetgrps ngroups gids) :=
  .read fun _ => .early fun _ => .early fun _ =>
    .ite (fun _ => .fail trivial) fun _ =>
      .bind (modifyMyproc (fun _ => rfl) fun _ => rfl) fun _ => .pure _

theorem sysKill (pid : ℤ) : Keeps (InCall δ) (sysKill pid) := by
  intro s call
  rw [Xv6Uac.sysKill, wp_read]
  split
  · exact call
  · rename_i q _
    rw [wp_bind]
    exact call.modifyProc q rfl .inl fun own => own ▸ call.runs

/-- A zombie that is waited for has no files. -/
theorem sysWait : Keeps (InCall δ) sysWait := by
  intro s call
  rw [Xv6Uac.sysWait, wp_read, wp_bind, myproc, wp_gets, wp_read, wp_read]
  split
  · rename_i q found
    have dead := List.find?_some found
    have dead : (s.proc q).state = .zombie := (of_decide_eq_true dead).2
    rw [wp_read, wp_bind]
    refine call.modifyProc q rfl (fun _ => .inl (.inr dead)) fun own => ?_
    rw [own, call.runs] at dead
    cases dead
  · exact wp.ite (fun _ => call) fun _ => trivial

/-! ## Fork and exit -/

/-- The child `np` of `fork` has no descriptor from `i` on. -/
structure Forking (np i : ℕ) (s : Kernel) : Prop where
  call : InCall 0 s
  small : np < NPROC
  other : np ≠ s.cur
  embryo : (s.proc np).state = .embryo
  free : ∀ fd, i ≤ fd → (s.proc np).ofile fd = none

theorem allocproc (call : InCall 0 s) (kalloc : Bool) :
    wp (fun _ => True) (allocproc kalloc) (fun new t => match new with
      | none => InCall 0 t
      | some np => Forking np 0 t) s := by
  rw [Xv6Uac.allocproc, wp_read]
  split
  · exact call
  · rename_i p found
    have small := List.mem_range.mp (List.mem_of_find?_eq_some found)
    have unused := List.find?_some found
    have unused : (s.proc p).state = .unused := of_decide_eq_true unused
    have other : p ≠ s.cur := by
      rintro rfl
      exact call.busy (.inl unused)
    rw [wp_read, wp_bind, wp_update, wp_ite]
    have call' : InCall 0 { s with nextpid := s.nextpid + 1 } := call.apart ⟨rfl, rfl, rfl⟩ rfl rfl
    refine ⟨fun _ => ?_, fun _ => ?_⟩
    · have changed : wp (fun _ => True)
          (Xv6Uac.modifyProc p fun proc => { proc with state := .embryo, pid := s.nextpid })
          (fun _ t => InCall 0 t) { s with nextpid := s.nextpid + 1 } :=
        call'.modifyProc p rfl (fun _ => .inl (.inl unused)) fun own => absurd own other
      refine ⟨changed, small, other, ?_, fun fd _ => ?_⟩
      · simp
      · simpa using call.counted.idle (.inl unused) fd
    · rw [wp_bind]
      exact call'.modifyProc p rfl (fun _ => .inl (.inl unused)) fun own => absurd own other

theorem forkFiles {np i : ℕ} (forking : Forking np i s) (inside : i < NOFILE) :
    wp (fun _ => True) (forkFiles np i) (fun _ t => Forking np (i + 1) t) s := by
  have call := forking.call
  rw [Xv6Uac.forkFiles, wp_bind, myproc, wp_gets]
  split
  · exact ⟨call, forking.small, forking.other, forking.embryo, fun fd more =>
      forking.free fd (Nat.le_of_succ_le more)⟩
  · rename_i f points
    apply (call.filedup f).seq
    rintro _ t ⟨dup, proc, cur⟩
    have free : (t.proc np).ofile i = none := by
      rw [proc]
      exact forking.free i le_rfl
    have embryo : (t.proc np).state = .embryo := by rw [proc, forking.embryo]
    have busy : ¬(t.proc np).Idle := by
      rw [Proc.Idle, embryo]
      decide
    have pointed := dup.counted.point forking.small inside (call.counted.bound points).2.2 free busy
    rw [add_sub_cancel_right] at pointed
    refine ⟨⟨pointed, dup.cur, ?_⟩, forking.small, cur ▸ forking.other, ?_, fun fd more => ?_⟩
    · exact (setOfile_state t np i (some f) t.cur).trans dup.runs
    · exact (setOfile_state t np i (some f) np).trans embryo
    · have kept := setOfile_ofile t np i (some f) np fd
      rwa [if_neg (by omega), proc, forking.free fd (by omega)] at kept

/-- A change of the child that leaves its state and its files. -/
theorem Forking.modifyProc {np i : ℕ} {change : Proc → Proc} (forking : Forking np i s)
    (state : ∀ proc, (change proc).state = proc.state)
    (files : ∀ proc, (change proc).ofile = proc.ofile) :
    wp (fun _ => True) (Xv6Uac.modifyProc np change) (fun _ t => Forking np i t) s := by
  have changed : wp (fun _ => True) (Xv6Uac.modifyProc np change) (fun _ t => InCall 0 t) s :=
    forking.call.modifyProc np (files _) (fun idle => .inl (by rwa [Proc.Idle, state] at idle))
      fun own => absurd own forking.other
  refine ⟨changed, forking.small, forking.other, ?_, fun fd more => ?_⟩
  · simp [state, forking.embryo]
  · simp [files, forking.free fd more]

theorem sysFork (call : InCall 0 s) (kalloc copyuvm : Bool) :
    wp (fun _ => True) (sysFork kalloc copyuvm) (fun _ t => Counted 0 t) s := by
  refine (call.allocproc kalloc).seq fun new s₁ after => ?_
  cases new with
  | none => exact after.counted
  | some np =>
    have call₁ := after.call
    refine wp.ite (fun _ => ?_) fun _ => ?_
    · rw [wp_read, wp_bind]
      refine wp.seq (after.modifyProc ?_ ?_) fun _ s₂ after => ?_
      · exact fun _ => rfl
      · exact fun _ => rfl
      refine (wp_upto NOFILE after fun i inside u forking =>
        forkFiles forking inside).seq fun _ s₃ after => ?_
      split
      · trivial
      · rw [wp_bind]
        refine (modifyInode _ _ s₃ after.call).seq fun _ s₄ call₄ => ?_
        rw [wp_pure]
        refine (call₄.modifyProc np rfl ?_ ?_).seq fun _ t done => ?_
        · rintro (idle | idle) <;> cases idle
        · exact fun _ => rfl
        · exact done.counted
    · refine (call₁.modifyProc np rfl (fun _ => .inr fun fd => after.free fd (Nat.zero_le fd))
        fun own => absurd own after.other).seq fun _ t done => ?_
      exact done.counted

theorem exitFile {i : ℕ} (call : InCall 0 s)
    (closed : ∀ fd < i, (s.proc s.cur).ofile fd = none) :
    wp (fun _ => True) (exitFile cfg i)
      (fun _ t => InCall 0 t ∧ ∀ fd < i + 1, (t.proc t.cur).ofile fd = none) s := by
  rw [Xv6Uac.exitFile, wp_bind, myproc, wp_gets]
  split
  · rename_i none
    refine ⟨call, fun fd less => ?_⟩
    obtain less | rfl := Nat.lt_succ_iff_lt_or_eq.mp less
    · exact closed fd less
    · exact none
  · rename_i f points
    apply (call.fileclose f).seq
    rintro _ t ⟨after, proc, cur⟩
    have points : (t.proc t.cur).ofile i = some f := by
      rwa [proc, cur]
    have cleared := after.counted.clear points
    rw [sub_add_cancel] at cleared
    refine ⟨⟨cleared, after.cur, ?_⟩, fun fd less => ?_⟩
    · exact (setOfile_state t t.cur i none t.cur).trans after.runs
    · have kept := setOfile_ofile t t.cur i none t.cur fd
      apply kept.trans
      split
      · rfl
      · rw [proc, cur]
        exact closed fd (by omega)

theorem sysExit (call : InCall 0 s) :
    wp (fun _ => True) (sysExit cfg) (fun _ t => Counted 0 t) s := by
  refine wp.ite (fun _ => trivial) fun _ => ?_
  rw [wp_bind]
  have files : wp (fun _ => True) (upto NOFILE (Xv6Uac.exitFile cfg))
      (fun _ t => InCall 0 t ∧ ∀ fd < NOFILE, (t.proc t.cur).ofile fd = none) s := by
    let Loop (i : ℕ) (t : Kernel) : Prop := InCall 0 t ∧ ∀ fd < i, (t.proc t.cur).ofile fd = none
    have start : Loop 0 s := ⟨call, fun fd less => absurd less (Nat.not_lt_zero fd)⟩
    exact wp_upto NOFILE start fun i _ u loop => exitFile loop.1 loop.2
  apply files.mono
  rintro _ s₁ ⟨call₁, closed⟩
  have closed : ∀ fd, (s₁.proc s₁.cur).ofile fd = none := by
    intro fd
    by_contra some
    obtain ⟨f, points⟩ := Option.ne_none_iff_exists'.mp some
    exact some (closed fd (call₁.counted.bound points).2.1)
  rw [wp_bind, myproc, wp_gets]
  split
  · trivial
  · rename_i k _
    have frame := fsFrame 0 s₁
    refine (frame.beginOp s₁ ⟨call₁, .refl s₁⟩).seq fun _ s₂ after => ?_
    refine (frame.iput k s₂ after).seq fun _ s₃ after => ?_
    refine (frame.endOp s₃ after).seq fun _ s₄ after => ?_
    obtain ⟨call₄, outside⟩ := after
    have closed : ∀ fd, (s₄.proc s₄.cur).ofile fd = none := by
      rwa [outside.proc, outside.cur]
    -- the last updates touch the parents, and the state of the process alone
    refine call₄.counted.congr (fun q => ?_) (fun q idle => ?_) (fun _ => .rfl) (fun _ _ => rfl) rfl
    · obtain rfl | other := eq_or_ne q s₄.cur
      · simp [Kernel.myproc]
        split <;> simp
      · simp [other]
        split <;> simp
    · obtain rfl | other := eq_or_ne q s₄.cur
      · exact .inr closed
      · refine .inl ?_
        simp [other] at idle ⊢
        split at idle <;> exact idle

/-! ## Runs -/

/-- **Every call keeps the references**, whether it fails or not. -/
theorem dispatch (call : InCall 0 s) (c : Call) :
    wp (fun _ => True) (dispatch cfg c) (fun _ t => Counted 0 t) s := by
  have frame := fileFrame 0
  have kept : ∀ {m : K ℤ}, Keeps (InCall 0) m → wp (fun _ => True) m (fun _ t => Counted 0 t) s :=
    fun keeps => (keeps s call).mono fun _ _ after => after.counted
  cases c with
  | fork kalloc copyuvm => exact call.sysFork kalloc copyuvm
  | exit => exact call.sysExit
  | wait => exact kept sysWait
  | pipe kalloc => exact call.sysPipe kalloc
  | read fd n =>
    exact kept (withFile_preserves fd fun f => .bind (frame.fileread f n) fun _ => .pure _)
  | kill pid => exact kept (sysKill pid)
  | exec vm path => exact kept (sysExec vm path)
  | fstat fd => exact kept (withFile_preserves fd fun f =>
    .bind (frame.filestat f) fun _ => .pure _)
  | chdir path => exact kept (sysChdir path)
  | dup fd => exact call.sysDup fd
  | getpid | getuid | geteuid => exact kept (.gets _)
  | «open» path omode => exact call.sysOpen path omode
  | write fd src => exact kept (withFile_preserves fd fun f => frame.filewrite f src)
  | mknod path major minor => exact kept (frame.createAndPut path .dev _ _)
  | unlink path => exact kept (frame.sysUnlink path)
  | link old new => exact kept (frame.sysLink old new)
  | mkdir path => exact kept (frame.createAndPut path .dir 0 0)
  | close fd => exact call.sysClose fd
  | setuid newid => exact kept (sysSetuid newid)
  | chmod path mode => exact kept (sysChmod path mode)
  | chown path owner group => exact kept (sysChown path owner group)
  | lseek fd offset whence => exact kept (frame.touches.sysLseek fd offset whence)
  | trim fd => exact kept (frame.sysTrim fd)
  | setgrps ngroups gids => exact kept (sysSetgrps ngroups gids)
  | invalid | other => exact kept (.pure _)

end InCall

namespace Counted

/-- After booting no file is open. -/
theorem boot (image : Image) : Counted 0 image.boot := by
  have files : ∀ p, (image.boot.proc p).ofile = fun _ => none := by
    intro p
    simp only [Image.boot]
    split <;> rfl
  have unused : ∀ {q w f}, ¬(image.boot.ftable f).IsEnd q w := by
    rintro q w f ⟨type, -⟩
    cases type
  refine ⟨fun {p fd f} points => ?_, fun {p} _ fd => by rw [files], fun f => ?_, fun _ => rfl,
    fun {q w} => ?_, fun first => absurd first unused, fun first => absurd first unused⟩
  · rw [files] at points
    cases points
  · change (0 : ℤ) = _
    simp only [slots, files, tablePointers]
    simp
  · refine iff_of_false ?_ fun held => held.elim fun _ first => unused first
    cases w <;> exact Bool.false_ne_true

theorem step {taken : Step} (counted : Counted 0 s) (taking : step cfg s taken t) :
    Counted 0 t := by
  obtain ⟨small, runs, run⟩ := taking
  have call : InCall 0 (s.switch taken.p) :=
    ⟨counted.congr (fun _ => rfl) (fun _ => .inl) (fun _ => .rfl) (fun _ _ => rfl) rfl, small, runs⟩
  exact (call.dispatch taken.call).of_ok run

theorem run {image : Image} {trace : List Step} (run : KernelRun cfg image.boot trace s) :
    Counted 0 s :=
  run.stateInvariant (boot image) fun counted taking => counted.step taking

/-- A file with references has a descriptor, so it is in the table. -/
theorem inTable (counted : Counted 0 s) (used : (s.ftable f).ref ≠ 0) : f < NFILE := by
  have some : tablePointers NPROC NOFILE (fun p => (s.proc p).ofile) f ≠ 0 := by
    intro none
    have refs := counted.refs f
    rw [slots, none] at refs
    exact used refs
  obtain ⟨p, fd, points⟩ := exists_of_tablePointers some
  exact (counted.bound points).2.2

/-- An end of a pipe is open as long as a file in use is that end. -/
theorem isOpen_iff (counted : Counted 0 s) (q : ℕ) (w : Bool) :
    (s.pipes q).isOpen w = true ↔
      ∃ f < NFILE, (s.ftable f).ref ≠ 0 ∧ (s.ftable f).IsEnd q w := by
  rw [counted.ends]
  refine exists_congr fun f => ⟨fun isEnd => ?_, fun found => found.2.2⟩
  have used : (s.ftable f).ref ≠ 0 := by
    intro none
    have type := isEnd.1
    rw [counted.typed none] at type
    cases type
  exact ⟨counted.inTable used, used, isEnd⟩

end Counted

/-- **The reference counts of open files are exact**, in every state that calls of any
processes lead to: `ref` is the number of descriptors of all processes that point to the
file, a file without references has no type, and an end of a pipe is open exactly while a
file in use is that end. -/
theorem file_references_exact {image : Image} {trace : List Step}
    (run : KernelRun cfg image.boot trace s) :
    (∀ f < NFILE,
      (s.ftable f).ref = ((Finset.range NPROC ×ˢ Finset.range NOFILE).filter fun slot =>
        (s.proc slot.1).ofile slot.2 = some f).card ∧
      ((s.ftable f).ref = 0 → (s.ftable f).type = .none)) ∧
    ∀ q,
      ((s.pipes q).readopen = true ↔ ∃ f < NFILE, (s.ftable f).ref ≠ 0 ∧
        (s.ftable f).type = .pipe ∧ (s.ftable f).pipe = some q ∧ (s.ftable f).writable = false) ∧
      ((s.pipes q).writeopen = true ↔ ∃ f < NFILE, (s.ftable f).ref ≠ 0 ∧
        (s.ftable f).type = .pipe ∧ (s.ftable f).pipe = some q ∧ (s.ftable f).writable = true) := by
  have counted := Counted.run run
  refine ⟨fun f _ => ⟨?_, counted.typed⟩, fun q =>
    ⟨counted.isOpen_iff q false, counted.isOpen_iff q true⟩⟩
  have refs := counted.refs f
  rwa [Pi.zero_apply, add_zero] at refs

/-- A process that makes a pipe, duplicates the read end and forks. The read end has four
references then, and the write end two. -/
theorem file_references_exact_of_pipe :
    ∃ s, KernelRun SmallImage.cfg
        (imageOf [.dir 1 0 0o777 [(1, [46]), (1, [46, 46])]]).boot
        [⟨0, .fork true true, 2⟩, ⟨0, .dup 0, 2⟩, ⟨0, .pipe true, 0⟩] s ∧
      (s.ftable 0).ref = 4 ∧ (s.ftable 1).ref = 2 ∧
      ((Finset.range NPROC ×ˢ Finset.range NOFILE).filter fun slot =>
        (s.proc slot.1).ofile slot.2 = some 0).card = 4 := by
  have passed : (play SmallImage.cfg
      (imageOf [.dir 1 0 0o777 [(1, [46]), (1, [46, 46])]]).boot
      [⟨0, .fork true true, 2⟩, ⟨0, .dup 0, 2⟩, ⟨0, .pipe true, 0⟩]).any
      (fun s => (s.ftable 0).ref = 4 ∧ (s.ftable 1).ref = 2) = true := by decide +kernel
  obtain ⟨s, run, refs⟩ := exists_of_play passed
  obtain ⟨read, write⟩ := of_decide_eq_true refs
  have exact_ := ((file_references_exact run).1 0 (by decide)).1
  rw [read] at exact_
  exact ⟨s, run, read, write, by exact_mod_cast exact_.symm⟩

end Xv6Uac
