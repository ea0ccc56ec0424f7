import Xv6Uac.Fs.Directory

/-!
# Path names

`walk` says where a path leads in a file system that stands still. `namex` takes a
reference to each directory on its way and drops the one before, and the last
reference to a removed directory frees it. It still ends where `walk` does
(`namex_spec`): a directory that it locks is allocated, and one that is freed on
the way is not locked again.
-/

namespace Xv6Uac

open Words Hoare

variable {cfg : Config} {F F' : ℕ → Dinode} {D : Set ℕ} {s t : Kernel} {k : ℕ} {δ : ℕ → ℕ}

/-- Where the elements of a path lead from an inode, for a process that may not
search every directory. With `parent` the walk ends before the last element. -/
def walk (p : Proc) (F : ℕ → Dinode) (data : ℕ → Bytes) (parent : Bool) :
    ℕ → List UInt8 → List (List UInt8) → Option (ℕ × List UInt8)
  | i, name, [] => if parent then none else some (i, name)
  | i, _, name :: rest =>
    if (F i).type ≠ .dir then none
    else if parent ∧ rest = [] then some (i, name)
    else if mayExecute p (F i) = false then none
    else
      match lookup data (F i) name with
      | none => none
      | some j => walk p F data parent j name rest

/-- Where a path starts. -/
def walkStart (s : Kernel) (path : List UInt8) : Option ℕ :=
  if path.head? = some 47 then some ROOTINO
  else s.myproc.cwd.map fun k => (s.icache k).inum

/-- Where a path leads. -/
def walkPath (F : ℕ → Dinode) (s : Kernel) (path : List UInt8) (parent : Bool) :
    Option (ℕ × List UInt8) :=
  (walkStart s path).bind fun i =>
    walk s.myproc F s.data parent i [] (pathElems path.length path)

/-- The entries of the directories that are left name inodes of the table. -/
theorem Shrinks.named (run : Shrinks cfg F F' D s t δ) (named : Named cfg F s.data) :
    Named cfg F' t.data := by
  intro i n e dir slot
  have same := run.live (by rw [dir]; decide)
  rw [same] at dir slot
  rw [run.data] at slot
  exact named dir slot

/-- What `namex` promises about its result. -/
def Walked (cfg : Config) (F : ℕ → Dinode) (s : Kernel) (parent : Bool)
    (goal : Option (ℕ × List UInt8)) (out : Option (ℕ × List UInt8)) (t : Kernel) : Prop :=
  match out with
  | none => ∃ F', Shrinks cfg F F' ∅ s t 0
  | some (k, name) => ∃ F', Shrinks cfg F F' ∅ s t (Pi.single k 1) ∧
      goal = some ((t.icache k).inum, name) ∧
      (parent = true → (F' (t.icache k).inum).type = .dir)

/-- The result is where the path leads, and there is none if it leads nowhere. -/
def Resolves (cfg : Config) (F : ℕ → Dinode) (s : Kernel) (parent : Bool)
    (goal : Option (ℕ × List UInt8)) (out : Option (ℕ × List UInt8)) (t : Kernel) : Prop :=
  Walked cfg F s parent goal out t ∧ (out = none → goal = none)

theorem Resolves.of_none {F' : ℕ → Dinode} {parent : Bool} {goal : Option (ℕ × List UInt8)}
    (run : Shrinks cfg F F' ∅ s t 0) (nowhere : goal = none) :
    Resolves cfg F s parent goal none t :=
  ⟨⟨F', run⟩, fun _ => nowhere⟩

theorem namexLoop_resolves (named : Named cfg F s.data) (parent : Bool)
    (elems : List (List UInt8)) :
    ∀ {F₁ : ℕ → Dinode} {t : Kernel} {k : ℕ} (name : List UInt8),
      Shrinks cfg F F₁ ∅ s t (Pi.single k 1) →
      wp Benign (namexLoop cfg parent k name elems)
        (Resolves cfg F s parent
          (walk s.myproc F s.data parent (t.icache k).inum name elems)) t := by
  induction elems with
  | nil =>
    intro F₁ t k name run
    apply wp.ite
    · intro parent
      apply (run.iput (by simp)).seq
      rintro _ u ⟨F₂, dropped, _⟩
      rw [sub_single_self] at dropped
      exact .of_none dropped (if_pos parent)
    · intro notParent
      exact ⟨⟨F₁, run, if_neg notParent, fun parent => absurd parent notParent⟩, fun none => by cases none⟩
  | cons elem rest ih =>
    intro F₁ t k name run
    apply (run.ilock (by simp)).seq
    rintro _ u ⟨locked, held, _⟩
    have live := (locked.fsInv.cached.held held).2
    have same := locked.live live
    rw [inode, wp_read, (locked.fsInv.cached.held held).1, same]
    rw [walk]
    refine wp.ite (fun notDir => ?_) fun dir => ?_
    · apply (locked.iunlockput (by simp)).seq
      rintro _ v ⟨F₂, dropped, _⟩
      rw [sub_single_self] at dropped
      exact .of_none dropped (if_pos notDir)
    · rw [if_neg dir, wp_ite]
      have dir := not_not.mp dir
      refine ⟨fun last => ?_, fun more => ?_⟩
      · apply (locked.iunlock k).seq
        rintro _ v ⟨unlocked, stays⟩
        have inum := (stays.held held (unlocked.used (by simp))).inum
        refine ⟨⟨F₁, unlocked, ?_, fun _ => ?_⟩, fun none => by cases none⟩
        · rw [if_pos last, inum]
        · rw [inum, same, dir]
      · rw [if_neg more]
        apply (dirlookup_spec locked.fsInv held (locked.named named) elem).seq
        rintro out v ⟨_, found⟩
        cases out with
        | none =>
          obtain ⟨rfl, absent⟩ := found
          rw [same, locked.data, locked.outside.myproc] at absent
          apply (locked.iunlockput (by simp)).seq
          rintro _ w ⟨F₂, dropped, _⟩
          rw [sub_single_self] at dropped
          refine .of_none dropped ?_
          by_cases denied : mayExecute s.myproc (F (t.icache k).inum) = false
          · exact if_pos denied
          · have missing : lookup s.data (F (t.icache k).inum) elem = none := by
              rw [lookup, absent (by simpa using denied), Option.bind_none]
            rw [if_neg denied, missing]
        | some result =>
          obtain ⟨l, off⟩ := result
          obtain ⟨may, n, j, -, first, slot, ip, eq, cached, inum, kept, -⟩ := found
          rw [same, locked.data] at first slot
          rw [same, locked.outside.myproc] at may
          subst eq
          have next : lookup s.data (F (t.icache k).inum) elem = some j := by
            rw [lookup, first, Option.bind_some, slot, Option.map_some]
          rw [if_neg (by simp [may]), next, wp_bind]
          have taken := locked.step cached kept
          apply (taken.iunlockput (by simp)).mono
          rintro _ w ⟨F₂, dropped, stays⟩
          rw [single_add_sub] at dropped
          have there : (w.icache l).inum = j := by
            rw [(stays l (dropped.used (by simp))).1]
            simpa using inum
          have rest := ih elem dropped
          rwa [there] at rest

theorem namexStart_spec (inv : FsInv cfg F ∅ s) (root : ROOTINO < cfg.sb.ninodes)
    (cwd : ∀ k ∈ s.myproc.cwd, 0 < (s.icache k).ref) (path : List UInt8) :
    wp Benign (namexStart path) (fun k t => Shrinks cfg F F ∅ s t (Pi.single k 1) ∧
      walkStart s path = some (t.icache k).inum) s := by
  have start := Shrinks.refl inv
  apply wp.ite
  · intro absolute
    apply (start.iget root).mono
    rintro k t ⟨run, inum⟩
    rw [zero_add] at run
    exact ⟨run, by rw [walkStart, if_pos absolute, inum]⟩
  · intro relative
    rw [myproc, wp_read]
    cases dir : s.myproc.cwd with
    | none => simp [Benign]
    | some k =>
      apply (start.idup (cwd k dir)).mono
      rintro j t ⟨rfl, run, inum⟩
      rw [zero_add] at run
      refine ⟨run, ?_⟩
      rw [walkStart, if_neg relative, dir, Option.map_some, inum]

theorem namex_resolves (inv : FsInv cfg F ∅ s) (named : Named cfg F s.data)
    (root : ROOTINO < cfg.sb.ninodes) (cwd : ∀ k ∈ s.myproc.cwd, 0 < (s.icache k).ref)
    (path : List UInt8) (parent : Bool) :
    wp Benign (namex cfg path parent) (Resolves cfg F s parent (walkPath F s path parent)) s := by
  refine (namexStart_spec inv root cwd path).seq fun k t ⟨run, start⟩ => ?_
  rw [walkPath, start]
  exact namexLoop_resolves named parent _ [] run

/-- **`namex` ends where the path leads.** -/
theorem namex_spec (inv : FsInv cfg F ∅ s) (named : Named cfg F s.data)
    (root : ROOTINO < cfg.sb.ninodes) (cwd : ∀ k ∈ s.myproc.cwd, 0 < (s.icache k).ref)
    (path : List UInt8) (parent : Bool) :
    wp Benign (namex cfg path parent)
      (Walked cfg F s parent (walkPath F s path parent)) s :=
  (namex_resolves inv named root cwd path parent).mono fun _ _ resolves => resolves.1

end Xv6Uac
