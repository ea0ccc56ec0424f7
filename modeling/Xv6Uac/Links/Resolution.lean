import Xv6Uac.Lib.Separated
import Xv6Uac.Links.Preservation
import Xv6Uac.Locks.Deadlock

/-!
# Path resolution

A path is the list of its pieces between slashes, cut to `DIRSIZ` bytes (`pathElems_eq`). `LeadsTo` says
where a list of names leads: through directories that the process may search and that have an
entry with the name. `namei` ends there, and `nameiparent` one step before
(`path_resolution`).

The walk takes at most two references at a time. It ends as long as the inode cache has room for
them, the directories consist of whole entries, and the entries name inodes that are allocated.
Otherwise the kernel panics, in `iget`, `dirlookup` or `ilock`.
-/

namespace Xv6Uac

open Words Hoare Separated

variable {cfg : Config} {L : ℕ → ℕ} {F : ℕ → Dinode} {D : Set ℕ} {s t : Kernel} {i k : ℕ}

/-! ## The elements of a path -/

/-- The elements of a path: its non-empty pieces between slashes, cut to `DIRSIZ` bytes. -/
def components (path : List UInt8) : List (List UInt8) :=
  (pieces 47 path).map fun name => name.take DIRSIZ

/-- A loop over `skipelem` yields the elements, and then nothing more. -/
theorem pathElems_eq (path : List UInt8) (fuel : ℕ) (enough : path.length ≤ fuel) :
    pathElems fuel path = components path := by
  have slash : (fun c : UInt8 => decide (c = 47)) = (· == 47) := by
    funext c
    rw [beq_eq_decide]
  have other : (fun c : UInt8 => decide (c ≠ 47)) = (· != 47) := by
    funext c
    simp [bne, beq_eq_decide]
  induction fuel generalizing path with
  | zero =>
    obtain rfl : path = [] := List.length_eq_zero_iff.mp (Nat.le_zero.mp enough)
    rw [pathElems, components, pieces_nil, List.map_nil]
  | succ fuel ih =>
    have shorter : (path.dropWhile (· == 47)).length ≤ path.length :=
      (List.dropWhile_suffix _).length_le
    have first : ∀ c ∈ (path.dropWhile (· == 47)).head?, (c != 47) = true := by
      intro c begins
      have stops := List.head?_dropWhile_not (· == 47) path
      rw [Option.mem_def.mp begins] at stops
      simpa using stops
    rw [pathElems, skipelem, slash, other, components, ← pieces_dropWhile]
    generalize path.dropWhile (· == 47) = rest at *
    rcases rest with _ | ⟨c, rest⟩
    · simp
    · have starts : (c != 47) = true := first c rfl
      have some : (c :: rest).takeWhile (· != 47) ≠ [] := by simp [starts]
      have less : (((c :: rest).dropWhile (· != 47)).dropWhile (· == 47)).length ≤ fuel := by
        have behind := (List.dropWhile_suffix (· != 47) (l := rest)).length_le
        have later := (List.dropWhile_suffix (· == 47) (l := rest.dropWhile (· != 47))).length_le
        rw [List.dropWhile_cons, if_pos starts]
        rw [List.length_cons] at shorter
        omega
      rw [pieces_of_ne_nil some, List.map_cons, ← pieces_dropWhile ((c :: rest).dropWhile _)]
      simp only [if_neg (List.cons_ne_nil c rest)]
      rw [ih _ less, components]

/-! ## Where a path leads -/

/-- A list of names leads from an inode to another: through directories that the process may search
and that have an entry with the name. -/
inductive LeadsTo (p : Proc) (F : ℕ → Dinode) (data : ℕ → Bytes) : ℕ → List (List UInt8) → ℕ → Prop
  | here (i : ℕ) : LeadsTo p F data i [] i
  | step {i j goal : ℕ} {name : List UInt8} {names : List (List UInt8)}
      (dir : (F i).type = .dir) (may : mayExecute p (F i) = true)
      (entry : lookup data (F i) name = some j) (rest : LeadsTo p F data j names goal) :
      LeadsTo p F data i (name :: names) goal

section Walks

variable {p : Proc} {data : ℕ → Bytes}

theorem walk_eq_some_iff {names : List (List UInt8)} {goal : ℕ} {name : List UInt8} :
    (∃ last, walk p F data false i name names = some (goal, last)) ↔ LeadsTo p F data i names goal := by
  induction names generalizing i name with
  | nil =>
    constructor
    · rintro ⟨last, same⟩
      obtain ⟨rfl, -⟩ := Prod.mk.inj (Option.some.inj same)
      exact .here i
    · rintro ⟨⟩
      exact ⟨name, rfl⟩
  | cons elem names ih =>
    rw [walk, if_neg (show ¬(false = true ∧ names = []) by simp)]
    constructor
    · rintro ⟨last, leads⟩
      split at leads
      · cases leads
      · rename_i dir
        split at leads
        · cases leads
        · rename_i may
          split at leads
          · cases leads
          · rename_i j entry
            exact .step (not_not.mp dir) (by simpa using may) entry (ih.mp ⟨last, leads⟩)
    · rintro (_ | ⟨dir, may, entry, rest⟩)
      obtain ⟨last, leads⟩ := (@ih _ elem).mpr rest
      exact ⟨last, by rw [if_neg (not_not.mpr dir), if_neg (by simp [may]), entry]; exact leads⟩

/-- The step that `nameiparent` leaves to its caller. -/
theorem walk_parent {names : List (List UInt8)} {d : ℕ} {name last : List UInt8}
    (leads : walk p F data true i name names = some (d, last)) :
    (walk p F data false i name names).map Prod.fst =
      if mayExecute p (F d) = true then lookup data (F d) last else none := by
  induction names generalizing i name with
  | nil => cases leads
  | cons elem names ih =>
    rw [walk] at leads ⊢
    by_cases dir : (F i).type ≠ .dir
    · rw [if_pos dir] at leads
      cases leads
    · rw [if_neg dir] at leads ⊢
      rw [if_neg (show ¬(false = true ∧ names = []) by simp)]
      by_cases ended : names = []
      · rw [if_pos ⟨rfl, ended⟩] at leads
        obtain ⟨rfl, rfl⟩ := Prod.mk.inj (Option.some.inj leads)
        subst ended
        by_cases may : mayExecute p (F i) = true
        · rw [if_neg (by simp [may]), if_pos may]
          cases lookup data (F i) elem <;> rfl
        · rw [if_pos (by simpa using may), if_neg may]
          rfl
      · rw [if_neg (by simp [ended])] at leads
        by_cases denied : mayExecute p (F i) = false
        · rw [if_pos denied] at leads
          cases leads
        · rw [if_neg denied] at leads ⊢
          cases entry : lookup data (F i) elem with
          | none =>
            rw [entry] at leads
            cases leads
          | some j =>
            rw [entry] at leads
            exact ih leads

end Walks

/-! ## Calls that end -/

/-- No failure. -/
abbrev never : Stop → Prop := fun _ => False

theorem iget_ends (room : ∃ j < NINODE, (s.icache j).ref = 0) (i : ℕ) :
    wp never (iget i) (fun _ _ => True) s := by
  simp only [iget, wp_bind, wp_gets]
  split
  · trivial
  · rename_i full
    obtain ⟨j, small, unused⟩ := room
    have used := List.find?_eq_none.mp full j (List.mem_range.mpr small)
    simp [unused] at used
  · trivial

theorem ilock_ends (used : 0 < (s.icache k).ref) (unlocked : (s.icache k).locked = false)
    (inside : (s.icache k).inum < cfg.sb.ninodes)
    (live : (s.dinode (s.icache k).inum).type ≠ .free) :
    wp never (ilock cfg k) (fun _ _ => True) s := by
  rw [ilock, inode, wp_read, if_neg (by omega)]
  simp only [acquiresleep, inode, modifyInode, wp_bind, wp_gets, unlocked, Bool.false_eq_true,
    if_false, wp_update, wp_when]
  refine ⟨fun _ => ?_, fun _ => trivial⟩
  simp only [loadInode, inode, modifyInode, wp_bind, wp_gets, Function.update_self, inside, if_true,
    wp_update, wp_when, implies_true, and_true]
  exact live

theorem iunlock_ends (used : 0 < (s.icache k).ref) (locked : (s.icache k).locked = true) :
    wp never (iunlock k) (fun _ _ => True) s := by
  rw [iunlock, inode, wp_read, if_neg (by simp [locked]; omega)]
  trivial

/-- A reference that is not the last one to an inode without links. -/
theorem iput_ends (unlocked : (s.icache k).locked = false)
    (kept : ¬((s.icache k).valid = true ∧ (s.icache k).d.nlink = 0 ∧ (s.icache k).ref = 1)) :
    wp never (iput cfg k) (fun _ _ => True) s := by
  simp only [iput, acquiresleep, inode, modifyInode, wp_bind, wp_gets, unlocked,
    Bool.false_eq_true, if_false, wp_update, wp_when, Function.update_self]
  exact ⟨fun last => absurd last kept, fun _ => trivial⟩

theorem iunlockput_ends (used : 0 < (s.icache k).ref) (locked : (s.icache k).locked = true)
    (kept : ¬((s.icache k).valid = true ∧ (s.icache k).d.nlink = 0 ∧ (s.icache k).ref = 1)) :
    wp never (iunlockput cfg k) (fun _ _ => True) s := by
  rw [iunlockput, wp_bind, iunlock, inode, wp_read,
    if_neg (by simp [locked]; omega)]
  exact iput_ends (by simp) (by simpa using kept)

/-- A lookup in a directory of whole entries, with room for the inode. -/
theorem dirlookup_ends (inv : FsInv cfg F D s) (held : Held s k i) (dir : (F i).type = .dir)
    (whole : DIRENT ∣ (F i).size) (room : ∃ j < NINODE, (s.icache j).ref = 0)
    (name : List UInt8) : wp never (dirlookup cfg k name) (fun _ _ => True) s := by
  have loop : ∀ fuel n, wp never (dirlookupLoop cfg k name fuel (DIRENT * n)) (fun _ _ => True) s := by
    intro fuel
    induction fuel with
    | zero => exact fun _ => trivial
    | succ fuel ih =>
      intro n
      simp only [dirlookupLoop, inode]
      rw [wp_read, (inv.cached.held held).1]
      refine wp.ite (fun below => ?_) fun _ => trivial
      have fits : DIRENT * n + DIRENT ≤ (F i).size := by
        obtain ⟨m, size⟩ := whole
        have more : n < m := Nat.lt_of_mul_lt_mul_left (size ▸ below)
        rw [size]
        exact Nat.mul_le_mul_left DIRENT more
      apply (readDirent_spec inv held dir below).seq
      rintro out t ⟨same, result⟩
      subst same result
      rw [if_pos fits]
      refine wp.ite (fun _ => ?_) fun _ => ?_
      · exact (iget_ends room _).seq fun _ _ _ => trivial
      · exact ih (n + 1)
  simp only [dirlookup, inode, myproc, wp_bind, wp_gets, (inv.cached.held held).1, wp_ite]
  exact ⟨fun notDir => absurd dir notDir, fun _ => ⟨fun _ => trivial, fun _ => loop _ 0⟩⟩

/-! ## The walk ends -/

/-- A state in which paths can be resolved: the process has a current directory and holds no lock,
every directory entry names an allocated inode (and one with links, unless it is the directory
itself), directories consist of whole entries, and two entries of the inode cache are free. -/
structure Resolvable (cfg : Config) (L : ℕ → ℕ) (s : Kernel) : Prop where
  inv : KernelInv cfg L s 0
  cwd : s.myproc.cwd ≠ none
  locked : Locked ∅ s
  closed : (links s).Closed ROOTINO
  whole : ∀ {i : ℕ}, (s.dinode i).type = .dir → DIRENT ∣ (s.dinode i).size
  room : ∃ a b, a < NINODE ∧ b < NINODE ∧ a ≠ b ∧ (s.icache a).ref = 0 ∧ (s.icache b).ref = 0

/-- The entry of the walk will not be freed: its inode has links, or someone else has it in use. -/
def Outlasts (s t : Kernel) (k : ℕ) : Prop :=
  0 < (s.dinode (t.icache k).inum).nlink ∨ 0 < (s.icache k).ref

/-- An inode that lasts stays allocated. -/
theorem Shrinks.stays_live {F₁ : ℕ → Dinode} {δ : ℕ → ℕ} (run : Shrinks cfg s.dinode F₁ ∅ s t δ)
    (live : (s.dinode (t.icache k).inum).type ≠ .free) (lasting : Outlasts s t k) :
    (F₁ (t.icache k).inum).type ≠ .free := by
  rcases lasting with linked | others
  · rcases run.freed (t.icache k).inum with same | ⟨unlinked, -⟩
    · rwa [same]
    · exact absurd unlinked linked.ne'
  · rw [run.kept.inum k others] at live ⊢
    rwa [run.current k others]

namespace Resolvable

variable {F₁ : ℕ → Dinode} {δ : ℕ → ℕ}

theorem free (res : Resolvable cfg L s) (run : Shrinks cfg s.dinode F₁ ∅ s t (Pi.single k 1)) :
    ∃ j < NINODE, (t.icache j).ref = 0 := by
  obtain ⟨a, b, smallA, smallB, apart, freeA, freeB⟩ := res.room
  have unused : ∀ j, j ≠ k → (s.icache j).ref = 0 → (t.icache j).ref = 0 := by
    intro j other none
    rw [run.kept.ref, none, Pi.single_eq_of_ne other]
    rfl
  by_cases same : a = k
  · exact ⟨b, smallB, unused b (fun eq => apart (same.trans eq.symm)) freeB⟩
  · exact ⟨a, smallA, unused a same freeA⟩

/-- The walk drops no last reference to an inode without links. -/
theorem keeps (run : Shrinks cfg s.dinode F₁ ∅ s t δ) (mine : 1 ≤ δ k) (lasting : Outlasts s t k) :
    ¬((t.icache k).valid = true ∧ (t.icache k).d.nlink = 0 ∧ (t.icache k).ref = 1) := by
  rintro ⟨valid, unlinked, last⟩
  obtain ⟨shown, live⟩ := run.fsInv.cached.shows (run.used mine) valid
  rw [shown, run.live live] at unlinked
  rcases lasting with linked | others
  · exact absurd unlinked linked.ne'
  · have count := run.kept.ref k
    omega

/-- Dropping the entry that is locked. -/
theorem dropped (run : Shrinks cfg s.dinode F₁ ∅ s t δ) (mine : 1 ≤ δ k) (lasting : Outlasts s t k)
    (locked : Locked {k} t) :
    wp never (iunlockput cfg k) (fun _ u => Locked ∅ u ∧
      ∃ F₂, Shrinks cfg s.dinode F₂ ∅ s u (δ - Pi.single k 1) ∧ Stays t u) t :=
  ((iunlockput_ends (run.used mine) ((locked k).mpr rfl) (keeps run mine lasting)).and
    ((iunlockput_alone (A := True) (N := True) locked).and (run.iunlockput mine))).mono
      fun _ _ ⟨_, unlocked, after⟩ => ⟨unlocked, after⟩

/-- The entry that the walk goes to lasts as well. -/
theorem entry_lasting (res : Resolvable cfg L s) {n j l : ℕ} {name : List UInt8}
    (dir : (s.dinode i).type = .dir) (slot : dirSlot s.data (s.dinode i) n = some (j, name))
    (cached : Cached cfg F₁ ∅ t) (held : Held t k i) (used : 0 < (t.icache l).ref)
    (there : (t.icache l).inum = j) (lasting : 0 < (s.dinode i).nlink ∨ 0 < (s.icache k).ref) :
    (s.dinode j).type ≠ .free ∧ (0 < (s.dinode j).nlink ∨ 0 < (s.icache l).ref) := by
  obtain ⟨live, self | links⟩ := res.closed.target dir ((links_slot dir n).trans slot)
  · have same : j = i := self
    have one : l = k := cached.unique used held.ref (by rw [there, held.inum, same])
    exact ⟨live, by rw [same, one]; exact lasting⟩
  · exact ⟨live, .inl links⟩

theorem namexLoop_ends (res : Resolvable cfg L s) (parent : Bool) (elems : List (List UInt8)) :
    ∀ {F₁ : ℕ → Dinode} {t : Kernel} {k : ℕ} (name : List UInt8),
      Shrinks cfg s.dinode F₁ ∅ s t (Pi.single k 1) → Locked ∅ t →
      (F₁ (t.icache k).inum).type ≠ .free → Outlasts s t k →
      wp never (namexLoop cfg parent k name elems) (fun _ u => Locked ∅ u) t := by
  induction elems with
  | nil =>
    intro F₁ t k name run locked live lasting
    apply wp.ite
    · intro _
      rw [wp_bind]
      have unlocked : (t.icache k).locked = false := by simpa using (locked k).not
      exact ((iput_ends unlocked (keeps run (by simp) lasting)).and
        (iput_alone (A := True) (N := True) locked)).mono fun _ _ after => after.2
    · intro _
      exact locked
  | cons elem rest ih =>
    intro F₁ t k name run locked live lasting
    have unlocked : (t.icache k).locked = false := by simpa using (locked k).not
    have used := run.used (k := k) (by simp)
    have disk : t.dinode = F₁ := run.fsInv.dinode
    refine ((ilock_ends used unlocked (run.fsInv.cached.inside used) (by rwa [disk])).and
      ((ilock_alone (A := True) locked fun _ => by rwa [disk]).and
        (run.ilock (by simp)))).seq ?_
    rintro _ u ⟨_, lockedU, runU, held, _⟩
    have same := runU.live live
    have lastingU : Outlasts s u k := by
      rwa [Outlasts, held.inum]
    have put := dropped runU (by simp) lastingU lockedU
    rw [inode, wp_read, (runU.fsInv.cached.held held).1, same]
    refine wp.ite (fun _ => ?_) fun dir => ?_
    · exact put.seq fun _ _ after => after.1
    · have dir := not_not.mp dir
      refine wp.ite (fun _ => ?_) fun _ => ?_
      · exact ((iunlock_ends held.ref ((lockedU k).mpr rfl)).and
          (iunlock_alone (A := True) (N := True) lockedU)).seq fun _ _ after => after.2
      · rw [wp_bind]
        have ends := dirlookup_ends runU.fsInv held (same ▸ dir) (same ▸ res.whole dir)
          (res.free runU) elem
        refine (ends.and ((storeFrame_locked (A := True) (N := True)).dirlookup k elem u
          lockedU |>.and (dirlookup_spec runU.fsInv held (runU.named res.inv.named)
            elem))).mono ?_
        rintro out v ⟨_, lockedV, _, found⟩
        cases out with
        | none =>
          obtain ⟨rfl, -⟩ := found
          exact put.seq fun _ _ after => after.1
        | some result =>
          obtain ⟨l, off⟩ := result
          obtain ⟨-, n, j, -, -, slot, ip, eq, cached, inum, kept, -⟩ := found
          rw [same, runU.data] at slot
          subst eq
          have taken := runU.step cached kept
          have stillHeld := kept.held held
          have lastingV : Outlasts s { u with icache := Function.update u.icache l ip } k := by
            rwa [Outlasts, stillHeld.inum]
          have there : (Function.update u.icache l ip l).inum = j := by simpa using inum
          apply (dropped taken (by simp) lastingV lockedV).seq
          rintro _ w ⟨lockedW, F₂, runW, stays⟩
          rw [single_add_sub] at runW
          have arrived : (w.icache l).inum = j := by
            rwa [(stays l (runW.used (by simp))).1]
          obtain ⟨liveJ, next⟩ := entry_lasting res dir slot taken.fsInv.cached stillHeld
            (taken.used (by simp)) there lasting
          have lastingW : Outlasts s w l := by
            rwa [Outlasts, arrived]
          exact ih elem runW lockedW (runW.stays_live (by rwa [arrived]) lastingW) lastingW

/-- The lookup of a path ends, with no lock held. -/
theorem namex_ends (res : Resolvable cfg L s) (path : List UInt8) (parent : Bool) :
    wp never (namex cfg path parent) (fun _ u => Locked ∅ u) s := by
  have inv := res.inv
  have starts : wp never (namexStart path) (fun _ _ => True) s := by
    refine wp.ite (fun _ => ?_) fun _ => ?_
    · obtain ⟨a, -, small, -, -, unused, -⟩ := res.room
      exact iget_ends ⟨a, small, unused⟩ _
    · rw [myproc, wp_read]
      cases dir : s.myproc.cwd with
      | none => exact res.cwd dir
      | some k => trivial
  apply (starts.and ((Ready.namexStart_locked (A := True) (N := True) path s res.locked).and
    (namexStart_spec inv.fs inv.root inv.mycwd path))).seq
  rintro k t ⟨_, locked, run, begins⟩
  obtain ⟨live, lasting⟩ : (s.dinode (t.icache k).inum).type ≠ .free ∧ Outlasts s t k := by
    rw [walkStart] at begins
    split at begins
    · rw [Outlasts, ← Option.some.inj begins]
      exact ⟨res.closed.root.1, .inl res.closed.root.2⟩
    · obtain ⟨j, cwd, inum⟩ := Option.map_eq_some_iff.mp begins
      have mine := inv.mycwd j cwd
      have one : k = j := run.fsInv.cached.unique (run.used (by simp)) (run.kept.pos mine)
        (by rw [← inum, run.kept.inum j mine])
      rw [← inum]
      exact ⟨inv.live (holders_cwd inv.cur cwd), .inr (by rw [one]; exact mine)⟩
  exact namexLoop_ends res parent _ [] run locked live lasting

end Resolvable

/-! ## Path resolution -/

/-- The inode of an entry that a lookup returns. -/
def found (out : Option ℕ) (t : Kernel) : Option ℕ := out.map fun k => (t.icache k).inum

section Results

variable {path : List UInt8}

theorem walkPath_map {parent : Bool} {start : ℕ} (starts : walkStart s path = some start) :
    walkPath s.dinode s path parent =
      walk s.myproc s.dinode s.data parent start [] (components path) := by
  rw [walkPath, starts, Option.bind_some, pathElems_eq path _ le_rfl]

theorem Resolvable.starts (res : Resolvable cfg L s) : ∃ start, walkStart s path = some start := by
  rw [walkStart]
  split
  · exact ⟨_, rfl⟩
  · obtain ⟨k, cwd⟩ := Option.ne_none_iff_exists'.mp res.cwd
    exact ⟨_, by rw [cwd, Option.map_some]⟩

/-- `namei` finds the goal of the path and keeps one reference to it. -/
theorem Resolvable.namei (res : Resolvable cfg L s) :
    wp never (namei cfg path) (fun out t =>
      found out t = (walkPath s.dinode s path false).map Prod.fst ∧
        Kept s t (out.elim 0 fun k => Pi.single k 1)) s := by
  have inv := res.inv
  refine ((res.namex_ends path false).and
    (namex_resolves inv.fs inv.named inv.root inv.mycwd path false)).seq
      fun out t ⟨_, walked, nowhere⟩ => ?_
  cases out with
  | none =>
    obtain ⟨F', run⟩ := walked
    exact ⟨by rw [nowhere rfl]; rfl, run.kept⟩
  | some result =>
    obtain ⟨k, name⟩ := result
    obtain ⟨F', run, goal, -⟩ := walked
    exact ⟨by rw [goal]; rfl, run.kept⟩

/-- `nameiparent` stops at the directory in which the last element is looked up. -/
theorem Resolvable.nameiparent (res : Resolvable cfg L s) :
    wp never (nameiparent cfg path) (fun out t =>
      match out with
      | none => Kept s t 0
      | some (dp, name) => Kept s t (Pi.single dp 1) ∧
          wp never (do ilock cfg dp; dirlookup cfg dp name) (fun entry u =>
            found (entry.map Prod.fst) u = (walkPath s.dinode s path false).map Prod.fst) t) s := by
  have inv := res.inv
  obtain ⟨start, starts⟩ := @Resolvable.starts _ _ _ path res
  refine ((res.namex_ends path true).and
    (namex_resolves inv.fs inv.named inv.root inv.mycwd path true)).mono
      fun out t ⟨locked, walked, _⟩ => ?_
  cases out with
  | none =>
    obtain ⟨F', run⟩ := walked
    exact run.kept
  | some result =>
    obtain ⟨dp, name⟩ := result
    obtain ⟨F', run, goal, isDir⟩ := walked
    refine ⟨run.kept, ?_⟩
    rw [walkPath_map starts] at goal ⊢
    rw [walk_parent goal]
    have used := run.used (k := dp) (by simp)
    have disk : t.dinode = F' := run.fsInv.dinode
    have live : (F' (t.icache dp).inum).type ≠ .free := by
      rw [isDir rfl]
      decide
    have unlocked : (t.icache dp).locked = false := by simpa using (locked dp).not
    refine ((ilock_ends used unlocked (run.fsInv.cached.inside used) (by rwa [disk])).and
      (run.ilock (by simp))).seq fun _ u ⟨_, runU, held, _⟩ => ?_
    have same := runU.live live
    have dir : (s.dinode (t.icache dp).inum).type = .dir := by rw [← same, isDir rfl]
    refine ((dirlookup_ends runU.fsInv held (isDir rfl) (same ▸ res.whole dir) (res.free runU)
      name).and (dirlookup_spec runU.fsInv held (runU.named inv.named) name)).mono
        fun entry v ⟨_, _, looked⟩ => ?_
    cases entry with
    | none =>
      obtain ⟨-, absent⟩ := looked
      rw [same, runU.data, runU.outside.myproc] at absent
      by_cases may : mayExecute s.myproc (s.dinode (t.icache dp).inum) = true
      · rw [if_pos may, lookup, absent may]
        rfl
      · rw [if_neg may]
        rfl
    | some result =>
      obtain ⟨l, off⟩ := result
      obtain ⟨may, n, j, -, first, slot, ip, rfl, -, inum, -⟩ := looked
      rw [same, runU.data] at first slot
      rw [same, runU.outside.myproc] at may
      rw [if_pos may, lookup, first, Option.bind_some, slot]
      simp [found, inum]

end Results

namespace SmallImage

/-- Paths in the image with nothing but the root are safe to walk. -/
theorem rootOnly_closed : (links (imageOf rootOnly).boot).Closed ROOTINO := by
  refine ⟨by decide, fun {d n e} dir slot => ?_⟩
  obtain ⟨rfl, ⟨-, rfl⟩ | ⟨-, rfl⟩⟩ := rootOnly_slot slot
  · exact ⟨by decide, .inl rfl⟩
  · exact ⟨by decide, .inl rfl⟩

theorem rootOnly_resolvable : Resolvable SmallImage.cfg 0 (imageOf rootOnly).boot where
  inv := (rootOnly_formed.wellFormed rfl).kernelInv
  cwd := by decide
  locked := Image.boot_unlocked _
  closed := rootOnly_closed
  whole {i} dir := by
    have all : ∀ i < 10, ((imageOf rootOnly).dinode i).type ≠ .free →
        DIRENT ∣ ((imageOf rootOnly).dinode i).size := by decide
    have live : ((imageOf rootOnly).dinode i).type ≠ .free := fun free => by
      have both := free.symm.trans dir
      cases both
    exact rootOnly_formed.each all live
  room := ⟨1, 2, by decide, by decide, by decide, rfl, rfl⟩

/-- A process in the directory 2, with every entry of the inode cache in use. -/
def crowded : Kernel :=
  { (imageOf rootOnly).boot with
    dinode := fun i => if i ≤ 2 then inodeOf .dir 1 0 0 0 0o755 else inodeOf .file 1 0 0 0 0o644
    icache := fun k => ⟨k + 2, 1, false, false, .zero⟩
    ftable := fun f =>
      if f = 0 then ⟨.none, 0, false, false, none, none, 0⟩
      else ⟨.inode, 1, true, false, none, some f, 0⟩ }

end SmallImage

end Xv6Uac
