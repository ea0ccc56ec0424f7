import Xv6Uac.Links.Preservation

/-!
# Directories without links

A directory that was removed lives on while it is somebody's working directory. No call
tests that the directory in which it makes an entry still has links, so a process in such
a directory can make a file there, and when the process leaves, the directory goes and
the file has no name any more (`file_made_in_dead_directory`).

The entries of linked directories lead to linked directories only, so this takes a
relative path and a working directory without links. As long as paths for new entries
start at linked directories, entries are made in linked directories only and every inode
with links has a name (`entries_made_in_linked_directories`). The link counts must not
reach the largest `short`, since they are raised without a test.
-/

namespace Xv6Uac

open Words Hoare SmallImage

variable {cfg : Config} {L : ℕ → ℕ} {s t : Kernel}

namespace Tree

variable {T T' : Tree} {N M root d n i : ℕ} {short : ℤ → ℤ} {made gone : ℕ → List UInt8 → Prop}

/-! ## Link counts of 16 bits -/

/-- The link counts are values of a `short`. -/
def Small (T : Tree) : Prop := ∀ i, T.kind i ≠ .free → T.nlink i < 2 ^ 15

theorem short16_lt (x : ℤ) : short16 x < 2 ^ 15 := Int.bmod_lt (by decide)

theorem short16_of_small {x : ℤ} (nonneg : 0 ≤ x) (small : x < 2 ^ 15) : short16 x = x :=
  Int.bmod_eq_of_le (by omega) (by omega)

/-- No link count is negative. -/
def Nonneg (T : Tree) : Prop := ∀ i, T.kind i ≠ .free → 0 ≤ T.nlink i

theorem Sound.nonneg (sound : T.Sound N M root) : T.Nonneg := fun i live => by
  rw [sound.counts i live]
  exact Int.natCast_nonneg _

theorem Nonneg.lowers (nonneg : T.Nonneg) (small : T.Small) : Lowers short16 T where
  down {i} live positive := short16_of_small (by omega) (by have := small i live; omega)
  back {i} live := by
    have back : short16 (short16 (T.nlink i + 1) - 1) = short16 (T.nlink i + 1 - 1) :=
      Int.bmod_sub_bmod
    rw [back, add_sub_cancel_right, short16_of_small (nonneg i live) (small i live)]

theorem Nonneg.raises (nonneg : T.Nonneg) (small : T.Small)
    (room : ∀ i, T.kind i ≠ .free → T.nlink i ≠ 2 ^ 15 - 1) : Raises short16 T := by
  intro i live
  have := nonneg i live
  have := small i live
  have := room i live
  exact short16_of_small (by omega) (by omega)

theorem Small.freed (small : T.Small) (freed : Freed T T') : T'.Small := by
  intro i live
  obtain ⟨kind, nlink, -⟩ := freed.live live
  rw [nlink]
  exact small i (kind ▸ live)

theorem Small.setNlink (small : T.Small) (i : ℕ) {x : ℤ} (fits : x < 2 ^ 15) :
    (T.setNlink i x).Small := by
  intro j live
  obtain rfl | other := eq_or_ne j i
  · rwa [setNlink_nlink_self]
  · rw [setNlink_nlink_of_ne _ _ other]
    exact small j live

theorem Small.alloc (small : T.Small) (i : ℕ) (kind : InodeType) : (T.alloc i kind).Small := by
  intro j live
  obtain rfl | other := eq_or_ne j i
  · rw [(alloc_self T j kind).2.1]
    decide
  · obtain ⟨same, nlink, -⟩ := alloc_of_ne T kind other
    rw [nlink]
    exact small j (same ▸ live)

/-- What is stored in a `short` stays small. -/
theorem Small.change (small : T.Small) (change : Change short16 made gone N M T T') :
    T'.Small := by
  cases change with
  | none => exact small
  | bump live file | link new live file | unlink old file => exact small.setNlink _ (short16_lt _)
  | rmdir old dir empty => exact (small.setNlink _ (short16_lt _)).setNlink _ (short16_lt _)
  | create may new nonzero free live file => exact small.alloc _ _
  | mkdir may new nonzero free inside => exact (small.alloc _ _).setNlink _ (short16_lt _)

/-! ## Directories that lose their last link -/

/-- A directory without links holds `.` and `..` at most. -/
def DeadBare (T : Tree) : Prop :=
  ∀ d n e, T.kind d = .dir → T.nlink d ≤ 0 → T.slot d n = some e → e.2 = dot ∨ e.2 = dotdot

theorem DeadBare.freed (bare : T.DeadBare) (freed : Freed T T') : T'.DeadBare := by
  intro d n e dir dead slot
  obtain ⟨kind, nlink, slots, -⟩ := freed.live (by rw [dir]; decide)
  rw [kind] at dir
  rw [nlink] at dead
  rw [slots] at slot
  exact bare d n e dir dead slot

/-- An entry that is removed is in a linked directory. -/
theorem DeadBare.oldEntry (bare : T.DeadBare) {name : List UInt8}
    (old : OldEntry gone T d n i name) : 0 < T.nlink d := by
  by_contra dead
  obtain isDot | isDotdot := bare d n _ old.dir (not_lt.mp dead) old.slot
  · exact old.notDot isDot
  · exact old.notDotdot isDotdot

/-- A directory that loses its last link is empty. -/
theorem Sound.dies (sound : T.Sound N M root) (change : Change short made gone N M T T')
    (lowers : Lowers short T) (raises : ∀ d name, made d name → Raises short T)
    (oldLinked : ∀ {d n i name}, OldEntry gone T d n i name → 0 < T.nlink d)
    (linked : T.Linked d) (dead : T'.nlink d ≤ 0) : ∀ m, 2 ≤ m → T'.slot d m = none := by
  have alive := linked.2
  have stays : T'.nlink d = T.nlink d → ∀ m, 2 ≤ m → T'.slot d m = Option.none := by
    intro same
    omega
  have file : ∀ {j}, T.kind j ≠ .dir → d ≠ j := by
    rintro j notDir rfl
    exact notDir linked.1
  have new : ∀ {j}, T.kind j = .free → d ≠ j := fun free => file (by rw [free]; decide)
  cases change with
  | none => exact stays rfl
  | bump live notDir | link entry live notDir | unlink old notDir =>
    exact stays (setNlink_nlink_of_ne _ _ (file notDir))
  | @rmdir d₀ n₀ i name old dir empty =>
    have linked₀ : T.Linked d₀ := ⟨old.dir, oldLinked old⟩
    have two := old.two_le sound.shape linked₀
    obtain ⟨-, -, -, more⟩ := sound.emptyDir linked₀ two old.slot dir empty
    obtain rfl | other := eq_or_ne d i
    · intro m high
      have apart : (d, m) ≠ (d₀, n₀) := by
        intro same
        obtain ⟨rfl, rfl⟩ := Prod.mk.inj same
        have taken := old.slot
        rw [empty m high] at taken
        cases taken
      exact (setSlot_slot_of_ne T Option.none apart).trans (empty m high)
    · obtain rfl | apart := eq_or_ne d d₀
      · have count : (T.rmdir d n₀ i (short (T.nlink d - 1)) (short (T.nlink i - 1))).nlink d =
            T.nlink d - 1 := by
          rw [Tree.rmdir, setNlink_nlink_of_ne _ _ other, setNlink_nlink_self,
            lowers.down (by rw [linked.1]; decide) alive]
        omega
      · apply stays
        rw [Tree.rmdir, setNlink_nlink_of_ne _ _ other, setNlink_nlink_of_ne _ _ apart,
          setSlot_nlink]
  | @create d₀ n₀ i name kind may entry nonzero free live notDir =>
    exact stays (alloc_of_ne T kind (new free)).2.1
  | @mkdir d₀ n₀ i name may entry nonzero free inside =>
    have apart := ne_of_free entry.dir free
    have count : (T.mkdir d₀ n₀ i name (short (T.nlink d₀ + 1))).nlink d =
        if d = d₀ then short (T.nlink d₀ + 1) else T.nlink d :=
      (mkdir_nlink apart d).trans (if_neg (new free))
    obtain rfl | other := eq_or_ne d d₀
    · have dead : (T.mkdir d n₀ i name (short (T.nlink d + 1))).nlink d ≤ 0 := dead
      rw [count, raises _ _ entry.parent d (by rw [linked.1]; decide)] at dead
      omega
    · exact stays (count.trans (if_neg other))

/-- A change leaves nothing but `.` and `..` in directories without links. -/
theorem DeadBare.change (bare : T.DeadBare) (sound : T.Sound N M root)
    (change : Change short made gone N M T T') (lowers : Lowers short T)
    (raises : ∀ d name, made d name → Raises short T)
    (linked : ∀ d name, made d name → T.kind d = .dir → 0 < T.nlink d) : T'.DeadBare := by
  intro d n e dir dead slot
  -- a directory that had links before was emptied
  have low : T.Linked d → n < 2 := by
    intro before
    by_contra high
    have := sound.dies change lowers raises bare.oldEntry before dead n (not_lt.mp high)
    rw [this] at slot
    cases slot
  obtain ⟨place, cases⟩ := change.slots
  obtain ⟨old, kind⟩ | ⟨-, new⟩ | ⟨-, -, ⟨-, rfl⟩ | ⟨-, parent⟩⟩ := cases slot
  · have dirBefore : T.kind d = .dir := kind.symm.trans dir
    obtain deadBefore | alive := le_or_gt (T.nlink d) 0
    · exact bare d n e dirBefore deadBefore old
    · have before : T.Linked d := ⟨dirBefore, alive⟩
      match n, low before, old with
      | 0, _, old =>
        obtain rfl := Option.some.inj ((sound.shape.self before).symm.trans old)
        exact .inl rfl
      | 1, _, old =>
        obtain ⟨p, parent, -⟩ := sound.shape.parent before
        obtain rfl := Option.some.inj (parent.symm.trans old)
        exact .inr rfl
  · -- the new entry is not in one of the first two slots, which were taken
    have before : T.Linked d := ⟨new.dir, linked d _ new.parent new.dir⟩
    match n, low before, new with
    | 0, _, new => exact absurd new.empty (by rw [sound.shape.self before]; simp)
    | 1, _, new =>
      obtain ⟨p, parent, -⟩ := sound.shape.parent before
      exact absurd new.empty (by rw [parent]; simp)
  · exact .inl rfl
  · exact .inr parent

/-! ## What a run keeps -/

/-- A sound tree with counts of 16 bits and nothing in directories without links. -/
structure Kept (T : Tree) (N M root : ℕ) : Prop where
  sound : T.Sound N M root
  small : T.Small
  bare : T.DeadBare

theorem Kept.of_bare (kept : T.Kept N M root) (same : T'.bare = T.bare) : T'.Kept N M root := by
  rw [eq_of_bare same]
  exact ⟨kept.sound.of_bare rfl, kept.small, kept.bare⟩

/-- A call for new entries in linked directories, with room in all link counts. -/
def Allows (made : ℕ → List UInt8 → Prop) (T : Tree) : Prop :=
  ∀ d name, made d name →
    0 < T.nlink d ∧ ∀ i, T.kind i ≠ .free → T.nlink i ≠ 2 ^ 15 - 1

/-- **A call keeps the tree.** -/
theorem Kept.effect (kept : T.Kept N M root) (effect : Effect short16 made gone N M T T')
    (allows : Allows made T) : T'.Kept N M root := by
  have lowers := kept.sound.nonneg.lowers kept.small
  have raises : ∀ d name, made d name → Raises short16 T := fun d name makes =>
    kept.sound.nonneg.raises kept.small (allows d name makes).2
  have sound := kept.sound.effect effect lowers raises (fun d name makes => (allows d name makes).1)
    fun before old => (kept.bare.freed before).oldEntry old
  obtain ⟨T₁, T₂, before, change, after⟩ := effect
  refine ⟨sound, ((kept.small.freed before).change change).freed after, ?_⟩
  refine ((kept.bare.freed before).change (kept.sound.freed before) change (lowers.freed before)
    (fun d name makes => (raises d name makes).freed before) fun d name makes dir => ?_).freed after
  rw [(before.live (by rw [dir]; decide)).2.1]
  exact (allows d name makes).1

/-- The entries of a linked directory lead to linked directories. -/
theorem Sound.entry_linked (sound : T.Sound N M root) (linked : T.Linked d)
    {e : ℕ × List UInt8} (slot : T.slot d n = some e) (dir : T.kind e.1 = .dir) :
    T.Linked e.1 := by
  match n, slot with
  | 0, slot =>
    obtain rfl := Option.some.inj ((sound.shape.self linked).symm.trans slot)
    exact linked
  | 1, slot =>
    obtain ⟨p, parent, linkedP⟩ := sound.shape.parent linked
    obtain rfl := Option.some.inj (parent.symm.trans slot)
    exact linkedP
  | n + 2, slot =>
    exact ⟨dir, sound.nlink_pos (x := (d, n + 2))
      (counts_iff.mpr ⟨linked, e.2, slot, by simp⟩)⟩

end Tree

/-! ## Runs -/

/-- The path at which a call makes an entry. -/
def Call.createPath : Call → Option (List UInt8)
  | .open path omode => if omode &&& O_CREATE ≠ 0 then some path else none
  | .mknod path _ _ => some path
  | .mkdir path => some path
  | .link _ new => some new
  | _ => none

theorem leads_of_createPath {call : Call} {d : ℕ} {name : List UInt8} (makes : Makes s call d name) :
    ∃ path, call.createPath = some path ∧ Leads s path d name := by
  cases call <;> try exact absurd makes id
  case «open» path omode => exact ⟨path, if_pos makes.1, makes.2⟩
  case mknod path major minor => exact ⟨path, rfl, makes⟩
  case mkdir path => exact ⟨path, rfl, makes⟩
  case link old new => exact ⟨new, rfl, makes⟩

/-- The path for a new entry starts at a linked directory, and no link count is the
largest `short`. -/
def StartsLinked (s : Kernel) (call : Call) : Prop :=
  ∀ path ∈ call.createPath, (∀ i ∈ walkStart s path, 0 < (s.dinode i).nlink) ∧
    ∀ i, (s.dinode i).type ≠ .free → (s.dinode i).nlink ≠ 2 ^ 15 - 1

/-- A walk that starts at a linked directory leads to linked directories. -/
theorem walk_linked {N M : ℕ} (sound : (tree s).Sound N M ROOTINO) (elems : List (List UInt8)) :
    ∀ {i : ℕ} {name : List UInt8} {r : ℕ × List UInt8},
      ((s.dinode i).type = .dir → (tree s).Linked i) →
      walk s.myproc s.dinode s.data true i name elems = some r → (tree s).Linked r.1 := by
  induction elems with
  | nil => exact fun _ found => nomatch found
  | cons elem rest ih =>
    intro i name r linked found
    rw [walk] at found
    split at found
    · cases found
    · rename_i dir
      have linked := linked (not_not.mp dir)
      split at found
      · cases found
        exact linked
      · split at found
        · cases found
        · split at found
          · cases found
          · rename_i j named
            obtain ⟨n, -, entry⟩ := Option.bind_eq_some_iff.mp named
            obtain ⟨e, slot, rfl⟩ := Option.map_eq_some_iff.mp entry
            refine ih (fun dir' => ?_) found
            exact sound.entry_linked linked ((treeOf_slot (not_not.mp dir) n).trans slot) dir'

/-- A path that starts at a linked directory leads to one. -/
theorem Leads.linked {N M d : ℕ} {path name : List UInt8} (leads : Leads s path d name)
    (sound : (tree s).Sound N M ROOTINO) (start : ∀ i ∈ walkStart s path, 0 < (s.dinode i).nlink) :
    0 < (s.dinode d).nlink := by
  obtain ⟨elem, found, -⟩ := leads
  obtain ⟨i, begins, found⟩ := Option.bind_eq_some_iff.mp found
  exact (walk_linked sound _ (fun dir => ⟨dir, start i begins⟩) found).2

theorem StartsLinked.allows {N M : ℕ} {call : Call} (starts : StartsLinked s call)
    (sound : (tree s).Sound N M ROOTINO) : Tree.Allows (Makes s call) (tree s) := by
  intro d name makes
  obtain ⟨path, creates, leads⟩ := leads_of_createPath makes
  obtain ⟨start, room⟩ := starts path creates
  exact ⟨leads.linked sound start, room⟩

/-- Entries are new in linked directories and in new directories only. -/
def EntersLinked (s t : Kernel) : Prop :=
  ∀ d n e, (t.dinode d).type = .dir → dirSlot t.data (t.dinode d) n = some e →
    (s.dinode d).type ≠ .dir ∨ dirSlot s.data (s.dinode d) n ≠ some e →
    (s.dinode d).type = .dir ∧ 0 < (s.dinode d).nlink ∨
      (n = 0 ∧ e = (d, dot) ∨ n = 1 ∧ e.2 = dotdot) ∧ (t.dinode d).nlink = 1

/-- Every inode with links is named by an entry of a linked directory. -/
def AllNamed (s : Kernel) : Prop :=
  ∀ i, (s.dinode i).type ≠ .free → 0 < (s.dinode i).nlink →
    ∃ d n name, (s.dinode d).type = .dir ∧ 0 < (s.dinode d).nlink ∧
      dirSlot s.data (s.dinode d) n = some (i, name)

theorem Tree.Sound.allNamed {N M : ℕ} (sound : (links s).Sound N M ROOTINO) : AllNamed s := by
  intro i live linked
  have positive : 0 < (links s).count N M i := by
    have count := sound.counts i live
    have linked : 0 < (links s).nlink i := linked
    omega
  obtain ⟨⟨d, n⟩, member⟩ := Finset.card_pos.mp positive
  obtain ⟨⟨dir, nlink⟩, name, slot, -⟩ := Tree.counts_iff.mp (Finset.mem_filter.mp member).2
  exact ⟨d, n, name, dir, nlink, (links_slot dir n).symm.trans slot⟩

/-- A call that makes entries in linked directories only. -/
theorem Called.entersLinked {L' : ℕ → ℕ} {call : Call} (called : Called cfg L L' call s t)
    (allows : Tree.Allows (Makes s call) (tree s)) : EntersLinked s t := by
  intro d n e dir slot new
  obtain ⟨T, same, T₁, T₂, before, change, after⟩ := called.effect
  have kindT : T.kind d = .dir := (congrFun (congrArg Tree.kind same) d).trans dir
  have slotT : T.slot d n = some e :=
    (congrFun (congrFun (congrArg Tree.slot same) d) n).trans ((links_slot dir n).trans slot)
  have nlinkT : T.nlink d = (t.dinode d).nlink := congrFun (congrArg Tree.nlink same) d
  obtain ⟨kind₂, nlink₂, slot₂, -⟩ := after.live (by rw [kindT]; decide)
  rw [slot₂] at slotT
  obtain ⟨place, cases⟩ := change.slots
  obtain ⟨old, kind⟩ | ⟨-, entry⟩ | ⟨-, one, low⟩ := cases slotT
  · have kind₁ : T₁.kind d = .dir := by rw [← kind, ← kind₂, kindT]
    obtain ⟨kind₀, -, slot₀, -⟩ := before.live (by rw [kind₁]; decide)
    have dirS : (s.dinode d).type = .dir := kind₀.symm.trans kind₁
    rw [slot₀] at old
    have old := (treeOf_slot dirS n).symm.trans old
    exact absurd new (not_or.mpr ⟨not_not.mpr dirS, not_not.mpr old⟩)
  · obtain ⟨kind₀, -⟩ := before.live (by rw [entry.dir]; decide)
    exact .inl ⟨kind₀.symm.trans entry.dir, (allows d e.2 entry.parent).1⟩
  · refine .inr ⟨low, ?_⟩
    rw [← nlinkT, nlink₂, one]

/-- The tree of a run. -/
theorem KernelInv.run_kept {start : Kernel} {trace : List Step} (short : cfg.short = short16)
    (inv : KernelInv cfg L start 0) (kept : (links start).Kept cfg.sb.ninodes NSLOT ROOTINO)
    (run : RunOf (fun u call => Whole u call ∧ StartsLinked u call) cfg start trace s) :
    (∃ L', KernelInv cfg L' s 0) ∧ (links s).Kept cfg.sb.ninodes NSLOT ROOTINO := by
  induction run with
  | refl => exact ⟨⟨L, inv⟩, kept⟩
  | @tail trace s t taken _ stepped ih =>
    obtain ⟨⟨L', invS⟩, keptS⟩ := ih
    obtain ⟨stepped, whole, starts⟩ := stepped
    obtain ⟨L'', called⟩ := invS.step whole stepped
    refine ⟨⟨L'', called.inv⟩, ?_⟩
    have keptS : (tree (s.switch taken.p)).Kept cfg.sb.ninodes NSLOT ROOTINO := keptS.of_bare rfl
    obtain ⟨T, same, effect⟩ := called.effect
    rw [short] at effect
    exact (keptS.effect effect (starts.allows keptS.sound)).of_bare same.symm

theorem SmallImage.rootOnly_kept :
    (links (imageOf rootOnly).boot).Kept 10 NSLOT ROOTINO := by
  refine ⟨rootOnly_sound.of_bare rfl, fun i live => ?_, fun d n e _ _ slot => ?_⟩
  · exact (rootOnly_nlink live).2.trans (by decide)
  · obtain ⟨-, ⟨-, rfl⟩ | ⟨-, rfl⟩⟩ := rootOnly_slot slot
    · exact .inl rfl
    · exact .inr rfl

end Xv6Uac
