import Xv6Uac.Links.Image

/-!
# The parts of a call that change the tree

A call changes the tree in a few places: it sets a link count, it writes or clears an
entry, or it fills in a new inode. Between two such places it only takes and drops
references (`Quiet`). One lemma per place says how the tree has changed. `Works`
describes the state in the middle of such a place, where inodes may still have to be
written to disk.
-/

namespace Xv6Uac

open Words Hoare
open Function (update_of_ne update_self)

variable {cfg : Config} {F F' : ℕ → Dinode} {D : Set ℕ} {s t : Kernel} {i k : ℕ}
  {L δ ε : ℕ → ℕ} {p : Proc}

/-- The entry that is written lies within the largest directory. -/
theorem SetSlot.inside {n : ℕ} {e : Option (ℕ × List UInt8)} (set : SetSlot cfg F F' D i n e s t)
    (live : (F i).type ≠ .free) : i < cfg.sb.ninodes ∧ n < NSLOT := by
  have live' : (F' i).type ≠ .free := by rwa [set.type_eq]
  refine ⟨set.fsInv.layout.inode_lt live', ?_⟩
  have fits : DIRENT * n + DIRENT ≤ (F' i).size := by
    rw [set.fields]
    exact le_max_right _ _
  have := set.fsInv.layout.size_le live'
  simp only [NSLOT, DIRENT, DIRSIZ] at *
  omega

/-- A name that `dirFind` does not find is in no slot. -/
theorem treeOf_absent {data : ℕ → Bytes} {name : List UInt8} (dir : (F i).type = .dir)
    (absent : mayExecute p (F i) = true → dirFind data (F i) name = none)
    (may : (treeOf p F data).search i = true) {n : ℕ} {e : ℕ × List UInt8}
    (slot : (treeOf p F data).slot i n = some e) : e.2 ≠ nameOf name := by
  rw [treeOf_slot dir] at slot
  exact dirFind_eq_none (absent may) slot

/-! ## In the middle of a change -/

/-- The state `t` in the middle of a change that started in `s`. -/
structure Works (cfg : Config) (L : ℕ → ℕ) (s : Kernel) (F : ℕ → Dinode) (D : Set ℕ) (t : Kernel)
    (ε : ℕ → ℕ) : Prop where
  fsInv : FsInv cfg F D t
  named : Named cfg F t.data
  outside : Outside s t
  kept : Kept s t ε

namespace Works

theorem start (inv : KernelInv cfg L s δ) : Works cfg L s s.dinode ∅ s 0 :=
  ⟨inv.fs, inv.named, .refl s, .refl s⟩

/-- The end of a change. -/
theorem phase (works : Works cfg L s F ∅ t ε) (inv : KernelInv cfg L s δ) (zero : (F 0).type = .free)
    (types : ∀ j, (s.dinode j).type ≠ .free → (F j).type = (s.dinode j).type) :
    Phase cfg L s t δ (δ + ε) :=
  inv.phase works.fsInv works.named works.outside works.kept zero fun _ _ => types _

theorem tree (works : Works cfg L s F ∅ t ε) : tree t = treeOf s.myproc F t.data := by
  rw [Xv6Uac.tree, works.outside.myproc, works.fsInv.dinode]

section

variable (works : Works cfg L s F D t ε)
include works

/-- A change in a held entry. -/
theorem modify (held : Held t k i) {f : Dinode → Dinode} (type : (f (F i)).type = (F i).type)
    (layout : Layout cfg (Function.update F i (f (F i))) ∅ t.bitmap t.data)
    (named : Named cfg (Function.update F i (f (F i))) t.data) :
    wp Benign (modifyDinode k f) (fun _ u =>
      Works cfg L s (Function.update F i (f (F i))) (insert i D) u ε ∧ u.data = t.data ∧
        Kept t u 0) t := by
  obtain ⟨shows, live⟩ := works.fsInv.cached.held held
  rw [modifyDinode, modifyInode, wp_update, shows]
  have kept := Kept.setInode t k (f (F i))
  have total := works.kept.trans kept
  exact ⟨⟨⟨works.fsInv.cached.setHeld held (by rwa [type]), layout⟩, named,
    works.outside.trans ⟨rfl, rfl, rfl⟩, total⟩, rfl, kept⟩

/-- A change of attributes in a held entry. -/
theorem modifyAttrs (held : Held t k i) {f : Dinode → Dinode} (type : (f (F i)).type = (F i).type)
    (addrs : (f (F i)).addrs = (F i).addrs) (size : (f (F i)).size = (F i).size) :
    wp Benign (modifyDinode k f) (fun _ u =>
      Works cfg L s (Function.update F i (f (F i))) (insert i D) u ε ∧ u.data = t.data ∧
        Kept t u 0) t := by
  apply works.modify held type (works.fsInv.layout.setAttrs type addrs size)
  intro j n e dir slot
  obtain rfl | other := eq_or_ne j i
  · rw [update_self] at dir slot
    rw [dirSlot_congr (by rw [size]) fun _ o _ _ => content_congr t.data addrs o] at slot
    exact works.named (type ▸ dir) slot
  · rw [update_of_ne other] at dir slot
    exact works.named dir slot

/-- A change that reaches the disk. -/
theorem iupdate (held : Held t k i) :
    wp Benign (iupdate cfg k) (fun _ u => Works cfg L s F (D \ {i}) u ε ∧ u.data = t.data ∧
      Kept t u 0) t := by
  apply (iupdate_spec works.fsInv.cached held).mono
  rintro _ u ⟨lh, rfl, cached⟩
  have kept : Kept t { t with dinode := Function.update t.dinode i (F i), lh := lh } 0 :=
    (Kept.refl t).congr rfl
  have total := works.kept.trans kept
  exact ⟨⟨⟨cached, works.fsInv.layout⟩, works.named, works.outside.trans ⟨rfl, rfl, rfl⟩, total⟩,
    rfl, kept⟩

theorem ilock (clean : (t.icache k).inum ∉ D) :
    wp Benign (ilock cfg k) (fun _ u => Works cfg L s F D u ε ∧ u.data = t.data ∧ Kept t u 0 ∧
      Held u k (t.icache k).inum) t := by
  apply (ilock_spec works.fsInv.cached clean).mono
  rintro _ u ⟨ip, rfl, cached, held, kept, _⟩
  have total := works.kept.trans kept
  exact ⟨⟨⟨cached, works.fsInv.layout⟩, works.named, works.outside.trans ⟨rfl, rfl, rfl⟩, total⟩,
    rfl, kept, held⟩

/-- A new entry, unless the name is found. -/
theorem dirlink (held : Held t k i) (name : List UInt8) {x : ℕ} (small : x < cfg.sb.ninodes)
    (nonzero : x ≠ 0) :
    wp Benign (dirlink cfg k name x) (fun r u => r < 0 ∨
      r = 0 ∧ (F i).type = .dir ∧
        (mayExecute s.myproc (F i) = true → dirFind t.data (F i) name = none) ∧
        ∃ F' n, dirSlot t.data (F i) n = none ∧
          (DIRENT * n + DIRENT ≤ (F i).size ∨ DIRENT * n = (F i).size) ∧
          SetSlot cfg F F' D i n (some (x, nameOf name)) t u ∧ Works cfg L s F' D u ε) t := by
  refine (dirlink_spec works.fsInv held works.named name small).mono fun r u ⟨dir, linked⟩ => ?_
  rw [newEntry, if_pos nonzero] at linked
  obtain ⟨failed, -⟩ | ⟨done, absent, F', n, empty, room, set⟩ := linked
  · exact .inl (by rw [failed]; decide)
  · rw [works.outside.myproc] at absent
    refine .inr ⟨done, dir, absent, F', n, empty, room, set, set.fsInv, ?_,
      works.outside.trans set.outside, ?_⟩
    · apply set.named works.named
      rintro e ⟨⟩
      exact small
    · have total := works.kept.trans set.kept
      rwa [add_zero] at total

end

/-- A new inode. No entry of the cache shows a free inode, so none is out of date. -/
theorem ialloc (works : Works cfg L s F ∅ t ε) (type : InodeType) :
    wp Benign (ialloc cfg type) (fun k u => ∃ i, i ≠ 0 ∧ i < cfg.sb.ninodes ∧
      (F i).type = .free ∧ (u.icache k).inum = i ∧ u.data = t.data ∧
      Works cfg L s (Function.update F i { Dinode.zero with type := type }) ∅ u
        (ε + Pi.single k 1) ∧ Kept t u (Pi.single k 1)) t := by
  rw [Xv6Uac.ialloc, wp_read]
  split
  · simp [panic, Benign]
  · rename_i i found
    have inside : i < cfg.sb.ninodes := List.mem_range.mp (List.mem_of_find?_eq_some found)
    have first := List.find?_some found
    rw [works.fsInv.dinode] at first
    obtain ⟨one, free⟩ : 1 ≤ i ∧ (F i).type = .free := by simpa using first
    rw [wp_bind, wp_update]
    apply (logWrite_spec _).seq
    rintro _ u ⟨lh, same⟩
    have cached : Cached cfg (Function.update F i { Dinode.zero with type := type }) ∅ u := by
      have before := works.fsInv.cached
      subst same
      refine ⟨before.nonneg, before.inside, before.bound, before.unique, fun {j} used valid => ?_,
        fun {j} _ => ?_⟩
      · have shown := before.shows used valid
        have other : (t.icache j).inum ≠ i := fun same => shown.2 (by rw [same]; exact free)
        rwa [update_of_ne other]
      · rw [works.fsInv.dinode]
    apply (iget_spec cached inside).mono
    rintro k v ⟨ip, same', cached', inum, kept, _⟩
    subst same' same
    have kept : Kept t _ (Pi.single k 1) := ⟨kept.ref, kept.inum, kept.valid⟩
    refine ⟨i, by omega, inside, free, by simpa using inum, rfl, ⟨⟨cached', ?_⟩, ?_,
      works.outside.trans ⟨rfl, rfl, rfl⟩, works.kept.trans kept⟩, kept⟩
    · exact works.fsInv.layout.alloc inside free type
    · intro j n e dir slot
      obtain rfl | other := eq_or_ne j i
      · have := (dirSlot_eq_some slot).1
        simp [Dinode.zero] at this
      · rw [update_of_ne other] at dir slot
        exact works.named dir slot

end Works

/-! ## Changes of one thing -/

namespace KernelInv

variable (inv : KernelInv cfg L s δ)
include inv

section

variable (held : Held s k i)
include held

/-- The end of a change in one inode, which is written to disk. -/
theorem written {d : Dinode} (type : d.type = (s.dinode i).type)
    (works : Works cfg L s (Function.update s.dinode i d) (insert i ∅) t 0) (data : t.data = s.data)
    (kept : Kept s t 0) :
    wp Benign (iupdate cfg k) (fun _ u => Phase cfg L s u δ δ ∧ u.data = s.data ∧ Held u k i ∧
      u.dinode = Function.update s.dinode i d) t := by
  refine (works.iupdate (kept.held held)).mono fun _ u ⟨works', data', kept'⟩ => ?_
  rw [Set.insert_sdiff_of_mem _ (Set.mem_singleton i), Set.empty_sdiff] at works'
  have types : ∀ j, (Function.update s.dinode i d j).type = (s.dinode j).type := by
    intro j
    obtain rfl | other := eq_or_ne j i
    · rw [update_self, type]
    · rw [update_of_ne other]
  have phase := works'.phase inv ((types 0).trans inv.zero) fun j _ => types j
  exact ⟨phase, data'.trans data, kept'.held (kept.held held), works'.fsInv.dinode⟩

/-- A change of attributes that is written to disk. -/
theorem setAttrs (f : Dinode → Dinode) (type : ∀ d, (f d).type = d.type)
    (addrs : ∀ d, (f d).addrs = d.addrs) (size : ∀ d, (f d).size = d.size) :
    wp Benign (modifyDinode k f) (fun _ t => wp Benign (iupdate cfg k) (fun _ u =>
      Phase cfg L s u δ δ ∧ u.data = s.data ∧ Held u k i ∧
        u.dinode = Function.update s.dinode i (f (s.dinode i))) t) s :=
  ((Works.start inv).modifyAttrs held (type _) (addrs _) (size _)).mono
    fun _ _ ⟨works, data, kept⟩ => inv.written held (type _) works data kept

/-- A change of the size of a file that is written to disk. The blocks below the new
size must be there. -/
theorem setSize {x : ℕ} (notDir : (s.dinode i).type ≠ .dir) (small : x ≤ MAXFILE * BSIZE)
    (full : ∀ n, n * BSIZE < x → place s.data (s.dinode i) (slotOf n) ≠ 0) :
    wp Benign (modifyDinode k fun d => { d with size := x }) (fun _ t =>
      wp Benign (iupdate cfg k) (fun _ u => Phase cfg L s u δ δ ∧ u.data = s.data ∧ Held u k i ∧
        u.dinode = Function.update s.dinode i { s.dinode i with size := x }) t) s := by
  refine ((Works.start inv).modify held rfl ?_ ?_).mono
    fun _ _ ⟨works, data, kept⟩ => inv.written held rfl works data kept
  · exact inv.fs.layout.setInode Iff.rfl rfl (fun _ => full) fun _ => small
  · intro j n e dir slot
    obtain rfl | other := eq_or_ne j i
    · rw [update_self] at dir
      exact absurd dir notDir
    · rw [update_of_ne other] at dir slot
      exact inv.named dir slot

/-- A link count that is written to disk. -/
theorem setNlink (f : ℤ → ℤ) :
    wp Benign (modifyDinode k fun d => { d with nlink := f d.nlink })
      (fun _ t => wp Benign (iupdate cfg k) (fun _ u =>
        Phase cfg L s u δ δ ∧ u.data = s.data ∧ Held u k i ∧ (∀ j, j ≠ i → u.dinode j = s.dinode j) ∧
          tree u = (tree s).setNlink i (f ((tree s).nlink i))) t) s := by
  refine (inv.setAttrs held (fun d => { d with nlink := f d.nlink }) (fun _ => rfl) (fun _ => rfl)
    (fun _ => rfl)).mono fun _ t inner => inner.mono fun _ u ⟨phase, data, held', disk⟩ => ?_
  refine ⟨phase, data, held', fun j other => ?_, ?_⟩
  · rw [disk, update_of_ne other]
  · rw [tree, phase.outside.myproc, disk, data]
    exact treeOf_setAttrs rfl rfl rfl rfl

/-- Looking for an entry. -/
theorem dirlookup (name : List UInt8) :
    wp Benign (dirlookup cfg k name) (fun out t => (s.dinode i).type = .dir ∧
      match out with
      | none => t = s ∧
          ((tree s).search i = true → dirFind s.data (s.dinode i) name = none)
      | some (l, off) => (tree s).search i = true ∧ ∃ n j, off = DIRENT * n ∧
          DIRENT * n + DIRENT ≤ (s.dinode i).size ∧
          (tree s).slot i n = some (j, nameOf name) ∧ lookup s.data (s.dinode i) name = some j ∧
          (t.icache l).inum = j ∧ Quiet cfg L s t δ (δ + Pi.single l 1) ∧ t.dinode = s.dinode ∧
          Kept s t (Pi.single l 1) ∧
          ∀ m, 0 < (s.icache m).ref → (t.icache m).locked = (s.icache m).locked) s := by
  refine (dirlookup_spec inv.fs held inv.named name).mono fun out t ⟨dir, found⟩ => ⟨dir, ?_⟩
  cases out with
  | none => exact found
  | some result =>
    obtain ⟨l, off⟩ := result
    obtain ⟨may, n, j, at_, first, slot, ip, same, cached, inum, kept, locked⟩ := found
    refine ⟨may, n, j, at_, (dirSlot_eq_some slot).1, (treeOf_slot dir n).trans slot, ?_, ?_, ?_,
      ?_, kept, fun m used => ?_⟩
    · rw [lookup, first, Option.bind_some, slot, Option.map_some]
    · rw [same]
      simpa using inum
    · subst same
      have quiet := inv.quiet_of_shrinks ((Shrinks.refl inv.fs).step cached kept)
      rwa [zero_add] at quiet
    · rw [same]
    · rw [same]
      dsimp only
      obtain rfl | other := eq_or_ne m l
      · rw [update_self, locked used]
      · rw [update_of_ne other]

end

/-- A write of one slot. -/
theorem phase_of_setSlot {n : ℕ} {e : Option (ℕ × List UInt8)}
    (set : SetSlot cfg s.dinode F ∅ i n e s t) (dir : (s.dinode i).type = .dir)
    (inside : ∀ x ∈ e, x.1 < cfg.sb.ninodes) :
    Phase cfg L s t δ δ ∧ tree t = (tree s).setSlot i n e := by
  have phase := inv.phase set.fsInv (set.named inv.named inside) set.outside set.kept
    ((set.type_eq 0).trans inv.zero) fun j _ _ => set.type_eq _
  refine ⟨phase, ?_⟩
  rw [tree, set.outside.myproc, set.fsInv.dinode]
  exact set.tree dir

/-- The entry that `unlink` clears. -/
theorem clearEntry (held : Held s k i) (dir : (s.dinode i).type = .dir) {n : ℕ}
    (fits : DIRENT * n + DIRENT ≤ (s.dinode i).size) :
    wp Benign (writei cfg k (List.replicate DIRENT 0) (DIRENT * n)) (fun r t => r = DIRENT →
      Phase cfg L s t δ δ ∧ tree t = (tree s).setSlot i n none) s := by
  refine (writeEntry_spec inv.fs held dir (List.length_replicate ..) (.inl fits)).mono
    fun r t written full => ?_
  obtain ⟨F', set⟩ := written full
  exact inv.phase_of_setSlot set dir fun x none => absurd none (by simp)

/-- The entry that `link` makes. -/
theorem dirlink (held : Held s k i) (name : List UInt8) {x : ℕ} (small : x < cfg.sb.ninodes)
    (nonzero : x ≠ 0) :
    wp Benign (dirlink cfg k name x) (fun r t => (r < 0 ∧ Quiet cfg L s t δ δ) ∨
      (r = 0 ∧ Phase cfg L s t δ δ ∧ (s.dinode i).type = .dir ∧
        ((tree s).search i = true → dirFind s.data (s.dinode i) name = none) ∧
        ∃ n, (tree s).slot i n = none ∧ (i < cfg.sb.ninodes ∧ n < NSLOT) ∧
          tree t = (tree s).setSlot i n (some (x, nameOf name)))) s := by
  refine (dirlink_spec inv.fs held inv.named name small).mono fun r t ⟨dir, linked⟩ => ?_
  rw [newEntry, if_pos nonzero] at linked
  obtain ⟨failed, F', run⟩ | ⟨done, absent, F', n, empty, -, set⟩ := linked
  · refine .inl ⟨by rw [failed]; decide, ?_⟩
    have quiet := inv.quiet_of_shrinks run
    rwa [add_zero] at quiet
  · have inside : ∀ e ∈ some (x, nameOf name), e.1 < cfg.sb.ninodes := by
      rintro e ⟨⟩
      exact small
    obtain ⟨phase, after⟩ := inv.phase_of_setSlot set dir inside
    exact .inr ⟨done, phase, dir, absent, n, (treeOf_slot dir n).trans empty,
      set.inside (by rw [dir]; decide), after⟩

end KernelInv

end Xv6Uac
