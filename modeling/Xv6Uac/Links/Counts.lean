import Xv6Uac.Links.Tree

/-!
# Link counts under changes of the tree

Each way in which a call changes the tree keeps a well-formed tree with right
counts: freeing inodes (`Sound.freed`), adding and removing an entry of a file
(`Sound.addLink`, `Sound.removeLink`), removing an empty directory
(`Sound.removeDir`), and making a file or a directory (`Sound.create`,
`Sound.mkdir`). A change makes or unmakes one or two links, and the count of an
inode follows a single slot at a time (`count_succ`).
-/

namespace Xv6Uac.Tree

open Finset

variable {T T' : Tree} {N M root : ℕ}

/-! ## Counting -/

variable {i : ℕ} {x : ℕ × ℕ}

theorem count_congr (same : ∀ x, T'.Counts i x ↔ T.Counts i x) :
    T'.count N M i = T.count N M i := by
  simp only [count, same]

/-- One more slot counts. -/
theorem count_succ (inside : x.1 < N ∧ x.2 < M) (before : ¬T.Counts i x) (after : T'.Counts i x)
    (same : ∀ y, y ≠ x → (T'.Counts i y ↔ T.Counts i y)) : T'.count N M i = T.count N M i + 1 := by
  have inserted : (Finset.range N ×ˢ Finset.range M).filter (T'.Counts i) =
      insert x ((Finset.range N ×ˢ Finset.range M).filter (T.Counts i)) := by
    ext y
    obtain rfl | other := eq_or_ne y x
    · simp [inside, after]
    · simp [other, same y other]
  rw [count, inserted, card_insert_of_notMem]
  · rfl
  · simp [before]

/-- A slot that gets an entry adds a link to the inode that the entry names. -/
theorem count_toggle {d n : ℕ} {name : List UInt8} (linked : ∀ d, T'.Linked d ↔ T.Linked d)
    (slots : ∀ d' n', T.Linked d' → (d', n') ≠ (d, n) → T'.slot d' n' = T.slot d' n')
    (here : T.Linked d) (inside : d < N ∧ n < M) (empty : T.slot d n = none)
    (slot : T'.slot d n = some (i, name)) (later : n ≠ 0) (j : ℕ) :
    T'.count N M j = T.count N M j + if j = i then 1 else 0 := by
  have same : ∀ y, y ≠ (d, n) → (T'.Counts j y ↔ T.Counts j y) := by
    intro y other
    rw [counts_iff, counts_iff, linked]
    exact and_congr_right fun isLinked => by rw [slots y.1 y.2 isLinked other]
  have before : ¬T.Counts j (d, n) := by
    rw [counts_iff]
    simp [empty]
  by_cases this : j = i
  · subst this
    rw [if_pos rfl]
    exact count_succ (x := (d, n)) inside before
      (counts_iff.mpr ⟨(linked d).mpr here, name, slot, later⟩) same
  · rw [if_neg this]
    refine count_congr fun y => ?_
    by_cases at_ : y = (d, n)
    · subst at_
      refine iff_of_false (fun counts => this ?_) before
      obtain ⟨-, x, named, -⟩ := counts_iff.mp counts
      exact congrArg Prod.fst (Option.some.inj (named.symm.trans slot))
    · exact same y at_

/-- A slot that counts makes the count positive. -/
theorem count_pos (within : T.Within N M) (counts : T.Counts i x) : 0 < T.count N M i := by
  obtain ⟨-, name, slot, -⟩ := counts_iff.mp counts
  have inside := within x.1 x.2 (by rw [slot]; simp)
  refine Finset.card_pos.mpr ⟨x, ?_⟩
  simp [inside, counts]

/-- Two slots that count. -/
theorem one_lt_count {y : ℕ × ℕ} (within : T.Within N M) (first : T.Counts i x)
    (second : T.Counts i y) (other : x ≠ y) : 1 < T.count N M i := by
  have inside : ∀ {z}, T.Counts i z →
      z ∈ (Finset.range N ×ˢ Finset.range M).filter (T.Counts i) := by
    intro z counts
    obtain ⟨-, name, slot, -⟩ := counts_iff.mp counts
    have inside := within z.1 z.2 (by rw [slot]; simp)
    simp [inside, counts]
  exact Finset.one_lt_card.mpr ⟨x, inside first, y, inside second, other⟩

/-- Only one slot counts. -/
theorem count_le_one (only : ∀ y, T.Counts i y → y = x) : T.count N M i ≤ 1 := by
  refine Finset.card_le_one.mpr fun y member z member' => ?_
  rw [mem_filter] at member member'
  exact (only y member.2).trans (only z member'.2).symm

theorem WellFormed.linked_parent (shape : T.WellFormed root) {d p : ℕ} (linked : T.Linked d)
    (slot : T.slot d 1 = some (p, dotdot)) : T.Linked p := by
  obtain ⟨p', slot', parent⟩ := shape.parent linked
  obtain rfl : p' = p := congrArg Prod.fst (Option.some.inj (slot'.symm.trans slot))
  exact parent

/-- The tree of directories does not depend on a slot that names a file. -/
theorem WellFormed.fileSlot (shape : T.WellFormed root) {d₀ n₀ : ℕ}
    (linked : ∀ d, T'.Linked d ↔ T.Linked d) (two : 2 ≤ n₀)
    (slots : ∀ d n, T.Linked d → (d, n) ≠ (d₀, n₀) → T'.slot d n = T.slot d n)
    (named : ∀ {d n e}, T.Linked d → T.slot d n = some e → T'.kind e.1 = T.kind e.1)
    (zero : T'.kind 0 = .free) (old : ∀ e ∈ T.slot d₀ n₀, T.kind e.1 ≠ .dir)
    (new : ∀ e ∈ T'.slot d₀ n₀, T'.kind e.1 ≠ .free ∧ T'.kind e.1 ≠ .dir) :
    T'.WellFormed root := by
  have low : ∀ {d n}, T.Linked d → n < 2 → T'.slot d n = T.slot d n :=
    fun isLinked small => slots _ _ isLinked (slot_ne_of_lt two small)
  refine ⟨zero, (linked root).mpr shape.root_linked, ?_, ?_, ?_, ?_, ?_, ?_, ?_⟩
  · rw [low shape.root_linked (by decide), shape.root_parent]
  · intro d n e isLinked slot
    rw [linked] at isLinked
    by_cases here : (d, n) = (d₀, n₀)
    · cases here
      exact (new e slot).1
    · rw [slots d n isLinked here] at slot
      rw [named isLinked slot]
      exact shape.target isLinked slot
  · intro d isLinked
    rw [linked] at isLinked
    rw [low isLinked (by decide), shape.self isLinked]
  · intro d isLinked
    rw [linked] at isLinked
    obtain ⟨p, slot, parent⟩ := shape.parent isLinked
    exact ⟨p, by rw [low isLinked (by decide), slot], (linked p).mpr parent⟩
  · intro d p isLinked notRoot slot
    rw [linked] at isLinked
    rw [low isLinked (by decide)] at slot
    obtain ⟨n, name, two', child⟩ := shape.home isLinked notRoot slot
    refine ⟨n, name, two', ?_⟩
    rw [slots p n (shape.linked_parent isLinked slot) fun here => ?_, child]
    cases here
    exact old _ child isLinked.1
  · intro d d' n n' e e' isLinked isLinked' two' two'' slot slot' same dir
    rw [linked] at isLinked isLinked'
    have elsewhere : ∀ {d n e}, T'.slot d n = some e → T'.kind e.1 = .dir →
        (d, n) ≠ (d₀, n₀) := by
      intro d n e slot dir here
      cases here
      exact (new e slot).2 dir
    rw [slots d n isLinked (elsewhere slot dir)] at slot
    rw [slots d' n' isLinked' (elsewhere slot' (same ▸ dir))] at slot'
    rw [named isLinked slot] at dir
    exact shape.once isLinked isLinked' two' two'' slot slot' same dir
  · intro d n e isLinked two' slot
    rw [linked] at isLinked
    by_cases here : (d, n) = (d₀, n₀)
    · cases here
      intro same
      have rootDir := ((linked root).mpr shape.root_linked).1
      exact (new e slot).2 (same ▸ rootDir)
    · rw [slots d n isLinked here] at slot
      exact shape.notRoot isLinked two' slot

/-- A well-formed tree with right link counts. -/
structure Sound (T : Tree) (N M root : ℕ) : Prop where
  within : T.Within N M
  shape : T.WellFormed root
  counts : T.Consistent N M

namespace Sound

/-- An inode that an entry of a linked directory names has links. -/
theorem nlink_pos (sound : T.Sound N M root) {i : ℕ} {x : ℕ × ℕ} (counts : T.Counts i x) :
    0 < T.nlink i := by
  obtain ⟨linked, name, slot, -⟩ := counts_iff.mp counts
  rw [sound.counts i (sound.shape.target linked slot)]
  exact_mod_cast count_pos sound.within counts

/-- **Freeing inodes without links.** -/
theorem freed (sound : T.Sound N M root) (freed : Freed T T') : T'.Sound N M root := by
  have linked : ∀ {d}, T'.Linked d ↔ T.Linked d := by
    intro d
    obtain ⟨kind, nlink, -⟩ | ⟨-, unlinked, gone, -⟩ := freed d
    · rw [Linked, Linked, kind, nlink]
    · simp [Linked, gone, unlinked]
  have slots : ∀ {d}, T.Linked d → T'.slot d = T.slot d := fun {d} isLinked =>
    (freed.live (by rw [(linked.mpr isLinked).1]; decide)).2.2.1
  have counts : ∀ i x, T'.Counts i x ↔ T.Counts i x := by
    intro i x
    rw [counts_iff, counts_iff, linked]
    exact and_congr_right fun isLinked => by rw [slots isLinked]
  -- an inode that a linked directory names is not freed
  have named : ∀ {d n e}, T.Linked d → T.slot d n = some e → T'.kind e.1 = T.kind e.1 := by
    intro d n e isLinked slot
    obtain ⟨kind, -⟩ | ⟨-, unlinked, -⟩ := freed e.1
    · exact kind
    · by_cases zero : n = 0
      · rw [zero, sound.shape.self isLinked] at slot
        cases slot
        exact absurd isLinked.2 (by rw [unlinked]; decide)
      · have pos := sound.nlink_pos (x := (d, n)) (counts_iff.mpr ⟨isLinked, e.2, slot, zero⟩)
        omega
  have within := freed.within sound.within
  -- no slot changes, and the slot 2 of inode `N` is empty
  have empty : ∀ {S : Tree}, S.Within N M → S.slot N 2 = none := fun within =>
    not_not.mp fun some => Nat.lt_irrefl N (within N 2 some).1
  have old : ∀ e ∈ T.slot N 2, T.kind e.1 ≠ .dir := by simp [empty sound.within]
  refine ⟨within, sound.shape.fileSlot (fun _ => linked) le_rfl
    (fun d n isLinked _ => by rw [slots isLinked]) named ?_ old (by simp [empty within]),
    fun i live => ?_⟩
  · obtain ⟨kind, -⟩ | ⟨-, -, gone, -⟩ := freed 0
    · rw [kind, sound.shape.zero]
    · exact gone
  · obtain ⟨kind, nlink, -⟩ := freed.live live
    rw [nlink, count_congr (counts i)]
    exact sound.counts i (kind ▸ live)

end Sound

/-- Permissions have nothing to do with links. -/
theorem Sound.of_bare (sound : T.Sound N M root) (same : T'.bare = T.bare) :
    T'.Sound N M root := by
  rw [eq_of_bare same]
  exact ⟨sound.within, { sound.shape with }, sound.counts⟩

/-! ## Entries of files -/

/-- The first two slots of a linked directory are taken. -/
theorem WellFormed.two_le (shape : T.WellFormed root) {d n : ℕ} (linked : T.Linked d)
    (other : ∀ e ∈ T.slot d n, e.2 ≠ dot ∧ e.2 ≠ dotdot) : 2 ≤ n := by
  match n with
  | 0 => exact absurd rfl (other _ (shape.self linked)).1
  | 1 =>
    obtain ⟨p, slot, -⟩ := shape.parent linked
    exact absurd rfl (other _ slot).2
  | n + 2 => omega

namespace Sound

/-- One slot that names a file is changed. -/
theorem fileSlot (sound : T.Sound N M root) {d n : ℕ} (inside : d < N ∧ n < M)
    (isLinked : ∀ d', T'.Linked d' ↔ T.Linked d') (two : 2 ≤ n)
    (slots : ∀ d' n', T.Linked d' → (d', n') ≠ (d, n) → T'.slot d' n' = T.slot d' n')
    (fewer : ∀ d' n', (d', n') ≠ (d, n) → T'.slot d' n' ≠ none → T.slot d' n' ≠ none)
    (kinds : ∀ j, T.kind j ≠ .free → T'.kind j = T.kind j) (zero : T'.kind 0 = .free)
    (old : ∀ e ∈ T.slot d n, T.kind e.1 ≠ .dir)
    (new : ∀ e ∈ T'.slot d n, T'.kind e.1 ≠ .free ∧ T'.kind e.1 ≠ .dir)
    (counts : ∀ j, T'.kind j ≠ .free → T'.nlink j = T'.count N M j) : T'.Sound N M root := by
  refine ⟨fun d' n' some => ?_, sound.shape.fileSlot isLinked two slots
    (fun link slot => kinds _ (sound.shape.target link slot)) zero old new, counts⟩
  by_cases here : (d', n') = (d, n)
  · cases here
    exact inside
  · exact sound.within d' n' (fewer d' n' here some)

/-- The number of links of a file does not decide which directories are linked. -/
theorem linked_of_file {i : ℕ} (kinds : ∀ j, T'.kind j = T.kind j)
    (nlink : ∀ j, j ≠ i → T'.nlink j = T.nlink j) (file : T.kind i ≠ .dir) (d : ℕ) :
    T'.Linked d ↔ T.Linked d := by
  rw [Linked, Linked, kinds]
  by_cases same : d = i
  · simp [same, file]
  · rw [nlink d same]

section

variable (sound : T.Sound N M root)
include sound

variable {d n i : ℕ} {name : List UInt8}

/-- **A new entry for a file.** -/
theorem addLink (linked : T.Linked d) (inside : d < N ∧ n < M) (empty : T.slot d n = none)
    (live : T.kind i ≠ .free) (file : T.kind i ≠ .dir) :
    ((T.setNlink i (T.nlink i + 1)).setSlot d n (some (i, name))).Sound N M root := by
  generalize after : (T.setNlink i (T.nlink i + 1)).setSlot d n (some (i, name)) = T'
  have kinds : ∀ j, T'.kind j = T.kind j := fun j => by rw [← after]; rfl
  have slots : ∀ {d' n'}, (d', n') ≠ (d, n) → T'.slot d' n' = T.slot d' n' := fun other => by
    rw [← after, setSlot_slot_of_ne _ _ other, setNlink_slot]
  have slot : T'.slot d n = some (i, name) := by rw [← after, setSlot_slot_self]
  have nlink : ∀ j, T'.nlink j = if j = i then T.nlink i + 1 else T.nlink j := by
    intro j
    rw [← after, setSlot_nlink]
    by_cases same : j = i
    · rw [if_pos same, same, setNlink_nlink_self]
    · rw [if_neg same, setNlink_nlink_of_ne _ _ same]
  have isLinked := linked_of_file kinds (fun j other => by rw [nlink, if_neg other]) file
  have two : 2 ≤ n := sound.shape.two_le linked (by simp [empty])
  refine sound.fileSlot inside isLinked two (fun _ _ _ => slots) (fun _ _ other => by
    rw [slots other]; exact id) (fun j _ => kinds j) (by rw [kinds, sound.shape.zero])
    (by simp [empty]) ?_ fun j liveJ => ?_
  · intro e member
    rw [slot] at member
    cases member
    exact ⟨by rw [kinds]; exact live, by rw [kinds]; exact file⟩
  · rw [kinds] at liveJ
    rw [nlink, count_toggle isLinked (fun _ _ _ => slots) linked inside empty slot (by omega)]
    have count := sound.counts j liveJ
    split
    · rename_i same
      rw [← same, count]
      rfl
    · rw [count]
      rfl

/-- **An entry of a file is removed.** -/
theorem removeLink (linked : T.Linked d) (slot : T.slot d n = some (i, name))
    (file : T.kind i ≠ .dir) (notDot : name ≠ dot) (notDotdot : name ≠ dotdot) :
    ((T.setSlot d n none).setNlink i (T.nlink i - 1)).Sound N M root := by
  generalize after : (T.setSlot d n none).setNlink i (T.nlink i - 1) = T'
  have kinds : ∀ j, T'.kind j = T.kind j := fun j => by rw [← after]; rfl
  have slots : ∀ {d' n'}, (d', n') ≠ (d, n) → T'.slot d' n' = T.slot d' n' := fun other => by
    rw [← after, setNlink_slot, setSlot_slot_of_ne _ _ other]
  have empty : T'.slot d n = none := by rw [← after, setNlink_slot, setSlot_slot_self]
  have nlink : ∀ j, T'.nlink j = if j = i then T.nlink i - 1 else T.nlink j := by
    intro j
    rw [← after]
    by_cases same : j = i
    · rw [if_pos same, same, setNlink_nlink_self]
    · rw [if_neg same, setNlink_nlink_of_ne _ _ same, setSlot_nlink]
  have isLinked := linked_of_file kinds (fun j other => by rw [nlink, if_neg other]) file
  have two : 2 ≤ n := sound.shape.two_le linked (by simp [slot, notDot, notDotdot])
  have inside : d < N ∧ n < M := sound.within d n (by simp [slot])
  refine sound.fileSlot inside isLinked two (fun _ _ _ => slots) (fun _ _ other => by
    rw [slots other]; exact id) (fun j _ => kinds j) (by rw [kinds, sound.shape.zero]) ?_
    (by simp [empty]) fun j liveJ => ?_
  · intro e member
    rw [slot] at member
    cases member
    exact file
  · rw [kinds] at liveJ
    have count := sound.counts j liveJ
    rw [count_toggle (fun d => (isLinked d).symm) (fun _ _ _ other => (slots other).symm)
      ((isLinked d).mpr linked) inside empty slot (by omega)] at count
    rw [nlink]
    split
    · rename_i same
      rw [← same, count, if_pos same]
      omega
    · rename_i other
      rw [count, if_neg other, Nat.add_zero]

/-- No link names a free inode. -/
theorem count_free (free : T.kind i = .free) : T.count N M i = 0 := by
  refine Finset.card_eq_zero.mpr (Finset.filter_eq_empty_iff.mpr fun x _ counts => ?_)
  obtain ⟨linked, name, slot, -⟩ := counts_iff.mp counts
  exact sound.shape.target linked slot free

/-- **A new file.** -/
theorem create {kind : InodeType} (linked : T.Linked d) (inside : d < N ∧ n < M)
    (empty : T.slot d n = none) (nonzero : i ≠ 0) (free : T.kind i = .free) (live : kind ≠ .free)
    (file : kind ≠ .dir) : ((T.alloc i kind).setSlot d n (some (i, name))).Sound N M root := by
  generalize after : (T.alloc i kind).setSlot d n (some (i, name)) = T'
  have apart := ne_of_free linked.1 free
  have kindSelf : T'.kind i = kind := by rw [← after, setSlot_kind, (alloc_self T i kind).1]
  have kinds : ∀ j, j ≠ i → T'.kind j = T.kind j := fun j other => by
    rw [← after, setSlot_kind, (alloc_of_ne T kind other).1]
  have nlinkSelf : T'.nlink i = 1 := by rw [← after, setSlot_nlink, (alloc_self T i kind).2.1]
  have nlink : ∀ j, j ≠ i → T'.nlink j = T.nlink j := fun j other => by
    rw [← after, setSlot_nlink, (alloc_of_ne T kind other).2.1]
  have slots : ∀ {d' n'}, d' ≠ i → (d', n') ≠ (d, n) → T'.slot d' n' = T.slot d' n' := by
    intro d' n' other other'
    rw [← after, setSlot_slot_of_ne _ _ other', (alloc_of_ne T kind other).2.2]
  have slotsSelf : ∀ n', T'.slot i n' = none := by
    intro n'
    rw [← after, setSlot_slot_of_ne _ _ fun same => apart (congrArg Prod.fst same).symm,
      (alloc_self T i kind).2.2]
  have slot : T'.slot d n = some (i, name) := by rw [← after, setSlot_slot_self]
  have isLinked : ∀ d', T'.Linked d' ↔ T.Linked d' := by
    intro d'
    rw [Linked, Linked]
    by_cases same : d' = i
    · rw [same, kindSelf, free]
      simp [file]
    · rw [kinds d' same, nlink d' same]
  have notSelf : ∀ {d'}, T.Linked d' → d' ≠ i := fun linked => ne_of_free linked.1 free
  have two : 2 ≤ n := sound.shape.two_le linked (by simp [empty])
  refine sound.fileSlot inside isLinked two (fun _ _ linked => slots (notSelf linked)) ?_
    (fun j liveJ => kinds j fun same => liveJ (same ▸ free))
    (by rw [kinds 0 (Ne.symm nonzero), sound.shape.zero]) (by simp [empty]) ?_ fun j liveJ => ?_
  · intro d' n' other some
    by_cases same : d' = i
    · exact absurd (same ▸ slotsSelf n') some
    · rwa [slots same other] at some
  · intro e member
    rw [slot] at member
    cases member
    exact ⟨by rw [kindSelf]; exact live, by rw [kindSelf]; exact file⟩
  · rw [count_toggle isLinked (fun _ _ linked => slots (notSelf linked)) linked inside empty slot
      (by omega)]
    by_cases same : j = i
    · subst same
      rw [nlinkSelf, sound.count_free free, if_pos rfl]
      rfl
    · rw [if_neg same, nlink j same]
      exact sound.counts j (kinds j same ▸ liveJ)

end

end Sound

/-! ## Directories -/

section Mkdir

variable {d n i : ℕ} {name : List UInt8} {x : ℤ}

/-- The slots after `mkdir`. -/
theorem mkdir_slot (apart : d ≠ i) (d' n' : ℕ) :
    (T.mkdir d n i name x).slot d' n' =
      if d' = i then (if n' = 0 then some (i, dot) else if n' = 1 then some (d, dotdot) else none)
      else if d' = d ∧ n' = n then some (i, name) else T.slot d' n' := by
  rw [mkdir]
  by_cases last : (d', n') = (d, n)
  · cases last
    rw [setSlot_slot_self, if_neg apart, if_pos ⟨rfl, rfl⟩]
  · rw [setSlot_slot_of_ne _ _ last]
    by_cases same : d' = i
    · subst same
      rw [if_pos rfl]
      by_cases one : n' = 1
      · subst one
        rw [setSlot_slot_self, if_neg (by decide), if_pos rfl]
      · rw [setSlot_slot_of_ne _ _ fun eq => one (congrArg Prod.snd eq)]
        by_cases zero : n' = 0
        · subst zero
          rw [setSlot_slot_self, if_pos rfl]
        · rw [setSlot_slot_of_ne _ _ fun eq => zero (congrArg Prod.snd eq), setNlink_slot,
            (alloc_self T d' .dir).2.2, if_neg zero, if_neg one]
    · rw [setSlot_slot_of_ne _ _ fun eq => same (congrArg Prod.fst eq),
        setSlot_slot_of_ne _ _ fun eq => same (congrArg Prod.fst eq), setNlink_slot,
        (alloc_of_ne T .dir same).2.2, if_neg same, if_neg fun eq => last (by rw [eq.1, eq.2])]

theorem Within.mkdir (within : T.Within N M) (apart : d ≠ i) (inside : d < N ∧ n < M)
    (inside' : i < N ∧ 1 < M) : (T.mkdir d n i name x).Within N M := by
  intro d' n' some
  rw [mkdir_slot apart] at some
  split at some
  · rename_i same
    subst same
    refine ⟨inside'.1, ?_⟩
    split at some
    · omega
    · split at some
      · omega
      · exact absurd rfl some
  · split at some
    · rename_i here
      rwa [here.1, here.2]
    · exact within d' n' some

theorem mkdir_kind (j : ℕ) :
    (T.mkdir d n i name x).kind j = if j = i then .dir else T.kind j := by
  simp only [mkdir, setSlot_kind, setNlink_kind]
  by_cases same : j = i
  · rw [if_pos same, same, (alloc_self T i .dir).1]
  · rw [if_neg same, (alloc_of_ne T .dir same).1]

theorem mkdir_nlink (apart : d ≠ i) (j : ℕ) :
    (T.mkdir d n i name x).nlink j = if j = i then 1 else if j = d then x else T.nlink j := by
  simp only [mkdir, setSlot_nlink]
  by_cases same : j = i
  · subst same
    rw [setNlink_nlink_of_ne _ _ (Ne.symm apart), (alloc_self T j .dir).2.1, if_pos rfl]
  · rw [if_neg same]
    by_cases parent : j = d
    · rw [if_pos parent, parent, setNlink_nlink_self]
    · rw [if_neg parent, setNlink_nlink_of_ne _ _ parent, (alloc_of_ne T .dir same).2.1]

/-- `mkdir` links the new directory and no other. -/
theorem mkdir_linked (apart : d ≠ i) (linked : T.Linked d) (positive : 0 < x) (d' : ℕ) :
    (T.mkdir d n i name x).Linked d' ↔ d' = i ∨ T.Linked d' := by
  rw [Linked, mkdir_kind, mkdir_nlink apart]
  by_cases same : d' = i
  · simp [same]
  · by_cases parent : d' = d
    · subst parent
      simp [same, linked, positive, linked.1]
    · rw [if_neg parent]
      simp [same, Linked]

/-- `mkdir` adds a link to the new directory and one to its parent. -/
theorem mkdir_count (apart : d ≠ i) (linked : T.Linked d) (positive : 0 < x)
    (inside : d < N ∧ n < M) (inside' : i < N ∧ 1 < M) (free : T.kind i = .free)
    (empty : T.slot d n = none) (later : n ≠ 0) (j : ℕ) :
    (T.mkdir d n i name x).count N M j =
      T.count N M j + (if j = d then 1 else 0) + if j = i then 1 else 0 := by
  let T₁ := ((T.alloc i .dir).setNlink d x).setSlot i 0 (some (i, dot))
  let T₂ := T₁.setSlot i 1 (some (d, dotdot))
  have linkedAll : ∀ d', (T.mkdir d n i name x).Linked d' ↔ d' = i ∨ T.Linked d' :=
    mkdir_linked apart linked positive
  have linked₁ : ∀ d', T₁.Linked d' ↔ d' = i ∨ T.Linked d' := linkedAll
  have slot₁ : ∀ m, T₁.slot i m = if m = 0 then some (i, dot) else none := by
    intro m
    by_cases zero : m = 0
    · rw [zero, setSlot_slot_self, if_pos rfl]
    · rw [setSlot_slot_of_ne _ _ fun eq => zero (congrArg Prod.snd eq), setNlink_slot,
        (alloc_self T i .dir).2.2, if_neg zero]
  have slots₁ : ∀ {d'}, d' ≠ i → ∀ m, T₁.slot d' m = T.slot d' m := fun other m => by
    rw [setSlot_slot_of_ne _ _ fun eq => other (congrArg Prod.fst eq), setNlink_slot,
      (alloc_of_ne T .dir other).2.2]
  have first : T₁.count N M j = T.count N M j := by
    refine count_congr fun y => ?_
    rw [counts_iff, counts_iff, linked₁]
    by_cases same : y.1 = i
    · refine iff_of_false ?_ ?_
      · rintro ⟨-, x, slot, notFirst⟩
        rw [same, slot₁, if_neg notFirst] at slot
        cases slot
      · rintro ⟨isLinked, -⟩
        rw [same, Linked, free] at isLinked
        cases isLinked.1
    · rw [slots₁ same]
      simp [same]
  have second : T₂.count N M j = T₁.count N M j + if j = d then 1 else 0 := by
    have same : ∀ d', T₂.Linked d' ↔ T₁.Linked d' := fun _ => Iff.rfl
    have slot : T₂.slot i 1 = some (d, dotdot) := setSlot_slot_self _ _ _ _
    refine count_toggle same (fun d' n' _ other => setSlot_slot_of_ne _ _ other)
      ((linked₁ i).mpr (.inl rfl)) inside' ?_ slot (by decide) j
    rw [slot₁, if_neg (by decide)]
  have third : (T.mkdir d n i name x).count N M j = T₂.count N M j + if j = i then 1 else 0 := by
    have same : ∀ d', (T.mkdir d n i name x).Linked d' ↔ T₂.Linked d' := fun _ => Iff.rfl
    have slot : (T.mkdir d n i name x).slot d n = some (i, name) := setSlot_slot_self _ _ _ _
    have before : T₂.slot d n = none := by
      rw [setSlot_slot_of_ne _ _ fun eq => apart (congrArg Prod.fst eq), slots₁ apart, empty]
    exact count_toggle same (fun d' n' _ other => setSlot_slot_of_ne _ _ other)
      ((linked₁ d).mpr (.inr linked)) inside before slot later j
  rw [third, second, first]

/-- **A new directory.** -/
theorem Sound.mkdir (sound : T.Sound N M root) (linked : T.Linked d) (inside : d < N ∧ n < M)
    (inside' : i < N ∧ 1 < M) (empty : T.slot d n = none) (nonzero : i ≠ 0)
    (free : T.kind i = .free) (raised : x = T.nlink d + 1) :
    (T.mkdir d n i name x).Sound N M root := by
  have positive : 0 < x := by
    have := linked.2
    omega
  have notSelf : ∀ {d'}, T.Linked d' → d' ≠ i := fun linked => ne_of_free linked.1 free
  have apart := notSelf linked
  have two : 2 ≤ n := sound.shape.two_le linked (by simp [empty])
  have isLinked : ∀ d', (T.mkdir d n i name x).Linked d' ↔ d' = i ∨ T.Linked d' :=
    mkdir_linked apart linked positive
  have slots : ∀ d' n', (T.mkdir d n i name x).slot d' n' = _ := mkdir_slot apart
  have old : ∀ {d' n'}, d' ≠ i → (d', n') ≠ (d, n) →
      (T.mkdir d n i name x).slot d' n' = T.slot d' n' := by
    intro d' n' other other'
    rw [slots, if_neg other, if_neg fun eq => other' (by rw [eq.1, eq.2])]
  have low : ∀ {d' n'}, d' ≠ i → n' < 2 → (T.mkdir d n i name x).slot d' n' = T.slot d' n' :=
    fun other small => old other (slot_ne_of_lt two small)
  have new : (T.mkdir d n i name x).slot d n = some (i, name) := by
    rw [slots, if_neg apart, if_pos ⟨rfl, rfl⟩]
  have zeroth : (T.mkdir d n i name x).slot i 0 = some (i, dot) := by
    rw [slots, if_pos rfl, if_pos rfl]
  have first : (T.mkdir d n i name x).slot i 1 = some (d, dotdot) := by
    rw [slots, if_pos rfl, if_neg (by decide), if_pos rfl]
  -- what an entry of a linked directory can be
  have entry : ∀ {d' n' e}, (T.mkdir d n i name x).Linked d' →
      (T.mkdir d n i name x).slot d' n' = some e →
      (d' = i ∧ n' = 0 ∧ e = (i, dot)) ∨ (d' = i ∧ n' = 1 ∧ e = (d, dotdot)) ∨
      (d' = d ∧ n' = n ∧ e = (i, name)) ∨ (T.Linked d' ∧ T.slot d' n' = some e) := by
    intro d' n' e link slot
    rw [slots] at slot
    by_cases same : d' = i
    · rw [if_pos same] at slot
      split at slot
      · exact .inl ⟨same, ‹_›, (Option.some.inj slot).symm⟩
      · split at slot
        · exact .inr (.inl ⟨same, ‹_›, (Option.some.inj slot).symm⟩)
        · cases slot
    · rw [if_neg same] at slot
      have link := ((isLinked d').mp link).resolve_left same
      split at slot
      · rename_i here
        exact .inr (.inr (.inl ⟨here.1, here.2, (Option.some.inj slot).symm⟩))
      · exact .inr (.inr (.inr ⟨link, slot⟩))
  have live : ∀ {j}, T.kind j ≠ .free → (T.mkdir d n i name x).kind j = T.kind j := by
    intro j liveJ
    have other : j ≠ i := fun same => liveJ (same ▸ free)
    rw [mkdir_kind, if_neg other]
  refine ⟨sound.within.mkdir apart inside inside', ⟨?_, ?_, ?_, ?_, ?_, ?_, ?_, ?_, ?_⟩,
    fun j liveJ => ?_⟩
  · rw [mkdir_kind, if_neg (Ne.symm nonzero), sound.shape.zero]
  · exact (isLinked root).mpr (.inr sound.shape.root_linked)
  · rw [low (notSelf sound.shape.root_linked) (by decide), sound.shape.root_parent]
  · intro d' n' e link slot
    obtain ⟨-, -, rfl⟩ | ⟨-, -, rfl⟩ | ⟨-, -, rfl⟩ | ⟨link, slot⟩ := entry link slot
    · simp [mkdir_kind]
    · rw [live (by rw [linked.1]; decide), linked.1]
      decide
    · simp [mkdir_kind]
    · have liveE := sound.shape.target link slot
      rwa [live liveE]
  · intro d' link
    obtain rfl | link := (isLinked d').mp link
    · exact zeroth
    · rw [low (notSelf link) (by decide), sound.shape.self link]
  · intro d' link
    obtain rfl | link := (isLinked d').mp link
    · exact ⟨d, first, (isLinked d).mpr (.inr linked)⟩
    · obtain ⟨p, slot, parent⟩ := sound.shape.parent link
      exact ⟨p, by rw [low (notSelf link) (by decide), slot], (isLinked p).mpr (.inr parent)⟩
  · intro d' p link notRoot slot
    obtain rfl | link := (isLinked d').mp link
    · rw [first] at slot
      obtain ⟨rfl, -⟩ := Prod.mk.inj (Option.some.inj slot)
      exact ⟨n, name, two, new⟩
    · rw [low (notSelf link) (by decide)] at slot
      obtain ⟨m, name', two', named⟩ := sound.shape.home link notRoot slot
      refine ⟨m, name', two', ?_⟩
      rw [old (notSelf (sound.shape.linked_parent link slot)) fun here => ?_, named]
      cases here
      rw [empty] at named
      cases named
  · intro d₁ d₂ n₁ n₂ e₁ e₂ link₁ link₂ two₁ two₂ slot₁ slot₂ same dir
    -- no entry of the old tree names the new directory
    have fresh : ∀ {d' n' e}, T.Linked d' → T.slot d' n' = some e → e.1 ≠ i :=
      fun link slot same => sound.shape.target link slot (same ▸ free)
    obtain ⟨-, zero, -⟩ | ⟨-, one, -⟩ | ⟨at₁, slotAt₁, rfl⟩ | ⟨old₁, named₁⟩ := entry link₁ slot₁
    · omega
    · omega
    · obtain ⟨-, zero, -⟩ | ⟨-, one, -⟩ | ⟨at₂, slotAt₂, -⟩ | ⟨old₂, named₂⟩ := entry link₂ slot₂
      · omega
      · omega
      · exact ⟨at₁.trans at₂.symm, slotAt₁.trans slotAt₂.symm⟩
      · exact absurd same.symm (fresh old₂ named₂)
    · obtain ⟨-, zero, -⟩ | ⟨-, one, -⟩ | ⟨-, -, rfl⟩ | ⟨old₂, named₂⟩ := entry link₂ slot₂
      · omega
      · omega
      · exact absurd same (fresh old₁ named₁)
      · rw [live (sound.shape.target old₁ named₁)] at dir
        exact sound.shape.once old₁ old₂ two₁ two₂ named₁ named₂ same dir
  · intro d' n' e link two' slot
    obtain ⟨-, zero, -⟩ | ⟨-, one, -⟩ | ⟨-, -, rfl⟩ | ⟨link, slot⟩ := entry link slot
    · omega
    · omega
    · exact (notSelf sound.shape.root_linked).symm
    · exact sound.shape.notRoot link two' slot
  · rw [mkdir_count apart linked positive inside inside' free empty (by omega), mkdir_nlink apart]
    rw [mkdir_kind] at liveJ
    by_cases same : j = i
    · subst same
      rw [if_pos rfl, if_pos rfl, if_neg (Ne.symm apart), sound.count_free free]
      rfl
    · rw [if_neg same] at liveJ
      rw [if_neg same, if_neg same]
      by_cases parent : j = d
      · subst parent
        rw [if_pos rfl, if_pos rfl, raised, sound.counts j liveJ]
        rfl
      · rw [if_neg parent, if_neg parent]
        exact sound.counts j liveJ

end Mkdir

section Rmdir

variable {d n i : ℕ} {name : List UInt8} {x y : ℤ}

/-- A child of a directory is one of its entries, so an empty directory has none. -/
theorem WellFormed.no_child (shape : T.WellFormed root) (notRoot : i ≠ root)
    (empty : ∀ m, 2 ≤ m → T.slot i m = none) {d' : ℕ} (link : T.Linked d') :
    T.slot d' 1 ≠ some (i, dotdot) := by
  intro parent
  by_cases isRoot : d' = root
  · rw [isRoot, shape.root_parent] at parent
    exact notRoot (congrArg Prod.fst (Option.some.inj parent)).symm
  · obtain ⟨m, x, two', named⟩ := shape.home link isRoot parent
    rw [empty m two'] at named
    cases named

/-- An empty directory that an entry names has that link only, its parent is the
directory of the entry, and the parent has another link. -/
theorem Sound.emptyDir (sound : T.Sound N M root) (linked : T.Linked d) (two : 2 ≤ n)
    (slot : T.slot d n = some (i, name)) (dir : T.kind i = .dir)
    (empty : ∀ m, 2 ≤ m → T.slot i m = none) :
    T.Linked i ∧ T.nlink i = 1 ∧ T.slot i 1 = some (d, dotdot) ∧ 2 ≤ T.nlink d := by
  have counted : T.Counts i (d, n) := counts_iff.mpr ⟨linked, name, slot, by omega⟩
  have link : T.Linked i := ⟨dir, sound.nlink_pos counted⟩
  have notRoot : i ≠ root := sound.shape.notRoot linked two slot
  have only : ∀ y, T.Counts i y → y = (d, n) := by
    intro y counts
    obtain ⟨link', x, named, notFirst⟩ := counts_iff.mp counts
    obtain ⟨d', n'⟩ := y
    match n', named with
    | 0, named => exact absurd rfl notFirst
    | 1, named =>
      obtain ⟨p, parent, -⟩ := sound.shape.parent link'
      obtain ⟨rfl, -⟩ := Prod.mk.inj (Option.some.inj (parent.symm.trans named))
      exact absurd parent (sound.shape.no_child notRoot empty link')
    | n' + 2, named =>
      obtain ⟨rfl, rfl⟩ := sound.shape.once link' linked (by omega) two named slot rfl dir
      rfl
  have one : T.nlink i = 1 := by
    have le := count_le_one (N := N) (M := M) only
    have pos := count_pos sound.within counted
    rw [sound.counts i (by rw [dir]; decide)]
    omega
  obtain ⟨p, parent, linkP⟩ := sound.shape.parent link
  obtain ⟨m, x, two', named⟩ := sound.shape.home link notRoot parent
  obtain ⟨rfl, rfl⟩ := sound.shape.once linkP linked two' two named slot rfl dir
  refine ⟨link, one, parent, ?_⟩
  have first : T.Counts p (i, 1) := counts_iff.mpr ⟨link, dotdot, parent, by simp⟩
  have more : 1 < T.count N M p := by
    by_cases isRoot : p = root
    · refine one_lt_count sound.within first (y := (p, 1)) ?_ ?_
      · rw [isRoot]
        exact counts_iff.mpr ⟨sound.shape.root_linked, dotdot, sound.shape.root_parent, by simp⟩
      · intro same
        have same := congrArg Prod.fst same
        exact notRoot (same.trans isRoot)
    · obtain ⟨q, grand, linkQ⟩ := sound.shape.parent linkP
      obtain ⟨l, z, two'', named'⟩ := sound.shape.home linkP isRoot grand
      refine one_lt_count sound.within first (y := (q, l)) ?_ ?_
      · exact counts_iff.mpr ⟨linkQ, z, named', by omega⟩
      · intro same
        have := congrArg Prod.snd same
        omega
  rw [sound.counts p (by rw [linkP.1]; decide)]
  omega

/-- **An empty directory is removed.** -/
theorem Sound.rmdir (sound : T.Sound N M root) (linked : T.Linked d)
    (slot : T.slot d n = some (i, name)) (dir : T.kind i = .dir) (notDot : name ≠ dot)
    (notDotdot : name ≠ dotdot) (empty : ∀ m, 2 ≤ m → T.slot i m = none)
    (lowered : x = T.nlink d - 1) (lowered' : y = T.nlink i - 1) :
    (T.rmdir d n i x y).Sound N M root := by
  have two : 2 ≤ n := sound.shape.two_le linked (by simp [slot, notDot, notDotdot])
  obtain ⟨link, one, parent, more⟩ := sound.emptyDir linked two slot dir empty
  have apart : d ≠ i := by
    rintro rfl
    rw [empty n two] at slot
    cases slot
  have notRoot : i ≠ root := sound.shape.notRoot linked two slot
  have inside : d < N ∧ n < M := sound.within d n (by simp [slot])
  have inside' : i < N ∧ 1 < M := sound.within i 1 (by simp [parent])
  have nlinkI : (T.rmdir d n i x y).nlink i = 0 := by
    rw [Tree.rmdir, setNlink_nlink_self, lowered', one]
    rfl
  have nlinkD : (T.rmdir d n i x y).nlink d = T.nlink d - 1 := by
    rw [Tree.rmdir, setNlink_nlink_of_ne _ _ apart, setNlink_nlink_self, lowered]
  have nlink : ∀ {j}, j ≠ d → j ≠ i → (T.rmdir d n i x y).nlink j = T.nlink j := by
    intro j other other'
    rw [Tree.rmdir, setNlink_nlink_of_ne _ _ other', setNlink_nlink_of_ne _ _ other, setSlot_nlink]
  have gone : (T.rmdir d n i x y).slot d n = none := by
    rw [Tree.rmdir, setNlink_slot, setNlink_slot, setSlot_slot_self]
  have slots : ∀ {d' n'}, (d', n') ≠ (d, n) → (T.rmdir d n i x y).slot d' n' = T.slot d' n' := by
    intro d' n' other
    rw [Tree.rmdir, setNlink_slot, setNlink_slot, setSlot_slot_of_ne _ _ other]
  have isLinked : ∀ d', (T.rmdir d n i x y).Linked d' ↔ T.Linked d' ∧ d' ≠ i := by
    intro d'
    have kind : (T.rmdir d n i x y).kind d' = T.kind d' := rfl
    rw [Linked, kind]
    by_cases same : d' = i
    · rw [same, nlinkI]
      simp
    · by_cases here : d' = d
      · rw [here]
        exact ⟨fun _ => ⟨linked, apart⟩, fun _ => ⟨linked.1, by omega⟩⟩
      · rw [nlink here same]
        simp [Linked, same]
  have entry : ∀ {d' n' e}, (T.rmdir d n i x y).slot d' n' = some e → T.slot d' n' = some e := by
    intro d' n' e named
    by_cases here : (d', n') = (d, n)
    · cases here
      rw [gone] at named
      cases named
    · rwa [slots here] at named
  have low : ∀ {d' n'}, n' < 2 → (T.rmdir d n i x y).slot d' n' = T.slot d' n' :=
    fun small => slots (slot_ne_of_lt two small)
  refine ⟨fun d' n' some => ?_, ⟨sound.shape.zero, ?_, ?_, ?_, ?_, ?_, ?_, ?_, ?_⟩,
    fun j live => ?_⟩
  · obtain ⟨e, named⟩ := Option.ne_none_iff_exists'.mp some
    exact sound.within d' n' (by simp [entry named])
  · exact (isLinked root).mpr ⟨sound.shape.root_linked, notRoot.symm⟩
  · rw [low (by decide), sound.shape.root_parent]
  · intro d' n' e link' named
    exact sound.shape.target ((isLinked d').mp link').1 (entry named)
  · intro d' link'
    rw [low (by decide), sound.shape.self ((isLinked d').mp link').1]
  · intro d' after
    have link' := ((isLinked d').mp after).1
    obtain ⟨p, named, linkP⟩ := sound.shape.parent link'
    refine ⟨p, by rw [low (by decide), named], (isLinked p).mpr ⟨linkP, ?_⟩⟩
    rintro rfl
    exact sound.shape.no_child notRoot empty link' named
  · intro d' p link' isRoot named
    obtain ⟨link', other⟩ := (isLinked d').mp link'
    obtain ⟨m, x, two', child⟩ := sound.shape.home link' isRoot (entry named)
    refine ⟨m, x, two', ?_⟩
    rw [slots fun here => ?_, child]
    cases here
    exact other (congrArg Prod.fst (Option.some.inj (child.symm.trans slot)))
  · intro d₁ d₂ n₁ n₂ e₁ e₂ link₁ link₂ two₁ two₂ slot₁ slot₂ same dir'
    exact sound.shape.once ((isLinked d₁).mp link₁).1 ((isLinked d₂).mp link₂).1 two₁ two₂
      (entry slot₁) (entry slot₂) same dir'
  · intro d' n' e link' two' named
    exact sound.shape.notRoot ((isLinked d').mp link').1 two' (entry named)
  · -- first the entry goes, then the entry `..` of the directory that is not linked any more
    let T₁ := T.setSlot d n none
    let T₂ := T₁.setSlot i 1 none
    have first : T.count N M j = T₁.count N M j + if j = i then 1 else 0 := by
      have same : ∀ d', T.Linked d' ↔ T₁.Linked d' := fun _ => Iff.rfl
      exact count_toggle same (fun d' n' _ other => (setSlot_slot_of_ne _ _ other).symm) linked
        inside (setSlot_slot_self _ _ _ _) slot (by omega) j
    have second : T₁.count N M j = T₂.count N M j + if j = d then 1 else 0 := by
      have same : ∀ d', T₁.Linked d' ↔ T₂.Linked d' := fun _ => Iff.rfl
      have before : T₁.slot i 1 = some (d, dotdot) := by
        rw [setSlot_slot_of_ne _ _ fun eq => apart (congrArg Prod.fst eq).symm, parent]
      exact count_toggle same (fun d' n' _ other => (setSlot_slot_of_ne _ _ other).symm) link
        inside' (setSlot_slot_self _ _ _ _) before (by decide) j
    have third : (T.rmdir d n i x y).count N M j = T₂.count N M j := by
      refine count_congr fun z => ?_
      rw [counts_iff, counts_iff, isLinked]
      by_cases here : z.1 = i
      · apply iff_of_false (fun counts => counts.1.2 here)
        rintro ⟨-, last, named, notFirst⟩
        obtain ⟨d', n'⟩ := z
        subst here
        by_cases isOne : n' = 1
        · rw [isOne, setSlot_slot_self] at named
          cases named
        · rw [setSlot_slot_of_ne _ _ fun eq => isOne (congrArg Prod.snd eq),
            setSlot_slot_of_ne _ _ fun eq => apart (congrArg Prod.fst eq).symm] at named
          rw [empty n' (by omega)] at named
          cases named
      · have sameSlot : (T.rmdir d n i x y).slot z.1 z.2 = T₂.slot z.1 z.2 :=
          (setSlot_slot_of_ne T₁ _ fun eq => here (congrArg Prod.fst eq)).symm
        rw [sameSlot]
        simp only [here, ne_eq, not_false_eq_true, and_true]
        exact Iff.rfl
    have count := sound.counts j live
    rw [first, second] at count
    rw [third]
    by_cases same : j = i
    · subst same
      push_cast at count
      omega
    · rw [if_neg same] at count
      by_cases here : j = d
      · subst here
        rw [if_pos rfl] at count
        rw [nlinkD, count]
        omega
      · rw [if_neg here, Nat.add_zero] at count
        rw [nlink here same, count]

end Rmdir

end Xv6Uac.Tree
