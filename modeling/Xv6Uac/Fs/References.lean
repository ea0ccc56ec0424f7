import Xv6Uac.Fs.Truncate

/-!
# Taking and dropping references

A function that only looks at the file system takes references to inodes and
drops them again. `Shrinks` describes what it does from a state `s` on: it holds
`δ` references more than at the start, no block has changed, and the only inodes
that have changed are ones without links that it was the last to drop. Such an
inode was not in use at the start (`Shrinks.current`). One lemma per function says
how it continues such a run.
-/

namespace Xv6Uac

open Words Hoare

variable {cfg : Config} {F F' : ℕ → Dinode} {D : Set ℕ} {s t u : Kernel} {k : ℕ} {δ ε : ℕ → ℕ}

theorem Kept.trans (first : Kept s t δ) (second : Kept t u ε) : Kept s u (δ + ε) := by
  refine ⟨fun j => ?_, fun j used => ?_, fun j used valid => ?_⟩
  · rw [second.ref, first.ref, Pi.add_apply]
    omega
  · rw [second.inum j (first.pos used), first.inum j used]
  · exact second.valid j (first.pos used) (first.valid j used valid)

/-- An entry that is in use at the end has kept its inode. -/
def Stays (s t : Kernel) : Prop :=
  ∀ j, 0 < (t.icache j).ref → (t.icache j).inum = (s.icache j).inum ∧
    ((s.icache j).valid = true → (t.icache j).valid = true)

theorem Stays.held (stays : Stays s t) {i : ℕ} (held : Held s k i) (used : 0 < (t.icache k).ref) :
    Held t k i :=
  ⟨used, (stays k used).2 held.valid, (stays k used).1.trans held.inum⟩

theorem Stays.trans (first : Stays s t) (second : Stays t u)
    (used : ∀ j, 0 < (u.icache j).ref → 0 < (t.icache j).ref) : Stays s u := fun j inUse =>
  ⟨(second j inUse).1.trans (first j (used j inUse)).1,
    fun valid => (second j inUse).2 ((first j (used j inUse)).2 valid)⟩

theorem Kept.stays (kept : Kept s t 0) : Stays s t := by
  intro j used
  have used' : 0 < (s.icache j).ref := by
    have := kept.ref j
    simp only [Pi.zero_apply] at this
    omega
  exact ⟨kept.inum j used', kept.valid j used'⟩

theorem Dropped.stays (drop : Dropped cfg F F' D k s t) : Stays s t := by
  intro j used
  obtain rfl | other := eq_or_ne j k
  · rw [(drop.entry used).1, (drop.entry used).2]
    exact ⟨rfl, fun valid => valid⟩
  · rw [drop.others j other]
    exact ⟨rfl, fun valid => valid⟩

/-- A reference that is taken and dropped. -/
theorem add_sub_single (δ : ℕ → ℕ) (k : ℕ) : δ + Pi.single k 1 - Pi.single k 1 = δ := by
  funext j
  simp

theorem single_add_sub (δ : ℕ → ℕ) (k : ℕ) : Pi.single k 1 + δ - Pi.single k 1 = δ := by
  rw [add_comm, add_sub_single]

theorem sub_single_self (k : ℕ) : (Pi.single k 1 - Pi.single k 1 : ℕ → ℕ) = 0 := by
  funext j
  simp

/-- From `s` to `t` references were taken and dropped, and nothing else. -/
structure Shrinks (cfg : Config) (F F' : ℕ → Dinode) (D : Set ℕ) (s t : Kernel) (δ : ℕ → ℕ) :
    Prop where
  nonneg : ∀ j, 0 ≤ (s.icache j).ref
  outside : Outside s t
  fsInv : FsInv cfg F' D t
  data : t.data = s.data
  kept : Kept s t δ
  freed : ∀ i, F' i = F i ∨ (F i).nlink = 0 ∧ (F i).type ≠ .free ∧ (F' i).type = .free
  current : ∀ j, 0 < (s.icache j).ref → F' (s.icache j).inum = F (s.icache j).inum

namespace Shrinks

theorem refl (inv : FsInv cfg F D s) : Shrinks cfg F F D s s 0 where
  nonneg := inv.cached.nonneg
  outside := .refl s
  fsInv := inv
  data := rfl
  kept := .refl s
  freed _ := .inl rfl
  current _ _ := rfl

section

variable (run : Shrinks cfg F F' D s t δ)
include run

/-- An inode that is allocated has not changed. -/
theorem live {i : ℕ} (live : (F' i).type ≠ .free) : F' i = F i :=
  (run.freed i).resolve_right fun gone => live gone.2.2

/-- A reference that the run holds. -/
theorem used (mine : 1 ≤ δ k) : 0 < (t.icache k).ref := by
  have := run.kept.ref k
  have := run.nonneg k
  omega

/-- A step that changes the cache only. -/
theorem step {icache : ℕ → Inode} (cached : Cached cfg F' D { t with icache := icache })
    (kept : Kept t { t with icache := icache } ε) :
    Shrinks cfg F F' D s { t with icache := icache } (δ + ε) where
  nonneg := run.nonneg
  outside := run.outside.trans ⟨rfl, rfl, rfl⟩
  fsInv := ⟨cached, run.fsInv.layout⟩
  data := run.data
  kept := run.kept.trans kept
  freed := run.freed
  current := run.current

theorem iget {i : ℕ} (inside : i < cfg.sb.ninodes) :
    wp Benign (iget i) (fun k u => Shrinks cfg F F' D s u (δ + Pi.single k 1) ∧
      (u.icache k).inum = i) t := by
  apply (iget_spec run.fsInv.cached inside).mono
  rintro k u ⟨ip, rfl, cached, inum, kept, _⟩
  exact ⟨run.step cached kept, by simpa using inum⟩

theorem idup (used : 0 < (t.icache k).ref) :
    wp Benign (idup k) (fun j u => j = k ∧ Shrinks cfg F F' D s u (δ + Pi.single k 1) ∧
      (u.icache k).inum = (t.icache k).inum) t := by
  apply (idup_spec run.fsInv.cached used).mono
  rintro j u ⟨eq, ip, rfl, cached, inum, _, kept⟩
  exact ⟨eq, run.step cached kept, by simpa using inum⟩

/-- A locked inode is allocated, so it is what it was at the start. -/
theorem ilock (clean : (t.icache k).inum ∉ D) :
    wp Benign (ilock cfg k) (fun _ u => Shrinks cfg F F' D s u δ ∧
      Held u k (t.icache k).inum ∧ (t.icache k).locked = false ∧ (u.icache k).locked = true)
      t := by
  apply (ilock_spec run.fsInv.cached clean).mono
  rintro _ u ⟨ip, rfl, cached, held, kept, unlocked, locked⟩
  have stepped := run.step cached kept
  exact ⟨stepped, held, unlocked, by simpa using locked⟩

theorem iunlock (k : ℕ) :
    wp Benign (iunlock k) (fun _ u => Shrinks cfg F F' D s u δ ∧ Stays t u) t := by
  apply (iunlock_spec run.fsInv.cached k).mono
  rintro _ u ⟨ip, rfl, cached, _, kept⟩
  have stepped := run.step cached kept
  exact ⟨stepped, kept.stays⟩

/-- Dropping a reference that the run holds. -/
theorem iput (mine : 1 ≤ δ k) :
    wp Benign (iput cfg k)
      (fun _ u => ∃ F'', Shrinks cfg F F'' D s u (δ - Pi.single k 1) ∧ Stays t u) t := by
  refine ((iput_spec run.fsInv (run.used mine)).and
    ((fsFrame_outside s).iput k t run.outside)).mono fun _ u ⟨⟨F'', drop⟩, outside⟩ => ⟨F'', ?_⟩
  have kept : Kept s u (δ - Pi.single k 1) := by
    refine ⟨fun j => ?_, fun j used => ?_, fun j used valid => ?_⟩
    · obtain rfl | other := eq_or_ne j k
      · rw [drop.ref, run.kept.ref, Pi.sub_apply, Pi.single_eq_same]
        omega
      · rw [drop.others j other, run.kept.ref, Pi.sub_apply, Pi.single_eq_of_ne other]
        simp
    · obtain rfl | other := eq_or_ne j k
      · have stays : 0 < (u.icache j).ref := by
          rw [drop.ref, run.kept.ref]
          omega
        rw [(drop.entry stays).1, run.kept.inum j used]
      · rw [drop.others j other, run.kept.inum j used]
    · obtain rfl | other := eq_or_ne j k
      · have stays : 0 < (u.icache j).ref := by
          rw [drop.ref, run.kept.ref]
          omega
        rw [(drop.entry stays).2, run.kept.valid j used valid]
      · rw [drop.others j other, run.kept.valid j used valid]
  refine ⟨⟨run.nonneg, outside, drop.fsInv, drop.data.trans run.data, kept, fun i => ?_,
    fun j used => ?_⟩, drop.stays⟩
  · obtain same | ⟨unlinked, live, gone⟩ := drop.eq_or_freed i
    · rw [same]
      exact run.freed i
    · rw [run.live live] at unlinked live
      exact .inr ⟨unlinked, live, gone⟩
  · have same := drop.current run.fsInv.cached (kept.pos used)
    rw [kept.inum j used] at same
    exact same.trans (run.current j used)

theorem iunlockput (mine : 1 ≤ δ k) :
    wp Benign (iunlockput cfg k)
      (fun _ u => ∃ F'', Shrinks cfg F F'' D s u (δ - Pi.single k 1) ∧ Stays t u) t := by
  refine (run.iunlock k).seq fun _ u ⟨unlocked, stays⟩ => ?_
  refine (unlocked.iput mine).mono fun _ v ⟨F'', dropped, stays'⟩ => ⟨F'', dropped, ?_⟩
  refine stays.trans stays' fun j used => ?_
  have := unlocked.kept.ref j
  have := dropped.kept.ref j
  rw [Pi.sub_apply] at this
  omega

end

end Shrinks

end Xv6Uac
