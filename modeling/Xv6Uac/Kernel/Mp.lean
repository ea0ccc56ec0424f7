import Xv6Uac.Param
import Mathlib.Logic.Function.Iterate
import Mathlib.Tactic.SplitIfs
import Mathlib.Tactic.ByContra

/-!
# The multiprocessor table

`mpconfig` and `mpinit` of `mp.c`, for the bytes from the header of the configuration table on. The
`break` in the default case of `mpinit` leaves the `switch` and not the loop, so at an entry of an
unknown type the loop stays where it is. It ends exactly if the entries have the known types.
-/

namespace Xv6Uac.Mp

/-! ## The program -/

/-- The bytes from the table on. -/
abbrev Table := ℕ → UInt8

/-- `sizeof(struct mpconf)`. -/
def headerSize : ℕ := 44

/-- `conf->length`, the length of the table with its header. -/
def Table.length (table : Table) : ℕ := (table 4).toNat + 256 * (table 5).toNat

/-- `sum` -/
def sum (table : Table) (len : ℕ) : UInt8 :=
  (List.range len).foldl (fun sum i => sum + table i) 0

/-- The checks of `mpconfig`: signature, version and checksum. -/
def mpconfig (table : Table) : Bool :=
  (List.range 4).map table == ['P', 'C', 'M', 'P'].map Char.toUInt8 &&
    (table 6 == 1 || table 6 == 4) && sum table table.length == 0

/-- The variables of the loop of `mpinit`. The cursor is the offset in the table. -/
structure Scan where
  p : ℕ
  ismp : Bool
  ncpu : ℕ
  apicid : ℕ → UInt8
  ioapicid : UInt8

def Scan.start : Scan := ⟨headerSize, true, 0, fun _ => 0, 0⟩

/-- The body of the loop. -/
def entry (table : Table) (s : Scan) : Scan :=
  if table s.p = 0 then
    if s.ncpu < NCPU then
      { s with
        apicid := Function.update s.apicid s.ncpu (table (s.p + 1))
        ncpu := s.ncpu + 1
        p := s.p + 20 }
    else { s with p := s.p + 20 }
  else if table s.p = 2 then { s with ioapicid := table (s.p + 1), p := s.p + 8 }
  else if table s.p = 1 ∨ table s.p = 3 ∨ table s.p = 4 then { s with p := s.p + 8 }
  else { s with ismp := false }

/-- The loop, with fuel. -/
def entries (table : Table) : ℕ → Scan → Option Scan
  | 0, _ => none
  | fuel + 1, s => if s.p < table.length then entries table fuel (entry table s) else some s

inductive Outcome where
  | accepted
  | panic (message : String)
deriving DecidableEq

def mpinit (table : Table) (fuel : ℕ) : Option Outcome :=
  if mpconfig table then
    (entries table fuel .start).map fun s =>
      if s.ismp then .accepted else .panic "Didn't find a suitable machine"
  else
    some (.panic "Expect to run on an SMP")

/-! ## The entries of a table -/

/-- An entry starts at the offset. An entry for a processor has 20 bytes, the others have 8. -/
inductive Table.Entry (table : Table) : ℕ → Prop where
  | first : headerSize < table.length → table.Entry headerSize
  | next {p q : ℕ} : table.Entry p → q = p + (if table p = 0 then 20 else 8) → q < table.length →
      table.Entry q

/-- All entries have types that `mpinit` knows. -/
def Table.Known (table : Table) : Prop := ∀ p, table.Entry p → table p ∈ [0, 1, 2, 3, 4]

variable {table : Table} {s : Scan} {fuel : ℕ}

theorem entry_known (known : table s.p ∈ [0, 1, 2, 3, 4]) :
    (entry table s).p = s.p + (if table s.p = 0 then 20 else 8) ∧ (entry table s).ismp = s.ismp := by
  simp only [List.mem_cons, List.not_mem_nil, or_false] at known
  rcases known with is | is | is | is | is <;> simp only [entry, is] <;> split_ifs <;>
    first | exact ⟨rfl, rfl⟩ | simp_all

theorem entry_unknown (unknown : table s.p ∉ [0, 1, 2, 3, 4]) :
    entry table s = { s with ismp := false } := by
  simp_all [entry]

theorem ncpu_entry (few : s.ncpu ≤ NCPU) : (entry table s).ncpu ≤ NCPU := by
  unfold entry
  split_ifs with _ more
  · exact more
  all_goals exact few

/-- The loop goes from entry to entry. -/
theorem entries_of_known (known : table.Known) :
    ∀ {s : Scan}, (s.p < table.length → table.Entry s.p) → s.ismp = true →
      table.length - s.p < fuel → ∃ t, entries table fuel s = some t ∧ t.ismp = true := by
  induction fuel with
  | zero => exact fun _ _ bad => absurd bad (Nat.not_lt_zero _)
  | succ fuel ih =>
    intro s here multi enough
    rw [entries]
    split_ifs with more
    · obtain ⟨next, same⟩ := entry_known (known s.p (here more))
      apply ih (fun inside => .next (here more) next inside) (same.trans multi)
      rw [next]
      split_ifs <;> omega
    · exact ⟨s, rfl, multi⟩

/-- The loop does not leave an unknown entry. -/
theorem entries_stuck (inside : s.p < table.length) (unknown : table s.p ∉ [0, 1, 2, 3, 4]) :
    entries table fuel s = none := by
  induction fuel generalizing s with
  | zero => rfl
  | succ fuel ih =>
    rw [entries, if_pos inside, entry_unknown unknown]
    exact ih inside unknown

theorem Table.Entry.lt {p : ℕ} (is : table.Entry p) : p < table.length := by
  cases is <;> assumption

/-- A loop that ends has been at every entry, and goes on from there. -/
theorem Table.Entry.visited {p : ℕ} {t : Scan} (is : table.Entry p)
    (ends : entries table fuel .start = some t) :
    ∃ s fuel', s.p = p ∧ entries table fuel' s = some t := by
  induction is with
  | first _ => exact ⟨.start, fuel, rfl, ends⟩
  | @next p q before step _ ih =>
    obtain ⟨s, fuel', rfl, goes⟩ := ih
    have known : table s.p ∈ [0, 1, 2, 3, 4] := by
      by_contra unknown
      rw [entries_stuck before.lt unknown] at goes
      cases goes
    cases fuel' with
    | zero => cases goes
    | succ fuel' =>
      rw [entries, if_pos before.lt] at goes
      exact ⟨_, fuel', (entry_known known).1.trans step.symm, goes⟩

/-- **The scan of the table ends exactly if it knows all entries.** For every table that `mpconfig`
accepts. There are never more than `NCPU` processors. -/
theorem mpinit_ends_iff (valid : mpconfig table = true) :
    (∃ fuel, mpinit table fuel = some .accepted ∨
        mpinit table fuel = some (.panic "Didn't find a suitable machine")) ∧
      (∀ n, ((entry table)^[n] .start).ncpu ≤ NCPU) ↔ table.Known := by
  have few : ∀ n, ((entry table)^[n] .start).ncpu ≤ NCPU := by
    intro n
    induction n with
    | zero => exact Nat.zero_le _
    | succ n ih =>
      rw [Function.iterate_succ_apply']
      exact ncpu_entry ih
  simp only [mpinit, if_pos valid]
  refine ⟨fun ⟨⟨fuel, ends⟩, _⟩ p is => ?_, fun known => ⟨⟨table.length + 1, .inl ?_⟩, few⟩⟩
  · cases scanned : entries table fuel .start with
    | none =>
      rw [scanned] at ends
      rcases ends with bad | bad <;> cases bad
    | some t =>
      by_contra unknown
      obtain ⟨s, fuel', rfl, goes⟩ := is.visited scanned
      rw [entries_stuck is.lt unknown] at goes
      cases goes
  · obtain ⟨t, scanned, multi⟩ := entries_of_known known (s := .start) .first rfl
      (Nat.lt_succ_of_le (Nat.sub_le _ _))
    rw [scanned, Option.map_some, if_pos multi]

/-- A table with one processor. -/
def oneProcessor : Table := fun i =>
  (['P', 'C', 'M', 'P'].map Char.toUInt8 ++ [64, 0, 1, 143]).getD i 0

/-- A table whose entry is of the type 5. -/
def strangeEntry : Table := fun i =>
  (['P', 'C', 'M', 'P'].map Char.toUInt8 ++ [52, 0, 1, 150]).getD i (if i = 44 then 5 else 0)

theorem mpinit_ends_of_processor : mpconfig oneProcessor = true ∧
    ∃ fuel, mpinit oneProcessor fuel = some .accepted ∨
      mpinit oneProcessor fuel = some (.panic "Didn't find a suitable machine") := by
  have valid : mpconfig oneProcessor = true := by decide +kernel
  refine ⟨valid, ((mpinit_ends_iff valid).mpr fun p is => ?_).1⟩
  have after : 8 ≤ p := by
    induction is with
    | first _ => decide
    | next _ step _ ih => omega
  rw [oneProcessor, List.getD_eq_getElem?_getD, List.getElem?_eq_none after]
  decide

theorem mpinit_loops : mpconfig strangeEntry = true ∧
    ∀ fuel, mpinit strangeEntry fuel = none := by
  have valid : mpconfig strangeEntry = true := by decide +kernel
  refine ⟨valid, fun fuel => ?_⟩
  rw [mpinit, if_pos valid, entries_stuck (by decide) (by decide)]
  rfl

end Xv6Uac.Mp
