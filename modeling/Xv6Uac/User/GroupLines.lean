import Xv6Uac.User.Sessions

/-!
# Lines of `/etc/group`

A `GroupEntry` is a group whose name, id and members can stand in a line, and its `line` is what
`writegroup` writes. `group` reads the entry back, so that a list of entries and the file are the
same (`GroupEntry.line_injective`). `addusertogroup` on an entry is `GroupEntry.add`.
-/

namespace Xv6Uac.Accounts

open Separated List

/-- A name that can stand in the list of members of a group. -/
structure IsMember (name : Bytes) : Prop where
  nonempty : name ≠ []
  plain : Plain name
  apart : comma ∉ name

instance (name : Bytes) : Decidable (IsMember name) :=
  decidable_of_iff (name ≠ [] ∧ Plain name ∧ comma ∉ name)
    ⟨fun ⟨nonempty, plain, apart⟩ => ⟨nonempty, plain, apart⟩,
      fun ⟨nonempty, plain, apart⟩ => ⟨nonempty, plain, apart⟩⟩

theorem IsMember.nul {name : Bytes} (isMember : IsMember name) : 0 ∉ name := fun inside =>
  (isMember.plain 0 inside).2.2 rfl

/-- Members with commas between them are a field of a line. -/
theorem plain_join {names : List Bytes} (all : ∀ name ∈ names, IsMember name) :
    Plain (join comma names) := by
  induction names with
  | nil => exact fun _ inside => absurd inside not_mem_nil
  | cons first rest ih =>
    have here := (all first mem_cons_self).plain
    have later := ih fun name member => all name (mem_cons_of_mem first member)
    cases rest with
    | nil => rwa [join_singleton]
    | cons second rest =>
      intro b inside
      rcases List.mem_append.mp inside with inside | inside
      · exact here b inside
      · rcases List.mem_cons.mp inside with rfl | inside
        · decide
        · exact later b inside

/-- A group that can stand in `/etc/group`. -/
@[ext]
structure GroupEntry where
  groupname : Bytes
  gid : ℤ
  members : List Bytes
  plain : Plain groupname
  isInt : IsInt gid
  nonneg : 0 ≤ gid
  named : ∀ name ∈ members, IsMember name

namespace GroupEntry

variable (e : GroupEntry) {name : Bytes}

/-- The group as a `struct group`. -/
def record : Group :=
  ⟨e.groupname, e.gid, if e.members = [] then none else some (join comma e.members)⟩

/-- The line that `writegroup` writes. The stack does not show, as the id is not negative. -/
def line : Bytes := groupLine (fun _ => 0) e.record

/-! ## The line and the record -/

theorem join_ne_nil (some : e.members ≠ []) : join comma e.members ≠ [] := by
  obtain ⟨first, rest, shape⟩ := exists_cons_of_ne_nil some
  have nonempty := (e.named first (by simp [shape])).nonempty
  rw [shape]
  cases rest with
  | nil => rwa [join_singleton]
  | cons second rest => simp

theorem clean : e.record.Clean where
  groupname := e.plain
  gid := e.isInt
  users := by
    intro s stored
    simp only [record] at stored
    split at stored
    · cases stored
    · cases stored
      exact plain_join e.named

theorem groupLine_record (garbage : ℕ → UInt8) : groupLine garbage e.record = e.line := by
  have digits : ∀ garbage, gidstring garbage e.record.gid =
      digitsLoop (· = 0) INTDIGITS e.record.gid [] := fun garbage =>
    (numberString_eq garbage fun n _ => gid_stops n).1
  rw [line, groupLine, groupLine, digits, digits]

theorem read_record : e.record.read = e.record := by
  rw [Group.read, record]
  split
  · rfl
  · rename_i some
    simp [nonempty, e.join_ne_nil some]

/-- `group` reads the entry, and the line has the length that is computed. -/
theorem group_line (stale : Bytes) :
    group (e.line ++ 0 :: stale) = some e.record ∧ e.line.length = getgrouplength e.record := by
  have trip := (Group.roundTrip_iff e.clean).mpr e.nonneg (fun _ => 0) stale
  rwa [read_record] at trip

theorem line_ne_nil : e.line ≠ [] := by
  intro none
  have length := (e.group_line []).2
  rw [none, getgrouplength, length_nil] at length
  omega

theorem newline_not_mem_line : newline ∉ e.line := by
  have plain : Plain (gidstring (fun _ => 0) e.record.gid) := by
    rw [gidstring, (numberString_eq _ fun n _ => gid_stops n).1]
    exact plain_digitsLoop fun _ inside => absurd inside not_mem_nil
  obtain ⟨copied, -, -, -⟩ := optional_eq e.clean.users
  have users : newline ∉ e.record.users.getD [] := by
    rcases stored : e.record.users with _ | s
    · exact not_mem_nil
    · exact fun inside => (e.clean.users s stored _ inside).2.1 rfl
  rw [line, groupLine, copied, (gidstring_stands _ _).strncpy_eq,
    strncpy_self e.clean.groupname.delimited]
  simp only [mem_append, not_or]
  exact ⟨⟨⟨⟨fun inside => (e.plain _ inside).2.1 rfl, by decide⟩,
    fun inside => (plain _ inside).2.1 rfl⟩, by decide⟩, users⟩

theorem split_members : split comma (join comma e.members) = e.members := by
  rcases eq_nil_or_concat e.members with none | ⟨front, last, shape⟩
  · rw [none, join_nil, split_nil]
  · rw [concat_eq_append] at shape
    have apart : ∀ name ∈ front ++ [last], comma ∉ name := by
      rw [← shape]
      exact fun name member => (e.named name member).apart
    rw [shape]
    exact split_join (fun a member => apart a (mem_append_left _ member))
      (apart last (by simp)) (e.named last (by simp [shape])).nonempty

theorem users_getD : e.record.users.getD [] = join comma e.members := by
  rw [record]
  split
  · rename_i none
    simp [none]
  · rfl

/-- The line determines the entry. -/
theorem line_injective : Function.Injective line := by
  intro e f same
  have record : e.record = f.record := by
    have read := (e.group_line []).1
    rw [same, (f.group_line []).1] at read
    exact (Option.some.inj read).symm
  have users := congrArg (fun grp : Group => split comma (grp.users.getD [])) record
  simp only [users_getD, split_members] at users
  exact GroupEntry.ext (congrArg Group.groupname record) (congrArg Group.gid record) users

/-! ## Adding a member -/

/-- `addusertogroup` adds a name that is not in the list, and also the first one of the list. -/
def added (names : List Bytes) (name : Bytes) : List Bytes :=
  if name ∈ names ∧ names.head? ≠ some name then names else names ++ [name]

def add (isMember : IsMember name) : GroupEntry where
  groupname := e.groupname
  gid := e.gid
  members := added e.members name
  plain := e.plain
  isInt := e.isInt
  nonneg := e.nonneg
  named := by
    intro other member
    rw [added] at member
    split at member
    · exact e.named other member
    · rcases List.mem_append.mp member with old | new
      · exact e.named other old
      · rwa [List.mem_singleton.mp new]

/-- What `addusertogroup` makes of the list of members. -/
theorem addusertogroup_record (isMember : IsMember name) (junk : ℕ → UInt8) :
    (addusertogroup junk name (e.record.users.map (· ++ [0]))).2.map cstring =
      (e.add isMember).record.users := by
  have apart : ∀ a ∈ e.members, comma ∉ a := fun a member => (e.named a member).apart
  have nonempty : ∀ a ∈ e.members, a ≠ [] := fun a member => (e.named a member).nonempty
  have nul : ∀ a ∈ e.members, 0 ∉ a := fun a member => (e.named a member).nul
  have terminated : Terminated (join comma e.members ++ [0]) (join comma e.members) := ⟨[], rfl⟩
  by_cases none : e.members = []
  · have users : e.record.users = Option.none := by rw [record, if_pos none]
    rw [users, Option.map_none, addusertogroup_none isMember.nul, Option.map_some,
      cstring_append isMember.nul]
    simp [record, add, added, none]
  · have users : e.record.users = some (join comma e.members) := by rw [record, if_neg none]
    rw [users, Option.map_some]
    by_cases later : name ∈ e.members ∧ e.members.head? ≠ some name
    · have same : (e.add isMember).members = e.members := if_pos later
      obtain ⟨first, rest, shape⟩ := exists_cons_of_ne_nil none
      have exists' : addusertogroup junk name (some (join comma e.members ++ [0])) =
          (EXISTS, some (join comma e.members ++ [0])) := by
        rw [shape] at apart nonempty nul later terminated ⊢
        have other : name ≠ first := fun equal => later.2 (by simp [equal])
        exact addusertogroup_exists apart nonempty nul terminated other
          (mem_of_ne_of_mem other later.1)
      rw [exists', Option.map_some, cstring_append (join_nul nul), record, same, if_neg none]
    · have more : (e.add isMember).members = e.members ++ [name] := if_neg later
      have code : findstrinsetdivsep name (join comma e.members) comma = NOTFOUND ∨
          findstrinsetdivsep name (join comma e.members) comma = 0 := by
        by_cases member : name ∈ e.members
        · have head : e.members.head? = some name := by
            by_contra other
            exact later ⟨member, other⟩
          obtain ⟨rest, shape⟩ : ∃ rest, e.members = name :: rest :=
            ⟨_, (cons_head?_tail head).symm⟩
          rw [shape] at apart nonempty ⊢
          exact .inr (@find_present [] rest name apart nonempty not_mem_nil)
        · exact .inl (find_absent apart nonempty member)
      have text : 0 ∉ join comma e.members ++ comma :: name :=
        nul_appended (join_nul nul) isMember.nul
      rw [addusertogroup_appends isMember.nul terminated (join_nul nul) code, Option.map_some, record,
        more, if_neg (by simp), join_append_singleton none]
      have regroup : join comma e.members ++ [comma] ++ (name ++ [0]) =
          (join comma e.members ++ comma :: name) ++ 0 :: [] := by simp
      rw [regroup, cstring_append text]

end GroupEntry

end Xv6Uac.Accounts
