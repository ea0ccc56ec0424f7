import Xv6Uac.User.GroupLines

/-!
# Setting the groups of a user

`changegroups` of `uauthgrp.c` has two loops over `/etc/group`. The first one is to remove the user
from the groups that are not listed. Its condition is the wrong way round: it goes on as long as
`getline` fails. On a file with a line it ends at once, and on an empty file it never ends. The
second loop adds the user to each group that is listed, and writes its line.

So the memberships are set if and only if nothing has to be removed (`changegroups_iff`).
-/

namespace Xv6Uac.Accounts

open Programs Separated List

/-! ## The function -/

/-- What C leaves open in one round of the second loop. -/
structure Round where
  left : ℕ → Leftover
  junk : ℕ → UInt8
  garbage : ℕ → UInt8

/-- `writegroup`: the code, and what is stored in `*offset`. -/
def writegroup (garbage : ℕ → UInt8) (fd : ℤ) (grp : Group) (offset oldlength : ℤ) : P (ℤ × ℤ) :=
  if oldlength ≤ 0 then do
    let code ← addline fd (groupLine garbage grp)
    pure (code, offset)
  else do
    let offset ← changeline fd (groupLine garbage grp) .group offset oldlength
    pure (0, offset)

/-- The first loop of `changegroups`. A call of `getline` that fails leaves the line buffer as it
was. The group that comes out of `removeuserfromgroup` is not written. -/
def removalLoop (left : ℕ → Leftover) (junk : ℕ → UInt8) (null : Bytes) (fd : ℤ)
    (username groups : Bytes) : ℕ → ℕ → Option Group → ℤ → P (Option Group)
  | 0, _, _, _ => .undefined
  | k + 1, j, grp, offset => do
    let got ← getline (left j).stack fd offset
    match got with
    | some _ => pure grp
    | none =>
      match group (left j).stale with
      | none => .undefined
      | some grp =>
        let grp :=
          if findstrinsetdivsep grp.groupname groups comma = NOTFOUND then
            { grp with users := (removeuserfromgroup junk null username
                (grp.users.map (· ++ [0]))).2.map cstring }
          else grp
        removalLoop left junk null fd username groups k (j + 1) (some grp) offset

/-- The body of the second loop, for one name of the list. -/
def joinGroup (round : Round) (fd : ℤ) (username group : Bytes) (grp : Option Group) : P Unit := do
  let _ ← lseek fd 0 0
  let (code, grp, offset) ← findgroupbyname round.left fd group grp 0
  if code < 0 then pure ()
  else
    match grp with
    | none => .undefined
    | some grp => do
      let oldlength := getgrouplength grp
      let users := (addusertogroup round.junk username (grp.users.map (· ++ [0]))).2.map cstring
      let _ ← writegroup round.garbage fd { grp with users := users } offset oldlength
      pure ()

/-- The second loop of `changegroups`. The group is freed at the end of a round. -/
def joinLoop (rounds : ℕ → Round) (fd : ℤ) (username groups : Bytes) :
    ℕ → ℕ → ℕ → Option Group → P Unit
  | 0, _, _, _ => .undefined
  | k + 1, j, i, grp =>
    if i < groups.length then do
      let n := pieceLength (groups.drop i) comma
      joinGroup (rounds j) fd username ((groups.drop i).take (n - 1)) grp
      joinLoop rounds fd username groups k (j + 1) (i + n) none
    else pure ()

/-- What C leaves open in a call of `changegroups`, and the string at address 0. -/
structure Unknowns where
  left : ℕ → Leftover
  junk : ℕ → UInt8
  null : Bytes
  rounds : ℕ → Round

/-- The part of `changegroups` that depends on the flag. -/
def removal (u : Unknowns) (k : ℕ) (fd : ℤ) (username groups : Bytes) (flag : ℤ) :
    P (Option Group) :=
  if flag ≠ 1 then removalLoop u.left u.junk u.null fd username groups k 0 none 0 else pure none

/-- `changegroups`, with a bound for the rounds of the first loop. -/
def changegroups (u : Unknowns) (k : ℕ) (username groups : Bytes) (flag : ℤ) : P ℤ := do
  let fd ← sysOpen (.account .group) false
  if fd < 0 then pure NOPERMS
  else do
    let grp ← removal u k fd username groups flag
    joinLoop u.rounds fd username groups (groups.length + 1) 0 0 grp
    let _ ← close fd
    pure 0

/-! ## One group -/

/-- The user is added to the first group with a name. -/
def enroll {username : Bytes} (isMember : IsMember username) (group : Bytes) :
    List GroupEntry → List GroupEntry
  | [] => []
  | e :: rest => if e.groupname = group then e.add isMember :: rest
      else e :: enroll isMember group rest

section OneGroup

variable {s : State} {fd node : ℕ} {username group : Bytes} {entries pre post : List GroupEntry}
  {e : GroupEntry} {isMember : IsMember username}

theorem enroll_first (before : ∀ f ∈ pre, f.groupname ≠ group) (here : e.groupname = group) :
    enroll isMember group (pre ++ e :: post) = pre ++ e.add isMember :: post := by
  induction pre with
  | nil => simp [enroll, here]
  | cons f pre ih =>
    rw [cons_append, enroll, if_neg (before f mem_cons_self),
      ih fun g member => before g (mem_cons_of_mem f member), cons_append]

theorem enroll_absent (absent : ∀ f ∈ entries, f.groupname ≠ group) :
    enroll isMember group entries = entries := by
  induction entries with
  | nil => rfl
  | cons f entries ih =>
    rw [enroll, if_neg (absent f mem_cons_self),
      ih fun g member => absent g (mem_cons_of_mem f member)]

/-- A new member makes the line longer by the name and a comma, at most. -/
theorem length_add_line (e : GroupEntry) (isMember : IsMember username) :
    (e.add isMember).line.length ≤ e.line.length + (username.length + 1) := by
  have users : (join comma (GroupEntry.added e.members username)).length ≤
      (join comma e.members).length + (username.length + 1) := by
    rw [GroupEntry.added]
    split
    · omega
    · by_cases none : e.members = []
      · simp [none]
      · rw [join_append_singleton none]
        simp
  have length : ∀ f : GroupEntry, f.line.length =
      f.groupname.length + 1 + (digitcount f.gid + 1) + (join comma f.members).length := by
    intro f
    rw [(f.group_line []).2, getgrouplength, GroupEntry.record]
    split
    · rename_i none
      simp [none]
    · rfl
  rw [length, length]
  simp only [GroupEntry.add]
  omega

/-- Only the length of the line that is replaced counts. -/
theorem length_join_replace (pre : List Bytes) (a b : Bytes) (post : List Bytes) :
    (join newline (pre ++ a :: post)).length + b.length =
      (join newline (pre ++ b :: post)).length + a.length := by
  rw [join_append_cons, join_append_cons, length_append, length_append]
  cases post with
  | nil =>
    rw [join_singleton, join_singleton]
    omega
  | cons c post =>
    rw [join_cons_cons, join_cons_cons, length_append, length_append]
    omega

/-- The entries with their lines and records. -/
def shown (entries : List GroupEntry) : List (Bytes × Group) :=
  entries.map fun e => (e.line, e.record)

theorem shown_fst (entries : List GroupEntry) :
    (shown entries).map Prod.fst = entries.map GroupEntry.line := by simp [shown]

theorem shown_parsed (entries : List GroupEntry) : Parsed Accounts.group (shown entries) := by
  intro e member stale
  obtain ⟨e, -, rfl⟩ := List.mem_map.mp member
  exact (e.group_line stale).1

theorem lines_free (entries : List GroupEntry) :
    ∀ line ∈ entries.map GroupEntry.line, newline ∉ line := by
  intro line member
  obtain ⟨e, -, rfl⟩ := List.mem_map.mp member
  exact e.newline_not_mem_line

/-- `writegroup` in place of a line. -/
theorem writegroup_spec (garbage : ℕ → UInt8) {before after : List Bytes} {old new : GroupEntry}
    (inUse : InUse s fd node .group (before ++ old.line :: after))
    (fits : (join newline (before ++ new.line :: after)).length ≤ MAXFILE * BSIZE) :
    Ends (writegroup garbage fd new.record (closed newline (before ++ [old.line])).length
      (getgrouplength old.record)) (fun _ t => Touches fd node s t ∧
        InUse t fd node .group (before ++ new.line :: after)) s := by
  have length := (old.group_line []).2
  have some : old.line.length ≠ 0 := fun zero => old.line_ne_nil (List.length_eq_zero_iff.mp zero)
  rw [Ends, writegroup, if_neg (by omega), new.groupLine_record, ← length, always_bind]
  apply (inUse.change new.line_ne_nil fits).mono (fun _ => id)
  intro _ t _ changed
  exact ⟨trivial, changed⟩

/-- A round of the second loop is `enroll`. -/
theorem joinGroup_spec (round : Round) (isMember : IsMember username) (nul : 0 ∉ group)
    (inUse : InUse s fd node .group (entries.map GroupEntry.line))
    (quiet : Quiet round.left (entries.map GroupEntry.line))
    (fits : (join newline (entries.map GroupEntry.line)).length + (username.length + 1) ≤
      MAXFILE * BSIZE) (grp : Option Group) :
    Ends (joinGroup round fd username group grp) (fun _ t => Touches fd node s t ∧
      InUse t fd node .group ((enroll isMember group entries).map GroupEntry.line)) s := by
  have compare : ∀ e : GroupEntry,
      decide (strcmp e.record.groupname group = 0) = decide (e.groupname = group) := fun e =>
    decide_eq_decide.mpr (strcmp_eq_zero_iff (fun inside => (e.plain 0 inside).2.2 rfl) nul)
  obtain ⟨moved, inUse'⟩ := inUse.lseek 0 0
  rw [← shown_fst] at inUse' quiet
  rw [Ends, joinGroup, lseek, always_perform_bind]
  refine ⟨trivial, ?_⟩
  rw [always_bind]
  apply (inUse'.find (by rw [shown_fst]; exact lines_free entries) quiet (shown_parsed entries)
    grp).mono (fun _ => id)
  rintro _ t - ⟨rfl, touches, searched⟩
  rw [shown_fst] at searched
  have touched := moved.trans touches
  rcases seek_cases GroupEntry.line GroupEntry.record
    (fun grp => strcmp grp.groupname group = 0) entries grp with
    ⟨absent, r, o, sought⟩ | ⟨pre, e, post, rfl, before, here, sought⟩
  · have absent' : ∀ f ∈ entries, f.groupname ≠ group := by
      intro f member
      have other := absent f member
      rw [compare] at other
      simpa using other
    rw [shown, sought, enroll_absent absent']
    exact ⟨trivial, touched, searched⟩
  · have before' : ∀ f ∈ pre, f.groupname ≠ group := by
      intro f member
      have other := before f member
      rw [compare] at other
      simpa using other
    rw [compare, decide_eq_true_iff] at here
    have grown := length_add_line e isMember
    have replaced := length_join_replace (pre.map GroupEntry.line) e.line
      (e.add isMember).line (post.map GroupEntry.line)
    rw [map_append, map_cons] at searched fits
    rw [shown, sought, enroll_first before' here]
    dsimp only
    rw [if_neg (by decide), e.addusertogroup_record isMember, always_bind, map_append,
      map_append]
    apply (@writegroup_spec t fd node round.garbage _ _ e (e.add isMember) searched
      (by omega)).mono (fun _ => id)
    rintro _ u - ⟨written, changed⟩
    exact ⟨trivial, touched.trans written, changed⟩

end OneGroup

/-! ## The list of groups -/

/-- The user is added to all groups of a list. -/
def enrollAll {username : Bytes} (isMember : IsMember username) (listed : List Bytes)
    (entries : List GroupEntry) : List GroupEntry :=
  listed.foldl (fun entries group => enroll isMember group entries) entries

section Loops

variable {s : State} {fd node : ℕ} {username groups : Bytes} {entries : List GroupEntry}
  {rounds : ℕ → Round} {isMember : IsMember username}

/-- There is room for the user in each line and in the file, as often as a group is listed. -/
structure HasRoom (username : Bytes) (listed : List Bytes) (entries : List GroupEntry) : Prop where
  short : ∀ e ∈ entries, e.line.length + listed.length * (username.length + 1) < BUFSIZE - 1
  size : (join newline (entries.map GroupEntry.line)).length +
    listed.length * (username.length + 1) ≤ MAXFILE * BSIZE

theorem enroll_short {group : Bytes} {bound : ℕ}
    (short : ∀ e ∈ entries, e.line.length + (username.length + 1) < bound) :
    ∀ e ∈ enroll isMember group entries, e.line.length < bound := by
  induction entries with
  | nil => exact fun _ member => absurd member not_mem_nil
  | cons f entries ih =>
    have here := short f mem_cons_self
    have later : ∀ e ∈ entries, e.line.length + (username.length + 1) < bound :=
      fun e member => short e (mem_cons_of_mem f member)
    have grown := length_add_line f isMember
    rw [enroll]
    intro e member
    split at member
    · rcases List.mem_cons.mp member with rfl | member
      · omega
      · have rest := later e member
        omega
    · rcases List.mem_cons.mp member with rfl | member
      · omega
      · exact ih later e member

theorem length_enroll_le (group : Bytes) (entries : List GroupEntry) :
    (join newline ((enroll isMember group entries).map GroupEntry.line)).length ≤
      (join newline (entries.map GroupEntry.line)).length + (username.length + 1) := by
  rcases found : entries.find? fun e => e.groupname = group with _ | e
  · have absent : ∀ f ∈ entries, f.groupname ≠ group := by
      intro f member
      simpa using List.find?_eq_none.mp found f member
    rw [enroll_absent absent]
    omega
  · obtain ⟨here, pre, post, rfl, before⟩ := List.find?_eq_some_iff_append.mp found
    have grown := length_add_line e isMember
    have replaced := length_join_replace (pre.map GroupEntry.line) e.line
      (e.add isMember).line (post.map GroupEntry.line)
    rw [enroll_first (by simpa using before) (by simpa using here)]
    simp only [map_append, map_cons]
    omega

theorem HasRoom.next {group : Bytes} {listed : List Bytes}
    (room : HasRoom username (group :: listed) entries) (isMember : IsMember username) :
    HasRoom username listed (enroll isMember group entries) := by
  obtain ⟨short, size⟩ := room
  have more : (group :: listed).length * (username.length + 1) =
      listed.length * (username.length + 1) + (username.length + 1) := by
    rw [length_cons, Nat.succ_mul]
  constructor
  · intro e member
    have bound := @enroll_short username entries isMember group
      (BUFSIZE - 1 - listed.length * (username.length + 1))
      (fun f inside => by have line := short f inside; omega) e member
    omega
  · have longer := @length_enroll_le username isMember group entries
    omega

/-- The name at the front of a list. -/
theorem pieceLength_eq (xs : Bytes) :
    pieceLength xs comma = (xs.takeWhile (· != comma)).length + 1 := by
  by_cases inside : comma ∈ xs
  · obtain ⟨rest, shape⟩ := split_first inside
    have free : comma ∉ xs.takeWhile (· != comma) := not_mem_takeWhile xs
    generalize xs.takeWhile (· != comma) = a at *
    subst shape
    have two := pieceLength_join free [rest]
    rwa [join_cons_cons, join_singleton] at two
  · have whole : xs.takeWhile (· != comma) = xs := by
      have all := takeWhile_join inside []
      rwa [join_singleton] at all
    have single := pieceLength_join inside []
    rw [join_singleton] at single
    rw [whole, single]

/-- The second loop adds the user to the groups of the list. -/
theorem joinLoop_spec (isMember : IsMember username) (nul : 0 ∉ groups)
    (first : ∀ j i, ((rounds j).left i).stack.first ≠ newline) {listed : List Bytes} {i : ℕ}
    (rest : split comma (groups.drop i) = listed)
    (inUse : InUse s fd node .group (entries.map GroupEntry.line))
    (room : HasRoom username listed entries) {k : ℕ} (enough : listed.length < k) (j : ℕ)
    (grp : Option Group) :
    Ends (joinLoop rounds fd username groups k j i grp) (fun _ t => Touches fd node s t ∧
      InUse t fd node .group ((enrollAll isMember listed entries).map GroupEntry.line)) s := by
  induction listed generalizing s entries i k j grp with
  | nil =>
    obtain ⟨k, rfl⟩ := Nat.exists_eq_succ_of_ne_zero (Nat.ne_of_gt enough)
    have ended : groups.length ≤ i := List.drop_eq_nil_iff.mp (split_eq_nil_iff.mp rest)
    obtain ⟨off, opens⟩ := inUse.opens
    rw [joinLoop, if_neg (by omega)]
    exact ⟨trivial, opens.touches, inUse⟩
  | cons group listed ih =>
    obtain ⟨k, rfl⟩ := Nat.exists_eq_succ_of_ne_zero (Nat.ne_of_gt (Nat.zero_lt_of_lt enough))
    have some : groups.drop i ≠ [] := by
      intro none
      rw [none] at rest
      exact cons_ne_nil _ _ rest.symm
    have inside : i < groups.length := by
      by_contra beyond
      exact some (drop_eq_nil_of_le (by omega))
    rw [split_of_ne_nil some, List.cons.injEq, drop_drop] at rest
    obtain ⟨rfl, rest⟩ := rest
    have piece : (groups.drop i).take (pieceLength (groups.drop i) comma - 1) =
        (groups.drop i).takeWhile (· != comma) := by
      rw [pieceLength_eq]
      exact List.prefix_iff_eq_take.mp (List.takeWhile_prefix _) |>.symm
    have nulPiece : 0 ∉ (groups.drop i).takeWhile (· != comma) := fun zero =>
      nul (mem_of_mem_drop ((List.takeWhile_prefix _).subset zero))
    rw [Ends, joinLoop, if_pos inside]
    dsimp only
    rw [piece, pieceLength_eq, always_bind]
    refine (joinGroup_spec (rounds j) isMember nulPiece inUse ⟨first j, ?_⟩ ?_ grp).mono
      (fun _ => id) ?_
    · intro line member
      obtain ⟨e, inside, rfl⟩ := List.mem_map.mp member
      have short := room.short e inside
      omega
    · have size := room.size
      rw [length_cons, Nat.succ_mul] at size
      omega
    · rintro _ t - ⟨touched, inUse'⟩
      apply (ih rest inUse' (room.next isMember) (Nat.lt_of_succ_lt_succ enough) (j + 1)
        none).mono (fun _ => id)
      rintro _ u - ⟨touched', inUse''⟩
      exact ⟨touched.trans touched', inUse''⟩

/-- On a file with a line the first loop ends at once. -/
theorem removalLoop_some {left : ℕ → Leftover} {j : ℕ}
    (inUse : InUse s fd node .group (entries.map GroupEntry.line))
    (some : entries ≠ []) (quiet : Quiet left (entries.map GroupEntry.line)) (junk : ℕ → UInt8)
    (null username groups : Bytes) (k : ℕ) (grp : Option Group) :
    Ends (removalLoop left junk null fd username groups (k + 1) j grp 0) (fun _ t =>
      Touches fd node s t ∧ InUse t fd node .group (entries.map GroupEntry.line)) s := by
  obtain ⟨e, rest, rfl⟩ := exists_cons_of_ne_nil some
  have front : lineAt (join newline ((e :: rest).map GroupEntry.line)) (0 : ℤ).toNat = e.line := by
    rw [lineAt, Int.toNat_zero, drop_zero, map_cons,
      takeWhile_join e.newline_not_mem_line]
  have short : e.line.length < BUFSIZE - 1 := quiet.short e.line mem_cons_self
  have more : ¬(join newline ((e :: rest).map GroupEntry.line)).length ≤ (0 : ℤ).toNat := by
    have least : e.line.length ≤ (join newline ((e :: rest).map GroupEntry.line)).length := by
      rw [← front]
      exact (List.takeWhile_prefix _).length_le
    have pos := List.length_pos_iff.mpr e.line_ne_nil
    omega
  rw [Ends, removalLoop, always_bind]
  apply (inUse.getline (quiet.first j) (by rw [front]; omega) le_rfl (by decide)).mono (fun _ => id)
  rintro got t - ⟨ended, touched, inUse'⟩
  rcases got with _ | line
  · exact absurd (ended.mp rfl) more
  · exact ⟨trivial, touched, inUse'⟩

/-- On an empty file the first loop never ends. -/
theorem not_ends_removalLoop {left : ℕ → Leftover} (inUse : InUse s fd node .group [])
    (first : ∀ j, (left j).stack.first ≠ newline) (junk : ℕ → UInt8) (null username groups : Bytes)
    (k j : ℕ) (grp : Option Group) (Q : Option Group → State → Prop) :
    ¬Ends (removalLoop left junk null fd username groups k j grp 0) Q s := by
  induction k generalizing s j grp with
  | zero => exact id
  | succ k ih =>
    intro runs
    obtain ⟨got, t, ⟨ended, -, inUse'⟩, after⟩ :=
      runs.of_bind (inUse.getline (first j) (by decide) le_rfl (by decide))
    obtain rfl : got = none := ended.mpr (Nat.zero_le _)
    dsimp only at after
    split at after
    · exact after
    · exact ih inUse' (j + 1) _ after

end Loops

/-! ## Memberships -/

/-- Of a group only the membership of one user may differ. -/
structure Keeps (username : Bytes) (e f : GroupEntry) : Prop where
  groupname : f.groupname = e.groupname
  gid : f.gid = e.gid
  others : f.members.filter (· ≠ username) = e.members.filter (· ≠ username)

/-- The user has joined the groups of a list, where only the first group with a name counts. The
names in `seen` have come before. -/
def Joined (username : Bytes) (listed : List Bytes) :
    List Bytes → List GroupEntry → List GroupEntry → Prop
  | _, [], [] => True
  | seen, e :: es, f :: fs => Keeps username e f ∧
      (username ∈ f.members ↔
        username ∈ e.members ∨ e.groupname ∈ listed ∧ e.groupname ∉ seen) ∧
      Joined username listed (e.groupname :: seen) es fs
  | _, _, _ => False

section Memberships

variable {username group : Bytes} {listed seen : List Bytes} {es fs : List GroupEntry}
  {isMember : IsMember username}

theorem keeps_add (e : GroupEntry) (isMember : IsMember username) :
    Keeps username e (e.add isMember) where
  groupname := rfl
  gid := rfl
  others := by
    simp only [GroupEntry.add, GroupEntry.added]
    split
    · rfl
    · simp

theorem Keeps.trans {e f g : GroupEntry} (first : Keeps username e f)
    (second : Keeps username f g) : Keeps username e g :=
  ⟨second.groupname.trans first.groupname, second.gid.trans first.gid,
    second.others.trans first.others⟩

theorem mem_add (e : GroupEntry) (isMember : IsMember username) :
    username ∈ (e.add isMember).members := by
  simp only [GroupEntry.add, GroupEntry.added]
  split
  · rename_i later
    exact later.1
  · simp

theorem joined_refl (seen : List Bytes) (es : List GroupEntry) : Joined username [] seen es es := by
  induction es generalizing seen with
  | nil => trivial
  | cons e es ih => exact ⟨⟨rfl, rfl, rfl⟩, by simp, ih _⟩

/-- A group that has come before makes no difference. -/
theorem Joined.repeated (joined : Joined username listed seen es fs) (before : group ∈ seen) :
    Joined username (listed ++ [group]) seen es fs := by
  induction es generalizing seen fs with
  | nil =>
    cases fs with
    | nil => trivial
    | cons f fs => exact joined
  | cons e es ih =>
    cases fs with
    | nil => exact joined
    | cons f fs =>
      obtain ⟨keeps, here, later⟩ := joined
      refine ⟨keeps, here.trans ?_, ih later (mem_cons_of_mem _ before)⟩
      by_cases same : e.groupname = group
      · simp [same, before]
      · simp [same]

/-- The step: one more group of the list. -/
theorem Joined.enroll (joined : Joined username listed seen es fs) (fresh : group ∉ seen) :
    Joined username (listed ++ [group]) seen es (enroll isMember group fs) := by
  induction es generalizing seen fs with
  | nil =>
    cases fs with
    | nil => trivial
    | cons f fs => exact joined.elim
  | cons e es ih =>
    cases fs with
    | nil => exact joined.elim
    | cons f fs =>
      obtain ⟨keeps, here, later⟩ := joined
      rw [Accounts.enroll, keeps.groupname]
      by_cases same : e.groupname = group
      · rw [if_pos same]
        refine ⟨keeps.trans (keeps_add f isMember), ?_, later.repeated ?_⟩
        · simp [mem_add f isMember, same, fresh]
        · rw [same]
          exact mem_cons_self
      · rw [if_neg same]
        refine ⟨keeps, here.trans ?_, ih later ?_⟩
        · simp [same]
        · rw [mem_cons, not_or]
          exact ⟨Ne.symm same, fresh⟩

/-- The run: all groups of the list. -/
theorem joined_enrollAll (isMember : IsMember username) (listed : List Bytes)
    (es : List GroupEntry) : Joined username listed [] es (enrollAll isMember listed es) := by
  induction listed using List.reverseRecOn with
  | nil => exact joined_refl [] es
  | append_singleton listed group ih =>
    rw [enrollAll, foldl_append]
    exact ih.enroll not_mem_nil

/-- What `changegroups` is to do to a group. -/
def Sets (flag : ℤ) (username : Bytes) (listed : List Bytes) (e f : GroupEntry) : Prop :=
  Keeps username e f ∧
    (username ∈ f.members ↔ flag = 1 ∧ username ∈ e.members ∨ e.groupname ∈ listed)

/-- No membership has to be removed. -/
def NoneToRemove (username : Bytes) (listed : List Bytes) (es : List GroupEntry) : Prop :=
  ∀ e ∈ es, username ∈ e.members → e.groupname ∈ listed

/-- The user is in each group of the list that is not the first one with its name. -/
def RepeatedJoined (username : Bytes) (listed seen : List Bytes) (es : List GroupEntry) : Prop :=
  ∀ pre e post, es = pre ++ e :: post → e.groupname ∈ listed →
    e.groupname ∈ seen ∨ e.groupname ∈ pre.map GroupEntry.groupname → username ∈ e.members

theorem repeatedJoined_cons {e : GroupEntry} :
    RepeatedJoined username listed seen (e :: es) ↔
      (e.groupname ∈ listed → e.groupname ∈ seen → username ∈ e.members) ∧
        RepeatedJoined username listed (e.groupname :: seen) es := by
  constructor
  · intro repeated
    refine ⟨fun isListed before => repeated [] e es rfl isListed (.inl before), ?_⟩
    rintro pre f post rfl isListed before
    apply repeated (e :: pre) f post rfl isListed
    rcases before with before | before
    · rcases List.mem_cons.mp before with same | before
      · exact .inr (by simp [same])
      · exact .inl before
    · exact .inr (mem_cons_of_mem _ before)
  · rintro ⟨here, later⟩ pre f post shape isListed before
    cases pre with
    | nil =>
      cases shape
      exact here isListed (before.resolve_right not_mem_nil)
    | cons g pre =>
      cases shape
      apply later pre f post rfl isListed
      rcases before with before | before
      · exact .inl (mem_cons_of_mem _ before)
      · rcases List.mem_cons.mp before with same | before
        · exact .inl (by simp [same])
        · exact .inr before

/-- Joining the groups sets the memberships exactly when nothing has to be removed. -/
theorem Joined.sets_iff (joined : Joined username listed seen es fs) (flag : ℤ) :
    List.Forall₂ (Sets flag username listed) es fs ↔
      (flag = 1 ∨ NoneToRemove username listed es) ∧ RepeatedJoined username listed seen es := by
  induction es generalizing seen fs with
  | nil =>
    cases fs with
    | nil => simp [NoneToRemove, RepeatedJoined]
    | cons f fs => exact joined.elim
  | cons e es ih =>
    cases fs with
    | nil => exact joined.elim
    | cons f fs =>
      obtain ⟨keeps, here, later⟩ := joined
      rw [forall₂_cons, ih later, repeatedJoined_cons, Sets, here, NoneToRemove,
        NoneToRemove]
      by_cases isListed : e.groupname ∈ listed <;> by_cases before : e.groupname ∈ seen <;>
        by_cases member : username ∈ e.members <;> by_cases one : flag = 1 <;>
        simp [isListed, before, member, one, keeps]

end Memberships

/-! ## The result -/

section Result

variable {s : State} {node : ℕ} {username groups : Bytes} {entries : List GroupEntry} {flag : ℤ}

/-- No byte that `getline` reads without having written it looks like the end of a line. -/
structure Unknowns.Silent (u : Unknowns) : Prop where
  left : ∀ j, (u.left j).stack.first ≠ newline
  rounds : ∀ j i, ((u.rounds j).left i).stack.first ≠ newline

/-- `changegroups`, when the first loop ends. -/
theorem changegroups_spec {u : Unknowns} (isMember : IsMember username) (nul : 0 ∉ groups)
    (stored : Stored s .group node (entries.map GroupEntry.line)) (two : 2 ≤ s.task.free)
    (silent : u.Silent) (room : HasRoom username (split comma groups) entries)
    (ends : flag = 1 ∨ entries ≠ []) (k : ℕ) :
    Ends (changegroups u (k + 1) username groups flag) (fun r t => r = 0 ∧ Leaves node s t ∧
      Stored t .group node
        ((enrollAll isMember (split comma groups) entries).map GroupEntry.line)) s := by
  obtain ⟨fd, free⟩ := Option.ne_none_iff_exists'.mp
    (fdalloc_ne_none_iff.mpr (show 0 < s.task.free by omega))
  have inUse := stored.inUse free two
  have quiet : Quiet u.left (entries.map GroupEntry.line) := by
    refine ⟨silent.left, fun line member => ?_⟩
    obtain ⟨e, inside, rfl⟩ := List.mem_map.mp member
    have short := room.short e inside
    omega
  have removed : Ends (removal u (k + 1) fd username groups flag) (fun _ t =>
      Touches fd node (s.seekTo fd node 0) t ∧
        InUse t fd node .group (entries.map GroupEntry.line)) (s.seekTo fd node 0) := by
    rw [Ends, removal, always_ite]
    constructor
    · intro other
      exact removalLoop_some inUse (ends.resolve_left other) quiet _ _ _ _ _ _
    · intro _
      obtain ⟨off, opens⟩ := inUse.opens
      exact ⟨trivial, opens.touches, inUse⟩
  rw [Ends, changegroups, sysOpen, always_perform_bind, open_account stored.named free]
  refine ⟨trivial, ?_⟩
  rw [if_neg (by omega), always_bind]
  apply removed.mono (fun _ => id)
  rintro grp t - ⟨touched, inUse'⟩
  have enough : (split comma groups).length < groups.length + 1 :=
    Nat.lt_succ_of_le (length_split_le groups)
  rw [always_bind]
  apply (joinLoop_spec isMember nul silent.rounds (by rw [drop_zero]) inUse' room enough 0
    grp).mono (fun _ => id)
  rintro - v - ⟨touched', inUse''⟩
  have all := (seekTo_touches s fd node 0).trans (touched.trans touched')
  rw [close, always_perform_bind, all.close (fdalloc_free free)]
  exact ⟨trivial, trivial, rfl, all.leaves, stored.changed all.leaves inUse''.content inUse''.size
    inUse''.ended⟩

/-- On an empty file and with another flag than 1 `changegroups` never ends. -/
theorem not_ends_changegroups {u : Unknowns} (stored : Stored s .group node [])
    (two : 2 ≤ s.task.free) (silent : u.Silent) (other : flag ≠ 1) (k : ℕ)
    (Q : ℤ → State → Prop) : ¬Ends (changegroups u k username groups flag) Q s := by
  obtain ⟨fd, free⟩ := Option.ne_none_iff_exists'.mp
    (fdalloc_ne_none_iff.mpr (show 0 < s.task.free by omega))
  intro runs
  rw [Ends, changegroups, sysOpen, always_perform_bind, open_account stored.named free] at runs
  have body := runs.2
  rw [if_neg (by omega), removal, if_pos other, always_bind] at body
  exact not_ends_removalLoop (stored.inUse free two) silent.left _ _ _ _ k 0 none _ body

/-- A call that ends has a round for the first loop, if there is such a loop. -/
theorem ends_succ {u : Unknowns} {k : ℕ} {Q : ℤ → State → Prop} {lines : List Bytes}
    (stored : Stored s .group node lines) (two : 2 ≤ s.task.free)
    (runs : Ends (changegroups u k username groups flag) Q s) :
    ∃ k, Ends (changegroups u (k + 1) username groups flag) Q s := by
  cases k with
  | succ k => exact ⟨k, runs⟩
  | zero =>
    refine ⟨0, ?_⟩
    by_cases one : flag = 1
    · rw [changegroups] at runs ⊢
      simpa only [removal, one, ne_eq, not_true_eq_false, if_false] using runs
    · obtain ⟨fd, free⟩ := Option.ne_none_iff_exists'.mp
        (fdalloc_ne_none_iff.mpr (show 0 < s.task.free by omega))
      rw [Ends, changegroups, sysOpen, always_perform_bind, open_account stored.named free] at runs
      have body := runs.2
      rw [removal, if_pos one] at body
      exact body.elim

/-- What a file of groups shows after `changegroups`. -/
def SetsMemberships (flag : ℤ) (username : Bytes) (listed : List Bytes) (entries : List GroupEntry)
    (bytes : Bytes) : Prop :=
  ∃ entries', bytes = join newline (entries'.map GroupEntry.line) ∧
    List.Forall₂ (Sets flag username listed) entries entries'

/-- The file determines the groups. -/
theorem lines_injective {es fs : List GroupEntry}
    (same : join newline (es.map GroupEntry.line) = join newline (fs.map GroupEntry.line)) :
    es = fs := by
  have ended : ∀ es : List GroupEntry, ∀ last ∈ (es.map GroupEntry.line).getLast?, last ≠ [] := by
    intro es last isLast
    obtain ⟨e, -, rfl⟩ := List.mem_map.mp (mem_of_mem_getLast? isLast)
    exact e.line_ne_nil
  have lines := congrArg (split newline) same
  rw [split_lines (lines_free es) (ended es), split_lines (lines_free fs) (ended fs)] at lines
  exact List.map_injective_iff.mpr GroupEntry.line_injective lines

/-- When the first loop ends, the memberships are set exactly when nothing has to be removed. -/
theorem sets_iff_of_ends {u : Unknowns} (isMember : IsMember username) (nul : 0 ∉ groups)
    (stored : Stored s .group node (entries.map GroupEntry.line)) (two : 2 ≤ s.task.free)
    (silent : u.Silent) (room : HasRoom username (split comma groups) entries)
    (ends : flag = 1 ∨ entries ≠ []) :
    (∃ k, Ends (changegroups u k username groups flag) (fun _ t =>
        SetsMemberships flag username (split comma groups) entries (t.disk.node node)) s) ↔
      (flag = 1 ∨ NoneToRemove username (split comma groups) entries) ∧
        RepeatedJoined username (split comma groups) [] entries := by
  have spec := changegroups_spec isMember nul stored two silent room ends
  rw [← (joined_enrollAll isMember (split comma groups) entries).sets_iff flag]
  constructor
  · rintro ⟨k, runs⟩
    obtain ⟨k, runs⟩ := ends_succ stored two runs
    obtain ⟨_, t, ran, -, -, stored'⟩ := always_true_iff.mp (spec k)
    obtain ⟨_, t', ran', entries', content, all⟩ := always_true_iff.mp runs
    obtain ⟨-, rfl⟩ := Prod.mk.inj (Option.some.inj (ran.symm.trans ran'))
    rwa [lines_injective (stored'.content.symm.trans content)]
  · intro all
    refine ⟨1, (spec 0).mono (fun _ => id) ?_⟩
    rintro _ t - ⟨-, -, stored'⟩
    exact ⟨_, stored'.content, all⟩

end Result

/-! ## A file with one group -/

/-- The group `g:5:a`. -/
def oneGroup : GroupEntry where
  groupname := [103]
  gid := 5
  members := [[97]]
  plain := by decide
  isInt := by decide
  nonneg := by decide
  named := by decide

/-- The file has this line only. -/
def oneGroupState : State where
  disk := ⟨fun _ => oneGroup.line, Function.update (fun _ => none) (.account .group) (some 0), 1,
    fun _ => false⟩
  task := ⟨fun _ => none, 0⟩

/-- A stack without newlines. -/
def quietUnknowns : Unknowns :=
  ⟨fun _ => ⟨⟨0, 0⟩, []⟩, fun _ => 0, [], fun _ => ⟨fun _ => ⟨⟨0, 0⟩, []⟩, fun _ => 0, fun _ => 0⟩⟩

theorem quietUnknowns_silent : quietUnknowns.Silent :=
  ⟨fun _ => (by decide : (0 : UInt8) ≠ newline), fun _ _ => (by decide : (0 : UInt8) ≠ newline)⟩

theorem oneGroup_stored : Stored oneGroupState .group 0 ([oneGroup].map GroupEntry.line) where
  named := by simp [oneGroupState]
  used := Nat.zero_lt_one
  content := by simp [oneGroupState]
  size := by decide
  ended := by
    intro last isLast
    cases isLast
    exact oneGroup.line_ne_nil
  absent := by simp [oneGroupState]

theorem oneGroup_free : 2 ≤ oneGroupState.task.free := by decide

end Xv6Uac.Accounts
