import Xv6Uac.User.Records
import Xv6Uac.User.Strings
import Xv6Uac.Lib.Separated

/-!
# The members of a group

The field `users` of a `struct group` is a pointer: 0 for a group without members, and else the names
of the members with commas between them. `addusertogroup` and `removeuserfromgroup` look a name up
with `findstrinsetdivsep`, which returns the index where it stands.

The index of the first member is 0, and `addusertogroup` takes it for a name that it has not found. So
the first member is added once more (`add_member_iff`). `removeuserfromgroup` leaves out one byte too
many behind the name: from the middle of the list the comma goes too, and two names become one, and
at the end of the list the string is not terminated (`remove_member_iff`).

A block that `malloc` returns has unknown bytes in it, which are `junk` here, and the string at address
0 is `null`.
-/

namespace Xv6Uac.Accounts

open Separated List

abbrev comma : UInt8 := 44

abbrev NOTFOUND : ℤ := -1

abbrev EXISTS : ℤ := 1

/-! ## Source functions -/

/-- Where a character stands in a string. -/
def strchr (s : Bytes) (c : UInt8) : Option ℕ := s.findIdx? (· == c)

/-- The bytes that `safestrcpy` writes. -/
def safestrcpy (t : Bytes) (n : ℤ) : Bytes :=
  if n ≤ 0 then [] else (t.take (n - 1).toNat).takeWhile (· != 0) ++ [0]

/-- The length of the piece at the front of a string, with the separator or the NUL after it. -/
def pieceLength (s : Bytes) (sep : UInt8) : ℕ := (strchr s sep).elim (s.length + 1) (· + 1)

/-- The loop of `findstrinsetdivsep`. -/
def findLoop (str set : Bytes) (sep : UInt8) : ℕ → ℕ → ℤ
  | 0, _ => NOTFOUND
  | k + 1, i =>
    if i < set.length then
      let n := pieceLength (set.drop i) sep
      if (set.drop i).take (n - 1) = str then i else findLoop str set sep k (i + n)
    else NOTFOUND

/-- Every round moves on by at least one byte. -/
def findstrinsetdivsep (str set : Bytes) (sep : UInt8) : ℤ := findLoop str set sep (set.length + 1) 0

/-- The result and the new value of `users`. -/
def addusertogroup (junk : ℕ → UInt8) (username : Bytes) (users : Option Bytes) : ℤ × Option Bytes :=
  let userlength := username.length + 1
  match users with
  | none => (0, some (ByteFile.write (malloc junk userlength) 0 (safestrcpy username userlength)))
  | some mem =>
    let code := findstrinsetdivsep username (cstring mem) comma
    if code > 0 then (EXISTS, users)
    else if code < 0 ∧ code ≠ NOTFOUND then (code, users)
    else
      let n := (cstring mem).length
      let newUsers := malloc junk (n + userlength + 1)
      let newUsers := ByteFile.write newUsers 0 (strncpy (cstring mem) n)
      let newUsers := ByteFile.write newUsers n [comma]
      (0, some (ByteFile.write newUsers (n + 1) (safestrcpy username userlength)))

/-- The part of `removeuserfromgroup` that copies what stays, with `code` and `n` as they are then. -/
def copyOthers (junk : ℕ → UInt8) (text : Bytes) (code n : ℕ) : Bytes :=
  let newUsers := malloc junk (text.length - n + 1)
  let newUsers := ByteFile.write newUsers 0 (strncpy text code)
  let stop := code + n + 1
  ByteFile.write newUsers code (safestrcpy (text.drop stop) (text.length - stop + 1))

/-- The result and the new value of `users`. -/
def removeuserfromgroup (junk : ℕ → UInt8) (null username : Bytes) (users : Option Bytes) :
    ℤ × Option Bytes :=
  let text := cstring (users.getD null)
  let code := findstrinsetdivsep username text comma
  if code < 0 then (code, users)
  else
    let code := code.toNat
    let found := strchr (text.drop code) comma
    let n := found.getD (text.length - code)
    if found = none ∧ n ≥ text.length then (0, none)
    else if code > 0 then (0, some (copyOthers junk text (code - 1) (n + 1)))
    else (0, some (copyOthers junk text code n))

/-! ## Lists of names -/

/-- Names as they can stand in a list. -/
structure Names (names : List Bytes) : Prop where
  distinct : names.Nodup
  nonempty : ∀ name ∈ names, name ≠ []
  apart : ∀ name ∈ names, comma ∉ name
  nul : ∀ name ∈ names, 0 ∉ name

/-- What `users` is for a list of members. -/
def Lists : Option Bytes → List Bytes → Prop
  | none, names => names = []
  | some mem, names => names ≠ [] ∧ Terminated mem (join comma names)

section Strings

variable {s : Bytes} {names : List Bytes}

theorem strncpy_take (nul : 0 ∉ s) {n : ℕ} (le : n ≤ s.length) : strncpy s n = s.take n := by
  have all : (s.take n).takeWhile (· != 0) = s.take n :=
    List.takeWhile_eq_self_iff.mpr fun b inside => by
      rw [bne_iff_ne]
      rintro rfl
      exact nul (mem_of_mem_take inside)
  simp [strncpy, all, le]

theorem safestrcpy_eq (nul : 0 ∉ s) {n : ℤ} (length : n = s.length + 1) :
    safestrcpy s n = s ++ [0] := by
  have all : s.takeWhile (· != 0) = s := List.takeWhile_eq_self_iff.mpr fun b inside => by
    rw [bne_iff_ne]
    rintro rfl
    exact nul inside
  rw [safestrcpy, length]
  simp [all]

theorem join_nul (nul : ∀ name ∈ names, 0 ∉ name) : 0 ∉ join comma names := by
  induction names with
  | nil => exact not_mem_nil
  | cons a rest ih =>
    have later := ih fun name member => nul name (mem_cons_of_mem a member)
    have here := nul a mem_cons_self
    cases rest with
    | nil => simpa using here
    | cons b rest =>
      rw [join_cons_cons, mem_append, mem_cons]
      rintro (inside | same | inside)
      · exact here inside
      · exact absurd same (by decide)
      · exact later inside

end Strings

/-! ## Finding a name -/

section Finding

variable {str set : Bytes} {sep : UInt8} {a : Bytes} {parts pre post : List Bytes} {i k : ℕ}

theorem strchr_join_singleton (free : sep ∉ a) : strchr (join sep [a]) sep = none := by
  rw [join_singleton, strchr, List.findIdx?_eq_none_iff]
  intro b inside
  rw [beq_eq_false_iff_ne]
  rintro rfl
  exact free inside

theorem strchr_join_cons_cons (free : sep ∉ a) (b : Bytes) (post : List Bytes) :
    strchr (join sep (a :: b :: post)) sep = some a.length := by
  rw [strchr]
  have none : a.findIdx? (· == sep) = none := by
    simpa [strchr] using strchr_join_singleton free
  simp [none, List.findIdx?_cons]

/-- The piece at the front is the first part. -/
theorem pieceLength_join (free : sep ∉ a) (post : List Bytes) :
    pieceLength (join sep (a :: post)) sep = a.length + 1 := by
  cases post with
  | nil => rw [pieceLength, strchr_join_singleton free, join_singleton]; rfl
  | cons b post => rw [pieceLength, strchr_join_cons_cons free]; rfl

theorem take_join (a : Bytes) (post : List Bytes) : (join sep (a :: post)).take a.length = a := by
  cases post with
  | nil => simp
  | cons b post => simp

/-- A round of the loop. -/
theorem findLoop_join (free : sep ∉ a) (nonempty : a ≠ []) (rest : set.drop i = join sep (a :: post)) :
    findLoop str set sep (k + 1) i =
      if a = str then (i : ℤ) else findLoop str set sep k (i + (a.length + 1)) := by
  have inside : i < set.length := by
    by_contra outside
    rw [drop_eq_nil_of_le (not_lt.mp outside)] at rest
    have shape := @take_join sep a post
    rw [← rest] at shape
    exact nonempty (by simpa using shape.symm)
  rw [findLoop, if_pos inside]
  simp only [rest, pieceLength_join free, Nat.add_sub_cancel, take_join]

theorem findLoop_end (short : set.length ≤ i) : findLoop str set sep k i = NOTFOUND := by
  cases k with
  | zero => rfl
  | succ k => rw [findLoop, if_neg (by omega)]

/-- The parts before a part, and how the string goes on after it. -/
theorem drop_next (rest : set.drop i = join sep (a :: post)) :
    set.drop (i + (a.length + 1)) = join sep post := by
  rw [← drop_drop, rest, drop_join]

/-- A string that is none of the parts. The empty string is not found at the end of the list. -/
theorem findLoop_absent (free : ∀ a ∈ parts, sep ∉ a) (nonempty : ∀ a ∈ parts.dropLast, a ≠ [])
    (rest : set.drop i = join sep parts) (absent : ∀ a ∈ parts, a ≠ [] → a ≠ str) :
    findLoop str set sep k i = NOTFOUND := by
  induction parts generalizing i k with
  | nil =>
    have short : set.length ≤ i := by simpa using rest
    exact findLoop_end short
  | cons a parts ih =>
    cases k with
    | zero => rfl
    | succ k =>
      by_cases empty : a = []
      · -- an empty part is the last one
        cases parts with
        | nil =>
          have short : set.length ≤ i := by simpa [empty] using rest
          exact findLoop_end short
        | cons b parts => exact absurd empty (nonempty a mem_cons_self)
      · rw [findLoop_join (free a mem_cons_self) empty rest,
          if_neg (absent a mem_cons_self empty)]
        refine ih (fun b member => free b (mem_cons_of_mem a member)) (fun b member => ?_)
          (drop_next rest) fun b member => absent b (mem_cons_of_mem a member)
        cases parts with
        | nil => exact absurd member not_mem_nil
        | cons c parts => exact nonempty b (mem_cons_of_mem a member)

theorem findLoop_present (free : ∀ a ∈ pre ++ str :: post, sep ∉ a)
    (nonempty : ∀ a ∈ pre ++ str :: post, a ≠ []) (rest : set.drop i = join sep (pre ++ str :: post))
    (absent : str ∉ pre) (enough : pre.length < k) :
    findLoop str set sep k i = i + (closed sep pre).length := by
  induction pre generalizing i k with
  | nil =>
    obtain ⟨k, rfl⟩ := Nat.exists_eq_succ_of_ne_zero (Nat.ne_of_gt enough)
    rw [findLoop_join (free str (by simp)) (nonempty str (by simp)) rest]
    simp
  | cons a pre ih =>
    obtain ⟨k, rfl⟩ := Nat.exists_eq_succ_of_ne_zero (Nat.ne_of_gt (Nat.zero_lt_of_lt enough))
    have other : a ≠ str := fun same => absent (by rw [same]; exact mem_cons_self)
    have fewer : pre.length < k := by
      rw [length_cons] at enough
      omega
    rw [findLoop_join (free a (by simp)) (nonempty a (by simp)) rest, if_neg other,
      ih (fun b member => free b (mem_cons_of_mem a member))
        (fun b member => nonempty b (mem_cons_of_mem a member)) (drop_next rest)
        (fun member => absent (mem_cons_of_mem a member)) fewer]
    simp
    omega

end Finding

section Names

variable {names pre post : List Bytes} {name : Bytes}

/-- A name that is not in the list is not found. -/
theorem find_absent (apart : ∀ a ∈ names, comma ∉ a) (nonempty : ∀ a ∈ names, a ≠ [])
    (absent : name ∉ names) : findstrinsetdivsep name (join comma names) comma = NOTFOUND :=
  findLoop_absent apart (fun a member => nonempty a (mem_of_mem_dropLast member))
    (drop_zero ..) fun _ member _ same => absent (same ▸ member)

theorem Names.find_absent (good : Names names) (absent : name ∉ names) :
    findstrinsetdivsep name (join comma names) comma = NOTFOUND :=
  Accounts.find_absent good.apart good.nonempty absent

/-- A name is found behind the names before it. -/
theorem find_present (apart : ∀ a ∈ pre ++ name :: post, comma ∉ a)
    (nonempty : ∀ a ∈ pre ++ name :: post, a ≠ []) (absent : name ∉ pre) :
    findstrinsetdivsep name (join comma (pre ++ name :: post)) comma = (closed comma pre).length := by
  have enough : pre.length < (join comma (pre ++ name :: post)).length + 1 := by
    have least := @length_le_closed _ comma pre
    rw [join_append_cons, length_append]
    omega
  rw [findstrinsetdivsep, findLoop_present apart nonempty (drop_zero ..) absent enough]
  simp

theorem Names.find_present (pre : List Bytes) (good : Names (pre ++ name :: post)) :
    findstrinsetdivsep name (join comma (pre ++ name :: post)) comma = (closed comma pre).length :=
  Accounts.find_present good.apart good.nonempty fun inside =>
    (List.nodup_append.mp good.distinct).2.2 name inside name mem_cons_self rfl

theorem Names.middle (good : Names (pre ++ name :: post)) : Names (pre ++ post) := by
  have fewer : (pre ++ post).Sublist (pre ++ name :: post) :=
    (sublist_cons_self name post).append_left pre
  exact ⟨good.distinct.sublist fewer, fun a member => good.nonempty a (fewer.subset member),
    fun a member => good.apart a (fewer.subset member),
    fun a member => good.nul a (fewer.subset member)⟩

end Names

/-! ## Adding a member -/

section Adding

variable {junk : ℕ → UInt8} {names : List Bytes} {name mem : Bytes}

/-- A name that is not found is added at the end, and so is the first one. -/
theorem addusertogroup_appends (nul : 0 ∉ name) (terminated : Terminated mem (join comma names))
    (nulNames : 0 ∉ join comma names)
    (code : findstrinsetdivsep name (join comma names) comma = NOTFOUND ∨
      findstrinsetdivsep name (join comma names) comma = 0) :
    addusertogroup junk name (some mem) =
      (0, some ((join comma names ++ [comma]) ++ (name ++ [0]))) := by
  have notLater : ¬findstrinsetdivsep name (join comma names) comma > 0 := by
    rcases code with code | code <;> rw [code] <;> decide
  have known : ¬(findstrinsetdivsep name (join comma names) comma < 0 ∧
      findstrinsetdivsep name (join comma names) comma ≠ NOTFOUND) := by
    rcases code with code | code <;> rw [code] <;> decide
  simp only [addusertogroup, terminated.cstring_eq nulNames]
  rw [if_neg notLater, if_neg known, strncpy_take nulNames le_rfl, take_length,
    safestrcpy_eq nul (by simp), ByteFile.write_zero_write]
  have length : (join comma names).length + 1 = (join comma names ++ [comma]).length := by simp
  rw [length, ByteFile.write_zero_write, ByteFile.write_zero,
    drop_eq_nil_of_le (by
      simp only [length_malloc, length_append, length_cons]; omega),
    append_nil]

theorem addusertogroup_none (nul : 0 ∉ name) :
    addusertogroup junk name none = (0, some (name ++ [0])) := by
  simp only [addusertogroup]
  rw [safestrcpy_eq nul (by simp), ByteFile.write_zero,
    drop_eq_nil_of_le (by simp [length_malloc]), append_nil]

/-- A name behind the first one is not added. -/
theorem addusertogroup_exists {first : Bytes} {rest : List Bytes}
    (apart : ∀ a ∈ first :: rest, comma ∉ a) (nonempty : ∀ a ∈ first :: rest, a ≠ [])
    (nul : ∀ a ∈ first :: rest, 0 ∉ a) (terminated : Terminated mem (join comma (first :: rest)))
    (other : name ≠ first) (member : name ∈ rest) :
    addusertogroup junk name (some mem) = (EXISTS, some mem) := by
  obtain ⟨pre, post, rfl, absent⟩ := eq_append_cons_of_mem member
  have found : findstrinsetdivsep name (join comma (first :: (pre ++ name :: post))) comma =
      (closed comma (first :: pre)).length :=
    @find_present (first :: pre) post name apart nonempty (by simp [other, absent])
  have later : findstrinsetdivsep name (join comma (first :: (pre ++ name :: post))) comma > 0 := by
    rw [found, closed_cons, length_append, length_cons]
    omega
  simp only [addusertogroup, terminated.cstring_eq (join_nul nul)]
  rw [if_pos later]

end Adding

/-- The list that is wanted after `addusertogroup`. -/
def withMember (names : List Bytes) (name : Bytes) : List Bytes :=
  if name ∈ names then names else names ++ [name]

/-- `addusertogroup` adds the name if it is not in the list, and a second call changes nothing. -/
def AddsMember (junk junk' : ℕ → UInt8) (names : List Bytes) (name : Bytes) (users : Option Bytes) :
    Prop :=
  Lists (addusertogroup junk name users).2 (withMember names name) ∧
    (addusertogroup junk' name (addusertogroup junk name users).2).2 =
      (addusertogroup junk name users).2

section AddMember

variable {junk junk' : ℕ → UInt8} {names rest : List Bytes} {name first mem : Bytes}

theorem join_append_singleton (nonnil : names ≠ []) :
    join comma (names ++ [name]) = join comma names ++ comma :: name := by
  rw [join_concat, closed_eq nonnil, append_assoc]
  rfl

/-- The string is longer after a name was added. -/
theorem terminated_appended (s name : Bytes) :
    Terminated ((s ++ [comma]) ++ (name ++ [0])) (s ++ comma :: name) := ⟨[], by simp⟩

theorem nul_appended {s : Bytes} (nulS : 0 ∉ s) (nul : 0 ∉ name) : 0 ∉ s ++ comma :: name := by
  rw [mem_append, mem_cons]
  rintro (inside | same | inside)
  · exact nulS inside
  · exact absurd same (by decide)
  · exact nul inside

/-- The first member is added once more. -/
theorem not_addsMember_head (good : Names (name :: rest))
    (terminated : Terminated mem (join comma (name :: rest))) :
    ¬AddsMember junk junk' (name :: rest) name (some mem) := by
  intro adds
  have nul := join_nul good.nul
  have found : findstrinsetdivsep name (join comma (name :: rest)) comma = 0 := Names.find_present [] good
  have lists := adds.1
  rw [addusertogroup_appends (good.nul name mem_cons_self) terminated nul (.inr found),
    withMember, if_pos mem_cons_self] at lists
  have equal := (terminated_appended _ name).unique lists.2
    (nul_appended nul (good.nul name mem_cons_self)) nul
  simpa using congrArg List.length equal

/-- The only member of a group is its first one, and the second call adds it once more. -/
theorem not_addsMember_nil (nul : 0 ∉ name) (apart : comma ∉ name) :
    ¬AddsMember junk junk' [] name none := by
  intro adds
  have terminated : Terminated (name ++ [0]) (join comma [name]) := ⟨[], by simp⟩
  have nulName : 0 ∉ join comma [name] := by simpa using nul
  have code : findstrinsetdivsep name (join comma [name]) comma = NOTFOUND ∨
      findstrinsetdivsep name (join comma [name]) comma = 0 := by
    by_cases empty : name = []
    · left
      rw [empty]
      rfl
    · right
      have good : Names [name] :=
        ⟨nodup_singleton name, by simpa using empty, by simpa using apart, by simpa using nul⟩
      exact Names.find_present [] good
  have same := adds.2
  rw [addusertogroup_none nul, addusertogroup_appends nul terminated nulName code] at same
  simpa using congrArg List.length (Option.some.inj same)

/-- The empty name is never found. -/
theorem not_addsMember_empty (good : Names names) (nonnil : names ≠ [])
    (terminated : Terminated mem (join comma names)) :
    ¬AddsMember junk junk' names [] (some mem) := by
  intro adds
  have nul := join_nul good.nul
  have absent : [] ∉ names := fun member => good.nonempty [] member rfl
  have terminated' : Terminated ((join comma names ++ [comma]) ++ ([] ++ [0]))
      (join comma (names ++ [[]])) := by
    rw [join_append_singleton nonnil]
    exact terminated_appended _ []
  have nul' : 0 ∉ join comma (names ++ [[]]) := by
    rw [join_append_singleton nonnil]
    exact nul_appended nul not_mem_nil
  have absent' : findstrinsetdivsep [] (join comma (names ++ [[]])) comma = NOTFOUND := by
    refine findLoop_absent (fun a member => ?_) (fun a member => ?_)
      (drop_zero ..) fun a _ nonempty => nonempty
    · rcases List.mem_append.mp member with member | member
      · exact good.apart a member
      · rw [List.mem_singleton.mp member]
        exact not_mem_nil
    · rw [dropLast_concat] at member
      exact good.nonempty a member
  have same := adds.2
  rw [addusertogroup_appends not_mem_nil terminated nul (.inl (good.find_absent absent)),
    addusertogroup_appends not_mem_nil terminated' nul' (.inl absent')] at same
  have longer := congrArg List.length (Option.some.inj same)
  rw [join_append_singleton nonnil] at longer
  simp at longer

/-- A name that is not the first one is added at most once. -/
theorem addsMember_of_ne (good : Names (first :: rest))
    (terminated : Terminated mem (join comma (first :: rest))) (nul : 0 ∉ name)
    (apart : comma ∉ name) (nonempty : name ≠ []) (other : name ≠ first) :
    AddsMember junk junk' (first :: rest) name (some mem) := by
  by_cases member : name ∈ rest
  · have here : ∀ junk, addusertogroup junk name (some mem) = (EXISTS, some mem) := fun junk =>
      addusertogroup_exists good.apart good.nonempty good.nul terminated other member
    constructor
    · rw [here, withMember, if_pos (mem_cons_of_mem first member)]
      exact ⟨cons_ne_nil _ _, terminated⟩
    · rw [here, here]
  · have absent : name ∉ first :: rest := by simp [other, member]
    have more : Names (first :: (rest ++ [name])) := by
      refine ⟨?_, ?_, ?_, ?_⟩
      · have nodup : ((first :: rest) ++ [name]).Nodup :=
          List.nodup_append.mpr ⟨good.distinct, nodup_singleton name, by
            intro a memberA b memberB
            rw [List.mem_singleton.mp memberB]
            rintro rfl
            exact absent memberA⟩
        exact nodup
      all_goals
        intro a inside
        rcases List.mem_append.mp (show a ∈ (first :: rest) ++ [name] from inside) with old | new
      · exact good.nonempty a old
      · rwa [List.mem_singleton.mp new]
      · exact good.apart a old
      · rwa [List.mem_singleton.mp new]
      · exact good.nul a old
      · rwa [List.mem_singleton.mp new]
    have longer : Terminated ((join comma (first :: rest) ++ [comma]) ++ (name ++ [0]))
        (join comma (first :: (rest ++ [name]))) := by
      rw [← cons_append, join_append_singleton (cons_ne_nil _ _)]
      exact terminated_appended _ name
    rw [AddsMember, addusertogroup_appends nul terminated (join_nul good.nul)
        (.inl (good.find_absent absent)),
      addusertogroup_exists more.apart more.nonempty more.nul longer other (by simp), withMember,
      if_neg absent]
    exact ⟨⟨by simp, longer⟩, rfl⟩

end AddMember

/-- **A member is added once if and only if the list has another member in front.** -/
theorem add_member_iff (junk junk' : ℕ → UInt8) (names : List Bytes) (good : Names names) (name : Bytes)
    (nul : 0 ∉ name) (apart : comma ∉ name) (users : Option Bytes) (lists : Lists users names) :
    AddsMember junk junk' names name users ↔
      name ≠ [] ∧ ∃ first, names.head? = some first ∧ name ≠ first := by
  constructor
  · intro adds
    cases users with
    | none =>
      obtain rfl : names = [] := lists
      exact absurd adds (not_addsMember_nil nul apart)
    | some mem =>
      obtain ⟨nonnil, terminated⟩ := lists
      constructor
      · rintro rfl
        exact not_addsMember_empty good nonnil terminated adds
      · cases names with
        | nil => exact absurd rfl nonnil
        | cons first rest =>
          refine ⟨first, rfl, ?_⟩
          rintro rfl
          exact not_addsMember_head good terminated adds
  · rintro ⟨nonempty, first, head, other⟩
    cases names with
    | nil => simp at head
    | cons first' rest =>
      obtain rfl : first' = first := by simpa using head
      cases users with
      | none => exact absurd lists (cons_ne_nil _ _)
      | some mem => exact addsMember_of_ne good lists.2 nul apart nonempty other

/-- The second of two members is not added again. -/
theorem add_member_of_second : AddsMember (fun _ => 7) (fun _ => 7) [[97], [98]] [98] (some [97, 44, 98, 0]) :=
  (add_member_iff (fun _ => 7) (fun _ => 7) [[97], [98]] ⟨by decide, by decide, by decide, by decide⟩ [98]
    (by decide) (by decide) (some [97, 44, 98, 0]) ⟨by decide, [], rfl⟩).mpr
    ⟨by decide, [97], rfl, by decide⟩

/-- The only member is added again. -/
theorem first_member_added_twice :
    addusertogroup (fun _ => 7) [97] (some [97, 0]) = (0, some [97, 44, 97, 0]) := by
  decide

/-! ## Removing a member -/

section Copying

variable {junk : ℕ → UInt8} {text : Bytes} {code n : ℕ}

/-- Two pieces of the string are put together. -/
theorem copyOthers_terminated (nul : 0 ∉ text) (inside : code + n + 1 ≤ text.length) :
    Terminated (copyOthers junk text code n) (text.take code ++ text.drop (code + n + 1)) := by
  have nulRest : 0 ∉ text.drop (code + n + 1) := fun member => nul (mem_of_mem_drop member)
  have length : (text.take code).length = code := by
    rw [length_take]
    omega
  have copied := ByteFile.write_zero_write (malloc junk (text.length - n + 1)) (text.take code)
    (text.drop (code + n + 1) ++ [0])
  rw [length] at copied
  simp only [copyOthers]
  rw [strncpy_take nul (by omega), safestrcpy_eq nulRest (by rw [length_drop]; omega), copied,
    ByteFile.write_zero]
  exact ⟨_, by rw [append_assoc, append_assoc, append_assoc]; rfl⟩

/-- At the end of the string nothing is written after the first piece. -/
theorem copyOthers_last (nul : 0 ∉ text) (last : code + n = text.length) :
    copyOthers junk text code n = text.take code ++ [junk code] := by
  have size : text.length - n + 1 = code + 1 := by omega
  have length : (text.take code).length = code := by
    rw [length_take]
    omega
  have none : safestrcpy (text.drop (code + n + 1)) ((text.length : ℤ) - (code + n + 1 : ℕ) + 1) = [] := by
    rw [safestrcpy, if_pos (by omega)]
  simp only [copyOthers]
  rw [none, ByteFile.write_nil, strncpy_take nul (by omega), ByteFile.write_zero, length, size, malloc,
    range_succ]
  simp

end Copying

/-- `removeuserfromgroup` removes a member and nothing else, and changes nothing for other names. -/
def RemovesMember (users : Option Bytes) (names : List Bytes) (name : Bytes)
    (out : ℤ × Option Bytes) : Prop :=
  (name ∈ names → Lists out.2 (names.erase name)) ∧ (name ∉ names → out.1 < 0 ∧ out.2 = users)

section Removing

variable {junk : ℕ → UInt8} {null mem name : Bytes} {pre post names : List Bytes}

/-- The string after the names before a name. -/
theorem drop_closed (pre : List Bytes) (name : Bytes) (post : List Bytes) :
    (join comma (pre ++ name :: post)).drop (closed comma pre).length = join comma (name :: post) := by
  rw [join_append_cons, drop_left]

theorem take_closed (nonnil : pre ≠ []) (name : Bytes) (post : List Bytes) :
    (join comma (pre ++ name :: post)).take ((closed comma pre).length - 1) = join comma pre := by
  rw [join_append_cons, closed_eq nonnil, length_append, length_singleton, Nat.add_sub_cancel,
    append_assoc, take_left]

/-- What the function does with a name that it finds. -/
theorem removeuserfromgroup_found (good : Names (pre ++ name :: post))
    (terminated : Terminated mem (join comma (pre ++ name :: post))) :
    removeuserfromgroup junk null name (some mem) =
      if pre = [] ∧ post = [] then (0, none)
      else if pre ≠ [] then (0, some (copyOthers junk (join comma (pre ++ name :: post))
        ((closed comma pre).length - 1) (name.length + 1)))
      else (0, some (copyOthers junk (join comma (pre ++ name :: post)) 0 name.length)) := by
  have apart : comma ∉ name := good.apart name (by simp)
  simp only [removeuserfromgroup, Option.getD_some, terminated.cstring_eq (join_nul good.nul),
    good.find_present pre, Int.toNat_natCast, drop_closed]
  rw [if_neg (by omega)]
  have positive : 0 < (closed comma pre).length ↔ pre ≠ [] := by
    cases pre with
    | nil => simp
    | cons a pre => simp
  cases post with
  | nil =>
    have length : (join comma (pre ++ [name])).length = (closed comma pre).length + name.length := by
      rw [join_concat, length_append]
    rw [strchr_join_singleton apart, Option.getD_none, length, Nat.add_sub_cancel_left]
    by_cases only : pre = []
    · simp [only]
    · have more := positive.mpr only
      rw [if_neg (by omega), if_pos more, if_neg (by simp [only]), if_pos only]
  | cons b post =>
    rw [strchr_join_cons_cons apart, Option.getD_some, if_neg (by simp)]
    by_cases first : pre = []
    · simp [first]
    · rw [if_pos (positive.mpr first), if_neg (by simp), if_pos first]

/-- The first member goes. -/
theorem removesMember_head (good : Names (name :: post))
    (terminated : Terminated mem (join comma (name :: post))) :
    RemovesMember (some mem) (name :: post) name (removeuserfromgroup junk null name (some mem)) := by
  refine ⟨fun _ => ?_, fun absent => absurd mem_cons_self absent⟩
  rw [@removeuserfromgroup_found junk null mem name [] post good terminated, erase_cons_head]
  cases post with
  | nil =>
    rfl
  | cons b post =>
    refine ⟨cons_ne_nil _ _, ?_⟩
    have inside : 0 + name.length + 1 ≤ (join comma (name :: b :: post)).length := by
      rw [join_cons_cons, length_append, length_cons]
      omega
    have rest := @copyOthers_terminated junk _ _ _ (join_nul good.nul) inside
    rwa [Nat.zero_add, take_zero, nil_append, drop_join] at rest

theorem Names.erase_eq (good : Names (pre ++ name :: post)) :
    (pre ++ name :: post).erase name = pre ++ post := by
  have absent : name ∉ pre := fun inside =>
    (List.nodup_append.mp good.distinct).2.2 name inside name mem_cons_self rfl
  rw [erase_append_right _ absent, erase_cons_head]

/-- The index of a name that is not the first one. -/
theorem length_closed (nonnil : pre ≠ []) :
    (closed comma pre).length - 1 = (join comma pre).length ∧ 0 < (closed comma pre).length := by
  rw [closed_eq nonnil, length_append, length_singleton]
  omega

/-- The last of several members goes if the byte behind the others happens to be a NUL. -/
theorem removesMember_last_iff (good : Names (pre ++ [name]))
    (terminated : Terminated mem (join comma (pre ++ [name]))) (nonnil : pre ≠ []) :
    RemovesMember (some mem) (pre ++ [name]) name (removeuserfromgroup junk null name (some mem)) ↔
      junk (join comma pre).length = 0 := by
  obtain ⟨index, positive⟩ := length_closed nonnil
  have last : (closed comma pre).length - 1 + (name.length + 1) =
      (join comma (pre ++ [name])).length := by
    rw [join_concat, length_append]
    omega
  have member : name ∈ pre ++ [name] := by simp
  rw [RemovesMember, removeuserfromgroup_found good terminated, if_neg (by simp [nonnil]),
    if_pos nonnil, copyOthers_last (join_nul good.nul) last, take_closed nonnil, index, good.erase_eq,
    append_nil]
  constructor
  · rintro ⟨removed, -⟩
    obtain ⟨-, rest, same⟩ := removed member
    exact (List.cons.inj (append_cancel_left same)).1
  · intro nul
    refine ⟨fun _ => ⟨nonnil, [], by rw [nul]⟩, fun absent => absurd member absent⟩

/-- A member in the middle does not go: its neighbours become one name. -/
theorem not_removesMember_middle {b : Bytes} (good : Names (pre ++ name :: b :: post))
    (terminated : Terminated mem (join comma (pre ++ name :: b :: post))) (nonnil : pre ≠ []) :
    ¬RemovesMember (some mem) (pre ++ name :: b :: post) name
      (removeuserfromgroup junk null name (some mem)) := by
  rintro ⟨removed, -⟩
  obtain ⟨index, positive⟩ := length_closed nonnil
  have stop : (closed comma pre).length - 1 + (name.length + 1) + 1 =
      (closed comma pre).length + (name.length + 1) := by omega
  have inside : (closed comma pre).length - 1 + (name.length + 1) + 1 ≤
      (join comma (pre ++ name :: b :: post)).length := by
    rw [join_append_cons, join_cons_cons, length_append, length_append,
      length_cons]
    omega
  have joined := @copyOthers_terminated junk _ _ _ (join_nul good.nul) inside
  rw [take_closed nonnil, stop, ← drop_drop, drop_closed, drop_join] at joined
  have lists := removed (by simp)
  rw [removeuserfromgroup_found good terminated, if_neg (by simp), if_pos nonnil, good.erase_eq]
    at lists
  have nulJoined : 0 ∉ join comma pre ++ join comma (b :: post) := by
    have nul := good.middle.nul
    rw [mem_append]
    rintro (inside | inside)
    · exact join_nul (fun a member => nul a (mem_append_left _ member)) inside
    · exact join_nul (fun a member => nul a (mem_append_right _ member)) inside
  have same := joined.unique lists.2 nulJoined (join_nul good.middle.nul)
  rw [join_append_cons, closed_eq nonnil] at same
  simpa using congrArg List.length same

end Removing

end Xv6Uac.Accounts
