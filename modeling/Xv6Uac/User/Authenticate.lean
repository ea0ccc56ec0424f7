import Xv6Uac.User.Sessions

/-!
# Authentication

`authuid` of `uauth.c` looks for the first record with a name, compares the password, and goes to
the home directory. It returns what `chdir` returns, and a failure of `chdir` is the code of a
user that does not exist. So the codes tell the cases apart if and only if the home directory of
a user who is let in is there (`authentication_iff`).
-/

namespace Xv6Uac.Accounts

open Programs Separated List

abbrev AUTHFAIL : ℤ := -200

/-- `authuid`: the code, and what is stored in `*uid`. -/
def authuid (left : ℕ → Leftover) (username pwd : Bytes) : P (ℤ × Option ℤ) := do
  let fd ← sysOpen (.account .passwd) false
  if fd < 0 then pure (NOPERMS, none)
  else do
    let (code, usr, _) ← finduserbyname left fd username none 0
    let _ ← close fd
    if code < 0 then pure (code, none)
    else
      match usr with
      | none => .undefined
      | some usr =>
        if usr.password.any fun password => strcmp password pwd ≠ 0 then pure (AUTHFAIL, none)
        else do
          let code ← chdir usr.homedir
          pure (code, some usr.uid)

/-! ## Lines of `/etc/passwd` -/

/-- A well-formed line: six fields that have no delimiter in them. -/
structure PasswdLine where
  username : Bytes
  password : Bytes
  uid : Bytes
  gid : Bytes
  fullname : Bytes
  homedir : Bytes
  plain : ∀ field ∈ [username, password, uid, gid, fullname, homedir], Plain field

namespace PasswdLine

variable (line : PasswdLine)

def text : Bytes :=
  join colon [line.username, line.password, line.uid, line.gid, line.fullname, line.homedir]

/-- The record that the line stands for. -/
def record : User :=
  ⟨line.username, nonempty line.password, atoi line.uid, atoi line.gid, line.fullname,
    line.homedir⟩

/-- There is no password, or it is the one that is given. -/
def Accepts (pwd : Bytes) : Prop := line.password = [] ∨ line.password = pwd

instance (pwd : Bytes) : Decidable (line.Accepts pwd) := inferInstanceAs (Decidable (_ ∨ _))

theorem user_text (stale : Bytes) : user (line.text ++ 0 :: stale) = some line.record := by
  have delimited : ∀ field ∈ [line.username, line.password, line.uid, line.gid, line.fullname,
      line.homedir], Delimited field := fun field member => (line.plain field member).delimited
  simp only [forall_mem_cons] at delimited
  obtain ⟨username, password, uid, gid, fullname, homedir, -⟩ := delimited
  simp only [text, join_cons_cons, join_singleton, append_assoc, cons_append, user]
  rw [segment_bind username (.inl rfl), segment_bind password (.inl rfl),
    segment_bind uid (.inl rfl), segment_bind gid (.inl rfl), segment_bind fullname (.inl rfl),
    segment_bind homedir (.inr rfl)]
  rfl

theorem nul_username : 0 ∉ line.username := fun member =>
  (line.plain _ mem_cons_self 0 member).2.2 rfl

theorem nul_password : 0 ∉ line.password := fun member =>
  (line.plain _ (mem_cons_of_mem _ mem_cons_self) 0 member).2.2 rfl

/-- The comparison of `authuid` refuses the passwords that the line does not accept. -/
theorem refuses_iff {pwd : Bytes} (nul : 0 ∉ pwd) :
    (line.record.password.any fun password => strcmp password pwd ≠ 0) = true ↔
      ¬line.Accepts pwd := by
  rw [Accepts, record, nonempty]
  split
  · simp [*]
  · simp [*, strcmp_eq_zero_iff line.nul_password nul]

end PasswdLine

/-! ## The result -/

section Result

variable {left : ℕ → Leftover} {s : State} {node : ℕ} {rows : List PasswdLine}
  {username pwd : Bytes}

/-- The first line with a name. -/
def firstNamed (rows : List PasswdLine) (username : Bytes) : Option PasswdLine :=
  rows.find? fun row => row.username = username

/-- What `authuid` returns and stores, for the first line with the name. -/
def authResult (s : State) (pwd : Bytes) : Option PasswdLine → ℤ × Option ℤ
  | none => (NOTFOUND, none)
  | some row =>
    if row.Accepts pwd then ((kernel (.chdir row.homedir) s).1, some (atoi row.uid))
    else (AUTHFAIL, none)

/-- The search of `finduserbyname` in the lines of the file. -/
theorem seek_firstNamed (rows : List PasswdLine) (nul : 0 ∉ username) :
    ∃ offset', ∃ usr, seek (fun usr : User => strcmp usr.username username = 0) none 0
        (rows.map fun row => (row.text, row.record)) =
      ((firstNamed rows username).elim NOTFOUND (fun _ => 0), usr, offset') ∧
      ∀ row ∈ firstNamed rows username, usr = some row.record := by
  have compare : ∀ row : PasswdLine,
      decide (strcmp row.record.username username = 0) = decide (row.username = username) :=
    fun row => decide_eq_decide.mpr (strcmp_eq_zero_iff row.nul_username nul)
  rcases seek_cases PasswdLine.text PasswdLine.record
    (fun usr => strcmp usr.username username = 0) rows none with
    ⟨absent, r, o, sought⟩ | ⟨pre, row, post, rfl, before, here, sought⟩
  · have missing : firstNamed rows username = none := by
      refine List.find?_eq_none.mpr fun row member => ?_
      rw [← compare, absent row member]
      decide
    rw [missing]
    exact ⟨o, r, sought, fun _ other => nomatch other⟩
  · have found : firstNamed (pre ++ row :: post) username = some row := by
      refine List.find?_eq_some_iff_append.mpr ⟨?_, pre, post, rfl, fun other member => ?_⟩
      · rw [← compare, here]
      · rw [← compare, before other member]
        rfl
    rw [found]
    refine ⟨_, _, sought, fun other same => ?_⟩
    rw [Option.mem_some.mp same]

/-- `authuid` on a file that it can open. -/
theorem authuid_spec (named : s.disk.name (.account .passwd) = some node)
    (lines : split newline (s.disk.node node) = rows.map PasswdLine.text)
    (small : (s.disk.node node).length ≤ MAXFILE * BSIZE)
    (quiet : Quiet left (rows.map PasswdLine.text)) (nulU : 0 ∉ username) (nulP : 0 ∉ pwd)
    {fd : ℕ} (free : s.task.fdalloc = some fd) :
    Ends (authuid left username pwd) (fun r t =>
      r = authResult s pwd (firstNamed rows username) ∧ t = s) s := by
  have shut : ∀ off, kernel (.close fd) (s.seekTo fd node off) = ((0 : ℤ), s) := fun off =>
    (seekTo_touches s fd node off).close (fdalloc_free free)
  have texts : (rows.map fun row => (row.text, row.record)).map Prod.fst =
      rows.map PasswdLine.text := by simp
  have parsed : Parsed user (rows.map fun row => (row.text, row.record)) := by
    intro e member stale
    obtain ⟨row, -, rfl⟩ := List.mem_map.mp member
    exact row.user_text stale
  have enough : (rows.map fun row => (row.text, row.record)).length < ROUNDS := by
    have most := @length_split_le _ newline _ _ (s.disk.node node)
    rw [lines, length_map] at most
    rw [length_map, ROUNDS]
    omega
  obtain ⟨offset', usr, sought, same⟩ := seek_firstNamed rows nulU
  rw [Ends, authuid, sysOpen, always_perform_bind, open_account named free]
  rw [if_neg (by omega), always_bind]
  refine ⟨trivial, ?_⟩
  apply (findRecord_spec (Int.natCast_nonneg fd) rfl small (texts ▸ quiet) parsed le_rfl (by omega)
    (by rw [texts, ← lines]; rfl) enough 0 none 0).mono (fun _ => id)
  rintro _ _ - ⟨rfl, off, rfl⟩
  rw [sought]
  rw [close, always_perform_bind, shut]
  refine ⟨trivial, ?_⟩
  rcases found : firstNamed rows username with _ | row
  · exact ⟨trivial, rfl, rfl⟩
  · rw [same row found]
    simp only [Option.elim_some, lt_self_iff_false, if_false]
    rw [always_ite, row.refuses_iff nulP, authResult]
    refine ⟨fun refused => ?_, fun accepted => ?_⟩
    · rw [if_neg refused]
      exact ⟨trivial, rfl, rfl⟩
    · rw [if_pos (not_not.mp accepted)]
      exact ⟨trivial, trivial, rfl, rfl⟩

/-- Without a descriptor the file is not opened. -/
theorem authuid_without (named : s.disk.name (.account .passwd) = some node)
    (full : s.task.fdalloc = none) :
    Ends (authuid left username pwd) (fun r t => r = (NOPERMS, none) ∧ t = s) s := by
  have refused : kernel (.open (.account .passwd) false) s = ((-1 : ℤ), s) := by
    simp only [kernel, named, State.open, full]
  rw [Ends, authuid, sysOpen, always_perform_bind, refused]
  exact ⟨trivial, trivial, rfl, rfl⟩

/-- The code and `*uid` tell what the records say. -/
structure Decides (s : State) (rows : List PasswdLine) (username pwd : Bytes)
    (r : ℤ × Option ℤ) : Prop where
  stored : ∀ uid, r.2 = some uid ↔
    ∃ row ∈ firstNamed rows username, row.Accepts pwd ∧ uid = atoi row.uid
  entered : ∀ row ∈ firstNamed rows username, row.Accepts pwd →
    r.1 = (kernel (.chdir row.homedir) s).1
  notFound : r.1 = NOTFOUND ↔ firstNamed rows username = none
  refused : r.1 = AUTHFAIL ↔ ∃ row ∈ firstNamed rows username, ¬row.Accepts pwd

theorem decides_authResult_iff :
    Decides s rows username pwd (authResult s pwd (firstNamed rows username)) ↔
      ∀ row ∈ firstNamed rows username, row.Accepts pwd → s.disk.isDir row.homedir = true := by
  rcases found : firstNamed rows username with _ | row
  · refine ⟨fun _ _ other => absurd other (by simp), fun _ => ?_⟩
    constructor <;> simp [found, authResult]
  · by_cases accepted : row.Accepts pwd
    · by_cases home : s.disk.isDir row.homedir = true
      · refine ⟨fun _ => by simpa using fun _ => home, fun _ => ⟨fun uid => ?_, ?_, ?_, ?_⟩⟩
        · simp [found, authResult, accepted, @eq_comm ℤ uid]
        all_goals simp [found, authResult, accepted, kernel, home]
      · constructor
        · intro decides
          have missing := decides.notFound
          simp [found, authResult, accepted, kernel, home] at missing
        · intro homes
          exact absurd (homes row rfl accepted) home
    · refine ⟨fun _ => by simp [accepted], fun _ => ?_⟩
      constructor <;> simp [found, authResult, accepted]

end Result

/-! ## A file with one user -/

/-- The line `a:p:7:7::/h`. -/
def oneUser : PasswdLine where
  username := [97]
  password := [112]
  uid := [55]
  gid := [55]
  fullname := []
  homedir := [47, 104]
  plain := by decide

/-- The file has this line only. -/
def oneUserState (isDir : Bytes → Bool) : State where
  disk := ⟨fun _ => oneUser.text, fun _ => some 0, 1, isDir⟩
  task := ⟨fun _ => none, 0⟩

/-- A stack without newlines. -/
def silent : ℕ → Leftover := fun _ => ⟨⟨0, 0⟩, []⟩

theorem oneUser_lines (isDir : Bytes → Bool) :
    split newline ((oneUserState isDir).disk.node 0) = [oneUser].map PasswdLine.text := by
  have stored : (oneUserState isDir).disk.node 0 = oneUser.text := rfl
  rw [stored]
  decide

theorem oneUser_quiet : Quiet silent ([oneUser].map PasswdLine.text) :=
  ⟨fun _ => (by decide : (0 : UInt8) ≠ newline), by decide⟩

end Xv6Uac.Accounts
