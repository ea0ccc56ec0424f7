import Xv6Uac.User.Lines
import Xv6Uac.User.Members

/-!
# Looking for a record

`finduserbyname`, `finduserbyuid`, `findgroupbyname` and `findgroupbygid` read line by line until a
record matches. As long as `getline` returns the lines, they do on a file what `seek` does on the
list of its lines and records (`findRecord_spec`).
-/

namespace Xv6Uac.Accounts

open Programs Separated List

/-! ## The functions -/

/-- What C leaves open in one round: the bytes that `getline` reads without having written them, and
what the line buffer holds behind the line. -/
structure Leftover where
  stack : Stack
  stale : Bytes

section Functions

variable {α : Type}

/-- The loop of the functions that look for a record: the code, the last record that was read, and
the offset behind it. A line without all its fields is read beyond its end. -/
def findRecord (parse : Bytes → Option α) (wanted : α → Bool) (left : ℕ → Leftover) (fd : ℤ) :
    ℕ → ℕ → Option α → ℤ → P (ℤ × Option α × ℤ)
  | 0, _, _, _ => .undefined
  | k + 1, j, record, offset => do
    let got ← getline (left j).stack fd offset
    match got with
    | none => pure (NOTFOUND, record, offset)
    | some (line, offset) =>
      match parse (line ++ 0 :: (left j).stale) with
      | none => .undefined
      | some record =>
        if wanted record then pure (0, some record, offset)
        else findRecord parse wanted left fd k (j + 1) (some record) offset

/-- `strcmp`, on strings without their NUL. -/
def strcmp : Bytes → Bytes → ℤ
  | p, [] => (p.headD 0).toNat
  | [], q :: _ => -(q.toNat : ℤ)
  | p :: ps, q :: qs => if p = q then strcmp ps qs else (p.toNat : ℤ) - q.toNat

def finduserbyname (left : ℕ → Leftover) (fd : ℤ) (username : Bytes) (usr : Option User)
    (offset : ℤ) : P (ℤ × Option User × ℤ) :=
  findRecord user (fun usr => strcmp usr.username username = 0) left fd ROUNDS 0 usr offset

def finduserbyuid (left : ℕ → Leftover) (fd uid : ℤ) (usr : Option User) (offset : ℤ) :
    P (ℤ × Option User × ℤ) :=
  findRecord user (fun usr => usr.uid = uid) left fd ROUNDS 0 usr offset

def findgroupbyname (left : ℕ → Leftover) (fd : ℤ) (groupname : Bytes) (grp : Option Group)
    (offset : ℤ) : P (ℤ × Option Group × ℤ) :=
  findRecord group (fun grp => strcmp grp.groupname groupname = 0) left fd ROUNDS 0 grp offset

def findgroupbygid (left : ℕ → Leftover) (fd gid : ℤ) (grp : Option Group) (offset : ℤ) :
    P (ℤ × Option Group × ℤ) :=
  findRecord group (fun grp => grp.gid = gid) left fd ROUNDS 0 grp offset

end Functions

/-! ## Comparing strings -/

theorem toNat_eq_zero_iff {b : UInt8} : b.toNat = 0 ↔ b = 0 :=
  ⟨fun zero => UInt8.toNat_inj.mp zero, fun zero => congrArg UInt8.toNat zero⟩

theorem strcmp_eq_zero_iff {p q : Bytes} (nulP : 0 ∉ p) (nulQ : 0 ∉ q) :
    strcmp p q = 0 ↔ p = q := by
  induction p generalizing q with
  | nil =>
    cases q with
    | nil => simp [strcmp]
    | cons b q =>
      have nonzero : b.toNat ≠ 0 := fun zero =>
        nulQ (List.mem_cons.mpr (.inl (toNat_eq_zero_iff.mp zero).symm))
      simp [strcmp, nonzero]
  | cons a p ih =>
    rw [mem_cons, not_or] at nulP
    cases q with
    | nil =>
      have nonzero : a.toNat ≠ 0 := fun zero => nulP.1 (toNat_eq_zero_iff.mp zero).symm
      simp [strcmp, nonzero]
    | cons b q =>
      rw [mem_cons, not_or] at nulQ
      rw [strcmp]
      by_cases same : a = b
      · rw [if_pos same, ih nulP.2 nulQ.2, same]
        simp
      · have differ : a.toNat ≠ b.toNat := fun eq => same (UInt8.toNat_inj.mp eq)
        rw [if_neg same]
        simp only [List.cons.injEq, same, false_and, iff_false]
        omega

/-! ## Searching the lines -/

section Search

variable {α : Type} {parse : Bytes → Option α} {wanted : α → Bool} {left : ℕ → Leftover}
  {s : State} {fd offset : ℤ} {node : ℕ} {bytes : Bytes} {pre post entries : List (Bytes × α)}
  {record : Option α}

/-- A search in a list of lines with their records. -/
def seek (wanted : α → Bool) : Option α → ℤ → List (Bytes × α) → ℤ × Option α × ℤ
  | record, offset, [] => (NOTFOUND, record, offset)
  | _, offset, (line, record) :: rest =>
    if wanted record then (0, some record, offset + line.length + 1)
    else seek wanted (some record) (offset + line.length + 1) rest

/-- The first record that is wanted ends the search, behind its line. -/
theorem seek_found {e : Bytes × α} (before : ∀ f ∈ pre, wanted f.2 = false)
    (here : wanted e.2 = true) (record : Option α) (offset : ℤ) (post : List (Bytes × α)) :
    seek wanted record offset (pre ++ e :: post) =
      (0, some e.2, offset + (closed newline (pre.map Prod.fst)).length + e.1.length + 1) := by
  induction pre generalizing record offset with
  | nil => simp [seek, here]
  | cons f pre ih =>
    have later : ∀ g ∈ pre, wanted g.2 = false := fun g member =>
      before g (mem_cons_of_mem f member)
    rw [cons_append, seek, before f mem_cons_self, if_neg (by decide), ih later,
      map_cons, closed_cons, length_append, length_cons]
    simp only [Prod.mk.injEq, true_and]
    omega

/-- A search that finds nothing ends behind the last line. -/
theorem seek_missing (none : ∀ f ∈ entries, wanted f.2 = false) (record : Option α) (offset : ℤ) :
    (seek wanted record offset entries).1 = NOTFOUND ∧
      (seek wanted record offset entries).2.2 =
        offset + (closed newline (entries.map Prod.fst)).length := by
  induction entries generalizing record offset with
  | nil => simp [seek]
  | cons f entries ih =>
    have later : ∀ g ∈ entries, wanted g.2 = false := fun g member =>
      none g (mem_cons_of_mem f member)
    obtain ⟨code, place⟩ := ih later (some f.2) (offset + f.1.length + 1)
    rw [seek, none f mem_cons_self, if_neg (by decide)]
    refine ⟨code, ?_⟩
    rw [map_cons, closed_cons, length_append, length_cons]
    omega

/-- A search from the start finds nothing, or the first item that is wanted. -/
theorem seek_cases {β : Type} (text : β → Bytes) (shown : β → α) (wanted : α → Bool)
    (items : List β) (record : Option α) :
    (∀ x ∈ items, wanted (shown x) = false) ∧
        (∃ r o, seek wanted record 0 (items.map fun x => (text x, shown x)) = (NOTFOUND, r, o)) ∨
      ∃ pre x post, items = pre ++ x :: post ∧ (∀ y ∈ pre, wanted (shown y) = false) ∧
        wanted (shown x) = true ∧
        seek wanted record 0 (items.map fun x => (text x, shown x)) =
          (0, some (shown x), ((closed newline ((pre ++ [x]).map text)).length : ℤ)) := by
  rcases found : items.find? fun x => wanted (shown x) with _ | x
  · have none : ∀ x ∈ items, wanted (shown x) = false := by
      intro x member
      simpa using List.find?_eq_none.mp found x member
    refine .inl ⟨none, _, _, Prod.ext (seek_missing ?_ record 0).1 rfl⟩
    intro f member
    obtain ⟨x, inside, rfl⟩ := List.mem_map.mp member
    exact none x inside
  · obtain ⟨here, pre, post, rfl, before⟩ := List.find?_eq_some_iff_append.mp found
    have before' : ∀ y ∈ pre, wanted (shown y) = false := by
      intro y member
      simpa using before y member
    refine .inr ⟨pre, x, post, rfl, before', here, ?_⟩
    have sought := @seek_found α wanted (pre.map fun x => (text x, shown x)) (text x, shown x)
      (by
        intro f member
        obtain ⟨y, inside, rfl⟩ := List.mem_map.mp member
        exact before' y inside) here record 0 (post.map fun x => (text x, shown x))
    rw [map_append, map_cons, sought]
    simp [Function.comp_def, add_assoc]

/-- `getline` can return the lines: no byte that it reads without having written it looks like the
end of a line, and the lines fit into the line buffer. -/
structure Quiet (left : ℕ → Leftover) (lines : List Bytes) : Prop where
  first : ∀ j, (left j).stack.first ≠ newline
  short : ∀ line ∈ lines, line.length < BUFSIZE - 1

/-- The lines show the records, whatever the line buffer holds behind them. -/
def Parsed (parse : Bytes → Option α) (entries : List (Bytes × α)) : Prop :=
  ∀ e ∈ entries, ∀ stale, parse (e.1 ++ 0 :: stale) = some e.2

/-- **A search in a file is a search in the list of its lines.** -/
theorem findRecord_spec (valid : 0 ≤ fd) (content : s.disk.node node = bytes)
    (small : bytes.length ≤ MAXFILE * BSIZE) (quiet : Quiet left (entries.map Prod.fst))
    (parsed : Parsed parse entries) (least : 0 ≤ offset) (most : offset ≤ bytes.length + 1)
    (lines : split newline (bytes.drop offset.toNat) = entries.map Prod.fst) {k : ℕ}
    (enough : entries.length < k) (j : ℕ) (record : Option α) (off : ℕ) :
    Ends (findRecord parse wanted left fd k j record offset) (fun r t =>
      r = seek wanted record offset entries ∧ ∃ off', t = s.seekTo fd node off')
      (s.seekTo fd node off) := by
  have limit : MAXFILE * BSIZE + 1 < 2 ^ 32 := by decide
  induction entries generalizing offset k j record off with
  | nil =>
    obtain ⟨k, rfl⟩ := Nat.exists_eq_succ_of_ne_zero (Nat.ne_of_gt enough)
    have ended : bytes.length ≤ offset.toNat :=
      List.drop_eq_nil_iff.mp (split_eq_nil_iff.mp lines)
    have none : lineAt bytes offset.toNat = [] := by
      rw [lineAt, drop_eq_nil_of_le ended, takeWhile_nil]
    rw [Ends, findRecord, always_bind]
    apply (getline_spec valid (quiet.first j) (.inr (by simp [none])) content small least
      (by omega)).mono (fun _ => id)
    rintro r t - ⟨rfl, after⟩
    rw [if_pos ended]
    exact ⟨trivial, rfl, after⟩
  | cons e rest ih =>
    obtain ⟨k, rfl⟩ := Nat.exists_eq_succ_of_ne_zero (Nat.ne_of_gt (Nat.zero_lt_of_lt enough))
    have some : bytes.drop offset.toNat ≠ [] := by
      intro none
      rw [none] at lines
      exact cons_ne_nil _ _ lines.symm
    have unended : ¬bytes.length ≤ offset.toNat := fun ended => some (drop_eq_nil_of_le ended)
    rw [split_of_ne_nil some, map_cons, List.cons.injEq, drop_drop] at lines
    obtain ⟨line, later⟩ := lines
    have here : lineAt bytes offset.toNat = e.1 := line
    rw [line] at later
    have inside : e.1.length ≤ bytes.length - offset.toNat := by
      rw [← line, ← length_drop]
      exact (List.takeWhile_prefix _).length_le
    have short : e.1.length < BUFSIZE - 1 := quiet.short e.1 mem_cons_self
    have next : (offset + e.1.length + 1).toNat = offset.toNat + (e.1.length + 1) := by omega
    rw [Ends, findRecord, always_bind]
    apply (getline_spec valid (quiet.first j) (.inr (by rw [here]; omega)) content small least
      (by omega)).mono (fun _ => id)
    rintro r t - ⟨rfl, off', rfl⟩
    rw [if_neg unended, here]
    dsimp only
    rw [parsed e mem_cons_self, seek, always_ite]
    refine ⟨fun found => ?_, fun missed => ?_⟩
    · rw [if_pos found]
      exact ⟨trivial, rfl, off', rfl⟩
    · rw [if_neg missed]
      refine ih ⟨quiet.first, fun l member => quiet.short l (mem_cons_of_mem _ member)⟩
        (fun f member => parsed f (mem_cons_of_mem e member)) (by omega) (by omega) ?_
        (Nat.lt_of_succ_lt_succ enough) (j + 1) (Option.some e.2) off'
      rw [next, later]

end Search

end Xv6Uac.Accounts
