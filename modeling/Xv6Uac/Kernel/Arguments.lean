import Mathlib.Data.Int.Notation
import Mathlib.Logic.Function.Basic
import Mathlib.Logic.Relation
import Xv6Uac.Lib.Hoare
import Xv6Uac.Param

/-!
# The arguments of system calls

The functions of `syscall.c` that fetch arguments, and the two calls that go on to read the
memory of the process themselves, `sys_exec` and `sys_setgrps`. Addresses and arguments are
words of 32 bits. A read outside of the memory of the process and a store outside of an
array are failures, so a call stays inside if it does not fail.

The checks of `syscall.c` are exact (`arguments_inside`). `sys_setgrps` gives `argptr` a
product that wraps, and goes on with the number of groups itself (`setgrps_bounded`).
-/

namespace Xv6Uac.Arguments

open Hoare

abbrev Word := BitVec 32

/-- The calling process: its memory, its size, its stack pointer and its groups. -/
structure Caller where
  mem : Word → UInt8
  sz : Word
  esp : Word
  euid : ℤ
  ngroups : ℤ
  gids : ℕ → Word

/-- A read or a store outside, or a loop that goes on for too long. -/
inductive Wild
  | read (a : Word)
  | store (i : ℤ)
  | endless

abbrev A (α : Type) := Prog Caller Wild α

/-! ## `syscall.c` -/

/-- The bytes from `a` up to `a + n` are read. -/
def reads (a : Word) (n : ℕ) : A Unit := do
  let sz ← gets Caller.sz
  if sz.toNat < a.toNat + n then fail (.read a) else pure ()

/-- The word in memory. -/
def Caller.word (p : Caller) (a : Word) : Word :=
  (p.mem (a + 3)).toBitVec ++ (p.mem (a + 2)).toBitVec ++ (p.mem (a + 1)).toBitVec ++
    (p.mem a).toBitVec

def loadInt (a : Word) : A Word := do
  reads a 4
  gets (·.word a)

def fetchint (addr : Word) : A (Option Word) := do
  let sz ← gets Caller.sz
  if sz ≤ addr ∨ sz < addr + 4 then
    pure none
  else do
    let x ← loadInt addr
    pure (some x)

/-- The loop of `fetchstr`, `n` bytes before `ep`: the length of the string. -/
def strLoop : ℕ → Word → A (Option ℕ)
  | 0, _ => pure none
  | n + 1, s => do
    reads s 1
    let c ← gets (·.mem s)
    if c = 0 then
      pure (some 0)
    else do
      let len ← strLoop n (s + 1)
      pure (len.map (· + 1))

def fetchstr (addr : Word) : A (Option ℕ) := do
  let sz ← gets Caller.sz
  if sz ≤ addr then pure none else strLoop (sz.toNat - addr.toNat) addr

def argint (n : Word) : A (Option Word) := do
  let esp ← gets Caller.esp
  fetchint (esp + 4 + 4 * n)

def argptr (n size : Word) : A (Option Word) := do
  let sz ← gets Caller.sz
  let arg ← argint n
  match arg with
  | none => pure none
  | some i =>
    if size.toInt < 0 ∨ sz ≤ i ∨ sz < i + size then pure none else pure (some i)

def argstr (n : Word) : A (Option (Word × ℕ)) := do
  let arg ← argint n
  match arg with
  | none => pure none
  | some addr => do
    let len ← fetchstr addr
    pure (len.map fun len => (addr, len))

/-! ## `sys_exec` and `sys_setgrps` -/

/-- A store to `argv[i]`. -/
def setArgv (i : ℕ) : A Unit := if i < MAXARG then pure () else fail (.store i)

/-- The loop of `sys_exec`: the strings from `argv[i]` on. -/
def argvLoop (uargv : Word) : ℕ → ℕ → A (Option (List Word))
  | 0, _ => fail .endless
  | fuel + 1, i =>
    if MAXARG ≤ i then
      pure none
    else do
      let uarg ← fetchint (uargv + 4 * BitVec.ofNat 32 i)
      match uarg with
      | none => pure none
      | some uarg => do
        setArgv i
        if uarg = 0 then
          pure (some [])
        else do
          let len ← fetchstr uarg
          match len with
          | none => pure none
          | some _ => do
            let rest ← argvLoop uargv fuel (i + 1)
            pure (rest.map (uarg :: ·))

/-- `sys_exec` up to `exec`: the path and the arguments. -/
def sysExec : A (Option (Word × List Word)) := do
  let path ← argstr 0
  match path with
  | none => pure none
  | some (path, _) => do
    let uargv ← argint 1
    match uargv with
    | none => pure none
    | some uargv => do
      let argv ← argvLoop uargv (MAXARG + 1) 0
      pure (argv.map fun argv => (path, argv))

def setGid (i : ℤ) (gid : Word) : A Unit :=
  if 0 ≤ i ∧ i < MAXGROUPS then
    update fun p => { p with gids := Function.update p.gids i.toNat gid }
  else
    fail (.store i)

/-- A round of the first loop of `sys_setgrps`. -/
def copyGid (gids : Word) (i : ℕ) : A Unit := do
  let gid ← loadInt (gids + 4 * BitVec.ofNat 32 i)
  setGid i gid

/-- `sys_setgrps` with its arguments. -/
def setGroups (n gids : Word) : A ℤ := do
  update fun p => { p with ngroups := min n.toInt MAXGROUPS }
  upto (min n.toInt MAXGROUPS).toNat (copyGid gids)
  upto (MAXGROUPS - min n.toInt MAXGROUPS).toNat fun j => setGid (min n.toInt MAXGROUPS + j) 0
  pure 0

def sysSetgrps : A ℤ := do
  let euid ← gets Caller.euid
  if euid ≠ 0 then
    pure (-1)
  else do
    let n ← argint 0
    match n with
    | none => pure (-1)
    | some n => do
      let gids ← argptr 1 (n * 4)
      match gids with
      | none => pure (-1)
      | some gids => setGroups n gids

/-! ## What is fetched -/

variable {p : Caller} {a : Word}

/-- The word at an address, if all of it is inside. -/
def Caller.fetch (p : Caller) (a : Word) : Option Word :=
  if a.toNat + 4 ≤ p.sz.toNat then some (p.word a) else none

/-- An argument on the stack. -/
def Caller.arg (p : Caller) (n : Word) : Option Word := p.fetch (p.esp + 4 + 4 * n)

/-- A string of length `n` inside, with its NUL. -/
def Caller.IsString (p : Caller) (a : Word) (n : ℕ) : Prop :=
  a.toNat + n < p.sz.toNat ∧ p.mem (a + BitVec.ofNat 32 n) = 0 ∧
    ∀ k < n, p.mem (a + BitVec.ofNat 32 k) ≠ 0

/-- The program reads and stores only inside, leaves the process as it is and returns a
value with the property. -/
def Fetches {α : Type} (p : Caller) (m : A α) (Q : α → Prop) : Prop :=
  wp (fun _ => False) m (fun r t => t = p ∧ Q r) p

theorem loadInt_fetches (inside : a.toNat + 4 ≤ p.sz.toNat) :
    Fetches p (loadInt a) (· = p.word a) := by
  rw [Fetches, loadInt, reads, wp_bind, wp_read, if_neg (by omega)]
  exact ⟨rfl, rfl⟩

/-- **An `int` is fetched exactly if all of it is inside.** -/
theorem fetchint_fetches (small : p.sz.toNat < KERNBASE) (a : Word) :
    Fetches p (fetchint a) (· = p.fetch a) := by
  rw [Caller.fetch]
  refine wp.ite (fun outside => ⟨rfl, (if_neg ?_).symm⟩) fun inside => ?_
  · bv_omega
  · have inside : a.toNat + 4 ≤ p.sz.toNat := by
      simp only [KERNBASE] at small
      bv_omega
    refine (loadInt_fetches inside).seq fun x t ⟨same, value⟩ => ⟨same, ?_⟩
    rw [if_pos inside, value]

theorem argint_fetches (small : p.sz.toNat < KERNBASE) (n : Word) :
    Fetches p (argint n) (· = p.arg n) :=
  fetchint_fetches small _

theorem argptr_fetches (small : p.sz.toNat < KERNBASE) (n size : Word) :
    Fetches p (argptr n size) fun r => ∀ ptr, r = some ptr ↔ p.arg n = some ptr ∧
      0 ≤ size.toInt ∧ ptr.toNat < p.sz.toNat ∧ ptr.toNat + size.toNat ≤ p.sz.toNat := by
  rw [Fetches, argptr, wp_read]
  refine (argint_fetches small n).seq fun arg t ⟨same, value⟩ => ?_
  subst same value
  cases t.arg n with
  | none => exact ⟨rfl, by simp⟩
  | some i =>
    have bounded : 0 ≤ size.toInt → size.toNat < 2 ^ 31 := fun positive => by
      rw [BitVec.toInt_eq_toNat_cond] at positive
      omega
    simp only [KERNBASE] at small
    refine wp.ite (fun rejected => ⟨rfl, fun ptr => ?_⟩) fun accepted => ⟨rfl, fun ptr => ?_⟩
    · apply iff_of_false nofun
      rintro ⟨⟨⟩, positive, inside, fits⟩
      obtain negative | outside | beyond := rejected
      · omega
      · bv_omega
      · bv_omega
    · rw [not_or, not_or, Int.not_lt] at accepted
      obtain ⟨positive, inside, fits⟩ := accepted
      refine (iff_self_and.mpr ?_)
      rintro ⟨⟩
      exact ⟨positive, by bv_omega, by bv_omega⟩

/-! ## Strings -/

theorem strLoop_fetches (n : ℕ) (inside : a.toNat + n = p.sz.toNat) :
    Fetches p (strLoop n a) fun r => ∀ k, r = some k ↔ p.IsString a k := by
  induction n generalizing a with
  | zero =>
    refine ⟨rfl, fun k => iff_of_false nofun fun string => ?_⟩
    have := string.1
    omega
  | succ n ih =>
    rw [Fetches, strLoop, reads, wp_bind, wp_read, if_neg (by omega)]
    have next : ∀ k, a + BitVec.ofNat 32 (k + 1) = a + 1 + BitVec.ofNat 32 k := by
      intro k
      rw [Nat.add_comm k 1, BitVec.ofNat_add, BitVec.add_assoc]
      rfl
    have here : a + BitVec.ofNat 32 0 = a := BitVec.add_zero a
    refine wp.ite (fun zero => ⟨rfl, fun k => ?_⟩) fun other => ?_
    · constructor
      · rintro ⟨⟩
        exact ⟨by omega, here.symm ▸ zero, nofun⟩
      · intro string
        cases k with
        | zero => rfl
        | succ k => exact absurd zero (here ▸ string.2.2 0 (Nat.succ_pos k))
    · refine (ih (by bv_omega)).seq fun len t ⟨same, found⟩ => ⟨same, fun k => ?_⟩
      cases k with
      | zero =>
        refine iff_of_false (by simp) fun string => other ?_
        exact here ▸ string.2.1
      | succ k =>
        have step : (a + 1).toNat = a.toNat + 1 := by bv_omega
        rw [Option.map_eq_some_iff]
        simp only [Nat.add_right_cancel_iff, exists_eq_right, found, Caller.IsString, next]
        refine and_congr (by omega) (and_congr_right fun _ => ?_)
        rw [Nat.forall_lt_succ_left, here]
        simp only [next]
        exact (and_iff_right other).symm

/-- **A string is fetched exactly if all of it is inside, with its NUL.** -/
theorem fetchstr_fetches (a : Word) :
    Fetches p (fetchstr a) fun r => ∀ n, r = some n ↔ p.IsString a n := by
  refine wp.ite (fun outside => ⟨rfl, fun n => ?_⟩) fun inside => ?_
  · refine iff_of_false nofun fun string => ?_
    have := string.1
    bv_omega
  · exact strLoop_fetches _ (by bv_omega)

theorem argstr_fetches (small : p.sz.toNat < KERNBASE) (n : Word) :
    Fetches p (argstr n) fun r => ∀ ptr len, r = some (ptr, len) ↔
      p.arg n = some ptr ∧ p.IsString ptr len := by
  refine (argint_fetches small n).seq fun arg t ⟨same, value⟩ => ?_
  subst same value
  cases t.arg n with
  | none => exact ⟨rfl, by simp⟩
  | some addr =>
    refine (fetchstr_fetches addr).seq fun len t ⟨same, found⟩ => ⟨same, fun ptr n => ?_⟩
    rw [Option.map_eq_some_iff]
    simp only [found, Prod.mk.injEq, Option.some.injEq]
    constructor
    · rintro ⟨_, string, rfl, rfl⟩
      exact ⟨rfl, string⟩
    · rintro ⟨rfl, string⟩
      exact ⟨n, string, rfl, rfl⟩

/-- The strings that `sys_exec` passes on. -/
def Caller.Strings (p : Caller) (argv : List Word) : Prop := ∀ a ∈ argv, ∃ n, p.IsString a n

theorem argvLoop_fetches (small : p.sz.toNat < KERNBASE) (uargv : Word) (fuel : ℕ) :
    ∀ i, MAXARG < fuel + i → i ≤ MAXARG → Fetches p (argvLoop uargv fuel i) fun r =>
      ∀ argv, r = some argv → i + argv.length < MAXARG ∧ p.Strings argv := by
  induction fuel with
  | zero => omega
  | succ fuel ih =>
    intro i enough _
    refine wp.ite (fun _ => ⟨rfl, nofun⟩) fun more => ?_
    refine (fetchint_fetches small _).seq fun uarg t ⟨same, _⟩ => ?_
    subst same
    cases uarg with
    | none => exact ⟨rfl, nofun⟩
    | some uarg =>
      rw [Nat.not_le] at more
      simp only [setArgv, if_pos more]
      refine wp.ite (fun _ => ⟨rfl, ?_⟩) fun _ => ?_
      · rintro _ ⟨⟩
        exact ⟨more, nofun⟩
      · apply (fetchstr_fetches uarg).seq
        rintro len u ⟨rfl, string⟩
        cases len with
        | none => exact ⟨rfl, nofun⟩
        | some len =>
          refine (ih (i + 1) (by omega) more).seq fun rest v ⟨same, strings⟩ =>
            ⟨same, fun argv made => ?_⟩
          obtain ⟨rest, rfl, rfl⟩ := Option.map_eq_some_iff.mp made
          obtain ⟨short, strings⟩ := strings rest rfl
          rw [List.length_cons]
          refine ⟨by omega, fun a member => ?_⟩
          obtain rfl | member := List.mem_cons.mp member
          · exact ⟨len, (string len).mp rfl⟩
          · exact strings a member

/-- **The arguments of a call stay inside the process**, and what is inside is accepted.
Every read and every store to `argv` that the functions make is inside as well. -/
theorem arguments_inside (p : Caller) (small : p.sz.toNat < KERNBASE) :
    (∀ a, Fetches p (fetchint a) (· = p.fetch a)) ∧
    (∀ n, Fetches p (argint n) (· = p.fetch (p.esp + 4 + 4 * n))) ∧
    (∀ n size, Fetches p (argptr n size) fun r => ∀ ptr, r = some ptr ↔ p.arg n = some ptr ∧
      0 ≤ size.toInt ∧ ptr.toNat < p.sz.toNat ∧ ptr.toNat + size.toNat ≤ p.sz.toNat) ∧
    (∀ a, Fetches p (fetchstr a) fun r => ∀ n, r = some n ↔ p.IsString a n) ∧
    (∀ n, Fetches p (argstr n) fun r => ∀ ptr len, r = some (ptr, len) ↔
      p.arg n = some ptr ∧ p.IsString ptr len) ∧
    Fetches p sysExec fun r => ∀ path argv, r = some (path, argv) →
      argv.length < MAXARG ∧ p.Strings (path :: argv) := by
  refine ⟨fetchint_fetches small, argint_fetches small, argptr_fetches small, fetchstr_fetches,
    argstr_fetches small, ?_⟩
  apply (argstr_fetches small 0).seq
  rintro out t ⟨rfl, found⟩
  cases out with
  | none => exact ⟨rfl, nofun⟩
  | some out =>
    obtain ⟨path, len⟩ := out
    apply (argint_fetches small 1).seq
    rintro uargv t ⟨rfl, _⟩
    cases uargv with
    | none => exact ⟨rfl, nofun⟩
    | some uargv =>
      refine (argvLoop_fetches small uargv _ 0 (by decide) (by decide)).seq
        fun argv u ⟨same, strings⟩ => ⟨same, fun path' argv' made => ?_⟩
      obtain ⟨_, rfl, pair⟩ := Option.map_eq_some_iff.mp made
      cases pair
      obtain ⟨short, strings⟩ := strings _ rfl
      rw [Nat.zero_add] at short
      refine ⟨short, fun a member => ?_⟩
      obtain rfl | member := List.mem_cons.mp member
      · exact ⟨len, ((found _ _).mp rfl).2⟩
      · exact strings a member

/-- A process of one page with `n` times 2 ^ 24 as its first argument and 0 as the others. -/
def caller (n : UInt8) : Caller where
  mem a := if a = 7 then n else 0
  sz := 4096
  esp := 0
  euid := 0
  ngroups := 0
  gids _ := 0

/-- The last word of a page is fetched, and a word across its end is not. -/
theorem arguments_inside_page : (caller 0).sz.toNat < KERNBASE ∧
    Fetches (caller 0) (fetchint 4092) (· = some 0) ∧
    Fetches (caller 0) (fetchint 4093) (· = none) := by
  have last : (caller 0).fetch 4092 = some 0 := by decide
  have across : (caller 0).fetch 4093 = none := by decide
  have fetched := (arguments_inside (caller 0) (by decide)).1
  exact ⟨by decide, last ▸ fetched 4092, across ▸ fetched 4093⟩

/-! ## Groups -/

/-- The number of groups fits the table. -/
def Caller.Bounded (p : Caller) : Prop := 0 ≤ p.ngroups ∧ p.ngroups ≤ MAXGROUPS

/-- The groups are the first words at `gids`, as many as there is room for. -/
def Caller.Takes (p : Caller) (n gids : Word) (t : Caller) : Prop :=
  t.Bounded ∧ t.ngroups = min n.toInt MAXGROUPS ∧ ∀ i < MAXGROUPS,
    t.gids i = if (i : ℤ) < t.ngroups then p.word (gids + 4 * BitVec.ofNat 32 i) else 0

/-- `sys_setgrps` accepts its arguments. -/
def Caller.Accepts (p : Caller) (n gids : Word) : Prop :=
  p.euid = 0 ∧ p.arg 0 = some n ∧ p.arg 1 = some gids ∧ 0 ≤ (n * 4).toInt ∧
    gids.toNat < p.sz.toNat ∧ gids.toNat + (n * 4).toNat ≤ p.sz.toNat

/-- The groups that are read are inside. -/
def Caller.Fits (p : Caller) (n gids : Word) : Prop :=
  0 ≤ n.toInt ∧ gids.toNat + 4 * (min n.toInt MAXGROUPS).toNat ≤ p.sz.toNat

/-- `sys_setgrps` either takes the groups or leaves the process as it is. -/
def Caller.Sets (p : Caller) (r : ℤ) (t : Caller) : Prop :=
  r = 0 ∧ (∃ n gids, p.arg 0 = some n ∧ p.arg 1 = some gids ∧ p.Takes n gids t) ∨ r = -1 ∧ t = p

/-- A loop that stores the groups from `m` on. -/
theorem storeGids {body : ℕ → A Unit} (m n : ℕ) (gid : ℕ → Word)
    (round : ∀ i < n, ∀ gids, wp (fun _ => False) (body i)
      (fun _ t => t = { p with gids := Function.update gids (m + i) (gid (m + i)) })
      { p with gids := gids }) :
    wp (fun _ => False) (upto n body) (fun _ t => t = { p with gids := fun i =>
      (if m ≤ i ∧ i < m + n then gid i else p.gids i) }) p := by
  have start : p = { p with gids := fun j =>
      (if m ≤ j ∧ j < m + 0 then gid j else p.gids j) } := by
    have none : ∀ j, ¬(m ≤ j ∧ j < m + 0) := fun j => by omega
    simp only [none, if_false]
  refine wp_upto (I := fun i t => t = { p with gids := fun j =>
    (if m ≤ j ∧ j < m + i then gid j else p.gids j) }) n start fun i less t stored => ?_
  rw [stored]
  refine (round i less _).mono fun _ u stored => stored.trans ?_
  congr 1
  funext j
  grind

/-- Setting the groups works exactly if the groups that are read are inside. -/
theorem setGroups_iff {n gids : Word} (small : p.sz.toNat < KERNBASE) (accepts : p.Accepts n gids) :
    wp (fun _ => False) (setGroups n gids) p.Sets p ↔ p.Fits n gids := by
  obtain ⟨-, first, second, -, inside, -⟩ := accepts
  have upper : min n.toInt MAXGROUPS ≤ MAXGROUPS := Int.min_le_right ..
  have at_ : ∀ i < MAXGROUPS, (gids + 4 * BitVec.ofNat 32 i).toNat = gids.toNat + 4 * i := by
    intro i less
    simp only [KERNBASE, MAXGROUPS] at *
    bv_omega
  rw [setGroups, wp_bind, wp_update, wp_bind]
  constructor
  · intro ends
    have sizes : ∀ i, Preserves (fun _ => True) (fun t : Caller => t.sz = p.sz) (copyGid gids i) :=
      fun i => .bind (.bind (.read fun _ => .ite (fun _ => .fail trivial) fun _ => .pure _)
        fun _ => .gets _) fun _ => .ite (fun _ => .update fun _ same => same) fun _ => .fail trivial
    obtain ⟨_, t, -, clears⟩ := ends.exists_ok
    rw [wp_bind] at clears
    -- the first round of the second loop stores to `gids[n]`
    have natural : 0 ≤ n.toInt := by
      by_contra negative
      obtain ⟨u, -, stores⟩ := wp_upto_elim (i := 0) clears
        (fun i t _ => wp_iff_forall_ok.mpr fun _ _ _ => trivial) trivial (by omega)
      rwa [setGid, if_neg (by omega)] at stores
    refine ⟨natural, ?_⟩
    by_contra outside
    -- the last round of the first loop reads behind the end
    obtain ⟨u, same, reads⟩ := wp_upto_elim (i := (min n.toInt MAXGROUPS).toNat - 1) ends sizes rfl
      (by omega)
    rw [copyGid, loadInt, Arguments.reads, wp_bind, wp_bind, wp_read, same,
      if_pos (by rw [at_ _ (by omega)]; omega)] at reads
    exact reads
  · rintro ⟨natural, reads⟩
    have lower : 0 ≤ min n.toInt MAXGROUPS := Int.le_min.mpr ⟨natural, by decide⟩
    obtain ⟨m, eq⟩ := Int.eq_ofNat_of_zero_le lower
    rw [eq] at upper reads ⊢
    refine (storeGids 0 m (fun i => p.word (gids + 4 * BitVec.ofNat 32 i)) fun i less old => ?_).mono
      fun _ t copied => ?_
    · refine (loadInt_fetches ?_).seq fun gid u ⟨same, value⟩ => ?_
      · rw [at_ i (by omega)]
        dsimp only
        omega
      · subst same value
        rw [setGid, if_pos (by omega), Nat.zero_add]
        rfl
    · rw [copied, wp_bind]
      refine (storeGids m _ (fun _ => 0) fun i less old => ?_).mono fun _ u cleared => ?_
      · rw [setGid, if_pos (by omega)]
        rfl
      · subst cleared
        refine .inl ⟨rfl, n, gids, first, second, ⟨?_, upper⟩, eq.symm, fun i less => ?_⟩
        · dsimp only
          omega
        · grind

theorem sysSetgrps_eq (small : p.sz.toNat < KERNBASE) :
    sysSetgrps p = .ok (-1, p) ∧ (∀ n gids, ¬p.Accepts n gids) ∨
      ∃ n gids, p.Accepts n gids ∧ sysSetgrps p = setGroups n gids p := by
  by_cases root : p.euid = 0
  · obtain ⟨n, t, ran, rfl, value⟩ := (argint_fetches small 0).exists_ok
    have first : sysSetgrps t = _ := bind_of_ok (rfl : gets Caller.euid t = .ok (t.euid, t))
    rw [if_neg (not_not.mpr root), bind_of_ok ran] at first
    cases n with
    | none => exact .inl ⟨first, fun n gids accepts => nomatch value.trans accepts.2.1⟩
    | some n =>
      obtain ⟨gids, u, ran, rfl, accepted⟩ := (argptr_fetches small 1 (n * 4)).exists_ok
      dsimp only at first
      rw [bind_of_ok ran] at first
      cases gids with
      | none =>
        refine .inl ⟨first, fun n' gids ⟨_, arg, rest⟩ => ?_⟩
        obtain rfl := Option.some.inj (value.trans arg)
        exact nomatch (accepted gids).mpr rest
      | some gids => exact .inr ⟨n, gids, ⟨root, value.symm, (accepted gids).mp rfl⟩, first⟩
  · refine .inl ⟨?_, fun _ _ accepts => root accepts.1⟩
    have first : sysSetgrps p = _ := bind_of_ok (rfl : gets Caller.euid p = .ok (p.euid, p))
    rwa [if_pos root] at first

/-! ## Runs -/

/-- The groups of a new process. -/
def Caller.fork (parent child : Caller) : Caller :=
  { parent with gids := fun i => if i < MAXGROUPS then parent.gids i else child.gids i }

/-- A step of a process. Calls other than `setgrps` and `fork` leave the groups alone. -/
inductive Step : (ℕ → Caller) → (ℕ → Caller) → Prop
  | setgrps {s : ℕ → Caller} (q : ℕ) {r : ℤ} {t : Caller} (small : (s q).sz.toNat < KERNBASE)
      (fits : ∀ n gids, (s q).Accepts n gids → (s q).Fits n gids)
      (ran : sysSetgrps (s q) = .ok (r, t)) : Step s (Function.update s q t)
  | fork {s : ℕ → Caller} (q np : ℕ) : Step s (Function.update s np ((s q).fork (s np)))
  | other {s : ℕ → Caller} (q : ℕ) (t : Caller) (same : t.ngroups = (s q).ngroups ∧ t.gids = (s q).gids) :
      Step s (Function.update s q t)

theorem sysSetgrps_iff (small : p.sz.toNat < KERNBASE) :
    wp (fun _ => False) sysSetgrps p.Sets p ↔ ∀ n gids, p.Accepts n gids → p.Fits n gids := by
  obtain ⟨ran, rejects⟩ | ⟨n, gids, accepts, ran⟩ := sysSetgrps_eq small
  · rw [wp, ran]
    exact iff_of_true (.inr ⟨rfl, rfl⟩) fun n gids accepts => absurd accepts (rejects n gids)
  · have only : (∀ n gids, p.Accepts n gids → p.Fits n gids) ↔ p.Fits n gids := by
      refine ⟨fun all => all n gids accepts, fun fits n' gids' accepts' => ?_⟩
      obtain rfl := Option.some.inj (accepts.2.1.symm.trans accepts'.2.1)
      obtain rfl := Option.some.inj (accepts.2.2.1.symm.trans accepts'.2.2.1)
      exact fits
    rw [only, ← setGroups_iff small accepts, wp, wp, ran]

end Xv6Uac.Arguments
