import Xv6Uac.Kernel.File
import Mathlib.Tactic.IntervalCases

/-!
# Symbolic arguments of `chmod`

`preparemode` and `chmod2` of `chmod.c`. The current mode of the file comes to `chmod2` as the text
that `stati` writes. The text has the nine permissions and nothing else, so `chmod2` passes the
right mode exactly if the mode has no other bit than these and those that the argument names
(`chmod_symbolic_iff`). The set-uid bit of a program is lost otherwise.
-/

namespace Xv6Uac.Chmod

/-! ## The program -/

/-- `preparemode`, with the three characters that it looks at. It exits with a message if they are
not a symbolic argument. For `s` the first one does not matter. -/
def preparemode (who op perm : Char) : Option (BitVec 32) := do
  let mode ←
    if perm = 's' then some (1#32 <<< 9)
    else do
      let mode ←
        if perm = 'w' then some (1#32 <<< 1)
        else if perm = 'r' then some (1#32 <<< 2)
        else if perm ≠ 'x' then none
        else some 1#32
      if who = 'u' then some (mode <<< 6)
      else if who = 'g' then some (mode <<< 3)
      else if who = 'a' then some (mode ||| mode <<< 3 ||| mode <<< 6)
      else if who ≠ 'o' then none
      else some mode
  if op = '-' then some (~~~mode) else if op ≠ '+' then none else some mode

/-- The loop of `chmod2` over the text of the mode. -/
def readMode (text : List Char) (j : ℕ) (mode : BitVec 32) : BitVec 32 :=
  if text.getD j '-' ≠ '-' then mode ||| 1#32 <<< (9 - j) else mode

/-- The mode that `chmod2` passes to `chmod`, if `stat` finds the file. -/
def chmod2 (st : Option Stat) (addedMode : BitVec 32) (removeflag : Bool) :
    Option (BitVec 32) :=
  st.map fun st =>
    let mode := (List.range' 1 9).foldl (fun mode j => readMode st.mode j mode) 0
    if removeflag then mode &&& addedMode else mode ||| addedMode

/-! ## What the argument means -/

def rights (perm : Char) : BitVec 16 :=
  if perm = 'r' then 0o444 else if perm = 'w' then 0o222 else if perm = 'x' then 0o111 else 0

def users (who : Char) : BitVec 16 :=
  if who = 'u' then 0o700 else if who = 'g' then 0o070 else if who = 'o' then 0o007
  else if who = 'a' then 0o777 else 0

/-- The bits that an argument names. -/
def named (who perm : Char) : BitVec 16 :=
  if perm = 's' then 0o1000 else users who &&& rights perm

/-- The bits are set for `+` and cleared for `-`. -/
def change (op : Char) (bits mode : BitVec 16) : BitVec 16 :=
  if op = '-' then mode &&& ~~~bits else mode ||| bits

theorem preparemode_eq {who op perm : Char} {added : BitVec 32}
    (accepted : preparemode who op perm = some added) :
    (op = '-' ∧ added = ~~~(named who perm).setWidth 32) ∨
      (op = '+' ∧ added = (named who perm).setWidth 32) := by
  -- the table of the arguments that are accepted
  unfold preparemode at accepted
  unfold named users rights
  split_ifs at accepted with s w u g a o r x <;> simp_all

theorem getLsbD_readMode (text : List Char) (j : ℕ) (mode : BitVec 32) {k : ℕ} (small : k < 32) :
    (readMode text j mode).getLsbD k =
      (mode.getLsbD k || decide (text.getD j '-' ≠ '-' ∧ 9 - j = k)) := by
  rw [readMode]
  split_ifs with letter
  · grind
  · simp only [letter, false_and, decide_false, Bool.or_false]

/-- The text of the mode has its nine permissions. -/
theorem readModes_modeText (mode : BitVec 16) (type : Char) :
    (List.range' 1 9).foldl (fun m j => readMode (type :: modeText mode) j m) 0 =
      (mode &&& 0o777).setWidth 32 := by
  have letter : ∀ i < 9,
      (type :: modeText mode).getD (i + 1) '-' ≠ '-' ↔ mode.getLsbD (8 - i) := by
    intro i inside
    have some : ∀ i < 9, ['r', 'w', 'x'].getD (i % 3) '-' ≠ '-' := by decide
    specialize some i inside
    rw [List.getD_cons_succ, modeText, List.getD_eq_getElem?_getD, List.getElem?_map,
      List.getElem?_range inside, Option.map_some]
    split_ifs with set
    · exact iff_of_true some set
    · exact iff_of_false (not_not.mpr rfl) set
  refine BitVec.eq_of_getLsbD_eq fun k small => ?_
  simp only [List.range', List.foldl_cons, List.foldl_nil, getLsbD_readMode _ _ _ small, letter,
    Nat.reduceLT, Nat.reduceAdd]
  interval_cases k <;> simp

/-- The permissions are enough for a change if there is no other bit that it keeps. -/
theorem change_permissions_iff (op : Char) (bits mode : BitVec 16) :
    change op bits (mode &&& 0o777) = change op bits mode ↔ mode &&& ~~~(0o777 ||| bits) = 0 := by
  rw [change, change]
  split_ifs <;> simp only [BitVec.eq_of_getLsbD_eq_iff, BitVec.getLsbD_and, BitVec.getLsbD_or,
      BitVec.getLsbD_not] <;>
    refine forall₂_congr fun i small => ?_ <;>
    cases mode.getLsbD i <;> cases bits.getLsbD i <;> simp [small]

/-- **Symbolic `chmod`.** For every argument that `preparemode` accepts, the mode that `chmod2`
passes is the current mode with the named bits set or cleared if and only if the current mode has no
bit beside the nine permissions and the named bits. -/
theorem chmod_symbolic_iff (ip : Inode) {who op perm : Char} {added : BitVec 32}
    (accepted : preparemode who op perm = some added) :
    chmod2 (some (stati ip)) added (op == '-') =
        some ((change op (named who perm) ip.d.mode).setWidth 32) ↔
      ip.d.mode &&& ~~~(0o777 ||| named who perm) = 0 := by
  have passed : chmod2 (some (stati ip)) added (op == '-') =
      some ((change op (named who perm) (ip.d.mode &&& 0o777)).setWidth 32) := by
    simp only [chmod2, stati, readModes_modeText, Option.map_some]
    obtain ⟨rfl, rfl⟩ | ⟨rfl, rfl⟩ := preparemode_eq accepted
    · refine congrArg some (BitVec.eq_of_getLsbD_eq fun i small => ?_)
      simp [change]
      grind
    · simp [change]
  rw [passed, ← change_permissions_iff op, Option.some_inj]
  refine ⟨fun same => ?_, congrArg _⟩
  simpa using congrArg (BitVec.setWidth 16) same

/-- A file with a mode. -/
def fileOf (mode : BitVec 16) : Inode :=
  ⟨3, 1, true, true, { Dinode.zero with type := .file, mode }⟩

/-- `chmod u+x` for a file of mode 0644. -/
theorem chmod_symbolic_plain : preparemode 'u' '+' 'x' = some 0o100 ∧
    chmod2 (some (stati (fileOf 0o644))) 0o100 ('+' == '-') =
      some ((change '+' (named 'u' 'x') 0o644).setWidth 32) :=
  ⟨by decide, (chmod_symbolic_iff (fileOf 0o644) (by decide)).mpr (by decide)⟩

/-- `chmod g+w` takes the set-uid bit from a program of mode 01755. -/
theorem chmod_drops_setuid : preparemode 'g' '+' 'w' = some 0o020 ∧
    chmod2 (some (stati (fileOf 0o1755))) 0o020 ('+' == '-') = some 0o775 ∧
      change '+' (named 'g' 'w') 0o1755 = 0o1775 := by
  decide

end Xv6Uac.Chmod
