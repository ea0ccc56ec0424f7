import Xv6Uac.User.System

/-!
# Strings in memory

A pointer of a C program is the bytes that it points to here. A string goes up to the first NUL,
and a new block of `malloc` has unknown bytes in it, which are `junk`.
-/

namespace Xv6Uac.Accounts

/-- The string at the front of a piece of memory. -/
def cstring (mem : Bytes) : Bytes := mem.takeWhile (· != 0)

/-- The memory begins with the string and a NUL. -/
def Terminated (mem s : Bytes) : Prop := ∃ rest, mem = s ++ 0 :: rest

/-- A new block. -/
def malloc (junk : ℕ → UInt8) (n : ℕ) : Bytes := (List.range n).map junk

/-- `realloc` with its unusual units: `original` and `more` are counted in words, and so is what is
copied from the old block. What lies beyond the old block is unknown. -/
def realloc (junk : ℕ → UInt8) (block : Bytes) (original more : ℕ) : Bytes :=
  ByteFile.write (malloc junk ((original + more) * 4)) 0 (block.take (original * 4))

section Strings

variable {mem s s' : Bytes}

theorem cstring_append (nul : 0 ∉ s) (rest : Bytes) : cstring (s ++ 0 :: rest) = s := by
  rw [cstring, List.takeWhile_append_of_pos, List.takeWhile_cons_of_neg (by decide), List.append_nil]
  intro b inside
  rw [bne_iff_ne]
  rintro rfl
  exact nul inside

theorem Terminated.cstring_eq (terminated : Terminated mem s) (nul : 0 ∉ s) : cstring mem = s := by
  obtain ⟨rest, rfl⟩ := terminated
  exact cstring_append nul rest

/-- A piece of memory has one string. -/
theorem Terminated.unique (first : Terminated mem s) (second : Terminated mem s') (nul : 0 ∉ s)
    (nul' : 0 ∉ s') : s = s' := by
  rw [← first.cstring_eq nul, second.cstring_eq nul']

end Strings

theorem length_malloc (junk : ℕ → UInt8) (n : ℕ) : (malloc junk n).length = n := by simp [malloc]

theorem length_realloc (junk : ℕ → UInt8) (block : Bytes) (original more : ℕ) :
    (realloc junk block original more).length = (original + more) * 4 := by
  rw [realloc, ByteFile.length_write (Nat.zero_le _), length_malloc, List.length_take]
  omega

end Xv6Uac.Accounts
