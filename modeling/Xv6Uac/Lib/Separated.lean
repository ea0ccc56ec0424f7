import Mathlib.Data.List.TakeWhile

/-!
# Lists with separators

`join sep parts` are the parts with a separator between any two of them: the lines of a file, the
fields of a record, the names of a list. In front of a part come the parts before it, each with
a separator after it (`join_append_cons`), and a part that has no separator in it is found again up
to the next one (`takeWhile_join`).
-/

namespace Separated

open List

variable {α : Type*} {sep : α} {a b : List α} {pre post parts : List (List α)}

/-- The parts with a separator between any two of them. -/
def join (sep : α) (parts : List (List α)) : List α := [sep].intercalate parts

/-- The parts with a separator after each of them. -/
def closed (sep : α) (parts : List (List α)) : List α := parts.flatMap (· ++ [sep])

@[simp] theorem join_nil : join sep [] = [] := rfl

@[simp] theorem join_singleton : join sep [a] = a := intercalate_singleton

@[simp] theorem join_cons_cons : join sep (a :: b :: post) = a ++ sep :: join sep (b :: post) := by
  rfl

@[simp] theorem closed_nil : closed sep [] = [] := rfl

@[simp] theorem closed_cons : closed sep (a :: post) = a ++ sep :: closed sep post := by
  simp [closed]

@[simp] theorem closed_append : closed sep (pre ++ post) = closed sep pre ++ closed sep post := by
  simp [closed]

theorem length_le_closed (parts : List (List α)) : parts.length ≤ (closed sep parts).length := by
  induction parts with
  | nil => exact le_rfl
  | cons a parts ih =>
    rw [closed_cons, length_append, length_cons, length_cons]
    omega

/-- What comes before a part. -/
theorem join_append_cons (pre : List (List α)) (a : List α) (post : List (List α)) :
    join sep (pre ++ a :: post) = closed sep pre ++ join sep (a :: post) := by
  induction pre with
  | nil => rfl
  | cons b pre ih =>
    obtain ⟨c, rest, shape⟩ : ∃ c rest, pre ++ a :: post = c :: rest := by
      cases pre with
      | nil => exact ⟨a, post, rfl⟩
      | cons c pre => exact ⟨c, pre ++ a :: post, rfl⟩
    rw [cons_append, shape, join_cons_cons, ← shape, ih]
    simp

/-- The parts before the last one, and the last one. -/
theorem join_concat (pre : List (List α)) (a : List α) :
    join sep (pre ++ [a]) = closed sep pre ++ a := by
  rw [join_append_cons, join_singleton]

theorem closed_eq (some : pre ≠ []) : closed sep pre = join sep pre ++ [sep] := by
  obtain ⟨front, last, rfl⟩ : ∃ front last, pre = front ++ [last] :=
    ⟨_, _, (dropLast_concat_getLast some).symm⟩
  rw [join_concat]
  simp

/-- What comes after a part. -/
theorem drop_join (a : List α) (post : List (List α)) :
    (join sep (a :: post)).drop (a.length + 1) = join sep post := by
  cases post with
  | nil => simp
  | cons b post =>
    simp

variable [BEq α] [LawfulBEq α]

/-- A part ends at the next separator. -/
theorem takeWhile_join (free : sep ∉ a) (post : List (List α)) :
    (join sep (a :: post)).takeWhile (· != sep) = a := by
  have all : ∀ c ∈ a, (c != sep) = true := by
    intro c inside
    rw [bne_iff_ne]
    rintro rfl
    exact free inside
  cases post with
  | nil =>
    rwa [join_singleton, takeWhile_eq_self_iff]
  | cons b post =>
    rw [join_cons_cons, takeWhile_append_of_pos all, takeWhile_cons_of_neg (by simp),
      append_nil]

/-- A list around its first separator. -/
theorem split_first {xs : List α} (inside : sep ∈ xs) :
    ∃ rest, xs = xs.takeWhile (· != sep) ++ sep :: rest := by
  induction xs with
  | nil => exact absurd inside not_mem_nil
  | cons c xs ih =>
    by_cases same : c = sep
    · exact ⟨xs, by simp [same]⟩
    · obtain ⟨rest, split⟩ := ih (mem_of_ne_of_mem (Ne.symm same) inside)
      refine ⟨rest, ?_⟩
      rw [takeWhile_cons_of_pos (by simpa using same), cons_append, ← split]

theorem not_mem_takeWhile (xs : List α) : sep ∉ xs.takeWhile (· != sep) := by
  intro inside
  simpa using mem_takeWhile_imp inside

/-- The parts of a list. Behind a separator at the end there is no further part. -/
def split (sep : α) (xs : List α) : List (List α) :=
  if (xs.splitOn sep).getLast?.any List.isEmpty then (xs.splitOn sep).dropLast else xs.splitOn sep

omit [LawfulBEq α] in
@[simp] theorem split_nil : split sep [] = [] := by simp [split]

theorem split_append_cons (free : sep ∉ a) (rest : List α) :
    split sep (a ++ sep :: rest) = a :: split sep rest := by
  have parts : (a ++ sep :: rest).splitOn sep = a :: rest.splitOn sep := by
    rw [splitOn_append_cons_self, splitOn_eq_singleton free]
    rfl
  obtain ⟨c, cs, shape⟩ := exists_cons_of_ne_nil (splitOn_ne_nil sep rest)
  rw [split, split, parts, shape, List.getLast?_cons_cons]
  split <;> rfl

/-- The first part and the others. -/
theorem split_of_ne_nil {xs : List α} (some : xs ≠ []) :
    split sep xs = xs.takeWhile (· != sep) ::
      split sep (xs.drop ((xs.takeWhile (· != sep)).length + 1)) := by
  have free : sep ∉ xs.takeWhile (· != sep) := not_mem_takeWhile xs
  by_cases inside : sep ∈ xs
  · obtain ⟨rest, shape⟩ := split_first inside
    generalize xs.takeWhile (· != sep) = pre at *
    subst shape
    rw [split_append_cons free, drop_append, drop_eq_nil_of_le (Nat.le_succ _)]
    simp
  · have whole : xs.takeWhile (· != sep) = xs := by
      have all := takeWhile_join inside []
      rwa [join_singleton] at all
    rw [whole, drop_eq_nil_of_le (Nat.le_succ _), split, splitOn_eq_singleton inside]
    simp [some]

theorem split_eq_nil_iff {xs : List α} : split sep xs = [] ↔ xs = [] := by
  constructor
  · intro none
    by_contra some
    rw [split_of_ne_nil some] at none
    exact cons_ne_nil _ _ none
  · rintro rfl
    exact split_nil

/-- There are no more parts than elements. -/
theorem length_split_le (xs : List α) : (split sep xs).length ≤ xs.length := by
  induction size : xs.length using Nat.strong_induction_on generalizing xs with
  | _ n ih =>
    by_cases some : xs = []
    · simp [some]
    · have pos : 0 < xs.length := List.length_pos_iff.mpr some
      rw [split_of_ne_nil some, length_cons]
      have rest := ih _ (by rw [length_drop]; omega)
        (xs.drop ((xs.takeWhile (· != sep)).length + 1)) rfl
      rw [length_drop] at rest
      omega

/-- The parts of joined parts, of which the last is not empty. -/
theorem split_join (free : ∀ a ∈ pre, sep ∉ a) (freeLast : sep ∉ b) (some : b ≠ []) :
    split sep (join sep (pre ++ [b])) = pre ++ [b] := by
  induction pre with
  | nil => rw [nil_append, join_singleton, split, splitOn_eq_singleton freeLast]; simp [some]
  | cons a pre ih =>
    obtain ⟨c, cs, shape⟩ : ∃ c cs, pre ++ [b] = c :: cs :=
      exists_cons_of_ne_nil (append_ne_nil_of_right_ne_nil _ (cons_ne_nil _ _))
    have rest := ih fun c member => free c (mem_cons_of_mem a member)
    rw [cons_append, shape, join_cons_cons, split_append_cons (free a mem_cons_self),
      ← shape, rest]

/-! ## Parts that are not empty -/

/-- The parts that are not empty: the longest pieces without a separator. -/
def pieces (sep : α) (xs : List α) : List (List α) := (xs.splitOn sep).filter fun a => !a.isEmpty

omit [LawfulBEq α] in
@[simp] theorem pieces_nil : pieces sep [] = [] := by simp [pieces]

@[simp] theorem pieces_cons_self (rest : List α) : pieces sep (sep :: rest) = pieces sep rest := by
  have first := splitOn_append_cons_self [] rest (a := sep)
  rw [nil_append] at first
  simp [pieces, first]

/-- Separators in front do not matter. -/
theorem pieces_dropWhile (xs : List α) : pieces sep (xs.dropWhile (· == sep)) = pieces sep xs := by
  induction xs with
  | nil => rfl
  | cons c xs ih =>
    by_cases same : c = sep
    · subst same
      rw [dropWhile_cons_of_pos (by simp), ih, pieces_cons_self]
    · rw [dropWhile_cons_of_neg (by simpa using same)]

/-- A piece goes up to the next separator. -/
theorem pieces_of_ne_nil {xs : List α} (some : xs.takeWhile (· != sep) ≠ []) :
    pieces sep xs = xs.takeWhile (· != sep) :: pieces sep (xs.dropWhile (· != sep)) := by
  have free : sep ∉ xs.takeWhile (· != sep) := not_mem_takeWhile xs
  have kept : [xs.takeWhile (· != sep)].filter (fun a => !a.isEmpty) =
      [xs.takeWhile (· != sep)] := by
    simpa using some
  have whole : xs.takeWhile (· != sep) ++ xs.dropWhile (· != sep) = xs :=
    takeWhile_append_dropWhile
  rcases shape : xs.dropWhile (· != sep) with _ | ⟨c, rest⟩
  · rw [shape, append_nil] at whole
    rw [whole] at free kept ⊢
    rw [pieces, splitOn_eq_singleton free, pieces_nil, kept]
  · obtain rfl : c = sep := by
      have stops := List.head?_dropWhile_not (· != sep) xs
      simpa [shape] using stops
    generalize xs.takeWhile (· != c) = a at *
    rw [shape] at whole
    subst whole
    rw [pieces, splitOn_append_cons_self, splitOn_eq_singleton free, filter_append,
      kept, pieces_cons_self]
    rfl

end Separated
