import Mathlib.Data.List.Chain
import Mathlib.Data.List.Nodup

/-!
# Doubly linked cycles

A list through `next` and `prev` that begins and ends at a head. `Cycle l head order` says that
the pointers run through `order` and back to the head, in both directions. Taking out a node
(`Cycle.unlink`) and putting one in after the head (`Cycle.insertFront`) are the usual pointer
assignments in the usual order, and a walk along the pointers is a search in the list
(`Cycle.scan_next`, `Cycle.scan_prev`).
-/

namespace LinkedCycle

open List

variable {α : Type*}

/-- The pointers of the nodes. -/
structure Links (α : Type*) where
  next : α → α
  prev : α → α

namespace Links

/-- The pointers run through the list, in both directions. -/
def Linked (l : Links α) (nodes : List α) : Prop :=
  nodes.IsChain fun a b => l.next a = b ∧ l.prev b = a

/-- The pointers run from the head through the list and back to the head. -/
structure Cycle (l : Links α) (head : α) (order : List α) : Prop where
  nodup : (head :: order).Nodup
  linked : l.Linked (head :: order ++ [head])

/-- Look at the nodes one after the other until the head comes. -/
def scan [DecidableEq α] (step : α → α) (head : α) (p : α → Bool) : ℕ → α → Option α
  | 0, _ => none
  | k + 1, a => if a = head then none else if p a then some a else scan step head p k (step a)

variable {l l' : Links α} {head b : α} {order xs ys nodes : List α}

/-- Only the pointers between the nodes matter. -/
theorem Linked.congr (linked : l.Linked nodes) (next : ∀ a ∈ nodes.dropLast, l'.next a = l.next a)
    (prev : ∀ a ∈ nodes.tail, l'.prev a = l.prev a) : l'.Linked nodes := by
  induction nodes with
  | nil => exact .nil
  | cons a rest ih =>
    cases rest with
    | nil => exact .singleton a
    | cons c rest =>
      obtain ⟨joined, linked⟩ := List.isChain_cons_cons.mp linked
      refine List.isChain_cons_cons.mpr ⟨?_, ih linked (fun d member => ?_) fun d member => ?_⟩
      · rwa [next a (by simp), prev c (by simp)]
      · exact next d (by simp [member])
      · exact prev d (mem_cons_of_mem c member)

theorem Linked.reverse (linked : l.Linked nodes) : Linked ⟨l.prev, l.next⟩ nodes.reverse := by
  rw [Linked, isChain_reverse]
  exact linked.imp fun _ _ joined => ⟨joined.2, joined.1⟩

/-! ## Walks -/

section Walks

variable [DecidableEq α]

theorem scan_of_linked {p : α → Bool} {a : α} {k : ℕ} (linked : l.Linked (a :: order ++ [head]))
    (apart : head ∉ order) (enough : order.length < k) :
    scan l.next head p k (l.next a) = order.find? p := by
  induction order generalizing a k with
  | nil =>
    obtain ⟨k, rfl⟩ := Nat.exists_eq_add_of_lt enough
    have joined := (List.isChain_cons_cons.mp linked).1
    rw [scan, if_pos joined.1]
    rfl
  | cons c rest ih =>
    obtain ⟨k, rfl⟩ := Nat.exists_eq_add_of_lt enough
    obtain ⟨joined, linked⟩ := List.isChain_cons_cons.mp linked
    have other : c ≠ head := fun same => apart (by simp [same])
    rw [scan, joined.1, if_neg other, List.find?_cons]
    cases p c with
    | true => rfl
    | false =>
      exact ih linked (fun member => apart (mem_cons_of_mem c member)) (by simp; omega)

/-- A walk along `next` is a search from the front. -/
theorem Cycle.scan_next (cycle : l.Cycle head order) (p : α → Bool) {k : ℕ}
    (enough : order.length < k) : scan l.next head p k (l.next head) = order.find? p :=
  scan_of_linked cycle.linked (List.nodup_cons.mp cycle.nodup).1 enough

/-- A walk along `prev` is a search from the back. -/
theorem Cycle.scan_prev (cycle : l.Cycle head order) (p : α → Bool) {k : ℕ}
    (enough : order.length < k) : scan l.prev head p k (l.prev head) = order.reverse.find? p := by
  have back : Linked ⟨l.prev, l.next⟩ (head :: order.reverse ++ [head]) := by
    have reversed := cycle.linked.reverse
    simpa using reversed
  exact scan_of_linked back (by simpa using (List.nodup_cons.mp cycle.nodup).1) (by simpa)

end Walks

/-! ## Changes -/

section Changes

variable [DecidableEq α]

def setNext (l : Links α) (a b : α) : Links α := { l with next := Function.update l.next a b }

def setPrev (l : Links α) (a b : α) : Links α := { l with prev := Function.update l.prev a b }

/-- Take a node out: the next one points back to the previous one, and the previous one to the
next. -/
def unlink (l : Links α) (b : α) : Links α :=
  let l := l.setPrev (l.next b) (l.prev b)
  l.setNext (l.prev b) (l.next b)

/-- Put a node in after the head. -/
def insertFront (l : Links α) (head b : α) : Links α :=
  let l := l.setNext b (l.next head)
  let l := l.setPrev b head
  let l := l.setPrev (l.next head) b
  l.setNext head b

/-- Make two nodes neighbours. -/
def joinNodes (l : Links α) (p n : α) : Links α := (l.setPrev n p).setNext p n

/-- **Two lists are joined** by making the last node of the first and the first node of the second
neighbours. -/
theorem Linked.join {front back : List α} {p n : α} (first : l.Linked (front ++ [p]))
    (second : l.Linked (n :: back)) (apartP : p ∉ front) (apartN : n ∉ back)
    (apart : n ∉ (front ++ [p]).tail) (apart' : p ∉ (n :: back).dropLast) :
    (l.joinNodes p n).Linked (front ++ p :: n :: back) := by
  refine List.isChain_append_cons_cons.mpr ⟨first.congr (fun a member => ?_) fun a member => ?_,
    ⟨Function.update_self .., Function.update_self ..⟩,
    second.congr (fun a member => ?_) fun a member => ?_⟩
  · rw [dropLast_concat] at member
    exact Function.update_of_ne (ne_of_mem_of_not_mem member apartP) ..
  · exact Function.update_of_ne (ne_of_mem_of_not_mem member apart) ..
  · exact Function.update_of_ne (ne_of_mem_of_not_mem member apart') ..
  · exact Function.update_of_ne (ne_of_mem_of_not_mem member apartN) ..

/-- Taking a node out makes its neighbours neighbours. -/
theorem unlink_eq {p n : α} (toB : l.next p = b ∧ l.prev b = p) (fromB : l.next b = n ∧ l.prev n = b)
    (other : n ≠ b) : l.unlink b = l.joinNodes p n := by
  have back : (l.setPrev n p).prev b = p := (Function.update_of_ne other.symm ..).trans toB.2
  have forth : (l.setPrev n p).next b = n := fromB.1
  simp only [unlink, fromB.1, toB.2, back, forth, joinNodes]

/-- **A node is taken out.** -/
theorem Cycle.unlink (cycle : l.Cycle head (xs ++ b :: ys)) :
    (l.unlink b).Cycle head (xs ++ ys) := by
  have whole : (b :: (head :: xs ++ ys)).Nodup := by
    have nodup := cycle.nodup
    rwa [← cons_append, nodup_middle] at nodup
  have nodup : (head :: xs ++ ys).Nodup := (List.nodup_cons.mp whole).2
  obtain ⟨nodupXs, nodupYs, apart⟩ := List.nodup_append.mp nodup
  have headXs := (List.nodup_cons.mp nodupXs).1
  have headYs : head ∉ ys := fun member => apart head (by simp) head member rfl
  -- the node before and the node after
  obtain ⟨front, p, before⟩ : ∃ front p, head :: xs = front ++ [p] :=
    ⟨_, _, (dropLast_append_getLast (cons_ne_nil head xs)).symm⟩
  obtain ⟨n, back, after⟩ : ∃ n back, ys ++ [head] = n :: back :=
    exists_cons_of_ne_nil (by simp)
  have old : head :: (xs ++ b :: ys) ++ [head] = front ++ p :: b :: n :: back := by
    rw [← after, ← cons_append, before]
    simp
  have new : head :: (xs ++ ys) ++ [head] = front ++ p :: n :: back := by
    rw [← cons_append, before, append_assoc, after]
    simp
  have memberP : p ∈ head :: xs := before ▸ by simp
  have memberN : n ∈ ys ++ [head] := after ▸ by simp
  have other : n ≠ b := by
    rintro rfl
    apply (List.nodup_cons.mp whole).1
    simp only [mem_append, mem_singleton] at memberN
    simp only [mem_cons, mem_append]
    tauto
  have linked := cycle.linked
  rw [old] at linked
  obtain ⟨linkedFront, toB, rest⟩ := List.isChain_append_cons_cons.mp linked
  obtain ⟨fromB, linkedBack⟩ := List.isChain_cons_cons.mp rest
  refine ⟨nodup, ?_⟩
  rw [unlink_eq toB fromB other, new]
  refine Linked.join linkedFront linkedBack ?_ ?_ ?_ ?_
  · rw [before] at nodupXs
    exact fun member => (List.nodup_append.mp nodupXs).2.2 p member p (by simp) rfl
  · have nodupBack : (ys ++ [head]).Nodup :=
      List.nodup_append_comm.mp (List.nodup_cons.mpr ⟨headYs, nodupYs⟩)
    rw [after] at nodupBack
    exact (List.nodup_cons.mp nodupBack).1
  · rw [← before]
    obtain inYs | isHead := List.mem_append.mp memberN
    · exact fun inXs => apart n (mem_cons_of_mem _ inXs) n inYs rfl
    · rwa [List.mem_singleton.mp isHead]
  · rw [← after, dropLast_concat]
    exact fun inYs => apart p memberP p inYs rfl

/-- Putting a node in makes it a neighbour of the first node and of the head. -/
theorem insertFront_eq {n : α} (first : l.next head = n) (notHead : b ≠ head) (other : n ≠ b) :
    l.insertFront head b = (l.joinNodes b n).joinNodes head b := by
  simp only [insertFront, joinNodes, setNext, setPrev, first, Links.mk.injEq, true_and,
    Function.update_of_ne notHead.symm]
  exact Function.update_comm other.symm ..

/-- **A node is put in after the head.** -/
theorem Cycle.insertFront (cycle : l.Cycle head order) (new : b ∉ head :: order) :
    (l.insertFront head b).Cycle head (b :: order) := by
  obtain ⟨notHead, notIn⟩ := not_or.mp (List.mem_cons.not.mp new)
  obtain ⟨headOut, nodupOrder⟩ := List.nodup_cons.mp cycle.nodup
  have nodup : (head :: b :: order).Nodup := by
    simp [headOut, nodupOrder, notIn, Ne.symm notHead]
  obtain ⟨n, back, after⟩ : ∃ n back, order ++ [head] = n :: back :=
    exists_cons_of_ne_nil (by simp)
  have nodupBack : (n :: back).Nodup := by
    rw [← after]
    exact List.nodup_append_comm.mp cycle.nodup
  have outside : b ∉ n :: back := by
    rw [← after]
    simp [notIn, notHead]
  have linked := cycle.linked
  rw [cons_append, after] at linked
  obtain ⟨joined, linkedBack⟩ := List.isChain_cons_cons.mp linked
  have other : n ≠ b := fun same => outside (by simp [same])
  have alone : ∀ (l : Links α) (a : α), l.Linked ([] ++ [a]) := fun _ a => .singleton a
  have withB : (l.joinNodes b n).Linked (b :: n :: back) :=
    Linked.join (alone l b) linkedBack (by simp) (List.nodup_cons.mp nodupBack).1
      (by simp) fun member => outside (dropLast_subset _ member)
  have withHead : ((l.joinNodes b n).joinNodes head b).Linked (head :: b :: n :: back) := by
    apply Linked.join (alone _ head) withB (by simp) outside (by simp)
    rw [← after, ← cons_append, dropLast_concat]
    simp [headOut, Ne.symm notHead]
  refine ⟨nodup, ?_⟩
  rwa [insertFront_eq joined.1 notHead other, cons_append, cons_append, after]

end Changes

end Links

end LinkedCycle
