import Mathlib

/-!
# Vectors of bounded capacity

A vector with a fixed capacity refuses what does not fit rather than growing.
The bound is part of the type, so a value that exceeds it cannot be built, and
each operation says what it does when the vector is full: `push` and `insert`
keep what is there.

Two of the operations are less obvious than they look. Removing an element by
moving the last one into its place is a removal up to order only
(`swapRemoveIn_perm`). And a full vector takes in an element in order by
dropping its last one first; that is the same as inserting into a longer list
and cutting it to the capacity (`toList_pop_insert`), which is the form in
which proofs about the `k` nearest want it.
-/

variable {α : Type} {n : ℕ}

/-- A sequence of at most `n` elements. -/
structure BoundedVec (α : Type) (n : ℕ) where
  /-- The elements, in order. -/
  toList : List α
  /-- There is room for all of them. -/
  length_le : toList.length ≤ n
deriving DecidableEq

namespace BoundedVec

/-- The empty vector. -/
def new : BoundedVec α n := ⟨[], Nat.zero_le n⟩

/-- Whether no further element fits. -/
def isFull (v : BoundedVec α n) : Bool := v.toList.length == n

/-- Append an element; a full vector keeps what it has. -/
def push (v : BoundedVec α n) (a : α) : BoundedVec α n :=
  if h : v.toList.length < n then
    ⟨v.toList ++ [a], by rw [List.length_append, List.length_singleton]; omega⟩
  else v

/-- Put an element at a position, moving the ones from there on back by
one; a full vector keeps what it has. -/
def insert (v : BoundedVec α n) (pos : ℕ) (a : α) : BoundedVec α n :=
  if h : v.toList.length < n then
    ⟨v.toList.insertIdx pos a, (List.length_insertIdx_le_succ ..).trans h⟩
  else v

/-- Drop the last element. -/
def pop (v : BoundedVec α n) : BoundedVec α n :=
  ⟨v.toList.dropLast, by rw [List.length_dropLast]; exact (Nat.sub_le _ _).trans v.length_le⟩

/-- Remove the element at a position, moving the ones after it up by one. -/
def remove (v : BoundedVec α n) (i : ℕ) : BoundedVec α n :=
  ⟨v.toList.eraseIdx i, (List.length_eraseIdx_le ..).trans v.length_le⟩

/-- Remove the element of a list at a position, filling the gap with the
last one. -/
def swapRemoveIn (l : List α) (i : ℕ) : List α :=
  match l.getLast? with
  | some last => (l.set i last).dropLast
  | none => []

theorem length_swapRemoveIn_le (l : List α) (i : ℕ) :
    (swapRemoveIn l i).length ≤ l.length := by
  unfold swapRemoveIn
  split
  · rw [List.length_dropLast, List.length_set]
    exact Nat.sub_le _ _
  · exact Nat.zero_le _

/-- **Filling a gap with the last element is a removal**, up to order. If the
gap is at the end the last element is dropped with it; otherwise it is counted
once at the gap and no longer at the end. -/
theorem swapRemoveIn_perm {l : List α} {i : ℕ} (hi : i < l.length) :
    (swapRemoveIn l i).Perm (l.eraseIdx i) := by
  obtain rfl | ⟨l, last, rfl⟩ := List.eq_nil_or_concat l
  · exact absurd hi (Nat.not_lt_zero i)
  · rw [List.concat_eq_append] at hi ⊢
    unfold swapRemoveIn
    simp only [List.getLast?_concat, List.set_append]
    by_cases hlt : i < l.length
    · rw [if_pos hlt, List.dropLast_concat, List.eraseIdx_append_of_lt_length hlt,
        List.set_eq_take_append_cons_drop, if_pos hlt, List.eraseIdx_eq_take_drop_succ,
        List.append_assoc]
      exact (List.perm_append_singleton _ _).symm.append_left _
    · have hlast : i = l.length := by
        rw [List.length_append, List.length_singleton] at hi
        omega
      rw [if_neg hlt, hlast, Nat.sub_self]
      show ((l ++ [last]).dropLast).Perm _
      rw [List.dropLast_concat, List.eraseIdx_append_of_length_le le_rfl, Nat.sub_self]
      show l.Perm (l ++ [])
      rw [List.append_nil]

/-- Remove the element at a position, filling the gap with the last one. -/
def swapRemove (v : BoundedVec α n) (i : ℕ) : BoundedVec α n :=
  ⟨swapRemoveIn v.toList i, (length_swapRemoveIn_le v.toList i).trans v.length_le⟩

/-- Change the first element of a list a test accepts. -/
def modifyFirstIn (p : α → Bool) (g : α → α) : List α → List α
  | [] => []
  | a :: l => if p a then g a :: l else a :: modifyFirstIn p g l

theorem length_modifyFirstIn (p : α → Bool) (g : α → α) (l : List α) :
    (modifyFirstIn p g l).length = l.length := by
  induction l with
  | nil => rfl
  | cons a l ih =>
    unfold modifyFirstIn
    split
    · rfl
    · rw [List.length_cons, List.length_cons, ih]

/-- A change that leaves every accepted element as it is. -/
theorem modifyFirstIn_eq_self {p : α → Bool} {g : α → α} {l : List α}
    (h : ∀ a ∈ l, p a = true → g a = a) : modifyFirstIn p g l = l := by
  induction l with
  | nil => rfl
  | cons a l ih =>
    unfold modifyFirstIn
    split
    · next hp => rw [h a List.mem_cons_self hp]
    · rw [ih fun x hx => h x (List.mem_cons_of_mem a hx)]

/-- Change the first element a test accepts. -/
def modifyFirst (v : BoundedVec α n) (p : α → Bool) (g : α → α) : BoundedVec α n :=
  ⟨modifyFirstIn p g v.toList, by rw [length_modifyFirstIn]; exact v.length_le⟩

theorem isFull_iff (v : BoundedVec α n) : v.isFull = true ↔ v.toList.length = n := by
  simp [isFull]

/-- What a push leaves, where there is room. -/
theorem toList_push_of_lt {v : BoundedVec α n} (h : v.toList.length < n) (a : α) :
    (v.push a).toList = v.toList ++ [a] := by
  unfold push
  rw [dif_pos h]

/-- A full vector refuses. -/
theorem push_of_full {v : BoundedVec α n} (h : v.toList.length = n) (a : α) :
    v.push a = v := by
  unfold push
  rw [dif_neg (by omega)]

/-- What an insertion leaves, where there is room. -/
theorem toList_insert_of_lt {v : BoundedVec α n} (h : v.toList.length < n) (pos : ℕ)
    (a : α) : (v.insert pos a).toList = v.toList.insertIdx pos a := by
  unfold insert
  rw [dif_pos h]

/-- Dropping the last element first makes room for an insertion before it. -/
theorem insertIdx_dropLast (a : α) :
    ∀ {l : List α} {pos : ℕ}, pos < l.length →
      l.dropLast.insertIdx pos a = (l.insertIdx pos a).take l.length
  | [], _, h => absurd h (Nat.not_lt_zero _)
  | b :: l, 0, _ => by
    rw [List.dropLast_eq_take, List.insertIdx_zero, List.insertIdx_zero, List.length_cons,
      List.take_succ_cons, Nat.add_sub_cancel]
  | [_], pos + 1, h => absurd (Nat.lt_of_succ_lt_succ h) (Nat.not_lt_zero pos)
  | b :: c :: l, pos + 1, h => by
    rw [List.dropLast_cons_cons, List.insertIdx_succ_cons, List.insertIdx_succ_cons,
      List.length_cons, List.take_succ_cons,
      insertIdx_dropLast a (Nat.lt_of_succ_lt_succ h)]

/-- **Replacing the last element of a full vector by an insertion before it**
is inserting and dropping what exceeds the capacity. It has to be before the
last: an insertion at the end would be dropped again, and the last element with
it. -/
theorem toList_pop_insert {v : BoundedVec α n} (hfull : v.toList.length = n) {pos : ℕ}
    (hpos : pos < n) (a : α) :
    (v.pop.insert pos a).toList = (v.toList.insertIdx pos a).take n := by
  have hroom : v.pop.toList.length < n := by
    show v.toList.dropLast.length < n
    rw [List.length_dropLast]
    omega
  have hcut := insertIdx_dropLast a (hpos.trans_eq hfull.symm)
  rw [hfull] at hcut
  rw [toList_insert_of_lt hroom]
  exact hcut

end BoundedVec
