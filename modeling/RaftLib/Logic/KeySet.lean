/-
# `RaftLib.Logic.KeySet` -- ordered sets of keys, and walking two of them side by side

An ordered set as its list of elements, which increases strictly. `unmatched` walks through one set
next to another one and collects what the second has not; it stands on the next element of the first
without asking whether there is one, so it needs the second to be part of the first
(`unmatched_defined_iff`). Then it finds the difference of the two (`unmatched_of_subset`).
-/
import Mathlib.Order.Lattice
import Mathlib.Data.List.Basic

namespace RaftLib.Logic.KeySet

/-- A strictly increasing list. -/
structure Keys (α : Type*) [LinearOrder α] where
  list : List α
  sorted : list.Pairwise (· < ·)

variable {α : Type*} [LinearOrder α]

/-! ## Inserting -/

/-- Put `x` in its place, unless it is there. -/
def insertList (x : α) : List α → List α
  | [] => [x]
  | y :: ys => if x < y then x :: y :: ys else if x = y then y :: ys else y :: insertList x ys

theorem mem_insertList (x y : α) (l : List α) : y ∈ insertList x l ↔ y = x ∨ y ∈ l := by
  induction l with
  | nil => simp [insertList]
  | cons z zs ih =>
      unfold insertList
      split
      · simp
      · split
        · next heq => simp [heq]
        · rw [List.mem_cons, ih, List.mem_cons]
          exact or_left_comm

theorem sorted_insertList (x : α) (l : List α) (h : l.Pairwise (· < ·)) :
    (insertList x l).Pairwise (· < ·) := by
  induction l with
  | nil => exact List.pairwise_singleton ..
  | cons z zs ih =>
      obtain ⟨hz, hzs⟩ := List.pairwise_cons.mp h
      unfold insertList
      split
      · next hlt =>
          refine List.pairwise_cons.mpr ⟨fun y hy => ?_, h⟩
          rcases List.mem_cons.mp hy with rfl | hy
          · exact hlt
          · exact hlt.trans (hz y hy)
      · next hge =>
          split
          · exact h
          · next hne =>
              refine List.pairwise_cons.mpr ⟨fun y hy => ?_, ih hzs⟩
              rcases (mem_insertList x y zs).mp hy with rfl | hy
              · exact lt_of_le_of_ne (not_lt.mp hge) (Ne.symm hne)
              · exact hz y hy

namespace Keys

instance : Membership α (Keys α) := ⟨fun s x => x ∈ s.list⟩

instance (x : α) (s : Keys α) : Decidable (x ∈ s) := inferInstanceAs (Decidable (x ∈ s.list))

def empty : Keys α := ⟨[], List.Pairwise.nil⟩

def insert (x : α) (s : Keys α) : Keys α := ⟨insertList x s.list, sorted_insertList x _ s.sorted⟩

@[simp] theorem mem_insert {x y : α} {s : Keys α} : y ∈ s.insert x ↔ y = x ∨ y ∈ s :=
  mem_insertList x y s.list

@[simp] theorem not_mem_empty (x : α) : x ∉ (empty : Keys α) := List.not_mem_nil

end Keys

/-! ## Walking two sets side by side -/

/-- What of the first list is passed over on the way through the second, and whether the walk looked
for an element of the second behind the end of the first. -/
def unmatched : List α → List α → List α × Bool
  | is, [] => (is, false)
  | [], _ :: _ => ([], true)
  | i :: is, o :: os =>
      if o ≠ i then
        let rest := unmatched is (o :: os)
        (i :: rest.1, rest.2)
      else unmatched is os

/-- One look at the two heads of a set and a part of it. -/
theorem subset_cons_iff {i o : α} {is os : List α} (hi : (i :: is).Pairwise (· < ·))
    (ho : (o :: os).Pairwise (· < ·)) :
    o :: os ⊆ i :: is ↔ if o ≠ i then o :: os ⊆ is else os ⊆ is := by
  obtain ⟨hi', -⟩ := List.pairwise_cons.mp hi
  obtain ⟨ho', -⟩ := List.pairwise_cons.mp ho
  split
  · next hne =>
      constructor
      · intro hsub y hy
        have hmem : o ∈ is := (List.mem_cons.mp (hsub (List.mem_cons_self ..))).resolve_left hne
        -- all of the second set is behind the head of the first
        have hbehind : i < y := by
          rcases List.mem_cons.mp hy with rfl | hy
          · exact hi' y hmem
          · exact (hi' o hmem).trans (ho' y hy)
        exact (List.mem_cons.mp (hsub hy)).resolve_left hbehind.ne'
      · intro hsub y hy
        exact List.mem_cons_of_mem i (hsub hy)
  · next heq =>
      obtain rfl : o = i := not_not.mp heq
      constructor
      · intro hsub y hy
        exact (List.mem_cons.mp (hsub (List.mem_cons_of_mem o hy))).resolve_left (ho' y hy).ne'
      · intro hsub y hy
        rcases List.mem_cons.mp hy with rfl | hy
        · exact List.mem_cons_self ..
        · exact List.mem_cons_of_mem o (hsub hy)

/-- **The walk stays inside** exactly if the second set is part of the first. -/
theorem unmatched_defined_iff (is os : List α) (hi : is.Pairwise (· < ·))
    (ho : os.Pairwise (· < ·)) : (unmatched is os).2 = false ↔ os ⊆ is := by
  induction is, os using unmatched.induct with
  | case1 is => simp [unmatched]
  | case2 o os => simp [unmatched]
  | case3 i is o os hne ih =>
      rw [subset_cons_iff hi ho, if_pos hne, unmatched, if_pos hne]
      exact ih (List.pairwise_cons.mp hi).2 ho
  | case4 i is o os heq ih =>
      rw [subset_cons_iff hi ho, if_neg heq, unmatched, if_neg heq]
      exact ih (List.pairwise_cons.mp hi).2 (List.pairwise_cons.mp ho).2

/-- **The walk finds the difference.** -/
theorem unmatched_of_subset (is os : List α) (hi : is.Pairwise (· < ·)) (ho : os.Pairwise (· < ·))
    (hsub : os ⊆ is) : (unmatched is os).1 = is.filter (· ∉ os) := by
  induction is, os using unmatched.induct with
  | case1 is => simp [unmatched]
  | case2 o os => exact absurd (hsub (List.mem_cons_self ..)) List.not_mem_nil
  | case3 i is o os hne ih =>
      rw [subset_cons_iff hi ho, if_pos hne] at hsub
      obtain ⟨hi', his⟩ := List.pairwise_cons.mp hi
      have hout : i ∉ o :: os := fun hmem => lt_irrefl i (hi' i (hsub hmem))
      rw [unmatched, if_pos hne, List.filter_cons_of_pos (by simpa using hout), ← ih his ho hsub]
  | case4 i is o os heq ih =>
      rw [subset_cons_iff hi ho, if_neg heq] at hsub
      obtain rfl : o = i := not_not.mp heq
      obtain ⟨ho', hos⟩ := List.pairwise_cons.mp ho
      obtain ⟨hi', his⟩ := List.pairwise_cons.mp hi
      rw [unmatched, if_neg heq, List.filter_cons_of_neg (by simp), ih his hos hsub]
      refine List.filter_congr fun y hy => ?_
      have hne : y ≠ o := (hi' y hy).ne'
      simp [hne]

end RaftLib.Logic.KeySet
