/-
# `RaftLib.Logic.Lifetime` -- objects constructed and destroyed in places

A memory of places, each raw or with an object in it. `construct` puts a new object into a place,
whatever is there; `destroy` runs a destructor on a place, whether there is an object or not. The
memory keeps the names of the objects destroyed, in order, and counts the destructors run on a raw
place.

`Ledger` is what a program that manages lifetimes should keep: every object made is in exactly one
place or has been destroyed once, never both. Each of the two operations keeps it in exactly one of
its two cases.
-/
import Mathlib.Tactic.Common
import Mathlib.Data.List.Basic
import Mathlib.Logic.Function.Basic

namespace RaftLib.Logic.Lifetime

variable {ι : Type*} [DecidableEq ι]

/-- Places and the objects in them. Objects are named in the order in which they are made. -/
structure Places (ι : Type*) where
  place : ι → Option Nat := fun _ => none
  made : Nat := 0
  destroyed : List Nat := []
  wild : Nat := 0

namespace Places

/-- A constructor call on place `i`. -/
def construct (m : Places ι) (i : ι) : Places ι :=
  { m with place := Function.update m.place i (some m.made), made := m.made + 1 }

/-- A destructor call on place `i`. -/
def destroy (m : Places ι) (i : ι) : Places ι :=
  match m.place i with
  | some o => { m with place := Function.update m.place i none, destroyed := m.destroyed ++ [o] }
  | none => { m with wild := m.wild + 1 }

/-- **The ledger balances.** -/
structure Ledger (m : Places ι) : Prop where
  owned : ∀ o, o < m.made ↔ o ∈ m.destroyed ∨ ∃ i, m.place i = some o
  once : m.destroyed.Nodup
  gone : ∀ o ∈ m.destroyed, ∀ i, m.place i ≠ some o
  apart : ∀ i j o, m.place i = some o → m.place j = some o → i = j
  sound : m.wild = 0

variable {m : Places ι} {i : ι} {o : Nat}

omit [DecidableEq ι] in
theorem ledger_empty : Ledger ({} : Places ι) where
  owned := by simp
  once := List.nodup_nil
  gone := by simp
  apart := by simp
  sound := rfl

omit [DecidableEq ι] in
/-- A new object has a name that no place holds. -/
theorem Ledger.fresh (h : Ledger m) (j : ι) : m.place j ≠ some m.made := by
  intro hj
  exact absurd ((h.owned m.made).mpr (.inr ⟨j, hj⟩)) (Nat.lt_irrefl _)

/-! ## The cases that keep the ledger -/

theorem Ledger.construct (h : Ledger m) (hi : m.place i = none) : Ledger (m.construct i) where
  owned := by
    intro o
    show o < m.made + 1 ↔ o ∈ m.destroyed ∨ ∃ j, Function.update m.place i (some m.made) j = some o
    rw [Nat.lt_succ_iff_lt_or_eq, h.owned]
    constructor
    · rintro ((hd | ⟨j, hj⟩) | rfl)
      · exact .inl hd
      · have hne : j ≠ i := by
          rintro rfl
          rw [hi] at hj
          cases hj
        exact .inr ⟨j, by rw [Function.update_of_ne hne, hj]⟩
      · exact .inr ⟨i, Function.update_self ..⟩
    · rintro (hd | ⟨j, hj⟩)
      · exact .inl (.inl hd)
      · by_cases hne : j = i
        · subst hne
          rw [Function.update_self, Option.some_inj] at hj
          exact .inr hj.symm
        · rw [Function.update_of_ne hne] at hj
          exact .inl (.inr ⟨j, hj⟩)
  once := h.once
  gone := by
    intro o ho j
    have hlt : o < m.made := (h.owned o).mpr (.inl ho)
    show Function.update m.place i (some m.made) j ≠ some o
    by_cases hne : j = i
    · subst hne
      rw [Function.update_self]
      intro heq
      exact absurd (Option.some_inj.mp heq) (Nat.ne_of_gt hlt)
    · rw [Function.update_of_ne hne]
      exact h.gone o ho j
  apart := by
    intro j k o hj hk
    by_cases hji : j = i
    · by_cases hki : k = i
      · rw [hji, hki]
      · subst hji
        simp only [Places.construct, Function.update_self, Function.update_of_ne hki] at hj hk
        exact absurd (hk.trans hj.symm) (h.fresh k)
    · by_cases hki : k = i
      · subst hki
        simp only [Places.construct, Function.update_self, Function.update_of_ne hji] at hj hk
        exact absurd (hj.trans hk.symm) (h.fresh j)
      · simp only [Places.construct, Function.update_of_ne hji, Function.update_of_ne hki] at hj hk
        exact h.apart j k o hj hk
  sound := h.sound

theorem destroy_of_some (hi : m.place i = some o) :
    m.destroy i =
      { m with place := Function.update m.place i none, destroyed := m.destroyed ++ [o] } := by
  simp only [destroy, hi]

theorem destroy_of_none (hi : m.place i = none) : m.destroy i = { m with wild := m.wild + 1 } := by
  simp only [destroy, hi]

theorem Ledger.destroy (h : Ledger m) (hi : m.place i = some o) : Ledger (m.destroy i) := by
  rw [destroy_of_some hi]
  -- in the places that are left there is anything but `o`
  have hleft : ∀ j p, Function.update m.place i none j = some p ↔ m.place j = some p ∧ p ≠ o := by
    intro j p
    by_cases hji : j = i
    · subst hji
      rw [Function.update_self, hi]
      simp [eq_comm]
    · rw [Function.update_of_ne hji]
      constructor
      · intro hj
        refine ⟨hj, ?_⟩
        rintro rfl
        exact hji (h.apart j i p hj hi)
      · exact And.left
  refine ⟨?_, ?_, ?_, ?_, h.sound⟩
  · intro p
    rw [h.owned]
    simp only [List.mem_append, List.mem_singleton, hleft]
    constructor
    · rintro (hd | ⟨j, hj⟩)
      · exact .inl (.inl hd)
      · by_cases hp : p = o
        · exact .inl (.inr hp)
        · exact .inr ⟨j, hj, hp⟩
    · rintro ((hd | rfl) | ⟨j, hj, _⟩)
      · exact .inl hd
      · exact .inr ⟨i, hi⟩
      · exact .inr ⟨j, hj⟩
  · rw [List.nodup_append]
    refine ⟨h.once, by simp, ?_⟩
    intro p hp q hq hpq
    rw [hpq, List.mem_singleton.mp hq] at hp
    exact h.gone o hp i hi
  · intro p hp j hj
    rw [hleft] at hj
    rcases List.mem_append.mp hp with hd | ho
    · exact h.gone p hd j hj.1
    · exact hj.2 (List.mem_singleton.mp ho)
  · intro j k p hj hk
    rw [hleft] at hj hk
    exact h.apart j k p hj.1 hk.1

/-! ## Destroying several -/

/-- Destructor calls on the places of a list. -/
def destroyAll (m : Places ι) (is : List ι) : Places ι := is.foldl destroy m

/-- Destroying objects in different places, one in each. -/
theorem Ledger.destroyAll {is : List ι} (h : Ledger m) (hlive : ∀ i ∈ is, ∃ o, m.place i = some o)
    (hnodup : is.Nodup) :
    Ledger (m.destroyAll is) ∧
      ∀ j, (m.destroyAll is).place j = if j ∈ is then none else m.place j := by
  induction is generalizing m with
  | nil => exact ⟨h, fun j => rfl⟩
  | cons i is ih =>
      obtain ⟨hi, hnodup'⟩ := List.nodup_cons.mp hnodup
      obtain ⟨o, ho⟩ := hlive i (List.mem_cons_self ..)
      have hplace (j : ι) : (m.destroy i).place j = if j = i then none else m.place j := by
        rw [destroy_of_some ho]
        exact Function.update_apply ..
      have hlive' : ∀ j ∈ is, ∃ o, (m.destroy i).place j = some o := by
        intro j hj
        have hne : j ≠ i := by
          rintro rfl
          exact hi hj
        rw [hplace, if_neg hne]
        exact hlive j (List.mem_cons_of_mem i hj)
      obtain ⟨hledger, hrest⟩ := ih (h.destroy ho) hlive' hnodup'
      refine ⟨hledger, fun j => ?_⟩
      show ((m.destroy i).destroyAll is).place j = _
      rw [hrest, hplace]
      by_cases hji : j = i
      · simp [hji]
      · simp [hji]

/-! ## The cases that break it -/

/-- A constructor over an object loses it. -/
theorem Ledger.not_construct (h : Ledger m) (hi : m.place i = some o) : ¬Ledger (m.construct i) := by
  intro h'
  have hmade : o < m.made := (h.owned o).mpr (.inr ⟨i, hi⟩)
  rcases (h'.owned o).mp (Nat.lt_succ_of_lt hmade) with hd | ⟨j, hj⟩
  · exact h.gone o hd i hi
  · by_cases hji : j = i
    · subst hji
      simp only [Places.construct, Function.update_self] at hj
      exact absurd (Option.some_inj.mp hj) (Nat.ne_of_gt hmade)
    · simp only [Places.construct, Function.update_of_ne hji] at hj
      exact hji (h.apart j i o hj hi)

/-- A destructor on a raw place is wild. -/
theorem not_ledger_destroy (hi : m.place i = none) : ¬Ledger (m.destroy i) := by
  intro h'
  have := h'.sound
  rw [destroy_of_none hi] at this
  cases this

end Places

end RaftLib.Logic.Lifetime
