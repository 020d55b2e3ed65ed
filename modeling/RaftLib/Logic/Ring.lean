/-
# `RaftLib.Logic.Ring` -- windows of a circular array

A circular array of `c` slots is addressed by unbounded positions: position `n` lives in slot
`n % c`. The contents between two positions are the window that starts at the first and has their
difference as length. The lemmas say how a window changes when its start or its end moves by one,
and that a write to the slot just behind the end leaves it alone as long as the window is not full.
-/
import Mathlib.Data.List.Basic
import Mathlib.Data.Fin.Basic
import Mathlib.Data.Nat.ModEq
import Mathlib.Tactic.Common
import Mathlib.Logic.Function.Basic

namespace RaftLib.Logic.Ring

variable {α : Type*} {c : Nat} [NeZero c]

/-- The slot of position `n`. -/
def slot (c : Nat) [NeZero c] (n : Nat) : Fin c := Fin.ofNat c n

@[simp] theorem slot_val (n : Nat) : (slot c n : Nat) = n % c := rfl

theorem slot_eq_iff {m n : Nat} : slot c m = slot c n ↔ m % c = n % c := by
  rw [Fin.ext_iff, slot_val, slot_val]

/-- Less than `c` apart, distinct positions occupy distinct slots. -/
theorem slot_ne_of_lt {m n : Nat} (hmn : m < n) (hn : n < m + c) : slot c m ≠ slot c n := by
  rw [Ne, slot_eq_iff]
  intro h
  have hdvd : c ∣ n - m := (Nat.modEq_iff_dvd' hmn.le).mp h
  have := Nat.le_of_dvd (by omega) hdvd
  omega

/-- The `n` entries from position `r` on. -/
def window (f : Fin c → α) (r n : Nat) : List α := (List.range n).map fun i => f (slot c (r + i))

@[simp] theorem window_zero (f : Fin c → α) (r : Nat) : window f r 0 = [] := rfl

@[simp] theorem window_length (f : Fin c → α) (r n : Nat) : (window f r n).length = n := by
  simp [window]

/-- The window that ends one later has one more entry at its end. -/
theorem window_snoc (f : Fin c → α) (r n : Nat) :
    window f r (n + 1) = window f r n ++ [f (slot c (r + n))] := by
  simp [window, List.range_succ]

/-- The window that starts one later lacks the first entry. -/
theorem window_cons (f : Fin c → α) (r n : Nat) :
    window f r (n + 1) = f (slot c r) :: window f (r + 1) n := by
  simp only [window, List.range_succ_eq_map, List.map_cons, List.map_map, Nat.add_zero,
    List.cons.injEq, true_and]
  refine List.map_congr_left fun i _ => ?_
  simp [Nat.add_assoc, Nat.add_comm 1]

/-- A window is cut anywhere into two. -/
theorem window_append (f : Fin c → α) (r m n : Nat) :
    window f r (m + n) = window f r m ++ window f (r + m) n := by
  simp only [window, List.range_add, List.map_append, List.map_map]
  refine congrArg _ (List.map_congr_left fun i _ => ?_)
  simp [Nat.add_assoc]

theorem window_getElem (f : Fin c → α) (r n i : Nat) (h : i < (window f r n).length) :
    (window f r n)[i] = f (slot c (r + i)) := by
  simp [window]

theorem window_congr {f g : Fin c → α} {r n : Nat}
    (h : ∀ i, i < n → f (slot c (r + i)) = g (slot c (r + i))) : window f r n = window g r n :=
  List.map_congr_left fun i hi => h i (List.mem_range.mp hi)

/-- Windows of two circular arrays, of whatever sizes, agree exactly if they agree entry by entry. -/
theorem window_eq_iff {d : Nat} [NeZero d] {f : Fin c → α} {g : Fin d → α} {r s n : Nat} :
    window f r n = window g s n ↔ ∀ i, i < n → f (slot c (r + i)) = g (slot d (s + i)) := by
  simp [window, List.map_inj_left]

/-- A write to the slot just behind a window that is not full leaves the window as it was. -/
theorem window_update {f : Fin c → α} {r n : Nat} (hn : n < c) (v : α) :
    window (Function.update f (slot c (r + n)) v) r n = window f r n := by
  refine window_congr fun i hi => Function.update_of_ne ?_ _ _
  exact slot_ne_of_lt (by omega) (by omega)

/-- Writing behind a window and then taking one more entry appends what was written. -/
theorem window_update_snoc {f : Fin c → α} {r n : Nat} (hn : n < c) (v : α) :
    window (Function.update f (slot c (r + n)) v) r (n + 1) = window f r n ++ [v] := by
  rw [window_snoc, window_update hn, Function.update_self]

end RaftLib.Logic.Ring
