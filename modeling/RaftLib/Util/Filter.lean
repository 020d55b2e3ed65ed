/-
# `RaftLib.Util.Filter` -- the one-dimensional filter (`filter.tcc`)

`filterbase::apply` slides a window over a container and appends, for each place of the window, the
sum of the products with the coefficients. Arithmetic is exact, in any commutative semiring, where
the code also instantiates `D` with floating point. An iterator is its offset from `c.begin()`; each
read of the container or of the coefficients is checked, so that a loop that leaves either of them
is seen to.

The window is centred: it starts `RADIUS` before its centre. Its end is computed from the centre as
if it started there, `2 * RADIUS + 1` further on, so that it is `3 * RADIUS + 1` long.
-/
import Mathlib.Algebra.BigOperators.Fin

namespace RaftLib.Util

/-- What ends a call of `apply` before it returns: `exit( 0 )`, or a read at an index that the
container or the array of coefficients does not have. -/
inductive FilterStop
  | exited
  | input (it : Nat)
  | coefficient (index : Nat)
  deriving DecidableEq, Repr

section ReadAt

variable {α : Type*} {m : Nat}

/-- `xs[ i ]`, or `stop i` where there is no such entry. -/
def readAt (xs : Vector α m) (stop : Nat → FilterStop) (i : Nat) : Except FilterStop α :=
  if h : i < m then .ok (xs.get ⟨i, h⟩) else .error (stop i)

theorem readAt_of_lt (xs : Vector α m) (stop : Nat → FilterStop) {i : Nat} (h : i < m) :
    readAt xs stop i = .ok (xs.get ⟨i, h⟩) := dif_pos h

theorem readAt_of_le (xs : Vector α m) (stop : Nat → FilterStop) {i : Nat} (h : m ≤ i) :
    readAt xs stop i = .error (stop i) := dif_neg (Nat.not_lt.mpr h)

end ReadAt

/-- `filterbase< D, RADIUS >`. -/
structure Filterbase (D : Type*) (RADIUS : Nat) where
  arr : Vector D (RADIUS * 2 + 1)

namespace Filterbase

variable {D : Type*} [CommSemiring D] {RADIUS n : Nat}

/-- The inner loop with `left` steps to go: `value += ( *it ) * arr[ index ]`. -/
def innerLoop (f : Filterbase D RADIUS) (c : Vector D n) :
    (left it index : Nat) → (value : D) → Except FilterStop D
  | 0, _, _, value => .ok value
  | left + 1, it, index, value => do
    let x ← readAt c .input it
    let w ← readAt f.arr .coefficient index
    f.innerLoop c left (it + 1) (index + 1) (value + x * w)

/-- The inner loop as it is entered: from `it_center - RADIUS` until
`it_center + ( RADIUS * 2 + 1 )`. -/
def valueAt (f : Filterbase D RADIUS) (c : Vector D n) (itCenter : Nat) : Except FilterStop D :=
  f.innerLoop c ((itCenter + (RADIUS * 2 + 1)) - (itCenter - RADIUS)) (itCenter - RADIUS) 0 0

/-- The outer loop with `left` centres to go. -/
def outerLoop (f : Filterbase D RADIUS) (c : Vector D n) :
    (left itCenter : Nat) → (output : List D) → Except FilterStop (List D)
  | 0, _, output => .ok output
  | left + 1, itCenter, output => do
    let value ← f.valueAt c itCenter
    f.outerLoop c left (itCenter + 1) (output ++ [value])

/-- `apply( c, output )`: the centres run from `c.begin() + RADIUS` until `c.end() - RADIUS`. -/
def apply (f : Filterbase D RADIUS) (c : Vector D n) (output : List D) :
    Except FilterStop (List D) :=
  if n < RADIUS * 2 + 1 then .error .exited
  else f.outerLoop c ((n - RADIUS) - RADIUS) RADIUS output

/-! ## The convolution -/

theorem window_lt (i : Fin (n - RADIUS * 2)) (j : Fin (RADIUS * 2 + 1)) : (i : Nat) + j < n := by
  have hi := i.isLt
  have hj := j.isLt
  omega

/-- What a filter of this radius is to give: one entry for each whole window, starting at index
`RADIUS` with respect to the input. -/
def convolution (f : Filterbase D RADIUS) (c : Vector D n) : List D :=
  List.ofFn fun i : Fin (n - RADIUS * 2) =>
    ∑ j : Fin (RADIUS * 2 + 1), f.arr.get j * c.get ⟨i + j, window_lt i j⟩

theorem length_convolution (f : Filterbase D RADIUS) (c : Vector D n) :
    (f.convolution c).length = n - RADIUS * 2 := List.length_ofFn

/-! ## What the inner loop does -/

/-- The loop may be cut anywhere. -/
theorem innerLoop_add (f : Filterbase D RADIUS) (c : Vector D n) (k m it index : Nat) (value : D) :
    f.innerLoop c (k + m) it index value =
      f.innerLoop c k it index value >>= f.innerLoop c m (it + k) (index + k) := by
  induction k generalizing it index value with
  | zero => simp only [Nat.zero_add, Nat.add_zero, innerLoop]; rfl
  | succ k ih =>
    have hit : it + 1 + k = it + (k + 1) := by omega
    have hindex : index + 1 + k = index + (k + 1) := by omega
    rw [Nat.add_right_comm]
    simp only [innerLoop, bind_assoc, ih, hit, hindex]

/-- As long as it stays inside both arrays, it adds up the products. -/
theorem innerLoop_eq_sum (f : Filterbase D RADIUS) (c : Vector D n) (k it index : Nat) (value : D)
    (hit : it + k ≤ n) (hindex : index + k ≤ RADIUS * 2 + 1) :
    f.innerLoop c k it index value = .ok (value + ∑ j : Fin k,
      f.arr.get ⟨index + j, by omega⟩ * c.get ⟨it + j, by omega⟩) := by
  induction k generalizing it index value with
  | zero => simp [innerLoop]
  | succ k ih =>
    have hx := readAt_of_lt c .input (show it < n by omega)
    have hw := readAt_of_lt f.arr .coefficient (show index < RADIUS * 2 + 1 by omega)
    simp only [innerLoop, hx, hw]
    change f.innerLoop c k (it + 1) (index + 1) _ = _
    rw [ih (it + 1) (index + 1) _ (by omega) (by omega), Fin.sum_univ_succ, ← add_assoc]
    congr 2
    · rw [mul_comm]
      rfl
    · refine Finset.sum_congr rfl fun j _ => ?_
      congr 2 <;> simp only [Fin.val_succ, Fin.mk.injEq] <;> omega

/-- A window that goes on beyond the coefficients, or beyond the input if that ends sooner, is left
at the first index that one of them lacks. -/
theorem innerLoop_overrun (f : Filterbase D RADIUS) (c : Vector D n) (left it : Nat)
    (hit : it + (RADIUS * 2 + 1) ≤ n) (hleft : RADIUS * 2 + 1 < left) :
    f.innerLoop c left it 0 0 =
      .error (if it + (RADIUS * 2 + 1) = n then .input n else .coefficient (RADIUS * 2 + 1)) := by
  obtain ⟨m, rfl⟩ : ∃ m, left = RADIUS * 2 + 1 + (m + 1) := ⟨left - (RADIUS * 2 + 1) - 1, by omega⟩
  obtain ⟨value, hvalue⟩ : ∃ value, f.innerLoop c (RADIUS * 2 + 1) it 0 0 = .ok value :=
    ⟨_, f.innerLoop_eq_sum c _ it 0 0 hit (by omega)⟩
  rw [innerLoop_add, hvalue, Nat.zero_add]
  -- all coefficients are used up and there is a step to go
  change f.innerLoop c (m + 1) (it + (RADIUS * 2 + 1)) (RADIUS * 2 + 1) value = _
  by_cases hend : it + (RADIUS * 2 + 1) = n
  · rw [if_pos hend, innerLoop, readAt_of_le c _ hend.ge, hend]
    rfl
  · rw [if_neg hend, innerLoop, readAt_of_lt c _ (by omega), readAt_of_le f.arr _ le_rfl]
    rfl

/-! ## The whole call -/

/-- The outer loop appends what its windows give. -/
theorem outerLoop_eq_ofFn (f : Filterbase D RADIUS) (c : Vector D n) (left itCenter : Nat)
    (output : List D) (v : Fin left → D)
    (hv : ∀ i : Fin left, f.valueAt c (itCenter + i) = .ok (v i)) :
    f.outerLoop c left itCenter output = .ok (output ++ List.ofFn v) := by
  induction left generalizing itCenter output with
  | zero => simp [outerLoop]
  | succ left ih =>
    have hfirst : f.valueAt c itCenter = .ok (v 0) := hv 0
    have hrest : ∀ i : Fin left, f.valueAt c (itCenter + 1 + i) = .ok (v i.succ) := by
      intro i
      rw [← hv i.succ, Fin.val_succ, Nat.add_assoc, Nat.add_comm 1]
    simp only [outerLoop, hfirst]
    change f.outerLoop c left (itCenter + 1) (output ++ [v 0]) = _
    rw [ih _ _ _ hrest, List.ofFn_succ, List.append_assoc]
    rfl

/-- With a single coefficient centre and start of the window are the same. -/
theorem apply_of_radius_zero (f : Filterbase D 0) (c : Vector D n) (output : List D) (hn : 0 < n) :
    f.apply c output = .ok (output ++ f.convolution c) := by
  rw [apply, if_neg (by omega)]
  apply f.outerLoop_eq_ofFn c
  intro i
  have hi : (i : Nat) < n := by have := i.isLt; omega
  have hlen : (0 + (i : Nat) + (0 * 2 + 1)) - (0 + (i : Nat) - 0) = 1 := by omega
  rw [valueAt, hlen, f.innerLoop_eq_sum c 1 _ 0 0 (by omega) (by omega), zero_add]
  simp

/-- With more the first window is left already. -/
theorem apply_overrun (f : Filterbase D RADIUS) (c : Vector D n) (output : List D)
    (hn : RADIUS * 2 + 1 ≤ n) (hr : 0 < RADIUS) :
    f.apply c output =
      .error (if RADIUS * 2 + 1 = n then .input n else .coefficient (RADIUS * 2 + 1)) := by
  obtain ⟨left, hleft⟩ : ∃ left, n - RADIUS - RADIUS = left + 1 :=
    ⟨n - RADIUS - RADIUS - 1, by omega⟩
  have hfirst : f.valueAt c RADIUS =
      .error (if RADIUS * 2 + 1 = n then .input n else .coefficient (RADIUS * 2 + 1)) := by
    rw [valueAt, Nat.sub_self, Nat.sub_zero, f.innerLoop_overrun c _ 0 (by omega) (by omega),
      Nat.zero_add]
  rw [apply, if_neg (by omega), hleft, outerLoop, hfirst]
  rfl

/-- The filter convolves an input that it does not refuse exactly when it has no neighbours to look
at; with any radius from one on it reads outside the input or outside its coefficients. -/
theorem apply_eq_convolution_iff (f : Filterbase D RADIUS) (c : Vector D n) (output : List D)
    (hn : RADIUS * 2 + 1 ≤ n) :
    f.apply c output = .ok (output ++ f.convolution c) ↔ RADIUS = 0 := by
  constructor
  · intro h
    by_contra hr
    rw [f.apply_overrun c output hn (Nat.pos_of_ne_zero hr)] at h
    cases h
  · intro hr
    subst hr
    exact f.apply_of_radius_zero c output hn

/-- Two inputs scaled by a single coefficient. -/
theorem apply_scale :
    (⟨#v[3]⟩ : Filterbase Int 0).apply #v[1, 2] [] =
      .ok ([] ++ (⟨#v[3]⟩ : Filterbase Int 0).convolution #v[1, 2]) :=
  (apply_eq_convolution_iff (⟨#v[3]⟩ : Filterbase Int 0) #v[1, 2] [] (by decide)).mpr rfl

/-- A filter of radius one over four inputs reads a fourth coefficient. -/
theorem apply_radius_one :
    (⟨#v[1, 2, 1]⟩ : Filterbase Int 1).apply #v[5, 6, 7, 8] [] = .error (.coefficient 3) ∧
      (⟨#v[1, 2, 1]⟩ : Filterbase Int 1).convolution #v[5, 6, 7, 8] = [24, 28] ∧
      (⟨#v[1, 2, 1]⟩ : Filterbase Int 1).apply #v[5, 6, 7, 8] [] ≠
        .ok ([] ++ (⟨#v[1, 2, 1]⟩ : Filterbase Int 1).convolution #v[5, 6, 7, 8]) := by
  have hrun : (⟨#v[1, 2, 1]⟩ : Filterbase Int 1).apply #v[5, 6, 7, 8] [] =
      .error (.coefficient 3) := rfl
  refine ⟨hrun, by decide, ?_⟩
  rw [hrun]
  intro h
  cases h

end Filterbase

end RaftLib.Util
