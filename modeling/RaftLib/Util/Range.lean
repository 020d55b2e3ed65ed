/-
# `RaftLib.Util.Range` -- the list of integers between two bounds (`utility.hpp`)

`raft::range` for bounds of integer types. The types of the two bounds, their common type and the
type of the arithmetic are those of C++: narrow types are promoted, signed arithmetic may overflow,
unsigned arithmetic wraps. `std::isless` and its kin convert both integers to `double`, so large ones
are compared after rounding to 53 bits.

The vector is sized for the values between the bounds (`between`), and starts out with zeros. What a
call gives is compared with them through `Fills`: a loop that gives the right list has written a
part of it and stopped before a rest that is zero.
-/
import Mathlib.Data.List.Range
import RaftLib.Logic.IntTypes
import RaftLib.Logic.Rounding

namespace RaftLib.Util

open RaftLib.Logic (IntType)
open RaftLib.Logic.Rounding (roundInt roundInt_mono)

/-! ## Comparisons of `cmath` -/

/-- An integer converted to `double`. -/
def toDouble (x : Int) : Int := roundInt 53 x

def isless (x y : Int) : Bool := toDouble x < toDouble y

def islessequal (x y : Int) : Bool := toDouble x ≤ toDouble y

def isgreaterequal (x y : Int) : Bool := toDouble y ≤ toDouble x

/-! ## The function -/

/-- What ends a call before it returns: an operation on signed integers that overflows, the
`std::length_error` of a vector with less than no entries, or `out[ index ]` outside the vector. -/
inductive RangeStop
  | overflow
  | lengthError
  | outside (index : Nat)
  deriving DecidableEq, Repr

/-- The types of a call: those of `a` and `b`, and `common_t`, which is the type of both where that
is the same type and else the one that the usual arithmetic conversions give. -/
structure RangeTypes where
  A : IntType
  B : IntType
  C : IntType
  common : (A = B ∧ C = A) ∨ C = IntType.usual A.promote B.promote

namespace RangeTypes

/-- The type in which `b - a + delta` and `b + delta` are computed. -/
def P (t : RangeTypes) : IntType := IntType.usual t.A.promote t.B.promote

/-- An operation in the type `T`. -/
def op (T : IntType) (x : Int) : Except RangeStop Int :=
  (T.arith x).elim (.error .overflow) .ok

/-- The length of the vector: `( x - y + delta ) / delta`, handed to its constructor. -/
def cap (t : RangeTypes) (x y delta : Int) : Except RangeStop Nat := do
  let difference ← op t.P (t.P.conv x - t.P.conv y)
  let sum ← op t.P (difference + t.P.conv delta)
  let cap := sum.tdiv (t.P.conv delta)
  if cap < 0 then .error .lengthError else .ok cap.toNat

/-- `std::islessequal( i, b + delta )`. -/
def upTest (t : RangeTypes) (b delta i : Int) : Except RangeStop Bool := do
  let bound ← op t.P (t.P.conv b + t.P.conv delta)
  .ok (islessequal i bound)

/-- `i += delta`. -/
def upStep (t : RangeTypes) (delta i : Int) : Except RangeStop Int := do
  let next ← op t.C.promote (i + delta)
  .ok (t.C.conv next)

/-- `std::isgreaterequal( i, b - delta )`. -/
def downTest (t : RangeTypes) (b delta i : Int) : Except RangeStop Bool := do
  let bound ← op t.P (t.P.conv b - t.P.conv delta)
  .ok (isgreaterequal i bound)

/-- `i -= delta`. -/
def downStep (t : RangeTypes) (delta i : Int) : Except RangeStop Int := do
  let next ← op t.C.promote (i - delta)
  .ok (t.C.conv next)

/-- The loop with `left` entries of the vector behind `index`, which are zero as long as they are not
written; `index` is an `int`. -/
def fill (test : Int → Except RangeStop Bool) (step : Int → Except RangeStop Int) :
    (left index : Nat) → (i : Int) → Except RangeStop (List Int)
  | 0, index, i => do
    if ← test i then .error (.outside index) else .ok []
  | left + 1, index, i => do
    if ← test i then
      let next ← step i
      if index + 1 = 2 ^ 31 then .error .overflow
      else
        let rest ← fill test step left (index + 1) next
        .ok (i :: rest)
    else .ok (List.replicate (left + 1) 0)

/-- `raft::range( a, b, delta )`. -/
def range (t : RangeTypes) (a b delta : Int) : Except RangeStop (List Int) := do
  if isless a b then
    let cap ← t.cap b a delta
    fill (t.upTest b delta) (t.upStep delta) cap 0 (t.C.conv a)
  else
    let cap ← t.cap a b delta
    fill (t.downTest b delta) (t.downStep delta) cap 0 (t.C.conv a)

end RangeTypes

/-! ## The values between the bounds -/

/-- How many steps of `delta` fit between the bounds. -/
def stepsBetween (a b delta : Int) : Nat := ((max a b - min a b) / delta).toNat

/-- From `a` towards `b`, both bounds inclusive. -/
def between (a b delta : Int) : List Int :=
  (List.range (stepsBetween a b delta + 1)).map fun k : Nat =>
    if a ≤ b then a + k * delta else a - k * delta

section Between

variable {a b delta : Int}

/-- The last step stays inside, and one more would not. -/
theorem stepsBetween_spec (hpos : 0 < delta) :
    stepsBetween a b delta * delta ≤ max a b - min a b ∧
      max a b - min a b < (stepsBetween a b delta + 1) * delta := by
  have hdist : 0 ≤ max a b - min a b := by omega
  have hcast : ((stepsBetween a b delta : Nat) : Int) = (max a b - min a b) / delta :=
    Int.toNat_of_nonneg (Int.ediv_nonneg hdist hpos.le)
  rw [hcast]
  exact ⟨Int.ediv_mul_le _ hpos.ne', Int.lt_ediv_add_one_mul_self _ hpos⟩

theorem mul_le_steps (hpos : 0 < delta) {j : Nat} (hj : j ≤ stepsBetween a b delta) :
    j * delta ≤ max a b - min a b :=
  (Int.mul_le_mul_of_nonneg_right (Int.ofNat_le.mpr hj) hpos.le).trans (stepsBetween_spec hpos).1

theorem between_up (hab : a ≤ b) :
    between a b delta = (List.range (stepsBetween a b delta + 1)).map fun k : Nat => a + k * delta := by
  simp only [between, if_pos hab]

theorem between_down (hba : b ≤ a) :
    between a b delta = (List.range (stepsBetween a b delta + 1)).map fun k : Nat => a - k * delta := by
  by_cases hab : a ≤ b
  · -- the bounds are equal, and the only value is the one without a step
    have hsteps : stepsBetween a b delta = 0 := by
      rw [stepsBetween, show max a b - min a b = 0 by omega, Int.zero_ediv, Int.toNat_zero]
    simp [between, hsteps]
  · simp only [between, if_neg hab]

/-- The values between the bounds are those that some number of steps from `a` reaches. -/
theorem mem_between_iff (hpos : 0 < delta) {x : Int} :
    x ∈ between a b delta ↔ min a b ≤ x ∧ x ≤ max a b ∧
      ∃ k : Nat, x = if a ≤ b then a + k * delta else a - k * delta := by
  simp only [between, List.mem_map, List.mem_range]
  constructor
  · rintro ⟨k, hk, rfl⟩
    have hle := mul_le_steps (a := a) (b := b) hpos (Nat.le_of_lt_succ hk)
    have hnn : 0 ≤ k * delta := Int.mul_nonneg (Int.natCast_nonneg k) hpos.le
    refine ⟨?_, ?_, k, rfl⟩ <;> split <;> omega
  · rintro ⟨hlo, hhi, k, rfl⟩
    refine ⟨k, ?_, rfl⟩
    by_contra hk
    -- from that many steps on the other bound is passed
    have hout := (stepsBetween_spec (a := a) (b := b) hpos).2
    have hle : (stepsBetween a b delta + 1) * delta ≤ k * delta :=
      Int.mul_le_mul_of_nonneg_right (by omega) hpos.le
    split at hlo <;> omega

@[simp] theorem length_between : (between a b delta).length = stepsBetween a b delta + 1 := by
  simp [between]

end Between

/-! ## What the loop leaves behind -/

namespace RangeTypes

theorem bind_eq_ok {α β : Type} {x : Except RangeStop α} {f : α → Except RangeStop β} {r : β}
    (h : x >>= f = .ok r) : ∃ v, x = .ok v ∧ f v = .ok r := by
  cases x with
  | error => cases h
  | ok v => exact ⟨v, rfl, h⟩

theorem ok_bind {α β : Type} (v : α) (f : α → Except RangeStop β) : (Except.ok v >>= f) = f v := rfl

section Fill

variable {test : Int → Except RangeStop Bool} {step : Int → Except RangeStop Int}

theorem length_fill {n index : Nat} {i : Int} {out : List Int}
    (h : fill test step n index i = .ok out) : out.length = n := by
  induction n generalizing index i out with
  | zero =>
    obtain ⟨r, -, h⟩ := bind_eq_ok h
    cases r with
    | true => cases h
    | false =>
      cases h
      rfl
  | succ n ih =>
    obtain ⟨r, -, h⟩ := bind_eq_ok h
    cases r with
    | false =>
      cases h
      exact List.length_replicate
    | true =>
      obtain ⟨next, -, h⟩ := bind_eq_ok h
      split at h
      · cases h
      · obtain ⟨rest, hrest, h⟩ := bind_eq_ok h
        cases h
        rw [List.length_cons, ih hrest]

/-- A loop from `i` that writes the first `k` of the `n` values `e`, stops at `last`, and leaves zeros
that happen to be the values not written. -/
structure Fills (test : Int → Except RangeStop Bool) (step : Int → Except RangeStop Int)
    (e : Nat → Int) (n : Nat) (i : Int) (k : Nat) (last : Int) : Prop where
  le : k ≤ n
  first : 0 < k → i = e 0
  start : k = 0 → last = i
  tested : ∀ j, j < k → test (e j) = .ok true
  next : ∀ j, j + 1 = k → step (e j) = .ok last
  stops : test last = .ok false
  rest : ∀ j, k ≤ j → j < n → e j = 0

/-- A loop that gives the values has written them or left zeros for them. -/
theorem fills_of_fill {e : Nat → Int} {n index : Nat} {i : Int}
    (h : fill test step n index i = .ok ((List.range n).map e)) :
    ∃ k last, Fills test step e n i k last := by
  induction n generalizing index i e with
  | zero =>
    obtain ⟨r, hr, h⟩ := bind_eq_ok h
    cases r with
    | true => cases h
    | false =>
      refine ⟨0, i, le_rfl, ?_, fun _ => rfl, ?_, ?_, hr, ?_⟩ <;> intros <;> omega
  | succ n ih =>
    obtain ⟨r, hr, h⟩ := bind_eq_ok h
    cases r with
    | false =>
      have hzero : List.replicate (n + 1) 0 = (List.range (n + 1)).map e := Except.ok.inj h
      refine ⟨0, i, Nat.zero_le _, ?_, fun _ => rfl, ?_, ?_, hr, ?_⟩
      · intro hk
        omega
      · intro j hj
        omega
      · intro j hj
        omega
      · intro j _ hj
        have hmem : e j ∈ List.replicate (n + 1) (0 : Int) := by
          rw [hzero]
          exact List.mem_map_of_mem (List.mem_range.mpr hj)
        exact List.eq_of_mem_replicate hmem
    | true =>
      obtain ⟨next, hnext, h⟩ := bind_eq_ok h
      split at h
      · cases h
      · obtain ⟨rest, hrest, h⟩ := bind_eq_ok h
        have hcons : i :: rest = e 0 :: (List.range n).map (fun j => e (j + 1)) := by
          rw [Except.ok.inj h, List.range_succ_eq_map, List.map_cons, List.map_map]
          rfl
        obtain ⟨hi, htail⟩ := List.cons.inj hcons
        rw [htail] at hrest
        obtain ⟨k, last, hk⟩ := ih hrest
        refine ⟨k + 1, last, Nat.succ_le_succ hk.le, fun _ => hi, ?_, ?_, ?_, hk.stops, ?_⟩
        · intro h0
          omega
        · intro j hj
          cases j with
          | zero => rw [← hi, hr]
          | succ j => exact hk.tested j (by omega)
        · intro j hj
          cases j with
          | zero => rw [hk.start (by omega), ← hi, hnext]
          | succ j => exact hk.next j (by omega)
        · intro j hj hjn
          cases j with
          | zero => omega
          | succ j => exact hk.rest j (by omega) (by omega)

/-- The loop that is not entered. -/
theorem fill_of_stopped {n index : Nat} {i : Int} (h : test i = .ok false) :
    fill test step n index i = .ok (List.replicate n 0) := by
  cases n with
  | zero =>
    rw [fill, h]
    rfl
  | succ n =>
    rw [fill, h]
    rfl

/-- The loop with a single pass. -/
theorem fill_once {n : Nat} {i next : Int} (h : test i = .ok true) (hstep : step i = .ok next)
    (hnext : test next = .ok false) :
    fill test step (n + 1) 0 i = .ok (i :: List.replicate n 0) := by
  have hrest : fill test step n (0 + 1) next = .ok (List.replicate n 0) := fill_of_stopped hnext
  have hindex : ¬(0 + 1 = 2 ^ 31) := by decide
  simp only [fill, h, hstep, hrest, ok_bind, if_true, if_neg hindex]

end Fill

/-! ## The types of a call -/

section Types

variable {t : RangeTypes}

theorem A_hi_le (t : RangeTypes) : t.A.hi ≤ t.P.hi :=
  t.A.embeds_promote.2.trans (IntType.hi_le_usual _ _).1

theorem B_hi_le (t : RangeTypes) : t.B.hi ≤ t.P.hi :=
  t.B.embeds_promote.2.trans (IntType.hi_le_usual _ _).2

theorem A_embeds (hs : t.P.signed = true) : t.A.Embeds t.P :=
  t.A.embeds_promote.trans (IntType.embeds_usual hs).1

theorem B_embeds (hs : t.P.signed = true) : t.B.Embeds t.P :=
  t.B.embeds_promote.trans (IntType.embeds_usual hs).2

theorem A_embeds_C (hs : t.P.signed = true) : t.A.Embeds t.C := by
  rcases t.common with ⟨-, hC⟩ | hC
  · rw [hC]
    exact IntType.Embeds.refl _
  · rw [hC]
    exact A_embeds hs

theorem C_embeds (hs : t.P.signed = true) : t.C.Embeds t.P := by
  rcases t.common with ⟨-, hC⟩ | hC
  · rw [hC]
    exact A_embeds hs
  · rw [hC]
    exact IntType.Embeds.refl _

theorem P_wide (t : RangeTypes) : 32 ≤ t.P.bits := by
  rcases IntType.usual_eq_or t.A.promote t.B.promote with h | h
  · rw [P, h]
    exact IntType.int_bits_le_promote _
  · rw [P, h]
    exact IntType.int_bits_le_promote _

/-- Unsigned arithmetic is done in the common type: a narrow one is promoted to `int`. -/
theorem C_eq_P (hs : t.P.signed = false) : t.C = t.P := by
  rcases t.common with ⟨hAB, hC⟩ | hC
  · have hP : t.P = t.A.promote := by
      rw [P, ← hAB]
      rcases IntType.usual_eq_or t.A.promote t.A.promote with h | h <;> exact h
    rw [hP] at hs
    rcases t.A.promote_eq_int_or with hint | hself
    · rw [hint] at hs
      cases hs
    · rw [hC, hP, hself]
  · exact hC

theorem promote_C (hs : t.P.signed = false) : t.C.promote = t.C :=
  IntType.promote_of_wide (C_eq_P hs ▸ t.P_wide)

end Types

/-! ## One comparison and one step -/

theorem op_ok {T : IntType} {x z : Int} (h : op T x = .ok z) : T.arith x = some z := by
  unfold op at h
  cases hz : T.arith x with
  | none =>
    rw [hz] at h
    cases h
  | some z' =>
    rw [hz] at h
    exact congrArg some (Except.ok.inj h)

theorem op_of_unsigned {T : IntType} (hs : T.signed = false) (x : Int) : op T x = .ok (T.conv x) := by
  rw [op, IntType.arith_of_unsigned hs]
  rfl

/-- The step as the conversion of the exact sum. -/
theorem op_promote {t : RangeTypes} {x z : Int} (h : op t.C.promote x = .ok z) :
    t.C.conv z = t.C.conv x := by
  cases hs : t.C.promote.signed with
  | true => rw [IntType.arith_of_signed hs (op_ok h)]
  | false =>
    have hself : t.C.promote = t.C := by
      rcases t.C.promote_eq_int_or with hint | hself
      · rw [hint] at hs
        cases hs
      · exact hself
    rw [IntType.arith_eq_some (op_ok h), hself, IntType.conv_conv]

theorem upStep_ok {t : RangeTypes} {delta i next : Int} (h : t.upStep delta i = .ok next) :
    next = t.C.conv (i + delta) := by
  obtain ⟨z, hz, h⟩ := bind_eq_ok h
  rw [← op_promote hz, Except.ok.inj h]

theorem downStep_ok {t : RangeTypes} {delta i next : Int} (h : t.downStep delta i = .ok next) :
    next = t.C.conv (i - delta) := by
  obtain ⟨z, hz, h⟩ := bind_eq_ok h
  rw [← op_promote hz, Except.ok.inj h]

theorem upTest_ok {t : RangeTypes} {b delta i : Int} {r : Bool} (h : t.upTest b delta i = .ok r) :
    ∃ bound, op t.P (t.P.conv b + t.P.conv delta) = .ok bound ∧ r = islessequal i bound := by
  obtain ⟨bound, hbound, h⟩ := bind_eq_ok h
  exact ⟨bound, hbound, (Except.ok.inj h).symm⟩

theorem downTest_ok {t : RangeTypes} {b delta i : Int} {r : Bool}
    (h : t.downTest b delta i = .ok r) :
    ∃ bound, op t.P (t.P.conv b - t.P.conv delta) = .ok bound ∧ r = isgreaterequal i bound := by
  obtain ⟨bound, hbound, h⟩ := bind_eq_ok h
  exact ⟨bound, hbound, (Except.ok.inj h).symm⟩

theorem cap_ok {t : RangeTypes} {x y delta : Int} {n : Nat} (h : t.cap x y delta = .ok n) :
    ∃ diff sum, op t.P (t.P.conv x - t.P.conv y) = .ok diff ∧
      op t.P (diff + t.P.conv delta) = .ok sum ∧ n = (sum.tdiv (t.P.conv delta)).toNat := by
  obtain ⟨diff, hdiff, h⟩ := bind_eq_ok h
  obtain ⟨sum, hsum, h⟩ := bind_eq_ok h
  simp only at h
  split at h
  · cases h
  · exact ⟨diff, sum, hdiff, hsum, (Except.ok.inj h).symm⟩

theorem toDouble_mono {x y : Int} (h : x ≤ y) : toDouble x ≤ toDouble y :=
  roundInt_mono (by decide) h

end RangeTypes

end RaftLib.Util
