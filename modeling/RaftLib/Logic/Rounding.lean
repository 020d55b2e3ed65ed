/-
# `RaftLib.Logic.Rounding` -- integers rounded to so many significant bits

Rounding to the nearest multiple of a unit, ties to the even multiple, and on top of it rounding to
`p` significant bits, where the unit is the power of two that leaves `p` bits of the number. This is
what converting an integer to a binary floating-point type of that precision gives, as long as the
exponent suffices.

Three facts are what a comparison of rounded numbers needs: rounding is monotone, it keeps the sign,
and two numbers that it makes equal are close to each other (`close_of_roundInt_eq`).
-/
import Mathlib.Tactic.Common
import Mathlib.Tactic.Ring
import Mathlib.Data.Nat.Log
import Mathlib.Algebra.Order.Ring.Nat

namespace RaftLib.Logic.Rounding

/-! ## To a multiple of a unit -/

/-- The multiple of `u` nearest to `x`, the even one of two that are equally near. -/
def roundEven (u x : Nat) : Nat :=
  let q := x / u
  let r := x % u
  if u < 2 * r ∨ (2 * r = u ∧ q % 2 = 1) then (q + 1) * u else q * u

section RoundEven

variable {u x y : Nat}

theorem floor_le_roundEven (u x : Nat) : x / u * u ≤ roundEven u x := by
  simp only [roundEven]
  split
  · exact Nat.mul_le_mul_right u (Nat.le_succ _)
  · exact le_rfl

theorem roundEven_le_ceil (u x : Nat) : roundEven u x ≤ (x / u + 1) * u := by
  simp only [roundEven]
  split
  · exact le_rfl
  · exact Nat.mul_le_mul_right u (Nat.le_succ _)

/-- What is rounded moves by at most half a unit. -/
theorem roundEven_near (hu : 0 < u) (x : Nat) :
    2 * roundEven u x ≤ 2 * x + u ∧ 2 * x ≤ 2 * roundEven u x + u := by
  have hsplit := Nat.div_add_mod' x u
  have hlt := Nat.mod_lt x hu
  simp only [roundEven]
  split
  case isTrue h =>
    rw [Nat.add_mul, Nat.one_mul]
    omega
  case isFalse h => omega

theorem roundEven_mono (hxy : x ≤ y) : roundEven u x ≤ roundEven u y := by
  have hdiv : x / u ≤ y / u := Nat.div_le_div_right hxy
  rcases Nat.lt_or_eq_of_le hdiv with hlt | heq
  · -- another multiple lies between them
    calc roundEven u x ≤ (x / u + 1) * u := roundEven_le_ceil u x
      _ ≤ y / u * u := Nat.mul_le_mul_right u hlt
      _ ≤ roundEven u y := floor_le_roundEven u y
  · have hmod : x % u ≤ y % u := by
      have hx := Nat.div_add_mod' x u
      have hy := Nat.div_add_mod' y u
      rw [heq] at hx
      omega
    simp only [roundEven, heq]
    split
    case isTrue hup =>
      rw [if_pos]
      omega
    case isFalse _ =>
      split
      · exact Nat.mul_le_mul_right u (Nat.le_succ _)
      · exact le_rfl

theorem le_roundEven_of_dvd {m : Nat} (hm : u ∣ m) (h : m ≤ x) : m ≤ roundEven u x := by
  obtain ⟨k, rfl⟩ := hm
  calc u * k = u * k / u * u := (Nat.div_mul_cancel (Nat.dvd_mul_right u k)).symm
    _ ≤ x / u * u := Nat.mul_le_mul_right u (Nat.div_le_div_right h)
    _ ≤ roundEven u x := floor_le_roundEven u x

theorem roundEven_le_of_dvd {m : Nat} (hm : u ∣ m) (h : x < m) : roundEven u x ≤ m := by
  obtain ⟨k, rfl⟩ := hm
  calc roundEven u x ≤ (x / u + 1) * u := roundEven_le_ceil u x
    _ ≤ k * u := Nat.mul_le_mul_right u (Nat.div_lt_of_lt_mul h)
    _ = u * k := Nat.mul_comm k u

end RoundEven

/-! ## To significant bits -/

/-- The unit in the last of `p` significant bits of `x`. -/
def ulp (p x : Nat) : Nat := 2 ^ (x.log2 + 1 - p)

/-- `x` to `p` significant bits. -/
def roundSig (p x : Nat) : Nat := roundEven (ulp p x) x

section RoundSig

variable {p x y : Nat}

theorem ulp_dvd {k : Nat} (h : x.log2 + 1 - p ≤ k) : ulp p x ∣ 2 ^ k := Nat.pow_dvd_pow 2 h

theorem pow_log2_le_roundSig (hp : 0 < p) (hx : x ≠ 0) : 2 ^ x.log2 ≤ roundSig p x :=
  le_roundEven_of_dvd (ulp_dvd (by omega)) (Nat.log2_self_le hx)

theorem roundSig_le_pow (p x : Nat) : roundSig p x ≤ 2 ^ (x.log2 + 1) :=
  roundEven_le_of_dvd (ulp_dvd (by omega)) Nat.lt_log2_self

theorem log2_mono (hxy : x ≤ y) : x.log2 ≤ y.log2 := by
  rw [Nat.log2_eq_log_two, Nat.log2_eq_log_two]
  exact Nat.log_mono_right hxy

theorem roundSig_mono (hp : 0 < p) (hxy : x ≤ y) : roundSig p x ≤ roundSig p y := by
  rcases Nat.lt_or_eq_of_le (log2_mono hxy) with hlt | heq
  · -- a power of two lies between them
    have hy : y ≠ 0 := by
      intro h
      rw [h, Nat.log2_zero] at hlt
      omega
    calc roundSig p x ≤ 2 ^ (x.log2 + 1) := roundSig_le_pow p x
      _ ≤ 2 ^ y.log2 := Nat.pow_le_pow_right (by decide) hlt
      _ ≤ roundSig p y := pow_log2_le_roundSig hp hy
  · rw [roundSig, roundSig, ulp, ulp, heq]
    exact roundEven_mono hxy

@[simp] theorem roundSig_zero (p : Nat) : roundSig p 0 = 0 := by
  simp [roundSig, roundEven]

theorem roundSig_pos (hp : 0 < p) (hx : 0 < x) : 0 < roundSig p x :=
  Nat.lt_of_lt_of_le (Nat.two_pow_pos _) (pow_log2_le_roundSig hp hx.ne')

/-- Numbers that round to the same are in one binade or in two adjacent ones. -/
theorem log2_le_of_roundSig_eq (hp : 0 < p) (hy : y ≠ 0) (h : roundSig p x = roundSig p y) :
    y.log2 ≤ x.log2 + 1 := by
  have hpow : 2 ^ y.log2 ≤ 2 ^ (x.log2 + 1) :=
    calc 2 ^ y.log2 ≤ roundSig p y := pow_log2_le_roundSig hp hy
      _ = roundSig p x := h.symm
      _ ≤ 2 ^ (x.log2 + 1) := roundSig_le_pow p x
  exact (Nat.pow_le_pow_iff_right (by decide)).mp hpow

/-- A number that has no more than `p` bits is not rounded. -/
theorem roundSig_of_log2_lt (h : x.log2 < p) : roundSig p x = x := by
  have hunit : ulp p x = 1 := by
    rw [ulp, show x.log2 + 1 - p = 0 by omega, Nat.pow_zero]
  have hnear := roundEven_near Nat.one_pos x
  rw [roundSig, hunit]
  omega

/-- Distinct numbers that round to the same are less than two units apart. -/
theorem close_of_roundSig_eq (hp : 0 < p) (hxy : x < y) (h : roundSig p x = roundSig p y) :
    (y - x) * 2 ^ p ≤ 3 * x := by
  have hlog : y.log2 ≤ x.log2 + 1 := log2_le_of_roundSig_eq hp (by omega) h
  have hbits : p ≤ x.log2 + 1 := by
    by_contra hlt
    rw [roundSig_of_log2_lt (by omega), roundSig_of_log2_lt (by omega)] at h
    omega
  have hx0 : x ≠ 0 := by
    rintro rfl
    have hpos := roundSig_pos hp hxy
    rw [← h, roundSig_zero] at hpos
    omega
  -- half a unit of each on the way from one to the other
  have hunits : ulp p y ≤ 2 * ulp p x := by
    rw [ulp, ulp, ← Nat.pow_succ']
    exact Nat.pow_le_pow_right (by decide) (by omega)
  have hnearx := roundEven_near (Nat.two_pow_pos (x.log2 + 1 - p)) x
  have hneary := roundEven_near (Nat.two_pow_pos (y.log2 + 1 - p)) y
  have hdist : 2 * (y - x) ≤ 3 * ulp p x := by
    simp only [roundSig, ulp] at h hunits ⊢
    omega
  have hscale : ulp p x * 2 ^ p = 2 * 2 ^ x.log2 := by
    rw [ulp, ← Nat.pow_add, Nat.sub_add_cancel hbits, Nat.pow_succ']
  have hself := Nat.log2_self_le hx0
  have hmul : 2 * (y - x) * 2 ^ p ≤ 3 * ulp p x * 2 ^ p := Nat.mul_le_mul_right _ hdist
  rw [Nat.mul_assoc, Nat.mul_assoc 3, hscale] at hmul
  omega

end RoundSig

/-! ## Of either sign -/

/-- An integer to `p` significant bits of its magnitude. -/
def roundInt (p : Nat) (x : Int) : Int :=
  if 0 ≤ x then roundSig p x.toNat else -(roundSig p (-x).toNat : Int)

section RoundInt

variable {p : Nat} {x y : Int}

theorem roundInt_natCast (p n : Nat) : roundInt p n = roundSig p n := by
  rw [roundInt, if_pos (Int.natCast_nonneg n), Int.toNat_natCast]

@[simp] theorem roundInt_zero (p : Nat) : roundInt p 0 = 0 := by
  simpa using roundInt_natCast p 0

theorem roundInt_nonneg (hx : 0 ≤ x) : 0 ≤ roundInt p x := by
  rw [roundInt, if_pos hx]
  exact Int.natCast_nonneg _

theorem roundInt_pos (hp : 0 < p) (hx : 0 < x) : 0 < roundInt p x := by
  rw [roundInt, if_pos hx.le]
  exact Int.natCast_pos.mpr (roundSig_pos hp (by omega))

theorem roundInt_mono (hp : 0 < p) (hxy : x ≤ y) : roundInt p x ≤ roundInt p y := by
  by_cases hx : 0 ≤ x
  · rw [roundInt, roundInt, if_pos hx, if_pos (hx.trans hxy)]
    exact Int.ofNat_le.mpr (roundSig_mono hp (Int.toNat_le_toNat hxy))
  · by_cases hy : 0 ≤ y
    · have hneg : roundInt p x ≤ 0 := by
        rw [roundInt, if_neg hx]
        omega
      exact hneg.trans (roundInt_nonneg hy)
    · rw [roundInt, roundInt, if_neg hx, if_neg hy]
      have := roundSig_mono hp (Int.toNat_le_toNat (Int.neg_le_neg hxy))
      omega

/-- What rounds to less is less. -/
theorem lt_of_roundInt_lt (hp : 0 < p) (h : roundInt p x < roundInt p y) : x < y := by
  by_contra hyx
  exact absurd (roundInt_mono hp (not_lt.mp hyx)) (not_le.mpr h)

theorem close_of_roundInt_eq (hp : 0 < p) (hx : 0 ≤ x) (hxy : x < y)
    (h : roundInt p x = roundInt p y) : (y - x) * 2 ^ p ≤ 3 * x := by
  lift x to Nat using hx
  lift y to Nat using by omega
  rw [roundInt_natCast, roundInt_natCast] at h
  have hclose := close_of_roundSig_eq hp (Int.ofNat_lt.mp hxy) (Int.ofNat_inj.mp h)
  have hcast : ((y - x : Nat) : Int) = (y : Int) - x := Int.ofNat_sub (by omega)
  rw [← hcast]
  exact_mod_cast hclose

end RoundInt

end RaftLib.Logic.Rounding
