/-
# `RaftLib.Util.RangeBounds` -- which calls of `raft::range` give the values between their bounds

The loop tests against `b + delta` (or `b - delta`), one step beyond the last value, so it has one
value more to write than the vector has places. Where the bound of the test has not wrapped around,
that is what happens (`not_fillsUp`, `not_fillsDown`). In unsigned arithmetic it may have; then
`a` itself is on the other side of it, and the loop makes no pass, or just one where both round to
the same `double`. Numbers that round to the same are too close to each other for more passes to
come out right (`not_fillsDown_twice`, `not_fillsUp_twice`).
-/
import RaftLib.Util.Range

namespace RaftLib.Util

open RaftLib.Logic (IntType)
open RaftLib.Logic.Rounding (roundInt_pos roundInt_zero lt_of_roundInt_lt close_of_roundInt_eq)

namespace RangeTypes

/-- An ascending loop that gives the values between the bounds, with `k` passes. -/
abbrev FillsUp (t : RangeTypes) (a b delta : Int) (k : Nat) (last : Int) : Prop :=
  Fills (t.upTest b delta) (t.upStep delta) (fun k : Nat => a + k * delta)
    (stepsBetween a b delta + 1) (t.C.conv a) k last

/-- And a descending one. -/
abbrev FillsDown (t : RangeTypes) (a b delta : Int) (k : Nat) (last : Int) : Prop :=
  Fills (t.downTest b delta) (t.downStep delta) (fun k : Nat => a - k * delta)
    (stepsBetween a b delta + 1) (t.C.conv a) k last

/-! ## Where the bound of the test is one step beyond the last value -/

section Exact

variable {t : RangeTypes} {a b delta : Int}

/-- An ascending loop whose bound has not wrapped around does not stop in time. -/
theorem not_fillsUp (hpos : 0 < delta) (hab : a ≤ b) (haC : t.C.InRange a)
    (hbound : op t.P (t.P.conv b + t.P.conv delta) = .ok (b + delta)) {k : Nat} {last : Int}
    (h : t.FillsUp a b delta k last) : False := by
  have hlast : last ≤ b + delta := by
    cases k with
    | zero =>
      rw [h.start rfl, IntType.conv_of_inRange haC]
      omega
    | succ j =>
      have hj : j * delta ≤ max a b - min a b := mul_le_steps hpos (Nat.le_of_succ_le_succ h.le)
      have hnn : 0 ≤ j * delta := Int.mul_nonneg (Int.natCast_nonneg j) hpos.le
      have hlo := haC.1
      rw [upStep_ok (h.next j rfl)]
      refine (IntType.conv_le ?_).trans ?_ <;> omega
  obtain ⟨bound, hop, hstop⟩ := upTest_ok h.stops
  rw [hbound] at hop
  cases hop
  exact absurd (toDouble_mono hlast) (of_decide_eq_false hstop.symm)

/-- Nor does a descending one. -/
theorem not_fillsDown (hpos : 0 < delta) (hba : b ≤ a) (haC : t.C.InRange a)
    (hbound : op t.P (t.P.conv b - t.P.conv delta) = .ok (b - delta)) {k : Nat} {last : Int}
    (h : t.FillsDown a b delta k last) : False := by
  have hlast : b - delta ≤ last := by
    cases k with
    | zero =>
      rw [h.start rfl, IntType.conv_of_inRange haC]
      omega
    | succ j =>
      have hj : j * delta ≤ max a b - min a b := mul_le_steps hpos (Nat.le_of_succ_le_succ h.le)
      have hnn : 0 ≤ j * delta := Int.mul_nonneg (Int.natCast_nonneg j) hpos.le
      have hhi := haC.2
      rw [downStep_ok (h.next j rfl)]
      refine le_trans ?_ (IntType.le_conv ?_) <;> omega
  obtain ⟨bound, hop, hstop⟩ := downTest_ok h.stops
  rw [hbound] at hop
  cases hop
  exact absurd (toDouble_mono hlast) (of_decide_eq_false hstop.symm)

end Exact

/-! ## Unsigned arithmetic -/

section Unsigned

variable {t : RangeTypes} {a b delta : Int}

theorem unsigned_inRange (hs : t.P.signed = false) {x : Int} :
    t.P.InRange x ↔ 0 ≤ x ∧ x < t.P.card := by
  rw [IntType.InRange, IntType.lo_of_unsigned hs, IntType.hi_of_unsigned hs]

theorem bound_up (hs : t.P.signed = false) :
    op t.P (t.P.conv b + t.P.conv delta) = .ok (t.P.conv (b + delta)) := by
  rw [op_of_unsigned hs]
  simp only [IntType.conv_of_unsigned hs, Int.emod_add_emod, Int.add_emod_emod]

theorem bound_down (hs : t.P.signed = false) :
    op t.P (t.P.conv b - t.P.conv delta) = .ok (t.P.conv (b - delta)) := by
  rw [op_of_unsigned hs]
  simp only [IntType.conv_of_unsigned hs, Int.emod_sub_emod, Int.sub_emod_emod]

theorem cap_of_unsigned (hs : t.P.signed = false) (hpos : 0 < delta) (hd : t.P.InRange delta)
    (x y : Int) : t.cap x y delta = .ok (t.P.conv (x - y + delta) / delta).toNat := by
  have hnn : 0 ≤ t.P.conv (x - y + delta) :=
    ((unsigned_inRange hs).mp (t.P.conv_inRange _)).1
  have hdiff : op t.P (t.P.conv x - t.P.conv y) = .ok (t.P.conv (x - y)) := bound_down hs
  have hsum : op t.P (t.P.conv (x - y) + delta) = .ok (t.P.conv (x - y + delta)) := by
    rw [op_of_unsigned hs]
    simp only [IntType.conv_of_unsigned hs, Int.emod_add_emod]
  have hcap : ¬(t.P.conv (x - y + delta)).tdiv delta < 0 :=
    not_lt.mpr (Int.tdiv_nonneg hnn hpos.le)
  simp only [cap, hdiff, ok_bind, IntType.conv_of_inRange hd, hsum, if_neg hcap]
  rw [Int.tdiv_eq_ediv_of_nonneg hnn]

/-- The vector has room for the values exactly when the sum in its length does not wrap around. -/
theorem cap_eq_steps_iff {m dist : Int} (hdist : 0 ≤ dist) (hpos : 0 < delta) (hd : delta < m) :
    ((dist + delta) % m / delta).toNat = (dist / delta).toNat + 1 ↔ dist + delta < m := by
  have hquot : 0 ≤ dist / delta := Int.ediv_nonneg hdist hpos.le
  constructor
  · intro h
    by_contra hwrap
    have hmod : (dist + delta) % m ≤ dist := by
      have hback : (dist + delta) % m = (dist + delta - m) % m := (Int.sub_emod_right _ _).symm
      have hsplit := Int.mul_ediv_add_emod (dist + delta - m) m
      have hturns : 0 ≤ m * ((dist + delta - m) / m) :=
        Int.mul_nonneg (by omega) (Int.ediv_nonneg (by omega) (by omega))
      omega
    have hle : (dist + delta) % m / delta ≤ dist / delta := Int.ediv_le_ediv hpos hmod
    omega
  · intro hfit
    have hself : delta / delta = 1 := Int.ediv_self hpos.ne'
    rw [Int.emod_eq_of_lt (by omega) hfit, Int.add_ediv_of_dvd_right (Int.dvd_refl delta), hself]
    omega

end Unsigned

/-! ## Where it has wrapped around -/

/-- `0` is the only value, which is what the vector holds at first. -/
def ZeroOnly (a b delta : Int) : Prop := a = 0 ∧ b ≤ 0 ∧ -delta < b

/-- `b - delta` wraps around to a number that rounds to the same `double` as `a`, while `a - delta`
rounds to less: the only pass writes `a`, and nothing, or only `0`, lies behind it. -/
def DownOnce (m a b delta : Int) : Prop :=
  b ≤ a ∧ b < delta ∧ delta ≤ a ∧ toDouble a = toDouble (m + b - delta) ∧
    toDouble (a - delta) < toDouble a ∧ (a - delta < b ∨ (a = delta ∧ b ≤ 0 ∧ -delta < b))

/-- `b + delta` wraps around to a number that rounds to the same `double` as `a`, while `a + delta`
rounds to more: the only pass writes `a`, and nothing lies behind it. -/
def UpOnce (m a b delta : Int) : Prop :=
  toDouble a < toDouble b ∧ m ≤ b + delta ∧ a + delta < m ∧ b < a + delta ∧
    toDouble a = toDouble (b + delta - m) ∧ toDouble a < toDouble (a + delta)

section Wrapped

variable {t : RangeTypes} {a b delta : Int}

theorem close_of_toDouble_eq {x y : Int} (hx : 0 ≤ x) (hxy : x < y)
    (h : toDouble y ≤ toDouble x) : (y - x) * 9007199254740992 ≤ 3 * x :=
  close_of_roundInt_eq (p := 53) (by decide) hx hxy (le_antisymm (toDouble_mono hxy.le) h)

/-- The test of the descending loop with its bound one turn too high. -/
theorem downTest_wrapped (hs : t.P.signed = false) (hbd : b < delta) (hlow : delta - b ≤ t.P.card)
    (x : Int) : t.downTest b delta x = .ok (isgreaterequal x (t.P.card + b - delta)) := by
  have hconv : t.P.conv (b - delta) = t.P.card + b - delta := by
    rw [IntType.conv_add_card ((unsigned_inRange hs).mpr (by omega))]
    omega
  simp only [downTest, bound_down hs, ok_bind, hconv]

/-- The test of the ascending loop with its bound one turn too low. -/
theorem upTest_wrapped (hs : t.P.signed = false) (hwrap : t.P.card ≤ b + delta)
    (hhigh : b + delta < 2 * t.P.card) (x : Int) :
    t.upTest b delta x = .ok (islessequal x (b + delta - t.P.card)) := by
  have hconv : t.P.conv (b + delta) = b + delta - t.P.card :=
    IntType.conv_sub_card ((unsigned_inRange hs).mpr (by omega))
  simp only [upTest, bound_up hs, ok_bind, hconv]

theorem downTest_wrapped_iff (hs : t.P.signed = false) (hbd : b < delta)
    (hlow : delta - b ≤ t.P.card) {x : Int} {r : Bool} (h : t.downTest b delta x = .ok r) :
    r = true ↔ toDouble (t.P.card + b - delta) ≤ toDouble x := by
  rw [downTest_wrapped hs hbd hlow] at h
  cases h
  exact decide_eq_true_iff

theorem upTest_wrapped_iff (hs : t.P.signed = false) (hwrap : t.P.card ≤ b + delta)
    (hhigh : b + delta < 2 * t.P.card) {x : Int} {r : Bool} (h : t.upTest b delta x = .ok r) :
    r = true ↔ toDouble x ≤ toDouble (b + delta - t.P.card) := by
  rw [upTest_wrapped hs hwrap hhigh] at h
  cases h
  exact decide_eq_true_iff

/-! ### A descending loop -/

/-- Two values in a row are not both zero, so that at most the last one is not written. -/
theorem steps_le_of_fillsDown (hpos : 0 < delta) {k : Nat} {last : Int}
    (h : t.FillsDown a b delta k last) : stepsBetween a b delta ≤ k := by
  by_contra hmore
  have hzero : a - (k : Nat) * delta = 0 := h.rest k le_rfl (by omega)
  have hnext : a - (k + 1 : Nat) * delta = 0 := h.rest (k + 1) (by omega) (by omega)
  push_cast at hnext
  rw [add_mul, one_mul] at hnext
  omega

/-- Where nothing is written, the only value is zero. -/
theorem zeroOnly_of_fillsDown (hpos : 0 < delta) (hba : b ≤ a) {last : Int}
    (h : t.FillsDown a b delta 0 last) : ZeroOnly a b delta := by
  have hsteps : stepsBetween a b delta = 0 := Nat.le_zero.mp (steps_le_of_fillsDown hpos h)
  have hzero : a - (0 : Nat) * delta = 0 := h.rest 0 le_rfl (Nat.succ_pos _)
  obtain ⟨-, hout⟩ := stepsBetween_spec (a := a) (b := b) hpos
  rw [hsteps] at hout
  push_cast at hzero hout
  exact ⟨by omega, by omega, by omega⟩

section Down

variable {k : Nat} {last : Int}

/-- Below the step the next value would wrap around to above the bound, and the loop went on. -/
theorem last_of_fillsDown (hs : t.P.signed = false) (hpos : 0 < delta) (h0 : 0 ≤ a) (hba : b ≤ a)
    (hbd : b < delta) (hsum : a - b + delta < t.P.card)
    (h : t.FillsDown a b delta (k + 1) last) :
    last = a - k * delta - delta ∧ delta ≤ a - k * delta ∧
      toDouble last < toDouble (t.P.card + b - delta) := by
  have hstop : toDouble last < toDouble (t.P.card + b - delta) := by
    by_contra hle
    cases (downTest_wrapped_iff hs hbd (by omega) h.stops).mpr (not_lt.mp hle)
  have hlast : last = t.P.conv (a - k * delta - delta) := by
    rw [← C_eq_P hs]
    exact downStep_ok (h.next k rfl)
  have hnn : 0 ≤ k * delta := Int.mul_nonneg (Int.natCast_nonneg k) hpos.le
  have hle : k * delta ≤ max a b - min a b := mul_le_steps hpos (Nat.le_of_succ_le_succ h.le)
  have hroom : delta ≤ a - k * delta := by
    by_contra hlow
    rw [IntType.conv_add_card ((unsigned_inRange hs).mpr (by omega))] at hlast
    exact absurd (toDouble_mono (by omega)) (not_le.mpr hstop)
  rw [IntType.conv_of_inRange ((unsigned_inRange hs).mpr (by omega))] at hlast
  exact ⟨hlast, hroom, hstop⟩

/-- A value that is written rounds to no less than the bound. -/
theorem passed_of_fillsDown (hs : t.P.signed = false) (hbd : b < delta)
    (hlow : delta - b ≤ t.P.card) (h : t.FillsDown a b delta k last) {j : Nat} (hj : j < k) :
    toDouble (t.P.card + b - delta) ≤ toDouble (a - j * delta) :=
  (downTest_wrapped_iff hs hbd hlow (h.tested j hj)).mp rfl

/-- The loop with one pass. -/
theorem downOnce_of_fillsDown (hs : t.P.signed = false) (hpos : 0 < delta) (h0 : 0 ≤ a) (hba : b ≤ a)
    (hbd : b < delta) (hsum : a - b + delta < t.P.card) (h : t.FillsDown a b delta 1 last) :
    DownOnce t.P.card a b delta := by
  obtain ⟨hlast, hroom, hstop⟩ := last_of_fillsDown hs hpos h0 hba hbd hsum h
  have hfirst := passed_of_fillsDown hs hbd (by omega) h Nat.zero_lt_one
  push_cast at hlast hroom hfirst
  rw [zero_mul, sub_zero] at hlast hroom hfirst
  have heq : toDouble a = toDouble (t.P.card + b - delta) :=
    le_antisymm (toDouble_mono (by omega)) hfirst
  refine ⟨hba, hbd, hroom, heq, by rwa [← hlast, heq], ?_⟩
  obtain ⟨hin, hout⟩ := stepsBetween_spec (a := a) (b := b) hpos
  have hsteps := steps_le_of_fillsDown hpos h
  rcases Nat.eq_zero_or_pos (stepsBetween a b delta) with hnone | hsome
  · rw [hnone] at hout
    push_cast at hout
    exact Or.inl (by omega)
  · -- the second value is not written, so it is zero, and it is the last
    have hone : stepsBetween a b delta = 1 := by omega
    have hsecond : a - (1 : Nat) * delta = 0 := h.rest 1 le_rfl (by omega)
    rw [hone] at hin hout
    push_cast at hsecond hin hout
    exact Or.inr ⟨by omega, by omega, by omega⟩

/-- More than one pass does not come out right: the second value and the last one written would both
have to round to the bound, which is more than a step above the second. -/
theorem not_fillsDown_twice (hs : t.P.signed = false) (hpos : 0 < delta) (h0 : 0 ≤ a) (hba : b ≤ a)
    (hbd : b < delta) (hsum : a - b + delta < t.P.card) (h : t.FillsDown a b delta (k + 2) last) :
    False := by
  obtain ⟨-, hroom, -⟩ := last_of_fillsDown hs hpos h0 hba hbd hsum h
  have hclose : ∀ x : Int, 0 ≤ x → x ≤ a → toDouble (t.P.card + b - delta) ≤ toDouble x →
      (t.P.card + b - delta - x) * 9007199254740992 ≤ 3 * x := by
    intro x hx hxa hle
    exact close_of_toDouble_eq hx (by omega) hle
  have hsecond := passed_of_fillsDown hs hbd (by omega) h (show 1 < k + 2 by omega)
  have hbefore := passed_of_fillsDown hs hbd (by omega) h (show k + 1 < k + 2 by omega)
  -- the last value written is small: behind it is the lower bound or a zero
  have hsmall : a - (k + 1 : Nat) * delta < 2 * delta := by
    rcases Nat.lt_or_ge (k + 1) (stepsBetween a b delta) with hmore | hend
    · have hzero : a - (k + 2 : Nat) * delta = 0 := h.rest (k + 2) le_rfl (by omega)
      push_cast at hzero ⊢
      rw [add_mul] at hzero ⊢
      omega
    · obtain ⟨-, hout⟩ := stepsBetween_spec (a := a) (b := b) hpos
      have hle : stepsBetween a b delta * delta ≤ (k + 1 : Nat) * delta :=
        Int.mul_le_mul_of_nonneg_right (Int.ofNat_le.mpr hend) hpos.le
      rw [add_mul, one_mul] at hout
      omega
  have hstep : (1 : Nat) * delta ≤ (k + 1 : Nat) * delta :=
    Int.mul_le_mul_of_nonneg_right (by omega) hpos.le
  have hnear := hclose _ (by omega) (by omega) hsecond
  have hfar := hclose _ (by omega) (by omega) hbefore
  omega

/-- A descending loop that works although its bound has wrapped around makes no pass or one. -/
theorem once_of_fillsDown (hs : t.P.signed = false) (hpos : 0 < delta) (h0 : 0 ≤ a) (hba : b ≤ a)
    (hbd : b < delta) (hsum : a - b + delta < t.P.card) (h : t.FillsDown a b delta k last) :
    ZeroOnly a b delta ∨ DownOnce t.P.card a b delta := by
  match k with
  | 0 => exact Or.inl (zeroOnly_of_fillsDown hpos hba h)
  | 1 => exact Or.inr (downOnce_of_fillsDown hs hpos h0 hba hbd hsum h)
  | k + 2 => exact (not_fillsDown_twice hs hpos h0 hba hbd hsum h).elim

end Down

/-! ### An ascending loop -/

section Up

variable {k : Nat} {last : Int}

/-- No value is zero, so all of them are written. -/
theorem passes_of_fillsUp (hpos : 0 < delta) (ha : 0 < a) (h : t.FillsUp a b delta k last) :
    k = stepsBetween a b delta + 1 := by
  by_contra hne
  have hle := h.le
  have hzero : a + k * delta = 0 := h.rest k le_rfl (by omega)
  have hnn : 0 ≤ k * delta := Int.mul_nonneg (Int.natCast_nonneg k) hpos.le
  omega

/-- A value that is written rounds to no more than the bound. -/
theorem passed_of_fillsUp (hs : t.P.signed = false) (hwrap : t.P.card ≤ b + delta)
    (hhigh : b + delta < 2 * t.P.card) (h : t.FillsUp a b delta k last) {j : Nat} (hj : j < k) :
    toDouble (a + j * delta) ≤ toDouble (b + delta - t.P.card) :=
  (upTest_wrapped_iff hs hwrap hhigh (h.tested j hj)).mp rfl

/-- From the last value on a step would wrap around to below the bound, and the loop went on. -/
theorem last_of_fillsUp (hs : t.P.signed = false) (hpos : 0 < delta)
    (hwrap : t.P.card ≤ b + delta) (hab : a ≤ b) (hb : b < t.P.card)
    (hsum : b - a + delta < t.P.card) (hk : k = stepsBetween a b delta)
    (h : t.FillsUp a b delta (k + 1) last) :
    last = a + k * delta + delta ∧ a + k * delta + delta < t.P.card ∧
      toDouble (b + delta - t.P.card) < toDouble last := by
  have hstop : toDouble (b + delta - t.P.card) < toDouble last := by
    by_contra hle
    cases (upTest_wrapped_iff hs hwrap (by omega) h.stops).mpr (not_lt.mp hle)
  have hlast : last = t.P.conv (a + k * delta + delta) := by
    rw [← C_eq_P hs]
    exact upStep_ok (h.next k rfl)
  have hnn : 0 ≤ k * delta := Int.mul_nonneg (Int.natCast_nonneg k) hpos.le
  obtain ⟨hin, hout⟩ := stepsBetween_spec (a := a) (b := b) hpos
  rw [← hk] at hin hout
  rw [add_mul, one_mul] at hout
  have hroom : a + k * delta + delta < t.P.card := by
    by_contra hhigh
    rw [IntType.conv_sub_card ((unsigned_inRange hs).mpr (by omega))] at hlast
    exact absurd (toDouble_mono (by omega)) (not_le.mpr hstop)
  rw [IntType.conv_of_inRange ((unsigned_inRange hs).mpr (by omega))] at hlast
  exact ⟨hlast, hroom, hstop⟩

/-- More than one pass does not come out right: the second value would have to round to the bound,
which is almost a whole turn below the last. -/
theorem not_fillsUp_twice (hs : t.P.signed = false) (hpos : 0 < delta) (h0 : 0 ≤ a)
    (hwrap : t.P.card ≤ b + delta) (hab : a ≤ b) (hb : b < t.P.card)
    (hsum : b - a + delta < t.P.card) (hk : k + 1 = stepsBetween a b delta)
    (h : t.FillsUp a b delta (k + 2) last) : False := by
  obtain ⟨-, hroom, -⟩ := last_of_fillsUp hs hpos hwrap hab hb hsum hk h
  have hclose : ∀ x : Int, a ≤ x → toDouble x ≤ toDouble (b + delta - t.P.card) →
      (x - (b + delta - t.P.card)) * 9007199254740992 ≤ 3 * (b + delta - t.P.card) := by
    intro x hx hle
    exact close_of_toDouble_eq (by omega) (by omega) hle
  have hsecond := passed_of_fillsUp hs hwrap (by omega) h (show 1 < k + 2 by omega)
  have hbefore := passed_of_fillsUp hs hwrap (by omega) h (show k + 1 < k + 2 by omega)
  obtain ⟨hin, hout⟩ := stepsBetween_spec (a := a) (b := b) hpos
  rw [← hk] at hin hout
  rw [add_mul, one_mul] at hout
  have hnn : 0 ≤ (k + 1 : Nat) * delta := Int.mul_nonneg (Int.natCast_nonneg _) hpos.le
  have hnear := hclose _ (by omega) hsecond
  have hfar := hclose _ (by omega) hbefore
  omega

/-- An ascending loop that works although its bound has wrapped around makes one pass. -/
theorem once_of_fillsUp (hs : t.P.signed = false) (hpos : 0 < delta) (h0 : 0 ≤ a)
    (hless : toDouble a < toDouble b) (hab : a ≤ b) (hb : b < t.P.card)
    (hwrap : t.P.card ≤ b + delta) (hsum : b - a + delta < t.P.card)
    (h : t.FillsUp a b delta k last) : UpOnce t.P.card a b delta := by
  have hall := passes_of_fillsUp hpos (by omega) h
  cases hsteps : stepsBetween a b delta with
  | zero =>
    rw [hall, hsteps] at h
    obtain ⟨hlast, hroom, hstop⟩ := last_of_fillsUp hs hpos hwrap hab hb hsum hsteps.symm h
    have hfirst := passed_of_fillsUp hs hwrap (by omega) h Nat.zero_lt_one
    obtain ⟨-, hout⟩ := stepsBetween_spec (a := a) (b := b) hpos
    rw [hsteps] at hout
    push_cast at hlast hout hroom hfirst
    rw [zero_mul, add_zero] at hlast hroom hfirst
    have heq : toDouble a = toDouble (b + delta - t.P.card) :=
      le_antisymm hfirst (toDouble_mono (by omega))
    exact ⟨hless, hwrap, hroom, by omega, heq, by rwa [← hlast, heq]⟩
  | succ j =>
    rw [hall, hsteps] at h
    exact (not_fillsUp_twice hs hpos h0 hwrap hab hb hsum hsteps.symm h).elim

end Up

/-- Bounds that only rounding makes equal: the vector is taken for a descending range. -/
theorem range_ne_of_rounded (hd : t.C.InRange delta) (hpos : 0 < delta) (ha : t.A.InRange a)
    (hb : t.B.InRange b) (h0 : t.P.signed = false → 0 ≤ a) (hab : a < b)
    (hle : toDouble b ≤ toDouble a) {n : Nat} (hcap : t.cap a b delta = .ok n) :
    n ≠ stepsBetween a b delta + 1 := by
  cases hs : t.P.signed with
  | true =>
    obtain ⟨diff, sum, hdiff, hsum, hquot⟩ := cap_ok hcap
    rw [IntType.conv_of_inRange ((A_embeds hs).inRange ha),
      IntType.conv_of_inRange ((B_embeds hs).inRange hb)] at hdiff
    rw [IntType.conv_of_inRange ((C_embeds hs).inRange hd),
      IntType.arith_of_signed hs (op_ok hdiff)] at hsum
    rw [IntType.conv_of_inRange ((C_embeds hs).inRange hd),
      IntType.arith_of_signed hs (op_ok hsum)] at hquot
    have hnonpos : (a - b + delta).tdiv delta ≤ 0 := by
      rcases lt_or_ge (a - b + delta) 0 with hneg | hnn
      · have := Int.tdiv_nonneg (show 0 ≤ -(a - b + delta) by omega) hpos.le
        rw [Int.neg_tdiv] at this
        omega
      · exact (Int.tdiv_eq_zero_of_lt hnn (by omega)).le
    omega
  | false =>
    have hdP : t.P.InRange delta := C_eq_P hs ▸ hd
    have hcard : a < t.P.card := by
      have := ha.2.trans_le t.A_hi_le
      rwa [IntType.hi_of_unsigned hs] at this
    rw [cap_of_unsigned hs hpos hdP] at hcap
    have hn := Except.ok.inj hcap
    have hclose := close_of_toDouble_eq (h0 hs) hab hle
    obtain ⟨hin, hout⟩ := stepsBetween_spec (a := a) (b := b) hpos
    intro heq
    rw [heq] at hn
    have hdcard := ((unsigned_inRange hs).mp hdP).2
    rcases lt_or_ge (a - b + delta) 0 with hneg | hnn
    · -- the length wraps around to almost the whole type
      rw [IntType.conv_add_card ((unsigned_inRange hs).mpr (by omega))] at hn
      have hquot := Int.lt_ediv_add_one_mul_self (a - b + delta + t.P.card) hpos
      rw [show (a - b + delta + t.P.card) / delta = (stepsBetween a b delta + 1 : Nat) by
        rw [← hn, Int.toNat_of_nonneg (Int.ediv_nonneg (by omega) hpos.le)]] at hquot
      push_cast at hquot
      rw [add_mul, add_mul, one_mul] at hquot
      rw [add_mul, one_mul] at hout
      omega
    · rw [IntType.conv_of_inRange ((unsigned_inRange hs).mpr (by omega)),
        Int.ediv_eq_zero_of_lt hnn (by omega)] at hn
      omega

end Wrapped

/-! ## When the values come out -/

/-- The calls that are spared the write beyond the vector: the arithmetic is unsigned, `a` and the
length of the vector fit, and the loop makes no pass or the only one that it is to make. -/
def Spared (t : RangeTypes) (a b delta : Int) : Prop :=
  t.P.signed = false ∧ 0 ≤ a ∧ max a b - min a b + delta < t.P.card ∧
    (ZeroOnly a b delta ∨ DownOnce t.P.card a b delta ∨ UpOnce t.P.card a b delta)

section Main

variable {t : RangeTypes} {a b delta : Int}

theorem isless_iff : isless a b = true ↔ toDouble a < toDouble b := decide_eq_true_iff

theorem range_of_less (h : toDouble a < toDouble b) :
    t.range a b delta = t.cap b a delta >>= fun cap =>
      fill (t.upTest b delta) (t.upStep delta) cap 0 (t.C.conv a) :=
  if_pos (isless_iff.mpr h)

theorem range_of_not_less (h : ¬toDouble a < toDouble b) :
    t.range a b delta = t.cap a b delta >>= fun cap =>
      fill (t.downTest b delta) (t.downStep delta) cap 0 (t.C.conv a) :=
  if_neg (mt isless_iff.mp h)

/-- A negative start is not a value of the unsigned vector. -/
theorem nonneg_of_fills (hs : t.P.signed = false) {test : Int → Except RangeStop Bool}
    {step : Int → Except RangeStop Int} {e : Nat → Int} {n k : Nat} {last : Int}
    (h : Fills test step e (n + 1) (t.C.conv a) k last) (he : e 0 = a) : 0 ≤ a := by
  rcases Nat.eq_zero_or_pos k with hk | hk
  · have hzero := h.rest 0 hk.le (Nat.succ_pos n)
    omega
  · have hfirst := h.first hk
    rw [C_eq_P hs, he] at hfirst
    rw [← hfirst]
    exact ((unsigned_inRange hs).mp (t.P.conv_inRange a)).1

theorem lt_card (hs : t.P.signed = false) (ha : t.A.InRange a) : a < t.P.card := by
  have hlt := ha.2.trans_le t.A_hi_le
  rwa [IntType.hi_of_unsigned hs] at hlt

theorem start_inRange (ha : t.A.InRange a) (h0 : t.P.signed = false → 0 ≤ a) : t.C.InRange a := by
  cases hs : t.P.signed with
  | true => exact (A_embeds_C hs).inRange ha
  | false =>
    rw [C_eq_P hs]
    exact (unsigned_inRange hs).mpr ⟨h0 hs, lt_card hs ha⟩

/-- In signed arithmetic a test that is made at all has the exact bound. -/
theorem bound_up_of_signed (hs : t.P.signed = true) (hb : t.B.InRange b) (hd : t.C.InRange delta)
    {x : Int} {r : Bool} (h : t.upTest b delta x = .ok r) :
    op t.P (t.P.conv b + t.P.conv delta) = .ok (b + delta) := by
  obtain ⟨bound, hop, -⟩ := upTest_ok h
  have hbound := IntType.arith_of_signed hs (op_ok hop)
  rw [IntType.conv_of_inRange ((B_embeds hs).inRange hb),
    IntType.conv_of_inRange ((C_embeds hs).inRange hd)] at hbound
  rw [hop, hbound]

theorem bound_down_of_signed (hs : t.P.signed = true) (hb : t.B.InRange b) (hd : t.C.InRange delta)
    {x : Int} {r : Bool} (h : t.downTest b delta x = .ok r) :
    op t.P (t.P.conv b - t.P.conv delta) = .ok (b - delta) := by
  obtain ⟨bound, hop, -⟩ := downTest_ok h
  have hbound := IntType.arith_of_signed hs (op_ok hop)
  rw [IntType.conv_of_inRange ((B_embeds hs).inRange hb),
    IntType.conv_of_inRange ((C_embeds hs).inRange hd)] at hbound
  rw [hop, hbound]

/-- The sum in the length has not wrapped around, where the vector has room for the values. -/
theorem sum_lt_card (hs : t.P.signed = false) (hd : t.C.InRange delta) (hpos : 0 < delta)
    {x y : Int} (hx : x = max a b) (hy : y = min a b)
    (hcap : t.cap x y delta = .ok (stepsBetween a b delta + 1)) :
    max a b - min a b + delta < t.P.card := by
  have hdP : t.P.InRange delta := C_eq_P hs ▸ hd
  rw [cap_of_unsigned hs hpos hdP, IntType.conv_of_unsigned hs, hx, hy] at hcap
  exact (cap_eq_steps_iff (by omega) hpos ((unsigned_inRange hs).mp hdP).2).mp (Except.ok.inj hcap)

theorem spared_of_range_up (ha : t.A.InRange a) (hb : t.B.InRange b) (hd : t.C.InRange delta)
    (hpos : 0 < delta) (hless : toDouble a < toDouble b)
    (h : t.range a b delta = .ok (between a b delta)) : t.Spared a b delta := by
  have hab : a < b := lt_of_roundInt_lt (p := 53) (by decide) hless
  rw [range_of_less hless] at h
  obtain ⟨n, hcap, hfill⟩ := bind_eq_ok h
  have hn : n = stepsBetween a b delta + 1 := by rw [← length_fill hfill, length_between]
  subst hn
  rw [between_up hab.le] at hfill
  obtain ⟨k, last, hfills⟩ := fills_of_fill hfill
  have h0 : t.P.signed = false → 0 ≤ a := fun hs => nonneg_of_fills hs hfills (by simp)
  have haC := start_inRange ha h0
  cases hs : t.P.signed with
  | true =>
    exact (not_fillsUp hpos hab.le haC (bound_up_of_signed hs hb hd hfills.stops) hfills).elim
  | false =>
    have hbcard : b < t.P.card := by
      have hlt := hb.2.trans_le t.B_hi_le
      rwa [IntType.hi_of_unsigned hs] at hlt
    have hsum := sum_lt_card hs hd hpos (by omega) (by omega) hcap
    rcases lt_or_ge (b + delta) t.P.card with hfit | hwrap
    · have hbound : op t.P (t.P.conv b + t.P.conv delta) = .ok (b + delta) := by
        have := h0 hs
        rw [bound_up hs, IntType.conv_of_inRange ((unsigned_inRange hs).mpr (by omega))]
      exact (not_fillsUp hpos hab.le haC hbound hfills).elim
    · have honce := once_of_fillsUp hs hpos (h0 hs) hless hab.le hbcard hwrap (by omega) hfills
      exact ⟨hs, h0 hs, hsum, Or.inr (Or.inr honce)⟩

theorem spared_of_range_down (ha : t.A.InRange a) (hb : t.B.InRange b) (hd : t.C.InRange delta)
    (hpos : 0 < delta) (hless : ¬toDouble a < toDouble b)
    (h : t.range a b delta = .ok (between a b delta)) : t.Spared a b delta := by
  rw [range_of_not_less hless] at h
  obtain ⟨n, hcap, hfill⟩ := bind_eq_ok h
  have hn : n = stepsBetween a b delta + 1 := by rw [← length_fill hfill, length_between]
  rcases lt_or_ge a b with hab | hba
  · exfalso
    rw [between_up hab.le, ← hn] at hfill
    obtain ⟨k, last, hfills⟩ := fills_of_fill hfill
    have h0 : t.P.signed = false → 0 ≤ a := fun hs =>
      nonneg_of_fills hs (hn ▸ hfills) (by simp)
    exact range_ne_of_rounded hd hpos ha hb h0 hab (not_lt.mp hless) hcap hn
  · subst hn
    rw [between_down hba] at hfill
    obtain ⟨k, last, hfills⟩ := fills_of_fill hfill
    have h0 : t.P.signed = false → 0 ≤ a := fun hs => nonneg_of_fills hs hfills (by simp)
    have haC := start_inRange ha h0
    cases hs : t.P.signed with
    | true =>
      exact (not_fillsDown hpos hba haC (bound_down_of_signed hs hb hd hfills.stops) hfills).elim
    | false =>
      have hsum := sum_lt_card hs hd hpos (by omega) (by omega) hcap
      have hacard := lt_card hs ha
      rcases lt_or_ge b delta with hbd | hfit
      · rcases once_of_fillsDown hs hpos (h0 hs) hba hbd (by omega) hfills with hzero | honce
        · exact ⟨hs, h0 hs, hsum, Or.inl hzero⟩
        · exact ⟨hs, h0 hs, hsum, Or.inr (Or.inl honce)⟩
      · have hbound : op t.P (t.P.conv b - t.P.conv delta) = .ok (b - delta) := by
          rw [bound_down hs, IntType.conv_of_inRange ((unsigned_inRange hs).mpr (by omega))]
        exact (not_fillsDown hpos hba haC hbound hfills).elim

theorem cap_eq_steps (hs : t.P.signed = false) (hd : t.C.InRange delta) (hpos : 0 < delta)
    {x y : Int} (hx : x = max a b) (hy : y = min a b)
    (hsum : max a b - min a b + delta < t.P.card) :
    t.cap x y delta = .ok (stepsBetween a b delta + 1) := by
  have hdP : t.P.InRange delta := C_eq_P hs ▸ hd
  rw [cap_of_unsigned hs hpos hdP, IntType.conv_of_unsigned hs, hx, hy]
  exact congrArg Except.ok
    ((cap_eq_steps_iff (by omega) hpos ((unsigned_inRange hs).mp hdP).2).mpr hsum)

/-- A step that stays in the unsigned type. -/
theorem step_inRange (hs : t.P.signed = false) {x : Int} (hx : t.P.InRange x) :
    (op t.C.promote x >>= fun next => .ok (t.C.conv next)) = .ok x := by
  rw [promote_C hs, C_eq_P hs, op_of_unsigned hs, IntType.conv_of_inRange hx, ok_bind,
    IntType.conv_of_inRange hx]

theorem steps_eq_zero (h : max a b - min a b < delta) :
    stepsBetween a b delta = 0 := by
  rw [stepsBetween, Int.ediv_eq_zero_of_lt (by omega) h, Int.toNat_zero]

theorem range_of_zeroOnly (hs : t.P.signed = false) (ha : t.A.InRange a) (hd : t.C.InRange delta)
    (hpos : 0 < delta) (hsum : max a b - min a b + delta < t.P.card) (h : ZeroOnly a b delta) :
    t.range a b delta = .ok (between a b delta) := by
  obtain ⟨rfl, hb, hlow⟩ := h
  have hless : ¬toDouble 0 < toDouble b := not_lt.mpr (toDouble_mono hb)
  have hstart : t.C.conv 0 = 0 := IntType.conv_of_inRange (start_inRange ha fun _ => le_rfl)
  have htest : t.downTest b delta 0 = .ok false := by
    rw [downTest_wrapped hs (by omega) (by omega)]
    have hlarge : toDouble 0 < toDouble (t.P.card + b - delta) := by
      rw [toDouble, roundInt_zero]
      exact roundInt_pos (by decide) (by omega)
    exact congrArg Except.ok (decide_eq_false (not_le.mpr hlarge))
  rw [range_of_not_less hless, cap_eq_steps hs hd hpos (by omega) (by omega) hsum, ok_bind, hstart,
    fill_of_stopped htest, between_down hb, steps_eq_zero (by omega)]
  simp

theorem range_of_downOnce (hs : t.P.signed = false) (ha : t.A.InRange a) (hd : t.C.InRange delta)
    (hpos : 0 < delta) (h0 : 0 ≤ a) (hsum : max a b - min a b + delta < t.P.card)
    (h : DownOnce t.P.card a b delta) : t.range a b delta = .ok (between a b delta) := by
  obtain ⟨hba, hbd, hda, heq, hdrop, hbehind⟩ := h
  have hless : ¬toDouble a < toDouble b := not_lt.mpr (toDouble_mono hba)
  have hstart : t.C.conv a = a := IntType.conv_of_inRange (start_inRange ha fun _ => h0)
  have hacard := lt_card hs ha
  have htest : t.downTest b delta a = .ok true := by
    rw [downTest_wrapped hs hbd (by omega)]
    exact congrArg Except.ok (decide_eq_true heq.ge)
  have hstep : t.downStep delta a = .ok (a - delta) :=
    step_inRange hs ((unsigned_inRange hs).mpr (by omega))
  have hnext : t.downTest b delta (a - delta) = .ok false := by
    rw [downTest_wrapped hs hbd (by omega)]
    refine congrArg Except.ok (decide_eq_false (not_le.mpr ?_))
    rw [← heq]
    exact hdrop
  rw [range_of_not_less hless, cap_eq_steps hs hd hpos (by omega) (by omega) hsum, ok_bind, hstart,
    fill_once htest hstep hnext, between_down hba]
  rcases hbehind with hsingle | ⟨rfl, hb, hlow⟩
  · rw [steps_eq_zero (by omega)]
    simp
  · have hsteps : stepsBetween a b a = 1 := by
      have hquot : (max a b - min a b) / a = 1 := by
        have hself : a / a = 1 := Int.ediv_self hpos.ne'
        rw [show max a b - min a b = -b + a by omega, Int.add_ediv_of_dvd_right (Int.dvd_refl a),
          hself, Int.ediv_eq_zero_of_lt (by omega) (by omega)]
        rfl
      rw [stepsBetween, hquot]
      rfl
    rw [hsteps]
    simp [List.range_succ]

theorem range_of_upOnce (hs : t.P.signed = false) (ha : t.A.InRange a) (hb : t.B.InRange b)
    (hd : t.C.InRange delta) (hpos : 0 < delta) (h0 : 0 ≤ a)
    (hsum : max a b - min a b + delta < t.P.card) (h : UpOnce t.P.card a b delta) :
    t.range a b delta = .ok (between a b delta) := by
  obtain ⟨hless, hwrap, hfit, hsingle, heq, hrise⟩ := h
  have hab : a < b := lt_of_roundInt_lt (p := 53) (by decide) hless
  have hstart : t.C.conv a = a := IntType.conv_of_inRange (start_inRange ha fun _ => h0)
  have hbcard : b < t.P.card := by
    have hlt := hb.2.trans_le t.B_hi_le
    rwa [IntType.hi_of_unsigned hs] at hlt
  have hhigh : b + delta < 2 * t.P.card := by omega
  have htest : t.upTest b delta a = .ok true := by
    rw [upTest_wrapped hs hwrap hhigh]
    exact congrArg Except.ok (decide_eq_true heq.le)
  have hstep : t.upStep delta a = .ok (a + delta) :=
    step_inRange hs ((unsigned_inRange hs).mpr (by omega))
  have hnext : t.upTest b delta (a + delta) = .ok false := by
    rw [upTest_wrapped hs hwrap hhigh]
    refine congrArg Except.ok (decide_eq_false (not_le.mpr ?_))
    rw [← heq]
    exact hrise
  rw [range_of_less hless, cap_eq_steps hs hd hpos (by omega) (by omega) hsum, ok_bind, hstart,
    fill_once htest hstep hnext, between_up hab.le, steps_eq_zero (by omega)]
  simp

/-- For bounds of any integer types and any positive step, the call gives the values between the
bounds exactly when it is spared the write beyond the vector. -/
theorem range_eq_between_iff (t : RangeTypes) (a b delta : Int) (ha : t.A.InRange a)
    (hb : t.B.InRange b) (hd : t.C.InRange delta) (hpos : 0 < delta) :
    t.range a b delta = .ok (between a b delta) ↔ t.Spared a b delta := by
  constructor
  · intro h
    by_cases hless : toDouble a < toDouble b
    · exact spared_of_range_up ha hb hd hpos hless h
    · exact spared_of_range_down ha hb hd hpos hless h
  · rintro ⟨hs, h0, hsum, hzero | hdown | hup⟩
    · exact range_of_zeroOnly hs ha hd hpos hsum hzero
    · exact range_of_downOnce hs ha hd hpos h0 hsum hdown
    · exact range_of_upOnce hs ha hb hd hpos h0 hsum hup

end Main

/-- `std::size_t` for both bounds. -/
def sizes : RangeTypes := ⟨IntType.size, IntType.size, IntType.size, Or.inl ⟨rfl, rfl⟩⟩

/-- `int` for both bounds. -/
def ints : RangeTypes := ⟨IntType.int, IntType.int, IntType.int, Or.inl ⟨rfl, rfl⟩⟩

theorem range_sizes_zero : sizes.range 0 0 7 = .ok (between 0 0 7) := by
  refine (range_eq_between_iff sizes 0 0 7 ?_ ?_ ?_ ?_).mpr ⟨rfl, ?_, ?_, .inl ⟨rfl, ?_, ?_⟩⟩ <;> decide

/-- From one to three the vector has three places, and the fourth is written. -/
theorem range_ints_one_three :
    ints.A.InRange 1 ∧ ints.B.InRange 3 ∧ ints.C.InRange 1 ∧ between 1 3 1 = [1, 2, 3] ∧
      ints.range 1 3 1 = .error (.outside 3) ∧ ints.range 1 3 1 ≠ .ok (between 1 3 1) := by
  have hrun : ints.range 1 3 1 = .error (.outside 3) := by decide
  refine ⟨by decide, by decide, by decide, by decide, hrun, ?_⟩
  rw [hrun]
  intro h
  cases h

end RangeTypes

end RaftLib.Util
