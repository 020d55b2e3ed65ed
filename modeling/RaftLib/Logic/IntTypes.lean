/-
# `RaftLib.Logic.IntTypes` -- the built-in integer types of C++ and their arithmetic

A type has a width and may be signed. Narrow operands are promoted to `int`, and two operands of
different types are brought to one by the usual arithmetic conversions. Unsigned arithmetic is taken
modulo the power of the width; signed arithmetic that leaves its type is undefined, here `none`. A
conversion to a type gives the value that is congruent modulo the power of its width, which is what
C++20 requires of every type and what its predecessors leave to the implementation for signed ones.

Types are compared by width and sign. Distinct types that agree in both, such as `long` and
`long long`, are one here.
-/
import Mathlib.Tactic.Common
import Mathlib.Tactic.Ring
import Mathlib.Tactic.Positivity
import Mathlib.Algebra.Order.Ring.Int

namespace RaftLib.Logic

/-- An integer type. -/
structure IntType where
  bits : Nat
  signed : Bool
  sized : bits ∈ [8, 16, 32, 64]
  deriving DecidableEq

namespace IntType

theorem int_sized : 32 ∈ [8, 16, 32, 64] := by decide

theorem word_sized : 64 ∈ [8, 16, 32, 64] := by decide

/-- `int`. -/
def int : IntType := ⟨32, true, int_sized⟩

/-- `std::size_t`. -/
def size : IntType := ⟨64, false, word_sized⟩

/-- How many values the type has. -/
def card (T : IntType) : Int := 2 ^ T.bits

/-- The least of them. -/
def lo (T : IntType) : Int := if T.signed then -2 ^ (T.bits - 1) else 0

/-- One above the greatest. -/
def hi (T : IntType) : Int := T.lo + T.card

/-- The values of the type. -/
def InRange (T : IntType) (x : Int) : Prop := T.lo ≤ x ∧ x < T.hi

instance (T : IntType) (x : Int) : Decidable (T.InRange x) :=
  inferInstanceAs (Decidable (_ ∧ _))

/-- The value that a conversion of `x` to the type gives. -/
def conv (T : IntType) (x : Int) : Int := (x - T.lo) % T.card + T.lo

/-- The result of an operation in the type whose exact result is `x`. -/
def arith (T : IntType) (x : Int) : Option Int :=
  if T.signed ∧ ¬T.InRange x then none else some (T.conv x)

/-- The integer promotions. -/
def promote (T : IntType) : IntType := if T.bits < 32 then int else T

/-- The type of an operation whose promoted operands have these types. -/
def usual (S T : IntType) : IntType :=
  if S.signed = T.signed then if T.bits ≤ S.bits then S else T
  else if S.signed then if S.bits ≤ T.bits then T else S
  else if T.bits ≤ S.bits then S else T

/-! ## Values and conversions -/

section Values

variable {T : IntType} {x y z : Int}

theorem bits_pos (T : IntType) : 0 < T.bits := by
  have h := T.sized
  simp only [List.mem_cons, List.not_mem_nil, or_false] at h
  omega

theorem card_pos (T : IntType) : 0 < T.card := by
  unfold card
  positivity

theorem lo_of_unsigned (h : T.signed = false) : T.lo = 0 := by simp [lo, h]

theorem hi_of_unsigned (h : T.signed = false) : T.hi = T.card := by
  rw [hi, lo_of_unsigned h, zero_add]

theorem lo_nonpos (T : IntType) : T.lo ≤ 0 := by
  unfold lo
  split
  · exact neg_nonpos.mpr (by positivity)
  · exact le_rfl

theorem hi_of_signed (h : T.signed = true) : T.hi = 2 ^ (T.bits - 1) := by
  have hpow : (2 : Int) ^ T.bits = 2 * 2 ^ (T.bits - 1) := by
    rw [← pow_succ', Nat.sub_add_cancel T.bits_pos]
  rw [hi, card, lo, if_pos h, hpow]
  ring

theorem conv_inRange (T : IntType) (x : Int) : T.InRange (T.conv x) := by
  have hnn := Int.emod_nonneg (x - T.lo) T.card_pos.ne'
  have hlt := Int.emod_lt_of_pos (x - T.lo) T.card_pos
  unfold InRange conv hi
  omega

theorem conv_of_inRange (h : T.InRange x) : T.conv x = x := by
  have hlt := h.2
  rw [hi] at hlt
  rw [conv, Int.emod_eq_of_lt (by have := h.1; omega) (by omega), Int.sub_add_cancel]

/-- A conversion takes away a multiple of the number of values. -/
theorem conv_eq (T : IntType) (x : Int) : T.conv x = x - T.card * ((x - T.lo) / T.card) := by
  have hdiv := Int.mul_ediv_add_emod (x - T.lo) T.card
  rw [conv]
  omega

/-- From above the least value it goes down or nowhere. -/
theorem conv_le (h : T.lo ≤ x) : T.conv x ≤ x := by
  have hquot : 0 ≤ T.card * ((x - T.lo) / T.card) :=
    Int.mul_nonneg T.card_pos.le (Int.ediv_nonneg (by omega) T.card_pos.le)
  rw [conv_eq]
  omega

/-- From below the greatest value it goes up or nowhere. -/
theorem le_conv (h : x < T.hi) : x ≤ T.conv x := by
  have hlt : (x - T.lo) / T.card < 1 := by
    apply Int.ediv_lt_of_lt_mul T.card_pos
    rw [hi] at h
    omega
  have hquot : T.card * ((x - T.lo) / T.card) ≤ 0 :=
    Int.mul_nonpos_of_nonneg_of_nonpos T.card_pos.le (by omega)
  rw [conv_eq]
  omega

theorem conv_of_unsigned (h : T.signed = false) (x : Int) : T.conv x = x % T.card := by
  rw [conv, lo_of_unsigned h, sub_zero, add_zero]

@[simp] theorem conv_conv (T : IntType) (x : Int) : T.conv (T.conv x) = T.conv x :=
  conv_of_inRange (T.conv_inRange x)

/-- One turn too far up. -/
theorem conv_sub_card (h : T.InRange (x - T.card)) : T.conv x = x - T.card := by
  rw [← conv_of_inRange h, conv, conv, ← Int.sub_emod_right (x - T.lo)]
  congr 2
  omega

/-- One turn too far down. -/
theorem conv_add_card (h : T.InRange (x + T.card)) : T.conv x = x + T.card := by
  rw [← conv_of_inRange h, conv, conv, ← Int.add_emod_right (x - T.lo)]
  congr 2
  omega

theorem arith_of_unsigned (h : T.signed = false) (x : Int) : T.arith x = some (T.conv x) := by
  rw [arith, if_neg (by simp [h])]

theorem arith_eq_some (h : T.arith x = some z) : z = T.conv x := by
  unfold arith at h
  split at h
  case isTrue => cases h
  case isFalse => exact (Option.some.inj h).symm

theorem arith_of_signed (hs : T.signed = true) (h : T.arith x = some z) : z = x := by
  have hz := arith_eq_some h
  unfold arith at h
  split at h
  case isTrue => cases h
  case isFalse hin =>
    rw [hz, conv_of_inRange]
    by_contra hout
    exact hin ⟨hs, hout⟩

end Values

/-! ## What the conversions of operands keep -/

section Operands

variable {S T : IntType}

/-- Every value of `S` is one of `T`. -/
def Embeds (S T : IntType) : Prop := T.lo ≤ S.lo ∧ S.hi ≤ T.hi

theorem Embeds.refl (T : IntType) : T.Embeds T := ⟨le_rfl, le_rfl⟩

theorem Embeds.trans {U : IntType} (h : S.Embeds T) (h' : T.Embeds U) : S.Embeds U :=
  ⟨h'.1.trans h.1, h.2.trans h'.2⟩

theorem Embeds.inRange (h : S.Embeds T) {x : Int} (hx : S.InRange x) : T.InRange x :=
  ⟨h.1.trans hx.1, hx.2.trans_le h.2⟩

theorem pow_le_pow {m n : Nat} (h : m ≤ n) : (2 : Int) ^ m ≤ 2 ^ n :=
  pow_le_pow_right₀ (by decide) h

/-- A signed type holds what a narrower or equally wide signed type does. -/
theorem embeds_of_signed (hS : S.signed = true) (hT : T.signed = true) (h : S.bits ≤ T.bits) :
    S.Embeds T := by
  have hpow := pow_le_pow (Nat.sub_le_sub_right h 1)
  rw [Embeds, hi_of_signed hS, hi_of_signed hT, lo, lo, if_pos hS, if_pos hT]
  exact ⟨neg_le_neg hpow, hpow⟩

/-- And what a narrower unsigned type does. -/
theorem embeds_of_unsigned (hS : S.signed = false) (hT : T.signed = true) (h : S.bits < T.bits) :
    S.Embeds T := by
  have hpow : (2 : Int) ^ S.bits ≤ 2 ^ (T.bits - 1) := pow_le_pow (by omega)
  rw [Embeds, hi_of_signed hT, hi_of_unsigned hS, lo_of_unsigned hS]
  exact ⟨T.lo_nonpos, hpow⟩

/-- The greatest value of a wider or equally wide unsigned type is as great. -/
theorem hi_le_of_unsigned (hT : T.signed = false) (h : S.bits ≤ T.bits) : S.hi ≤ T.hi := by
  rw [hi_of_unsigned hT]
  calc S.hi ≤ S.card := by
        have := S.lo_nonpos
        rw [hi]
        omega
    _ ≤ T.card := pow_le_pow h

theorem int_bits_le_promote (T : IntType) : 32 ≤ T.promote.bits := by
  unfold promote
  split
  · exact le_rfl
  · omega

theorem promote_eq_int_or (T : IntType) : T.promote = int ∨ T.promote = T := by
  unfold promote
  split
  · exact Or.inl rfl
  · exact Or.inr rfl

theorem promote_of_wide (h : 32 ≤ T.bits) : T.promote = T := if_neg (by omega)

/-- Promotion keeps values. -/
theorem embeds_promote (T : IntType) : T.Embeds T.promote := by
  unfold promote
  split
  case isTrue h =>
    cases hs : T.signed with
    | true => exact embeds_of_signed hs rfl h.le
    | false => exact embeds_of_unsigned hs rfl h
  case isFalse => exact Embeds.refl T

theorem usual_eq_or (S T : IntType) : usual S T = S ∨ usual S T = T := by
  unfold usual
  split_ifs <;> simp

/-- The common type of the operands holds the values of both, if it is signed. -/
theorem embeds_usual (h : (usual S T).signed = true) :
    S.Embeds (usual S T) ∧ T.Embeds (usual S T) := by
  unfold usual at h ⊢
  split_ifs at h ⊢ with hsame hle hS hle hle
  · exact ⟨Embeds.refl S, embeds_of_signed (hsame ▸ h) h hle⟩
  · exact ⟨embeds_of_signed (hsame ▸ h) h (by omega), Embeds.refl T⟩
  · exact absurd (hS.trans h.symm) hsame
  · have hT : T.signed = false := by
      rw [← Bool.not_eq_true]
      exact fun hT => hsame (hS.trans hT.symm)
    exact ⟨Embeds.refl S, embeds_of_unsigned hT h (by omega)⟩
  · exact absurd h hS
  · exact ⟨embeds_of_unsigned (Bool.not_eq_true _ ▸ hS) h (by omega), Embeds.refl T⟩

/-- Its greatest value is as great as theirs, signed or not. -/
theorem hi_le_usual (S T : IntType) : S.hi ≤ (usual S T).hi ∧ T.hi ≤ (usual S T).hi := by
  cases h : (usual S T).signed with
  | true => exact ⟨(embeds_usual h).1.2, (embeds_usual h).2.2⟩
  | false =>
    unfold usual at h ⊢
    split_ifs at h ⊢ with hsame hle hS hle hle
    · exact ⟨le_rfl, hi_le_of_unsigned h hle⟩
    · exact ⟨hi_le_of_unsigned h (by omega), le_rfl⟩
    · exact ⟨hi_le_of_unsigned h hle, le_rfl⟩
    · exact absurd (hS.symm.trans h) (by decide)
    · exact ⟨le_rfl, hi_le_of_unsigned h hle⟩
    · have hT : T.signed ≠ S.signed := fun heq => hsame heq.symm
      rw [h] at hT
      exact absurd (Bool.eq_false_of_not_eq_true hS).symm hT

end Operands

end IntType

end RaftLib.Logic
