/-
# `RaftLib.Queue.PointerWords` -- the pointers in 64-bit words (`pointer.cpp`)

`Queue.Pointer` counts the wraps with a natural number. Here index, counter and capacity are the
words of the source (`std::uint64_t` and `std::size_t`), so both sums and the counter are taken
modulo `2^64`. Each word pointer holds some pointer of `Queue.Pointer`, up to the counter's high
part, and `inc` and `incBy` move both alike: that is how the two tests for a wrap, `a == 0` after
one step and `a < in` after many, are seen to agree.

What is lost with the high part is the position. `pointer.hpp` says so next to the field, and leaves
the counter that has run over as a TODO.
-/
import Mathlib.Logic.Function.Iterate
import RaftLib.Queue.Pointer

namespace RaftLib.Queue

namespace Pointer

variable {c : Nat}

theorem ext_pos {p q : Pointer c} (h : p.pos = q.pos) : p = q := by
  have ha : p.a = q.a := by
    apply Fin.ext
    rw [← p.pos_mod, ← q.pos_mod, h]
  have hw : p.wrapA = q.wrapA := by rw [← p.pos_div, ← q.pos_div, h]
  cases p
  cases q
  exact congr (congrArg Pointer.mk ha) hw

theorem pos_iterate_inc (n : Nat) (p : Pointer c) : (inc^[n] p).pos = p.pos + n := by
  induction n generalizing p with
  | zero => rfl
  | succ n ih =>
    rw [Function.iterate_succ_apply, ih, pos_inc]
    omega

/-- The counter goes up when the sum reaches the capacity. -/
theorem wrapA_incBy (p : Pointer c) {n : Nat} (hn : n ≤ c) :
    (p.incBy n).wrapA = if c ≤ (p.a : Nat) + n then p.wrapA + 1 else p.wrapA := by
  have hlt := p.a.isLt
  have hquot : (p.incBy n).wrapA = p.wrapA + ((p.a : Nat) + n) / c := by
    rw [← pos_div, pos_incBy p hn, pos, Nat.mul_comm, Nat.add_assoc, Nat.mul_add_div p.a.pos]
  rw [hquot]
  split
  case isTrue h =>
    have hone : ((p.a : Nat) + n) / c = 1 := Nat.div_eq_of_lt_le (by omega) (by omega)
    rw [hone]
  case isFalse h => rw [Nat.div_eq_of_lt (by omega), Nat.add_zero]

/-- Up to one turn, advancing in bulk is advancing one by one. -/
theorem incBy_eq_iterate_inc (p : Pointer c) {n : Nat} (hn : n ≤ c) : p.incBy n = inc^[n] p := by
  apply ext_pos
  rw [pos_incBy p hn, pos_iterate_inc]

end Pointer

/-- A pointer as the source stores it, its index below the capacity. -/
structure PointerWords (maxCap : UInt64) where
  a : UInt64
  wrapA : UInt64
  inside : a < maxCap
  deriving DecidableEq, Repr

namespace PointerWords

variable {maxCap : UInt64}

theorem maxCap_pos (p : PointerWords maxCap) : 0 < maxCap :=
  UInt64.lt_of_le_of_lt UInt64.zero_le p.inside

/-- `ptr.a = ( ptr.a + 1 ) % ptr.max_cap; if( ptr.a == 0 ) ptr.wrap_a++`. -/
def inc (p : PointerWords maxCap) : PointerWords maxCap :=
  let a := (p.a + 1) % maxCap
  if a = 0 then ⟨a, p.wrapA + 1, UInt64.mod_lt _ p.maxCap_pos⟩
  else ⟨a, p.wrapA, UInt64.mod_lt _ p.maxCap_pos⟩

/-- `ptr.a = ( ptr.a + in ) % ptr.max_cap; if( ptr.a < in ) ptr.wrap_a++`. -/
def incBy (p : PointerWords maxCap) (n : UInt64) : PointerWords maxCap :=
  let a := (p.a + n) % maxCap
  if a < n then ⟨a, p.wrapA + 1, UInt64.mod_lt _ p.maxCap_pos⟩
  else ⟨a, p.wrapA, UInt64.mod_lt _ p.maxCap_pos⟩

/-- The linear position that the two words stand for. -/
def pos (p : PointerWords maxCap) : Nat := p.wrapA.toNat * maxCap.toNat + p.a.toNat

/-- The words of `p` hold the pointer `q`, its counter modulo `2^64`. -/
def Stores (p : PointerWords maxCap) (q : Pointer maxCap.toNat) : Prop :=
  p.a.toNat = q.a ∧ p.wrapA.toNat = q.wrapA % 2 ^ 64

/-- The pointer that the two words name, with a counter that has not run over. -/
def toPointer (p : PointerWords maxCap) : Pointer maxCap.toNat :=
  ⟨⟨p.a.toNat, UInt64.lt_iff_toNat_lt.mp p.inside⟩, p.wrapA.toNat⟩

@[simp] theorem pos_toPointer (p : PointerWords maxCap) : p.toPointer.pos = p.pos := rfl

theorem stores_toPointer (p : PointerWords maxCap) : p.Stores p.toPointer :=
  ⟨rfl, (Nat.mod_eq_of_lt p.wrapA.toNat_lt).symm⟩

namespace Stores

variable {p p' : PointerWords maxCap} {q : Pointer maxCap.toNat}

theorem unique (h : p.Stores q) (h' : p'.Stores q) : p = p' := by
  have ha : p.a = p'.a := UInt64.toNat_inj.mp (h.1.trans h'.1.symm)
  have hw : p.wrapA = p'.wrapA := UInt64.toNat_inj.mp (h.2.trans h'.2.symm)
  cases p
  cases p'
  simp only [PointerWords.mk.injEq]
  exact ⟨ha, hw⟩

/-- The counter's increment, which is the same word operation in both calls. -/
theorem wrapA_succ (h : p.Stores q) : (p.wrapA + 1).toNat = (q.wrapA + 1) % 2 ^ 64 := by
  rw [UInt64.toNat_add, h.2, UInt64.toNat_one, Nat.mod_add_mod]

/-- The next index does not overflow, as the capacity is a word itself. -/
theorem inc (h : p.Stores q) : p.inc.Stores q.inc := by
  have hidx : ((p.a + 1) % maxCap).toNat = ((q.a : Nat) + 1) % maxCap.toNat := by
    have hlt := q.a.isLt
    have hcap := maxCap.toNat_lt
    rw [UInt64.toNat_mod, UInt64.toNat_add, h.1, UInt64.toNat_one,
      Nat.mod_eq_of_lt (show (q.a : Nat) + 1 < 2 ^ 64 by omega)]
  have htest : (p.a + 1) % maxCap = 0 ↔ ((q.a : Nat) + 1) % maxCap.toNat = 0 := by
    rw [← UInt64.toNat_inj, hidx, UInt64.toNat_zero]
  by_cases hz : ((q.a : Nat) + 1) % maxCap.toNat = 0
  · simp only [PointerWords.inc, Pointer.inc, if_pos hz, if_pos (htest.mpr hz)]
    exact ⟨hidx, h.wrapA_succ⟩
  · simp only [PointerWords.inc, Pointer.inc, if_neg hz, if_neg (mt htest.mp hz)]
    exact ⟨hidx, h.2⟩

theorem incBy (h : p.Stores q) {n : UInt64} (hfit : p.a.toNat + n.toNat < 2 ^ 64) :
    (p.incBy n).Stores (q.incBy n.toNat) := by
  have hidx : ((p.a + n) % maxCap).toNat = ((q.a : Nat) + n.toNat) % maxCap.toNat := by
    rw [UInt64.toNat_mod, UInt64.toNat_add, Nat.mod_eq_of_lt hfit, h.1]
  have htest : (p.a + n) % maxCap < n ↔ ((q.a : Nat) + n.toNat) % maxCap.toNat < n.toNat := by
    rw [UInt64.lt_iff_toNat_lt, hidx]
  by_cases hlt : ((q.a : Nat) + n.toNat) % maxCap.toNat < n.toNat
  · simp only [PointerWords.incBy, Pointer.incBy, if_pos hlt, if_pos (htest.mpr hlt)]
    exact ⟨hidx, h.wrapA_succ⟩
  · simp only [PointerWords.incBy, Pointer.incBy, if_neg hlt, if_neg (mt htest.mp hlt)]
    exact ⟨hidx, h.2⟩

theorem iterate_inc (n : Nat) (h : p.Stores q) :
    (PointerWords.inc^[n] p).Stores (Pointer.inc^[n] q) := by
  induction n generalizing p q with
  | zero => exact h
  | succ n ih => exact ih h.inc

/-- The position is kept as long as the counter fits its word; past that the word holds
`2 ^ 64` turns less for each time it ran over. -/
theorem pos_eq (h : p.Stores q) : p.pos + 2 ^ 64 * (q.wrapA / 2 ^ 64) * maxCap.toNat = q.pos := by
  have hsplit := Nat.mod_add_div q.wrapA (2 ^ 64)
  calc p.pos + 2 ^ 64 * (q.wrapA / 2 ^ 64) * maxCap.toNat
      = (q.wrapA % 2 ^ 64 + 2 ^ 64 * (q.wrapA / 2 ^ 64)) * maxCap.toNat + q.a := by
        rw [PointerWords.pos, h.1, h.2, Nat.add_mul]
        omega
    _ = q.pos := by rw [hsplit, Pointer.pos]

end Stores

/-- The increments that take the counter over its last value. -/
def RunsOver (p : PointerWords maxCap) (n : UInt64) : Prop :=
  p.wrapA.toNat + 1 = 2 ^ 64 ∧ maxCap.toNat ≤ p.a.toNat + n.toNat

instance (p : PointerWords maxCap) (n : UInt64) : Decidable (p.RunsOver n) :=
  inferInstanceAs (Decidable (_ ∧ _))

theorem pos_incBy (p : PointerWords maxCap) {n : UInt64} (hn : n ≤ maxCap)
    (hfit : p.a.toNat + n.toNat < 2 ^ 64) :
    (p.incBy n).pos + (if p.RunsOver n then 2 ^ 64 * maxCap.toNat else 0) = p.pos + n.toNat := by
  have hle : n.toNat ≤ maxCap.toNat := UInt64.le_iff_toNat_le.mp hn
  have hword := p.wrapA.toNat_lt
  have hpos := (p.stores_toPointer.incBy hfit).pos_eq
  rw [Pointer.pos_incBy _ hle, Pointer.wrapA_incBy _ hle, pos_toPointer] at hpos
  change _ + 2 ^ 64 * ((if maxCap.toNat ≤ p.a.toNat + n.toNat then p.wrapA.toNat + 1
    else p.wrapA.toNat) / 2 ^ 64) * _ = _ at hpos
  rw [← hpos]
  congr 1
  by_cases hturn : maxCap.toNat ≤ p.a.toNat + n.toNat
  · by_cases hlast : p.wrapA.toNat + 1 = 2 ^ 64
    · rw [if_pos ⟨hlast, hturn⟩, if_pos hturn, hlast, Nat.div_self (by decide), Nat.mul_one]
    · rw [if_neg (fun h => hlast h.1), if_pos hturn, Nat.div_eq_of_lt (by omega), Nat.mul_zero,
        Nat.zero_mul]
  · rw [if_neg (fun h => hturn h.2), if_neg hturn, Nat.div_eq_of_lt hword, Nat.mul_zero,
      Nat.zero_mul]

/-- `incBy( n )` is `n` times `inc`, in index and in counter, also where the counter runs over; and
the position moves by `n` unless it does, when the words lose `2 ^ 64` turns. -/
theorem incBy_is_repeated_inc (p : PointerWords maxCap) (n : UInt64) (hn : n ≤ maxCap)
    (hfit : p.a.toNat + n.toNat < 2 ^ 64) :
    p.incBy n = inc^[n.toNat] p ∧ (p.incBy n).a < maxCap ∧
      (p.incBy n).pos + (if p.RunsOver n then 2 ^ 64 * maxCap.toNat else 0) =
        p.pos + n.toNat := by
  have hle : n.toNat ≤ maxCap.toNat := UInt64.le_iff_toNat_le.mp hn
  refine ⟨?_, (p.incBy n).inside, p.pos_incBy hn hfit⟩
  have hbulk := p.stores_toPointer.incBy hfit
  have hsingle := p.stores_toPointer.iterate_inc n.toNat
  rw [Pointer.incBy_eq_iterate_inc _ hle] at hbulk
  exact hbulk.unique hsingle

theorem zero_lt_three : (0 : UInt64) < 3 := by decide

theorem zero_lt_one : (0 : UInt64) < 1 := by decide

/-- A whole turn of a queue of three, from index zero. -/
def threePlaces : PointerWords 3 := ⟨0, 7, zero_lt_three⟩

theorem incBy_threePlaces :
    threePlaces.incBy 3 = inc^[3] threePlaces ∧ (threePlaces.incBy 3).a < 3 ∧
      (threePlaces.incBy 3).pos + 0 = threePlaces.pos + 3 :=
  incBy_is_repeated_inc threePlaces 3 (by decide) (by decide)

/-- The only place of a queue, with the counter at its last value. -/
def lastTurn : PointerWords 1 := ⟨0, 0xFFFFFFFFFFFFFFFF, zero_lt_one⟩

/-- One increment there takes the position from `2 ^ 64 - 1` back to zero. -/
theorem pos_incBy_lastTurn :
    (1 : UInt64) ≤ 1 ∧ lastTurn.a.toNat + (1 : UInt64).toNat < 2 ^ 64 ∧
      lastTurn.pos = 2 ^ 64 - 1 ∧ (lastTurn.incBy 1).pos = 0 ∧
      (lastTurn.incBy 1).pos ≠ lastTurn.pos + 1 := by
  decide

end PointerWords

end RaftLib.Queue
