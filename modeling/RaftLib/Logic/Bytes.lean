/-
# `RaftLib.Logic.Bytes` -- arrays of values as arrays of bytes, and copying a prefix of them

A `Layout` says how a value of a type sits in memory: how many bytes it takes and how it is written
to and read back from them. An array of `n` values is then an array of `n * size` bytes (`bytes`,
`values`), value `i` in the bytes from `i * size` on.

`memcpy dst src len` copies the first `len` bytes. It has a result only if both arrays are that
long, so a copy that would touch a byte outside either of them has none. `values_memcpy` says what
each value of the target reads as afterwards, byte by byte; when the prefix ends inside a value, that
value is a mixture.
-/
import Mathlib.Algebra.BigOperators.Fin
import Mathlib.Logic.Equiv.Fin.Basic

namespace RaftLib.Logic.Bytes

variable {α : Type*} {n m len : Nat}

/-! ## Words -/

/-- A byte, as the number it is. -/
def byteEquiv : Fin 256 ≃ UInt8 := ⟨UInt8.ofFin, UInt8.toFin, fun _ => rfl, fun _ => rfl⟩

/-- The `n` little-endian bytes of a number below `256 ^ n`. -/
def leBytes (n : Nat) : Fin (256 ^ n) ≃ (Fin n → UInt8) :=
  finFunctionFinEquiv.symm.trans (Equiv.arrowCongr (Equiv.refl _) byteEquiv)

/-- The four bytes of a 32-bit word. -/
def u32Bytes : UInt32 ≃ (Fin 4 → UInt8) :=
  Equiv.trans ⟨UInt32.toFin, UInt32.ofFin, fun _ => rfl, fun _ => rfl⟩ (leBytes 4)

/-- The eight bytes of a 64-bit word. -/
def u64Bytes : UInt64 ≃ (Fin 8 → UInt8) :=
  Equiv.trans ⟨UInt64.toFin, UInt64.ofFin, fun _ => rfl, fun _ => rfl⟩ (leBytes 8)

/-! ## Layouts -/

/-- How a value of `α` sits in memory. -/
structure Layout (α : Type*) where
  size : Nat
  size_pos : 0 < size
  encode : α → Fin size → UInt8
  decode : (Fin size → UInt8) → α
  decode_encode : ∀ v, decode (encode v) = v

namespace Layout

/-- A 32-bit word, least significant byte first. -/
def u32 : Layout UInt32 where
  size := 4
  size_pos := by decide
  encode := u32Bytes
  decode := u32Bytes.symm
  decode_encode := u32Bytes.symm_apply_apply

variable (L : Layout α)

/-- The bytes of an array of values. -/
def bytes (a : Fin n → α) (p : Fin (n * L.size)) : UInt8 :=
  L.encode (a (finProdFinEquiv.symm p).1) (finProdFinEquiv.symm p).2

/-- The values that an array of bytes holds. -/
def values (b : Fin (n * L.size) → UInt8) (i : Fin n) : α :=
  L.decode fun k => b (finProdFinEquiv (i, k))

theorem bytes_at (a : Fin n → α) (i : Fin n) (k : Fin L.size) :
    L.bytes a (finProdFinEquiv (i, k)) = L.encode (a i) k := by
  rw [bytes, Equiv.symm_apply_apply]

end Layout

/-! ## Copying -/

/-- Copy the first `len` bytes of `src` over the first `len` bytes of `dst`, if both have them. -/
def memcpy (dst : Fin n → UInt8) (src : Fin m → UInt8) (len : Nat) : Option (Fin n → UInt8) :=
  if h : len ≤ n ∧ len ≤ m then
    some fun p => if hp : (p : Nat) < len then src ⟨p, hp.trans_le h.2⟩ else dst p
  else none

theorem memcpy_isSome_iff {dst : Fin n → UInt8} {src : Fin m → UInt8} :
    (memcpy dst src len).isSome ↔ len ≤ n ∧ len ≤ m := by
  by_cases h : len ≤ n ∧ len ≤ m
  · simp [memcpy, h]
  · simp [memcpy, h]

namespace Layout

variable (L : Layout α)

/-- **Value `i` after a copy**: its bytes below `len` are the source's, the others as they were. -/
theorem values_memcpy {dst : Fin n → α} {src : Fin m → α} {b : Fin (n * L.size) → UInt8}
    (hb : memcpy (L.bytes dst) (L.bytes src) len = some b) (h : m ≤ n) (i : Fin m) :
    L.values b (i.castLE h) = L.decode fun k =>
      if k + L.size * i < len then L.encode (src i) k else L.encode (dst (i.castLE h)) k := by
  have hlen : len ≤ n * L.size ∧ len ≤ m * L.size := by
    rw [← memcpy_isSome_iff, hb]
    rfl
  rw [memcpy, dif_pos hlen, Option.some_inj] at hb
  subst hb
  refine congrArg L.decode (funext fun k => ?_)
  have hplace : (finProdFinEquiv (i.castLE h, k) : Nat) = k + L.size * i := rfl
  beta_reduce
  by_cases hk : k + L.size * (i : Nat) < len
  · rw [dif_pos (hplace ▸ hk), if_pos hk, ← L.bytes_at src i k]
    exact congrArg (L.bytes src) (Fin.ext rfl)
  · rw [dif_neg (hplace ▸ hk), if_neg hk, L.bytes_at]

/-- A value that lies inside the copied prefix is the source's. -/
theorem values_memcpy_of_le {dst : Fin n → α} {src : Fin m → α} {b : Fin (n * L.size) → UInt8}
    (hb : memcpy (L.bytes dst) (L.bytes src) len = some b) (h : m ≤ n) (i : Fin m)
    (hi : L.size * (i + 1) ≤ len) : L.values b (i.castLE h) = src i := by
  rw [L.values_memcpy hb h i, ← L.decode_encode (src i)]
  refine congrArg L.decode (funext fun k => ?_)
  have hk : k + L.size * (i : Nat) < len := by
    have := k.isLt
    rw [Nat.mul_succ] at hi
    omega
  rw [if_pos hk, L.decode_encode]

end Layout

end RaftLib.Logic.Bytes
