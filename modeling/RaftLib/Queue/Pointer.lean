/-
# `RaftLib.Queue.Pointer` -- the read and write pointers of the ring buffer (`pointer.cpp`)

A `Pointer` is an index `a` below the capacity and a counter `wrapA` of how often the index has come
back to zero. The build without `JVEC_MACHINE` is modelled: each of the two is one word, and `val`
and `wrapIndicator` are plain loads. The index is bounded by construction; the counter is a natural
number, so nothing here speaks of the 64-bit counter running over (`pointer.hpp` puts that at
decades of wrapping once per cycle).

`Pointer.pos` is the number of increments since zero, `wrapA * maxCap + a`. Every later argument
about the queue is about positions; the index is the position's slot and the counter its turn.
-/
import RaftLib.Logic.Ring

namespace RaftLib.Queue

open RaftLib.Logic.Ring (slot)

/-- A read or write pointer of a queue of capacity `maxCap`. -/
structure Pointer (maxCap : Nat) where
  a : Fin maxCap
  wrapA : Nat
  deriving DecidableEq, Repr

namespace Pointer

variable {c : Nat}

/-- `Pointer( cap )`: index and counter at zero. -/
def init (cap : Nat) [NeZero cap] : Pointer cap := ⟨0, 0⟩

/-- `Pointer( cap, wrap_set )`, used for the write pointer over a caller's own array. -/
def initWrap (cap wrapSet : Nat) [NeZero cap] : Pointer cap := ⟨0, wrapSet⟩

/-- `Pointer( other, new_cap )`: the index is kept, the counter starts again at zero. -/
def resized {newCap : Nat} (other : Pointer c) (h : c ≤ newCap) : Pointer newCap :=
  ⟨other.a.castLE h, 0⟩

@[reducible] def val (p : Pointer c) : Fin c := p.a

@[reducible] def wrapIndicator (p : Pointer c) : Nat := p.wrapA

theorem succ_mod_lt (p : Pointer c) : (p.a + 1) % c < c := Nat.mod_lt _ p.a.pos

/-- `ptr.a = ( ptr.a + 1 ) % ptr.max_cap; if( ptr.a == 0 ) ptr.wrap_a++`. -/
def inc (p : Pointer c) : Pointer c :=
  let a : Fin c := ⟨(p.a + 1) % c, p.succ_mod_lt⟩
  if (a : Nat) = 0 then ⟨a, p.wrapA + 1⟩ else ⟨a, p.wrapA⟩

/-- `ptr.a = ( ptr.a + in ) % ptr.max_cap; if( ptr.a < in ) ptr.wrap_a++`. -/
def incBy (p : Pointer c) (n : Nat) : Pointer c :=
  let a : Fin c := ⟨(p.a + n) % c, Nat.mod_lt _ p.a.pos⟩
  if (a : Nat) < n then ⟨a, p.wrapA + 1⟩ else ⟨a, p.wrapA⟩

/-- The linear position: how many single increments lead here from index and counter zero. -/
def pos (p : Pointer c) : Nat := p.wrapA * c + p.a

/-! ## Index and counter, read off the position -/

theorem pos_mod (p : Pointer c) : p.pos % c = p.a := by
  rw [pos, Nat.mul_add_mod_self_right, Nat.mod_eq_of_lt p.a.isLt]

theorem pos_div (p : Pointer c) : p.pos / c = p.wrapA := by
  rw [pos, Nat.mul_comm, Nat.mul_add_div p.a.pos, Nat.div_eq_of_lt p.a.isLt, Nat.add_zero]

@[simp] theorem slot_pos [NeZero c] (p : Pointer c) : slot c p.pos = p.a := by
  rw [Fin.ext_iff, RaftLib.Logic.Ring.slot_val, pos_mod]

@[simp] theorem pos_init (cap : Nat) [NeZero cap] : (init cap).pos = 0 := by
  simp [init, pos]

@[simp] theorem pos_resized {newCap : Nat} (p : Pointer c) (h : c ≤ newCap) :
    (p.resized h).pos = p.a := by
  simp [resized, pos]

/-- `inc` moves the position by one, over the end of the array or not. -/
@[simp] theorem pos_inc (p : Pointer c) : p.inc.pos = p.pos + 1 := by
  have hlt := p.a.isLt
  by_cases hend : (p.a : Nat) + 1 = c
  · have hz : ((p.a : Nat) + 1) % c = 0 := by rw [hend, Nat.mod_self]
    simp only [inc, hz, if_pos, pos, Nat.add_zero]
    rw [Nat.add_mul, Nat.one_mul]
    omega
  · have hmod : ((p.a : Nat) + 1) % c = p.a + 1 := Nat.mod_eq_of_lt (by omega)
    have hinc : p.inc = ⟨⟨p.a + 1, by omega⟩, p.wrapA⟩ := by simp [inc, hmod]
    simp only [hinc, pos, Nat.add_assoc]

/-- `incBy` moves it by as many as it is told, up to one turn. -/
theorem pos_incBy (p : Pointer c) {n : Nat} (hn : n ≤ c) : (p.incBy n).pos = p.pos + n := by
  have hlt := p.a.isLt
  by_cases hend : (p.a : Nat) + n < c
  · have hmod : ((p.a : Nat) + n) % c = p.a + n := Nat.mod_eq_of_lt hend
    have hnot : ¬((p.a : Nat) + n < n) := by omega
    simp only [incBy, hmod, hnot, if_false, pos, Nat.add_assoc]
  · have hmod : ((p.a : Nat) + n) % c = p.a + n - c := by
      rw [Nat.mod_eq_sub_mod (by omega), Nat.mod_eq_of_lt (by omega)]
    have hwrap : (p.a : Nat) + n - c < n := by omega
    simp only [incBy, hmod, hwrap, if_true, pos]
    rw [Nat.add_mul, Nat.one_mul]
    omega

end Pointer

end RaftLib.Queue
