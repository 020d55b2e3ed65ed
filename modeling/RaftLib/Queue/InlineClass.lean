/-
# `RaftLib.Queue.InlineClass` -- the ring buffer for class objects stored inline

The member functions of `RingBufferBase` for an inline class element (`ringbufferheap.tcc`) and the
`allocate` of `fifo.hpp` for one. They move the pointers as the functions for other inline elements
do; what is of interest here is where they run a constructor or a destructor, so the store is a memory
of places (`RaftLib.Logic.Lifetime`) and an object is its name.

`deallocate` runs the destructor at the read index, and `allocate_range` no constructor. The queue is
called by one thread here, as in `RaftLib.Queue.Session`.
-/
import RaftLib.Logic.Lifetime
import RaftLib.Logic.Steps
import RaftLib.Queue.Contents

namespace RaftLib.Queue

open RaftLib.Logic.Lifetime (Places)
open RaftLib.Logic.Program
open RaftLib.Logic.Ring

/-- A queue of class objects: `rb` has all of it but the objects, which are in `store`. -/
structure ClassBuffer (cap : Nat) where
  rb : RingBuffer PUnit cap
  store : Places (Fin cap) := {}

/-- A member function. -/
abbrev ClassCall (cap : Nat) (α : Type) := EStateM Stop (ClassBuffer cap) α

namespace ClassBuffer

variable {cap : Nat} {α : Type}

def init [NeZero cap] : ClassBuffer cap := { rb := RingBuffer.init fun _ => ⟨⟩ }

/-- The part of a member function that does not look at the objects. -/
def onRing (x : Call PUnit cap α) : ClassCall cap α := fun q =>
  match x.run q.rb with
  | .ok a rb => .ok a { q with rb := rb }
  | .error e rb => .error e { q with rb := rb }

/-- `new ( &store[ i ] ) T( .. )`. -/
def construct (i : Fin cap) : ClassCall cap PUnit :=
  modify fun q => { q with store := q.store.construct i }

/-- `( &store[ i ] )->~T()`. -/
def destroy (i : Fin cap) : ClassCall cap PUnit :=
  modify fun q => { q with store := q.store.destroy i }

def writeIndex : ClassCall cap (Fin cap) := do
  let q ← get
  return q.rb.buffer.writePt.val

def readIndex : ClassCall cap (Fin cap) := do
  let q ← get
  return q.rb.buffer.readPt.val

/-! ## Producer calls -/

/-- `allocate< T >( params.. )`: `local_allocate` and a constructor. -/
def allocate : ClassCall cap PUnit := do
  let ptr ← onRing RingBuffer.localAllocate
  construct ptr

def send (signal : RaftSignal) : ClassCall cap PUnit := onRing (RingBuffer.send signal)

def deallocate : ClassCall cap PUnit := do
  let i ← readIndex
  destroy i
  onRing RingBuffer.deallocate

/-- `local_allocate_n`. -/
def allocateRange (n : Nat) : ClassCall cap (List (Fin cap)) := do
  onRing (RingBuffer.waitForSpace .allocateRange n)
  let i ← writeIndex
  let slots ← onRing (RingBuffer.handOut i n)
  onRing (modify fun rb => { rb with nAllocated := UInt32.ofNat n })
  onRing (modify fun rb => { rb with allocateCalled := true })
  return slots

def sendRange (signal : RaftSignal) : ClassCall cap PUnit := onRing (RingBuffer.sendRange signal)

/-- `local_push` of an item. -/
def push (signal : RaftSignal) : ClassCall cap PUnit := do
  onRing (RingBuffer.waitForSpace .push 1)
  let i ← writeIndex
  construct i
  onRing (modify RingBuffer.countWrite)
  onRing (modify (RingBuffer.putSignal i signal))
  onRing (modify RingBuffer.incWrite)
  onRing (RingBuffer.exitBuffer .push)

/-! ## Consumer calls -/

/-- `local_pop` into a variable of the caller: the signal is all that is left to say of the copy. -/
def pop : ClassCall cap RaftSignal := do
  onRing (RingBuffer.enterBuffer .pop)
  if ← onRing RingBuffer.notResizing then
    match ← onRing RingBuffer.lookForData with
    | .data =>
        let q ← get
        let i := q.rb.buffer.readPt.val
        destroy i
        onRing (modify fun rb => { rb with buffer :=
          { rb.buffer with readStats := rb.buffer.readStats.counted } })
        onRing (modify RingBuffer.incRead)
        onRing (RingBuffer.exitBuffer .pop)
        return (q.rb.buffer.signal i).sig
    | .closedAndEmpty => throw .closedPortAccess
    | .nothing => throw .wait
  else
    onRing (RingBuffer.exitBuffer .pop)
    onRing (modify fun rb => { rb with buffer :=
      { rb.buffer with readStats := rb.buffer.readStats.noted } })
    throw .wait

def peek : ClassCall cap (Fin cap × RaftSignal) := onRing RingBuffer.localPeek

def unpeek : ClassCall cap PUnit := onRing RingBuffer.unpeek

/-- `local_recycle`. -/
def recycle : Nat → ClassCall cap PUnit
  | 0 => pure ()
  | range + 1 => do
      onRing (RingBuffer.enterBuffer .recycle)
      if ← onRing RingBuffer.notResizing then
        match ← onRing RingBuffer.lookForData with
        | .data =>
            let i ← readIndex
            destroy i
            onRing (modify RingBuffer.incRead)
            onRing (RingBuffer.exitBuffer .recycle)
            recycle range
        | .closedAndEmpty => onRing (RingBuffer.exitBuffer .recycle)
        | .nothing =>
            onRing (RingBuffer.exitBuffer .recycle)
            throw .wait
      else
        onRing (RingBuffer.exitBuffer .recycle)
        throw .wait

def invalidate : ClassCall cap PUnit := onRing RingBuffer.invalidate

end ClassBuffer

/-! ## Sequences of calls -/

/-- A call on a queue of class objects. -/
inductive ClassOp where
  | allocate
  | send (signal : RaftSignal)
  | deallocate
  | allocateRange (n : Nat)
  | sendRange (signal : RaftSignal)
  | push (signal : RaftSignal)
  | pop
  | peek
  | unpeek
  | recycle (range : Nat)
  | invalidate
  deriving DecidableEq, Repr

/-- A queue and how many slots, from the write index on, the producer has been handed and has neither
sent nor given back. -/
structure Handed (cap : Nat) where
  queue : ClassBuffer cap
  out : Nat := 0

namespace Handed

variable {cap : Nat}

def init [NeZero cap] : Handed cap := { queue := ClassBuffer.init }

/-- The call, run. -/
def exec : ClassOp → ClassCall cap PUnit
  | .allocate => ClassBuffer.allocate
  | .send signal => ClassBuffer.send signal
  | .deallocate => ClassBuffer.deallocate
  | .allocateRange n => do let _ ← ClassBuffer.allocateRange n
  | .sendRange signal => ClassBuffer.sendRange signal
  | .push signal => ClassBuffer.push signal
  | .pop => do let _ ← ClassBuffer.pop
  | .peek => do let _ ← ClassBuffer.peek
  | .unpeek => ClassBuffer.unpeek
  | .recycle range => ClassBuffer.recycle range
  | .invalidate => ClassBuffer.invalidate

/-- What the producer has been handed after a call. -/
def outAfter (h : Handed cap) : ClassOp → Nat
  | .allocate => max h.out 1
  | .allocateRange n => max h.out n
  | .send _ | .sendRange _ => if h.queue.rb.allocateCalled then 0 else h.out
  | .deallocate => 0
  | _ => h.out

/-- A call that goes through. -/
def Step (s : Handed cap) (op : ClassOp) (t : Handed cap) : Prop :=
  (exec op).run s.queue = .ok ⟨⟩ t.queue ∧ t.out = s.outAfter op

end Handed

end RaftLib.Queue
