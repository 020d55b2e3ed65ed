/-
# `RaftLib.Queue.ExtAlloc` -- queues of pointers, and the objects behind them

The member functions of `RingBufferBase` for an element that is stored through a pointer
(`ringbufferheap.tcc`), `allocate` of `fifo.hpp` for one, and `Schedule::fifo_gc` (`schedule.cpp`).
The queues are those of `RaftLib.Queue.RingBuffer` with addresses for elements. `heap` says which
addresses have an object; an object is the number of the `new` that made it.

Who deletes an object is decided late. `recycle` puts the address into the consuming kernel's map
`in`; `push` of an item that the kernel has peeked at puts the address into its set `out`, and the
pointer itself into the next queue; `fifo_gc` then deletes what is in `in` and not in `out`, and
clears both. `pop` runs the destructor and frees nothing, which is no event here.

A step is one call of one kernel; `recycle( n )` is `n` steps. A call that has to wait, or that
throws, is no step.
-/
import Mathlib.Order.Nat
import RaftLib.Logic.KeySet
import RaftLib.Logic.Lifetime
import RaftLib.Queue.Contents

namespace RaftLib.Queue

open RaftLib.Logic.KeySet
open RaftLib.Logic.Lifetime (Places)

/-- `ptr_t`. -/
abbrev Addr := Nat

/-- The kernels that push to the queues and that read from them. -/
structure Wiring (κ ι : Type) where
  src : ι → κ
  dst : ι → κ

/-- The queues, the objects, and for every kernel `in`, `out` and the peek set that `setPtrSets` gives
to all its ports. Of the map `in` only the keys matter here: what is stored with a key deletes the
object at that address. -/
structure ExtWorld (κ ι : Type) (cap : ι → Nat) where
  queue : ∀ q, RingBuffer Addr (cap q)
  heap : Places Addr := {}
  inMap : κ → Keys Addr := fun _ => .empty
  outSet : κ → Keys Addr := fun _ => .empty
  peekSet : κ → Keys Addr := fun _ => .empty
  undefined : Bool := false

namespace ExtWorld

variable {κ ι : Type} {cap : ι → Nat}

def init [∀ q, NeZero (cap q)] (uninit : ∀ q, Fin (cap q) → Addr) : ExtWorld κ ι cap :=
  { queue := fun q => RingBuffer.init (uninit q) }

variable [DecidableEq κ] [DecidableEq ι]

def setQueue (w : ExtWorld κ ι cap) (q : ι) (rb : RingBuffer Addr (cap q)) : ExtWorld κ ι cap :=
  { w with queue := Function.update w.queue q rb }

/-! ## Producer calls -/

/-- `allocate< T >( params.. )`: `local_allocate`, and the address that `new` returns goes into the
slot. No object is at that address. -/
def allocate (w : ExtWorld κ ι cap) (q : ι) (addr : Addr) : Option (ExtWorld κ ι cap) :=
  match RingBuffer.localAllocate.run (w.queue q), w.heap.place addr with
  | .ok i rb, none =>
      some { w.setQueue q (RingBuffer.putStore i addr rb) with heap := w.heap.construct addr }
  | _, _ => none

def send (w : ExtWorld κ ι cap) (q : ι) (signal : RaftSignal) : Option (ExtWorld κ ι cap) :=
  match (RingBuffer.send signal).run (w.queue q) with
  | .ok _ rb => some (w.setQueue q rb)
  | .error _ _ => none

/-- `deallocate` deletes what the slot at the write index points at. -/
def deallocate (w : ExtWorld κ ι cap) (q : ι) : Option (ExtWorld κ ι cap) :=
  let ptr := (w.queue q).buffer.store (w.queue q).buffer.writePt.val
  match RingBuffer.deallocate.run (w.queue q) with
  | .ok _ rb => some { w.setQueue q rb with heap := w.heap.destroy ptr }
  | .error _ _ => none

/-- `local_push` of an item at address `item`. The pointer of an item that was peeked at goes into the
queue itself; of any other item a copy is made, for which `new` returns `addr`. -/
def push (net : Wiring κ ι) (w : ExtWorld κ ι cap) (q : ι) (item addr : Addr) (signal : RaftSignal) :
    Option (ExtWorld κ ι cap) :=
  let k := net.src q
  if item ∈ w.peekSet k then
    match (RingBuffer.localPush (some item) signal).run (w.queue q) with
    | .ok _ rb =>
        some { w.setQueue q rb with
          outSet := Function.update w.outSet k ((w.outSet k).insert item) }
    | .error _ _ => none
  else
    match (RingBuffer.localPush (some addr) signal).run (w.queue q), w.heap.place addr with
    | .ok _ rb, none => some { w.setQueue q rb with heap := w.heap.construct addr }
    | _, _ => none

/-! ## Consumer calls -/

/-- `local_pop`: the item is copied out and destroyed, and its memory stays allocated. -/
def pop (w : ExtWorld κ ι cap) (q : ι) : Option (ExtWorld κ ι cap) :=
  match RingBuffer.pop.run (w.queue q) with
  | .ok _ rb => some (w.setQueue q rb)
  | .error _ _ => none

def peek (net : Wiring κ ι) (w : ExtWorld κ ι cap) (q : ι) : Option (ExtWorld κ ι cap) :=
  let k := net.dst q
  match RingBuffer.localPeek.run (w.queue q) with
  | .ok (i, _) rb =>
      some { w.setQueue q rb with
        peekSet := Function.update w.peekSet k ((w.peekSet k).insert (rb.buffer.store i)) }
  | .error _ _ => none

def unpeek (w : ExtWorld κ ι cap) (q : ι) : Option (ExtWorld κ ι cap) :=
  match RingBuffer.unpeek.run (w.queue q) with
  | .ok _ rb => some (w.setQueue q rb)
  | .error _ _ => none

/-- One round of `local_recycle`. -/
def recycle (net : Wiring κ ι) (w : ExtWorld κ ι cap) (q : ι) : Option (ExtWorld κ ι cap) :=
  let k := net.dst q
  let rb := RingBuffer.setHelper .recycle true (w.queue q)
  match RingBuffer.lookForData.run rb with
  | .ok .data rb =>
      let ptr := rb.buffer.store rb.buffer.readPt.val
      some { w.setQueue q (RingBuffer.setHelper .recycle false (RingBuffer.incRead rb)) with
        inMap := Function.update w.inMap k ((w.inMap k).insert ptr) }
  | .ok .closedAndEmpty rb => some (w.setQueue q (RingBuffer.setHelper .recycle false rb))
  | .ok .nothing _ | .error _ _ => none

def invalidate (w : ExtWorld κ ι cap) (q : ι) : Option (ExtWorld κ ι cap) :=
  match RingBuffer.invalidate.run (w.queue q) with
  | .ok _ rb => some (w.setQueue q rb)
  | .error _ _ => none

/-! ## The garbage collection -/

/-- `fifo_gc`. Its first loop looks at the next entry of `in` without asking whether there is one. -/
def fifoGc (w : ExtWorld κ ι cap) (k : κ) : ExtWorld κ ι cap :=
  let walk := unmatched (w.inMap k).list (w.outSet k).list
  { w with
    heap := w.heap.destroyAll walk.1
    inMap := Function.update w.inMap k .empty
    outSet := Function.update w.outSet k .empty
    peekSet := Function.update w.peekSet k .empty
    undefined := w.undefined || walk.2 }

/-! ## Sequences of calls -/

/-- A call on a queue, or a garbage collection of a kernel's sets. -/
inductive Op (κ ι : Type) where
  | allocate (q : ι) (addr : Addr)
  | send (q : ι) (signal : RaftSignal)
  | deallocate (q : ι)
  | push (q : ι) (item addr : Addr) (signal : RaftSignal)
  | pop (q : ι)
  | peek (q : ι)
  | unpeek (q : ι)
  | recycle (q : ι)
  | invalidate (q : ι)
  | gc (k : κ)

def step (net : Wiring κ ι) (w : ExtWorld κ ι cap) : Op κ ι → Option (ExtWorld κ ι cap)
  | .allocate q addr => w.allocate q addr
  | .send q signal => w.send q signal
  | .deallocate q => w.deallocate q
  | .push q item addr signal => w.push net q item addr signal
  | .pop q => w.pop q
  | .peek q => w.peek net q
  | .unpeek q => w.unpeek q
  | .recycle q => w.recycle net q
  | .invalidate q => w.invalidate q
  | .gc k => some (w.fifoGc k)

end ExtWorld

end RaftLib.Queue
