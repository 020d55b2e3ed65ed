/-
# `RaftLib.Queue.RingBuffer` -- the FIFO calls of the heap ring buffer, element stored inline

The member functions of `RingBufferBase` for an inline non-class element (`ringbufferheap.tcc`), of
`RingBufferBaseHeap` (`ringbufferheap_abstract.tcc`) and of the insert and range shims
(`ringbufferheap_lessabstract.tcc`), as one thread runs them.

A call is a program over the queue's state. A blocking call of the source is a `for(;;)` around a
wait guard; here it is one pass of that loop. A pass whose guard lets the call proceed runs the rest
of the call and returns. A pass that would go round again ends in `Stop.wait`, with the state the
next pass would start from; for a queue that nobody else touches that is the whole story of a call
that blocks. A `throw` of the source is the exception of that name, a failed `assert` is
`Stop.assertion`.
-/
import RaftLib.Queue.Buffer
import RaftLib.Logic.Program

namespace RaftLib.Queue

/-- The ways a call ends without returning. -/
inductive Stop where
  | wait
  | closedPortAccess
  | noMoreData
  | assertion
  deriving DecidableEq, Repr

/-- A queue: the data manager's buffer and flags, and the producer's own record. -/
structure RingBuffer (T : Type) (cap : Nat) where
  buffer : Data T cap
  resizing : Bool := false
  checkingSize : Nat := 0
  allocateCalled : Bool := false
  nAllocated : UInt32 := 1

/-- A member function: it runs on the queue and returns an `α` or stops. -/
abbrev Call (T : Type) (cap : Nat) (α : Type) := EStateM Stop (RingBuffer T cap) α

namespace RingBuffer

variable {T : Type} {cap : Nat}

/-- `RingBuffer( n, align )`, which asserts `n != 0`. -/
def init [NeZero cap] (uninit : Fin cap → T) : RingBuffer T cap := { buffer := Data.init cap uninit }

/-! ## The data manager's flags (`datamanager.tcc`) -/

/-- `DataManager::set_helper`. -/
def setHelper (key : AccessKey) (val : Bool) (rb : RingBuffer T cap) : RingBuffer T cap :=
  match key with
  | .size => { rb with checkingSize := if val then rb.checkingSize + 1 else rb.checkingSize - 1 }
  | key => { rb with buffer :=
      { rb.buffer with threadAccess := rb.buffer.threadAccess.set key val } }

def enterBuffer (key : AccessKey) : Call T cap PUnit := modify (setHelper key true)

def exitBuffer (key : AccessKey) : Call T cap PUnit := modify (setHelper key false)

def notResizing : Call T cap Bool := do
  let rb ← get
  return !rb.resizing

/-! ## Queries (`ringbufferheap_abstract.tcc`) -/

def size : Call T cap Nat := do
  enterBuffer .size
  if ← notResizing then
    let rb ← get
    match rb.buffer.sizeOnce with
    | some n =>
        exitBuffer .size
        return n
    | none => throw .wait
  else
    exitBuffer .size
    throw .wait

def invalidate : Call T cap PUnit :=
  modify fun rb => { rb with buffer := { rb.buffer with isValid := false } }

def isInvalid : Call T cap Bool := do
  let rb ← get
  return !rb.buffer.isValid

def spaceAvail : Call T cap Nat := do
  let n ← size
  return cap - n

/-! ## Producer calls -/

/-- `notResizing() && space_avail() >= n`; `allocate` and `push` write `space_avail() > 0`. -/
def hasSpace (n : Nat) : Call T cap Bool := do
  if ← notResizing then
    let avail ← spaceAvail
    return decide (n ≤ avail)
  else
    return false

/-- One pass of the producers' wait loop under `key`. -/
def waitForSpace (key : AccessKey) (n : Nat) : Call T cap PUnit := do
  enterBuffer key
  if ← hasSpace n then
    pure ()
  else
    exitBuffer key
    modify fun rb => { rb with buffer := { rb.buffer with writeStats := rb.buffer.writeStats.noted } }
    throw .wait

/-- Store a value at the write index: through the reference of `local_allocate`, or by `local_push`. -/
def putStore (i : Fin cap) (v : T) (rb : RingBuffer T cap) : RingBuffer T cap :=
  { rb with buffer := { rb.buffer with store := Function.update rb.buffer.store i v } }

/-- `buff_ptr->signal[ i ] = signal`. -/
def putSignal (i : Fin cap) (s : RaftSignal) (rb : RingBuffer T cap) : RingBuffer T cap :=
  { rb with buffer :=
      { rb.buffer with signal := Function.update rb.buffer.signal i { rb.buffer.signal i with sig := s } } }

/-- `write_stats->bec.count++`. -/
def countWrite (rb : RingBuffer T cap) : RingBuffer T cap :=
  { rb with buffer := { rb.buffer with writeStats := rb.buffer.writeStats.counted } }

/-- `Pointer::inc( buff_ptr->write_pt )`. -/
def incWrite (rb : RingBuffer T cap) : RingBuffer T cap :=
  { rb with buffer := { rb.buffer with writePt := rb.buffer.writePt.inc } }

/-- `Pointer::inc( buff_ptr->read_pt )`. -/
def incRead (rb : RingBuffer T cap) : RingBuffer T cap :=
  { rb with buffer := { rb.buffer with readPt := rb.buffer.readPt.inc } }

/-- `local_push`; the item is absent when only a signal is sent inline. -/
def localPush (item : Option T) (signal : RaftSignal) : Call T cap PUnit := do
  waitForSpace .push 1
  let rb ← get
  let writeIndex := rb.buffer.writePt.val
  match item with
  | some v => modify fun rb => countWrite (putStore writeIndex v rb)
  | none => pure ()
  modify (putSignal writeIndex signal)
  modify incWrite
  exitBuffer .push

/-- `local_insert_helper`: the signal goes with the last element only. -/
def localInsert : List T → RaftSignal → Call T cap PUnit
  | [], _ => pure ()
  | x :: rest, signal => do
      localPush (some x) (if rest.length = 0 then signal else RaftSignal.none)
      localInsert rest signal

/-- `local_allocate`; the reference it hands out is the slot at the write index. -/
def localAllocate : Call T cap (Fin cap) := do
  waitForSpace .allocate 1
  let rb ← get
  set { rb with allocateCalled := true }
  return rb.buffer.writePt.val

def send (signal : RaftSignal) : Call T cap PUnit := do
  let rb ← get
  if rb.allocateCalled then
    modify (putSignal rb.buffer.writePt.val signal)
    modify countWrite
    modify fun rb => { rb with allocateCalled := false }
    modify incWrite
    exitBuffer .allocate
  else
    pure ()

/-- `Pointer::incBy( buff_ptr->write_pt, n )`. -/
def incWriteBy (n : Nat) (rb : RingBuffer T cap) : RingBuffer T cap :=
  { rb with buffer := { rb.buffer with writePt := rb.buffer.writePt.incBy n } }

/-- The loop of `local_allocate_n` from index `i` on: the slots it hands out, their signals cleared. -/
def handOut (i : Fin cap) : Nat → Call T cap (List (Fin cap))
  | 0 => pure []
  | n + 1 => do
      modify (putSignal i RaftSignal.none)
      let rest ← handOut ⟨(i + 1) % cap, Nat.mod_lt _ i.pos⟩ n
      return i :: rest

/-- `local_allocate_n`. A pass that asks for more than the capacity says so in `force_resize`. -/
def localAllocateN (n : Nat) : Call T cap (List (Fin cap)) := do
  enterBuffer .allocateRange
  if ← hasSpace n then
    let rb ← get
    let slots ← handOut rb.buffer.writePt.val n
    modify fun rb => { rb with nAllocated := UInt32.ofNat n, allocateCalled := true }
    return slots
  else
    if cap < n then
      modify fun rb => { rb with buffer := { rb.buffer with forceResize := n } }
    else
      pure ()
    exitBuffer .allocateRange
    modify fun rb => { rb with buffer := { rb.buffer with writeStats := rb.buffer.writeStats.noted } }
    throw .wait

/-- `send_range`: what `allocate_range` has handed out, or what `n_allocated` says was. -/
def sendRange (signal : RaftSignal) : Call T cap PUnit := do
  let rb ← get
  if rb.allocateCalled then
    modify (putSignal rb.buffer.writePt.val signal)
    modify (incWriteBy rb.nAllocated.toNat)
    modify fun rb => { rb with buffer :=
      { rb.buffer with writeStats := { rb.buffer.writeStats with
          count := rb.buffer.writeStats.count + rb.nAllocated } } }
    modify fun rb => { rb with allocateCalled := false, nAllocated := 0 }
    exitBuffer .allocateRange
  else
    pure ()

def deallocate : Call T cap PUnit := do
  modify fun rb => { rb with allocateCalled := false }
  exitBuffer .allocate

/-! ## Consumer calls -/

/-- What a consumer's wait guard found on an open buffer. -/
inductive Found where
  | data
  | closedAndEmpty
  | nothing
  deriving DecidableEq, Repr

/-- `size() > 0`, else `is_invalid() && size() == 0`, the order in which the consumers ask. -/
def lookForData : Call T cap Found := do
  let n ← size
  if 0 < n then
    return .data
  else if ← isInvalid then
    let n ← size
    return if n = 0 then .closedAndEmpty else .nothing
  else
    return .nothing

/-- `local_pop`. It asserts that the caller passed a place for the item; `signal_pop` does not. A
pass that finds nothing goes round without leaving the buffer. -/
def localPop (hasPtr : Bool) : Call T cap (T × RaftSignal) := do
  enterBuffer .pop
  if ← notResizing then
    match ← lookForData with
    | .data =>
        let rb ← get
        let entry := rb.buffer.entry rb.buffer.readPt.val
        if hasPtr then
          modify fun rb => { rb with buffer :=
            { rb.buffer with readStats := rb.buffer.readStats.counted } }
          modify incRead
          exitBuffer .pop
          return entry
        else
          throw .assertion
    | .closedAndEmpty => throw .closedPortAccess
    | .nothing => throw .wait
  else
    exitBuffer .pop
    modify fun rb => { rb with buffer := { rb.buffer with readStats := rb.buffer.readStats.noted } }
    throw .wait

def pop : Call T cap (T × RaftSignal) := localPop true

/-- `local_pop_range` into a vector of `n` pairs. -/
def localPopRange : Nat → Call T cap (List (T × RaftSignal))
  | 0 => pure []
  | n + 1 => do
      let x ← pop
      let rest ← localPopRange n
      return x :: rest

/-- `local_peek`: the slot and the signal at the read index. The flag stays up until `unpeek`. -/
def localPeek : Call T cap (Fin cap × RaftSignal) := do
  enterBuffer .peek
  if ← notResizing then
    match ← lookForData with
    | .data =>
        let rb ← get
        let readIndex := rb.buffer.readPt.val
        return (readIndex, (rb.buffer.signal readIndex).sig)
    | .closedAndEmpty => throw .closedPortAccess
    | .nothing =>
        exitBuffer .peek
        throw .wait
  else
    exitBuffer .peek
    throw .wait

def unpeek : Call T cap PUnit := exitBuffer .peek

/-- `local_peek_range`: the read index. The call hands out the base of the store and the address of
the signal at that index as well. The flag stays up until `unpeek`, also where the call throws. -/
def localPeekRange (n : Nat) : Call T cap (Fin cap) := do
  enterBuffer .peek
  if ← notResizing then
    let found ← size
    if n ≤ found then
      let rb ← get
      return rb.buffer.readPt.val
    else
      if ← isInvalid then
        let left ← size
        if left = 0 then throw .closedPortAccess
        else
          let left ← size
          if left < n then throw .noMoreData else pure ()
      else pure ()
      exitBuffer .peek
      throw .wait
  else
    exitBuffer .peek
    throw .wait

/-- `local_recycle`: one entry at a time, until `range` are gone or the closed queue is empty. -/
def localRecycle : Nat → Call T cap PUnit
  | 0 => pure ()
  | range + 1 => do
      enterBuffer .recycle
      if ← notResizing then
        match ← lookForData with
        | .data =>
            modify incRead
            exitBuffer .recycle
            localRecycle range
        | .closedAndEmpty => exitBuffer .recycle
        | .nothing =>
            exitBuffer .recycle
            throw .wait
      else
        exitBuffer .recycle
        throw .wait

end RingBuffer

end RaftLib.Queue
