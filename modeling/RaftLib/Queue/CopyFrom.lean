/-
# `RaftLib.Queue.CopyFrom` -- moving a queue into a larger buffer

`Data::copyFrom` (`bufferdata.tcc`) with the two byte lengths that `DataBase` (`database.tcc`)
computes, and one pass of the loop in `DataManager::resize` (`datamanager.tcc`) as it runs when
nobody else touches the queue. What other threads may do meanwhile is the subject of
`RaftLib.Threads.Resize`.

The two arrays are copied as bytes. How an element sits in memory is a parameter, a `Layout`; for an
element type that is not stored inline the elements of the store are pointers, and the layout is that
of a pointer. `length_signal` is written here as it stands in `database.tcc`, where the signal array
gets the length of the store.
-/
import RaftLib.Logic.Bytes
import RaftLib.Queue.RingBuffer

namespace RaftLib.Queue

open RaftLib.Logic.Bytes

variable {T : Type} {cap newCap : Nat}

/-- `Buffer::Signal` in memory: the word `sig`, four bytes of padding, the double word `index`. -/
def Signal.layout : Layout Signal where
  size := 16
  size_pos := by decide
  encode s k :=
    if h : (k : Nat) < 4 then u32Bytes s.sig ⟨k, h⟩
    else if (k : Nat) < 8 then 0
    else u64Bytes s.index ⟨k - 8, by omega⟩
  decode b := {
    sig := u32Bytes.symm fun k => b ⟨k, by omega⟩
    index := u64Bytes.symm fun k => b ⟨8 + k, by omega⟩ }
  decode_encode s := by
    have hsig : (fun k : Fin 4 => if h : (k : Nat) < 4 then u32Bytes s.sig ⟨k, h⟩
        else if (k : Nat) < 8 then 0 else u64Bytes s.index ⟨k - 8, by omega⟩) = u32Bytes s.sig := by
      funext k
      rw [dif_pos k.isLt]
    have hindex : (fun k : Fin 8 => if h : 8 + (k : Nat) < 4 then u32Bytes s.sig ⟨8 + k, h⟩
        else if 8 + (k : Nat) < 8 then 0 else u64Bytes s.index ⟨8 + k - 8, by omega⟩) =
        u64Bytes s.index := by
      funext k
      rw [dif_neg (by omega), if_neg (by omega)]
      exact congrArg (u64Bytes s.index) (Fin.ext (by simp))
    simp only [hsig, hindex, Equiv.symm_apply_apply]

namespace Data

/-- `length_store( sizeof( T ) * max_cap )`. -/
def lengthStore (L : Layout T) (maxCap : Nat) : Nat := L.size * maxCap

/-- `length_signal( sizeof( T ) * max_cap )`. -/
def lengthSignal (L : Layout T) (maxCap : Nat) : Nat := L.size * maxCap

/-- Why a copy does not come to an end: the process exits, or a byte outside an array is touched. -/
inductive CopyFault where
  | staticAlloc
  | outOfBounds
  deriving DecidableEq, Repr

/-- `copyFrom`. -/
def copyFrom (L : Layout T) (h : cap ≤ newCap) (this : Data T newCap) (other : Data T cap) :
    Except CopyFault (Data T newCap) :=
  if other.externalAlloc then .error .staticAlloc
  else
    match memcpy (L.bytes this.store) (L.bytes other.store) (lengthStore L cap),
      memcpy (Signal.layout.bytes this.signal) (Signal.layout.bytes other.signal)
        (lengthSignal L cap) with
    | some store, some signal =>
        .ok { this with
          readPt := other.readPt.resized h
          writePt := other.writePt.resized h
          isValid := other.isValid
          store := L.values store
          signal := Signal.layout.values signal
          readStats := other.readStats
          writeStats := other.writeStats
          forceResize := other.forceResize
          threadAccess := other.threadAccess }
    | _, _ => .error .outOfBounds

end Data

namespace RingBuffer

/-- `allclear`: no thread has a flag up and nobody is asking for the size. -/
def allclear (rb : RingBuffer T cap) : Bool :=
  !rb.buffer.threadAccess.producerWhole && !rb.buffer.threadAccess.consumerWhole &&
    rb.checkingSize == 0

/-- `buffercondition`: the entries lie in one piece. -/
def buffercondition (buffPtr : Data T cap) : Bool :=
  decide ((buffPtr.readPt.val : Nat) < buffPtr.writePt.val)

/-- How one pass of the resize loop ends. `again` is `yield` and the next pass. -/
inductive Pass (T : Type) (cap newCap : Nat) where
  | notResizeable
  | cancelled (rb : RingBuffer T cap)
  | again (rb : RingBuffer T cap)
  | done (rb : RingBuffer T newCap)
  | fault (e : Data.CopyFault)

/-- `RingBuffer::resize` up to the end of the first pass of `DataManager::resize`. -/
def resize (L : Layout T) (h : cap ≤ newCap) (newBuffer : Data T newCap) (exitBuffer : Bool)
    (rb : RingBuffer T cap) : Pass T cap newCap :=
  if rb.buffer.externalAlloc then .notResizeable
  else if exitBuffer || !rb.buffer.isValid then .cancelled { rb with resizing := false }
  else if allclear { rb with resizing := true } && buffercondition rb.buffer then
    match newBuffer.copyFrom L h rb.buffer with
    | .ok buffer =>
        .done {
          buffer := buffer
          resizing := false
          checkingSize := rb.checkingSize
          allocateCalled := rb.allocateCalled
          nAllocated := rb.nAllocated }
    | .error e => .fault e
  else .again { rb with resizing := false }

end RingBuffer

end RaftLib.Queue
