/-
# `RaftLib.Threads.Spsc` -- one producer pushing and one consumer popping, load by load

`local_push` and `local_pop` (`ringbufferheap.tcc`), `size` (`ringbufferheap_abstract.tcc`) and
`Pointer::inc` (`pointer.cpp`) as two threads run them on one buffer that nobody resizes. Each load
and each store of an index, of a wrap counter, of a slot and of the validity mark is one step, and
the steps of the two threads interleave freely; between a thread's steps its program counter holds
what it has loaded. The access flags of the queue are left out: only a resize reads them.

`pushed` and `popped` are the record of the run. An item counts as pushed when its index is stored,
and as popped when the consumer has read both halves of the slot.
-/
import RaftLib.Queue.Buffer

namespace RaftLib.Threads

open RaftLib.Queue

variable {T : Type} {c : Nat}

/-! ## The two calls that both threads make -/

/-- Where a pass of `size` stands: the load it makes next, and what it has loaded so far. -/
inductive SizePc (c : Nat) where
  | wrapWrite
  | wrapRead (ww : Nat)
  | wpt (ww wr : Nat)
  | rpt (ww wr : Nat) (w : Fin c)
  deriving DecidableEq, Repr

/-- The next load of `size`. After the last one the call returns or starts over at `TOP`. -/
def SizePc.step (b : Data T c) : SizePc c → SizePc c ⊕ Nat
  | .wrapWrite => .inl (.wrapRead b.writePt.wrapIndicator)
  | .wrapRead ww => .inl (.wpt ww b.readPt.wrapIndicator)
  | .wpt ww wr => .inl (.rpt ww wr b.writePt.val)
  | .rpt ww wr w =>
      match sizeFrom c ww wr w b.readPt.val with
      | some n => .inr n
      | none => .inl .wrapWrite

/-- Four loads with nobody in between are one pass of the sequential `size`. -/
theorem SizePc.alone (b : Data T c) {ww wr : Nat} {w : Fin c} (hww : ww = b.writePt.wrapIndicator)
    (hwr : wr = b.readPt.wrapIndicator) (hw : w = b.writePt.val) :
    (SizePc.rpt ww wr w).step b = match b.sizeOnce with
      | some n => .inr n
      | none => .inl .wrapWrite := by
  subst hww hwr hw
  rfl

/-- Where `Pointer::inc` stands. -/
inductive IncPc (c : Nat) where
  | loadA
  | storeA (a : Fin c)
  | testA
  | loadWrap
  | storeWrap (wrapA : Nat)
  deriving DecidableEq, Repr

/-- The next access of `Pointer::inc`, and where it then stands; `none` when it has returned. -/
def IncPc.step (ptr : Pointer c) : IncPc c → Pointer c × Option (IncPc c)
  | .loadA => (ptr, some (.storeA ⟨(ptr.a + 1) % c, ptr.succ_mod_lt⟩))
  | .storeA a => ({ ptr with a := a }, some .testA)
  | .testA => (ptr, if (ptr.a : Nat) = 0 then some .loadWrap else none)
  | .loadWrap => (ptr, some (.storeWrap (ptr.wrapA + 1)))
  | .storeWrap wrapA => ({ ptr with wrapA := wrapA }, none)

/-- `step`, and standing still once the call has returned. -/
def IncPc.next : Pointer c × Option (IncPc c) → Pointer c × Option (IncPc c)
  | (ptr, some pc) => pc.step ptr
  | (ptr, none) => (ptr, none)

/-- Five accesses with nobody in between are the sequential `Pointer::inc`. -/
theorem IncPc.alone (ptr : Pointer c) : IncPc.next^[5] (ptr, some .loadA) = (ptr.inc, none) := by
  by_cases hz : (ptr.a + 1) % c = 0
  · simp [IncPc.next, IncPc.step, Pointer.inc, hz]
  · simp [IncPc.next, IncPc.step, Pointer.inc, hz]

/-- Does the next access store the index? -/
def IncPc.storesIndex : IncPc c → Bool
  | .storeA _ => true
  | _ => false

/-! ## The threads -/

/-- Where the producer stands in `local_push`. -/
inductive Producer (T : Type) (c : Nat) where
  | idle
  | spaceAvail (item : T × RaftSignal) (pc : SizePc c)
  | writeIndex (item : T × RaftSignal)
  | storeItem (item : T × RaftSignal) (writeIndex : Fin c)
  | storeSignal (item : T × RaftSignal) (writeIndex : Fin c)
  | inc (item : T × RaftSignal) (pc : IncPc c)

/-- Where the consumer stands in `local_pop`. -/
inductive Consumer (T : Type) (c : Nat) where
  | idle
  | size (pc : SizePc c)
  | isInvalid
  | sizeAgain (pc : SizePc c)
  | readIndex
  | readSignal (readIndex : Fin c)
  | readItem (readIndex : Fin c) (signal : RaftSignal)
  | inc (pc : IncPc c)

/-- The buffer, the two threads, and the record of what they have done. -/
structure Spsc (T : Type) (c : Nat) where
  buffer : Data T c
  producer : Producer T c := .idle
  consumer : Consumer T c := .idle
  pushed : List (T × RaftSignal) := []
  popped : List (T × RaftSignal) := []

namespace Spsc

def init [NeZero c] (uninit : Fin c → T) : Spsc T c := { buffer := Data.init c uninit }

/-- The producer's next step in the push it is in. -/
def produce (s : Spsc T c) : Option (Spsc T c) :=
  match s.producer with
  | .idle => none
  | .spaceAvail item pc =>
      match pc.step s.buffer with
      | .inl pc => some { s with producer := .spaceAvail item pc }
      | .inr n =>
          if 0 < c - n then some { s with producer := .writeIndex item }
          else some { s with producer := .spaceAvail item .wrapWrite }
  | .writeIndex item => some { s with producer := .storeItem item s.buffer.writePt.val }
  | .storeItem item i =>
      some { s with
        buffer := { s.buffer with store := Function.update s.buffer.store i item.1 }
        producer := .storeSignal item i }
  | .storeSignal item i =>
      some { s with
        buffer := { s.buffer with
          signal := Function.update s.buffer.signal i { s.buffer.signal i with sig := item.2 } }
        producer := .inc item .loadA }
  | .inc item pc =>
      some { s with
        buffer := { s.buffer with writePt := (pc.step s.buffer.writePt).1 }
        producer := ((pc.step s.buffer.writePt).2.map (Producer.inc item)).getD .idle
        pushed := if pc.storesIndex then s.pushed ++ [item] else s.pushed }

/-- The consumer's next step in the pop it is in. A closed and empty queue ends the pop by an
exception; the consumer may pop again. -/
def consume (s : Spsc T c) : Option (Spsc T c) :=
  match s.consumer with
  | .idle => none
  | .size pc =>
      match pc.step s.buffer with
      | .inl pc => some { s with consumer := .size pc }
      | .inr n =>
          if 0 < n then some { s with consumer := .readIndex }
          else some { s with consumer := .isInvalid }
  | .isInvalid =>
      if s.buffer.isValid then some { s with consumer := .size .wrapWrite }
      else some { s with consumer := .sizeAgain .wrapWrite }
  | .sizeAgain pc =>
      match pc.step s.buffer with
      | .inl pc => some { s with consumer := .sizeAgain pc }
      | .inr n =>
          if n = 0 then some { s with consumer := .idle }
          else some { s with consumer := .size .wrapWrite }
  | .readIndex => some { s with consumer := .readSignal s.buffer.readPt.val }
  | .readSignal i => some { s with consumer := .readItem i (s.buffer.signal i).sig }
  | .readItem i signal =>
      some { s with
        consumer := .inc .loadA
        popped := s.popped ++ [(s.buffer.store i, signal)] }
  | .inc pc =>
      some { s with
        buffer := { s.buffer with readPt := (pc.step s.buffer.readPt).1 }
        consumer := ((pc.step s.buffer.readPt).2.map Consumer.inc).getD .idle }

/-- A thread calls, or takes the next step of the call it is in; or somebody closes the queue. -/
inductive Act (T : Type) where
  | push (v : T) (signal : RaftSignal)
  | producer
  | pop
  | consumer
  | invalidate

def step (s : Spsc T c) : Act T → Option (Spsc T c)
  | .push v signal =>
      match s.producer with
      | .idle => some { s with producer := .spaceAvail (v, signal) .wrapWrite }
      | _ => none
  | .producer => s.produce
  | .pop =>
      match s.consumer with
      | .idle => some { s with consumer := .size .wrapWrite }
      | _ => none
  | .consumer => s.consume
  | .invalidate => some { s with buffer := { s.buffer with isValid := false } }

/-! ## What a step touches -/

/-- The slot that the consumer's next step reads. -/
def reading (s : Spsc T c) : Option (Fin c) :=
  match s.consumer with
  | .readSignal i | .readItem i _ => some i
  | _ => none

/-- The slot that the producer's next step writes. -/
def writing (s : Spsc T c) : Option (Fin c) :=
  match s.producer with
  | .storeItem _ i | .storeSignal _ i => some i
  | _ => none

/-- The items that the calls of a run asked to push, in order. -/
def calls : List (Act T) → List (T × RaftSignal)
  | [] => []
  | .push v signal :: acts => (v, signal) :: calls acts
  | _ :: acts => calls acts

end Spsc

end RaftLib.Threads
