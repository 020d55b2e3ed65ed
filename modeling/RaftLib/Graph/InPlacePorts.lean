/-
# `RaftLib.Graph.InPlacePorts` -- ports over an array of the program's own

`Port::addInPlacePorts` (`port.hpp`) cuts the array of a `for_each` kernel (`foreach.tcc`) into one segment
for each port, and `Allocate::allocate` builds a queue over each segment that is full from the start
(`bufferdata.tcc`): the store is the segment, the write pointer is one turn ahead of the read pointer, and
the signal array is made with a single entry.

The segments are right for any number of ports but zero, which the function divides by. The queue hands
its elements out in order, but looks up the signal of each in an array of one entry. An element that is
larger than a cache line is stored through a pointer, and then the queue takes the elements themselves for
pointers. So everything fits exactly if the elements are small and there are as many ports as elements
(`inPlace_iff`).
-/
import RaftLib.Graph.Allocate
import RaftLib.Queue.Contents

namespace RaftLib.Graph

open RaftLib.Logic.Program
open RaftLib.Logic.Ring
open RaftLib.Queue

/-! ## The ports -/

/-- What `kernel( ptr, nbytes )` tells the output ports: `alloc_ptr`, `alloc_ptr_length`, and the size and
the name of the element type that `addInPlacePorts` is instantiated with. -/
structure InPlaceArray where
  allocPtr : Nat
  allocPtrLength : Nat
  sizeofT : Nat
  type : TypeIndex
  sizeofT_pos : 0 < sizeofT

namespace InPlaceArray

/-- `for_each( ptr, nitems, … )`: an array of `nitems` elements. -/
def forEach (ptr nitems sizeofT : Nat) (type : TypeIndex) (h : 0 < sizeofT) : InPlaceArray where
  allocPtr := ptr
  allocPtrLength := nitems * sizeofT
  sizeofT := sizeofT
  type := type
  sizeofT_pos := h

variable (a : InPlaceArray)

/-- `L1D_CACHE_LINE_SIZE`. -/
def cacheLineSize : Nat := 64

/-- `inline_alloc`: the queue stores the elements themselves. For the others (`ext_alloc`) it stores
pointers to them. -/
def inlineAlloc : Bool := decide (a.sizeofT ≤ cacheLineSize)

/-- `alloc_ptr_length / sizeof( T )`. -/
def length : Nat := a.allocPtrLength / a.sizeofT

theorem length_forEach (ptr nitems : Nat) {sizeofT : Nat} (type : TypeIndex) (h : 0 < sizeofT) :
    (forEach ptr nitems sizeofT type h).length = nitems := Nat.mul_div_cancel _ h

/-- `&( existing_buff_t[ i ] )`. -/
def addressOf (i : Nat) : Nat := a.allocPtr + i * a.sizeofT

/-- The `PortInfo` that the loop makes for `index`. -/
def portInfo (nPorts index : Nat) : PortInfo :=
  let inc := a.length / nPorts
  let adder := a.length % nPorts
  let startIndex := index * inc
  { type := a.type
    existingBuffer := some (a.addressOf startIndex)
    nitems := inc + if index = nPorts - 1 then adder else 0
    startIndex := startIndex }

/-- `Port::addInPlacePorts`: the ports by name, or the division by zero. -/
def addInPlacePorts (nPorts : Nat) : Option (List (PortKey × PortInfo)) :=
  if nPorts = 0 then none
  else some ((List.range nPorts).map fun index => (Nat.repr index, a.portInfo nPorts index))

end InPlaceArray

/-! ## The queue over a segment -/

section Queue

variable {T : Type} {cap : Nat}

/-- A queue over memory of the program, and the indices at which its signal array was used. -/
structure InPlaceFifo (T : Type) (cap : Nat) where
  queue : RingBuffer T cap
  looked : List Nat := []

/-- The entries of the signal array: `calloc( 1, sizeof( Signal ) )`. -/
def signalLength : Nat := 1

/-- `Data( ptr, max_cap, start_position )`. What is read behind the signal array is a parameter. -/
def userData [NeZero cap] (store : Fin cap → T) (startPosition : UInt64) (behind : Nat → Signal) :
    Data T cap where
  readPt := Pointer.init cap
  -- one turn ahead: the queue is full from the start
  writePt := Pointer.initWrap cap 1
  store := store
  signal := fun i => if (i : Nat) < signalLength then { index := startPosition } else behind i
  externalAlloc := true

/-- `RingBuffer( ptr, length, start_position )`, which asserts `length != 0`; `store` is what the array at
`ptr` is taken for. -/
def InPlaceFifo.make (behind : Nat → Signal) (f : NewFifo) (store : Fin f.nItems → T) :
    Except Stop (InPlaceFifo T f.nItems) :=
  if h : f.nItems = 0 then
    .error .assertion
  else
    have : NeZero f.nItems := ⟨h⟩
    .ok { queue := { buffer := userData store (UInt64.ofNat f.startIndex) behind } }

/-- `store = ptr`; `object` is the element of type `T` at an address. -/
def InPlaceArray.inlineStore (a : InPlaceArray) (object : Nat → T) (f : NewFifo) : Fin f.nItems → T :=
  fun i => object (f.ptr.getD 0 + i * a.sizeofT)

/-- `sizeof( T * )`. -/
def sizeofPointer : Nat := 8

/-- `store = reinterpret_cast< type_t* >( ptr )`, where `type_t` is `T*`: the bytes of the elements, one
pointer behind the other. `pointee` is the object that the pointer at an address points at, if there is
one. -/
def pointerStore (pointee : Nat → Option T) (f : NewFifo) : Fin f.nItems → Option T :=
  fun i => pointee (f.ptr.getD 0 + i * sizeofPointer)

abbrev InPlaceCall (T : Type) (cap : Nat) := EStateM Stop (InPlaceFifo T cap)

namespace InPlaceFifo

variable {α : Type}

/-- A call on the queue. -/
def onQueue (x : Queue.Call T cap α) : InPlaceCall T cap α := fun st =>
  match x st.queue with
  | .ok v rb => .ok v { st with queue := rb }
  | .error e rb => .error e { st with queue := rb }

/-- `signal[ i ]`. -/
def look (i : Nat) : InPlaceCall T cap PUnit :=
  modify fun st => { st with looked := st.looked ++ [i] }

/-- `pop( item, &signal )`. -/
def pop : InPlaceCall T cap (List T) := do
  let st ← get
  let e ← onQueue RingBuffer.pop
  look st.queue.buffer.readPt.val
  return [e.1]

/-- `peek( &signal )`, the value, and `unpeek()`. -/
def peek : InPlaceCall T cap (List T) := do
  let i ← onQueue RingBuffer.localPeek
  look i.1
  let st ← get
  onQueue RingBuffer.unpeek
  return [st.queue.buffer.store i.1]

/-- `pop_s()`: the handle peeks, and its destructor releases. -/
def popS : InPlaceCall T cap (List T) := do
  let i ← onQueue RingBuffer.localPeek
  look i.1
  let st ← get
  onQueue RingBuffer.unpeek
  onQueue (RingBuffer.localRecycle 1)
  return [st.queue.buffer.store i.1]

/-- `operator []` of the handle of `peek_range`: its `signal` is the address of `signal[ crp ]`. -/
def item (crp : Fin cap) (index : Nat) : InPlaceCall T cap T := do
  let ptrVal : Fin cap := ⟨(index + crp) % cap, Nat.mod_lt _ crp.pos⟩
  -- from the address of `signal[ crp ]` on, by the index that the store is read at
  look (crp + ptrVal)
  let st ← get
  return st.queue.buffer.store ptrVal

/-- `peek_range( n )`, all items of the handle, and its destructor. -/
def peekRange (n : Nat) : InPlaceCall T cap (List T) := do
  let crp ← onQueue (RingBuffer.localPeekRange n)
  look crp
  let items ← (List.range n).mapM (item crp)
  onQueue RingBuffer.unpeek
  return items

end InPlaceFifo

/-- What happens to the queue: reads, and the end of the producer, which closes it. -/
inductive InPlaceRead where
  | pop
  | popS
  | peek
  | peekRange (n : Nat)
  | close
  deriving DecidableEq, Repr

namespace InPlaceRead

def exec : InPlaceRead → InPlaceCall T cap (List T)
  | .pop => InPlaceFifo.pop
  | .popS => InPlaceFifo.popS
  | .peek => InPlaceFifo.peek
  | .peekRange n => InPlaceFifo.peekRange n
  | .close => do
      InPlaceFifo.onQueue RingBuffer.invalidate
      return []

/-- The reads of a queue of pointers, with what they point at: `pop` and `peek` follow the pointer, and
`peek_range` is an `assert( false )`. -/
def execPointer : InPlaceRead → InPlaceCall (Option T) cap (List (Option T))
  | .peekRange _ => throw .assertion
  | r => r.exec

/-- What the read yields and leaves of the elements that have not been taken. -/
def spec : InPlaceRead → List T → Option (List T × List T)
  | .pop, x :: xs => some ([x], xs)
  | .popS, x :: xs => some ([x], xs)
  | .peek, x :: xs => some ([x], x :: xs)
  | .peekRange n, xs => if n ≤ xs.length then some (xs.take n, xs) else none
  | .close, xs => some ([], xs)
  | _, [] => none

/-- What a sequence of reads yields of a segment, each what is due at its turn; `none` if at some read
there is too little left. -/
def specAll : List InPlaceRead → List T → Option (List (List T))
  | [], _ => some []
  | r :: rs, xs => do
      let (ys, xs') ← r.spec xs
      let rest ← specAll rs xs'
      return ys :: rest

end InPlaceRead

end Queue

/-! ## A partition that reads well -/

/-- The segments lie one behind the other, from `start` to `stop`. -/
def Abut : Nat → List PortInfo → Nat → Prop
  | start, [], stop => start = stop
  | start, p :: ps, stop => p.startIndex = start ∧ Abut (start + p.nitems) ps stop

namespace InPlaceArray

variable {T : Type} (a : InPlaceArray) (object : Nat → T)

/-- The elements of the array. -/
def elements : List T := (List.range a.length).map fun i => object (a.addressOf i)

/-- The elements of a port's segment. -/
def segment (p : PortInfo) : List T :=
  (List.range p.nitems).map fun i => object (a.addressOf (p.startIndex + i))

/-- Ports of different names whose segments are contiguous, disjoint and cover the array in order. -/
structure Partitions (ports : List (PortKey × PortInfo)) : Prop where
  names : (ports.map Prod.fst).Nodup
  contiguous : Abut 0 (ports.map Prod.snd) a.length
  disjoint : (ports.map Prod.snd).Pairwise fun p q => p.startIndex + p.nitems ≤ q.startIndex
  covers : ((ports.map Prod.snd).map (a.segment object)).flatten = a.elements object
  buffers : ∀ p ∈ ports, p.2.existingBuffer = some (a.addressOf p.2.startIndex)

end InPlaceArray

/-- Every sequence of reads, carried out by `exec`, yields the elements of `segment` in order, as long as
there are elements, and stays inside the signal array. -/
def InPlaceFifo.ReadsAll {T : Type} {cap : Nat} (exec : InPlaceRead → InPlaceCall T cap (List T))
    (segment : List T) (st : InPlaceFifo T cap) : Prop :=
  ∀ reads, match InPlaceRead.specAll reads segment with
    | some outs => ∃ st', (reads.mapM exec).run st = .ok outs st' ∧ ∀ i ∈ st'.looked, i < signalLength
    | none => ∃ e st', (reads.mapM exec).run st = .error e st' ∧ ∀ i ∈ st'.looked, i < signalLength

namespace InPlaceArray

variable {T : Type} (a : InPlaceArray) (object : Nat → T) (pointee : Nat → Option T)

/-- The queue over a port's segment can be built, and reads well. -/
def ReadsWell (behind : Nat → Signal) (p : PortInfo) : Prop :=
  if a.inlineAlloc then
    ∃ st, InPlaceFifo.make behind (.ofPort 0 p) (a.inlineStore object _) = .ok st ∧
      st.ReadsAll InPlaceRead.exec (a.segment object p)
  else
    ∃ st, InPlaceFifo.make behind (.ofPort 0 p) (pointerStore pointee _) = .ok st ∧
      st.ReadsAll InPlaceRead.execPointer ((a.segment object p).map some)

/-- No division by zero, ports that partition the array, and a queue over each that reads well. -/
def InPlace (behind : Nat → Signal) (nPorts : Nat) : Prop :=
  ∃ ports, a.addInPlacePorts nPorts = some ports ∧ a.Partitions object ports ∧
    ∀ p ∈ ports, a.ReadsWell object pointee behind p.2

end InPlaceArray

/-! ## The segments -/

namespace Abut

variable {start stop : Nat} {ps : List PortInfo} {p : PortInfo}

theorem bounds (h : Abut start ps stop) :
    start ≤ stop ∧ ∀ p ∈ ps, start ≤ p.startIndex ∧ p.startIndex + p.nitems ≤ stop := by
  induction ps generalizing start with
  | nil => exact ⟨Nat.le_of_eq h, by simp⟩
  | cons p ps ih =>
      obtain ⟨hp, hrest⟩ := h
      obtain ⟨hle, hall⟩ := ih hrest
      refine ⟨by omega, ?_⟩
      intro q hq
      rcases List.mem_cons.mp hq with rfl | hq
      · exact ⟨hp.ge, by omega⟩
      · have := hall q hq
        exact ⟨by omega, this.2⟩

theorem disjoint (h : Abut start ps stop) :
    ps.Pairwise fun p q => p.startIndex + p.nitems ≤ q.startIndex := by
  induction ps generalizing start with
  | nil => exact .nil
  | cons p ps ih =>
      obtain ⟨hp, hrest⟩ := h
      refine .cons ?_ (ih hrest)
      intro q hq
      rw [hp]
      exact (hrest.bounds.2 q hq).1

/-- Segments one behind the other hold what lies between their ends. -/
theorem flatten {T : Type} (h : Abut start ps stop) (a : InPlaceArray) (object : Nat → T) :
    (ps.map (a.segment object)).flatten =
      (List.range (stop - start)).map fun i => object (a.addressOf (start + i)) := by
  induction ps generalizing start with
  | nil =>
      obtain rfl : start = stop := h
      simp
  | cons p ps ih =>
      obtain ⟨hp, hrest⟩ := h
      have hle := hrest.bounds.1
      have hcut : stop - start = p.nitems + (stop - (start + p.nitems)) := by omega
      rw [List.map_cons, List.flatten_cons, ih hrest, hcut, List.range_add, List.map_append,
        List.map_map, InPlaceArray.segment, hp]
      congr 1
      simp [Nat.add_assoc]

end Abut

namespace InPlaceArray

variable {T : Type} {a : InPlaceArray} {n k m : Nat}

theorem nitems_inner (h : k + 1 < n) : (a.portInfo n k).nitems = a.length / n := by
  show a.length / n + (if k = n - 1 then _ else _) = _
  rw [if_neg (by omega), Nat.add_zero]

theorem nitems_last (h : k + 1 = n) : (a.portInfo n k).nitems = a.length / n + a.length % n := by
  show a.length / n + (if k = n - 1 then _ else _) = _
  rw [if_pos (by omega)]

/-- The ports from `k` on cut what lies behind the first `k` shares. -/
theorem abut_ports (h : k + m + 1 = n) :
    Abut (k * (a.length / n)) ((List.range' k (m + 1)).map (a.portInfo n)) a.length := by
  induction m generalizing k with
  | zero =>
      refine ⟨rfl, ?_⟩
      show k * (a.length / n) + (a.portInfo n k).nitems = a.length
      have hshare : k * (a.length / n) + a.length / n = n * (a.length / n) := by
        rw [← Nat.succ_mul, show k.succ = n from h]
      have := Nat.div_add_mod a.length n
      rw [nitems_last h]
      omega
  | succ m ih =>
      refine ⟨rfl, ?_⟩
      have hnext := ih (k := k + 1) (by omega)
      rw [nitems_inner (by omega), ← Nat.succ_mul]
      exact hnext

/-- The names that the loop makes are different. -/
theorem portName_injective : Function.Injective Nat.repr := by
  intro i j h
  have hdigits : Nat.toDigits 10 i = Nat.toDigits 10 j := by
    simpa using congrArg String.toList h
  have hback : ∀ k, Nat.ofDigitChars 10 (Nat.toDigits 10 k) 0 = k := fun k =>
    Nat.ofDigitChars_toDigits (by decide) (by decide)
  rw [← hback i, hdigits, hback j]

/-- **The ports partition the array.** -/
theorem partitions (a : InPlaceArray) (object : Nat → T) (hn : n ≠ 0) :
    ∃ ports, a.addInPlacePorts n = some ports ∧ a.Partitions object ports := by
  have hsnd : ((List.range n).map fun index => (Nat.repr index, a.portInfo n index)).map Prod.snd =
      (List.range n).map (a.portInfo n) := by
    rw [List.map_map]
    rfl
  have hports : Abut 0 ((List.range n).map (a.portInfo n)) a.length := by
    have := abut_ports (a := a) (n := n) (k := 0) (m := n - 1) (by omega)
    rwa [Nat.zero_mul, Nat.sub_add_cancel (by omega), ← List.range_eq_range'] at this
  refine ⟨_, if_neg hn, ?_, ?_, ?_, ?_, ?_⟩
  · rw [List.map_map]
    exact List.nodup_range.map portName_injective
  · rw [hsnd]
    exact hports
  · rw [hsnd]
    exact hports.disjoint
  · rw [hsnd, hports.flatten a object]
    simp [elements]
  · intro p hp
    obtain ⟨index, _, rfl⟩ := List.mem_map.mp hp
    rfl

end InPlaceArray

/-! ## Reading the queue -/

section Reading

variable {T α : Type} {cap : Nat} {st : InPlaceFifo T cap} {es : List (T × RaftSignal)}

namespace InPlaceFifo

theorem onQueue_ok {x : Queue.Call T cap α} {v : α} {rb : RingBuffer T cap}
    (h : x.run st.queue = .ok v rb) : (onQueue x).run st = .ok v { st with queue := rb } := by
  show onQueue x st = _
  rw [onQueue, show x st.queue = _ from h]

theorem onQueue_error {x : Queue.Call T cap α} {e : Stop} {rb : RingBuffer T cap}
    (h : x.run st.queue = .error e rb) : (onQueue x).run st = .error e { st with queue := rb } := by
  show onQueue x st = _
  rw [onQueue, show x st.queue = _ from h]

theorem look_run (i : Nat) (st : InPlaceFifo T cap) :
    (look i).run st = .ok ⟨⟩ { st with looked := st.looked ++ [i] } := rfl

theorem get_run (st : InPlaceFifo T cap) :
    (get : InPlaceCall T cap (InPlaceFifo T cap)).run st = .ok st st := rfl

theorem unpeek_run (st : InPlaceFifo T cap) : (onQueue RingBuffer.unpeek).run st =
    .ok ⟨⟩ { st with queue := RingBuffer.setHelper .peek false st.queue } := rfl

/-- The signals are looked for less than two turns from the start of the array. -/
def Near (st : InPlaceFifo T cap) : Prop := ∀ i ∈ st.looked, i + 1 < 2 * cap

theorem Near.look {i : Nat} (h : Near st) (hi : i + 1 < 2 * cap) (rb : RingBuffer T cap) :
    Near { st with queue := rb, looked := st.looked ++ [i] } := by
  intro j hj
  rcases List.mem_append.mp hj with hj | hj
  · exact h j hj
  · rw [List.mem_singleton.mp hj]
    exact hi

/-- All the items of a peeked range. -/
theorem items_run (crp : Fin cap) (l : List Nat) : ∀ {st : InPlaceFifo T cap}, Near st →
    ∃ st', (l.mapM (item crp)).run st = .ok (l.map fun i => st.queue.buffer.store
        ⟨(i + crp) % cap, Nat.mod_lt _ crp.pos⟩) st' ∧ st'.queue = st.queue ∧ Near st' := by
  induction l with
  | nil =>
      intro st h
      exact ⟨st, rfl, rfl, h⟩
  | cons i l ih =>
      intro st h
      have hlt : (i + crp) % cap < cap := Nat.mod_lt _ crp.pos
      have hnear : Near { st with looked := st.looked ++ [crp + (i + crp) % cap] } :=
        h.look (by omega) st.queue
      obtain ⟨st', hrun, hqueue, hst'⟩ := ih hnear
      refine ⟨st', ?_, hqueue, hst'⟩
      rw [List.mapM_cons, run_bind_of_ok (show (item crp i).run st = .ok _ _ from rfl),
        run_bind_of_ok hrun]
      rfl

/-- A call that has nothing to read stops before it looks at a signal. -/
theorem onQueue_stops {β : Type} {x : Queue.Call T cap α} {f : α → InPlaceCall T cap β}
    (h : ∃ e rb, x.run st.queue = .error e rb) (hst : Near st) :
    ∃ e st', (onQueue x >>= f).run st = .error e st' ∧ Near st' := by
  obtain ⟨e, rb, hx⟩ := h
  exact ⟨e, _, run_bind_of_error (onQueue_error hx), hst⟩

variable [NeZero cap]

/-- What a read has done that was due: it yielded `ys`, and `xs` are left. -/
def Yields (x : InPlaceCall T cap (List T)) (ys xs : List T) (st : InPlaceFifo T cap) : Prop :=
  ∃ st' es, x.run st = .ok ys st' ∧ Queue.Holds st'.queue es ∧ es.map Prod.fst = xs ∧ Near st'

variable {e : T × RaftSignal} {n : Nat}

theorem pop_run (h : Queue.Holds st.queue (e :: es)) : pop.run st = .ok [e.1]
    { queue := RingBuffer.popped st.queue,
      looked := st.looked ++ [(st.queue.buffer.readPt.a : Nat)] } := by
  rw [pop, run_bind_of_ok (get_run st), run_bind_of_ok (onQueue_ok (RingBuffer.pop_run h))]
  rfl

theorem pop_yields (h : Queue.Holds st.queue (e :: es)) (hst : Near st) :
    Yields pop [e.1] (es.map Prod.fst) st := by
  have hlt := st.queue.buffer.readPt.a.isLt
  exact ⟨_, es, pop_run h, RingBuffer.holds_popped h, rfl,
    hst.look (i := st.queue.buffer.readPt.a) (by omega) _⟩

/-- The element that a peek finds. -/
theorem store_head (h : Queue.Holds st.queue (e :: es)) :
    st.queue.buffer.store st.queue.buffer.readPt.a = e.1 := congrArg Prod.fst h.head

theorem peek_yields (h : Queue.Holds st.queue (e :: es)) (hst : Near st) :
    Yields peek [e.1] ((e :: es).map Prod.fst) st := by
  have hlt := st.queue.buffer.readPt.a.isLt
  have hpeek : (onQueue RingBuffer.localPeek : InPlaceCall T cap _).run st = _ :=
    onQueue_ok (RingBuffer.localPeek_run h)
  refine ⟨_, e :: es, ?_, (h.setHelper .peek true).setHelper .peek false, rfl,
    hst.look (i := st.queue.buffer.readPt.a) ?_ _⟩
  · rw [peek, run_bind_of_ok hpeek, ← store_head h]
    rfl
  · omega

theorem popS_yields (h : Queue.Holds st.queue (e :: es)) (hst : Near st) :
    Yields popS [e.1] (es.map Prod.fst) st := by
  have hlt := st.queue.buffer.readPt.a.isLt
  have hdown := (h.setHelper .peek true).setHelper .peek false
  have hpeek : (onQueue RingBuffer.localPeek : InPlaceCall T cap _).run st = _ :=
    onQueue_ok (RingBuffer.localPeek_run h)
  have hrecycle : (RingBuffer.localRecycle 1).run
      (RingBuffer.setHelper .peek false (RingBuffer.setHelper .peek true st.queue)) =
        .ok ⟨⟩ (RingBuffer.recycledOne
          (RingBuffer.setHelper .peek false (RingBuffer.setHelper .peek true st.queue))) :=
    RingBuffer.localRecycle_succ hdown 0
  refine ⟨_, es, ?_, RingBuffer.holds_recycledOne hdown, rfl,
    hst.look (i := st.queue.buffer.readPt.a) ?_ _⟩
  · rw [popS, run_bind_of_ok hpeek, run_bind_of_ok (look_run _ _), run_bind_of_ok (get_run _),
      run_bind_of_ok (unpeek_run _),
      run_bind_of_ok (onQueue_ok hrecycle), ← store_head h]
    rfl
  · omega

theorem peekRange_yields (h : Queue.Holds st.queue es) (hst : Near st) (hn : n ≤ es.length) :
    Yields (peekRange n) ((es.map Prod.fst).take n) (es.map Prod.fst) st := by
  have hlt := st.queue.buffer.readPt.a.isLt
  have hpeek : (onQueue (RingBuffer.localPeekRange n) : InPlaceCall T cap _).run st = _ :=
    onQueue_ok (RingBuffer.localPeekRange_run h hn)
  obtain ⟨st', hitems, hqueue, hst'⟩ := items_run st.queue.buffer.readPt.a (List.range n)
    (hst.look (i := st.queue.buffer.readPt.a) (by omega) (RingBuffer.setHelper .peek true st.queue))
  have hvalues : ((List.range n).map fun i => st.queue.buffer.store
      ⟨(i + st.queue.buffer.readPt.a) % cap, Nat.mod_lt _ st.queue.buffer.readPt.a.pos⟩) =
      (es.map Prod.fst).take n := by
    refine List.ext_getElem (by simp [hn]) fun i hi _ => ?_
    have hin : i < n := by simpa using hi
    have hlen : i < es.length := hin.trans_le hn
    have hentry : (st.queue.buffer.entry (slot cap (i + st.queue.buffer.readPt.a))).1 = es[i].1 :=
      congrArg Prod.fst (h.entryAt (List.getElem?_eq_getElem hlen))
    rw [List.getElem_map, List.getElem_range, List.getElem_take, List.getElem_map, ← hentry]
    rfl
  have hheld : Queue.Holds st'.queue es := by
    rw [hqueue]
    exact h.setHelper .peek true
  refine ⟨{ st' with queue := RingBuffer.setHelper .peek false st'.queue }, es, ?_,
    hheld.setHelper .peek false, rfl, hst'⟩
  rw [peekRange, run_bind_of_ok hpeek, run_bind_of_ok (look_run _ _), run_bind_of_ok hitems,
    ← hvalues]
  rfl

/-- A range of more than what is there is not handed out. -/
theorem localPeekRange_stops {rb : RingBuffer T cap} (h : Queue.Holds rb es) (hn : ¬n ≤ es.length) :
    ∃ e rb', (RingBuffer.localPeekRange n).run rb = .error e rb' := by
  have hrun : (RingBuffer.setHelper .peek true rb).resizing = false := h.running
  have hsize := RingBuffer.size_run (h.setHelper .peek true)
  cases hv : (RingBuffer.setHelper .peek true rb).buffer.isValid with
  | true => simp [RingBuffer.localPeekRange, hrun, hsize, hn, hv]
  | false =>
      by_cases hz : es.length = 0
      · have hpos : n ≠ 0 := by omega
        simp [RingBuffer.localPeekRange, hrun, hsize, hpos, hv, hz]
      · simp [RingBuffer.localPeekRange, hrun, hsize, hn, hv, hz, not_le.mp hn]

end InPlaceFifo

namespace InPlaceRead

variable [NeZero cap]

/-- **One read**: it yields what is due of the elements in the queue, or stops where too little is left. -/
theorem exec_run (r : InPlaceRead) (h : Queue.Holds st.queue es) (hst : st.Near) :
    match r.spec (es.map Prod.fst) with
    | some (ys, xs) => InPlaceFifo.Yields r.exec ys xs st
    | none => ∃ e st', r.exec.run st = .error e st' ∧ st'.Near := by
  cases r with
  | pop =>
      cases es with
      | nil =>
          show ∃ e st', InPlaceFifo.pop.run st = .error e st' ∧ st'.Near
          rw [InPlaceFifo.pop, run_bind_of_ok (InPlaceFifo.get_run st)]
          exact InPlaceFifo.onQueue_stops (RingBuffer.pop_empty h) hst
      | cons e es => exact InPlaceFifo.pop_yields h hst
  | popS =>
      cases es with
      | nil => exact InPlaceFifo.onQueue_stops (RingBuffer.localPeek_empty h) hst
      | cons e es => exact InPlaceFifo.popS_yields h hst
  | peek =>
      cases es with
      | nil => exact InPlaceFifo.onQueue_stops (RingBuffer.localPeek_empty h) hst
      | cons e es => exact InPlaceFifo.peek_yields h hst
  | peekRange n =>
      by_cases hn : n ≤ es.length
      · have hspec : (InPlaceRead.peekRange n).spec (es.map Prod.fst) =
            some ((es.map Prod.fst).take n, es.map Prod.fst) := by simp [spec, hn]
        rw [hspec]
        exact InPlaceFifo.peekRange_yields h hst hn
      · have hspec : (InPlaceRead.peekRange n).spec (es.map Prod.fst) = none := by simp [spec, hn]
        rw [hspec]
        exact InPlaceFifo.onQueue_stops (InPlaceFifo.localPeekRange_stops h hn) hst
  | close => exact ⟨_, es, rfl, ⟨h.running, h.pos, h.bounded, h.items⟩, rfl, hst⟩

/-- **A sequence of reads.** -/
theorem execAll_run (reads : List InPlaceRead) : ∀ {st : InPlaceFifo T cap}
    {es : List (T × RaftSignal)}, Queue.Holds st.queue es → st.Near →
      match specAll reads (es.map Prod.fst) with
      | some outs => ∃ st', (reads.mapM exec).run st = .ok outs st' ∧ st'.Near
      | none => ∃ e st', (reads.mapM exec).run st = .error e st' ∧ st'.Near := by
  induction reads with
  | nil =>
      intro st es _ hst
      exact ⟨st, rfl, hst⟩
  | cons r reads ih =>
      intro st es h hst
      have hread := exec_run r h hst
      rw [specAll, List.mapM_cons]
      cases hspec : r.spec (es.map Prod.fst) with
      | none =>
          rw [hspec] at hread
          obtain ⟨e, st', hrun, hst'⟩ := hread
          exact ⟨e, st', run_bind_of_error hrun, hst'⟩
      | some out =>
          obtain ⟨ys, xs⟩ := out
          rw [hspec] at hread
          obtain ⟨st', es', hrun, hholds, rfl, hst'⟩ := hread
          have hrest := ih hholds hst'
          simp only [Option.bind_eq_bind, Option.bind_some]
          rw [run_bind_of_ok hrun]
          cases hall : specAll reads (es'.map Prod.fst) with
          | none =>
              rw [hall] at hrest
              obtain ⟨e, st'', hrun', hst''⟩ := hrest
              exact ⟨e, st'', run_bind_of_error hrun', hst''⟩
          | some outs =>
              rw [hall] at hrest
              obtain ⟨st'', hrun', hst''⟩ := hrest
              exact ⟨st'', by rw [run_bind_of_ok hrun']; rfl, hst''⟩

end InPlaceRead

/-! ## From a segment to its queue -/

/-- A queue over memory of the program is full of what is there. -/
theorem holds_userData [NeZero cap] (store : Fin cap → T) (startPosition : UInt64)
    (behind : Nat → Signal) : ∃ es,
      Queue.Holds ({ buffer := userData store startPosition behind } : RingBuffer T cap) es ∧
        es.map Prod.fst = List.ofFn store := by
  refine ⟨window (userData store startPosition behind).entry 0 cap, ⟨rfl, ?_, ?_, ?_⟩, ?_⟩
  · simp [userData, Pointer.init, Pointer.initWrap, Pointer.pos]
  · rw [window_length]
  · rw [window_length]
    simp [userData, Pointer.init, Pointer.pos]
  · refine List.ext_getElem (by simp) fun i hi _ => ?_
    have hlt : i < cap := by simpa using hi
    rw [List.getElem_map, window_getElem, List.getElem_ofFn]
    have hslot : (slot cap (0 + i) : Fin cap) = ⟨i, hlt⟩ := by
      rw [Nat.zero_add]
      exact Fin.ext (Nat.mod_eq_of_lt hlt)
    rw [hslot]
    rfl

namespace InPlaceArray

variable {a : InPlaceArray} {object : Nat → T} {pointee : Nat → Option T} {behind : Nat → Signal}
variable {p : PortInfo}

/-- The queue over at least one element, and what is in it. -/
theorem make_run (behind : Nat → Signal) (f : NewFifo) [NeZero f.nItems] (store : Fin f.nItems → T) :
    ∃ st es, InPlaceFifo.make behind f store = .ok st ∧ st.looked = [] ∧
      (st.queue.buffer.readPt.a : Nat) = 0 ∧ Queue.Holds st.queue es ∧
      es.map Prod.fst = List.ofFn store := by
  obtain ⟨es, hholds, hes⟩ := holds_userData store (UInt64.ofNat f.startIndex) behind
  exact ⟨_, es, dif_neg (NeZero.ne f.nItems), rfl, rfl, hholds, hes⟩

/-- The memory that the queue is built over is the segment. -/
theorem segment_eq (hp : p.existingBuffer = some (a.addressOf p.startIndex)) :
    List.ofFn (a.inlineStore object (.ofPort 0 p)) = a.segment object p := by
  have hrange : List.ofFn (a.inlineStore object (.ofPort 0 p)) =
      (List.range (NewFifo.ofPort 0 p).nItems).map fun i =>
        object ((NewFifo.ofPort 0 p).ptr.getD 0 + i * a.sizeofT) := by
    rw [List.ofFn_eq_map, ← List.map_coe_finRange_eq_range, List.map_map]
    rfl
  rw [hrange]
  simp only [NewFifo.ofPort, hp, Option.getD_some, segment, addressOf, Nat.add_mul, Nat.add_assoc]

theorem nItems_ofPort (hp : p.existingBuffer = some (a.addressOf p.startIndex)) :
    (NewFifo.ofPort 0 p).nItems = p.nitems := by
  simp only [NewFifo.ofPort, hp]

/-- Two pops look for the signals at the read index and behind it. -/
theorem pop_pop {st : InPlaceFifo T cap} [NeZero cap] {e e' : T × RaftSignal}
    {es : List (T × RaftSignal)} (h : Queue.Holds st.queue (e :: e' :: es)) :
    ∃ st', ([InPlaceRead.pop, .pop].mapM InPlaceRead.exec).run st = .ok [[e.1], [e'.1]] st' ∧
      st'.looked = st.looked ++ [(st.queue.buffer.readPt.a : Nat)] ++
        [(st.queue.buffer.readPt.inc.a : Nat)] := by
  have hfirst := InPlaceFifo.pop_run h
  let st₁ : InPlaceFifo T cap :=
    ⟨RingBuffer.popped st.queue, st.looked ++ [(st.queue.buffer.readPt.a : Nat)]⟩
  have hrest : Queue.Holds st₁.queue (e' :: es) := RingBuffer.holds_popped h
  have hsecond := InPlaceFifo.pop_run hrest
  refine ⟨⟨RingBuffer.popped st₁.queue, st₁.looked ++ [(st₁.queue.buffer.readPt.a : Nat)]⟩, ?_, rfl⟩
  simp only [List.mapM_cons, List.mapM_nil, InPlaceRead.exec]
  rw [run_bind_of_ok hfirst]
  simp only [bind_assoc]
  rw [run_bind_of_ok hsecond]
  rfl

/-- A queue of pointers does not read well: no range of it can be peeked at. -/
theorem inlineAlloc_of_readsWell (hwell : a.ReadsWell object pointee behind p) :
    a.inlineAlloc = true := by
  by_contra hlarge
  rw [ReadsWell, if_neg hlarge] at hwell
  obtain ⟨st, -, hreads⟩ := hwell
  have hspec : InPlaceRead.specAll [.peekRange 0] ((a.segment object p).map some) = some [[]] := by
    simp [InPlaceRead.specAll, InPlaceRead.spec]
  have hrun := hreads [.peekRange 0]
  rw [hspec] at hrun
  obtain ⟨st', hrun, -⟩ := hrun
  cases hrun

/-- Without an element no queue is made, and with two the second pop looks behind the signal array. -/
theorem nitems_of_readsWell (hp : p.existingBuffer = some (a.addressOf p.startIndex))
    (hwell : a.ReadsWell object pointee behind p) : p.nitems = 1 := by
  rw [ReadsWell, if_pos (inlineAlloc_of_readsWell hwell)] at hwell
  obtain ⟨st, hmake, hreads⟩ := hwell
  rcases Nat.lt_trichotomy p.nitems 1 with hlt | hone | hgt
  · have hzero : (NewFifo.ofPort 0 p).nItems = 0 := by
      rw [nItems_ofPort hp]
      omega
    rw [InPlaceFifo.make, dif_pos hzero] at hmake
    cases hmake
  · exact hone
  · have hne : NeZero (NewFifo.ofPort 0 p).nItems := ⟨by rw [nItems_ofPort hp]; omega⟩
    obtain ⟨st₁, es, hmake₁, hlooked, hindex, hholds, hes⟩ :=
      make_run behind (NewFifo.ofPort 0 p) (a.inlineStore object _)
    rw [hmake₁] at hmake
    obtain rfl : st₁ = st := by injection hmake
    rw [segment_eq hp] at hes
    have hlen : es.length = p.nitems := by
      have := congrArg List.length hes
      simpa [segment] using this
    obtain ⟨e, e', rest, rfl⟩ : ∃ e e' rest, es = e :: e' :: rest := by
      match es, hlen with
      | [], hlen => simp at hlen; omega
      | [_], hlen => simp at hlen; omega
      | e :: e' :: rest, _ => exact ⟨e, e', rest, rfl⟩
    obtain ⟨st₂, hrun, hlooked₂⟩ := pop_pop hholds
    have hspec := hreads [.pop, .pop]
    rw [← hes] at hspec
    obtain ⟨st₃, hrun₃, hinside⟩ := hspec
    rw [hrun] at hrun₃
    obtain rfl : st₂ = st₃ := by injection hrun₃
    -- the second signal is looked for at index one
    have hone : (st₁.queue.buffer.readPt.inc.a : Nat) = 1 := by
      rw [← Pointer.pos_mod, Pointer.pos_inc, Nat.add_mod, Pointer.pos_mod, hindex, Nat.zero_add,
        Nat.mod_mod, Nat.mod_eq_of_lt]
      rw [nItems_ofPort hp]
      exact hgt
    have := hinside 1 (by rw [hlooked₂, hone]; simp)
    exact absurd this (Nat.lt_irrefl 1)

theorem readsWell_of_nitems (hp : p.existingBuffer = some (a.addressOf p.startIndex))
    (hinline : a.inlineAlloc = true) (hone : p.nitems = 1) : a.ReadsWell object pointee behind p := by
  rw [ReadsWell, if_pos hinline]
  have hcap : (NewFifo.ofPort 0 p).nItems = 1 := (nItems_ofPort hp).trans hone
  have hne : NeZero (NewFifo.ofPort 0 p).nItems := ⟨by omega⟩
  obtain ⟨st, es, hmake, hlooked, -, hholds, hes⟩ :=
    make_run behind (NewFifo.ofPort 0 p) (a.inlineStore object _)
  rw [segment_eq hp] at hes
  refine ⟨st, hmake, fun reads => ?_⟩
  have hnear : ∀ st' : InPlaceFifo T (NewFifo.ofPort 0 p).nItems, st'.Near →
      ∀ i ∈ st'.looked, i < signalLength := by
    intro st' hst' i hi
    have := hst' i hi
    rw [hcap] at this
    show i < 1
    omega
  have hall := InPlaceRead.execAll_run reads hholds (by rw [InPlaceFifo.Near, hlooked]; simp)
  rw [hes] at hall
  cases hspec : InPlaceRead.specAll reads (a.segment object p) with
  | none =>
      rw [hspec] at hall
      obtain ⟨e, st', hrun, hst'⟩ := hall
      exact ⟨e, st', hrun, hnear st' hst'⟩
  | some outs =>
      rw [hspec] at hall
      obtain ⟨st', hrun, hst'⟩ := hall
      exact ⟨st', hrun, hnear st' hst'⟩

/-- **A segment's queue reads well exactly if it has one element, and stores it itself.** -/
theorem readsWell_iff (hp : p.existingBuffer = some (a.addressOf p.startIndex)) :
    a.ReadsWell object pointee behind p ↔ a.inlineAlloc = true ∧ p.nitems = 1 :=
  ⟨fun hwell => ⟨inlineAlloc_of_readsWell hwell, nitems_of_readsWell hp hwell⟩,
    fun ⟨hinline, hone⟩ => readsWell_of_nitems hp hinline hone⟩

/-- **In-place ports.** They partition the array and read well exactly if an element is no larger than a
cache line and there are as many ports as elements, and not none. -/
theorem inPlace_iff (a : InPlaceArray) (object : Nat → T) (pointee : Nat → Option T)
    (behind : Nat → Signal) (nPorts : Nat) :
    a.InPlace object pointee behind nPorts ↔
      a.sizeofT ≤ cacheLineSize ∧ nPorts = a.length ∧ nPorts ≠ 0 := by
  have hmod := Nat.div_add_mod a.length nPorts
  have hsize : a.inlineAlloc = true ↔ a.sizeofT ≤ cacheLineSize := decide_eq_true_iff
  constructor
  · rintro ⟨ports, hports, hpart, hreads⟩
    have hne : nPorts ≠ 0 := by
      rintro rfl
      cases hports
    rw [addInPlacePorts, if_neg hne, Option.some_inj] at hports
    subst hports
    have hwell : ∀ k < nPorts, a.inlineAlloc = true ∧ (a.portInfo nPorts k).nitems = 1 := by
      intro k hk
      have hmem : (Nat.repr k, a.portInfo nPorts k) ∈
          (List.range nPorts).map fun index => (Nat.repr index, a.portInfo nPorts index) :=
        List.mem_map_of_mem (List.mem_range.mpr hk)
      exact (readsWell_iff (hpart.buffers _ hmem)).mp (hreads _ hmem)
    have hlast := (hwell (nPorts - 1) (by omega)).2
    rw [nitems_last (by omega)] at hlast
    refine ⟨hsize.mp (hwell 0 (by omega)).1, ?_, hne⟩
    by_cases htwo : nPorts = 1
    · subst htwo
      rw [Nat.div_one, Nat.mod_one] at hlast
      omega
    · have hfirst := (hwell 0 (by omega)).2
      rw [nitems_inner (by omega)] at hfirst
      rw [hfirst] at hmod hlast
      omega
  · rintro ⟨hsmall, hlen, hne⟩
    obtain ⟨ports, hports, hpart⟩ := partitions a object hne
    refine ⟨ports, hports, hpart, fun p hp => ?_⟩
    rw [addInPlacePorts, if_neg hne, Option.some_inj] at hports
    have hbuffer := hpart.buffers p hp
    subst hports
    obtain ⟨k, hk, rfl⟩ := List.mem_map.mp hp
    refine (readsWell_iff hbuffer).mpr ⟨hsize.mpr hsmall, ?_⟩
    have hshare : a.length / nPorts = 1 := by
      rw [← hlen]
      exact Nat.div_self (Nat.pos_of_ne_zero hne)
    have hrest : a.length % nPorts = 0 := by
      rw [← hlen]
      exact Nat.mod_self nPorts
    by_cases hlast : k + 1 = nPorts
    · exact (nitems_last hlast).trans (by omega)
    · have hlt := List.mem_range.mp hk
      exact (nitems_inner (by omega)).trans hshare

theorem four_bytes : 0 < 4 := by decide

/-- Two elements of four bytes each. -/
def twoInts : InPlaceArray := .forEach 0 2 4 "int" four_bytes

theorem seventyTwo_bytes : 0 < 72 := by decide

/-- One element that is larger than a cache line. -/
def oneLarge : InPlaceArray := .forEach 0 1 72 "large" seventyTwo_bytes

/-- Without a number of ports the function divides by zero; with one port over two elements the second pop
looks for its signal behind the signal array. A large element does not read well even with a port of its
own. -/
theorem twoInts_outside :
    twoInts.addInPlacePorts 0 = none ∧
      (∃ st st', InPlaceFifo.make (fun _ => {}) (.ofPort 0 (twoInts.portInfo 1 0))
          (twoInts.inlineStore (fun i => i) _) = .ok st ∧
        ([InPlaceRead.pop, .pop].mapM InPlaceRead.exec).run st = .ok [[0], [4]] st' ∧
        st'.looked = [0, 1]) ∧
      (∀ nPorts < 2, ¬twoInts.InPlace (fun i => i) some (fun _ => {}) nPorts) ∧
      ¬oneLarge.InPlace (fun i => i) some (fun _ => {}) 1 := by
  have hmem (a : InPlaceArray) : (Nat.repr 0, a.portInfo 1 0) ∈
      (List.range 1).map fun index => (Nat.repr index, a.portInfo 1 index) :=
    List.mem_map_of_mem (List.mem_range.mpr Nat.one_pos)
  refine ⟨rfl, ⟨_, _, rfl, rfl, rfl⟩, ?_, ?_⟩
  · rintro nPorts hlt ⟨ports, hports, hpart, hreads⟩
    obtain rfl | rfl : nPorts = 0 ∨ nPorts = 1 := by omega
    · cases hports
    · rw [addInPlacePorts, if_neg (by decide), Option.some_inj] at hports
      subst hports
      have hone := nitems_of_readsWell (hpart.buffers _ (hmem twoInts)) (hreads _ (hmem twoInts))
      revert hone
      decide
  · rintro ⟨ports, hports, -, hreads⟩
    rw [addInPlacePorts, if_neg (by decide), Option.some_inj] at hports
    subst hports
    have hinline := inlineAlloc_of_readsWell (hreads _ (hmem oneLarge))
    revert hinline
    decide

end InPlaceArray

end Reading

end RaftLib.Graph
