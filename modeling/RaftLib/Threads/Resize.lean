/-
# `RaftLib.Threads.Resize` -- producer, consumer and monitor around `DataManager::resize`

The handshake of `datamanager.tcc` with the calls that take part in it (`ringbufferheap.tcc`,
`ringbufferheap_abstract.tcc`) and those that do not. Buffers live on a heap, under numbers; a
deleted buffer keeps its number and is no longer alive, so a thread that still holds the number
holds a dangling pointer. Each load of a pointer, each store of an access flag, each read of
`resizing`, each access through a loaded pointer and each statement of `resize` and `copyFrom` is one
step.

A call is written as what it does first and what comes after that (`Code`), under the key it enters
the buffer with. The statements that take several steps have places inside them (`Pc`): `enterBuffer`
and `exitBuffer`, which load `thread_access` and then store through it, `size`, and the accesses
through one loaded buffer pointer. Of a buffer only what guards and handshake look at is kept; a
store to or a load from a slot or its signal is `touch`.
-/
import RaftLib.Queue.Buffer

namespace RaftLib.Threads

open RaftLib.Queue

/-! ## Buffers and the data manager -/

abbrev BufId := Nat

/-- One `Buffer::Data` on the heap, without its arrays. -/
structure Buf where
  cap : Nat
  readPt : Pointer cap
  writePt : Pointer cap
  threadAccess : ThreadAccess := {}
  isValid : Bool := true
  forceResize : Nat := 0
  alive : Bool := true

/-- `new Buffer::Data< T, type >( cap, align )`. -/
def Buf.fresh (cap : Nat) (h : 0 < cap) : Buf where
  cap := cap
  readPt := ⟨⟨0, h⟩, 0⟩
  writePt := ⟨⟨0, h⟩, 0⟩

/-- `DataManager`, with the heap. `threadAccess` is the buffer whose flags the pointer leads to. -/
structure DataManager where
  heap : BufId → Buf
  next : BufId
  buffer : BufId
  threadAccess : BufId
  resizing : Bool := false
  resizeable : Bool := true
  checkingSize : Nat := 0
  exitAlloc : Bool := false

namespace DataManager

/-- A queue with its first buffer, number zero. -/
def init (cap : Nat) (h : 0 < cap) : DataManager where
  heap := fun p => { Buf.fresh cap h with alive := decide (p = 0) }
  next := 1
  buffer := 0
  threadAccess := 0

/-- Change what is at `p`. -/
def onBuf (dm : DataManager) (p : BufId) (f : Buf → Buf) : DataManager :=
  { dm with heap := Function.update dm.heap p (f (dm.heap p)) }

end DataManager

/-! ## Calls -/

/-- What a call keeps in local variables, and the producer between its calls. -/
structure Regs where
  size : Nat := 0
  cap : Nat := 0
  valid : Bool := true
  range : Nat := 0
  allocateCalled : Bool := false
  nAllocated : Nat := 1
  deriving DecidableEq, Repr

/-- One access through a loaded buffer pointer. `stats` goes through the pointer to the statistics
that `init` took from the first buffer. -/
inductive Action where
  | readCap
  | readValid
  | touch
  | incWrite
  | incWriteBy
  | incRead
  | storeForce (n : Nat)
  | invalidate
  | stats
  deriving DecidableEq, Repr

def Action.run (a : Action) (p : BufId) (dm : DataManager) (r : Regs) : DataManager × Regs :=
  match a with
  | .readCap => (dm, { r with cap := (dm.heap p).cap })
  | .readValid => (dm, { r with valid := (dm.heap p).isValid })
  | .touch | .stats => (dm, r)
  | .incWrite => (dm.onBuf p fun b => { b with writePt := b.writePt.inc }, r)
  | .incWriteBy => (dm.onBuf p fun b => { b with writePt := b.writePt.incBy r.nAllocated }, r)
  | .incRead => (dm.onBuf p fun b => { b with readPt := b.readPt.inc }, r)
  | .storeForce n => (dm.onBuf p fun b => { b with forceResize := n }, r)
  | .invalidate => (dm.onBuf p fun b => { b with isValid := false }, r)

/-- What a call has still to do. `again` starts its loop over; a call that is `done` without having
left the buffer leaves that to a later call. -/
inductive Code where
  | enterBuffer (k : Code)
  | exitBuffer (k : Code)
  | notResizing (yes no : Code)
  | size (k : Code)
  | buffer (first : Action) (rest : List Action) (k : Code)
  | branch (test : Regs → Bool) (yes no : Code)
  | assign (f : Regs → Regs) (k : Code)
  | stats (k : Code)
  | again
  | done
  | throw

/-- A call: its access key, whether its `exitBuffer` ends an earlier call that returned without one,
and what it does. A call outside the handshake carries a key of its thread without using it. -/
structure Op where
  key : AccessKey
  releases : Bool := false
  setup : Regs → Regs := id
  code : Code

/-! ### The calls of the two threads -/

namespace Code

/-- `space_avail()`, whose difference is formed where it is tested. -/
def spaceAvail (k : Code) : Code := .buffer .readCap [] (.size k)

/-- `space_avail() >= n`. -/
def hasSpace (n : Nat) (r : Regs) : Bool := decide (n ≤ r.cap - r.size)

/-- `is_invalid() && test( size() )`. -/
def ifInvalidAnd (test : Nat → Bool) (yes no : Code) : Code :=
  .buffer .readValid [] (.branch (fun r => !r.valid) (.size (.branch (fun r => test r.size) yes no)) no)

end Code

namespace Op

open Code

/-- `local_push`. -/
def push : Op where
  key := .push
  code :=
    let fail := exitBuffer (stats again)
    enterBuffer (notResizing
      (Code.spaceAvail (branch (hasSpace 1)
        (buffer .touch [.touch, .stats, .touch, .incWrite] (exitBuffer done)) fail)) fail)

/-- `local_allocate`; `exitBuffer` is left to `send` or `deallocate`. -/
def allocate : Op where
  key := .allocate
  code :=
    let fail := exitBuffer (stats again)
    enterBuffer (notResizing
      (Code.spaceAvail (branch (hasSpace 1)
        (buffer .touch [] (assign (fun r => { r with allocateCalled := true }) done)) fail)) fail)

/-- `local_allocate_n`; a capacity below `n` is noted in the buffer. -/
def allocateRange (n : Nat) : Op where
  key := .allocateRange
  code :=
    let leave := exitBuffer (stats again)
    let fail := buffer .readCap [] (branch (fun r => decide (r.cap < n))
      (buffer (.storeForce n) [] leave) leave)
    enterBuffer (notResizing
      (Code.spaceAvail (branch (hasSpace n)
        (buffer .touch (List.replicate n .touch)
          (assign (fun r => { r with nAllocated := n, allocateCalled := true }) done)) fail)) fail)

def send : Op where
  key := .allocate
  releases := true
  code := branch (·.allocateCalled)
    (buffer .touch [.touch, .stats, .incWrite]
      (assign (fun r => { r with allocateCalled := false }) (exitBuffer done)))
    done

def sendRange : Op where
  key := .allocateRange
  releases := true
  code := branch (·.allocateCalled)
    (buffer .touch [] (buffer .touch [] (buffer .incWriteBy [] (stats
      (assign (fun r => { r with allocateCalled := false, nAllocated := 0 }) (exitBuffer done))))))
    done

def deallocate : Op where
  key := .allocate
  releases := true
  code := assign (fun r => { r with allocateCalled := false }) (exitBuffer done)

def invalidate : Op where
  key := .push
  code := buffer .invalidate [] done

def size (key : AccessKey) : Op where
  key := key
  code := Code.size done

def spaceAvail (key : AccessKey) : Op where
  key := key
  code := Code.spaceAvail done

def capacity (key : AccessKey) : Op where
  key := key
  code := buffer .readCap [] done

def isInvalid (key : AccessKey) : Op where
  key := key
  code := buffer .readValid [] done

/-- `local_pop`. A pass over an open and empty queue goes round without leaving the buffer, and the
exception for a closed one leaves the flag up. -/
def pop : Op where
  key := .pop
  code :=
    enterBuffer (notResizing
      (Code.size (branch (fun r => decide (0 < r.size))
        (buffer .touch [.touch, .touch, .stats, .incRead] (exitBuffer done))
        (ifInvalidAnd (· == 0) throw again)))
      (exitBuffer (stats again)))

/-- `local_peek`; `exitBuffer` is left to `unpeek`. -/
def peek : Op where
  key := .peek
  code :=
    let fail := exitBuffer again
    enterBuffer (notResizing
      (Code.size (branch (fun r => decide (0 < r.size)) (buffer .touch [.touch] done)
        (ifInvalidAnd (· == 0) throw fail))) fail)

/-- `local_peek_range`; on a closed queue too few items are an exception as well. -/
def peekRange (n : Nat) : Op where
  key := .peek
  code :=
    let fail := exitBuffer again
    enterBuffer (notResizing
      (Code.size (branch (fun r => decide (n ≤ r.size)) (buffer .touch [] done)
        (ifInvalidAnd (· == 0) throw (ifInvalidAnd (fun s => decide (s < n)) throw fail)))) fail)

def unpeek : Op where
  key := .peek
  releases := true
  code := exitBuffer done

/-- `local_recycle`, an entry in each pass. -/
def recycle (n : Nat) : Op where
  key := .recycle
  setup := fun r => { r with range := n }
  code :=
    let fail := exitBuffer again
    branch (fun r => r.range == 0) done
      (enterBuffer (notResizing
        (Code.size (branch (fun r => decide (0 < r.size))
          (buffer .incRead [] (exitBuffer (assign (fun r => { r with range := r.range - 1 }) again)))
          (ifInvalidAnd (· == 0) (exitBuffer done) fail))) fail))

/-- `signal_peek`, outside the handshake. -/
def signalPeek : Op where
  key := .pop
  code := buffer .touch [.touch] done

end Op

/-- The calls of the producer. -/
inductive ProducerOp where
  | push | allocate | allocateRange (n : Nat) | send | sendRange | deallocate | invalidate
  | size | spaceAvail | capacity | isInvalid

def ProducerOp.op : ProducerOp → Op
  | .push => .push
  | .allocate => .allocate
  | .allocateRange n => .allocateRange n
  | .send => .send
  | .sendRange => .sendRange
  | .deallocate => .deallocate
  | .invalidate => .invalidate
  | .size => .size .push
  | .spaceAvail => .spaceAvail .push
  | .capacity => .capacity .push
  | .isInvalid => .isInvalid .push

/-- The calls of the consumer. -/
inductive ConsumerOp where
  | pop | peek | peekRange (n : Nat) | unpeek | recycle (n : Nat) | signalPeek
  | size | spaceAvail | capacity | isInvalid

def ConsumerOp.op : ConsumerOp → Op
  | .pop => .pop
  | .peek => .peek
  | .peekRange n => .peekRange n
  | .unpeek => .unpeek
  | .recycle n => .recycle n
  | .signalPeek => .signalPeek
  | .size => .size .pop
  | .spaceAvail => .spaceAvail .pop
  | .capacity => .capacity .pop
  | .isInvalid => .isInvalid .pop

/-! ## A thread -/

/-- Where a thread stands: between two calls, before a statement, or inside one. -/
inductive Pc where
  | idle
  | at (c : Code)
  -- `enterBuffer` or `exitBuffer`, with `thread_access` loaded
  | flag (val : Bool) (p : BufId) (k : Code)
  -- `size`, counted in `checking_size`
  | sizeCheck (k : Code)
  | sizeGet (k : Code)
  | sizeRead (p : BufId) (k : Code)
  | sizeLeave (k : Code)
  | sizeRetry (k : Code)
  -- accesses through a loaded buffer pointer
  | access (p : BufId) (a : Action) (rest : List Action) (k : Code)

/-- A thread: the call it is in or was in last, where it stands, and its local data. `inside` is
raised by a successful check and lowered by the `exitBuffer` after it; `held` is an `inside` that
outlived its call. -/
structure Thread where
  op : Op
  pc : Pc := .idle
  regs : Regs := {}
  inside : AccessKey → Bool := fun _ => false
  held : AccessKey → Bool := fun _ => false

/-- One pass of `size` over the pointers of a buffer. -/
def Buf.sizeOnce (b : Buf) : Option Nat :=
  sizeFrom b.cap b.writePt.wrapIndicator b.readPt.wrapIndicator b.writePt.val b.readPt.val

namespace Thread

/-- Between two calls a thread may start one. -/
def call (t : Thread) (op : Op) : Option Thread :=
  match t.pc with
  | .idle => some { t with op := op, pc := .at op.code, regs := op.setup t.regs }
  | _ => none

/-- The store of `set_helper` has been made. -/
def flagged (t : Thread) (val : Bool) (k : Code) : Thread :=
  if val then { t with pc := .at k }
  else { t with
    pc := .at k
    inside := Function.update t.inside t.op.key false
    held := if t.op.releases then Function.update t.held t.op.key false else t.held }

/-- The next step of the call. -/
def step (dm : DataManager) (t : Thread) : Option (DataManager × Thread) :=
  match t.pc with
  | .idle => none
  | .at (.enterBuffer k) => some (dm, { t with pc := .flag true dm.threadAccess k })
  | .at (.exitBuffer k) => some (dm, { t with pc := .flag false dm.threadAccess k })
  | .flag val p k =>
      some (dm.onBuf p fun b => { b with threadAccess := b.threadAccess.set t.op.key val },
        t.flagged val k)
  | .at (.notResizing yes no) =>
      if dm.resizing then some (dm, { t with pc := .at no })
      else some (dm, { t with pc := .at yes, inside := Function.update t.inside t.op.key true })
  | .at (.size k) =>
      some ({ dm with checkingSize := dm.checkingSize + 1 }, { t with pc := .sizeCheck k })
  | .sizeCheck k =>
      if dm.resizing then some (dm, { t with pc := .sizeRetry k })
      else some (dm, { t with pc := .sizeGet k })
  | .sizeGet k => some (dm, { t with pc := .sizeRead dm.buffer k })
  | .sizeRead p k =>
      match (dm.heap p).sizeOnce with
      | some n => some (dm, { t with pc := .sizeLeave k, regs := { t.regs with size := n } })
      | none => some (dm, t)
  | .sizeLeave k =>
      some ({ dm with checkingSize := dm.checkingSize - 1 }, { t with pc := .at k })
  | .sizeRetry k =>
      some ({ dm with checkingSize := dm.checkingSize - 1 }, { t with pc := .at (.size k) })
  | .at (.buffer a rest k) => some (dm, { t with pc := .access dm.buffer a rest k })
  | .access p a [] k =>
      some ((a.run p dm t.regs).1, { t with pc := .at k, regs := (a.run p dm t.regs).2 })
  | .access p a (b :: rest) k =>
      some ((a.run p dm t.regs).1, { t with pc := .access p b rest k, regs := (a.run p dm t.regs).2 })
  | .at (.branch test yes no) => some (dm, { t with pc := .at (if test t.regs then yes else no) })
  | .at (.assign f k) => some (dm, { t with pc := .at k, regs := f t.regs })
  | .at (.stats k) => some (dm, { t with pc := .at k })
  | .at .again => some (dm, { t with pc := .at t.op.code })
  | .at .done =>
      some (dm, { t with
        pc := .idle
        inside := Function.update t.inside t.op.key false
        held := Function.update t.held t.op.key (t.held t.op.key || t.inside t.op.key) })
  | .at .throw => some (dm, { t with pc := .idle, inside := Function.update t.inside t.op.key false })

/-- The buffer that the next step reads or writes. -/
def touching (t : Thread) : Option BufId :=
  match t.pc with
  | .flag _ p _ | .sizeRead p _ => some p
  | .access _ .stats _ _ | .at (.stats _) => some 0
  | .access p _ _ _ => some p
  | _ => none

/-- The pointer into a buffer that the thread has loaded and is still going to use. -/
def pointer (t : Thread) : Option BufId :=
  match t.pc with
  | .flag _ p _ | .sizeRead p _ | .access p _ _ _ => some p
  | _ => none

/-- Between the successful check of `size` and the end of it. -/
def insideSize (t : Thread) : Bool :=
  match t.pc with
  | .sizeGet _ | .sizeRead _ _ | .sizeLeave _ => true
  | _ => false

/-- The call is counted in `checking_size`. -/
def counted (t : Thread) : Nat :=
  match t.pc with
  | .sizeCheck _ | .sizeGet _ | .sizeRead _ _ | .sizeLeave _ | .sizeRetry _ => 1
  | _ => 0

/-- Does the next step update the statistics? -/
def updatesStats (t : Thread) : Bool :=
  match t.pc with
  | .access _ .stats _ _ | .at (.stats _) => true
  | _ => false

/-- Between a successful check and the matching `exitBuffer`, under `key`. -/
def busy (t : Thread) (key : AccessKey) : Bool := t.inside key || t.held key

end Thread

/-! ## The monitor -/

/-- Where the monitor stands in `RingBuffer::resize` and `DataManager::resize`; `new` and `old` are
the two buffers. -/
inductive Monitor where
  | idle
  | isResizeable (newCap : Nat)
  | newBuffer (newCap : Nat)
  | getOld (new : BufId)
  | checkExit (new old : BufId)
  | cancelDelete (new : BufId)
  | cancelFlag
  | setResizing (new old : BufId)
  | readProducer (new old : BufId)
  | readConsumer (new old : BufId)
  | readSize (new old : BufId)
  | buffercondition (new old : BufId)
  | backOff (new old : BufId)
  -- `copyFrom`
  | copyPointers (new old : BufId)
  | copyValid (new old : BufId)
  | copyArrays (new old : BufId)
  | copyProducer (new old : BufId)
  | copyConsumer (new old : BufId)
  -- `set`
  | setBuffer (new old : BufId)
  | setResizeable (new old : BufId)
  | setThreadAccess (new old : BufId)
  | deleteOld (old : BufId)
  | clearResizing
  deriving DecidableEq

namespace Monitor

/-- `thread_access[ i ] = other->thread_access[ i ]`, where `which` are the keys of that half. -/
def copyFlags (which : AccessKey → Bool) (other b : Buf) : Buf :=
  { b with
    threadAccess := ⟨fun k => if which k then other.threadAccess.flag k else b.threadAccess.flag k⟩ }

/-- The next step of the monitor. -/
def step (dm : DataManager) : Monitor → Option (DataManager × Monitor)
  | .idle => none
  | .isResizeable newCap => some (dm, if dm.resizeable then .newBuffer newCap else .idle)
  | .newBuffer newCap =>
      if h : 0 < newCap then
        some ({ dm with
          heap := Function.update dm.heap dm.next (Buf.fresh newCap h)
          next := dm.next + 1 }, .getOld dm.next)
      else none
  | .getOld new => some (dm, .checkExit new dm.buffer)
  | .checkExit new old =>
      some (dm, if dm.exitAlloc || !(dm.heap old).isValid then .cancelDelete new
        else .setResizing new old)
  | .cancelDelete new => some (dm.onBuf new fun b => { b with alive := false }, .cancelFlag)
  | .cancelFlag => some ({ dm with resizing := false }, .idle)
  | .setResizing new old => some ({ dm with resizing := true }, .readProducer new old)
  | .readProducer new old =>
      some (dm, if (dm.heap dm.threadAccess).threadAccess.producerWhole then .backOff new old
        else .readConsumer new old)
  | .readConsumer new old =>
      some (dm, if (dm.heap dm.threadAccess).threadAccess.consumerWhole then .backOff new old
        else .readSize new old)
  | .readSize new old =>
      some (dm, if dm.checkingSize ≠ 0 then .backOff new old else .buffercondition new old)
  | .buffercondition new old =>
      let b := dm.heap old
      some (dm, if (b.readPt.val : Nat) < b.writePt.val then .copyPointers new old
        else .backOff new old)
  | .backOff new old => some ({ dm with resizing := false }, .checkExit new old)
  | .copyPointers new old =>
      if h : (dm.heap old).cap ≤ (dm.heap new).cap then
        some (dm.onBuf new fun _ => { dm.heap new with
          readPt := (dm.heap old).readPt.resized h
          writePt := (dm.heap old).writePt.resized h }, .copyValid new old)
      else none
  | .copyValid new old =>
      some (dm.onBuf new fun b => { b with isValid := (dm.heap old).isValid }, .copyArrays new old)
  | .copyArrays new old =>
      some (dm.onBuf new fun b => { b with forceResize := (dm.heap old).forceResize },
        .copyProducer new old)
  | .copyProducer new old =>
      some (dm.onBuf new (copyFlags AccessKey.isProducer (dm.heap old)), .copyConsumer new old)
  | .copyConsumer new old =>
      some (dm.onBuf new (copyFlags AccessKey.isConsumer (dm.heap old)), .setBuffer new old)
  | .setBuffer new old => some ({ dm with buffer := new }, .setResizeable new old)
  | .setResizeable new old => some ({ dm with resizeable := true }, .setThreadAccess new old)
  | .setThreadAccess new old => some ({ dm with threadAccess := new }, .deleteOld old)
  | .deleteOld old => some (dm.onBuf old fun b => { b with alive := false }, .clearResizing)
  | .clearResizing => some ({ dm with resizing := false }, .idle)

/-- The buffers that the next step reads or writes. -/
def touching (dm : DataManager) : Monitor → List BufId
  | .checkExit _ old | .buffercondition _ old | .deleteOld old => [old]
  | .cancelDelete new | .setResizeable new _ => [new]
  | .readProducer _ _ | .readConsumer _ _ => [dm.threadAccess]
  | .copyPointers new old | .copyValid new old | .copyArrays new old | .copyProducer new old
  | .copyConsumer new old => [new, old]
  | _ => []

/-- Between the successful check of the flags and the end of the replacement. -/
def replacing : Monitor → Bool
  | .buffercondition _ _ | .copyPointers _ _ | .copyValid _ _ | .copyArrays _ _ | .copyProducer _ _
  | .copyConsumer _ _ | .setBuffer _ _ | .setResizeable _ _ | .setThreadAccess _ _ | .deleteOld _
  | .clearResizing => true
  | _ => false

end Monitor

/-! ## The three together -/

/-- The state; `closed` records that some `invalidate` has made its store. -/
structure State where
  dm : DataManager
  producer : Thread := { op := ProducerOp.op .size }
  consumer : Thread := { op := ConsumerOp.op .size }
  monitor : Monitor := .idle
  closed : Bool := false

/-- A thread starts a call or takes a step; the monitor is asked to resize, or takes a step; or the
application ends. -/
inductive Act where
  | produce (op : ProducerOp)
  | producer
  | consume (op : ConsumerOp)
  | consumer
  | resize (newCap : Nat)
  | monitor
  | exitAlloc

namespace State

def init (cap : Nat) (h : 0 < cap) : State := { dm := DataManager.init cap h }

/-- The buffer that the producer's next step marks as closed, if that is what it does. -/
def invalidating (s : State) : Option BufId :=
  match s.producer.pc with
  | .access p .invalidate _ _ => some p
  | _ => none

def step (s : State) : Act → Option State
  | .produce op => (s.producer.call op.op).map fun t => { s with producer := t }
  | .producer =>
      (s.producer.step s.dm).map fun r => { s with
        dm := r.1
        producer := r.2
        closed := s.closed || s.invalidating.isSome }
  | .consume op => (s.consumer.call op.op).map fun t => { s with consumer := t }
  | .consumer => (s.consumer.step s.dm).map fun r => { s with dm := r.1, consumer := r.2 }
  | .resize newCap =>
      -- the buffer passed in is larger than the current one
      match s.monitor with
      | .idle =>
          if (s.dm.heap s.dm.buffer).cap < newCap then some { s with monitor := .isResizeable newCap }
          else none
      | _ => none
  | .monitor => (s.monitor.step s.dm).map fun r => { s with dm := r.1, monitor := r.2 }
  | .exitAlloc => some { s with dm := { s.dm with exitAlloc := true } }

end State

end RaftLib.Threads
