/-
# `RaftLib.Queue.Buffer` -- signals, statistics, access flags and the buffer they live in

The data of one queue buffer: `Buffer::Signal` (`signal.hpp`), `Blocked` (`blocked.hpp`),
`ThreadAccess` (`threadaccess.hpp`) and the members of `Buffer::DataBase` (`database.tcc`) that
`Buffer::Data` for the heap fills in (`bufferdata.tcc`).

The two arrays `store` and `signal` have exactly `maxCap` entries by their type, and are indexed by
the pointers' indices, which are below `maxCap` by theirs.
-/
import RaftLib.Queue.Pointer

namespace RaftLib.Queue

/-! ## Signals -/

/-- `raft::signal`, an enumeration over `std::uint32_t`; a program may send values of its own. -/
abbrev RaftSignal := UInt32

namespace RaftSignal

def none : RaftSignal := 0
def quit : RaftSignal := 1
def term : RaftSignal := 2
/-- `eof = MAX_SYSTEM_SIGNAL`. -/
def eof : RaftSignal := 0xfff

end RaftSignal

/-- `raft::kstatus`, what `run` returns. -/
inductive Kstatus where
  | proceed | stop
  deriving DecidableEq, Repr

/-- `Buffer::Signal`, one entry of the signal array. Assigning a `raft::signal` to it leaves `index`
alone. -/
structure Signal where
  sig : RaftSignal := RaftSignal.none
  index : UInt64 := 0
  deriving DecidableEq, Repr

/-! ## Statistics -/

/-- `Blocked::bec`: was an access blocked since the last reset, and how many went through. -/
structure Blocked where
  blocked : UInt32 := 0
  count : UInt32 := 0
  deriving DecidableEq, Repr

namespace Blocked

/-- `bec.count++`. -/
def counted (b : Blocked) : Blocked := { b with count := b.count + 1 }

/-- `if( bec.blocked == 0 ) bec.blocked = 1`. -/
def noted (b : Blocked) : Blocked := if b.blocked = 0 then { b with blocked := 1 } else b

end Blocked

/-! ## Access flags -/

/-- `dm::access_key`. -/
inductive AccessKey where
  | allocate | allocateRange | push | recycle | pop | peek | size
  deriving DecidableEq, Repr

/-- The keys whose flag lives in `thread_access[ 0 ]`. -/
def AccessKey.isProducer : AccessKey → Bool
  | .allocate | .allocateRange | .push => true
  | .recycle | .pop | .peek | .size => false

/-- The keys whose flag lives in `thread_access[ 1 ]`. -/
def AccessKey.isConsumer : AccessKey → Bool
  | .recycle | .pop | .peek => true
  | .allocate | .allocateRange | .push | .size => false

/-- The flags of `thread_access[ 0 ]` and `thread_access[ 1 ]`, by key. -/
structure ThreadAccess where
  flag : AccessKey → Bool := fun _ => false

namespace ThreadAccess

/-- `thread_access[ i ].flag[ key ] = val`. -/
def set (t : ThreadAccess) (key : AccessKey) (val : Bool) : ThreadAccess :=
  { flag := Function.update t.flag key val }

/-- `thread_access[ 0 ].whole != 0`. -/
def producerWhole (t : ThreadAccess) : Bool :=
  t.flag .allocate || t.flag .allocateRange || t.flag .push

/-- `thread_access[ 1 ].whole != 0`. -/
def consumerWhole (t : ThreadAccess) : Bool :=
  t.flag .recycle || t.flag .pop || t.flag .peek

@[simp] theorem set_flag_self (t : ThreadAccess) (k : AccessKey) (v : Bool) :
    (t.set k v).flag k = v := by
  simp [set]

@[simp] theorem set_flag_of_ne {k k' : AccessKey} (h : k' ≠ k) (t : ThreadAccess) (v : Bool) :
    (t.set k v).flag k' = t.flag k' := by
  simp [set, h]

theorem producerWhole_eq_false {t : ThreadAccess} (h : t.producerWhole = false) {k : AccessKey}
    (hk : k.isProducer = true) : t.flag k = false := by
  cases k <;> simp_all [producerWhole, AccessKey.isProducer]

theorem consumerWhole_eq_false {t : ThreadAccess} (h : t.consumerWhole = false) {k : AccessKey}
    (hk : k.isConsumer = true) : t.flag k = false := by
  cases k <;> simp_all [consumerWhole, AccessKey.isConsumer]

end ThreadAccess

/-! ## The buffer -/

/-- What `RingBufferBaseHeap::size` makes of the two wrap counters and the two indices it has
loaded; `none` is `goto TOP`. -/
def sizeFrom (maxCap wrapWrite wrapRead wpt rpt : Nat) : Option Nat :=
  if wpt = rpt then
    if wrapRead < wrapWrite then some maxCap
    else if wrapWrite < wrapRead then none
    else some 0
  else if rpt < wpt then some (wpt - rpt)
  else some (maxCap - rpt + wpt)

/-- The members of `Buffer::DataBase`, for elements of type `T` and capacity `maxCap`. -/
structure Data (T : Type) (maxCap : Nat) where
  readPt : Pointer maxCap
  threadAccess : ThreadAccess := {}
  writePt : Pointer maxCap
  store : Fin maxCap → T
  signal : Fin maxCap → Signal
  externalAlloc : Bool := false
  isValid : Bool := true
  readStats : Blocked := {}
  writeStats : Blocked := {}
  forceResize : Nat := 0

namespace Data

variable {T : Type} {c : Nat}

/-- `Data( max_cap, align )`: fresh pointers and zeroed signals. `posix_memalign` leaves the store
uninitialised, so what is in it is a parameter. -/
def init (cap : Nat) [NeZero cap] (uninit : Fin cap → T) : Data T cap where
  readPt := Pointer.init cap
  writePt := Pointer.init cap
  store := uninit
  signal := fun _ => {}

/-- One pass from the label `TOP` of `RingBufferBaseHeap::size`, all four loads at one moment. -/
def sizeOnce (b : Data T c) : Option Nat :=
  sizeFrom c b.writePt.wrapIndicator b.readPt.wrapIndicator b.writePt.val b.readPt.val

/-- The value and the signal that a pop from index `i` hands out. -/
def entry (b : Data T c) (i : Fin c) : T × RaftSignal := (b.store i, (b.signal i).sig)

/-- Storing a value changes one entry, and keeps the signal there. -/
theorem entry_store (b : Data T c) (i : Fin c) (v : T) :
    ({ b with store := Function.update b.store i v } : Data T c).entry =
      Function.update b.entry i (v, (b.signal i).sig) := by
  funext j
  by_cases hj : j = i
  · simp [hj, entry]
  · simp [hj, entry]

/-- Storing a signal changes one entry, and keeps the value there. -/
theorem entry_signal (b : Data T c) (i : Fin c) (s : RaftSignal) :
    ({ b with signal := Function.update b.signal i { b.signal i with sig := s } } : Data T c).entry =
      Function.update b.entry i (b.store i, s) := by
  funext j
  by_cases hj : j = i
  · simp [hj, entry]
  · simp [hj, entry]

end Data

end RaftLib.Queue
