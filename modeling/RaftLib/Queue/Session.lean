/-
# `RaftLib.Queue.Session` -- calls on one queue, made one after another

A session is a queue and the reference that the producer's last `allocate` returned. `exec` runs one
call of the interface (`FifoCall`) by the member function that implements it, and turns what that
function returns into a `Reply`: a reference is read through at the time it is handed out.

`Session.Step` keeps only the calls that go through. A call that would have to wait, or that throws,
is no step.
-/
import RaftLib.Queue.RingBuffer
import RaftLib.Queue.Fifo
import RaftLib.Logic.Steps

namespace RaftLib.Queue

/-- A queue together with the reference that the last `allocate` returned to the producer. -/
structure Session (T : Type) (cap : Nat) where
  rb : RingBuffer T cap
  ref : Option (Fin cap) := none

namespace Session

variable {T : Type} {cap : Nat}

/-- Run a member function on the session's queue. -/
def onQueue {α : Type} (x : Call T cap α) : EStateM Stop (Session T cap) α := fun s =>
  match x.run s.rb with
  | .ok a rb => .ok a { s with rb := rb }
  | .error e rb => .error e { s with rb := rb }

def init [NeZero cap] (uninit : Fin cap → T) : Session T cap := { rb := RingBuffer.init uninit }

/-- One call of the session. -/
def exec : FifoCall T → EStateM Stop (Session T cap) (Reply T)
  | .push v signal => do onQueue (RingBuffer.localPush (some v) signal); return .done
  | .insert items signal => do onQueue (RingBuffer.localInsert items signal); return .done
  | .allocate => do
      let i ← onQueue RingBuffer.localAllocate
      let s ← get
      set { s with ref := some i }
      return .place (s.rb.buffer.store i)
  | .assign v => do
      let s ← get
      match s.ref with
      | some i => onQueue (modify (RingBuffer.putStore i v)); return .done
      | none => throw .assertion
  | .send signal => do onQueue (RingBuffer.send signal); return .done
  | .deallocate => do onQueue RingBuffer.deallocate; return .done
  | .pop => do let e ← onQueue RingBuffer.pop; return .entry e
  | .popRange n => do let es ← onQueue (RingBuffer.localPopRange n); return .entries es
  | .peek => do
      let p ← onQueue RingBuffer.localPeek
      let s ← get
      return .entry (s.rb.buffer.store p.1, p.2)
  | .unpeek => do onQueue RingBuffer.unpeek; return .done
  | .recycle n => do onQueue (RingBuffer.localRecycle n); return .done
  | .invalidate => do onQueue RingBuffer.invalidate; return .done
  | .size => do let n ← onQueue RingBuffer.size; return .count n
  | .spaceAvail => do let n ← onQueue RingBuffer.spaceAvail; return .count n
  | .isInvalid => do let b ← onQueue RingBuffer.isInvalid; return .answer b

/-- A call that proceeds, labelled with its reply. -/
def Step (s : Session T cap) (l : FifoCall T × Reply T) (t : Session T cap) : Prop :=
  (exec l.1).run s = .ok l.2 t

/-- Between an `allocate` and its `send` or `deallocate` the producer makes no other producer call,
and it stores only through a reference that is outstanding. -/
structure Disciplined (s : Session T cap) (c : FifoCall T) : Prop where
  starts : c.startsWrite = true → s.rb.allocateCalled = false
  assigns : ∀ v, c = .assign v → s.rb.allocateCalled = true

/-- The calls of a session whose producer keeps to that discipline. -/
def DisciplinedStep : Session T cap → FifoCall T × Reply T → Session T cap → Prop :=
  RaftLib.Logic.Steps.restrict Step fun s l => Disciplined s l.1

theorem onQueue_ok {α : Type} {x : Call T cap α} {s : Session T cap} {a : α}
    {rb : RingBuffer T cap} (h : x.run s.rb = .ok a rb) :
    (onQueue x).run s = .ok a { s with rb := rb } := by
  show onQueue x s = _
  rw [onQueue, h]

theorem onQueue_error {α : Type} {x : Call T cap α} {s : Session T cap} {e : Stop}
    {rb : RingBuffer T cap} (h : x.run s.rb = .error e rb) :
    (onQueue x).run s = .error e { s with rb := rb } := by
  show onQueue x s = _
  rw [onQueue, h]

theorem assign_run {s : Session T cap} {i : Fin cap} (v : T) (href : s.ref = some i) :
    (exec (.assign v)).run s = .ok .done { s with rb := RingBuffer.putStore i v s.rb } := by
  obtain ⟨rb, ref⟩ := s
  obtain rfl : ref = some i := href
  rfl

end Session

end RaftLib.Queue
