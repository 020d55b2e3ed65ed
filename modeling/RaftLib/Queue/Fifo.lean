/-
# `RaftLib.Queue.Fifo` -- what a queue is for: a bounded list of values with their signals

The abstract queue. It has no indices, no wrap counters and no flags: it is the list of the pairs
that were published and not yet taken, at most `cap` of them, with a mark that says it was closed
and the element that an outstanding `allocate` is still filling in. Both bounds are fields, so a
queue that is over-full, or that promised a place it does not have, cannot be written down.

`Fifo.Step` is the meaning of one call. A call is labelled with what it returns; a call that would
have to wait has no step. Neither has a push, an insert or a second `allocate` while a place is
outstanding, nor a store through a reference when there is none.
-/
import RaftLib.Queue.Buffer

namespace RaftLib.Queue

/-! ## Calls and what they return -/

/-- One call on a queue, with the arguments the caller chose. `assign v` is the caller's own store
through the reference that `allocate` returned. -/
inductive FifoCall (T : Type) where
  | push (v : T) (signal : RaftSignal)
  | insert (items : List T) (signal : RaftSignal)
  | allocate
  | assign (v : T)
  | send (signal : RaftSignal)
  | deallocate
  | pop
  | popRange (n : Nat)
  | peek
  | unpeek
  | recycle (n : Nat)
  | invalidate
  | size
  | spaceAvail
  | isInvalid

/-- What a call hands back. `place v` is a reference to an element whose current content is `v`. -/
inductive Reply (T : Type) where
  | done
  | place (v : T)
  | entry (e : T × RaftSignal)
  | entries (es : List (T × RaftSignal))
  | count (n : Nat)
  | answer (b : Bool)

/-- The producer calls that must not come between an `allocate` and its `send` or `deallocate`. -/
def FifoCall.startsWrite {T : Type} : FifoCall T → Bool
  | .push .. | .insert .. | .allocate => true
  | _ => false

/-! ## The abstract queue -/

/-- The abstract queue of capacity `cap`. -/
structure Fifo (T : Type) (cap : Nat) where
  items : List (T × RaftSignal)
  closed : Bool
  draft : Option T
  bounded : items.length ≤ cap
  draftFits : draft.isSome → items.length < cap

namespace Fifo

variable {T : Type} {cap : Nat}

def empty (T : Type) (cap : Nat) : Fifo T cap :=
  ⟨[], false, none, Nat.zero_le _, fun h => by simp at h⟩

/-- The pairs that an insert publishes: the signal on the last one, none on the others. -/
def signalLast (items : List T) (signal : RaftSignal) : List (T × RaftSignal) :=
  items.dropLast.map (·, RaftSignal.none) ++ items.getLast?.toList.map (·, signal)

/-- `q` with `es` published behind its items and no outstanding place. -/
def publish (q : Fifo T cap) (es : List (T × RaftSignal))
    (h : (q.items ++ es).length ≤ cap) : Fifo T cap :=
  { q with items := q.items ++ es, draft := none, bounded := h, draftFits := fun h => by simp at h }

/-- `q` without its first `n` items. -/
def dropFirst (q : Fifo T cap) (n : Nat) : Fifo T cap :=
  { q with
    items := q.items.drop n
    bounded := (List.length_drop ▸ Nat.sub_le _ _).trans q.bounded
    draftFits := fun h => lt_of_le_of_lt (List.length_drop ▸ Nat.sub_le _ _) (q.draftFits h) }

/-- `q` with an outstanding place that holds `v`. -/
def withDraft (q : Fifo T cap) (v : T) (h : q.items.length < cap) : Fifo T cap :=
  { q with draft := some v, draftFits := fun _ => h }

def withoutDraft (q : Fifo T cap) : Fifo T cap :=
  { q with draft := none, draftFits := fun h => by simp at h }

def close (q : Fifo T cap) : Fifo T cap := { q with closed := true }

/-- The meaning of one call and its reply. -/
inductive Step : Fifo T cap → FifoCall T × Reply T → Fifo T cap → Prop
  | push {q : Fifo T cap} {v s} (hd : q.draft = none) (h : (q.items ++ [(v, s)]).length ≤ cap) :
      Step q (.push v s, .done) (q.publish [(v, s)] h)
  | insert {q : Fifo T cap} {vs s} (hd : q.draft = none)
      (h : (q.items ++ signalLast vs s).length ≤ cap) :
      Step q (.insert vs s, .done) (q.publish (signalLast vs s) h)
  | allocate {q : Fifo T cap} (v : T) (hd : q.draft = none) (h : q.items.length < cap) :
      Step q (.allocate, .place v) (q.withDraft v h)
  | assign {q : Fifo T cap} {v : T} (w : T) (h : q.draft = some w) :
      Step q (.assign v, .done) (q.withDraft v (q.draftFits (by simp [h])))
  | send {q : Fifo T cap} {v s} (hv : q.draft = some v) (h : (q.items ++ [(v, s)]).length ≤ cap) :
      Step q (.send s, .done) (q.publish [(v, s)] h)
  | sendNothing {q : Fifo T cap} {s} (hv : q.draft = none) : Step q (.send s, .done) q
  | deallocate {q : Fifo T cap} : Step q (.deallocate, .done) q.withoutDraft
  | pop {q : Fifo T cap} {e} (h : q.items.head? = some e) : Step q (.pop, .entry e) (q.dropFirst 1)
  | popRange {q : Fifo T cap} {n} (h : n ≤ q.items.length) :
      Step q (.popRange n, .entries (q.items.take n)) (q.dropFirst n)
  | peek {q : Fifo T cap} {e} (h : q.items.head? = some e) : Step q (.peek, .entry e) q
  | unpeek {q : Fifo T cap} : Step q (.unpeek, .done) q
  | recycle {q : Fifo T cap} {n} (h : n ≤ q.items.length ∨ q.closed = true) :
      Step q (.recycle n, .done) (q.dropFirst n)
  | invalidate {q : Fifo T cap} : Step q (.invalidate, .done) q.close
  | size {q : Fifo T cap} : Step q (.size, .count q.items.length) q
  | spaceAvail {q : Fifo T cap} : Step q (.spaceAvail, .count (cap - q.items.length)) q
  | isInvalid {q : Fifo T cap} : Step q (.isInvalid, .answer q.closed) q

/-! ## Small facts -/

@[simp] theorem signalLast_nil (s : RaftSignal) : signalLast ([] : List T) s = [] := rfl

/-- An insert publishes as many pairs as it was given elements. -/
@[simp] theorem signalLast_length (vs : List T) (s : RaftSignal) :
    (signalLast vs s).length = vs.length := by
  cases vs with
  | nil => rfl
  | cons v vs => simp [signalLast, List.getLast?_cons]

/-- The first pair of an insert carries the signal exactly if it is also the last. -/
theorem signalLast_cons (v : T) (vs : List T) (s : RaftSignal) :
    signalLast (v :: vs) s =
      (v, if vs.length = 0 then s else RaftSignal.none) :: signalLast vs s := by
  cases vs with
  | nil => rfl
  | cons w vs => simp [signalLast, List.getLast?_cons]

end Fifo

end RaftLib.Queue
