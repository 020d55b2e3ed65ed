/-
# `RaftLib.Queue.Reservation` -- producer calls in any order

`allocate` and `allocate_range` hand out slots, and `send` and `send_range` publish them; all that links the
two is `allocate_called` and `n_allocated`. A push in between takes the slot that was handed out, and the
send publishes the one after it, for which nobody has looked whether it is free.

An onlooker follows a queue through calls of both ends in any order (`Followed`): what was published and not
consumed yet, as it was when it was published, and the slots stored to since they were last consumed. Safe
is a queue in which no more is unread than there are slots, nothing unread is overwritten and everything
unread was stored. `Followed.Meets` is what a send and a store through a reference need for that; the other
calls need nothing. A run goes through safe states only exactly if all of its calls meet it
(`reservations_iff`).
-/
import RaftLib.Queue.Bulk

namespace RaftLib.Queue

open RaftLib.Logic.Program
open RaftLib.Logic.Ring
open RaftLib.Logic.Steps
open RingBuffer (slotsFrom mem_slotsFrom)

/-- A call of either end on a queue whose elements are stored inline. `assign` stores through the `k`-th
reference that was ever handed out. -/
inductive SlotCall (T : Type) where
  | push (v : T) (signal : RaftSignal)
  | insert (vs : List T) (signal : RaftSignal)
  | allocate
  | allocateRange (n : Nat)
  | assign (k : Nat) (v : T)
  | send (signal : RaftSignal)
  | sendRange (signal : RaftSignal)
  | deallocate
  | pop
  | popRange (n : Nat)
  | peek
  | peekRange (n : Nat)
  | unpeek
  | recycle (range : Nat)
  | invalidate
  | size
  | spaceAvail
  | isInvalid

variable {T : Type} {cap : Nat}

/-- The call, run where `refs` have been handed out; it returns what it hands out itself. -/
def SlotCall.exec (refs : List (Fin cap)) : SlotCall T → Call T cap (List (Fin cap))
  | .push v signal => do RingBuffer.localPush (some v) signal; return []
  | .insert vs signal => do RingBuffer.localInsert vs signal; return []
  | .allocate => do let i ← RingBuffer.localAllocate; return [i]
  | .allocateRange n => RingBuffer.localAllocateN n
  | .assign k v =>
      match refs[k]? with
      | some i => do modify (RingBuffer.putStore i v); return []
      | none => throw .assertion
  | .send signal => do RingBuffer.send signal; return []
  | .sendRange signal => do RingBuffer.sendRange signal; return []
  | .deallocate => do RingBuffer.deallocate; return []
  | .pop => do let _ ← RingBuffer.pop; return []
  | .popRange n => do let _ ← RingBuffer.localPopRange n; return []
  | .peek => do let _ ← RingBuffer.localPeek; return []
  | .peekRange n => do let _ ← RingBuffer.localPeekRange n; return []
  | .unpeek => do RingBuffer.unpeek; return []
  | .recycle range => do RingBuffer.localRecycle range; return []
  | .invalidate => do RingBuffer.invalidate; return []
  | .size => do let _ ← RingBuffer.size; return []
  | .spaceAvail => do let _ ← RingBuffer.spaceAvail; return []
  | .isInvalid => do let _ ← RingBuffer.isInvalid; return []

variable [NeZero cap]

/-- The slots that the call has stored an element to, between `rb` and `rb'`. A push publishes each element
right after it has stored it. -/
def SlotCall.stored (refs : List (Fin cap)) (rb rb' : RingBuffer T cap) : SlotCall T → List (Fin cap)
  | .push _ _ | .insert _ _ =>
      slotsFrom rb.buffer.writePt.pos (rb'.buffer.writePt.pos - rb.buffer.writePt.pos)
  | .assign k _ => refs[k]?.toList
  | _ => []

/-- A queue, the references handed out, and what an onlooker has written down: the entries published and not
consumed yet, as they were when they were published, and the slots stored to since they were last consumed. -/
structure Followed (T : Type) (cap : Nat) where
  rb : RingBuffer T cap
  refs : List (Fin cap) := []
  unread : List (T × RaftSignal) := []
  filled : Fin cap → Bool := fun _ => false

namespace Followed

/-- Nothing has been called yet. -/
def init (uninit : Fin cap → T) : Followed T cap := { rb := RingBuffer.init uninit }

/-- After a call that has handed out `slots`. What lies between the old and the new read position is
consumed, what lies between the old and the new write position published. -/
def after (s : Followed T cap) (c : SlotCall T) (slots : List (Fin cap)) (rb' : RingBuffer T cap) :
    Followed T cap :=
  let consumed := rb'.buffer.readPt.pos - s.rb.buffer.readPt.pos
  let published := rb'.buffer.writePt.pos - s.rb.buffer.writePt.pos
  { rb := rb'
    refs := s.refs ++ slots
    unread := s.unread.drop consumed ++ window rb'.buffer.entry s.rb.buffer.writePt.pos published
    filled := fun i => decide (i ∈ c.stored s.refs s.rb rb') ||
      s.filled i && !decide (i ∈ slotsFrom s.rb.buffer.readPt.pos consumed) }

/-- A call returned what it hands out, or stopped and hands out nothing. -/
def Ran (s : Followed T cap) (c : SlotCall T) (slots : List (Fin cap)) (rb' : RingBuffer T cap) : Prop :=
  (c.exec s.refs).run s.rb = .ok slots rb' ∨
    slots = [] ∧ ∃ e, (c.exec s.refs).run s.rb = .error e rb'

/-- A call that returned, or stopped: one that has to wait is called again. -/
def Step (s : Followed T cap) (c : SlotCall T) (t : Followed T cap) : Prop :=
  ∃ slots rb', t = s.after c slots rb' ∧ Ran s c slots rb'

/-- **The write pointer has not passed the read pointer**: the queue holds what was published and not
consumed, of which there is no more than the capacity, and all of it was stored. -/
structure Safe (s : Followed T cap) : Prop where
  contents : Holds s.rb s.unread
  written : ∀ i < s.unread.length, s.filled (slot cap (s.rb.buffer.readPt.pos + i)) = true

/-- What a call needs of the state before it. A `send` needs a free slot at the write pointer that has been
stored to, `send_range` as many as `n_allocated` says, and a store a slot that is not unread. With nothing
allocated `send_range` still writes its signal, to the oldest entry if the queue is full. -/
def Meets (s : Followed T cap) : SlotCall T → Prop
  | .send _ => s.rb.allocateCalled = true →
      s.rb.buffer.writePt.pos < s.rb.buffer.readPt.pos + cap ∧ s.filled s.rb.buffer.writePt.a = true
  | .sendRange signal => s.rb.allocateCalled = true →
      s.rb.buffer.writePt.pos + s.rb.nAllocated.toNat ≤ s.rb.buffer.readPt.pos + cap ∧
        (∀ i ∈ slotsFrom s.rb.buffer.writePt.pos s.rb.nAllocated.toNat, s.filled i = true) ∧
        (s.rb.buffer.writePt.pos = s.rb.buffer.readPt.pos + cap →
          (s.rb.buffer.signal s.rb.buffer.writePt.a).sig = signal)
  | .assign k v => ∀ i, s.refs[k]? = some i →
      i ∈ slotsFrom s.rb.buffer.readPt.pos (s.rb.buffer.writePt.pos - s.rb.buffer.readPt.pos) →
        s.rb.buffer.store i = v
  | _ => True

/-- A run through safe states only. -/
def SafeRun (s : Followed T cap) (cs : List (SlotCall T)) (t : Followed T cap) : Prop :=
  s.Safe ∧ Run (fun s c t => Step s c t ∧ t.Safe) s cs t

end Followed

/-! ## Calls that publish nothing -/

section Calls

variable {rb : RingBuffer T cap} {es : List (T × RaftSignal)}

/-- Some of the entries `es` that `rb` held are consumed, and nothing is published. -/
def Reads (rb : RingBuffer T cap) (es : List (T × RaftSignal)) (rb' : RingBuffer T cap) : Prop :=
  (∃ j ≤ es.length, Holds rb' (es.drop j)) ∧ rb'.buffer.writePt = rb.buffer.writePt ∧
    rb'.nAllocated.toNat ≤ cap

/-- Some entries are published behind `es`, and nothing is consumed. -/
def Writes (rb : RingBuffer T cap) (es : List (T × RaftSignal)) (rb' : RingBuffer T cap) : Prop :=
  (∃ new, Holds rb' (es ++ new)) ∧ rb'.buffer.readPt = rb.buffer.readPt ∧ rb'.nAllocated.toNat ≤ cap

/-- Neither looks at the statistics, the flags or what is allocated. -/
theorem Reads.same {s s' : RingBuffer T cap} (h : Reads rb es s) (hrun : s'.resizing = s.resizing)
    (hread : s'.buffer.readPt = s.buffer.readPt) (hwrite : s'.buffer.writePt = s.buffer.writePt)
    (hentry : s'.buffer.entry = s.buffer.entry) (hcount : s'.nAllocated = s.nAllocated) :
    Reads rb es s' := by
  obtain ⟨⟨j, hj, hholds⟩, hw, hc⟩ := h
  refine ⟨⟨j, hj, hholds.congr hrun hread hwrite fun _ _ => by rw [hentry]⟩, ?_, ?_⟩
  · rw [hwrite, hw]
  · rwa [hcount]

theorem Writes.same {s s' : RingBuffer T cap} (h : Writes rb es s) (hrun : s'.resizing = s.resizing)
    (hread : s'.buffer.readPt = s.buffer.readPt) (hwrite : s'.buffer.writePt = s.buffer.writePt)
    (hentry : s'.buffer.entry = s.buffer.entry) (hcount : s'.nAllocated = s.nAllocated) :
    Writes rb es s' := by
  obtain ⟨⟨new, hholds⟩, hr, hc⟩ := h
  refine ⟨⟨new, hholds.congr hrun hread hwrite fun _ _ => by rw [hentry]⟩, ?_, ?_⟩
  · rw [hread, hr]
  · rwa [hcount]

theorem Reads.setHelper (k : AccessKey) (v : Bool) (s : RingBuffer T cap) (h : Reads rb es s) :
    Reads rb es (RingBuffer.setHelper k v s) := by
  cases k <;> exact h.same rfl rfl rfl rfl rfl

/-- One entry more is consumed. -/
theorem Reads.next {s : RingBuffer T cap} {e : T × RaftSignal} {rest : List (T × RaftSignal)} {j : Nat}
    (hrest : es.drop j = e :: rest) (hholds : Holds s rest)
    (hwrite : s.buffer.writePt = rb.buffer.writePt) (hcount : s.nAllocated.toNat ≤ cap) :
    Reads rb es s := by
  have hlength := congrArg List.length hrest
  rw [List.length_drop, List.length_cons] at hlength
  refine ⟨⟨j + 1, by omega, ?_⟩, hwrite, hcount⟩
  rwa [← List.drop_drop, hrest]

theorem Writes.setHelper (k : AccessKey) (v : Bool) (s : RingBuffer T cap) (h : Writes rb es s) :
    Writes rb es (RingBuffer.setHelper k v s) := by
  cases k <;> exact h.same rfl rfl rfl rfl rfl

namespace RingBuffer

/-- **A pop** takes the oldest entry, or finds none. -/
theorem pop_reads : Preserves (Reads rb es) (pop : Call T cap _) := by
  rintro s ⟨⟨j, hj, hholds⟩, hwrite, hcount⟩
  cases hrest : es.drop j with
  | nil =>
      -- the pass throws or goes round again, and leaves its flag up either way
      have hflag : Reads rb es (setHelper .pop true s) :=
        Reads.setHelper .pop true s ⟨⟨j, hj, hholds⟩, hwrite, hcount⟩
      have hrun : (setHelper .pop true s).resizing = false := hholds.running
      rw [hrest] at hholds
      cases hv : s.buffer.isValid with
      | true =>
          have hv' : (setHelper .pop true s).buffer.isValid = true := hv
          simp only [pop, localPop, run_bind_of_ok (enterBuffer_run .pop s),
            run_bind_of_ok (notResizing_run _), hrun, Bool.not_false, if_true,
            run_bind_of_ok (lookForData_run (hholds.setHelper .pop true)), found, hv']
          exact hflag
      | false =>
          have hv' : (setHelper .pop true s).buffer.isValid = false := hv
          simp only [pop, localPop, run_bind_of_ok (enterBuffer_run .pop s),
            run_bind_of_ok (notResizing_run _), hrun, Bool.not_false, if_true,
            run_bind_of_ok (lookForData_run (hholds.setHelper .pop true)), found, hv']
          exact hflag
  | cons e rest =>
      rw [hrest] at hholds
      rw [pop_run hholds]
      exact .next hrest (holds_popped hholds) hwrite hcount

theorem localPopRange_reads (n : Nat) : Preserves (Reads rb es) (localPopRange n : Call T cap _) := by
  induction n with
  | zero => exact preserves_pure _
  | succ n ih => exact pop_reads.bind fun _ => ih.bind fun _ => preserves_pure _

/-- **`recycle`** takes the oldest entries one by one. -/
theorem localRecycle_reads (range : Nat) :
    Preserves (Reads rb es) (localRecycle range : Call T cap _) := by
  induction range with
  | zero => exact preserves_pure _
  | succ range ih =>
      rintro s ⟨⟨j, hj, hholds⟩, hwrite, hcount⟩
      cases hrest : es.drop j with
      | nil =>
          have hflag : Reads rb es (setHelper .recycle false (setHelper .recycle true s)) :=
            Reads.setHelper _ _ _ (Reads.setHelper _ _ s ⟨⟨j, hj, hholds⟩, hwrite, hcount⟩)
          have hrun : (setHelper .recycle true s).resizing = false := hholds.running
          rw [hrest] at hholds
          cases hv : s.buffer.isValid with
          | true =>
              have hv' : (setHelper .recycle true s).buffer.isValid = true := hv
              simp only [localRecycle, run_bind_of_ok (enterBuffer_run .recycle s),
                run_bind_of_ok (notResizing_run _), hrun, Bool.not_false, if_true,
                run_bind_of_ok (lookForData_run (hholds.setHelper .recycle true)), found, hv']
              exact hflag
          | false =>
              have hv' : (setHelper .recycle true s).buffer.isValid = false := hv
              simp only [localRecycle, run_bind_of_ok (enterBuffer_run .recycle s),
                run_bind_of_ok (notResizing_run _), hrun, Bool.not_false, if_true,
                run_bind_of_ok (lookForData_run (hholds.setHelper .recycle true)), found, hv']
              exact hflag
      | cons e rest =>
          rw [hrest] at hholds
          rw [localRecycle_succ hholds]
          exact ih _ (.next hrest (holds_recycledOne hholds) hwrite hcount)

/-! ## Calls of the producer -/

theorem localAllocate_reads : Preserves (Reads rb es) (localAllocate : Call T cap _) := by
  refine (waitForSpace_preserves Reads.setHelper (fun _ h => ?_) .allocate 1).bind fun _ => ?_
  · exact h.same rfl rfl rfl rfl rfl
  · intro s h
    exact h.same rfl rfl rfl rfl rfl

/-- **`allocate_range`** clears the signals of free slots only. -/
theorem localAllocateN_reads (hcount : rb.nAllocated.toNat ≤ cap) (n : Nat) :
    Triple (fun s => s = rb ∧ Holds rb es) (localAllocateN n) (fun _ => Reads rb es)
      fun _ => Reads rb es := by
  rintro s ⟨rfl, h⟩
  by_cases hroom : es.length + n ≤ cap
  · obtain ⟨s', hrun, hres, hread, hwrite, -, -, hn, hstore, -, hkeep⟩ :=
      localAllocateN_run h hroom
    rw [hrun]
    refine ⟨⟨0, Nat.zero_le _, h.congr (hres.trans h.running.symm) hread hwrite fun i hi => ?_⟩, hwrite, ?_⟩
    · -- the slots handed out lie between the write position and the end of the free part
      have hfree : (slot cap (s.buffer.readPt.pos + i) : Fin cap) ∉ slotsFrom s.buffer.writePt.pos n := by
        have := h.pos
        exact slot_notMem (by omega) (by omega)
      simp only [Data.entry, hstore, hkeep _ hfree]
    · rw [hn, UInt32.toNat_ofNat']
      exact (Nat.mod_le _ _).trans (by omega)
  · -- too little room: the pass may ask for a larger buffer, and goes round again
    have hflag : Reads s es (setHelper .allocateRange true s) :=
      Reads.setHelper _ _ s ⟨⟨0, Nat.zero_le _, h⟩, rfl, hcount⟩
    have hspace := hasSpace_run (h.setHelper .allocateRange true) n
    rw [decide_eq_false (show ¬n ≤ cap - es.length by have := h.bounded; omega)] at hspace
    rw [localAllocateN, run_bind_of_ok (enterBuffer_run .allocateRange s), run_bind_of_ok hspace]
    have hrest : Preserves (Reads s es) (do
        exitBuffer .allocateRange
        modify fun rb => { rb with buffer := { rb.buffer with writeStats := rb.buffer.writeStats.noted } }
        throw .wait : Call T cap (List (Fin cap))) := by
      refine (exitBuffer_preserves Reads.setHelper _).bind fun _ => (preserves_modify ?_).bind fun _ =>
        preserves_throw _
      intro _ h
      exact h.same rfl rfl rfl rfl rfl
    have hwait : Preserves (Reads s es) (do
        if cap < n then
          modify fun rb => { rb with buffer := { rb.buffer with forceResize := n } }
        else
          pure ()
        exitBuffer .allocateRange
        modify fun rb => { rb with buffer := { rb.buffer with writeStats := rb.buffer.writeStats.noted } }
        throw .wait : Call T cap (List (Fin cap))) := by
      apply Preserves.ite
      · refine (preserves_modify ?_).bind fun _ => hrest
        intro _ h
        exact h.same rfl rfl rfl rfl rfl
      · exact hrest
    exact hwait _ hflag

theorem localPush_writes (v : T) (signal : RaftSignal) :
    Preserves (Writes rb es) (localPush (some v) signal : Call T cap _) := by
  rintro s ⟨⟨new, hholds⟩, hread, hcount⟩
  by_cases hroom : (es ++ new).length < cap
  · rw [localPush_run hholds hroom]
    refine ⟨⟨new ++ [(v, signal)], ?_⟩, hread, hcount⟩
    rw [← List.append_assoc]
    exact holds_pushed hholds hroom v signal
  · obtain ⟨s', hwait⟩ := waitForSpace_full hholds .push (n := 1) (by omega)
    rw [localPush, run_bind_of_error hwait]
    refine (waitForSpace_preserves Writes.setHelper (fun _ h => ?_) .push 1).error
      ⟨⟨new, hholds⟩, hread, hcount⟩ hwait
    exact h.same rfl rfl rfl rfl rfl

theorem localInsert_writes (signal : RaftSignal) (vs : List T) :
    Preserves (Writes rb es) (localInsert vs signal : Call T cap _) := by
  induction vs with
  | nil => exact preserves_pure _
  | cons v vs ih => exact (localPush_writes v _).bind fun _ => ih

end RingBuffer

/-- The calls that store nothing and move the write pointer nowhere. -/
def SlotCall.reads : SlotCall T → Bool
  | .push _ _ | .insert _ _ | .assign _ _ | .send _ | .sendRange _ => false
  | _ => true

theorem exec_reads {refs : List (Fin cap)} {c : SlotCall T} (hc : c.reads = true) (h : Holds rb es)
    (hcount : rb.nAllocated.toNat ≤ cap) :
    Triple (fun s => s = rb ∧ Holds rb es) (c.exec refs) (fun _ => Reads rb es) fun _ => Reads rb es := by
  have hself : Reads rb es rb := ⟨⟨0, Nat.zero_le _, h⟩, rfl, hcount⟩
  suffices hkeep : (∃ n, c = .allocateRange n) ∨ Preserves (Reads rb es) (c.exec refs) by
    rcases hkeep with ⟨n, rfl⟩ | hkeep
    · exact RingBuffer.localAllocateN_reads hcount n
    · rintro s ⟨rfl, -⟩
      exact hkeep s hself
  cases c with
  | allocateRange n => exact .inl ⟨n, rfl⟩
  | allocate => exact .inr (RingBuffer.localAllocate_reads.bind fun _ => preserves_pure _)
  | deallocate =>
      refine .inr (((preserves_modify fun _ h => ?_).bind fun _ =>
        RingBuffer.exitBuffer_preserves Reads.setHelper _).bind fun _ => preserves_pure _)
      exact h.same rfl rfl rfl rfl rfl
  | pop => exact .inr (RingBuffer.pop_reads.bind fun _ => preserves_pure _)
  | popRange n => exact .inr ((RingBuffer.localPopRange_reads n).bind fun _ => preserves_pure _)
  | peek => exact .inr ((RingBuffer.localPeek_preserves Reads.setHelper).bind fun _ => preserves_pure _)
  | peekRange n =>
      exact .inr ((RingBuffer.localPeekRange_preserves Reads.setHelper n).bind fun _ => preserves_pure _)
  | unpeek =>
      exact .inr ((RingBuffer.exitBuffer_preserves Reads.setHelper _).bind fun _ => preserves_pure _)
  | recycle range => exact .inr ((RingBuffer.localRecycle_reads range).bind fun _ => preserves_pure _)
  | invalidate =>
      refine .inr ((preserves_modify fun _ h => ?_).bind fun _ => preserves_pure _)
      exact h.same rfl rfl rfl rfl rfl
  | size => exact .inr ((RingBuffer.size_preserves Reads.setHelper).bind fun _ => preserves_pure _)
  | spaceAvail =>
      exact .inr ((RingBuffer.spaceAvail_preserves Reads.setHelper).bind fun _ => preserves_pure _)
  | isInvalid => exact .inr (RingBuffer.isInvalid_preserves.bind fun _ => preserves_pure _)
  | push v signal => exact nomatch hc
  | insert vs signal => exact nomatch hc
  | assign k v => exact nomatch hc
  | send signal => exact nomatch hc
  | sendRange signal => exact nomatch hc

end Calls

/-! ## What the onlooker sees -/

namespace Followed

variable {s t : Followed T cap} {c : SlotCall T} {slots : List (Fin cap)} {rb' : RingBuffer T cap}

theorem filled_after {i : Fin cap} : (s.after c slots rb').filled i = true ↔
    i ∈ c.stored s.refs s.rb rb' ∨ s.filled i = true ∧
      i ∉ slotsFrom s.rb.buffer.readPt.pos (rb'.buffer.readPt.pos - s.rb.buffer.readPt.pos) := by
  simp [after]

/-- Behind a call that has consumed only, the queue is safe again. -/
theorem Safe.after_reads (h : s.Safe) (hreads : Reads s.rb s.unread rb') : (s.after c slots rb').Safe := by
  obtain ⟨⟨j, hj, hholds⟩, hwrite, -⟩ := hreads
  have hbounded := h.contents.bounded
  have hpos := h.contents.pos
  have hread : rb'.buffer.readPt.pos = s.rb.buffer.readPt.pos + j := by
    have := hholds.pos
    rw [hwrite, List.length_drop] at this
    omega
  have hunread : (s.after c slots rb').unread = s.unread.drop j := by
    simp [after, hread, hwrite]
  refine ⟨by rw [hunread]; exact hholds, fun i hi => ?_⟩
  rw [hunread, List.length_drop] at hi
  have hfilled := h.written (j + i) (by omega)
  -- what is still unread lies less than a turn behind what is consumed
  have hpast : (slot cap (s.rb.buffer.readPt.pos + (j + i)) : Fin cap) ∉
      slotsFrom s.rb.buffer.readPt.pos j := by
    rw [mem_slotsFrom]
    rintro ⟨k, hk, heq⟩
    exact slot_ne_of_lt (by omega) (by omega) heq
  have hslot : (s.after c slots rb').rb.buffer.readPt.pos + i = s.rb.buffer.readPt.pos + (j + i) := by
    show rb'.buffer.readPt.pos + i = _
    omega
  rw [hslot, filled_after, hread, Nat.add_sub_cancel_left]
  exact .inr ⟨hfilled, hpast⟩

/-- **What is published must have been stored.** Behind a call that has published `new`, the queue is safe
exactly if the slots of `new` were stored to. -/
theorem Safe.after_writes (h : s.Safe) {new : List (T × RaftSignal)}
    (hholds : Holds rb' (s.unread ++ new)) (hread : rb'.buffer.readPt = s.rb.buffer.readPt) :
    (s.after c slots rb').Safe ↔ ∀ i ∈ slotsFrom s.rb.buffer.writePt.pos new.length,
      i ∈ c.stored s.refs s.rb rb' ∨ s.filled i = true := by
  have hpos := h.contents.pos
  have hwrite : rb'.buffer.writePt.pos = s.rb.buffer.writePt.pos + new.length := by
    have := hholds.pos
    rw [hread, List.length_append] at this
    omega
  have hnew : window rb'.buffer.entry s.rb.buffer.writePt.pos new.length = new := by
    have := hholds.items
    rw [hread, List.length_append, window_append, ← hpos] at this
    exact (List.append_inj this (by simp)).2
  have hunread : (s.after c slots rb').unread = s.unread ++ new := by
    simp [after, hread, hwrite, hnew]
  have hfilled : ∀ i, (s.after c slots rb').filled i = true ↔
      i ∈ c.stored s.refs s.rb rb' ∨ s.filled i = true := by
    intro i
    rw [filled_after, hread, Nat.sub_self]
    simp [slotsFrom]
  constructor
  · intro hsafe i hi
    obtain ⟨k, hk, rfl⟩ := mem_slotsFrom.mp hi
    have := hsafe.written (s.unread.length + k) (by rw [hunread, List.length_append]; omega)
    rw [hfilled] at this
    have hslot : (s.after c slots rb').rb.buffer.readPt.pos + (s.unread.length + k) =
        s.rb.buffer.writePt.pos + k := by
      show rb'.buffer.readPt.pos + _ = _
      rw [hread, hpos, Nat.add_assoc]
    rwa [hslot] at this
  · intro hstored
    refine ⟨by rw [hunread]; exact hholds, fun i hi => ?_⟩
    rw [hunread, List.length_append] at hi
    have hslot : (s.after c slots rb').rb.buffer.readPt.pos = s.rb.buffer.readPt.pos :=
      congrArg Pointer.pos hread
    rw [hslot, hfilled]
    by_cases hold : i < s.unread.length
    · exact .inr (h.written i hold)
    · refine hstored _ (mem_slotsFrom.mpr ⟨i - s.unread.length, by omega, ?_⟩)
      congr 1
      omega

/-- A push, or an insert, stores what it publishes. -/
theorem Safe.after_stored (h : s.Safe) (hwrites : Writes s.rb s.unread rb')
    (hstored : c.stored s.refs s.rb rb' =
      slotsFrom s.rb.buffer.writePt.pos (rb'.buffer.writePt.pos - s.rb.buffer.writePt.pos)) :
    (s.after c slots rb').Safe := by
  obtain ⟨⟨new, hholds⟩, hread, -⟩ := hwrites
  have hpos := h.contents.pos
  have hpos' := hholds.pos
  rw [hread, List.length_append] at hpos'
  refine (h.after_writes hholds hread).mpr fun i hi => .inl ?_
  rwa [hstored, hpos', show s.rb.buffer.readPt.pos + (s.unread.length + new.length) -
    s.rb.buffer.writePt.pos = new.length by omega]

/-- Behind a call that has moved the write pointer by `n`, a safe queue had room for `n`. -/
theorem Safe.room (h : s.Safe) (hsafe : (s.after c slots rb').Safe) {n : Nat}
    (hread : rb'.buffer.readPt = s.rb.buffer.readPt)
    (hwrite : rb'.buffer.writePt.pos = s.rb.buffer.writePt.pos + n) : s.unread.length + n ≤ cap := by
  have hpos := hsafe.contents.pos
  have hbounded := hsafe.contents.bounded
  have hbefore := h.contents.pos
  have hafter : (s.after c slots rb').unread.length = s.unread.length + n := by
    simp [after, hread, hwrite]
  omega

/-- A store outside the unread entries changes none of them; one to an entry must repeat it. -/
theorem holds_putStore_iff {rb : RingBuffer T cap} {es : List (T × RaftSignal)} (h : Holds rb es)
    {i : Fin cap} {v : T} : Holds (RingBuffer.putStore i v rb) es ↔
      (i ∈ slotsFrom rb.buffer.readPt.pos es.length → rb.buffer.store i = v) := by
  constructor
  · intro hput hi
    obtain ⟨k, hk, rfl⟩ := mem_slotsFrom.mp hi
    have hentries := window_eq_iff.mp (h.items.trans hput.items.symm) k hk
    rw [RingBuffer.entry_putStore] at hentries
    exact (congrArg Prod.fst hentries).trans (by rw [show (RingBuffer.putStore _ v rb).buffer.readPt =
      rb.buffer.readPt from rfl, Function.update_self])
  · intro hsame
    refine h.congr rfl rfl rfl fun k hk => ?_
    rw [RingBuffer.entry_putStore]
    by_cases hki : (slot cap (rb.buffer.readPt.pos + k) : Fin cap) = i
    · rw [hki, Function.update_self, ← hsame (mem_slotsFrom.mpr ⟨k, hk, hki⟩)]
      rfl
    · rw [Function.update_of_ne hki]

theorem after_assign {k : Nat} {v : T} {i : Fin cap} (h : s.Safe) :
    (s.after (.assign k v) [] (RingBuffer.putStore i v s.rb)).Safe ↔
      (i ∈ slotsFrom s.rb.buffer.readPt.pos s.unread.length → s.rb.buffer.store i = v) := by
  have hunread : (s.after (.assign k v) [] (RingBuffer.putStore i v s.rb)).unread = s.unread := by
    simp [after, RingBuffer.putStore]
  constructor
  · intro hsafe
    have hholds := hsafe.contents
    rw [hunread] at hholds
    exact (holds_putStore_iff h.contents).mp hholds
  · intro hsame
    have hholds := (holds_putStore_iff h.contents).mpr hsame
    rw [← List.append_nil s.unread] at hholds
    exact (h.after_writes hholds rfl).mpr fun i hi => by simp [slotsFrom] at hi

theorem after_send (h : s.Safe) (signal : RaftSignal) :
    (s.after (.send signal) [] (RingBuffer.sent signal s.rb)).Safe ↔
      s.rb.buffer.writePt.pos < s.rb.buffer.readPt.pos + cap ∧ s.filled s.rb.buffer.writePt.a = true := by
  have hpos := h.contents.pos
  by_cases hroom : s.unread.length < cap
  · rw [h.after_writes (RingBuffer.holds_sent h.contents hroom signal) rfl]
    have hslots : slotsFrom s.rb.buffer.writePt.pos 1 = [s.rb.buffer.writePt.a] := by
      rw [RingBuffer.slotsFrom_succ, Pointer.slot_pos]
      rfl
    rw [List.length_singleton, hslots]
    simp only [List.mem_singleton, forall_eq, SlotCall.stored, List.not_mem_nil, false_or]
    exact ⟨fun hfilled => ⟨by omega, hfilled⟩, fun hmeets => hmeets.2⟩
  · -- in a full queue the write pointer passes the read pointer
    refine ⟨fun hsafe => ?_, fun hmeets => absurd hmeets.1 (by omega)⟩
    have := h.room hsafe rfl (Pointer.pos_inc _)
    omega

/-- The signal of `send_range` is written even where it publishes nothing: with the queue full, that is the
signal of the oldest entry. -/
theorem after_sendRange (h : s.Safe) {signal : RaftSignal} {n : Nat} (hn : n ≤ cap)
    (hrun : rb'.resizing = s.rb.resizing) (hread : rb'.buffer.readPt = s.rb.buffer.readPt)
    (hwrite : rb'.buffer.writePt = s.rb.buffer.writePt.incBy n)
    (hentry : rb'.buffer.entry =
      (RingBuffer.putSignal s.rb.buffer.writePt.a signal s.rb).buffer.entry) :
    (s.after (.sendRange signal) [] rb').Safe ↔
      s.rb.buffer.writePt.pos + n ≤ s.rb.buffer.readPt.pos + cap ∧
        (∀ i ∈ slotsFrom s.rb.buffer.writePt.pos n, s.filled i = true) ∧
        (s.rb.buffer.writePt.pos = s.rb.buffer.readPt.pos + cap →
          (s.rb.buffer.signal s.rb.buffer.writePt.a).sig = signal) := by
  have hpos := h.contents.pos
  have hmoved : rb'.buffer.writePt.pos = s.rb.buffer.writePt.pos + n := by
    rw [hwrite, Pointer.pos_incBy _ hn]
  rw [RingBuffer.entry_putSignal] at hentry
  constructor
  · intro hsafe
    have hroom := h.room hsafe hread hmoved
    have hunread : (s.after (.sendRange signal) [] rb').unread =
        s.unread ++ window rb'.buffer.entry s.rb.buffer.writePt.pos n := by
      simp [after, hread, hmoved]
    have hholds : Holds rb' (s.unread ++ window rb'.buffer.entry s.rb.buffer.writePt.pos n) := by
      rw [← hunread]
      exact hsafe.contents
    refine ⟨by omega, by simpa [SlotCall.stored] using (h.after_writes hholds hread).mp hsafe, ?_⟩
    intro hfull
    have hitems := hholds.items
    rw [hread, List.length_append, window_append] at hitems
    -- in a full queue the write index is that of the oldest entry
    have hold := (List.append_inj hitems (window_length ..)).1
    have hhead := window_eq_iff.mp (hold.trans h.contents.items.symm) 0 (by have := Nat.pos_of_neZero cap; omega)
    have hindex : (slot cap (s.rb.buffer.readPt.pos + 0) : Fin cap) = s.rb.buffer.writePt.a := by
      rw [← Pointer.slot_pos, hfull, slot_eq_iff, Nat.add_zero, Nat.add_mod_right]
    rw [hindex, hentry, Function.update_self] at hhead
    exact (congrArg Prod.snd hhead).symm
  · rintro ⟨hroom, hfilled, hsame⟩
    have hkeep : ∀ i < s.unread.length, rb'.buffer.entry (slot cap (s.rb.buffer.readPt.pos + i)) =
        s.rb.buffer.entry (slot cap (s.rb.buffer.readPt.pos + i)) := by
      intro i hi
      rw [hentry]
      by_cases hindex : (slot cap (s.rb.buffer.readPt.pos + i) : Fin cap) = s.rb.buffer.writePt.a
      · -- an unread entry lies at the write index only in a full queue
        have hfull : s.rb.buffer.writePt.pos = s.rb.buffer.readPt.pos + cap := by
          by_contra hne
          rw [← Pointer.slot_pos] at hindex
          exact slot_ne_of_lt (by omega) (by omega) hindex
        rw [hindex, Function.update_self, ← hsame hfull]
        rfl
      · rw [Function.update_of_ne hindex]
    have hholds := h.contents.publishRange (by omega) (hrun.trans h.contents.running) hread hwrite hkeep
    exact (h.after_writes hholds hread).mpr (by simpa [SlotCall.stored] using hfilled)

omit [NeZero cap] in
theorem exec_send {refs : List (Fin cap)} {rb rb' : RingBuffer T cap} {signal : RaftSignal}
    (h : (RingBuffer.send signal).run rb = .ok ⟨⟩ rb') :
    ((SlotCall.send signal).exec refs).run rb = .ok [] rb' := run_bind_of_ok h

omit [NeZero cap] in
theorem exec_sendRange {refs : List (Fin cap)} {rb rb' : RingBuffer T cap} {signal : RaftSignal}
    (h : (RingBuffer.sendRange signal).run rb = .ok ⟨⟩ rb') :
    ((SlotCall.sendRange signal).exec refs).run rb = .ok [] rb' := run_bind_of_ok h

/-- A call that has been evaluated has gone that way. -/
theorem ran_ok {α ε σ : Type} {x : EStateM ε σ (List α)} {s₁ s₂ t : σ} {as bs : List α}
    (h : x.run s₁ = .ok as s₂) (hrun : x.run s₁ = .ok bs t ∨ bs = [] ∧ ∃ e, x.run s₁ = .error e t) :
    bs = as ∧ t = s₂ := by
  rcases hrun with hrun | ⟨-, e, hrun⟩
  · obtain ⟨rfl, rfl⟩ := EStateM.Result.ok.inj (h.symm.trans hrun)
    exact ⟨rfl, rfl⟩
  · cases h.symm.trans hrun

theorem ran_error {α ε σ : Type} {x : EStateM ε σ (List α)} {s₁ s₂ t : σ} {e : ε} {bs : List α}
    (h : x.run s₁ = .error e s₂) (hrun : x.run s₁ = .ok bs t ∨ bs = [] ∧ ∃ e, x.run s₁ = .error e t) :
    bs = [] ∧ t = s₂ := by
  rcases hrun with hrun | ⟨hnone, e', hrun⟩
  · cases h.symm.trans hrun
  · obtain ⟨rfl, rfl⟩ := EStateM.Result.error.inj (h.symm.trans hrun)
    exact ⟨hnone, rfl⟩

theorem Safe.self_reads (h : s.Safe) (hcount : s.rb.nAllocated.toNat ≤ cap) :
    Reads s.rb s.unread s.rb := ⟨⟨0, Nat.zero_le _, h.contents⟩, rfl, hcount⟩

theorem Safe.step_reads (h : s.Safe) (hcount : s.rb.nAllocated.toNat ≤ cap) (hrun : Ran s c slots rb')
    (hc : c.reads = true) :
    ((s.after c slots rb').Safe ↔ s.Meets c) ∧ rb'.nAllocated.toNat ≤ cap := by
  have hreads : Reads s.rb s.unread rb' := by
    rcases hrun with hrun | ⟨-, e, hrun⟩
    · exact (exec_reads hc h.contents hcount).ok ⟨rfl, h.contents⟩ hrun
    · exact (exec_reads hc h.contents hcount).error ⟨rfl, h.contents⟩ hrun
  refine ⟨iff_of_true (h.after_reads hreads) ?_, hreads.2.2⟩
  cases c with
  | send signal => exact nomatch hc
  | sendRange signal => exact nomatch hc
  | assign k v => exact nomatch hc
  | _ => exact True.intro

theorem Safe.ran_writes (h : s.Safe) (hcount : s.rb.nAllocated.toNat ≤ cap) (hrun : Ran s c slots rb')
    (hkeep : Preserves (Writes s.rb s.unread) (c.exec s.refs)) : Writes s.rb s.unread rb' := by
  have hself : Writes s.rb s.unread s.rb :=
    ⟨⟨[], by rw [List.append_nil]; exact h.contents⟩, rfl, hcount⟩
  rcases hrun with hrun | ⟨-, e, hrun⟩
  · exact hkeep.ok hself hrun
  · exact hkeep.error hself hrun

theorem Safe.step_assign (h : s.Safe) (hcount : s.rb.nAllocated.toNat ≤ cap) {k : Nat} {v : T}
    (hrun : Ran s (.assign k v) slots rb') :
    ((s.after (.assign k v) slots rb').Safe ↔ s.Meets (.assign k v)) ∧ rb'.nAllocated.toNat ≤ cap := by
  cases href : s.refs[k]? with
  | none =>
      have hexec : ((SlotCall.assign k v).exec s.refs).run s.rb = .error .assertion s.rb := by
        simp only [SlotCall.exec, href]
        rfl
      -- there is no such reference, and nothing is stored
      obtain ⟨rfl, rfl⟩ := ran_error hexec hrun
      refine ⟨iff_of_true (h.after_reads (h.self_reads hcount)) fun i hi => ?_, hcount⟩
      rw [href] at hi
      cases hi
  | some i =>
      have hexec : ((SlotCall.assign k v).exec s.refs).run s.rb =
          .ok [] (RingBuffer.putStore i v s.rb) := by
        simp only [SlotCall.exec, href]
        rfl
      obtain ⟨rfl, rfl⟩ := ran_ok hexec hrun
      refine ⟨(after_assign h).trans ?_, hcount⟩
      have hlength := h.contents.pos
      rw [Meets, hlength, Nat.add_sub_cancel_left]
      simp only [href, Option.some_inj, forall_eq']

theorem Safe.step_send (h : s.Safe) (hcount : s.rb.nAllocated.toNat ≤ cap) {signal : RaftSignal}
    (hrun : Ran s (.send signal) slots rb') :
    ((s.after (.send signal) slots rb').Safe ↔ s.Meets (.send signal)) ∧ rb'.nAllocated.toNat ≤ cap := by
  cases ha : s.rb.allocateCalled with
  | false =>
      obtain ⟨rfl, rfl⟩ := ran_ok (exec_send (RingBuffer.send_run_nothing ha signal)) hrun
      refine ⟨iff_of_true (h.after_reads (h.self_reads hcount)) fun hset => ?_, hcount⟩
      cases ha.symm.trans hset
  | true =>
      obtain ⟨rfl, rfl⟩ := ran_ok (exec_send (RingBuffer.send_run ha signal)) hrun
      exact ⟨(after_send h signal).trans ⟨fun hmeets _ => hmeets, fun hmeets => hmeets ha⟩, hcount⟩

theorem Safe.step_sendRange (h : s.Safe) (hcount : s.rb.nAllocated.toNat ≤ cap) {signal : RaftSignal}
    (hrun : Ran s (.sendRange signal) slots rb') :
    ((s.after (.sendRange signal) slots rb').Safe ↔ s.Meets (.sendRange signal)) ∧
      rb'.nAllocated.toNat ≤ cap := by
  cases ha : s.rb.allocateCalled with
  | false =>
      have hnothing : (RingBuffer.sendRange signal).run s.rb = .ok ⟨⟩ s.rb := by
        simp [RingBuffer.sendRange, ha]
      obtain ⟨rfl, rfl⟩ := ran_ok (exec_sendRange hnothing) hrun
      refine ⟨iff_of_true (h.after_reads (h.self_reads hcount)) fun hset => ?_, hcount⟩
      cases ha.symm.trans hset
  | true =>
      obtain ⟨rb₁, hsend, hres, hread, hwrite, hentry, -, -, hzero⟩ := RingBuffer.sendRange_run ha signal
      obtain ⟨rfl, rfl⟩ := ran_ok (exec_sendRange hsend) hrun
      refine ⟨(after_sendRange h hcount hres hread hwrite hentry).trans
        ⟨fun hmeets _ => hmeets, fun hmeets => hmeets ha⟩, ?_⟩
      rw [hzero]
      exact Nat.zero_le _

/-- **One call** leaves a safe queue safe exactly if it meets its condition. -/
theorem Safe.step_iff (h : s.Safe) (hcount : s.rb.nAllocated.toNat ≤ cap) (hstep : Step s c t) :
    (t.Safe ↔ s.Meets c) ∧ t.rb.nAllocated.toNat ≤ cap := by
  obtain ⟨slots, rb', rfl, hrun⟩ := hstep
  by_cases hc : c.reads = true
  · exact h.step_reads hcount hrun hc
  · cases c with
    | push v signal =>
        have hwrites := h.ran_writes hcount hrun
          ((RingBuffer.localPush_writes v signal).bind fun _ => preserves_pure _)
        exact ⟨iff_of_true (h.after_stored hwrites rfl) True.intro, hwrites.2.2⟩
    | insert vs signal =>
        have hwrites := h.ran_writes hcount hrun
          ((RingBuffer.localInsert_writes signal vs).bind fun _ => preserves_pure _)
        exact ⟨iff_of_true (h.after_stored hwrites rfl) True.intro, hwrites.2.2⟩
    | assign k v => exact h.step_assign hcount hrun
    | send signal => exact h.step_send hcount hrun
    | sendRange signal => exact h.step_sendRange hcount hrun
    | _ => exact absurd rfl hc

/-! ## Whole runs -/

theorem safe_init (uninit : Fin cap → T) : (init uninit).Safe :=
  ⟨Holds.init uninit, fun i hi => absurd hi (Nat.not_lt_zero i)⟩

theorem count_init (uninit : Fin cap → T) : (init uninit).rb.nAllocated.toNat ≤ cap :=
  Nat.pos_of_neZero cap

/-- **Reservations.** Whatever calls are made of a new queue, in whatever order, the run goes through safe
states only exactly if every call meets its condition. -/
theorem reservations_iff (uninit : Fin cap → T) (cs : List (SlotCall T)) (t : Followed T cap) :
    Run (restrict Step Meets) (init uninit) cs t ↔ SafeRun (init uninit) cs t := by
  have hinit : (init uninit).Safe ∧ (init uninit).rb.nAllocated.toNat ≤ cap :=
    ⟨safe_init uninit, count_init uninit⟩
  let R : Followed T cap → Followed T cap → Prop := fun s a =>
    a = s ∧ s.Safe ∧ s.rb.nAllocated.toNat ≤ cap
  constructor
  · intro hrun
    have hsim : ∀ s c t a, R s a → restrict Step Meets s c t → ∃ b, (Step a c b ∧ b.Safe) ∧ R t b := by
      rintro s c t a ⟨rfl, hsafe, hcount⟩ ⟨hmeets, hstep⟩
      obtain ⟨hiff, hcount'⟩ := hsafe.step_iff hcount hstep
      exact ⟨t, ⟨hstep, hiff.mpr hmeets⟩, rfl, hiff.mpr hmeets, hcount'⟩
    obtain ⟨t', hrun', rfl, -⟩ := hrun.simulation hsim ⟨rfl, hinit⟩
    exact ⟨hinit.1, hrun'⟩
  · rintro ⟨-, hrun⟩
    have hsim : ∀ s c t a, R s a → (Step s c t ∧ t.Safe) → ∃ b, restrict Step Meets a c b ∧ R t b := by
      rintro s c t a ⟨rfl, hsafe, hcount⟩ ⟨hstep, hsafe'⟩
      obtain ⟨hiff, hcount'⟩ := hsafe.step_iff hcount hstep
      exact ⟨t, ⟨hiff.mp hsafe', hstep⟩, rfl, hsafe', hcount'⟩
    obtain ⟨t', hrun', rfl, -⟩ := hrun.simulation hsim ⟨rfl, hinit⟩
    exact hrun'

end Followed

local instance oneSlot : NeZero 1 := ⟨by decide⟩

local instance pairOfSlots : NeZero 2 := ⟨by decide⟩

/-- New queues of one and of two slots. -/
def narrow : Followed Nat 1 := .init fun _ => 0

def wide : Followed Nat 2 := .init fun _ => 0

/-- An `allocate`, the store through its reference, and the `send`. -/
theorem reservations_iff_matched :
    ∃ t, Followed.SafeRun narrow [.allocate, .assign 0 7, .send RaftSignal.none] t := by
  refine ⟨_, (Followed.reservations_iff _ _ _).mp (.cons ⟨True.intro, _, _, rfl, .inl rfl⟩
    (.cons ⟨?_, _, _, rfl, .inl rfl⟩ (.cons ⟨?_, _, _, rfl, .inl rfl⟩ (.nil _))))⟩
  · intro i _ hi
    cases hi
  · intro _
    exact ⟨by decide, by decide⟩

/-- **A push between `allocate` and `send`.** In one slot the write pointer is two ahead of the read pointer,
and the signal of the send lies over that of the unread entry; in two slots one is published that nobody has
stored to. -/
theorem push_in_between :
    (∃ t, Run Followed.Step narrow [.allocate, .push 7 RaftSignal.none, .send RaftSignal.eof] t ∧
      t.rb.buffer.writePt.pos = t.rb.buffer.readPt.pos + 2 ∧ t.unread[0]? = some (7, RaftSignal.none) ∧
        t.rb.buffer.entry 0 = (7, RaftSignal.eof)) ∧
      ∃ t, Run Followed.Step wide [.allocate, .push 7 RaftSignal.none, .send RaftSignal.none] t ∧
        t.unread = [(7, RaftSignal.none), (0, RaftSignal.none)] ∧ t.filled 1 = false := by
  constructor
  · exact ⟨_, .cons ⟨_, _, rfl, .inl rfl⟩ (.cons ⟨_, _, rfl, .inl rfl⟩ (.cons ⟨_, _, rfl, .inl rfl⟩
      (.nil _))), rfl, rfl, rfl⟩
  · exact ⟨_, .cons ⟨_, _, rfl, .inl rfl⟩ (.cons ⟨_, _, rfl, .inl rfl⟩ (.cons ⟨_, _, rfl, .inl rfl⟩
      (.nil _))), rfl, rfl⟩

end RaftLib.Queue
