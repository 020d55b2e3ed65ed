/-
# `RaftLib.Queue.Statistics` -- whose statistics the calls count into

`producer_data.write_stats` and `consumer_data.read_stats` are set by `FIFOAbstract::init`
(`fifoabstract.tcc`), once, when the queue is made. A resize puts another buffer in place of the one
they point into and deletes that; the monitor's functions (`ringbufferheap_abstract.tcc`) ask the data
manager for its buffer each time.

Buffers have names here, and every named buffer its own statistics. A call runs on the queue with the
statistics it points to, and what it counts goes back there.
-/
import RaftLib.Queue.ResizeCopy

namespace RaftLib.Queue

open RaftLib.Logic.Bytes
open RaftLib.Logic.Program
open RaftLib.Logic.Steps

/-- `read_stats` and `write_stats` of one buffer. -/
structure Stats where
  read : Blocked := {}
  write : Blocked := {}
  deriving DecidableEq, Repr

/-- A queue, the name of its buffer, the names of the buffers that the cached references point into,
and the statistics of all buffers there have been. -/
structure Watched (T : Type) where
  cap : Nat
  capPos : NeZero cap
  session : Session T cap
  current : Nat := 0
  writeStats : Nat := 0
  readStats : Nat := 0
  stats : Nat → Stats := fun _ => {}

namespace Watched

variable {T : Type}

instance (w : Watched T) : NeZero w.cap := w.capPos

/-- A queue just made: `init` has set both references. -/
def init (cap : Nat) [hc : NeZero cap] (uninit : Fin cap → T) : Watched T :=
  { cap := cap, capPos := hc, session := Session.init uninit }

/-- A session with other statistics in its buffer. -/
def withStats {cap : Nat} (s : Session T cap) (stats : Stats) : Session T cap :=
  { s with rb := { s.rb with buffer :=
      { s.rb.buffer with readStats := stats.read, writeStats := stats.write } } }

/-- The statistics that a call counts into. -/
def cached (w : Watched T) : Stats :=
  { read := (w.stats w.readStats).read, write := (w.stats w.writeStats).write }

/-- After a call: what it counted goes where the references point. -/
def after (w : Watched T) (s : Session T w.cap) : Watched T :=
  let written := Function.update w.stats w.writeStats
    { w.stats w.writeStats with write := s.rb.buffer.writeStats }
  { w with
    session := s
    stats := Function.update written w.readStats
      { written w.readStats with read := s.rb.buffer.readStats } }

/-- A call, run. -/
def call (w : Watched T) (c : FifoCall T) :
    EStateM.Result Stop (Session T w.cap) (Reply T) :=
  (Session.exec c).run (withStats w.session w.cached)

/-- `get_zero_read_stats`. -/
def getZeroReadStats (w : Watched T) : Blocked × Watched T :=
  ((w.stats w.current).read,
    { w with stats := Function.update w.stats w.current { w.stats w.current with read := {} } })

/-- `get_zero_write_stats`. -/
def getZeroWriteStats (w : Watched T) : Blocked × Watched T :=
  ((w.stats w.current).write,
    { w with stats := Function.update w.stats w.current { w.stats w.current with write := {} } })

/-- `get_frac_write_blocked`, as a fraction. -/
def getFracWriteBlocked (w : Watched T) : (Nat × Nat) × Watched T :=
  let copy := (w.stats w.current).write
  (if copy.blocked = 0 ∨ copy.count = 0 then (0, 1) else (copy.blocked.toNat, copy.count.toNat),
    { w with stats := Function.update w.stats w.current { w.stats w.current with write := {} } })

/-- The queue after a resize that came to its end: another buffer, with the statistics that
`copyFrom` has put there. -/
def installed (w : Watched T) {newCap : Nat} [hn : NeZero newCap] (rb : RingBuffer T newCap) :
    Watched T where
  cap := newCap
  capPos := hn
  session := { rb := rb }
  current := w.current + 1
  writeStats := w.writeStats
  readStats := w.readStats
  stats := Function.update w.stats (w.current + 1)
    { read := rb.buffer.readStats, write := rb.buffer.writeStats }

/-- What can happen to a watched queue. `blocked` is a producer's pass that finds no room, `refused`
any other pass that goes round again and any call that throws. -/
inductive Act (T : Type) where
  | call (c : FifoCall T)
  | blocked (c : FifoCall T)
  | refused (c : FifoCall T)
  | resize (newCap : Nat) (exitAlloc : Bool)
  | zeroReadStats
  | zeroWriteStats
  | fracWriteBlocked

inductive Step (L : Layout T) : Watched T → Act T → Watched T → Prop
  | call {w : Watched T} {c : FifoCall T} {r : Reply T} {s : Session T w.cap}
      (h : w.call c = .ok r s) : Step L w (.call c) (w.after s)
  | blocked {w : Watched T} {c : FifoCall T} {s : Session T w.cap} (hc : c.startsWrite = true)
      (h : w.call c = .error .wait s) : Step L w (.blocked c) (w.after s)
  | refused {w : Watched T} {c : FifoCall T} {e : Stop} {s : Session T w.cap}
      (hc : ¬(c.startsWrite = true ∧ e = .wait)) (h : w.call c = .error e s) :
      Step L w (.refused c) (w.after s)
  | resize {w : Watched T} {newCap : Nat} [NeZero newCap] {exitAlloc : Bool} (hle : w.cap ≤ newCap)
      (uninit : Fin newCap → T) {rb : RingBuffer T newCap}
      (h : (withStats w.session (w.stats w.current)).rb.resize L hle (Data.init newCap uninit)
        exitAlloc = .done rb) : Step L w (.resize newCap exitAlloc) (w.installed rb)
  | again {w : Watched T} {newCap : Nat} [NeZero newCap] {exitAlloc : Bool} (hle : w.cap ≤ newCap)
      (uninit : Fin newCap → T) {rb : RingBuffer T w.cap}
      (h : w.session.rb.resize L hle (Data.init newCap uninit) exitAlloc = .again rb ∨
        w.session.rb.resize L hle (Data.init newCap uninit) exitAlloc = .cancelled rb) :
      Step L w (.resize newCap exitAlloc) { w with session := { w.session with rb := rb } }
  | notResizeable {w : Watched T} {newCap : Nat} [NeZero newCap] {exitAlloc : Bool}
      (hle : w.cap ≤ newCap) (uninit : Fin newCap → T)
      (h : w.session.rb.resize L hle (Data.init newCap uninit) exitAlloc = .notResizeable) :
      Step L w (.resize newCap exitAlloc) w
  | zeroReadStats {w : Watched T} : Step L w .zeroReadStats w.getZeroReadStats.2
  | zeroWriteStats {w : Watched T} : Step L w .zeroWriteStats w.getZeroWriteStats.2
  | fracWriteBlocked {w : Watched T} : Step L w .fracWriteBlocked w.getFracWriteBlocked.2

/-! ## What should hold -/

/-- How many blocked producer passes there have been since the write statistics were last zeroed,
after one more act. -/
def count (n : Nat) : Act T → Nat
  | .blocked _ => n + 1
  | .zeroWriteStats | .fracWriteBlocked => 0
  | _ => n

/-- The same after a list of acts. -/
def blockedSince (acts : List (Act T)) : Nat := acts.foldl count 0

/-- **The statistics follow the buffer.** The references point into the buffer that is installed, and
the blocked count that the monitor sees there is the number `n` of blocked passes. -/
structure Follows (w : Watched T) (n : Nat) : Prop where
  write : w.writeStats = w.current
  read : w.readStats = w.current
  blocked : (w.stats w.current).write.blocked.toNat = n

/-- **What an act needs.** A resize must not come to its end, and a pass can be blocked only where no
pass has been since the last reset. -/
def Meets (w : Watched T) : Act T → Prop
  | .blocked _ => (w.stats w.current).write.blocked = 0
  | .resize _ exitAlloc => exitAlloc = true ∨ ¬GoesThrough w.session.rb
  | _ => True

end Watched

/-! ## What a call does to the blocked mark -/

namespace RingBuffer

variable {T : Type} {cap : Nat}

/-- Nobody is resizing, and the read pointer has not overtaken the write pointer. -/
structure Ahead (rb : RingBuffer T cap) : Prop where
  running : rb.resizing = false
  ahead : rb.buffer.readPt.pos ≤ rb.buffer.writePt.pos

/-- The queue is still in order, and the producer's mark is what it was. -/
structure Unmarked (rb rb' : RingBuffer T cap) : Prop where
  ahead : Ahead rb'
  blocked : rb'.buffer.writeStats.blocked = rb.buffer.writeStats.blocked

/-- The queue is still in order, and the producer's mark is up. -/
structure Marked (rb rb' : RingBuffer T cap) : Prop where
  ahead : Ahead rb'
  blocked : rb'.buffer.writeStats.blocked = rb.buffer.writeStats.noted.blocked

variable {rb : RingBuffer T cap}

/-- Only the pointers and the resize mark matter. -/
theorem Ahead.congr {rb' : RingBuffer T cap} (h : Ahead rb) (hrun : rb'.resizing = rb.resizing)
    (hread : rb'.buffer.readPt = rb.buffer.readPt)
    (hwrite : rb'.buffer.writePt = rb.buffer.writePt) : Ahead rb' := by
  refine ⟨hrun.trans h.running, ?_⟩
  rw [hread, hwrite]
  exact h.ahead

theorem Ahead.setHelper (h : Ahead rb) (k : AccessKey) (v : Bool) :
    Ahead (RingBuffer.setHelper k v rb) := by
  cases k <;> exact ⟨h.running, h.ahead⟩

theorem Ahead.incWrite (h : Ahead rb) : Ahead (RingBuffer.incWrite rb) := by
  refine ⟨h.running, ?_⟩
  show rb.buffer.readPt.pos ≤ rb.buffer.writePt.inc.pos
  rw [Pointer.pos_inc]
  exact h.ahead.trans (Nat.le_succ _)

theorem Ahead.incRead (h : Ahead rb) (hlt : rb.buffer.readPt.pos < rb.buffer.writePt.pos) :
    Ahead (RingBuffer.incRead rb) := by
  refine ⟨h.running, ?_⟩
  show rb.buffer.readPt.inc.pos ≤ rb.buffer.writePt.pos
  rw [Pointer.pos_inc]
  exact hlt

theorem setHelper_writeStats (k : AccessKey) (v : Bool) (rb : RingBuffer T cap) :
    (setHelper k v rb).buffer.writeStats = rb.buffer.writeStats := by
  cases k <;> rfl

theorem unmarked_refl (h : Ahead rb) : Unmarked rb rb := ⟨h, rfl⟩

theorem unmarked_setHelper (h : Ahead rb) (k : AccessKey) (v : Bool) :
    Unmarked rb (setHelper k v rb) :=
  ⟨h.setHelper k v, by rw [setHelper_writeStats]⟩

theorem Unmarked.trans {r₁ r₂ r₃ : RingBuffer T cap} (h₁ : Unmarked r₁ r₂) (h₂ : Unmarked r₂ r₃) :
    Unmarked r₁ r₃ :=
  ⟨h₂.ahead, h₂.blocked.trans h₁.blocked⟩

theorem Unmarked.marked {r₁ r₂ r₃ : RingBuffer T cap} (h₁ : Unmarked r₁ r₂) (h₂ : Marked r₂ r₃) :
    Marked r₁ r₃ := by
  refine ⟨h₂.ahead, ?_⟩
  rw [h₂.blocked, Blocked.noted, Blocked.noted, h₁.blocked]
  split <;> first | rfl | exact h₁.blocked

/-- `size` comes back at once, and finds nothing where the positions are equal. -/
theorem size_ahead (h : Ahead rb) : ∃ n, (size : Call T cap Nat).run rb = .ok n rb ∧
    (0 < n → rb.buffer.readPt.pos < rb.buffer.writePt.pos) := by
  have hrun : (setHelper .size true rb).resizing = false := h.running
  have honce : (setHelper .size true rb).buffer.sizeOnce = rb.buffer.sizeOnce := rfl
  have hahead := h.ahead
  cases hs : rb.buffer.sizeOnce with
  | some n =>
      refine ⟨n, by simp [size, hrun, honce, hs, setHelper_size], ?_⟩
      intro hn
      by_contra hle
      -- equal positions have equal indices and equal counters
      have heq : rb.buffer.writePt.pos = rb.buffer.readPt.pos := by omega
      have ha : (rb.buffer.writePt.a : Nat) = rb.buffer.readPt.a := by
        rw [← Pointer.pos_mod, ← Pointer.pos_mod, heq]
      have hwrap : rb.buffer.writePt.wrapA = rb.buffer.readPt.wrapA := by
        rw [← Pointer.pos_div, ← Pointer.pos_div, heq]
      simp only [Data.sizeOnce, sizeFrom, Pointer.wrapIndicator, Pointer.val, ha, hwrap, if_true,
        lt_irrefl, if_false, Option.some_inj] at hs
      omega
  | none =>
      exfalso
      simp only [Data.sizeOnce, sizeFrom, Pointer.wrapIndicator, Pointer.val] at hs
      have hwrap : rb.buffer.readPt.wrapA ≤ rb.buffer.writePt.wrapA := by
        rw [← Pointer.pos_div, ← Pointer.pos_div]
        exact Nat.div_le_div_right hahead
      split at hs
      · split at hs
        · cases hs
        · split at hs
          · omega
          · cases hs
      · split at hs <;> cases hs

theorem spaceAvail_ahead (h : Ahead rb) :
    ∃ n, (spaceAvail : Call T cap Nat).run rb = .ok n rb := by
  obtain ⟨n, hn, _⟩ := size_ahead h
  exact ⟨cap - n, by rw [spaceAvail, run_bind_of_ok hn]; rfl⟩

theorem lookForData_ahead (h : Ahead rb) :
    ∃ f, (lookForData : Call T cap Found).run rb = .ok f rb ∧
      (f = .data → rb.buffer.readPt.pos < rb.buffer.writePt.pos) := by
  obtain ⟨n, hn, hlt⟩ := size_ahead h
  rw [lookForData, run_bind_of_ok hn]
  by_cases hpos : 0 < n
  · exact ⟨.data, by simp [hpos], fun _ => hlt hpos⟩
  · cases hv : rb.buffer.isValid with
    | true => exact ⟨.nothing, by simp [hpos, hv], fun hf => by cases hf⟩
    | false =>
        refine ⟨if n = 0 then .closedAndEmpty else .nothing, ?_, ?_⟩
        · simp [hpos, hv, hn]
        · intro hf
          split at hf <;> cases hf

/-- The producers' guard lets the call proceed, or marks the pass as blocked. -/
theorem waitForSpace_ahead (h : Ahead rb) (key : AccessKey) (n : Nat) :
    (waitForSpace key n : Call T cap PUnit).run rb = .ok ⟨⟩ (setHelper key true rb) ∨
      ∃ rb', (waitForSpace key n : Call T cap PUnit).run rb = .error .wait rb' ∧ Marked rb rb' := by
  obtain ⟨avail, havail⟩ := spaceAvail_ahead (h.setHelper key true)
  have hrun : (setHelper key true rb).resizing = false := (h.setHelper key true).running
  by_cases hn : n ≤ avail
  · refine .inl ?_
    simp [waitForSpace, hasSpace, hrun, havail, hn]
  · refine .inr ⟨_, by simp [waitForSpace, hasSpace, hrun, havail, hn]; rfl, ?_, ?_⟩
    · have hback := (h.setHelper key true).setHelper key false
      exact ⟨hback.running, hback.ahead⟩
    · show (setHelper key false (setHelper key true rb)).buffer.writeStats.noted.blocked = _
      rw [setHelper_writeStats, setHelper_writeStats]

/-- A producer's call leaves the mark alone if it goes through, and puts it up if it has to wait. -/
def Produces {α : Type} (x : Call T cap α) : Prop :=
  ∀ rb, Ahead rb → match x.run rb with
    | .ok _ rb' => Unmarked rb rb'
    | .error e rb' => e = .wait ∧ Marked rb rb'

/-- Any other call leaves the mark alone, whichever way it ends. -/
def Quiet {α : Type} (x : Call T cap α) : Prop :=
  ∀ rb, Ahead rb → match x.run rb with
    | .ok _ rb' | .error _ rb' => Unmarked rb rb'

theorem produces_localPush (v : T) (s : RaftSignal) :
    Produces (localPush (some v) s : Call T cap PUnit) := by
  intro rb h
  rcases waitForSpace_ahead h .push 1 with hwait | ⟨rb', hwait, hmarked⟩
  · rw [localPush, run_bind_of_ok hwait]
    refine ⟨?_, rfl⟩
    exact ((h.setHelper .push true).incWrite).setHelper .push false |>.congr rfl rfl rfl
  · rw [localPush, run_bind_of_error hwait]
    exact ⟨rfl, hmarked⟩

theorem Produces.bind {α β : Type} {x : Call T cap α} {f : α → Call T cap β} (hx : Produces x)
    (hf : ∀ a, Produces (f a)) : Produces (x >>= f) := by
  intro rb h
  have hxr := hx rb h
  cases hrun : x.run rb with
  | ok a m =>
      rw [hrun] at hxr
      rw [run_bind_of_ok hrun]
      have hfm := hf a m hxr.ahead
      cases hrun' : (f a).run m with
      | ok b t =>
          rw [hrun'] at hfm
          exact hxr.trans hfm
      | error e t =>
          rw [hrun'] at hfm
          exact ⟨hfm.1, hxr.marked hfm.2⟩
  | error e m =>
      rw [hrun] at hxr
      rw [run_bind_of_error hrun]
      exact hxr

theorem produces_pure {α : Type} (a : α) : Produces (pure a : Call T cap α) := fun _ h =>
  unmarked_refl h

theorem produces_localInsert (vs : List T) (s : RaftSignal) :
    Produces (localInsert vs s : Call T cap PUnit) := by
  induction vs with
  | nil => exact produces_pure _
  | cons v vs ih => exact (produces_localPush v _).bind fun _ => ih

theorem produces_localAllocate : Produces (localAllocate : Call T cap (Fin cap)) := by
  intro rb h
  rcases waitForSpace_ahead h .allocate 1 with hwait | ⟨rb', hwait, hmarked⟩
  · rw [localAllocate, run_bind_of_ok hwait]
    exact ⟨(h.setHelper .allocate true).congr rfl rfl rfl, rfl⟩
  · rw [localAllocate, run_bind_of_error hwait]
    exact ⟨rfl, hmarked⟩

theorem Quiet.bind {α β : Type} {x : Call T cap α} {f : α → Call T cap β} (hx : Quiet x)
    (hf : ∀ a, Quiet (f a)) : Quiet (x >>= f) := by
  intro rb h
  have hxr := hx rb h
  cases hrun : x.run rb with
  | ok a m =>
      rw [hrun] at hxr
      rw [run_bind_of_ok hrun]
      have hfm := hf a m hxr.ahead
      cases hrun' : (f a).run m <;> rw [hrun'] at hfm <;> exact hxr.trans hfm
  | error e m =>
      rw [hrun] at hxr
      rw [run_bind_of_error hrun]
      exact hxr

theorem quiet_pure {α : Type} (a : α) : Quiet (pure a : Call T cap α) := fun _ h => unmarked_refl h

theorem quiet_modify {f : RingBuffer T cap → RingBuffer T cap}
    (h : ∀ rb, Ahead rb → Unmarked rb (f rb)) : Quiet (modify f : Call T cap PUnit) := fun rb hrb =>
  h rb hrb

theorem quiet_exitBuffer (k : AccessKey) : Quiet (exitBuffer k : Call T cap PUnit) :=
  quiet_modify fun _ h => unmarked_setHelper h k false

theorem quiet_send (s : RaftSignal) : Quiet (send s : Call T cap PUnit) := by
  intro rb h
  cases ha : rb.allocateCalled with
  | true =>
      rw [send_run ha]
      refine ⟨?_, rfl⟩
      exact (h.incWrite.setHelper .allocate false).congr rfl rfl rfl
  | false =>
      rw [send_run_nothing ha]
      exact unmarked_refl h

theorem quiet_deallocate : Quiet (deallocate : Call T cap PUnit) :=
  (quiet_modify (f := fun rb => { rb with allocateCalled := false })
    fun _ h => ⟨h.congr rfl rfl rfl, rfl⟩).bind fun _ => quiet_exitBuffer .allocate

theorem quiet_size : Quiet (size : Call T cap Nat) := by
  intro rb h
  obtain ⟨n, hn, _⟩ := size_ahead h
  rw [hn]
  exact unmarked_refl h

theorem quiet_spaceAvail : Quiet (spaceAvail : Call T cap Nat) :=
  quiet_size.bind fun _ => quiet_pure _

theorem quiet_isInvalid : Quiet (isInvalid : Call T cap Bool) := fun _ h => unmarked_refl h

theorem quiet_invalidate : Quiet (invalidate : Call T cap PUnit) :=
  quiet_modify fun _ h => ⟨h.congr rfl rfl rfl, rfl⟩

theorem quiet_pop : Quiet (pop : Call T cap (T × RaftSignal)) := by
  intro rb h
  have henter := h.setHelper .pop true
  have hrun : (setHelper .pop true rb).resizing = false := henter.running
  have hback := (unmarked_setHelper h .pop true)
  obtain ⟨f, hf, hlt⟩ := lookForData_ahead henter
  cases f with
  | data =>
      simp only [pop, localPop, run_bind_of_ok (enterBuffer_run .pop rb),
        run_bind_of_ok (notResizing_run _), hrun, Bool.not_false, if_true, run_bind_of_ok hf]
      exact ⟨((henter.incRead (hlt rfl)).setHelper .pop false).congr rfl rfl rfl, rfl⟩
  | closedAndEmpty =>
      simp only [pop, localPop, run_bind_of_ok (enterBuffer_run .pop rb),
        run_bind_of_ok (notResizing_run _), hrun, Bool.not_false, if_true, run_bind_of_ok hf]
      exact hback
  | nothing =>
      simp only [pop, localPop, run_bind_of_ok (enterBuffer_run .pop rb),
        run_bind_of_ok (notResizing_run _), hrun, Bool.not_false, if_true, run_bind_of_ok hf]
      exact hback

theorem quiet_localPopRange (n : Nat) :
    Quiet (localPopRange n : Call T cap (List (T × RaftSignal))) := by
  induction n with
  | zero => exact quiet_pure _
  | succ n ih => exact quiet_pop.bind fun _ => ih.bind fun _ => quiet_pure _

theorem quiet_localPeek : Quiet (localPeek : Call T cap (Fin cap × RaftSignal)) := by
  intro rb h
  have henter := h.setHelper .peek true
  have hrun : (setHelper .peek true rb).resizing = false := henter.running
  have hback := (unmarked_setHelper h .peek true)
  obtain ⟨f, hf, _⟩ := lookForData_ahead henter
  cases f with
  | data =>
      simp only [localPeek, run_bind_of_ok (enterBuffer_run .peek rb),
        run_bind_of_ok (notResizing_run _), hrun, Bool.not_false, if_true, run_bind_of_ok hf]
      exact hback
  | closedAndEmpty =>
      simp only [localPeek, run_bind_of_ok (enterBuffer_run .peek rb),
        run_bind_of_ok (notResizing_run _), hrun, Bool.not_false, if_true, run_bind_of_ok hf]
      exact hback
  | nothing =>
      simp only [localPeek, run_bind_of_ok (enterBuffer_run .peek rb),
        run_bind_of_ok (notResizing_run _), hrun, Bool.not_false, if_true, run_bind_of_ok hf]
      exact hback.trans (unmarked_setHelper henter .peek false)

theorem quiet_localRecycle (n : Nat) : Quiet (localRecycle n : Call T cap PUnit) := by
  induction n with
  | zero => exact quiet_pure _
  | succ n ih =>
      intro rb h
      have henter := h.setHelper .recycle true
      have hrun : (setHelper .recycle true rb).resizing = false := henter.running
      have hback := (unmarked_setHelper h .recycle true).trans
        (unmarked_setHelper henter .recycle false)
      obtain ⟨f, hf, hlt⟩ := lookForData_ahead henter
      cases f with
      | data =>
          simp only [localRecycle, run_bind_of_ok (enterBuffer_run .recycle rb),
            run_bind_of_ok (notResizing_run _), hrun, Bool.not_false, if_true, run_bind_of_ok hf]
          have hmoved := henter.incRead (hlt rfl)
          have hdropped : Unmarked rb (recycledOne rb) :=
            ⟨hmoved.setHelper .recycle false, rfl⟩
          have hrest := ih _ hdropped.ahead
          rw [run_bind_of_ok (EStateM.run_modify _ _), run_bind_of_ok (exitBuffer_run .recycle _)]
          rw [show setHelper .recycle false (incRead (setHelper .recycle true rb)) =
            recycledOne rb from rfl]
          cases hlast : (localRecycle n).run (recycledOne rb) <;> rw [hlast] at hrest <;>
            exact hdropped.trans hrest
      | closedAndEmpty =>
          simp only [localRecycle, run_bind_of_ok (enterBuffer_run .recycle rb),
            run_bind_of_ok (notResizing_run _), hrun, Bool.not_false, if_true, run_bind_of_ok hf]
          exact hback
      | nothing =>
          simp only [localRecycle, run_bind_of_ok (enterBuffer_run .recycle rb),
            run_bind_of_ok (notResizing_run _), hrun, Bool.not_false, if_true, run_bind_of_ok hf]
          exact hback

end RingBuffer

/-! ## The calls of a session -/

namespace Session

open RingBuffer (Ahead Unmarked Marked Produces Quiet)

variable {T : Type} {cap : Nat}

/-- How a call of the interface ends, as far as the producer's mark goes. -/
def Ends (c : FifoCall T) (s : Session T cap) : EStateM.Result Stop (Session T cap) (Reply T) → Prop
  | .ok _ t => Unmarked s.rb t.rb
  | .error e t =>
      if c.startsWrite = true ∧ e = .wait then Marked s.rb t.rb else Unmarked s.rb t.rb

theorem ends_of_produces {α : Type} {c : FifoCall T} {x : Call T cap α} (hx : Produces x)
    (hc : c.startsWrite = true) {f : α → EStateM Stop (Session T cap) (Reply T)}
    (hf : ∀ a s, ∃ r t, (f a).run s = .ok r t ∧ t.rb = s.rb) {s : Session T cap} (h : Ahead s.rb) :
    Ends c s ((onQueue x >>= f).run s) := by
  have hxr := hx s.rb h
  cases hrun : x.run s.rb with
  | ok a rb =>
      rw [hrun] at hxr
      obtain ⟨r, t, hft, hrb⟩ := hf a { s with rb := rb }
      rw [run_bind_of_ok (onQueue_ok hrun), hft]
      show Unmarked s.rb t.rb
      rw [hrb]
      exact hxr
  | error e rb =>
      rw [hrun] at hxr
      rw [run_bind_of_error (onQueue_error hrun)]
      show if _ then _ else _
      rw [if_pos ⟨hc, hxr.1⟩]
      exact hxr.2

theorem ends_of_quiet {α : Type} {c : FifoCall T} {x : Call T cap α} (hx : Quiet x)
    (hc : c.startsWrite = false) {f : α → EStateM Stop (Session T cap) (Reply T)}
    (hf : ∀ a s, ∃ r t, (f a).run s = .ok r t ∧ t.rb = s.rb) {s : Session T cap} (h : Ahead s.rb) :
    Ends c s ((onQueue x >>= f).run s) := by
  have hxr := hx s.rb h
  cases hrun : x.run s.rb with
  | ok a rb =>
      rw [hrun] at hxr
      obtain ⟨r, t, hft, hrb⟩ := hf a { s with rb := rb }
      rw [run_bind_of_ok (onQueue_ok hrun), hft]
      show Unmarked s.rb t.rb
      rw [hrb]
      exact hxr
  | error e rb =>
      rw [hrun] at hxr
      rw [run_bind_of_error (onQueue_error hrun)]
      show if _ then _ else _
      rw [if_neg (by simp [hc])]
      exact hxr

/-- **Every call** of the interface, from a queue in order. -/
theorem exec_ends (c : FifoCall T) {s : Session T cap} (h : Ahead s.rb) :
    Ends c s ((exec c).run s) := by
  cases c with
  | push v signal =>
      exact ends_of_produces (RingBuffer.produces_localPush v signal) rfl
        (fun _ s => ⟨_, s, rfl, rfl⟩) h
  | insert items signal =>
      exact ends_of_produces (RingBuffer.produces_localInsert items signal) rfl
        (fun _ s => ⟨_, s, rfl, rfl⟩) h
  | allocate =>
      exact ends_of_produces (c := .allocate) RingBuffer.produces_localAllocate rfl
        (fun i s => ⟨_, { s with ref := some i }, rfl, rfl⟩) h
  | assign v =>
      cases href : s.ref with
      | none =>
          have hrun : (exec (.assign v)).run s = .error .assertion s := by
            simp [exec, href]
          rw [hrun, Ends, if_neg (by simp)]
          exact RingBuffer.unmarked_refl h
      | some i =>
          have hrun : (exec (.assign v)).run s =
              .ok .done { s with rb := RingBuffer.putStore i v s.rb } := by
            have hput := onQueue_ok (s := s) (EStateM.run_modify (RingBuffer.putStore i v) s.rb)
            rw [exec, run_bind_of_ok (EStateM.run_get s)]
            simp only [href]
            rw [run_bind_of_ok hput, ← href]
            rfl
          rw [hrun]
          exact ⟨h.congr rfl rfl rfl, rfl⟩
  | send signal => exact ends_of_quiet (RingBuffer.quiet_send signal) rfl (fun _ s => ⟨_, s, rfl, rfl⟩) h
  | deallocate => exact ends_of_quiet RingBuffer.quiet_deallocate rfl (fun _ s => ⟨_, s, rfl, rfl⟩) h
  | pop => exact ends_of_quiet RingBuffer.quiet_pop rfl (fun _ s => ⟨_, s, rfl, rfl⟩) h
  | popRange n =>
      exact ends_of_quiet (RingBuffer.quiet_localPopRange n) rfl (fun _ s => ⟨_, s, rfl, rfl⟩) h
  | peek => exact ends_of_quiet RingBuffer.quiet_localPeek rfl (fun _ s => ⟨_, s, rfl, rfl⟩) h
  | unpeek => exact ends_of_quiet (RingBuffer.quiet_exitBuffer .peek) rfl (fun _ s => ⟨_, s, rfl, rfl⟩) h
  | recycle n =>
      exact ends_of_quiet (RingBuffer.quiet_localRecycle n) rfl (fun _ s => ⟨_, s, rfl, rfl⟩) h
  | invalidate => exact ends_of_quiet RingBuffer.quiet_invalidate rfl (fun _ s => ⟨_, s, rfl, rfl⟩) h
  | size => exact ends_of_quiet RingBuffer.quiet_size rfl (fun _ s => ⟨_, s, rfl, rfl⟩) h
  | spaceAvail => exact ends_of_quiet RingBuffer.quiet_spaceAvail rfl (fun _ s => ⟨_, s, rfl, rfl⟩) h
  | isInvalid => exact ends_of_quiet RingBuffer.quiet_isInvalid rfl (fun _ s => ⟨_, s, rfl, rfl⟩) h

end Session

/-! ## One act -/

namespace Watched

open RingBuffer (Ahead Unmarked Marked)

variable {T : Type} {L : Layout T} {w t : Watched T} {n : Nat}

theorem Follows.cached (h : Follows w n) : w.cached = w.stats w.current := by
  rw [Watched.cached, h.write, h.read]

/-- What a call has counted is in the installed buffer, if that is where the references point. -/
theorem Follows.after_write (h : Follows w n) (s : Session T w.cap) :
    ((w.after s).stats w.current).write = s.rb.buffer.writeStats := by
  simp [after, h.write, h.read]

theorem Follows.after (h : Follows w n) {s : Session T w.cap} {m : Nat}
    (hm : s.rb.buffer.writeStats.blocked.toNat = m) : Follows (w.after s) m where
  write := h.write
  read := h.read
  blocked := by
    rw [show (w.after s).current = w.current from rfl, h.after_write, hm]

/-- The mark that a call starts from. -/
theorem Follows.start (h : Follows w n) :
    (withStats w.session w.cached).rb.buffer.writeStats.blocked =
      (w.stats w.current).write.blocked := by
  rw [h.cached]
  rfl

theorem call_ends (hahead : Ahead w.session.rb) (c : FifoCall T) :
    Session.Ends c (withStats w.session w.cached) (w.call c) :=
  Session.exec_ends c (hahead.congr rfl rfl rfl)

/-- What one act does: the statistics still follow exactly where it meets its condition, and then the
queue is still in order. -/
structure Decided (w : Watched T) (n : Nat) (a : Act T) (t : Watched T) : Prop where
  iff : Follows t (count n a) ↔ Meets w a
  ahead : Meets w a → Ahead t.session.rb

theorem decided_blocked (h : Follows w n) {c : FifoCall T} {s : Session T w.cap}
    (hmarked : Marked (withStats w.session w.cached).rb s.rb) :
    Decided w n (.blocked c) (w.after s) := by
  refine ⟨?_, fun _ => hmarked.ahead⟩
  have hn := h.blocked
  have hmark := hmarked.blocked
  rw [Blocked.noted, h.start] at hmark
  have hmeets : Meets w (.blocked c) ↔ (w.stats w.current).write.blocked = 0 := Iff.rfl
  rw [hmeets]
  constructor
  · intro ht
    by_contra hup
    rw [if_neg hup, h.start] at hmark
    have hseen : ((w.after s).stats w.current).write.blocked.toNat = n + 1 := ht.blocked
    rw [h.after_write, hmark] at hseen
    omega
  · intro hzero
    rw [if_pos hzero] at hmark
    rw [hzero] at hn
    apply h.after
    rw [hmark, ← hn]
    rfl

theorem decided_unmarked (h : Follows w n) {a : Act T} {s : Session T w.cap}
    (hquiet : Unmarked (withStats w.session w.cached).rb s.rb) (hcount : count n a = n)
    (hmeets : Meets w a) : Decided w n a (w.after s) := by
  refine ⟨iff_of_true ?_ hmeets, fun _ => hquiet.ahead⟩
  rw [hcount]
  apply h.after
  rw [hquiet.blocked, h.start, h.blocked]

/-- A resize that comes to its end found a queue that it may copy, and no `exit_alloc`. -/
theorem goesThrough_of_done {cap newCap : Nat} {hle : cap ≤ newCap} {this : Data T newCap}
    {exitAlloc : Bool} {rb : RingBuffer T cap} {rb' : RingBuffer T newCap}
    (h : rb.resize L hle this exitAlloc = .done rb') : exitAlloc = false ∧ GoesThrough rb := by
  cases exitAlloc with
  | false => exact ⟨rfl, GoesThrough.of_done h⟩
  | true =>
      unfold RingBuffer.resize at h
      split at h
      · cases h
      · simp at h

/-- A resize that does not come to its end leaves the buffer alone, and had a reason. -/
theorem resize_waits {cap newCap : Nat} {hle : cap ≤ newCap} {this : Data T newCap}
    {exitAlloc : Bool} {rb rb' : RingBuffer T cap}
    (h : rb.resize L hle this exitAlloc = .again rb' ∨
      rb.resize L hle this exitAlloc = .cancelled rb') :
    rb' = { rb with resizing := false } ∧ (exitAlloc = true ∨ ¬GoesThrough rb) := by
  unfold RingBuffer.resize at h
  split at h
  · rcases h with h | h <;> cases h
  · split at h
    · next hcancel =>
        rcases h with h | h
        · cases h
        · refine ⟨(RingBuffer.Pass.cancelled.inj h).symm, ?_⟩
          cases exitAlloc with
          | true => exact .inl rfl
          | false => exact .inr fun hgo => by simp [hgo.isOpen] at hcancel
    · split at h
      · split at h <;> rcases h with h | h <;> cases h
      · next hbusy =>
          rcases h with h | h
          · refine ⟨(RingBuffer.Pass.again.inj h).symm, .inr fun hgo => ?_⟩
            have hclear : RingBuffer.allclear { rb with resizing := true } = true := hgo.clear
            simp [hclear, hgo.onePiece] at hbusy
          · cases h

/-- **One act**, whichever it is. -/
theorem step_decided {a : Act T} (h : Follows w n) (hahead : Ahead w.session.rb)
    (hstep : Step L w a t) : Decided w n a t := by
  cases hstep with
  | @call c r s hcall =>
      have hends := call_ends hahead c
      rw [hcall] at hends
      exact decided_unmarked h hends rfl trivial
  | @blocked c s hc hcall =>
      have hends := call_ends hahead c
      rw [hcall, Session.Ends, if_pos ⟨hc, rfl⟩] at hends
      exact decided_blocked h hends
  | @refused c e s hc hcall =>
      have hends := call_ends hahead c
      rw [hcall, Session.Ends, if_neg hc] at hends
      exact decided_unmarked h hends rfl trivial
  | @resize newCap _ exitAlloc hle uninit rb hdone =>
      obtain ⟨hexit, hgo⟩ := goesThrough_of_done hdone
      have hgo' : GoesThrough w.session.rb :=
        ⟨hgo.resizeable, hgo.isOpen, hgo.clear, hgo.onePiece⟩
      have hnot : ¬Meets w (.resize newCap exitAlloc) := by
        rintro (htrue | hstuck)
        · rw [hexit] at htrue
          cases htrue
        · exact hstuck hgo'
      refine ⟨iff_of_false ?_ hnot, fun hmeets => absurd hmeets hnot⟩
      intro ht
      -- the reference still points into the buffer that has been deleted
      have hstale : w.writeStats = w.current + 1 := ht.write
      have := h.write
      omega
  | again hle uninit hwaits =>
      obtain ⟨hrb, hreason⟩ := resize_waits hwaits
      refine ⟨iff_of_true ⟨h.write, h.read, h.blocked⟩ hreason, fun _ => ?_⟩
      rw [hrb]
      exact ⟨rfl, hahead.ahead⟩
  | notResizeable hle uninit hstatic =>
      refine ⟨iff_of_true h (.inr fun hgo => ?_), fun _ => hahead⟩
      unfold RingBuffer.resize at hstatic
      rw [if_neg (by simp [hgo.resizeable])] at hstatic
      split at hstatic
      · cases hstatic
      · split at hstatic
        · split at hstatic <;> cases hstatic
        · cases hstatic
  | zeroReadStats =>
      refine ⟨iff_of_true ⟨h.write, h.read, ?_⟩ trivial, fun _ => hahead⟩
      show ((Function.update w.stats w.current _) w.current).write.blocked.toNat = n
      rw [Function.update_self]
      exact h.blocked
  | zeroWriteStats =>
      refine ⟨iff_of_true ⟨h.write, h.read, ?_⟩ trivial, fun _ => hahead⟩
      show ((Function.update w.stats w.current _) w.current).write.blocked.toNat = 0
      rw [Function.update_self]
      rfl
  | fracWriteBlocked =>
      refine ⟨iff_of_true ⟨h.write, h.read, ?_⟩ trivial, fun _ => hahead⟩
      show ((Function.update w.stats w.current _) w.current).write.blocked.toNat = 0
      rw [Function.update_self]
      rfl

/-! ## Many acts -/

/-- **Any sequence of acts** that meet their conditions keeps the references where the monitor
looks. -/
theorem follows_of_run {acts : List (Act T)} (hrun : Run (restrict (Step L) Meets) w acts t) :
    ∀ {n : Nat}, Follows w n → Ahead w.session.rb →
      Follows t (acts.foldl count n) ∧ Ahead t.session.rb := by
  induction hrun with
  | nil w =>
      intro n h hahead
      exact ⟨h, hahead⟩
  | @cons w m t a acts hl _ ih =>
      intro n h hahead
      have hdecided := step_decided h hahead hl.2
      exact ih (hdecided.iff.mpr hl.1) (hdecided.ahead hl.1)

/-- **Statistics follow the current buffer** exactly as long as no resize comes to its end and no
pass is blocked while the mark is up. -/
theorem statistics_follow_iff {cap : Nat} [NeZero cap] (uninit : Fin cap → T) {acts : List (Act T)}
    (hrun : Run (restrict (Step L) Meets) (init cap uninit) acts w) :
    Follows w (blockedSince acts) ∧
      ∀ a t, Step L w a t → (Follows t (blockedSince (acts ++ [a])) ↔ Meets w a) := by
  have hinit : Follows (init cap uninit) 0 := ⟨rfl, rfl, rfl⟩
  obtain ⟨hfollows, hahead⟩ := follows_of_run hrun hinit ⟨rfl, le_refl _⟩
  refine ⟨hfollows, fun a t hstep => ?_⟩
  rw [blockedSince, List.foldl_append]
  exact (step_decided hfollows hahead hstep).iff

/-- A push into one place, a push that finds it full, and a look at the statistics. -/
theorem statistics_follow_iff_one : ∃ w : Watched UInt32,
    Run (restrict (Step Layout.u32) Meets) (init 1 fun _ => 0)
        [.call (.push 5 0), .blocked (.push 6 0), .fracWriteBlocked] w ∧
      Follows w 0 := by
  have hrun : Run (restrict (Step Layout.u32) Meets) (init 1 fun _ => 0)
      [.call (.push 5 0), .blocked (.push 6 0), .fracWriteBlocked] _ :=
    .cons ⟨trivial, .call rfl⟩ <| .cons ⟨by rfl, .blocked rfl rfl⟩ <|
      .cons ⟨trivial, .fracWriteBlocked⟩ <| .nil _
  exact ⟨_, hrun, (statistics_follow_iff (fun _ => 0) hrun).1⟩

/-- One item in two places, the queue resized to four: the producer goes on counting into the
statistics of the buffer that is gone, and the monitor sees none of it. And without any resize, two
blocked passes count as one. -/
theorem statistics_stale :
    (∃ w : Watched UInt32, Run (Step Layout.u32) (init 2 fun _ => 0)
        [.call (.push 5 0), .resize 4 false] w ∧ w.writeStats ≠ w.current ∧ w.readStats ≠ w.current) ∧
      ∃ w : Watched UInt32, Run (Step Layout.u32) (init 1 fun _ => 0)
        [.call (.push 5 0), .blocked (.push 6 0), .blocked (.push 6 0)] w ∧
        (w.stats w.current).write.blocked.toNat ≠
          blockedSince (T := UInt32) [.call (.push 5 0), .blocked (.push 6 0), .blocked (.push 6 0)] := by
  constructor
  · refine ⟨_, .cons (.call rfl) <| .cons (.resize (by decide) (fun _ => 0) rfl) <| .nil _, ?_, ?_⟩
    · decide
    · decide
  · refine ⟨_, .cons (.call rfl) <| .cons (.blocked rfl rfl) <| .cons (.blocked rfl rfl) <| .nil _, ?_⟩
    decide

end Watched

end RaftLib.Queue
