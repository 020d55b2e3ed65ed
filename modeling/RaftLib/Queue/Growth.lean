/-
# `RaftLib.Queue.Growth` -- a producer that waits for more room than there is

The monitor of `dynalloc::run` (`dynalloc.cpp`) doubles a queue whose producer it has seen blocked
often enough. A producer in `allocate_range( n )` relies on it where `n` is more than the capacity.
What can happen to such a queue while the producer waits: passes of its own loop, pops of the
consumer, rounds of the monitor, passes of the loop in `DataManager::resize`.

The quotient of `get_frac_write_blocked` is compared exactly, where the code has a `float`.
`CanResize` is what the guards ask for, put together; `grows_iff` says that it decides.
-/
import RaftLib.Queue.Statistics

namespace RaftLib.Queue

open RaftLib.Logic.Bytes
open RaftLib.Logic.Program
open RaftLib.Logic.Steps

/-! ## The monitor -/

/-- A queue with its monitor: `size_map[ hash_val ]`, whether the monitor is inside
`resize( cap * 2 )`, and the `fixed_buffer_size` of the source port. -/
structure Monitored (T : Type) where
  watched : Watched T
  sizeMap : Nat := 0
  inResize : Bool := false
  fixedBufferSize : Nat := 0

namespace Monitored

variable {T : Type}

/-- A queue just made. -/
def init (cap : Nat) [NeZero cap] (uninit : Fin cap → T) : Monitored T :=
  { watched := Watched.init cap uninit }

/-- `mon_func`, up to the call of `resize`: `realized_ratio >= 0.8`, `curr_count > 2`. -/
def monFunc (s : Monitored T) : Monitored T :=
  if s.fixedBufferSize ≠ 0 then s
  else
    let (ratio, w) := s.watched.getFracWriteBlocked
    if 8 * ratio.2 ≤ 10 * ratio.1 then
      { s with watched := w, sizeMap := s.sizeMap + 1, inResize := decide (2 < s.sizeMap) }
    else { s with watched := w }

/-- After `resize` has returned: `size_map[ hash_val ] = 0`. -/
def returned (s : Monitored T) (w : Watched T) : Monitored T :=
  { s with watched := w, sizeMap := 0, inResize := false }

/-- What can happen while the producer waits. -/
inductive Act where
  | wait | pop | monitor | retry | resized
  deriving DecidableEq, Repr

/-- A pass of the producer in `allocate_range( n )` that goes round again, a pop that goes through, a
round of the monitor, a pass of the resize loop that changes nothing, and one that comes to its end. -/
inductive Step (L : Layout T) (n : Nat) : Monitored T → Act → Monitored T → Prop
  | wait {s : Monitored T} {rb : RingBuffer T s.watched.cap}
      (h : (RingBuffer.localAllocateN n).run
        (Watched.withStats s.watched.session s.watched.cached).rb = .error .wait rb) :
      Step L n s .wait
        { s with watched := s.watched.after { s.watched.session with rb := rb } }
  | pop {s : Monitored T} {r : Reply T} {t : Session T s.watched.cap}
      (h : s.watched.call .pop = .ok r t) :
      Step L n s .pop { s with watched := s.watched.after t }
  | monitor {s : Monitored T} (h : s.inResize = false) : Step L n s .monitor s.monFunc
  | again {s : Monitored T} (hin : s.inResize = true) (hle : s.watched.cap ≤ s.watched.cap * 2)
      [NeZero (s.watched.cap * 2)] (uninit : Fin (s.watched.cap * 2) → T)
      {rb : RingBuffer T s.watched.cap}
      (h : s.watched.session.rb.resize L hle (Data.init _ uninit) false = .again rb) :
      Step L n s .retry
        { s with watched := { s.watched with session := { s.watched.session with rb := rb } } }
  | cancelled {s : Monitored T} (hin : s.inResize = true) (hle : s.watched.cap ≤ s.watched.cap * 2)
      [NeZero (s.watched.cap * 2)] (uninit : Fin (s.watched.cap * 2) → T)
      {rb : RingBuffer T s.watched.cap}
      (h : s.watched.session.rb.resize L hle (Data.init _ uninit) false = .cancelled rb) :
      Step L n s .retry
        (s.returned { s.watched with session := { s.watched.session with rb := rb } })
  | notResizeable {s : Monitored T} (hin : s.inResize = true)
      (hle : s.watched.cap ≤ s.watched.cap * 2) [NeZero (s.watched.cap * 2)]
      (uninit : Fin (s.watched.cap * 2) → T)
      (h : s.watched.session.rb.resize L hle (Data.init _ uninit) false = .notResizeable) :
      Step L n s .retry (s.returned s.watched)
  | resized {s : Monitored T} (hin : s.inResize = true) (hle : s.watched.cap ≤ s.watched.cap * 2)
      [NeZero (s.watched.cap * 2)] (uninit : Fin (s.watched.cap * 2) → T)
      {rb : RingBuffer T (s.watched.cap * 2)}
      (h : (Watched.withStats s.watched.session (s.watched.stats s.watched.current)).rb.resize L hle
        (Data.init _ uninit) false = .done rb) :
      Step L n s .resized (s.returned (s.watched.installed rb))

/-! ## What the guards ask for -/

/-- The queue itself. -/
abbrev rb (s : Monitored T) : RingBuffer T s.watched.cap := s.watched.session.rb

/-- The write statistics that the monitor looks at. -/
abbrev seen (s : Monitored T) : Blocked := (s.watched.stats s.watched.current).write

/-- How many entries the queue holds. -/
def queued (s : Monitored T) : Nat := s.rb.contents.length

/-- The blocked fraction is, or can be made by a blocked pass, what the monitor asks for. -/
def Hits (s : Monitored T) : Prop :=
  s.seen.count ≠ 0 ∧
    (8 * s.seen.count.toNat ≤ 10 * s.seen.blocked.toNat ∨
      s.watched.writeStats = s.watched.current ∧ s.seen.blocked = 0 ∧ s.seen.count.toNat = 1)

/-- What a resize asks of the queue besides its entries: the copy stays inside the arrays, the queue is
resizeable and open, nobody is inside who does not leave by himself, and the write index is not the
first one, so that entries can lie in one piece before it. -/
structure Copyable (L : Layout T) (s : Monitored T) : Prop where
  small : L.size ≤ 16
  resizeable : s.rb.buffer.externalAlloc = false
  isOpen : s.rb.buffer.isValid = true
  idle : ∀ k ∈ [AccessKey.allocate, .push, .recycle, .peek], s.rb.buffer.threadAccess.flag k = false
  unasked : s.rb.checkingSize = 0
  writeIndex : (s.rb.buffer.writePt.a : Nat) ≠ 0

/-- **The monitor can still resize the queue.** The queue may be copied; an entry will be left when
the consumer's flag is down; and the monitor is in `resize` already, or its counter has come far
enough and the blocked fraction will do. -/
structure CanResize (L : Layout T) (s : Monitored T) : Prop where
  copyable : Copyable L s
  entries : (if s.rb.buffer.threadAccess.flag .pop then 2 else 1) ≤ s.queued
  trigger : s.inResize = true ∨ s.fixedBufferSize = 0 ∧ 2 < s.sizeMap ∧ s.Hits

/-- The producer waits for room for `n`: the queue holds some entries, and there is too little room
besides. The references point into a buffer that has been there. -/
structure Waiting (s : Monitored T) (n : Nat) : Prop where
  holds : ∃ es, Holds s.rb es
  short : ¬n ≤ s.watched.cap - s.queued
  named : s.watched.writeStats ≤ s.watched.current

/-- There is a way to a state in which `space_avail() >= n`. -/
def Grows (L : Layout T) (s : Monitored T) (n : Nat) : Prop :=
  ∃ acts t m, Run (Step L n) s acts t ∧ RingBuffer.spaceAvail.run t.rb = .ok m t.rb ∧ n ≤ m

/-- There is a way to a resize. -/
def Resizes (L : Layout T) (s : Monitored T) (n : Nat) : Prop :=
  ∃ acts t, Run (Step L n) s (acts ++ [.resized]) t

end Monitored

/-! ## A pass of the producer, and a pop -/

namespace RingBuffer

variable {T : Type} {cap n : Nat}

/-- The queue after a pass of `local_allocate_n` that found too little room. -/
def waited (n : Nat) (rb : RingBuffer T cap) : RingBuffer T cap :=
  let rb₁ := setHelper .allocateRange true rb
  let rb₂ := if cap < n then { rb₁ with buffer := { rb₁.buffer with forceResize := n } } else rb₁
  let rb₃ := setHelper .allocateRange false rb₂
  { rb₃ with buffer := { rb₃.buffer with writeStats := rb₃.buffer.writeStats.noted } }

/-- What neither a pass of the producer nor a pop changes. -/
structure Frame (rb rb' : RingBuffer T cap) : Prop where
  writePt : rb'.buffer.writePt = rb.buffer.writePt
  store : rb'.buffer.store = rb.buffer.store
  signal : rb'.buffer.signal = rb.buffer.signal
  isValid : rb'.buffer.isValid = rb.buffer.isValid
  externalAlloc : rb'.buffer.externalAlloc = rb.buffer.externalAlloc
  resizing : rb'.resizing = rb.resizing
  checkingSize : rb'.checkingSize = rb.checkingSize
  idle : ∀ k ∈ [AccessKey.allocate, .push, .recycle, .peek],
    rb'.buffer.threadAccess.flag k = rb.buffer.threadAccess.flag k

/-- What a pass of the producer does besides: it leaves the buffer, and marks itself as blocked. -/
structure Waited (rb rb' : RingBuffer T cap) : Prop extends Frame rb rb' where
  readPt : rb'.buffer.readPt = rb.buffer.readPt
  writeStats : rb'.buffer.writeStats = rb.buffer.writeStats.noted
  left : rb'.buffer.threadAccess.flag .allocateRange = false
  pop : rb'.buffer.threadAccess.flag .pop = rb.buffer.threadAccess.flag .pop

theorem waited_waited (n : Nat) (rb : RingBuffer T cap) : Waited rb (waited n rb) := by
  have hidle : ∀ k ∈ [AccessKey.allocate, .push, .recycle, .peek],
      ∀ t : ThreadAccess, ((t.set .allocateRange true).set .allocateRange false).flag k =
        t.flag k := by
    intro k hk t
    rcases List.mem_cons.mp hk with rfl | hk
    · rfl
    · rcases List.mem_cons.mp hk with rfl | hk
      · rfl
      · rcases List.mem_cons.mp hk with rfl | hk
        · rfl
        · rw [List.mem_singleton.mp hk]
          rfl
  unfold waited
  split
  · exact ⟨⟨rfl, rfl, rfl, rfl, rfl, rfl, rfl, fun k hk => hidle k hk _⟩, rfl, rfl, rfl, rfl⟩
  · exact ⟨⟨rfl, rfl, rfl, rfl, rfl, rfl, rfl, fun k hk => hidle k hk _⟩, rfl, rfl, rfl, rfl⟩

/-- What a pop does besides: one entry fewer, and its flag is down. -/
structure Popped (rb rb' : RingBuffer T cap) : Prop extends Frame rb rb' where
  readPt : rb'.buffer.readPt = rb.buffer.readPt.inc
  writeStats : rb'.buffer.writeStats = rb.buffer.writeStats
  pop : rb'.buffer.threadAccess.flag .pop = false
  allocateRange : rb'.buffer.threadAccess.flag .allocateRange =
    rb.buffer.threadAccess.flag .allocateRange

theorem popped_popped (rb : RingBuffer T cap) : Popped rb (popped rb) := by
  refine ⟨⟨rfl, rfl, rfl, rfl, rfl, rfl, rfl, ?_⟩, rfl, rfl, rfl, rfl⟩
  intro k hk
  rcases List.mem_cons.mp hk with rfl | hk
  · rfl
  · rcases List.mem_cons.mp hk with rfl | hk
    · rfl
    · rcases List.mem_cons.mp hk with rfl | hk
      · rfl
      · rw [List.mem_singleton.mp hk]
        rfl

section Evaluated

variable [NeZero cap] {rb : RingBuffer T cap} {es : List (T × RaftSignal)}

/-- A pass that finds too little room. -/
theorem localAllocateN_full (h : Holds rb es) (hn : ¬n ≤ cap - es.length) :
    (localAllocateN n).run rb = .error .wait (waited n rb) := by
  have hspace := hasSpace_run (h.setHelper .allocateRange true) n
  rw [localAllocateN, run_bind_of_ok (enterBuffer_run .allocateRange rb), run_bind_of_ok hspace]
  unfold waited
  by_cases hcap : cap < n
  · simp [hn, hcap]
  · simp [hn, hcap]

/-- A pass that finds room goes on. -/
theorem localAllocateN_room (h : Holds rb es) (hn : n ≤ cap - es.length) (e : Stop)
    (rb' : RingBuffer T cap) : (localAllocateN n).run rb ≠ .error e rb' := by
  have hspace := hasSpace_run (h.setHelper .allocateRange true) n
  rw [localAllocateN, run_bind_of_ok (enterBuffer_run .allocateRange rb), run_bind_of_ok hspace,
    decide_eq_true hn, if_pos rfl, run_bind_of_ok (EStateM.run_get _)]
  obtain ⟨slots, q', hq, _⟩ := handOut_run n (setHelper .allocateRange true rb).buffer.writePt.a
    (setHelper .allocateRange true rb)
  rw [run_bind_of_ok hq, run_bind_of_ok (EStateM.run_modify _ _)]
  intro hbad
  cases hbad

end Evaluated

end RingBuffer

/-! ## What one step does -/

theorem Watched.after_seen {T : Type} (w : Watched T) (s : Session T w.cap) :
    ((w.after s).stats w.current).write =
      if w.writeStats = w.current then s.rb.buffer.writeStats else (w.stats w.current).write := by
  have hread : ((w.after s).stats w.current).write =
      (Function.update w.stats w.writeStats
        { w.stats w.writeStats with write := s.rb.buffer.writeStats } w.current).write := by
    by_cases hr : w.current = w.readStats
    · simp only [Watched.after]
      rw [hr, Function.update_self]
    · simp only [Watched.after]
      rw [Function.update_of_ne hr]
  rw [hread]
  split
  · next hw => rw [hw, Function.update_self]
  · next hw => rw [Function.update_of_ne (Ne.symm hw)]

namespace RingBuffer.Frame

variable {T : Type} {cap : Nat} [NeZero cap] {rb rb' : RingBuffer T cap}
  {es : List (T × RaftSignal)}

omit [NeZero cap] in
theorem entry (h : Frame rb rb') : rb'.buffer.entry = rb.buffer.entry := by
  funext i
  rw [Data.entry, Data.entry, h.store, h.signal]

/-- With the read pointer where it was the entries are what they were. -/
theorem holds (h : Frame rb rb') (hread : rb'.buffer.readPt = rb.buffer.readPt) (hes : Holds rb es) :
    Holds rb' es := by
  refine ⟨h.resizing.trans hes.running, ?_, hes.bounded, ?_⟩
  · rw [h.writePt, hread]
    exact hes.pos
  · rw [hread, h.entry]
    exact hes.items

theorem holds_tail (h : Frame rb rb') (hread : rb'.buffer.readPt = rb.buffer.readPt.inc)
    {e : T × RaftSignal} (hes : Holds rb (e :: es)) : Holds rb' es :=
  hes.consume (h.resizing.trans hes.running) hread h.writePt h.entry

end RingBuffer.Frame

namespace Monitored

variable {T : Type} {L : Layout T} {n : Nat} {s t : Monitored T} {es : List (T × RaftSignal)}

theorem queued_of_holds (h : Holds s.rb es) : s.queued = es.length := by
  rw [queued, h.contents_eq]

/-- The queue that the calls of a waiting producer run on has the same entries. -/
theorem holds_withStats (h : Holds s.rb es) (stats : Stats) :
    Holds (Watched.withStats s.watched.session stats).rb es :=
  ⟨h.running, h.pos, h.bounded, h.items⟩

theorem step_wait (h : Holds s.rb es) (hstep : Step L n s .wait t) :
    ¬n ≤ s.watched.cap - es.length ∧ ∃ r : Session T s.watched.cap,
      RingBuffer.Waited (Watched.withStats s.watched.session s.watched.cached).rb r.rb ∧
      t = { s with watched := s.watched.after r } := by
  cases hstep with
  | wait hrun =>
      have h' := holds_withStats h s.watched.cached
      by_cases hn : n ≤ s.watched.cap - es.length
      · exact absurd hrun (RingBuffer.localAllocateN_room h' hn _ _)
      · rw [RingBuffer.localAllocateN_full h' hn] at hrun
        obtain ⟨_, hrb⟩ := EStateM.Result.error.inj hrun
        refine ⟨hn, _, ?_, rfl⟩
        show RingBuffer.Waited _ _
        rw [← hrb]
        exact RingBuffer.waited_waited n _

/-- The consumer's call, run. -/
theorem call_pop {e : T × RaftSignal} (h : Holds s.rb (e :: es)) :
    s.watched.call .pop = .ok (.entry e)
      { Watched.withStats s.watched.session s.watched.cached with
        rb := RingBuffer.popped (Watched.withStats s.watched.session s.watched.cached).rb } := by
  have hpop := Session.onQueue_ok
    (RingBuffer.pop_run (holds_withStats h s.watched.cached))
  unfold Watched.call Session.exec
  rw [run_bind_of_ok hpop]
  rfl

theorem step_pop (h : Holds s.rb es) (hstep : Step L n s .pop t) :
    ∃ e rest, es = e :: rest ∧ ∃ r : Session T s.watched.cap,
      RingBuffer.Popped (Watched.withStats s.watched.session s.watched.cached).rb r.rb ∧
      t = { s with watched := s.watched.after r } := by
  cases hstep with
  | @pop x r hrun =>
      cases es with
      | nil =>
          obtain ⟨x, rb', hempty⟩ := RingBuffer.pop_empty (holds_withStats h s.watched.cached)
          unfold Watched.call Session.exec at hrun
          rw [run_bind_of_error (Session.onQueue_error hempty)] at hrun
          cases hrun
      | cons e es =>
          refine ⟨e, es, rfl, r, ?_, rfl⟩
          obtain ⟨_, hr⟩ := EStateM.Result.ok.inj ((call_pop h).symm.trans hrun)
          rw [← hr]
          exact RingBuffer.popped_popped _

/-- A pop goes through where there is an entry. -/
theorem exists_pop {e : T × RaftSignal} (h : Holds s.rb (e :: es)) : ∃ t, Step L n s .pop t :=
  ⟨_, .pop (call_pop h)⟩

/-- A pass of the producer is to be had where there is too little room. -/
theorem exists_wait (h : Holds s.rb es) (hn : ¬n ≤ s.watched.cap - es.length) :
    ∃ t, Step L n s .wait t :=
  ⟨_, .wait (RingBuffer.localAllocateN_full (holds_withStats h s.watched.cached) hn)⟩

/-- A resize that came to its end found what the guards ask for. -/
theorem canResize_of_resized (h : Holds s.rb es) (hstep : Step L n s .resized t) :
    CanResize L s ∧ t.watched.cap = s.watched.cap * 2 ∧ t.inResize = false ∧ t.sizeMap = 0 ∧
      t.watched.writeStats = s.watched.writeStats ∧
      t.watched.current = s.watched.current + 1 ∧ Holds t.rb t.rb.contents := by
  cases hstep with
  | @resized hin hle hzero uninit rb hdone =>
      obtain ⟨_, hgo⟩ := Watched.goesThrough_of_done hdone
      have h' := holds_withStats h (s.watched.stats s.watched.current)
      rcases resize_run L uninit hgo hle with ⟨hsmall, rb', hrun, hcopied, hres, _⟩ | ⟨_, hrun⟩
      · cases hrun.symm.trans hdone
        refine ⟨?_, rfl, rfl, rfl, rfl, rfl, hcopied.holds h' hgo.onePiece hres⟩
        have hclear := hgo.clear
        simp only [RingBuffer.allclear, Bool.and_eq_true, Bool.not_eq_true', beq_iff_eq] at hclear
        obtain ⟨⟨hproducer, hconsumer⟩, hsize⟩ := hclear
        have hone : (s.rb.buffer.readPt.a : Nat) < s.rb.buffer.writePt.a :=
          of_decide_eq_true hgo.onePiece
        have hpopFlag : s.rb.buffer.threadAccess.flag .pop = false :=
          ThreadAccess.consumerWhole_eq_false hconsumer rfl
        refine ⟨⟨hsmall, hgo.resizeable, hgo.isOpen, ?_, hsize, by omega⟩, ?_, .inl hin⟩
        · intro k hk
          rcases List.mem_cons.mp hk with rfl | hk
          · exact ThreadAccess.producerWhole_eq_false hproducer rfl
          · rcases List.mem_cons.mp hk with rfl | hk
            · exact ThreadAccess.producerWhole_eq_false hproducer rfl
            · rcases List.mem_cons.mp hk with rfl | hk
              · exact ThreadAccess.consumerWhole_eq_false hconsumer rfl
              · rw [List.mem_singleton.mp hk]
                exact ThreadAccess.consumerWhole_eq_false hconsumer rfl
        · rw [hpopFlag, if_neg (by simp), queued_of_holds h]
          -- with no entry the two indices would be equal
          by_contra hnone
          have hempty : es.length = 0 := by omega
          have hpos := h.pos
          rw [hempty, Nat.add_zero] at hpos
          have : (s.rb.buffer.writePt.a : Nat) = s.rb.buffer.readPt.a := by
            rw [← Pointer.pos_mod, ← Pointer.pos_mod, hpos]
          omega
      · cases hrun.symm.trans hdone

/-- What the monitor finds: eight tenths or more, of a count that is not zero. -/
def Hit (s : Monitored T) : Prop :=
  s.seen.count ≠ 0 ∧ 8 * s.seen.count.toNat ≤ 10 * s.seen.blocked.toNat

/-- A round of the monitor. Whatever it finds, it zeroes. -/
theorem monFunc_cases (s : Monitored T) :
    (s.fixedBufferSize ≠ 0 ∧ s.monFunc = s) ∨
    (s.fixedBufferSize = 0 ∧ s.Hit ∧ s.monFunc =
      { s with watched := s.watched.getFracWriteBlocked.2, sizeMap := s.sizeMap + 1,
               inResize := decide (2 < s.sizeMap) }) ∨
    (s.fixedBufferSize = 0 ∧ ¬s.Hit ∧
      s.monFunc = { s with watched := s.watched.getFracWriteBlocked.2 }) := by
  by_cases hfixed : s.fixedBufferSize = 0
  · right
    have hcount : s.seen.count = 0 ↔ s.seen.count.toNat = 0 := by
      rw [← UInt32.toNat_inj]
      rfl
    have hblocked : s.seen.blocked = 0 ↔ s.seen.blocked.toNat = 0 := by
      rw [← UInt32.toNat_inj]
      rfl
    by_cases hzero : s.seen.blocked = 0 ∨ s.seen.count = 0
    · have hnone : ¬s.Hit := by
        rintro ⟨hc, hb⟩
        rcases hzero with hzero | hzero
        · rw [hblocked] at hzero
          rw [Ne, hcount] at hc
          omega
        · exact hc hzero
      refine .inr ⟨hfixed, hnone, ?_⟩
      simp only [monFunc, hfixed, Watched.getFracWriteBlocked, hzero]
      simp
    · have hhit : s.Hit ↔ 8 * s.seen.count.toNat ≤ 10 * s.seen.blocked.toNat :=
        ⟨And.right, fun h => ⟨fun hc => hzero (.inr hc), h⟩⟩
      by_cases hle : 8 * s.seen.count.toNat ≤ 10 * s.seen.blocked.toNat
      · refine .inl ⟨hfixed, hhit.mpr hle, ?_⟩
        simp only [monFunc, hfixed, Watched.getFracWriteBlocked, hzero, hle, ne_eq,
          not_true_eq_false, if_false, if_true]
      · refine .inr ⟨hfixed, fun h => hle (hhit.mp h), ?_⟩
        simp only [monFunc, hfixed, Watched.getFracWriteBlocked, hzero, hle, ne_eq,
          not_true_eq_false, if_false]
  · refine .inl ⟨hfixed, ?_⟩
    simp [monFunc, hfixed]

/-- The monitor's look leaves nothing to see. -/
theorem seen_zeroed (s : Monitored T) :
    ({ s with watched := s.watched.getFracWriteBlocked.2 } : Monitored T).seen = {} := by
  simp [seen, Watched.getFracWriteBlocked]

/-- A call of `resize` that comes to no end leaves the queue as it was, but for its own flag, and the
monitor goes on in it or starts to count again. -/
theorem step_retry (hstep : Step L n s .retry t) : s.inResize = true ∧
    ∃ rb, (rb = s.rb ∨ rb = { s.rb with resizing := false }) ∧
      (t = { s with watched := { s.watched with session := { s.watched.session with rb := rb } } } ∨
        t = s.returned { s.watched with session := { s.watched.session with rb := rb } }) := by
  cases hstep with
  | again hin hle uninit hrun => exact ⟨hin, _, .inr (Watched.resize_waits (.inl hrun)).1, .inl rfl⟩
  | cancelled hin hle uninit hrun => exact ⟨hin, _, .inr (Watched.resize_waits (.inr hrun)).1, .inr rfl⟩
  | notResizeable hin hle uninit hrun => exact ⟨hin, _, .inl rfl, .inr rfl⟩

/-! ## What a run without a resize keeps -/

theorem copyable_after {r : Session T s.watched.cap}
    (hframe : RingBuffer.Frame (Watched.withStats s.watched.session s.watched.cached).rb r.rb) :
    Copyable L { s with watched := s.watched.after r } ↔ Copyable L s := by
  obtain ⟨hwrite, _, _, hopen, hext, _, hsize, hidle⟩ := hframe
  have hindex : r.rb.buffer.writePt = s.rb.buffer.writePt := hwrite
  constructor
  · rintro ⟨hsmall, hext', hopen', hidle', hsize', hwrite'⟩
    refine ⟨hsmall, hext ▸ hext', hopen ▸ hopen', ?_, hsize ▸ hsize', ?_⟩
    · exact fun k hk => (hidle k hk).symm.trans (hidle' k hk)
    · rw [← hindex]
      exact hwrite'
  · rintro ⟨hsmall, hext', hopen', hidle', hsize', hwrite'⟩
    refine ⟨hsmall, hext.trans hext', hopen.trans hopen', ?_, hsize.trans hsize', ?_⟩
    · exact fun k hk => (hidle k hk).trans (hidle' k hk)
    · show (r.rb.buffer.writePt.a : Nat) ≠ 0
      rw [hindex]
      exact hwrite'

theorem toNat_pos {n : UInt32} (hn : n ≠ 0) : 0 < n.toNat := by
  refine Nat.pos_of_ne_zero fun hz => hn ?_
  rw [← UInt32.toNat_inj]
  exact hz

/-- A blocked pass counts where the reference points. -/
theorem seen_wait {r : Session T s.watched.cap}
    (hframe : RingBuffer.Waited (Watched.withStats s.watched.session s.watched.cached).rb r.rb) :
    ({ s with watched := s.watched.after r } : Monitored T).seen =
      if s.watched.writeStats = s.watched.current then s.seen.noted else s.seen := by
  refine (Watched.after_seen s.watched r).trans ?_
  split
  · next hfresh =>
    rw [hframe.writeStats]
    show (s.watched.stats s.watched.writeStats).write.noted = _
    rw [hfresh]
  · rfl

/-- If that can still be a hit, it could be one before, -/
theorem Hits.before_wait {r : Session T s.watched.cap}
    (hframe : RingBuffer.Waited (Watched.withStats s.watched.session s.watched.cached).rb r.rb)
    (h : Hits { s with watched := s.watched.after r }) : Hits s := by
  obtain ⟨hcount, hratio⟩ := h
  have hseen := seen_wait hframe
  by_cases hfresh : s.watched.writeStats = s.watched.current
  · rw [if_pos hfresh] at hseen
    rw [hseen] at hcount hratio
    by_cases hzero : s.seen.blocked = 0
    · -- the mark has just gone up
      rw [Blocked.noted, if_pos hzero] at hcount hratio
      refine ⟨hcount, .inr ⟨hfresh, hzero, ?_⟩⟩
      rcases hratio with hratio | ⟨_, hup, _⟩
      · have hone : (1 : UInt32).toNat = 1 := rfl
        simp only [hone] at hratio
        have hpos : 0 < s.seen.count.toNat := toNat_pos hcount
        omega
      · cases hup
    · rw [Blocked.noted, if_neg hzero] at hcount hratio
      refine ⟨hcount, .inl ?_⟩
      rcases hratio with hratio | ⟨_, hup, _⟩
      · exact hratio
      · exact absurd hup hzero
  · rw [if_neg hfresh] at hseen
    rw [hseen] at hcount hratio
    exact ⟨hcount, hratio.imp id fun hmark => absurd hmark.1 hfresh⟩

/-- and if it could be one before, it is one now. -/
theorem Hits.after_wait {r : Session T s.watched.cap}
    (hframe : RingBuffer.Waited (Watched.withStats s.watched.session s.watched.cached).rb r.rb)
    (h : Hits s) : Hit { s with watched := s.watched.after r } := by
  obtain ⟨hcount, hratio⟩ := h
  unfold Hit
  rw [seen_wait hframe]
  split
  · by_cases hzero : s.seen.blocked = 0
    · rw [Blocked.noted, if_pos hzero]
      refine ⟨hcount, ?_⟩
      rcases hratio with hratio | ⟨_, _, hratio⟩
      · rw [hzero] at hratio
        have hz : (0 : UInt32).toNat = 0 := rfl
        have hpos : 0 < s.seen.count.toNat := toNat_pos hcount
        omega
      · have hone : (1 : UInt32).toNat = 1 := rfl
        show 8 * s.seen.count.toNat ≤ 10 * (1 : UInt32).toNat
        omega
    · rw [Blocked.noted, if_neg hzero]
      refine ⟨hcount, ?_⟩
      rcases hratio with hratio | ⟨_, hdown, _⟩
      · exact hratio
      · exact absurd hdown hzero
  · next hstale =>
    refine ⟨hcount, ?_⟩
    rcases hratio with hratio | ⟨hfresh, _⟩
    · exact hratio
    · exact absurd hfresh hstale

theorem seen_pop {r : Session T s.watched.cap}
    (hframe : RingBuffer.Popped (Watched.withStats s.watched.session s.watched.cached).rb r.rb) :
    ({ s with watched := s.watched.after r } : Monitored T).seen = s.seen := by
  refine (Watched.after_seen s.watched r).trans ?_
  split
  · next hfresh =>
    rw [hframe.writeStats]
    show (s.watched.stats s.watched.writeStats).write = _
    rw [hfresh]
  · rfl

/-- **One step back.** What the monitor can do after a step that is no resize, it could do before: after a
blocked pass of the producer, -/
theorem CanResize.back_wait (h : Holds s.rb es) (hstep : Step L n s .wait t) (ht : CanResize L t) :
    CanResize L s := by
  obtain ⟨hn, r, hframe, rfl⟩ := step_wait h hstep
  have hholds := hframe.holds hframe.readPt (holds_withStats h s.watched.cached)
  have hqueued := queued_of_holds (s := { s with watched := s.watched.after r }) hholds
  obtain ⟨hcopyable, hentries, htrigger⟩ := ht
  refine ⟨(copyable_after hframe.toFrame).mp hcopyable, ?_, ?_⟩
  · rw [hqueued, show ({ s with watched := s.watched.after r } : Monitored T).rb = r.rb from rfl,
      hframe.pop] at hentries
    rw [queued_of_holds h]
    exact hentries
  · refine htrigger.imp id ?_
    exact fun ⟨hfixed, hmap, hhits⟩ => ⟨hfixed, hmap, hhits.before_wait hframe⟩

/-- after a pop, -/
theorem CanResize.back_pop (h : Holds s.rb es) (hstep : Step L n s .pop t) (ht : CanResize L t) :
    CanResize L s := by
  obtain ⟨e, rest, rfl, r, hframe, rfl⟩ := step_pop h hstep
  have hholds := hframe.holds_tail hframe.readPt (holds_withStats h s.watched.cached)
  have hqueued := queued_of_holds (s := { s with watched := s.watched.after r }) hholds
  obtain ⟨hcopyable, hentries, htrigger⟩ := ht
  refine ⟨(copyable_after hframe.toFrame).mp hcopyable, ?_, ?_⟩
  · rw [hqueued, show ({ s with watched := s.watched.after r } : Monitored T).rb = r.rb from rfl,
      hframe.pop, if_neg (by simp)] at hentries
    rw [queued_of_holds h, List.length_cons]
    split <;> omega
  · refine htrigger.imp id ?_
    rintro ⟨hfixed, hmap, hhits⟩
    refine ⟨hfixed, hmap, ?_⟩
    unfold Hits at hhits ⊢
    rwa [seen_pop hframe] at hhits

/-- after a round of the monitor, -/
theorem CanResize.back_monitor (hstep : Step L n s .monitor t) (ht : CanResize L t) : CanResize L s := by
  cases hstep with
  | monitor hidle =>
      rcases monFunc_cases s with ⟨_, hsame⟩ | ⟨hfixed, hhit, hsame⟩ | ⟨hfixed, hmiss, hsame⟩
      · rwa [hsame] at ht
      · rw [hsame] at ht
        obtain ⟨hsmall, hext, hopen, hflags, hsize, hwrite⟩ := ht.copyable
        refine ⟨⟨hsmall, hext, hopen, hflags, hsize, hwrite⟩, ht.entries, .inr ?_⟩
        rcases ht.trigger with hin | ⟨_, _, hcount, _⟩
        · exact ⟨hfixed, of_decide_eq_true hin, hhit.1, .inl hhit.2⟩
        · exact absurd (congrArg Blocked.count (seen_zeroed s)) hcount
      · rw [hsame] at ht
        rcases ht.trigger with hin | ⟨_, _, hcount, _⟩
        · exact absurd (hidle.symm.trans hin) (by simp)
        · exact absurd (congrArg Blocked.count (seen_zeroed s)) hcount

/-- and after it has tried to resize. -/
theorem CanResize.back_retry (hstep : Step L n s .retry t) (ht : CanResize L t) : CanResize L s := by
  obtain ⟨hsmall, hext, hopen, hflags, hsize, hwrite⟩ := ht.copyable
  obtain ⟨hin, rb, rfl | rfl, rfl | rfl⟩ := step_retry hstep <;>
    exact ⟨⟨hsmall, hext, hopen, hflags, hsize, hwrite⟩, ht.entries, .inl hin⟩

theorem CanResize.back {a : Act} (h : Holds s.rb es) (hstep : Step L n s a t) (ha : a ≠ .resized)
    (ht : CanResize L t) : CanResize L s := by
  cases a with
  | resized => exact absurd rfl ha
  | wait => exact ht.back_wait h hstep
  | pop => exact ht.back_pop h hstep
  | monitor => exact ht.back_monitor hstep
  | retry => exact ht.back_retry hstep

/-- A step that is no resize leaves the buffer installed, the references, and a queue that holds some
entries. -/
theorem step_keeps {a : Act} (h : Holds s.rb es) (hstep : Step L n s a t) (ha : a ≠ .resized) :
    t.watched.cap = s.watched.cap ∧ t.watched.writeStats = s.watched.writeStats ∧
      t.watched.current = s.watched.current ∧ ∃ es', Holds t.rb es' := by
  cases a with
  | resized => exact absurd rfl ha
  | wait =>
      obtain ⟨hn, r, hframe, rfl⟩ := step_wait h hstep
      exact ⟨rfl, rfl, rfl, es, hframe.holds hframe.readPt (holds_withStats h _)⟩
  | pop =>
      obtain ⟨e, rest, rfl, r, hframe, rfl⟩ := step_pop h hstep
      exact ⟨rfl, rfl, rfl, rest, hframe.holds_tail hframe.readPt (holds_withStats h _)⟩
  | monitor =>
      cases hstep with
      | monitor hidle =>
          rcases monFunc_cases s with ⟨_, hsame⟩ | ⟨_, _, hsame⟩ | ⟨_, _, hsame⟩ <;> rw [hsame] <;>
            exact ⟨rfl, rfl, rfl, es, h⟩
  | retry =>
      obtain ⟨hin, rb, rfl | rfl, rfl | rfl⟩ := step_retry hstep
      · exact ⟨rfl, rfl, rfl, es, h⟩
      · exact ⟨rfl, rfl, rfl, es, h⟩
      · exact ⟨rfl, rfl, rfl, es, rfl, h.pos, h.bounded, h.items⟩
      · exact ⟨rfl, rfl, rfl, es, rfl, h.pos, h.bounded, h.items⟩

/-! ## No second resize -/

/-- The producer's reference is stale, and the counter has no way to three. -/
structure Spent (s : Monitored T) : Prop where
  holds : ∃ es, Holds s.rb es
  idle : s.inResize = false
  stale : s.watched.writeStats < s.watched.current
  counter : s.sizeMap = 0 ∨ s.sizeMap ≤ 1 ∧ s.seen.count = 0

theorem Spent.seen_after (h : Spent s) (r : Session T s.watched.cap) :
    ({ s with watched := s.watched.after r } : Monitored T).seen = s.seen := by
  refine (Watched.after_seen s.watched r).trans (if_neg ?_)
  have := h.stale
  omega

/-- A spent queue stays spent, and is not resized. -/
theorem Spent.step {a : Act} (h : Spent s) (hstep : Step L n s a t) :
    Spent t ∧ t.watched.cap = s.watched.cap := by
  obtain ⟨es, hes⟩ := h.holds
  have hstale := h.stale
  cases a with
  | resized =>
      cases hstep with
      | resized hin => exact absurd (h.idle.symm.trans hin) (by simp)
  | retry => exact absurd (h.idle.symm.trans (step_retry hstep).1) (by simp)
  | wait =>
      obtain ⟨hcap, hwrite, hcurrent, hholds⟩ := step_keeps hes hstep (by simp)
      obtain ⟨hn, r, _, rfl⟩ := step_wait hes hstep
      exact ⟨⟨hholds, h.idle, hstale, by rw [h.seen_after r]; exact h.counter⟩, rfl⟩
  | pop =>
      obtain ⟨hcap, hwrite, hcurrent, hholds⟩ := step_keeps hes hstep (by simp)
      obtain ⟨e, rest, rfl, r, _, rfl⟩ := step_pop hes hstep
      exact ⟨⟨hholds, h.idle, hstale, by rw [h.seen_after r]; exact h.counter⟩, rfl⟩
  | monitor =>
      obtain ⟨hcap, hwrite, hcurrent, hholds⟩ := step_keeps hes hstep (by simp)
      cases hstep with
      | monitor hidle =>
          refine ⟨⟨hholds, ?_, by omega, ?_⟩, hcap⟩
          · rcases monFunc_cases s with ⟨_, hsame⟩ | ⟨_, hhit, hsame⟩ | ⟨_, _, hsame⟩
            · rw [hsame]
              exact h.idle
            · rw [hsame]
              rcases h.counter with hzero | ⟨hone, _⟩
              · simp [hzero]
              · exact decide_eq_false (by omega)
            · rw [hsame]
              exact h.idle
          · rcases monFunc_cases s with ⟨_, hsame⟩ | ⟨_, hhit, hsame⟩ | ⟨_, _, hsame⟩
            · rw [hsame]
              exact h.counter
            · rw [hsame]
              refine .inr ⟨?_, congrArg Blocked.count (seen_zeroed s)⟩
              rcases h.counter with hzero | ⟨_, hnone⟩
              · show s.sizeMap + 1 ≤ 1
                omega
              · exact absurd hnone hhit.1
            · rw [hsame]
              refine h.counter.imp id ?_
              rintro ⟨hone, _⟩
              exact ⟨hone, congrArg Blocked.count (seen_zeroed s)⟩

theorem Spent.run {acts : List Act} (hrun : Run (Step L n) s acts t) :
    Spent s → Spent t ∧ t.watched.cap = s.watched.cap := by
  induction hrun with
  | nil s => exact fun h => ⟨h, rfl⟩
  | cons hl _ ih =>
      intro h
      obtain ⟨hm, hcap⟩ := h.step hl
      obtain ⟨ht, hcap'⟩ := ih hm
      exact ⟨ht, hcap'.trans hcap⟩

/-- A resize leaves the queue spent. -/
theorem spent_of_resized (h : Holds s.rb es) (hnamed : s.watched.writeStats ≤ s.watched.current)
    (hstep : Step L n s .resized t) : Spent t := by
  obtain ⟨_, _, hidle, hmap, hwrite, hcurrent, hholds⟩ := canResize_of_resized h hstep
  exact ⟨⟨_, hholds⟩, hidle, by omega, .inl hmap⟩

/-! ## What a run reaches -/

/-- **A run** keeps the capacity, or the monitor could resize from the start, and the capacity has
doubled once. -/
theorem cap_of_run {acts : List Act} (hrun : Run (Step L n) s acts t) :
    (∃ es, Holds s.rb es) → s.watched.writeStats ≤ s.watched.current →
      (∃ es, Holds t.rb es) ∧
        (t.watched.cap = s.watched.cap ∨ CanResize L s ∧ t.watched.cap = s.watched.cap * 2) := by
  induction hrun with
  | nil s => exact fun h _ => ⟨h, .inl rfl⟩
  | @cons s m t a acts hl hrest ih =>
      rintro ⟨es, h⟩ hnamed
      by_cases ha : a = .resized
      · subst ha
        obtain ⟨hcan, hcap, _⟩ := canResize_of_resized h hl
        obtain ⟨hspent, hcap'⟩ := Spent.run hrest (spent_of_resized h hnamed hl)
        exact ⟨hspent.holds, .inr ⟨hcan, hcap'.trans hcap⟩⟩
      · obtain ⟨hcap, hwrite, hcurrent, hholds⟩ := step_keeps h hl ha
        obtain ⟨ht, hgrown⟩ := ih hholds (by omega)
        rw [hcap] at hgrown
        exact ⟨ht, hgrown.imp id fun hg => ⟨hg.1.back h hl ha, hg.2⟩⟩

/-- A run with a resize in it starts where the monitor could resize. -/
theorem canResize_of_run {acts : List Act} (hrun : Run (Step L n) s acts t) :
    (∃ es, Holds s.rb es) → .resized ∈ acts → CanResize L s := by
  induction hrun with
  | nil s =>
      intro _ hmem
      cases hmem
  | @cons s m t a acts hl _ ih =>
      rintro ⟨es, h⟩ hmem
      by_cases ha : a = .resized
      · subst ha
        exact (canResize_of_resized h hl).1
      · obtain ⟨_, _, _, hholds⟩ := step_keeps h hl ha
        have hlater : Act.resized ∈ acts := by
          rcases List.mem_cons.mp hmem with heq | hlater
          · exact absurd heq.symm ha
          · exact hlater
        exact (ih hholds hlater).back h hl ha

/-! ## How the monitor gets there -/

/-- The monitor is in `resize`, and only the entries and the consumer's own flag are in its way. -/
structure Primed (L : Layout T) (s : Monitored T) : Prop where
  can : CanResize L s
  inside : s.inResize = true
  left : s.rb.buffer.threadAccess.flag .allocateRange = false

/-- Popping goes on until nothing is left. -/
theorem exists_empty : ∀ (es : List (T × RaftSignal)) {s : Monitored T}, Holds s.rb es →
    ∃ acts t, Run (Step L n) s acts t ∧ Holds t.rb [] ∧ t.watched.cap = s.watched.cap := by
  intro es
  induction es with
  | nil => exact fun {s} h => ⟨[], s, .nil s, h, rfl⟩
  | cons e es ih =>
      intro s h
      obtain ⟨m, hm⟩ := exists_pop (L := L) (n := n) h
      obtain ⟨e', rest, heq, r, hframe, rfl⟩ := step_pop h hm
      obtain ⟨rfl, rfl⟩ := List.cons.inj heq
      have hholds := hframe.holds_tail hframe.readPt (holds_withStats h _)
      obtain ⟨acts, t, hrun, ht, hcap⟩ := ih (s := { s with watched := s.watched.after r }) hholds
      exact ⟨.pop :: acts, t, .cons hm hrun, ht, hcap⟩

/-- **From a state in which the monitor can resize, it gets into `resize`**: a blocked pass puts the
mark up, and the next round of the monitor finds it. -/
theorem CanResize.primed (h : Holds s.rb es) (hn : ¬n ≤ s.watched.cap - es.length)
    (hcan : CanResize L s) :
    ∃ acts t, Run (Step L n) s acts t ∧ Primed L t ∧ Holds t.rb es ∧
      t.watched.cap = s.watched.cap := by
  obtain ⟨m, hm⟩ := exists_wait (L := L) h hn
  obtain ⟨_, r, hframe, rfl⟩ := step_wait h hm
  have hholds : Holds ({ s with watched := s.watched.after r } : Monitored T).rb es :=
    hframe.holds hframe.readPt (holds_withStats h s.watched.cached)
  have hcopyable := (copyable_after (L := L) hframe.toFrame).mpr hcan.copyable
  have hentries : (if r.rb.buffer.threadAccess.flag .pop then 2 else 1) ≤
      ({ s with watched := s.watched.after r } : Monitored T).queued := by
    rw [queued_of_holds hholds, hframe.pop]
    have := hcan.entries
    rwa [queued_of_holds h] at this
  cases hin : s.inResize with
  | true =>
      exact ⟨[.wait], _, .single hm, ⟨⟨hcopyable, hentries, .inl hin⟩, hin, hframe.left⟩, hholds, rfl⟩
  | false =>
      obtain ⟨hfixed, hmap, hhits⟩ : s.fixedBufferSize = 0 ∧ 2 < s.sizeMap ∧ s.Hits := by
        rcases hcan.trigger with hinside | htrigger
        · exact absurd (hin.symm.trans hinside) (by simp)
        · exact htrigger
      rcases monFunc_cases ({ s with watched := s.watched.after r } : Monitored T) with
        ⟨hbad, _⟩ | ⟨_, _, hmon⟩ | ⟨_, hmiss, _⟩
      · exact absurd hfixed hbad
      · have hround : Step L n { s with watched := s.watched.after r } .monitor _ := .monitor hin
        rw [hmon] at hround
        have hinside : decide (2 < s.sizeMap) = true := decide_eq_true hmap
        obtain ⟨hsmall, hext, hopen, hflags, hsize, hwrite⟩ := hcopyable
        exact ⟨[.wait, .monitor], _, .cons hm (.single hround),
          ⟨⟨⟨hsmall, hext, hopen, hflags, hsize, hwrite⟩, hentries, .inl hinside⟩, hinside,
            hframe.left⟩, hholds, rfl⟩
      · exact absurd (hhits.after_wait hframe) hmiss

/-- **Pops bring the entries into one piece**: one entry is left, and the consumer's flag is down. -/
theorem Primed.down : ∀ (es : List (T × RaftSignal)) {s : Monitored T}, Primed L s → Holds s.rb es →
    ∃ acts t e, Run (Step L n) s acts t ∧ Primed L t ∧ Holds t.rb [e] ∧
      t.rb.buffer.threadAccess.flag .pop = false ∧ t.watched.cap = s.watched.cap := by
  intro es
  induction es with
  | nil =>
      intro s hprimed h
      have hentries := hprimed.can.entries
      rw [queued_of_holds h, List.length_nil] at hentries
      split at hentries <;> omega
  | cons e es ih =>
      intro s hprimed h
      cases es with
      | nil =>
          refine ⟨[], s, e, .nil s, hprimed, h, ?_, rfl⟩
          have hentries := hprimed.can.entries
          rw [queued_of_holds h, List.length_singleton] at hentries
          split at hentries
          · omega
          · next hflag => simpa using hflag
      | cons e₂ es =>
          obtain ⟨m, hm⟩ := exists_pop (L := L) (n := n) h
          obtain ⟨e', rest, heq, r, hframe, rfl⟩ := step_pop h hm
          obtain ⟨rfl, rfl⟩ := List.cons.inj heq
          have hholds : Holds ({ s with watched := s.watched.after r } : Monitored T).rb (e₂ :: es) :=
            hframe.holds_tail hframe.readPt (holds_withStats h _)
          have hprimed' : Primed L { s with watched := s.watched.after r } := by
            refine ⟨⟨(copyable_after hframe.toFrame).mpr hprimed.can.copyable, ?_,
              .inl hprimed.inside⟩, hprimed.inside, hframe.allocateRange.trans hprimed.left⟩
            rw [queued_of_holds hholds,
              show ({ s with watched := s.watched.after r } : Monitored T).rb = r.rb from rfl,
              hframe.pop, if_neg (by simp), List.length_cons]
            omega
          obtain ⟨acts, t, e₃, hrun, ht, hlast, hflag, hcap⟩ := ih hprimed' hholds
          exact ⟨.pop :: acts, t, e₃, .cons hm hrun, ht, hlast, hflag, hcap⟩

/-- **Then the resize comes to its end.** -/
theorem Primed.exists_resized (hprimed : Primed L s) {e : T × RaftSignal} (h : Holds s.rb [e])
    (hflag : s.rb.buffer.threadAccess.flag .pop = false) : ∃ t, Step L n s .resized t := by
  obtain ⟨⟨hsmall, hext, hopen, hflags, hsize, hwrite⟩, _, _⟩ := hprimed.can
  have hcap := NeZero.ne s.watched.cap
  have : NeZero (s.watched.cap * 2) := ⟨by omega⟩
  have hle : s.watched.cap ≤ s.watched.cap * 2 := by omega
  have hgo : GoesThrough
      (Watched.withStats s.watched.session (s.watched.stats s.watched.current)).rb := by
    refine ⟨hext, hopen, ?_, ?_⟩
    · show (!s.rb.buffer.threadAccess.producerWhole && !s.rb.buffer.threadAccess.consumerWhole &&
        s.rb.checkingSize == 0) = true
      simp [ThreadAccess.producerWhole, ThreadAccess.consumerWhole, hflags, hprimed.left, hflag, hsize]
    · -- the one entry lies just before the write index
      apply decide_eq_true
      show (s.rb.buffer.readPt.a : Nat) < s.rb.buffer.writePt.a
      have hpos : s.rb.buffer.writePt.pos = s.rb.buffer.readPt.pos + 1 := h.pos
      have hlt := s.rb.buffer.writePt.a.isLt
      rcases Pointer.turn_cases hpos (by omega) with ⟨_, ha⟩ | ⟨_, ha⟩
      · omega
      · have := s.rb.buffer.readPt.a.isLt
        omega
  rcases resize_run L (fun _ => e.1) hgo hle with ⟨_, rb', hrun, _⟩ | ⟨hlarge, _⟩
  · exact ⟨_, .resized hprimed.inside hle (fun _ => e.1) hrun⟩
  · omega

/-- The way to a resize. -/
theorem CanResize.exists_run (h : Holds s.rb es) (hn : ¬n ≤ s.watched.cap - es.length)
    (hcan : CanResize L s) :
    ∃ acts t, Run (Step L n) s (acts ++ [.resized]) t ∧ Holds t.rb t.rb.contents ∧
      t.watched.cap = s.watched.cap * 2 := by
  obtain ⟨acts₁, t₁, hrun₁, hprimed₁, hholds₁, hcap₁⟩ := hcan.primed h hn
  obtain ⟨acts₂, t₂, e, hrun₂, hprimed₂, hholds₂, hflag, hcap₂⟩ := Primed.down (n := n) es hprimed₁ hholds₁
  obtain ⟨t, hresized⟩ := hprimed₂.exists_resized (n := n) hholds₂ hflag
  obtain ⟨_, hcap, _, _, _, _, hholds⟩ := canResize_of_resized hholds₂ hresized
  refine ⟨acts₁ ++ acts₂, t, (hrun₁.append hrun₂).append (.single hresized), hholds, ?_⟩
  rw [hcap, hcap₂, hcap₁]

/-! ## When the request is met -/

/-- **A way to a resize** there is exactly if the monitor can still resize. -/
theorem resizes_iff (hw : Waiting s n) : Resizes L s n ↔ CanResize L s := by
  constructor
  · rintro ⟨acts, t, hrun⟩
    exact canResize_of_run hrun hw.holds (by simp)
  · intro hcan
    obtain ⟨es, h⟩ := hw.holds
    have hshort := hw.short
    rw [queued_of_holds h] at hshort
    obtain ⟨acts, t, hrun, _⟩ := hcan.exists_run h hshort
    exact ⟨acts, t, hrun⟩

/-- **A way to enough room** there is exactly if the capacity is enough, or twice the capacity is and
the monitor can still resize. -/
theorem grows_iff (hw : Waiting s n) :
    Grows L s n ↔ n ≤ s.watched.cap ∨ n ≤ s.watched.cap * 2 ∧ CanResize L s := by
  constructor
  · rintro ⟨acts, t, m, hrun, hspace, hm⟩
    obtain ⟨⟨es, ht⟩, hcap⟩ := cap_of_run hrun hw.holds hw.named
    have hspace' := (EStateM.Result.ok.inj (hspace.symm.trans (RingBuffer.spaceAvail_run ht))).1
    rcases hcap with hcap | ⟨hcan, hcap⟩
    · exact .inl (by omega)
    · exact .inr ⟨by omega, hcan⟩
  · obtain ⟨es, h⟩ := hw.holds
    have hshort := hw.short
    rw [queued_of_holds h] at hshort
    rintro (hn | ⟨hn, hcan⟩)
    · obtain ⟨acts, t, hrun, ht, hcap⟩ := exists_empty (L := L) (n := n) es h
      refine ⟨acts, t, _, hrun, RingBuffer.spaceAvail_run ht, ?_⟩
      rw [hcap]
      exact hn
    · obtain ⟨acts₁, t₁, hrun₁, hholds₁, hcap₁⟩ := hcan.exists_run h hshort
      obtain ⟨acts₂, t, hrun₂, ht, hcap₂⟩ := exists_empty (L := L) (n := n) _ hholds₁
      refine ⟨_, t, _, hrun₁.append hrun₂, RingBuffer.spaceAvail_run ht, ?_⟩
      rw [hcap₂, hcap₁]
      exact hn

/-- **A growing request.** When there is a way to enough room, and when there is one to a resize. -/
theorem growing_request_iff (hw : Waiting s n) :
    (Grows L s n ↔ n ≤ s.watched.cap ∨ n ≤ s.watched.cap * 2 ∧ CanResize L s) ∧
      (Resizes L s n ↔ CanResize L s) :=
  ⟨grows_iff hw, resizes_iff hw⟩

local instance twoPlaces : NeZero 2 := ⟨by decide⟩

/-- One word in two places, counted once since the monitor last looked, and three hits before. -/
def oneOfTwo : Monitored UInt32 where
  watched := {
    cap := 2
    capPos := inferInstance
    session := { rb := RingBuffer.pushed 5 RaftSignal.none (RingBuffer.init fun _ => 0) }
    stats := fun _ => { write := { count := 1 } } }
  sizeMap := 3

theorem holds_oneOfTwo : Holds oneOfTwo.rb [(5, RaftSignal.none)] :=
  RingBuffer.holds_pushed (Holds.init _) (by decide) 5 _

/-- Its producer gets four places. -/
theorem growing_request_iff_oneOfTwo : Grows Layout.u32 oneOfTwo 4 := by
  have hqueued := queued_of_holds holds_oneOfTwo
  have hwaiting : Waiting oneOfTwo 4 := by
    refine ⟨⟨_, holds_oneOfTwo⟩, ?_, le_refl _⟩
    rw [hqueued]
    decide
  have hcan : CanResize Layout.u32 oneOfTwo := by
    refine ⟨⟨by decide, rfl, rfl, by decide, rfl, by decide⟩, ?_, .inr ⟨rfl, by decide, ?_⟩⟩
    · rw [hqueued]
      decide
    · exact ⟨by decide, .inr ⟨rfl, rfl, rfl⟩⟩
  exact (growing_request_iff hwaiting).1.mpr (.inr ⟨by decide, hcan⟩)

/-- The first call on a queue of one place asks for two. The queue is empty, so it is never resized,
and the producer waits for ever. -/
theorem growing_request_stuck :
    ∃ s : Monitored UInt32, Run (Step Layout.u32 2) (init 1 fun _ => 0) [.wait] s ∧
      ¬Grows Layout.u32 s 2 ∧ ¬Resizes Layout.u32 s 2 := by
  have hempty : Holds (init (T := UInt32) 1 fun _ => 0).rb [] := Holds.init _
  obtain ⟨s, hstep⟩ := exists_wait (L := Layout.u32) (n := 2) hempty (by decide)
  obtain ⟨_, r, hframe, rfl⟩ := step_wait hempty hstep
  refine ⟨_, .single hstep, ?_⟩
  have hholds := hframe.holds hframe.readPt (holds_withStats hempty _)
  have hqueued := queued_of_holds
    (s := { init (T := UInt32) 1 fun _ => 0 with watched := (Watched.init 1 fun _ => 0).after r })
    hholds
  have hwaiting : Waiting
      { init (T := UInt32) 1 fun _ => 0 with watched := (Watched.init 1 fun _ => 0).after r } 2 := by
    refine ⟨⟨_, hholds⟩, ?_, le_refl _⟩
    rw [hqueued]
    show ¬2 ≤ 1 - 0
    decide
  have hstuck : ¬CanResize Layout.u32
      { init (T := UInt32) 1 fun _ => 0 with watched := (Watched.init 1 fun _ => 0).after r } := by
    intro hcan
    have hentries := hcan.entries
    rw [hqueued, List.length_nil] at hentries
    split at hentries <;> omega
  refine ⟨?_, fun h => hstuck ((resizes_iff hwaiting).mp h)⟩
  intro hgrows
  rcases (grows_iff hwaiting).mp hgrows with hcap | ⟨_, hcan⟩
  · exact absurd (show 2 ≤ 1 from hcap) (by decide)
  · exact hstuck hcan

end Monitored

end RaftLib.Queue
