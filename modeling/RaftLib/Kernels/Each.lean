/-
# `RaftLib.Kernels.Each` -- from a container to a container

`readeach` (`readeach.tcc`) sends the items of a container down a queue, `writeeach`
(`writeeach.tcc`) writes what it finds there through a back inserter. `simple_schedule` runs each of
them in a thread that calls `Schedule::kernelRun` until it has set `finished`. The two threads take
turns in any order, one operation on the queue at a time; between two of its operations a thread
stands at a place of its `run()` or of `kernelRun`. An operation that would have to wait is no step:
what waiting changes are access flags and statistics.

`writeeach` writes all it has peeked and then recycles as many, so in between the queue holds items
that are in the container already. `WriterPc.ahead` counts them.
-/
import RaftLib.Logic.Steps
import RaftLib.Queue.Contents

namespace RaftLib.Kernels

open RaftLib.Logic.Ring
open RaftLib.Logic.Steps
open RaftLib.Queue

variable {T : Type} {cap : Nat}

/-! ## The two threads -/

/-- Where the thread of `readeach` stands: in the loop of `run()`, then in `kernelRun` after it. -/
inductive ReaderPc (cap : Nat) where
  | allocate
  | assign (i : Fin cap)
  | send
  | invalidate
  | done
  deriving DecidableEq, Repr

/-- Where the thread of `writeeach` stands: in `kernelRun`, whose second call of `kernelHasInputData`
is told from the first by `again`, or in `run()`. `copy` holds the read index that the peeked range
was made with, the number of items in it, and the index of the next. -/
inductive WriterPc (cap : Nat) where
  | loop
  | data (again : Bool)
  | size
  | peek (availData : Nat)
  | copy (crp : Fin cap) (availData index : Nat)
  | recycle (range : Nat)
  | unpeek
  | ports
  | closing
  | ended
  | failed (stop : Stop)
  deriving DecidableEq, Repr

/-- The queue between the two, what `[ begin, end )` of `readeach` has left, and what the inserter of
`writeeach` has got. -/
structure Each (T : Type) (cap : Nat) where
  queue : RingBuffer T cap
  todo : List T
  reader : ReaderPc cap := .allocate
  writer : WriterPc cap := .loop
  finished : Bool := false
  written : List T := []

namespace Each

inductive Act where
  | reader | writer
  deriving DecidableEq, Repr

def init [NeZero cap] (items : List T) (uninit : Fin cap → T) : Each T cap :=
  { queue := RingBuffer.init uninit, todo := items }

/-- The next operation of `readeach`. Its `run()` ends with `stop`, for which `kernelRun` invalidates
the output and sets `finished`; a kernel without input ports is never at the end of its input. -/
def readerStep (s : Each T cap) : Option (Each T cap) :=
  match s.reader, s.todo with
  | .allocate, [] => some { s with reader := .invalidate }
  | .allocate, _ :: _ =>
      match RingBuffer.localAllocate.run s.queue with
      | .ok i rb => some { s with queue := rb, reader := .assign i }
      | .error _ _ => none
  | .assign i, v :: rest =>
      some { s with queue := RingBuffer.putStore i v s.queue, todo := rest, reader := .send }
  | .assign _, [] => none
  | .send, _ =>
      match (RingBuffer.send RaftSignal.none).run s.queue with
      | .ok _ rb => some { s with queue := rb, reader := .allocate }
      | .error _ _ => none
  | .invalidate, _ =>
      match RingBuffer.invalidate.run s.queue with
      | .ok _ rb => some { s with queue := rb, reader := .done }
      | .error _ _ => none
  | .done, _ => none

/-- What `kernelRun` goes on with once `kernelHasInputData` has returned. -/
def answer (again : Bool) : Bool → WriterPc cap
  | true => if again then .loop else .size
  | false => if again then .closing else .ports

/-- The writer goes on at `pc`, an exception ends it, and a call that waits is no step. -/
def after {α : Type} (s : Each T cap) (r : EStateM.Result Stop (RingBuffer T cap) α)
    (pc : α → WriterPc cap) : Option (Each T cap) :=
  match r with
  | .ok a rb => some { s with queue := rb, writer := pc a }
  | .error .wait _ => none
  | .error e rb => some { s with queue := rb, writer := .failed e }

/-- The next operation of `writeeach`, whose one input port is the queue. `operator []` checks its
index; of the pair it makes only the item is read. -/
def writerStep [NeZero cap] (s : Each T cap) : Option (Each T cap) :=
  match s.writer with
  | .loop => some { s with writer := if s.finished then .ended else .data false }
  | .data again => s.after (RingBuffer.size.run s.queue) fun n => answer again (decide (0 < n))
  | .size =>
      s.after (RingBuffer.size.run s.queue) fun availData =>
        if availData ≠ 0 then .peek availData else .ports
  | .peek availData =>
      s.after ((RingBuffer.localPeekRange availData).run s.queue) fun crp => .copy crp availData 0
  | .copy crp availData index =>
      if index < availData then
        some { s with
          writer := .copy crp availData (index + 1)
          written := s.written ++ [s.queue.buffer.store (slot cap (index + crp))] }
      else some { s with writer := .recycle availData }
  | .recycle 0 => some { s with writer := .unpeek }
  | .recycle (range + 1) =>
      s.after ((RingBuffer.localRecycle 1).run s.queue) fun _ => .recycle range
  | .unpeek => s.after (RingBuffer.unpeek.run s.queue) fun _ => .ports
  | .ports =>
      s.after (RingBuffer.isInvalid.run s.queue) fun invalid => if invalid then .data true else .loop
  | .closing => some { s with writer := .loop, finished := true }
  | .ended | .failed _ => none

def step [NeZero cap] (s : Each T cap) : Act → Option (Each T cap)
  | .reader => s.readerStep
  | .writer => s.writerStep

end Each

/-! ## What the threads know -/

/-- How many items at the front of the queue have been written already. -/
def WriterPc.ahead : WriterPc cap → Nat
  | .copy _ _ index => index
  | .recycle range => range
  | _ => 0

/-- Is `writeeach` inside a `kernelRun`? -/
def WriterPc.midRun : WriterPc cap → Bool
  | .loop | .ended => false
  | _ => true

/-- What `writeeach` may rely on when the queue holds `es`. -/
def WriterPc.Knows (rb : RingBuffer T cap) (es : List (T × RaftSignal)) : WriterPc cap → Prop
  | .data true => rb.buffer.isValid = false
  | .closing => rb.buffer.isValid = false ∧ es = []
  | .peek availData => availData ≤ es.length
  | .copy crp availData index =>
      crp = rb.buffer.readPt.a ∧ availData ≤ es.length ∧ index ≤ availData
  | .recycle range => range ≤ es.length
  | .failed _ => False
  | .loop | .data false | .size | .unpeek | .ports | .ended => True

/-- What `readeach` may rely on when the queue holds `es`. -/
def ReaderPc.Knows (rb : RingBuffer T cap) (todo : List T) (es : List (T × RaftSignal)) :
    ReaderPc cap → Prop
  | .assign i => es.length < cap ∧ rb.allocateCalled = true ∧ i = rb.buffer.writePt.a
  | .send => es.length < cap ∧ rb.allocateCalled = true
  | .invalidate | .done => todo = []
  | .allocate => True

/-- The item that has its slot and its value, but has not been sent. -/
def ReaderPc.pending (rb : RingBuffer T cap) : ReaderPc cap → List T
  | .send => [rb.buffer.store rb.buffer.writePt.a]
  | _ => []

section

variable {rb rb' : RingBuffer T cap} {es es' : List (T × RaftSignal)} {todo : List T}

/-- The other side may add items as long as the queue is open, and may close it. -/
theorem WriterPc.Knows.mono {pc : WriterPc cap} (h : pc.Knows rb es)
    (hread : rb'.buffer.readPt = rb.buffer.readPt)
    (hvalid : rb.buffer.isValid = false → rb'.buffer.isValid = false)
    (hlen : es.length ≤ es'.length) (hsame : rb.buffer.isValid = false → es' = es) :
    pc.Knows rb' es' := by
  cases pc with
  | data again =>
      cases again with
      | false => trivial
      | true => exact hvalid h
  | closing => exact ⟨hvalid h.1, (hsame h.1).trans h.2⟩
  | peek availData => exact le_trans h hlen
  | copy crp availData index => exact ⟨hread ▸ h.1, h.2.1.trans hlen, h.2.2⟩
  | recycle range => exact le_trans h hlen
  | failed stop => exact h
  | loop | size | unpeek | ports | ended => trivial

/-- What `writeeach` has copied is still queued until it is recycled. -/
theorem WriterPc.Knows.ahead_le {pc : WriterPc cap} (h : pc.Knows rb es) : pc.ahead ≤ es.length := by
  cases pc with
  | copy crp availData index => exact h.2.2.trans h.2.1
  | recycle range => exact h
  | loop | size | data | closing | peek | unpeek | ports | failed | ended => exact Nat.zero_le _

/-- The other side takes items away, and leaves the end where the reader works alone. -/
theorem ReaderPc.Knows.mono {pc : ReaderPc cap} (h : pc.Knows rb todo es)
    (hsame : SameTail rb rb') (hlen : es'.length ≤ es.length) : pc.Knows rb' todo es' := by
  cases pc with
  | assign i =>
      exact ⟨hlen.trans_lt h.1, hsame.allocateCalled.trans h.2.1, by rw [hsame.writePt]; exact h.2.2⟩
  | send => exact ⟨hlen.trans_lt h.1, hsame.allocateCalled.trans h.2⟩
  | allocate | invalidate | done => exact h

theorem ReaderPc.pending_congr {pc : ReaderPc cap} (hsame : SameTail rb rb') :
    pc.pending rb' = pc.pending rb := by
  cases pc with
  | send =>
      unfold ReaderPc.pending
      rw [hsame.store, hsame.writePt]
  | allocate | assign | invalidate | done => rfl

end

/-- After `kernelHasInputData` nothing is ahead, and the thread goes on. -/
theorem Each.answer_ahead (again found : Bool) :
    (Each.answer again found : WriterPc cap).ahead = 0 ∧
      (Each.answer again found : WriterPc cap) ≠ .ended := by
  cases again <;> cases found <;> exact ⟨rfl, nofun⟩

/-! ## The invariant -/

/-- Written, queued, assigned and still to be sent: together the items of the container. -/
structure Each.Inv [NeZero cap] (items : List T) (s : Each T cap) (es : List (T × RaftSignal)) :
    Prop where
  holds : Holds s.queue es
  items : items =
    s.written ++ ((es.drop s.writer.ahead).map Prod.fst ++ (s.reader.pending s.queue ++ s.todo))
  reader : s.reader.Knows s.queue s.todo es
  writer : s.writer.Knows s.queue es
  closed : s.queue.buffer.isValid = false → s.reader = .done
  finished : s.finished = true →
    (s.writer = .loop ∨ s.writer = .ended) ∧ s.queue.buffer.isValid = false ∧ es = []
  ended : s.writer = .ended → s.finished = true

namespace Each.Inv

variable [NeZero cap] {items : List T} {s t : Each T cap} {es es' : List (T × RaftSignal)}

theorem init (items : List T) (uninit : Fin cap → T) : Inv items (Each.init items uninit) [] where
  holds := Holds.init uninit
  items := rfl
  reader := trivial
  writer := trivial
  closed h := nomatch h
  finished h := nomatch h
  ended h := nomatch h

/-! ### `readeach` -/

/-- The queue is open until `readeach` is done. -/
theorem isOpen (h : Inv items s es) (hopen : s.reader ≠ .done) : s.queue.buffer.isValid ≠ false :=
  fun hv => hopen (h.closed hv)

/-- A step of `readeach` on an open queue that leaves its front alone. -/
theorem moveReader (h : Inv items s es) (hopen : s.reader ≠ .done) {rb : RingBuffer T cap}
    {todo : List T} {pc : ReaderPc cap} (hholds : Holds rb es')
    (hread : rb.buffer.readPt = s.queue.buffer.readPt) (hlen : es.length ≤ es'.length)
    (hitems : (es'.drop s.writer.ahead).map Prod.fst ++ (pc.pending rb ++ todo) =
      (es.drop s.writer.ahead).map Prod.fst ++ (s.reader.pending s.queue ++ s.todo))
    (hknows : pc.Knows rb todo es') (hclosed : rb.buffer.isValid = false → pc = .done) :
    Inv items { s with queue := rb, todo := todo, reader := pc } es' := by
  have hvalid := h.isOpen hopen
  refine ⟨hholds, ?_, hknows, ?_, hclosed, fun hf => ?_, h.ended⟩
  · show items = s.written ++ ((es'.drop s.writer.ahead).map Prod.fst ++ (pc.pending rb ++ todo))
    rw [hitems]
    exact h.items
  · exact h.writer.mono hread (fun hv => absurd hv hvalid) hlen fun hv => absurd hv hvalid
  · exact absurd (h.finished hf).2.1 hvalid

theorem readerStep (h : Inv items s es) (hs : s.readerStep = some t) : ∃ es', Inv items t es' := by
  have hknows := h.reader
  unfold Each.readerStep at hs
  split at hs
  · next hpc htodo =>
      -- the range is used up: only `invalidate` is left
      cases hs
      have hopen : s.reader ≠ .done := by rw [hpc]; nofun
      refine ⟨es, h.moveReader hopen h.holds rfl le_rfl ?_ htodo fun hv => absurd hv (h.isOpen hopen)⟩
      rw [hpc]
      rfl
  · next v rest hpc htodo =>
      -- `allocate`, which waits in a full queue
      by_cases hroom : es.length < cap
      · rw [RingBuffer.localAllocate_run h.holds hroom] at hs
        cases hs
        have hopen : s.reader ≠ .done := by rw [hpc]; nofun
        refine ⟨es, h.moveReader hopen (RingBuffer.holds_allocated h.holds) rfl le_rfl ?_
          ⟨hroom, rfl, rfl⟩ fun hv => absurd hv (h.isOpen hopen)⟩
        rw [hpc]
        rfl
      · obtain ⟨rb', hfull⟩ := RingBuffer.localAllocate_full h.holds hroom
        rw [hfull] at hs
        cases hs
  · next i v rest hpc htodo =>
      -- the item is written to its slot; the queue does not hold it yet
      cases hs
      have hopen : s.reader ≠ .done := by rw [hpc]; nofun
      rw [hpc] at hknows
      obtain ⟨hroom, hcalled, rfl⟩ := hknows
      refine ⟨es, h.moveReader hopen (RingBuffer.holds_putStore h.holds hroom v) rfl le_rfl ?_
        ⟨hroom, hcalled⟩ fun hv => absurd hv (h.isOpen hopen)⟩
      rw [hpc, htodo]
      simp [ReaderPc.pending, RingBuffer.putStore]
  · cases hs
  · next hpc =>
      -- `send`, after which it does
      rw [hpc] at hknows
      obtain ⟨hroom, hcalled⟩ := hknows
      rw [RingBuffer.send_run hcalled] at hs
      cases hs
      have hopen : s.reader ≠ .done := by rw [hpc]; nofun
      refine ⟨_, h.moveReader hopen (RingBuffer.holds_sent h.holds hroom _) rfl ?_ ?_ trivial
        fun hv => absurd hv (h.isOpen hopen)⟩
      · simp
      · rw [List.drop_append_of_le_length h.writer.ahead_le, hpc]
        simp [ReaderPc.pending]
  · next hpc =>
      -- `invalidate`
      rw [hpc] at hknows
      cases hs
      refine ⟨es, h.moveReader (by rw [hpc]; nofun)
        ⟨h.holds.running, h.holds.pos, h.holds.bounded, h.holds.items⟩ rfl le_rfl ?_ hknows
        fun _ => rfl⟩
      rw [hpc]
      rfl
  · cases hs

/-! ### `writeeach` -/

/-- A step of `writeeach` that leaves the back of the queue alone. -/
theorem moveWriter (h : Inv items s es) (hfin : s.finished = false) {rb : RingBuffer T cap}
    {pc : WriterPc cap} {written : List T} (hholds : Holds rb es') (hsame : SameTail s.queue rb)
    (hlen : es'.length ≤ es.length)
    (hitems : written ++ (es'.drop pc.ahead).map Prod.fst =
      s.written ++ (es.drop s.writer.ahead).map Prod.fst)
    (hknows : pc.Knows rb es') (hend : pc ≠ .ended) :
    Inv items { s with queue := rb, writer := pc, written := written } es' := by
  refine ⟨hholds, ?_, h.reader.mono hsame hlen, hknows, fun hv => ?_, fun hf => ?_,
    fun he => absurd he hend⟩
  · show items = written ++ ((es'.drop pc.ahead).map Prod.fst ++ (s.reader.pending rb ++ s.todo))
    rw [ReaderPc.pending_congr hsame, ← List.append_assoc, hitems, List.append_assoc]
    exact h.items
  · exact h.closed (hsame.isValid ▸ hv)
  · have : s.finished = true := hf
    rw [hfin] at this
    cases this

/-- The same for a step that only looks at the queue. -/
theorem look (h : Inv items s es) (hfin : s.finished = false) {pc : WriterPc cap}
    (hahead : s.writer.ahead = 0) (hahead' : pc.ahead = 0) (hknows : pc.Knows s.queue es)
    (hend : pc ≠ .ended) : Inv items { s with writer := pc } es :=
  h.moveWriter hfin h.holds (.refl _) le_rfl (by rw [hahead, hahead']) hknows hend

/-- In the middle of a `kernelRun` the flag is not set: only its last step sets it, and the loop reads it
right after. -/
theorem running (h : Inv items s es) (hmid : s.writer.midRun = true) : s.finished = false := by
  by_contra hf
  rcases (h.finished (by simpa using hf)).1 with hpc | hpc
  · rw [hpc] at hmid
    cases hmid
  · rw [hpc] at hmid
    cases hmid

theorem writerStep (h : Inv items s es) (hs : s.writerStep = some t) :
    ∃ es', Inv items t es' := by
  have hknows := h.writer
  have hfin : s.writer.midRun = true → s.finished = false := h.running
  unfold Each.writerStep at hs
  split at hs
  · next hpc =>
      -- the head of the loop in the thread
      cases hs
      by_cases hf : s.finished = true
      · rw [if_pos hf]
        obtain ⟨-, hv, hes⟩ := h.finished hf
        refine ⟨es, h.holds, ?_, h.reader, trivial, h.closed, fun _ => ⟨.inr rfl, hv, hes⟩,
          fun _ => hf⟩
        have hitems := h.items
        rw [hpc] at hitems
        exact hitems
      · rw [if_neg hf]
        exact ⟨es, h.look (by simpa using hf) (by rw [hpc]; rfl) rfl trivial (by simp)⟩
  · next again hpc =>
      -- `hasInputData`, at the start of a `kernelRun` or behind the check of the ports
      rw [hpc] at hknows hfin
      rw [RingBuffer.size_run h.holds] at hs
      cases hs
      obtain ⟨hahead, hend⟩ := @answer_ahead cap again (decide (0 < es.length))
      refine ⟨es, h.look (hfin rfl) (by rw [hpc]; rfl) hahead ?_ hend⟩
      by_cases hn : 0 < es.length
      · simp only [decide_eq_true hn]
        cases again <;> trivial
      · simp only [decide_eq_false hn]
        cases again with
        | false => trivial
        | true => exact ⟨hknows, List.eq_nil_of_length_eq_zero (by omega)⟩
  · next hpc =>
      -- `size`, which decides whether there is anything to peek
      rw [hpc] at hfin
      rw [RingBuffer.size_run h.holds] at hs
      cases hs
      by_cases hn : es.length ≠ 0
      · simp only [if_pos hn]
        exact ⟨es, h.look (hfin rfl) (by rw [hpc]; rfl) rfl le_rfl (by simp)⟩
      · simp only [if_neg hn]
        exact ⟨es, h.look (hfin rfl) (by rw [hpc]; rfl) rfl trivial (by simp)⟩
  · next availData hpc =>
      -- `peek_range`
      rw [hpc] at hknows hfin
      rw [RingBuffer.localPeekRange_run h.holds hknows] at hs
      cases hs
      refine ⟨es, h.moveWriter (hfin rfl) (h.holds.setHelper .peek true)
        (RingBuffer.sameTail_setHelper (by decide) true s.queue) le_rfl (by rw [hpc]; rfl)
        ⟨rfl, hknows, Nat.zero_le _⟩ (by simp)⟩
  · next crp availData index hpc =>
      -- the loop over the range that is peeked
      rw [hpc] at hknows hfin
      obtain ⟨rfl, hle, hindex⟩ := hknows
      split at hs
      · next hlt =>
          cases hs
          have hget : es[index]? = some es[index] := List.getElem?_eq_getElem (by omega)
          have hread := congrArg Prod.fst (h.holds.entryAt hget)
          refine ⟨es, h.moveWriter (hfin rfl) h.holds (.refl _) le_rfl ?_
            ⟨rfl, hle, hlt⟩ (by simp)⟩
          rw [hpc]
          -- the item moves from the front of the rest to the end of what is written
          show s.written ++ [_] ++ (es.drop (index + 1)).map Prod.fst =
            s.written ++ (es.drop index).map Prod.fst
          rw [List.drop_eq_getElem_cons (i := index) (by omega), List.map_cons, List.append_assoc]
          exact congrArg (fun v => s.written ++ (v :: _)) hread
      · cases hs
        refine ⟨es, h.moveWriter (hfin rfl) h.holds (.refl _) le_rfl ?_ hle (by simp)⟩
        rw [hpc, show availData = index by omega]
        rfl
  · next hpc =>
      -- `recycle( 0 )`
      rw [hpc] at hfin
      cases hs
      exact ⟨es, h.look (hfin rfl) (by rw [hpc]; rfl) rfl trivial (by simp)⟩
  · next range hpc =>
      -- one turn of the loop in `recycle`
      rw [hpc] at hknows hfin
      cases es with
      | nil => exact absurd hknows (by simp [WriterPc.Knows])
      | cons e es =>
          rw [RingBuffer.localRecycle_succ h.holds] at hs
          cases hs
          refine ⟨es, h.moveWriter (hfin rfl) (RingBuffer.holds_recycledOne h.holds)
            (RingBuffer.sameTail_recycledOne s.queue) (Nat.le_succ _) ?_
            (Nat.le_of_succ_le_succ hknows) (by simp)⟩
          rw [hpc]
          rfl
  · next hpc =>
      -- the destructor of the range
      rw [hpc] at hfin
      cases hs
      exact ⟨es, h.moveWriter (hfin rfl) (h.holds.setHelper .peek false)
        (RingBuffer.sameTail_setHelper (by decide) false s.queue) le_rfl (by rw [hpc]; rfl) trivial (by simp)⟩
  · next hpc =>
      -- is the port closed?
      rw [hpc] at hfin
      rw [RingBuffer.isInvalid_run] at hs
      cases hs
      cases hv : s.queue.buffer.isValid with
      | true => exact ⟨es, h.look (hfin rfl) (by rw [hpc]; rfl) rfl trivial (by simp)⟩
      | false => exact ⟨es, h.look (hfin rfl) (by rw [hpc]; rfl) rfl hv (by simp)⟩
  · next hpc =>
      -- the last step of a `kernelRun` sets the flag
      rw [hpc] at hknows
      cases hs
      refine ⟨es, h.holds, ?_, h.reader, trivial, h.closed, fun _ => ⟨.inl rfl, hknows⟩, (by simp)⟩
      have hitems := h.items
      rw [hpc] at hitems
      exact hitems
  · cases hs
  · cases hs

/-- **One operation of either thread.** -/
theorem step {act : Act} (h : Inv items s es) (hs : s.step act = some t) : ∃ es', Inv items t es' := by
  cases act with
  | reader => exact h.readerStep hs
  | writer => exact h.writerStep hs

end Each.Inv

/-! ## Whole runs -/

namespace Each

variable [NeZero cap] {items : List T} {uninit : Fin cap → T} {acts : List Act} {s : Each T cap}

/-- **Whole-stream delivery.** What has been written is always a prefix of the items, no call of
`writeeach` throws, and when its loop has finished everything has been written. -/
theorem delivers (h : Run (ofFun step) (init items uninit) acts s) :
    s.written <+: items ∧ (∀ stop, s.writer ≠ .failed stop) ∧
      (s.finished = true ∨ s.writer = .ended → s.written = items) := by
  obtain ⟨es, hi⟩ : ∃ es, Inv items s es :=
    h.invariant (I := fun s => ∃ es, Inv items s es) (fun _ _ _ ⟨_, hs⟩ hstep => hs.step hstep)
      ⟨[], .init items uninit⟩
  refine ⟨⟨_, hi.items.symm⟩, fun stop hpc => ?_, fun hend => ?_⟩
  · have := hi.writer
    rw [hpc] at this
    exact this
  · have hf : s.finished = true := hend.elim id hi.ended
    obtain ⟨-, hv, rfl⟩ := hi.finished hf
    have hitems := hi.items
    have hreader := hi.reader
    rw [hi.closed hv] at hitems hreader
    rw [hitems, hreader]
    simp [ReaderPc.pending]

/-- Two items through one place, the second sent after the first has been written. -/
def twoItems : List Act :=
  List.replicate 3 .reader ++ List.replicate 10 .writer ++ List.replicate 5 .reader ++
    List.replicate 12 .writer

theorem delivers_two : ∃ s, Run (ofFun step) (init [3, 5] fun _ : Fin 1 => 0) twoItems s ∧
    s.written = [3, 5] := by
  have hexec : (exec step (init [3, 5] fun _ : Fin 1 => 0) twoItems).any
      (fun s => decide (s.finished = true)) = true := by decide +kernel
  obtain ⟨s, hrun, hf⟩ := exists_run_of_any hexec
  exact ⟨s, hrun, (delivers hrun).2.2 (.inl hf)⟩

end Each

end RaftLib.Kernels
