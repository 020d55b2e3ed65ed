/-
# `RaftLib.Queue.FailingReads` -- what a read that throws leaves behind

`pop`, `pop_range`, `peek` and `peek_range` on a closed queue that has too little, for the three ways to
store an element (`ringbufferheap.tcc`). Each of these calls puts its flag in the thread-access record up
before it looks at the queue, and all but one throw without taking it down again: the exception is
`peek_range` on a queue of pointers. A flag that is up keeps every resize out. So a failing read leaves the
queue as it was exactly if the flag was where the call leaves it, and `pop_range` has popped nothing
(`failing_read_iff`).

Nothing is assumed of the queue: the states that can be reached are among those looked at.
-/
import RaftLib.Queue.Bulk
import RaftLib.Queue.Lifetimes

namespace RaftLib.Queue

open RaftLib.Logic.Program

variable {T : Type} {cap : Nat}

/-! ## The calls -/

namespace RingBuffer

/-- `local_peek_range` for an element stored through a pointer: it leaves the buffer before it throws. -/
def localPeekRangeExternal (n : Nat) : Call T cap (Fin cap) := do
  enterBuffer .peek
  if ← notResizing then
    let found ← size
    if n ≤ found then
      let rb ← get
      return rb.buffer.readPt.val
    else
      if ← isInvalid then
        let left ← size
        if left = 0 then
          exitBuffer .peek
          throw .closedPortAccess
        else
          let left ← size
          if left < n then
            exitBuffer .peek
            throw .noMoreData
          else pure ()
      else pure ()
      exitBuffer .peek
      throw .wait
  else
    exitBuffer .peek
    throw .wait

end RingBuffer

/-- `local_pop_range` on a queue of class objects. -/
def ClassBuffer.popRange : Nat → ClassCall cap (List RaftSignal)
  | 0 => pure []
  | n + 1 => do
      let x ← ClassBuffer.pop
      let rest ← popRange n
      return x :: rest

/-- The reads that can throw. -/
inductive Read where
  | pop
  | popRange (n : Nat)
  | peek
  | peekRange (n : Nat)
  deriving DecidableEq, Repr

namespace Read

/-- The call on a queue of inline elements that are not of class type. -/
def exec : Read → Call T cap PUnit
  | .pop => do let _ ← RingBuffer.pop
  | .popRange n => do let _ ← RingBuffer.localPopRange n
  | .peek => do let _ ← RingBuffer.localPeek
  | .peekRange n => do let _ ← RingBuffer.localPeekRange n

/-- On a queue of class objects. -/
def execClass : Read → ClassCall cap PUnit
  | .pop => do let _ ← ClassBuffer.pop
  | .popRange n => do let _ ← ClassBuffer.popRange n
  | .peek => do let _ ← ClassBuffer.peek
  | .peekRange n => do let _ ← ClassBuffer.onRing (RingBuffer.localPeekRange n)

/-- On a queue of pointers, as far as the queue goes. -/
def execExternal : Read → Call Addr cap PUnit
  | .peekRange n => do let _ ← RingBuffer.localPeekRangeExternal n
  | r => r.exec

/-- The flag that the call works under. -/
def key : Read → AccessKey
  | .pop | .popRange _ => .pop
  | .peek | .peekRange _ => .peek

end Read

/-! ## Nothing left behind -/

/-- The call has thrown one of the two exceptions. -/
def Stop.Thrown (e : Stop) : Prop := e = .closedPortAccess ∨ e = .noMoreData

/-- Contents, positions with their wrap counters, validity and flags are the same. -/
structure Unchanged (rb rb' : RingBuffer T cap) : Prop where
  store : rb'.buffer.store = rb.buffer.store
  signal : rb'.buffer.signal = rb.buffer.signal
  readPt : rb'.buffer.readPt = rb.buffer.readPt
  writePt : rb'.buffer.writePt = rb.buffer.writePt
  isValid : rb'.buffer.isValid = rb.buffer.isValid
  threadAccess : rb'.buffer.threadAccess = rb.buffer.threadAccess
  checkingSize : rb'.checkingSize = rb.checkingSize

/-- The flag is up before the call already; and for `pop_range` there is nothing to pop. -/
def Read.LeavesInline (r : Read) (rb : RingBuffer T cap) : Prop :=
  rb.buffer.threadAccess.flag r.key = true ∧ ∀ n, r = .popRange n → rb.buffer.sizeOnce = some 0

/-- For a queue of pointers `peek_range` needs its flag to be down. -/
def Read.LeavesExternal (r : Read) (rb : RingBuffer T cap) : Prop :=
  match r with
  | .peekRange _ => rb.buffer.threadAccess.flag .peek = false
  | r => r.LeavesInline rb

/-! ## The guards -/

section Guards

variable {rb rb' : RingBuffer T cap} {e : Stop}

theorem Stop.Thrown.ne_wait (h : e.Thrown) : e ≠ .wait := by
  rcases h with rfl | rfl <;> decide

namespace RingBuffer

/-- `size` comes back with what a pass finds, or has to wait. -/
theorem size_pass (hrun : rb.resizing = false) : (size : Call T cap Nat).run rb =
    match rb.buffer.sizeOnce with
    | some n => .ok n rb
    | none => .error .wait (setHelper .size true rb) := by
  have hrun' : (setHelper .size true rb).resizing = false := hrun
  have honce : (setHelper .size true rb).buffer.sizeOnce = rb.buffer.sizeOnce := rfl
  cases hs : rb.buffer.sizeOnce with
  | none => simp [size, hrun', honce, hs]
  | some n => simp [size, hrun', honce, hs, setHelper_size]

/-- What the consumers look for: data, the end of a closed queue, or neither. -/
theorem lookForData_pass (hrun : rb.resizing = false) : (lookForData : Call T cap Found).run rb =
    match rb.buffer.sizeOnce with
    | some n => .ok (if 0 < n then .data else if rb.buffer.isValid then .nothing else .closedAndEmpty) rb
    | none => .error .wait (setHelper .size true rb) := by
  have hsize := size_pass hrun
  cases hs : rb.buffer.sizeOnce with
  | none =>
      rw [hs] at hsize
      rw [lookForData, run_bind_of_error hsize]
  | some n =>
      rw [hs] at hsize
      rw [lookForData, run_bind_of_ok hsize]
      by_cases hpos : 0 < n
      · simp [hpos]
      · obtain rfl : n = 0 := Nat.eq_zero_of_not_pos hpos
        cases hv : rb.buffer.isValid with
        | true => simp [hv]
        | false => simp [hv, hsize]

theorem lookForData_stays {found : Found} (h : (lookForData : Call T cap _).run rb = .ok found rb') :
    rb' = rb := by
  cases hrun : rb.resizing with
  | true =>
      have hrun' : (setHelper .size true rb).resizing = true := hrun
      simp [lookForData, size, hrun'] at h
  | false =>
      rw [lookForData_pass hrun] at h
      cases hs : rb.buffer.sizeOnce with
      | none =>
          rw [hs] at h
          cases h
      | some n =>
          rw [hs] at h
          exact (EStateM.Result.ok.inj h).2.symm

/-- **A pass of `pop`.** -/
theorem pop_pass (hrun : rb.resizing = false) : (pop : Call T cap _).run rb =
    match rb.buffer.sizeOnce with
    | some n =>
        if 0 < n then .ok (rb.buffer.entry rb.buffer.readPt.val) (popped rb)
        else .error (if rb.buffer.isValid then .wait else .closedPortAccess) (setHelper .pop true rb)
    | none => .error .wait (setHelper .size true (setHelper .pop true rb)) := by
  have hrun' : (setHelper .pop true rb).resizing = false := hrun
  have hlook := lookForData_pass hrun'
  rw [show (setHelper .pop true rb).buffer.sizeOnce = rb.buffer.sizeOnce from rfl,
    show (setHelper .pop true rb).buffer.isValid = rb.buffer.isValid from rfl] at hlook
  cases hs : rb.buffer.sizeOnce with
  | none =>
      rw [hs] at hlook
      simp [pop, localPop, hrun', hlook]
  | some n =>
      rw [hs] at hlook
      by_cases hpos : 0 < n
      · simp [pop, localPop, hrun', hlook, hpos, popped]
        rfl
      · cases hv : rb.buffer.isValid with
        | true => simp [pop, localPop, hrun', hlook, hpos, hv]
        | false => simp [pop, localPop, hrun', hlook, hpos, hv]

/-- While a resize is going on it goes round again. -/
theorem pop_resizing (hrun : rb.resizing = true) :
    ∃ t, (pop : Call T cap _).run rb = .error .wait t ∧ t.buffer.readPt = rb.buffer.readPt := by
  have hrun' : (setHelper .pop true rb).resizing = true := hrun
  let left := setHelper .pop false (setHelper .pop true rb)
  refine ⟨{ left with buffer := { left.buffer with readStats := left.buffer.readStats.noted } }, ?_, rfl⟩
  simp [pop, localPop, hrun', left]

/-- **What a pass of `pop` can do**: take an entry, throw with its flag left up, or go round again. -/
theorem pop_cases (rb : RingBuffer T cap) :
    (∃ n, rb.buffer.sizeOnce = some (n + 1) ∧ (pop : Call T cap _).run rb =
        .ok (rb.buffer.entry rb.buffer.readPt.val) (popped rb)) ∨
      (rb.buffer.sizeOnce = some 0 ∧
        (pop : Call T cap _).run rb = .error .closedPortAccess (setHelper .pop true rb)) ∨
      ∃ t, (pop : Call T cap _).run rb = .error .wait t ∧ t.buffer.readPt = rb.buffer.readPt := by
  cases hrun : rb.resizing with
  | true => exact .inr (.inr (pop_resizing hrun))
  | false =>
      rw [pop_pass hrun]
      cases hs : rb.buffer.sizeOnce with
      | none => exact .inr (.inr ⟨_, rfl, rfl⟩)
      | some n =>
          cases n with
          | succ n => exact .inl ⟨n, rfl, rfl⟩
          | zero =>
              cases hv : rb.buffer.isValid with
              | true => exact .inr (.inr ⟨_, rfl, rfl⟩)
              | false => exact .inr (.inl ⟨rfl, rfl⟩)

/-- **A `pop` that throws** has found nothing, and leaves its flag up. -/
theorem pop_thrown (he : e.Thrown) (h : (pop : Call T cap _).run rb = .error e rb') :
    rb' = setHelper .pop true rb ∧ rb.buffer.sizeOnce = some 0 := by
  rcases pop_cases rb with ⟨n, -, hok⟩ | ⟨hnone, hthrow⟩ | ⟨t, hwait, -⟩
  · cases h.symm.trans hok
  · exact ⟨(EStateM.Result.error.inj (h.symm.trans hthrow)).2, hnone⟩
  · exact absurd (EStateM.Result.error.inj (h.symm.trans hwait)).1 he.ne_wait

/-- A `pop` that returns has moved the read pointer, one that does not has not. -/
theorem pop_moves {x : T × RaftSignal} (h : (pop : Call T cap _).run rb = .ok x rb') :
    rb'.buffer.readPt = rb.buffer.readPt.inc ∧ ∃ n, rb.buffer.sizeOnce = some (n + 1) := by
  rcases pop_cases rb with ⟨n, hsome, hok⟩ | ⟨-, hthrow⟩ | ⟨t, hwait, -⟩
  · obtain ⟨-, rfl⟩ := EStateM.Result.ok.inj (h.symm.trans hok)
    exact ⟨rfl, n, hsome⟩
  · cases h.symm.trans hthrow
  · cases h.symm.trans hwait

theorem pop_stays (h : (pop : Call T cap _).run rb = .error e rb') :
    rb'.buffer.readPt = rb.buffer.readPt := by
  rcases pop_cases rb with ⟨n, -, hok⟩ | ⟨-, hthrow⟩ | ⟨t, hwait, hread⟩
  · cases h.symm.trans hok
  · obtain ⟨-, rfl⟩ := EStateM.Result.error.inj (h.symm.trans hthrow)
    rfl
  · obtain ⟨-, rfl⟩ := EStateM.Result.error.inj (h.symm.trans hwait)
    exact hread

/-- **So does `peek`.** -/
theorem localPeek_thrown (he : e.Thrown) (h : (localPeek : Call T cap _).run rb = .error e rb') :
    rb' = setHelper .peek true rb := by
  cases hres : rb.resizing with
  | true =>
      have hres' : (setHelper .peek true rb).resizing = true := hres
      simp [localPeek, hres'] at h
      exact absurd h.1.symm he.ne_wait
  | false =>
      have hres' : (setHelper .peek true rb).resizing = false := hres
      have hlook := lookForData_pass hres'
      cases hs : (setHelper .peek true rb).buffer.sizeOnce with
      | none =>
          rw [hs] at hlook
          simp [localPeek, hres', hlook] at h
          exact absurd h.1.symm he.ne_wait
      | some n =>
          rw [hs] at hlook
          by_cases hpos : 0 < n
          · simp [localPeek, hres', hlook, hpos] at h
          · cases hv : (setHelper .peek true rb).buffer.isValid with
            | true =>
                simp [localPeek, hres', hlook, hpos, hv] at h
                exact absurd h.1.symm he.ne_wait
            | false =>
                simp [localPeek, hres', hlook, hpos, hv] at h
                exact h.2.symm

/-- Both `local_peek_range`s: the one differs from the other in what it does where it throws. -/
def peekRangeOr (leave : Call T cap PUnit) (n : Nat) : Call T cap (Fin cap) := do
  enterBuffer .peek
  if ← notResizing then
    let found ← size
    if n ≤ found then
      let rb ← get
      return rb.buffer.readPt.val
    else
      if ← isInvalid then
        let left ← size
        if left = 0 then
          leave
          throw .closedPortAccess
        else
          let left ← size
          if left < n then
            leave
            throw .noMoreData
          else pure ()
      else pure ()
      exitBuffer .peek
      throw .wait
  else
    exitBuffer .peek
    throw .wait

theorem peekRangeOr_thrown {leave : Call T cap PUnit} {f : RingBuffer T cap → RingBuffer T cap}
    (hleave : ∀ s, leave.run s = .ok ⟨⟩ (f s)) {n : Nat} (he : e.Thrown)
    (h : (peekRangeOr leave n).run rb = .error e rb') : rb' = f (setHelper .peek true rb) := by
  cases hres : rb.resizing with
  | true =>
      have hres' : (setHelper .peek true rb).resizing = true := hres
      simp [peekRangeOr, hres'] at h
      exact absurd h.1.symm he.ne_wait
  | false =>
      have hres' : (setHelper .peek true rb).resizing = false := hres
      have hsize := size_pass hres'
      cases hs : (setHelper .peek true rb).buffer.sizeOnce with
      | none =>
          rw [hs] at hsize
          simp [peekRangeOr, hres', hsize] at h
          exact absurd h.1.symm he.ne_wait
      | some found =>
          rw [hs] at hsize
          by_cases hn : n ≤ found
          · simp [peekRangeOr, hres', hsize, hn] at h
          · cases hv : (setHelper .peek true rb).buffer.isValid with
            | true =>
                simp [peekRangeOr, hres', hsize, hn, hv] at h
                exact absurd h.1.symm he.ne_wait
            | false =>
                by_cases hzero : found = 0
                · subst hzero
                  have hn' : n ≠ 0 := fun h => hn (Nat.le_of_eq h)
                  simp [peekRangeOr, hres', hsize, hn', hv, hleave] at h
                  exact h.2.symm
                · simp [peekRangeOr, hres', hsize, hn, hv, hzero, Nat.not_le.mp hn, hleave] at h
                  exact h.2.symm

/-- **And `peek_range`** on an element stored inline, -/
theorem localPeekRange_thrown {n : Nat} (he : e.Thrown)
    (h : (localPeekRange n : Call T cap _).run rb = .error e rb') : rb' = setHelper .peek true rb := by
  have hpure : ∀ s : RingBuffer T cap, (pure ⟨⟩ : Call T cap PUnit).run s = .ok ⟨⟩ (id s) := fun _ => rfl
  exact peekRangeOr_thrown hpure he h

theorem setHelper_peek_peek (rb : RingBuffer T cap) :
    setHelper .peek false (setHelper .peek true rb) = setHelper .peek false rb := by
  simp [setHelper, ThreadAccess.set]

/-- but on an element stored through a pointer it takes the flag down. -/
theorem localPeekRangeExternal_thrown {n : Nat} (he : e.Thrown)
    (h : (localPeekRangeExternal n : Call T cap _).run rb = .error e rb') :
    rb' = setHelper .peek false rb := by
  rw [peekRangeOr_thrown (exitBuffer_run .peek) he h, setHelper_peek_peek]

/-- **A `pop_range` that throws** does so at the first pop, or behind one that has moved the pointer. -/
theorem localPopRange_error {n : Nat} (h : (localPopRange n : Call T cap _).run rb = .error e rb') :
    (pop : Call T cap _).run rb = .error e rb' ∨
      (∃ k, rb.buffer.sizeOnce = some (k + 1)) ∧ rb.buffer.readPt.pos < rb'.buffer.readPt.pos := by
  induction n generalizing rb with
  | zero => cases h
  | succ n ih =>
      cases hpop : (pop : Call T cap _).run rb with
      | error x m =>
          rw [localPopRange, run_bind_of_error hpop] at h
          obtain ⟨rfl, rfl⟩ := EStateM.Result.error.inj h
          exact .inl rfl
      | ok x m =>
          rw [localPopRange, run_bind_of_ok hpop] at h
          obtain ⟨hread, hsome⟩ := pop_moves hpop
          refine .inr ⟨hsome, ?_⟩
          have hpos : m.buffer.readPt.pos = rb.buffer.readPt.pos + 1 := by rw [hread, Pointer.pos_inc]
          cases hrest : (localPopRange n : Call T cap _).run m with
          | ok xs t =>
              rw [run_bind_of_ok hrest] at h
              cases h
          | error x' t =>
              rw [run_bind_of_error hrest] at h
              obtain ⟨rfl, rfl⟩ := EStateM.Result.error.inj h
              rcases ih hrest with hfirst | ⟨-, hlater⟩
              · rw [pop_stays hfirst, hpos]
                exact Nat.lt_succ_self _
              · omega

end RingBuffer

/-! ## What is left behind -/

/-- A flag has been set: that changes the queue unless it was so before. -/
theorem unchanged_setHelper {k : AccessKey} (hk : k ≠ .size) (v : Bool) :
    Unchanged rb (RingBuffer.setHelper k v rb) ↔ rb.buffer.threadAccess.flag k = v := by
  have hset : (RingBuffer.setHelper k v rb).buffer.threadAccess = rb.buffer.threadAccess.set k v := by
    cases k with
    | size => exact absurd rfl hk
    | _ => rfl
  constructor
  · intro h
    rw [← h.threadAccess, hset, ThreadAccess.set_flag_self]
  · intro h
    -- a flag set to what it was leaves the whole record as it was
    have hsame : rb.buffer.threadAccess.set k v = rb.buffer.threadAccess := by
      unfold ThreadAccess.set
      rw [← h, Function.update_eq_self]
    refine ⟨?_, ?_, ?_, ?_, ?_, hset.trans hsame, ?_⟩ <;> cases k <;> first | rfl | exact absurd rfl hk

/-- What a call is worth nothing to its caller, it fails as it would anyway. -/
theorem run_discard_error {ε σ α : Type} {x : EStateM ε σ α} {s t : σ} {e : ε}
    (h : (x >>= fun _ => pure PUnit.unit).run s = .error e t) : x.run s = .error e t := by
  cases hx : x.run s with
  | ok a m =>
      rw [run_bind_of_ok hx] at h
      exact nomatch h
  | error e' m =>
      rw [run_bind_of_error hx] at h
      obtain ⟨rfl, rfl⟩ := EStateM.Result.error.inj h
      rfl

/-- **`pop_range`** on a queue with something to pop moves the read pointer. -/
theorem popRange_unchanged_iff {n : Nat} (he : e.Thrown)
    (h : (RingBuffer.localPopRange n : Call T cap _).run rb = .error e rb') :
    Unchanged rb rb' ↔ rb.buffer.threadAccess.flag .pop = true ∧ rb.buffer.sizeOnce = some 0 := by
  rcases RingBuffer.localPopRange_error h with hfirst | ⟨⟨k, hk⟩, hmoved⟩
  · obtain ⟨rfl, hnone⟩ := RingBuffer.pop_thrown he hfirst
    rw [unchanged_setHelper (by decide)]
    exact ⟨fun hflag => ⟨hflag, hnone⟩, And.left⟩
  · -- what was popped before the throw stays popped
    constructor
    · intro hsame
      rw [hsame.readPt] at hmoved
      exact absurd hmoved (Nat.lt_irrefl _)
    · rintro ⟨-, hnone⟩
      rw [hk] at hnone
      exact nomatch Option.some_inj.mp hnone

/-- **A read of inline elements that throws.** -/
theorem exec_unchanged_iff {r : Read} (he : e.Thrown) (h : r.exec.run rb = .error e rb') :
    Unchanged rb rb' ↔ r.LeavesInline rb := by
  unfold Read.LeavesInline
  cases r with
  | pop =>
      obtain ⟨rfl, -⟩ := RingBuffer.pop_thrown he (run_discard_error h)
      rw [unchanged_setHelper (by decide)]
      exact ⟨fun hflag => ⟨hflag, fun _ heq => nomatch heq⟩, And.left⟩
  | popRange n =>
      rw [popRange_unchanged_iff he (run_discard_error h)]
      exact ⟨fun ⟨hflag, hnone⟩ => ⟨hflag, fun _ _ => hnone⟩, fun ⟨hflag, hnone⟩ => ⟨hflag, hnone n rfl⟩⟩
  | peek =>
      obtain rfl := RingBuffer.localPeek_thrown he (run_discard_error h)
      rw [unchanged_setHelper (by decide)]
      exact ⟨fun hflag => ⟨hflag, fun _ heq => nomatch heq⟩, And.left⟩
  | peekRange n =>
      obtain rfl := RingBuffer.localPeekRange_thrown he (run_discard_error h)
      rw [unchanged_setHelper (by decide)]
      exact ⟨fun hflag => ⟨hflag, fun _ heq => nomatch heq⟩, And.left⟩

/-- **A read of elements behind pointers that throws.** -/
theorem execExternal_unchanged_iff {rb rb' : RingBuffer Addr cap} {r : Read} (he : e.Thrown)
    (h : r.execExternal.run rb = .error e rb') : Unchanged rb rb' ↔ r.LeavesExternal rb := by
  cases r with
  | peekRange n =>
      obtain rfl := RingBuffer.localPeekRangeExternal_thrown he (run_discard_error h)
      exact unchanged_setHelper (by decide) false
  | pop => exact exec_unchanged_iff (r := .pop) he h
  | popRange n => exact exec_unchanged_iff (r := .popRange n) he h
  | peek => exact exec_unchanged_iff (r := .peek) he h

end Guards

/-! ## Class objects -/

namespace ClassBuffer

variable {q q' : ClassBuffer cap} {e : Stop}

/-- `pop` of a class object is that of the queue, with a destructor. -/
theorem pop_eq (q : ClassBuffer cap) : (pop : ClassCall cap _).run q =
    match (RingBuffer.pop : Call PUnit cap _).run q.rb with
    | .ok x rb => .ok x.2 { rb := rb, store := q.store.destroy q.rb.buffer.readPt.val }
    | .error e rb => .error e { q with rb := rb } := by
  have henter := onRing_ok (q := q) (RingBuffer.enterBuffer_run .pop q.rb)
  have hnot := onRing_ok (q := { q with rb := RingBuffer.setHelper .pop true q.rb })
    (RingBuffer.notResizing_run (RingBuffer.setHelper .pop true q.rb))
  rw [RingBuffer.setHelper_resizing] at hnot
  have hnot' := RingBuffer.notResizing_run (RingBuffer.setHelper .pop true q.rb)
  rw [RingBuffer.setHelper_resizing] at hnot'
  rw [pop, run_bind_of_ok henter, run_bind_of_ok hnot, RingBuffer.pop, RingBuffer.localPop,
    run_bind_of_ok (RingBuffer.enterBuffer_run .pop q.rb), run_bind_of_ok hnot']
  cases hrun : q.rb.resizing with
  | true => rfl
  | false =>
      simp only [Bool.not_false, if_true]
      cases hlook : (RingBuffer.lookForData : Call PUnit cap _).run (RingBuffer.setHelper .pop true q.rb) with
      | error e m =>
          rw [run_bind_of_error hlook,
            run_bind_of_error (onRing_error (q := { q with rb := RingBuffer.setHelper .pop true q.rb }) hlook)]
      | ok found m =>
          obtain rfl := RingBuffer.lookForData_stays hlook
          rw [run_bind_of_ok hlook,
            run_bind_of_ok (onRing_ok (q := { q with rb := RingBuffer.setHelper .pop true q.rb }) hlook)]
          cases found with
          | data => rfl
          | closedAndEmpty => rfl
          | nothing => rfl

/-- A `pop_range` that throws does so where that of the queue does; the objects are as they were if there
was nothing to pop. -/
theorem popRange_error {n : Nat} (h : (popRange n : ClassCall cap _).run q = .error e q') :
    (RingBuffer.localPopRange n : Call PUnit cap _).run q.rb = .error e q'.rb ∧
      (q.rb.buffer.sizeOnce = some 0 → q'.store = q.store) := by
  induction n generalizing q with
  | zero => cases h
  | succ n ih =>
      have hpop := pop_eq q
      cases hring : (RingBuffer.pop : Call PUnit cap _).run q.rb with
      | error x m =>
          rw [hring] at hpop
          rw [popRange, run_bind_of_error hpop] at h
          obtain ⟨rfl, rfl⟩ := EStateM.Result.error.inj h
          exact ⟨by rw [RingBuffer.localPopRange, run_bind_of_error hring], fun _ => rfl⟩
      | ok x m =>
          rw [hring] at hpop
          rw [popRange, run_bind_of_ok hpop] at h
          obtain ⟨-, k, hk⟩ := RingBuffer.pop_moves hring
          refine ⟨?_, fun hnone => absurd (Option.some_inj.mp (hk.symm.trans hnone)) (Nat.succ_ne_zero k)⟩
          rw [RingBuffer.localPopRange, run_bind_of_ok hring]
          cases hrest : (popRange n : ClassCall cap _).run
              { rb := m, store := q.store.destroy q.rb.buffer.readPt.val } with
          | ok xs t =>
              rw [run_bind_of_ok hrest] at h
              cases h
          | error x' t =>
              rw [run_bind_of_error hrest] at h
              obtain ⟨rfl, rfl⟩ := EStateM.Result.error.inj h
              exact run_bind_of_error (ih hrest).1

/-- A call that looks at the queue only leaves the objects alone. -/
theorem onRing_thrown {α : Type} {x : Call PUnit cap α} (h : (onRing x).run q = .error e q') :
    x.run q.rb = .error e q'.rb ∧ q'.store = q.store := by
  cases hx : x.run q.rb with
  | ok a m =>
      rw [onRing_ok hx] at h
      exact nomatch h
  | error e' m =>
      rw [onRing_error hx] at h
      obtain ⟨rfl, rfl⟩ := EStateM.Result.error.inj h
      exact ⟨rfl, rfl⟩

/-- A read of class objects fails where the read of other elements would. -/
theorem execClass_error {r : Read} (h : r.execClass.run q = .error e q') :
    (r.exec : Call PUnit cap PUnit).run q.rb = .error e q'.rb ∧
      (r.LeavesInline q.rb → q'.store = q.store) := by
  cases r with
  | pop =>
      have hpop := run_discard_error h
      rw [pop_eq] at hpop
      cases hring : (RingBuffer.pop : Call PUnit cap _).run q.rb with
      | ok x m =>
          rw [hring] at hpop
          exact nomatch hpop
      | error e' m =>
          rw [hring] at hpop
          obtain ⟨rfl, rfl⟩ := EStateM.Result.error.inj hpop
          exact ⟨run_bind_of_error hring, fun _ => rfl⟩
  | popRange n =>
      obtain ⟨hring, hstore⟩ := popRange_error (run_discard_error h)
      exact ⟨run_bind_of_error hring, fun hleaves => hstore (hleaves.2 n rfl)⟩
  | peek =>
      obtain ⟨hring, hstore⟩ := onRing_thrown (run_discard_error h)
      exact ⟨run_bind_of_error hring, fun _ => hstore⟩
  | peekRange n =>
      obtain ⟨hring, hstore⟩ := onRing_thrown (run_discard_error h)
      exact ⟨run_bind_of_error hring, fun _ => hstore⟩

/-- **A read of class objects that throws** leaves the queue as the same read of other elements does,
and the objects with it. -/
theorem execClass_unchanged_iff {r : Read} (he : e.Thrown) (h : r.execClass.run q = .error e q') :
    (Unchanged q.rb q'.rb ∧ q'.store = q.store) ↔ r.LeavesInline q.rb := by
  obtain ⟨hring, hstore⟩ := execClass_error h
  rw [exec_unchanged_iff he hring]
  exact ⟨And.left, fun hleaves => ⟨hleaves, hstore hleaves⟩⟩

end ClassBuffer

/-! ## All three classes -/

/-- **A read that throws leaves the queue as it was exactly if** its flag is up before it already and, for
`pop_range`, there is nothing to pop; for `peek_range` on a queue of pointers, if the flag is down. -/
theorem failing_read_iff (T : Type) (cap : Nat) (r : Read) (e : Stop) (he : e.Thrown) :
    (∀ rb rb' : RingBuffer T cap, r.exec.run rb = .error e rb' →
        (Unchanged rb rb' ↔ r.LeavesInline rb)) ∧
      (∀ q q' : ClassBuffer cap, r.execClass.run q = .error e q' →
        ((Unchanged q.rb q'.rb ∧ q'.store = q.store) ↔ r.LeavesInline q.rb)) ∧
      ∀ rb rb' : RingBuffer Addr cap, r.execExternal.run rb = .error e rb' →
        (Unchanged rb rb' ↔ r.LeavesExternal rb) :=
  ⟨fun _ _ h => exec_unchanged_iff he h, fun _ _ h => ClassBuffer.execClass_unchanged_iff he h,
    fun _ _ h => execExternal_unchanged_iff he h⟩

local instance onePlace : NeZero 1 := ⟨by decide⟩

/-- A queue of one place, closed. -/
def closed : RingBuffer Nat 1 :=
  { buffer := { Data.init 1 fun _ => 0 with isValid := false } }

/-- After one failing `pop` the next one changes nothing. -/
theorem failing_read_iff_again : ∃ rb', Read.pop.exec.run (RingBuffer.setHelper .pop true closed) =
    .error .closedPortAccess rb' ∧ Unchanged (RingBuffer.setHelper .pop true closed) rb' :=
  ⟨_, rfl, ((failing_read_iff Nat 1 .pop .closedPortAccess (.inl rfl)).1 _ _ rfl).mpr
    ⟨rfl, fun _ h => nomatch h⟩⟩

/-- The first one leaves a flag behind that no resize gets past. -/
theorem pop_leaves_flag : ∃ rb', Read.pop.exec.run closed = .error .closedPortAccess rb' ∧
    ¬Unchanged closed rb' ∧ closed.buffer.threadAccess.consumerWhole = false ∧
    rb'.buffer.threadAccess.consumerWhole = true := by
  refine ⟨_, rfl, fun h => ?_, rfl, rfl⟩
  have hflag := congrArg (fun t => t.flag .pop) h.threadAccess
  exact absurd hflag (by decide)

end RaftLib.Queue
