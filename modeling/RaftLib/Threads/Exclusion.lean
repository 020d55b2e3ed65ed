/-
# `RaftLib.Threads.Exclusion` -- a careful run keeps calls and replacement apart

The invariant behind the handshake. A busy thread has its flag up in the buffer that `thread_access`
leads to (`Thread.Ok.up`), so the monitor, having raised `resizing` first, sees it; and while
`resizing` is up nobody gets busy. What the monitor has found out so far it therefore still knows
(`Monitor.Cleared`), and when it has looked at all three places it is alone.
-/
import RaftLib.Threads.Handshake

namespace RaftLib.Threads

open RaftLib.Queue
open RaftLib.Logic.Steps

/-! ## Each thread keeps to its own flags -/

theorem ProducerOp.key_isProducer (o : ProducerOp) : o.op.key.isProducer = true := by
  cases o <;> rfl

theorem ConsumerOp.key_isConsumer (o : ConsumerOp) : o.op.key.isConsumer = true := by
  cases o <;> rfl

theorem AccessKey.not_both {k : AccessKey} (hp : k.isProducer = true) : k.isConsumer = false := by
  cases k <;> first | rfl | cases hp

/-! ## The invariant -/

/-- The buffer that the monitor has made and not yet shown to anybody. -/
def Monitor.unpublished : Monitor → Option BufId
  | .getOld new | .cancelDelete new | .checkExit new _ | .setResizing new _ | .readProducer new _
  | .readConsumer new _ | .readSize new _ | .buffercondition new _ | .backOff new _
  | .copyPointers new _ | .copyValid new _ | .copyArrays new _ | .copyProducer new _
  | .copyConsumer new _ | .setBuffer new _ => some new
  | _ => none

/-- Which buffers the monitor has in its hands. -/
def Monitor.Placed (dm : DataManager) : Monitor → Prop
  | .idle | .isResizeable _ | .newBuffer _ | .cancelFlag | .clearResizing =>
      dm.threadAccess = dm.buffer
  | .getOld new | .cancelDelete new =>
      dm.threadAccess = dm.buffer ∧ new ≠ dm.buffer ∧ (dm.heap new).alive = true
  | .checkExit new old | .setResizing new old | .readProducer new old | .readConsumer new old
  | .readSize new old | .buffercondition new old | .backOff new old | .copyPointers new old
  | .copyValid new old | .copyArrays new old | .copyProducer new old | .copyConsumer new old
  | .setBuffer new old =>
      dm.threadAccess = dm.buffer ∧ new ≠ dm.buffer ∧ (dm.heap new).alive = true ∧ old = dm.buffer
  | .setResizeable new old | .setThreadAccess new old =>
      dm.buffer = new ∧ dm.threadAccess = old ∧ old ≠ new
  | .deleteOld old => dm.threadAccess = dm.buffer ∧ old ≠ dm.buffer ∧ (dm.heap old).alive = true

/-- The thread is under no key between a check and the exit. -/
def Thread.Clear (t : Thread) : Prop := ∀ k, t.busy k = false

/-- What the monitor has found out, and what is still so. -/
def Monitor.Cleared (dm : DataManager) (producer consumer : Thread) : Monitor → Prop
  | .readProducer _ _ => dm.resizing = true
  | .readConsumer _ _ => dm.resizing = true ∧ producer.Clear
  | .readSize _ _ => dm.resizing = true ∧ producer.Clear ∧ consumer.Clear
  | .buffercondition _ _ | .copyPointers _ _ | .copyValid _ _ | .copyArrays _ _ | .copyProducer _ _
  | .copyConsumer _ _ | .setBuffer _ _ | .setResizeable _ _ | .setThreadAccess _ _ | .deleteOld _
  | .clearResizing => dm.resizing = true ∧ producer.Outside ∧ consumer.Outside
  | _ => True

/-- What a thread that owns the keys `owns` may rely on. -/
structure Thread.Ok (owns : AccessKey → Bool) (dm : DataManager) (m : Monitor) (t : Thread) :
    Prop where
  key : owns t.op.key = true
  busy : ∀ k, t.busy k = true → owns k = true
  up : ∀ k, t.busy k = true → dm.up k = true
  alive : ∀ p, t.pointer = some p → (dm.heap p).alive = true
  seen : ∀ p, t.pointer = some p → m.unpublished ≠ some p

/-- The invariant of the runs that keep the flags. -/
structure State.Inv (s : State) : Prop where
  bound : ∀ p, (s.dm.heap p).alive = true → p < s.dm.next
  buffer : (s.dm.heap s.dm.buffer).alive = true
  threadAccess : (s.dm.heap s.dm.threadAccess).alive = true
  placed : s.monitor.Placed s.dm
  count : s.dm.checkingSize = s.producer.counted + s.consumer.counted
  producer : s.producer.Ok AccessKey.isProducer s.dm s.monitor
  consumer : s.consumer.Ok AccessKey.isConsumer s.dm s.monitor
  cleared : s.monitor.Cleared s.dm s.producer s.consumer

/-! ## Steps of a thread -/

section ThreadSteps

variable {owns owns' : AccessKey → Bool} {dm dm' : DataManager} {m : Monitor} {t t' u : Thread}

theorem Monitor.Placed.congr (h : m.Placed dm) (hb : dm'.buffer = dm.buffer)
    (hta : dm'.threadAccess = dm.threadAccess)
    (halive : ∀ q, (dm'.heap q).alive = (dm.heap q).alive) : m.Placed dm' := by
  cases m <;> simpa only [Monitor.Placed, hb, hta, halive] using h

/-- An unpublished buffer is neither of those that a thread can load. -/
theorem Monitor.Placed.unpublished_ne (h : m.Placed dm) :
    m.unpublished ≠ some dm.buffer ∧ m.unpublished ≠ some dm.threadAccess := by
  cases m <;> simp_all [Monitor.Placed, Monitor.unpublished]

/-- The thread that took the step. -/
theorem Thread.Ok.step (h : t.Ok owns dm m) (he : Thread.Effect dm dm' t t')
    (hcare : t.KeepsFlags dm) (hplaced : m.Placed dm) (hb : (dm.heap dm.buffer).alive = true)
    (hta : (dm.heap dm.threadAccess).alive = true) : t'.Ok owns dm' m := by
  refine ⟨by rw [he.op]; exact h.key, fun k hk => ?_, he.raised hcare h.up, fun p hp => ?_,
    fun p hp => ?_⟩
  · rcases he.busy k hk with hbusy | ⟨-, yes, no, -, hkey⟩
    · exact h.busy k hbusy
    · rw [hkey]
      exact h.key
  · rw [he.alive]
    rcases he.pointer p hp with hold | rfl | rfl
    · exact h.alive p hold
    · exact hb
    · exact hta
  · rcases he.pointer p hp with hold | rfl | rfl
    · exact h.seen p hold
    · exact hplaced.unpublished_ne.1
    · exact hplaced.unpublished_ne.2

/-- The other thread. -/
theorem Thread.Ok.frame (h : u.Ok owns' dm m) (he : Thread.Effect dm dm' t t')
    (hkey : owns' t.op.key = false) : u.Ok owns' dm' m := by
  refine ⟨h.key, h.busy, fun k hk => ?_, fun p hp => ?_, h.seen⟩
  · rw [DataManager.up, he.threadAccess, he.flags]
    · exact h.up k hk
    · rintro rfl
      rw [h.busy _ hk] at hkey
      cases hkey
  · rw [he.alive]
    exact h.alive p hp

/-- From `t` to `t'` a thread has got no busier. -/
structure Thread.Quieter (t t' : Thread) : Prop where
  clear : t.Clear → t'.Clear
  outside : t.Outside → t'.Outside

theorem Thread.Quieter.of_le (hbusy : ∀ k, t'.busy k = true → t.busy k = true)
    (hins : t'.insideSize = true → t.insideSize = true) : t.Quieter t' := by
  have hclear : t.Clear → t'.Clear := by
    intro h k
    by_contra hk
    have := hbusy k (by simpa using hk)
    rw [h k] at this
    cases this
  refine ⟨hclear, fun h => ⟨hclear h.1, ?_⟩⟩
  by_contra hk
  have := hins (by simpa using hk)
  rw [h.2] at this
  cases this

theorem Thread.Quieter.refl (t : Thread) : t.Quieter t := ⟨id, id⟩

/-- While `resizing` is up, no step makes a thread busier. -/
theorem Thread.Effect.quieter (he : Thread.Effect dm dm' t t') (hres : dm.resizing = true) :
    t.Quieter t' := by
  refine .of_le (fun k hk => ?_) fun hi => ?_
  · rcases he.busy k hk with hbusy | ⟨hfree, -⟩
    · exact hbusy
    · rw [hres] at hfree
      cases hfree
  · rcases he.insideSize hi with hins | hfree
    · exact hins
    · rw [hres] at hfree
      cases hfree

/-- What the monitor has found out stays so as long as `resizing` is up and nobody gets busier. -/
theorem Monitor.Cleared.mono {u' : Thread} (h : m.Cleared dm t u)
    (hres : dm'.resizing = dm.resizing) (ht : dm.resizing = true → t.Quieter t')
    (hu : dm.resizing = true → u.Quieter u') : m.Cleared dm' t' u' := by
  cases m with
  | readProducer new old => exact hres.trans h
  | readConsumer new old => exact ⟨hres.trans h.1, (ht h.1).clear h.2⟩
  | readSize new old => exact ⟨hres.trans h.1, (ht h.1).clear h.2.1, (hu h.1).clear h.2.2⟩
  | buffercondition | copyPointers | copyValid | copyArrays | copyProducer | copyConsumer | setBuffer
  | setResizeable | setThreadAccess | deleteOld | clearResizing =>
      exact ⟨hres.trans h.1, (ht h.1).outside h.2.1, (hu h.1).outside h.2.2⟩
  | _ => trivial

end ThreadSteps

namespace State.Inv

variable {s s' : State}

theorem producerStep (h : Inv s) (hcare : KeepsFlags s .producer)
    (hs : s.step .producer = some s') : Inv s' := by
  simp only [State.step, Option.map_eq_some_iff] at hs
  obtain ⟨⟨dm', t'⟩, hstep, rfl⟩ := hs
  have hcount := h.count
  have he := Thread.step_effect (by omega) hstep
  have hec := he.count
  refine ⟨?_, ?_, ?_, h.placed.congr he.buffer he.threadAccess he.alive, ?_,
    h.producer.step he hcare h.placed h.buffer h.threadAccess,
    h.consumer.frame he (AccessKey.not_both h.producer.key),
    h.cleared.mono he.resizing he.quieter fun _ => .refl _⟩
  · intro p hp
    rw [he.alive] at hp
    rw [he.next]
    exact h.bound p hp
  · rw [he.buffer, he.alive]
    exact h.buffer
  · rw [he.threadAccess, he.alive]
    exact h.threadAccess
  · show dm'.checkingSize = t'.counted + s.consumer.counted
    omega

theorem consumerStep (h : Inv s) (hcare : KeepsFlags s .consumer)
    (hs : s.step .consumer = some s') : Inv s' := by
  simp only [State.step, Option.map_eq_some_iff] at hs
  obtain ⟨⟨dm', t'⟩, hstep, rfl⟩ := hs
  have hcount := h.count
  have he := Thread.step_effect (by omega) hstep
  have hec := he.count
  have hother : AccessKey.isProducer s.consumer.op.key = false := by
    by_contra hp
    have := AccessKey.not_both (by simpa using hp)
    rw [h.consumer.key] at this
    cases this
  refine ⟨?_, ?_, ?_, h.placed.congr he.buffer he.threadAccess he.alive, ?_,
    h.producer.frame he hother, h.consumer.step he hcare h.placed h.buffer h.threadAccess,
    h.cleared.mono he.resizing (fun _ => .refl _) he.quieter⟩
  · intro p hp
    rw [he.alive] at hp
    rw [he.next]
    exact h.bound p hp
  · rw [he.buffer, he.alive]
    exact h.buffer
  · rw [he.threadAccess, he.alive]
    exact h.threadAccess
  · show dm'.checkingSize = s.producer.counted + t'.counted
    omega

/-! ### A call starts -/

/-- A thread that starts a call is as busy as it was, and holds no pointer. -/
theorem call_eq {t t' : Thread} {op : Op} (h : t.call op = some t') :
    t'.op = op ∧ (∀ k, t'.busy k = t.busy k) ∧ t'.pointer = none ∧ t'.counted = t.counted ∧
      t.Quieter t' := by
  unfold Thread.call at h
  split at h
  · next hpc =>
      cases h
      exact ⟨rfl, fun _ => rfl, rfl, by simp [Thread.counted, hpc],
        .of_le (fun _ hk => hk) fun hi => nomatch hi⟩
  · cases h

theorem called {owns : AccessKey → Bool} {dm : DataManager} {m : Monitor} {t t' : Thread} {op : Op}
    (h : t.Ok owns dm m) (hcall : t.call op = some t') (hkey : owns op.key = true) :
    t'.Ok owns dm m := by
  obtain ⟨hop, hbusy, hptr, -, -⟩ := call_eq hcall
  refine ⟨by rw [hop]; exact hkey, fun k hk => h.busy k (hbusy k ▸ hk),
    fun k hk => h.up k (hbusy k ▸ hk), fun p hp => ?_, fun p hp => ?_⟩
  · rw [hptr] at hp
    cases hp
  · rw [hptr] at hp
    cases hp

theorem produceStep (h : Inv s) {o : ProducerOp} (hs : s.step (.produce o) = some s') : Inv s' := by
  simp only [State.step, Option.map_eq_some_iff] at hs
  obtain ⟨t, hcall, rfl⟩ := hs
  obtain ⟨-, -, -, hcount, hquiet⟩ := call_eq hcall
  refine ⟨h.bound, h.buffer, h.threadAccess, h.placed, ?_, called h.producer hcall o.key_isProducer,
    h.consumer, h.cleared.mono rfl (fun _ => hquiet) fun _ => .refl _⟩
  rw [hcount]
  exact h.count

theorem consumeStep (h : Inv s) {o : ConsumerOp} (hs : s.step (.consume o) = some s') : Inv s' := by
  simp only [State.step, Option.map_eq_some_iff] at hs
  obtain ⟨t, hcall, rfl⟩ := hs
  obtain ⟨-, -, -, hcount, hquiet⟩ := call_eq hcall
  refine ⟨h.bound, h.buffer, h.threadAccess, h.placed, ?_, h.producer,
    called h.consumer hcall o.key_isConsumer, h.cleared.mono rfl (fun _ => .refl _) fun _ => hquiet⟩
  rw [hcount]
  exact h.count

/-! ### Steps of the monitor -/

/-- The pointers and counts that a statement about one buffer leaves alone. -/
structure Frame (dm dm' : DataManager) : Prop where
  buffer : dm'.buffer = dm.buffer
  threadAccess : dm'.threadAccess = dm.threadAccess
  checkingSize : dm'.checkingSize = dm.checkingSize

section Monitor

variable {dm : DataManager} {m : Monitor}

/-- What is left to show of the invariant after a step of the monitor: that the buffers in use are
there, that flags which are up are still seen, and what the monitor itself knows. -/
theorem afterMonitor (h : Inv s) (hbound : ∀ p, (dm.heap p).alive = true → p < dm.next)
    (hb : (dm.heap dm.buffer).alive = true) (hta : (dm.heap dm.threadAccess).alive = true)
    (hsize : dm.checkingSize = s.dm.checkingSize)
    (hup : ∀ k, s.producer.busy k = true ∨ s.consumer.busy k = true → s.dm.up k = true →
      dm.up k = true)
    (hptr : ∀ p, s.producer.pointer = some p ∨ s.consumer.pointer = some p →
      (s.dm.heap p).alive = true → s.monitor.unpublished ≠ some p →
        (dm.heap p).alive = true ∧ m.unpublished ≠ some p)
    (hplaced : m.Placed dm) (hcleared : m.Cleared dm s.producer s.consumer) :
    Inv { s with dm := dm, monitor := m } := by
  refine ⟨hbound, hb, hta, hplaced, hsize.trans h.count,
    ⟨h.producer.key, h.producer.busy, fun k hk => hup k (.inl hk) (h.producer.up k hk),
      fun p hp => ?_, fun p hp => ?_⟩,
    ⟨h.consumer.key, h.consumer.busy, fun k hk => hup k (.inr hk) (h.consumer.up k hk),
      fun p hp => ?_, fun p hp => ?_⟩, hcleared⟩
  · exact (hptr p (.inl hp) (h.producer.alive p hp) (h.producer.seen p hp)).1
  · exact (hptr p (.inl hp) (h.producer.alive p hp) (h.producer.seen p hp)).2
  · exact (hptr p (.inr hp) (h.consumer.alive p hp) (h.consumer.seen p hp)).1
  · exact (hptr p (.inr hp) (h.consumer.alive p hp) (h.consumer.seen p hp)).2

/-- A step of the monitor that writes neither a buffer nor a pointer. -/
theorem monitorMoves (h : Inv s) (hheap : dm.heap = s.dm.heap) (hnext : dm.next = s.dm.next)
    (hf : Frame s.dm dm) (hunpub : ∀ p, m.unpublished = some p → s.monitor.unpublished = some p)
    (hplaced : m.Placed dm) (hcleared : m.Cleared dm s.producer s.consumer) :
    Inv { s with dm := dm, monitor := m } := by
  refine h.afterMonitor ?_ ?_ ?_ hf.checkingSize (fun k _ hk => ?_)
    (fun p _ halive hseen => ⟨?_, fun hu => hseen (hunpub p hu)⟩) hplaced hcleared
  · rw [hheap, hnext]
    exact h.bound
  · rw [hheap, hf.buffer]
    exact h.buffer
  · rw [hheap, hf.threadAccess]
    exact h.threadAccess
  · rw [DataManager.up, hheap, hf.threadAccess]
    exact hk
  · rw [hheap]
    exact halive

/-- A statement of `copyFrom`: it writes to the buffer that nobody else has seen. -/
theorem monitorCopies (h : Inv s) {new : BufId} {b : Buf}
    (hheap : dm.heap = Function.update s.dm.heap new b) (hnext : dm.next = s.dm.next)
    (hf : Frame s.dm dm) (hb : b.alive = (s.dm.heap new).alive) (hnew : new ≠ s.dm.threadAccess)
    (hunpub : m.unpublished = s.monitor.unpublished) (hplaced : m.Placed s.dm)
    (hcleared : m.Cleared dm s.producer s.consumer) : Inv { s with dm := dm, monitor := m } := by
  have halive : ∀ q, (dm.heap q).alive = (s.dm.heap q).alive := by
    intro q
    by_cases hq : q = new
    · rw [hheap, hq, Function.update_self, hb]
    · rw [hheap, Function.update_of_ne hq]
  refine h.afterMonitor ?_ ?_ ?_ hf.checkingSize (fun k _ hk => ?_)
    (fun p _ hp hseen => ⟨(halive p).trans hp, hunpub ▸ hseen⟩)
    (hplaced.congr hf.buffer hf.threadAccess halive) hcleared
  · intro p hp
    rw [hnext]
    exact h.bound p (halive p ▸ hp)
  · rw [halive, hf.buffer]
    exact h.buffer
  · rw [halive, hf.threadAccess]
    exact h.threadAccess
  · rw [DataManager.up, hf.threadAccess, hheap, Function.update_of_ne hnew.symm]
    exact hk

/-- `new Buffer::Data`, under a number that was not in use. -/
theorem monitorAllocates (h : Inv s) {b : Buf}
    (hheap : dm.heap = Function.update s.dm.heap s.dm.next b) (hnext : dm.next = s.dm.next + 1)
    (hf : Frame s.dm dm) (hb : b.alive = true) (hta : s.dm.threadAccess = s.dm.buffer) :
    Inv { s with dm := dm, monitor := .getOld s.dm.next } := by
  have hne : ∀ p, (s.dm.heap p).alive = true → p ≠ s.dm.next := fun p hp => (h.bound p hp).ne
  have hkeep : ∀ p, (s.dm.heap p).alive = true → dm.heap p = s.dm.heap p := fun p hp => by
    rw [hheap, Function.update_of_ne (hne p hp)]
  have hnew : dm.heap s.dm.next = b := by rw [hheap, Function.update_self]
  refine h.afterMonitor (fun p hp => ?_) ?_ ?_ hf.checkingSize (fun k _ hk => ?_)
    (fun p _ hp _ => ⟨?_, fun hu => hne p hp (Option.some_inj.mp hu).symm⟩)
    ⟨?_, ?_, by rw [hnew]; exact hb⟩ trivial
  · rw [hnext]
    by_cases hpn : p = s.dm.next
    · exact hpn ▸ Nat.lt_succ_self _
    · rw [hheap, Function.update_of_ne hpn] at hp
      exact Nat.lt_succ_of_lt (h.bound p hp)
  · rw [hf.buffer, hkeep _ h.buffer]
    exact h.buffer
  · rw [hf.threadAccess, hkeep _ h.threadAccess]
    exact h.threadAccess
  · rw [DataManager.up, hf.threadAccess, hkeep _ h.threadAccess]
    exact hk
  · rw [hkeep p hp]
    exact hp
  · rw [hf.threadAccess, hf.buffer, hta]
  · rw [hf.buffer]
    exact (hne _ h.buffer).symm

/-- `delete`, of a buffer that no thread has a pointer to. -/
theorem monitorDeletes (h : Inv s) {old : BufId} {b : Buf}
    (hheap : dm.heap = Function.update s.dm.heap old b) (hnext : dm.next = s.dm.next)
    (hf : Frame s.dm dm) (hdead : b.alive = false) (hb : old ≠ s.dm.buffer)
    (hta : old ≠ s.dm.threadAccess)
    (hfree : s.producer.pointer ≠ some old ∧ s.consumer.pointer ≠ some old)
    (hunpub : m.unpublished = none) (hplaced : m.Placed dm)
    (hcleared : m.Cleared dm s.producer s.consumer) : Inv { s with dm := dm, monitor := m } := by
  have hkeep : ∀ q, q ≠ old → dm.heap q = s.dm.heap q := fun q hq => by
    rw [hheap, Function.update_of_ne hq]
  refine h.afterMonitor (fun p hp => ?_) ?_ ?_ hf.checkingSize (fun k _ hk => ?_)
    (fun p hp halive _ => ⟨?_, by rw [hunpub]; simp⟩) hplaced hcleared
  · rw [hnext]
    by_cases hpo : p = old
    · rw [hheap, hpo, Function.update_self, hdead] at hp
      cases hp
    · rw [hkeep p hpo] at hp
      exact h.bound p hp
  · rw [hf.buffer, hkeep _ hb.symm]
    exact h.buffer
  · rw [hf.threadAccess, hkeep _ hta.symm]
    exact h.threadAccess
  · rw [DataManager.up, hf.threadAccess, hkeep _ hta.symm]
    exact hk
  · rw [hkeep p ?_]
    · exact halive
    · rintro rfl
      exact hp.elim hfree.1 hfree.2

/-- `set`: a pointer now leads to the new buffer. While it does, no call is under way. -/
theorem monitorPublishes (h : Inv s) (hheap : dm.heap = s.dm.heap) (hnext : dm.next = s.dm.next)
    (hsize : dm.checkingSize = s.dm.checkingSize) (hb : (s.dm.heap dm.buffer).alive = true)
    (hta : (s.dm.heap dm.threadAccess).alive = true) (hp : s.producer.Clear)
    (hc : s.consumer.Clear) (hunpub : m.unpublished = none) (hplaced : m.Placed dm)
    (hcleared : m.Cleared dm s.producer s.consumer) : Inv { s with dm := dm, monitor := m } := by
  refine h.afterMonitor ?_ (by rw [hheap]; exact hb) (by rw [hheap]; exact hta) hsize
    (fun k hk _ => ?_) (fun p _ halive _ => ⟨by rw [hheap]; exact halive, by rw [hunpub]; simp⟩)
    hplaced hcleared
  · rw [hheap, hnext]
    exact h.bound
  · rw [hp k, hc k] at hk
    simp at hk

end Monitor

/-- What the monitor learns from the flags of the producer's half. -/
theorem producer_clear (h : Inv s)
    (hw : (s.dm.heap s.dm.threadAccess).threadAccess.producerWhole = false) : s.producer.Clear := by
  intro k
  by_contra hk
  have hbusy : s.producer.busy k = true := by simpa using hk
  have hup := h.producer.up k hbusy
  rw [DataManager.up, ThreadAccess.producerWhole_eq_false hw (h.producer.busy k hbusy)] at hup
  cases hup

/-- What the monitor learns from the flags of the consumer's half. -/
theorem consumer_clear (h : Inv s)
    (hw : (s.dm.heap s.dm.threadAccess).threadAccess.consumerWhole = false) : s.consumer.Clear := by
  intro k
  by_contra hk
  have hbusy : s.consumer.busy k = true := by simpa using hk
  have hup := h.consumer.up k hbusy
  rw [DataManager.up, ThreadAccess.consumerWhole_eq_false hw (h.consumer.busy k hbusy)] at hup
  cases hup

theorem insideSize_of_counted {t : Thread} (h : t.counted = 0) : t.insideSize = false := by
  cases hpc : t.pc <;> simp_all [Thread.counted, Thread.insideSize]

/-- **One step of the monitor**, place by place. -/
theorem monitorStep (h : Inv s) (hcare : KeepsFlags s .monitor) (hs : s.step .monitor = some s') :
    Inv s' := by
  simp only [State.step, Option.map_eq_some_iff] at hs
  obtain ⟨⟨dm, m⟩, hstep, rfl⟩ := hs
  have hplaced := h.placed
  have hcleared := h.cleared
  have hframe : Frame s.dm s.dm := ⟨rfl, rfl, rfl⟩
  cases hm : s.monitor with
  | idle => simp [hm, Monitor.step] at hstep
  | isResizeable newCap =>
      rw [hm] at hstep hplaced
      simp only [Monitor.step, Option.some_inj, Prod.mk.injEq] at hstep
      obtain ⟨rfl, rfl⟩ := hstep
      split
      · exact h.monitorMoves rfl rfl hframe (fun p hp => nomatch hp) hplaced trivial
      · exact h.monitorMoves rfl rfl hframe (fun p hp => nomatch hp) hplaced trivial
  | newBuffer newCap =>
      -- the second buffer gets a number that was not in use
      rw [hm] at hstep hplaced
      simp only [Monitor.step] at hstep
      split at hstep
      · cases hstep
        exact h.monitorAllocates rfl rfl ⟨rfl, rfl, rfl⟩ rfl hplaced
      · cases hstep
  | getOld new =>
      rw [hm] at hstep hplaced
      cases hstep
      exact h.monitorMoves rfl rfl hframe (fun p hp => by rw [hm]; exact hp)
        ⟨hplaced.1, hplaced.2.1, hplaced.2.2, rfl⟩ trivial
  | checkExit new old =>
      rw [hm] at hstep hplaced
      simp only [Monitor.step, Option.some_inj, Prod.mk.injEq] at hstep
      obtain ⟨rfl, rfl⟩ := hstep
      split
      · exact h.monitorMoves rfl rfl hframe (fun p hp => by rw [hm]; exact hp)
          ⟨hplaced.1, hplaced.2.1, hplaced.2.2.1⟩ trivial
      · exact h.monitorMoves rfl rfl hframe (fun p hp => by rw [hm]; exact hp) hplaced trivial
  | cancelDelete new =>
      -- the buffer that is given up was never published, so no thread has seen it
      rw [hm] at hstep hplaced
      cases hstep
      have hseen : ∀ {owns : AccessKey → Bool} {t : Thread}, t.Ok owns s.dm s.monitor →
          t.pointer ≠ some new := fun ht hp => ht.seen new hp (by rw [hm]; rfl)
      exact h.monitorDeletes rfl rfl ⟨rfl, rfl, rfl⟩ rfl hplaced.2.1 (hplaced.1 ▸ hplaced.2.1)
        ⟨hseen h.producer, hseen h.consumer⟩ rfl hplaced.1 trivial
  | cancelFlag =>
      rw [hm] at hstep hplaced
      cases hstep
      exact h.monitorMoves rfl rfl ⟨rfl, rfl, rfl⟩ (fun p hp => nomatch hp) hplaced trivial
  | setResizing new old =>
      -- from here on a thread that looks at `resizing` lowers its flag again
      rw [hm] at hstep hplaced
      cases hstep
      exact h.monitorMoves rfl rfl ⟨rfl, rfl, rfl⟩ (fun p hp => by rw [hm]; exact hp) hplaced rfl
  | readProducer new old =>
      rw [hm] at hstep hplaced hcleared
      simp only [Monitor.step, Option.some_inj, Prod.mk.injEq] at hstep
      obtain ⟨rfl, rfl⟩ := hstep
      split
      · exact h.monitorMoves rfl rfl hframe (fun p hp => by rw [hm]; exact hp) hplaced trivial
      · next hw =>
          exact h.monitorMoves rfl rfl hframe (fun p hp => by rw [hm]; exact hp) hplaced
            ⟨hcleared, h.producer_clear (by simpa using hw)⟩
  | readConsumer new old =>
      rw [hm] at hstep hplaced hcleared
      simp only [Monitor.step, Option.some_inj, Prod.mk.injEq] at hstep
      obtain ⟨rfl, rfl⟩ := hstep
      split
      · exact h.monitorMoves rfl rfl hframe (fun p hp => by rw [hm]; exact hp) hplaced trivial
      · next hw =>
          exact h.monitorMoves rfl rfl hframe (fun p hp => by rw [hm]; exact hp) hplaced
            ⟨hcleared.1, hcleared.2, h.consumer_clear (by simpa using hw)⟩
  | readSize new old =>
      -- the counter is what both threads add up to, so both are out of `size`
      rw [hm] at hstep hplaced hcleared
      simp only [Monitor.step, Option.some_inj, Prod.mk.injEq] at hstep
      obtain ⟨rfl, rfl⟩ := hstep
      split
      · exact h.monitorMoves rfl rfl hframe (fun p hp => by rw [hm]; exact hp) hplaced trivial
      · next hz =>
          have hcount := h.count
          have hp : s.producer.counted = 0 := by omega
          have hc : s.consumer.counted = 0 := by omega
          exact h.monitorMoves rfl rfl hframe (fun p hp => by rw [hm]; exact hp) hplaced
            ⟨hcleared.1, ⟨hcleared.2.1, insideSize_of_counted hp⟩,
              ⟨hcleared.2.2, insideSize_of_counted hc⟩⟩
  | buffercondition new old =>
      rw [hm] at hstep hplaced hcleared
      simp only [Monitor.step, Option.some_inj, Prod.mk.injEq] at hstep
      obtain ⟨rfl, rfl⟩ := hstep
      split
      · exact h.monitorMoves rfl rfl hframe (fun p hp => by rw [hm]; exact hp) hplaced hcleared
      · exact h.monitorMoves rfl rfl hframe (fun p hp => by rw [hm]; exact hp) hplaced trivial
  | backOff new old =>
      rw [hm] at hstep hplaced
      cases hstep
      exact h.monitorMoves rfl rfl ⟨rfl, rfl, rfl⟩ (fun p hp => by rw [hm]; exact hp) hplaced trivial
  | copyPointers new old =>
      rw [hm] at hstep hplaced hcleared
      simp only [Monitor.step] at hstep
      split at hstep
      · cases hstep
        exact h.monitorCopies rfl rfl ⟨rfl, rfl, rfl⟩ rfl (hplaced.1 ▸ hplaced.2.1) (by rw [hm]; rfl)
          hplaced hcleared
      · cases hstep
  | copyValid new old | copyArrays new old | copyProducer new old | copyConsumer new old =>
      rw [hm] at hstep hplaced hcleared
      cases hstep
      exact h.monitorCopies rfl rfl ⟨rfl, rfl, rfl⟩ rfl (hplaced.1 ▸ hplaced.2.1) (by rw [hm]; rfl)
        hplaced hcleared
  | setBuffer new old =>
      -- until `thread_access` follows, the two pointers differ
      rw [hm] at hstep hplaced hcleared
      cases hstep
      exact h.monitorPublishes rfl rfl rfl hplaced.2.2.1 h.threadAccess hcleared.2.1.1
        hcleared.2.2.1 rfl ⟨rfl, hplaced.1.trans hplaced.2.2.2.symm,
          hplaced.2.2.2 ▸ hplaced.2.1.symm⟩ hcleared
  | setResizeable new old =>
      rw [hm] at hstep hplaced hcleared
      cases hstep
      exact h.monitorMoves rfl rfl ⟨rfl, rfl, rfl⟩ (fun p hp => nomatch hp) hplaced hcleared
  | setThreadAccess new old =>
      rw [hm] at hstep hplaced hcleared
      cases hstep
      obtain ⟨hb, hta, hne⟩ := hplaced
      refine h.monitorPublishes rfl rfl rfl h.buffer (hb ▸ h.buffer) hcleared.2.1.1 hcleared.2.2.1 rfl
        ⟨hb.symm, ?_, hta ▸ h.threadAccess⟩ hcleared
      rw [hb]
      exact hne
  | deleteOld old =>
      -- care: nobody holds a pointer to the old buffer any more
      rw [hm] at hstep hplaced hcleared
      cases hstep
      obtain ⟨hp, hc⟩ := hcare old hm
      exact h.monitorDeletes rfl rfl ⟨rfl, rfl, rfl⟩ rfl hplaced.2.1 (hplaced.1 ▸ hplaced.2.1)
        ⟨hp hcleared.2.1, hc hcleared.2.2⟩ rfl hplaced.1 hcleared
  | clearResizing =>
      rw [hm] at hstep hplaced
      cases hstep
      exact h.monitorMoves rfl rfl ⟨rfl, rfl, rfl⟩ (fun p hp => nomatch hp) hplaced trivial

/-! ### Whole runs -/

theorem init {cap : Nat} (h : 0 < cap) : Inv (State.init cap h) := by
  have halive : ∀ p, ((State.init cap h).dm.heap p).alive = decide (p = 0) := fun _ => rfl
  refine ⟨fun p hp => ?_, rfl, rfl, rfl, rfl, ?_, ?_, trivial⟩
  · rw [halive, decide_eq_true_eq] at hp
    rw [hp]
    exact Nat.zero_lt_one
  · exact ⟨rfl, (fun _ hk => nomatch hk), (fun _ hk => nomatch hk), (fun _ hp => nomatch hp),
      (fun _ hp => nomatch hp)⟩
  · exact ⟨rfl, (fun _ hk => nomatch hk), (fun _ hk => nomatch hk), (fun _ hp => nomatch hp),
      (fun _ hp => nomatch hp)⟩

/-- The monitor is asked for a larger buffer. -/
theorem resizeStep (h : Inv s) {newCap : Nat} (hs : s.step (.resize newCap) = some s') : Inv s' := by
  have hplaced := h.placed
  simp only [State.step] at hs
  split at hs
  · next hm =>
      rw [hm] at hplaced
      split at hs
      · cases hs
        exact h.monitorMoves rfl rfl ⟨rfl, rfl, rfl⟩ (fun p hp => nomatch hp) hplaced trivial
      · cases hs
  · cases hs

/-- The application ends: nothing that the handshake looks at changes. -/
theorem exitStep (h : Inv s) (hs : s.step .exitAlloc = some s') : Inv s' := by
  cases hs
  exact h.monitorMoves rfl rfl ⟨rfl, rfl, rfl⟩ (fun p hp => hp)
    (h.placed.congr rfl rfl fun _ => rfl)
    (h.cleared.mono rfl (fun _ => .refl _) fun _ => .refl _)

/-- **A step that keeps the flags keeps the invariant**, whoever takes it. -/
theorem step (h : Inv s) {act : Act} (hs : restrict (ofFun State.step) KeepsFlags s act s') : Inv s' := by
  obtain ⟨hcare, hs⟩ := hs
  cases act with
  | produce o => exact h.produceStep hs
  | producer => exact h.producerStep hcare hs
  | consume o => exact h.consumeStep hs
  | consumer => exact h.consumerStep hcare hs
  | resize newCap => exact h.resizeStep hs
  | monitor => exact h.monitorStep hcare hs
  | exitAlloc => exact h.exitStep hs

theorem of_run {cap : Nat} {h : 0 < cap} {acts : List Act}
    (hrun : Run (restrict (ofFun State.step) KeepsFlags) (State.init cap h) acts s) : Inv s :=
  hrun.invariant (fun _ _ _ hi hs => hi.step hs) (init h)

/-! ### What the invariant says -/

/-- Whatever the monitor is replacing, it has to itself. -/
theorem outside (h : Inv s) (hrep : s.monitor.replacing = true) :
    s.producer.Outside ∧ s.consumer.Outside := by
  have hcleared := h.cleared
  cases hm : s.monitor <;> rw [hm] at hrep hcleared
  case buffercondition | copyPointers | copyValid | copyArrays | copyProducer | copyConsumer
    | setBuffer | setResizeable | setThreadAccess | deleteOld | clearResizing => exact hcleared.2
  all_goals cases hrep

/-- A careful thread touches only what is there. -/
theorem touching_alive {owns : AccessKey → Bool} {dm : DataManager} {m : Monitor} {t : Thread}
    (h : t.Ok owns dm m) (hcare : t.Careful dm) {p : BufId} (hp : t.touching = some p) :
    (dm.heap p).alive = true := by
  cases hstats : t.updatesStats with
  | true =>
      -- statistics go through a pointer of their own, into the first buffer
      have hzero : p = 0 := by
        unfold Thread.updatesStats at hstats
        unfold Thread.touching at hp
        split at hstats <;> simp_all
      rw [hzero]
      exact hcare.stats hstats
  | false =>
      apply h.alive
      unfold Thread.updatesStats at hstats
      unfold Thread.touching at hp
      unfold Thread.pointer
      split at hp <;> simp_all

/-- So does the monitor. -/
theorem monitor_touching_alive (h : Inv s) {p : BufId} (hp : p ∈ s.monitor.touching s.dm) :
    (s.dm.heap p).alive = true := by
  have hplaced := h.placed
  have hb := h.buffer
  have hta := h.threadAccess
  cases hm : s.monitor <;> rw [hm] at hp hplaced <;>
    simp_all [Monitor.touching, Monitor.Placed]
  all_goals rcases hp with rfl | rfl <;> simp_all

end State.Inv

/-! ## Mutual exclusion -/

/-- **Calls and replacement exclude each other in every run that keeps the flags.** From the successful
check of the flags to the end of the replacement no thread is between a check of `resizing` and the exit,
and no careful step reads or writes a buffer that has been deleted. -/
theorem resize_exclusive {cap : Nat} {h : 0 < cap} {acts : List Act} {s : State}
    (hrun : Run (restrict (ofFun State.step) KeepsFlags) (State.init cap h) acts s) :
    (s.monitor.replacing = true → s.producer.Outside ∧ s.consumer.Outside) ∧
      ∀ act, Careful s act → ∀ p ∈ s.touching act, (s.dm.heap p).alive = true := by
  have hinv := State.Inv.of_run hrun
  refine ⟨hinv.outside, fun act hcare p hp => ?_⟩
  cases act with
  | producer =>
      exact State.Inv.touching_alive hinv.producer hcare (Option.mem_toList.mp hp)
  | consumer =>
      exact State.Inv.touching_alive hinv.consumer hcare (Option.mem_toList.mp hp)
  | monitor => exact hinv.monitor_touching_alive hp
  | produce _ | consume _ | resize _ | exitAlloc => cases hp

/-- A `push` goes through; then a resize finds the flags down, and the consumer, who enters only
now, finds `resizing` up and is about to lower its flag again. -/
theorem resize_exclusive_waiting :
    ∃ s : State, s.monitor.replacing = true ∧ s.consumer.pointer = some 0 ∧ s.producer.Outside ∧
      s.consumer.Outside ∧ ∀ p ∈ s.touching .consumer, (s.dm.heap p).alive = true := by
  obtain ⟨s, hrun, hrep, hptr, hcare⟩ : ∃ s,
      Run (ofFun (guarded State.step Careful)) (State.init 2 Nat.two_pos)
        (.produce .push :: List.replicate 20 .producer ++ .resize 4 :: List.replicate 8 .monitor ++
          .consume .pop :: List.replicate 4 .consumer) s ∧
      s.monitor.replacing = true ∧ s.consumer.pointer = some 0 ∧ Careful s .consumer := by
    apply exists_run_of_any
    decide +kernel
  obtain ⟨hexcl, halive⟩ := resize_exclusive (hrun.mono fun _ _ _ hs =>
    (ofFun_guarded hs).imp_left Careful.keepsFlags)
  exact ⟨s, hrep, hptr, (hexcl hrep).1, (hexcl hrep).2, halive .consumer hcare⟩

/-- **Without care both fail.** The producer has loaded `thread_access` when a whole resize passes.
Its store then goes to the deleted buffer; its check succeeds with no flag up in the new one; and the
next resize starts to replace that buffer while the call is inside. -/
theorem resize_not_exclusive :
    (∃ acts s, Run (ofFun State.step) (State.init 2 Nat.two_pos) acts s ∧
      (s.step .producer).isSome = true ∧ 0 ∈ s.touching .producer ∧ (s.dm.heap 0).alive = false) ∧
    ∃ acts s, Run (ofFun State.step) (State.init 2 Nat.two_pos) acts s ∧
      s.monitor.replacing = true ∧ s.producer.busy .push = true := by
  refine ⟨⟨.produce .push :: List.replicate 20 .producer ++ .produce .push :: .producer ::
    .resize 4 :: List.replicate 18 .monitor, ?_⟩, ⟨.produce .push :: List.replicate 20 .producer ++
    .produce .push :: .producer :: .resize 4 :: List.replicate 19 .monitor ++ .producer ::
    .producer :: .resize 8 :: List.replicate 8 .monitor, ?_⟩⟩
  · apply exists_run_of_any
    decide +kernel
  · apply exists_run_of_any
    decide +kernel

end RaftLib.Threads
