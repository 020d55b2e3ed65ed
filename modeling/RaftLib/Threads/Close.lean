/-
# `RaftLib.Threads.Close` -- closing a queue while the monitor replaces its buffer

`invalidate` takes no part in the handshake: it loads the buffer pointer and later stores through it.
A store to the current buffer is seen by everybody, unless `copyFrom` has read `is_valid` already and
the new buffer is not yet the current one; a store to a buffer that has been replaced is seen by
nobody. `Timely` excludes these two, at the step that stores. In runs without them a closed queue
stays closed, whatever else the three threads do: none of the handshake is needed for it.
-/
import RaftLib.Threads.Resize
import RaftLib.Logic.Steps

namespace RaftLib.Threads

open RaftLib.Queue
open RaftLib.Logic.Steps

/-! ## The condition -/

/-- `copyFrom` has copied `is_valid`, and the copy is not yet the current buffer. -/
def Monitor.copied : Monitor → Option BufId
  | .copyArrays new _ | .copyProducer new _ | .copyConsumer new _ | .setBuffer new _ => some new
  | _ => none

/-- The store of `invalidate` goes to the current buffer, and not while a copy of it is waiting to
replace it. -/
def Timely (s : State) : Act → Prop
  | .producer => ∀ p, s.invalidating = some p → p = s.dm.buffer ∧ s.monitor.copied = none
  | _ => True

instance (s : State) : (act : Act) → Decidable (Timely s act)
  | .producer =>
      match hp : s.invalidating with
      | some p => decidable_of_iff (p = s.dm.buffer ∧ s.monitor.copied = none)
          ⟨fun h q hq => by rw [hp] at hq; exact Option.some_inj.mp hq ▸ h, fun h => h p hp⟩
      | none => .isTrue fun q hq => by rw [hp] at hq; cases hq
  | .consumer | .monitor | .produce _ | .consume _ | .resize _ | .exitAlloc => .isTrue trivial

/-! ## What a step of a thread can do to `is_valid` -/

/-- Two states of the data manager with the same buffers, of which none has been opened again. -/
structure DataManager.Closer (dm dm' : DataManager) : Prop where
  buffer : dm'.buffer = dm.buffer
  next : dm'.next = dm.next
  closed : ∀ q, (dm.heap q).isValid = false → (dm'.heap q).isValid = false

theorem DataManager.Closer.refl (dm : DataManager) : dm.Closer dm := ⟨rfl, rfl, fun _ h => h⟩

/-- A change to one buffer that does not open it. -/
theorem DataManager.closer_onBuf (dm : DataManager) (p : BufId) {f : Buf → Buf}
    (hf : (dm.heap p).isValid = false → (f (dm.heap p)).isValid = false) :
    dm.Closer (dm.onBuf p f) := by
  refine ⟨rfl, rfl, fun q hq => ?_⟩
  by_cases hqp : q = p
  · subst hqp
    simpa [DataManager.onBuf] using hf hq
  · simpa [DataManager.onBuf, hqp] using hq

theorem Action.run_closer (a : Action) (p : BufId) (dm : DataManager) (r : Regs) :
    dm.Closer (a.run p dm r).1 := by
  cases a with
  | readCap | readValid | touch | stats => exact .refl dm
  | incWrite | incWriteBy | incRead | storeForce _ =>
      simp only [Action.run]
      exact dm.closer_onBuf p fun h => h
  | invalidate =>
      simp only [Action.run]
      exact dm.closer_onBuf p fun _ => rfl

theorem Thread.step_closer {dm dm' : DataManager} {t t' : Thread} (h : t.step dm = some (dm', t')) :
    dm.Closer dm' := by
  unfold Thread.step at h
  split at h
  case h_1 => cases h
  case h_4 =>
    cases h
    exact dm.closer_onBuf _ fun hb => hb
  case h_5 | h_7 =>
    split at h
    · cases h
      exact .refl dm
    · cases h
      exact .refl dm
  case h_9 =>
    split at h
    · cases h
      exact .refl dm
    · cases h
      exact .refl dm
  case h_13 | h_14 =>
    cases h
    exact Action.run_closer _ _ _ _
  all_goals
    cases h
    exact ⟨rfl, rfl, fun _ hb => hb⟩

/-- The store of `invalidate` closes the buffer it goes to. -/
theorem State.invalidate_closes {s : State} {p : BufId} {dm' : DataManager} {t' : Thread}
    (hinv : s.invalidating = some p) (h : s.producer.step s.dm = some (dm', t')) :
    (dm'.heap p).isValid = false := by
  unfold State.invalidating at hinv
  split at hinv
  · next q rest k hpc =>
      obtain rfl := Option.some_inj.mp hinv
      cases rest with
      | nil =>
          simp only [Thread.step, hpc, Option.some_inj, Prod.mk.injEq] at h
          rw [← h.1]
          simp [Action.run, DataManager.onBuf]
      | cons b rest =>
          simp only [Thread.step, hpc, Option.some_inj, Prod.mk.injEq] at h
          rw [← h.1]
          simp [Action.run, DataManager.onBuf]
  · cases hinv

/-! ## The invariant -/

/-- What the buffers in the monitor's hands have to do with the current one. -/
def Monitor.Holds (dm : DataManager) : Monitor → Prop
  | .getOld new | .cancelDelete new => new ≠ dm.buffer ∧ new < dm.next
  | .checkExit new old | .setResizing new old | .readProducer new old | .readConsumer new old
  | .readSize new old | .buffercondition new old | .backOff new old | .copyPointers new old
  | .copyValid new old | .copyArrays new old | .copyProducer new old | .copyConsumer new old
  | .setBuffer new old => new ≠ dm.buffer ∧ new < dm.next ∧ old = dm.buffer
  | _ => True

/-- A closed queue shows so in the current buffer, and in the copy that is to replace it. -/
structure State.Closing (s : State) : Prop where
  next : s.dm.buffer < s.dm.next
  holds : s.monitor.Holds s.dm
  current : s.closed = true → (s.dm.heap s.dm.buffer).isValid = false
  copy : s.closed = true → ∀ new, s.monitor.copied = some new → (s.dm.heap new).isValid = false

theorem Monitor.Holds.congr {dm dm' : DataManager} {m : Monitor} (h : m.Holds dm)
    (hb : dm'.buffer = dm.buffer) (hn : dm'.next = dm.next) : m.Holds dm' := by
  unfold Monitor.Holds at h ⊢
  rw [hb, hn]
  exact h

namespace State.Closing

variable {s s' : State}

theorem init {cap : Nat} (h : 0 < cap) : Closing (State.init cap h) :=
  ⟨Nat.zero_lt_one, trivial, (fun hc => nomatch hc), (fun hc => nomatch hc)⟩

/-- A step of a thread that leaves `closed` as it was. -/
theorem threadStep (h : Closing s) {dm' : DataManager} (hcl : s.dm.Closer dm') (t u : Thread) :
    Closing { s with dm := dm', producer := t, consumer := u } := by
  refine ⟨?_, Monitor.Holds.congr h.holds hcl.buffer hcl.next, fun hc => ?_, fun hc new hnew => ?_⟩
  · show dm'.buffer < dm'.next
    rw [hcl.buffer, hcl.next]
    exact h.next
  · show (dm'.heap dm'.buffer).isValid = false
    rw [hcl.buffer]
    exact hcl.closed _ (h.current hc)
  · exact hcl.closed _ (h.copy hc new hnew)

theorem producerStep (h : Closing s) (ht : Timely s .producer) (hs : s.step .producer = some s') :
    Closing s' := by
  simp only [State.step, Option.map_eq_some_iff] at hs
  obtain ⟨⟨dm', t'⟩, hstep, rfl⟩ := hs
  have hcl := Thread.step_closer hstep
  cases hinv : s.invalidating with
  | none =>
      simp only [Option.isSome_none, Bool.or_false]
      exact h.threadStep hcl t' s.consumer
  | some p =>
      obtain ⟨rfl, hcopied⟩ := ht p hinv
      have hnow := State.invalidate_closes hinv hstep
      obtain ⟨hnext, hholds, -, -⟩ := h.threadStep hcl t' s.consumer
      refine ⟨hnext, hholds, fun _ => ?_, fun _ new hnew => ?_⟩
      · show (dm'.heap dm'.buffer).isValid = false
        rw [hcl.buffer]
        exact hnow
      · rw [hcopied] at hnew
        cases hnew

/-- A step of the monitor that opens no buffer, moves no pointer and makes no copy of `is_valid`. -/
theorem monitorMoves (h : Closing s) {dm' : DataManager} {m : Monitor} (hcl : s.dm.Closer dm')
    (hholds : m.Holds s.dm) (hcopied : ∀ new, m.copied = some new → s.monitor.copied = some new) :
    Closing { s with dm := dm', monitor := m } := by
  obtain ⟨hnext, -, hcurrent, hcopy⟩ := h.threadStep hcl s.producer s.consumer
  exact ⟨hnext, Monitor.Holds.congr hholds hcl.buffer hcl.next, hcurrent,
    fun hc new hnew => hcopy hc new (hcopied new hnew)⟩

theorem monitorStep (h : Closing s) (hs : s.step .monitor = some s') : Closing s' := by
  simp only [State.step, Option.map_eq_some_iff] at hs
  obtain ⟨⟨dm, m⟩, hstep, rfl⟩ := hs
  show Closing { s with dm := dm, monitor := m }
  have hholds := h.holds
  have hsame : s.dm.Closer s.dm := .refl _
  cases hm : s.monitor with
  | idle => simp [hm, Monitor.step] at hstep
  | isResizeable newCap | checkExit new old | readProducer new old | readConsumer new old
  | readSize new old | buffercondition new old =>
      rw [hm] at hstep hholds
      simp only [Monitor.step, Option.some_inj, Prod.mk.injEq] at hstep
      obtain ⟨rfl, rfl⟩ := hstep
      split
      · exact h.monitorMoves hsame (by first | exact hholds | exact ⟨hholds.1, hholds.2.1⟩)
          fun _ hc => nomatch hc
      · exact h.monitorMoves hsame hholds fun _ hc => nomatch hc
  | newBuffer newCap =>
      rw [hm] at hstep
      simp only [Monitor.step] at hstep
      split at hstep
      · cases hstep
        have hlt := h.next
        refine ⟨Nat.lt_succ_of_lt hlt, ⟨hlt.ne', Nat.lt_succ_self _⟩, fun hc => ?_,
          fun _ _ hc => nomatch hc⟩
        show (Function.update s.dm.heap s.dm.next _ s.dm.buffer).isValid = false
        rw [Function.update_of_ne hlt.ne]
        exact h.current hc
      · cases hstep
  | getOld new =>
      rw [hm] at hstep hholds
      cases hstep
      exact h.monitorMoves hsame ⟨hholds.1, hholds.2, rfl⟩ fun _ hc => nomatch hc
  | cancelDelete new =>
      rw [hm] at hstep hholds
      simp only [Monitor.step, Option.some_inj, Prod.mk.injEq] at hstep
      obtain ⟨rfl, rfl⟩ := hstep
      exact h.monitorMoves (s.dm.closer_onBuf _ fun hb => hb) trivial fun _ hc => nomatch hc
  | cancelFlag | setResizeable | setThreadAccess | clearResizing =>
      rw [hm] at hstep
      cases hstep
      exact h.monitorMoves ⟨rfl, rfl, fun _ hb => hb⟩ trivial fun _ hc => nomatch hc
  | setResizing new old | backOff new old =>
      rw [hm] at hstep hholds
      cases hstep
      exact h.monitorMoves ⟨rfl, rfl, fun _ hb => hb⟩ hholds fun _ hc => nomatch hc
  | copyPointers new old =>
      rw [hm] at hstep hholds
      simp only [Monitor.step] at hstep
      split at hstep
      · simp only [Option.some_inj, Prod.mk.injEq] at hstep
        obtain ⟨rfl, rfl⟩ := hstep
        exact h.monitorMoves (s.dm.closer_onBuf _ fun hb => hb) hholds fun _ hc => nomatch hc
      · cases hstep
  | copyValid new old =>
      rw [hm] at hstep hholds
      cases hstep
      -- the one statement that reads `is_valid`: what it reads is the current buffer's
      obtain ⟨hne, hlt, rfl⟩ := hholds
      refine ⟨h.next, ⟨hne, hlt, rfl⟩, fun hc => ?_, fun hc p hp => ?_⟩
      · show (Function.update s.dm.heap new _ s.dm.buffer).isValid = false
        rw [Function.update_of_ne hne.symm]
        exact h.current hc
      · obtain rfl := Option.some_inj.mp hp
        show (Function.update s.dm.heap new _ new).isValid = false
        rw [Function.update_self]
        exact h.current hc
  | copyArrays new old | copyProducer new old | copyConsumer new old =>
      rw [hm] at hstep hholds
      simp only [Monitor.step, Option.some_inj, Prod.mk.injEq] at hstep
      obtain ⟨rfl, rfl⟩ := hstep
      exact h.monitorMoves (s.dm.closer_onBuf _ fun hb => hb) hholds fun p hp => by rw [hm]; exact hp
  | setBuffer new old =>
      rw [hm] at hstep hholds
      cases hstep
      exact ⟨hholds.2.1, trivial, fun hc => h.copy hc new (by rw [hm]; rfl), fun _ _ hc => nomatch hc⟩
  | deleteOld old =>
      rw [hm] at hstep
      simp only [Monitor.step, Option.some_inj, Prod.mk.injEq] at hstep
      obtain ⟨rfl, rfl⟩ := hstep
      exact h.monitorMoves (s.dm.closer_onBuf _ fun hb => hb) trivial fun _ hc => nomatch hc

/-- **A timely step keeps the invariant**, whoever takes it. -/
theorem step (h : Closing s) {act : Act} (hs : restrict (ofFun State.step) Timely s act s') :
    Closing s' := by
  obtain ⟨ht, hs⟩ := hs
  cases act with
  | producer => exact h.producerStep ht hs
  | monitor => exact h.monitorStep hs
  | consumer =>
      simp only [ofFun, State.step, Option.map_eq_some_iff] at hs
      obtain ⟨⟨dm', t'⟩, hstep, rfl⟩ := hs
      exact h.threadStep (Thread.step_closer hstep) s.producer t'
  | produce o =>
      simp only [ofFun, State.step, Option.map_eq_some_iff] at hs
      obtain ⟨t', -, rfl⟩ := hs
      exact h.threadStep (.refl _) t' s.consumer
  | consume o =>
      simp only [ofFun, State.step, Option.map_eq_some_iff] at hs
      obtain ⟨t', -, rfl⟩ := hs
      exact h.threadStep (.refl _) s.producer t'
  | resize newCap =>
      simp only [ofFun, State.step] at hs
      split at hs
      · split at hs
        · cases hs
          exact h.monitorMoves (.refl _) trivial fun _ hc => nomatch hc
        · cases hs
      · cases hs
  | exitAlloc =>
      cases hs
      exact h.monitorMoves ⟨rfl, rfl, fun _ hb => hb⟩ h.holds fun _ hc => hc

theorem of_run {cap : Nat} {h : 0 < cap} {acts : List Act}
    (hrun : Run (restrict (ofFun State.step) Timely) (State.init cap h) acts s) : Closing s :=
  hrun.invariant (fun _ _ _ hi hs => hi.step hs) (init h)

end State.Closing

/-! ## Closing is not lost -/

/-- What `is_invalid()` would return. -/
def State.isInvalid (s : State) : Bool := !(s.dm.heap s.dm.buffer).isValid

/-- Somebody called `invalidate`: its store has been made, or is still to come. -/
def State.Called (s : State) : Prop :=
  s.closed = true ∨ s.producer.pc = .at Op.invalidate.code ∨
    ∃ p, s.producer.pc = .access p .invalidate [] .done

/-- Once closed, closed. -/
theorem State.step_closed {s s' : State} {act : Act} (hs : s.step act = some s')
    (hc : s.closed = true) : s'.closed = true := by
  cases act with
  | producer | produce _ | consumer | consume _ | monitor =>
      simp only [State.step, Option.map_eq_some_iff] at hs
      obtain ⟨r, -, rfl⟩ := hs
      simp [hc]
  | resize newCap =>
      simp only [State.step] at hs
      split at hs
      · split at hs
        · cases hs
          exact hc
        · cases hs
      · cases hs
  | exitAlloc =>
      cases hs
      exact hc

/-- No step goes past the store without making it. -/
theorem State.Called.step {s s' : State} {act : Act} (h : s.Called) (hs : s.step act = some s') :
    s'.Called := by
  rcases h with hc | hpc
  · exact .inl (State.step_closed hs hc)
  cases act with
  | producer =>
      simp only [State.step, Option.map_eq_some_iff] at hs
      obtain ⟨⟨dm', t'⟩, hstep, rfl⟩ := hs
      rcases hpc with hpc | ⟨p, hpc⟩
      · simp only [Thread.step, hpc, Op.invalidate, Option.some_inj, Prod.mk.injEq] at hstep
        exact .inr (.inr ⟨s.dm.buffer, by rw [← hstep.2]⟩)
      · exact .inl (by simp [State.invalidating, hpc])
  | produce o =>
      simp only [State.step, Option.map_eq_some_iff] at hs
      obtain ⟨t', hcall, rfl⟩ := hs
      rcases hpc with hpc | ⟨p, hpc⟩
      · simp [Thread.call, hpc] at hcall
      · simp [Thread.call, hpc] at hcall
  | consumer | consume o | monitor =>
      simp only [State.step, Option.map_eq_some_iff] at hs
      obtain ⟨r, -, rfl⟩ := hs
      exact .inr hpc
  | resize newCap =>
      simp only [State.step] at hs
      split at hs
      · split at hs
        · cases hs
          exact .inr hpc
        · cases hs
      · cases hs
  | exitAlloc =>
      cases hs
      exact .inr hpc

/-- **A queue that was closed in time stays closed.** Once `invalidate` has returned, `is_invalid`
is true, in the middle of a resize as well as after it, and stays so in whatever runs follow. -/
theorem close_survives_resize {cap : Nat} {h : 0 < cap} {acts acts' later : List Act} {s t : State}
    (hrun : Run (restrict (ofFun State.step) Timely) (State.init cap h)
      (acts ++ .produce .invalidate :: acts') s)
    (hdone : s.producer.pc = .idle)
    (hlater : Run (restrict (ofFun State.step) Timely) s later t) : t.isInvalid = true := by
  have hcalled : s.Called := by
    obtain ⟨m, -, hm⟩ := hrun.split
    cases hm with
    | cons hcall hrest =>
        refine hrest.of_restrict.invariant (fun _ _ _ hi hs => hi.step hs) (.inr (.inl ?_))
        obtain ⟨-, hcall⟩ := hcall
        simp only [ofFun, State.step, Option.map_eq_some_iff] at hcall
        obtain ⟨t', hcall, rfl⟩ := hcall
        unfold Thread.call at hcall
        split at hcall
        · cases hcall
          rfl
        · cases hcall
  have hclosed : s.closed = true := by
    rcases hcalled with hc | hpc | ⟨p, hpc⟩
    · exact hc
    · rw [hdone] at hpc
      cases hpc
    · rw [hdone] at hpc
      cases hpc
  have hstays : t.closed = true :=
    hlater.of_restrict.invariant (I := fun s => s.closed = true)
      (fun _ _ _ hc hs => State.step_closed hs hc) hclosed
  have hvalid := (State.Closing.of_run (hrun.append hlater)).current hstays
  rw [State.isInvalid, hvalid]
  rfl

instance (pc : Pc) : Decidable (pc = .idle) :=
  match pc with
  | .idle => .isTrue rfl
  | .at _ | .flag .. | .sizeCheck _ | .sizeGet _ | .sizeRead .. | .sizeLeave _ | .sizeRetry _
  | .access .. => .isFalse fun h => nomatch h

/-- The store falls between the copy of the pointers and the copy of `is_valid`. -/
theorem close_survives_resize_in_time :
    ∃ t : State, t.dm.buffer = 1 ∧ t.monitor = .idle ∧ t.isInvalid = true := by
  obtain ⟨s, hrun, hdone, hlater⟩ : ∃ s, Run (ofFun (guarded State.step Timely))
      (State.init 2 Nat.two_pos) ((.produce .push :: List.replicate 20 .producer) ++
        .produce .invalidate :: (.producer :: .resize 4 :: List.replicate 10 .monitor ++
          List.replicate 2 .producer)) s ∧
      s.producer.pc = .idle ∧
      (exec (guarded State.step Timely) s (List.replicate 9 .monitor)).any (fun t =>
        decide (t.dm.buffer = 1 ∧ t.monitor = .idle)) = true := by
    apply exists_run_of_any
    decide +kernel
  obtain ⟨t, hlater, hbuffer, hidle⟩ := exists_run_of_any hlater
  exact ⟨t, hbuffer, hidle, close_survives_resize (hrun.mono fun _ _ _ => ofFun_guarded) hdone
    (hlater.mono fun _ _ _ => ofFun_guarded)⟩

/-- **The close is lost** when the store falls between the copy of `is_valid` and the switch: both
calls have returned, and the queue is open. -/
theorem resize_loses_close :
    ∃ acts acts' s, Run (ofFun State.step) (State.init 2 Nat.two_pos)
        (acts ++ .produce .invalidate :: acts') s ∧
      s.producer.pc = .idle ∧ s.monitor = .idle ∧ s.isInvalid = false := by
  refine ⟨.produce .push :: List.replicate 20 .producer, .producer :: .resize 4 ::
    List.replicate 11 .monitor ++ List.replicate 2 .producer ++ List.replicate 8 .monitor, ?_⟩
  apply exists_run_of_any
  decide +kernel

end RaftLib.Threads
