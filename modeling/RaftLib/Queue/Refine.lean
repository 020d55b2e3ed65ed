/-
# `RaftLib.Queue.Refine` -- a session on the ring buffer is a session on the bounded list

The connection between the ring buffer's calls (`Session.Step`) and what they mean (`Fifo.Step`).
`Sim` relates the two states: the window between the pointers is the list, the validity mark is the
closing mark, and an outstanding reference points at the slot behind the window and reads the draft.

For each call one lemma says both things that can happen from related states (`Outcome`): the call
goes through, with the reply and the effect of the abstract call, or it stops and the abstract queue
has no such step either. The run theorem is the forward-simulation rule over the first half.
-/
import RaftLib.Queue.Contents
import RaftLib.Queue.Session

namespace RaftLib.Queue

open RaftLib.Logic.Program
open RaftLib.Logic.Steps

variable {T : Type} {cap : Nat} [NeZero cap]

/-- The session `s` is in the state that the abstract queue `q` stands for. -/
structure Sim (s : Session T cap) (q : Fifo T cap) : Prop where
  holds : Holds s.rb q.items
  validity : s.rb.buffer.isValid = !q.closed
  outstanding : s.rb.allocateCalled = q.draft.isSome
  place : ∀ v, q.draft = some v →
    s.ref = some s.rb.buffer.writePt.a ∧ s.rb.buffer.store s.rb.buffer.writePt.a = v
  flagUp : s.rb.allocateCalled = true → s.rb.buffer.threadAccess.flag .allocate = true

namespace Sim

variable {s : Session T cap} {q : Fifo T cap}

theorem init (uninit : Fin cap → T) : Sim (Session.init uninit) (Fifo.empty T cap) where
  holds := Holds.init uninit
  validity := rfl
  outstanding := rfl
  place := fun v hv => by simp [Fifo.empty] at hv
  flagUp := fun ha => by simp [Session.init, RingBuffer.init] at ha

theorem no_draft (h : Sim s q) (ha : s.rb.allocateCalled = false) : q.draft = none := by
  have := h.outstanding
  rw [ha] at this
  exact Option.isNone_iff_eq_none.mp (by simpa using this.symm)

/-- A consumer's call keeps everything but the items. -/
theorem consumed (h : Sim s q) {rb : RingBuffer T cap} (hsame : SameTail s.rb rb) {n : Nat}
    (hholds : Holds rb (q.items.drop n)) : Sim { s with rb := rb } (q.dropFirst n) where
  holds := hholds
  validity := hsame.isValid.trans h.validity
  outstanding := hsame.allocateCalled.trans h.outstanding
  place := fun v hv => by
    obtain ⟨href, hstore⟩ := h.place v hv
    exact ⟨by rw [hsame.writePt]; exact href, by rw [hsame.store, hsame.writePt]; exact hstore⟩
  flagUp := fun ha => hsame.allocateFlag.trans (h.flagUp (hsame.allocateCalled.symm.trans ha))

/-- A producer's call that leaves no reference outstanding. -/
theorem published (h : Sim s q) {rb : RingBuffer T cap} {es : List (T × RaftSignal)}
    (hroom : (q.items ++ es).length ≤ cap) (hholds : Holds rb (q.items ++ es))
    (hvalid : rb.buffer.isValid = s.rb.buffer.isValid) (halloc : rb.allocateCalled = false) :
    Sim { s with rb := rb } (q.publish es hroom) where
  holds := hholds
  validity := hvalid.trans h.validity
  outstanding := halloc
  place := fun v hv => by simp [Fifo.publish] at hv
  flagUp := fun ha => by simp [halloc] at ha

/-- A call that only raises or lowers a flag, and not the producer's `allocate` flag. -/
theorem flagged (h : Sim s q) {k : AccessKey} (hk : k ≠ .allocate) (b : Bool) :
    Sim { s with rb := RingBuffer.setHelper k b s.rb } q :=
  h.consumed (RingBuffer.sameTail_setHelper hk b s.rb) (n := 0) (h.holds.setHelper k b)

end Sim

/-! ## One call -/

/-- What can happen when `c` is called in related states: it goes through on both sides, with the
same reply and to related states, or on neither. -/
inductive Outcome (s : Session T cap) (q : Fifo T cap) (c : FifoCall T) : Prop
  | proceeds (r : Reply T) (t : Session T cap) (q' : Fifo T cap)
      (hrun : (Session.exec c).run s = .ok r t) (hstep : Fifo.Step q (c, r) q') (hsim : Sim t q')
  | stops (e : Stop) (t : Session T cap) (hrun : (Session.exec c).run s = .error e t)
      (hnone : ∀ r q', ¬Fifo.Step q (c, r) q')

section Outcomes

variable {s : Session T cap} {q : Fifo T cap} (h : Sim s q)
include h

theorem push_outcome (ha : s.rb.allocateCalled = false) (v : T) (sig : RaftSignal) :
    Outcome s q (.push v sig) := by
  by_cases hroom : q.items.length < cap
  · have hlen : (q.items ++ [(v, sig)]).length ≤ cap := by rw [List.length_append]; exact hroom
    refine .proceeds .done _ _ ?_ (.push (h.no_draft ha) hlen)
      (h.published hlen (RingBuffer.holds_pushed h.holds hroom v sig) rfl ha)
    exact run_bind_of_ok (Session.onQueue_ok (RingBuffer.localPush_run h.holds hroom v sig))
  · obtain ⟨rb, hrun⟩ := RingBuffer.localPush_full h.holds hroom (some v) sig
    refine .stops .wait _ (run_bind_of_error (Session.onQueue_error hrun)) fun r q' hstep => ?_
    cases hstep with
    | push hd hlen => exact hroom (by rwa [List.length_append] at hlen)

theorem insert_outcome (ha : s.rb.allocateCalled = false) (vs : List T) (sig : RaftSignal) :
    Outcome s q (.insert vs sig) := by
  by_cases hroom : q.items.length + vs.length ≤ cap
  · have hlen : (q.items ++ Fifo.signalLast vs sig).length ≤ cap := by simpa using hroom
    obtain ⟨rb, hrun, hholds, hvalid, halloc⟩ := RingBuffer.localInsert_run vs sig h.holds hroom
    exact .proceeds .done _ _ (run_bind_of_ok (Session.onQueue_ok hrun))
      (.insert (h.no_draft ha) hlen) (h.published hlen hholds hvalid (halloc.trans ha))
  · obtain ⟨rb, hrun⟩ := RingBuffer.localInsert_full vs sig h.holds hroom
    refine .stops .wait _ (run_bind_of_error (Session.onQueue_error hrun)) fun r q' hstep => ?_
    cases hstep with
    | insert hd hlen => exact hroom (by simpa using hlen)

theorem allocate_outcome (ha : s.rb.allocateCalled = false) : Outcome s q .allocate := by
  by_cases hroom : q.items.length < cap
  · refine .proceeds (.place (s.rb.buffer.store s.rb.buffer.writePt.a))
      { rb := RingBuffer.allocated s.rb, ref := some s.rb.buffer.writePt.a } _ ?_
      (.allocate _ (h.no_draft ha) hroom)
      ⟨RingBuffer.holds_allocated h.holds, h.validity, rfl, fun v hv => ⟨rfl, ?_⟩,
        fun _ => rfl⟩
    · exact run_bind_of_ok (Session.onQueue_ok (RingBuffer.localAllocate_run h.holds hroom))
    · exact Option.some_inj.mp hv
  · obtain ⟨rb, hrun⟩ := RingBuffer.localAllocate_full h.holds hroom
    refine .stops .wait _ (run_bind_of_error (Session.onQueue_error hrun)) fun r q' hstep => ?_
    cases hstep with
    | allocate v hd hlen => exact hroom hlen

theorem assign_outcome (ha : s.rb.allocateCalled = true) (v : T) : Outcome s q (.assign v) := by
  obtain ⟨w, hw⟩ := Option.isSome_iff_exists.mp (h.outstanding.symm.trans ha)
  obtain ⟨href, hstore⟩ := h.place w hw
  have hroom := q.draftFits (by simp [hw])
  refine .proceeds .done _ _ (Session.assign_run v href) (.assign w hw)
    ⟨RingBuffer.holds_putStore h.holds hroom v, h.validity, ha, fun u hu => ⟨href, ?_⟩, h.flagUp⟩
  rw [← Option.some_inj.mp hu]
  exact Function.update_self ..

theorem send_outcome (sig : RaftSignal) : Outcome s q (.send sig) := by
  cases hd : q.draft with
  | none =>
      have ha : s.rb.allocateCalled = false := by rw [h.outstanding, hd]; rfl
      exact .proceeds .done s q
        (run_bind_of_ok (Session.onQueue_ok (RingBuffer.send_run_nothing ha sig))) (.sendNothing hd) h
  | some v =>
      have ha : s.rb.allocateCalled = true := by rw [h.outstanding, hd]; rfl
      have hroom := q.draftFits (by simp [hd])
      have hlen : (q.items ++ [(v, sig)]).length ≤ cap := by rw [List.length_append]; exact hroom
      have hholds := RingBuffer.holds_sent h.holds hroom sig
      rw [(h.place v hd).2] at hholds
      exact .proceeds .done _ _ (run_bind_of_ok (Session.onQueue_ok (RingBuffer.send_run ha sig)))
        (.send hd hlen) (h.published hlen hholds rfl rfl)

theorem deallocate_outcome : Outcome s q .deallocate :=
  .proceeds .done
    { s with rb := RingBuffer.setHelper .allocate false { s.rb with allocateCalled := false } } _ rfl
    .deallocate
    ⟨⟨h.holds.running, h.holds.pos, h.holds.bounded, h.holds.items⟩, h.validity, rfl,
      fun v hv => by simp [Fifo.withoutDraft] at hv,
      fun ha => by simp [RingBuffer.setHelper] at ha⟩

theorem pop_outcome : Outcome s q .pop := by
  cases hq : q.items with
  | nil =>
      obtain ⟨e, rb, hrun⟩ := RingBuffer.pop_empty (hq ▸ h.holds)
      refine .stops e _ (run_bind_of_error (Session.onQueue_error hrun)) fun r q' hstep => ?_
      cases hstep with
      | pop he => simp [hq] at he
  | cons e es =>
      have hholds : Holds s.rb (e :: es) := hq ▸ h.holds
      refine .proceeds (.entry e) _ _
        (run_bind_of_ok (Session.onQueue_ok (RingBuffer.pop_run hholds))) (.pop (by rw [hq]; rfl))
        (h.consumed (RingBuffer.sameTail_popped s.rb) ?_)
      rw [hq]
      exact RingBuffer.holds_popped hholds

theorem popRange_outcome (n : Nat) : Outcome s q (.popRange n) := by
  by_cases hn : n ≤ q.items.length
  · obtain ⟨rb, hrun, hholds, hsame⟩ := RingBuffer.localPopRange_run n h.holds hn
    exact .proceeds _ _ _ (run_bind_of_ok (Session.onQueue_ok hrun)) (.popRange hn)
      (h.consumed hsame hholds)
  · obtain ⟨e, rb, hrun⟩ := RingBuffer.localPopRange_short n h.holds hn
    refine .stops e _ (run_bind_of_error (Session.onQueue_error hrun)) fun r q' hstep => ?_
    cases hstep with
    | popRange hlen => exact hn hlen

theorem peek_outcome : Outcome s q .peek := by
  cases hq : q.items with
  | nil =>
      obtain ⟨e, rb, hrun⟩ := RingBuffer.localPeek_empty (hq ▸ h.holds)
      refine .stops e _ (run_bind_of_error (Session.onQueue_error hrun)) fun r q' hstep => ?_
      cases hstep with
      | peek he => simp [hq] at he
  | cons e es =>
      have hholds : Holds s.rb (e :: es) := hq ▸ h.holds
      have hstore : s.rb.buffer.store s.rb.buffer.readPt.a = e.1 := congrArg Prod.fst hholds.head
      refine .proceeds (.entry e) _ q ?_ (.peek (by rw [hq]; rfl)) (h.flagged (k := .peek) (by decide) true)
      refine (run_bind_of_ok (Session.onQueue_ok (RingBuffer.localPeek_run hholds))).trans ?_
      show EStateM.Result.ok (Reply.entry (s.rb.buffer.store s.rb.buffer.readPt.a, e.2)) _ = _
      rw [hstore]

theorem recycle_outcome (n : Nat) : Outcome s q (.recycle n) := by
  have hvalid : s.rb.buffer.isValid = false ↔ q.closed = true := by rw [h.validity]; simp
  by_cases hn : n ≤ q.items.length ∨ s.rb.buffer.isValid = false
  · obtain ⟨rb, hrun, hholds, hsame⟩ := RingBuffer.localRecycle_run n h.holds hn
    exact .proceeds .done _ _ (run_bind_of_ok (Session.onQueue_ok hrun))
      (.recycle (hn.imp_right hvalid.mp)) (h.consumed hsame hholds)
  · obtain ⟨rb, hrun⟩ := RingBuffer.localRecycle_short n h.holds hn
    refine .stops .wait _ (run_bind_of_error (Session.onQueue_error hrun)) fun r q' hstep => ?_
    cases hstep with
    | recycle hlen => exact hn (hlen.imp_right hvalid.mpr)

theorem invalidate_outcome : Outcome s q .invalidate :=
  .proceeds .done { s with rb := { s.rb with buffer := { s.rb.buffer with isValid := false } } } _ rfl
    .invalidate
    ⟨⟨h.holds.running, h.holds.pos, h.holds.bounded, h.holds.items⟩, rfl, h.outstanding, h.place,
      h.flagUp⟩

theorem size_outcome : Outcome s q .size :=
  .proceeds (.count q.items.length) s q
    (run_bind_of_ok (Session.onQueue_ok (RingBuffer.size_run h.holds))) .size h

theorem spaceAvail_outcome : Outcome s q .spaceAvail :=
  .proceeds (.count (cap - q.items.length)) s q
    (run_bind_of_ok (Session.onQueue_ok (RingBuffer.spaceAvail_run h.holds))) .spaceAvail h

theorem isInvalid_outcome : Outcome s q .isInvalid := by
  refine .proceeds (.answer q.closed) s q ?_ .isInvalid h
  refine (run_bind_of_ok (Session.onQueue_ok (RingBuffer.isInvalid_run s.rb))).trans ?_
  rw [h.validity, Bool.not_not]
  rfl

/-- **One call.** Whatever is called within the producer's discipline goes through with the abstract
effect, or has to stop on both sides. -/
theorem call_outcome {c : FifoCall T} (hd : Session.Disciplined s c) : Outcome s q c := by
  cases c with
  | push v sig => exact push_outcome h (hd.starts rfl) v sig
  | insert vs sig => exact insert_outcome h (hd.starts rfl) vs sig
  | allocate => exact allocate_outcome h (hd.starts rfl)
  | assign v => exact assign_outcome h (hd.assigns v rfl) v
  | send sig => exact send_outcome h sig
  | deallocate => exact deallocate_outcome h
  | pop => exact pop_outcome h
  | popRange n => exact popRange_outcome h n
  | peek => exact peek_outcome h
  | unpeek => exact .proceeds .done _ q rfl .unpeek (h.flagged (k := .peek) (by decide) false)
  | recycle n => exact recycle_outcome h n
  | invalidate => exact invalidate_outcome h
  | size => exact size_outcome h
  | spaceAvail => exact spaceAvail_outcome h
  | isInvalid => exact isInvalid_outcome h

end Outcomes

/-! ## Whole sessions -/

/-- A disciplined call that goes through is matched by the abstract call with the same reply. -/
theorem step_sim (s : Session T cap) (l : FifoCall T × Reply T) (t : Session T cap)
    (q : Fifo T cap) (h : Sim s q) (hstep : Session.DisciplinedStep s l t) : ∃ q', Fifo.Step q l q' ∧ Sim t q' := by
  obtain ⟨hd, hrun⟩ := hstep
  cases call_outcome h hd with
  | proceeds r t' q' hrun' hstep' hsim =>
      have hsame : EStateM.Result.ok r t' = .ok l.2 t := hrun'.symm.trans hrun
      injection hsame with hr ht
      subst hr ht
      exact ⟨q', hstep', hsim⟩
  | stops e t' hrun' _ => exact absurd (hrun'.symm.trans hrun) (by simp)

/-- **A session on the ring buffer is a session on the bounded list**, call by call and reply by
reply. In the state it ends in, the two size queries return the list's length and what is left of
the capacity, and a call goes through exactly if the abstract call does. -/
theorem session_refines_fifo (uninit : Fin cap → T) {ls : List (FifoCall T × Reply T)}
    {s : Session T cap} (h : Run Session.DisciplinedStep (Session.init uninit) ls s) :
    ∃ q : Fifo T cap, Run Fifo.Step (Fifo.empty T cap) ls q ∧
      RingBuffer.size.run s.rb = .ok q.items.length s.rb ∧
      RingBuffer.spaceAvail.run s.rb = .ok (cap - q.items.length) s.rb ∧
      ∀ c, Session.Disciplined s c →
        ((∃ r t, Session.Step s (c, r) t) ↔ ∃ r q', Fifo.Step q (c, r) q') := by
  obtain ⟨q, hq, hsim⟩ := h.simulation step_sim (Sim.init uninit)
  refine ⟨q, hq, RingBuffer.size_run hsim.holds, RingBuffer.spaceAvail_run hsim.holds,
    fun c hc => ?_⟩
  cases call_outcome hsim hc with
  | proceeds r t q' hrun hstep _ => exact ⟨fun _ => ⟨r, q', hstep⟩, fun _ => ⟨r, t, hrun⟩⟩
  | stops e t hrun hnone =>
      constructor
      · rintro ⟨r, t', hrun'⟩
        exact absurd (hrun.symm.trans hrun') (by simp)
      · rintro ⟨r, q', hstep⟩
        exact absurd hstep (hnone r q')

/-- One place, filled twice: the second round meets equal indices and a wrap counter of one. -/
theorem session_refines_fifo_one_place :
    ∃ (s : Session Nat 1) (q : Fifo Nat 1),
      Run Fifo.Step (Fifo.empty Nat 1)
        [(.push 7 RaftSignal.eof, .done), (.pop, .entry (7, RaftSignal.eof)),
          (.insert [8] RaftSignal.quit, .done)] q ∧
      RingBuffer.size.run s.rb = .ok q.items.length s.rb := by
  obtain ⟨s, hs⟩ : ∃ s, Run Session.DisciplinedStep (Session.init fun _ : Fin 1 => 0)
      [(.push 7 RaftSignal.eof, .done), (.pop, .entry (7, RaftSignal.eof)),
        (.insert [8] RaftSignal.quit, .done)] s :=
    ⟨_, .cons ⟨⟨fun _ => rfl, fun _ hv => nomatch hv⟩, rfl⟩
      (.cons ⟨⟨(fun hf => nomatch hf), fun _ hv => nomatch hv⟩, rfl⟩
        (.cons ⟨⟨fun _ => rfl, fun _ hv => nomatch hv⟩, rfl⟩ (.nil _)))⟩
  obtain ⟨q, hq, hsize, -, -⟩ := session_refines_fifo (fun _ => 0) hs
  exact ⟨s, q, hq, hsize⟩

end RaftLib.Queue
