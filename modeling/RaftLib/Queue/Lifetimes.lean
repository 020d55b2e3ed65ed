/-
# `RaftLib.Queue.Lifetimes` -- which calls keep the objects of an inline class queue

The slots with an object in them should be those between the read and the write position and those
that the producer has been handed (`WellLived`). The two stretches lie next to each other, so this is
one statement about the stretch from the read position to the end of both (`Occupies`), and each
constructor or destructor call moves one of its ends.

`Meets` says when a call keeps the queue well lived. From a state that all calls so far have kept so,
it says exactly when (`lifetimes_iff`).
-/
import RaftLib.Queue.InlineClass

namespace RaftLib.Queue

open RaftLib.Logic.Lifetime (Places)
open RaftLib.Logic.Lifetime.Places
open RaftLib.Logic.Program
open RaftLib.Logic.Ring
open RaftLib.Logic.Steps (Run restrict)

/-! ## Stretches of a circular memory -/

section Occupies

variable {cap : Nat} [NeZero cap] {m : Places (Fin cap)} {r e : Nat}

/-- The slots that hold an object are those of the positions from `r` up to `e`. -/
def Occupies (m : Places (Fin cap)) (r e : Nat) : Prop :=
  ∀ i, (∃ o, m.place i = some o) ↔ ∃ p, r ≤ p ∧ p < e ∧ i = slot cap p

theorem Occupies.empty (r : Nat) : Occupies ({} : Places (Fin cap)) r r := by
  intro i
  constructor
  · rintro ⟨o, ho⟩
    cases ho
  · rintro ⟨p, hr, he, _⟩
    omega

/-- An empty stretch is the same wherever it lies. -/
theorem Occupies.of_empty (h : Occupies m r r) (r' : Nat) : Occupies m r' r' := by
  intro i
  rw [h i]
  constructor
  · rintro ⟨p, hr, he, _⟩
    omega
  · rintro ⟨p, hr, he, _⟩
    omega

/-- The slot behind a stretch that is not a full turn is raw. -/
theorem Occupies.free (h : Occupies m r e) (he : e < r + cap) :
    m.place (slot cap e) = none := by
  cases ho : m.place (slot cap e) with
  | none => rfl
  | some o =>
      obtain ⟨p, hrp, hpe, hslot⟩ := (h (slot cap e)).mp ⟨o, ho⟩
      exact absurd hslot.symm (slot_ne_of_lt hpe (by omega))

theorem Occupies.taken (h : Occupies m r e) {p : Nat} (hr : r ≤ p) (he : p < e) :
    ∃ o, m.place (slot cap p) = some o :=
  (h (slot cap p)).mpr ⟨p, hr, he, rfl⟩

/-- A constructor behind the stretch makes it longer. -/
theorem Occupies.construct (h : Occupies m r e) (hre : r ≤ e) :
    Occupies (m.construct (slot cap e)) r (e + 1) := by
  intro i
  by_cases hi : i = slot cap e
  · subst hi
    simp only [Places.construct, Function.update_self]
    exact ⟨fun _ => ⟨e, hre, Nat.lt_succ_self e, rfl⟩, fun _ => ⟨_, rfl⟩⟩
  · simp only [Places.construct, Function.update_of_ne hi]
    rw [h i]
    constructor
    · rintro ⟨p, hr, he, rfl⟩
      exact ⟨p, hr, by omega, rfl⟩
    · rintro ⟨p, hr, he, rfl⟩
      rcases Nat.lt_succ_iff_lt_or_eq.mp he with hlt | rfl
      · exact ⟨p, hr, hlt, rfl⟩
      · exact absurd rfl hi

/-- A destructor at its first slot makes it shorter. -/
theorem Occupies.destroy (h : Occupies m r e) (hre : r < e) (he : e ≤ r + cap) :
    Occupies (m.destroy (slot cap r)) (r + 1) e := by
  obtain ⟨o, ho⟩ := h.taken (le_refl r) hre
  rw [destroy_of_some ho]
  intro i
  by_cases hi : i = slot cap r
  · subst hi
    simp only [Function.update_self]
    constructor
    · rintro ⟨o', ho'⟩
      cases ho'
    · rintro ⟨p, hr, hpe, hslot⟩
      exact absurd hslot (slot_ne_of_lt (by omega) (by omega))
  · simp only [Function.update_of_ne hi]
    rw [h i]
    constructor
    · rintro ⟨p, hr, hpe, rfl⟩
      rcases Nat.eq_or_lt_of_le hr with rfl | hlt
      · exact absurd rfl hi
      · exact ⟨p, hlt, hpe, rfl⟩
    · rintro ⟨p, hr, hpe, rfl⟩
      exact ⟨p, by omega, hpe, rfl⟩

/-- A stretch of at most one turn has one end. -/
theorem Occupies.end_unique {e' : Nat} (h : Occupies m r e) (h' : Occupies m r e') (hre : r ≤ e)
    (hre' : r ≤ e') (he : e ≤ r + cap) (he' : e' ≤ r + cap) : e = e' := by
  rcases Nat.lt_trichotomy e e' with hlt | heq | hgt
  · obtain ⟨o, ho⟩ := h'.taken hre hlt
    rw [h.free (by omega)] at ho
    cases ho
  · exact heq
  · obtain ⟨o, ho⟩ := h.taken hre' hgt
    rw [h'.free (by omega)] at ho
    cases ho

end Occupies

/-! ## What should hold, and what the calls need -/

namespace Handed

variable {cap : Nat} [NeZero cap]

/-- The number of increments of the read pointer. -/
def readPos (s : Handed cap) : Nat := s.queue.rb.buffer.readPt.pos

/-- The number of increments of the write pointer. -/
def writePos (s : Handed cap) : Nat := s.queue.rb.buffer.writePt.pos

/-- **Well-defined lifetimes.** There is an object in exactly the slots between the read and the write
position and the slots handed out, and every object made is in a slot or has been destroyed once. -/
structure WellLived (s : Handed cap) : Prop where
  bounded : s.readPos ≤ s.writePos ∧ s.writePos ≤ s.readPos + cap
  live : ∀ i, (∃ o, s.queue.store.place i = some o) ↔
    (∃ p, s.readPos ≤ p ∧ p < s.writePos ∧ i = slot cap p) ∨
      ∃ j, j < s.out ∧ i = slot cap (s.writePos + j)
  ledger : Ledger s.queue.store

/-- **What a call needs.** Nothing else is handed out where an object is made; `send` and `send_range`
publish what is handed out; an `allocate_range` hands out nothing that is not handed out already; and
what `deallocate` gives up is at the read position. -/
def Meets (s : Handed cap) : ClassOp → Prop
  | .allocate | .push _ => s.out = 0
  | .allocateRange n => n ≤ s.out
  | .send _ => s.queue.rb.allocateCalled = true → s.out = 1
  | .sendRange _ => s.queue.rb.allocateCalled = true → s.queue.rb.nAllocated.toNat = s.out
  | .deallocate => s.out = 1 ∧ s.readPos = s.writePos
  | _ => True

/-- What the calls rely on besides, as long as all of them have met their conditions. -/
structure Regular (s : Handed cap) : Prop where
  running : s.queue.rb.resizing = false
  ordered : s.readPos ≤ s.writePos
  room : s.writePos + s.out ≤ s.readPos + cap
  one : s.out ≤ 1
  outstanding : s.out = 1 → s.queue.rb.allocateCalled = true
  none : s.queue.rb.allocateCalled = true → s.out = 0 → s.queue.rb.nAllocated.toNat = 0
  counted : s.queue.rb.nAllocated.toNat ≤ 1

variable {s t : Handed cap}

/-- The two stretches as one. -/
theorem wellLived_iff : WellLived s ↔
    (s.readPos ≤ s.writePos ∧ s.writePos ≤ s.readPos + cap) ∧
      Occupies s.queue.store s.readPos (s.writePos + s.out) ∧ Ledger s.queue.store := by
  have hsplit : s.readPos ≤ s.writePos → ∀ i : Fin cap,
      ((∃ p, s.readPos ≤ p ∧ p < s.writePos ∧ i = slot cap p) ∨
        ∃ j, j < s.out ∧ i = slot cap (s.writePos + j)) ↔
      ∃ p, s.readPos ≤ p ∧ p < s.writePos + s.out ∧ i = slot cap p := by
    intro hle i
    constructor
    · rintro (⟨p, hr, hw, hi⟩ | ⟨j, hj, hi⟩)
      · exact ⟨p, hr, by omega, hi⟩
      · exact ⟨s.writePos + j, by omega, by omega, hi⟩
    · rintro ⟨p, hr, hw, hi⟩
      by_cases hp : p < s.writePos
      · exact .inl ⟨p, hr, hp, hi⟩
      · exact .inr ⟨p - s.writePos, by omega, by rw [hi]; congr 1; omega⟩
  constructor
  · intro h
    exact ⟨h.bounded, fun i => (h.live i).trans (hsplit h.bounded.1 i), h.ledger⟩
  · rintro ⟨hbounded, hlive, hledger⟩
    exact ⟨hbounded, fun i => (hlive i).trans (hsplit hbounded.1 i).symm, hledger⟩

/-- The queue underneath holds as many entries as its positions are apart. -/
theorem Regular.holds (h : Regular s) :
    ∃ es, Holds s.queue.rb es ∧ s.writePos = s.readPos + es.length := by
  refine ⟨window s.queue.rb.buffer.entry s.readPos (s.writePos - s.readPos), ?_, ?_⟩
  · have hordered := h.ordered
    have hroom := h.room
    refine ⟨h.running, ?_, ?_, ?_⟩
    · rw [window_length]
      show s.writePos = s.readPos + _
      omega
    · rw [window_length]
      omega
    · rw [window_length]
      rfl
  · have := h.ordered
    rw [window_length]
    omega

end Handed

/-! ## The calls, evaluated -/

namespace ClassBuffer

variable {cap : Nat} {α : Type}

theorem onRing_ok {x : Call PUnit cap α} {q : ClassBuffer cap} {a : α} {rb : RingBuffer PUnit cap}
    (h : x.run q.rb = .ok a rb) : (onRing x).run q = .ok a { q with rb := rb } := by
  show onRing x q = _
  rw [onRing, h]

theorem onRing_error {x : Call PUnit cap α} {q : ClassBuffer cap} {e : Stop}
    {rb : RingBuffer PUnit cap} (h : x.run q.rb = .error e rb) :
    (onRing x).run q = .error e { q with rb := rb } := by
  show onRing x q = _
  rw [onRing, h]

variable {q q' : ClassBuffer cap}

theorem send_ok {signal : RaftSignal} (hrun : (send signal).run q = .ok ⟨⟩ q') :
    if q.rb.allocateCalled then q' = { q with rb := RingBuffer.sent signal q.rb } else q' = q := by
  split
  · next ha =>
    rw [send, onRing_ok (RingBuffer.send_run ha signal)] at hrun
    exact (EStateM.Result.ok.inj hrun).2.symm
  · next ha =>
    rw [send, onRing_ok (RingBuffer.send_run_nothing (by simpa using ha) signal)] at hrun
    exact (EStateM.Result.ok.inj hrun).2.symm

theorem deallocate_ok (hrun : deallocate.run q = .ok ⟨⟩ q') :
    q'.store = q.store.destroy q.rb.buffer.readPt.a ∧
      RingBuffer.SameCore { q.rb with allocateCalled := false } q'.rb := by
  have hq := (EStateM.Result.ok.inj hrun).2
  rw [← hq]
  exact ⟨rfl, RingBuffer.sameCore_setHelper .allocate false _⟩

theorem sendRange_ok {signal : RaftSignal} (hrun : (sendRange signal).run q = .ok ⟨⟩ q') :
    if q.rb.allocateCalled then
      q'.store = q.store ∧
        RingBuffer.SameCore { RingBuffer.incWriteBy q.rb.nAllocated.toNat q.rb with
          allocateCalled := false, nAllocated := 0 } q'.rb
    else q' = q := by
  split
  · next ha =>
    have hsend : (RingBuffer.sendRange signal).run q.rb = .ok ⟨⟩
        (RingBuffer.setHelper .allocateRange false
          { RingBuffer.incWriteBy q.rb.nAllocated.toNat
              (RingBuffer.putSignal q.rb.buffer.writePt.a signal q.rb) with
            buffer := { (RingBuffer.incWriteBy q.rb.nAllocated.toNat
              (RingBuffer.putSignal q.rb.buffer.writePt.a signal q.rb)).buffer with
                writeStats := { q.rb.buffer.writeStats with
                  count := q.rb.buffer.writeStats.count + q.rb.nAllocated } }
            allocateCalled := false
            nAllocated := 0 }) := by
      simp [RingBuffer.sendRange, ha, RingBuffer.incWriteBy, RingBuffer.putSignal]
    rw [sendRange, onRing_ok hsend] at hrun
    have hq := (EStateM.Result.ok.inj hrun).2
    rw [← hq]
    exact ⟨rfl, rfl, rfl, rfl, rfl, rfl⟩
  · next ha =>
    have ha' : q.rb.allocateCalled = false := by simpa using ha
    have hsend : (RingBuffer.sendRange signal).run q.rb = .ok ⟨⟩ q.rb := by
      simp [RingBuffer.sendRange, ha']
    rw [sendRange, onRing_ok hsend] at hrun
    exact (EStateM.Result.ok.inj hrun).2.symm

section Evaluated

variable [NeZero cap] {es : List (PUnit × RaftSignal)}

theorem allocate_ok (h : Holds q.rb es) (hrun : allocate.run q = .ok ⟨⟩ q') :
    es.length < cap ∧
      q' = ⟨RingBuffer.allocated q.rb, q.store.construct q.rb.buffer.writePt.a⟩ := by
  by_cases hroom : es.length < cap
  · refine ⟨hroom, ?_⟩
    rw [allocate, run_bind_of_ok (onRing_ok (RingBuffer.localAllocate_run h hroom))] at hrun
    exact (EStateM.Result.ok.inj hrun).2.symm
  · obtain ⟨rb', hfull⟩ := RingBuffer.localAllocate_full h hroom
    rw [allocate, run_bind_of_error (onRing_error hfull)] at hrun
    cases hrun

theorem allocateRange_ok (h : Holds q.rb es) {n : Nat} {slots : List (Fin cap)}
    (hrun : (allocateRange n).run q = .ok slots q') :
    n ≤ cap - es.length ∧ q'.store = q.store ∧
      RingBuffer.SameCore { q.rb with allocateCalled := true, nAllocated := UInt32.ofNat n } q'.rb := by
  by_cases hroom : n ≤ cap - es.length
  · refine ⟨hroom, ?_⟩
    have hwait := onRing_ok (RingBuffer.waitForSpace_run h .allocateRange hroom)
    obtain ⟨slots', rb', hout, hsame⟩ := RingBuffer.handOut_run n q.rb.buffer.writePt.a
      (RingBuffer.setHelper .allocateRange true q.rb)
    have hout' := onRing_ok (q := { q with rb := RingBuffer.setHelper .allocateRange true q.rb }) hout
    rw [allocateRange, run_bind_of_ok hwait] at hrun
    have hindex : writeIndex.run { q with rb := RingBuffer.setHelper .allocateRange true q.rb } =
      .ok q.rb.buffer.writePt.a { q with rb := RingBuffer.setHelper .allocateRange true q.rb } := rfl
    rw [run_bind_of_ok hindex, run_bind_of_ok hout'] at hrun
    have hq := (EStateM.Result.ok.inj hrun).2
    have hcore := (RingBuffer.sameCore_setHelper .allocateRange true q.rb).trans hsame
    rw [← hq]
    exact ⟨rfl, hcore.readPt, hcore.writePt, hcore.resizing, rfl, rfl⟩
  · obtain ⟨rb', hfull⟩ := RingBuffer.waitForSpace_full h .allocateRange hroom
    rw [allocateRange, run_bind_of_error (onRing_error hfull)] at hrun
    cases hrun

theorem push_ok (h : Holds q.rb es) {signal : RaftSignal}
    (hrun : (push signal).run q = .ok ⟨⟩ q') :
    es.length < cap ∧ q'.store = q.store.construct q.rb.buffer.writePt.a ∧
      RingBuffer.SameCore (RingBuffer.incWrite q.rb) q'.rb := by
  by_cases hroom : es.length < cap
  · refine ⟨hroom, ?_⟩
    have hwait := onRing_ok (RingBuffer.waitForSpace_run h .push (n := 1) (by omega))
    rw [push, run_bind_of_ok hwait] at hrun
    have hq := (EStateM.Result.ok.inj hrun).2
    rw [← hq]
    exact ⟨rfl, rfl, rfl, rfl, rfl, rfl⟩
  · obtain ⟨rb', hfull⟩ := RingBuffer.waitForSpace_full h .push (n := 1) (by omega)
    rw [push, run_bind_of_error (onRing_error hfull)] at hrun
    cases hrun

/-- What a consumer does to an entry: the destructor at the read index, and one step forward. -/
structure Consumed (q q' : ClassBuffer cap) : Prop where
  store : q'.store = q.store.destroy q.rb.buffer.readPt.a
  core : RingBuffer.SameCore (RingBuffer.incRead q.rb) q'.rb

theorem pop_ok (h : Holds q.rb es) {signal : RaftSignal} (hrun : pop.run q = .ok signal q') :
    0 < es.length ∧ Consumed q q' := by
  have henter := onRing_ok (q := q) (RingBuffer.enterBuffer_run .pop q.rb)
  have hlook := onRing_ok (q := { q with rb := RingBuffer.setHelper .pop true q.rb })
    (RingBuffer.lookForData_run (h.setHelper .pop true))
  have hnot := onRing_ok (q := { q with rb := RingBuffer.setHelper .pop true q.rb })
    (RingBuffer.notResizing_run (RingBuffer.setHelper .pop true q.rb))
  rw [RingBuffer.setHelper_resizing, h.running] at hnot
  rw [pop, run_bind_of_ok henter, run_bind_of_ok hnot] at hrun
  simp only [Bool.not_false, if_true] at hrun
  rw [run_bind_of_ok hlook] at hrun
  cases es with
  | nil =>
      simp only [RingBuffer.found] at hrun
      split at hrun
      · next hf => split at hf <;> cases hf
      · cases hrun
      · cases hrun
  | cons e es =>
      simp only [RingBuffer.found] at hrun
      have hq := (EStateM.Result.ok.inj hrun).2
      rw [← hq]
      exact ⟨Nat.succ_pos _, rfl, rfl, rfl, rfl, rfl, rfl⟩

/-- One round of `recycle`: it ends the call on a closed empty queue, and else drops an entry. -/
theorem recycle_succ_ok (h : Holds q.rb es) {n : Nat} (hrun : (recycle (n + 1)).run q = .ok ⟨⟩ q') :
    (q'.store = q.store ∧ RingBuffer.SameCore q.rb q'.rb) ∨
      ∃ m, 0 < es.length ∧ Consumed q m ∧ (recycle n).run m = .ok ⟨⟩ q' := by
  have henter := onRing_ok (q := q) (RingBuffer.enterBuffer_run .recycle q.rb)
  have hlook := onRing_ok (q := { q with rb := RingBuffer.setHelper .recycle true q.rb })
    (RingBuffer.lookForData_run (h.setHelper .recycle true))
  have hnot := onRing_ok (q := { q with rb := RingBuffer.setHelper .recycle true q.rb })
    (RingBuffer.notResizing_run (RingBuffer.setHelper .recycle true q.rb))
  rw [RingBuffer.setHelper_resizing, h.running] at hnot
  rw [recycle, run_bind_of_ok henter, run_bind_of_ok hnot] at hrun
  simp only [Bool.not_false, if_true] at hrun
  rw [run_bind_of_ok hlook] at hrun
  cases es with
  | nil =>
      refine .inl ?_
      simp only [RingBuffer.found] at hrun
      split at hrun
      · next hf => split at hf <;> cases hf
      · have hq := (EStateM.Result.ok.inj hrun).2
        rw [← hq]
        exact ⟨rfl, rfl, rfl, rfl, rfl, rfl⟩
      · cases hrun
  | cons e es =>
      refine .inr ⟨_, Nat.succ_pos _, ?_, hrun⟩
      exact ⟨rfl, rfl, rfl, rfl, rfl, rfl⟩

end Evaluated

end ClassBuffer

/-! ## One call -/

namespace Handed

variable {cap : Nat} [NeZero cap] {s t : Handed cap}

omit [NeZero cap] in
/-- A queue whose pointers and record are as before is as regular as before. -/
theorem Regular.of_sameCore (h : Regular s) (hcore : RingBuffer.SameCore s.queue.rb t.queue.rb)
    (hout : t.out = s.out) : Regular t := by
  obtain ⟨hread, hwrite, hresizing, hcalled, hcount⟩ := hcore
  refine ⟨?_, ?_, ?_, ?_, ?_, ?_, ?_⟩
  · rw [hresizing]
    exact h.running
  · rw [readPos, writePos, hread, hwrite]
    exact h.ordered
  · rw [readPos, writePos, hread, hwrite, hout]
    exact h.room
  · rw [hout]
    exact h.one
  · rw [hout, hcalled]
    exact h.outstanding
  · rw [hout, hcalled, hcount]
    exact h.none
  · rw [hcount]
    exact h.counted

/-- The write index is the slot of the write position. -/
theorem writePt_slot (s : Handed cap) : s.queue.rb.buffer.writePt.a = slot cap s.writePos :=
  (Pointer.slot_pos _).symm

theorem readPt_slot (s : Handed cap) : s.queue.rb.buffer.readPt.a = slot cap s.readPos :=
  (Pointer.slot_pos _).symm

/-- Where no object is made or destroyed, the end of the stretch must stay where it is. -/
theorem wellLived_of_same (hreg : Regular s) (hwell : WellLived s)
    (hstore : t.queue.store = s.queue.store) (hread : t.readPos = s.readPos)
    (hordered : s.readPos ≤ t.writePos)
    (hroom : t.writePos + t.out ≤ s.readPos + cap ∨ t.out = 0) :
    WellLived t ↔ t.writePos + t.out = s.writePos + s.out := by
  obtain ⟨_, hocc, hledger⟩ := wellLived_iff.mp hwell
  have hregroom := hreg.room
  have hregordered := hreg.ordered
  rw [wellLived_iff, hstore, hread]
  constructor
  · rintro ⟨hbounded, hocc', _⟩
    apply hocc'.end_unique hocc <;> omega
  · intro heq
    rw [heq]
    exact ⟨by omega, hocc, hledger⟩

/-- An object made at the write position must find nothing handed out there. -/
theorem wellLived_of_construct (hreg : Regular s) (hwell : WellLived s)
    (hlt : s.writePos < s.readPos + cap)
    (hstore : t.queue.store = s.queue.store.construct s.queue.rb.buffer.writePt.a)
    (hread : t.readPos = s.readPos) (hordered : s.readPos ≤ t.writePos)
    (hroom : t.writePos ≤ s.readPos + cap)
    (hend : s.out = 0 → t.writePos + t.out = s.writePos + 1) : WellLived t ↔ s.out = 0 := by
  obtain ⟨_, hocc, hledger⟩ := wellLived_iff.mp hwell
  rw [writePt_slot] at hstore
  constructor
  · intro ht
    by_contra hout
    obtain ⟨o, ho⟩ := hocc.taken hreg.ordered (show s.writePos < s.writePos + s.out by omega)
    apply hledger.not_construct ho
    rw [← hstore]
    exact ht.ledger
  · intro hout
    rw [hout, Nat.add_zero] at hocc
    rw [wellLived_iff, hstore, hread, hend hout]
    exact ⟨⟨hordered, hroom⟩, hocc.construct hreg.ordered, hledger.construct (hocc.free hlt)⟩

/-- An entry consumed takes its object with it. -/
theorem wellLived_of_consumed (hreg : Regular s) (hwell : WellLived s)
    (hpos : s.readPos < s.writePos) (hconsumed : ClassBuffer.Consumed s.queue t.queue)
    (hout : t.out = s.out) : WellLived t ∧ Regular t := by
  obtain ⟨_, hocc, hledger⟩ := wellLived_iff.mp hwell
  obtain ⟨hstore, hread, hwrite, hresizing, hcalled, hcount⟩ := hconsumed
  have hread' : t.readPos = s.readPos + 1 := by
    rw [readPos, hread]
    exact Pointer.pos_inc _
  have hwrite' : t.writePos = s.writePos := by
    rw [writePos, hwrite]
    rfl
  have hroom := hreg.room
  rw [readPt_slot] at hstore
  refine ⟨?_, ?_, ?_, ?_, ?_, ?_, ?_, ?_⟩
  · rw [wellLived_iff, hstore, hread', hwrite', hout]
    obtain ⟨o, ho⟩ := hocc.taken (le_refl _) (show s.readPos < s.writePos + s.out by omega)
    exact ⟨by omega, hocc.destroy (by omega) hroom, hledger.destroy ho⟩
  · rw [hresizing]
    exact hreg.running
  · omega
  · omega
  · rw [hout]
    exact hreg.one
  · rw [hout, hcalled]
    exact hreg.outstanding
  · rw [hout, hcalled, hcount]
    exact hreg.none
  · rw [hcount]
    exact hreg.counted

theorem recycle_keeps (n : Nat) : ∀ {q q' : ClassBuffer cap} {out : Nat},
    Regular ⟨q, out⟩ → WellLived ⟨q, out⟩ → (ClassBuffer.recycle n).run q = .ok ⟨⟩ q' →
      WellLived ⟨q', out⟩ ∧ Regular ⟨q', out⟩ := by
  induction n with
  | zero =>
      intro q q' out hreg hwell hrun
      obtain rfl := (EStateM.Result.ok.inj hrun).2
      exact ⟨hwell, hreg⟩
  | succ n ih =>
      intro q q' out hreg hwell hrun
      obtain ⟨es, hes, hlength⟩ := hreg.holds
      rcases ClassBuffer.recycle_succ_ok hes hrun with ⟨hstore, hcore⟩ | ⟨m, hpos, hm, hrest⟩
      · have hreg' : Regular ⟨q', out⟩ := hreg.of_sameCore hcore rfl
        refine ⟨?_, hreg'⟩
        have hwrite : writePos ⟨q', out⟩ = writePos ⟨q, out⟩ := by rw [writePos, hcore.writePt]; rfl
        have hread : readPos ⟨q', out⟩ = readPos ⟨q, out⟩ := by rw [readPos, hcore.readPt]; rfl
        apply (wellLived_of_same hreg hwell hstore hread ?_ (.inl ?_)).mpr
        · rw [hwrite]
        · rw [hwrite]
          exact hreg.ordered
        · rw [hwrite]
          exact hreg.room
      · obtain ⟨hwell', hreg'⟩ := wellLived_of_consumed (t := ⟨m, out⟩) hreg hwell
          (by omega) hm rfl
        exact ih hreg' hwell' hrest

/-- What one call does: it keeps the queue well lived exactly where it meets its condition, and then
the next call can rely on the same. -/
structure Decided (s : Handed cap) (op : ClassOp) (t : Handed cap) : Prop where
  iff : WellLived t ↔ Meets s op
  regular : Meets s op → Regular t

theorem decided_allocate (hreg : Regular s) (hwell : WellLived s) (hstep : Step s .allocate t) :
    Decided s .allocate t := by
  obtain ⟨es, hes, hlength⟩ := hreg.holds
  obtain ⟨hroom, hq⟩ := ClassBuffer.allocate_ok hes hstep.1
  have hout : t.out = max s.out 1 := hstep.2
  have hread : t.readPos = s.readPos := by rw [readPos, hq]; rfl
  have hwrite : t.writePos = s.writePos := by rw [writePos, hq]; rfl
  have hordered := hreg.ordered
  refine ⟨?_, ?_⟩
  · apply wellLived_of_construct hreg hwell (by omega) (by rw [hq]) hread
    · omega
    · omega
    · intro hzero
      rw [hout, hwrite, hzero]
      rfl
  · intro hzero
    have hzero : s.out = 0 := hzero
    rw [hzero] at hout
    refine ⟨?_, by omega, by omega, by omega, ?_, ?_, ?_⟩
    · rw [hq]
      exact hreg.running
    · intro _
      rw [hq]
      rfl
    · omega
    · rw [hq]
      exact hreg.counted

theorem decided_push {signal : RaftSignal} (hreg : Regular s) (hwell : WellLived s)
    (hstep : Step s (.push signal) t) : Decided s (.push signal) t := by
  obtain ⟨es, hes, hlength⟩ := hreg.holds
  obtain ⟨hroom, hstore, hcore⟩ := ClassBuffer.push_ok hes hstep.1
  have hout : t.out = s.out := hstep.2
  have hread : t.readPos = s.readPos := by rw [readPos, hcore.readPt]; rfl
  have hwrite : t.writePos = s.writePos + 1 := by
    rw [writePos, hcore.writePt]
    exact Pointer.pos_inc _
  have hordered := hreg.ordered
  refine ⟨?_, ?_⟩
  · apply wellLived_of_construct hreg hwell (by omega) hstore hread
    · omega
    · omega
    · omega
  · intro hzero
    have hzero : s.out = 0 := hzero
    refine ⟨?_, by omega, by omega, by omega, by omega, ?_, ?_⟩
    · rw [hcore.resizing]
      exact hreg.running
    · rw [hcore.allocateCalled, hcore.nAllocated, hout]
      exact hreg.none
    · rw [hcore.nAllocated]
      exact hreg.counted

theorem decided_send {signal : RaftSignal} (hreg : Regular s) (hwell : WellLived s)
    (hstep : Step s (.send signal) t) : Decided s (.send signal) t := by
  have hsend := ClassBuffer.send_ok hstep.1
  have hout : t.out = if s.queue.rb.allocateCalled then 0 else s.out := hstep.2
  have hordered := hreg.ordered
  have hroom := hreg.room
  by_cases ha : s.queue.rb.allocateCalled = true
  · rw [if_pos ha] at hsend hout
    have hread : t.readPos = s.readPos := by rw [readPos, hsend]; rfl
    have hwrite : t.writePos = s.writePos + 1 := by
      rw [writePos, hsend]
      exact Pointer.pos_inc _
    have hmeets : Meets s (.send signal) ↔ s.out = 1 := forall_prop_of_true ha
    refine ⟨?_, ?_⟩
    · rw [hmeets, wellLived_of_same hreg hwell (by rw [hsend]) hread (by omega) (.inr hout)]
      omega
    · intro hone
      rw [hmeets] at hone
      refine ⟨?_, by omega, by omega, by omega, by omega, ?_, ?_⟩
      · rw [hsend]
        exact hreg.running
      · intro hcalled
        rw [hsend] at hcalled
        cases hcalled
      · rw [hsend]
        exact hreg.counted
  · rw [if_neg ha] at hsend hout
    have hmeets : Meets s (.send signal) := fun h => absurd h ha
    have hts : t = s := by
      cases t
      cases s
      simp_all
    rw [hts]
    exact ⟨iff_of_true hwell hmeets, fun _ => hreg⟩

theorem decided_sendRange {signal : RaftSignal} (hreg : Regular s) (hwell : WellLived s)
    (hstep : Step s (.sendRange signal) t) : Decided s (.sendRange signal) t := by
  have hsend := ClassBuffer.sendRange_ok hstep.1
  have hout : t.out = if s.queue.rb.allocateCalled then 0 else s.out := hstep.2
  have hordered := hreg.ordered
  have hroom := hreg.room
  by_cases ha : s.queue.rb.allocateCalled = true
  · rw [if_pos ha] at hsend hout
    obtain ⟨hstore, hcore⟩ := hsend
    have hcounted := hreg.counted
    have hread : t.readPos = s.readPos := by rw [readPos, hcore.readPt]; rfl
    have hwrite : t.writePos = s.writePos + s.queue.rb.nAllocated.toNat := by
      rw [writePos, hcore.writePt]
      exact Pointer.pos_incBy _ (hcounted.trans (Nat.pos_of_neZero cap))
    have hmeets : Meets s (.sendRange signal) ↔ s.queue.rb.nAllocated.toNat = s.out :=
      forall_prop_of_true ha
    refine ⟨?_, ?_⟩
    · rw [hmeets, wellLived_of_same hreg hwell hstore hread (by omega) (.inr hout)]
      omega
    · intro hcount
      rw [hmeets] at hcount
      refine ⟨?_, by omega, by omega, by omega, by omega, ?_, ?_⟩
      · rw [hcore.resizing]
        exact hreg.running
      · intro hcalled
        rw [hcore.allocateCalled] at hcalled
        cases hcalled
      · rw [hcore.nAllocated]
        exact Nat.zero_le _
  · rw [if_neg ha] at hsend hout
    have hmeets : Meets s (.sendRange signal) := fun h => absurd h ha
    have hts : t = s := by
      cases t
      cases s
      simp_all
    rw [hts]
    exact ⟨iff_of_true hwell hmeets, fun _ => hreg⟩

theorem decided_allocateRange {n : Nat} (hreg : Regular s) (hwell : WellLived s)
    (hstep : Step s (.allocateRange n) t) : Decided s (.allocateRange n) t := by
  obtain ⟨es, hes, hlength⟩ := hreg.holds
  obtain ⟨slots, m, hm, hend⟩ := run_bind_ok.mp hstep.1
  obtain rfl : m = t.queue := (EStateM.Result.ok.inj hend).2
  obtain ⟨hfits, hstore, hcore⟩ := ClassBuffer.allocateRange_ok hes hm
  have hout : t.out = max s.out n := hstep.2
  have hread : t.readPos = s.readPos := by rw [readPos, hcore.readPt]; rfl
  have hwrite : t.writePos = s.writePos := by rw [writePos, hcore.writePt]; rfl
  have hordered := hreg.ordered
  have hroom := hreg.room
  have hone := hreg.one
  have hbounded := hes.bounded
  have hmeets : Meets s (.allocateRange n) ↔ n ≤ s.out := Iff.rfl
  refine ⟨?_, ?_⟩
  · rw [hmeets, wellLived_of_same hreg hwell hstore hread (by omega) (.inl (by omega))]
    omega
  · intro hn
    rw [hmeets] at hn
    have hcount : (UInt32.ofNat n).toNat = n := UInt32.toNat_ofNat_of_lt' (by
      have : UInt32.size = 4294967296 := rfl
      omega)
    refine ⟨?_, by omega, by omega, by omega, ?_, ?_, ?_⟩
    · rw [hcore.resizing]
      exact hreg.running
    · intro _
      rw [hcore.allocateCalled]
    · intro _ hzero
      rw [hcore.nAllocated, hcount]
      omega
    · rw [hcore.nAllocated, hcount]
      omega

theorem decided_deallocate (hreg : Regular s) (hwell : WellLived s) (hstep : Step s .deallocate t) :
    Decided s .deallocate t := by
  obtain ⟨hstore, hcore⟩ := ClassBuffer.deallocate_ok hstep.1
  have hout : t.out = 0 := hstep.2
  have hread : t.readPos = s.readPos := by rw [readPos, hcore.readPt]; rfl
  have hwrite : t.writePos = s.writePos := by rw [writePos, hcore.writePt]; rfl
  obtain ⟨hbounded, hocc, hledger⟩ := wellLived_iff.mp hwell
  have hone := hreg.one
  have hroom := hreg.room
  rw [readPt_slot] at hstore
  refine ⟨⟨?_, ?_⟩, ?_⟩
  · intro ht
    obtain ⟨_, hocc', hledger'⟩ := wellLived_iff.mp ht
    rw [hstore] at hocc' hledger'
    by_cases hempty : s.readPos = s.writePos
    · refine ⟨?_, hempty⟩
      by_contra hnone
      -- with nothing handed out and nothing queued the read slot is raw
      have hcap := Nat.pos_of_neZero cap
      have hfree := hocc.free (by omega)
      rw [show s.writePos + s.out = s.readPos by omega] at hfree
      exact not_ledger_destroy hfree hledger'
    · -- an entry that is still queued has lost its object
      obtain ⟨o, ho⟩ := hocc.taken (le_refl s.readPos) (by omega)
      rw [destroy_of_some ho] at hocc'
      obtain ⟨o', ho'⟩ := hocc'.taken (p := s.readPos) (by omega) (by omega)
      dsimp only at ho'
      rw [Function.update_self] at ho'
      cases ho'
  · rintro ⟨hsingle, hempty⟩
    obtain ⟨o, ho⟩ := hocc.taken (le_refl s.readPos) (by omega)
    have hgone := hocc.destroy (by omega) hroom
    rw [wellLived_iff, hstore, hread, hwrite, hout]
    refine ⟨hbounded, ?_, hledger.destroy ho⟩
    rw [show s.writePos + s.out = s.readPos + 1 by omega] at hgone
    rw [show s.writePos + 0 = s.readPos by omega]
    exact hgone.of_empty s.readPos
  · intro _
    refine ⟨?_, by omega, by omega, by omega, by omega, ?_, ?_⟩
    · rw [hcore.resizing]
      exact hreg.running
    · intro hcalled
      rw [hcore.allocateCalled] at hcalled
      cases hcalled
    · rw [hcore.nAllocated]
      exact hreg.counted

/-- A call that moves no pointer and touches no object changes nothing. -/
theorem decided_of_sameCore {op : ClassOp} (hreg : Regular s) (hwell : WellLived s)
    (hstore : t.queue.store = s.queue.store)
    (hcore : RingBuffer.SameCore s.queue.rb t.queue.rb) (hout : t.out = s.out)
    (hmeets : Meets s op) : Decided s op t := by
  have hread : t.readPos = s.readPos := by rw [readPos, hcore.readPt]; rfl
  have hwrite : t.writePos = s.writePos := by rw [writePos, hcore.writePt]; rfl
  refine ⟨iff_of_true ?_ hmeets, fun _ => hreg.of_sameCore hcore hout⟩
  apply (wellLived_of_same hreg hwell hstore hread ?_ (.inl ?_)).mpr
  · rw [hwrite, hout]
  · rw [hwrite]
    exact hreg.ordered
  · rw [hwrite, hout]
    exact hreg.room

theorem decided_peek (hreg : Regular s) (hwell : WellLived s) (hstep : Step s .peek t) :
    Decided s .peek t := by
  obtain ⟨es, hes, hlength⟩ := hreg.holds
  obtain ⟨p, m, hm, hend⟩ := run_bind_ok.mp hstep.1
  obtain rfl : m = t.queue := (EStateM.Result.ok.inj hend).2
  cases es with
  | nil =>
      obtain ⟨x, rb', hempty⟩ := RingBuffer.localPeek_empty hes
      rw [ClassBuffer.peek, ClassBuffer.onRing_error hempty] at hm
      cases hm
  | cons e es =>
      rw [ClassBuffer.peek, ClassBuffer.onRing_ok (RingBuffer.localPeek_run hes)] at hm
      have hq := (EStateM.Result.ok.inj hm).2
      apply decided_of_sameCore hreg hwell
      · rw [← hq]
      · rw [← hq]
        exact RingBuffer.sameCore_setHelper .peek true _
      · exact hstep.2
      · trivial

/-- **One call**, whichever it is. -/
theorem step_decided {op : ClassOp} (hreg : Regular s) (hwell : WellLived s) (hstep : Step s op t) :
    Decided s op t := by
  cases op with
  | allocate => exact decided_allocate hreg hwell hstep
  | send signal => exact decided_send hreg hwell hstep
  | deallocate => exact decided_deallocate hreg hwell hstep
  | allocateRange n => exact decided_allocateRange hreg hwell hstep
  | sendRange signal => exact decided_sendRange hreg hwell hstep
  | push signal => exact decided_push hreg hwell hstep
  | pop =>
      obtain ⟨es, hes, hlength⟩ := hreg.holds
      obtain ⟨signal, m, hm, hend⟩ := run_bind_ok.mp hstep.1
      obtain rfl : m = t.queue := (EStateM.Result.ok.inj hend).2
      obtain ⟨hpos, hconsumed⟩ := ClassBuffer.pop_ok hes hm
      obtain ⟨hwell', hreg'⟩ :=
        wellLived_of_consumed hreg hwell (by omega) hconsumed hstep.2
      exact ⟨iff_of_true hwell' trivial, fun _ => hreg'⟩
  | peek => exact decided_peek hreg hwell hstep
  | unpeek =>
      have hq := (EStateM.Result.ok.inj hstep.1).2
      apply decided_of_sameCore hreg hwell
      · rw [← hq]
      · rw [← hq]
        exact RingBuffer.sameCore_setHelper .peek false _
      · exact hstep.2
      · trivial
  | recycle range =>
      have hout : t.out = s.out := hstep.2
      obtain ⟨hwell', hreg'⟩ := recycle_keeps range hreg hwell hstep.1
      rw [← hout] at hwell' hreg'
      exact ⟨iff_of_true hwell' trivial, fun _ => hreg'⟩
  | invalidate =>
      have hq := (EStateM.Result.ok.inj hstep.1).2
      apply decided_of_sameCore hreg hwell
      · rw [← hq]
      · rw [← hq]
        exact ⟨rfl, rfl, rfl, rfl, rfl⟩
      · exact hstep.2
      · trivial

/-! ## Many calls -/

theorem regular_init : Regular (init : Handed cap) where
  running := rfl
  ordered := le_refl _
  room := by simp [init, readPos, writePos, ClassBuffer.init, RingBuffer.init, Data.init]
  one := Nat.zero_le _
  outstanding := by simp [init]
  none := by simp [init, ClassBuffer.init, RingBuffer.init]
  counted := le_refl _

theorem wellLived_init : WellLived (init : Handed cap) := by
  rw [wellLived_iff]
  refine ⟨⟨le_refl _, Nat.le_add_right _ _⟩, ?_, ledger_empty⟩
  show Occupies {} (readPos init) (writePos init + 0)
  exact Occupies.empty _

/-- **Any sequence of calls** that meet their conditions keeps the queue well lived. -/
theorem wellLived_of_run {ls : List ClassOp} (hrun : Run (restrict Step Meets) init ls s) :
    Regular s ∧ WellLived s :=
  hrun.invariant (I := fun s => Regular s ∧ WellLived s)
    (fun _ _ _ hs hl =>
      have hdecided := step_decided hs.1 hs.2 hl.2
      ⟨hdecided.regular hl.1, hdecided.iff.mpr hl.1⟩)
    ⟨regular_init, wellLived_init⟩

/-- **Lifetimes.** A sequence of calls that all meet their conditions ends well lived; the next call
keeps it so exactly if it meets its own; and a `deallocate` that does destroys the object allocated
and touches no other. -/
theorem lifetimes_iff {ls : List ClassOp} (hrun : Run (restrict Step Meets) init ls s) :
    WellLived s ∧ (∀ op t, Step s op t → (WellLived t ↔ Meets s op)) ∧
      ∀ t, Step s .deallocate t → Meets s .deallocate →
        ∃ o, s.queue.store.place (slot cap s.writePos) = some o ∧
          t.queue.store.destroyed = s.queue.store.destroyed ++ [o] ∧
          t.queue.store.place =
            Function.update s.queue.store.place (slot cap s.writePos) none := by
  obtain ⟨hreg, hwell⟩ := wellLived_of_run hrun
  refine ⟨hwell, fun op t hstep => (step_decided hreg hwell hstep).iff, ?_⟩
  rintro t hstep ⟨hsingle, hempty⟩
  obtain ⟨hstore, _⟩ := ClassBuffer.deallocate_ok hstep.1
  obtain ⟨o, ho⟩ := (wellLived_iff.mp hwell).2.1.taken (p := s.writePos) (by omega) (by omega)
  rw [readPt_slot, hempty, destroy_of_some ho] at hstore
  refine ⟨o, ho, ?_, ?_⟩
  · rw [hstore]
  · rw [hstore]

/-- An object allocated on an empty queue and given back, and one pushed and popped. -/
theorem lifetimes_iff_two : ∃ s : Handed 2,
    Run (restrict Step Meets) init [.allocate, .deallocate, .push 0, .pop] s ∧ WellLived s := by
  have hrun : Run (restrict Step Meets) (init : Handed 2) [.allocate, .deallocate, .push 0, .pop]
      ⟨_, 0⟩ :=
    .cons (t := ⟨_, 1⟩) ⟨by rfl, rfl, rfl⟩ <|
      .cons (t := ⟨_, 0⟩) ⟨by exact ⟨rfl, rfl⟩, rfl, rfl⟩ <|
        .cons (t := ⟨_, 0⟩) ⟨by rfl, rfl, rfl⟩ <|
          .cons (t := ⟨_, 0⟩) ⟨by trivial, rfl, rfl⟩ <| .nil _
  exact ⟨_, hrun, (lifetimes_iff hrun).1⟩

/-- Giving back an allocated object behind a queued one destroys the queued one; and what
`allocate_range` hands out is published as it is. -/
theorem class_lifetime_broken :
    (∃ t : Handed 2, Run Step init [.push 0, .allocate, .deallocate] t ∧ ¬WellLived t) ∧
      ∃ t : Handed 2, Run Step init [.allocateRange 1, .sendRange 0] t ∧ ¬WellLived t := by
  constructor
  · refine ⟨⟨_, 0⟩, .cons (t := ⟨_, 0⟩) ⟨rfl, rfl⟩ <| .cons (t := ⟨_, 1⟩) ⟨rfl, rfl⟩ <|
      .cons ⟨rfl, rfl⟩ <| .nil _, ?_⟩
    intro hwell
    obtain ⟨o, ho⟩ := (hwell.live 0).mpr (.inl ⟨0, by decide, by decide, rfl⟩)
    cases ho
  · refine ⟨⟨_, 0⟩, .cons (t := ⟨_, 1⟩) ⟨rfl, rfl⟩ <| .cons ⟨rfl, rfl⟩ <| .nil _, ?_⟩
    intro hwell
    obtain ⟨o, ho⟩ := (hwell.live 0).mpr (.inl ⟨0, by decide, by decide, rfl⟩)
    cases ho

end Handed

end RaftLib.Queue
