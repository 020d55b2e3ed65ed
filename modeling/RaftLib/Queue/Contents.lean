/-
# `RaftLib.Queue.Contents` -- what a ring buffer holds, and what each call does to it

The entries of a queue are the window of its two arrays between the read and the write position
(`Holds`). Full and empty are both states with equal indices; `sizeOnce_eq` is where the wrap
counters tell them apart.

Each call is evaluated on a queue that holds known entries (`*_run`), and its effect is one of two
moves: `Holds.publish` where the write pointer advances, `Holds.consume` where the read pointer does.
-/
import RaftLib.Queue.RingBuffer
import RaftLib.Queue.Fifo

namespace RaftLib.Queue

open RaftLib.Logic.Ring
open RaftLib.Logic.Program

variable {T : Type} {cap : Nat}

/-! ## Size from positions -/

/-- Two positions at most `c` apart are in the same turn or in neighbouring ones. -/
theorem Pointer.turn_cases {r w : Pointer cap} {n : Nat} (h : w.pos = r.pos + n) (hn : n ≤ cap) :
    (w.wrapA = r.wrapA ∧ (w.a : Nat) = r.a + n) ∨
      (w.wrapA = r.wrapA + 1 ∧ (w.a : Nat) + cap = r.a + n) := by
  have hw := w.a.isLt
  have hr := r.a.isLt
  simp only [Pointer.pos] at h
  rcases Nat.lt_trichotomy w.wrapA r.wrapA with hlt | heq | hgt
  · have := Nat.mul_le_mul_right cap hlt
    rw [Nat.succ_mul] at this
    omega
  · rw [heq] at h
    exact .inl ⟨heq, by omega⟩
  · have hle : w.wrapA ≤ r.wrapA + 1 := by
      by_contra hcon
      have := Nat.mul_le_mul_right cap (show r.wrapA + 2 ≤ w.wrapA by omega)
      rw [Nat.add_mul] at this
      omega
    have heq : w.wrapA = r.wrapA + 1 := by omega
    rw [heq, Nat.succ_mul] at h
    exact .inr ⟨heq, by omega⟩

/-- **One pass of `size` is right**, at equal indices too: there the wrap counters decide. -/
theorem Data.sizeOnce_eq {b : Data T cap} {n : Nat} (h : b.writePt.pos = b.readPt.pos + n)
    (hn : n ≤ cap) : b.sizeOnce = some n := by
  have hw := b.writePt.a.isLt
  have hr := b.readPt.a.isLt
  simp only [Data.sizeOnce, sizeFrom, Pointer.wrapIndicator, Pointer.val]
  rcases Pointer.turn_cases h hn with ⟨hwrap, ha⟩ | ⟨hwrap, ha⟩
  · by_cases hz : n = 0
    · rw [if_pos (by omega), if_neg (by omega), if_neg (by omega), hz]
    · rw [if_neg (by omega), if_pos (by omega), ha, Nat.add_sub_cancel_left]
  · by_cases hfull : n = cap
    · rw [if_pos (by omega), if_pos (by omega), hfull]
    · rw [if_neg (by omega), if_neg (by omega), Option.some_inj]
      omega

/-! ## What a consumer leaves alone, and the flags -/

/-- Nothing that a consumer must leave alone differs: the write pointer, the store, the validity
mark, the producer's record and its `allocate` flag. -/
structure SameTail (rb rb' : RingBuffer T cap) : Prop where
  writePt : rb'.buffer.writePt = rb.buffer.writePt
  store : rb'.buffer.store = rb.buffer.store
  isValid : rb'.buffer.isValid = rb.buffer.isValid
  allocateCalled : rb'.allocateCalled = rb.allocateCalled
  allocateFlag :
    rb'.buffer.threadAccess.flag .allocate = rb.buffer.threadAccess.flag .allocate

namespace SameTail

theorem refl (rb : RingBuffer T cap) : SameTail rb rb := ⟨rfl, rfl, rfl, rfl, rfl⟩

theorem trans {r₁ r₂ r₃ : RingBuffer T cap} (h₁ : SameTail r₁ r₂) (h₂ : SameTail r₂ r₃) :
    SameTail r₁ r₃ :=
  ⟨h₂.writePt.trans h₁.writePt, h₂.store.trans h₁.store, h₂.isValid.trans h₁.isValid,
    h₂.allocateCalled.trans h₁.allocateCalled, h₂.allocateFlag.trans h₁.allocateFlag⟩

end SameTail

namespace RingBuffer

theorem sameTail_setHelper {k : AccessKey} (hk : k ≠ .allocate) (v : Bool) (rb : RingBuffer T cap) :
    SameTail rb (setHelper k v rb) := by
  cases k with
  | allocate => exact absurd rfl hk
  | _ => exact ⟨rfl, rfl, rfl, rfl, rfl⟩

theorem setHelper_resizing (k : AccessKey) (v : Bool) (rb : RingBuffer T cap) :
    (setHelper k v rb).resizing = rb.resizing := by cases k <;> rfl

@[simp] theorem enterBuffer_run (k : AccessKey) (rb : RingBuffer T cap) :
    (enterBuffer k).run rb = .ok ⟨⟩ (setHelper k true rb) := rfl

@[simp] theorem exitBuffer_run (k : AccessKey) (rb : RingBuffer T cap) :
    (exitBuffer k).run rb = .ok ⟨⟩ (setHelper k false rb) := rfl

@[simp] theorem notResizing_run (rb : RingBuffer T cap) :
    (notResizing : Call T cap Bool).run rb = .ok (!rb.resizing) rb := rfl

@[simp] theorem isInvalid_run (rb : RingBuffer T cap) :
    (isInvalid : Call T cap Bool).run rb = .ok (!rb.buffer.isValid) rb := rfl

/-- Entering and leaving under `dm::size` cancel out. -/
theorem setHelper_size (rb : RingBuffer T cap) :
    setHelper .size false (setHelper .size true rb) = rb := by
  simp [setHelper]

/-! ### Calls that raise and lower flags only -/

section Flags

variable {I : RingBuffer T cap → Prop} (hI : ∀ k v rb, I rb → I (setHelper k v rb))

include hI

theorem enterBuffer_preserves (k : AccessKey) : Preserves I (enterBuffer k : Call T cap _) :=
  preserves_modify (hI k true)

theorem exitBuffer_preserves (k : AccessKey) : Preserves I (exitBuffer k : Call T cap _) :=
  preserves_modify (hI k false)

omit hI in
theorem notResizing_preserves : Preserves I (notResizing : Call T cap _) :=
  preserves_get.bind fun _ => preserves_pure _

omit hI in
theorem isInvalid_preserves : Preserves I (isInvalid : Call T cap _) :=
  preserves_get.bind fun _ => preserves_pure _

theorem size_preserves : Preserves I (size : Call T cap _) := by
  refine (enterBuffer_preserves hI .size).bind fun _ => notResizing_preserves.bind fun b => ?_
  refine Preserves.ite (preserves_get.bind fun rb => ?_)
    ((exitBuffer_preserves hI .size).bind fun _ => preserves_throw _)
  cases rb.buffer.sizeOnce with
  | some n => exact (exitBuffer_preserves hI .size).bind fun _ => preserves_pure n
  | none => exact preserves_throw _

theorem spaceAvail_preserves : Preserves I (spaceAvail : Call T cap _) :=
  (size_preserves hI).bind fun _ => preserves_pure _

theorem hasSpace_preserves (n : Nat) : Preserves I (hasSpace n : Call T cap _) :=
  notResizing_preserves.bind fun _ => Preserves.ite
    ((spaceAvail_preserves hI).bind fun _ => preserves_pure _) (preserves_pure _)

theorem waitForSpace_preserves
    (hstats : ∀ rb, I rb →
      I { rb with buffer := { rb.buffer with writeStats := rb.buffer.writeStats.noted } })
    (key : AccessKey) (n : Nat) : Preserves I (waitForSpace key n : Call T cap _) := by
  refine (enterBuffer_preserves hI key).bind fun _ => (hasSpace_preserves hI n).bind fun _ => ?_
  apply Preserves.ite (preserves_pure _)
  exact (exitBuffer_preserves hI key).bind fun _ => (preserves_modify hstats).bind fun _ =>
    preserves_throw _

theorem lookForData_preserves : Preserves I (lookForData : Call T cap _) :=
  (size_preserves hI).bind fun _ => Preserves.ite (preserves_pure _)
    (isInvalid_preserves.bind fun _ => Preserves.ite
      ((size_preserves hI).bind fun _ => preserves_pure _) (preserves_pure _))

theorem localPeek_preserves : Preserves I (localPeek : Call T cap _) := by
  refine (enterBuffer_preserves hI .peek).bind fun _ => notResizing_preserves.bind fun _ =>
    Preserves.ite ((lookForData_preserves hI).bind fun found => ?_)
      ((exitBuffer_preserves hI .peek).bind fun _ => preserves_throw _)
  cases found with
  | data => exact preserves_get.bind fun _ => preserves_pure _
  | closedAndEmpty => exact preserves_throw _
  | nothing => exact (exitBuffer_preserves hI .peek).bind fun _ => preserves_throw _

theorem localPeekRange_preserves (n : Nat) : Preserves I (localPeekRange n : Call T cap _) := by
  have hsize : Preserves I (size : Call T cap _) := size_preserves hI
  have hwait : Preserves I (do exitBuffer .peek; throw .wait : Call T cap (Fin cap)) :=
    (exitBuffer_preserves hI .peek).bind fun _ => preserves_throw _
  refine (enterBuffer_preserves hI .peek).bind fun _ => notResizing_preserves.bind fun _ =>
    Preserves.ite (hsize.bind fun _ => Preserves.ite (preserves_get.bind fun _ => preserves_pure _)
      (isInvalid_preserves.bind fun _ => Preserves.ite (hsize.bind fun _ => Preserves.ite
        (preserves_throw _) (hsize.bind fun _ => Preserves.ite (preserves_throw _) ?_)) ?_)) hwait
  · exact hwait
  · exact hwait

end Flags

/-! ### What no call but its own changes -/

/-- The pointers, the producer's record and the resize mark are the same. -/
structure SameCore (rb rb' : RingBuffer T cap) : Prop where
  readPt : rb'.buffer.readPt = rb.buffer.readPt
  writePt : rb'.buffer.writePt = rb.buffer.writePt
  resizing : rb'.resizing = rb.resizing
  allocateCalled : rb'.allocateCalled = rb.allocateCalled
  nAllocated : rb'.nAllocated = rb.nAllocated

theorem SameCore.trans {r₁ r₂ r₃ : RingBuffer T cap} (h₁ : SameCore r₁ r₂)
    (h₂ : SameCore r₂ r₃) : SameCore r₁ r₃ :=
  ⟨h₂.readPt.trans h₁.readPt, h₂.writePt.trans h₁.writePt, h₂.resizing.trans h₁.resizing,
    h₂.allocateCalled.trans h₁.allocateCalled, h₂.nAllocated.trans h₁.nAllocated⟩

theorem sameCore_setHelper (k : AccessKey) (v : Bool) (rb : RingBuffer T cap) :
    SameCore rb (setHelper k v rb) := by
  cases k <;> exact ⟨rfl, rfl, rfl, rfl, rfl⟩

/-- Clearing the signals of the slots handed out moves nothing. -/
theorem handOut_run (n : Nat) : ∀ (i : Fin cap) (rb : RingBuffer T cap),
    ∃ slots rb', (handOut i n).run rb = .ok slots rb' ∧ SameCore rb rb' := by
  induction n with
  | zero =>
      intro i rb
      exact ⟨[], rb, rfl, ⟨rfl, rfl, rfl, rfl, rfl⟩⟩
  | succ n ih =>
      intro i rb
      obtain ⟨slots, rb', hrun, hsame⟩ := ih ⟨(i + 1) % cap, Nat.mod_lt _ i.pos⟩
        (putSignal i RaftSignal.none rb)
      refine ⟨i :: slots, rb', ?_, hsame.readPt, hsame.writePt, hsame.resizing, hsame.allocateCalled,
        hsame.nAllocated⟩
      rw [handOut, run_bind_of_ok (EStateM.run_modify _ _), run_bind_of_ok hrun]
      rfl

/-! ## The queue after each call -/

/-- The queue after a push that went through. -/
def pushed (v : T) (s : RaftSignal) (rb : RingBuffer T cap) : RingBuffer T cap :=
  let i := rb.buffer.writePt.a
  setHelper .push false
    (incWrite (putSignal i s (countWrite (putStore i v (setHelper .push true rb)))))

/-- The queue after an `allocate` that went through. -/
def allocated (rb : RingBuffer T cap) : RingBuffer T cap :=
  { setHelper .allocate true rb with allocateCalled := true }

/-- The queue after a `send` of an allocated element. -/
def sent (s : RaftSignal) (rb : RingBuffer T cap) : RingBuffer T cap :=
  setHelper .allocate false
    (incWrite { countWrite (putSignal rb.buffer.writePt.a s rb) with allocateCalled := false })

theorem send_run {rb : RingBuffer T cap} (ha : rb.allocateCalled = true) (s : RaftSignal) :
    (send s).run rb = .ok ⟨⟩ (sent s rb) := by
  simp [send, ha, sent]

theorem send_run_nothing {rb : RingBuffer T cap} (ha : rb.allocateCalled = false) (s : RaftSignal) :
    (send s).run rb = .ok ⟨⟩ rb := by
  simp [send, ha]

/-- The queue after a pop that went through. -/
def popped (rb : RingBuffer T cap) : RingBuffer T cap :=
  let rb' := setHelper .pop true rb
  setHelper .pop false
    (incRead { rb' with buffer := { rb'.buffer with readStats := rb'.buffer.readStats.counted } })

/-- The queue after one round of `recycle` that dropped an entry. -/
def recycledOne (rb : RingBuffer T cap) : RingBuffer T cap :=
  setHelper .recycle false (incRead (setHelper .recycle true rb))

/-! ### What these do to the entries, and what they leave -/

theorem entry_putStore (i : Fin cap) (v : T) (rb : RingBuffer T cap) :
    (putStore i v rb).buffer.entry =
      Function.update rb.buffer.entry i (v, (rb.buffer.signal i).sig) :=
  rb.buffer.entry_store i v

theorem entry_putSignal (i : Fin cap) (s : RaftSignal) (rb : RingBuffer T cap) :
    (putSignal i s rb).buffer.entry = Function.update rb.buffer.entry i (rb.buffer.store i, s) :=
  rb.buffer.entry_signal i s

theorem entry_putStore_putSignal (i : Fin cap) (v : T) (s : RaftSignal) (rb : RingBuffer T cap) :
    (putSignal i s (countWrite (putStore i v rb))).buffer.entry =
      Function.update rb.buffer.entry i (v, s) := by
  rw [entry_putSignal]
  show Function.update (putStore i v rb).buffer.entry i ((putStore i v rb).buffer.store i, s) = _
  rw [entry_putStore, Function.update_idem]
  exact congrArg (fun x => Function.update rb.buffer.entry i (x, s)) (Function.update_self ..)

theorem sameTail_popped (rb : RingBuffer T cap) : SameTail rb (popped rb) :=
  ⟨rfl, rfl, rfl, rfl, rfl⟩

theorem sameTail_recycledOne (rb : RingBuffer T cap) : SameTail rb (recycledOne rb) :=
  ⟨rfl, rfl, rfl, rfl, rfl⟩

end RingBuffer

/-! ## What a queue holds -/

variable [NeZero cap]

/-- The queue holds the entries `es`, oldest first, and nobody is resizing it. -/
structure Holds (rb : RingBuffer T cap) (es : List (T × RaftSignal)) : Prop where
  running : rb.resizing = false
  pos : rb.buffer.writePt.pos = rb.buffer.readPt.pos + es.length
  bounded : es.length ≤ cap
  items : window rb.buffer.entry rb.buffer.readPt.pos es.length = es

namespace Holds

variable {rb : RingBuffer T cap} {es : List (T × RaftSignal)} {e : T × RaftSignal}

theorem setHelper (k : AccessKey) (v : Bool) (h : Holds rb es) :
    Holds (RingBuffer.setHelper k v rb) es := by
  cases k <;> exact ⟨h.running, h.pos, h.bounded, h.items⟩

/-- What a queue holds lies in its pointers and in the slots between them. -/
theorem congr (h : Holds rb es) {rb' : RingBuffer T cap} (hrun : rb'.resizing = rb.resizing)
    (hread : rb'.buffer.readPt = rb.buffer.readPt) (hwrite : rb'.buffer.writePt = rb.buffer.writePt)
    (hkeep : ∀ i < es.length, rb'.buffer.entry (slot cap (rb.buffer.readPt.pos + i)) =
      rb.buffer.entry (slot cap (rb.buffer.readPt.pos + i))) : Holds rb' es where
  running := hrun.trans h.running
  pos := by rw [hread, hwrite, h.pos]
  bounded := h.bounded
  items := by rw [hread, window_congr hkeep, h.items]

/-- A new queue holds nothing. -/
theorem init (uninit : Fin cap → T) : Holds (RingBuffer.init uninit) [] where
  running := rfl
  pos := by simp [RingBuffer.init, Data.init]
  bounded := Nat.zero_le _
  items := rfl

/-- The write index is the slot behind the window. -/
theorem writeIndex (h : Holds rb es) :
    rb.buffer.writePt.a = slot cap (rb.buffer.readPt.pos + es.length) := by
  rw [← h.pos, Pointer.slot_pos]

/-- **Publishing.** If the slot at the write index reads `e`, moving the write pointer appends `e`. -/
theorem publish (h : Holds rb es) (hroom : es.length < cap) {rb' : RingBuffer T cap}
    (hrun : rb'.resizing = false) (hread : rb'.buffer.readPt = rb.buffer.readPt)
    (hwrite : rb'.buffer.writePt = rb.buffer.writePt.inc)
    (hentry : rb'.buffer.entry = Function.update rb.buffer.entry rb.buffer.writePt.a e) :
    Holds rb' (es ++ [e]) where
  running := hrun
  pos := by rw [hread, hwrite, Pointer.pos_inc, h.pos, List.length_append]; rfl
  bounded := by rw [List.length_append]; exact hroom
  items := by
    rw [hread, hentry, h.writeIndex, List.length_append]
    show window _ _ (es.length + 1) = _
    rw [window_update_snoc hroom, h.items]

/-- **Consuming.** Moving the read pointer drops the oldest entry. -/
theorem consume (h : Holds rb (e :: es)) {rb' : RingBuffer T cap}
    (hrun : rb'.resizing = false) (hread : rb'.buffer.readPt = rb.buffer.readPt.inc)
    (hwrite : rb'.buffer.writePt = rb.buffer.writePt)
    (hentry : rb'.buffer.entry = rb.buffer.entry) : Holds rb' es where
  running := hrun
  pos := by
    have := h.pos
    rw [List.length_cons] at this
    rw [hread, hwrite, Pointer.pos_inc, this]
    omega
  bounded := (Nat.le_succ _).trans h.bounded
  items := by
    have := h.items
    rw [List.length_cons, window_cons, List.cons.injEq] at this
    rw [hread, hentry, Pointer.pos_inc, this.2]

/-- A queue holds one list of entries. -/
theorem unique {es' : List (T × RaftSignal)} (h : Holds rb es) (h' : Holds rb es') : es = es' := by
  have hlength : es.length = es'.length := by
    have := h.pos.symm.trans h'.pos
    omega
  rw [← h.items, ← h'.items, hlength]

/-- Where the `i`-th entry is, counted from the read index. -/
theorem entryAt (h : Holds rb es) {i : Nat} (hi : es[i]? = some e) :
    rb.buffer.entry (slot cap (i + rb.buffer.readPt.a)) = e := by
  obtain ⟨hlt, hget⟩ := List.getElem?_eq_some_iff.mp hi
  have hwindow := window_getElem rb.buffer.entry rb.buffer.readPt.pos es.length i
    (by simpa using hlt)
  have hslot : (slot cap (i + rb.buffer.readPt.a) : Fin cap) =
      slot cap (rb.buffer.readPt.pos + i) := by
    rw [slot_eq_iff, Nat.add_comm i, ← Pointer.pos_mod, Nat.mod_add_mod]
  rw [hslot, ← hwindow, ← hget]
  simp only [h.items]

/-- The entry at the read index is the oldest one. -/
theorem head (h : Holds rb (e :: es)) : rb.buffer.entry rb.buffer.readPt.a = e := by
  have := h.items
  rw [List.length_cons, window_cons, List.cons.injEq, Pointer.slot_pos] at this
  exact this.1

end Holds

namespace RingBuffer

variable {rb : RingBuffer T cap} {es : List (T × RaftSignal)} {e : T × RaftSignal}

/-! ### The guards, evaluated -/

theorem size_run (h : Holds rb es) : (size : Call T cap Nat).run rb = .ok es.length rb := by
  have hrun : (setHelper .size true rb).resizing = false := h.running
  have honce : (setHelper .size true rb).buffer.sizeOnce = some es.length :=
    Data.sizeOnce_eq h.pos h.bounded
  simp [size, hrun, honce, setHelper_size]

theorem spaceAvail_run (h : Holds rb es) :
    (spaceAvail : Call T cap Nat).run rb = .ok (cap - es.length) rb := by
  simp [spaceAvail, size_run h]

theorem hasSpace_run (h : Holds rb es) (n : Nat) :
    (hasSpace n : Call T cap Bool).run rb = .ok (decide (n ≤ cap - es.length)) rb := by
  simp [hasSpace, h.running, spaceAvail_run h]

/-- The producers' guard lets the call proceed exactly if there is room. -/
theorem waitForSpace_run (h : Holds rb es) (key : AccessKey) {n : Nat} (hn : n ≤ cap - es.length) :
    (waitForSpace key n).run rb = .ok ⟨⟩ (setHelper key true rb) := by
  simp [waitForSpace, hasSpace_run (h.setHelper key true), hn]

theorem waitForSpace_full (h : Holds rb es) (key : AccessKey) {n : Nat} (hn : ¬n ≤ cap - es.length) :
    ∃ rb', (waitForSpace key n).run rb = .error .wait rb' := by
  simp [waitForSpace, hasSpace_run (h.setHelper key true), hn]

/-- What a consumer's guard finds. -/
def found (rb : RingBuffer T cap) (es : List (T × RaftSignal)) : Found :=
  match es with
  | [] => if rb.buffer.isValid then .nothing else .closedAndEmpty
  | _ :: _ => .data

theorem lookForData_run (h : Holds rb es) :
    (lookForData : Call T cap Found).run rb = .ok (found rb es) rb := by
  cases es with
  | nil => cases hv : rb.buffer.isValid <;> simp [lookForData, found, size_run h, hv]
  | cons e es => simp [lookForData, found, size_run h]

/-! ### Producer calls, evaluated -/

theorem localPush_run (h : Holds rb es) (hroom : es.length < cap) (v : T) (s : RaftSignal) :
    (localPush (some v) s).run rb = .ok ⟨⟩ (pushed v s rb) := by
  have hwait := waitForSpace_run h .push (n := 1) (by omega)
  simp only [localPush, run_bind_of_ok hwait]
  rfl

theorem localPush_full (h : Holds rb es) (hfull : ¬es.length < cap) (item : Option T)
    (s : RaftSignal) : ∃ rb', (localPush item s).run rb = .error .wait rb' := by
  obtain ⟨rb', hwait⟩ := waitForSpace_full h .push (n := 1) (by omega)
  exact ⟨rb', run_bind_of_error hwait⟩

theorem holds_pushed (h : Holds rb es) (hroom : es.length < cap) (v : T) (s : RaftSignal) :
    Holds (pushed v s rb) (es ++ [(v, s)]) :=
  h.publish hroom h.running rfl rfl (entry_putStore_putSignal rb.buffer.writePt.a v s rb)

/-- **`insert`** pushes its elements one by one, the signal with the last. -/
theorem localInsert_run (vs : List T) (s : RaftSignal) :
    ∀ {rb : RingBuffer T cap} {es : List (T × RaftSignal)}, Holds rb es →
      es.length + vs.length ≤ cap →
      ∃ rb', (localInsert vs s).run rb = .ok ⟨⟩ rb' ∧ Holds rb' (es ++ Fifo.signalLast vs s) ∧
        rb'.buffer.isValid = rb.buffer.isValid ∧ rb'.allocateCalled = rb.allocateCalled := by
  induction vs with
  | nil =>
      intro rb es h _
      exact ⟨rb, rfl, by simpa using h, rfl, rfl⟩
  | cons v vs ih =>
      intro rb es h hroom
      rw [List.length_cons] at hroom
      have hlt : es.length < cap := by omega
      obtain ⟨rb', hrun, hholds, hvalid, halloc⟩ :=
        ih (holds_pushed h hlt v (if vs.length = 0 then s else RaftSignal.none))
          (by rw [List.length_append, List.length_singleton]; omega)
      refine ⟨rb', ?_, ?_, hvalid, halloc⟩
      · rw [localInsert, run_bind_of_ok (localPush_run h hlt v _), hrun]
      · rwa [List.append_assoc, List.singleton_append, ← Fifo.signalLast_cons] at hholds

/-- An insert of more elements than there is room for has to wait. -/
theorem localInsert_full (vs : List T) (s : RaftSignal) :
    ∀ {rb : RingBuffer T cap} {es : List (T × RaftSignal)}, Holds rb es →
      ¬es.length + vs.length ≤ cap → ∃ rb', (localInsert vs s).run rb = .error .wait rb' := by
  induction vs with
  | nil =>
      intro rb es h hfull
      exact absurd h.bounded hfull
  | cons v vs ih =>
      intro rb es h hfull
      rw [List.length_cons] at hfull
      by_cases hlt : es.length < cap
      · obtain ⟨rb', hrun⟩ :=
          ih (holds_pushed h hlt v (if vs.length = 0 then s else RaftSignal.none))
            (by rw [List.length_append, List.length_singleton]; omega)
        exact ⟨rb', by rw [localInsert, run_bind_of_ok (localPush_run h hlt v _), hrun]⟩
      · obtain ⟨rb', hrun⟩ := localPush_full h hlt (some v)
          (if vs.length = 0 then s else RaftSignal.none)
        exact ⟨rb', run_bind_of_error hrun⟩

theorem localAllocate_run (h : Holds rb es) (hroom : es.length < cap) :
    (localAllocate : Call T cap _).run rb = .ok rb.buffer.writePt.a (allocated rb) := by
  have hwait := waitForSpace_run h .allocate (n := 1) (by omega)
  simp only [localAllocate, run_bind_of_ok hwait]
  rfl

theorem localAllocate_full (h : Holds rb es) (hfull : ¬es.length < cap) :
    ∃ rb', (localAllocate : Call T cap _).run rb = .error .wait rb' := by
  obtain ⟨rb', hwait⟩ := waitForSpace_full h .allocate (n := 1) (by omega)
  exact ⟨rb', run_bind_of_error hwait⟩

theorem holds_allocated (h : Holds rb es) : Holds (allocated rb) es :=
  ⟨h.running, h.pos, h.bounded, h.items⟩

/-- A store at the write index does not touch what is published. -/
theorem holds_putStore (h : Holds rb es) (hroom : es.length < cap) (v : T) :
    Holds (putStore rb.buffer.writePt.a v rb) es where
  running := h.running
  pos := h.pos
  bounded := h.bounded
  items := by
    rw [entry_putStore, h.writeIndex]
    exact (window_update hroom _).trans h.items

theorem holds_sent (h : Holds rb es) (hroom : es.length < cap) (s : RaftSignal) :
    Holds (sent s rb) (es ++ [(rb.buffer.store rb.buffer.writePt.a, s)]) :=
  h.publish hroom h.running rfl rfl (entry_putSignal rb.buffer.writePt.a s rb)

/-! ### Consumer calls, evaluated -/

theorem pop_run (h : Holds rb (e :: es)) : (pop : Call T cap _).run rb = .ok e (popped rb) := by
  have hrun : (setHelper .pop true rb).resizing = false := h.running
  have hhead : (setHelper .pop true rb).buffer.entry (setHelper .pop true rb).buffer.readPt.a = e :=
    h.head
  simp [pop, localPop, hrun, lookForData_run (h.setHelper .pop true), found, hhead, popped]

theorem pop_empty (h : Holds rb []) : ∃ x rb', (pop : Call T cap _).run rb = .error x rb' := by
  have hrun : (setHelper .pop true rb).resizing = false := h.running
  cases hv : rb.buffer.isValid
  · have hv' : (setHelper .pop true rb).buffer.isValid = false := hv
    simp [pop, localPop, hrun, lookForData_run (h.setHelper .pop true), found, hv']
  · have hv' : (setHelper .pop true rb).buffer.isValid = true := hv
    simp [pop, localPop, hrun, lookForData_run (h.setHelper .pop true), found, hv']

theorem holds_popped (h : Holds rb (e :: es)) : Holds (popped rb) es :=
  h.consume h.running rfl rfl rfl

/-- **`pop_range`** takes the oldest `n` entries, in order. -/
theorem localPopRange_run (n : Nat) :
    ∀ {rb : RingBuffer T cap} {es : List (T × RaftSignal)}, Holds rb es → n ≤ es.length →
      ∃ rb', (localPopRange n).run rb = .ok (es.take n) rb' ∧ Holds rb' (es.drop n) ∧
        SameTail rb rb' := by
  induction n with
  | zero =>
      intro rb es h _
      exact ⟨rb, by simp [localPopRange], by simpa using h, SameTail.refl rb⟩
  | succ n ih =>
      intro rb es h hn
      cases es with
      | nil => simp at hn
      | cons e es =>
          obtain ⟨rb', hrun, hholds, hsame⟩ := ih (holds_popped h) (by simpa using hn)
          refine ⟨rb', ?_, hholds, (sameTail_popped rb).trans hsame⟩
          rw [localPopRange, run_bind_of_ok (pop_run h), run_bind_of_ok hrun]
          rfl

theorem localPopRange_short (n : Nat) :
    ∀ {rb : RingBuffer T cap} {es : List (T × RaftSignal)}, Holds rb es → ¬n ≤ es.length →
      ∃ x rb', (localPopRange n).run rb = .error x rb' := by
  induction n with
  | zero => intro rb es _ hn; exact absurd (Nat.zero_le _) hn
  | succ n ih =>
      intro rb es h hn
      cases es with
      | nil =>
          obtain ⟨x, rb', hrun⟩ := pop_empty h
          exact ⟨x, rb', run_bind_of_error hrun⟩
      | cons e es =>
          obtain ⟨x, rb', hrun⟩ := ih (holds_popped h) (by simpa using hn)
          exact ⟨x, rb', by rw [localPopRange, run_bind_of_ok (pop_run h), run_bind_of_error hrun]⟩

theorem localPeek_run (h : Holds rb (e :: es)) :
    (localPeek : Call T cap _).run rb =
      .ok (rb.buffer.readPt.a, e.2) (setHelper .peek true rb) := by
  have hrun : (setHelper .peek true rb).resizing = false := h.running
  have hsig : ((setHelper .peek true rb).buffer.signal
      (setHelper .peek true rb).buffer.readPt.a).sig = e.2 := congrArg Prod.snd h.head
  simp [localPeek, hrun, lookForData_run (h.setHelper .peek true), found, hsig]
  rfl

theorem localPeek_empty (h : Holds rb []) :
    ∃ x rb', (localPeek : Call T cap _).run rb = .error x rb' := by
  have hrun : (setHelper .peek true rb).resizing = false := h.running
  cases hv : rb.buffer.isValid
  · have hv' : (setHelper .peek true rb).buffer.isValid = false := hv
    simp [localPeek, hrun, lookForData_run (h.setHelper .peek true), found, hv']
  · have hv' : (setHelper .peek true rb).buffer.isValid = true := hv
    simp [localPeek, hrun, lookForData_run (h.setHelper .peek true), found, hv']

/-- A range of no more than what is there is handed out at once. -/
theorem localPeekRange_run (h : Holds rb es) {n : Nat} (hn : n ≤ es.length) :
    (localPeekRange n).run rb = .ok rb.buffer.readPt.a (setHelper .peek true rb) := by
  have hrun : (setHelper .peek true rb).resizing = false := h.running
  have hread : (setHelper .peek true rb).buffer.readPt = rb.buffer.readPt := rfl
  simp [localPeekRange, hrun, size_run (h.setHelper .peek true), hn, hread]

theorem holds_recycledOne (h : Holds rb (e :: es)) : Holds (recycledOne rb) es :=
  h.consume h.running rfl rfl rfl

/-- A round of `recycle` with an entry to drop drops it and goes on. -/
theorem localRecycle_succ (h : Holds rb (e :: es)) (n : Nat) :
    (localRecycle (n + 1)).run rb = (localRecycle n).run (recycledOne rb) := by
  have hrun : (setHelper .recycle true rb).resizing = false := h.running
  simp [localRecycle, hrun, lookForData_run (h.setHelper .recycle true), found, recycledOne]

/-- A round of `recycle` on an empty queue ends the call if the queue is closed and waits if not. -/
theorem localRecycle_empty (h : Holds rb []) (n : Nat) :
    ∃ rb', (localRecycle (n + 1)).run rb =
        (if rb.buffer.isValid then .error .wait rb' else .ok ⟨⟩ rb') ∧
      Holds rb' [] ∧ SameTail rb rb' := by
  have hrun : (setHelper .recycle true rb).resizing = false := h.running
  refine ⟨setHelper .recycle false (setHelper .recycle true rb), ?_,
    (h.setHelper .recycle true).setHelper .recycle false, ⟨rfl, rfl, rfl, rfl, rfl⟩⟩
  cases hv : rb.buffer.isValid
  · have hv' : (setHelper .recycle true rb).buffer.isValid = false := hv
    simp [localRecycle, hrun, lookForData_run (h.setHelper .recycle true), found, hv']
  · have hv' : (setHelper .recycle true rb).buffer.isValid = true := hv
    simp [localRecycle, hrun, lookForData_run (h.setHelper .recycle true), found, hv']

/-- **`recycle`** drops the oldest `n` entries, or all of them when the queue is closed. -/
theorem localRecycle_run (n : Nat) :
    ∀ {rb : RingBuffer T cap} {es : List (T × RaftSignal)}, Holds rb es →
      (n ≤ es.length ∨ rb.buffer.isValid = false) →
      ∃ rb', (localRecycle n).run rb = .ok ⟨⟩ rb' ∧ Holds rb' (es.drop n) ∧ SameTail rb rb' := by
  induction n with
  | zero =>
      intro rb es h _
      exact ⟨rb, rfl, by simpa using h, SameTail.refl rb⟩
  | succ n ih =>
      intro rb es h hn
      cases es with
      | nil =>
          have hclosed : rb.buffer.isValid = false := by simpa using hn
          obtain ⟨rb', hrun, hholds, hsame⟩ := localRecycle_empty h n
          exact ⟨rb', by simpa [hclosed] using hrun, by simpa using hholds, hsame⟩
      | cons e es =>
          obtain ⟨rb', hrun, hholds, hsame⟩ := ih (holds_recycledOne h) (by
            rcases hn with hn | hclosed
            · exact .inl (by simpa using hn)
            · exact .inr hclosed)
          exact ⟨rb', by rw [localRecycle_succ h, hrun], by simpa using hholds,
            (sameTail_recycledOne rb).trans hsame⟩

theorem localRecycle_short (n : Nat) :
    ∀ {rb : RingBuffer T cap} {es : List (T × RaftSignal)}, Holds rb es →
      ¬(n ≤ es.length ∨ rb.buffer.isValid = false) →
      ∃ rb', (localRecycle n).run rb = .error .wait rb' := by
  induction n with
  | zero => intro rb es _ hn; exact absurd (.inl (Nat.zero_le _)) hn
  | succ n ih =>
      intro rb es h hn
      cases es with
      | nil =>
          have hopen : rb.buffer.isValid = true := by simpa using hn
          obtain ⟨rb', hrun, _⟩ := localRecycle_empty h n
          exact ⟨rb', by simpa [hopen] using hrun⟩
      | cons e es =>
          obtain ⟨rb', hrun⟩ := ih (holds_recycledOne h) (by
            rintro (hlen | hclosed)
            · exact hn (.inl (by simpa using hlen))
            · exact hn (.inr hclosed))
          exact ⟨rb', by rw [localRecycle_succ h, hrun]⟩

end RingBuffer

end RaftLib.Queue
