/-
# `RaftLib.Queue.Bulk` -- `allocate_range`, the references filled in, `send_range`

What a producer does that wants to write `n` items in place, against `insert` of the same items, for the
three ways to store an element (`ringbufferheap.tcc`).

The slots handed out are the next `n` behind the contents, wherever the array ends, and they are published
in order (`handOut_slots`, `Holds.publishRange`). What goes with them is not that of `insert`: `send_range`
puts its signal on the slot at the write index before it moves, the first one it publishes. A queue of
class objects hands out its slots as they are, without a constructor, so that the assignments find no object
(`ClassQueue`). A queue of pointers hands out references through pointers that nobody has set, and publishes
as many items as the last `n_allocated` said, which its `local_allocate_n` never sets.
-/
import RaftLib.Logic.Steps
import RaftLib.Queue.ExtAlloc
import RaftLib.Queue.Lifetimes

namespace RaftLib.Queue

open RaftLib.Logic.Program
open RaftLib.Logic.Ring
open RaftLib.Logic.Steps

variable {T : Type} {cap : Nat}

/-! ## Elements stored inline -/

namespace RingBuffer

/-- The producer assigns to the references, one after the other. -/
def assign : List (Fin cap) → List T → RingBuffer T cap → RingBuffer T cap
  | i :: slots, v :: vs, rb => assign slots vs (putStore i v rb)
  | _, _, rb => rb

/-- `allocate_range`, the references filled with `vs`, and `send_range`. -/
def bulk (vs : List T) (signal : RaftSignal) : Call T cap PUnit := do
  let slots ← localAllocateN vs.length
  modify (assign slots vs)
  sendRange signal

end RingBuffer

/-! ## Elements of class type, stored inline -/

/-- A queue of class objects, and their values. -/
structure ClassQueue (T : Type) (cap : Nat) where
  queue : ClassBuffer cap
  value : Fin cap → T

namespace ClassQueue

/-- There is an object in the slot. A constructor has been run there, or the class is one whose objects
come into being with the storage (`implicitLifetime`, such as a struct of numbers). -/
def alive (implicitLifetime : Bool) (q : ClassQueue T cap) (i : Fin cap) : Bool :=
  implicitLifetime || (q.queue.store.place i).isSome

/-- What a reader finds in the slot. -/
def shown (implicitLifetime : Bool) (q : ClassQueue T cap) (i : Fin cap) : Option T :=
  if q.alive implicitLifetime i then some (q.value i) else none

/-- A member function that returns. -/
def call {α : Type} (x : ClassCall cap α) (q : ClassQueue T cap) : Option (α × ClassQueue T cap) :=
  match x.run q.queue with
  | .ok a queue => some (a, { q with queue := queue })
  | .error _ _ => none

/-- The producer assigns to the references, which goes wrong at a slot without an object. -/
def assign (implicitLifetime : Bool) : List (Fin cap) → List T → ClassQueue T cap →
    Option (ClassQueue T cap)
  | i :: slots, v :: vs, q =>
      if q.alive implicitLifetime i then
        assign implicitLifetime slots vs { q with value := Function.update q.value i v }
      else
        none
  | _, _, q => some q

/-- `allocate_range`, the references filled with `vs`, and `send_range`. -/
def bulk (implicitLifetime : Bool) (vs : List T) (signal : RaftSignal) (q : ClassQueue T cap) :
    Option (ClassQueue T cap) := do
  let handed ← q.call (ClassBuffer.allocateRange vs.length)
  let filled ← handed.2.assign implicitLifetime handed.1 vs
  let sent ← filled.call (ClassBuffer.sendRange signal)
  return sent.2

/-- `local_insert_helper`: a push for each item, which copies it into the slot at the write index, the
signal with the last. -/
def insert : List T → RaftSignal → ClassQueue T cap → Option (ClassQueue T cap)
  | [], _, q => some q
  | v :: vs, signal, q => do
      let pushed ← q.call (ClassBuffer.push (if vs.length = 0 then signal else RaftSignal.none))
      insert vs signal { pushed.2 with
        value := Function.update pushed.2.value q.queue.rb.buffer.writePt.val v }

end ClassQueue

/-! ## Elements stored through a pointer -/

/-- A queue of pointers and the objects: `memory` has the value at every address with an object. -/
structure PtrQueue (T : Type) (cap : Nat) where
  queue : RingBuffer Addr cap
  memory : Addr → Option T

namespace PtrQueue

/-- `local_allocate_n`: the references are to what the slots' pointers point at. -/
def localAllocateN (n : Nat) : Call Addr cap (List Addr) := do
  RingBuffer.waitForSpace .allocateRange n
  let rb ← get
  let slots ← RingBuffer.handOut rb.buffer.writePt.val n
  modify fun rb => { rb with allocateCalled := true }
  return slots.map rb.buffer.store

/-- The producer assigns to the references, which goes wrong at an address without an object. -/
def assign : List Addr → List T → (Addr → Option T) → Option (Addr → Option T)
  | a :: refs, v :: vs, memory =>
      if (memory a).isSome then assign refs vs (Function.update memory a (some v)) else none
  | _, _, memory => some memory

/-- `allocate_range`, the references filled with `vs`, and `send_range`. -/
def bulk (vs : List T) (signal : RaftSignal) (q : PtrQueue T cap) : Option (PtrQueue T cap) :=
  match (localAllocateN vs.length).run q.queue with
  | .ok refs rb =>
      match assign refs vs q.memory, (RingBuffer.sendRange signal).run rb with
      | some memory, .ok _ rb => some ⟨rb, memory⟩
      | _, _ => none
  | .error _ _ => none

/-- The objects that `new` makes for the items of an insert. -/
def construct : List Addr → List T → (Addr → Option T) → (Addr → Option T)
  | a :: addrs, v :: vs, memory => construct addrs vs (Function.update memory a (some v))
  | _, _, memory => memory

/-- `insert` of `vs`, which are not items the kernel has peeked at: each is copied to an object of its
own, for which `new` returns the next of `addrs`. -/
def insert (addrs : List Addr) (vs : List T) (signal : RaftSignal) (q : PtrQueue T cap) :
    Option (PtrQueue T cap) :=
  match (RingBuffer.localInsert addrs signal).run q.queue with
  | .ok _ rb => some ⟨rb, construct addrs vs q.memory⟩
  | .error _ _ => none

end PtrQueue

/-- A call on a queue of pointers, as far as the queue is concerned. -/
inductive PtrCall where
  | push (item : Option Addr) (signal : RaftSignal)
  | insert (addrs : List Addr) (signal : RaftSignal)
  | allocate (addr : Addr)
  | send (signal : RaftSignal)
  | deallocate
  | allocateRange (n : Nat)
  | sendRange (signal : RaftSignal)
  | pop
  | peek
  | peekRange (n : Nat)
  | unpeek
  | recycle (range : Nat)
  | invalidate

/-- The call, run. `allocate` puts the address of a new object into the slot that it was given. -/
def PtrCall.exec : PtrCall → Call Addr cap PUnit
  | .push item signal => RingBuffer.localPush item signal
  | .insert addrs signal => RingBuffer.localInsert addrs signal
  | .allocate addr => do
      let i ← RingBuffer.localAllocate
      modify (RingBuffer.putStore i addr)
  | .send signal => RingBuffer.send signal
  | .deallocate => RingBuffer.deallocate
  | .allocateRange n => do let _ ← PtrQueue.localAllocateN n
  | .sendRange signal => RingBuffer.sendRange signal
  | .pop => do let _ ← RingBuffer.pop
  | .peek => do let _ ← RingBuffer.localPeek
  | .peekRange n => do let _ ← RingBuffer.localPeekRange n
  | .unpeek => RingBuffer.unpeek
  | .recycle range => RingBuffer.localRecycle range
  | .invalidate => RingBuffer.invalidate

/-- A call that returned, or stopped. -/
def PtrCall.Step (rb : RingBuffer Addr cap) (c : PtrCall) (rb' : RingBuffer Addr cap) : Prop :=
  (PtrCall.exec c).run rb = .ok ⟨⟩ rb' ∨ ∃ e, (PtrCall.exec c).run rb = .error e rb'

/-! ## What is to be the same -/

section Same

variable [NeZero cap]

/-- Two queues show the same: entries, validity, and whether the producer has something in hand. What
an element shows is `view`. -/
def SameQueue {β : Type} (view₁ view₂ : T → β) (rb₁ rb₂ : RingBuffer T cap) : Prop :=
  (∃ es₁ es₂, Holds rb₁ es₁ ∧ Holds rb₂ es₂ ∧
    es₁.map (Prod.map view₁ id) = es₂.map (Prod.map view₂ id)) ∧
  rb₁.buffer.isValid = rb₂.buffer.isValid ∧ rb₁.allocateCalled = rb₂.allocateCalled

/-- **Bulk allocation equals insertion**, for elements stored inline: both go through, and leave the same. -/
def RingBuffer.BulkInserts (rb : RingBuffer T cap) (vs : List T) (signal : RaftSignal) : Prop :=
  ∃ rb₁ rb₂, (bulk vs signal).run rb = .ok ⟨⟩ rb₁ ∧ (localInsert vs signal).run rb = .ok ⟨⟩ rb₂ ∧
    SameQueue id id rb₁ rb₂

/-- The entries of a queue of class objects, with what a reader finds. -/
structure ClassQueue.Shows (implicitLifetime : Bool) (q : ClassQueue T cap)
    (es : List (Option T × RaftSignal)) : Prop where
  held : Holds q.queue.rb (es.map (Prod.map (fun _ => ⟨⟩) id))
  values : es.map Prod.fst = window (q.shown implicitLifetime) q.queue.rb.buffer.readPt.pos es.length

/-- Bulk allocation equals insertion, for class objects. -/
def ClassQueue.BulkInserts (implicitLifetime : Bool) (q : ClassQueue T cap) (vs : List T)
    (signal : RaftSignal) : Prop :=
  ∃ q₁ q₂, q.bulk implicitLifetime vs signal = some q₁ ∧ q.insert vs signal = some q₂ ∧
    (∃ es, q₁.Shows implicitLifetime es ∧ q₂.Shows implicitLifetime es) ∧
    q₁.queue.rb.buffer.isValid = q₂.queue.rb.buffer.isValid ∧
    q₁.queue.rb.allocateCalled = q₂.queue.rb.allocateCalled

/-- Bulk allocation equals insertion, for elements stored through a pointer. -/
def PtrQueue.BulkInserts (q : PtrQueue T cap) (addrs : List Addr) (vs : List T)
    (signal : RaftSignal) : Prop :=
  ∃ q₁ q₂, q.bulk vs signal = some q₁ ∧ q.insert addrs vs signal = some q₂ ∧
    SameQueue q₁.memory q₂.memory q₁.queue q₂.queue

end Same

/-! ## The slots handed out -/

namespace RingBuffer

section Slots

variable [NeZero cap]

/-- The `n` slots from position `p` on. -/
def slotsFrom (p n : Nat) : List (Fin cap) := (List.range n).map fun k => slot cap (p + k)

theorem slotsFrom_succ (p n : Nat) :
    (slotsFrom p (n + 1) : List (Fin cap)) = slot cap p :: slotsFrom (p + 1) n := by
  simp only [slotsFrom, List.range_succ_eq_map, List.map_cons, List.map_map, Nat.add_zero,
    List.cons.injEq, true_and]
  refine List.map_congr_left fun k _ => ?_
  simp [Nat.add_assoc, Nat.add_comm 1]

theorem mem_slotsFrom {p n : Nat} {i : Fin cap} :
    i ∈ slotsFrom p n ↔ ∃ k < n, slot cap (p + k) = i := by
  simp [slotsFrom]

/-- A slot among the next `c` is not met again within them. -/
theorem slot_notMem {p q n : Nat} (hp : p < q) (hq : q + n ≤ p + cap) :
    slot cap p ∉ slotsFrom q n := by
  rw [mem_slotsFrom]
  rintro ⟨k, hk, h⟩
  exact slot_ne_of_lt (c := cap) (n := q + k) (by omega) (by omega) h.symm

/-- All that `local_allocate_n` and the assignments leave alone. -/
structure SameFrame (rb rb' : RingBuffer T cap) : Prop where
  readPt : rb'.buffer.readPt = rb.buffer.readPt
  writePt : rb'.buffer.writePt = rb.buffer.writePt
  isValid : rb'.buffer.isValid = rb.buffer.isValid
  resizing : rb'.resizing = rb.resizing
  allocateCalled : rb'.allocateCalled = rb.allocateCalled
  nAllocated : rb'.nAllocated = rb.nAllocated

omit [NeZero cap] in
theorem SameFrame.refl (rb : RingBuffer T cap) : SameFrame rb rb := ⟨rfl, rfl, rfl, rfl, rfl, rfl⟩

/-- **The slots handed out** are the next `n`, with the signal cleared. -/
theorem handOut_slots (n : Nat) : ∀ (p : Nat) (rb : RingBuffer T cap),
    ∃ rb', (handOut (slot cap p) n).run rb = .ok (slotsFrom p n) rb' ∧ SameFrame rb rb' ∧
      rb'.buffer.store = rb.buffer.store ∧
      (∀ i ∈ slotsFrom p n, (rb'.buffer.signal i).sig = RaftSignal.none) ∧
      ∀ i ∉ slotsFrom p n, rb'.buffer.signal i = rb.buffer.signal i := by
  induction n with
  | zero =>
      intro p rb
      exact ⟨rb, rfl, .refl rb, rfl, fun i hi => absurd hi (List.not_mem_nil), fun _ _ => rfl⟩
  | succ n ih =>
      intro p rb
      obtain ⟨rb', hrun, hframe, hstore, hclear, hkeep⟩ :=
        ih (p + 1) (putSignal (slot cap p) RaftSignal.none rb)
      have hnext : (⟨((slot cap p : Fin cap) + 1) % cap, Nat.mod_lt _ (slot cap p).pos⟩ : Fin cap) =
          slot cap (p + 1) := by
        apply Fin.ext
        simp [slot, Nat.mod_add_mod]
      refine ⟨rb', ?_, ⟨hframe.readPt, hframe.writePt, hframe.isValid, hframe.resizing,
        hframe.allocateCalled, hframe.nAllocated⟩, hstore, ?_, ?_⟩
      · rw [handOut, run_bind_of_ok (EStateM.run_modify _ _), hnext, run_bind_of_ok hrun, slotsFrom_succ]
        rfl
      · intro i hi
        rw [slotsFrom_succ, List.mem_cons] at hi
        -- the first slot may be met again when the range goes round
        by_cases hrest : i ∈ slotsFrom (p + 1) n
        · exact hclear i hrest
        · rw [hkeep i hrest, hi.resolve_right hrest]
          simp [putSignal]
      · intro i hi
        rw [slotsFrom_succ, List.mem_cons, not_or] at hi
        rw [hkeep i hi.2]
        exact Function.update_of_ne hi.1 _ _

/-- **The references filled in**: the `k`-th slot has the `k`-th value, and nothing else differs. -/
theorem assign_slots (vs : List T) : ∀ (p : Nat) (rb : RingBuffer T cap), vs.length ≤ cap →
    SameFrame rb (assign (slotsFrom p vs.length) vs rb) ∧
      (assign (slotsFrom p vs.length) vs rb).buffer.signal = rb.buffer.signal ∧
      window (assign (slotsFrom p vs.length) vs rb).buffer.store p vs.length = vs ∧
      ∀ i ∉ slotsFrom p vs.length,
        (assign (slotsFrom p vs.length) vs rb).buffer.store i = rb.buffer.store i := by
  induction vs with
  | nil =>
      intro p rb _
      exact ⟨.refl rb, rfl, rfl, fun _ _ => rfl⟩
  | cons v vs ih =>
      intro p rb hlen
      rw [List.length_cons] at hlen ⊢
      obtain ⟨hframe, hsignal, hwindow, hkeep⟩ :=
        ih (p + 1) (putStore (slot cap p) v rb) (by omega)
      rw [slotsFrom_succ]
      refine ⟨⟨hframe.readPt, hframe.writePt, hframe.isValid, hframe.resizing, hframe.allocateCalled,
        hframe.nAllocated⟩, hsignal, ?_, ?_⟩
      · rw [window_cons]
        refine congrArg₂ _ ?_ hwindow
        exact (hkeep _ (slot_notMem (by omega) (by omega))).trans (Function.update_self ..)
      · intro i hi
        rw [List.mem_cons, not_or] at hi
        exact (hkeep i hi.2).trans (Function.update_of_ne hi.1 _ _)

end Slots

end RingBuffer

/-! ## A range published -/

variable [NeZero cap]

/-- Moving the write pointer by `n` appends the `n` entries behind the contents, if those are untouched. -/
theorem Holds.publishRange {rb rb' : RingBuffer T cap} {es : List (T × RaftSignal)} {n : Nat}
    (h : Holds rb es) (hroom : es.length + n ≤ cap) (hrun : rb'.resizing = false)
    (hread : rb'.buffer.readPt = rb.buffer.readPt)
    (hwrite : rb'.buffer.writePt = rb.buffer.writePt.incBy n)
    (hkeep : ∀ i < es.length, rb'.buffer.entry (slot cap (rb.buffer.readPt.pos + i)) =
      rb.buffer.entry (slot cap (rb.buffer.readPt.pos + i))) :
    Holds rb' (es ++ window rb'.buffer.entry rb.buffer.writePt.pos n) where
  running := hrun
  pos := by
    rw [hread, hwrite, Pointer.pos_incBy _ (by omega), h.pos, List.length_append, window_length,
      Nat.add_assoc]
  bounded := by rw [List.length_append, window_length]; exact hroom
  items := by
    rw [hread, List.length_append, window_length, window_append, ← h.pos, window_congr hkeep, h.items]

/-- Once the write pointer has moved by `n`, there are `n` entries more. -/
theorem Holds.length_of_incBy {rb rb' : RingBuffer T cap} {es es' : List (T × RaftSignal)} {n : Nat}
    (h : Holds rb es) (h' : Holds rb' es') (hn : n ≤ cap)
    (hread : rb'.buffer.readPt = rb.buffer.readPt)
    (hwrite : rb'.buffer.writePt = rb.buffer.writePt.incBy n) : es'.length = es.length + n := by
  have hpos := h'.pos
  rw [hread, hwrite, Pointer.pos_incBy _ hn, h.pos] at hpos
  omega

/-! ## Elements stored inline, decided -/

namespace RingBuffer

variable {rb : RingBuffer T cap} {es : List (T × RaftSignal)}

/-- What `send_range` makes of a range: the signal goes with the first item. -/
def signalFirst : List T → RaftSignal → List (T × RaftSignal)
  | [], _ => []
  | v :: vs, signal => (v, signal) :: vs.map (·, RaftSignal.none)

omit [NeZero cap] in
/-- The queue after a `send_range` of what was handed out. -/
theorem sendRange_run {rb : RingBuffer T cap} (ha : rb.allocateCalled = true) (signal : RaftSignal) :
    ∃ rb', (sendRange signal).run rb = .ok ⟨⟩ rb' ∧ rb'.resizing = rb.resizing ∧
      rb'.buffer.readPt = rb.buffer.readPt ∧
      rb'.buffer.writePt = rb.buffer.writePt.incBy rb.nAllocated.toNat ∧
      rb'.buffer.entry = (putSignal rb.buffer.writePt.a signal rb).buffer.entry ∧
      rb'.buffer.isValid = rb.buffer.isValid ∧ rb'.allocateCalled = false ∧ rb'.nAllocated = 0 := by
  simp only [sendRange, EStateM.run_bind, EStateM.run_get, ha, if_true]
  exact ⟨_, rfl, rfl, rfl, rfl, rfl, rfl, rfl, rfl⟩

theorem localAllocateN_eq (h : Holds rb es) {n : Nat} (hn : n ≤ cap - es.length) {slots : List (Fin cap)}
    {rb' : RingBuffer T cap}
    (hout : (handOut rb.buffer.writePt.a n).run (setHelper .allocateRange true rb) = .ok slots rb') :
    (localAllocateN n).run rb =
      .ok slots { rb' with nAllocated := UInt32.ofNat n, allocateCalled := true } := by
  rw [localAllocateN, run_bind_of_ok (enterBuffer_run _ _),
    run_bind_of_ok (hasSpace_run (h.setHelper .allocateRange true) n), decide_eq_true hn, if_pos rfl,
    run_bind_of_ok (EStateM.run_get _)]
  exact (run_bind_of_ok hout).trans rfl

/-- `local_allocate_n` goes through where there is room. -/
theorem localAllocateN_run (h : Holds rb es) {n : Nat} (hroom : es.length + n ≤ cap) :
    ∃ rb', (localAllocateN n).run rb = .ok (slotsFrom rb.buffer.writePt.pos n) rb' ∧
      rb'.resizing = false ∧ rb'.buffer.readPt = rb.buffer.readPt ∧
      rb'.buffer.writePt = rb.buffer.writePt ∧ rb'.buffer.isValid = rb.buffer.isValid ∧
      rb'.allocateCalled = true ∧ rb'.nAllocated = UInt32.ofNat n ∧
      rb'.buffer.store = rb.buffer.store ∧
      (∀ i ∈ slotsFrom rb.buffer.writePt.pos n, (rb'.buffer.signal i).sig = RaftSignal.none) ∧
      ∀ i ∉ slotsFrom rb.buffer.writePt.pos n, rb'.buffer.signal i = rb.buffer.signal i := by
  have hn : n ≤ cap - es.length := by have := h.bounded; omega
  obtain ⟨rb', hrun, hframe, hstore, hclear, hkeep⟩ :=
    handOut_slots n rb.buffer.writePt.pos (setHelper .allocateRange true rb)
  rw [Pointer.slot_pos] at hrun
  exact ⟨_, localAllocateN_eq h hn hrun, hframe.resizing.trans h.running, hframe.readPt, hframe.writePt,
    hframe.isValid, rfl, rfl, hstore, hclear, hkeep⟩

omit [NeZero cap] in
/-- Elements without a value are assigned without an effect. -/
theorem assign_unit (slots : List (Fin cap)) (us : List PUnit) (rb : RingBuffer PUnit cap) :
    assign slots us rb = rb := by
  induction slots generalizing us rb with
  | nil => rfl
  | cons i slots ih =>
      cases us with
      | nil => rfl
      | cons u us => exact ih us (putStore i u rb)

/-- A range with its signals cleared and its values in place, and the signal put at its start. -/
theorem window_signalFirst {p : Nat} {vs : List T} (signal : RaftSignal) (hlen : vs.length ≤ cap)
    (hne : vs ≠ []) (hstore : window rb.buffer.store p vs.length = vs)
    (hclear : ∀ i ∈ slotsFrom p vs.length, (rb.buffer.signal i).sig = RaftSignal.none) :
    window (putSignal (slot cap p) signal rb).buffer.entry p vs.length = signalFirst vs signal := by
  rw [entry_putSignal]
  cases vs with
  | nil => exact absurd rfl hne
  | cons v vs =>
      rw [List.length_cons] at hlen hclear hstore ⊢
      rw [window_cons, List.cons.injEq] at hstore
      rw [window_cons, Function.update_self, signalFirst, hstore.1]
      refine congrArg _ (Eq.trans ?_ (congrArg (List.map (·, RaftSignal.none)) hstore.2))
      simp only [window, List.map_map]
      refine List.map_congr_left fun k hk => ?_
      rw [List.mem_range] at hk
      rw [Function.update_of_ne (slot_ne_of_lt (by omega) (by omega)).symm]
      refine Prod.ext rfl (hclear _ (mem_slotsFrom.mpr ⟨1 + k, by omega, ?_⟩))
      rw [Nat.add_assoc]

/-- **A bulk allocation, run.** The write pointer moves by what is left of the count in 32 bits; the
slots behind the contents have the values, the first one with the signal. -/
theorem bulk_run (h : Holds rb es) {vs : List T} (signal : RaftSignal)
    (hne : vs ≠ []) (hroom : es.length + vs.length ≤ cap) :
    ∃ rb', (bulk vs signal).run rb = .ok ⟨⟩ rb' ∧ rb'.resizing = false ∧
      rb'.buffer.readPt = rb.buffer.readPt ∧
      rb'.buffer.writePt = rb.buffer.writePt.incBy (vs.length % 2 ^ 32) ∧
      rb'.buffer.isValid = rb.buffer.isValid ∧ rb'.allocateCalled = false ∧
      window rb'.buffer.entry rb.buffer.writePt.pos vs.length = signalFirst vs signal ∧
      ∀ i ∉ slotsFrom rb.buffer.writePt.pos vs.length, rb'.buffer.entry i = rb.buffer.entry i := by
  obtain ⟨rb₁, hrun₁, hresize₁, hread₁, hwrite₁, hvalid₁, halloc₁, hcount₁, hstore₁, hclear₁, hkeep₁⟩ :=
    localAllocateN_run h hroom
  obtain ⟨hframe, hsignal₂, hwindow₂, hkeep₂⟩ :=
    assign_slots vs rb.buffer.writePt.pos rb₁ (by omega)
  obtain ⟨rb₃, hrun₃, hresize₃, hread₃, hwrite₃, hentry₃, hvalid₃, halloc₃, -⟩ :=
    sendRange_run (hframe.allocateCalled.trans halloc₁) signal
  have hbulk : (bulk vs signal).run rb = .ok ⟨⟩ rb₃ := by
    rw [bulk, run_bind_of_ok hrun₁, run_bind_of_ok (EStateM.run_modify _ _), hrun₃]
  generalize assign (slotsFrom rb.buffer.writePt.pos vs.length) vs rb₁ = rb₂ at *
  have hindex : rb₂.buffer.writePt.a = slot cap rb.buffer.writePt.pos := by
    rw [hframe.writePt, hwrite₁, Pointer.slot_pos]
  rw [hindex] at hentry₃
  refine ⟨rb₃, hbulk, hresize₃.trans (hframe.resizing.trans hresize₁),
    hread₃.trans (hframe.readPt.trans hread₁), ?_,
    hvalid₃.trans (hframe.isValid.trans hvalid₁), halloc₃, ?_, ?_⟩
  · rw [hwrite₃, hframe.writePt, hwrite₁, hframe.nAllocated, hcount₁, UInt32.toNat_ofNat']
  · rw [hentry₃]
    refine window_signalFirst signal (by omega) hne hwindow₂ fun i hi => ?_
    rw [hsignal₂, hclear₁ i hi]
  · intro i hi
    have hne' : i ≠ slot cap rb.buffer.writePt.pos := fun heq =>
      hi (mem_slotsFrom.mpr ⟨0, List.length_pos_of_ne_nil hne, heq.symm⟩)
    rw [hentry₃, entry_putSignal, Function.update_of_ne hne']
    refine Prod.ext ((hkeep₂ i hi).trans (congrFun hstore₁ i)) ?_
    show (rb₂.buffer.signal i).sig = (rb.buffer.signal i).sig
    rw [hsignal₂, hkeep₁ i hi]

theorem signalLast_none (vs : List T) :
    Fifo.signalLast vs RaftSignal.none = vs.map (·, RaftSignal.none) := by
  induction vs with
  | nil => rfl
  | cons v vs ih => rw [Fifo.signalLast_cons, ih, ite_self]; rfl

/-- The two places of the signal are the same for one item, and where there is no signal. -/
theorem signalFirst_eq_signalLast {vs : List T} (hne : vs ≠ []) (signal : RaftSignal) :
    signalFirst vs signal = Fifo.signalLast vs signal ↔ vs.length = 1 ∨ signal = RaftSignal.none := by
  cases vs with
  | nil => exact absurd rfl hne
  | cons v vs =>
      rw [Fifo.signalLast_cons, signalFirst]
      constructor
      · intro h
        by_cases hvs : vs.length = 0
        · exact .inl (by rw [List.length_cons, hvs])
        · rw [if_neg hvs] at h
          exact .inr (congrArg Prod.snd (List.cons.inj h).1)
      · rintro (h | rfl)
        · have hvs : vs = [] := List.eq_nil_of_length_eq_zero (by simpa using h)
          rw [hvs]
          rfl
        · rw [ite_self, signalLast_none]

/-- **Bulk allocation equals insertion, inline,** exactly if nothing is in hand, the count fits the 32
bits of `n_allocated`, and there is one item or no signal. -/
theorem inline_bulk_iff (h : Holds rb es) {vs : List T} (signal : RaftSignal)
    (hne : vs ≠ []) (hroom : es.length + vs.length ≤ cap) :
    BulkInserts rb vs signal ↔
      rb.allocateCalled = false ∧ vs.length < 2 ^ 32 ∧ (vs.length = 1 ∨ signal = RaftSignal.none) := by
  obtain ⟨rb₁, hrun₁, hresize₁, hread₁, hwrite₁, hvalid₁, halloc₁, hwindow₁, hkeep₁⟩ :=
    bulk_run h signal hne hroom
  obtain ⟨rb₂, hrun₂, hholds₂, hvalid₂, halloc₂⟩ := localInsert_run vs signal h hroom
  have hkeep : ∀ i < es.length, rb₁.buffer.entry (slot cap (rb.buffer.readPt.pos + i)) =
      rb.buffer.entry (slot cap (rb.buffer.readPt.pos + i)) := fun i hi =>
    hkeep₁ _ (slot_notMem (by rw [h.pos]; omega) (by rw [h.pos]; omega))
  have hpublished (hfit : vs.length < 2 ^ 32) : Holds rb₁ (es ++ signalFirst vs signal) := by
    rw [Nat.mod_eq_of_lt hfit] at hwrite₁
    rw [← hwindow₁]
    exact h.publishRange hroom hresize₁ hread₁ hwrite₁ hkeep
  constructor
  · rintro ⟨q₁, q₂, hq₁, hq₂, ⟨es₁, es₂, hes₁, hes₂, hsame⟩, -, halloc⟩
    obtain rfl : rb₁ = q₁ := by rw [hrun₁] at hq₁; cases hq₁; rfl
    obtain rfl : rb₂ = q₂ := by rw [hrun₂] at hq₂; cases hq₂; rfl
    obtain rfl := hes₂.unique hholds₂
    obtain rfl : es₁ = _ := by simpa using hsame
    have hfit : vs.length < 2 ^ 32 := by
      have hle : vs.length % 2 ^ 32 ≤ vs.length := Nat.mod_le _ _
      have hlen := h.length_of_incBy hes₁ (by omega) hread₁ hwrite₁
      rw [List.length_append, Fifo.signalLast_length] at hlen
      have := Nat.mod_lt vs.length (show 2 ^ 32 > 0 by decide)
      omega
    refine ⟨(halloc₂.symm.trans (halloc.symm.trans halloc₁)), hfit, ?_⟩
    rw [← signalFirst_eq_signalLast hne]
    exact List.append_cancel_left ((hpublished hfit).unique hes₁)
  · rintro ⟨ha, hfit, hplace⟩
    rw [← signalFirst_eq_signalLast hne] at hplace
    exact ⟨rb₁, rb₂, hrun₁, hrun₂, ⟨_, _, hpublished hfit, hholds₂, by rw [hplace]⟩,
      hvalid₁.trans hvalid₂.symm, halloc₁.trans (halloc₂.trans ha).symm⟩

end RingBuffer

/-! ## Class objects, decided -/

namespace ClassQueue

open ClassBuffer (onRing_ok)

variable {implicitLifetime : Bool} {q : ClassQueue T cap} {es : List (PUnit × RaftSignal)}

omit [NeZero cap] in
theorem call_ok {α : Type} {x : ClassCall cap α} {a : α} {queue : ClassBuffer cap}
    (h : x.run q.queue = .ok a queue) : q.call x = some (a, { q with queue := queue }) := by
  rw [call, h]

open RingBuffer in
/-- **`local_allocate_n`** does to the pointers and signals what it does for other inline elements, and
nothing to the objects. -/
theorem allocateRange_run {n : Nat} {slots : List (Fin cap)} {rb : RingBuffer PUnit cap}
    (h : Holds q.queue.rb es) (hroom : es.length + n ≤ cap)
    (hrun : (localAllocateN n).run q.queue.rb = .ok slots rb) :
    (ClassBuffer.allocateRange n).run q.queue = .ok slots { q.queue with rb := rb } := by
  have hn : n ≤ cap - es.length := by have := h.bounded; omega
  obtain ⟨rb', hout, -⟩ :=
    handOut_slots n q.queue.rb.buffer.writePt.pos (setHelper .allocateRange true q.queue.rb)
  rw [Pointer.slot_pos] at hout
  rw [localAllocateN_eq h hn hout] at hrun
  cases hrun
  have hwait := onRing_ok (waitForSpace_run h .allocateRange hn)
  have hout' := onRing_ok (q := { q.queue with rb := setHelper .allocateRange true q.queue.rb }) hout
  have hindex : ClassBuffer.writeIndex.run
      { q.queue with rb := setHelper .allocateRange true q.queue.rb } =
    .ok q.queue.rb.buffer.writePt.a { q.queue with rb := setHelper .allocateRange true q.queue.rb } := rfl
  rw [ClassBuffer.allocateRange, run_bind_of_ok hwait, run_bind_of_ok hindex]
  exact (run_bind_of_ok hout').trans rfl

/-- **The references filled in**, where every slot has an object. -/
theorem assign_alive (vs : List T) : ∀ (p : Nat) (q : ClassQueue T cap), vs.length ≤ cap →
    (∀ i ∈ RingBuffer.slotsFrom p vs.length, q.alive implicitLifetime i = true) →
    ∃ value, q.assign implicitLifetime (RingBuffer.slotsFrom p vs.length) vs =
        some { q with value := value } ∧
      window value p vs.length = vs ∧
      ∀ i ∉ RingBuffer.slotsFrom p vs.length, value i = q.value i := by
  induction vs with
  | nil =>
      intro p q _ _
      exact ⟨q.value, rfl, rfl, fun _ _ => rfl⟩
  | cons v vs ih =>
      intro p q hlen hall
      rw [List.length_cons] at hlen hall ⊢
      rw [RingBuffer.slotsFrom_succ] at hall ⊢
      obtain ⟨value, hassign, hwindow, hkeep⟩ :=
        ih (p + 1) { q with value := Function.update q.value (slot cap p) v } (by omega)
          fun i hi => hall i (List.mem_cons_of_mem _ hi)
      refine ⟨value, ?_, ?_, fun i hi => ?_⟩
      · rw [assign, if_pos (hall _ List.mem_cons_self)]
        exact hassign
      · rw [window_cons]
        refine congrArg₂ _ ?_ hwindow
        exact (hkeep _ (RingBuffer.slot_notMem (by omega) (by omega))).trans (Function.update_self ..)
      · rw [List.mem_cons, not_or] at hi
        exact (hkeep i hi.2).trans (Function.update_of_ne hi.1 _ _)

omit [NeZero cap] in
/-- An assignment to a slot without an object goes wrong. -/
theorem assign_raw {i : Fin cap} (hraw : q.alive implicitLifetime i = false) {slots : List (Fin cap)}
    {vs : List T} (hi : i ∈ slots) (hlen : slots.length = vs.length) :
    q.assign implicitLifetime slots vs = none := by
  induction slots generalizing vs q with
  | nil => cases hi
  | cons j slots ih =>
      cases vs with
      | nil => cases hlen
      | cons v vs =>
          rw [assign]
          by_cases hj : q.alive implicitLifetime j = true
          · rw [if_pos hj]
            rcases List.mem_cons.mp hi with rfl | hi
            · rw [hraw] at hj
              cases hj
            · exact ih (q := { q with value := Function.update q.value j v }) hraw hi (Nat.succ.inj hlen)
          · rw [if_neg hj]

omit [NeZero cap] in
/-- The assignments do not look at the pointers and signals. -/
theorem assign_rb (rb : RingBuffer PUnit cap) (slots : List (Fin cap)) (vs : List T) :
    assign implicitLifetime slots vs { q with queue := { q.queue with rb := rb } } =
      (q.assign implicitLifetime slots vs).map
        fun filled => { filled with queue := { q.queue with rb := rb } } := by
  induction slots generalizing vs q with
  | nil => rfl
  | cons i slots ih =>
      cases vs with
      | nil => rfl
      | cons v vs =>
          rw [assign, assign]
          by_cases hi : q.alive implicitLifetime i = true
          · rw [if_pos hi]
            exact (if_pos hi).trans (ih (q := { q with value := Function.update q.value i v }) vs)
          · rw [if_neg hi]
            exact if_neg hi

/-- **A bulk allocation, run**: the pointers and signals go as for any inline element, and the assignments
decide whether it goes well. -/
theorem bulk_run {vs : List T} {signal : RaftSignal} {rb₁ : RingBuffer PUnit cap}
    (h : Holds q.queue.rb es) (hroom : es.length + vs.length ≤ cap)
    (hrun : (RingBuffer.bulk (List.replicate vs.length ⟨⟩) signal).run q.queue.rb = .ok ⟨⟩ rb₁) :
    q.bulk implicitLifetime vs signal =
      (q.assign implicitLifetime (RingBuffer.slotsFrom q.queue.rb.buffer.writePt.pos vs.length) vs).map
        fun filled => { filled with queue := { q.queue with rb := rb₁ } } := by
  obtain ⟨rb, hallocate, -⟩ := RingBuffer.localAllocateN_run h hroom
  have hclass := call_ok (allocateRange_run h hroom hallocate)
  rw [RingBuffer.bulk, List.length_replicate, run_bind_of_ok hallocate,
    run_bind_of_ok (EStateM.run_modify _ _), RingBuffer.assign_unit] at hrun
  rw [bulk, hclass, Option.bind_eq_bind, Option.bind_some, assign_rb]
  cases q.assign implicitLifetime (RingBuffer.slotsFrom q.queue.rb.buffer.writePt.pos vs.length) vs with
  | none => rfl
  | some filled =>
      have hsend := call_ok (q := { filled with queue := { q.queue with rb := rb } })
        (onRing_ok (q := { q.queue with rb := rb }) hrun)
      show (call (ClassBuffer.sendRange signal) _).bind _ = _
      rw [ClassBuffer.sendRange, hsend]
      rfl

/-- A push of one item of an `insert`. -/
theorem push_run (h : Holds q.queue.rb es) (hroom : es.length < cap) (signal : RaftSignal) :
    q.call (ClassBuffer.push signal) = some (⟨⟩, { q with queue :=
      ⟨RingBuffer.pushed ⟨⟩ signal q.queue.rb,
        q.queue.store.construct q.queue.rb.buffer.writePt.a⟩ }) := by
  have hwait := onRing_ok (RingBuffer.waitForSpace_run h .push (n := 1) (by omega))
  refine call_ok ?_
  rw [ClassBuffer.push, run_bind_of_ok hwait]
  rfl

/-- **An insert, run**: the pointers and signals go as for any inline element, and each slot gets a new
object with its value. -/
theorem insert_run (signal : RaftSignal) (vs : List T) : ∀ {q : ClassQueue T cap}
    {es : List (PUnit × RaftSignal)}, Holds q.queue.rb es → es.length + vs.length ≤ cap →
    ∃ q', q.insert vs signal = some q' ∧
      (RingBuffer.localInsert (List.replicate vs.length ⟨⟩) signal).run q.queue.rb = .ok ⟨⟩ q'.queue.rb ∧
      q'.queue.rb.buffer.readPt = q.queue.rb.buffer.readPt ∧
      window q'.value q.queue.rb.buffer.writePt.pos vs.length = vs ∧
      (∀ i ∈ RingBuffer.slotsFrom q.queue.rb.buffer.writePt.pos vs.length,
        (q'.queue.store.place i).isSome = true) ∧
      ∀ i ∉ RingBuffer.slotsFrom q.queue.rb.buffer.writePt.pos vs.length,
        q'.value i = q.value i ∧ q'.queue.store.place i = q.queue.store.place i := by
  induction vs with
  | nil =>
      intro q es _ _
      exact ⟨q, rfl, rfl, rfl, rfl, fun i hi => absurd hi List.not_mem_nil, fun _ _ => ⟨rfl, rfl⟩⟩
  | cons v vs ih =>
      intro q es h hroom
      rw [List.length_cons] at hroom ⊢
      have hone : es.length < cap := by omega
      let s := if vs.length = 0 then signal else RaftSignal.none
      let i := q.queue.rb.buffer.writePt.a
      let q₁ : ClassQueue T cap := ⟨⟨RingBuffer.pushed ⟨⟩ s q.queue.rb, q.queue.store.construct i⟩,
        Function.update q.value i v⟩
      have hwrite : q₁.queue.rb.buffer.writePt.pos = q.queue.rb.buffer.writePt.pos + 1 := Pointer.pos_inc _
      obtain ⟨q', hins, hrun, hread, hwindow, hlive, hkeep⟩ := ih (q := q₁)
        (RingBuffer.holds_pushed h hone ⟨⟩ s) (by rw [List.length_append, List.length_singleton]; omega)
      rw [hwrite] at hwindow hlive hkeep
      have hi : i = slot cap q.queue.rb.buffer.writePt.pos := (Pointer.slot_pos _).symm
      have hfirst := hkeep (slot cap q.queue.rb.buffer.writePt.pos)
        (RingBuffer.slot_notMem (by omega) (by omega))
      rw [← hi] at hfirst
      refine ⟨q', ?_, ?_, hread, ?_, fun j hj => ?_, fun j hj => ?_⟩
      · rw [insert, push_run h hone]
        exact hins
      · rw [List.replicate_succ, RingBuffer.localInsert, List.length_replicate,
          run_bind_of_ok (RingBuffer.localPush_run h hone ⟨⟩ _)]
        exact hrun
      · rw [window_cons, ← hi]
        exact congrArg₂ _ (hfirst.1.trans (Function.update_self ..)) hwindow
      · rw [RingBuffer.slotsFrom_succ, ← hi] at hj
        rcases List.mem_cons.mp hj with rfl | hj
        · rw [hfirst.2]
          show (Function.update q.queue.store.place i _ i).isSome = true
          rw [Function.update_self]
          rfl
        · exact hlive j hj
      · rw [RingBuffer.slotsFrom_succ, List.mem_cons, not_or, ← hi] at hj
        obtain ⟨hvalue, hplace⟩ := hkeep j hj.2
        exact ⟨hvalue.trans (Function.update_of_ne hj.1 _ _),
          hplace.trans (Function.update_of_ne hj.1 _ _)⟩

/-- Two queues that differ in some slots only, where both have objects with the same values. -/
theorem shown_eq {q₁ q₂ : ClassQueue T cap} {p n : Nat}
    (hwindow : window q₁.value p n = window q₂.value p n)
    (hlive₁ : ∀ i ∈ RingBuffer.slotsFrom p n, q₁.alive implicitLifetime i = true)
    (hlive₂ : ∀ i ∈ RingBuffer.slotsFrom p n, q₂.alive implicitLifetime i = true)
    (hkeep : ∀ i ∉ RingBuffer.slotsFrom p n,
      q₁.value i = q₂.value i ∧ q₁.queue.store.place i = q₂.queue.store.place i) :
    q₁.shown implicitLifetime = q₂.shown implicitLifetime := by
  funext i
  by_cases hi : i ∈ RingBuffer.slotsFrom p n
  · rw [shown, shown, if_pos (hlive₁ i hi), if_pos (hlive₂ i hi)]
    obtain ⟨k, hk, rfl⟩ := RingBuffer.mem_slotsFrom.mp hi
    exact congrArg some (window_eq_iff.mp hwindow k hk)
  · obtain ⟨hvalue, hplace⟩ := hkeep i hi
    rw [shown, shown, alive, alive, hvalue, hplace]

/-- What a reader finds in the entries of a queue. -/
theorem shows_of_holds (h : Holds q.queue.rb es) : q.Shows implicitLifetime
    ((window (q.shown implicitLifetime) q.queue.rb.buffer.readPt.pos es.length).zip
      (es.map Prod.snd)) where
  held := by
    convert h
    refine List.ext_getElem (by simp) fun i _ _ => ?_
    simp
  values := by
    rw [List.map_fst_zip (by simp)]
    simp

/-- **Bulk allocation equals insertion, for class objects,** exactly if it does for any inline element, and
every slot handed out has an object. -/
theorem class_bulk_iff (h : Holds q.queue.rb es) {vs : List T} (signal : RaftSignal) (hne : vs ≠ [])
    (hroom : es.length + vs.length ≤ cap) : q.BulkInserts implicitLifetime vs signal ↔
      q.queue.rb.allocateCalled = false ∧ vs.length < 2 ^ 32 ∧
        (vs.length = 1 ∨ signal = RaftSignal.none) ∧
        ∀ i ∈ RingBuffer.slotsFrom q.queue.rb.buffer.writePt.pos vs.length,
          q.alive implicitLifetime i = true := by
  have hne' : List.replicate vs.length PUnit.unit ≠ [] := by simpa using hne
  have hroom' : es.length + (List.replicate vs.length PUnit.unit).length ≤ cap := by simpa using hroom
  have hring := RingBuffer.inline_bulk_iff h signal hne' hroom'
  rw [List.length_replicate] at hring
  obtain ⟨rb₁, hrun₁, -, hread₁, -⟩ := RingBuffer.bulk_run h signal hne' hroom'
  have hbulk : q.bulk implicitLifetime vs signal = _ := bulk_run h hroom hrun₁
  obtain ⟨q₂, hinsert, hrun₂, hread₂, hwindow₂, hlive₂, hkeep₂⟩ := insert_run signal vs h hroom
  constructor
  · rintro ⟨q₁, q₂', hq₁, hq₂, ⟨es', hes₁, hes₂⟩, hvalid, hcalled⟩
    obtain rfl : q₂ = q₂' := by
      rw [hinsert] at hq₂
      exact Option.some_inj.mp hq₂
    rw [hbulk, Option.map_eq_some_iff] at hq₁
    obtain ⟨filled, hassign, rfl⟩ := hq₁
    obtain ⟨ha, hfit, hplace⟩ := hring.mp
      ⟨rb₁, q₂.queue.rb, hrun₁, hrun₂, ⟨_, _, hes₁.held, hes₂.held, rfl⟩, hvalid, hcalled⟩
    refine ⟨ha, hfit, hplace, fun i hi => ?_⟩
    by_contra hraw
    rw [assign_raw (Bool.eq_false_iff.mpr hraw) hi (by simp [RingBuffer.slotsFrom])] at hassign
    cases hassign
  · rintro ⟨ha, hfit, hplace, hall⟩
    obtain ⟨value, hassign, hwindow₁, hkeep₁⟩ := assign_alive vs q.queue.rb.buffer.writePt.pos q (by omega) hall
    obtain ⟨rb₁', rb₂', hrun₁', hrun₂', ⟨us, us', hus, hus', hsame⟩, hvalid, hcalled⟩ :=
      hring.mpr ⟨ha, hfit, hplace⟩
    rw [hrun₁] at hrun₁'
    cases hrun₁'
    rw [hrun₂] at hrun₂'
    cases hrun₂'
    obtain rfl : us = us' := by simpa using hsame
    rw [hassign, Option.map_some] at hbulk
    have hshown : shown implicitLifetime ⟨{ q.queue with rb := rb₁ }, value⟩ = q₂.shown implicitLifetime :=
      shown_eq (hwindow₁.trans hwindow₂.symm) hall
        (fun i hi => by rw [alive, hlive₂ i hi, Bool.or_true])
        fun i hi => ⟨(hkeep₁ i hi).trans (hkeep₂ i hi).1.symm, (hkeep₂ i hi).2.symm⟩
    have hshows : q₂.Shows implicitLifetime _ := shows_of_holds hus'
    rw [← hshown, hread₂, ← hread₁] at hshows
    exact ⟨_, q₂, hbulk, hinsert, ⟨_, shows_of_holds hus, hshows⟩, hvalid, hcalled⟩

theorem alive_iff {p n : Nat} : (∀ i ∈ RingBuffer.slotsFrom p n, q.alive implicitLifetime i = true) ↔
    implicitLifetime = true ∨ ∀ k < n, ∃ o, q.queue.store.place (slot cap (p + k)) = some o := by
  constructor
  · intro hall
    refine or_iff_not_imp_left.mpr fun himplicit k hk => Option.isSome_iff_exists.mp ?_
    have halive := hall _ (RingBuffer.mem_slotsFrom.mpr ⟨k, hk, rfl⟩)
    rwa [alive, Bool.eq_false_iff.mpr himplicit, Bool.false_or] at halive
  · rintro (rfl | hplace) i hi
    · rfl
    · obtain ⟨k, hk, rfl⟩ := RingBuffer.mem_slotsFrom.mp hi
      rw [alive, Option.isSome_iff_exists.mpr (hplace k hk), Bool.or_true]

/-- As long as the calls keep the lifetimes and nothing is in hand, the slots behind the contents are
raw. -/
theorem raw_of_run {ls : List ClassOp} {s : Handed cap}
    (hrun : Run (restrict Handed.Step Handed.Meets) Handed.init ls s) (hout : s.out = 0) {k : Nat}
    (hroom : s.writePos + k < s.readPos + cap) :
    s.queue.store.place (slot cap (s.writePos + k)) = none := by
  obtain ⟨hreg, hwell⟩ := Handed.wellLived_of_run hrun
  have hocc := (Handed.wellLived_iff.mp hwell).2.1
  rw [hout, Nat.add_zero] at hocc
  rw [Option.eq_none_iff_forall_ne_some]
  intro o ho
  obtain ⟨p, hr, he, hslot⟩ := (hocc _).mp ⟨o, ho⟩
  exact slot_ne_of_lt (show p < s.writePos + k by omega) (by omega) hslot.symm

/-- **Then a bulk allocation goes wrong**, whatever it is, unless the class has implicit lifetime. -/
theorem not_bulkInserts_of_run {ls : List ClassOp} {s : Handed cap}
    (hrun : Run (restrict Handed.Step Handed.Meets) Handed.init ls s) (hout : s.out = 0)
    (value : Fin cap → T) {vs : List T} (signal : RaftSignal) (hne : vs ≠ [])
    (hroom : s.writePos + vs.length ≤ s.readPos + cap) :
    ¬(⟨s.queue, value⟩ : ClassQueue T cap).BulkInserts false vs signal := by
  obtain ⟨es, hes, hlength⟩ := (Handed.wellLived_of_run hrun).1.holds
  have hpos := List.length_pos_of_ne_nil hne
  rw [class_bulk_iff (q := ⟨s.queue, value⟩) hes signal hne (by omega), alive_iff]
  rintro ⟨-, -, -, himplicit | hplace⟩
  · cases himplicit
  · obtain ⟨o, ho⟩ := hplace 0 hpos
    have hraw := raw_of_run hrun hout (k := 0) (by omega)
    rw [show s.queue.store.place (slot cap (s.writePos + 0)) = some o from ho] at hraw
    cases hraw

end ClassQueue

/-! ## The count of a queue of pointers -/

namespace PtrQueue

/-- `n_allocated` as the constructor sets it, or as `send_range` leaves it. -/
def CountLow (rb : RingBuffer Addr cap) : Prop := rb.nAllocated.toNat ≤ 1

section CountLow

open RingBuffer

omit [NeZero cap]

theorem countLow_setHelper (k : AccessKey) (v : Bool) (rb : RingBuffer Addr cap) (h : CountLow rb) :
    CountLow (setHelper k v rb) := by
  cases k <;> exact h

theorem enterBuffer_low (k : AccessKey) : Preserves CountLow (enterBuffer k : Call Addr cap _) :=
  enterBuffer_preserves countLow_setHelper k

theorem exitBuffer_low (k : AccessKey) : Preserves CountLow (exitBuffer k : Call Addr cap _) :=
  exitBuffer_preserves countLow_setHelper k

theorem lookForData_low : Preserves CountLow (lookForData : Call Addr cap _) :=
  lookForData_preserves countLow_setHelper

theorem modify_low {f : RingBuffer Addr cap → RingBuffer Addr cap}
    (hf : ∀ rb, CountLow rb → CountLow (f rb)) {α : Type} {x : PUnit → Call Addr cap α}
    (hx : Preserves CountLow (x ⟨⟩)) : Preserves CountLow (modify f >>= x) :=
  (preserves_modify hf).bind fun _ => hx

theorem waitForSpace_low (k : AccessKey) (n : Nat) :
    Preserves CountLow (waitForSpace k n : Call Addr cap _) :=
  waitForSpace_preserves countLow_setHelper (by exact fun _ h => h) k n

theorem localPush_low (item : Option Addr) (signal : RaftSignal) :
    Preserves CountLow (localPush item signal : Call Addr cap _) := by
  refine (waitForSpace_low .push 1).bind fun _ => preserves_get.bind fun rb => ?_
  have hrest : Preserves CountLow (do
      modify (putSignal rb.buffer.writePt.val signal)
      modify incWrite
      exitBuffer .push : Call Addr cap _) :=
    modify_low (by exact fun _ h => h) <| modify_low (by exact fun _ h => h) <|
      exitBuffer_low .push
  cases item with
  | none => exact hrest
  | some v => exact modify_low (by exact fun _ h => h) <| hrest

theorem localInsert_low (signal : RaftSignal) (addrs : List Addr) :
    Preserves CountLow (localInsert addrs signal : Call Addr cap _) := by
  induction addrs with
  | nil => exact preserves_pure _
  | cons a addrs ih => exact (localPush_low _ _).bind fun _ => ih

theorem localAllocate_low : Preserves CountLow (localAllocate : Call Addr cap _) := by
  refine (waitForSpace_low .allocate 1).bind fun _ => ?_
  intro rb h
  exact h

theorem handOut_low (n : Nat) : ∀ i : Fin cap, Preserves CountLow (handOut i n : Call Addr cap _) := by
  induction n with
  | zero => exact fun _ => preserves_pure _
  | succ n ih =>
      exact fun i => modify_low (by exact fun _ h => h) <| (ih _).bind fun _ => preserves_pure _

theorem localAllocateN_low (n : Nat) :
    Preserves CountLow (localAllocateN n : Call Addr cap _) := by
  refine (waitForSpace_low .allocateRange n).bind fun _ => preserves_get.bind fun rb =>
    (handOut_low n rb.buffer.writePt.val).bind fun slots => ?_
  intro s h
  exact h

theorem sendRange_low (signal : RaftSignal) :
    Preserves CountLow (sendRange signal : Call Addr cap _) := by
  refine preserves_get.bind fun rb => Preserves.ite ?_ (preserves_pure _)
  exact modify_low (by exact fun _ h => h) <| modify_low (by exact fun _ h => h) <|
    modify_low (by exact fun _ h => h) <| modify_low (by exact fun _ _ => Nat.zero_le 1) <|
      exitBuffer_low .allocateRange

theorem pop_low : Preserves CountLow (pop : Call Addr cap _) := by
  refine (enterBuffer_low .pop).bind fun _ => notResizing_preserves.bind fun _ => Preserves.ite
    (lookForData_low.bind fun found => ?_)
    ((exitBuffer_low .pop).bind fun _ => modify_low (by exact fun _ h => h) <| preserves_throw _)
  cases found with
  | data =>
      exact preserves_get.bind fun _ => Preserves.ite
        (modify_low (by exact fun _ h => h) <| modify_low (by exact fun _ h => h) <|
          (exitBuffer_low .pop).bind fun _ => preserves_pure _) (preserves_throw _)
  | closedAndEmpty => exact preserves_throw _
  | nothing => exact preserves_throw _

theorem localRecycle_low (range : Nat) :
    Preserves CountLow (localRecycle range : Call Addr cap _) := by
  induction range with
  | zero => exact preserves_pure _
  | succ range ih =>
      refine (enterBuffer_low .recycle).bind fun _ => notResizing_preserves.bind fun _ => Preserves.ite
        (lookForData_low.bind fun found => ?_) ((exitBuffer_low .recycle).bind fun _ => preserves_throw _)
      cases found with
      | data =>
          exact modify_low (by exact fun _ h => h) <| (exitBuffer_low .recycle).bind fun _ => ih
      | closedAndEmpty => exact exitBuffer_low .recycle
      | nothing => exact (exitBuffer_low .recycle).bind fun _ => preserves_throw _

/-- No call raises the count. -/
theorem exec_low (c : PtrCall) : Preserves CountLow (c.exec : Call Addr cap PUnit) := by
  cases c with
  | push item signal => exact localPush_low item signal
  | insert addrs signal => exact localInsert_low signal addrs
  | allocate addr => exact localAllocate_low.bind fun _ => preserves_modify fun _ h => h
  | send signal =>
      exact preserves_get.bind fun _ => Preserves.ite
        (modify_low (by exact fun _ h => h) <| modify_low (by exact fun _ h => h) <|
          modify_low (by exact fun _ h => h) <| modify_low (by exact fun _ h => h) <|
            exitBuffer_low .allocate) (preserves_pure _)
  | deallocate => exact modify_low (by exact fun _ h => h) <| exitBuffer_low .allocate
  | allocateRange n => exact (localAllocateN_low n).bind fun _ => preserves_pure _
  | sendRange signal => exact sendRange_low signal
  | pop => exact pop_low.bind fun _ => preserves_pure _
  | peek => exact (localPeek_preserves countLow_setHelper).bind fun _ => preserves_pure _
  | peekRange n => exact (localPeekRange_preserves countLow_setHelper n).bind fun _ => preserves_pure _
  | unpeek => exact exitBuffer_low .peek
  | recycle range => exact localRecycle_low range
  | invalidate => exact preserves_modify fun _ h => h

end CountLow

/-- **The count is at most one**, whatever has been called. -/
theorem countLow_of_run (uninit : Fin cap → Addr) {cs : List PtrCall} {rb : RingBuffer Addr cap}
    (h : Run PtrCall.Step (RingBuffer.init uninit) cs rb) : CountLow rb := by
  refine h.invariant (fun s c t hs hstep => ?_) (Nat.le_refl 1)
  rcases hstep with hrun | ⟨e, hrun⟩
  · exact (exec_low c).ok hs hrun
  · exact (exec_low c).error hs hrun

/-! ## Elements stored through a pointer, decided -/

section Decided

variable {q : PtrQueue T cap} {es : List (Addr × RaftSignal)}

/-- The address in the slot at the write index. -/
def nextPtr (q : PtrQueue T cap) : Addr := q.queue.buffer.store q.queue.buffer.writePt.a

open RingBuffer in
theorem localAllocateN_run {rb : RingBuffer Addr cap} (h : Holds rb es) {n : Nat}
    (hroom : es.length + n ≤ cap) :
    ∃ rb', (localAllocateN n).run rb =
        .ok ((slotsFrom rb.buffer.writePt.pos n).map rb.buffer.store) rb' ∧
      rb'.resizing = false ∧ rb'.buffer.readPt = rb.buffer.readPt ∧
      rb'.buffer.writePt = rb.buffer.writePt ∧ rb'.buffer.isValid = rb.buffer.isValid ∧
      rb'.allocateCalled = true ∧ rb'.nAllocated = rb.nAllocated ∧
      rb'.buffer.store = rb.buffer.store ∧
      ∀ i ∉ slotsFrom rb.buffer.writePt.pos n, rb'.buffer.signal i = rb.buffer.signal i := by
  have hn : n ≤ cap - es.length := by have := h.bounded; omega
  obtain ⟨rb', hrun, hframe, hstore, -, hkeep⟩ :=
    handOut_slots n rb.buffer.writePt.pos (setHelper .allocateRange true rb)
  rw [Pointer.slot_pos] at hrun
  refine ⟨{ rb' with allocateCalled := true }, ?_, hframe.resizing.trans h.running, hframe.readPt,
    hframe.writePt, hframe.isValid, rfl, hframe.nAllocated, hstore, hkeep⟩
  rw [localAllocateN, run_bind_of_ok (waitForSpace_run h .allocateRange hn),
    run_bind_of_ok (EStateM.run_get _)]
  exact (run_bind_of_ok hrun).trans rfl

open RingBuffer in
/-- **A bulk allocation, run.** The assignments decide whether it goes well; the write pointer moves by
`n_allocated`, and the signal is on the slot it was at. -/
theorem bulk_run (h : Holds q.queue es) {vs : List T} (signal : RaftSignal) (hne : vs ≠ [])
    (hroom : es.length + vs.length ≤ cap) :
    ∃ rb', q.bulk vs signal = (assign
        ((slotsFrom q.queue.buffer.writePt.pos vs.length).map q.queue.buffer.store) vs q.memory).map
          (⟨rb', ·⟩) ∧
      rb'.resizing = false ∧ rb'.buffer.readPt = q.queue.buffer.readPt ∧
      rb'.buffer.writePt = q.queue.buffer.writePt.incBy q.queue.nAllocated.toNat ∧
      rb'.buffer.isValid = q.queue.buffer.isValid ∧ rb'.allocateCalled = false ∧
      rb'.buffer.entry q.queue.buffer.writePt.a = (q.nextPtr, signal) ∧
      ∀ i ∉ slotsFrom q.queue.buffer.writePt.pos vs.length,
        rb'.buffer.entry i = q.queue.buffer.entry i := by
  obtain ⟨rb₁, hrun₁, hresize₁, hread₁, hwrite₁, hvalid₁, halloc₁, hcount₁, hstore₁, hkeep₁⟩ :=
    localAllocateN_run h hroom
  obtain ⟨rb₂, hrun₂, hresize₂, hread₂, hwrite₂, hentry₂, hvalid₂, halloc₂, -⟩ :=
    sendRange_run halloc₁ signal
  rw [hwrite₁] at hentry₂
  refine ⟨rb₂, ?_, hresize₂.trans hresize₁, hread₂.trans hread₁, ?_, hvalid₂.trans hvalid₁, halloc₂,
    ?_, ?_⟩
  · simp only [bulk, hrun₁, hrun₂]
    cases assign ((slotsFrom q.queue.buffer.writePt.pos vs.length).map q.queue.buffer.store) vs
      q.memory <;> rfl
  · rw [hwrite₂, hwrite₁, hcount₁]
  · rw [hentry₂, entry_putSignal, Function.update_self, hstore₁]
    rfl
  · intro i hi
    have hne' : i ≠ q.queue.buffer.writePt.a := fun heq =>
      hi (mem_slotsFrom.mpr ⟨0, List.length_pos_of_ne_nil hne, by rw [heq, Nat.add_zero, Pointer.slot_pos]⟩)
    rw [hentry₂, entry_putSignal, Function.update_of_ne hne']
    exact Prod.ext (congrFun hstore₁ i) (congrArg Signal.sig (hkeep₁ i hi))

open RingBuffer in
/-- One reference is to what the slot at the write index points at. -/
theorem assign_one (q : PtrQueue T cap) (v : T) :
    assign ((slotsFrom q.queue.buffer.writePt.pos 1).map q.queue.buffer.store) [v] q.memory =
      if (q.memory q.nextPtr).isSome then some (Function.update q.memory q.nextPtr (some v))
      else none := by
  rw [slotsFrom_succ, Pointer.slot_pos]
  rfl

omit [NeZero cap] in
/-- What the entries show after an insert at addresses without an object. -/
theorem view_insert {addr : Addr} {v : T} (hlive : ∀ e ∈ es, (q.memory e.1).isSome)
    (hfresh : q.memory addr = none) :
    es.map (Prod.map (Function.update q.memory addr (some v)) id) = es.map (Prod.map q.memory id) := by
  refine List.map_congr_left fun e he => Prod.ext (Function.update_of_ne ?_ _ _) rfl
  intro heq
  have := hlive e he
  rw [heq, hfresh] at this
  cases this

omit [NeZero cap] in
/-- What they show after an assignment to the object at `addr`. -/
theorem view_assign {addr : Addr} {v : T} :
    es.map (Prod.map (Function.update q.memory addr (some v)) id) = es.map (Prod.map q.memory id) ↔
      ∀ e ∈ es, e.1 = addr → q.memory addr = some v := by
  rw [List.map_inj_left]
  refine forall₂_congr fun e _ => ?_
  constructor
  · rintro h rfl
    have := congrArg Prod.fst h
    rw [Prod.map_fst, Prod.map_fst, Function.update_self] at this
    exact this.symm
  · intro h
    refine Prod.ext ?_ rfl
    by_cases heq : e.1 = addr
    · rw [Prod.map_fst, Prod.map_fst, heq, Function.update_self, h heq]
    · exact Function.update_of_ne heq _ _

open RingBuffer in
/-- **Bulk allocation equals insertion, through pointers,** exactly if nothing is in hand, nothing has
been sent as a range before, it is one item, the slot's old pointer has an object, and no entry that
still shows that object is changed. -/
theorem pointer_bulk_iff {uninit : Fin cap → Addr} {cs : List PtrCall}
    (hreach : Run PtrCall.Step (RingBuffer.init uninit) cs q.queue) (h : Holds q.queue es)
    (hlive : ∀ e ∈ es, (q.memory e.1).isSome) {addrs : List Addr} {vs : List T} (signal : RaftSignal)
    (hfresh : ∀ a ∈ addrs, q.memory a = none) (hlen : addrs.length = vs.length) (hne : vs ≠ [])
    (hroom : es.length + vs.length ≤ cap) :
    q.BulkInserts addrs vs signal ↔
      q.queue.allocateCalled = false ∧ q.queue.nAllocated = 1 ∧
        ∃ v, vs = [v] ∧ (q.memory q.nextPtr).isSome ∧
          ∀ e ∈ es, e.1 = q.nextPtr → q.memory q.nextPtr = some v := by
  obtain ⟨rb₁, hbulk, hresize₁, hread₁, hwrite₁, hvalid₁, halloc₁, hentry₁, hkeep₁⟩ :=
    bulk_run h signal hne hroom
  obtain ⟨rb₂, hrun₂, hholds₂, hvalid₂, halloc₂⟩ :=
    localInsert_run addrs signal h (by rw [hlen]; exact hroom)
  have hinsert : q.insert addrs vs signal = some ⟨rb₂, construct addrs vs q.memory⟩ := by
    simp only [insert, hrun₂]
  have hlow : q.queue.nAllocated.toNat ≤ 1 := countLow_of_run uninit hreach
  have hpos : 0 < vs.length := List.length_pos_of_ne_nil hne
  -- one item, where the count is right
  have hone {v : T} (hv : vs = [v]) (hcount : q.queue.nAllocated = 1) :
      Holds rb₁ (es ++ [(q.nextPtr, signal)]) := by
    rw [hcount] at hwrite₁
    have hkeep : ∀ i < es.length, rb₁.buffer.entry (slot cap (q.queue.buffer.readPt.pos + i)) =
        q.queue.buffer.entry (slot cap (q.queue.buffer.readPt.pos + i)) := fun i hi =>
      hkeep₁ _ (slot_notMem (by rw [h.pos]; omega) (by rw [h.pos]; omega))
    have hholds := h.publishRange (n := 1) (by omega) hresize₁ hread₁ hwrite₁ hkeep
    rwa [window_cons, window_zero, Pointer.slot_pos, hentry₁] at hholds
  constructor
  · rintro ⟨q₁, q₂, hq₁, hq₂, ⟨es₁, es₂, hes₁, hes₂, hsame⟩, -, halloc⟩
    rw [hbulk, Option.map_eq_some_iff] at hq₁
    obtain ⟨memory, hassign, rfl⟩ := hq₁
    obtain rfl : (⟨rb₂, construct addrs vs q.memory⟩ : PtrQueue T cap) = q₂ := by
      rw [hinsert] at hq₂
      exact Option.some_inj.mp hq₂
    obtain rfl := hes₂.unique hholds₂
    have hlength : es.length + q.queue.nAllocated.toNat = es.length + vs.length := by
      have hmap := congrArg List.length hsame
      rw [List.length_map, List.length_map, List.length_append, Fifo.signalLast_length, hlen,
        h.length_of_incBy hes₁ (by omega) hread₁ hwrite₁] at hmap
      exact hmap
    have hcount : q.queue.nAllocated = 1 := UInt32.toNat_inj.mp (by show _ = 1; omega)
    obtain ⟨v, rfl⟩ := List.length_eq_one_iff.mp (show vs.length = 1 by omega)
    obtain ⟨addr, rfl⟩ := List.length_eq_one_iff.mp hlen
    obtain rfl := hes₁.unique (hone rfl hcount)
    rw [List.length_singleton, assign_one, Option.ite_none_right_eq_some, Option.some_inj] at hassign
    obtain ⟨hsome, rfl⟩ := hassign
    refine ⟨halloc₂.symm.trans (halloc.symm.trans halloc₁), hcount, v, rfl, hsome, view_assign.mp ?_⟩
    rw [List.map_append, List.map_append] at hsame
    exact (List.append_inj_left' hsame rfl).trans (view_insert hlive (hfresh addr (by simp)))
  · rintro ⟨ha, hcount, v, rfl, hsome, hshown⟩
    obtain ⟨addr, rfl⟩ := List.length_eq_one_iff.mp hlen
    refine ⟨⟨rb₁, Function.update q.memory q.nextPtr (some v)⟩, _, ?_, hinsert,
      ⟨_, _, hone rfl hcount, hholds₂, ?_⟩, hvalid₁.trans hvalid₂.symm,
      halloc₁.trans (halloc₂.trans ha).symm⟩
    · rw [hbulk, List.length_singleton, assign_one, if_pos hsome]
      rfl
    · rw [List.map_append, List.map_append]
      refine congrArg₂ _ ((view_assign.mpr hshown).trans
        (view_insert hlive (hfresh addr (by simp))).symm) ?_
      simp [Fifo.signalLast, construct]

end Decided

end PtrQueue

/-! ## The three allocation classes -/

/-- A queue of one place after a push and a pop. The slot still points at the object that was pushed. -/
def PtrQueue.usedOnce : PtrQueue Nat 1 where
  queue := RingBuffer.popped (RingBuffer.pushed 7 RaftSignal.none (RingBuffer.init fun _ => 0))
  memory := fun a => if a = 7 then some 0 else none

end RaftLib.Queue
