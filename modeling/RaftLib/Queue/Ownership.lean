/-
# `RaftLib.Queue.Ownership` -- when the objects of pointer queues are freed exactly once

The world of `RaftLib.Queue.ExtAlloc` read as books (`RaftLib.Logic.Custody`): the places are the
positions of the queues, the slot of an outstanding `allocate`, and the entries of the maps `in`; the
side of a place is the kernel that gets to see it. A kernel passes an object on when it pushes what
it has peeked at, maybe to itself, and settles its books in `fifo_gc`.

`Careful` is what the calls must respect. A pop is never careful: it frees nothing.
-/
import Mathlib.Data.Fintype.Basic
import RaftLib.Logic.Custody
import RaftLib.Logic.Steps
import RaftLib.Queue.ExtAlloc

namespace RaftLib.Queue

open RaftLib.Logic.Custody
open RaftLib.Logic.KeySet
open RaftLib.Logic.Lifetime (Places)
open RaftLib.Logic.Ring
open RaftLib.Logic.Steps

/-! ## What one queue refers to -/

namespace RingBuffer

variable {cap : Nat} [NeZero cap] {rb : RingBuffer Addr cap} {es : List (Addr × RaftSignal)}

/-- The pointer at position `p`, if that is in the queue. -/
def slotRef (rb : RingBuffer Addr cap) (p : Nat) : Option Addr :=
  if rb.buffer.readPt.pos ≤ p ∧ p < rb.buffer.writePt.pos then some (rb.buffer.store (slot cap p))
  else none

/-- The pointer in the slot that an outstanding `allocate` has handed out. -/
def allocRef (rb : RingBuffer Addr cap) : Option Addr :=
  if rb.allocateCalled then some (rb.buffer.store rb.buffer.writePt.a) else none

omit [NeZero cap] in
theorem allocRef_of_not (h : rb.allocateCalled = false) : rb.allocRef = none := by
  rw [allocRef, h]
  rfl

/-- Only what these read matters. -/
theorem slotRef_congr {rb' : RingBuffer Addr cap} (hr : rb'.buffer.readPt = rb.buffer.readPt)
    (hw : rb'.buffer.writePt = rb.buffer.writePt) (hs : rb'.buffer.store = rb.buffer.store) :
    rb'.slotRef = rb.slotRef := by
  funext p
  rw [slotRef, slotRef, hr, hw, hs]

/-- The position behind the window is not in it. -/
theorem slotRef_writePos (rb : RingBuffer Addr cap) : rb.slotRef rb.buffer.writePt.pos = none :=
  if_neg fun h => Nat.lt_irrefl _ h.2

/-- A store at the write index is behind the window. -/
theorem slotRef_putStore (h : Holds rb es) (hroom : es.length < cap) (a : Addr) :
    (putStore rb.buffer.writePt.a a rb).slotRef = rb.slotRef := by
  funext p
  show (if rb.buffer.readPt.pos ≤ p ∧ p < rb.buffer.writePt.pos then
    some (Function.update rb.buffer.store rb.buffer.writePt.a a (slot cap p)) else none) = _
  unfold slotRef
  split
  · next hp =>
      have hpos := h.pos
      have hne : slot cap p ≠ rb.buffer.writePt.a := by
        rw [← Pointer.slot_pos]
        exact slot_ne_of_lt hp.2 (by omega)
      rw [Function.update_of_ne hne]
  · rfl

/-- Moving the write pointer puts what is at the write index into the queue. -/
theorem slotRef_incWrite (h : Holds rb es) (p : Nat) :
    (incWrite rb).slotRef p =
      if p = rb.buffer.writePt.pos then some (rb.buffer.store rb.buffer.writePt.a)
      else rb.slotRef p := by
  have hpos := h.pos
  unfold slotRef incWrite
  simp only [Pointer.pos_inc]
  by_cases hp : p = rb.buffer.writePt.pos
  · rw [if_pos hp, if_pos (by omega), hp, Pointer.slot_pos]
  · rw [if_neg hp]
    by_cases hin : rb.buffer.readPt.pos ≤ p ∧ p < rb.buffer.writePt.pos
    · rw [if_pos hin, if_pos (by omega)]
    · rw [if_neg hin, if_neg (by omega)]

/-- Moving the read pointer takes the oldest out. -/
theorem slotRef_incRead (p : Nat) :
    (incRead rb).slotRef p = if p = rb.buffer.readPt.pos then none else rb.slotRef p := by
  unfold slotRef incRead
  simp only [Pointer.pos_inc]
  by_cases hp : p = rb.buffer.readPt.pos
  · rw [if_pos hp, if_neg (by omega)]
  · rw [if_neg hp]
    by_cases hin : rb.buffer.readPt.pos ≤ p ∧ p < rb.buffer.writePt.pos
    · rw [if_pos hin, if_pos (by omega)]
    · rw [if_neg hin, if_neg (by omega)]

/-- A push puts its pointer behind the window. -/
theorem slotRef_pushed (h : Holds rb es) (hroom : es.length < cap) (a : Addr) (s : RaftSignal)
    (p : Nat) :
    (pushed a s rb).slotRef p = if p = rb.buffer.writePt.pos then some a else rb.slotRef p := by
  have hstore : (putStore rb.buffer.writePt.a a rb).buffer.store rb.buffer.writePt.a = a :=
    Function.update_self ..
  have hsame : (pushed a s rb).slotRef = (incWrite (putStore rb.buffer.writePt.a a rb)).slotRef :=
    slotRef_congr rfl rfl rfl
  rw [hsame, slotRef_incWrite (holds_putStore h hroom a), slotRef_putStore h hroom]
  show (if p = rb.buffer.writePt.pos then
    some ((putStore rb.buffer.writePt.a a rb).buffer.store rb.buffer.writePt.a) else _) = _
  rw [hstore]

theorem slotRef_readPos {e : Addr × RaftSignal} (h : Holds rb (e :: es)) :
    rb.slotRef rb.buffer.readPt.pos = some (rb.buffer.store rb.buffer.readPt.a) := by
  have hpos := h.pos
  rw [List.length_cons] at hpos
  rw [slotRef, if_pos (by omega), Pointer.slot_pos]

end RingBuffer

/-! ## The books -/

/-- Where a pointer can be. -/
inductive Place (κ ι : Type) where
  | slot (q : ι) (p : Nat)
  | allocated (q : ι)
  | pending (k : κ) (a : Addr)
  deriving DecidableEq

namespace Place

variable {κ ι : Type} [LinearOrder ι]

/-- The entries of the maps come first, and then the queues in turn. -/
def Before : Place κ ι → Place κ ι → Prop
  | .pending _ a, .pending _ b => a < b
  | .pending .., .slot .. => True
  | .slot q n, .slot r m => q < r ∨ q = r ∧ n < m
  | _, _ => False

theorem Before.asymm {p r : Place κ ι} (h : p.Before r) : ¬r.Before p := by
  cases p with
  | allocated q => exact h.elim
  | pending k a =>
      cases r with
      | allocated q => exact h.elim
      | pending j b => exact Nat.lt_asymm h
      | slot q n => exact id
  | slot q n =>
      cases r with
      | allocated q' => exact h.elim
      | pending j b => exact h.elim
      | slot r m =>
          rintro (hlt | ⟨rfl, hlt⟩)
          · rcases h with hlt' | ⟨rfl, -⟩
            · exact lt_asymm hlt hlt'
            · exact lt_irrefl _ hlt
          · rcases h with hlt' | ⟨-, hlt'⟩
            · exact lt_irrefl _ hlt'
            · exact Nat.lt_asymm hlt hlt'

end Place

/-- What is in a queue or in a map `in` is in the hands of the kernel that reads from the queue. -/
def layout {κ ι : Type} [LinearOrder ι] (net : Wiring κ ι) : Layout (Place κ ι) κ where
  side
    | .slot q _ => some (net.dst q)
    | .allocated _ => none
    | .pending k _ => some k
  slot
    | .slot .. => True
    | .allocated _ | .pending .. => False
  before := Place.Before
  asymm _ _ := Place.Before.asymm
  total := by
    intro p r k hp hr hne
    cases p with
    | allocated q => cases hp
    | pending j a =>
        cases r with
        | allocated q => cases hr
        | pending j' b =>
            obtain rfl := Option.some_inj.mp (hp.trans hr.symm)
            exact Nat.lt_or_gt_of_ne fun heq => hne (congrArg _ heq)
        | slot q n => exact .inl trivial
    | slot q n =>
        cases r with
        | allocated q' => cases hr
        | pending j b => exact .inr trivial
        | slot q' m =>
            rcases lt_trichotomy q q' with hlt | rfl | hlt
            · exact .inl (.inl hlt)
            · rcases Nat.lt_or_gt_of_ne fun heq => hne (congrArg (Place.slot q) heq) with hlt | hlt
              · exact .inl (.inr ⟨rfl, hlt⟩)
              · exact .inr (.inr ⟨rfl, hlt⟩)
            · exact .inr (.inl hlt)
  side_of_slot := by
    intro p hp
    cases p with
    | slot q n => exact ⟨net.dst q, rfl⟩
    | allocated q => exact hp.elim
    | pending k a => exact hp.elim

namespace ExtWorld

variable {κ ι : Type} {cap : ι → Nat} [∀ q, NeZero (cap q)]

def refs (w : ExtWorld κ ι cap) : Place κ ι → Option Addr
  | .slot q p => (w.queue q).slotRef p
  | .allocated q => (w.queue q).allocRef
  | .pending k a => if a ∈ w.inMap k then some a else none

def books (w : ExtWorld κ ι cap) : Books (Place κ ι) κ Addr where
  refs := w.refs
  passed k a := a ∈ w.outSet k
  seen k a := a ∈ w.peekSet k
  heap := w.heap

/-- **Freed exactly once.** Every object made is owned by one place or was deleted once, nothing else
was deleted, and no queue refers to what is deleted. -/
def Accounted [LinearOrder ι] (net : Wiring κ ι) (w : ExtWorld κ ι cap) : Prop :=
  w.undefined = false ∧ Books.Accounted (layout net) w.books

/-- **What the calls must respect.** One element is allocated at a time, and what `deallocate` deletes
is allocated. No object is popped. What was peeked at is pushed once between two collections, to whatever
kernel. A kernel that holds two references to one object does not recycle both of them before it collects.
A collection comes when the kernel has recycled all that it has passed on, and when every kernel that has
passed on what it deletes has recycled it too. -/
def Careful (net : Wiring κ ι) (w : ExtWorld κ ι cap) : Op κ ι → Prop
  | .allocate q _ => (w.queue q).allocateCalled = false
  | .deallocate q => (w.queue q).allocateCalled = true
  | .push q item _ _ =>
      (w.queue q).allocateCalled = false ∧
        (item ∈ w.peekSet (net.src q) → item ∉ w.outSet (net.src q))
  | .pop _ => False
  | .recycle q =>
      ∀ a, w.refs (.slot q (w.queue q).buffer.readPt.pos) = some a → a ∉ w.inMap (net.dst q)
  | .gc k =>
      (∀ a ∈ w.outSet k, a ∈ w.inMap k) ∧
        ∀ a ∈ w.inMap k, a ∉ w.outSet k → ∀ j, a ∈ w.outSet j → a ∈ w.inMap j
  | .send .. | .peek _ | .unpeek _ | .invalidate _ => True

/-! ## What an update of one queue does to the references -/

variable [DecidableEq κ] [LinearOrder ι] {w w' : ExtWorld κ ι cap} {q : ι}

/-- At most the position `p` and the allocated slot of one queue read something new. -/
theorem refs_setQueue {rb : RingBuffer Addr (cap q)} {p : Nat} {v : Option Addr}
    (hslot : ∀ n, rb.slotRef n = if n = p then v else (w.queue q).slotRef n) :
    (w.setQueue q rb).refs =
      Function.update (Function.update w.refs (.allocated q) rb.allocRef) (.slot q p) v := by
  funext place
  cases place with
  | slot q' n =>
      by_cases hq : q' = q
      · subst hq
        show (Function.update w.queue q' rb q').slotRef n = _
        rw [Function.update_self, hslot]
        by_cases hn : n = p
        · rw [if_pos hn, hn, Function.update_self]
        · rw [if_neg hn, Function.update_of_ne (by simpa using hn), Function.update_of_ne (by simp)]
          rfl
      · show (Function.update w.queue q rb q').slotRef n = _
        rw [Function.update_of_ne hq, Function.update_of_ne (by simp [hq]),
          Function.update_of_ne (by simp)]
        rfl
  | allocated q' =>
      rw [Function.update_of_ne (by simp)]
      by_cases hq : q' = q
      · subst hq
        show (Function.update w.queue q' rb q').allocRef = _
        rw [Function.update_self, Function.update_self]
      · show (Function.update w.queue q rb q').allocRef = _
        rw [Function.update_of_ne hq, Function.update_of_ne (by simpa using hq)]
        rfl
  | pending k a => rw [Function.update_of_ne (by simp), Function.update_of_ne (by simp)]; rfl

theorem refs_setQueue_slot {rb : RingBuffer Addr (cap q)} {p : Nat} {v : Option Addr}
    (hslot : ∀ n, rb.slotRef n = if n = p then v else (w.queue q).slotRef n)
    (halloc : rb.allocRef = (w.queue q).allocRef) :
    (w.setQueue q rb).refs = Function.update w.refs (.slot q p) v := by
  rw [refs_setQueue hslot, halloc]
  refine congrArg (fun r : Place κ ι → Option Addr => Function.update r (.slot q p) v) ?_
  exact Function.update_eq_self ..

theorem refs_setQueue_alloc {rb : RingBuffer Addr (cap q)} (hslot : rb.slotRef = (w.queue q).slotRef) :
    (w.setQueue q rb).refs = Function.update w.refs (.allocated q) rb.allocRef := by
  rw [refs_setQueue (p := 0) (v := (w.queue q).slotRef 0) fun n => by
    rw [hslot]
    split
    · next hn => rw [hn]
    · rfl]
  refine Function.update_eq_self_iff.mpr ?_
  rw [Function.update_of_ne (by simp)]
  rfl

theorem refs_setQueue_same {rb : RingBuffer Addr (cap q)} (hslot : rb.slotRef = (w.queue q).slotRef)
    (halloc : rb.allocRef = (w.queue q).allocRef) : (w.setQueue q rb).refs = w.refs := by
  rw [refs_setQueue_alloc hslot, halloc]
  exact Function.update_eq_self ..

/-- What is recycled comes into the map. -/
theorem refs_insert_inMap (k : κ) (a : Addr) :
    refs { w with inMap := Function.update w.inMap k ((w.inMap k).insert a) } =
      Function.update w.refs (.pending k a) (some a) := by
  funext place
  cases place with
  | slot q n => rw [Function.update_of_ne (by simp)]; rfl
  | allocated q => rw [Function.update_of_ne (by simp)]; rfl
  | pending k' a' =>
      show (if a' ∈ Function.update w.inMap k ((w.inMap k).insert a) k' then some a' else none) = _
      by_cases hk : k' = k
      · subst hk
        rw [Function.update_self]
        by_cases ha : a' = a
        · subst ha
          rw [Function.update_self, if_pos (Keys.mem_insert.mpr (.inl rfl))]
        · rw [Function.update_of_ne (by simpa using ha)]
          simp [refs, ha]
      · rw [Function.update_of_ne hk, Function.update_of_ne (by simp [hk])]
        rfl

/-- Membership in one kernel's set after an insertion. -/
theorem mem_update_insert {f : κ → Keys Addr} {k j : κ} {a b : Addr} :
    b ∈ Function.update f k ((f k).insert a) j ↔ (j = k ∧ b = a) ∨ b ∈ f j := by
  by_cases hj : j = k
  · subst hj
    simp
  · simp [hj]

/-! ## The invariant -/

/-- The queue holds something, and there is room for what is allocated. -/
def Tidy {c : Nat} [NeZero c] (rb : RingBuffer Addr c) : Prop :=
  ∃ es, Holds rb es ∧ (rb.allocateCalled = true → es.length < c)

structure Inv (net : Wiring κ ι) (w : ExtWorld κ ι cap) : Prop where
  tidy : ∀ q, Tidy (w.queue q)
  defined : w.undefined = false
  sound : Books.Sound (layout net) w.books none

variable {net : Wiring κ ι}

omit [DecidableEq κ] in
theorem tidy_setQueue (h : ∀ q, Tidy (w.queue q)) {rb : RingBuffer Addr (cap q)} (hrb : Tidy rb)
    (q' : ι) : Tidy ((w.setQueue q rb).queue q') := by
  show Tidy (Function.update w.queue q rb q')
  by_cases hq : q' = q
  · subst hq
    rwa [Function.update_self]
  · rw [Function.update_of_ne hq]
    exact h q'

omit [DecidableEq κ] in
/-- The books of the new world are known, and known to be sound. -/
theorem Inv.of_books {B : Books (Place κ ι) κ Addr} (hB : Books.Sound (layout net) B none)
    (htidy : ∀ q, Tidy (w'.queue q)) (hdefined : w'.undefined = false) (hrefs : w'.refs = B.refs)
    (hpassed : ∀ k a, a ∈ w'.outSet k ↔ B.passed k a) (hseen : ∀ k a, a ∈ w'.peekSet k ↔ B.seen k a)
    (hheap : w'.heap = B.heap) : Inv net w' := by
  refine ⟨htidy, hdefined, ?_⟩
  have hp : (fun k a => a ∈ w'.outSet k) = B.passed := funext₂ fun k a => propext (hpassed k a)
  have hs : (fun k a => a ∈ w'.peekSet k) = B.seen := funext₂ fun k a => propext (hseen k a)
  unfold books
  rw [hrefs, hp, hs, hheap]
  exact hB

/-- A call that changes flags of one queue and nothing else. -/
theorem Inv.same (h : Inv net w) {rb : RingBuffer Addr (cap q)} (hrb : Tidy rb)
    (hslot : rb.slotRef = (w.queue q).slotRef) (halloc : rb.allocRef = (w.queue q).allocRef) :
    Inv net (w.setQueue q rb) :=
  Inv.of_books h.sound (tidy_setQueue h.tidy hrb) h.defined (refs_setQueue_same hslot halloc)
    (fun _ _ => Iff.rfl) (fun _ _ => Iff.rfl) rfl

/-! ### Producer calls -/

theorem Inv.allocate (h : Inv net w) (hc : (w.queue q).allocateCalled = false) {addr : Addr}
    (hstep : w.allocate q addr = some w') : Inv net w' := by
  obtain ⟨es, hes, -⟩ := h.tidy q
  unfold ExtWorld.allocate at hstep
  by_cases hroom : es.length < cap q
  · rw [RingBuffer.localAllocate_run hes hroom] at hstep
    cases hfree : w.heap.place addr with
    | some o => simp [hfree] at hstep
    | none =>
        simp only [hfree, Option.some_inj] at hstep
        subst hstep
        have hheld := RingBuffer.holds_putStore (RingBuffer.holds_allocated hes) hroom addr
        have hsame : (RingBuffer.allocated (w.queue q)).slotRef = (w.queue q).slotRef :=
          RingBuffer.slotRef_congr rfl rfl rfl
        have hslot := (RingBuffer.slotRef_putStore (RingBuffer.holds_allocated hes) hroom addr).trans
          hsame
        have hrefs := refs_setQueue_alloc (w := w) hslot
        have halloc : (RingBuffer.putStore (w.queue q).buffer.writePt.a addr
            (RingBuffer.allocated (w.queue q))).allocRef = some addr :=
          congrArg some (Function.update_self ..)
        have hnone : w.books.refs (.allocated q) = none := RingBuffer.allocRef_of_not hc
        exact Inv.of_books (h.sound.create hnone hfree)
          (tidy_setQueue h.tidy ⟨es, hheld, fun _ => hroom⟩) h.defined (hrefs.trans (congrArg _ halloc))
          (fun _ _ => Iff.rfl) (fun _ _ => Iff.rfl) rfl
  · obtain ⟨rb', hrun⟩ := RingBuffer.localAllocate_full hes hroom
    simp [hrun] at hstep

theorem Inv.send (h : Inv net w) {signal : RaftSignal} (hstep : w.send q signal = some w') :
    Inv net w' := by
  obtain ⟨es, hes, hroom⟩ := h.tidy q
  unfold ExtWorld.send at hstep
  cases ha : (w.queue q).allocateCalled with
  | true =>
      simp only [RingBuffer.send_run ha, Option.some_inj] at hstep
      subst hstep
      have hroom' := hroom ha
      have hsame : (RingBuffer.sent signal (w.queue q)).slotRef =
          (RingBuffer.incWrite (w.queue q)).slotRef := RingBuffer.slotRef_congr rfl rfl rfl
      have hrefs := refs_setQueue fun n =>
        (congrFun hsame n).trans (RingBuffer.slotRef_incWrite hes n)
      have hfrom : w.books.refs (.allocated q) =
          some ((w.queue q).buffer.store (w.queue q).buffer.writePt.a) := if_pos ha
      have hto : w.books.refs (.slot q (w.queue q).buffer.writePt.pos) = none :=
        RingBuffer.slotRef_writePos _
      exact Inv.of_books (h.sound.handOver rfl hfrom hto)
        (tidy_setQueue h.tidy ⟨_, RingBuffer.holds_sent hes hroom' signal, fun h => nomatch h⟩)
        h.defined hrefs (fun _ _ => Iff.rfl) (fun _ _ => Iff.rfl) rfl
  | false =>
      simp only [RingBuffer.send_run_nothing ha, Option.some_inj] at hstep
      exact hstep ▸ h.same ⟨es, hes, hroom⟩ rfl rfl

theorem Inv.deallocate (h : Inv net w) (hc : (w.queue q).allocateCalled = true)
    (hstep : w.deallocate q = some w') : Inv net w' := by
  obtain ⟨es, hes, -⟩ := h.tidy q
  obtain rfl := Option.some_inj.mp hstep
  have hfrom : w.books.refs (.allocated q) =
      some ((w.queue q).buffer.store (w.queue q).buffer.writePt.a) := if_pos hc
  exact Inv.of_books (h.sound.takeBack rfl hfrom)
    (tidy_setQueue h.tidy ⟨es, ⟨hes.running, hes.pos, hes.bounded, hes.items⟩, fun h => nomatch h⟩)
    h.defined (refs_setQueue_alloc (RingBuffer.slotRef_congr rfl rfl rfl))
    (fun _ _ => Iff.rfl) (fun _ _ => Iff.rfl) rfl

/-- A push that goes through appends one pointer. -/
theorem refs_pushed {es : List (Addr × RaftSignal)} (hes : Holds (w.queue q) es)
    (hroom : es.length < cap q) (hc : (w.queue q).allocateCalled = false) (a : Addr)
    (signal : RaftSignal) : (w.setQueue q (RingBuffer.pushed a signal (w.queue q))).refs =
      Function.update w.refs (.slot q (w.queue q).buffer.writePt.pos) (some a) := by
  have halloc : (RingBuffer.pushed a signal (w.queue q)).allocRef = none :=
    RingBuffer.allocRef_of_not hc
  exact refs_setQueue_slot (RingBuffer.slotRef_pushed hes hroom a signal)
    (halloc.trans (RingBuffer.allocRef_of_not hc).symm)

theorem Inv.push (h : Inv net w) {item addr : Addr} {signal : RaftSignal}
    (hc : Careful net w (.push q item addr signal))
    (hstep : w.push net q item addr signal = some w') : Inv net w' := by
  obtain ⟨es, hes, -⟩ := h.tidy q
  obtain ⟨ha, hc⟩ := hc
  have hto : w.books.refs (.slot q (w.queue q).buffer.writePt.pos) = none :=
    RingBuffer.slotRef_writePos _
  unfold ExtWorld.push at hstep
  by_cases hroom : es.length < cap q
  · have htidy (a : Addr) : Tidy (RingBuffer.pushed a signal (w.queue q)) :=
      ⟨_, RingBuffer.holds_pushed hes hroom a signal, fun h => absurd (ha.symm.trans h) nofun⟩
    by_cases hseen : item ∈ w.peekSet (net.src q)
    · -- the object that was looked at is passed on
      rw [if_pos hseen] at hstep
      simp only [RingBuffer.localPush_run hes hroom, Option.some_inj] at hstep
      subst hstep
      exact Inv.of_books (h.sound.pass hseen (hc hseen) hto rfl)
        (tidy_setQueue h.tidy (htidy item)) h.defined (refs_pushed hes hroom ha item signal)
        (fun _ _ => mem_update_insert) (fun _ _ => Iff.rfl) rfl
    · -- a copy is made
      rw [if_neg hseen] at hstep
      cases hfree : w.heap.place addr with
      | some o => simp [hfree, RingBuffer.localPush_run hes hroom] at hstep
      | none =>
          simp only [RingBuffer.localPush_run hes hroom, hfree, Option.some_inj] at hstep
          subst hstep
          exact Inv.of_books (h.sound.create hto hfree) (tidy_setQueue h.tidy (htidy addr)) h.defined
            (refs_pushed hes hroom ha addr signal) (fun _ _ => Iff.rfl) (fun _ _ => Iff.rfl) rfl
  · obtain ⟨rb, hrun⟩ := RingBuffer.localPush_full hes hroom (some item) signal
    obtain ⟨rb', hrun'⟩ := RingBuffer.localPush_full hes hroom (some addr) signal
    simp [hrun, hrun'] at hstep

/-! ### Consumer calls -/

theorem Inv.peek (h : Inv net w) (hstep : w.peek net q = some w') : Inv net w' := by
  obtain ⟨es, hes, hroom⟩ := h.tidy q
  unfold ExtWorld.peek at hstep
  cases es with
  | nil =>
      obtain ⟨x, rb, hrun⟩ := RingBuffer.localPeek_empty hes
      simp [hrun] at hstep
  | cons e es =>
      simp only [RingBuffer.localPeek_run hes, Option.some_inj] at hstep
      subst hstep
      have href : w.books.refs (.slot q (w.queue q).buffer.readPt.pos) =
          some ((w.queue q).buffer.store (w.queue q).buffer.readPt.a) := RingBuffer.slotRef_readPos hes
      exact Inv.of_books (h.sound.look ⟨rfl, href⟩)
        (tidy_setQueue h.tidy ⟨_, hes.setHelper .peek true, hroom⟩) h.defined
        (refs_setQueue_same (RingBuffer.slotRef_congr rfl rfl rfl) rfl) (fun _ _ => Iff.rfl)
        (fun _ _ => mem_update_insert) rfl

theorem Inv.recycle (h : Inv net w)
    (hc : ∀ a, w.refs (.slot q (w.queue q).buffer.readPt.pos) = some a → a ∉ w.inMap (net.dst q))
    (hstep : w.recycle net q = some w') : Inv net w' := by
  obtain ⟨es, hes, hroom⟩ := h.tidy q
  have hes' := hes.setHelper .recycle true
  unfold ExtWorld.recycle at hstep
  cases es with
  | nil =>
      simp only [RingBuffer.lookForData_run hes', RingBuffer.found] at hstep
      cases hv : (RingBuffer.setHelper .recycle true (w.queue q)).buffer.isValid with
      | true => simp [hv] at hstep
      | false =>
          simp only [hv, Bool.false_eq_true, reduceIte, Option.some_inj] at hstep
          exact hstep ▸ h.same ⟨_, hes'.setHelper .recycle false, hroom⟩
            (RingBuffer.slotRef_congr rfl rfl rfl) rfl
  | cons e es =>
      simp only [RingBuffer.lookForData_run hes', RingBuffer.found, Option.some_inj] at hstep
      subst hstep
      have hfrom : w.books.refs (.slot q (w.queue q).buffer.readPt.pos) =
          some ((w.queue q).buffer.store (w.queue q).buffer.readPt.a) := RingBuffer.slotRef_readPos hes
      have hto : w.books.refs (.pending (net.dst q)
          ((w.queue q).buffer.store (w.queue q).buffer.readPt.a)) = none := if_neg (hc _ hfrom)
      have hsame : (RingBuffer.recycledOne (w.queue q)).slotRef =
          (RingBuffer.incRead (w.queue q)).slotRef := RingBuffer.slotRef_congr rfl rfl rfl
      have hrefs : (w.setQueue q (RingBuffer.recycledOne (w.queue q))).refs =
          Function.update w.refs (.slot q (w.queue q).buffer.readPt.pos) none :=
        refs_setQueue_slot (fun n => (congrFun hsame n).trans (RingBuffer.slotRef_incRead n)) rfl
      refine Inv.of_books (h.sound.setAside rfl hfrom hto rfl id)
        (tidy_setQueue h.tidy ⟨_, RingBuffer.holds_recycledOne hes, fun ha => ?_⟩) h.defined
        ((refs_insert_inMap (w := w.setQueue q (RingBuffer.recycledOne (w.queue q))) _ _).trans ?_)
        (fun _ _ => Iff.rfl) (fun _ _ => Iff.rfl) rfl
      · exact (Nat.le_succ _).trans_lt (hroom ha)
      · rw [hrefs]
        rfl

/-! ### Collections -/

omit [∀ q, NeZero (cap q)] [DecidableEq κ] [LinearOrder ι] in
/-- What a collection deletes, if the kernel has recycled all that it has passed on. -/
theorem mem_collected {k : κ} (hsub : ∀ a ∈ w.outSet k, a ∈ w.inMap k) (a : Addr) :
    a ∈ (unmatched (w.inMap k).list (w.outSet k).list).1 ↔ a ∈ w.inMap k ∧ a ∉ w.outSet k := by
  rw [unmatched_of_subset _ _ (w.inMap k).sorted (w.outSet k).sorted hsub, List.mem_filter,
    decide_eq_true_iff]
  rfl

theorem mem_update_empty {f : κ → Keys Addr} {k j : κ} {a : Addr} :
    a ∈ Function.update f k .empty j ↔ j ≠ k ∧ a ∈ f j := by
  by_cases hj : j = k
  · subst hj
    simp
  · simp [hj]

omit [DecidableEq κ] [LinearOrder ι] in
theorem refs_pending_iff {k : κ} {a b : Addr} :
    w.refs (.pending k a) = some b ↔ a = b ∧ a ∈ w.inMap k := by
  show (if a ∈ w.inMap k then some a else none) = some b ↔ _
  split
  · next hmem => simp [hmem]
  · next hmem => simp [hmem]

omit [DecidableEq κ] in
/-- What a kernel keeps outside of the queues is what is in its map. -/
theorem kept_iff {k : κ} {place : Place κ ι} {a : Addr} :
    Books.Kept (layout net) w.books k a place ↔ place = .pending k a ∧ a ∈ w.inMap k := by
  constructor
  · rintro ⟨⟨hside, href⟩, hslot⟩
    cases place with
    | slot q p => exact absurd trivial hslot
    | allocated q => cases hside
    | pending j b =>
        obtain rfl : j = k := Option.some_inj.mp hside
        obtain ⟨rfl, hmem⟩ := refs_pending_iff.mp href
        exact ⟨rfl, hmem⟩
  · rintro ⟨rfl, hmem⟩
    exact ⟨⟨rfl, refs_pending_iff.mpr ⟨rfl, hmem⟩⟩, id⟩

theorem settled_fifoGc (k : κ) :
    Books.Settled (layout net) k (unmatched (w.inMap k).list (w.outSet k).list).1 w.books
      (w.fifoGc k).books where
  refs := by
    intro place a
    cases place with
    | slot q p => exact ⟨fun h => ⟨h, fun hcon => hcon.2 trivial⟩, And.left⟩
    | allocated q => exact ⟨fun h => ⟨h, fun hcon => nomatch hcon.1⟩, And.left⟩
    | pending j b =>
        refine refs_pending_iff.trans ?_
        constructor
        · rintro ⟨hb, hmem⟩
          obtain ⟨hj, hmem⟩ := mem_update_empty.mp hmem
          exact ⟨refs_pending_iff.mpr ⟨hb, hmem⟩, fun hcon => hj (Option.some_inj.mp hcon.1)⟩
        · rintro ⟨href, hside⟩
          obtain ⟨hb, hmem⟩ := refs_pending_iff.mp href
          exact ⟨hb, mem_update_empty.mpr ⟨fun hj => hside ⟨congrArg some hj, id⟩, hmem⟩⟩
  passed _ _ := mem_update_empty
  seen _ _ := mem_update_empty
  heap := rfl

theorem Inv.gc (h : Inv net w) {k : κ} (hc : Careful net w (.gc k)) : Inv net (w.fifoGc k) := by
  obtain ⟨hsub, hback⟩ := hc
  have hdefined : (unmatched (w.inMap k).list (w.outSet k).list).2 = false :=
    (unmatched_defined_iff _ _ (w.inMap k).sorted (w.outSet k).sorted).mpr hsub
  refine ⟨h.tidy, ?_, h.sound.settle (settled_fifoGc k) ⟨?_, fun a => ?_, fun a ha => ?_,
    fun a p r hp hr => ?_, fun a ha j hj => ?_⟩⟩
  · show (w.undefined || _) = false
    rw [h.defined, hdefined]
    rfl
  · rw [unmatched_of_subset _ _ (w.inMap k).sorted (w.outSet k).sorted hsub]
    exact ((w.inMap k).sorted.imp ne_of_lt).filter _
  · rw [mem_collected hsub]
    simp only [kept_iff, exists_eq_left]
    rfl
  · exact ⟨.pending k a, kept_iff.mpr ⟨rfl, hsub a ha⟩⟩
  · exact (kept_iff.mp hp).1.trans (kept_iff.mp hr).1.symm
  · obtain ⟨hin, hout⟩ := (mem_collected hsub a).mp ha
    exact ⟨.pending j a, kept_iff.mpr ⟨rfl, hback a hin hout j hj⟩⟩

/-! ## Over whole runs -/

omit [DecidableEq κ] in
theorem Inv.init (net : Wiring κ ι) (uninit : ∀ q, Fin (cap q) → Addr) :
    Inv net (init uninit : ExtWorld κ ι cap) := by
  refine Inv.of_books (Books.Sound.init (layout net)) (fun q => ⟨[], Holds.init (uninit q), nofun⟩) rfl
    (funext fun place => ?_) (fun _ _ => ?_) (fun _ _ => ?_) rfl
  · cases place with
    | slot q p =>
        refine if_neg fun hp => ?_
        have hzero : (RingBuffer.init (uninit q)).buffer.writePt.pos = 0 := by
          simp [RingBuffer.init, Data.init]
        have hlt : p < (RingBuffer.init (uninit q)).buffer.writePt.pos := hp.2
        omega
    | allocated q => rfl
    | pending k a =>
        show (if a ∈ Keys.empty then some a else none) = none
        exact if_neg (Keys.not_mem_empty a)
  · exact iff_of_false (Keys.not_mem_empty _) id
  · exact iff_of_false (Keys.not_mem_empty _) id

/-- **One careful call.** -/
theorem Inv.step (h : Inv net w) {op : Op κ ι} (hc : Careful net w op)
    (hstep : step net w op = some w') : Inv net w' := by
  cases op with
  | allocate q addr => exact h.allocate hc hstep
  | send q signal => exact h.send hstep
  | deallocate q => exact h.deallocate hc hstep
  | push q item addr signal => exact h.push hc hstep
  | pop q => exact hc.elim
  | peek q => exact h.peek hstep
  | unpeek q =>
      obtain ⟨es, hes, hroom⟩ := h.tidy q
      obtain rfl := Option.some_inj.mp hstep
      exact h.same ⟨es, hes.setHelper .peek false, hroom⟩ (RingBuffer.slotRef_congr rfl rfl rfl) rfl
  | recycle q => exact h.recycle hc hstep
  | invalidate q =>
      obtain ⟨es, hes, hroom⟩ := h.tidy q
      obtain rfl := Option.some_inj.mp hstep
      exact h.same ⟨es, ⟨hes.running, hes.pos, hes.bounded, hes.items⟩, hroom⟩
        (RingBuffer.slotRef_congr rfl rfl rfl) rfl
  | gc k =>
      obtain rfl := Option.some_inj.mp hstep
      exact h.gc hc

/-- **Objects are freed exactly once**, in every state that careful calls reach, in any order and by
any kernels. -/
theorem freed_once (net : Wiring κ ι) (uninit : ∀ q, Fin (cap q) → Addr) {ops : List (Op κ ι)}
    {w : ExtWorld κ ι cap}
    (hrun : Run (restrict (ofFun (ExtWorld.step net)) (Careful net)) (ExtWorld.init uninit) ops w) :
    Accounted net w := by
  have hinv : Inv net w :=
    hrun.invariant (fun _ _ _ h hstep => h.step hstep.1 hstep.2) (Inv.init net uninit)
  exact ⟨hinv.defined, hinv.sound.accounted⟩

/-! ## Two runs -/

/-- Two queues in a row: a source, a kernel in the middle and a sink. -/
def inARow : Wiring (Fin 3) (Fin 2) where
  src q := q.castSucc
  dst q := q.succ

/-- Two queues with two places each, before the first call. -/
def nothingYet {n : Nat} : ExtWorld (Fin n) (Fin 2) fun _ => 2 := init fun _ _ => 0

/-- A queue from a source to a kernel that has another queue to itself. -/
def toItself : Wiring (Fin 2) (Fin 2) where
  src q := q
  dst _ := Fin.last 1

/-- No queue refers to `a`, as far as its window reaches. -/
instance [Fintype ι] (w : ExtWorld κ ι cap) (a : Addr) :
    Decidable (∀ q p, w.refs (.slot q p) ≠ some a) :=
  decidable_of_iff (∀ q, ∀ p < (w.queue q).buffer.writePt.pos, w.refs (.slot q p) ≠ some a)
    ⟨fun h q p href => by
      by_cases hp : p < (w.queue q).buffer.writePt.pos
      · exact h q p hp href
      · exact absurd ((if_neg fun hin => hp hin.2).symm.trans href) nofun,
      fun h q p _ => h q p⟩

instance [Fintype κ] (net : Wiring κ ι) (w : ExtWorld κ ι cap) (op : Op κ ι) :
    Decidable (Careful net w op) :=
  match op with
  | .allocate q _ => inferInstanceAs (Decidable ((w.queue q).allocateCalled = false))
  | .deallocate q => inferInstanceAs (Decidable ((w.queue q).allocateCalled = true))
  | .push q item _ _ => inferInstanceAs (Decidable ((w.queue q).allocateCalled = false ∧
      (item ∈ w.peekSet (net.src q) → item ∉ w.outSet (net.src q))))
  | .pop _ => .isFalse id
  | .recycle q =>
      match h : w.refs (.slot q (w.queue q).buffer.readPt.pos) with
      | some a => decidable_of_iff (a ∉ w.inMap (net.dst q)) (by simp [Careful, h])
      | none => .isTrue (by simp [Careful, h])
  | .gc k => inferInstanceAs (Decidable ((∀ a ∈ (w.outSet k).list, a ∈ w.inMap k) ∧
      ∀ a ∈ (w.inMap k).list, a ∉ w.outSet k → ∀ j, a ∈ w.outSet j → a ∈ w.inMap j))
  | .send .. | .peek _ | .unpeek _ | .invalidate _ => .isTrue trivial

/-- An object goes from the source through the kernel in the middle to the sink, and is deleted there
once; and so is one that a kernel passes on to itself. -/
theorem freed_once_forwarded :
    (∃ w : ExtWorld (Fin 3) (Fin 2) fun _ => 2, Accounted inARow w ∧ w.heap.destroyed = [0]) ∧
      ∃ w : ExtWorld (Fin 2) (Fin 2) fun _ => 2, Accounted toItself w ∧ w.heap.destroyed = [0] := by
  constructor
  · have hexec : (exec (guarded (ExtWorld.step inARow) (Careful inARow)) nothingYet
        [.allocate 0 7, .send 0 0, .peek 0, .push 1 7 9 0, .unpeek 0, .recycle 0, .gc 1, .peek 1,
          .unpeek 1, .recycle 1, .gc 2]).any (fun w => decide (w.heap.destroyed = [0])) = true := by
      decide +kernel
    obtain ⟨w, hrun, hdestroyed⟩ := exists_run_of_any hexec
    exact ⟨w, freed_once inARow _ (hrun.mono fun _ _ _ => ofFun_guarded), hdestroyed⟩
  · have hexec : (exec (guarded (ExtWorld.step toItself) (Careful toItself)) nothingYet
        [.allocate 0 7, .send 0 0, .peek 0, .push 1 7 9 0, .unpeek 0, .recycle 0, .gc 1, .peek 1,
          .unpeek 1, .recycle 1, .gc 1]).any (fun w => decide (w.heap.destroyed = [0])) = true := by
      decide +kernel
    obtain ⟨w, hrun, hdestroyed⟩ := exists_run_of_any hexec
    exact ⟨w, freed_once toItself _ (hrun.mono fun _ _ _ => ofFun_guarded), hdestroyed⟩

/-- An object that is pushed and popped is neither deleted nor owned. -/
theorem popped_lost : ∃ w : ExtWorld (Fin 3) (Fin 2) fun _ => 2,
    Run (ofFun (ExtWorld.step inARow)) nothingYet [.push 0 5 7 0, .pop 0] w ∧
      ¬Accounted inARow w := by
  have hexec : (exec (ExtWorld.step inARow) nothingYet [.push 0 5 7 0, .pop 0]).any (fun w =>
      decide ((w.heap.place 7).isSome = true ∧
        (∀ q p, w.refs (.slot q p) ≠ some 7) ∧ (∀ q, w.refs (.allocated q) ≠ some 7) ∧
        ∀ k, 7 ∉ w.inMap k)) = true := by
    decide +kernel
  obtain ⟨w, hrun, hlive, hslot, halloc, hpending⟩ := exists_run_of_any hexec
  refine ⟨w, hrun, fun hacc => ?_⟩
  obtain ⟨place, href, -⟩ := (hacc.2.owned 7).mp (Option.isSome_iff_exists.mp hlive)
  cases place with
  | slot q p => exact hslot q p href
  | allocated q => exact halloc q href
  | pending k a =>
      obtain ⟨rfl, hmem⟩ := refs_pending_iff.mp href
      exact hpending k hmem

end ExtWorld

end RaftLib.Queue
