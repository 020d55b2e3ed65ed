/-
# `RaftLib.Threads.SpscSafe` -- torn reads of index and wrap counter do no harm

The two halves of a pointer are stored one after the other, so a thread that looks at the other's
pointer may see a new index with an old wrap counter. `Counted` says how far they can be apart: the
index is always that of the true count of increments, the counter is at most one turn behind, and
only between the two stores.

What a thread learns from its four loads is therefore one-sided. The producer sees a read counter
that is never too large (`SizePc.ProducerSees`), the consumer a write counter that is never too
large (`SizePc.ConsumerSees`), and each knows its own. That is enough for the one conclusion either
of them draws: there is room, there is data. Both conclusions stay true whatever the other thread
does next.
-/
import RaftLib.Threads.Spsc
import RaftLib.Logic.Steps

namespace RaftLib.Threads

open RaftLib.Queue
open RaftLib.Logic.Ring
open RaftLib.Logic.Steps

variable {T : Type} {c : Nat}

/-! ## A pointer in the middle of its increment -/

/-- By how much the wrap counter lags behind after `n` index stores. -/
def IncPc.lag (n : Nat) : Option (IncPc c) → Nat
  | some .testA | some .loadWrap | some (.storeWrap _) => if n % c = 0 then 1 else 0
  | _ => 0

/-- What an increment in progress holds in its hands. -/
def IncPc.Holding (ptr : Pointer c) (n : Nat) : Option (IncPc c) → Prop
  | some (.storeA a) => (a : Nat) = (n + 1) % c
  | some .loadWrap => n % c = 0
  | some (.storeWrap wrapA) => n % c = 0 ∧ wrapA = ptr.wrapA + 1
  | _ => True

/-- The pointer's index has been stored `n` times, and its owner stands at `pc`. -/
structure Counted (ptr : Pointer c) (n : Nat) (pc : Option (IncPc c)) : Prop where
  index : (ptr.a : Nat) = n % c
  wrap : ptr.wrapA + IncPc.lag n pc = n / c
  holding : IncPc.Holding ptr n pc

namespace Counted

variable {ptr : Pointer c} {n : Nat} {pc : Option (IncPc c)}

theorem wrap_le (h : Counted ptr n pc) : ptr.wrapA ≤ n / c := by
  have := h.wrap
  omega

theorem wrap_eq (h : Counted ptr n none) : ptr.wrapA = n / c := h.wrap

/-- A fresh increment holds nothing yet. -/
theorem start (h : Counted ptr n none) : Counted ptr n (some .loadA) := ⟨h.index, h.wrap, trivial⟩

/-- **One access of `Pointer::inc`.** -/
theorem step {pc : IncPc c} (h : Counted ptr n (some pc)) :
    Counted (pc.step ptr).1 (if pc.storesIndex then n + 1 else n) (pc.step ptr).2 := by
  have hpos := ptr.a.pos
  cases pc with
  | loadA =>
      refine ⟨h.index, h.wrap, ?_⟩
      show (ptr.a + 1) % c = (n + 1) % c
      rw [h.index, Nat.mod_add_mod]
  | storeA a =>
      refine ⟨h.holding, ?_, trivial⟩
      have hwrap : ptr.wrapA = n / c := h.wrap
      show ptr.wrapA + (if (n + 1) % c = 0 then 1 else 0) = (n + 1) / c
      rw [hwrap, Nat.succ_div]
      simp only [Nat.dvd_iff_mod_eq_zero]
  | testA =>
      have hwrap : ptr.wrapA + (if n % c = 0 then 1 else 0) = n / c := h.wrap
      by_cases hz : (ptr.a : Nat) = 0
      · have hn : n % c = 0 := h.index ▸ hz
        simp only [IncPc.step, hz, if_true]
        exact ⟨h.index, h.wrap, hn⟩
      · have hn : ¬n % c = 0 := h.index ▸ hz
        rw [if_neg hn] at hwrap
        simp only [IncPc.step, hz, if_false]
        exact ⟨h.index, hwrap, trivial⟩
  | loadWrap => exact ⟨h.index, h.wrap, h.holding, rfl⟩
  | storeWrap wrapA =>
      obtain ⟨hn, hw⟩ := h.holding
      have hwrap : ptr.wrapA + (if n % c = 0 then 1 else 0) = n / c := h.wrap
      rw [if_pos hn] at hwrap
      exact ⟨h.index, hw.trans hwrap, trivial⟩

end Counted

/-! ## What a thread learns from `size` -/

/-- After `W` pushes and `R` pops: what the producer's loads can have been. -/
def SizePc.ProducerSees (W R : Nat) : SizePc c → Prop
  | .wrapWrite => True
  | .wrapRead ww => ww = W / c
  | .wpt ww wr => ww = W / c ∧ wr ≤ R / c
  | .rpt ww wr w => ww = W / c ∧ wr ≤ R / c ∧ (w : Nat) = W % c

/-- After `W` pushes and `R` pops: what the consumer's loads can have been. An index that differs
from its own was a later one. -/
def SizePc.ConsumerSees (W R : Nat) : SizePc c → Prop
  | .wrapWrite => True
  | .wrapRead ww => ww ≤ W / c
  | .wpt ww wr => ww ≤ W / c ∧ wr = R / c
  | .rpt ww wr w => ww ≤ W / c ∧ wr = R / c ∧ ((w : Nat) ≠ R % c → R < W)

theorem SizePc.ProducerSees.mono {W R R' : Nat} {pc : SizePc c} (h : pc.ProducerSees W R)
    (hR : R ≤ R') : pc.ProducerSees W R' := by
  have hdiv := Nat.div_le_div_right (c := c) hR
  cases pc with
  | wrapWrite => trivial
  | wrapRead ww => exact h
  | wpt ww wr => exact ⟨h.1, h.2.trans hdiv⟩
  | rpt ww wr w => exact ⟨h.1, h.2.1.trans hdiv, h.2.2⟩

theorem SizePc.ConsumerSees.mono {W W' R : Nat} {pc : SizePc c} (h : pc.ConsumerSees W R)
    (hW : W ≤ W') : pc.ConsumerSees W' R := by
  have hdiv := Nat.div_le_div_right (c := c) hW
  cases pc with
  | wrapWrite => trivial
  | wrapRead ww => exact le_trans h hdiv
  | wpt ww wr => exact ⟨h.1.trans hdiv, h.2⟩
  | rpt ww wr w => exact ⟨h.1.trans hdiv, h.2.1, fun hw => (h.2.2 hw).trans_le hW⟩

section Size

variable {b : Data T c} {W R : Nat} {pw pr : Option (IncPc c)}

/-- **The producer's `size` is right where it matters**: space is really there. -/
theorem SizePc.producer_step (hw : Counted b.writePt W none) (hr : Counted b.readPt R pr)
    (hle : R ≤ W) (hfull : W ≤ R + c) {pc : SizePc c} (h : pc.ProducerSees W R) :
    match pc.step b with
    | .inl pc' => pc'.ProducerSees W R
    | .inr n => 0 < c - n → W < R + c := by
  have hpos := b.writePt.a.pos
  cases pc with
  | wrapWrite => exact hw.wrap_eq
  | wrapRead ww => exact ⟨h, hr.wrap_le⟩
  | wpt ww wr => exact ⟨h.1, h.2, hw.index⟩
  | rpt ww wr w =>
      obtain ⟨hww, hwr, hwpt⟩ := h
      simp only [SizePc.step, Pointer.val, sizeFrom, hww, hwpt, hr.index]
      by_cases heq : W % c = R % c
      · rw [if_pos heq]
        rcases Nat.lt_trichotomy wr (W / c) with hlt | hsame | hgt
        · rw [if_pos hlt]
          intro hspace
          omega
        · rw [if_neg (by omega), if_neg (by omega)]
          intro _
          -- equal counters: the same turn, so the same position
          have hturn : R / c = W / c := le_antisymm (Nat.div_le_div_right hle) (hsame ▸ hwr)
          have hRW : R = W := by
            rw [← Nat.div_add_mod R c, ← Nat.div_add_mod W c, hturn, heq]
          omega
        · rw [if_neg (by omega), if_pos hgt]
          trivial
      · have hne : W ≠ R + c := fun hcon => heq (by rw [hcon, Nat.add_mod_right])
        rw [if_neg heq]
        by_cases hlt : R % c < W % c
        · rw [if_pos hlt]
          intro _
          omega
        · rw [if_neg hlt]
          intro _
          omega

/-- **The consumer's `size` is right where it matters**: data is really there. -/
theorem SizePc.consumer_step (hw : Counted b.writePt W pw) (hr : Counted b.readPt R none)
    (hle : R ≤ W) {pc : SizePc c} (h : pc.ConsumerSees W R) :
    match pc.step b with
    | .inl pc' => pc'.ConsumerSees W R
    | .inr n => 0 < n → R < W := by
  cases pc with
  | wrapWrite => exact hw.wrap_le
  | wrapRead ww => exact ⟨h, hr.wrap_eq⟩
  | wpt ww wr =>
      refine ⟨h.1, h.2, fun hne => lt_of_le_of_ne hle fun heq => hne ?_⟩
      rw [heq]
      exact hw.index
  | rpt ww wr w =>
      obtain ⟨hww, hwr, hwpt⟩ := h
      simp only [SizePc.step, Pointer.val, sizeFrom, hwr, hr.index]
      by_cases heq : (w : Nat) = R % c
      · rw [if_pos heq]
        by_cases hlt : R / c < ww
        · rw [if_pos hlt]
          intro _
          -- a later turn, so a later position
          by_contra hcon
          have := Nat.div_le_div_right (c := c) (Nat.not_lt.mp hcon)
          omega
        · rw [if_neg hlt]
          by_cases hgt : ww < R / c
          · rw [if_pos hgt]
            trivial
          · rw [if_neg hgt]
            intro hpos
            omega
      · rw [if_neg heq]
        by_cases hlt : R % c < w
        · rw [if_pos hlt]
          exact fun _ => hwpt heq
        · rw [if_neg hlt]
          exact fun _ => hwpt heq

end Size

/-! ## The invariant -/

namespace Producer

/-- The increment that the producer is in, if any. -/
def incPc : Producer T c → Option (IncPc c)
  | .inc _ pc => some pc
  | _ => none

@[simp] theorem incPc_after (item : T × RaftSignal) (o : Option (IncPc c)) :
    ((o.map (Producer.inc item)).getD .idle).incPc = o := by cases o <;> rfl

/-- The item of a push that has not stored its index yet. -/
def pending : Producer T c → List (T × RaftSignal)
  | .idle => []
  | .spaceAvail item _ | .writeIndex item | .storeItem item _ | .storeSignal item _ => [item]
  | .inc item pc =>
      match pc with
      | .loadA | .storeA _ => [item]
      | _ => []

/-- What the producer may rely on after `W` pushes and `R` pops. -/
def Knows [NeZero c] (b : Data T c) (W R : Nat) : Producer T c → Prop
  | .idle => True
  | .spaceAvail _ pc => pc.ProducerSees W R
  | .writeIndex _ => W < R + c
  | .storeItem _ i => W < R + c ∧ i = slot c W
  | .storeSignal item i => W < R + c ∧ i = slot c W ∧ b.store i = item.1
  | .inc item pc =>
      match pc with
      | .loadA | .storeA _ => W < R + c ∧ b.entry (slot c W) = item
      | _ => True

theorem Knows.mono [NeZero c] {b b' : Data T c} {W R R' : Nat} {pc : Producer T c}
    (h : pc.Knows b W R) (hR : R ≤ R') (hstore : b'.store = b.store) (hsignal : b'.signal = b.signal) :
    pc.Knows b' W R' := by
  have hentry : b'.entry = b.entry := by
    funext i
    rw [Data.entry, Data.entry, hstore, hsignal]
  cases pc with
  | idle => trivial
  | spaceAvail item pc => exact SizePc.ProducerSees.mono h hR
  | writeIndex item => exact h.trans_le (Nat.add_le_add_right hR c)
  | storeItem item i => exact ⟨h.1.trans_le (Nat.add_le_add_right hR c), h.2⟩
  | storeSignal item i =>
      exact ⟨h.1.trans_le (Nat.add_le_add_right hR c), h.2.1, (congrFun hstore i).trans h.2.2⟩
  | inc item pc =>
      cases pc with
      | loadA | storeA _ =>
          exact ⟨h.1.trans_le (Nat.add_le_add_right hR c), (congrFun hentry _).trans h.2⟩
      | testA | loadWrap | storeWrap _ => trivial

end Producer

namespace Consumer

/-- The increment that the consumer is in, if any. -/
def incPc : Consumer T c → Option (IncPc c)
  | .inc pc => some pc
  | _ => none

@[simp] theorem incPc_after (o : Option (IncPc c)) :
    ((o.map (Consumer.inc (T := T))).getD .idle).incPc = o := by cases o <;> rfl

/-- How many items the consumer has read whose place it has not given back yet. -/
def ahead : Consumer T c → Nat
  | .inc .loadA | .inc (.storeA _) => 1
  | _ => 0

/-- What the consumer may rely on after `W` pushes and `R` pops. -/
def Knows [NeZero c] (b : Data T c) (W R : Nat) : Consumer T c → Prop
  | .idle | .isInvalid => True
  | .size pc | .sizeAgain pc => pc.ConsumerSees W R
  | .readIndex => R < W
  | .readSignal i => R < W ∧ i = slot c R
  | .readItem i signal => R < W ∧ i = slot c R ∧ signal = (b.signal i).sig
  | .inc pc =>
      match pc with
      | .loadA | .storeA _ => R < W
      | _ => True

theorem Knows.mono [NeZero c] {b b' : Data T c} {W W' R : Nat} {pc : Consumer T c}
    (h : pc.Knows b W R) (hW : W ≤ W')
    (hslot : R < W → b'.signal (slot c R) = b.signal (slot c R)) : pc.Knows b' W' R := by
  cases pc with
  | idle | isInvalid => trivial
  | size pc | sizeAgain pc => exact SizePc.ConsumerSees.mono h hW
  | readIndex => exact lt_of_lt_of_le h hW
  | readSignal i => exact ⟨h.1.trans_le hW, h.2⟩
  | readItem i signal =>
      obtain ⟨hlt, hi, hsig⟩ := h
      exact ⟨hlt.trans_le hW, hi, by rw [hsig, hi, hslot hlt]⟩
  | inc pc =>
      cases pc with
      | loadA | storeA _ => exact lt_of_lt_of_le h hW
      | testA | loadWrap | storeWrap _ => trivial

end Consumer

/-- The invariant, with `R` the number of index stores of the consumer. -/
structure Spsc.Inv [NeZero c] (s : Spsc T c) (R : Nat) : Prop where
  write : Counted s.buffer.writePt s.pushed.length s.producer.incPc
  read : Counted s.buffer.readPt R s.consumer.incPc
  le : R ≤ s.pushed.length
  full : s.pushed.length ≤ R + c
  entries : window s.buffer.entry R (s.pushed.length - R) = s.pushed.drop R
  popped : s.popped = s.pushed.take (R + s.consumer.ahead)
  producer : s.producer.Knows s.buffer s.pushed.length R
  consumer : s.consumer.Knows s.buffer s.pushed.length R

namespace Spsc.Inv

variable [NeZero c] {s s' : Spsc T c} {R : Nat}

theorem init (uninit : Fin c → T) : Inv (Spsc.init uninit) 0 where
  write := ⟨by simp [Spsc.init, Data.init, Pointer.init], by simp [Spsc.init, Data.init,
    Pointer.init, IncPc.lag, Producer.incPc], trivial⟩
  read := ⟨by simp [Spsc.init, Data.init, Pointer.init], by simp [Spsc.init, Data.init,
    Pointer.init, IncPc.lag, Consumer.incPc], trivial⟩
  le := le_refl 0
  full := Nat.zero_le _
  entries := rfl
  popped := rfl
  producer := trivial
  consumer := trivial

/-- What the consumer has read was pushed. -/
theorem ahead_le (h : Inv s R) : R + s.consumer.ahead ≤ s.pushed.length := by
  have hle := h.le
  have hknow := h.consumer
  generalize s.consumer = pc at hknow
  cases pc with
  | inc pc =>
      cases pc with
      | loadA | storeA _ => exact hknow
      | testA | loadWrap | storeWrap _ => exact hle
  | _ => exact hle

/-- The oldest unread item is where the consumer will look for it. -/
theorem head (h : Inv s R) (hlt : R < s.pushed.length) :
    s.pushed[R]? = some (s.buffer.entry (slot c R)) := by
  obtain ⟨k, hk⟩ : ∃ k, s.pushed.length - R = k + 1 := ⟨s.pushed.length - R - 1, by omega⟩
  have hentries := h.entries
  rw [hk, window_cons, List.drop_eq_getElem_cons hlt, List.cons.injEq] at hentries
  rw [List.getElem?_eq_getElem hlt, hentries.1]

/-- The slot behind the window, which the producer fills, is not the consumer's. -/
theorem behind (h : Inv s R) (hroom : s.pushed.length < R + c) :
    slot c s.pushed.length = slot c (R + (s.pushed.length - R)) ∧ s.pushed.length - R < c := by
  have hle := h.le
  exact ⟨by rw [Nat.add_sub_cancel' hle], by omega⟩

/-! ### The producer's steps -/

/-- Between two accesses of the buffer's pointers only the producer's place changes. -/
theorem moveProducer (h : Inv s R) (hinc : s.producer.incPc = none) {p : Producer T c}
    (hp : p.incPc = none) (hknow : p.Knows s.buffer s.pushed.length R) :
    Inv { s with producer := p } R :=
  ⟨by have := h.write; rw [hinc] at this; rw [hp]; exact this, h.read, h.le, h.full, h.entries,
    h.popped, hknow, h.consumer⟩

/-- A write behind the window, where the producer's own index points, leaves every unread item. -/
theorem writeBehind (h : Inv s R) (hroom : s.pushed.length < R + c) {b : Data T c}
    {e : T × RaftSignal} (hr : b.readPt = s.buffer.readPt)
    (hentry : b.entry = Function.update s.buffer.entry (slot c s.pushed.length) e)
    (hsignal : ∀ i, i ≠ slot c s.pushed.length → b.signal i = s.buffer.signal i)
    {p : Producer T c} (hinc : Counted b.writePt s.pushed.length p.incPc)
    (hknow : p.Knows b s.pushed.length R) : Inv { s with buffer := b, producer := p } R := by
  obtain ⟨hslot, hlt⟩ := h.behind hroom
  refine ⟨hinc, ?_, h.le, h.full, ?_, h.popped, hknow, ?_⟩
  · rw [hr]
    exact h.read
  · rw [hentry, hslot]
    exact (window_update hlt e).trans h.entries
  · exact h.consumer.mono le_rfl fun hRW => hsignal _ (slot_ne_of_lt hRW hroom)

/-- **Publishing**: the index store of the producer. -/
theorem publish (h : Inv s R) {item : T × RaftSignal} {a : Fin c}
    (hp : s.producer = .inc item (.storeA a)) :
    Inv { s with
      buffer := { s.buffer with writePt := { s.buffer.writePt with a := a } }
      producer := .inc item .testA
      pushed := s.pushed ++ [item] } R := by
  have hknow := h.producer
  have hw := h.write
  rw [hp] at hknow hw
  obtain ⟨hroom, hentry⟩ := hknow
  obtain ⟨hslot, -⟩ := h.behind hroom
  have hle := h.le
  have hlen : (s.pushed ++ [item]).length = s.pushed.length + 1 := by simp
  refine ⟨?_, h.read, ?_, ?_, ?_, ?_, trivial, ?_⟩
  · rw [hlen]
    exact hw.step
  · rw [hlen]
    omega
  · rw [hlen]
    exact hroom
  · rw [hlen, List.drop_append_of_le_length hle, ← h.entries,
      show s.pushed.length + 1 - R = s.pushed.length - R + 1 by omega]
    refine (window_snoc _ _ _).trans ?_
    rw [← hslot]
    exact congrArg (window s.buffer.entry R (s.pushed.length - R) ++ [·]) hentry
  · rw [List.take_append_of_le_length h.ahead_le]
    exact h.popped
  · rw [hlen]
    exact h.consumer.mono (Nat.le_succ _) fun _ => rfl

/-- **One step of the producer.** -/
theorem produce (h : Inv s R) (hs : s.produce = some s') : Inv s' R := by
  unfold Spsc.produce at hs
  have hknow := h.producer
  have hw := h.write
  split at hs
  · cases hs
  · next item pc hp =>
      -- `space_avail`; what it answers is room for this item
      rw [hp] at hknow hw
      have hsize := SizePc.producer_step hw h.read h.le h.full hknow
      have hinc : s.producer.incPc = none := by rw [hp]; rfl
      split at hs
      · next pc' hpc =>
          rw [hpc] at hsize
          cases hs
          exact h.moveProducer hinc rfl hsize
      · next n hpc =>
          rw [hpc] at hsize
          split at hs
          · next hn =>
              cases hs
              exact h.moveProducer hinc rfl (hsize hn)
          · cases hs
            exact h.moveProducer hinc rfl trivial
  · next item hp =>
      -- the write index is read
      rw [hp] at hknow hw
      cases hs
      exact h.moveProducer (by rw [hp]; rfl) rfl ⟨hknow, Fin.ext hw.index⟩
  · next item i hp =>
      -- the item is stored behind what is published
      rw [hp] at hknow hw
      obtain ⟨hroom, hi⟩ := hknow
      cases hs
      subst hi
      have hentry := s.buffer.entry_store (slot c s.pushed.length) item.1
      exact h.writeBehind
        (b := { s.buffer with store := Function.update s.buffer.store (slot c _) item.1 })
        (p := .storeSignal item _) hroom rfl hentry (fun _ _ => rfl) hw
        ⟨hroom, rfl, Function.update_self ..⟩
  · next item i hp =>
      -- and so is its signal
      rw [hp] at hknow hw
      obtain ⟨hroom, hi, hstore⟩ := hknow
      cases hs
      subst hi
      have hentry := s.buffer.entry_signal (slot c s.pushed.length) item.2
      refine h.writeBehind
        (b := { s.buffer with
          signal := Function.update s.buffer.signal (slot c _) { s.buffer.signal _ with sig := item.2 } })
        (p := .inc item .loadA) hroom rfl hentry (fun j hj => Function.update_of_ne hj ..) hw.start
        ⟨hroom, ?_⟩
      rw [hentry, Function.update_self, hstore]
  · next item pc hp =>
      -- `Pointer::inc`, whose store of the index publishes the item
      rw [hp] at hknow hw
      cases hs
      cases pc with
      | storeA a => exact h.publish hp
      | loadA =>
          exact ⟨hw.step, h.read, h.le, h.full, h.entries, h.popped, hknow, h.consumer⟩
      | testA =>
          refine ⟨(Producer.incPc_after ..).symm ▸ hw.step, h.read, h.le, h.full, h.entries, h.popped,
            ?_, h.consumer⟩
          by_cases hz : (s.buffer.writePt.a : Nat) = 0
          · simp [IncPc.step, hz, Producer.Knows]
          · simp [IncPc.step, hz, Producer.Knows]
      | loadWrap =>
          exact ⟨hw.step, h.read, h.le, h.full, h.entries, h.popped, trivial, h.consumer⟩
      | storeWrap w =>
          exact ⟨hw.step, h.read, h.le, h.full, h.entries, h.popped, trivial, h.consumer⟩

/-! ### The consumer's steps -/

theorem moveConsumer (h : Inv s R) (hinc : s.consumer.incPc = none)
    (hahead : s.consumer.ahead = 0) {p : Consumer T c} (hp : p.incPc = none) (hpa : p.ahead = 0)
    (hknow : p.Knows s.buffer s.pushed.length R) : Inv { s with consumer := p } R := by
  refine ⟨h.write, ?_, h.le, h.full, h.entries, ?_, h.producer, hknow⟩
  · have := h.read
    rw [hinc] at this
    rw [hp]
    exact this
  · rw [hpa, ← hahead]
    exact h.popped

/-- **Giving the place back**: the index store of the consumer. -/
theorem release (h : Inv s R) {a : Fin c} (hp : s.consumer = .inc (.storeA a)) :
    Inv { s with
      buffer := { s.buffer with readPt := { s.buffer.readPt with a := a } }
      consumer := .inc .testA } (R + 1) := by
  have hlt : R < s.pushed.length := by
    have := h.consumer
    rwa [hp] at this
  have hr := h.read
  rw [hp] at hr
  have hentries := h.entries
  refine ⟨h.write, hr.step, hlt, h.full.trans (Nat.add_le_add_right (Nat.le_succ R) c), ?_, ?_,
    h.producer.mono (Nat.le_succ R) rfl rfl, trivial⟩
  · rw [show s.pushed.length - R = s.pushed.length - (R + 1) + 1 by omega, window_cons,
      List.drop_eq_getElem_cons hlt, List.cons.injEq] at hentries
    exact hentries.2
  · have := h.popped
    rwa [hp] at this

/-- Reading the second half of the slot completes the item. -/
theorem read_item (h : Inv s R) {i : Fin c} {signal : RaftSignal}
    (hp : s.consumer = .readItem i signal) :
    Inv { s with consumer := .inc .loadA, popped := s.popped ++ [(s.buffer.store i, signal)] } R := by
  have hknow := h.consumer
  have hr := h.read
  have hpopped := h.popped
  rw [hp] at hknow hr hpopped
  obtain ⟨hlt, hi, hsig⟩ := hknow
  refine ⟨h.write, hr.start, h.le, h.full, h.entries, ?_, h.producer, hlt⟩
  show s.popped ++ [(s.buffer.store i, signal)] = s.pushed.take (R + 1)
  rw [List.take_add_one, h.head hlt, hpopped, hsig, hi]
  rfl

/-- **One step of the consumer.** -/
theorem consume (h : Inv s R) (hs : s.consume = some s') : ∃ R', Inv s' R' := by
  unfold Spsc.consume at hs
  have hknow := h.consumer
  have hr := h.read
  split at hs
  · cases hs
  · next pc hp =>
      -- `size`; an answer above zero is an item for this call
      rw [hp] at hknow hr
      have hsize := SizePc.consumer_step h.write hr h.le hknow
      have hinc : s.consumer.incPc = none := by rw [hp]; rfl
      have hahead : s.consumer.ahead = 0 := by rw [hp]; rfl
      split at hs
      · next pc' hpc =>
          rw [hpc] at hsize
          cases hs
          exact ⟨R, h.moveConsumer hinc hahead rfl rfl hsize⟩
      · next n hpc =>
          rw [hpc] at hsize
          split at hs
          · next hn =>
              cases hs
              exact ⟨R, h.moveConsumer hinc hahead rfl rfl (hsize hn)⟩
          · cases hs
            exact ⟨R, h.moveConsumer hinc hahead rfl rfl trivial⟩
  · next hp =>
      -- an empty queue is asked whether it is closed
      have hinc : s.consumer.incPc = none := by rw [hp]; rfl
      have hahead : s.consumer.ahead = 0 := by rw [hp]; rfl
      split at hs
      · cases hs
        exact ⟨R, h.moveConsumer hinc hahead rfl rfl trivial⟩
      · cases hs
        exact ⟨R, h.moveConsumer hinc hahead rfl rfl trivial⟩
  · next pc hp =>
      -- `size` once more, of a closed queue
      rw [hp] at hknow hr
      have hsize := SizePc.consumer_step h.write hr h.le hknow
      have hinc : s.consumer.incPc = none := by rw [hp]; rfl
      have hahead : s.consumer.ahead = 0 := by rw [hp]; rfl
      split at hs
      · next pc' hpc =>
          rw [hpc] at hsize
          cases hs
          exact ⟨R, h.moveConsumer hinc hahead rfl rfl hsize⟩
      · split at hs
        · cases hs
          exact ⟨R, h.moveConsumer hinc hahead rfl rfl trivial⟩
        · cases hs
          exact ⟨R, h.moveConsumer hinc hahead rfl rfl trivial⟩
  · next hp =>
      -- the read index is read
      rw [hp] at hknow hr
      cases hs
      exact ⟨R, h.moveConsumer (by rw [hp]; rfl) (by rw [hp]; rfl) rfl rfl
        ⟨hknow, Fin.ext hr.index⟩⟩
  · next i hp =>
      -- the signal of the item is read
      rw [hp] at hknow
      cases hs
      exact ⟨R, h.moveConsumer (by rw [hp]; rfl) (by rw [hp]; rfl) rfl rfl
        ⟨hknow.1, hknow.2, rfl⟩⟩
  · next i signal hp =>
      -- and then the item
      cases hs
      exact ⟨R, h.read_item hp⟩
  · next pc hp =>
      -- `Pointer::inc`, whose store of the index gives the slot back
      have hpopped := h.popped
      rw [hp] at hknow hr hpopped
      cases hs
      cases pc with
      | storeA a => exact ⟨R + 1, h.release hp⟩
      | loadA =>
          exact ⟨R, h.write, hr.step, h.le, h.full, h.entries, hpopped,
            h.producer.mono le_rfl rfl rfl, hknow⟩
      | testA =>
          refine ⟨R, h.write, (Consumer.incPc_after ..).symm ▸ hr.step, h.le, h.full, h.entries, ?_,
            h.producer.mono le_rfl rfl rfl, ?_⟩
          · by_cases hz : (s.buffer.readPt.a : Nat) = 0
            · simpa [IncPc.step, hz, Consumer.ahead] using hpopped
            · simpa [IncPc.step, hz, Consumer.ahead] using hpopped
          · by_cases hz : (s.buffer.readPt.a : Nat) = 0
            · simp [IncPc.step, hz, Consumer.Knows]
            · simp [IncPc.step, hz, Consumer.Knows]
      | loadWrap =>
          exact ⟨R, h.write, hr.step, h.le, h.full, h.entries, hpopped,
            h.producer.mono le_rfl rfl rfl, trivial⟩
      | storeWrap w =>
          exact ⟨R, h.write, hr.step, h.le, h.full, h.entries, hpopped,
            h.producer.mono le_rfl rfl rfl, trivial⟩

/-- **One step of anybody.** -/
theorem step {act : Act T} (h : Inv s R) (hs : s.step act = some s') : ∃ R', Inv s' R' := by
  cases act with
  | push v signal =>
      simp only [Spsc.step] at hs
      split at hs
      · next hp =>
          cases hs
          exact ⟨R, h.moveProducer (by rw [hp]; rfl) rfl trivial⟩
      · cases hs
  | producer => exact ⟨R, h.produce hs⟩
  | pop =>
      simp only [Spsc.step] at hs
      split at hs
      · next hp =>
          cases hs
          exact ⟨R, h.moveConsumer (by rw [hp]; rfl) (by rw [hp]; rfl) rfl rfl trivial⟩
      · cases hs
  | consumer => exact h.consume hs
  | invalidate =>
      cases hs
      exact ⟨R, h.write, h.read, h.le, h.full, h.entries, h.popped,
        h.producer.mono le_rfl rfl rfl, h.consumer.mono le_rfl fun _ => rfl⟩

end Spsc.Inv

/-! ## Whole runs -/

namespace Spsc

/-- The consumer leaves the producer and its record alone. -/
theorem consume_frame {s s' : Spsc T c} (hs : s.consume = some s') :
    s'.pushed = s.pushed ∧ s'.producer = s.producer := by
  unfold consume at hs
  repeat' split at hs
  all_goals cases hs <;> exact ⟨rfl, rfl⟩

/-- A step adds to what was pushed or pending only the item of a call. -/
theorem pushed_step {s s' : Spsc T c} {act : Act T} (hs : s.step act = some s') :
    s'.pushed ++ s'.producer.pending = s.pushed ++ s.producer.pending ++ calls [act] := by
  cases act with
  | push v signal =>
      simp only [step] at hs
      split at hs
      · next hp =>
          cases hs
          simp [hp, Producer.pending, calls]
      · cases hs
  | producer =>
      simp only [step, produce] at hs
      split at hs
      · cases hs
      · next item pc hp =>
          split at hs
          · cases hs
            simp [hp, Producer.pending, calls]
          · split at hs <;> cases hs <;> simp [hp, Producer.pending, calls]
      · next item hp => cases hs; simp [hp, Producer.pending, calls]
      · next item i hp => cases hs; simp [hp, Producer.pending, calls]
      · next item i hp => cases hs; simp [hp, Producer.pending, calls]
      · next item pc hp =>
          cases hs
          cases pc with
          | testA =>
              by_cases hz : (s.buffer.writePt.a : Nat) = 0
              · simp [hp, hz, IncPc.step, IncPc.storesIndex, Producer.pending, calls]
              · simp [hp, hz, IncPc.step, IncPc.storesIndex, Producer.pending, calls]
          | loadA | storeA _ | loadWrap | storeWrap _ =>
              simp [hp, IncPc.step, IncPc.storesIndex, Producer.pending, calls]
  | pop =>
      simp only [step] at hs
      split at hs
      · cases hs
        simp [calls]
      · cases hs
  | consumer =>
      obtain ⟨hpushed, hproducer⟩ := consume_frame hs
      simp [hpushed, hproducer, calls]
  | invalidate => cases hs; simp [calls]

/-- What was pushed, and what is being pushed, are the calls so far. -/
theorem pushed_run {s s' : Spsc T c} {acts : List (Act T)} (h : Run (ofFun step) s acts s') :
    s'.pushed ++ s'.producer.pending = s.pushed ++ s.producer.pending ++ calls acts := by
  induction h with
  | nil s => simp [calls]
  | @cons s t u act acts hstep _ ih =>
      rw [ih, pushed_step hstep, List.append_assoc]
      congr 1
      cases act <;> simp [calls]

variable [NeZero c] {uninit : Fin c → T} {acts : List (Act T)} {s : Spsc T c}

theorem inv_of_run (h : Run (ofFun step) (init uninit) acts s) : ∃ R, Inv s R :=
  h.invariant (I := fun s => ∃ R, Inv s R) (fun _ _ _ ⟨_, hs⟩ hstep => hs.step hstep)
    ⟨0, Inv.init uninit⟩

/-- A slot holds an item that was published and that the consumer has not read. -/
def Unread (s : Spsc T c) (i : Fin c) : Prop :=
  ∃ n, s.popped.length ≤ n ∧ n < s.pushed.length ∧ slot c n = i

/-- **Safety of push and pop side by side**, at every capacity and for every interleaving: the
consumer reads only slots with an unread item, the producer writes only slots without one, and what
was popped is a prefix of what was pushed, which in turn is a prefix of what the calls asked for. -/
theorem push_pop_safe (h : Run (ofFun step) (init uninit) acts s) :
    (∀ i, s.reading = some i → s.Unread i) ∧ (∀ i, s.writing = some i → ¬s.Unread i) ∧
      s.popped <+: s.pushed ∧ s.pushed <+: calls acts := by
  obtain ⟨R, hinv⟩ := inv_of_run h
  have hlen : s.popped.length = R + s.consumer.ahead := by
    rw [hinv.popped, List.length_take, Nat.min_eq_left hinv.ahead_le]
  refine ⟨fun i hi => ?_, fun i hi => ?_, ?_, ?_⟩
  · have hknow := hinv.consumer
    unfold reading at hi
    split at hi
    · next j hp =>
        rw [hp] at hknow hlen
        exact ⟨R, hlen.le, hknow.1, hknow.2.symm.trans (Option.some_inj.mp hi)⟩
    · next j signal hp =>
        rw [hp] at hknow hlen
        exact ⟨R, hlen.le, hknow.1, hknow.2.1.symm.trans (Option.some_inj.mp hi)⟩
    · cases hi
  · have hknow := hinv.producer
    have hbehind : s.pushed.length < R + c ∧ i = slot c s.pushed.length := by
      unfold writing at hi
      split at hi
      · next item j hp =>
          rw [hp] at hknow
          exact ⟨hknow.1, (Option.some_inj.mp hi).symm.trans hknow.2⟩
      · next item j hp =>
          rw [hp] at hknow
          exact ⟨hknow.1, (Option.some_inj.mp hi).symm.trans hknow.2.1⟩
      · cases hi
    rintro ⟨n, hle, hlt, hn⟩
    exact slot_ne_of_lt hlt (by omega) (hn.trans hbehind.2)
  · rw [hinv.popped]
    exact List.take_prefix _ _
  · have hcalls := pushed_run h
    exact ⟨s.producer.pending, by simpa [init, Producer.pending] using hcalls⟩

/-- One place. The consumer looks first when the index has come round to zero and the wrap counter
has not moved yet, finds nothing, and looks again later. -/
theorem push_pop_safe_one_place :
    ∃ s : Spsc Nat 1, s.popped = [(7, RaftSignal.eof)] ∧ s.popped <+: s.pushed := by
  obtain ⟨s, hrun, hpopped⟩ : ∃ s : Spsc Nat 1, Run (ofFun step) (init fun _ => 0)
      (.push 7 RaftSignal.eof :: List.replicate 9 .producer ++ .pop :: List.replicate 4 .consumer ++
        List.replicate 3 .producer ++ List.replicate 8 .consumer) s ∧
      s.popped = [(7, RaftSignal.eof)] :=
    ⟨_, exec_iff_run.mp rfl, rfl⟩
  exact ⟨s, hpopped, (push_pop_safe hrun).2.2.1⟩

end Spsc

end RaftLib.Threads
