/-
# `RaftLib.Queue.ResizeCopy` -- what a resize keeps

The values survive every resize that comes to an end: the store's length is right, and the entries
lie in one piece below the write index, so that they keep their indices in the larger array although
the wrap counters start again at zero.

The signals survive only in part. `length_signal` is the length of the store, so the copy takes
`sizeof( T ) * max_cap` bytes of a signal array that has `16 * max_cap`. A larger element makes the
copy run over the end of both arrays (`copyFrom_outOfBounds`); a smaller one leaves the later signals
at zero (`Copied.sigByte`). `resize_preserves_iff` is the exact condition, in every state that calls
and earlier resizes lead to.
-/
import RaftLib.Queue.CopyFrom
import RaftLib.Queue.Refine

namespace RaftLib.Queue

open RaftLib.Logic.Bytes
open RaftLib.Logic.Ring
open RaftLib.Logic.Steps

variable {T : Type} {cap newCap : Nat}

/-! ## The copy -/

/-- What `copyFrom` leaves in the new buffer. -/
structure Copied (L : Layout T) (h : cap ≤ newCap) (this : Data T newCap) (other : Data T cap)
    (b : Data T newCap) : Prop where
  readPt : b.readPt = other.readPt.resized h
  writePt : b.writePt = other.writePt.resized h
  isValid : b.isValid = other.isValid
  threadAccess : b.threadAccess = other.threadAccess
  store : ∀ i : Fin cap, b.store (i.castLE h) = other.store i
  sigByte : ∀ (i : Fin cap) (k : Fin 4), u32Bytes (b.signal (i.castLE h)).sig k =
    if k + 16 * (i : Nat) < Data.lengthSignal L cap then u32Bytes (other.signal i).sig k
    else u32Bytes (this.signal (i.castLE h)).sig k

/-- The bytes of `sig` come first in a signal. -/
theorem Signal.encode_sig (s : Signal) (k : Fin 4) :
    Signal.layout.encode s (k.castLE (by decide)) = u32Bytes s.sig k :=
  dif_pos k.isLt

/-- A word is read back from its bytes. -/
theorem Signal.decode_sig (b : Fin 16 → UInt8) (k : Fin 4) :
    u32Bytes (Signal.layout.decode b).sig k = b (k.castLE (by decide)) :=
  congrFun (u32Bytes.apply_symm_apply _) k

theorem copyFrom_ok {L : Layout T} (h : cap ≤ newCap) {this : Data T newCap} {other : Data T cap}
    (hext : other.externalAlloc = false) (hsize : L.size ≤ 16) :
    ∃ b, this.copyFrom L h other = .ok b ∧ Copied L h this other b := by
  have hlen : L.size * cap ≤ newCap * L.size ∧ L.size * cap ≤ cap * L.size := by
    rw [Nat.mul_comm L.size]
    exact ⟨Nat.mul_le_mul_right _ h, le_refl _⟩
  have hsig : L.size * cap ≤ newCap * 16 ∧ L.size * cap ≤ cap * 16 := by
    have := Nat.mul_le_mul_right cap hsize
    omega
  obtain ⟨store, hstore⟩ : ∃ b, memcpy (L.bytes this.store) (L.bytes other.store) _ = some b :=
    Option.isSome_iff_exists.mp (memcpy_isSome_iff.mpr hlen)
  obtain ⟨signal, hsignal⟩ : ∃ b, memcpy (Signal.layout.bytes this.signal)
      (Signal.layout.bytes other.signal) _ = some b :=
    Option.isSome_iff_exists.mp (memcpy_isSome_iff.mpr hsig)
  unfold Data.copyFrom
  simp only [hext, Data.lengthStore, Data.lengthSignal, hstore, hsignal, Bool.false_eq_true,
    if_false]
  refine ⟨_, rfl, rfl, rfl, rfl, rfl, fun i => ?_, fun i k => ?_⟩
  · refine L.values_memcpy_of_le hstore h i (Nat.mul_le_mul_left _ ?_)
    exact i.isLt
  · show u32Bytes (Signal.layout.values signal (i.castLE h)).sig k = _
    rw [Signal.layout.values_memcpy hsignal h i]
    refine (Signal.decode_sig _ k).trans ?_
    exact if_congr Iff.rfl (Signal.encode_sig _ k) (Signal.encode_sig _ k)

/-- An element larger than a signal makes the second copy run over the end of the old array. -/
theorem copyFrom_outOfBounds {L : Layout T} [NeZero cap] (h : cap ≤ newCap) {this : Data T newCap}
    {other : Data T cap} (hext : other.externalAlloc = false) (hsize : 16 < L.size) :
    this.copyFrom L h other = .error .outOfBounds := by
  have hlong : ¬(L.size * cap ≤ newCap * 16 ∧ L.size * cap ≤ cap * 16) := by
    have := (Nat.mul_lt_mul_right (Nat.pos_of_ne_zero (NeZero.ne cap))).mpr hsize
    omega
  have hnone : memcpy (Signal.layout.bytes this.signal) (Signal.layout.bytes other.signal)
      (L.size * cap) = none := dif_neg hlong
  simp only [Data.copyFrom, hext, Data.lengthSignal, hnone]
  split <;> simp_all

/-! ## One resize -/

/-- The values and signals of a queue, oldest first. -/
def RingBuffer.contents [NeZero cap] (rb : RingBuffer T cap) : List (T × RaftSignal) :=
  window rb.buffer.entry rb.buffer.readPt.pos (rb.buffer.writePt.pos - rb.buffer.readPt.pos)

theorem Holds.contents_eq [NeZero cap] {rb : RingBuffer T cap} {es : List (T × RaftSignal)}
    (h : Holds rb es) : rb.contents = es := by
  rw [RingBuffer.contents, h.pos, Nat.add_sub_cancel_left, h.items]

/-- The resize finds a queue it may copy: resizeable, open, nobody inside, entries in one piece. -/
structure GoesThrough (rb : RingBuffer T cap) : Prop where
  resizeable : rb.buffer.externalAlloc = false
  isOpen : rb.buffer.isValid = true
  clear : rb.allclear = true
  onePiece : RingBuffer.buffercondition rb.buffer = true

/-- The resize comes to an end without touching a byte outside the arrays, and nothing is lost:
values, signals, both sizes and the validity mark are as they should be. -/
def ResizePreserves [NeZero cap] [NeZero newCap] (L : Layout T) (h : cap ≤ newCap)
    (uninit : Fin newCap → T) (rb : RingBuffer T cap) : Prop :=
  ∃ rb', rb.resize L h (Data.init newCap uninit) false = .done rb' ∧
    rb'.contents = rb.contents ∧
    RingBuffer.size.run rb' = .ok rb.contents.length rb' ∧
    RingBuffer.spaceAvail.run rb' = .ok (newCap - rb.contents.length) rb' ∧
    rb'.buffer.isValid = rb.buffer.isValid

/-- Whatever of the queued signals lies behind the copied prefix of the signal array is zero. -/
def SignalsInPrefix (L : Layout T) (b : Data T cap) : Prop :=
  ∀ i : Fin cap, b.readPt.a ≤ i → i < b.writePt.a → ∀ k : Fin 4,
    Data.lengthSignal L cap ≤ k + 16 * (i : Nat) → u32Bytes (b.signal i).sig k = 0

section OneResize

variable [NeZero cap] {L : Layout T} {rb : RingBuffer T cap}
  {es : List (T × RaftSignal)}

/-- In one piece, the write index lies as many places behind the read index as there are entries. -/
theorem Holds.apart (h : Holds rb es) (hone : RingBuffer.buffercondition rb.buffer = true) :
    (rb.buffer.writePt.a : Nat) = rb.buffer.readPt.a + es.length := by
  have hlt : (rb.buffer.readPt.a : Nat) < rb.buffer.writePt.a := of_decide_eq_true hone
  rcases Pointer.turn_cases h.pos h.bounded with ⟨-, ha⟩ | ⟨-, ha⟩
  · exact ha
  · have := h.bounded
    omega

/-- A slot of the window, in the old array: its index is the read index plus the offset. -/
theorem Holds.slot_old (h : Holds rb es) (hone : RingBuffer.buffercondition rb.buffer = true) {i : Nat}
    (hi : i < es.length) :
    (slot cap (rb.buffer.readPt.pos + i) : Nat) = rb.buffer.readPt.a + i := by
  have hap := h.apart hone
  have hw := rb.buffer.writePt.a.isLt
  rw [slot_val, Nat.add_mod, Pointer.pos_mod, Nat.mod_eq_of_lt (a := i) (by omega)]
  exact Nat.mod_eq_of_lt (by omega)

/-- The new buffer holds as many entries as the old one. -/
theorem Copied.pos (h : Holds rb es) (hone : RingBuffer.buffercondition rb.buffer = true)
    {hcap : cap ≤ newCap} {this b : Data T newCap} (hb : Copied L hcap this rb.buffer b) :
    b.writePt.pos = b.readPt.pos + es.length := by
  rw [hb.readPt, hb.writePt, Pointer.pos_resized, Pointer.pos_resized, h.apart hone]

variable [NeZero newCap]

/-- The same slot in the new array, where the read pointer has no wraps behind it. -/
theorem Holds.slot_new (h : Holds rb es) (hone : RingBuffer.buffercondition rb.buffer = true)
    (hcap : cap ≤ newCap) {i : Nat} (hi : i < es.length) :
    slot newCap ((rb.buffer.readPt.resized hcap).pos + i) =
      (slot cap (rb.buffer.readPt.pos + i)).castLE hcap := by
  have hlt := (slot cap (rb.buffer.readPt.pos + i)).isLt
  rw [h.slot_old hone hi] at hlt
  apply Fin.ext
  rw [slot_val, Pointer.pos_resized, Fin.val_castLE, h.slot_old hone hi]
  exact Nat.mod_eq_of_lt (hlt.trans_le hcap)

/-- A resized queue holds entries again: the old values, with the signals that came along. -/
theorem Copied.holds (h : Holds rb es) (hone : RingBuffer.buffercondition rb.buffer = true)
    {hcap : cap ≤ newCap} {this : Data T newCap} {rb' : RingBuffer T newCap}
    (hb : Copied L hcap this rb.buffer rb'.buffer) (hrun : rb'.resizing = false) :
    Holds rb' rb'.contents := by
  have hpos := hb.pos h hone
  refine ⟨hrun, ?_, ?_, ?_⟩
  · rw [RingBuffer.contents, window_length]
    omega
  · rw [RingBuffer.contents, window_length, hpos, Nat.add_sub_cancel_left]
    exact h.bounded.trans hcap
  · rw [RingBuffer.contents, window_length]

/-- **The entries are the old ones exactly if the signals lie in the copied prefix.** -/
theorem Copied.contents_iff (h : Holds rb es) (hone : RingBuffer.buffercondition rb.buffer = true)
    {hcap : cap ≤ newCap} {this : Data T newCap} {rb' : RingBuffer T newCap}
    (hb : Copied L hcap this rb.buffer rb'.buffer) (hzero : ∀ i, (this.signal i).sig = 0) :
    rb'.contents = rb.contents ↔ SignalsInPrefix L rb.buffer := by
  have hap := h.apart hone
  have hbyte : ∀ k : Fin 4, u32Bytes 0 k = 0 := by decide
  have hentry : ∀ i : Fin cap, rb'.buffer.entry (i.castLE hcap) = rb.buffer.entry i ↔
      ∀ k : Fin 4, Data.lengthSignal L cap ≤ k + 16 * (i : Nat) →
        u32Bytes (rb.buffer.signal i).sig k = 0 := by
    intro i
    rw [Data.entry, Data.entry, hb.store, Prod.mk.injEq, and_iff_right rfl,
      ← u32Bytes.injective.eq_iff, funext_iff]
    refine forall_congr' fun k => ?_
    rw [hb.sigByte, hzero, hbyte]
    by_cases hk : k + 16 * (i : Nat) < Data.lengthSignal L cap
    · rw [if_pos hk]
      exact ⟨fun _ hle => absurd hk (Nat.not_lt.mpr hle), fun _ => rfl⟩
    · rw [if_neg hk]
      exact ⟨fun he _ => he.symm, fun he => (he (Nat.not_lt.mp hk)).symm⟩
  have hwindow : rb'.contents = rb.contents ↔ ∀ i, i < es.length →
      rb'.buffer.entry ((slot cap (rb.buffer.readPt.pos + i)).castLE hcap) =
        rb.buffer.entry (slot cap (rb.buffer.readPt.pos + i)) := by
    rw [RingBuffer.contents, RingBuffer.contents, h.pos, hb.pos h hone, Nat.add_sub_cancel_left,
      Nat.add_sub_cancel_left, window_eq_iff, hb.readPt]
    exact forall₂_congr fun i hi => by rw [h.slot_new hone hcap hi]
  rw [hwindow]
  constructor
  · intro hall i hr hw
    have hi : (i : Nat) - rb.buffer.readPt.a < es.length := by omega
    have hslot : slot cap (rb.buffer.readPt.pos + ((i : Nat) - rb.buffer.readPt.a)) = i := by
      apply Fin.ext
      rw [h.slot_old hone hi]
      omega
    exact (hentry i).mp (hslot ▸ hall _ hi)
  · intro hpre i hi
    have hslot := h.slot_old hone hi
    refine (hentry _).mpr (hpre _ ?_ ?_)
    · rw [Fin.le_def]
      omega
    · rw [Fin.lt_def]
      omega

/-- A resize that goes through replaces the buffer by a copy, or runs over the end of an array. -/
theorem resize_run (L : Layout T) (uninit : Fin newCap → T) (hgo : GoesThrough rb)
    (hcap : cap ≤ newCap) :
    (L.size ≤ 16 ∧ ∃ rb', rb.resize L hcap (Data.init newCap uninit) false = .done rb' ∧
      Copied L hcap (Data.init newCap uninit) rb.buffer rb'.buffer ∧ rb'.resizing = false ∧
      rb'.allocateCalled = rb.allocateCalled) ∨
    (16 < L.size ∧ rb.resize L hcap (Data.init newCap uninit) false = .fault .outOfBounds) := by
  have hclear : RingBuffer.allclear { rb with resizing := true } = true := hgo.clear
  rcases Nat.lt_or_ge 16 L.size with hlarge | hsmall
  · refine .inr ⟨hlarge, ?_⟩
    simp [RingBuffer.resize, hgo.resizeable, hgo.isOpen, hclear, hgo.onePiece,
      copyFrom_outOfBounds hcap hgo.resizeable hlarge]
  · obtain ⟨b, hb, hcopied⟩ := copyFrom_ok hcap hgo.resizeable hsmall
    refine .inl ⟨hsmall, { buffer := b, resizing := false, checkingSize := rb.checkingSize
                           allocateCalled := rb.allocateCalled, nAllocated := rb.nAllocated }, ?_,
      hcopied, rfl, rfl⟩
    simp [RingBuffer.resize, hgo.resizeable, hgo.isOpen, hclear, hgo.onePiece, hb]

/-- **One resize keeps the queue exactly if** an element is no larger than a signal and the queued
signals lie in the copied prefix. -/
theorem Holds.resizePreserves_iff (h : Holds rb es) (hgo : GoesThrough rb) (hcap : cap ≤ newCap)
    (uninit : Fin newCap → T) :
    ResizePreserves L hcap uninit rb ↔ L.size ≤ 16 ∧ SignalsInPrefix L rb.buffer := by
  rcases resize_run L uninit hgo hcap with
    ⟨hsize, rb', hrun, hcopied, hres, -⟩ | ⟨hsize, hrun⟩
  · have hiff := hcopied.contents_iff h hgo.onePiece fun _ => rfl
    have hholds := hcopied.holds h hgo.onePiece hres
    constructor
    · rintro ⟨rb'', hdone, hcontents, -⟩
      cases hrun.symm.trans hdone
      exact ⟨hsize, hiff.mp hcontents⟩
    · rintro ⟨-, hpre⟩
      have hsame := hiff.mpr hpre
      rw [hsame] at hholds
      exact ⟨rb', hrun, hsame, RingBuffer.size_run hholds, RingBuffer.spaceAvail_run hholds,
        hcopied.isValid⟩
  · constructor
    · rintro ⟨rb', hdone, -⟩
      exact absurd (hrun.symm.trans hdone) (by simp)
    · rintro ⟨hle, -⟩
      omega

end OneResize

/-! ## Calls and resizes in any order -/

/-- A queue whose capacity resizes change. -/
structure Managed (T : Type) where
  cap : Nat
  capPos : NeZero cap
  session : Session T cap

namespace Managed

instance (m : Managed T) : NeZero m.cap := m.capPos

def init (cap : Nat) [hc : NeZero cap] (uninit : Fin cap → T) : Managed T :=
  ⟨cap, hc, Session.init uninit⟩

/-- What happens to a managed queue. -/
inductive Act (T : Type) where
  | call (c : FifoCall T × Reply T)
  | resize (newCap : Nat)

/-- A call that goes through, or a resize to a larger capacity that comes to its end. Statistics are
counted where the buffer has them. -/
inductive Step (L : Layout T) : Managed T → Act T → Managed T → Prop
  | call {cap : Nat} [hc : NeZero cap] {s t : Session T cap} {c : FifoCall T × Reply T}
      (h : Session.DisciplinedStep s c t) : Step L ⟨cap, hc, s⟩ (.call c) ⟨cap, hc, t⟩
  | resize {cap newCap : Nat} [hc : NeZero cap] [hn : NeZero newCap] (hlt : cap < newCap)
      {s : Session T cap} {rb : RingBuffer T newCap} (uninit : Fin newCap → T)
      (h : s.rb.resize L hlt.le (Data.init newCap uninit) false = .done rb) :
      Step L ⟨cap, hc, s⟩ (.resize newCap) ⟨newCap, hn, { rb := rb }⟩

end Managed

theorem GoesThrough.of_done {L : Layout T} {hcap : cap ≤ newCap} {this : Data T newCap}
    {rb : RingBuffer T cap} {rb' : RingBuffer T newCap}
    (h : rb.resize L hcap this false = .done rb') : GoesThrough rb := by
  unfold RingBuffer.resize at h
  split at h
  · cases h
  · next hext =>
      split at h
      · cases h
      · next hvalid =>
          split at h
          · next hgo =>
              rw [Bool.and_eq_true] at hgo
              exact ⟨by simpa using hext, by simpa using hvalid, hgo.1, hgo.2⟩
          · cases h

/-- A resized queue is in the state of an abstract queue of the new capacity. -/
theorem Sim.resized [NeZero cap] [NeZero newCap] {L : Layout T} {s : Session T cap} {q : Fifo T cap}
    (h : Sim s q) (hcap : cap ≤ newCap) (uninit : Fin newCap → T) {rb : RingBuffer T newCap}
    (hdone : s.rb.resize L hcap (Data.init newCap uninit) false = .done rb) :
    ∃ q' : Fifo T newCap, Sim { rb := rb } q' := by
  have hgo := GoesThrough.of_done hdone
  rcases resize_run L uninit hgo hcap with ⟨-, rb', hrun, hcopied, hres, halloc⟩ | ⟨-, hrun⟩
  · cases hrun.symm.trans hdone
    have hholds := hcopied.holds h.holds hgo.onePiece hres
    -- an outstanding `allocate` would have kept its flag up, and the resize waiting
    have hidle : s.rb.allocateCalled = false := by
      by_contra hcalled
      have hflag := h.flagUp (by simpa using hcalled)
      have hclear := hgo.clear
      rw [RingBuffer.allclear, Bool.and_eq_true, Bool.and_eq_true, Bool.not_eq_true'] at hclear
      rw [ThreadAccess.producerWhole_eq_false hclear.1.1 rfl] at hflag
      cases hflag
    refine ⟨⟨rb.contents, false, none, hholds.bounded, fun hd => by simp at hd⟩, hholds,
      hcopied.isValid.trans hgo.isOpen, halloc.trans hidle, fun v hv => by simp at hv, fun ha => ?_⟩
    rw [halloc, hidle] at ha
    cases ha
  · cases hrun.symm.trans hdone

/-- Every queue that calls and resizes lead to is in the state of some abstract queue. -/
theorem Managed.sim_of_run {L : Layout T} [NeZero cap] {uninit : Fin cap → T}
    {acts : List (Managed.Act T)} {m : Managed T}
    (h : Run (Managed.Step L) (Managed.init cap uninit) acts m) :
    ∃ q : Fifo T m.cap, Sim m.session q := by
  refine h.invariant (I := fun m => ∃ q : Fifo T m.cap, Sim m.session q) ?_ ⟨_, Sim.init uninit⟩
  rintro m a m' ⟨q, hq⟩ hstep
  cases hstep with
  | call hcall =>
      obtain ⟨q', -, hq'⟩ := step_sim _ _ _ q hq hcall
      exact ⟨q', hq'⟩
  | resize hlt uninit' hdone => exact hq.resized hlt.le uninit' hdone

/-- **What a resize keeps.** In every state that calls and resizes lead to, a resize that goes
through keeps values, signals, sizes and validity and stays inside its arrays exactly if an element
is no larger than a signal and no queued signal has a byte set behind the copied prefix. -/
theorem resize_preserves_iff (L : Layout T) [NeZero cap] (uninit : Fin cap → T)
    {acts : List (Managed.Act T)} {m : Managed T}
    (hrun : Run (Managed.Step L) (Managed.init cap uninit) acts m)
    (hgo : GoesThrough m.session.rb) [NeZero newCap] (hcap : m.cap < newCap)
    (uninit' : Fin newCap → T) :
    ResizePreserves L hcap.le uninit' m.session.rb ↔
      L.size ≤ 16 ∧ SignalsInPrefix L m.session.rb.buffer := by
  obtain ⟨q, hq⟩ := Managed.sim_of_run hrun
  exact hq.holds.resizePreserves_iff hgo hcap.le uninit'

local instance fourPlaces : NeZero 4 := ⟨by decide⟩

/-- Four places for 32-bit words, two of them taken, the second with `eof`. -/
def twoWords : RingBuffer UInt32 4 :=
  RingBuffer.pushed 12 RaftSignal.eof
    (RingBuffer.pushed 11 RaftSignal.none (RingBuffer.init fun _ => 0))

theorem twoWords_run : Run (Managed.Step Layout.u32) (Managed.init 4 fun _ => 0)
    [.call (.push 11 RaftSignal.none, .done), .call (.push 12 RaftSignal.eof, .done)]
    ⟨4, inferInstance, { rb := twoWords }⟩ :=
  .cons (.call ⟨⟨fun _ => rfl, fun _ hv => nomatch hv⟩, rfl⟩)
    (.cons (.call ⟨⟨fun _ => rfl, fun _ hv => nomatch hv⟩, rfl⟩) (.nil _))

theorem twoWords_goesThrough : GoesThrough twoWords := ⟨rfl, rfl, rfl, rfl⟩

/-- Four places for 32-bit words, one of them taken, with `eof`. -/
def oneWord : RingBuffer UInt32 4 := RingBuffer.pushed 11 RaftSignal.eof (RingBuffer.init fun _ => 0)

theorem oneWord_run : Run (Managed.Step Layout.u32) (Managed.init 4 fun _ => 0)
    [.call (.push 11 RaftSignal.eof, .done)] ⟨4, inferInstance, { rb := oneWord }⟩ :=
  .single (.call ⟨⟨fun _ => rfl, fun _ hv => nomatch hv⟩, rfl⟩)

/-- Sixteen bytes of the signal array are copied: the first signal, and the `eof` with it. -/
theorem resize_preserves_iff_oneWord :
    ResizePreserves Layout.u32 (by decide : 4 ≤ 8) (fun _ => 0) oneWord := by
  refine (resize_preserves_iff Layout.u32 (fun _ => 0) oneWord_run ⟨rfl, rfl, rfl, rfl⟩ (by decide)
    fun _ => 0).mpr ⟨by decide, ?_⟩
  unfold SignalsInPrefix
  decide

/-- The `eof` of the second word lies behind them and is lost. -/
theorem resize_loses_eof :
    ∃ acts, Run (Managed.Step Layout.u32) (Managed.init 4 fun _ => 0) acts
        ⟨4, inferInstance, { rb := twoWords }⟩ ∧
      GoesThrough twoWords ∧
      ¬ResizePreserves Layout.u32 (by decide : 4 ≤ 8) (fun _ => 0) twoWords := by
  refine ⟨_, twoWords_run, twoWords_goesThrough, fun hkeep => ?_⟩
  obtain ⟨q, hq⟩ := Managed.sim_of_run twoWords_run
  obtain ⟨-, hpre⟩ := (hq.holds.resizePreserves_iff twoWords_goesThrough _ _).mp hkeep
  exact absurd (hpre 1 (by decide) (by decide) 0 (by decide)) (by decide)

end RaftLib.Queue
