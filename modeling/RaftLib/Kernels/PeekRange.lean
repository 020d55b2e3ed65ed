/-
# `RaftLib.Kernels.PeekRange` -- a peeked range against the pops that follow

`peek_range` (`fifo.hpp`) hands out an object that indexes the queue's two arrays (`autorelease.tcc`).
It finds every item where `pop` will find it. The signals it looks for once as far from the read index
again as that index is from the start of the array; `peek_agrees_iff` says where that is the same.
-/
import RaftLib.Kernels.Split

namespace RaftLib.Kernels

open RaftLib.Logic.Program
open RaftLib.Logic.Ring
open RaftLib.Queue

namespace Split

variable {T : Type} {cap m : Nat} {caps : Fin m → Nat}

/-- **Peeking agrees with popping.** The peek returns a range and leaves the contents and both pointers
as they were; each index below `n` shows an item with its signal, and the pops that follow return these,
one by one. -/
def PeekAgrees [NeZero cap] (s : Split T cap caps) (n : Nat) : Prop :=
  match (peekRange n).run s with
  | .ok range s' =>
      (s'.input.buffer.store = s.input.buffer.store ∧ s'.input.buffer.signal = s.input.buffer.signal ∧
        s'.input.buffer.readPt = s.input.buffer.readPt ∧
        s'.input.buffer.writePt = s.input.buffer.writePt ∧ s'.output = s.output) ∧
      ∃ popped s'', (onInput (RingBuffer.localPopRange n)).run s' = .ok popped s'' ∧
        ∀ i < n, ∃ e, (range.item i).run s' = .ok e s' ∧ popped[i]? = some e
  | .error _ _ => False

section Agrees

variable [NeZero cap] [∀ k, NeZero (caps k)] {s : Split T cap caps} {ins : List (T × RaftSignal)}
  {outs : ∀ _ : Fin m, List (T × RaftSignal)} {n : Nat}

/-- The peek itself. -/
theorem peekRange_run_le (h : HoldsAll s ins outs) (hn : n ≤ ins.length) :
    (peekRange n : Prog T cap caps _).run s =
      .ok ⟨s.input.buffer.readPt.a, s.input.buffer.readPt.a, n⟩
        (s.setInput (RingBuffer.setHelper .peek true s.input)) := by
  have hpeek := onInput_ok (s := s) (RingBuffer.localPeekRange_run h.input hn)
  rw [peekRange, run_bind_of_ok hpeek]
  rfl

/-- What the object shows at an index. -/
theorem item_run_peeked (h : HoldsAll s ins outs) {i : Nat} {e : T × RaftSignal} (hi : i < n)
    (hie : ins[i]? = some e) :
    ((⟨s.input.buffer.readPt.a, s.input.buffer.readPt.a, n⟩ : PeekRange cap).item i).run
        (s.setInput (RingBuffer.setHelper .peek true s.input)) =
      match signalRead s.input i with
      | some sig => .ok (e.1, sig) (s.setInput (RingBuffer.setHelper .peek true s.input))
      | none => .error .outOfBounds (s.setInput (RingBuffer.setHelper .peek true s.input)) := by
  have hitem := item_run (s := s.setInput (RingBuffer.setHelper .peek true s.input))
    ⟨s.input.buffer.readPt.a, s.input.buffer.readPt.a, n⟩ rfl rfl hi
  have hread : itemRead (s.setInput (RingBuffer.setHelper .peek true s.input)).input i =
      itemRead s.input i := rfl
  rw [hread, itemRead_eq h.input hie] at hitem
  rw [hitem]
  cases signalRead s.input i <;> rfl

theorem peek_pops (h : HoldsAll s ins outs) (hn : n ≤ ins.length) :
    ∃ s'', (onInput (RingBuffer.localPopRange n)).run
      (s.setInput (RingBuffer.setHelper .peek true s.input)) = .ok (ins.take n) s'' := by
  have hpeeked : Holds (RingBuffer.setHelper .peek true s.input) ins := h.input.setHelper .peek true
  obtain ⟨rb, hpop, -, -⟩ := RingBuffer.localPopRange_run n hpeeked hn
  exact ⟨_, onInput_ok (s := s.setInput (RingBuffer.setHelper .peek true s.input)) hpop⟩

theorem PeekAgrees.signals (h : HoldsAll s ins outs) (hn : n ≤ ins.length) (hagrees : PeekAgrees s n)
    {i : Nat} {e : T × RaftSignal} (hi : i < n) (hie : ins[i]? = some e) :
    signalRead s.input i = some e.2 := by
  obtain ⟨s'', hpops⟩ := peek_pops h hn
  unfold PeekAgrees at hagrees
  rw [peekRange_run_le h hn] at hagrees
  obtain ⟨-, popped, _, hrun, hitems⟩ := hagrees
  obtain ⟨e', he', hpopped⟩ := hitems i hi
  rw [hpops] at hrun
  obtain ⟨rfl, -⟩ := EStateM.Result.ok.inj hrun
  rw [List.getElem?_take_of_lt hi, hie, Option.some_inj] at hpopped
  subst hpopped
  rw [item_run_peeked h hi hie] at he'
  cases hsig : signalRead s.input i with
  | none =>
      rw [hsig] at he'
      cases he'
  | some sig =>
      rw [hsig] at he'
      exact congrArg (fun e => some e.2) (EStateM.Result.ok.inj he').1

theorem PeekAgrees.of_signals (h : HoldsAll s ins outs) (hn : n ≤ ins.length)
    (hsignals : ∀ i e, i < n → ins[i]? = some e → signalRead s.input i = some e.2) :
    PeekAgrees s n := by
  obtain ⟨s'', hpops⟩ := peek_pops h hn
  unfold PeekAgrees
  rw [peekRange_run_le h hn]
  refine ⟨⟨rfl, rfl, rfl, rfl, rfl⟩, ins.take n, s'', hpops, fun i hi => ?_⟩
  obtain ⟨e, hie⟩ : ∃ e, ins[i]? = some e := ⟨_, List.getElem?_eq_getElem (hi.trans_le hn)⟩
  refine ⟨e, ?_, by rw [List.getElem?_take_of_lt hi, hie]⟩
  rw [item_run_peeked h hi hie, hsignals i e hi hie]

/-- **When a peeked range agrees with the pops**: exactly if the entry of the signal array that it reads
for an item has that item's own signal. -/
theorem peek_agrees_iff (h : HoldsAll s ins outs) (hn : n ≤ ins.length) :
    PeekAgrees s n ↔ ∀ i e, i < n → ins[i]? = some e → signalRead s.input i = some e.2 :=
  ⟨fun hagrees _ _ hi hie => hagrees.signals h hn hi hie, .of_signals h hn⟩

/-- From read index zero on, the signals are read where they are. -/
theorem peek_agrees_front (h : HoldsAll s ins outs) (hn : n ≤ ins.length)
    (hfront : (s.input.buffer.readPt.a : Nat) = 0) : PeekAgrees s n := by
  refine .of_signals h hn fun i e hi hie => ?_
  have hlt : i < cap := (hi.trans_le hn).trans_le h.input.bounded
  have hentry := congrArg Prod.snd (h.input.entryAt hie)
  have hslot : (slot cap (i + s.input.buffer.readPt.a) : Fin cap) = ⟨i, hlt⟩ := by
    rw [hfront, Nat.add_zero]
    exact Fin.ext (Nat.mod_eq_of_lt hlt)
  unfold signalRead signalAt
  rw [hslot] at hentry ⊢
  simp only [hfront, Nat.zero_add, hlt, dif_pos]
  exact congrArg some hentry

end Agrees

/-- Read from its second place on, the queue of one word shows another place's signal. -/
theorem peek_disagrees : HoldsAll (feeding 4 secondPlace) [(8, RaftSignal.eof)] (fun _ => []) ∧
    ¬PeekAgrees (feeding 4 secondPlace) 1 := by
  have h := holdsAll_feeding 4 (RingBuffer.holds_popped holds_twoItems)
  refine ⟨h, fun hagrees => ?_⟩
  have hsignal := hagrees.signals h (by decide) (i := 0) (by decide) rfl
  exact absurd hsignal (by decide)

/-- Two words, read from the first place on. -/
theorem peek_agrees_iff_twoItems : PeekAgrees (feeding 2 twoItems) 2 := by
  refine (peek_agrees_iff (holdsAll_feeding 2 holds_twoItems) (by decide)).mpr fun i e hi hie => ?_
  match i, hi, hie with
  | 0, _, hie =>
      obtain rfl := Option.some_inj.mp hie
      decide
  | 1, _, hie =>
      obtain rfl := Option.some_inj.mp hie
      decide

end Split

end RaftLib.Kernels
