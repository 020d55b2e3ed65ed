/-
# `RaftLib.Kernels.Split` -- the kernel that spreads one stream over its outputs

`split` (`split.tcc`) with the round-robin method (`splitmethod.hpp`, `roundrobin.cpp`), and the
object that `peek_range` returns (`autorelease.tcc`). Nothing else touches the queues during one
`run`; between two of them anybody may.

A run takes everything its input holds off it, and hands the first output that has room as much of it
as fits there. It reads the signals through a pointer that already stands at the read index, and adds
the read index to it once more. `split_conserves_iff` says what has to meet for neither to matter.
-/
import Mathlib.Data.Fintype.Basic
import RaftLib.Logic.Steps
import RaftLib.Queue.Contents

namespace RaftLib.Kernels

open RaftLib.Logic.Ring
open RaftLib.Logic.Program
open RaftLib.Logic.Steps (Run restrict)
open RaftLib.Queue

/-! ## The kernel's state -/

/-- How a run can end without returning: a queue's own ways, the bounds check of `operator []`, and a
read outside the signal array, after which the program means nothing. -/
inductive SplitStop where
  | queue (stop : Stop)
  | lengthError
  | outOfBounds
  deriving DecidableEq, Repr

/-- The input queue and the output queues, in the order in which a `Port` lists them. -/
structure Split (T : Type) (cap : Nat) {n : Nat} (caps : Fin n → Nat) where
  input : RingBuffer T cap
  output : ∀ k, RingBuffer T (caps k)

namespace Split

variable {T : Type} {cap n : Nat} {caps : Fin n → Nat} {α : Type}

abbrev Prog (T : Type) (cap : Nat) {n : Nat} (caps : Fin n → Nat) (α : Type) :=
  EStateM SplitStop (Split T cap caps) α

/-- The kernel with another input queue. -/
def setInput (s : Split T cap caps) (rb : RingBuffer T cap) : Split T cap caps :=
  { s with input := rb }

/-- The kernel with another queue at output `k`. -/
def setOutput (s : Split T cap caps) (k : Fin n) (rb : RingBuffer T (caps k)) : Split T cap caps :=
  { s with output := Function.update s.output k rb }

/-- A call on the input queue. -/
def onInput (x : Call T cap α) : Prog T cap caps α := fun s =>
  match x.run s.input with
  | .ok a rb => .ok a (s.setInput rb)
  | .error e rb => .error (.queue e) (s.setInput rb)

/-- A call on output queue `k`. -/
def onOutput (k : Fin n) (x : Call T (caps k) α) : Prog T cap caps α := fun s =>
  match x.run (s.output k) with
  | .ok a rb => .ok a (s.setOutput k rb)
  | .error e rb => .error (.queue e) (s.setOutput k rb)

/-! ## The peeked range (`autorelease.tcc`) -/

/-- `autorelease< T, peekrange >`: `signal` points at the entry `signalBase` of the signal array. -/
structure PeekRange (cap : Nat) where
  signalBase : Fin cap
  crp : Fin cap
  nItems : Nat

/-- `fifo.peek_range< T >( n )`. -/
def peekRange (n : Nat) : Prog T cap caps (PeekRange cap) := do
  let readIndex ← onInput (RingBuffer.localPeekRange n)
  return { signalBase := readIndex, crp := readIndex, nItems := n }

/-- `signal[ i ]`, where `signal` points into the signal array of a queue. -/
def signalAt (rb : RingBuffer T cap) (base : Fin cap) (i : Nat) : Option RaftSignal :=
  if h : base + i < cap then some (rb.buffer.signal ⟨base + i, h⟩).sig else none

/-- `range[ index ]`, both members read. -/
def PeekRange.item [NeZero cap] (range : PeekRange cap) (index : Nat) :
    Prog T cap caps (T × RaftSignal) := do
  if range.nItems ≤ index then throw .lengthError
  else
    let ptrVal : Fin cap := slot cap (index + range.crp)
    let s ← get
    match signalAt s.input range.signalBase ptrVal with
    | some sig => return (s.input.buffer.store ptrVal, sig)
    | none => throw .outOfBounds

/-! ## Choosing an output (`roundrobin.cpp`) -/

/-- `functype`. -/
inductive Functype where
  | sendtype | gettype
  deriving DecidableEq, Repr

/-- One pass over the ports, up to the first that will do. -/
def selectFrom (type : Functype) : List (Fin n) → Prog T cap caps (Option (Fin n))
  | [] => return none
  | k :: ports => do
      match type with
      | .sendtype =>
          let space ← onOutput k RingBuffer.spaceAvail
          if 0 < space then return some k else selectFrom type ports
      | .gettype =>
          let size ← onOutput k RingBuffer.size
          if 0 < size then return some k else selectFrom type ports

/-- `select_fifo`; with no port that will do it goes round again. -/
def selectFifo (type : Functype) : Prog T cap caps (Fin n) := do
  match ← selectFrom type (List.finRange n) with
  | some k => return k
  | none => throw (.queue .wait)

/-! ## The kernel (`splitmethod.hpp`, `split.tcc`) -/

/-- The loop of `send`, from item `i` on, for `count` items. -/
def sendItems [NeZero cap] (k : Fin n) (range : PeekRange cap) : Nat → Nat → Prog T cap caps PUnit
  | _, 0 => return ⟨⟩
  | i, count + 1 => do
      let e ← range.item i
      onOutput k (RingBuffer.localPush (some e.1) e.2)
      sendItems k range (i + 1) count

/-- `splitmethod::send( range, outputs )`. -/
def send [NeZero cap] (range : PeekRange cap) : Prog T cap caps Bool := do
  let fifo ← selectFifo .sendtype
  let space ← onOutput fifo RingBuffer.spaceAvail
  sendItems fifo range 0 (min space range.nItems)
  return true

/-- `run`. The range lives until the end of the body, where its destructor unpeeks. -/
def run [NeZero cap] : Prog T cap caps Kstatus := do
  let avail ← onInput RingBuffer.size
  let range ← peekRange avail
  if ← send range then
    onInput (RingBuffer.localRecycle avail)
  else
    onInput RingBuffer.unpeek
  onInput RingBuffer.unpeek
  return .proceed

/-! ## Calls on one of the queues -/

theorem onInput_ok {x : Call T cap α} {s : Split T cap caps} {a : α} {rb : RingBuffer T cap}
    (h : x.run s.input = .ok a rb) : (onInput x).run s = .ok a (s.setInput rb) := by
  show onInput x s = _
  rw [onInput, h]

theorem onOutput_ok {k : Fin n} {x : Call T (caps k) α} {s : Split T cap caps} {a : α}
    {rb : RingBuffer T (caps k)} (h : x.run (s.output k) = .ok a rb) :
    (onOutput k x).run s = .ok a (s.setOutput k rb) := by
  show onOutput k x s = _
  rw [onOutput, h]

theorem onInput_error {x : Call T cap α} {s : Split T cap caps} {e : Stop} {rb : RingBuffer T cap}
    (h : x.run s.input = .error e rb) :
    (onInput x).run s = .error (.queue e) (s.setInput rb) := by
  show onInput x s = _
  rw [onInput, h]

theorem onOutput_error {k : Fin n} {x : Call T (caps k) α} {s : Split T cap caps} {e : Stop}
    {rb : RingBuffer T (caps k)} (h : x.run (s.output k) = .error e rb) :
    (onOutput k x).run s = .error (.queue e) (s.setOutput k rb) := by
  show onOutput k x s = _
  rw [onOutput, h]

@[simp] theorem setInput_input (s : Split T cap caps) : s.setInput s.input = s := rfl

@[simp] theorem setOutput_output (s : Split T cap caps) (k : Fin n) :
    s.setOutput k (s.output k) = s := by
  simp [setOutput]

/-! ## What the queues hold -/

section Contents

variable [NeZero cap] [∀ k, NeZero (caps k)]

/-- The input holds `ins` and output `k` holds `outs k`, oldest first. -/
structure HoldsAll (s : Split T cap caps) (ins : List (T × RaftSignal))
    (outs : ∀ _ : Fin n, List (T × RaftSignal)) : Prop where
  input : Holds s.input ins
  output : ∀ k, Holds (s.output k) (outs k)

/-- The output that round robin takes: the first with room. -/
def firstWithRoom (caps : Fin n → Nat) (outs : ∀ _ : Fin n, List (T × RaftSignal)) :
    Option (Fin n) :=
  (List.finRange n).find? fun k => decide ((outs k).length < caps k)

/-- The signal that `range[ i ]` shows for a range peeked now. -/
def signalRead (rb : RingBuffer T cap) (i : Nat) : Option RaftSignal :=
  signalAt rb rb.buffer.readPt.a (slot cap (i + rb.buffer.readPt.a) : Fin cap)

/-- What `range[ i ]` shows. -/
def itemRead (rb : RingBuffer T cap) (i : Nat) : Option (T × RaftSignal) :=
  (signalRead rb i).map fun sig => (rb.buffer.store (slot cap (i + rb.buffer.readPt.a)), sig)

/-- What `range[ i ]`, `range[ i + 1 ]` and so on show, for `count` items. -/
def itemsRead (rb : RingBuffer T cap) : Nat → Nat → Option (List (T × RaftSignal))
  | _, 0 => some []
  | i, count + 1 => do
      let e ← itemRead rb i
      let rest ← itemsRead rb (i + 1) count
      return e :: rest

/-- **What has to meet.** The chosen output has room for all that the input holds, and every signal
that the range shows is its item's own. -/
def Fits (s : Split T cap caps) (ins : List (T × RaftSignal))
    (outs : ∀ _ : Fin n, List (T × RaftSignal)) : Prop :=
  ∀ k, firstWithRoom caps outs = some k →
    ins.length ≤ caps k - (outs k).length ∧
      ∀ i e, ins[i]? = some e → signalRead s.input i = some e.2

/-- **What a run should do.** It takes a prefix off the input and appends it to one output; a run that
has to wait has moved nothing. -/
def Conserves (s : Split T cap caps) (ins : List (T × RaftSignal))
    (outs : ∀ _ : Fin n, List (T × RaftSignal)) : Prop :=
  match run.run s with
  | .ok _ s' => ∃ k moved rest, ins = moved ++ rest ∧
      HoldsAll s' rest (Function.update outs k (outs k ++ moved))
  | .error (.queue .wait) s' => HoldsAll s' ins outs
  | .error _ _ => False

/-! ## The calls, evaluated -/

variable {s : Split T cap caps} {ins : List (T × RaftSignal)}
  {outs : ∀ _ : Fin n, List (T × RaftSignal)}

theorem HoldsAll.setInput (h : HoldsAll s ins outs) {rb : RingBuffer T cap}
    {ins' : List (T × RaftSignal)} (hrb : Holds rb ins') : HoldsAll (s.setInput rb) ins' outs :=
  ⟨hrb, h.output⟩

theorem HoldsAll.setOutput (h : HoldsAll s ins outs) {k : Fin n} {rb : RingBuffer T (caps k)}
    {es : List (T × RaftSignal)} (hrb : Holds rb es) :
    HoldsAll (s.setOutput k rb) ins (Function.update outs k es) where
  input := h.input
  output := by
    intro j
    by_cases hj : j = k
    · subst hj
      simpa [Split.setOutput] using hrb
    · simpa [Split.setOutput, hj] using h.output j

/-- Asking the ports changes nothing, and finds the first with room. -/
theorem selectFrom_run (h : HoldsAll s ins outs) (ports : List (Fin n)) :
    (selectFrom .sendtype ports : Prog T cap caps _).run s =
      .ok (ports.find? fun k => decide ((outs k).length < caps k)) s := by
  induction ports with
  | nil => rfl
  | cons k ports ih =>
      have hspace := onOutput_ok (s := s) (RingBuffer.spaceAvail_run (h.output k))
      rw [setOutput_output] at hspace
      simp only [selectFrom, run_bind_of_ok hspace]
      by_cases hroom : (outs k).length < caps k
      · rw [if_pos (by omega), List.find?_cons_of_pos (by simpa using hroom)]
        rfl
      · rw [if_neg (by omega), List.find?_cons_of_neg (by simpa using hroom), ih]

theorem selectFifo_run (h : HoldsAll s ins outs) {k : Fin n}
    (hk : firstWithRoom caps outs = some k) :
    (selectFifo .sendtype : Prog T cap caps _).run s = .ok k s := by
  have hfrom := selectFrom_run h (List.finRange n)
  rw [show (List.finRange n).find? _ = some k from hk] at hfrom
  rw [selectFifo, run_bind_of_ok hfrom]
  rfl

theorem selectFifo_full (h : HoldsAll s ins outs) (hk : firstWithRoom caps outs = none) :
    (selectFifo .sendtype : Prog T cap caps _).run s = .error (.queue .wait) s := by
  have hfrom := selectFrom_run h (List.finRange n)
  rw [show (List.finRange n).find? _ = none from hk] at hfrom
  rw [selectFifo, run_bind_of_ok hfrom]
  rfl

/-- What the range shows of item `i` is the item, with the signal that is read for it. -/
theorem itemRead_eq {rb : RingBuffer T cap} (h : Holds rb ins) {i : Nat} {e : T × RaftSignal}
    (hi : ins[i]? = some e) : itemRead rb i = (signalRead rb i).map fun sig => (e.1, sig) := by
  have hstore := congrArg Prod.fst (h.entryAt hi)
  simp only [Data.entry] at hstore
  simp only [itemRead, hstore]

/-- A list of items shown is the list of the items shown one by one. -/
theorem itemsRead_eq_some {rb : RingBuffer T cap} {count : Nat} :
    ∀ {i : Nat} {es : List (T × RaftSignal)}, itemsRead rb i count = some es →
      es.length = count ∧ ∀ j e, es[j]? = some e → itemRead rb (i + j) = some e := by
  induction count with
  | zero =>
      intro i es h
      obtain rfl : [] = es := Option.some_inj.mp h
      exact ⟨rfl, by simp⟩
  | succ count ih =>
      intro i es h
      obtain ⟨e₀, he₀, h⟩ := Option.bind_eq_some_iff.mp h
      obtain ⟨rest, hrest, h⟩ := Option.bind_eq_some_iff.mp h
      obtain rfl : e₀ :: rest = es := Option.some_inj.mp h
      obtain ⟨hlength, hitems⟩ := ih hrest
      refine ⟨by rw [List.length_cons, hlength], ?_⟩
      intro j e hj
      cases j with
      | zero =>
          rw [List.getElem?_cons_zero, Option.some_inj] at hj
          rw [Nat.add_zero, he₀, hj]
      | succ j =>
          rw [List.getElem?_cons_succ] at hj
          rw [show i + (j + 1) = i + 1 + j by omega]
          exact hitems j e hj

/-- If every item is shown as it is, the range shows the input. -/
theorem itemsRead_of_forall {rb : RingBuffer T cap} :
    ∀ {es : List (T × RaftSignal)} {i : Nat},
      (∀ j e, es[j]? = some e → itemRead rb (i + j) = some e) →
      itemsRead rb i es.length = some es := by
  intro es
  induction es with
  | nil =>
      intro i _
      rfl
  | cons e es ih =>
      intro i h
      have hhead : itemRead rb i = some e := h 0 e rfl
      have htail : itemsRead rb (i + 1) es.length = some es := by
        apply ih
        intro j e' hj
        rw [show i + 1 + j = i + (j + 1) by omega]
        exact h (j + 1) e' hj
      simp [itemsRead, hhead, htail]

omit [∀ k, NeZero (caps k)] in
/-- The range's `operator []`, inside its bounds. -/
theorem item_run (range : PeekRange cap) (hbase : range.signalBase = s.input.buffer.readPt.a)
    (hcrp : range.crp = s.input.buffer.readPt.a) {i : Nat} (hi : i < range.nItems) :
    (range.item i : Prog T cap caps _).run s =
      match itemRead s.input i with
      | some e => .ok e s
      | none => .error .outOfBounds s := by
  have hnot : ¬range.nItems ≤ i := by omega
  simp only [PeekRange.item, hnot, if_false, hcrp, hbase, itemRead, signalRead]
  cases hsig : signalAt s.input s.input.buffer.readPt.a
      ((slot cap (i + s.input.buffer.readPt.a) : Fin cap) : Nat) with
  | none =>
      rw [slot_val] at hsig
      simp [run_bind_of_ok (EStateM.run_get s), hsig]
  | some sig =>
      rw [slot_val] at hsig
      simp [run_bind_of_ok (EStateM.run_get s), hsig]

/-- The loop of `send` pushes what the range shows, as long as it reads inside the signal array. -/
theorem sendItems_run (range : PeekRange cap) (k : Fin n) :
    ∀ (count i : Nat) {s : Split T cap caps} {outs : ∀ _ : Fin n, List (T × RaftSignal)},
      HoldsAll s ins outs → range.signalBase = s.input.buffer.readPt.a →
      range.crp = s.input.buffer.readPt.a → i + count ≤ range.nItems →
      (outs k).length + count ≤ caps k →
      ∃ s', s'.input = s.input ∧
        match itemsRead s.input i count with
        | some es => (sendItems k range i count).run s = .ok ⟨⟩ s' ∧
            HoldsAll s' ins (Function.update outs k (outs k ++ es))
        | none => (sendItems k range i count).run s = .error .outOfBounds s' := by
  intro count
  induction count with
  | zero =>
      intro i s outs h _ _ _ _
      refine ⟨s, rfl, rfl, ?_⟩
      simpa using h
  | succ count ih =>
      intro i s outs h hbase hcrp hi hroom
      have hitem := item_run range hbase hcrp (i := i) (by omega)
      cases hread : itemRead s.input i with
      | none =>
          rw [hread] at hitem
          refine ⟨s, rfl, ?_⟩
          simp only [itemsRead, hread, Option.bind_eq_bind, Option.bind_none]
          exact run_bind_of_error hitem
      | some e =>
          rw [hread] at hitem
          have hlt : (outs k).length < caps k := by omega
          have hpush := onOutput_ok (s := s) (RingBuffer.localPush_run (h.output k) hlt e.1 e.2)
          have hnext := h.setOutput (RingBuffer.holds_pushed (h.output k) hlt e.1 e.2)
          obtain ⟨s', hinput, hrest⟩ := ih (i := i + 1) hnext hbase hcrp (by omega) (by
            rw [Function.update_self, List.length_append, List.length_singleton]
            omega)
          refine ⟨s', hinput, ?_⟩
          have hstep : (sendItems k range i (count + 1)).run s =
              (sendItems k range (i + 1) count).run
                (s.setOutput k (RingBuffer.pushed e.1 e.2 (s.output k))) := by
            rw [sendItems, run_bind_of_ok hitem, run_bind_of_ok hpush]
          rw [hstep]
          simp only [itemsRead, hread, Option.bind_eq_bind, Option.bind_some]
          rw [show (s.setOutput k (RingBuffer.pushed e.1 e.2 (s.output k))).input = s.input from rfl]
            at hrest
          cases hitems : itemsRead s.input (i + 1) count with
          | none =>
              rw [hitems] at hrest
              exact hrest
          | some es =>
              rw [hitems, Function.update_self] at hrest
              obtain ⟨hrun, hholds⟩ := hrest
              rw [Function.update_idem, List.append_assoc] at hholds
              exact ⟨hrun, hholds⟩

/-! ## One run -/

theorem peekRange_run (h : HoldsAll s ins outs) :
    (peekRange ins.length : Prog T cap caps _).run s =
      .ok ⟨s.input.buffer.readPt.a, s.input.buffer.readPt.a, ins.length⟩
        (s.setInput (RingBuffer.setHelper .peek true s.input)) := by
  have hpeek := onInput_ok (s := s) (RingBuffer.localPeekRange_run h.input (le_refl ins.length))
  rw [peekRange, run_bind_of_ok hpeek]
  rfl

/-- A run with no room anywhere goes round in `select_fifo`, and has moved nothing. -/
theorem run_full (h : HoldsAll s ins outs) (hk : firstWithRoom caps outs = none) :
    ∃ s', run.run s = .error (.queue .wait) s' ∧ HoldsAll s' ins outs := by
  have hsize := onInput_ok (s := s) (RingBuffer.size_run h.input)
  rw [setInput_input] at hsize
  have hpeeked := h.setInput (h.input.setHelper .peek true)
  refine ⟨_, ?_, hpeeked⟩
  rw [run, run_bind_of_ok hsize, run_bind_of_ok (peekRange_run h)]
  apply run_bind_of_error
  rw [send]
  exact run_bind_of_error (selectFifo_full hpeeked hk)

/-- **One run.** The chosen output gets what the range shows of as many items as it has room for; the
input gives up all of its items. -/
theorem run_spec (h : HoldsAll s ins outs) {k : Fin n} (hk : firstWithRoom caps outs = some k) :
    match itemsRead s.input 0 (min (caps k - (outs k).length) ins.length) with
    | some es => ∃ s', run.run s = .ok .proceed s' ∧
        HoldsAll s' [] (Function.update outs k (outs k ++ es))
    | none => ∃ s', run.run s = .error .outOfBounds s' := by
  have hsize := onInput_ok (s := s) (RingBuffer.size_run h.input)
  rw [setInput_input] at hsize
  have hpeeked := h.setInput (h.input.setHelper .peek true)
  have hspace := onOutput_ok (s := s.setInput (RingBuffer.setHelper .peek true s.input))
    (RingBuffer.spaceAvail_run (hpeeked.output k))
  rw [setOutput_output] at hspace
  obtain ⟨s', hinput, hsent⟩ :=
    sendItems_run ⟨s.input.buffer.readPt.a, s.input.buffer.readPt.a, ins.length⟩ k
      (min (caps k - (outs k).length) ins.length) 0 hpeeked rfl rfl
    (by simp) (by have := (h.output k).bounded; omega)
  have hreads : ∀ i count, itemsRead (RingBuffer.setHelper .peek true s.input) i count =
      itemsRead s.input i count := by
    intro i count
    induction count generalizing i with
    | zero => rfl
    | succ count ih => simp only [itemsRead, ih]; rfl
  rw [show (s.setInput (RingBuffer.setHelper .peek true s.input)).input =
    RingBuffer.setHelper .peek true s.input from rfl, hreads] at hsent
  rw [run, run_bind_of_ok hsize, run_bind_of_ok (peekRange_run h), send]
  cases hitems : itemsRead s.input 0 (min (caps k - (outs k).length) ins.length) with
  | none =>
      rw [hitems] at hsent
      refine ⟨s', ?_⟩
      apply run_bind_of_error
      rw [run_bind_of_ok (selectFifo_run hpeeked hk), run_bind_of_ok hspace]
      exact run_bind_of_error hsent
  | some es =>
      rw [hitems] at hsent
      obtain ⟨hrun, hholds⟩ := hsent
      obtain ⟨rb, hrecycle, hempty, _⟩ :=
        RingBuffer.localRecycle_run ins.length hholds.input (.inl (le_refl _))
      have hunpeek := onInput_ok (s := s'.setInput rb)
        (RingBuffer.exitBuffer_run .peek rb)
      refine ⟨(s'.setInput rb).setInput (RingBuffer.setHelper .peek false rb), ?_, hholds.setInput ?_⟩
      · rw [run_bind_of_ok (a := true) (m := s')]
        · rw [if_pos rfl, run_bind_of_ok (onInput_ok hrecycle)]
          exact run_bind_of_ok hunpeek
        · rw [run_bind_of_ok (selectFifo_run hpeeked hk), run_bind_of_ok hspace, run_bind_of_ok hrun]
          rfl
      · rw [List.drop_length] at hempty
        exact hempty.setHelper .peek false

/-- Contents that fit are contents that the range shows as they are, all of them. -/
theorem fits_iff (h : HoldsAll s ins outs) {k : Fin n} (hk : firstWithRoom caps outs = some k) :
    Fits s ins outs ↔
      itemsRead s.input 0 (min (caps k - (outs k).length) ins.length) = some ins := by
  constructor
  · intro hfits
    obtain ⟨hroom, hsignals⟩ := hfits k hk
    rw [Nat.min_eq_right hroom]
    apply itemsRead_of_forall
    intro j e hj
    rw [Nat.zero_add, itemRead_eq h.input hj, hsignals j e hj]
    rfl
  · intro hread k' hk'
    obtain rfl : k = k' := Option.some_inj.mp (hk.symm.trans hk')
    obtain ⟨hlength, hitems⟩ := itemsRead_eq_some hread
    refine ⟨by omega, ?_⟩
    intro i e hi
    have hitem := hitems i e hi
    rw [Nat.zero_add, itemRead_eq h.input hi] at hitem
    obtain ⟨sig, hsig, hpair⟩ := Option.map_eq_some_iff.mp hitem
    rw [hsig, ← hpair]

/-- Two accounts of which output was appended to, and of what, agree on what was appended. -/
theorem appended_unique {k k' : Fin n} {es moved : List (T × RaftSignal)}
    (h : ∀ j, Function.update outs k (outs k ++ es) j = Function.update outs k' (outs k' ++ moved) j) :
    es = moved := by
  by_cases hkk : k = k'
  · subst hkk
    simpa using h k
  · have hk := h k
    have hk' := h k'
    rw [Function.update_self, Function.update_of_ne hkk, List.append_right_eq_self] at hk
    rw [Function.update_self, Function.update_of_ne (Ne.symm hkk), List.self_eq_append_right] at hk'
    rw [hk, hk']

/-- **When a run conserves the stream.** -/
theorem conserves_iff (h : HoldsAll s ins outs) : Conserves s ins outs ↔ Fits s ins outs := by
  cases hk : firstWithRoom caps outs with
  | none =>
      obtain ⟨s', hrun, hholds⟩ := run_full h hk
      constructor
      · intro _ k hk'
        rw [hk] at hk'
        cases hk'
      · intro _
        rw [Conserves, hrun]
        exact hholds
  | some k =>
      have hspec := run_spec h hk
      rw [fits_iff h hk]
      cases hread : itemsRead s.input 0 (min (caps k - (outs k).length) ins.length) with
      | none =>
          rw [hread] at hspec
          obtain ⟨s', hrun⟩ := hspec
          rw [Conserves, hrun]
          simp
      | some es =>
          rw [hread] at hspec
          obtain ⟨s', hrun, hholds⟩ := hspec
          rw [Conserves, hrun, Option.some_inj]
          constructor
          · rintro ⟨k', moved, rest, hins, hholds'⟩
            have hrest : rest = [] := hholds'.input.unique hholds.input
            rw [hins, hrest, List.append_nil]
            apply appended_unique
            exact fun j => (hholds.output j).unique (hholds'.output j)
          · rintro rfl
            exact ⟨k, es, [], (List.append_nil es).symm, hholds⟩

/-! ## Many runs -/

/-- What happens around the kernel: an item arrives, an item leaves an output, the kernel runs. -/
inductive Event (T : Type) (n : Nat) where
  | arrived (e : T × RaftSignal)
  | left (k : Fin n) (e : T × RaftSignal)
  | ran

/-- An event that goes through. -/
def Step (s : Split T cap caps) : Event T n → Split T cap caps → Prop
  | .arrived e, t => (onInput (RingBuffer.localPush (some e.1) e.2)).run s = .ok ⟨⟩ t
  | .left k e, t => (onOutput k RingBuffer.pop).run s = .ok e t
  | .ran, t => run.run s = .ok .proceed t

/-- The kernel runs only where its contents fit. -/
def Meets (s : Split T cap caps) (l : Event T n) : Prop :=
  match l with
  | .ran => ∀ ins outs, HoldsAll s ins outs → Fits s ins outs
  | _ => True

/-- What arrived, in order. -/
def arrivals : List (Event T n) → List (T × RaftSignal)
  | [] => []
  | .arrived e :: ls => e :: arrivals ls
  | _ :: ls => arrivals ls

/-- What left output `k`, in order. -/
def departures (k : Fin n) : List (Event T n) → List (T × RaftSignal)
  | [] => []
  | .left j e :: ls => if j = k then e :: departures k ls else departures k ls
  | _ :: ls => departures k ls

/-- What a sequence of batches, each for one output, has for output `k`. -/
def sentTo (k : Fin n) : List (Fin n × List (T × RaftSignal)) → List (T × RaftSignal)
  | [] => []
  | (j, es) :: batches => if j = k then es ++ sentTo k batches else sentTo k batches

/-- **Nothing lost, nothing twice.** What was there and what arrived is, in order, the batches and
then what is left; and each output has had exactly the batches meant for it. -/
structure Accounts (ins : List (T × RaftSignal)) (outs : ∀ _ : Fin n, List (T × RaftSignal))
    (ls : List (Event T n)) (batches : List (Fin n × List (T × RaftSignal)))
    (ins' : List (T × RaftSignal)) (outs' : ∀ _ : Fin n, List (T × RaftSignal)) : Prop where
  input : ins ++ arrivals ls = batches.flatMap Prod.snd ++ ins'
  output : ∀ k, outs k ++ sentTo k batches = departures k ls ++ outs' k

theorem step_arrived (h : HoldsAll s ins outs) {e : T × RaftSignal} {t : Split T cap caps}
    (hstep : Step s (.arrived e) t) : HoldsAll t (ins ++ [e]) outs := by
  by_cases hroom : ins.length < cap
  · have hpush := onInput_ok (s := s) (RingBuffer.localPush_run h.input hroom e.1 e.2)
    have ht := (EStateM.Result.ok.inj (hpush.symm.trans hstep)).2
    exact ht ▸ h.setInput (RingBuffer.holds_pushed h.input hroom e.1 e.2)
  · obtain ⟨rb, hfull⟩ := RingBuffer.localPush_full h.input hroom (some e.1) e.2
    have := (onInput_error hfull).symm.trans hstep
    cases this

theorem step_left (h : HoldsAll s ins outs) {k : Fin n} {e : T × RaftSignal} {t : Split T cap caps}
    (hstep : Step s (.left k e) t) :
    ∃ es, outs k = e :: es ∧ HoldsAll t ins (Function.update outs k es) := by
  have hk := h.output k
  cases hes : outs k with
  | nil =>
      rw [hes] at hk
      obtain ⟨x, rb, hempty⟩ := RingBuffer.pop_empty hk
      have := (onOutput_error hempty).symm.trans hstep
      cases this
  | cons e' es =>
      rw [hes] at hk
      have hpop := onOutput_ok (s := s) (RingBuffer.pop_run hk)
      obtain ⟨he, ht⟩ := EStateM.Result.ok.inj (hpop.symm.trans hstep)
      subst he
      exact ⟨es, rfl, ht ▸ h.setOutput (RingBuffer.holds_popped hk)⟩

theorem step_ran (h : HoldsAll s ins outs) (hfits : Fits s ins outs) {t : Split T cap caps}
    (hstep : Step s .ran t) : ∃ k, HoldsAll t [] (Function.update outs k (outs k ++ ins)) := by
  cases hk : firstWithRoom caps outs with
  | none =>
      obtain ⟨s', hrun, _⟩ := run_full h hk
      have := hrun.symm.trans hstep
      cases this
  | some k =>
      have hspec := run_spec h hk
      rw [(fits_iff h hk).mp hfits] at hspec
      obtain ⟨s', hrun, hholds⟩ := hspec
      have ht := (EStateM.Result.ok.inj (hrun.symm.trans hstep)).2
      exact ⟨k, ht ▸ hholds⟩

/-- **Any sequence of events** whose runs fit balances. -/
theorem accounts_of_run {t : Split T cap caps} {ls : List (Event T n)}
    (hrun : Run (restrict Step Meets) s ls t) :
    ∀ {ins : List (T × RaftSignal)} {outs : ∀ _ : Fin n, List (T × RaftSignal)},
      HoldsAll s ins outs →
      ∃ batches ins' outs', HoldsAll t ins' outs' ∧ Accounts ins outs ls batches ins' outs' := by
  induction hrun with
  | nil s =>
      intro ins outs h
      exact ⟨[], ins, outs, h, by simp [arrivals], by simp [sentTo, departures]⟩
  | @cons s m t l ls hl _ ih =>
      intro ins outs h
      obtain ⟨hmeets, hstep⟩ := hl
      cases l with
      | arrived e =>
          obtain ⟨batches, ins', outs', ht, hin, hout⟩ := ih (step_arrived h hstep)
          refine ⟨batches, ins', outs', ht, ?_, hout⟩
          rw [← hin, List.append_assoc]
          rfl
      | left k e =>
          obtain ⟨es, hes, hm⟩ := step_left h hstep
          obtain ⟨batches, ins', outs', ht, hin, hout⟩ := ih hm
          refine ⟨batches, ins', outs', ht, hin, ?_⟩
          intro j
          have hj := hout j
          by_cases hkj : k = j
          · subst hkj
            rw [Function.update_self] at hj
            rw [hes, departures, if_pos rfl, List.cons_append, List.cons_append, hj]
          · rw [Function.update_of_ne (Ne.symm hkj)] at hj
            rw [departures, if_neg hkj, hj]
      | ran =>
          obtain ⟨k, hm⟩ := step_ran h (hmeets ins outs h) hstep
          obtain ⟨batches, ins', outs', ht, hin, hout⟩ := ih hm
          refine ⟨(k, ins) :: batches, ins', outs', ht, ?_, ?_⟩
          · rw [List.flatMap_cons, List.append_assoc, ← hin]
            rfl
          · intro j
            have hj := hout j
            by_cases hkj : k = j
            · subst hkj
              rw [Function.update_self, List.append_assoc] at hj
              rw [sentTo, if_pos rfl, hj]
              rfl
            · rw [Function.update_of_ne (Ne.symm hkj)] at hj
              rw [sentTo, if_neg hkj, hj]
              rfl

/-- **Split.** A run conserves the stream exactly if the contents fit, and over any sequence of
events in which every run fits nothing is lost and nothing is there twice. -/
theorem split_conserves_iff (h : HoldsAll s ins outs) :
    (Conserves s ins outs ↔ Fits s ins outs) ∧
      ∀ ls t, Run (restrict Step Meets) s ls t →
        ∃ batches ins' outs', HoldsAll t ins' outs' ∧ Accounts ins outs ls batches ins' outs' :=
  ⟨conserves_iff h, fun _ _ hrun => accounts_of_run hrun h⟩

end Contents

/-! ## Runs that fit, and runs that do not -/

/-- An input queue with two words, read from its first place on. -/
def twoItems : RingBuffer Nat 4 :=
  RingBuffer.pushed 8 RaftSignal.eof (RingBuffer.pushed 7 RaftSignal.none (RingBuffer.init fun _ => 0))

/-- An input queue with one word, read from its second place on. -/
def secondPlace : RingBuffer Nat 4 := RingBuffer.popped twoItems

/-- A kernel with that input and one empty output of `size` places. -/
def feeding (size : Nat) [NeZero size] (input : RingBuffer Nat 4) :
    Split Nat 4 (fun _ : Fin 1 => size) where
  input := input
  output := fun _ => RingBuffer.init fun _ => 0

theorem holds_twoItems : Holds twoItems [(7, RaftSignal.none), (8, RaftSignal.eof)] :=
  RingBuffer.holds_pushed (RingBuffer.holds_pushed (Holds.init _) (by decide) 7 _) (by decide) 8 _

theorem holdsAll_feeding (size : Nat) [NeZero size] {input : RingBuffer Nat 4}
    {ins : List (Nat × RaftSignal)} (h : Holds input ins) :
    HoldsAll (feeding size input) ins fun _ => [] :=
  ⟨h, fun _ => Holds.init _⟩

/-- Two places for two words, and the read index at zero. -/
theorem split_conserves_iff_twoItems :
    Conserves (feeding 2 twoItems) [(7, RaftSignal.none), (8, RaftSignal.eof)] fun _ => [] := by
  apply (split_conserves_iff (holdsAll_feeding 2 holds_twoItems)).1.mpr
  intro k _
  refine ⟨le_refl 2, ?_⟩
  intro i e hi
  match i, hi with
  | 0, hi =>
      obtain rfl := Option.some_inj.mp hi
      decide
  | 1, hi =>
      obtain rfl := Option.some_inj.mp hi
      decide

/-- With one place the second word is gone. With the read index at one the word keeps its place but
loses its `eof`, however much room there is. -/
theorem split_loses :
    (HoldsAll (feeding 1 twoItems) [(7, RaftSignal.none), (8, RaftSignal.eof)] (fun _ => []) ∧
      ¬Conserves (feeding 1 twoItems) [(7, RaftSignal.none), (8, RaftSignal.eof)] fun _ => []) ∧
    (HoldsAll (feeding 4 secondPlace) [(8, RaftSignal.eof)] (fun _ => []) ∧
      ¬Conserves (feeding 4 secondPlace) [(8, RaftSignal.eof)] fun _ => []) := by
  have hsmall := holdsAll_feeding 1 holds_twoItems
  have hlate := holdsAll_feeding 4 (RingBuffer.holds_popped holds_twoItems)
  refine ⟨⟨hsmall, ?_⟩, ⟨hlate, ?_⟩⟩
  · intro hconserves
    obtain ⟨hroom, _⟩ := (conserves_iff hsmall).mp hconserves 0 (by decide)
    exact absurd hroom (by decide)
  · intro hconserves
    obtain ⟨_, hsignals⟩ := (conserves_iff hlate).mp hconserves 0 (by decide)
    exact absurd (hsignals 0 _ rfl) (by decide)

end Split

end RaftLib.Kernels
