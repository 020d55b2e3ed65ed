/-
# `RaftLib.Threads.KernelRun` -- `kernelRun` does not end a kernel early

`Schedule::kernelRun` (`schedule.cpp`) decides that a kernel is finished after several looks at its
input queues: none has data, all are invalid, again none has data. Here one kernel runs that loop
over any number of queues, while every queue has a producer of its own that pushes and at last
invalidates it. Each queue is an `Spsc`, so pushes and pops are interleaved load by load; the looks of
`kernelRun` are single loads as well. The kernel has the default scheduling, `any_port`, and its
`run()` pops what it likes and never returns `stop`. Its output queues are not part of the state.

The second look is what counts. A queue that was found invalid has a producer that is done, so what
the later loads of `size` see is exact (`SizePc.Exact`), however torn it was before.
-/
import RaftLib.Queue.Contents
import RaftLib.Threads.SpscSafe

namespace RaftLib.Threads

open RaftLib.Queue
open RaftLib.Logic.Steps

/-! ## Loads while nobody stores -/

section

variable {T : Type} {c : Nat}

/-- What `size` has loaded so far is what the pointers are now. -/
def SizePc.Exact (b : Data T c) : SizePc c → Prop
  | .wrapWrite => True
  | .wrapRead ww => ww = b.writePt.wrapIndicator
  | .wpt ww wr => ww = b.writePt.wrapIndicator ∧ wr = b.readPt.wrapIndicator
  | .rpt ww wr w =>
      ww = b.writePt.wrapIndicator ∧ wr = b.readPt.wrapIndicator ∧ w = b.writePt.val

/-- Between two increments index and wrap counter make up the count. -/
theorem Counted.pos_eq {ptr : Pointer c} {n : Nat} (h : Counted ptr n none) : ptr.pos = n := by
  rw [Pointer.pos, h.index, h.wrap_eq]
  exact Nat.div_add_mod' n c

/-- With both ends at rest `size` counts right. -/
theorem SizePc.exact_step [NeZero c] {b : Data T c} {W R : Nat} (hw : Counted b.writePt W none)
    (hr : Counted b.readPt R none) (hle : R ≤ W) (hfull : W ≤ R + c) {pc : SizePc c}
    (h : pc.Exact b) :
    match pc.step b with
    | .inl pc' => pc'.Exact b
    | .inr n => n = W - R := by
  cases pc with
  | wrapWrite => exact rfl
  | wrapRead ww => exact ⟨h, rfl⟩
  | wpt ww wr => exact ⟨h.1, h.2, rfl⟩
  | rpt ww wr w =>
      have honce : b.sizeOnce = some (W - R) := by
        apply Data.sizeOnce_eq
        · rw [hw.pos_eq, hr.pos_eq]
          omega
        · omega
      rw [SizePc.alone b h.1 h.2.1 h.2.2, honce]

def Producer.isIdle : Producer T c → Bool
  | .idle => true
  | _ => false

def Consumer.isIdle : Consumer T c → Bool
  | .idle => true
  | _ => false

theorem Producer.eq_idle {p : Producer T c} (h : p.isIdle = true) : p = .idle := by
  cases p with
  | idle => rfl
  | spaceAvail | writeIndex | storeItem | storeSignal | inc => cases h

theorem Consumer.eq_idle {p : Consumer T c} (h : p.isIdle = true) : p = .idle := by
  cases p with
  | idle => rfl
  | size | isInvalid | sizeAgain | readIndex | readSignal | readItem | inc => cases h

end

/-! ## A kernel and the queues that feed it -/

variable {ι T : Type} {c : ι → Nat}

/-- Where the thread of the kernel stands. `data` and `size` are `kernelHasInputData`, between two
ports and inside the `size()` of one; `rest` are the ports it has not asked yet, and `again` tells the
second call in a `kernelRun` from the first. `ports` is `kernelHasNoInputPorts`. -/
inductive KernelPc (ι : Type) (c : ι → Nat) where
  | loop
  | data (again : Bool) (rest : List ι)
  | size (again : Bool) (q : ι) (rest : List ι) (pc : SizePc (c q))
  | running
  | ports (rest : List ι)
  | closing
  | ended

/-- The input queues, each with its producer, and the thread of the kernel. -/
structure Fed (T : Type) (c : ι → Nat) where
  queue : ∀ q, Spsc T (c q)
  pc : KernelPc ι c := .loop
  finished : Bool := false

namespace Fed

/-- A producer calls `push`, goes on with its push, or invalidates its queue; the kernel's thread goes
on; in its `run()` the kernel calls `pop`, goes on with its pop, or returns. -/
inductive Act (ι T : Type) where
  | push (q : ι) (v : T) (signal : RaftSignal)
  | producer (q : ι)
  | invalidate (q : ι)
  | kernel
  | pop (q : ι)
  | consumer (q : ι)
  | returns

def init [∀ q, NeZero (c q)] (uninit : ∀ q, Fin (c q) → T) : Fed T c :=
  { queue := fun q => Spsc.init (uninit q) }

/-- What `kernelRun` goes on with once `kernelHasInputData` has returned. -/
def answer (inputs : List ι) (again : Bool) : Bool → KernelPc ι c
  | true => if again then .loop else .running
  | false => if again then .closing else .ports inputs

/-- The call of `kernelHasInputData`. -/
def hasInputData (inputs : List ι) (again : Bool) : KernelPc ι c :=
  if inputs.isEmpty then answer inputs again true else .data again inputs

/-- The next load of the kernel's thread, outside `run()`. -/
def kernel (inputs : List ι) (s : Fed T c) : Option (Fed T c) :=
  match s.pc with
  | .running | .ended => none
  | .loop => some { s with pc := if s.finished then .ended else hasInputData inputs false }
  | .data again [] => some { s with pc := answer inputs again false }
  | .data again (q :: rest) => some { s with pc := .size again q rest .wrapWrite }
  | .size again q rest pc =>
      match pc.step (s.queue q).buffer with
      | .inl pc => some { s with pc := .size again q rest pc }
      | .inr n => some { s with pc := if 0 < n then answer inputs again true else .data again rest }
  | .ports [] => some { s with pc := hasInputData inputs true }
  | .ports (q :: rest) =>
      some { s with pc := if (s.queue q).buffer.isValid then .loop else .ports rest }
  | .closing => some { s with pc := .loop, finished := true }

variable [DecidableEq ι]

/-- One step on one queue. -/
def onQueue (s : Fed T c) (q : ι) (act : Spsc.Act T) : Option (Fed T c) :=
  ((s.queue q).step act).map fun x => { s with queue := Function.update s.queue q x }

/-- No pop is under way. -/
def quiet (inputs : List ι) (s : Fed T c) : Bool := inputs.all fun q => (s.queue q).consumer.isIdle

def isRunning (s : Fed T c) : Bool :=
  match s.pc with
  | .running => true
  | _ => false

/-- A producer pushes one item after the other, and invalidates its queue after its last push. -/
def step (inputs : List ι) (s : Fed T c) : Act ι T → Option (Fed T c)
  | .push q v signal => if (s.queue q).buffer.isValid then s.onQueue q (.push v signal) else none
  | .producer q => s.onQueue q .producer
  | .invalidate q => if (s.queue q).producer.isIdle then s.onQueue q .invalidate else none
  | .kernel => s.kernel inputs
  | .pop q => if s.isRunning ∧ q ∈ inputs ∧ s.quiet inputs then s.onQueue q .pop else none
  | .consumer q => if s.isRunning ∧ q ∈ inputs then s.onQueue q .consumer else none
  | .returns => if s.isRunning ∧ s.quiet inputs then some { s with pc := .ports inputs } else none

/-! ## What the loop knows -/

omit [DecidableEq ι] in
/-- Invalid and empty. -/
def Drained (s : Fed T c) (q : ι) : Prop :=
  (s.queue q).buffer.isValid = false ∧ (s.queue q).popped = (s.queue q).pushed

/-- What the looks of a `kernelRun` have established so far. -/
def Knows (inputs : List ι) (s : Fed T c) : KernelPc ι c → Prop
  | .data again rest => rest ⊆ inputs ∧ (again = true → ∀ q ∈ inputs,
      (s.queue q).buffer.isValid = false ∧ (q ∈ rest ∨ s.Drained q))
  | .size again q rest pc => q ∈ inputs ∧ rest ⊆ inputs ∧ (again = true →
      (∀ q' ∈ inputs, (s.queue q').buffer.isValid = false ∧ (q' ∈ q :: rest ∨ s.Drained q')) ∧
      pc.Exact (s.queue q).buffer)
  | .ports rest => ∀ q ∈ inputs, q ∈ rest ∨ (s.queue q).buffer.isValid = false
  | .closing => ∀ q ∈ inputs, s.Drained q
  | .loop | .running | .ended => True

/-- The queues by themselves, and what the loop knows of them. -/
structure Inv [∀ q, NeZero (c q)] (inputs : List ι) (s : Fed T c) : Prop where
  queue : ∀ q, ∃ R, (s.queue q).Inv R
  closed : ∀ q, (s.queue q).buffer.isValid = false → (s.queue q).producer = .idle
  quiet : s.isRunning = false → ∀ q ∈ inputs, (s.queue q).consumer = .idle
  knows : s.Knows inputs s.pc
  finished : s.finished = true → (s.pc = .loop ∨ s.pc = .ended) ∧ ∀ q ∈ inputs, s.Drained q

namespace Inv

variable [∀ q, NeZero (c q)] {inputs : List ι} {s t : Fed T c}

omit [DecidableEq ι] in
theorem init (uninit : ∀ q, Fin (c q) → T) : Inv inputs (Fed.init uninit) where
  queue q := ⟨0, Spsc.Inv.init (uninit q)⟩
  closed _ h := nomatch h
  quiet _ _ _ := rfl
  knows := trivial
  finished h := nomatch h

/-! ### A producer's step -/

omit [DecidableEq ι] [∀ q, NeZero (c q)] in
/-- What the loop knows speaks of closed queues only, so it is not touched while those are not. -/
theorem knows_mono {pc : KernelPc ι c} (h : s.Knows inputs pc)
    (hsame : ∀ q, (s.queue q).buffer.isValid = false → t.queue q = s.queue q) :
    t.Knows inputs pc := by
  have hdrained (q : ι) (hq : s.Drained q) : t.Drained q := by
    unfold Drained
    rw [hsame q hq.1]
    exact hq
  have hvalid (q : ι) (hq : (s.queue q).buffer.isValid = false) :
      (t.queue q).buffer.isValid = false := by
    rw [hsame q hq]
    exact hq
  cases pc with
  | data again rest =>
      refine ⟨h.1, fun ha q hq => ?_⟩
      obtain ⟨hv, hd⟩ := h.2 ha q hq
      exact ⟨hvalid q hv, hd.imp_right (hdrained q)⟩
  | size again q rest pc =>
      refine ⟨h.1, h.2.1, fun ha => ?_⟩
      obtain ⟨hall, hexact⟩ := h.2.2 ha
      refine ⟨fun q' hq' => ?_, ?_⟩
      · obtain ⟨hv, hd⟩ := hall q' hq'
        exact ⟨hvalid q' hv, hd.imp_right (hdrained q')⟩
      · rw [hsame q (hall q h.1).1]
        exact hexact
  | ports rest => exact fun q hq => (h q hq).imp_right (hvalid q)
  | closing => exact fun q hq => hdrained q (h q hq)
  | loop | running | ended => trivial

/-- A step on one queue that keeps the consumer, and that does nothing to a closed queue. -/
theorem feed (h : Inv inputs s) {q : ι} {act : Spsc.Act T} {x : Spsc T (c q)}
    (hx : (s.queue q).step act = some x) (hcons : x.consumer = (s.queue q).consumer)
    (hsame : (s.queue q).buffer.isValid = false → x = s.queue q)
    (hclosed : x.buffer.isValid = false → x.producer = .idle) :
    Inv inputs { s with queue := Function.update s.queue q x } := by
  have hframe (q' : ι) (hq' : (s.queue q').buffer.isValid = false) :
      Function.update s.queue q x q' = s.queue q' := by
    by_cases heq : q' = q
    · subst heq
      rw [Function.update_self, hsame hq']
    · exact Function.update_of_ne heq x s.queue
  refine ⟨fun q' => ?_, fun q' => ?_, fun hrun q' hq' => ?_, knows_mono h.knows hframe, fun hf => ?_⟩
  · by_cases heq : q' = q
    · subst heq
      obtain ⟨R, hR⟩ := h.queue q'
      simpa only [Function.update_self] using hR.step hx
    · simpa only [Function.update_of_ne heq] using h.queue q'
  · by_cases heq : q' = q
    · subst heq
      simpa only [Function.update_self] using hclosed
    · simpa only [Function.update_of_ne heq] using h.closed q'
  · by_cases heq : q' = q
    · subst heq
      simp only [Function.update_self]
      exact hcons.trans (h.quiet hrun q' hq')
    · simpa only [Function.update_of_ne heq] using h.quiet hrun q' hq'
  · obtain ⟨hpc, hd⟩ := h.finished hf
    refine ⟨hpc, fun q' hq' => ?_⟩
    obtain ⟨hv, hp⟩ := hd q' hq'
    unfold Drained
    simp only [hframe q' hv]
    exact ⟨hv, hp⟩

/-! ### A step of `run()` -/

/-- In a `run()` nothing is known, and a pop leaves the producer and the validity mark alone. -/
theorem runs (h : Inv inputs s) (hrun : s.isRunning = true) {q : ι} {act : Spsc.Act T}
    {x : Spsc T (c q)} (hx : (s.queue q).step act = some x)
    (hprod : x.producer = (s.queue q).producer)
    (hvalid : x.buffer.isValid = (s.queue q).buffer.isValid) :
    Inv inputs { s with queue := Function.update s.queue q x } := by
  have hpc : s.pc = .running := by
    unfold isRunning at hrun
    split at hrun
    · next hpc => exact hpc
    · cases hrun
  refine ⟨fun q' => ?_, fun q' => ?_, fun hno => ?_, ?_, fun hf => ?_⟩
  · by_cases heq : q' = q
    · subst heq
      obtain ⟨R, hR⟩ := h.queue q'
      simpa only [Function.update_self] using hR.step hx
    · simpa only [Function.update_of_ne heq] using h.queue q'
  · by_cases heq : q' = q
    · subst heq
      simp only [Function.update_self, hprod, hvalid]
      exact h.closed q'
    · simpa only [Function.update_of_ne heq] using h.closed q'
  · have : s.isRunning = false := hno
    rw [hrun] at this
    cases this
  · show Knows inputs _ s.pc
    rw [hpc]
    trivial
  · obtain ⟨hpc' | hpc', -⟩ := h.finished hf
    · rw [hpc] at hpc'
      cases hpc'
    · rw [hpc] at hpc'
      cases hpc'

/-! ### A step of the loop -/

omit [DecidableEq ι] in
/-- A step of the loop changes no queue. -/
theorem moves (h : Inv inputs s) {pc : KernelPc ι c} (hrun : s.isRunning = false)
    (hknows : s.Knows inputs pc) (hfin : s.finished = false) : Inv inputs { s with pc := pc } := by
  refine ⟨h.queue, h.closed, fun _ => h.quiet hrun, ?_, fun hf => ?_⟩
  · exact knows_mono (t := { s with pc := pc }) hknows fun q _ => rfl
  · have : s.finished = true := hf
    rw [hfin] at this
    cases this

omit [DecidableEq ι] [∀ q, NeZero (c q)] in
theorem knows_hasInputData (again : Bool)
    (hall : again = true → ∀ q ∈ inputs, (s.queue q).buffer.isValid = false) :
    s.Knows inputs (hasInputData inputs again) := by
  unfold hasInputData
  split
  · cases again <;> trivial
  · exact ⟨List.Subset.refl inputs, fun ha q hq => ⟨hall ha q hq, .inl hq⟩⟩

omit [DecidableEq ι] in
/-- The closed queue that `size` has looked at is empty if it says so. -/
theorem drained_of_size (h : Inv inputs s) {q : ι} (hq : q ∈ inputs) (hrun : s.isRunning = false)
    (hv : (s.queue q).buffer.isValid = false) {pc : SizePc (c q)}
    (hexact : pc.Exact (s.queue q).buffer) :
    match pc.step (s.queue q).buffer with
    | .inl pc' => pc'.Exact (s.queue q).buffer
    | .inr n => n = 0 → s.Drained q := by
  obtain ⟨R, hR⟩ := h.queue q
  have hw := hR.write
  have hr := hR.read
  have hpopped := hR.popped
  rw [h.closed q hv] at hw
  rw [h.quiet hrun q hq] at hr hpopped
  have hstep := SizePc.exact_step hw hr hR.le hR.full hexact
  split
  · next pc' hpc =>
      rw [hpc] at hstep
      exact hstep
  · next n hpc =>
      rw [hpc] at hstep
      intro hn
      have hle : (s.queue q).pushed.length ≤ R := by omega
      exact ⟨hv, hpopped.trans (List.take_of_length_le hle)⟩

omit [DecidableEq ι] in
/-- A look at the next queue settles it, and leaves the rest. -/
theorem left_of_looked (P : ι → Prop) {q q' : ι} {rest : List ι} (h : q' ∈ q :: rest ∨ P q')
    (hq : P q) : q' ∈ rest ∨ P q' := by
  rcases h with hmem | hq'
  · rcases List.mem_cons.mp hmem with rfl | hmem
    · exact Or.inr hq
    · exact Or.inl hmem
  · exact Or.inr hq'

omit [DecidableEq ι] in
theorem kernelStep (h : Inv inputs s) (hs : s.kernel inputs = some t) : Inv inputs t := by
  have hknows := h.knows
  -- the flag is set only by the last step of a `kernelRun`, and read right after it
  have hfin (hl : s.pc ≠ .loop) (he : s.pc ≠ .ended) : s.finished = false := by
    by_contra hf
    rcases (h.finished (by simpa using hf)).1 with hpc | hpc
    · exact hl hpc
    · exact he hpc
  unfold kernel at hs
  split at hs
  · cases hs
  · cases hs
  · next hpc =>
      -- the head of the loop
      cases hs
      have hrun : s.isRunning = false := by simp [isRunning, hpc]
      by_cases hf : s.finished = true
      · rw [if_pos hf]
        exact ⟨h.queue, h.closed, fun _ => h.quiet hrun, trivial,
          fun _ => ⟨.inr rfl, (h.finished hf).2⟩⟩
      · rw [if_neg hf]
        exact h.moves hrun (knows_hasInputData false nofun) (by simpa using hf)
  · next again hpc =>
      -- no queue had data; the second time they are all drained
      cases hs
      have hrun : s.isRunning = false := by simp [isRunning, hpc]
      rw [hpc] at hknows hfin
      refine h.moves hrun ?_ (hfin nofun nofun)
      cases again with
      | false => exact fun q hq => .inl hq
      | true => exact fun q hq => (hknows.2 rfl q hq).2.resolve_left (List.not_mem_nil)
  · next again q rest hpc =>
      -- the next queue is looked at
      cases hs
      have hrun : s.isRunning = false := by simp [isRunning, hpc]
      rw [hpc] at hknows hfin
      obtain ⟨hsub, hall⟩ := hknows
      refine h.moves hrun ⟨?_, ?_, ?_⟩ (hfin nofun nofun)
      · exact hsub (List.mem_cons_self ..)
      · exact fun q' hq' => hsub (List.mem_cons_of_mem q hq')
      · exact fun ha => ⟨hall ha, trivial⟩
  · next again q rest pc hpc =>
      -- `size` of a queue; an exact answer of zero drains it
      have hrun : s.isRunning = false := by simp [isRunning, hpc]
      rw [hpc] at hknows hfin
      obtain ⟨hq, hsub, hall⟩ := hknows
      split at hs
      · next pc' hstep =>
          cases hs
          refine h.moves hrun ⟨hq, hsub, fun ha => ?_⟩ (hfin nofun nofun)
          obtain ⟨hqs, hexact⟩ := hall ha
          have := h.drained_of_size hq hrun (hqs q hq).1 hexact
          rw [hstep] at this
          exact ⟨hqs, this⟩
      · next n hstep =>
          cases hs
          refine h.moves hrun ?_ (hfin nofun nofun)
          by_cases hn : 0 < n
          · rw [if_pos hn]
            cases again <;> trivial
          · rw [if_neg hn]
            refine ⟨hsub, fun ha q' hq' => ?_⟩
            obtain ⟨hqs, hexact⟩ := hall ha
            have hd := h.drained_of_size hq hrun (hqs q hq).1 hexact
            rw [hstep] at hd
            exact ⟨(hqs q' hq').1, left_of_looked s.Drained (hqs q' hq').2 (hd (by omega))⟩
  · next hpc =>
      -- every port is closed, so `hasInputData` is asked again
      cases hs
      have hrun : s.isRunning = false := by simp [isRunning, hpc]
      rw [hpc] at hknows hfin
      refine h.moves hrun ?_ (hfin nofun nofun)
      exact knows_hasInputData true fun _ q hq => (hknows q hq).resolve_left (List.not_mem_nil)
  · next q rest hpc =>
      -- the next port is checked
      cases hs
      have hrun : s.isRunning = false := by simp [isRunning, hpc]
      rw [hpc] at hknows hfin
      refine h.moves hrun ?_ (hfin nofun nofun)
      split
      · trivial
      · next hv =>
          intro q' hq'
          exact left_of_looked (fun q => (s.queue q).buffer.isValid = false) (hknows q' hq')
            (by simpa using hv)
  · next hpc =>
      -- the last step sets the flag
      cases hs
      have hrun : s.isRunning = false := by simp [isRunning, hpc]
      rw [hpc] at hknows
      exact ⟨h.queue, h.closed, fun _ => h.quiet hrun, trivial, fun _ => ⟨.inl rfl, hknows⟩⟩

/-! ### Any step -/

/-- The producer leaves the consumer and the validity mark alone. -/
theorem produce_frame {n : Nat} {x x' : Spsc T n} (hx : x.produce = some x') :
    x'.consumer = x.consumer ∧ x'.buffer.isValid = x.buffer.isValid := by
  unfold Spsc.produce at hx
  repeat' split at hx
  all_goals cases hx <;> exact ⟨rfl, rfl⟩

theorem consume_valid {n : Nat} {x x' : Spsc T n} (hx : x.consume = some x') :
    x'.buffer.isValid = x.buffer.isValid := by
  unfold Spsc.consume at hx
  repeat' split at hx
  all_goals cases hx <;> rfl

/-- **One step of anybody.** -/
theorem step {act : Act ι T} (h : Inv inputs s) (hs : s.step inputs act = some t) :
    Inv inputs t := by
  cases act with
  | push q v signal =>
      simp only [Fed.step] at hs
      split at hs
      · next hv =>
          obtain ⟨x, hx, rfl⟩ := Option.map_eq_some_iff.mp hs
          have hstep := hx
          simp only [Spsc.step] at hstep
          split at hstep
          · cases hstep
            refine h.feed hx rfl (fun hv' => ?_) (fun hv' => ?_)
            · rw [hv] at hv'
              cases hv'
            · have : (s.queue q).buffer.isValid = false := hv'
              rw [hv] at this
              cases this
          · cases hstep
      · cases hs
  | producer q =>
      obtain ⟨x, hx, rfl⟩ := Option.map_eq_some_iff.mp hs
      obtain ⟨hcons, hvalid⟩ := produce_frame hx
      -- the producer of a closed queue does not go on
      have hopen : (s.queue q).buffer.isValid = true := by
        by_contra hv
        have hidle := h.closed q (by simpa using hv)
        simp [Spsc.step, Spsc.produce, hidle] at hx
      refine h.feed hx hcons (fun hv => ?_) (fun hv => ?_)
      · rw [hopen] at hv
        cases hv
      · rw [hvalid, hopen] at hv
        cases hv
  | invalidate q =>
      simp only [Fed.step] at hs
      split at hs
      · next hidle =>
          obtain ⟨x, hx, rfl⟩ := Option.map_eq_some_iff.mp hs
          have hstep := hx
          cases hstep
          refine h.feed hx rfl (fun hv => ?_) (fun _ => Producer.eq_idle hidle)
          rw [← hv]
      · cases hs
  | kernel => exact h.kernelStep hs
  | pop q =>
      simp only [Fed.step] at hs
      split at hs
      · next hguard =>
          obtain ⟨x, hx, rfl⟩ := Option.map_eq_some_iff.mp hs
          have hstep := hx
          simp only [Spsc.step] at hstep
          split at hstep
          · cases hstep
            exact h.runs hguard.1 hx rfl rfl
          · cases hstep
      · cases hs
  | consumer q =>
      simp only [Fed.step] at hs
      split at hs
      · next hguard =>
          obtain ⟨x, hx, rfl⟩ := Option.map_eq_some_iff.mp hs
          exact h.runs hguard.1 hx (Spsc.consume_frame hx).2 (consume_valid hx)
      · cases hs
  | returns =>
      simp only [Fed.step] at hs
      split at hs
      · next hguard =>
          cases hs
          obtain ⟨hrun, hquiet⟩ := hguard
          refine ⟨h.queue, h.closed, fun _ q hq => ?_, fun q hq => .inl hq, fun hf => ?_⟩
          · exact Consumer.eq_idle (List.all_eq_true.mp hquiet q hq)
          · rcases (h.finished hf).1 with hpc | hpc
            · simp [isRunning, hpc] at hrun
            · simp [isRunning, hpc] at hrun
      · cases hs

end Inv

/-! ## Whole runs -/

section

variable [∀ q, NeZero (c q)] {inputs : List ι} {s t : Fed T c}

theorem inv_of_run {acts : List (Act ι T)} (hi : Inv inputs s)
    (h : Run (ofFun (step inputs)) s acts t) : Inv inputs t :=
  h.invariant (fun _ _ _ hi hs => hi.step hs) hi

omit [∀ q, NeZero (c q)] in
theorem onQueue_of_ne {q q' : ι} {act : Spsc.Act T} (hs : s.onQueue q' act = some t) (hne : q ≠ q') :
    t.queue q = s.queue q := by
  obtain ⟨x, -, rfl⟩ := Option.map_eq_some_iff.mp hs
  exact Function.update_of_ne hne x s.queue

/-- Once `finished` is set it stays set, and the queues of the kernel stay as they are. -/
theorem finished_step {act : Act ι T} (hi : Inv inputs s) (hf : s.finished = true)
    (hs : s.step inputs act = some t) :
    t.finished = true ∧ ∀ q ∈ inputs, t.queue q = s.queue q := by
  obtain ⟨hpc, hd⟩ := hi.finished hf
  have hrun : s.isRunning = false := by
    rcases hpc with hpc | hpc
    · simp [isRunning, hpc]
    · simp [isRunning, hpc]
  cases act with
  | push q' v signal =>
      simp only [step] at hs
      split at hs
      · next hv =>
          have hkeep : t.finished = s.finished := by
            obtain ⟨x, -, rfl⟩ := Option.map_eq_some_iff.mp hs
            rfl
          refine ⟨hkeep.trans hf, fun q hq => onQueue_of_ne hs ?_⟩
          rintro rfl
          rw [(hd q hq).1] at hv
          cases hv
      · cases hs
  | producer q' =>
      have hkeep : t.finished = s.finished := by
        obtain ⟨x, -, rfl⟩ := Option.map_eq_some_iff.mp hs
        rfl
      refine ⟨hkeep.trans hf, fun q hq => onQueue_of_ne hs ?_⟩
      rintro rfl
      obtain ⟨x, hx, -⟩ := Option.map_eq_some_iff.mp hs
      simp [Spsc.step, Spsc.produce, hi.closed q (hd q hq).1] at hx
  | invalidate q' =>
      simp only [step] at hs
      split at hs
      · obtain ⟨x, hx, rfl⟩ := Option.map_eq_some_iff.mp hs
        refine ⟨hf, fun q hq => ?_⟩
        by_cases heq : q = q'
        · subst heq
          cases hx
          show Function.update s.queue q _ q = s.queue q
          rw [Function.update_self, ← (hd q hq).1]
        · exact Function.update_of_ne heq x s.queue
      · cases hs
  | kernel =>
      simp only [step] at hs
      unfold kernel at hs
      rcases hpc with hpc | hpc
      · rw [hpc] at hs
        cases hs
        exact ⟨hf, fun _ _ => rfl⟩
      · rw [hpc] at hs
        cases hs
  | pop q' | consumer q' | returns => simp [step, hrun] at hs

/-- **No early termination.** When `kernelRun` has set `finished`, every input queue of the kernel is
invalid and empty, every item that was pushed on it has been popped, and nothing will be added. -/
theorem no_early_termination {uninit : ∀ q, Fin (c q) → T} {acts : List (Act ι T)}
    (h : Run (ofFun (step inputs)) (init uninit) acts s) (hf : s.finished = true) (q : ι)
    (hq : q ∈ inputs) :
    (s.queue q).buffer.isValid = false ∧ (s.queue q).buffer.sizeOnce = some 0 ∧
      (s.queue q).popped = (s.queue q).pushed ∧ (s.queue q).producer = .idle ∧
      ∀ acts' t, Run (ofFun (step inputs)) s acts' t → t.queue q = s.queue q := by
  have hi : Inv inputs s := inv_of_run (.init uninit) h
  obtain ⟨hpc, hd⟩ := hi.finished hf
  obtain ⟨hv, hpopped⟩ := hd q hq
  refine ⟨hv, ?_, hpopped, hi.closed q hv, fun acts' t hrun => ?_⟩
  · obtain ⟨R, hR⟩ := hi.queue q
    have hw := hR.write
    have hr := hR.read
    have hR' := hR.popped
    have hquiet : s.isRunning = false := by
      rcases hpc with hpc | hpc
      · simp [isRunning, hpc]
      · simp [isRunning, hpc]
    rw [hi.closed q hv] at hw
    rw [hi.quiet hquiet q hq] at hr hR'
    have hlen : R = (s.queue q).pushed.length := by
      have := congrArg List.length (hpopped.symm.trans hR')
      rw [List.length_take] at this
      have hle := hR.le
      simp only [Consumer.ahead, Nat.add_zero] at this
      omega
    refine Data.sizeOnce_eq ?_ (Nat.zero_le _)
    rw [hw.pos_eq, hr.pos_eq, hlen, Nat.add_zero]
  · have hall : Inv inputs t ∧ t.finished = true ∧ t.queue q = s.queue q :=
      hrun.invariant (I := fun u => Inv inputs u ∧ u.finished = true ∧ u.queue q = s.queue q)
        (fun _ _ _ hu hs => by
          obtain ⟨hf', hkeep⟩ := finished_step hu.1 hu.2.1 hs
          exact ⟨hu.1.step hs, hf', (hkeep q hq).trans hu.2.2⟩) ⟨hi, hf, rfl⟩
    exact hall.2.2

end

/-- One queue with one place: the item is popped, the queue is closed during the `run()`, and the next
looks end the kernel. -/
theorem no_early_termination_one_item : ∃ s : @Fed Unit Nat fun _ => 1, s.finished = true ∧
    (s.queue ()).popped = (s.queue ()).pushed := by
  obtain ⟨s, hrun, hf⟩ : ∃ s : @Fed Unit Nat fun _ => 1,
      Run (ofFun (step [()])) (init fun _ _ => 0)
        (.push () 7 RaftSignal.eof :: List.replicate 12 (.producer ()) ++
          List.replicate 6 .kernel ++ .pop () :: List.replicate 12 (.consumer ()) ++
          [.invalidate (), .returns] ++ List.replicate 9 .kernel) s ∧ s.finished = true :=
    ⟨_, exec_iff_run.mp rfl, rfl⟩
  exact ⟨s, hf, (no_early_termination hrun hf () (List.mem_singleton_self ())).2.2.1⟩

end Fed

end RaftLib.Threads
