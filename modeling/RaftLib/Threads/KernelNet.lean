/-
# `RaftLib.Threads.KernelNet` -- what the kernels of a graph compute

The threads of `simple_schedule`, down to the single loads of their queues, refine a network of
processes with channels of bounded size (`Logic.Kahn`). A process is a kernel: it waits for input as its
`sched_behav` says, it carries out a `run()`, or it closes its outputs for good. A channel is the record
of a queue. The looks of `kernelRun` at one port after the other, the torn reads of index and wrap
counter, and `start` with its passes are not seen any more (`State.abs`; the steps are in
`Threads.KernelSteps`).

What makes this true is that the looks are one-sided but stable: nobody but the kernel itself takes an
item away that it has seen, and nothing is added to a queue that it has seen closed (`Knows`).
-/
import RaftLib.Logic.Kahn
import RaftLib.Threads.SimpleSchedule

namespace RaftLib.Threads

open RaftLib.Queue
open RaftLib.Logic
open RaftLib.Logic.Kahn
open RaftLib.Logic.Steps

/-! ## One queue and its record -/

section

variable {T : Type} {c : Nat}

/-- Has the item of the pop been read? -/
def Consumer.hasRead : Consumer T c → Bool
  | .inc _ => true
  | _ => false

namespace Spsc

variable {x x' : Spsc T c} {R : Nat}

/-- The record of a queue. -/
def chan (x : Spsc T c) : Chan (T × RaftSignal) where
  sent := x.pushed
  got := x.popped.length
  closed := !x.buffer.isValid

theorem Inv.popped_length [NeZero c] (h : Inv x R) : x.popped.length = R + x.consumer.ahead := by
  rw [h.popped, List.length_take, Nat.min_eq_left h.ahead_le]

theorem produce_popped (hx : x.produce = some x') : x'.popped = x.popped := by
  unfold produce at hx
  repeat' split at hx
  all_goals cases hx <;> rfl

/-- A step of a push leaves its item pending, or publishes it into a place that is free. -/
theorem Inv.produce_sent [NeZero c] (h : Inv x R) (hx : x.produce = some x') :
    (x'.pushed = x.pushed ∧ x'.producer.pending = x.producer.pending) ∨
      ∃ item, x.producer.pending = [item] ∧ x'.producer.pending = [] ∧
        x'.pushed = x.pushed ++ [item] ∧ x.chan.held < c := by
  have hsent := pushed_step (show x.step .producer = some x' from hx)
  simp only [calls, List.append_nil] at hsent
  by_cases hsame : x'.pushed = x.pushed
  · rw [hsame, List.append_cancel_left_eq] at hsent
    exact .inl ⟨hsame, hsent⟩
  · right
    have hknow := h.producer
    have hlen := h.popped_length
    unfold Spsc.produce at hx
    split at hx
    · cases hx
    · next hp =>
        exfalso
        repeat' split at hx
        all_goals cases hx; exact hsame rfl
    · cases hx; exact absurd rfl hsame
    · cases hx; exact absurd rfl hsame
    · cases hx; exact absurd rfl hsame
    · next item pc hp =>
        cases hx
        cases pc with
        | storeA a =>
            rw [hp] at hknow
            refine ⟨item, by rw [hp]; rfl, rfl, rfl, ?_⟩
            show x.pushed.length - x.popped.length < c
            have hroom : x.pushed.length < R + c := hknow.1
            have hle := h.le
            omega
        | loadA | testA | loadWrap | storeWrap _ => exact absurd rfl hsame

/-- A step of a pop takes no item, or it reads the one that is next. -/
theorem Inv.consume_got [NeZero c] (h : Inv x R) (hx : x.consume = some x') :
    (x'.popped = x.popped ∧ ∀ item, x.itemRead item = item) ∨
      ∃ v, x'.popped = x.popped ++ [v] ∧ x.consumer.hasRead = false ∧
        x.pushed[x.popped.length]? = some v ∧ ∀ item, x.itemRead item = some v := by
  have hknow := h.consumer
  have hlen := h.popped_length
  unfold Spsc.consume at hx
  split at hx
  · cases hx
  · next hp =>
      left
      repeat' split at hx
      all_goals cases hx; exact ⟨rfl, fun _ => by rw [itemRead, hp]⟩
  · next hp =>
      left
      repeat' split at hx
      all_goals cases hx; exact ⟨rfl, fun _ => by rw [itemRead, hp]⟩
  · next hp =>
      left
      repeat' split at hx
      all_goals cases hx; exact ⟨rfl, fun _ => by rw [itemRead, hp]⟩
  · next hp => cases hx; exact .inl ⟨rfl, fun _ => by rw [itemRead, hp]⟩
  · next hp => cases hx; exact .inl ⟨rfl, fun _ => by rw [itemRead, hp]⟩
  · next i signal hp =>
      cases hx
      rw [hp] at hknow hlen
      obtain ⟨hlt, hi, hsig⟩ := hknow
      refine .inr ⟨(x.buffer.store i, signal), rfl, by rw [hp]; rfl, ?_, fun _ => ?_⟩
      · rw [hlen]
        show x.pushed[R]? = _
        rw [h.head hlt, hsig, hi]
        rfl
      · rw [itemRead, hp]
  · next hp => cases hx; exact .inl ⟨rfl, fun _ => by rw [itemRead, hp]⟩

/-- As long as a pop has not returned, it has an item if it has read one. -/
theorem consume_hasRead (hx : x.consume = some x') {item : Option (T × RaftSignal)}
    (hitem : item.isSome = x.consumer.hasRead) :
    (x.itemRead item).isSome = x'.consumer.hasRead ∨ x'.consumer = .idle := by
  unfold consume at hx
  unfold itemRead
  split at hx
  · cases hx
  · next hp =>
      rw [hp] at hitem ⊢
      left
      repeat' split at hx
      all_goals cases hx; exact hitem
  · next hp =>
      rw [hp] at hitem ⊢
      left
      repeat' split at hx
      all_goals cases hx; exact hitem
  · next hp =>
      rw [hp] at hitem ⊢
      repeat' split at hx
      · cases hx; exact .inl hitem
      · cases hx; exact .inr rfl
      · cases hx; exact .inl hitem
  · next hp => rw [hp] at hitem ⊢; cases hx; exact .inl hitem
  · next hp => rw [hp] at hitem ⊢; cases hx; exact .inl hitem
  · next hp => rw [hp]; cases hx; exact .inl rfl
  · next pc hp =>
      rw [hp] at hitem ⊢
      cases hx
      show item.isSome = (((pc.step x.buffer.readPt).2.map Consumer.inc).getD .idle).hasRead ∨
        ((pc.step x.buffer.readPt).2.map Consumer.inc).getD .idle = .idle
      cases (pc.step x.buffer.readPt).2 with
      | none => exact .inr rfl
      | some pc' => exact .inl hitem

/-- The size of a queue that nobody pushes on, while its consumer is between two pops. -/
theorem Inv.size_exact [NeZero c] (h : Inv x R) (hprod : x.producer.incPc = none)
    (hcons : x.consumer.incPc = none) {pc : SizePc c} (hpc : pc.Exact x.buffer) :
    match pc.step x.buffer with
    | .inl pc' => pc'.Exact x.buffer
    | .inr n => n = x.pushed.length - x.popped.length := by
  have hread := h.read
  have hwrite := h.write
  rw [hcons] at hread
  rw [hprod] at hwrite
  have hahead : x.consumer.ahead = 0 := by
    cases hc : x.consumer with
    | inc pc =>
        rw [hc] at hcons
        cases hcons
    | _ => rfl
  have hlen := h.popped_length
  rw [hahead, Nat.add_zero] at hlen
  rw [hlen]
  exact SizePc.exact_step hwrite hread h.le h.full hpc

/-- Before it throws, `pop` looks at the size of a queue that is closed. -/
structure Sound [NeZero c] (x : Spsc T c) : Prop where
  inv : ∃ R, x.Inv R
  again : ∀ pc, x.consumer = .sizeAgain pc → x.buffer.isValid = false ∧ pc.Exact x.buffer

theorem Sound.consume [NeZero c] (h : x.Sound)
    (hidle : x.buffer.isValid = false → x.producer = .idle) (hx : x.consume = some x') :
    ∀ pc, x'.consumer = .sizeAgain pc → x'.buffer.isValid = false ∧ pc.Exact x'.buffer := by
  intro pc' hpc'
  unfold Spsc.consume at hx
  split at hx
  · cases hx
  · repeat' split at hx
    all_goals cases hx; cases hpc'
  · split at hx
    · cases hx; cases hpc'
    · next hv =>
        cases hx
        cases hpc'
        exact ⟨by simpa using hv, trivial⟩
  · next pc hp =>
      obtain ⟨hv, hexact⟩ := h.again pc hp
      obtain ⟨R, hR⟩ := h.inv
      have hstep := hR.size_exact (by rw [hidle hv]; rfl) (by rw [hp]; rfl) hexact
      split at hx
      · next pc'' heq =>
          rw [heq] at hstep
          cases hx
          cases hpc'
          exact ⟨hv, hstep⟩
      · split at hx
        · cases hx; cases hpc'
        · cases hx; cases hpc'
  · cases hx; cases hpc'
  · cases hx; cases hpc'
  · cases hx; cases hpc'
  · next pc hp =>
      cases hx
      cases hnext : (pc.step x.buffer.readPt).2 with
      | none =>
          simp only [hnext] at hpc'
          cases hpc'
      | some pc'' =>
          simp only [hnext] at hpc'
          cases hpc'

theorem Sound.step [NeZero c] {act : Act T} (h : x.Sound)
    (hidle : x.buffer.isValid = false → x.producer = .idle) (hx : x.step act = some x') :
    x'.Sound where
  inv := by
    obtain ⟨R, hR⟩ := h.inv
    exact hR.step hx
  again := by
    cases act with
    | push v signal =>
        simp only [Spsc.step] at hx
        split at hx
        · cases hx
          exact h.again
        · cases hx
    | producer =>
        intro pc hpc
        obtain ⟨hcons, hvalid⟩ := Fed.Inv.produce_frame hx
        rw [hcons] at hpc
        have hv := (h.again pc hpc).1
        simp [Spsc.step, Spsc.produce, hidle hv] at hx
    | pop =>
        simp only [Spsc.step] at hx
        split at hx
        · cases hx
          rintro _ ⟨⟩
        · cases hx
    | consumer => exact h.consume hidle hx
    | invalidate =>
        cases hx
        intro pc hpc
        refine ⟨rfl, ?_⟩
        have hexact := (h.again pc hpc).2
        cases pc <;> exact hexact

/-- A pop that has come back without an item has found its queue closed and empty. -/
theorem Sound.thrown [NeZero c] (h : x.Sound)
    (hidle : x.buffer.isValid = false → x.producer = .idle) (hx : x.consume = some x')
    (hread : x.consumer.hasRead = false) (hback : x'.consumer = .idle) :
    x.buffer.isValid = false ∧ ¬x.chan.HasData := by
  obtain ⟨R, hR⟩ := h.inv
  unfold Spsc.consume at hx
  split at hx
  · cases hx
  · repeat' split at hx
    all_goals cases hx; cases hback
  · split at hx
    · cases hx; cases hback
    · cases hx; cases hback
  · next pc hp =>
      obtain ⟨hv, hexact⟩ := h.again pc hp
      have hstep := hR.size_exact (by rw [hidle hv]; rfl) (by rw [hp]; rfl) hexact
      split at hx
      · cases hx; cases hback
      · next n heq =>
          rw [heq] at hstep
          split at hx
          · next hn =>
              refine ⟨hv, fun hdata => ?_⟩
              have hlt : x.popped.length < x.pushed.length := hdata
              have hn' : n = x.pushed.length - x.popped.length := hstep
              omega
          · cases hx; cases hback
  · cases hx; cases hback
  · cases hx; cases hback
  · cases hx; cases hback
  · next pc hp =>
      rw [hp] at hread
      cases hread

end Spsc

end

namespace SimpleSchedule

open PoolSchedule (Net SchedBehav)

variable {κ ι : Type} {T : ι → Type} {M : κ → Type} {c : ι → Nat} {N : Net κ ι}

/-! ## The network -/

/-- What a kernel is about: waiting for input, in a `run()`, closing its outputs, or at its end. -/
inductive Phase (ι : Type) (T : ι → Type) (M : Type) (input output : List ι) where
  | loop (m : M)
  | run (p : Prog ι T M input output)
  | close (rest : List (PortOf output)) (m : M)
  | stopped (m : M)

/-- The kernels as processes. -/
def Kernels.net (K : Kernels N T M) :
    Kahn.Net κ ι (fun q => T q × RaftSignal) fun k => Phase ι T (M k) (N.input k) (N.output k) where
  src := N.src
  dst := N.dst
  prog k
    | .loop m =>
        if (N.input k).isEmpty then .skip (.run (K.run k m))
        else .await (N.schedBehav k = .allPort) (N.input k) (.run (K.run k m))
          (.close (N.output k).attach m)
    | .run (.pop q next) => .recv q fun v => .run (next v)
    | .run (.push q item next) => .send q item (.run next)
    | .run (.returns .proceed m) => .skip (.loop m)
    | .run (.returns .stop m) => .skip (.close (N.output k).attach m)
    | .close (q :: rest) m => .close q (.close rest m)
    | .close [] m => .skip (.stopped m)
    | .stopped _ => .halt
  isLocal k s := by
    cases s with
    | loop m =>
        dsimp only
        split
        · trivial
        · exact fun q hq => (N.mem_input k q).mp hq
    | run p =>
        cases p with
        | pop q next => exact (N.mem_input k q).mp q.2
        | push q item next => exact (N.mem_output k q).mp q.2
        | returns status m => cases status <;> trivial
    | close rest m =>
        cases rest with
        | nil => trivial
        | cons q rest => exact (N.mem_output k q).mp q.2
    | stopped m => trivial

/-- In the middle of a push: its item is pending, or it has been published. -/
def Phase.push {M : Type} {input output : List ι} (q : PortOf output)
    (next : Prog ι T M input output) : List (T q × RaftSignal) → Phase ι T M input output
  | item :: _ => .run (.push q item next)
  | [] => .run next

/-- In the middle of a pop: its item is still to be received, or it has been read. -/
def Phase.pop {M : Type} {input output : List ι} (q : PortOf input)
    (next : T q × RaftSignal → Prog ι T M input output) :
    Option (T q × RaftSignal) → Phase ι T M input output
  | none => .run (.pop q next)
  | some v => .run (next v)

/-- What a kernel is about, by where its thread stands. Until the index has been stored, the item of
a push is still to be sent; as soon as both halves of a slot have been read, its item is received. -/
def phase (queue : ∀ q, Spsc (T q) (c q)) (finished : Bool) {M : Type} (m : M)
    {input output : List ι} : Pc ι T M c input output → Phase ι T M input output
  | .running p => .run p
  | .pushing q next => .push q next (queue q).producer.pending
  | .popping q next item => .pop q next item
  | .failed p => .run p
  | .closing _ rest => if finished then .stopped m else .close rest m
  | .unborn | .loop | .data _ _ | .size _ _ _ _ | .ports _ | .ended =>
      if finished then .stopped m else .loop m

/-- What the threads and queues are about. -/
def State.abs (s : State N T M c) :
    Kahn.State κ ι (fun q => T q × RaftSignal) fun k => Phase ι T (M k) (N.input k) (N.output k) where
  proc k := phase s.queue (s.finished k) (s.members k) (s.pc k)
  chan q := (s.queue q).chan

/-! ## What a thread knows -/

namespace Pc

variable {M : Type} {input output : List ι}

/-- The queue on which a push is under way. -/
def pushes : Pc ι T M c input output → Option ι
  | .pushing q _ => some q
  | _ => none

/-- The queue on which a pop is under way. -/
def pops : Pc ι T M c input output → Option ι
  | .popping q _ _ => some q
  | _ => none

/-- Only a kernel that is not finished stands here. -/
def early : Pc ι T M c input output → Bool
  | .unborn | .data false _ | .size false _ _ _ | .running _ | .pushing _ _ | .popping _ _ _
  | .closing false _ | .failed _ => true
  | _ => false

def isClosing : Pc ι T M c input output → Bool
  | .closing _ _ => true
  | _ => false

end Pc

/-- What the answers of the ports before `rest` were. -/
def Seen (queue : ∀ q, Spsc (T q) (c q)) (behav : SchedBehav) {input : List ι} (again : Bool)
    (rest : List (PortOf input)) : Prop :=
  match behav with
  | .anyPort => again = true → ∀ q : PortOf input, q ∈ rest ∨ ¬(queue q).chan.HasData
  | .allPort => ∀ q : PortOf input, q ∈ rest ∨ (queue q).chan.HasData

/-- All ports are invalid. -/
def Closed (queue : ∀ q, Spsc (T q) (c q)) (ports : List ι) : Prop :=
  ∀ q : PortOf ports, (queue q).buffer.isValid = false

/-- What the looks of a thread have established so far. `data` and `size` are for kernels that have input
ports. -/
def Knows (queue : ∀ q, Spsc (T q) (c q)) (behav : SchedBehav) {M : Type} {input output : List ι} :
    Pc ι T M c input output → Prop
  | .data again rest =>
      input.isEmpty = false ∧ (again = true → Closed queue input) ∧ Seen queue behav again rest
  | .size again q rest pc =>
      (again = true → Closed queue input ∧ pc.Exact (queue q).buffer) ∧
      pc.ConsumerSees (queue q).pushed.length (queue q).popped.length ∧
      Seen queue behav again (q :: rest)
  | .ports rest => ∀ q : PortOf input, q ∈ rest ∨ (queue q).buffer.isValid = false
  | .closing _ rest => ∀ q : PortOf output, q ∈ rest ∨ (queue q).buffer.isValid = false
  | .popping q _ item => item.isSome = (queue q).consumer.hasRead
  | .failed p =>
      ∃ q next, p = .pop q next ∧ (queue q).buffer.isValid = false ∧ ¬(queue q).chan.HasData
  | .unborn | .loop | .running _ | .pushing _ _ | .ended => True

/-- What holds of one kernel and its ports. -/
structure Own (s : State N T M c) (k : κ) : Prop where
  producer : ∀ q, N.src q = k → (s.pc k).pushes ≠ some q → (s.queue q).producer = .idle
  consumer : ∀ q, N.dst q = k → (s.pc k).pops ≠ some q → (s.queue q).consumer = .idle
  past : ∀ q, N.src q = k → (s.queue q).buffer.isValid = false →
    s.finished k = true ∨ (s.pc k).isClosing = true
  closed : s.finished k = true → ∀ q, N.src q = k → (s.queue q).buffer.isValid = false
  knows : Knows s.queue (N.schedBehav k) (s.pc k)
  early : (s.pc k).early = true → s.finished k = false

/-- The queues by themselves, each kernel with its ports, and `start`, which spawns every thread once. -/
structure Inv [∀ q, NeZero (c q)] (s : State N T M c) : Prop where
  queue : ∀ q, (s.queue q).Sound
  own : ∀ k, Own s k
  unborn : ∀ rest, s.start = .spawning rest → rest.Nodup ∧ ∀ k ∈ rest, s.pc k = .unborn

/-- What the others may do, as `k` sees it. -/
structure Frame (s t : State N T M c) (k : κ) : Prop where
  pc : t.pc k = s.pc k
  finished : t.finished k = s.finished k
  members : t.members k = s.members k
  output : ∀ q, N.src q = k → (t.queue q).producer = (s.queue q).producer ∧
    (t.queue q).buffer.isValid = (s.queue q).buffer.isValid
  input : ∀ q, N.dst q = k → (t.queue q).consumer = (s.queue q).consumer ∧
    (t.queue q).popped = (s.queue q).popped ∧
    (s.queue q).pushed.length ≤ (t.queue q).pushed.length ∧
    ((s.queue q).buffer.isValid = false → t.queue q = s.queue q)

namespace Frame

variable {s t : State N T M c} {k : κ}

theorem seen (h : Frame s t k) {again : Bool} {rest : List (PortOf (N.input k))}
    (hclosed : again = true → Closed s.queue (N.input k))
    (hseen : Seen s.queue (N.schedBehav k) again rest) :
    Seen t.queue (N.schedBehav k) again rest := by
  unfold Seen at hseen ⊢
  split
  · next hb =>
      rw [hb] at hseen
      intro ha q
      rw [(h.input q ((N.mem_input k q).mp q.2)).2.2.2 (hclosed ha q)]
      exact hseen ha q
  · next hb =>
      rw [hb] at hseen
      intro q
      refine (hseen q).imp_right fun hdata => ?_
      obtain ⟨-, hpopped, hlen, -⟩ := h.input q ((N.mem_input k q).mp q.2)
      show (t.queue q).popped.length < (t.queue q).pushed.length
      rw [hpopped]
      exact lt_of_lt_of_le hdata hlen

/-- What a thread knows stays true, whatever the others do. -/
theorem knows (h : Frame s t k) (hknows : Knows s.queue (N.schedBehav k) (s.pc k)) :
    Knows t.queue (N.schedBehav k) (s.pc k) := by
  have hin (q : PortOf (N.input k)) := h.input q ((N.mem_input k q).mp q.2)
  have hout (q : PortOf (N.output k)) := h.output q ((N.mem_output k q).mp q.2)
  have hsame (q : PortOf (N.input k)) (hq : (s.queue q).buffer.isValid = false) :
      (t.queue q).buffer.isValid = false := by
    rw [(hin q).2.2.2 hq]
    exact hq
  cases hpc : s.pc k with
  | data again rest =>
      rw [hpc] at hknows
      obtain ⟨hne, hclosed, hseen⟩ := hknows
      exact ⟨hne, fun ha q => hsame q (hclosed ha q), h.seen hclosed hseen⟩
  | size again q rest pc =>
      rw [hpc] at hknows
      obtain ⟨hexact, hsees, hseen⟩ := hknows
      refine ⟨fun ha => ⟨fun q => hsame q ((hexact ha).1 q), ?_⟩, ?_, ?_⟩
      · rw [(hin q).2.2.2 ((hexact ha).1 q)]
        exact (hexact ha).2
      · rw [(hin q).2.1]
        exact hsees.mono (hin q).2.2.1
      · exact h.seen (fun ha => (hexact ha).1) hseen
  | ports rest =>
      rw [hpc] at hknows
      exact fun q => (hknows q).imp_right (hsame q)
  | closing last rest =>
      rw [hpc] at hknows
      exact fun q => (hknows q).imp_right fun hq => (hout q).2.trans hq
  | popping q next item =>
      rw [hpc] at hknows
      show item.isSome = (t.queue q).consumer.hasRead
      rw [(hin q).1]
      exact hknows
  | failed p =>
      rw [hpc] at hknows
      obtain ⟨q, next, hp, hv, hno⟩ := hknows
      refine ⟨q, next, hp, hsame q hv, ?_⟩
      rwa [(hin q).2.2.2 hv]
  | unborn | loop | running _ | pushing _ _ | ended => trivial

/-- What holds of a kernel and its ports stays true, whatever the others do. -/
theorem own (h : Frame s t k) (ho : Own s k) : Own t k where
  producer q hq hp := by
    rw [h.pc] at hp
    exact (h.output q hq).1.trans (ho.producer q hq hp)
  consumer q hq hp := by
    rw [h.pc] at hp
    exact (h.input q hq).1.trans (ho.consumer q hq hp)
  past q hq hv := by
    rw [h.pc, h.finished]
    exact ho.past q hq ((h.output q hq).2.symm.trans hv)
  closed hf q hq := by
    rw [h.finished] at hf
    exact (h.output q hq).2.trans (ho.closed hf q hq)
  knows := by
    rw [h.pc]
    exact h.knows ho.knows
  early he := by
    rw [h.pc] at he
    rw [h.finished]
    exact ho.early he

/-- Nor do they change what the kernel is about. -/
theorem phase_eq (h : Frame s t k) :
    phase t.queue (t.finished k) (t.members k) (t.pc k) =
      phase s.queue (s.finished k) (s.members k) (s.pc k) := by
  rw [h.pc, h.finished, h.members]
  cases s.pc k with
  | pushing q next =>
      simp only [phase]
      rw [(h.output q ((N.mem_output k q).mp q.2)).1]
  | _ => rfl

end Frame

end SimpleSchedule

end RaftLib.Threads
