/-
# `RaftLib.Threads.SimpleSchedule` -- a whole graph of kernels under `simple_schedule`

`simple_schedule` (`simpleschedule.cpp`) gives every kernel a thread of its own, `simple_run`, which
calls `Schedule::kernelRun` (`schedule.cpp`) until that has set `finished`; `start` spawns the threads
and joins them, one pass over `thread_map` after the other. Here all of them run at once, together with
the queues between them: each queue is an `Spsc`, so that pushes, pops and the looks of `kernelRun` are
interleaved load by load.

The code of a kernel is a parameter. Its `run()` pops from its input ports and pushes to its output
ports, one after the other and depending on what it has popped; then it returns, with the members of
the kernel changed. A `run()` that asks a port for its size, peeks, or has other effects is not
covered, and nobody resizes a queue. A pop from a closed and empty queue throws, which nobody catches:
that thread is `failed`, and the program is terminated. The others are not stopped here, so a run with a
failed thread says more than the code does.

Only what `sleep_for` and `fifo_gc` do is left out; neither touches what is modelled.
-/
import RaftLib.Threads.KernelRun
import RaftLib.Threads.PoolSchedule

namespace RaftLib.Threads

open RaftLib.Queue

/-- The item of a pop after the consumer's next step: the one that this step reads, or the one that
it has read before. -/
def Spsc.itemRead {T : Type} {c : Nat} (x : Spsc T c) (item : Option (T × RaftSignal)) :
    Option (T × RaftSignal) :=
  match x.consumer with
  | .readItem i signal => some (x.buffer.store i, signal)
  | _ => item

namespace SimpleSchedule

open RaftLib.Logic.Steps
open RaftLib.Threads.PoolSchedule (Net SchedBehav)

/-! ## Kernels -/

/-- A port among those of a kernel. -/
abbrev PortOf {ι : Type} (ports : List ι) : Type := { q : ι // q ∈ ports }

/-- What a `run()` does with the ports of its kernel, and what it returns with. -/
inductive Prog (ι : Type) (T : ι → Type) (M : Type) (input output : List ι) where
  | pop (q : PortOf input) (next : T q × RaftSignal → Prog ι T M input output)
  | push (q : PortOf output) (item : T q × RaftSignal) (next : Prog ι T M input output)
  | returns (status : Kstatus) (m : M)

/-- The kernels of a graph: their members to begin with, and their `run()`. -/
structure Kernels {κ ι : Type} (N : Net κ ι) (T : ι → Type) (M : κ → Type) where
  init : ∀ k, M k
  run : ∀ k, M k → Prog ι T (M k) (N.input k) (N.output k)

/-! ## The threads -/

/-- Where the thread of a kernel stands. `data` and `size` are `kernelHasInputData`, between two ports
and inside the `size()` of one; `rest` are the ports it has not asked yet, and `again` tells the second
call in a `kernelRun` from the first. `ports` is `kernelHasNoInputPorts`, and `closing` is
`invalidateOutputPorts`, at the end of `kernelRun` if `last`. A pop keeps the item it has read. -/
inductive Pc (ι : Type) (T : ι → Type) (M : Type) (c : ι → Nat) (input output : List ι) where
  | unborn
  | loop
  | data (again : Bool) (rest : List (PortOf input))
  | size (again : Bool) (q : PortOf input) (rest : List (PortOf input)) (pc : SizePc (c q))
  | running (p : Prog ι T M input output)
  | pushing (q : PortOf output) (next : Prog ι T M input output)
  | popping (q : PortOf input) (next : T q × RaftSignal → Prog ι T M input output)
      (item : Option (T q × RaftSignal))
  | ports (rest : List (PortOf input))
  | closing (last : Bool) (rest : List (PortOf output))
  | ended
  | failed (rest : Prog ι T M input output)

/-- A pop has come back: with its item, or with an exception. -/
def Pc.popped {ι : Type} {T : ι → Type} {M : Type} {c : ι → Nat} {input output : List ι}
    (q : PortOf input) (next : T q × RaftSignal → Prog ι T M input output) :
    Option (T q × RaftSignal) → Pc ι T M c input output
  | some v => .running (next v)
  | none => .failed (.pop q next)

/-- Where `simple_schedule::start` stands. `pass` is a pass over `thread_map`, with the threads it has
not looked at yet and `keep_going`; `joining` is in the `join` of one. -/
inductive Start (κ : Type) where
  | spawning (rest : List κ)
  | pass (rest : List κ) (keepGoing : Bool)
  | joining (k : κ) (rest : List κ) (keepGoing : Bool)
  | returned
  deriving DecidableEq, Repr

variable {κ ι : Type} {T : ι → Type} {M : κ → Type} {c : ι → Nat}

/-- The queues, the threads with the members of their kernels and their `finished` flags, and `start`
with the `term` flags. -/
structure State (N : Net κ ι) (T : ι → Type) (M : κ → Type) (c : ι → Nat) where
  queue : ∀ q, Spsc (T q) (c q)
  pc : ∀ k, Pc ι T (M k) c (N.input k) (N.output k)
  members : ∀ k, M k
  finished : κ → Bool
  start : Start κ
  term : κ → Bool

/-- The thread of a kernel goes on, or `start` does. -/
inductive Act (κ : Type) where
  | kernel (k : κ)
  | start
  deriving DecidableEq, Repr

namespace State

variable {N : Net κ ι} (K : Kernels N T M)

def init [∀ q, NeZero (c q)] (uninit : ∀ q, Fin (c q) → T q) : State N T M c where
  queue q := Spsc.init (uninit q)
  pc _ := .unborn
  members := K.init
  finished _ := false
  start := .spawning N.kernels
  term _ := false

/-- What `kernelRun` goes on with once `kernelHasInputData` has returned. -/
def answer (s : State N T M c) (k : κ) (again : Bool) :
    Bool → Pc ι T (M k) c (N.input k) (N.output k)
  | true => if again then .loop else .running (K.run k (s.members k))
  | false => if again then .closing true (N.output k).attach else .ports (N.input k).attach

/-- The call of `kernelHasInputData`. -/
def hasInputData (s : State N T M c) (k : κ) (again : Bool) :
    Pc ι T (M k) c (N.input k) (N.output k) :=
  if (N.input k).isEmpty then s.answer K k again true else .data again (N.input k).attach

/-- What `kernelHasInputData` goes on with once it knows the size of a port. -/
def looked (s : State N T M c) (k : κ) (again : Bool) (rest : List (PortOf (N.input k))) (n : Nat) :
    Pc ι T (M k) c (N.input k) (N.output k) :=
  match N.schedBehav k with
  | .anyPort => if 0 < n then s.answer K k again true else .data again rest
  | .allPort => if n = 0 then s.answer K k again false else .data again rest

variable [DecidableEq κ] [DecidableEq ι]

def goto (s : State N T M c) (k : κ) (pc : Pc ι T (M k) c (N.input k) (N.output k)) :
    State N T M c :=
  { s with pc := Function.update s.pc k pc }

omit [DecidableEq ι] in
@[simp] theorem goto_pc (s : State N T M c) (k : κ) (pc : Pc ι T (M k) c (N.input k) (N.output k)) :
    (s.goto k pc).pc k = pc := Function.update_self ..

omit [DecidableEq ι] in
theorem goto_pc_of_ne (s : State N T M c) {j k : κ} (h : j ≠ k)
    (pc : Pc ι T (M k) c (N.input k) (N.output k)) : (s.goto k pc).pc j = s.pc j :=
  Function.update_of_ne h ..

/-- The thread of `k` goes on at `pc`, and queue `q` is `x`. -/
def put (s : State N T M c) (k : κ) (pc : Pc ι T (M k) c (N.input k) (N.output k)) (q : ι)
    (x : Spsc (T q) (c q)) : State N T M c :=
  { s.goto k pc with queue := Function.update s.queue q x }

/-- The next step of the thread of `k`. -/
def thread (s : State N T M c) (k : κ) : Option (State N T M c) :=
  match s.pc k with
  | .unborn | .ended | .failed _ => none
  | .loop => some (s.goto k (if s.finished k then .ended else s.hasInputData K k false))
  | .data again [] => some (s.goto k (s.answer K k again (N.schedBehav k = .allPort)))
  | .data again (q :: rest) => some (s.goto k (.size again q rest .wrapWrite))
  | .size again q rest pc =>
      match pc.step (s.queue q).buffer with
      | .inl pc => some (s.goto k (.size again q rest pc))
      | .inr n => some (s.goto k (s.looked K k again rest n))
  | .running (.push q item next) =>
      ((s.queue q).step (.push item.1 item.2)).map fun x => s.put k (.pushing q next) q x
  | .running (.pop q next) => ((s.queue q).step .pop).map fun x => s.put k (.popping q next none) q x
  | .running (.returns status m) =>
      some { s.goto k (match status with
        | .proceed => .ports (N.input k).attach
        | .stop => .closing false (N.output k).attach) with
        members := Function.update s.members k m }
  | .pushing q next =>
      (s.queue q).produce.map fun x =>
        s.put k (if x.producer.isIdle then .running next else .pushing q next) q x
  | .popping q next item =>
      (s.queue q).consume.map fun x =>
        s.put k (if x.consumer.isIdle then .popped q next ((s.queue q).itemRead item)
          else .popping q next ((s.queue q).itemRead item)) q x
  | .ports [] => some (s.goto k (s.hasInputData K k true))
  | .ports (q :: rest) =>
      some (s.goto k (if (s.queue q).buffer.isValid then .loop else .ports rest))
  | .closing last [] =>
      some { s.goto k (if last then .loop else .ports (N.input k).attach) with
        finished := Function.update s.finished k true }
  | .closing last (q :: rest) =>
      ((s.queue q).step .invalidate).map fun x => s.put k (.closing last rest) q x

/-- The next step of `start`. A thread is joined when it has ended. -/
def startNext (s : State N T M c) : Option (State N T M c) :=
  match s.start with
  | .spawning (k :: rest) => some { s.goto k .loop with start := .spawning rest }
  | .spawning [] => some { s with start := .pass N.kernels false }
  | .pass (k :: rest) keepGoing =>
      some { s with
        start := if s.term k then .pass rest keepGoing
          else if s.finished k then .joining k rest keepGoing
          else .pass rest true }
  | .pass [] keepGoing =>
      some { s with start := if keepGoing then .pass N.kernels false else .returned }
  | .joining k rest keepGoing =>
      match s.pc k with
      | .ended =>
          some { s with start := .pass rest keepGoing, term := Function.update s.term k true }
      | _ => none
  | .returned => none

def step (s : State N T M c) : Act κ → Option (State N T M c)
  | .kernel k => s.thread K k
  | .start => s.startNext

end State

end SimpleSchedule

end RaftLib.Threads
