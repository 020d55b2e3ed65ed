/-
# `RaftLib.Threads.PoolSchedule` -- when `pool_schedule::start` returns

`pool_schedule` (`poolschedule.cpp`) runs every kernel in a loop of its own, `pool_run`, which calls
`Schedule::kernelRun` (`schedule.cpp`) until that has set `done`. `start` hands the kernels over one
by one and then waits, and what it waits for is the list `tail`: the kernels without output ports.

One step is one look at a port, one invalidation, one item moved by a `run()`, or one line of a
loop. What a `run()` does with its ports and what it returns is up to the label. A push that finds no
room waits, and how much room there is may change; here a push is possible whenever a kernel runs.
`fifo_gc` and the yield at the end of a round touch nothing that is modelled.

A kernel without output ports that stops early makes `start` return while kernels before it still
run. Where only kernels without input ports stop by themselves, the ends of the queues are what stops
the others, and then nothing before such a kernel runs any more.
-/
import Mathlib.Logic.Function.Basic
import Mathlib.Logic.Relation
import RaftLib.Logic.Steps
import RaftLib.Queue.Buffer

namespace RaftLib.Threads.PoolSchedule

open RaftLib.Logic.Steps
open RaftLib.Queue (Kstatus)

variable {κ ι : Type}

/-! ## The graph and the threads -/

/-- `raft::schedule_behavior`. -/
inductive SchedBehav where
  | anyPort | allPort
  deriving DecidableEq, Repr

/-- Kernels `κ` and the queues `ι` between them. `kernels` is `kernel_set`, in the order in which
`start` goes through it. -/
structure Net (κ ι : Type) where
  kernels : List κ
  nodup : kernels.Nodup
  input : κ → List ι
  output : κ → List ι
  schedBehav : κ → SchedBehav
  src : ι → κ
  dst : ι → κ
  mem_input : ∀ k q, q ∈ input k ↔ dst q = k
  mem_output : ∀ k q, q ∈ output k ↔ src q = k

/-- Where the thread of a kernel stands. `data` is `kernelHasInputData`, with the ports it has not
asked yet, and `again` tells the second call from the first; `ports` is `kernelHasNoInputPorts`;
`closing` is `invalidateOutputPorts`, and `last` tells the call at the end of `kernelRun` from the
one after a `run()`. -/
inductive Pc (ι : Type) where
  | unborn
  | loop
  | data (again : Bool) (rest : List ι)
  | running
  | closing (last : Bool) (rest : List ι)
  | ports (rest : List ι)
  | leave
  | ended
  deriving DecidableEq, Repr

/-- Where `pool_schedule::start` stands. -/
inductive Start (κ : Type) where
  | spawning (rest : List κ)
  | polling (rest : List κ)
  | returned
  deriving DecidableEq, Repr

/-- `done` is the local flag of `pool_run`, `finished` the one in `thread_data`. -/
structure State (κ ι : Type) where
  pc : κ → Pc ι
  done : κ → Bool
  finished : κ → Bool
  size : ι → Nat
  valid : ι → Bool
  start : Start κ
  tail : List κ

/-- What happens next: the thread of `k` goes on by itself, the `run()` of `k` moves an item or
returns, or `start` goes on. -/
inductive Act (κ ι : Type) where
  | advance (k : κ)
  | push (k : κ) (q : ι)
  | pop (k : κ) (q : ι)
  | returns (k : κ) (status : Kstatus)
  | start
  deriving DecidableEq, Repr

namespace Net

variable (N : Net κ ι)

/-- A queue leads from the first to the second. -/
def Edge (k k' : κ) : Prop := ∃ q, N.src q = k ∧ N.dst q = k'

/-- `! kernel->output.hasPorts()`. -/
def isDestination (k : κ) : Bool := (N.output k).isEmpty

/-- What `kernelRun` goes on with once `kernelHasInputData` has returned. -/
def answer (k : κ) (again : Bool) : Bool → Pc ι
  | true => if again then .loop else .running
  | false => if again then .closing true (N.output k) else .ports (N.input k)

/-- The call of `kernelHasInputData`. -/
def hasInputData (k : κ) (again : Bool) : Pc ι :=
  if (N.input k).isEmpty then N.answer k again true else .data again (N.input k)

end Net

/-! ## The steps -/

namespace State

variable [DecidableEq κ] [DecidableEq ι]

def init (N : Net κ ι) : State κ ι where
  pc _ := .unborn
  done _ := false
  finished _ := false
  size _ := 0
  valid _ := true
  start := .spawning N.kernels
  tail := []

def goto (s : State κ ι) (k : κ) (pc : Pc ι) : State κ ι := { s with pc := Function.update s.pc k pc }

/-- The next line of the thread of `k`, outside `run()`. -/
def advance (N : Net κ ι) (s : State κ ι) (k : κ) : Option (State κ ι) :=
  match s.pc k with
  | .unborn | .running | .ended => none
  | .loop => some (s.goto k (if s.done k then .leave else N.hasInputData k false))
  | .data again [] => some (s.goto k (N.answer k again (N.schedBehav k = .allPort)))
  | .data again (q :: rest) =>
      match N.schedBehav k with
      | .anyPort => some (s.goto k (if 0 < s.size q then N.answer k again true else .data again rest))
      | .allPort => some (s.goto k (if s.size q = 0 then N.answer k again false else .data again rest))
  | .ports [] => some (s.goto k (N.hasInputData k true))
  | .ports (q :: rest) => some (s.goto k (if s.valid q then .loop else .ports rest))
  | .closing last [] =>
      some { s.goto k (if last then .loop else .ports (N.input k)) with
        done := Function.update s.done k true }
  | .closing last (q :: rest) =>
      some { s.goto k (.closing last rest) with valid := Function.update s.valid q false }
  | .leave => some { s.goto k .ended with finished := Function.update s.finished k true }

/-- The next line of `start`. A pass over `tail` that finds a kernel unfinished begins again. -/
def startNext (N : Net κ ι) (s : State κ ι) : Option (State κ ι) :=
  match s.start with
  | .spawning (k :: rest) =>
      some { s.goto k .loop with
        start := .spawning rest
        tail := if N.isDestination k then s.tail ++ [k] else s.tail }
  | .spawning [] => some { s with start := .polling s.tail }
  | .polling (k :: rest) => some { s with start := .polling (if s.finished k then rest else s.tail) }
  | .polling [] => some { s with start := .returned }
  | .returned => none

def step (N : Net κ ι) (s : State κ ι) : Act κ ι → Option (State κ ι)
  | .advance k => s.advance N k
  | .push k q =>
      if s.pc k = .running ∧ q ∈ N.output k then
        some { s with size := Function.update s.size q (s.size q + 1) }
      else none
  | .pop k q =>
      if s.pc k = .running ∧ q ∈ N.input k ∧ 0 < s.size q then
        some { s with size := Function.update s.size q (s.size q - 1) }
      else none
  | .returns k status =>
      if s.pc k = .running then
        some (s.goto k (match status with
          | .proceed => .ports (N.input k)
          | .stop => .closing false (N.output k)))
      else none
  | .start => s.startNext N

/-- From here on `k` is not in a `run()`, whatever happens. -/
def RunsNoMore (N : Net κ ι) (s : State κ ι) (k : κ) : Prop :=
  ∀ ls t, Run (ofFun (step N)) s ls t → t.pc k ≠ .running

/-- A kernel that has closed its outputs, or is doing so. -/
def Past (s : State κ ι) (k : κ) : Prop := s.done k = true ∨ ∃ last rest, s.pc k = .closing last rest

end State

/-! ## What a step does to one kernel -/

/-- From which place to which the thread of `k` goes when it only looks at something. -/
inductive Goes (N : Net κ ι) (s : State κ ι) (k : κ) : Pc ι → Pc ι → Prop
  | leave : s.done k = true → Goes N s k .loop .leave
  | call : s.done k = false → Goes N s k .loop (N.hasInputData k false)
  | look (again : Bool) (q : ι) (rest : List ι) : Goes N s k (.data again (q :: rest)) (.data again rest)
  | answer (again : Bool) (rest : List ι) (b : Bool) : Goes N s k (.data again rest) (N.answer k again b)
  | valid (q : ι) (rest : List ι) : Goes N s k (.ports (q :: rest)) .loop
  | invalid (q : ι) (rest : List ι) : s.valid q = false → Goes N s k (.ports (q :: rest)) (.ports rest)
  | recheck : Goes N s k (.ports []) (N.hasInputData k true)

/-- What a step can do to kernel `k`: its place, `done` and `finished` afterwards. -/
inductive Change (N : Net κ ι) (s : State κ ι) (a : Act κ ι) (k : κ) : Pc ι → Bool → Bool → Prop
  | same : Change N s a k (s.pc k) (s.done k) (s.finished k)
  | goes (pc : Pc ι) : Goes N s k (s.pc k) pc → Change N s a k pc (s.done k) (s.finished k)
  | spawn : s.pc k = .unborn → a = .start → Change N s a k .loop (s.done k) (s.finished k)
  | proceed : s.pc k = .running → Change N s a k (.ports (N.input k)) (s.done k) (s.finished k)
  | stop : s.pc k = .running → a = .returns k .stop →
      Change N s a k (.closing false (N.output k)) (s.done k) (s.finished k)
  | closes (last : Bool) (q : ι) (rest : List ι) : s.pc k = .closing last (q :: rest) →
      Change N s a k (.closing last rest) (s.done k) (s.finished k)
  | closed (last : Bool) : s.pc k = .closing last [] →
      Change N s a k (if last then .loop else .ports (N.input k)) true (s.finished k)
  | ended : s.pc k = .leave → Change N s a k .ended (s.done k) true

namespace State

variable [DecidableEq κ] [DecidableEq ι] {N : Net κ ι} {s t : State κ ι} {a : Act κ ι} {k : κ}

omit [DecidableEq ι] in
/-- `Change` for the kernel whose thread has moved and for the others. -/
theorem change_update {pc : Pc ι} {d f : Bool} (h : Change N s a k pc d f) (k' : κ) :
    Change N s a k' (Function.update s.pc k pc k') (Function.update s.done k d k')
      (Function.update s.finished k f k') := by
  by_cases hk : k' = k
  · subst hk
    simpa only [Function.update_self] using h
  · simp only [Function.update_of_ne hk]
    exact .same

omit [DecidableEq ι] in
/-- The same for a thread that changes neither of its flags. -/
theorem change_goto {pc : Pc ι} (h : Change N s a k pc (s.done k) (s.finished k)) (k' : κ) :
    Change N s a k' ((s.goto k pc).pc k') (s.done k') (s.finished k') := by
  have := change_update h k'
  rwa [Function.update_eq_self, Function.update_eq_self] at this

theorem advance_change (h : s.advance N k = some t) (k' : κ) :
    Change N s (.advance k) k' (t.pc k') (t.done k') (t.finished k') := by
  have goes {pc : Pc ι} (hg : Goes N s k (s.pc k) pc) (k' : κ) :
      Change N s (.advance k) k' ((s.goto k pc).pc k') (s.done k') (s.finished k') :=
    change_goto (.goes pc hg) k'
  unfold advance at h
  split at h
  case h_1 | h_2 | h_3 => cases h
  case h_4 hpc =>
    cases h
    apply goes
    rw [hpc]
    split
    · next hd => exact .leave hd
    · next hd => exact .call (by simpa using hd)
  case h_5 again hpc =>
    cases h
    apply goes
    rw [hpc]
    exact .answer again [] _
  case h_6 again q rest hpc =>
    split at h
    · cases h
      apply goes
      rw [hpc]
      split
      · exact .answer again (q :: rest) true
      · exact .look again q rest
    · cases h
      apply goes
      rw [hpc]
      split
      · exact .answer again (q :: rest) false
      · exact .look again q rest
  case h_7 hpc =>
    cases h
    apply goes
    rw [hpc]
    exact .recheck
  case h_8 q rest hpc =>
    cases h
    apply goes
    rw [hpc]
    split
    · exact .valid q rest
    · next hv => exact .invalid q rest (by simpa using hv)
  case h_9 last hpc =>
    cases h
    have := change_update (N := N) (a := .advance k) (.closed last hpc) k'
    rwa [Function.update_eq_self] at this
  case h_10 last q rest hpc =>
    cases h
    exact change_goto (.closes last q rest hpc) k'
  case h_11 hpc =>
    cases h
    have := change_update (N := N) (a := .advance k) (.ended hpc) k'
    rwa [Function.update_eq_self] at this

/-- **Every step, for every kernel.** `start` hands over only kernels that have no thread yet. -/
theorem step_change (hnew : ∀ k rest, s.start = .spawning (k :: rest) → s.pc k = .unborn)
    (h : s.step N a = some t) (k : κ) : Change N s a k (t.pc k) (t.done k) (t.finished k) := by
  cases a with
  | advance k' => exact advance_change h k
  | push k' q | pop k' q =>
      simp only [step] at h
      split at h
      · cases h
        exact .same
      · cases h
  | returns k' status =>
      simp only [step] at h
      split at h
      · next hpc =>
          cases h
          cases status with
          | proceed =>
              exact change_goto (.proceed hpc) k
          | stop =>
              exact change_goto (.stop hpc rfl) k
      · cases h
  | start =>
      simp only [step, startNext] at h
      split at h
      · next k' rest hst =>
          cases h
          exact change_goto (.spawn (hnew k' rest hst) rfl) k
      · cases h
        exact .same
      · cases h
        exact .same
      · cases h
        exact .same
      · cases h

/-- A queue is closed by a thread that goes through its outputs, and it stays closed. -/
theorem step_valid (h : s.step N a = some t) (q : ι) :
    t.valid q = s.valid q ∨
      t.valid q = false ∧ ∃ k last rest, s.pc k = .closing last (q :: rest) := by
  cases a with
  | advance k =>
      simp only [step] at h
      unfold advance at h
      split at h
      case h_10 last q' rest hpc =>
        cases h
        show Function.update s.valid q' false q = s.valid q ∨ _
        by_cases hq : q = q'
        · subst hq
          exact .inr ⟨Function.update_self q false s.valid, k, last, rest, hpc⟩
        · exact .inl (Function.update_of_ne hq false s.valid)
      case h_6 =>
        split at h
        · cases h
          exact .inl rfl
        · cases h
          exact .inl rfl
      all_goals
        cases h
        try exact .inl rfl
  | push k q' | pop k q' | returns k status =>
      simp only [step] at h
      split at h
      · cases h
        exact .inl rfl
      · cases h
  | start =>
      simp only [step, startNext] at h
      split at h <;> cases h <;> exact .inl rfl

/-- Only `start` moves in the list it works through. -/
theorem step_start (h : s.step N a = some t) :
    a ≠ .start ∧ t.start = s.start ∧ t.tail = s.tail ∨ a = .start ∧ s.startNext N = some t := by
  cases a with
  | advance k =>
      simp only [step] at h
      unfold advance at h
      split at h
      case h_6 =>
        split at h
        · cases h
          exact .inl ⟨nofun, rfl, rfl⟩
        · cases h
          exact .inl ⟨nofun, rfl, rfl⟩
      all_goals
        cases h
        try exact .inl ⟨nofun, rfl, rfl⟩
  | push k q' | pop k q' | returns k status =>
      simp only [step] at h
      split at h
      · cases h
        exact .inl ⟨nofun, rfl, rfl⟩
      · cases h
  | start => exact .inr ⟨rfl, h⟩

end State

/-! ## Where a thread can come from -/

section

variable {N : Net κ ι} {s t : State κ ι} {a : Act κ ι} {k : κ} {pc pc' : Pc ι}

theorem Net.hasInputData_again (k : κ) : N.hasInputData k true = .loop ∧ N.input k = [] ∨
    N.hasInputData k true = .data true (N.input k) := by
  unfold Net.hasInputData
  split
  · next hin => exact .inl ⟨rfl, by simpa using hin⟩
  · exact .inr rfl

/-- Closing begins after a look only when the second call of `kernelHasInputData` finds nothing. -/
theorem Goes.closing {last : Bool} {rest : List ι} (h : Goes N s k pc pc')
    (hpc : pc' = .closing last rest) : rest = N.output k ∧ ∃ rest', pc = .data true rest' := by
  cases h with
  | answer again rest' b =>
      cases again <;> cases b <;> simp [Net.answer] at hpc
      exact ⟨hpc.2.symm, rest', rfl⟩
  | call =>
      unfold Net.hasInputData at hpc
      split at hpc
      · simp [Net.answer] at hpc
      · cases hpc
  | recheck =>
      rcases N.hasInputData_again k with ⟨hd, -⟩ | hd <;> rw [hd] at hpc <;> cases hpc
  | leave | look | valid | invalid => cases hpc

theorem Goes.leaves (h : Goes N s k pc pc') (hpc : pc' = .leave) : s.done k = true := by
  cases h with
  | leave hd => exact hd
  | answer again rest b => cases again <;> cases b <;> simp [Net.answer] at hpc
  | call =>
      unfold Net.hasInputData at hpc
      split at hpc
      · simp [Net.answer] at hpc
      · cases hpc
  | recheck =>
      rcases N.hasInputData_again k with ⟨hd, -⟩ | hd <;> rw [hd] at hpc <;> cases hpc
  | look | valid | invalid => cases hpc

/-- A thread that is done does not look for data for another `run()`. -/
theorem Goes.done (h : Goes N s k pc pc') (hd : s.done k = true)
    (hpc : ∀ rest, pc ≠ .data false rest) (rest : List ι) :
    pc' ≠ .running ∧ pc' ≠ .data false rest := by
  cases h with
  | call hd' => simp [hd] at hd'
  | look again q rest =>
      cases again with
      | false => exact absurd rfl (hpc _)
      | true => exact ⟨nofun, nofun⟩
  | answer again rest b =>
      cases again with
      | false => exact absurd rfl (hpc _)
      | true => cases b <;> simp [Net.answer]
  | recheck => rcases N.hasInputData_again k with ⟨hd, -⟩ | hd <;> simp [hd]
  | leave | valid | invalid => exact ⟨nofun, nofun⟩

/-- A kernel past its end stays there. -/
theorem State.Past.change (h : s.Past k)
    (hc : Change N s a k (t.pc k) (t.done k) (t.finished k)) : t.Past k := by
  unfold State.Past
  generalize t.pc k = pc, t.done k = d, t.finished k = f at hc ⊢
  rcases h with hd | ⟨last, rest, hpc⟩
  · left
    cases hc with
    | closed last _ => rfl
    | same | goes | spawn | proceed | stop | closes | ended => exact hd
  · cases hc with
    | same => exact .inr ⟨last, rest, hpc⟩
    | goes pc hg =>
        rw [hpc] at hg
        cases hg
    | closes last q rest _ => exact .inr ⟨last, rest, rfl⟩
    | closed last _ => exact .inl rfl
    | spawn hpc₂ _ | proceed hpc₂ | stop hpc₂ _ | ended hpc₂ =>
        rw [hpc] at hpc₂
        cases hpc₂

/-- How a kernel gets past its end: `run()` returns `stop`, or `kernelRun` finds no data again. -/
theorem State.Past.of_change (h : t.Past k)
    (hc : Change N s a k (t.pc k) (t.done k) (t.finished k)) :
    s.Past k ∨ (∃ rest, s.pc k = .data true rest) ∨ a = .returns k .stop := by
  unfold State.Past at h
  generalize t.pc k = pc, t.done k = d, t.finished k = f at hc h
  cases hc with
  | same => exact .inl h
  | goes _ hg =>
      rcases h with hd | ⟨last, rest, hpc⟩
      · exact .inl (.inl hd)
      · exact .inr (.inl (hg.closing hpc).2)
  | stop _ ha => exact .inr (.inr ha)
  | closes last q rest hpc => exact .inl (.inr ⟨last, q :: rest, hpc⟩)
  | closed last hpc => exact .inl (.inr ⟨last, [], hpc⟩)
  | spawn | proceed | ended =>
      rcases h with hd | ⟨last, rest, hpc⟩
      · exact .inl (.inl hd)
      · cases hpc

end

/-! ## What holds in every run -/

/-- What `start` knows of the kernels without output ports. -/
def Start.Knows (N : Net κ ι) (s : State κ ι) : Start κ → Prop
  | .spawning rest =>
      ∃ handed, N.kernels = handed ++ rest ∧ s.tail = handed.filter N.isDestination ∧
        ∀ k ∈ rest, s.pc k = .unborn
  | .polling rest =>
      s.tail = N.kernels.filter N.isDestination ∧
        ∃ seen, s.tail = seen ++ rest ∧ ∀ k ∈ seen, s.finished k = true
  | .returned => s.tail = N.kernels.filter N.isDestination ∧ ∀ k ∈ s.tail, s.finished k = true

/-- The threads, the queues they have closed, and `start`. -/
structure Inv (N : Net κ ι) (s : State κ ι) : Prop where
  finished : ∀ k, s.finished k = true → s.done k = true
  leave : ∀ k, s.pc k = .leave → s.done k = true
  past : ∀ k, s.Past k → ∀ rest, s.pc k ≠ .running ∧ s.pc k ≠ .data false rest
  outputs : ∀ k last rest, s.pc k = .closing last rest → ∀ q ∈ rest, N.src q = k
  closed : ∀ q, s.valid q = false → s.Past (N.src q)
  knows : s.start.Knows N s

namespace Inv

variable {N : Net κ ι} {s t : State κ ι} {a : Act κ ι} {k : κ}

theorem init (N : Net κ ι) : Inv N (State.init N) where
  finished _ h := nomatch h
  leave _ h := nomatch h
  past _ _ _ := ⟨nofun, nofun⟩
  outputs _ _ _ h := nomatch h
  closed _ h := nomatch h
  knows := ⟨[], rfl, rfl, fun _ _ => rfl⟩

variable [DecidableEq κ] [DecidableEq ι]

theorem change (h : Inv N s) (hs : s.step N a = some t) (k : κ) :
    Change N s a k (t.pc k) (t.done k) (t.finished k) := by
  refine State.step_change (fun k rest hst => ?_) hs k
  have hknows := h.knows
  rw [hst] at hknows
  obtain ⟨handed, -, -, hnew⟩ := hknows
  exact hnew k (List.mem_cons_self ..)

theorem stepPast (h : Inv N s) (hs : s.step N a = some t) (k : κ) (hp : t.Past k) (rest : List ι) :
    t.pc k ≠ .running ∧ t.pc k ≠ .data false rest := by
  have hc := h.change hs k
  unfold State.Past at hp
  generalize t.pc k = pc, t.done k = d, t.finished k = f at hc hp ⊢
  cases hc with
  | same => exact h.past k hp rest
  | goes _ hg =>
      rcases hp with hd | ⟨last, rest', rfl⟩
      · exact hg.done hd (fun rest => (h.past k (.inl hd) rest).2) rest
      · exact ⟨nofun, nofun⟩
  | closed last _ => cases last <;> exact ⟨nofun, nofun⟩
  | spawn | proceed | stop | closes | ended => exact ⟨nofun, nofun⟩

theorem stepOutputs (h : Inv N s) (hs : s.step N a = some t) (k : κ) (last : Bool) (rest : List ι)
    (hpc : t.pc k = .closing last rest) (q : ι) (hq : q ∈ rest) : N.src q = k := by
  have hc := h.change hs k
  generalize t.pc k = pc, t.done k = d, t.finished k = f at hc hpc
  cases hc with
  | same => exact h.outputs k last rest hpc q hq
  | goes _ hg =>
      rw [(hg.closing hpc).1] at hq
      exact (N.mem_output k q).mp hq
  | stop =>
      cases hpc
      exact (N.mem_output k q).mp hq
  | closes last' q' rest' hpc' =>
      cases hpc
      exact h.outputs k last (q' :: rest) hpc' q (List.mem_cons_of_mem q' hq)
  | closed last' _ => cases last' <;> cases hpc
  | spawn | proceed | ended => cases hpc

theorem stepClosed (h : Inv N s) (hs : s.step N a = some t) (q : ι) (hq : t.valid q = false) :
    t.Past (N.src q) := by
  have hold : s.Past (N.src q) := by
    rcases State.step_valid hs q with hv | ⟨-, k, last, rest, hpc⟩
    · exact h.closed q (hv ▸ hq)
    · rw [h.outputs k last _ hpc q (List.mem_cons_self ..)]
      exact .inr ⟨last, q :: rest, hpc⟩
  exact hold.change (h.change hs _)

theorem stepFinished (h : Inv N s) (hs : s.step N a = some t) (k : κ) (hf : s.finished k = true) :
    t.finished k = true := by
  have hc := h.change hs k
  generalize t.pc k = pc, t.done k = d, t.finished k = f at hc ⊢
  cases hc with
  | same | goes | spawn | proceed | stop | closes | closed => exact hf
  | ended => rfl

theorem stepKnows (h : Inv N s) (hs : s.step N a = some t) : t.start.Knows N t := by
  have hknows := h.knows
  have hfin := h.stepFinished hs
  rcases State.step_start hs with ⟨ha, hst, htail⟩ | ⟨rfl, hnext⟩
  · rw [hst]
    cases hst' : s.start with
    | spawning rest =>
        rw [hst'] at hknows
        obtain ⟨handed, hk, ht, hnew⟩ := hknows
        refine ⟨handed, hk, htail.trans ht, fun k hkr => ?_⟩
        have hc := h.change hs k
        have hpc := hnew k hkr
        generalize t.pc k = pc, t.done k = d, t.finished k = f at hc ⊢
        cases hc with
        | same => exact hpc
        | goes _ hg =>
            rw [hpc] at hg
            cases hg
        | spawn _ hstart => exact absurd hstart ha
        | proceed hpc₂ | stop hpc₂ _ | closes _ _ _ hpc₂ | closed _ hpc₂ | ended hpc₂ =>
            rw [hpc] at hpc₂
            cases hpc₂
    | polling rest =>
        rw [hst'] at hknows
        obtain ⟨ht, seen, hseen, hdone⟩ := hknows
        exact ⟨htail.trans ht, seen, htail.trans hseen, fun k hk => hfin k (hdone k hk)⟩
    | returned =>
        rw [hst'] at hknows
        obtain ⟨ht, hdone⟩ := hknows
        exact ⟨htail.trans ht, fun k hk => hfin k (hdone k (htail ▸ hk))⟩
  · unfold State.startNext at hnext
    split at hnext
    · next k rest hst =>
        -- `start` hands the next kernel to the pool
        rw [hst] at hknows
        obtain ⟨handed, hk, ht, hnew⟩ := hknows
        cases hnext
        have hnodup : (k :: rest).Nodup := (List.nodup_append.mp (hk ▸ N.nodup)).2.1
        refine ⟨handed ++ [k], by rw [hk, List.append_assoc, List.singleton_append], ?_, ?_⟩
        · show (if N.isDestination k then s.tail ++ [k] else s.tail) = _
          rw [List.filter_append, ht]
          cases hd : N.isDestination k <;> simp [hd]
        · intro k' hk'
          have hne : k' ≠ k := by
            rintro rfl
            exact (List.nodup_cons.mp hnodup).1 hk'
          exact (Function.update_of_ne hne _ _).trans (hnew k' (List.mem_cons_of_mem k hk'))
    · next hst =>
        -- all are handed out: the flags are polled from the first on
        rw [hst] at hknows
        obtain ⟨handed, hk, ht, -⟩ := hknows
        cases hnext
        rw [List.append_nil] at hk
        exact ⟨hk ▸ ht, [], rfl, nofun⟩
    · next k rest hst =>
        -- the next flag; the first one that is down starts the round again
        rw [hst] at hknows
        obtain ⟨ht, seen, hseen, hdone⟩ := hknows
        cases hnext
        refine ⟨ht, ?_⟩
        by_cases hf : s.finished k = true
        · simp only [hf, if_true]
          refine ⟨seen ++ [k], by rw [hseen, List.append_assoc, List.singleton_append], ?_⟩
          intro k' hk'
          rcases List.mem_append.mp hk' with hk' | hk'
          · exact hdone k' hk'
          · exact List.mem_singleton.mp hk' ▸ hf
        · simp only [hf]
          exact ⟨[], rfl, nofun⟩
    · next hst =>
        -- a whole round without a flag that is down
        rw [hst] at hknows
        obtain ⟨ht, seen, hseen, hdone⟩ := hknows
        cases hnext
        rw [List.append_nil] at hseen
        exact ⟨ht, hseen ▸ hdone⟩
    · cases hnext

theorem step (h : Inv N s) (hs : s.step N a = some t) : Inv N t := by
  refine ⟨fun k => ?_, fun k hpc => ?_, h.stepPast hs, h.stepOutputs hs, h.stepClosed hs,
    h.stepKnows hs⟩
  · have hc := h.change hs k
    generalize t.pc k = pc, t.done k = d, t.finished k = f at hc ⊢
    cases hc with
    | same | goes | spawn | proceed | stop | closes => exact h.finished k
    | closed => exact fun _ => rfl
    | ended hpc => exact fun _ => h.leave k hpc
  · have hc := h.change hs k
    generalize t.pc k = pc, t.done k = d, t.finished k = f at hc hpc ⊢
    cases hc with
    | same => exact h.leave k hpc
    | goes _ hg => exact hg.leaves hpc
    | closed => rfl
    | spawn | proceed | stop | closes | ended => cases hpc

end Inv

/-! ## Draining -/

/-- A kernel that has closed its outputs has found its own inputs closed. -/
structure Drained (N : Net κ ι) (s : State κ ι) : Prop where
  ports : ∀ k rest, s.pc k = .ports rest → ∀ q ∈ N.input k, q ∈ rest ∨ s.valid q = false
  again : ∀ k rest, s.pc k = .data true rest → ∀ q ∈ N.input k, s.valid q = false
  past : ∀ k, s.Past k → ∀ q ∈ N.input k, s.valid q = false

/-- Only a kernel without input ports stops by itself. -/
def EndsOnly (N : Net κ ι) (a : Act κ ι) : Prop :=
  ∀ k, a = .returns k .stop → N.input k = []

namespace Drained

variable {N : Net κ ι} {s t : State κ ι} {a : Act κ ι} {k : κ}

theorem init (N : Net κ ι) : Drained N (State.init N) where
  ports _ _ h := nomatch h
  again _ _ h := nomatch h
  past _ h := by rcases h with h | ⟨_, _, h⟩ <;> cases h

theorem goesPorts {pc pc' : Pc ι} {rest : List ι} (h : Goes N s k pc pc') (hpc : pc' = .ports rest) :
    rest = N.input k ∨ ∃ q, pc = .ports (q :: rest) ∧ s.valid q = false := by
  cases h with
  | answer again rest' b =>
      cases again <;> cases b <;> simp [Net.answer] at hpc
      exact .inl hpc.symm
  | invalid q rest' hv =>
      cases hpc
      exact .inr ⟨q, rfl, hv⟩
  | call =>
      unfold Net.hasInputData at hpc
      split at hpc
      · simp [Net.answer] at hpc
      · cases hpc
  | recheck => rcases N.hasInputData_again k with ⟨hd, -⟩ | hd <;> rw [hd] at hpc <;> cases hpc
  | leave | look | valid => cases hpc

theorem goesAgain {pc pc' : Pc ι} {rest : List ι} (h : Goes N s k pc pc')
    (hpc : pc' = .data true rest) : pc = .ports [] ∨ ∃ rest', pc = .data true rest' := by
  cases h with
  | look again q rest' =>
      cases hpc
      exact .inr ⟨_, rfl⟩
  | answer again rest' b => cases again <;> cases b <;> simp [Net.answer] at hpc
  | call =>
      unfold Net.hasInputData at hpc
      split at hpc
      · simp [Net.answer] at hpc
      · cases hpc
  | recheck => exact .inl rfl
  | leave | valid | invalid => cases hpc

/-- Everything before a kernel that is past its end is past its own. -/
theorem upstream (h : Drained N s) (hi : Inv N s) {k k' : κ}
    (hr : Relation.ReflTransGen N.Edge k k') (hp : s.Past k') : s.Past k := by
  induction hr using Relation.ReflTransGen.head_induction_on with
  | refl => exact hp
  | head hedge _ ih =>
      obtain ⟨q, rfl, hdst⟩ := hedge
      exact hi.closed q (h.past _ ih q ((N.mem_input _ q).mpr hdst))

variable [DecidableEq κ] [DecidableEq ι]

theorem step (h : Drained N s) (hi : Inv N s) (ha : EndsOnly N a) (hs : s.step N a = some t) :
    Drained N t := by
  -- a closed queue stays closed
  have hv (q : ι) (hq : s.valid q = false) : t.valid q = false := by
    rcases State.step_valid hs q with hvq | ⟨hvq, -⟩
    · exact hvq.trans hq
    · exact hvq
  refine ⟨fun k rest hpc q hq => ?_, fun k rest hpc q hq => ?_, fun k hp q hq => ?_⟩
  · have hc := hi.change hs k
    generalize t.pc k = pc, t.done k = d, t.finished k = f at hc hpc
    cases hc with
    | same => exact (h.ports k rest hpc q hq).imp_right (hv q)
    | goes _ hg =>
        rcases goesPorts hg hpc with rfl | ⟨q', hpc', hq'⟩
        · exact .inl hq
        · rcases h.ports k _ hpc' q hq with hmem | hval
          · rcases List.mem_cons.mp hmem with rfl | hmem
            · exact .inr (hv q hq')
            · exact .inl hmem
          · exact .inr (hv q hval)
    | proceed =>
        cases hpc
        exact .inl hq
    | closed last _ =>
        cases last <;> cases hpc
        exact .inl hq
    | spawn | stop | closes | ended => cases hpc
  · have hc := hi.change hs k
    generalize t.pc k = pc, t.done k = d, t.finished k = f at hc hpc
    cases hc with
    | same => exact hv q (h.again k rest hpc q hq)
    | goes _ hg =>
        rcases goesAgain hg hpc with hpc' | ⟨rest', hpc'⟩
        · rcases h.ports k [] hpc' q hq with hmem | hval
          · cases hmem
          · exact hv q hval
        · exact hv q (h.again k rest' hpc' q hq)
    | closed last _ => cases last <;> cases hpc
    | spawn | proceed | stop | closes | ended => cases hpc
  · rcases hp.of_change (hi.change hs k) with hold | ⟨rest, hpc⟩ | hstop
    · exact hv q (h.past k hold q hq)
    · exact hv q (h.again k rest hpc q hq)
    · rw [ha k hstop] at hq
      cases hq

end Drained

/-! ## What `start` waits for -/

section

variable [DecidableEq κ] [DecidableEq ι] {N : Net κ ι} {s t : State κ ι}

theorem inv_of_run {ls : List (Act κ ι)} (h : Run (ofFun (State.step N)) s ls t) (hi : Inv N s) :
    Inv N t :=
  h.invariant (fun _ _ _ hi hs => hi.step hs) hi

/-- A kernel past its end is not in a `run()` and never will be. -/
theorem runsNoMore {k : κ} (hi : Inv N s) (hp : s.Past k) : s.RunsNoMore N k := by
  intro ls t hrun
  have ht : Inv N t ∧ t.Past k :=
    hrun.invariant (I := fun s => Inv N s ∧ s.Past k)
      (fun _ _ _ h hs => ⟨h.1.step hs, h.2.change (h.1.change hs k)⟩) ⟨hi, hp⟩
  exact (ht.1.past k ht.2 []).1

/-- **`start` waits for the kernels without output ports, and for no others.** When it has returned
they have all finished. What comes before them runs no more either, provided that in the run no
kernel with input ports has stopped by itself. -/
theorem start_returned {ls : List (Act κ ι)} (h : Run (ofFun (State.step N)) (State.init N) ls s)
    (hret : s.start = .returned) :
    (∀ k ∈ N.kernels, N.output k = [] → s.finished k = true ∧ s.RunsNoMore N k) ∧
      ((∀ a ∈ ls, EndsOnly N a) → ∀ k' ∈ N.kernels, N.output k' = [] →
        ∀ k, Relation.ReflTransGen N.Edge k k' → s.RunsNoMore N k) := by
  have hi : Inv N s := inv_of_run h (.init N)
  have hfin (k : κ) (hk : k ∈ N.kernels) (hout : N.output k = []) : s.finished k = true := by
    have hknows := hi.knows
    rw [hret] at hknows
    obtain ⟨htail, hall⟩ := hknows
    refine hall k ?_
    rw [htail]
    exact List.mem_filter.mpr ⟨hk, by simp [Net.isDestination, hout]⟩
  refine ⟨fun k hk hout => ⟨hfin k hk hout, ?_⟩, fun hends k' hk' hout k hr => ?_⟩
  · exact runsNoMore hi (.inl (hi.finished k (hfin k hk hout)))
  · have hdr : Inv N s ∧ Drained N s :=
      (h.restrict_of_labels hends).invariant (I := fun s => Inv N s ∧ Drained N s)
        (fun _ _ _ h hs => ⟨h.1.step hs.2, h.2.step h.1 hs.1 hs.2⟩) ⟨.init N, .init N⟩
    exact runsNoMore hi (hdr.2.upstream hi hr (.inl (hi.finished k' (hfin k' hk' hout))))

end

/-! ### A source that feeds a sink -/

/-- A source, `false`, that feeds a sink, `true`. -/
def pipe : Net Bool Unit where
  kernels := [false, true]
  nodup := by decide
  input k := if k then [()] else []
  output k := if k then [] else [()]
  schedBehav _ := .anyPort
  src _ := false
  dst _ := true
  mem_input k _ := by cases k <;> simp
  mem_output k _ := by cases k <;> simp

/-- The source pushes one item and stops; the sink takes it and finds its input at an end. -/
def sourceStops : List (Act Bool Unit) :=
  [.start, .start, .start, .advance false, .push false (), .returns false .stop,
    .advance false, .advance false, .advance true, .advance true, .pop true (),
    .returns true .proceed] ++ List.replicate 7 (.advance true) ++ [.start, .start]

theorem start_returned_pipe : ∃ s, Run (ofFun (State.step pipe)) (State.init pipe) sourceStops s ∧
    s.start = .returned ∧ s.finished true = true ∧ s.RunsNoMore pipe false := by
  have hexec : (exec (State.step pipe) (State.init pipe) sourceStops).any
      (fun s => decide (s.start = .returned)) = true := by decide
  obtain ⟨s, hrun, hret⟩ := exists_run_of_any hexec
  obtain ⟨hdest, hup⟩ := start_returned hrun hret
  have hends : ∀ a ∈ sourceStops, EndsOnly pipe a := by
    rintro a ha k rfl
    obtain rfl : k = false := by simpa [sourceStops] using ha
    rfl
  refine ⟨s, hrun, hret, (hdest true (by decide) rfl).1, ?_⟩
  exact hup hends true (by decide) rfl false (.single ⟨(), rfl, rfl⟩)

/-- The source pushes one item; the sink takes it and stops, and `start` finds it finished. -/
def sinkStops : List (Act Bool Unit) :=
  [.start, .start, .start, .advance false, .push false (), .returns false .proceed,
    .advance true, .advance true, .pop true (), .returns true .stop,
    .advance true, .advance true, .advance true, .advance true, .start, .start]

/-- The two kernels are connected and `start` has returned, but the source is not finished, and goes
on to another `run()`. -/
theorem start_returns_early : (∀ k k', Relation.EqvGen pipe.Edge k k') ∧
    ∃ ls s, Run (ofFun (State.step pipe)) (State.init pipe) ls s ∧ s.start = .returned ∧
      ∃ k ∈ pipe.kernels, s.finished k = false ∧ ¬ s.RunsNoMore pipe k := by
  have hedge : Relation.EqvGen pipe.Edge false true := .rel _ _ ⟨(), rfl, rfl⟩
  refine ⟨fun k k' => ?_, sinkStops, ?_⟩
  · cases k <;> cases k'
    · exact .refl _
    · exact hedge
    · exact hedge.symm
    · exact .refl _
  · have hexec : (exec (State.step pipe) (State.init pipe) sinkStops).any
        (fun s => decide (s.start = .returned ∧ s.finished false = false ∧
          (exec (State.step pipe) s [.advance false, .advance false]).any
            (fun t => decide (t.pc false = .running)) = true)) = true := by decide
    obtain ⟨s, hrun, hret, hfin, hnext⟩ := exists_run_of_any hexec
    obtain ⟨t, hrun', hpc⟩ := exists_run_of_any hnext
    exact ⟨s, hrun, hret, false, List.mem_cons_self .., hfin, fun hno => hno _ t hrun' hpc⟩

end RaftLib.Threads.PoolSchedule
