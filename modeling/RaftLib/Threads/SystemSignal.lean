/-
# `RaftLib.Threads.SystemSignal` -- a look at the signals in front of a kernel

`Schedule::checkSystemSignal` (`schedule.cpp`), `SystemSignalHandler` (`systemsignalhandler.cpp`) and the two
calls on a queue that they rest on (`ringbufferheap_abstract.tcc`). `signal_pop` takes an entry off with
`local_pop` and no place to put it, and `local_pop` asserts that there is one, against its own comment. So
the look is what it should be exactly if there is nothing to do (`handles_iff`).

The bodies of `local_pop` for the three ways to store an element are the same up to the assertion, so one
kind of queue stands for them; its elements may be of another type at every port.
-/
import Mathlib.Data.List.FinRange
import RaftLib.Queue.Contents

namespace RaftLib.Threads

open RaftLib.Logic.Program
open RaftLib.Queue

/-! ## The code -/

/-- How a look can end without returning. -/
inductive SignalStop where
  | queue (stop : Stop)
  | noSignalHandlerFound (message : String)
  deriving DecidableEq, Repr

/-- The input queues of the kernel, and the handlers called so far: the port, the signal, and what the
handler returned. -/
structure Inputs {n : Nat} (T : Fin n → Type) (caps : Fin n → Nat) where
  queue : ∀ k, RingBuffer (T k) (caps k)
  called : List (Fin n × RaftSignal × Kstatus) := []

/-- `handlers`: for a signal a `sighandler`, which is given the queue of the port. -/
abbrev Handlers {n : Nat} (T : Fin n → Type) (caps : Fin n → Nat) :=
  RaftSignal → Option (∀ k, Call (T k) (caps k) Kstatus)

/-- `MAX_SYSTEM_SIGNAL`. -/
def maxSystemSignal : RaftSignal := 0xfff

/-- `curr_signal > 0 && curr_signal < raft::MAX_SYSTEM_SIGNAL`. -/
def IsSystem (signal : RaftSignal) : Prop := 0 < signal ∧ signal < maxSystemSignal

instance : DecidablePred IsSystem := fun _ => inferInstanceAs (Decidable (_ ∧ _))

/-- `signal_peek`. -/
def signalPeek {T : Type} {cap : Nat} : Call T cap RaftSignal := do
  let rb ← get
  return (rb.buffer.signal rb.buffer.readPt.val).sig

/-- `signal_pop`. -/
def signalPop {T : Type} {cap : Nat} : Call T cap PUnit := do
  let _ ← RingBuffer.localPop false

/-- **`signal_pop`** on a queue with an entry does not get past the assertion. -/
theorem signalPop_asserts {T : Type} {cap : Nat} [NeZero cap] {rb : RingBuffer T cap} {e : T × RaftSignal}
    {es : List (T × RaftSignal)} (h : Holds rb (e :: es)) :
    ∃ rb', (signalPop : Call T cap PUnit).run rb = .error .assertion rb' := by
  have hrun : (RingBuffer.setHelper .pop true rb).resizing = false := h.running
  have hpop : (RingBuffer.localPop false : Call T cap _).run rb =
      .error .assertion (RingBuffer.setHelper .pop true rb) := by
    simp [RingBuffer.localPop, hrun, RingBuffer.lookForData_run (h.setHelper .pop true), RingBuffer.found]
  exact ⟨_, run_bind_of_error hpop⟩

namespace Inputs

variable {n : Nat} {T : Fin n → Type} {caps : Fin n → Nat} {α : Type}

abbrev Prog (T : Fin n → Type) (caps : Fin n → Nat) (α : Type) := EStateM SignalStop (Inputs T caps) α

def setQueue (s : Inputs T caps) (k : Fin n) (rb : RingBuffer (T k) (caps k)) : Inputs T caps :=
  { s with queue := Function.update s.queue k rb }

/-- A call on the queue of port `k`. -/
def onPort (k : Fin n) (x : Call (T k) (caps k) α) : Prog T caps α := fun s =>
  match x.run (s.queue k) with
  | .ok a rb => .ok a (s.setQueue k rb)
  | .error e rb => .error (.queue e) (s.setQueue k rb)

/-- `callHandler`. -/
def callHandler (handlers : Handlers T caps) (signal : RaftSignal) (k : Fin n) : Prog T caps Kstatus := do
  match handlers signal with
  | none => throw (.noSignalHandlerFound ("No handler found for: " ++ toString signal.toNat))
  | some handler =>
      let status ← onPort k (handler k)
      modify fun s => { s with called := s.called ++ [(k, signal, status)] }
      return status

/-- The body of the loop over the ports. -/
def checkPort (handlers : Handlers T caps) (retSignal : Kstatus) (k : Fin n) : Prog T caps Kstatus := do
  let size ← onPort k RingBuffer.size
  if size = 0 then return retSignal
  else
    let currSignal ← onPort k signalPeek
    if IsSystem currSignal then
      -- taken off first, handled then
      onPort k signalPop
      let status ← callHandler handlers currSignal k
      return if status = .stop then .stop else retSignal
    else return retSignal

/-- `checkSystemSignal`. -/
def checkSystemSignal (handlers : Handlers T caps) : Prog T caps Kstatus :=
  (List.finRange n).foldlM (checkPort handlers) .proceed

/-! ## What it should do -/

/-- There is an entry, and it carries a system signal. -/
def SystemHead {α : Type} : List (α × RaftSignal) → Prop
  | [] => False
  | e :: _ => IsSystem e.2

instance {α : Type} : DecidablePred (SystemHead : List (α × RaftSignal) → Prop)
  | [] => isFalse id
  | e :: _ => inferInstanceAs (Decidable (IsSystem e.2))

/-- The signal in front, if it is a system signal. -/
def systemSignal? {α : Type} : List (α × RaftSignal) → Option RaftSignal
  | [] => none
  | e :: _ => if IsSystem e.2 then some e.2 else none

section Contents

variable [∀ k, NeZero (caps k)]

/-- The queue of each port holds `contents k`. -/
def HoldsAll (s : Inputs T caps) (contents : ∀ k, List (T k × RaftSignal)) : Prop :=
  ∀ k, Holds (s.queue k) (contents k)

/-- **What a look should do.** It returns; each queue with a system signal in front has lost that entry and
nothing else, the others nothing; the handler has been called once for each entry removed, in the order of
the ports; and the look says stop exactly if a handler has. -/
def Handles (handlers : Handlers T caps) (s : Inputs T caps) (contents : ∀ k, List (T k × RaftSignal)) :
    Prop :=
  ∃ status s', (checkSystemSignal handlers).run s = .ok status s' ∧
    HoldsAll s' (fun k => if SystemHead (contents k) then (contents k).tail else contents k) ∧
    (∃ calls, s'.called = s.called ++ calls ∧
      calls.map (fun c => (c.1, c.2.1)) =
        (List.finRange n).filterMap (fun k => (systemSignal? (contents k)).map fun sig => (k, sig)) ∧
      (status = .stop ↔ ∃ c ∈ calls, c.2.2 = .stop))

/-! ## The loop, port by port -/

variable {s : Inputs T caps} {contents : ∀ k, List (T k × RaftSignal)}

omit [∀ k, NeZero (caps k)] in
theorem onPort_ok {k : Fin n} {x : Call (T k) (caps k) α} {a : α}
    (h : x.run (s.queue k) = .ok a (s.queue k)) : (onPort k x).run s = .ok a s := by
  show onPort k x s = _
  rw [onPort, h]
  simp [setQueue]

/-- With an entry in front its signal is looked at. -/
theorem checkPort_run (handlers : Handlers T caps) (h : HoldsAll s contents) (retSignal : Kstatus) {k : Fin n} {e : T k × RaftSignal}
    {es : List (T k × RaftSignal)} (hes : contents k = e :: es) : (checkPort handlers retSignal k).run s =
      (if IsSystem e.2 then do
        onPort k signalPop
        let status ← callHandler handlers e.2 k
        return if status = .stop then .stop else retSignal
      else return retSignal : Prog T caps Kstatus).run s := by
  have hsize := onPort_ok (RingBuffer.size_run (h k))
  have hsig : ((s.queue k).buffer.signal (s.queue k).buffer.readPt.val).sig = e.2 :=
    congrArg Prod.snd (hes ▸ h k).head
  have hpeek : (onPort k signalPeek).run s = .ok e.2 s :=
    onPort_ok (show EStateM.Result.ok _ _ = _ by rw [hsig])
  rw [checkPort, run_bind_of_ok hsize, hes, List.length_cons, if_neg (Nat.succ_ne_zero es.length),
    run_bind_of_ok hpeek]

/-- At a port without a system signal in front nothing happens. -/
theorem checkPort_idle (handlers : Handlers T caps) (h : HoldsAll s contents) (retSignal : Kstatus) {k : Fin n}
    (hk : ¬SystemHead (contents k)) : (checkPort handlers retSignal k).run s = .ok retSignal s := by
  cases hes : contents k with
  | nil =>
      have hsize := onPort_ok (RingBuffer.size_run (h k))
      rw [checkPort, run_bind_of_ok hsize, hes]
      rfl
  | cons e es =>
      rw [hes] at hk
      rw [checkPort_run handlers h retSignal hes, if_neg (show ¬IsSystem e.2 from hk)]
      rfl

/-- At one with a system signal the assertion fails. -/
theorem checkPort_asserts (handlers : Handlers T caps) (h : HoldsAll s contents) (retSignal : Kstatus) {k : Fin n}
    (hk : SystemHead (contents k)) :
    ∃ s', (checkPort handlers retSignal k).run s = .error (.queue .assertion) s' := by
  cases hes : contents k with
  | nil =>
      rw [hes] at hk
      exact hk.elim
  | cons e es =>
      rw [hes] at hk
      obtain ⟨rb, hpop⟩ := signalPop_asserts (hes ▸ h k)
      have hport : (onPort k signalPop).run s = .error (.queue .assertion) (s.setQueue k rb) := by
        show onPort k signalPop s = _
        rw [onPort, hpop]
      rw [checkPort_run handlers h retSignal hes, if_pos (show IsSystem e.2 from hk)]
      exact ⟨_, run_bind_of_error hport⟩

/-- **The look comes to the end of the ports** exactly if no system signal is in front of one. -/
theorem foldlM_checkPort (handlers : Handlers T caps) (h : HoldsAll s contents) (retSignal : Kstatus) (ports : List (Fin n)) :
    if ∃ k ∈ ports, SystemHead (contents k) then
      ∃ s', (ports.foldlM (checkPort handlers) retSignal).run s = .error (.queue .assertion) s'
    else (ports.foldlM (checkPort handlers) retSignal).run s = .ok retSignal s := by
  induction ports with
  | nil => simp
  | cons k ports ih =>
      by_cases hk : SystemHead (contents k)
      · obtain ⟨s', hs'⟩ := checkPort_asserts handlers h retSignal hk
        rw [if_pos ⟨k, List.mem_cons_self, hk⟩]
        exact ⟨s', by rw [List.foldlM_cons, run_bind_of_error hs']⟩
      · have hidle := checkPort_idle handlers h retSignal hk
        rw [List.foldlM_cons, run_bind_of_ok hidle]
        simpa [hk] using ih

/-- **A look does what it should exactly if no system signal is in front of a queue.** -/
theorem handles_iff {handlers : Handlers T caps} (h : HoldsAll s contents) :
    Handles handlers s contents ↔ ∀ k, ¬SystemHead (contents k) := by
  have hloop := foldlM_checkPort handlers h .proceed (List.finRange n)
  constructor
  · rintro ⟨status, s', hrun, -⟩ k hk
    rw [if_pos ⟨k, List.mem_finRange k, hk⟩] at hloop
    obtain ⟨t, ht⟩ := hloop
    exact nomatch hrun.symm.trans ht
  · intro hnone
    rw [if_neg fun ⟨k, _, hk⟩ => hnone k hk] at hloop
    refine ⟨.proceed, s, hloop, fun k => ?_, [], ?_, ?_, ?_⟩
    · show Holds (s.queue k) (if SystemHead (contents k) then (contents k).tail else contents k)
      rw [if_neg (hnone k)]
      exact h k
    · rw [List.append_nil]
    · refine (List.filterMap_eq_nil_iff.mpr fun k _ => ?_).symm
      have hk := hnone k
      cases hes : contents k with
      | nil => rfl
      | cons e es =>
          rw [hes] at hk
          exact congrArg (Option.map _) (if_neg hk)
    · exact ⟨(nomatch ·), fun ⟨_, hmem, _⟩ => absurd hmem List.not_mem_nil⟩

end Contents

/-! ## One port -/

/-- `Schedule::quitHandler`, the one that is registered. -/
def quitHandler {n : Nat} {T : Fin n → Type} {caps : Fin n → Nat} : Handlers T caps := fun signal =>
  if signal = RaftSignal.quit then some fun _ => do
    RingBuffer.invalidate
    return .stop
  else none

local instance twoPlaces : NeZero 2 := ⟨by decide⟩

/-- A kernel with one input, which holds one word with the given signal. -/
def oneInput (signal : RaftSignal) : Inputs (fun _ : Fin 1 => Nat) (fun _ => 2) where
  queue := fun _ => RingBuffer.pushed 7 signal (RingBuffer.init fun _ => 0)

theorem holdsAll_oneInput (signal : RaftSignal) : HoldsAll (oneInput signal) fun _ => [(7, signal)] :=
  fun _ => RingBuffer.holds_pushed (Holds.init _) Nat.two_pos 7 signal

/-- `eof` is no system signal. -/
theorem handles_iff_eof : Handles quitHandler (oneInput RaftSignal.eof) fun _ => [(7, RaftSignal.eof)] :=
  (handles_iff (holdsAll_oneInput _)).mpr (by decide)

/-- `quit` is one, and has a handler. -/
theorem quit_asserts :
    ¬Handles quitHandler (oneInput RaftSignal.quit) fun _ => [(7, RaftSignal.quit)] := by
  rintro ⟨status, s', hrun, -⟩
  obtain ⟨t, ht⟩ := checkPort_asserts quitHandler (holdsAll_oneInput RaftSignal.quit) .proceed
    (k := 0) (by decide)
  have hlook : (checkSystemSignal quitHandler).run (oneInput RaftSignal.quit) =
      .error (.queue .assertion) t := run_bind_of_error ht
  exact nomatch hrun.symm.trans hlook

end Inputs

end RaftLib.Threads
