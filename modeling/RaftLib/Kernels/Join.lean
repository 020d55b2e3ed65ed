/-
# `RaftLib.Kernels.Join` -- the kernel that merges its inputs into one stream

`join` (`join.tcc`) with the round-robin method (`splitmethod.hpp`, `roundrobin.cpp`). A run allocates a
place in the output queue, has an item popped into it from the first input that holds one, and sends it
with the signal it came with. Nothing else touches the queues during a `run`; between two of them
anybody may.
-/
import RaftLib.Kernels.Split

namespace RaftLib.Kernels

open RaftLib.Logic.Program
open RaftLib.Logic.Steps (Run)
open RaftLib.Queue

/-- The input queues, in the order in which a `Port` lists them, and the output queue. -/
structure Join (T : Type) {n : Nat} (caps : Fin n → Nat) (cap : Nat) where
  input : ∀ k, RingBuffer T (caps k)
  output : RingBuffer T cap

namespace Join

open Split (Functype)

variable {T : Type} {cap n : Nat} {caps : Fin n → Nat} {α : Type}

abbrev Prog (T : Type) {n : Nat} (caps : Fin n → Nat) (cap : Nat) (α : Type) :=
  EStateM Stop (Join T caps cap) α

/-- The kernel with another queue at input `k`. -/
def setInput (s : Join T caps cap) (k : Fin n) (rb : RingBuffer T (caps k)) : Join T caps cap :=
  { s with input := Function.update s.input k rb }

/-- The kernel with another output queue. -/
def setOutput (s : Join T caps cap) (rb : RingBuffer T cap) : Join T caps cap :=
  { s with output := rb }

/-- A call on input queue `k`. -/
def onInput (k : Fin n) (x : Call T (caps k) α) : Prog T caps cap α := fun s =>
  match x.run (s.input k) with
  | .ok a rb => .ok a (s.setInput k rb)
  | .error e rb => .error e (s.setInput k rb)

/-- A call on the output queue. -/
def onOutput (x : Call T cap α) : Prog T caps cap α := fun s =>
  match x.run s.output with
  | .ok a rb => .ok a (s.setOutput rb)
  | .error e rb => .error e (s.setOutput rb)

/-! ## The kernel (`roundrobin.cpp`, `splitmethod.hpp`, `join.tcc`) -/

/-- One pass of `select_fifo` over the inputs, up to the first that will do. -/
def selectFrom (type : Functype) : List (Fin n) → Prog T caps cap (Option (Fin n))
  | [] => return none
  | k :: ports => do
      match type with
      | .sendtype =>
          let space ← onInput k RingBuffer.spaceAvail
          if 0 < space then return some k else selectFrom type ports
      | .gettype =>
          let size ← onInput k RingBuffer.size
          if 0 < size then return some k else selectFrom type ports

/-- `select_fifo`; with no port that will do it goes round again. -/
def selectFifo (type : Functype) : Prog T caps cap (Fin n) := do
  match ← selectFrom type (List.finRange n) with
  | some k => return k
  | none => throw .wait

/-- `splitmethod::get( item, signal, inputs )`, where `item` is the place `mem` of the output queue. -/
def get (mem : Fin cap) : Prog T caps cap (Bool × RaftSignal) := do
  let fifo ← selectFifo .gettype
  let (item, signal) ← onInput fifo RingBuffer.pop
  onOutput (modify (RingBuffer.putStore mem item))
  return (true, signal)

/-- `run`. -/
def run : Prog T caps cap Kstatus := do
  let mem ← onOutput RingBuffer.localAllocate
  let (got, tempSignal) ← get mem
  if got then
    onOutput (RingBuffer.send tempSignal)
  else
    onOutput RingBuffer.deallocate
  return .proceed

/-! ## Calls on one of the queues -/

theorem onInput_ok {k : Fin n} {x : Call T (caps k) α} {s : Join T caps cap} {a : α}
    {rb : RingBuffer T (caps k)} (h : x.run (s.input k) = .ok a rb) :
    (onInput k x).run s = .ok a (s.setInput k rb) := by
  show onInput k x s = _
  rw [onInput, h]

theorem onInput_error {k : Fin n} {x : Call T (caps k) α} {s : Join T caps cap} {e : Stop}
    {rb : RingBuffer T (caps k)} (h : x.run (s.input k) = .error e rb) :
    (onInput k x).run s = .error e (s.setInput k rb) := by
  show onInput k x s = _
  rw [onInput, h]

theorem onOutput_ok {x : Call T cap α} {s : Join T caps cap} {a : α} {rb : RingBuffer T cap}
    (h : x.run s.output = .ok a rb) : (onOutput x).run s = .ok a (s.setOutput rb) := by
  show onOutput x s = _
  rw [onOutput, h]

theorem onOutput_error {x : Call T cap α} {s : Join T caps cap} {e : Stop} {rb : RingBuffer T cap}
    (h : x.run s.output = .error e rb) : (onOutput x).run s = .error e (s.setOutput rb) := by
  show onOutput x s = _
  rw [onOutput, h]

@[simp] theorem setInput_input (s : Join T caps cap) (k : Fin n) : s.setInput k (s.input k) = s := by
  simp [setInput]

/-! ## What the queues hold -/

section Contents

variable [NeZero cap] [∀ k, NeZero (caps k)]

/-- Input `k` holds `ins k` and the output holds `out`, oldest first. -/
structure HoldsAll (s : Join T caps cap) (ins : ∀ _ : Fin n, List (T × RaftSignal))
    (out : List (T × RaftSignal)) : Prop where
  input : ∀ k, Holds (s.input k) (ins k)
  output : Holds s.output out

/-- The input that round robin takes: the first that holds an item. -/
def firstWithItem (ins : ∀ _ : Fin n, List (T × RaftSignal)) : Option (Fin n) :=
  (List.finRange n).find? fun k => decide (0 < (ins k).length)

variable {s t : Join T caps cap} {ins : ∀ _ : Fin n, List (T × RaftSignal)}
  {out : List (T × RaftSignal)} {k : Fin n} {e : T × RaftSignal}

theorem HoldsAll.setOutput (h : HoldsAll s ins out) {rb : RingBuffer T cap}
    {es : List (T × RaftSignal)} (hrb : Holds rb es) : HoldsAll (s.setOutput rb) ins es :=
  ⟨h.input, hrb⟩

theorem HoldsAll.setInput (h : HoldsAll s ins out) {rb : RingBuffer T (caps k)}
    {es : List (T × RaftSignal)} (hrb : Holds rb es) :
    HoldsAll (s.setInput k rb) (Function.update ins k es) out where
  input := by
    intro j
    by_cases hj : j = k
    · subst hj
      simpa [Join.setInput] using hrb
    · simpa [Join.setInput, hj] using h.input j
  output := h.output

/-- Asking the inputs changes nothing, and finds the first with an item. -/
theorem selectFrom_run (h : HoldsAll s ins out) (ports : List (Fin n)) :
    (selectFrom .gettype ports : Prog T caps cap _).run s =
      .ok (ports.find? fun k => decide (0 < (ins k).length)) s := by
  induction ports with
  | nil => rfl
  | cons k ports ih =>
      have hsize := onInput_ok (s := s) (RingBuffer.size_run (h.input k))
      rw [setInput_input] at hsize
      simp only [selectFrom, run_bind_of_ok hsize]
      by_cases hitem : 0 < (ins k).length
      · rw [if_pos hitem, List.find?_cons_of_pos (by simpa using hitem)]
        rfl
      · rw [if_neg hitem, List.find?_cons_of_neg (by simpa using hitem), ih]

theorem selectFifo_run (h : HoldsAll s ins out) (hk : firstWithItem ins = some k) :
    (selectFifo .gettype : Prog T caps cap _).run s = .ok k s := by
  have hfrom := selectFrom_run h (List.finRange n)
  rw [show (List.finRange n).find? _ = some k from hk] at hfrom
  rw [selectFifo, run_bind_of_ok hfrom]
  rfl

theorem selectFifo_empty (h : HoldsAll s ins out) (hk : firstWithItem ins = none) :
    (selectFifo .gettype : Prog T caps cap _).run s = .error .wait s := by
  have hfrom := selectFrom_run h (List.finRange n)
  rw [show (List.finRange n).find? _ = none from hk] at hfrom
  rw [selectFifo, run_bind_of_ok hfrom]
  rfl

/-! ## One run -/

/-- The item that `get` finds is popped into the place. -/
theorem get_run (h : HoldsAll s ins out) (hk : firstWithItem ins = some k)
    {es : List (T × RaftSignal)} (hes : ins k = e :: es) (mem : Fin cap) :
    (get mem : Prog T caps cap _).run s = .ok (true, e.2)
      ((s.setInput k (RingBuffer.popped (s.input k))).setOutput
        (RingBuffer.putStore mem e.1 s.output)) := by
  have hhead := h.input k
  rw [hes] at hhead
  have hpop := onInput_ok (s := s) (RingBuffer.pop_run hhead)
  rw [get, run_bind_of_ok (selectFifo_run h hk), run_bind_of_ok hpop]
  rfl

/-- **A run that can** moves the oldest item of the first input that has one, with its signal, to the
end of the output. -/
theorem run_spec (h : HoldsAll s ins out) (hroom : out.length < cap) (hk : firstWithItem ins = some k)
    {es : List (T × RaftSignal)} (hes : ins k = e :: es) :
    ∃ s', run.run s = .ok .proceed s' ∧ HoldsAll s' (Function.update ins k es) (out ++ [e]) := by
  have halloc := onOutput_ok (s := s) (RingBuffer.localAllocate_run h.output hroom)
  have hplace : HoldsAll (s.setOutput (RingBuffer.allocated s.output)) ins out :=
    h.setOutput (RingBuffer.holds_allocated h.output)
  have hget := get_run hplace hk hes s.output.buffer.writePt.a
  have hpopped : Holds (RingBuffer.popped (s.input k)) es :=
    RingBuffer.holds_popped (hes ▸ h.input k)
  -- the item is in its place, and not yet published
  have hstored : Holds (RingBuffer.putStore s.output.buffer.writePt.a e.1
      (RingBuffer.allocated s.output)) out := RingBuffer.holds_putStore hplace.output hroom e.1
  have hstore : (RingBuffer.putStore s.output.buffer.writePt.a e.1
      (RingBuffer.allocated s.output)).buffer.store (RingBuffer.putStore s.output.buffer.writePt.a e.1
        (RingBuffer.allocated s.output)).buffer.writePt.a = e.1 := Function.update_self _ _ _
  have hsent := RingBuffer.holds_sent hstored hroom e.2
  rw [hstore] at hsent
  refine ⟨_, ?_, (h.setInput hpopped).setOutput hsent⟩
  · have hsend := onOutput_ok (s := ((s.setOutput (RingBuffer.allocated s.output)).setInput k
      (RingBuffer.popped (s.input k))).setOutput (RingBuffer.putStore s.output.buffer.writePt.a e.1
        (RingBuffer.allocated s.output))) (RingBuffer.send_run rfl e.2)
    rw [run, run_bind_of_ok halloc, run_bind_of_ok hget]
    exact run_bind_of_ok hsend

/-- A run with no room in the output, or with no item in any input, goes round and does not return. -/
theorem run_waits (h : HoldsAll s ins out) (hnot : ¬out.length < cap ∨ firstWithItem ins = none) :
    ∃ s', run.run s = .error .wait s' := by
  by_cases hroom : out.length < cap
  · have hk : firstWithItem ins = none := hnot.resolve_left (not_not_intro hroom)
    have halloc := onOutput_ok (s := s) (RingBuffer.localAllocate_run h.output hroom)
    have hplace := h.setOutput (RingBuffer.holds_allocated h.output)
    refine ⟨s.setOutput (RingBuffer.allocated s.output), ?_⟩
    rw [run, run_bind_of_ok halloc]
    apply run_bind_of_error
    rw [get]
    exact run_bind_of_error (selectFifo_empty hplace hk)
  · obtain ⟨rb, hfull⟩ := RingBuffer.localAllocate_full h.output hroom
    exact ⟨_, run_bind_of_error (onOutput_error hfull)⟩

/-- The first input with an item has one. -/
theorem exists_head (hk : firstWithItem ins = some k) : ∃ e es, ins k = e :: es := by
  have hlength := List.find?_some hk
  exact List.exists_cons_of_length_pos (of_decide_eq_true hlength)

/-- When some input has an item, there is a first one. -/
theorem exists_firstWithItem {j : Fin n} (hj : ins j ≠ []) : ∃ k, firstWithItem ins = some k := by
  refine Option.ne_none_iff_exists'.mp fun hnone => ?_
  have hall := List.find?_eq_none.mp hnone j (List.mem_finRange j)
  exact hall (decide_eq_true (List.length_pos_iff.mpr hj))

/-! ## Many runs -/

/-- What happens around the kernel: an item arrives at an input, an item leaves the output, the kernel
runs. -/
inductive Event (T : Type) (n : Nat) where
  | arrived (k : Fin n) (e : T × RaftSignal)
  | left (e : T × RaftSignal)
  | ran

/-- An event that goes through. -/
def Step (s : Join T caps cap) : Event T n → Join T caps cap → Prop
  | .arrived k e, t => (onInput k (RingBuffer.localPush (some e.1) e.2)).run s = .ok ⟨⟩ t
  | .left e, t => (onOutput RingBuffer.pop).run s = .ok e t
  | .ran, t => run.run s = .ok .proceed t

/-- What arrived at input `k`, in order. -/
def arrivals (k : Fin n) : List (Event T n) → List (T × RaftSignal)
  | [] => []
  | .arrived j e :: ls => if j = k then e :: arrivals k ls else arrivals k ls
  | _ :: ls => arrivals k ls

/-- What left the output, in order. -/
def departures : List (Event T n) → List (T × RaftSignal)
  | [] => []
  | .left e :: ls => e :: departures ls
  | _ :: ls => departures ls

/-- How many runs there were. -/
def runs : List (Event T n) → Nat
  | [] => 0
  | .ran :: ls => runs ls + 1
  | _ :: ls => runs ls

/-- What came from input `k`, among items with the input they came from. -/
def cameFrom (k : Fin n) (written : List (Fin n × (T × RaftSignal))) : List (T × RaftSignal) :=
  (written.filter fun m => decide (m.1 = k)).map Prod.snd

/-- **Nothing lost, nothing twice.** What was written to the output, one item in each run, is a merge of
the inputs: of each input it has, in order, what was there and what arrived, up to what is still there. -/
structure Accounts (ins : ∀ _ : Fin n, List (T × RaftSignal)) (out : List (T × RaftSignal))
    (ls : List (Event T n)) (written : List (Fin n × (T × RaftSignal)))
    (ins' : ∀ _ : Fin n, List (T × RaftSignal)) (out' : List (T × RaftSignal)) : Prop where
  input : ∀ k, ins k ++ arrivals k ls = cameFrom k written ++ ins' k
  output : out ++ written.map Prod.snd = departures ls ++ out'
  runs : written.length = runs ls

theorem step_arrived (h : HoldsAll s ins out) (hstep : Step s (.arrived k e) t) :
    HoldsAll t (Function.update ins k (ins k ++ [e])) out := by
  by_cases hroom : (ins k).length < caps k
  · have hpush := onInput_ok (s := s) (RingBuffer.localPush_run (h.input k) hroom e.1 e.2)
    have ht := (EStateM.Result.ok.inj (hpush.symm.trans hstep)).2
    exact ht ▸ h.setInput (RingBuffer.holds_pushed (h.input k) hroom e.1 e.2)
  · obtain ⟨rb, hfull⟩ := RingBuffer.localPush_full (h.input k) hroom (some e.1) e.2
    have := (onInput_error hfull).symm.trans hstep
    cases this

theorem step_left (h : HoldsAll s ins out) (hstep : Step s (.left e) t) :
    ∃ es, out = e :: es ∧ HoldsAll t ins es := by
  cases hout : out with
  | nil =>
      obtain ⟨x, rb, hempty⟩ := RingBuffer.pop_empty (hout ▸ h.output)
      have := (onOutput_error hempty).symm.trans hstep
      cases this
  | cons e' es =>
      have hholds : Holds s.output (e' :: es) := hout ▸ h.output
      have hpop := onOutput_ok (s := s) (RingBuffer.pop_run hholds)
      obtain ⟨rfl, ht⟩ := EStateM.Result.ok.inj (hpop.symm.trans hstep)
      exact ⟨es, rfl, ht ▸ h.setOutput (RingBuffer.holds_popped hholds)⟩

theorem step_ran (h : HoldsAll s ins out) (hstep : Step s .ran t) :
    ∃ k e es, ins k = e :: es ∧ HoldsAll t (Function.update ins k es) (out ++ [e]) := by
  by_cases hnot : ¬out.length < cap ∨ firstWithItem ins = none
  · obtain ⟨s', hrun⟩ := run_waits h hnot
    have := hrun.symm.trans hstep
    cases this
  · obtain ⟨hroom, hsome⟩ := not_or.mp hnot
    obtain ⟨k, hk⟩ := Option.ne_none_iff_exists'.mp hsome
    obtain ⟨e, es, hes⟩ := exists_head hk
    obtain ⟨s', hrun, hholds⟩ := run_spec h (not_not.mp hroom) hk hes
    have ht := (EStateM.Result.ok.inj (hrun.symm.trans hstep)).2
    exact ⟨k, e, es, hes, ht ▸ hholds⟩

/-- Any sequence of events balances. -/
theorem accounts_of_run {ls : List (Event T n)} (hrun : Run Step s ls t) :
    ∀ {ins : ∀ _ : Fin n, List (T × RaftSignal)} {out : List (T × RaftSignal)}, HoldsAll s ins out →
      ∃ written ins' out', HoldsAll t ins' out' ∧ Accounts ins out ls written ins' out' := by
  induction hrun with
  | nil s =>
      intro ins out h
      exact ⟨[], ins, out, h, by simp [arrivals, cameFrom], by simp [departures], rfl⟩
  | @cons s m t l ls hstep _ ih =>
      intro ins out h
      cases l with
      | arrived k e =>
          obtain ⟨written, ins', out', ht, hin, hout, hruns⟩ := ih (step_arrived h hstep)
          refine ⟨written, ins', out', ht, fun j => ?_, hout, hruns⟩
          have hj := hin j
          by_cases hkj : k = j
          · subst hkj
            rw [Function.update_self, List.append_assoc] at hj
            rw [arrivals, if_pos rfl, ← hj]
            rfl
          · rw [Function.update_of_ne (Ne.symm hkj)] at hj
            rw [arrivals, if_neg hkj, hj]
      | left e =>
          obtain ⟨es, rfl, hm⟩ := step_left h hstep
          obtain ⟨written, ins', out', ht, hin, hout, hruns⟩ := ih hm
          refine ⟨written, ins', out', ht, hin, ?_, hruns⟩
          rw [departures, List.cons_append, List.cons_append, hout]
      | ran =>
          obtain ⟨k, e, es, hes, hm⟩ := step_ran h hstep
          obtain ⟨written, ins', out', ht, hin, hout, hruns⟩ := ih hm
          refine ⟨(k, e) :: written, ins', out', ht, fun j => ?_, ?_, congrArg (· + 1) hruns⟩
          · have hj := hin j
            by_cases hkj : k = j
            · subst hkj
              rw [Function.update_self] at hj
              rw [cameFrom, List.filter_cons_of_pos (by simp), hes, List.cons_append, List.map_cons,
                List.cons_append]
              exact congrArg (e :: ·) hj
            · rw [Function.update_of_ne (Ne.symm hkj)] at hj
              rw [cameFrom, List.filter_cons_of_neg (by simpa using hkj)]
              exact hj
          · rw [List.map_cons]
            rw [List.append_assoc] at hout
            exact hout

/-- **Join.** Over any sequence of arrivals, departures and runs, what is written to the output is a
merge of the inputs without loss, of one item for each run; and whenever an input has an item and the
output has room, a run returns and moves one. -/
theorem join_merges (h : HoldsAll s ins out) {ls : List (Event T n)} (hrun : Run Step s ls t) :
    ∃ written ins' out', HoldsAll t ins' out' ∧ Accounts ins out ls written ins' out' ∧
      ((∃ k, ins' k ≠ []) → out'.length < cap → ∃ k e es t', ins' k = e :: es ∧ Step t .ran t' ∧
        HoldsAll t' (Function.update ins' k es) (out' ++ [e])) := by
  obtain ⟨written, ins', out', ht, haccounts⟩ := accounts_of_run hrun h
  refine ⟨written, ins', out', ht, haccounts, ?_⟩
  rintro ⟨j, hj⟩ hroom
  obtain ⟨k, hk⟩ := exists_firstWithItem hj
  obtain ⟨e, es, hes⟩ := exists_head hk
  obtain ⟨t', hrun, hmoved⟩ := run_spec ht hroom hk hes
  exact ⟨k, e, es, t', hes, hrun, hmoved⟩

end Contents

/-- A kernel with two words in its first input and one in its second, and an empty output. -/
def merging : Join Nat (fun _ : Fin 2 => 4) 2 where
  input := fun k => if k = 0 then Split.twoItems else Split.secondPlace
  output := RingBuffer.init fun _ => 0

/-- What its inputs hold. -/
def mergingIns (k : Fin 2) : List (Nat × RaftSignal) :=
  if k = 0 then [(7, RaftSignal.none), (8, RaftSignal.eof)] else [(8, RaftSignal.eof)]

theorem holdsAll_merging : HoldsAll merging mergingIns [] where
  input := fun k =>
    match k with
    | 0 => Split.holds_twoItems
    | 1 => RingBuffer.holds_popped Split.holds_twoItems
  output := Holds.init _

/-- One run, and the next one. -/
theorem join_merges_once : ∃ t written ins' out', Run Step merging [.ran] t ∧ HoldsAll t ins' out' ∧
    Accounts mergingIns [] [.ran] written ins' out' ∧ out'.length = 1 ∧
    ∃ k e es t', ins' k = e :: es ∧ Step t .ran t' ∧
      HoldsAll t' (Function.update ins' k es) (out' ++ [e]) := by
  obtain ⟨t, hran, -⟩ := run_spec holdsAll_merging (by decide) (k := 0) (by decide) rfl
  have hrun : Run Step merging [.ran] t := .single hran
  obtain ⟨written, ins', out', ht, haccounts, hnext⟩ := join_merges holdsAll_merging hrun
  have hlength : out'.length = 1 := by
    have hout : written.map Prod.snd = out' := haccounts.output
    rw [← hout, List.length_map]
    exact haccounts.runs
  refine ⟨t, written, ins', out', hrun, ht, haccounts, hlength, hnext ⟨0, fun hnil => ?_⟩ ?_⟩
  · -- one item has been written, and the first input had two
    have hin := congrArg List.length (haccounts.input 0)
    rw [hnil, List.append_nil, cameFrom, List.length_map] at hin
    have hle := List.length_filter_le (fun m => decide (m.1 = (0 : Fin 2))) written
    have hruns : written.length = 1 := haccounts.runs
    have htwo : (mergingIns 0 ++ arrivals (0 : Fin 2) [.ran]).length = 2 := rfl
    omega
  · rw [hlength]
    exact Nat.one_lt_two

end Join

end RaftLib.Kernels
