/-
# `RaftLib.Kernels.RoundRobin` -- which port `roundrobin` selects, call after call

`roundrobin::select_fifo` (`roundrobin.cpp`), for both directions, over many calls. The object has no
member that says where the last call ended, so each call begins with the first port again: as long as the
same ports are eligible it returns the same one. That is a fair round only if one port is eligible, or if
the stretch ends before a round does (`fair_iff`).
-/
import Mathlib.Data.Finset.Card
import Mathlib.Data.List.Infix
import RaftLib.Kernels.Split

namespace RaftLib.Kernels

open RaftLib.Logic.Program
open RaftLib.Queue

/-! ## Fair rounds -/

section Rounds

variable {α : Type} [DecidableEq α] {E : Finset α} {k : α}

/-- Each block of as many calls as there are eligible ports has every one of them once. -/
def Fair (E : Finset α) (ports : List α) : Prop :=
  ∀ block, block <:+: ports → block.length = E.card → ∀ k ∈ E, block.count k = 1

/-- **Calls that all return one port are fair** if there is no other, or not enough calls. -/
theorem fair_replicate_iff (hk : k ∈ E) {calls : Nat} :
    Fair E (List.replicate calls k) ↔ E.card ≤ 1 ∨ calls < E.card := by
  constructor
  · intro hfair
    by_contra! hnot
    obtain ⟨hmany, henough⟩ := hnot
    -- the first block has room for another port, and does not have it
    obtain ⟨j, hj, hne⟩ := Finset.exists_mem_ne hmany k
    have hinfix : List.replicate E.card k <:+: List.replicate calls k :=
      List.infix_replicate_iff.mpr ⟨by rwa [List.length_replicate], by rw [List.length_replicate]⟩
    have hcount := hfair _ hinfix List.length_replicate j hj
    rw [List.count_replicate, if_neg (by simpa using hne.symm)] at hcount
    exact absurd hcount Nat.zero_ne_one
  · intro h block hblock hlength j hj
    obtain ⟨hle, heq⟩ := List.infix_replicate_iff.mp hblock
    have hone : E.card ≤ 1 := h.resolve_right (by omega)
    have hpos : 0 < E.card := Finset.card_pos.mpr ⟨k, hk⟩
    obtain rfl : j = k := Finset.card_le_one.mp hone j hj k hk
    rw [heq, List.count_replicate_self]
    omega

end Rounds

namespace Split

variable {T : Type} {cap n : Nat} {caps : Fin n → Nat} [NeZero cap] [∀ k, NeZero (caps k)]
variable {type : Functype} {s s' : Split T cap caps} {ins : List (T × RaftSignal)}
  {outs : ∀ _ : Fin n, List (T × RaftSignal)} {k : Fin n} {E : Finset (Fin n)}

/-! ## One call

The ports are the `output` queues here, in either direction: the type of the call decides what
`select_fifo` asks them. -/

/-- What a port must have to be returned: room to send, an item to receive. -/
def Eligible (type : Functype) (caps : Fin n → Nat) (outs : ∀ _ : Fin n, List (T × RaftSignal))
    (k : Fin n) : Prop :=
  match type with
  | .sendtype => (outs k).length < caps k
  | .gettype => 0 < (outs k).length

instance (type : Functype) (caps : Fin n → Nat) (outs : ∀ _ : Fin n, List (T × RaftSignal)) :
    DecidablePred (Eligible type caps outs) := fun _ => by
  cases type
  · exact Nat.decLt _ _
  · exact Nat.decLt _ _

/-- A pass changes nothing, and ends at the first eligible port. -/
theorem selectFrom_eligible (h : HoldsAll s ins outs) (type : Functype) (ports : List (Fin n)) :
    (selectFrom type ports : Prog T cap caps _).run s =
      .ok (ports.find? fun k => decide (Eligible type caps outs k)) s := by
  induction ports with
  | nil => rfl
  | cons k ports ih =>
      cases type with
      | sendtype =>
          rw [selectFrom_run h]
          rfl
      | gettype =>
          have hsize := onOutput_ok (s := s) (RingBuffer.size_run (h.output k))
          rw [setOutput_output] at hsize
          simp only [selectFrom, run_bind_of_ok hsize]
          by_cases hitem : Eligible .gettype caps outs k
          · rw [if_pos (show 0 < (outs k).length from hitem),
              List.find?_cons_of_pos (by simpa using hitem)]
            rfl
          · rw [if_neg (show ¬0 < (outs k).length from hitem), ih,
              List.find?_cons_of_neg (by simpa using hitem)]

/-- **A call returns the first eligible port**, and waits if there is none. -/
theorem selectFifo_iff (h : HoldsAll s ins outs) :
    (selectFifo type : Prog T cap caps _).run s = .ok k s' ↔
      (List.finRange n).find? (fun j => decide (Eligible type caps outs j)) = some k ∧ s' = s := by
  rw [selectFifo, run_bind_of_ok (selectFrom_eligible h type (List.finRange n))]
  cases (List.finRange n).find? fun j => decide (Eligible type caps outs j) with
  | none =>
      constructor
      · intro hrun
        cases hrun
      · rintro ⟨hj, -⟩
        cases hj
  | some j =>
      constructor
      · intro hrun
        obtain ⟨hj, hs⟩ := EStateM.Result.ok.inj hrun
        exact ⟨congrArg some hj, hs.symm⟩
      · rintro ⟨hj, rfl⟩
        obtain rfl := Option.some_inj.mp hj
        rfl

/-! ## A stretch of calls -/

/-- Successive calls, each with the queues as it finds them and the port that it returns; the ports of
`E` are the eligible ones at each of them. -/
def Stretch (type : Functype) (E : Finset (Fin n)) (calls : List (Split T cap caps × Fin n)) : Prop :=
  ∀ c ∈ calls, (∃ s', (selectFifo type).run c.1 = .ok c.2 s') ∧
    ∃ ins outs, HoldsAll c.1 ins outs ∧ ∀ k, k ∈ E ↔ Eligible type caps outs k

/-- A call of a stretch returns the first port of `E`, whatever the queues hold. -/
theorem Stretch.port_eq {calls : List (Split T cap caps × Fin n)} (h : Stretch type E calls)
    {c : Split T cap caps × Fin n} (hc : c ∈ calls) :
    (List.finRange n).find? (fun j => decide (j ∈ E)) = some c.2 := by
  obtain ⟨⟨s', hrun⟩, ins, outs, hholds, heligible⟩ := h c hc
  have hfind := ((selectFifo_iff hholds).mp hrun).1
  simpa only [← heligible] using hfind

/-- So all of them return the same one. -/
theorem Stretch.ports_eq {calls : List (Split T cap caps × Fin n)} (h : Stretch type E calls)
    {k : Fin n} (hk : (List.finRange n).find? (fun j => decide (j ∈ E)) = some k) :
    calls.map Prod.snd = List.replicate calls.length k := by
  refine List.eq_replicate_iff.mpr ⟨List.length_map Prod.snd, fun port hport => ?_⟩
  obtain ⟨c, hc, rfl⟩ := List.mem_map.mp hport
  exact Option.some_inj.mp ((h.port_eq hc).symm.trans hk)

/-- **Round robin is fair exactly if** at most one port is eligible, or fewer calls are made than ports
are eligible. -/
theorem fair_iff {calls : List (Split T cap caps × Fin n)} (h : Stretch type E calls) :
    Fair E (calls.map Prod.snd) ↔ E.card ≤ 1 ∨ calls.length < E.card := by
  cases hk : (List.finRange n).find? fun j => decide (j ∈ E) with
  | none =>
      -- no port is eligible, and no call returns
      have hnone : E = ∅ := Finset.eq_empty_of_forall_notMem fun j hj =>
        List.find?_eq_none.mp hk j (List.mem_finRange j) (decide_eq_true hj)
      subst hnone
      exact ⟨fun _ => .inl (Nat.zero_le 1), fun _ _ _ _ j hj => absurd hj (Finset.notMem_empty j)⟩
  | some k =>
      rw [h.ports_eq hk]
      exact fair_replicate_iff (by simpa using List.find?_some hk)

/-! ## Two ports -/

local instance twoPlaces : NeZero 2 := ⟨by decide⟩

local instance fourPlaces : NeZero 4 := ⟨by decide⟩

/-- A kernel with two empty outputs of two places each. -/
def twoOutputs : Split Nat 4 (fun _ : Fin 2 => 2) where
  input := RingBuffer.init fun _ => 0
  output := fun _ => RingBuffer.init fun _ => 0

/-- The same with a word in the first output. -/
def sentOnce : Split Nat 4 (fun _ : Fin 2 => 2) :=
  twoOutputs.setOutput 0 (RingBuffer.pushed 7 RaftSignal.none (RingBuffer.init fun _ => 0))

theorem holdsAll_twoOutputs : HoldsAll twoOutputs [] fun _ => [] :=
  ⟨Holds.init _, fun _ => Holds.init _⟩

theorem holdsAll_sentOnce :
    HoldsAll sentOnce [] (Function.update (fun _ => []) 0 [(7, RaftSignal.none)]) :=
  holdsAll_twoOutputs.setOutput (RingBuffer.holds_pushed (Holds.init _) (by decide) 7 _)

/-- And with two words there, which fill it. -/
def fullFirst : Split Nat 4 (fun _ : Fin 2 => 2) :=
  sentOnce.setOutput 0 (RingBuffer.pushed 8 RaftSignal.none (sentOnce.output 0))

theorem holdsAll_fullFirst : HoldsAll fullFirst []
    (Function.update (Function.update (fun _ => []) 0 [(7, RaftSignal.none)]) 0
      [(7, RaftSignal.none), (8, RaftSignal.none)]) :=
  holdsAll_sentOnce.setOutput (RingBuffer.holds_pushed (holdsAll_sentOnce.output 0) (by decide) 8 _)

/-- Two calls with the first output full. -/
theorem stretch_fullFirst : Stretch .sendtype {1} [(fullFirst, (1 : Fin 2)), (fullFirst, 1)] := by
  intro c hc
  obtain rfl : c = (fullFirst, 1) := by simpa using hc
  exact ⟨⟨_, (selectFifo_iff holdsAll_fullFirst).mpr ⟨by decide, rfl⟩⟩, _, _, holdsAll_fullFirst,
    by decide⟩

/-- Two calls for sending, with a word sent in between. -/
theorem stretch_twoOutputs :
    Stretch .sendtype Finset.univ [(twoOutputs, (0 : Fin 2)), (sentOnce, 0)] := by
  intro c hc
  rcases List.mem_pair.mp hc with rfl | rfl
  · exact ⟨⟨_, (selectFifo_iff holdsAll_twoOutputs).mpr ⟨by decide, rfl⟩⟩, _, _, holdsAll_twoOutputs,
      by decide⟩
  · exact ⟨⟨_, (selectFifo_iff holdsAll_sentOnce).mpr ⟨by decide, rfl⟩⟩, _, _, holdsAll_sentOnce,
      by decide⟩

/-- One port of the two is eligible once the other is full. -/
theorem fair_iff_full : Fair {1} (([(fullFirst, (1 : Fin 2)), (fullFirst, 1)]).map Prod.snd) :=
  (fair_iff stretch_fullFirst).mpr (.inl (by decide))

/-- With room in both, both calls return the first. -/
theorem round_skips_second :
    Stretch .sendtype Finset.univ [(twoOutputs, (0 : Fin 2)), (sentOnce, 0)] ∧
      ¬Fair Finset.univ ([(twoOutputs, (0 : Fin 2)), (sentOnce, 0)].map Prod.snd) := by
  refine ⟨stretch_twoOutputs, fun hfair => ?_⟩
  have hcount := hfair [0, 0] List.infix_rfl (by decide) 1 (by decide)
  exact absurd hcount (by decide)

end Split

end RaftLib.Kernels
