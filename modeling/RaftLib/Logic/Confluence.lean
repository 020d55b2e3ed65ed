/-
# `RaftLib.Logic.Confluence` -- agents whose steps commute

Several agents work on one state, and a label of a step is the agent that takes it. What an agent
does next depends on the state alone, and a step of one agent neither takes away nor changes the next
step of another. Then the order in which the agents take turns does not matter: two runs from one
state are parts of a common longer run (`join`), and where one run has ended for good, every other
one can only be completed to it (`Stuck.of_run`).

`erase` and `diff` on lists of labels keep the account: what an agent has done in one run it need not
do again in the other.
-/
import Mathlib.Data.List.Perm.Subperm
import RaftLib.Logic.Steps

namespace RaftLib.Logic.Confluence

open RaftLib.Logic.Steps

universe u v

variable {σ : Type u} {α : Type v} {step : σ → α → σ → Prop}

/-- The agents of `step` are deterministic, and the steps of different agents commute. -/
structure Commuting (step : σ → α → σ → Prop) : Prop where
  det : ∀ {s a t t'}, step s a t → step s a t' → t = t'
  comm : ∀ {s a b t u}, a ≠ b → step s a t → step s b u → ∃ v, step t b v ∧ step u a v

/-- Nobody can go on. -/
def Stuck (step : σ → α → σ → Prop) (s : σ) : Prop := ∀ a t, ¬step s a t

theorem Stuck.run_nil {s t : σ} {ls : List α} (hs : Stuck step s) (h : Run step s ls t) :
    ls = [] ∧ t = s := by
  cases h with
  | nil => exact ⟨rfl, rfl⟩
  | cons hl _ => exact absurd hl (hs _ _)

/-- Taking `ks` away removes at most as many. -/
theorem length_le_diff_add [DecidableEq α] (ls ks : List α) :
    ls.length ≤ (ls.diff ks).length + ks.length := by
  induction ks generalizing ls with
  | nil => exact Nat.le_refl _
  | cons k ks ih =>
      have herase := List.le_length_erase (l := ls) (a := k)
      have hrest := ih (ls.erase k)
      rw [List.diff_cons, List.length_cons]
      omega

namespace Commuting

variable [DecidableEq α] {s t u : σ} {a : α} {ls ks : List α}

/-- One step against a run: either the run contains that step of the agent, and its other steps lead
from there to the same end, or the agent can still take it at the end. -/
theorem strip (h : Commuting step) (hs : step s a t) (hr : Run step s ks u) :
    (a ∈ ks ∧ Run step t (ks.erase a) u) ∨ (a ∉ ks ∧ ∃ v, Run step t ks v ∧ step u a v) := by
  induction hr generalizing t with
  | nil s => exact .inr ⟨List.not_mem_nil, t, .nil t, hs⟩
  | @cons s m u b ks hb hrest ih =>
      by_cases hab : a = b
      · subst hab
        rw [h.det hs hb, List.erase_cons_head]
        exact .inl ⟨List.mem_cons_self .., hrest⟩
      · obtain ⟨m', htm, hmm⟩ := h.comm hab hs hb
        rcases ih hmm with ⟨hmem, hrun⟩ | ⟨hmem, v, hrun, hv⟩
        · left
          rw [List.erase_cons_tail (by simpa using Ne.symm hab)]
          exact ⟨List.mem_cons_of_mem b hmem, .cons htm hrun⟩
        · right
          refine ⟨?_, v, .cons htm hrun, hv⟩
          simp only [List.mem_cons, not_or]
          exact ⟨hab, hmem⟩

/-- **Joining.** Two runs from one state are parts of a common one: each takes the steps that only the
other has taken. -/
theorem join (h : Commuting step) (hs : Run step s ls t) (hr : Run step s ks u) :
    ∃ v, Run step t (ks.diff ls) v ∧ Run step u (ls.diff ks) v := by
  induction hs generalizing u ks with
  | nil s =>
      refine ⟨u, hr, ?_⟩
      rw [List.nil_diff]
      exact .nil u
  | @cons s m t a ls ha _ ih =>
      rw [List.diff_cons]
      rcases h.strip ha hr with ⟨hmem, hrun⟩ | ⟨hmem, m', hrun, hm'⟩
      · obtain ⟨v, htv, huv⟩ := ih hrun
        rw [List.cons_diff_of_mem hmem]
        exact ⟨v, htv, huv⟩
      · obtain ⟨v, htv, huv⟩ := ih hrun
        rw [List.cons_diff_of_not_mem hmem, List.erase_of_not_mem hmem]
        exact ⟨v, htv, .cons hm' huv⟩

/-- **Completion.** Where one run has come to an end for good, every other run can be completed to
that same end, and has taken no step that the first has not. -/
theorem complete (h : Commuting step) (hs : Run step s ls t) (hr : Run step s ks u)
    (hu : Stuck step u) : Run step t (ks.diff ls) u ∧ ls.diff ks = [] := by
  obtain ⟨v, htv, huv⟩ := h.join hs hr
  obtain ⟨hnil, rfl⟩ := hu.run_nil huv
  exact ⟨htv, hnil⟩

/-- No run is longer than one that has come to an end. -/
theorem length_le (h : Commuting step) (hs : Run step s ls t) (hr : Run step s ks u)
    (hu : Stuck step u) : ls.length ≤ ks.length := by
  have hlen := length_le_diff_add ls ks
  rwa [(h.complete hs hr hu).2, List.length_nil, Nat.zero_add] at hlen

/-- **Uniqueness.** All runs that come to an end come to the same. -/
theorem unique (h : Commuting step) (hs : Run step s ls t) (hr : Run step s ks u)
    (ht : Stuck step t) (hu : Stuck step u) : t = u :=
  (ht.run_nil (h.complete hs hr hu).1).2.symm

end Commuting

end RaftLib.Logic.Confluence
