/-
# `RaftLib.Logic.Steps` -- runs of a labelled step relation

A system is a relation `step s l t`: from state `s`, label `l` leads to state `t`. This module holds
the finite runs of such a relation and the three rules every later development uses: an invariant of
one step is an invariant of a whole run, a run can be cut and glued, and a forward simulation of one
step carries whole runs of one system to runs of another with the same labels.

A run "all of whose steps meet a condition" is a run of the relation restricted to that condition
(`restrict`), so the invariant rule serves for it unchanged. `exec` is the executable form for
systems given by a partial step function; `exec_iff_run` ties the two together.
-/
import Mathlib.Data.List.Basic

namespace RaftLib.Logic.Steps

universe u v w

variable {σ : Type u} {τ : Type v} {ℓ : Type w}

/-! ## Runs -/

/-- The finite runs of `step`: the labels taken, in order, from the first state to the last. -/
inductive Run (step : σ → ℓ → σ → Prop) : σ → List ℓ → σ → Prop
  | nil (s : σ) : Run step s [] s
  | cons {s t u : σ} {l : ℓ} {ls : List ℓ} :
      step s l t → Run step t ls u → Run step s (l :: ls) u

namespace Run

variable {step : σ → ℓ → σ → Prop} {s t u : σ} {l : ℓ} {ls ks : List ℓ}

theorem single (h : step s l t) : Run step s [l] t := .cons h (.nil t)

theorem eq_of_nil (h : Run step s [] t) : t = s := by
  cases h
  rfl

theorem append (h₁ : Run step s ls t) (h₂ : Run step t ks u) : Run step s (ls ++ ks) u := by
  induction h₁ with
  | nil s => exact h₂
  | cons h _ ih => exact .cons h (ih h₂)

/-- A run over a concatenation passes through a middle state. -/
theorem split (h : Run step s (ls ++ ks) u) : ∃ t, Run step s ls t ∧ Run step t ks u := by
  induction ls generalizing s with
  | nil => exact ⟨s, .nil s, h⟩
  | cons l ls ih =>
      cases h with
      | cons hl hrest =>
          obtain ⟨t, h₁, h₂⟩ := ih hrest
          exact ⟨t, .cons hl h₁, h₂⟩

/-- **The invariant rule.** What every step preserves, every run preserves. -/
theorem invariant {I : σ → Prop} (hstep : ∀ s l t, I s → step s l t → I t)
    (h : Run step s ls t) (hs : I s) : I t := by
  induction h with
  | nil s => exact hs
  | cons hl _ ih => exact ih (hstep _ _ _ hs hl)

/-- Runs are monotone in the step relation. -/
theorem mono {step' : σ → ℓ → σ → Prop} (hsub : ∀ s l t, step s l t → step' s l t)
    (h : Run step s ls t) : Run step' s ls t := by
  induction h with
  | nil s => exact .nil s
  | cons hl _ ih => exact .cons (hsub _ _ _ hl) ih

/-- **The forward-simulation rule.** If every concrete step from related states has an abstract
step with the same label to related states, every concrete run has an abstract run. -/
theorem simulation {astep : τ → ℓ → τ → Prop} {R : σ → τ → Prop}
    (hsim : ∀ s l t a, R s a → step s l t → ∃ b, astep a l b ∧ R t b)
    {a : τ} (h : Run step s ls t) (hR : R s a) : ∃ b, Run astep a ls b ∧ R t b := by
  induction h generalizing a with
  | nil s => exact ⟨a, .nil a, hR⟩
  | cons hl _ ih =>
      obtain ⟨b, hab, hRb⟩ := hsim _ _ _ _ hR hl
      obtain ⟨d, hbd, hRd⟩ := ih hRb
      exact ⟨d, .cons hab hbd, hRd⟩

end Run

/-! ## Runs whose steps all meet a condition -/

/-- The steps of `step` taken where the condition `C` holds of the state before and the label. -/
def restrict (step : σ → ℓ → σ → Prop) (C : σ → ℓ → Prop) (s : σ) (l : ℓ) (t : σ) : Prop :=
  C s l ∧ step s l t

theorem Run.of_restrict {step : σ → ℓ → σ → Prop} {C : σ → ℓ → Prop} {s t : σ} {ls : List ℓ}
    (h : Run (restrict step C) s ls t) : Run step s ls t :=
  h.mono fun _ _ _ hl => hl.2

/-- A condition on the labels alone can be read off the list of labels. -/
theorem Run.restrict_of_labels {step : σ → ℓ → σ → Prop} {C : ℓ → Prop} {s t : σ} {ls : List ℓ}
    (h : Run step s ls t) (hC : ∀ l ∈ ls, C l) : Run (restrict step fun _ => C) s ls t := by
  induction h with
  | nil s => exact .nil s
  | cons hl _ ih =>
      exact .cons ⟨hC _ (List.mem_cons_self ..), hl⟩
        (ih fun l hmem => hC l (List.mem_cons_of_mem _ hmem))

/-! ## Executable systems -/

/-- The step relation of a partial step function; `none` means the label is not enabled. -/
def ofFun (f : σ → ℓ → Option σ) (s : σ) (l : ℓ) (t : σ) : Prop := f s l = some t

/-- Execute a list of labels. -/
def exec (f : σ → ℓ → Option σ) : σ → List ℓ → Option σ
  | s, [] => some s
  | s, l :: ls => (f s l).bind fun t => exec f t ls

theorem exec_iff_run {f : σ → ℓ → Option σ} {s t : σ} {ls : List ℓ} :
    exec f s ls = some t ↔ Run (ofFun f) s ls t := by
  constructor
  · intro h
    induction ls generalizing s with
    | nil =>
        rw [exec, Option.some_inj] at h
        exact h ▸ .nil s
    | cons l ls ih =>
        obtain ⟨m, hm, hrest⟩ := Option.bind_eq_some_iff.mp h
        exact .cons hm (ih hrest)
  · intro h
    induction h with
    | nil s => rfl
    | cons hl _ ih => exact Option.bind_eq_some_iff.mpr ⟨_, hl, ih⟩

/-- An executed run ends where a test of its last state says. -/
theorem exists_run_of_any {f : σ → ℓ → Option σ} {s : σ} {ls : List ℓ} {P : σ → Prop}
    [DecidablePred P] (h : (exec f s ls).any (fun t => decide (P t)) = true) :
    ∃ t, Run (ofFun f) s ls t ∧ P t := by
  cases ht : exec f s ls with
  | none => simp [ht] at h
  | some t => exact ⟨t, exec_iff_run.mp ht, by simpa [ht] using h⟩

/-- The partial step function that goes on only where `C` holds. -/
def guarded (f : σ → ℓ → Option σ) (C : σ → ℓ → Prop) [∀ s l, Decidable (C s l)] (s : σ) (l : ℓ) :
    Option σ :=
  if C s l then f s l else none

/-- Its steps are the steps restricted to `C`. -/
theorem ofFun_guarded {f : σ → ℓ → Option σ} {C : σ → ℓ → Prop} [∀ s l, Decidable (C s l)] {s t : σ}
    {l : ℓ} (h : ofFun (guarded f C) s l t) : restrict (ofFun f) C s l t := by
  unfold ofFun guarded at h
  split at h
  · next hC => exact ⟨hC, h⟩
  · cases h

/-! ## What can be reached -/

/-- Some run leads from `s` to a state with `G`. -/
def Leads (step : σ → ℓ → σ → Prop) (s : σ) (G : σ → Prop) : Prop := ∃ ls t, Run step s ls t ∧ G t

namespace Leads

variable {step : σ → ℓ → σ → Prop} {s t : σ} {l : ℓ} {G H : σ → Prop}

theorem now (h : G s) : Leads step s G := ⟨[], s, .nil s, h⟩

theorem next (hl : step s l t) (h : Leads step t G) : Leads step s G := by
  obtain ⟨ls, u, hrun, hu⟩ := h
  exact ⟨l :: ls, u, .cons hl hrun, hu⟩

theorem trans (h : Leads step s G) (hG : ∀ t, G t → Leads step t H) : Leads step s H := by
  obtain ⟨ls, t, hrun, ht⟩ := h
  obtain ⟨ks, u, hrun', hu⟩ := hG t ht
  exact ⟨ls ++ ks, u, hrun.append hrun', hu⟩

theorem after {ls : List ℓ} (h : Run step s ls t) (hG : Leads step t G) : Leads step s G := by
  obtain ⟨ks, u, hrun, hu⟩ := hG
  exact ⟨ls ++ ks, u, h.append hrun, hu⟩

theorem mono (h : Leads step s G) (hG : ∀ t, G t → H t) : Leads step s H :=
  h.trans fun t ht => .now (hG t ht)

end Leads

end RaftLib.Logic.Steps
