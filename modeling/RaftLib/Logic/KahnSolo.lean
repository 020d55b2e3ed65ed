/-
# `RaftLib.Logic.KahnSolo` -- one process of a network by itself

In a network that has come to its end, each process has done what it does by itself, when everything
that is ever sent to it is there from the beginning and nobody receives what it sends (`solo_run`). The
waiting is gone from such a run: what a process waited for in the network is an item that came later,
or the end of a channel, and both are there already.

So a network can be taken apart. What its processes compute together is what each of them computes
alone, put together along the channels.
-/
import RaftLib.Logic.Kahn

namespace RaftLib.Logic.Kahn

open RaftLib.Logic.Steps

universe u v w x

variable {κ : Type u} {ι : Type v} {T : ι → Type w} {σ : κ → Type x}

namespace Net

variable {N : Net κ ι T σ} {s u a b : State κ ι T σ} {k j : κ} {room : ι → ℕ∞}

/-! ## What is closed -/

section

variable [DecidableEq κ] [DecidableEq ι]

theorem Step.sent_of_closed (h : N.Step room a j b) {q : ι} (hq : (a.chan q).closed = true) :
    (b.chan q).closed = true ∧ (b.chan q).sent = (a.chan q).sent := by
  obtain ⟨n, e, hf, rfl⟩ := h
  generalize N.prog j (a.proc j) = i at hf
  cases e with
  | none => exact ⟨hq, rfl⟩
  | some x =>
      obtain ⟨q', op⟩ := x
      by_cases heq : q = q'
      · subst heq
        rw [show (a.after j n (some ⟨q, op⟩)).chan q = (a.chan q).after op from effect_self q op]
        cases hf with
        | recv _ => exact ⟨hq, rfl⟩
        | send ho _ =>
            rw [hq] at ho
            cases ho
        | close => exact ⟨rfl, rfl⟩
      · rw [show (a.after j n (some ⟨q', op⟩)).chan q = a.chan q from effect_of_ne heq op]
        exact ⟨hq, rfl⟩

/-- Nothing is sent on a closed channel. -/
theorem sent_of_closed {ls : List κ} (h : Run (N.Step room) a ls u) {q : ι}
    (hq : (a.chan q).closed = true) : (u.chan q).sent = (a.chan q).sent := by
  refine (h.invariant (I := fun t => (t.chan q).closed = true ∧ (t.chan q).sent = (a.chan q).sent)
    (fun t l t' ht hl => ?_) ⟨hq, rfl⟩).2
  obtain ⟨hclosed, hsent⟩ := hl.sent_of_closed ht.1
  exact ⟨hclosed, hsent.trans ht.2⟩

end

/-! ## The view of one process -/

section

variable [DecidableEq κ]

/-- The channels as `k` sees them by itself, where the network started from `s`, is at `a` and will end
at `u`: what it will ever be sent is there, and nobody receives what it sends. -/
def view (N : Net κ ι T σ) (k : κ) (s u a : State κ ι T σ) (q : ι) : Chan (T q) :=
  if N.dst q = k then { u.chan q with got := (a.chan q).got }
  else if N.src q = k then { a.chan q with got := (s.chan q).got }
  else s.chan q

/-- Only `k` has moved. -/
def solo (N : Net κ ι T σ) (k : κ) (s u a : State κ ι T σ) : State κ ι T σ where
  proc := Function.update s.proc k (a.proc k)
  chan := N.view k s u a

theorem view_input {q : ι} (h : N.dst q = k) :
    N.view k s u a q = { u.chan q with got := (a.chan q).got } := if_pos h

theorem view_output {q : ι} (hdst : N.dst q ≠ k) (hsrc : N.src q = k) :
    N.view k s u a q = { a.chan q with got := (s.chan q).got } := by
  rw [view, if_neg hdst, if_pos hsrc]

theorem view_other {q : ι} (hdst : N.dst q ≠ k) (hsrc : N.src q ≠ k) : N.view k s u a q = s.chan q := by
  rw [view, if_neg hdst, if_neg hsrc]

theorem solo_proc : (N.solo k s u a).proc k = a.proc k := Function.update_self ..

variable [DecidableEq ι]

/-- `k` does not see what the others do. -/
theorem solo_of_ne (h : N.Step room a j b) (hj : j ≠ k) : N.solo k s u b = N.solo k s u a := by
  apply State.ext
  · show Function.update s.proc k (b.proc k) = Function.update s.proc k (a.proc k)
    rw [h.proc_of_ne hj.symm]
  · funext q
    show N.view k s u b q = N.view k s u a q
    by_cases hdst : N.dst q = k
    · rw [view_input hdst, view_input hdst, h.got_of_ne hj.symm hdst]
    · by_cases hsrc : N.src q = k
      · rw [view_output hdst hsrc, view_output hdst hsrc]
        rcases h.chan q with heq | ⟨op, hrole, heq⟩
        · rw [heq]
        · rw [heq, hrole.eq_recv hj.symm hsrc]
          rfl
      · rw [view_other hdst hsrc, view_other hdst hsrc]

/-- What is done to a channel of `k` is done to what `k` sees of it. -/
theorem view_effect (hself : ∀ q, N.src q = k → N.dst q ≠ k) {n : σ k}
    {e : Option (Σ q, Op (T q))} (hrole : ∀ q op, e = some ⟨q, op⟩ → Role N.src N.dst k q op) :
    N.view k s u (a.after k n e) = effect (N.view k s u a) e := by
  funext q
  cases e with
  | none => rfl
  | some x =>
      obtain ⟨q', op⟩ := x
      have hrole := hrole q' op rfl
      by_cases heq : q = q'
      · subst heq
        have hchan : (a.after k n (some ⟨q, op⟩)).chan q = (a.chan q).after op := effect_self q op
        rw [effect_self]
        cases op with
        | recv =>
            rw [view_input hrole, view_input hrole, hchan]
            rfl
        | send v | close =>
            rw [view_output (hself q hrole) hrole, view_output (hself q hrole) hrole, hchan]
            rfl
      · have hchan : (a.after k n (some ⟨q', op⟩)).chan q = a.chan q := effect_of_ne heq op
        rw [effect_of_ne heq, view, view, hchan]

/-- Whatever `k` can do in the network it can do by itself. -/
theorem fires_solo {ls : List κ} (hself : ∀ q, N.src q = k → N.dst q ≠ k)
    (h : Run (N.Step room) a ls u) {i : Instr ι T (σ k)} (hi : i.Local N.src N.dst k) {n : σ k}
    {e : Option (Σ q, Op (T q))} (hf : Fires room a.chan i n e) :
    Fires ⊤ (N.view k s u a) i n e := by
  have hmore (q : ι) (hq : N.dst q = k) (hd : (a.chan q).HasData) : (N.view k s u a q).HasData := by
    rw [view_input hq]
    exact lt_of_lt_of_le hd (run_le h q).sent.length_le
  cases hf with
  | @recv q next v hv =>
      refine .recv ?_
      rw [view_input hi]
      obtain ⟨more, hmore⟩ := (run_le h q).sent
      show (u.chan q).sent[(a.chan q).got]? = some v
      rw [← hmore, List.getElem?_append_left (List.getElem?_eq_some_iff.mp hv).1]
      exact hv
  | @send q v next ho _ =>
      refine .send ?_ (ENat.natCast_lt_top _)
      rw [view_output (hself q hi) hi]
      exact ho
  | close => exact .close
  | data hr => exact .data (hr.mono fun q hq => hmore q (hi q hq))
  | ended hnr hc =>
      refine .ended (fun hr => hnr (hr.mono fun q hq hd => ?_)) fun q hq => ?_
      · rw [view_input (hi q hq)] at hd
        show (a.chan q).got < (a.chan q).sent.length
        rw [← sent_of_closed h (hc q hq)]
        exact hd
      · rw [view_input (hi q hq)]
        exact closed_stays h (hc q hq)
  | skip => exact .skip

/-- A step of `k` in the network is one that `k` takes by itself. -/
theorem solo_step {ls : List κ} (hself : ∀ q, N.src q = k → N.dst q ≠ k) (h : N.Step room a k b)
    (hrest : Run (N.Step room) b ls u) : N.Step ⊤ (N.solo k s u a) k (N.solo k s u b) := by
  have hrun : Run (N.Step room) a (k :: ls) u := .cons h hrest
  obtain ⟨n, e, hf, rfl⟩ := h
  have hlocal := N.isLocal k (a.proc k)
  refine ⟨n, e, ?_, State.ext ?_ ?_⟩
  · rw [solo_proc]
    exact fires_solo hself hrun hlocal hf
  · have hn : (a.after k n e).proc k = n := Function.update_self ..
    show Function.update s.proc k ((a.after k n e).proc k) =
      Function.update (Function.update s.proc k (a.proc k)) k n
    rw [hn, Function.update_idem]
  · refine view_effect hself fun q op he => ?_
    subst he
    exact hf.role hlocal

/-- **What a process does in a network it does by itself**, from the same place to the same end, with
all of its input there. -/
theorem solo_run {ls : List κ} (hself : ∀ q, N.src q = k → N.dst q ≠ k)
    (h : Run (N.Step room) a ls u) :
    ∃ n, Run (N.Step ⊤) (N.solo k s u a) (List.replicate n k) (N.solo k s u u) := by
  induction h with
  | nil u => exact ⟨0, .nil _⟩
  | @cons a b u j ls hl hrest ih =>
      obtain ⟨n, hn⟩ := ih
      by_cases hj : j = k
      · subst hj
        exact ⟨n + 1, .cons (solo_step hself hl hrest) hn⟩
      · exact ⟨n, solo_of_ne (s := s) hl hj ▸ hn⟩

end

end Net

end RaftLib.Logic.Kahn
