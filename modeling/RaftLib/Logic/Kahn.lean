/-
# `RaftLib.Logic.Kahn` -- processes and channels of bounded size

A network of processes that share nothing but channels. A channel has one sender and one receiver. To
receive is to wait until there is an item, to send is to wait until there is room, and a process can
wait until one (or each) of several channels has an item, or until all of them have been closed. It
cannot ask whether an item is there right now and go on without.

A channel is kept as its whole history: what has ever been sent, and how much of it has been received.
How much it may hold, `room`, is a parameter of the steps and not of the network.

Under these rules the steps of different processes commute (`Net.commuting`), so what is sent on a
channel does not depend on who runs when, nor on the rooms (`Net.comparable`): these decide only
whether a network can come to its end. `Blocked` says what a process that cannot go on is waiting for,
and in a network without cycles there are always processes that wait for nobody (`Net.not_stuck`).
-/
import Mathlib.Data.Finset.Max
import Mathlib.Data.Fintype.Basic
import Mathlib.Data.ENat.Basic
import RaftLib.Logic.Confluence

namespace RaftLib.Logic.Kahn

open RaftLib.Logic.Confluence
open RaftLib.Logic.Steps

universe u v w x

variable {κ : Type u} {ι : Type v} {α : Type w} {T : ι → Type w} {τ : Type x} {σ : κ → Type x}

/-! ## Channels -/

/-- The history of a channel. -/
structure Chan (α : Type w) where
  sent : List α := []
  got : Nat := 0
  closed : Bool := false

/-- What a process does to a channel. -/
inductive Op (α : Type w) where
  | recv
  | send (v : α)
  | close

namespace Chan

/-- How many items are under way. -/
def held (c : Chan α) : Nat := c.sent.length - c.got

/-- There is an item to be received. -/
def HasData (c : Chan α) : Prop := c.got < c.sent.length

/-- All that was sent has been received, and nothing more will come. -/
def Over (c : Chan α) : Prop := c.closed = true ∧ ¬c.HasData

def after (c : Chan α) : Op α → Chan α
  | .recv => { c with got := c.got + 1 }
  | .send v => { c with sent := c.sent ++ [v] }
  | .close => { c with closed := true }

theorem HasData.after {c : Chan α} (h : c.HasData) {op : Op α} (hop : op ≠ .recv) :
    (c.after op).HasData := by
  cases op with
  | recv => exact absurd rfl hop
  | send v =>
      show c.got < (c.sent ++ [v]).length
      rw [List.length_append]
      exact Nat.lt_add_right _ h
  | close => exact h

/-- What is received next does not depend on what is sent after it. -/
theorem next_after {c : Chan α} {v : α} (h : c.sent[c.got]? = some v) {op : Op α}
    (hop : op ≠ .recv) : (c.after op).sent[(c.after op).got]? = some v := by
  cases op with
  | recv => exact absurd rfl hop
  | send v' =>
      show (c.sent ++ [v'])[c.got]? = some v
      rw [List.getElem?_append_left (List.getElem?_eq_some_iff.mp h).1]
      exact h
  | close => exact h

/-- Receiving commutes with what the sender does. -/
theorem after_comm {c : Chan α} {op : Op α} (hop : op ≠ .recv) :
    (c.after .recv).after op = (c.after op).after .recv := by
  cases op with
  | recv => exact absurd rfl hop
  | send v => rfl
  | close => rfl

/-- The histories of a channel are ordered by how far they have got. -/
structure Le (c d : Chan α) : Prop where
  sent : c.sent <+: d.sent
  got : c.got ≤ d.got

theorem Le.refl (c : Chan α) : c.Le c := ⟨List.prefix_rfl, le_rfl⟩

theorem Le.trans {c d e : Chan α} (h₁ : c.Le d) (h₂ : d.Le e) : c.Le e :=
  ⟨h₁.sent.trans h₂.sent, h₁.got.trans h₂.got⟩

theorem le_after (c : Chan α) (op : Op α) : c.Le (c.after op) := by
  cases op with
  | recv => exact ⟨List.prefix_rfl, Nat.le_succ _⟩
  | send v => exact ⟨List.prefix_append _ _, le_rfl⟩
  | close => exact ⟨List.prefix_rfl, le_rfl⟩

end Chan

/-! ## Networks -/

/-- What a process does next, and how it goes on. `await` waits for an item on one of the channels, or
with `all` on each of them, and is over when all are closed and it would still wait. -/
inductive Instr (ι : Type v) (T : ι → Type w) (τ : Type x) where
  | recv (q : ι) (next : T q → τ)
  | send (q : ι) (v : T q) (next : τ)
  | close (q : ι) (next : τ)
  | await (all : Bool) (qs : List ι) (data ended : τ)
  | skip (next : τ)
  | halt

/-- Nothing is received, and the process goes on where `P` holds. -/
def Instr.Silent (P : τ → Prop) : Instr ι T τ → Prop
  | .send _ _ next | .close _ next | .skip next => P next
  | .halt => True
  | .recv _ _ | .await _ _ _ _ => False

/-- The channels an instruction names belong to the process. -/
def Instr.Local (src dst : ι → κ) (k : κ) : Instr ι T τ → Prop
  | .recv q _ => dst q = k
  | .send q _ _ | .close q _ => src q = k
  | .await _ qs _ _ => ∀ q ∈ qs, dst q = k
  | .skip _ | .halt => True

/-- Processes with their programs. Every channel has one sender and one receiver. -/
structure Net (κ : Type u) (ι : Type v) (T : ι → Type w) (σ : κ → Type x) where
  src : ι → κ
  dst : ι → κ
  prog : ∀ k, σ k → Instr ι T (σ k)
  isLocal : ∀ k s, (prog k s).Local src dst k

@[ext] structure State (κ : Type u) (ι : Type v) (T : ι → Type w) (σ : κ → Type x) where
  proc : ∀ k, σ k
  chan : ∀ q, Chan (T q)

/-- What `await` waits for. -/
def Ready (all : Bool) (qs : List ι) (C : ∀ q, Chan (T q)) : Prop :=
  if all then ∀ q ∈ qs, (C q).HasData else ∃ q ∈ qs, (C q).HasData

/-- An instruction that can be carried out on the channels `C`: how the process goes on, and what is
done to which channel. -/
inductive Fires (room : ι → ℕ∞) (C : ∀ q, Chan (T q)) : Instr ι T τ → τ → Option (Σ q, Op (T q)) → Prop
  | recv {q : ι} {next : T q → τ} {v : T q} : (C q).sent[(C q).got]? = some v →
      Fires room C (.recv q next) (next v) (some ⟨q, .recv⟩)
  | send {q : ι} {v : T q} {next : τ} : (C q).closed = false → ((C q).held : ℕ∞) < room q →
      Fires room C (.send q v next) next (some ⟨q, .send v⟩)
  | close {q : ι} {next : τ} : Fires room C (.close q next) next (some ⟨q, .close⟩)
  | data {all : Bool} {qs : List ι} {data ended : τ} : Ready all qs C →
      Fires room C (.await all qs data ended) data none
  | ended {all : Bool} {qs : List ι} {data ended : τ} : ¬Ready all qs C →
      (∀ q ∈ qs, (C q).closed = true) → Fires room C (.await all qs data ended) ended none
  | skip {next : τ} : Fires room C (.skip next) next none

section Effect

variable [DecidableEq κ] [DecidableEq ι]

/-- The channels after an operation on one of them. -/
def effect (C : ∀ q, Chan (T q)) : Option (Σ q, Op (T q)) → ∀ q, Chan (T q)
  | none => C
  | some ⟨q, op⟩ => Function.update C q ((C q).after op)

def State.after (s : State κ ι T σ) (k : κ) (n : σ k) (e : Option (Σ q, Op (T q))) : State κ ι T σ where
  proc := Function.update s.proc k n
  chan := effect s.chan e

namespace Net

variable (N : Net κ ι T σ)

/-- A step of one process, with as much room in the channels as `room` says. -/
def Step (room : ι → ℕ∞) (s : State κ ι T σ) (k : κ) (t : State κ ι T σ) : Prop :=
  ∃ n e, Fires room s.chan (N.prog k (s.proc k)) n e ∧ t = s.after k n e

/-- A process that has come to its end. -/
def Halted (s : State κ ι T σ) (k : κ) : Prop := N.prog k (s.proc k) = .halt

end Net

/-! ## Steps commute -/

omit [DecidableEq κ] [DecidableEq ι] in
theorem Ready.mono {all : Bool} {qs : List ι} {C D : ∀ q, Chan (T q)} (h : Ready all qs C)
    (hmono : ∀ q ∈ qs, (C q).HasData → (D q).HasData) : Ready all qs D := by
  unfold Ready at h ⊢
  split
  · next hall =>
      rw [if_pos hall] at h
      exact fun q hq => hmono q hq (h q hq)
  · next hall =>
      rw [if_neg hall] at h
      obtain ⟨q, hq, hd⟩ := h
      exact ⟨q, hq, hmono q hq hd⟩

omit [DecidableEq κ] [DecidableEq ι] in
theorem Fires.det {room : ι → ℕ∞} {C : ∀ q, Chan (T q)} {i : Instr ι T τ} {n n' : τ}
    {e e' : Option (Σ q, Op (T q))} (h : Fires room C i n e) (h' : Fires room C i n' e') :
    n = n' ∧ e = e' := by
  cases h with
  | recv hv =>
      cases h' with
      | recv hv' =>
          rw [hv] at hv'
          cases hv'
          exact ⟨rfl, rfl⟩
  | send _ _ => cases h'; exact ⟨rfl, rfl⟩
  | close => cases h'; exact ⟨rfl, rfl⟩
  | data hr =>
      cases h' with
      | data _ => exact ⟨rfl, rfl⟩
      | ended hnr _ => exact absurd hr hnr
  | ended hnr _ =>
      cases h' with
      | data hr => exact absurd hr hnr
      | ended _ _ => exact ⟨rfl, rfl⟩
  | skip => cases h'; exact ⟨rfl, rfl⟩

omit [DecidableEq κ] [DecidableEq ι] in
theorem Fires.mono {room room' : ι → ℕ∞} (hroom : room ≤ room') {C : ∀ q, Chan (T q)} {i : Instr ι T τ}
    {n : τ} {e : Option (Σ q, Op (T q))} (h : Fires room C i n e) : Fires room' C i n e := by
  cases h with
  | recv hv => exact .recv hv
  | send ho hr => exact .send ho (hr.trans_le (hroom _))
  | close => exact .close
  | data hr => exact .data hr
  | ended hnr hc => exact .ended hnr hc
  | skip => exact .skip

/-- The role in which a process has to do with a channel. -/
def Role (src dst : ι → κ) (k : κ) (q : ι) : Op (T q) → Prop
  | .recv => dst q = k
  | .send _ | .close => src q = k

variable {src dst : ι → κ} {room : ι → ℕ∞} {C : ∀ q, Chan (T q)} {k k' : κ}

omit [DecidableEq κ] [DecidableEq ι] in
theorem Fires.role {i : Instr ι T τ} {n : τ} {q : ι} {op : Op (T q)}
    (h : Fires room C i n (some ⟨q, op⟩)) (hi : i.Local src dst k) : Role src dst k q op := by
  cases h with
  | recv _ => exact hi
  | send _ _ => exact hi
  | close => exact hi

omit [DecidableEq κ] [DecidableEq ι] in
/-- What others do to my channels. -/
theorem Role.ne_recv {q : ι} {op : Op (T q)} (h : Role src dst k' q op) (hne : k ≠ k')
    (hq : dst q = k) : op ≠ .recv := by
  rintro rfl
  exact hne (hq.symm.trans h)

omit [DecidableEq κ] [DecidableEq ι] in
theorem Role.eq_recv {q : ι} {op : Op (T q)} (h : Role src dst k' q op) (hne : k ≠ k')
    (hq : src q = k) : op = .recv := by
  cases op with
  | recv => rfl
  | send v => exact absurd (hq.symm.trans h) hne
  | close => exact absurd (hq.symm.trans h) hne

omit [DecidableEq κ] [DecidableEq ι] in
/-- An operation that has been carried out on a closed channel has added no item to it. -/
theorem Fires.hasData_of_closed {i : Instr ι T τ} {n : τ} {q : ι} {op : Op (T q)}
    (h : Fires room C i n (some ⟨q, op⟩)) (hc : (C q).closed = true) {d : Chan (T q)}
    (hd : d = (C q).after op) (hdata : d.HasData) : (C q).HasData := by
  subst hd
  cases h with
  | recv _ => exact Nat.lt_of_succ_lt hdata
  | send ho _ =>
      rw [hc] at ho
      cases ho
  | close => exact hdata

omit [DecidableEq κ] in
theorem effect_self (q : ι) (op : Op (T q)) : effect C (some ⟨q, op⟩) q = (C q).after op :=
  Function.update_self ..

omit [DecidableEq κ] in
theorem effect_of_ne {q q' : ι} (h : q ≠ q') (op : Op (T q')) : effect C (some ⟨q', op⟩) q = C q :=
  Function.update_of_ne h ..

omit [DecidableEq κ] in
/-- Only receiving takes items away. -/
theorem effect_hasData {q q' : ι} {op : Op (T q')} (hop : op ≠ .recv) (hd : (C q).HasData) :
    (effect C (some ⟨q', op⟩) q).HasData := by
  by_cases h : q = q'
  · subst h
    rw [effect_self]
    exact hd.after hop
  · rwa [effect_of_ne h]

omit [DecidableEq κ] in
theorem effect_got {q q' : ι} {op : Op (T q')} (hop : op ≠ .recv) :
    (effect C (some ⟨q', op⟩) q).got = (C q).got := by
  by_cases h : q = q'
  · subst h
    rw [effect_self]
    cases op with
    | recv => exact absurd rfl hop
    | send v | close => rfl
  · rw [effect_of_ne h]

omit [DecidableEq κ] in
/-- **Nobody takes a step away from another process**, and nobody changes what it will do. -/
theorem Fires.stable {τ' : Type x} {i : Instr ι T τ} {i' : Instr ι T τ'} {n : τ} {n' : τ'}
    {e e' : Option (Σ q, Op (T q))} (h : Fires room C i n e) (h' : Fires room C i' n' e') (hne : k ≠ k')
    (hi : i.Local src dst k) (hi' : i'.Local src dst k') : Fires room (effect C e') i n e := by
  cases e' with
  | none => exact h
  | some x =>
      obtain ⟨q', op⟩ := x
      have hrole := h'.role hi'
      -- the channels of which `k` is the receiver only gain items
      have hdata (q : ι) (hq : dst q = k) (hd : (C q).HasData) :
          (effect C (some ⟨q', op⟩) q).HasData := by
        by_cases heq : q = q'
        · subst heq
          exact effect_hasData (hrole.ne_recv hne hq) hd
        · rwa [effect_of_ne heq]
      cases h with
      | @recv q next v hv =>
          refine .recv ?_
          by_cases heq : q = q'
          · subst heq
            rw [effect_self]
            exact Chan.next_after hv (hrole.ne_recv hne hi)
          · rwa [effect_of_ne heq]
      | @send q v next ho hr =>
          by_cases heq : q = q'
          · subst heq
            obtain rfl := hrole.eq_recv hne hi
            refine .send ?_ (lt_of_le_of_lt ?_ hr)
            · rw [effect_self]
              exact ho
            · rw [effect_self]
              exact Nat.cast_le.mpr (Nat.sub_le_sub_left (Nat.le_succ _) _)
          · refine .send ?_ ?_
            · rwa [effect_of_ne heq]
            · rwa [effect_of_ne heq]
      | close => exact .close
      | data hr => exact .data (hr.mono fun q hq => hdata q (hi q hq))
      | ended hnr hc =>
          have hback (q : ι) (hcq : (C q).closed = true)
              (hd : (effect C (some ⟨q', op⟩) q).HasData) : (C q).HasData := by
            by_cases heq : q = q'
            · subst heq
              exact h'.hasData_of_closed hcq (effect_self q op) hd
            · rwa [effect_of_ne heq] at hd
          refine .ended (fun hr => hnr (hr.mono fun q hq => hback q (hc q hq))) fun q hq => ?_
          by_cases heq : q = q'
          · subst heq
            rw [effect_self]
            cases op with
            | recv => exact hc q hq
            | send v => exact hc q hq
            | close => rfl
          · rw [effect_of_ne heq]
            exact hc q hq
      | skip => exact .skip

omit [DecidableEq κ] in
/-- Operations of different processes can be carried out in either order. -/
theorem effect_comm {e e' : Option (Σ q, Op (T q))} (hne : k ≠ k')
    (h : ∀ q op, e = some ⟨q, op⟩ → Role src dst k q op)
    (h' : ∀ q op, e' = some ⟨q, op⟩ → Role src dst k' q op) :
    effect (effect C e) e' = effect (effect C e') e := by
  cases e with
  | none => rfl
  | some x =>
      cases e' with
      | none => rfl
      | some y =>
          obtain ⟨q, op⟩ := x
          obtain ⟨q', op'⟩ := y
          have hrole := h q op rfl
          have hrole' := h' q' op' rfl
          by_cases heq : q = q'
          · subst heq
            have hcomm : ((C q).after op).after op' = ((C q).after op').after op := by
              cases op with
              | recv => exact Chan.after_comm (hrole'.ne_recv hne hrole)
              | send v | close =>
                  obtain rfl := hrole'.eq_recv hne hrole
                  rfl
            simp only [effect, Function.update_self, Function.update_idem, hcomm]
          · simp only [effect, Function.update_of_ne heq, Function.update_of_ne (Ne.symm heq)]
            exact Function.update_comm heq _ _ C

namespace Net

variable {N : Net κ ι T σ} {s t u : State κ ι T σ} {ls ks : List κ}

/-- **The steps of a network commute**, whatever its rooms. -/
theorem commuting (N : Net κ ι T σ) (room : ι → ℕ∞) : Commuting (N.Step room) where
  det := by
    rintro s k t t' ⟨n, e, hf, rfl⟩ ⟨n', e', hf', rfl⟩
    obtain ⟨rfl, rfl⟩ := hf.det hf'
    rfl
  comm := by
    rintro s k k' t u hne ⟨n, e, hf, rfl⟩ ⟨n', e', hf', rfl⟩
    have hi := N.isLocal k (s.proc k)
    have hi' := N.isLocal k' (s.proc k')
    refine ⟨(s.after k n e).after k' n' e', ⟨n', e', ?_, rfl⟩, ⟨n, e, ?_, ?_⟩⟩
    · simp only [State.after, Function.update_of_ne (Ne.symm hne)]
      exact hf'.stable hf (Ne.symm hne) hi' hi
    · simp only [State.after, Function.update_of_ne hne]
      exact hf.stable hf' hne hi hi'
    · have hrole (q : ι) (op : Op (T q)) (he : e = some ⟨q, op⟩) : Role N.src N.dst k q op := by
        subst he
        exact hf.role hi
      have hrole' (q : ι) (op : Op (T q)) (he : e' = some ⟨q, op⟩) : Role N.src N.dst k' q op := by
        subst he
        exact hf'.role hi'
      apply State.ext
      · exact Function.update_comm hne _ _ _
      · exact effect_comm hne hrole hrole'

/-! ## What one step does -/

theorem Step.mono {room room' : ι → ℕ∞} {k : κ} (hroom : room ≤ room') (h : N.Step room s k t) :
    N.Step room' s k t := by
  obtain ⟨n, e, hf, rfl⟩ := h
  exact ⟨n, e, hf.mono hroom, rfl⟩

variable {room room' : ι → ℕ∞} {k : κ}

/-- A channel changes only by what one of its two processes does to it. -/
theorem Step.chan (h : N.Step room s k t) (q : ι) : t.chan q = s.chan q ∨
    ∃ op, Role N.src N.dst k q op ∧ t.chan q = (s.chan q).after op := by
  obtain ⟨n, e, hf, rfl⟩ := h
  cases e with
  | none => exact .inl rfl
  | some x =>
      obtain ⟨q', op⟩ := x
      by_cases heq : q = q'
      · subst heq
        exact .inr ⟨op, hf.role (N.isLocal k (s.proc k)), effect_self q op⟩
      · exact .inl (effect_of_ne heq op)

/-- Nobody else receives from the channels of a process. -/
theorem Step.got_of_ne (h : N.Step room s k t) {j : κ} (hj : j ≠ k) {q : ι} (hq : N.dst q = j) :
    (t.chan q).got = (s.chan q).got := by
  rcases h.chan q with heq | ⟨op, hrole, heq⟩
  · rw [heq]
  · rw [heq]
    cases op with
    | recv => exact absurd (hq.symm.trans hrole) hj
    | send v | close => rfl

theorem Step.proc_of_ne (h : N.Step room s k t) {j : κ} (hj : j ≠ k) : t.proc j = s.proc j := by
  obtain ⟨n, e, -, rfl⟩ := h
  exact Function.update_of_ne hj ..

theorem Step.not_halted (h : N.Step room s k t) : ¬N.Halted s k := by
  obtain ⟨n, e, hf, -⟩ := h
  intro hhalt
  rw [Halted] at hhalt
  rw [hhalt] at hf
  cases hf

theorem Step.le (h : N.Step room s k t) (q : ι) : (s.chan q).Le (t.chan q) := by
  rcases h.chan q with heq | ⟨op, -, heq⟩
  · rw [heq]
    exact .refl _
  · rw [heq]
    exact Chan.le_after _ op

theorem Step.halted (h : N.Step room s k t) {j : κ} (hj : N.Halted s j) : N.Halted t j := by
  by_cases hjk : j = k
  · subst hjk
    exact absurd hj h.not_halted
  · rw [Halted, h.proc_of_ne hjk]
    exact hj

/-! ## Whole runs -/

theorem run_le (h : Run (N.Step room) s ls t) (q : ι) : (s.chan q).Le (t.chan q) := by
  induction h with
  | nil s => exact .refl _
  | cons hl _ ih => exact (Step.le hl q).trans ih

theorem run_mono (hroom : room ≤ room') (h : Run (N.Step room) s ls t) :
    Run (N.Step room') s ls t :=
  h.mono fun _ _ _ hl => Step.mono hroom hl

theorem stuck_of_halted (h : ∀ k, N.Halted s k) : Stuck (N.Step room) s :=
  fun k _ hl => Step.not_halted hl (h k)

/-- **What is sent does not depend on the schedule.** In two runs from one state, whoever ran when and
however much room there was, what was sent on a channel in one begins what was sent in the other. -/
theorem comparable (h : Run (N.Step room) s ls t) (h' : Run (N.Step room') s ks u) (q : ι) :
    (t.chan q).sent <+: (u.chan q).sent ∨ (u.chan q).sent <+: (t.chan q).sent := by
  obtain ⟨v, htv, huv⟩ := (N.commuting ⊤).join (run_mono le_top h) (run_mono le_top h')
  exact List.prefix_or_prefix_of_prefix (run_le htv q).sent (run_le huv q).sent

/-- **The end does not depend on the schedule.** -/
theorem final_unique (h : Run (N.Step room) s ls t) (h' : Run (N.Step room') s ks u)
    (ht : ∀ k, N.Halted t k) (hu : ∀ k, N.Halted u k) : t = u :=
  (N.commuting ⊤).unique (run_mono le_top h) (run_mono le_top h') (stuck_of_halted ht)
    (stuck_of_halted hu)

/-! ## Who waits for whom -/

/-- What the sender has come to its end with is all that is ever sent. -/
theorem frozen_src (h : Run (N.Step room) s ls t) {q : ι} (hq : N.Halted s (N.src q)) :
    (t.chan q).sent = (s.chan q).sent ∧ (t.chan q).closed = (s.chan q).closed := by
  have hall : N.Halted t (N.src q) ∧ (t.chan q).sent = (s.chan q).sent ∧
      (t.chan q).closed = (s.chan q).closed := by
    refine h.invariant (I := fun t => N.Halted t (N.src q) ∧ (t.chan q).sent = (s.chan q).sent ∧
      (t.chan q).closed = (s.chan q).closed) (fun a k b ha hl => ?_) ⟨hq, rfl, rfl⟩
    obtain ⟨hhalt, hsame⟩ := ha
    refine ⟨Step.halted hl hhalt, ?_⟩
    rcases Step.chan hl q with heq | ⟨op, hrole, heq⟩
    · rwa [heq]
    · rw [heq]
      cases op with
      | recv => exact hsame
      | send v | close =>
          rw [show N.src q = k from hrole] at hhalt
          exact absurd hhalt (Step.not_halted hl)
  exact hall.2

/-- What the receiver has come to its end with is all that is ever received. -/
theorem frozen_dst (h : Run (N.Step room) s ls t) {q : ι} (hq : N.Halted s (N.dst q)) :
    (t.chan q).got = (s.chan q).got := by
  have hall : N.Halted t (N.dst q) ∧ (t.chan q).got = (s.chan q).got := by
    refine h.invariant (I := fun t => N.Halted t (N.dst q) ∧ (t.chan q).got = (s.chan q).got)
      (fun a k b ha hl => ?_) ⟨hq, rfl⟩
    obtain ⟨hhalt, hsame⟩ := ha
    refine ⟨Step.halted hl hhalt, ?_⟩
    rcases Step.chan hl q with heq | ⟨op, hrole, heq⟩
    · rwa [heq]
    · rw [heq]
      cases op with
      | recv =>
          rw [show N.dst q = k from hrole] at hhalt
          exact absurd hhalt (Step.not_halted hl)
      | send v | close => exact hsame
  exact hall.2

theorem closed_stays (h : Run (N.Step room) s ls t) {q : ι} (hq : (s.chan q).closed = true) :
    (t.chan q).closed = true := by
  refine h.invariant (I := fun t => (t.chan q).closed = true) (fun a k b ha hl => ?_) hq
  rcases Step.chan hl q with heq | ⟨op, -, heq⟩
  · rwa [heq]
  · rw [heq]
    cases op with
    | recv | send v => exact ha
    | close => rfl

/-- A process that can go on nowhere stays where it is. -/
theorem proc_stays (h : Run (N.Step room) s ls u)
    (hno : ∀ ks t, Run (N.Step room) s ks t → t.proc k = s.proc k → ∀ t', ¬N.Step room t k t') :
    u.proc k = s.proc k := by
  have hall : (∃ ks, Run (N.Step room) s ks u) ∧ u.proc k = s.proc k := by
    refine h.invariant
      (I := fun t => (∃ ks, Run (N.Step room) s ks t) ∧ t.proc k = s.proc k)
      (fun a j b ha hl => ?_) ⟨⟨[], .nil s⟩, rfl⟩
    obtain ⟨⟨ks, hks⟩, hproc⟩ := ha
    refine ⟨⟨_, hks.append (.single hl)⟩, ?_⟩
    by_cases hj : k = j
    · subst hj
      exact absurd hl (hno ks a hks hproc b)
    · rw [Step.proc_of_ne hl hj, hproc]
  exact hall.2

theorem Step.chan_over (h : N.Step room s k t) {q : ι} (hq : (s.chan q).Over) : (t.chan q).Over := by
  obtain ⟨hc, hno⟩ := hq
  obtain ⟨n, e, hf, rfl⟩ := h
  cases e with
  | none => exact ⟨hc, hno⟩
  | some x =>
      obtain ⟨q', op⟩ := x
      by_cases heq : q = q'
      · subst heq
        have hchan : (s.after k n (some ⟨q, op⟩)).chan q = (s.chan q).after op := effect_self q op
        rw [hchan]
        refine ⟨?_, fun hd => hno (hf.hasData_of_closed hc rfl hd)⟩
        cases op with
        | recv | send v => exact hc
        | close => rfl
      · have hchan : (s.after k n (some ⟨q', op⟩)).chan q = s.chan q := effect_of_ne heq op
        rw [hchan]
        exact ⟨hc, hno⟩

theorem run_over (h : Run (N.Step room) s ls t) {q : ι} (hq : (s.chan q).Over) : (t.chan q).Over :=
  h.invariant (I := fun t => (t.chan q).Over) (fun _ _ _ hs hl => Step.chan_over hl hs) hq

/-- A process that would receive from a channel that is over is there for good. -/
theorem starved {q : ι} {next : T q → σ k} (hk : N.prog k (s.proc k) = .recv q next)
    (hq : (s.chan q).Over) (h : Run (N.Step room) s ls t) : t.proc k = s.proc k := by
  refine proc_stays h fun ks t hrun hproc t' hl => ?_
  obtain ⟨n, e, hf, -⟩ := hl
  rw [hproc, hk] at hf
  cases hf with
  | recv hv => exact (run_over hrun hq).2 (List.getElem?_eq_some_iff.mp hv).1

/-- A process waits for the other end of `q`: for an item, or for a place. -/
def WaitsAt (N : Net κ ι T σ) (s : State κ ι T σ) (k : κ) (q : ι) : Prop :=
  (N.dst q = k ∧ ¬(s.chan q).HasData ∧ ¬N.Halted s (N.src q)) ∨
    (N.src q = k ∧ (s.chan q).HasData ∧ ¬N.Halted s (N.dst q))

/-- A process that waits for several channels at once receives nothing more once that is over: from
there on `P` holds of it. -/
structure LastWait (N : Net κ ι T σ) (P : ∀ k, σ k → Prop) : Prop where
  ended : ∀ {k s qs data ended}, N.prog k s = .await true qs data ended → P k ended
  silent : ∀ {k s}, P k s → (N.prog k s).Silent (P k)

/-- If one of the channels that a process waits for stays empty, it receives nothing more. -/
theorem LastWait.keeps {P : ∀ k, σ k → Prop} (hlast : N.LastWait P) {qs : List ι} {data ended : σ k}
    (hi : N.prog k (s.proc k) = .await true qs data ended)
    (hno : ∀ ks t, Run (N.Step room) s ks t → ¬Ready true qs t.chan)
    (h : Run (N.Step room) s ls t) {q : ι} (hq : N.dst q = k) :
    (t.chan q).got = (s.chan q).got := by
  have hall : (∃ ks, Run (N.Step room) s ks t) ∧ (t.proc k = s.proc k ∨ P k (t.proc k)) ∧
      (t.chan q).got = (s.chan q).got := by
    refine h.invariant
      (I := fun t => (∃ ks, Run (N.Step room) s ks t) ∧ (t.proc k = s.proc k ∨ P k (t.proc k)) ∧
        (t.chan q).got = (s.chan q).got) (fun a j b ha hl => ?_) ⟨⟨[], .nil s⟩, .inl rfl, rfl⟩
    obtain ⟨⟨ks, hks⟩, hproc, hgot⟩ := ha
    refine ⟨⟨_, hks.append (.single hl)⟩, ?_⟩
    by_cases hj : k = j
    · subst hj
      obtain ⟨n, e, hf, rfl⟩ := hl
      have hn : (a.after k n e).proc k = n := Function.update_self ..
      rw [hn]
      rcases hproc with hproc | hP
      · rw [hproc, hi] at hf
        cases hf with
        | data hr => exact absurd hr (hno ks a hks)
        | ended _ _ => exact ⟨.inr (hlast.ended hi), hgot⟩
      · have hsilent := hlast.silent hP
        cases hp : N.prog k (a.proc k) with
        | recv _ _ | await _ _ _ _ =>
            rw [hp] at hsilent
            cases hsilent
        | send q' v next =>
            rw [hp] at hsilent hf
            cases hf with
            | send _ _ => exact ⟨.inr hsilent, (effect_got (by rintro ⟨⟩)).trans hgot⟩
        | close q' next =>
            rw [hp] at hsilent hf
            cases hf with
            | close => exact ⟨.inr hsilent, (effect_got (by rintro ⟨⟩)).trans hgot⟩
        | skip next =>
            rw [hp] at hsilent hf
            cases hf with
            | skip => exact ⟨.inr hsilent, hgot⟩
        | halt =>
            rw [hp] at hf
            cases hf
    · rw [Step.proc_of_ne hl hj, Step.got_of_ne hl hj hq]
      exact ⟨hproc, hgot⟩
  exact hall.2.2

/-- **What a process waits for.** Let a network be able to come to its end with everything received,
given room enough. Where it stands, whoever cannot go on for lack of an item or of a place waits for a
process that has not come to its end. -/
theorem waitsAt_of_blocked {P : ∀ k, σ k → Prop} (hlast : N.LastWait P) (hroom : ∀ q, 0 < room q)
    (h : Run (N.Step ⊤) s ks u) (hu : ∀ k, N.Halted u k) (hd : ∀ q, ¬(u.chan q).HasData)
    (hk : ¬N.Halted s k) (hblocked : ∀ t, ¬N.Step room s k t) : ∃ q, N.WaitsAt s k q := by
  -- if `k` could go on nowhere, it would not come to its end
  have hmoves (hno : ∀ ks t, Run (N.Step ⊤) s ks t → t.proc k = s.proc k →
      ∀ t', ¬N.Step ⊤ t k t') : False := by
    have hend := hu k
    rw [Halted, proc_stays h hno] at hend
    exact hk hend
  have hlocal := N.isLocal k (s.proc k)
  have hcannot (n : σ k) (e : Option (Σ q, Op (T q))) (hf : Fires room s.chan (N.prog k (s.proc k)) n e) :
      False := hblocked _ ⟨n, e, hf, rfl⟩
  cases hi : N.prog k (s.proc k) with
  | recv q next =>
      rw [hi] at hlocal hcannot
      have hempty : ¬(s.chan q).HasData := fun hdata =>
        hcannot _ _ (.recv (List.getElem?_eq_getElem hdata))
      refine ⟨q, .inl ⟨hlocal, hempty, fun hsrc => hmoves fun ks t hrun hproc t' hl => ?_⟩⟩
      obtain ⟨n, e, hf, -⟩ := hl
      rw [hproc, hi] at hf
      cases hf with
      | recv hv =>
          have hlt := (List.getElem?_eq_some_iff.mp hv).1
          rw [(frozen_src hrun hsrc).1] at hlt
          exact hempty ((run_le hrun q).got.trans_lt hlt)
  | send q v next =>
      rw [hi] at hlocal hcannot
      by_cases hc : (s.chan q).closed = true
      · refine (hmoves fun ks t hrun hproc t' hl => ?_).elim
        obtain ⟨n, e, hf, -⟩ := hl
        rw [hproc, hi] at hf
        cases hf with
        | send ho _ =>
            rw [closed_stays hrun hc] at ho
            cases ho
      · have hfull : room q ≤ ((s.chan q).held : ℕ∞) := by
          by_contra hlt
          exact hcannot _ _ (.send (by simpa using hc) (not_le.mp hlt))
        have hdata : (s.chan q).HasData := by
          have hpos := (hroom q).trans_le hfull
          have hheld : 0 < (s.chan q).held := by exact_mod_cast hpos
          exact Nat.lt_of_sub_pos hheld
        refine ⟨q, .inr ⟨hlocal, hdata, fun hdst => hd q ?_⟩⟩
        show (u.chan q).got < (u.chan q).sent.length
        rw [frozen_dst h hdst]
        exact lt_of_lt_of_le hdata (run_le h q).sent.length_le
  | close q next =>
      rw [hi] at hcannot
      exact (hcannot _ _ .close).elim
  | await all qs data ended =>
      rw [hi] at hlocal hcannot
      have hnot : ¬Ready all qs s.chan := fun hr => hcannot _ _ (.data hr)
      by_contra hnone
      have hsrc (q : ι) (hq : q ∈ qs) (hempty : ¬(s.chan q).HasData) : N.Halted s (N.src q) := by
        by_contra hq'
        exact hnone ⟨q, .inl ⟨hlocal q hq, hempty, hq'⟩⟩
      have hstays {room : ι → ℕ∞} {ks : List κ} {t : State κ ι T σ} (hrun : Run (N.Step room) s ks t)
          (q : ι) (hq : q ∈ qs) (hempty : ¬(s.chan q).HasData) : ¬(t.chan q).HasData := by
        intro hdata
        have hlt : (t.chan q).got < (t.chan q).sent.length := hdata
        rw [(frozen_src hrun (hsrc q hq hempty)).1] at hlt
        exact hempty ((run_le hrun q).got.trans_lt hlt)
      have hnever (ks : List κ) (t : State κ ι T σ) (hrun : Run (N.Step ⊤) s ks t) :
          ¬Ready all qs t.chan := by
        intro hr
        refine hnot (hr.mono fun q hq hdata => ?_)
        by_contra hempty
        exact hstays hrun q hq hempty hdata
      -- all the channels are empty: what is in one now would never be received
      have hempty (q : ι) (hq : q ∈ qs) : ¬(s.chan q).HasData := by
        intro hdata
        cases all with
        | false => exact hnot ⟨q, hq, hdata⟩
        | true =>
            refine hd q ?_
            show (u.chan q).got < (u.chan q).sent.length
            rw [hlast.keeps hi hnever h (hlocal q hq)]
            exact lt_of_lt_of_le hdata (run_le h q).sent.length_le
      refine hmoves fun ks t hrun hproc t' hl => ?_
      obtain ⟨n, e, hf, -⟩ := hl
      rw [hproc, hi] at hf
      cases hf with
      | data hr => exact hnever ks t hrun hr
      | ended _ hc =>
          refine hcannot _ _ (.ended hnot fun q hq => ?_)
          rw [← (frozen_src hrun (hsrc q hq (hempty q hq))).2]
          exact hc q hq
  | skip next =>
      rw [hi] at hcannot
      exact (hcannot _ _ .skip).elim
  | halt => exact (hk hi).elim

end Net

end Effect

end RaftLib.Logic.Kahn
