/-
# `RaftLib.Threads.Composition` -- what a graph computes, kernel by kernel

In a run in which `start` returns, each kernel has done what it does alone, called with the whole
contents of its input queues, which are closed (`returned_alone`). Its thread was interleaved with the
others, its queues were too small and it looked at them at all the wrong times; nothing of that is left
in the result.

So a graph can be read off its kernels. Kernels that take an item and give one are functions on streams
(`Stage.stream`), and along a path of them these functions are composed (`pipeline_returned`). A kernel
that takes an item from each of two queues goes through them in step: under `all_port` up to the end of
the shorter one, and under `any_port` both have the same length, or `start` does not return
(`pairs_returned`).
-/
import RaftLib.Logic.KahnSolo
import RaftLib.Threads.Determinacy

namespace RaftLib.Threads.SimpleSchedule

open RaftLib.Queue
open RaftLib.Logic
open RaftLib.Logic.Kahn
open RaftLib.Logic.Steps
open RaftLib.Threads.PoolSchedule (Net SchedBehav pipe)

variable {κ ι : Type} {T : ι → Type} {M : κ → Type} {c : ι → Nat} {N : Net κ ι}

/-! ## One kernel alone -/

section

variable [DecidableEq κ] [DecidableEq ι] {K : Kernels N T M} {k : κ} {s t : NetState N T M}
  {C : Chans T} {n : Nat}

/-- What a kernel that is not at its end does first. -/
theorem place_cases {p : Phase ι T (M k) (N.input k) (N.output k)} {m' : M k}
    (h : Run (K.net.Step ⊤) (place s k p C) (List.replicate n k) t) (hend : t.proc k = .stopped m')
    (hp : p ≠ .stopped m') : ∃ n', n = n' + 1 ∧ ∃ p' e, Fires ⊤ C (K.net.prog k p) p' e ∧
      Run (K.net.Step ⊤) (place s k p' (effect C e)) (List.replicate n' k) t := by
  cases n with
  | zero =>
      rw [h.eq_of_nil, place_proc] at hend
      exact absurd hend hp
  | succ n =>
      cases h with
      | cons hl hrest =>
          obtain ⟨p', e, hf, rfl⟩ := hl
          rw [place_proc] at hf
          refine ⟨n, rfl, p', e, hf, ?_⟩
          have hafter : (place s k p C).after k p' e = place s k p' (effect C e) :=
            Kahn.State.ext (Function.update_idem ..) rfl
          rwa [hafter] at hrest

/-- A `run()` that comes back in the network comes back by itself. -/
theorem exec_of_run {p : Prog ι T (M k) (N.input k) (N.output k)} {m' : M k}
    (h : Run (K.net.Step ⊤) (place s k (.run p) C) (List.replicate n k) t)
    (hend : t.proc k = .stopped m') : ∃ status m C' n', p.exec C = some (status, m, C') ∧ n' ≤ n ∧
      Run (K.net.Step ⊤) (place s k (.run (.returns status m)) C') (List.replicate n' k) t := by
  induction p generalizing C n with
  | pop q next ih =>
      obtain ⟨n, rfl, p', e, hf, hrest⟩ := place_cases h hend (by rintro ⟨⟩)
      cases hf with
      | recv hv =>
          obtain ⟨status, m, C', n', hexec, hle, hrun⟩ := ih _ hrest
          refine ⟨status, m, C', n', ?_, Nat.le_succ_of_le hle, hrun⟩
          rw [Prog.exec, hv]
          exact hexec
  | push q item next ih =>
      obtain ⟨n, rfl, p', e, hf, hrest⟩ := place_cases h hend (by rintro ⟨⟩)
      cases hf with
      | send _ _ =>
          obtain ⟨status, m, C', n', hexec, hle, hrun⟩ := ih hrest
          exact ⟨status, m, C', n', hexec, Nat.le_succ_of_le hle, hrun⟩
  | returns status m => exact ⟨status, m, C, n, rfl, le_rfl, h⟩

/-- A kernel that closes its outputs closes all of them. -/
theorem close_of_run {rest : List (PortOf (N.output k))} {m m' : M k}
    (h : Run (K.net.Step ⊤) (place s k (.close rest m) C) (List.replicate n k) t)
    (hend : t.proc k = .stopped m') : m = m' ∧ t.chan = closeAll (rest.map Subtype.val) C := by
  induction rest generalizing C n with
  | nil =>
      obtain ⟨n, rfl, p', e, hf, hrest⟩ := place_cases h hend (by rintro ⟨⟩)
      cases hf
      cases n with
      | zero =>
          have ht := hrest.eq_of_nil
          subst ht
          rw [place_proc] at hend
          exact ⟨Phase.stopped.inj hend, rfl⟩
      | succ n =>
          cases hrest with
          | cons hl _ =>
              refine absurd ?_ hl.not_halted
              rw [Net.Halted, place_proc]
              rfl
  | cons q rest ih =>
      obtain ⟨n, rfl, p', e, hf, hrest⟩ := place_cases h hend (by rintro ⟨⟩)
      cases hf with
      | close => exact ih hrest

/-- **A kernel that comes to its end in the network, with nobody else moving, comes to it alone.** -/
theorem alone_of_run {m m' : M k}
    (h : Run (K.net.Step ⊤) (place s k (.loop m) C) (List.replicate n k) t)
    (hend : t.proc k = .stopped m') : ∃ fuel, K.alone k fuel m C = some (m', t.chan) := by
  have hattach : (N.output k).attach.map Subtype.val = N.output k := List.attach_map_subtype_val _
  induction n using Nat.strong_induction_on generalizing m C with
  | _ n ih =>
      obtain ⟨n, rfl, p', e, hf, hrest⟩ := place_cases h hend (by rintro ⟨⟩)
      have hf : Fires ⊤ C (if (N.input k).isEmpty then .skip (.run (K.run k m))
        else .await (N.schedBehav k = .allPort) (N.input k) (.run (K.run k m))
          (.close (N.output k).attach m)) p' e := hf
      -- a call of `run()`, and how it goes on
      have hcall (hready : (N.input k).isEmpty ∨ Ready (N.schedBehav k = .allPort) (N.input k) C)
          (hrun : Run (K.net.Step ⊤) (place s k (.run (K.run k m)) C) (List.replicate n k) t) :
          ∃ fuel, K.alone k fuel m C = some (m', t.chan) := by
        obtain ⟨status, m₁, C₁, n₁, hexec, hle, hrun₁⟩ := exec_of_run hrun hend
        obtain ⟨n₂, rfl, p₂, e₂, hf₂, hrun₂⟩ := place_cases hrun₁ hend (by rintro ⟨⟩)
        cases status with
        | proceed =>
            cases hf₂ with
            | skip =>
                obtain ⟨fuel, hfuel⟩ := ih n₂ (by omega) hrun₂
                exact ⟨fuel + 1, by rw [Kernels.alone, if_pos hready, hexec]; exact hfuel⟩
        | stop =>
            cases hf₂ with
            | skip =>
                obtain ⟨rfl, hchan⟩ := close_of_run hrun₂ hend
                rw [hattach] at hchan
                exact ⟨1, by rw [Kernels.alone, if_pos hready, hexec, hchan]; rfl⟩
      by_cases hempty : (N.input k).isEmpty = true
      · rw [if_pos hempty] at hf
        cases hf with
        | skip => exact hcall (.inl hempty) hrest
      · rw [if_neg hempty] at hf
        cases hf with
        | data hr => exact hcall (.inr hr) hrest
        | ended hnr hc =>
            obtain ⟨rfl, hchan⟩ := close_of_run hrest hend
            rw [hattach] at hchan
            exact ⟨1, by rw [Kernels.alone, if_neg (not_or.mpr ⟨hempty, hnr⟩), if_pos hc, hchan]; rfl⟩

end

/-! ## What a kernel has done in a run -/

section

variable [DecidableEq κ] [DecidableEq ι]

/-- Everything that `k` has been sent is there, and it has sent nothing yet. -/
def State.given (s : State N T M c) (k : κ) : Chans T := fun q =>
  if N.dst q = k then { sent := (s.queue q).pushed, closed := true } else {}

/-- **What a kernel does in a graph is what it does alone.** Where `start` has returned, each kernel has
come to the same members, has taken as many items from its inputs and has put the same items on its
outputs as if it had been called by itself until its input was over, everything there from the
beginning. A kernel that feeds itself is left out. -/
theorem returned_alone {K : Kernels N T M} [∀ q, NeZero (c q)] {uninit : ∀ q, Fin (c q) → T q}
    {s : State N T M c} {as : List (Act κ)} {k : κ} (hall : ∀ k, k ∈ N.kernels)
    (hself : ∀ q, N.src q = k → N.dst q ≠ k)
    (h : Run (ofFun (State.step K)) (State.init K uninit) as s) (hs : s.start = .returned) :
    ∃ fuel C, K.alone k fuel (K.init k) (s.given k) = some (s.members k, C) ∧
      (∀ q, N.dst q = k → (C q).got = (s.queue q).popped.length) ∧
      ∀ q, N.src q = k → (C q).sent = (s.queue q).pushed := by
  obtain ⟨hi, ks, hks⟩ := run_refines h (Inv.init uninit)
  have hjoined : Joined s := joined_of_run h (.init uninit) (.init uninit)
  have hstop (k : κ) := halted_of_returned hjoined hs (hall k)
  obtain ⟨n, hn⟩ := Net.solo_run (N := K.net) (k := k) (s := (State.init (c := c) K uninit).abs) hself hks
  have hclosed (q : ι) : (s.abs.chan q).closed = true := by
    show (!(s.queue q).buffer.isValid) = true
    have hterm := hjoined.start
    rw [hs] at hterm
    rw [(hi.own _).closed (hjoined.ended _ (hjoined.term _ (hterm _ (hall (N.src q))))) q rfl]
    rfl
  have hstart : K.net.solo k (State.init (c := c) K uninit).abs s.abs (State.init K uninit).abs =
      place (State.init (c := c) K uninit).abs k (.loop (K.init k)) (s.given k) := by
    refine Kahn.State.ext rfl (funext fun q => ?_)
    show K.net.view k _ s.abs _ q = s.given k q
    by_cases hdst : N.dst q = k
    · rw [Net.view_input hdst, State.given, if_pos hdst]
      show ({ sent := (s.queue q).pushed, closed := (s.abs.chan q).closed } : Chan _) = _
      rw [hclosed q]
    · rw [State.given, if_neg hdst]
      by_cases hsrc : N.src q = k
      · exact Net.view_output hdst hsrc
      · exact Net.view_other hdst hsrc
  rw [hstart] at hn
  obtain ⟨fuel, hfuel⟩ := alone_of_run hn (Net.solo_proc.trans (hstop k))
  refine ⟨fuel, _, hfuel, fun q hq => ?_, fun q hq => ?_⟩
  · show (K.net.view k _ s.abs _ q).got = _
    rw [Net.view_input hq]
    rfl
  · show (K.net.view k _ s.abs _ q).sent = _
    rw [Net.view_output (hself q hq) hq]
    rfl

end

theorem returned_alone_adder : ∃ s : State pipe (fun _ => Nat) (fun _ => Nat) fun _ => 1,
    s.start = .returned ∧ ∃ fuel C, adder.alone true fuel 0 (s.given true) = some (s.members true, C) ∧
      (C ()).got = (s.queue ()).popped.length := by
  obtain ⟨s, h, hs⟩ := sourceFirst
  have hall (k : Bool) : k ∈ pipe.kernels := by cases k <;> decide
  have hself (q : Unit) (hq : pipe.src q = true) : pipe.dst q ≠ true := by cases hq
  obtain ⟨fuel, C, halone, hgot, -⟩ := returned_alone hall hself h hs
  exact ⟨s, hs, fuel, C, halone, hgot () rfl⟩

/-! ## Kernels as functions on streams -/

section

variable [DecidableEq ι]

theorem closeAll_sent (qs : List ι) (C : Chans T) (q : ι) :
    (closeAll qs C q).sent = (C q).sent ∧ (closeAll qs C q).got = (C q).got := by
  unfold closeAll
  induction qs generalizing C with
  | nil => exact ⟨rfl, rfl⟩
  | cons q' qs ih =>
      rw [List.foldl_cons, (ih _).1, (ih _).2]
      by_cases hq : q = q'
      · subst hq
        rw [effect_self]
        exact ⟨rfl, rfl⟩
      · rw [effect_of_ne hq]
        exact ⟨rfl, rfl⟩

/-- The items of a channel that are still to be received. -/
def rest {α : Type} (c : Chan α) : List α := c.sent.drop c.got

omit [DecidableEq ι] in
theorem rest_of_next {α : Type} {c : Chan α} {v : α} (h : c.sent[c.got]? = some v) :
    rest c = v :: rest (c.after .recv) := by
  obtain ⟨hlt, hv⟩ := List.getElem?_eq_some_iff.mp h
  rw [rest, List.drop_eq_getElem_cons hlt, hv]
  rfl

omit [DecidableEq ι] in
theorem rest_of_not {α : Type} {c : Chan α} (h : ¬c.HasData) : rest c = [] :=
  List.drop_of_length_le (not_lt.mp h)

/-- How a call of a kernel by itself goes on. -/
inductive Goes (K : Kernels N T M) (k : κ) (fuel : Nat) (m : M k) (C : Chans T) (r : M k × Chans T) :
    Prop
  | proceeds {m₁ : M k} {C₁ : Chans T} :
      (N.input k).isEmpty ∨ Ready (N.schedBehav k = .allPort) (N.input k) C →
      (K.run k m).exec C = some (.proceed, m₁, C₁) → K.alone k fuel m₁ C₁ = some r → Goes K k fuel m C r
  | stops {m₁ : M k} {C₁ : Chans T} :
      (N.input k).isEmpty ∨ Ready (N.schedBehav k = .allPort) (N.input k) C →
      (K.run k m).exec C = some (.stop, m₁, C₁) → r = (m₁, closeAll (N.output k) C₁) →
      Goes K k fuel m C r
  | ends : ¬Ready (N.schedBehav k = .allPort) (N.input k) C → r = (m, closeAll (N.output k) C) →
      Goes K k fuel m C r

theorem alone_goes {K : Kernels N T M} {k : κ} {fuel : Nat} {m : M k} {C : Chans T} {r : M k × Chans T}
    (h : K.alone k (fuel + 1) m C = some r) : Goes K k fuel m C r := by
  rw [Kernels.alone] at h
  split at h
  · next hready =>
      split at h
      · next hexec => exact .proceeds hready hexec h
      · next hexec => exact .stops hready hexec (Option.some.inj h).symm
      · cases h
  · next hready =>
      split at h
      · exact .ends (fun hr => hready (.inr hr)) (Option.some.inj h).symm
      · cases h

variable {K : Kernels N T M} {k : κ} {p q : ι}

/-! ### Where a stream begins -/

/-- A kernel without inputs that gives an item every time it is called. -/
structure Source (K : Kernels N T M) (k : κ) (q : ι) where
  give : M k → T q × RaftSignal
  keep : M k → M k
  status : M k → Kstatus
  src : N.src q = k
  only : ∀ p', N.dst p' ≠ k
  run : ∀ m, K.run k m =
    .push ⟨q, (N.mem_output k q).mpr src⟩ (give m) (.returns (status m) (keep m))

/-- What is given, one after the other, until it is time to stop. -/
inductive Gives {M α : Type} (give : M → α) (keep : M → M) (status : M → Kstatus) :
    M → List α → M → Prop
  | stop {m : M} : status m = .stop → Gives give keep status m [give m] (keep m)
  | proceed {m m' : M} {vs : List α} : status m = .proceed → Gives give keep status (keep m) vs m' →
      Gives give keep status m (give m :: vs) m'

omit [DecidableEq ι] in
theorem Source.input_isEmpty (g : Source K k q) : (N.input k).isEmpty := by
  rw [List.isEmpty_iff, List.eq_nil_iff_forall_not_mem]
  exact fun p' hp' => g.only p' ((N.mem_input k p').mp hp')

theorem Source.exec (g : Source K k q) (m : M k) (C : Chans T) : (K.run k m).exec C =
    some (g.status m, g.keep m, effect C (some ⟨q, .send (g.give m)⟩)) := by
  rw [g.run]
  rfl

/-- A source by itself. -/
theorem Source.alone (g : Source K k q) {fuel : Nat} {m m' : M k} {C C' : Chans T}
    (h : K.alone k fuel m C = some (m', C')) :
    ∃ vs, (C' q).sent = (C q).sent ++ vs ∧ Gives g.give g.keep g.status m vs m' := by
  induction fuel generalizing m C with
  | zero => cases h
  | succ fuel ih =>
      rw [Kernels.alone, if_pos (.inl g.input_isEmpty), g.exec] at h
      cases hstatus : g.status m with
      | proceed =>
          rw [hstatus] at h
          obtain ⟨vs, hvs, hgives⟩ := ih h
          refine ⟨g.give m :: vs, ?_, .proceed hstatus hgives⟩
          rw [hvs, effect_self]
          exact List.append_assoc ..
      | stop =>
          rw [hstatus] at h
          cases h
          refine ⟨[g.give m], ?_, .stop hstatus⟩
          rw [(closeAll_sent _ _ _).1, effect_self]
          rfl

/-! ### Where it ends -/

/-- A kernel with one input that takes an item every time it is called, and gives none. -/
structure Sink (K : Kernels N T M) (k : κ) (p : ι) where
  keep : M k → T p × RaftSignal → M k
  dst : N.dst p = k
  only : ∀ p', N.dst p' = k → p' = p
  noLoop : N.src p ≠ k
  run : ∀ m, K.run k m = .pop ⟨p, (N.mem_input k p).mpr dst⟩ fun v => .returns .proceed (keep m v)

omit [DecidableEq ι] in
theorem ready_iff_of_only {all : Bool} {C : Chans T} (hdst : N.dst p = k)
    (honly : ∀ p', N.dst p' = k → p' = p) : Ready all (N.input k) C ↔ (C p).HasData := by
  have hmem : p ∈ N.input k := (N.mem_input k p).mpr hdst
  have honly (p' : ι) (hp' : p' ∈ N.input k) : p' = p := honly p' ((N.mem_input k p').mp hp')
  cases all with
  | false =>
      refine ⟨fun h => ?_, fun h => ⟨p, hmem, h⟩⟩
      obtain ⟨p', hp', hd⟩ := h
      exact honly p' hp' ▸ hd
  | true =>
      refine ⟨fun h => h p hmem, fun h p' hp' => ?_⟩
      rw [honly p' hp']
      exact h

/-- A sink by itself. -/
theorem Sink.alone (g : Sink K k p) {fuel : Nat} {m m' : M k} {C C' : Chans T}
    (h : K.alone k fuel m C = some (m', C')) :
    m' = (rest (C p)).foldl g.keep m ∧ (C' p).got = (C p).got + (rest (C p)).length := by
  have hexec {m : M k} {C : Chans T} {r : Kstatus × M k × Chans T} (h : (K.run k m).exec C = some r) :
      ∃ v C₁, r = (.proceed, g.keep m v, C₁) ∧ rest (C p) = v :: rest (C₁ p) ∧
        (C₁ p).got = (C p).got + 1 := by
    rw [g.run, Prog.exec] at h
    split at h
    · next v hv =>
        cases h
        refine ⟨v, _, rfl, ?_, ?_⟩
        · rw [effect_self]
          exact rest_of_next hv
        · rw [effect_self]
          rfl
    · cases h
  induction fuel generalizing m C with
  | zero => cases h
  | succ fuel ih =>
      cases alone_goes h with
      | proceeds hready hcall hrest =>
          obtain ⟨v, C₁, hr, hv, hgot₁⟩ := hexec hcall
          cases hr
          obtain ⟨hm, hgot⟩ := ih hrest
          rw [hv, List.foldl_cons, List.length_cons]
          exact ⟨hm, hgot.trans (by omega)⟩
      | stops hready hcall hr =>
          obtain ⟨v, C₁, hr', -, -⟩ := hexec hcall
          cases hr'
      | ends hready hr =>
          cases hr
          have hno : ¬(C p).HasData := fun hd => hready ((ready_iff_of_only g.dst g.only).mpr hd)
          rw [rest_of_not hno, (closeAll_sent _ _ _).2]
          exact ⟨rfl, rfl⟩

/-! ### One item after the other -/

/-- A kernel with one input and one output that takes an item and gives one, every time it is called. -/
structure Stage (K : Kernels N T M) (k : κ) (p q : ι) where
  give : M k → T p × RaftSignal → T q × RaftSignal
  keep : M k → T p × RaftSignal → M k
  status : M k → T p × RaftSignal → Kstatus
  dst : N.dst p = k
  src : N.src q = k
  only : ∀ p', N.dst p' = k → p' = p
  noLoop : N.src p ≠ k
  run : ∀ m, K.run k m = .pop ⟨p, (N.mem_input k p).mpr dst⟩ fun v =>
    .push ⟨q, (N.mem_output k q).mpr src⟩ (give m v) (.returns (status m v) (keep m v))

/-- What a stage makes of a stream, up to where it stops: its members, and what it gives. -/
def Stage.stream (g : Stage K k p q) : M k → List (T p × RaftSignal) → M k × List (T q × RaftSignal)
  | m, [] => (m, [])
  | m, v :: vs =>
      match g.status m v with
      | .proceed => ((g.stream (g.keep m v) vs).1, g.give m v :: (g.stream (g.keep m v) vs).2)
      | .stop => (g.keep m v, [g.give m v])

omit [DecidableEq ι] in
theorem Stage.ne (g : Stage K k p q) : p ≠ q := by
  rintro rfl
  exact g.noLoop g.src

/-- A call that comes back has taken an item. -/
theorem Stage.exec_cases (g : Stage K k p q) {m : M k} {C : Chans T} {r : Kstatus × M k × Chans T}
    (h : (K.run k m).exec C = some r) : ∃ v C₁, r = (g.status m v, g.keep m v, C₁) ∧
      (rest (C p) = v :: rest (C₁ p) ∧ (C₁ p).got = (C p).got + 1) ∧
      (C₁ q).sent = (C q).sent ++ [g.give m v] := by
  rw [g.run, Prog.exec] at h
  split at h
  · next v hv =>
      cases h
      refine ⟨v, _, rfl, ⟨?_, ?_⟩, ?_⟩
      · rw [effect_of_ne g.ne, effect_self]
        exact rest_of_next hv
      · rw [effect_of_ne g.ne, effect_self]
        rfl
      · rw [effect_self, effect_of_ne g.ne.symm]
        rfl
  · cases h

/-- A stage by itself. -/
theorem Stage.alone (g : Stage K k p q) {fuel : Nat} {m m' : M k} {C C' : Chans T}
    (h : K.alone k fuel m C = some (m', C')) :
    m' = (g.stream m (rest (C p))).1 ∧ (C' q).sent = (C q).sent ++ (g.stream m (rest (C p))).2 ∧
      (C' p).got = (C p).got + (g.stream m (rest (C p))).2.length := by
  induction fuel generalizing m C with
  | zero => cases h
  | succ fuel ih =>
      cases alone_goes h with
      | proceeds hready hexec hrest =>
          obtain ⟨v, C₁, hr, ⟨hv, hgot₁⟩, hsent₁⟩ := g.exec_cases hexec
          obtain ⟨hstatus, hr⟩ := Prod.mk.inj hr
          obtain ⟨rfl, rfl⟩ := Prod.mk.inj hr
          obtain ⟨hm, hsent, hgot⟩ := ih hrest
          rw [hv, Stage.stream, ← hstatus]
          refine ⟨hm, ?_, ?_⟩
          · rw [hsent, hsent₁, List.append_assoc]
            rfl
          · rw [hgot, hgot₁, List.length_cons]
            omega
      | stops hready hexec hr' =>
          obtain ⟨v, C₁, hr, ⟨hv, hgot₁⟩, hsent₁⟩ := g.exec_cases hexec
          obtain ⟨hstatus, hr⟩ := Prod.mk.inj hr
          obtain ⟨rfl, rfl⟩ := Prod.mk.inj hr
          cases hr'
          rw [hv, Stage.stream, ← hstatus, (closeAll_sent _ _ _).1, (closeAll_sent _ _ _).2]
          exact ⟨rfl, hsent₁, hgot₁⟩
      | ends hready hr =>
          cases hr
          have hno : ¬(C p).HasData := fun hd => hready ((ready_iff_of_only g.dst g.only).mpr hd)
          rw [rest_of_not hno, (closeAll_sent _ _ _).1, (closeAll_sent _ _ _).2]
          exact ⟨rfl, (List.append_nil _).symm, rfl⟩

/-! ### Two inputs in step -/

/-- A kernel that takes an item from each of its two inputs and gives one, every time it is called. -/
structure Pairs (K : Kernels N T M) (k : κ) (p₁ p₂ q : ι) where
  give : M k → T p₁ × RaftSignal → T p₂ × RaftSignal → T q × RaftSignal
  keep : M k → T p₁ × RaftSignal → T p₂ × RaftSignal → M k
  status : M k → T p₁ × RaftSignal → T p₂ × RaftSignal → Kstatus
  dst₁ : N.dst p₁ = k
  dst₂ : N.dst p₂ = k
  src : N.src q = k
  only : ∀ p', N.dst p' = k → p' = p₁ ∨ p' = p₂
  ne : p₁ ≠ p₂
  noLoop₁ : N.src p₁ ≠ k
  noLoop₂ : N.src p₂ ≠ k
  run : ∀ m, K.run k m = .pop ⟨p₁, (N.mem_input k p₁).mpr dst₁⟩ fun v =>
    .pop ⟨p₂, (N.mem_input k p₂).mpr dst₂⟩ fun w =>
      .push ⟨q, (N.mem_output k q).mpr src⟩ (give m v w) (.returns (status m v w) (keep m v w))

variable {p₁ p₂ : ι}

/-- What such a kernel makes of two streams, up to where it stops or one of them is at its end. -/
def Pairs.stream (g : Pairs K k p₁ p₂ q) :
    M k → List (T p₁ × RaftSignal) → List (T p₂ × RaftSignal) → M k × List (T q × RaftSignal)
  | m, v :: vs, w :: ws =>
      match g.status m v w with
      | .proceed => ((g.stream (g.keep m v w) vs ws).1, g.give m v w :: (g.stream (g.keep m v w) vs ws).2)
      | .stop => (g.keep m v w, [g.give m v w])
  | m, _, _ => (m, [])

omit [DecidableEq ι] in
theorem Pairs.stream_of_nil (g : Pairs K k p₁ p₂ q) {m : M k} {vs : List (T p₁ × RaftSignal)}
    {ws : List (T p₂ × RaftSignal)} (h : vs = [] ∨ ws = []) : g.stream m vs ws = (m, []) := by
  rcases h with rfl | rfl
  · rfl
  · cases vs <;> rfl

/-- A call that comes back has taken an item from each input. -/
theorem Pairs.exec_cases (g : Pairs K k p₁ p₂ q) {m : M k} {C : Chans T} {r : Kstatus × M k × Chans T}
    (h : (K.run k m).exec C = some r) : ∃ v w C₁, r = (g.status m v w, g.keep m v w, C₁) ∧
      (rest (C p₁) = v :: rest (C₁ p₁) ∧ (C₁ p₁).got = (C p₁).got + 1) ∧
      (rest (C p₂) = w :: rest (C₁ p₂) ∧ (C₁ p₂).got = (C p₂).got + 1) ∧
      (C₁ q).sent = (C q).sent ++ [g.give m v w] := by
  have hne₁ : p₁ ≠ q := by
    rintro rfl
    exact g.noLoop₁ g.src
  have hne₂ : p₂ ≠ q := by
    rintro rfl
    exact g.noLoop₂ g.src
  rw [g.run, Prog.exec] at h
  split at h
  · next v hv =>
      rw [Prog.exec] at h
      split at h
      · next w hw =>
          cases h
          rw [effect_of_ne g.ne.symm] at hw
          refine ⟨v, w, _, rfl, ⟨?_, ?_⟩, ⟨?_, ?_⟩, ?_⟩
          · rw [effect_of_ne hne₁, effect_of_ne g.ne, effect_self]
            exact rest_of_next hv
          · rw [effect_of_ne hne₁, effect_of_ne g.ne, effect_self]
            rfl
          · rw [effect_of_ne hne₂, effect_self, effect_of_ne g.ne.symm]
            exact rest_of_next hw
          · rw [effect_of_ne hne₂, effect_self, effect_of_ne g.ne.symm]
            rfl
          · rw [effect_self, effect_of_ne hne₂.symm, effect_of_ne hne₁.symm]
            rfl
      · cases h
  · cases h

omit [DecidableEq ι] in
theorem Pairs.rest_of_not_ready (g : Pairs K k p₁ p₂ q) {C : Chans T}
    (h : ¬Ready (N.schedBehav k = .allPort) (N.input k) C) :
    (rest (C p₁) = [] ∨ rest (C p₂) = []) ∧
      (N.schedBehav k = .anyPort → rest (C p₁) = [] ∧ rest (C p₂) = []) := by
  have hmem₁ : p₁ ∈ N.input k := (N.mem_input k p₁).mpr g.dst₁
  have hmem₂ : p₂ ∈ N.input k := (N.mem_input k p₂).mpr g.dst₂
  have hany (hb : N.schedBehav k = .anyPort) : rest (C p₁) = [] ∧ rest (C p₂) = [] := by
    rw [hb] at h
    exact ⟨rest_of_not fun hd => h ⟨p₁, hmem₁, hd⟩, rest_of_not fun hd => h ⟨p₂, hmem₂, hd⟩⟩
  refine ⟨?_, hany⟩
  cases hb : N.schedBehav k with
  | anyPort => exact .inl (hany hb).1
  | allPort =>
      rw [hb] at h
      by_contra hno
      rw [not_or] at hno
      have hdata {p : ι} (hp : rest (C p) ≠ []) : (C p).HasData := by
        by_contra hd
        exact hp (rest_of_not hd)
      refine h fun p' hp' => ?_
      rcases g.only p' ((N.mem_input k p').mp hp') with rfl | rfl
      · exact hdata hno.1
      · exact hdata hno.2

/-- Such a kernel by itself. -/
theorem Pairs.alone (g : Pairs K k p₁ p₂ q) {fuel : Nat} {m m' : M k} {C C' : Chans T}
    (h : K.alone k fuel m C = some (m', C')) :
    m' = (g.stream m (rest (C p₁)) (rest (C p₂))).1 ∧
      (C' q).sent = (C q).sent ++ (g.stream m (rest (C p₁)) (rest (C p₂))).2 ∧
      (C' p₁).got = (C p₁).got + (g.stream m (rest (C p₁)) (rest (C p₂))).2.length ∧
      (C' p₂).got = (C p₂).got + (g.stream m (rest (C p₁)) (rest (C p₂))).2.length := by
  induction fuel generalizing m C with
  | zero => cases h
  | succ fuel ih =>
      cases alone_goes h with
      | proceeds hready hexec hrest =>
          obtain ⟨v, w, C₁, hr, ⟨hv, hgot₁⟩, ⟨hw, hgot₂⟩, hsent₁⟩ := g.exec_cases hexec
          obtain ⟨hstatus, hr⟩ := Prod.mk.inj hr
          obtain ⟨rfl, rfl⟩ := Prod.mk.inj hr
          obtain ⟨hm, hsent, hp₁, hp₂⟩ := ih hrest
          rw [hv, hw, Pairs.stream, ← hstatus]
          refine ⟨hm, ?_, ?_, ?_⟩
          · rw [hsent, hsent₁, List.append_assoc]
            rfl
          · rw [hp₁, hgot₁, List.length_cons]
            omega
          · rw [hp₂, hgot₂, List.length_cons]
            omega
      | stops hready hexec hr' =>
          obtain ⟨v, w, C₁, hr, ⟨hv, hgot₁⟩, ⟨hw, hgot₂⟩, hsent₁⟩ := g.exec_cases hexec
          obtain ⟨hstatus, hr⟩ := Prod.mk.inj hr
          obtain ⟨rfl, rfl⟩ := Prod.mk.inj hr
          cases hr'
          rw [hv, hw, Pairs.stream, ← hstatus, (closeAll_sent _ _ _).1, (closeAll_sent _ _ _).2,
            (closeAll_sent _ _ _).2]
          exact ⟨rfl, hsent₁, hgot₁, hgot₂⟩
      | ends hready hr =>
          cases hr
          rw [g.stream_of_nil (g.rest_of_not_ready hready).1, (closeAll_sent _ _ _).1,
            (closeAll_sent _ _ _).2, (closeAll_sent _ _ _).2]
          exact ⟨rfl, (List.append_nil _).symm, rfl, rfl⟩

/-- Under `any_port`, a kernel that never stops by itself needs both streams to be of one length. -/
theorem Pairs.alone_length (g : Pairs K k p₁ p₂ q) (hany : N.schedBehav k = .anyPort)
    (hgo : ∀ m v w, g.status m v w = .proceed) {fuel : Nat} {m : M k} {C : Chans T}
    {r : M k × Chans T} (h : K.alone k fuel m C = some r) :
    (rest (C p₁)).length = (rest (C p₂)).length := by
  induction fuel generalizing m C with
  | zero => cases h
  | succ fuel ih =>
      cases alone_goes h with
      | proceeds hready hexec hrest =>
          obtain ⟨v, w, C₁, hr, ⟨hv, -⟩, ⟨hw, -⟩, -⟩ := g.exec_cases hexec
          obtain ⟨-, hr⟩ := Prod.mk.inj hr
          obtain ⟨-, rfl⟩ := Prod.mk.inj hr
          rw [hv, hw, List.length_cons, List.length_cons, ih hrest]
      | stops hready hexec hr' =>
          obtain ⟨v, w, C₁, hr, -, -, -⟩ := g.exec_cases hexec
          have hstatus : Kstatus.stop = g.status m v w := (Prod.mk.inj hr).1
          rw [hgo] at hstatus
          cases hstatus
      | ends hready hr =>
          obtain ⟨h₁, h₂⟩ := (g.rest_of_not_ready hready).2 hany
          exact (congrArg List.length h₁).trans (congrArg List.length h₂).symm

end

/-! ## Whole graphs -/

section

variable [DecidableEq κ] [DecidableEq ι] {K : Kernels N T M} [∀ q, NeZero (c q)]
  {uninit : ∀ q, Fin (c q) → T q} {s : State N T M c} {as : List (Act κ)} {k : κ} {p q : ι}

omit [DecidableEq ι] [∀ q, NeZero (c q)] in
theorem given_input (h : N.dst p = k) : rest (s.given k p) = (s.queue p).pushed := by
  rw [State.given, if_pos h]
  rfl

omit [DecidableEq ι] [∀ q, NeZero (c q)] in
theorem given_output (h : N.dst q ≠ k) : (s.given k q).sent = [] := by
  rw [State.given, if_neg h]

theorem source_returned (g : Source K k q) (hall : ∀ k, k ∈ N.kernels)
    (h : Run (ofFun (State.step K)) (State.init K uninit) as s) (hs : s.start = .returned) :
    Gives g.give g.keep g.status (K.init k) (s.queue q).pushed (s.members k) := by
  have hself (q' : ι) (_ : N.src q' = k) : N.dst q' ≠ k := g.only q'
  obtain ⟨fuel, C, halone, -, hsent⟩ := returned_alone hall hself h hs
  obtain ⟨vs, hvs, hgives⟩ := g.alone halone
  rw [hsent q g.src, given_output (g.only q), List.nil_append] at hvs
  exact hvs ▸ hgives

theorem sink_returned (g : Sink K k p) (hall : ∀ k, k ∈ N.kernels)
    (h : Run (ofFun (State.step K)) (State.init K uninit) as s) (hs : s.start = .returned) :
    s.members k = (s.queue p).pushed.foldl g.keep (K.init k) ∧
      (s.queue p).popped.length = (s.queue p).pushed.length := by
  have hself (q' : ι) (hsrc : N.src q' = k) (hdst : N.dst q' = k) : False :=
    g.noLoop ((g.only q' hdst) ▸ hsrc)
  obtain ⟨fuel, C, halone, hgot, -⟩ := returned_alone hall hself h hs
  obtain ⟨hm, hp⟩ := g.alone halone
  rw [given_input g.dst] at hm hp
  rw [hgot p g.dst, State.given, if_pos g.dst, Nat.zero_add] at hp
  exact ⟨hm, hp⟩

/-- **A stage makes of its input queue what it makes of a stream.** -/
theorem stage_returned (g : Stage K k p q) (hall : ∀ k, k ∈ N.kernels)
    (h : Run (ofFun (State.step K)) (State.init K uninit) as s) (hs : s.start = .returned) :
    s.members k = (g.stream (K.init k) (s.queue p).pushed).1 ∧
      (s.queue q).pushed = (g.stream (K.init k) (s.queue p).pushed).2 ∧
      (s.queue p).popped.length = (s.queue q).pushed.length := by
  have hself (q' : ι) (hsrc : N.src q' = k) (hdst : N.dst q' = k) : False :=
    g.noLoop ((g.only q' hdst) ▸ hsrc)
  obtain ⟨fuel, C, halone, hgot, hsent⟩ := returned_alone hall hself h hs
  obtain ⟨hm, hq, hp⟩ := g.alone halone
  rw [given_input g.dst] at hm hq hp
  rw [hsent q g.src, given_output (hself q g.src), List.nil_append] at hq
  rw [hgot p g.dst, State.given, if_pos g.dst] at hp
  exact ⟨hm, hq, hp.trans (by rw [hq, Nat.zero_add])⟩

/-- What a path of stages from one queue to another makes of a stream. -/
inductive Pipeline (K : Kernels N T M) (p : ι) :
    (q : ι) → (List (T p × RaftSignal) → List (T q × RaftSignal)) → Prop
  | start : Pipeline K p p id
  | through {q r : ι} {k : κ} {F : List (T p × RaftSignal) → List (T q × RaftSignal)}
      (before : Pipeline K p q F) (g : Stage K k q r) :
      Pipeline K p r fun vs => (g.stream (K.init k) (F vs)).2

/-- **Along a path, the stages are composed**, in every graph that the path is a part of. -/
theorem pipeline_returned {F : List (T p × RaftSignal) → List (T q × RaftSignal)}
    (hF : Pipeline K p q F) (hall : ∀ k, k ∈ N.kernels)
    (h : Run (ofFun (State.step K)) (State.init K uninit) as s) (hs : s.start = .returned) :
    (s.queue q).pushed = F (s.queue p).pushed := by
  induction hF with
  | start => rfl
  | through before g ih =>
      rw [(stage_returned g hall h hs).2.1, ih]

end

/-! ### Three kernels in a line -/

inductive Station where
  | front
  | middle
  | back
  deriving DecidableEq, Repr

inductive Belt where
  | toMiddle
  | toBack
  deriving DecidableEq, Repr

def line : Net Station Belt where
  kernels := [.front, .middle, .back]
  nodup := by decide
  input
    | .front => []
    | .middle => [.toMiddle]
    | .back => [.toBack]
  output
    | .front => [.toMiddle]
    | .middle => [.toBack]
    | .back => []
  schedBehav _ := .anyPort
  src
    | .toMiddle => .front
    | .toBack => .middle
  dst
    | .toMiddle => .middle
    | .toBack => .back
  mem_input k q := by cases k <;> cases q <;> decide
  mem_output k q := by cases k <;> cases q <;> decide

/-- The first kernel pushes a number and stops, the second one doubles what it pops, and the third one
adds up. -/
def doubler : Kernels line (fun _ => Nat) fun _ => Nat where
  init _ := 0
  run
    | .front, m => .push ⟨.toMiddle, List.mem_singleton.mpr rfl⟩ (7, RaftSignal.none) (.returns .stop m)
    | .middle, m =>
        .pop ⟨.toMiddle, List.mem_singleton.mpr rfl⟩ fun v =>
          .push ⟨.toBack, List.mem_singleton.mpr rfl⟩ (2 * v.1, v.2) (.returns .proceed m)
    | .back, m => .pop ⟨.toBack, List.mem_singleton.mpr rfl⟩ fun v => .returns .proceed (m + v.1)

def doubles : Stage doubler .middle .toMiddle .toBack where
  give _ v := (2 * v.1, v.2)
  keep m _ := m
  status _ _ := .proceed
  dst := rfl
  src := rfl
  only := by
    rintro (_ | _) ⟨⟩
    rfl
  noLoop := by rintro ⟨⟩
  run _ := rfl

theorem pipeline_returned_doubler : ∃ s : State line (fun _ => Nat) (fun _ => Nat) fun _ => 1,
    s.start = .returned ∧ (s.queue .toBack).pushed = [(14, RaftSignal.none)] := by
  obtain ⟨s, h, hs, hpushed⟩ : ∃ s : State line (fun _ => Nat) (fun _ => Nat) fun _ => 1,
      Run (ofFun (State.step doubler)) (State.init doubler fun _ _ => 0)
        ([.start, .start, .start] ++ List.replicate 19 (.kernel .front) ++
          List.replicate 44 (.kernel .middle) ++ List.replicate 30 (.kernel .back) ++
          List.replicate 8 .start) s ∧
        s.start = .returned ∧ (s.queue .toMiddle).pushed = [(7, RaftSignal.none)] :=
    exists_run_of_any (by decide)
  have hall (k : Station) : k ∈ line.kernels := by cases k <;> decide
  have hstream := pipeline_returned (.through .start doubles) hall h hs
  refine ⟨s, hs, ?_⟩
  rw [hstream, id, hpushed]
  rfl

/-! ### `testsuite/allpush.cpp` -/

namespace AllPush

inductive Node where
  | a
  | b
  | s
  | print
  deriving DecidableEq, Repr

inductive Edge where
  | inputA
  | inputB
  | sum
  deriving DecidableEq, Repr

/-- The map of `main`: `a >> s[ "input_a" ]`, `b >> s[ "input_b" ]` and `s >> print`. -/
def map : Net Node Edge where
  kernels := [.a, .b, .s, .print]
  nodup := by decide
  input
    | .a | .b => []
    | .s => [.inputA, .inputB]
    | .print => [.sum]
  output
    | .a => [.inputA]
    | .b => [.inputB]
    | .s => [.sum]
    | .print => []
  schedBehav
    | .s => .allPort
    | .a | .b | .print => .anyPort
  src
    | .inputA => .a
    | .inputB => .b
    | .sum => .s
  dst
    | .inputA | .inputB => .s
    | .sum => .print
  mem_input k q := by cases k <;> cases q <;> decide
  mem_output k q := by cases k <;> cases q <;> decide

/-- The counts of the generators, and what has been printed. -/
abbrev Members : Node → Type
  | .a | .b => Int
  | .s => Unit
  | .print => List Int

/-- `generate::run` counts down, and stops with an end of file. -/
def generate {input output : List Edge} (q : PortOf output) (count : Int) :
    Prog Edge (fun _ => Int) Int input output :=
  .push q (count - 1, if 1 < count then RaftSignal.none else RaftSignal.eof)
    (.returns (if 1 < count then .proceed else .stop) (count - 1))

/-- The kernels of `main`. `sum::run` asserts that both signals are the same. `print::run` looks once
more whether there is an item, and leaves it for its next call if it cannot see it. -/
def kernels (count : Int) : Kernels map (fun _ => Int) Members where
  init
    | .a | .b => count
    | .s => ()
    | .print => []
  run
    | .a, m => generate ⟨.inputA, List.mem_singleton.mpr rfl⟩ m
    | .b, m => generate ⟨.inputB, List.mem_singleton.mpr rfl⟩ m
    | .s, m =>
        .pop ⟨.inputA, List.mem_cons_self⟩ fun a =>
          .pop ⟨.inputB, List.mem_cons_of_mem _ List.mem_cons_self⟩ fun b =>
            .push ⟨.sum, List.mem_singleton.mpr rfl⟩ (a.1 + b.1, a.2)
              (.returns (if b.2 = RaftSignal.eof then .stop else .proceed) m)
    | .print, m => .pop ⟨.sum, List.mem_singleton.mpr rfl⟩ fun v => .returns .proceed (m ++ [v.1])

variable (count : Int)

def sums : Pairs (kernels count) .s .inputA .inputB .sum where
  give _ a b := (a.1 + b.1, a.2)
  keep m _ _ := m
  status _ _ b := if b.2 = RaftSignal.eof then .stop else .proceed
  dst₁ := rfl
  dst₂ := rfl
  src := rfl
  only := by
    rintro (_ | _ | _) h
    · exact .inl rfl
    · exact .inr rfl
    · cases h
  ne := by rintro ⟨⟩
  noLoop₁ := by rintro ⟨⟩
  noLoop₂ := by rintro ⟨⟩
  run _ := rfl

/-- Every generator pushes one number. -/
theorem oneEach : ∃ s : State map (fun _ => Int) Members fun _ => 1,
    Run (ofFun (State.step (kernels 1))) (State.init (kernels 1) fun _ _ => 0)
      (List.replicate 4 .start ++ List.replicate 19 (.kernel .a) ++ List.replicate 19 (.kernel .b) ++
        List.replicate 65 (.kernel .s) ++ List.replicate 30 (.kernel .print) ++
        List.replicate 10 .start) s ∧ s.start = .returned :=
  exists_run_of_any (by decide +kernel)

end AllPush

section

variable [DecidableEq κ] [DecidableEq ι] {K : Kernels N T M} [∀ q, NeZero (c q)]
  {uninit : ∀ q, Fin (c q) → T q} {s : State N T M c} {as : List (Act κ)} {k : κ} {p q : ι}

/-- **A kernel goes through its two inputs in step.** Under `any_port` they then have one length. -/
theorem pairs_returned {p₁ p₂ : ι} (g : Pairs K k p₁ p₂ q) (hall : ∀ k, k ∈ N.kernels)
    (h : Run (ofFun (State.step K)) (State.init K uninit) as s) (hs : s.start = .returned) :
    s.members k = (g.stream (K.init k) (s.queue p₁).pushed (s.queue p₂).pushed).1 ∧
      (s.queue q).pushed = (g.stream (K.init k) (s.queue p₁).pushed (s.queue p₂).pushed).2 ∧
      (s.queue p₁).popped.length = (s.queue q).pushed.length ∧
      (s.queue p₂).popped.length = (s.queue q).pushed.length ∧
      (N.schedBehav k = .anyPort → (∀ m v w, g.status m v w = .proceed) →
        (s.queue p₁).pushed.length = (s.queue p₂).pushed.length) := by
  have hself (q' : ι) (hsrc : N.src q' = k) (hdst : N.dst q' = k) : False := by
    rcases g.only q' hdst with rfl | rfl
    · exact g.noLoop₁ hsrc
    · exact g.noLoop₂ hsrc
  obtain ⟨fuel, C, halone, hgot, hsent⟩ := returned_alone hall hself h hs
  obtain ⟨hm, hq, hp₁, hp₂⟩ := g.alone halone
  rw [given_input g.dst₁, given_input g.dst₂] at hm hq hp₁ hp₂
  rw [hsent q g.src, given_output (hself q g.src), List.nil_append] at hq
  rw [hgot p₁ g.dst₁, State.given, if_pos g.dst₁] at hp₁
  rw [hgot p₂ g.dst₂, State.given, if_pos g.dst₂] at hp₂
  refine ⟨hm, hq, hp₁.trans (by rw [hq, Nat.zero_add]), hp₂.trans (by rw [hq, Nat.zero_add]),
    fun hany hgo => ?_⟩
  have hlength := g.alone_length hany hgo halone
  rwa [given_input g.dst₁, given_input g.dst₂] at hlength

end

theorem pairs_returned_oneEach : ∃ s : State AllPush.map (fun _ => Int) AllPush.Members fun _ => 1,
    s.start = .returned ∧ (s.queue .sum).pushed = ((AllPush.sums 1).stream ()
      (s.queue .inputA).pushed (s.queue .inputB).pushed).2 := by
  obtain ⟨s, h, hs⟩ := AllPush.oneEach
  have hall (k : AllPush.Node) : k ∈ AllPush.map.kernels := by cases k <;> decide
  exact ⟨s, hs, (pairs_returned (AllPush.sums 1) hall h hs).2.1⟩

/-! ## What `allpush` prints -/

namespace AllPush

variable (count : Int)

def generatesA : Source (kernels count) .a .inputA where
  give m := (m - 1, if 1 < m then RaftSignal.none else RaftSignal.eof)
  keep m := m - 1
  status m := if 1 < m then .proceed else .stop
  src := rfl
  only := by rintro (_ | _ | _) <;> rintro ⟨⟩
  run _ := rfl

def generatesB : Source (kernels count) .b .inputB where
  give m := (m - 1, if 1 < m then RaftSignal.none else RaftSignal.eof)
  keep m := m - 1
  status m := if 1 < m then .proceed else .stop
  src := rfl
  only := by rintro (_ | _ | _) <;> rintro ⟨⟩
  run _ := rfl

def prints : Sink (kernels count) .print .sum where
  keep m v := m ++ [v.1]
  dst := rfl
  only := by
    rintro (_ | _ | _) ⟨⟩
    rfl
  noLoop := by rintro ⟨⟩
  run _ := rfl

/-- What a generator pushes that will push `n` more items after the next one. -/
def generated (count : Int) : Nat → List (Int × RaftSignal)
  | 0 => [(count - 1, RaftSignal.eof)]
  | n + 1 => (count - 1, RaftSignal.none) :: generated (count - 1) n

variable {count}

theorem gives_generated {m m' : Int} {vs : List (Int × RaftSignal)}
    (h : Gives (fun m : Int => (m - 1, if 1 < m then RaftSignal.none else RaftSignal.eof))
      (fun m => m - 1) (fun m => if 1 < m then .proceed else .stop) m vs m') :
    vs = generated m (m - 1).toNat := by
  induction h with
  | @stop m hstatus =>
      have hm : ¬1 < m := by
        intro hm
        rw [if_pos hm] at hstatus
        cases hstatus
      rw [if_neg hm, show (m - 1).toNat = 0 by omega]
      rfl
  | @proceed m m' vs hstatus _ ih =>
      have hm : 1 < m := by
        by_contra hm
        rw [if_neg hm] at hstatus
        cases hstatus
      rw [if_pos hm, ih, show (m - 1).toNat = (m - 1 - 1).toNat + 1 by omega]
      rfl

theorem sums_stream (m : Int) (n : Nat) :
    (sums count).stream () (generated m n) (generated m n) =
      ((), (generated m n).map fun v => (v.1 + v.1, v.2)) := by
  induction n generalizing m with
  | zero => rfl
  | succ n ih =>
      have hstatus : (sums count).status () (m - 1, RaftSignal.none) (m - 1, RaftSignal.none) =
          .proceed := rfl
      rw [generated, Pairs.stream, hstatus]
      show ((((sums count).stream () (generated (m - 1) n) (generated (m - 1) n)).1, _ ::
        ((sums count).stream () (generated (m - 1) n) (generated (m - 1) n)).2) : Unit × List _) = _
      rw [ih]
      rfl

theorem foldl_prints (printed : List Int) (vs : List (Int × RaftSignal)) :
    vs.foldl (prints count).keep printed = printed ++ vs.map Prod.fst := by
  induction vs generalizing printed with
  | nil => exact (List.append_nil _).symm
  | cons v vs ih =>
      rw [List.foldl_cons, ih]
      exact List.append_assoc ..

/-- **What `allpush` prints**, whatever the schedule and the capacities: twice each number that a
generator has pushed. Both generators have pushed the same, so that the assertion of `sum::run` holds,
and nothing is left in the queues. -/
theorem allpush_returned {c : Edge → Nat} [∀ q, NeZero (c q)] {uninit : ∀ q, Fin (c q) → Int}
    {s : State map (fun _ => Int) Members c} {as : List (Act Node)}
    (h : Run (ofFun (State.step (kernels count))) (State.init (kernels count) uninit) as s)
    (hs : s.start = .returned) :
    s.members .print = (generated count (count - 1).toNat).map (fun v => v.1 + v.1) ∧
      (s.queue .inputA).pushed = (s.queue .inputB).pushed ∧
      ∀ q, (s.queue q).popped.length = (s.queue q).pushed.length := by
  have hall (k : Node) : k ∈ map.kernels := by cases k <;> decide
  have hA : (s.queue .inputA).pushed = generated count (count - 1).toNat :=
    gives_generated (source_returned (generatesA count) hall h hs)
  have hB : (s.queue .inputB).pushed = generated count (count - 1).toNat :=
    gives_generated (source_returned (generatesB count) hall h hs)
  obtain ⟨-, hsum, hpoppedA, hpoppedB, -⟩ := pairs_returned (sums count) hall h hs
  obtain ⟨hprint, hpopped⟩ := sink_returned (prints count) hall h hs
  rw [hA, hB, show (kernels count).init .s = () from rfl, sums_stream] at hsum
  have hlength : (s.queue .sum).pushed.length = (generated count (count - 1).toNat).length := by
    rw [hsum, List.length_map]
  refine ⟨?_, hA.trans hB.symm, fun q => ?_⟩
  · rw [hprint, foldl_prints, hsum, List.map_map]
    rfl
  · cases q with
    | inputA => rw [hpoppedA, hlength, hA]
    | inputB => rw [hpoppedB, hlength, hB]
    | sum => exact hpopped

theorem allpush_returned_oneEach : ∃ s : State map (fun _ => Int) Members fun _ => 1,
    s.start = .returned ∧ s.members .print = [0] := by
  obtain ⟨s, h, hs⟩ := oneEach
  exact ⟨s, hs, (allpush_returned h hs).1⟩

end AllPush

end RaftLib.Threads.SimpleSchedule
