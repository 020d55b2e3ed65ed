/-
# `RaftLib.Threads.Determinacy` -- the result of a graph does not depend on its schedule

Whichever thread runs when, load by load, and whatever the capacities of the queues are: what has been
pushed on a queue in one run of a graph begins what has been pushed on it in another, or the other way
round (`histories_comparable`). Where `start` has returned in both, the queues have the same records
and the kernels the same members (`result_unique`). The kernels may be scheduled by `any_port` or by
`all_port`, return `stop` when they like, and be linked in any way, cycles included.

What there is to compute is found by running the kernels one after the other, each alone and to its
end (`sequential`). That is one schedule among the others, for queues with room enough, so its result
is that of the threads (`parallel_eq_sequential`), and where it comes about no pop throws
(`never_throws`).
-/
import RaftLib.Threads.KernelSteps

namespace RaftLib.Threads.SimpleSchedule

open RaftLib.Queue
open RaftLib.Logic
open RaftLib.Logic.Kahn
open RaftLib.Logic.Steps
open RaftLib.Threads.PoolSchedule (Net SchedBehav pipe)

variable {κ ι : Type} {T : ι → Type} {M : κ → Type} {c : ι → Nat} {N : Net κ ι}

/-! ## When `start` returns -/

/-- What `start` knows of the threads. -/
def Start.Knows (N : Net κ ι) (term : κ → Bool) : Start κ → Prop
  | .spawning _ => True
  | .pass rest keepGoing => keepGoing = false → ∀ k ∈ N.kernels, k ∈ rest ∨ term k = true
  | .joining k rest keepGoing => keepGoing = false → ∀ j ∈ N.kernels, j ∈ k :: rest ∨ term j = true
  | .returned => ∀ k ∈ N.kernels, term k = true

/-- A thread that has ended is finished, and only threads that have ended are joined. -/
structure Joined (s : State N T M c) : Prop where
  ended : ∀ k, s.pc k = .ended → s.finished k = true
  term : ∀ k, s.term k = true → s.pc k = .ended
  start : s.start.Knows N s.term

section

variable [DecidableEq κ] [DecidableEq ι] {K : Kernels N T M} {s t : State N T M c} {k : κ}

omit [DecidableEq κ] [DecidableEq ι] in
theorem answer_ne_ended (again b : Bool) : s.answer K k again b ≠ .ended := by
  cases b <;> cases again <;> rintro ⟨⟩

omit [DecidableEq κ] [DecidableEq ι] in
theorem hasInputData_ne_ended (again : Bool) : s.hasInputData K k again ≠ .ended := by
  unfold State.hasInputData
  split
  · exact answer_ne_ended again true
  · rintro ⟨⟩

omit [DecidableEq κ] [DecidableEq ι] in
theorem looked_ne_ended (again : Bool) (rest : List (PortOf (N.input k))) (n : Nat) :
    s.looked K k again rest n ≠ .ended := by
  unfold State.looked
  split
  · split
    · exact answer_ne_ended again true
    · rintro ⟨⟩
  · split
    · exact answer_ne_ended again false
    · rintro ⟨⟩

/-- A thread ends at the head of its loop only, and once it is finished. -/
theorem thread_ended (h : s.thread K k = some t) :
    t.term = s.term ∧ (t.pc k = .ended → t.finished k = true) := by
  have hgoto (pc : Pc ι T (M k) c (N.input k) (N.output k)) (hpc : pc ≠ .ended) :
      (s.goto k pc).pc k ≠ .ended := by
    rwa [State.goto_pc]
  unfold State.thread at h
  split at h
  · cases h
  · cases h
  · cases h
  · cases h
    refine ⟨rfl, fun hend => ?_⟩
    rw [State.goto_pc] at hend
    split at hend
    · next hf => exact hf
    · exact absurd hend (hasInputData_ne_ended false)
  · cases h
    exact ⟨rfl, fun hend => absurd hend (hgoto _ (answer_ne_ended _ _))⟩
  · cases h
    exact ⟨rfl, fun hend => absurd hend (hgoto _ (by rintro ⟨⟩))⟩
  · split at h
    · cases h
      exact ⟨rfl, fun hend => absurd hend (hgoto _ (by rintro ⟨⟩))⟩
    · cases h
      exact ⟨rfl, fun hend => absurd hend (hgoto _ (looked_ne_ended _ _ _))⟩
  · obtain ⟨x, -, rfl⟩ := Option.map_eq_some_iff.mp h
    exact ⟨rfl, fun hend => absurd hend (hgoto _ (by rintro ⟨⟩))⟩
  · obtain ⟨x, -, rfl⟩ := Option.map_eq_some_iff.mp h
    exact ⟨rfl, fun hend => absurd hend (hgoto _ (by rintro ⟨⟩))⟩
  · cases h
    exact ⟨rfl, fun hend => absurd hend (hgoto _ (by split <;> rintro ⟨⟩))⟩
  · obtain ⟨x, -, rfl⟩ := Option.map_eq_some_iff.mp h
    exact ⟨rfl, fun hend => absurd hend (hgoto _ (by split <;> rintro ⟨⟩))⟩
  · next q next item _ =>
      obtain ⟨x, -, rfl⟩ := Option.map_eq_some_iff.mp h
      refine ⟨rfl, fun hend => absurd hend (hgoto _ ?_)⟩
      split
      · cases (s.queue q).itemRead item <;> rintro ⟨⟩
      · rintro ⟨⟩
  · cases h
    exact ⟨rfl, fun hend => absurd hend (hgoto _ (hasInputData_ne_ended true))⟩
  · cases h
    exact ⟨rfl, fun hend => absurd hend (hgoto _ (by split <;> rintro ⟨⟩))⟩
  · cases h
    exact ⟨rfl, fun hend => absurd hend (hgoto _ (by split <;> rintro ⟨⟩))⟩
  · obtain ⟨x, -, rfl⟩ := Option.map_eq_some_iff.mp h
    exact ⟨rfl, fun hend => absurd hend (hgoto _ (by rintro ⟨⟩))⟩

variable [∀ q, NeZero (c q)]

omit [DecidableEq κ] [DecidableEq ι] [∀ q, NeZero (c q)] in
theorem Joined.init [∀ q, NeZero (c q)] (uninit : ∀ q, Fin (c q) → T q) :
    Joined (State.init K uninit) where
  ended _ h := by cases h
  term _ h := by cases h
  start := trivial

theorem Joined.step {a : Act κ} (hj : Joined s) (hi : Inv s) (h : s.step K a = some t) :
    Joined t := by
  cases a with
  | kernel k =>
      have hgood : Good K s t k := thread_good hi h
      have hne : s.pc k ≠ .ended := by
        intro hend
        simp [State.step, State.thread, hend] at h
      obtain ⟨hterm, hended⟩ := thread_ended h
      refine ⟨fun j hpc => ?_, fun j ht => ?_, ?_⟩
      · by_cases hjk : j = k
        · subst hjk
          exact hended hpc
        · rw [(hgood.frame j hjk).finished]
          exact hj.ended j ((hgood.frame j hjk).pc.symm.trans hpc)
      · rw [hterm] at ht
        have hend := hj.term j ht
        have hjk : j ≠ k := by
          rintro rfl
          exact hne hend
        exact (hgood.frame j hjk).pc.trans hend
      · rw [hgood.start, hterm]
        exact hj.start
  | start =>
      have hknows := hj.start
      simp only [State.step] at h
      unfold State.startNext at h
      split at h
      · next k rest hstart =>
          cases h
          have hpc : s.pc k = .unborn := (hi.unborn _ hstart).2 k (List.mem_cons_self ..)
          refine ⟨fun j hend => ?_, fun j ht => ?_, trivial⟩
          · have hend' : (s.goto k .loop).pc j = .ended := hend
            by_cases hjk : j = k
            · subst hjk
              rw [State.goto_pc] at hend'
              cases hend'
            · rw [State.goto_pc_of_ne s hjk] at hend'
              exact hj.ended j hend'
          · have hend := hj.term j ht
            have hjk : j ≠ k := by
              rintro rfl
              rw [hpc] at hend
              cases hend
            exact (State.goto_pc_of_ne s hjk _).trans hend
      · cases h
        exact ⟨hj.ended, hj.term, fun _ k hk => .inl hk⟩
      · next k rest keepGoing hstart =>
          rw [hstart] at hknows
          cases h
          refine ⟨hj.ended, hj.term, ?_⟩
          show Start.Knows N s.term (if s.term k then _ else _)
          split
          · next ht =>
              intro hkg j hjk
              rcases hknows hkg j hjk with hmem | hterm
              · rcases List.mem_cons.mp hmem with rfl | hmem
                · exact .inr ht
                · exact .inl hmem
              · exact .inr hterm
          · split
            · exact hknows
            · rintro ⟨⟩
      · next keepGoing hstart =>
          rw [hstart] at hknows
          cases h
          refine ⟨hj.ended, hj.term, ?_⟩
          show Start.Knows N s.term (if keepGoing then _ else _)
          split
          · exact fun _ k hk => .inl hk
          · next hkg =>
              exact fun k hk =>
                (hknows (by simpa using hkg) k hk).resolve_left List.not_mem_nil
      · next k rest keepGoing hstart =>
          rw [hstart] at hknows
          split at h
          · next hend =>
              cases h
              refine ⟨hj.ended, fun j ht => ?_, fun hkg j hjk => ?_⟩
              · by_cases hjk : j = k
                · subst hjk
                  exact hend
                · exact hj.term j ((Function.update_of_ne hjk ..).symm.trans ht)
              · show j ∈ rest ∨ Function.update s.term k true j = true
                by_cases hjk' : j = k
                · subst hjk'
                  exact .inr (Function.update_self ..)
                · rw [Function.update_of_ne hjk']
                  exact (hknows hkg j hjk).imp_left fun hmem =>
                    (List.mem_cons.mp hmem).resolve_left hjk'
          · cases h
      · cases h

/-! ## Runs -/

theorem joined_of_run {as : List (Act κ)} (h : Run (ofFun (State.step K)) s as t) (hi : Inv s)
    (hj : Joined s) : Joined t :=
  (h.invariant (I := fun s => Inv s ∧ Joined s)
    (fun _ _ _ hs hl => ⟨(step_good hs.1 hl).1, hs.2.step hs.1 hl⟩) ⟨hi, hj⟩).2

omit [DecidableEq κ] [DecidableEq ι] [∀ q, NeZero (c q)] in
/-- When `start` has returned, every kernel has come to its end. -/
theorem halted_of_returned (hj : Joined s) (hs : s.start = .returned) (hk : k ∈ N.kernels) :
    s.abs.proc k = .stopped (s.members k) := by
  have hknows := hj.start
  rw [hs] at hknows
  have hend := hj.term k (hknows k hk)
  show phase s.queue (s.finished k) (s.members k) (s.pc k) = _
  rw [hend, phase, hj.ended k hend]
  rfl

omit [DecidableEq κ] [DecidableEq ι] in
/-- What has been popped begins what has been pushed. -/
theorem popped_eq_take (hi : Inv s) (q : ι) :
    (s.queue q).popped = (s.queue q).pushed.take (s.queue q).popped.length := by
  obtain ⟨R, hR⟩ := (hi.queue q).inv
  rw [hR.popped_length]
  exact hR.popped

end

/-! ### A source that feeds a sink -/

/-- The source pushes a number and stops; the sink adds up what it pops. -/
def adder : Kernels pipe (fun _ => Nat) fun _ => Nat where
  init _ := 0
  run
    | false, m => .push ⟨(), List.mem_singleton.mpr rfl⟩ (7, RaftSignal.none) (.returns .stop m)
    | true, m => .pop ⟨(), List.mem_singleton.mpr rfl⟩ fun v => .returns .proceed (m + v.1)

/-- The sink is spawned when the source has ended; the queue has one place. -/
theorem sourceFirst : ∃ s : State pipe (fun _ => Nat) (fun _ => Nat) fun _ => 1,
    Run (ofFun (State.step adder)) (State.init adder fun _ _ => 0)
      (.start :: List.replicate 19 (.kernel false) ++ .start :: List.replicate 30 (.kernel true) ++
        List.replicate 6 .start) s ∧ s.start = .returned :=
  exists_run_of_any (by decide)

/-- The sink looks in vain before the source has pushed; the queue has two places. -/
theorem sinkFirst : ∃ s : State pipe (fun _ => Nat) (fun _ => Nat) fun _ => 2,
    Run (ofFun (State.step adder)) (State.init adder fun _ _ => 0)
      ([.start, .start] ++ List.replicate 9 (.kernel true) ++ List.replicate 17 (.kernel false) ++
        .start :: List.replicate 27 (.kernel true) ++ List.replicate 5 .start) s ∧
      s.start = .returned :=
  exists_run_of_any (by decide)

/-! ## Two runs of one graph -/

section

variable [DecidableEq κ] [DecidableEq ι] {K : Kernels N T M} {c' : ι → Nat} [∀ q, NeZero (c q)]
  [∀ q, NeZero (c' q)] {uninit : ∀ q, Fin (c q) → T q} {uninit' : ∀ q, Fin (c' q) → T q}
  {s : State N T M c} {s' : State N T M c'} {as as' : List (Act κ)}

/-- **What is pushed and popped does not depend on the schedule, nor on the capacities.** Of two runs of
a graph, wherever they have got, one is ahead of the other on each queue, with the same items in the
same order. -/
theorem histories_comparable (h : Run (ofFun (State.step K)) (State.init K uninit) as s)
    (h' : Run (ofFun (State.step K)) (State.init K uninit') as' s') (q : ι) :
    (s.queue q).popped <+: (s.queue q).pushed ∧
      ((s.queue q).pushed <+: (s'.queue q).pushed ∨ (s'.queue q).pushed <+: (s.queue q).pushed) ∧
      ((s.queue q).popped <+: (s'.queue q).popped ∨ (s'.queue q).popped <+: (s.queue q).popped) := by
  obtain ⟨hi, ks, hks⟩ := run_refines h (Inv.init uninit)
  obtain ⟨hi', ks', hks'⟩ := run_refines h' (Inv.init uninit')
  have hpushed : (s.queue q).pushed <+: (s'.queue q).pushed ∨
      (s'.queue q).pushed <+: (s.queue q).pushed := Net.comparable hks hks' q
  have hpopped : (s.queue q).popped <+: (s.queue q).pushed := by
    rw [popped_eq_take hi q]
    exact List.take_prefix _ _
  have hpopped' : (s'.queue q).popped <+: (s'.queue q).pushed := by
    rw [popped_eq_take hi' q]
    exact List.take_prefix _ _
  refine ⟨hpopped, hpushed, ?_⟩
  rcases hpushed with hle | hle
  · exact List.prefix_or_prefix_of_prefix (hpopped.trans hle) hpopped'
  · exact List.prefix_or_prefix_of_prefix hpopped (hpopped'.trans hle)

theorem histories_comparable_adder :
    ∃ (s : State pipe (fun _ => Nat) (fun _ => Nat) fun _ => 1)
      (s' : State pipe (fun _ => Nat) (fun _ => Nat) fun _ => 2),
      (s.queue ()).popped <+: (s.queue ()).pushed ∧
        ((s.queue ()).pushed <+: (s'.queue ()).pushed ∨ (s'.queue ()).pushed <+: (s.queue ()).pushed) ∧
        ((s.queue ()).popped <+: (s'.queue ()).popped ∨ (s'.queue ()).popped <+: (s.queue ()).popped) := by
  obtain ⟨s, h, -⟩ := sourceFirst
  obtain ⟨s', h', -⟩ := sinkFirst
  exact ⟨s, s', histories_comparable h h' ()⟩

/-- **The result does not depend on the schedule, nor on the capacities.** -/
theorem result_unique (hall : ∀ k, k ∈ N.kernels)
    (h : Run (ofFun (State.step K)) (State.init K uninit) as s)
    (h' : Run (ofFun (State.step K)) (State.init K uninit') as' s') (hs : s.start = .returned)
    (hs' : s'.start = .returned) :
    (∀ q, (s.queue q).pushed = (s'.queue q).pushed ∧ (s.queue q).popped = (s'.queue q).popped) ∧
      ∀ k, s.members k = s'.members k := by
  obtain ⟨hi, ks, hks⟩ := run_refines h (Inv.init uninit)
  obtain ⟨hi', ks', hks'⟩ := run_refines h' (Inv.init uninit')
  have hstop (k : κ) := halted_of_returned (joined_of_run h (.init uninit) (.init uninit)) hs (hall k)
  have hstop' (k : κ) :=
    halted_of_returned (joined_of_run h' (.init uninit') (.init uninit')) hs' (hall k)
  have hsame : s.abs = s'.abs := by
    refine Net.final_unique hks hks' (fun k => ?_) fun k => ?_
    · rw [Net.Halted, hstop]
      rfl
    · rw [Net.Halted, hstop']
      rfl
  refine ⟨fun q => ?_, fun k => ?_⟩
  · have hchan : (s.queue q).chan = (s'.queue q).chan := congrFun (congrArg Kahn.State.chan hsame) q
    have hpushed : (s.queue q).pushed = (s'.queue q).pushed := congrArg Chan.sent hchan
    have hgot : (s.queue q).popped.length = (s'.queue q).popped.length := congrArg Chan.got hchan
    refine ⟨hpushed, ?_⟩
    rw [popped_eq_take hi q, popped_eq_take hi' q, hpushed, hgot]
  · have hproc := congrFun (congrArg Kahn.State.proc hsame) k
    rw [hstop, hstop'] at hproc
    exact Phase.stopped.inj hproc

theorem result_unique_adder :
    ∃ (s : State pipe (fun _ => Nat) (fun _ => Nat) fun _ => 1)
      (s' : State pipe (fun _ => Nat) (fun _ => Nat) fun _ => 2),
      (s.queue ()).popped = (s'.queue ()).popped ∧ s.members true = s'.members true := by
  obtain ⟨s, h, hs⟩ := sourceFirst
  obtain ⟨s', h', hs'⟩ := sinkFirst
  have hall (k : Bool) : k ∈ pipe.kernels := by cases k <;> decide
  obtain ⟨hqueue, hmembers⟩ := result_unique hall h h' hs hs'
  exact ⟨s, s', (hqueue ()).2, hmembers true⟩

end

/-! ## The kernels one after the other -/

/-- The records of all queues. -/
abbrev Chans (T : ι → Type) : Type := ∀ q, Chan (T q × RaftSignal)

instance (all : Bool) (qs : List ι) (C : Chans T) : Decidable (Ready all qs C) := by
  unfold Ready Chan.HasData
  infer_instance

section

variable [DecidableEq ι]

/-- A `run()` by itself, with room enough in its output queues. It fails where it pops an item that is
not there. -/
def Prog.exec {M : Type} {input output : List ι} :
    Prog ι T M input output → Chans T → Option (Kstatus × M × Chans T)
  | .pop q next, C =>
      match (C q).sent[(C q).got]? with
      | some v => (next v).exec (effect C (some ⟨q, .recv⟩))
      | none => none
  | .push q item next, C => next.exec (effect C (some ⟨q, .send item⟩))
  | .returns status m, C => some (status, m, C)

def closeAll (qs : List ι) (C : Chans T) : Chans T :=
  qs.foldl (fun C q => effect C (some ⟨q, .close⟩)) C

/-- One kernel by itself, called until it stops or its input is over. It fails where it would wait. -/
def Kernels.alone (K : Kernels N T M) (k : κ) : Nat → M k → Chans T → Option (M k × Chans T)
  | 0, _, _ => none
  | fuel + 1, m, C =>
      if (N.input k).isEmpty ∨ Ready (N.schedBehav k = .allPort) (N.input k) C then
        match (K.run k m).exec C with
        | some (.proceed, m, C) => K.alone k fuel m C
        | some (.stop, m, C) => some (m, closeAll (N.output k) C)
        | none => none
      else if ∀ q ∈ N.input k, (C q).closed = true then some (m, closeAll (N.output k) C)
      else none

/-- The kernels of `order`, each by itself, one after the other. -/
def Kernels.sequential [DecidableEq κ] (K : Kernels N T M) (fuel : Nat) :
    List κ → (∀ k, M k) → Chans T → Option ((∀ k, M k) × Chans T)
  | [], m, C => some (m, C)
  | k :: order, m, C =>
      (K.alone k fuel (m k) C).bind fun r =>
        K.sequential fuel order (Function.update m k r.1) r.2

end

/-! ## One after the other is one schedule among the others -/

section

variable [DecidableEq κ] [DecidableEq ι] {K : Kernels N T M} {k : κ}

/-- The state of the network. -/
abbrev NetState (N : Net κ ι) (T : ι → Type) (M : κ → Type) : Type :=
  Kahn.State κ ι (fun q => T q × RaftSignal) fun k => Phase ι T (M k) (N.input k) (N.output k)

/-- Process `k` is at `p`, and the queues have the records `C`. -/
def place (s : NetState N T M) (k : κ) (p : Phase ι T (M k) (N.input k) (N.output k))
    (C : Chans T) : NetState N T M where
  proc := Function.update s.proc k p
  chan := C

omit [DecidableEq ι] in
theorem place_self {s : NetState N T M} {p : Phase ι T (M k) (N.input k) (N.output k)}
    (h : s.proc k = p) : place s k p s.chan = s := by
  subst h
  exact Kahn.State.ext (Function.update_eq_self ..) rfl

omit [DecidableEq ι] in
theorem place_proc (s : NetState N T M) (p : Phase ι T (M k) (N.input k) (N.output k))
    (C : Chans T) : (place s k p C).proc k = p := Function.update_self ..

omit [DecidableEq ι] in
theorem place_proc_of_ne (s : NetState N T M) {j : κ} (h : j ≠ k)
    (p : Phase ι T (M k) (N.input k) (N.output k)) (C : Chans T) :
    (place s k p C).proc j = s.proc j := Function.update_of_ne h ..

theorem place_step (s : NetState N T M) {p p' : Phase ι T (M k) (N.input k) (N.output k)}
    {C : Chans T} {e : Option (Σ q, Kahn.Op (T q × RaftSignal))}
    (h : Fires ⊤ C (K.net.prog k p) p' e) :
    K.net.Step ⊤ (place s k p C) k (place s k p' (effect C e)) := by
  refine ⟨p', e, ?_, ?_⟩
  · rw [place_proc]
    exact h
  · exact Kahn.State.ext (Function.update_idem ..).symm rfl

omit [DecidableEq κ] in
theorem effect_closed {C : Chans T} {q : ι} (op : Kahn.Op (T q × RaftSignal)) (hop : op ≠ .close)
    (q' : ι) : (effect C (some ⟨q, op⟩) q').closed = (C q').closed := by
  by_cases hq : q' = q
  · subst hq
    rw [effect_self]
    cases op with
    | recv | send v => rfl
    | close => exact absurd rfl hop
  · rw [effect_of_ne hq]

/-- A `run()` by itself is a run of the network. -/
theorem exec_run (s : NetState N T M) {p : Prog ι T (M k) (N.input k) (N.output k)} {C C' : Chans T}
    {status : Kstatus} {m : M k} (hopen : ∀ q, N.src q = k → (C q).closed = false)
    (h : p.exec C = some (status, m, C')) :
    (∃ ls, Run (K.net.Step ⊤) (place s k (.run p) C) ls (place s k (.run (.returns status m)) C')) ∧
      ∀ q, (C' q).closed = (C q).closed := by
  induction p generalizing C with
  | pop q next ih =>
      rw [Prog.exec] at h
      split at h
      · next v hv =>
          have hclosed (q' : ι) : (effect C (some ⟨q, .recv⟩) q').closed = (C q').closed :=
            effect_closed .recv (by rintro ⟨⟩) q'
          obtain ⟨⟨ls, hls⟩, hsame⟩ := ih v (fun q' hq' => (hclosed q').trans (hopen q' hq')) h
          exact ⟨⟨k :: ls, .cons (place_step s (.recv hv)) hls⟩, fun q' => (hsame q').trans (hclosed q')⟩
      · cases h
  | push q item next ih =>
      rw [Prog.exec] at h
      have hclosed (q' : ι) : (effect C (some ⟨q, .send item⟩) q').closed = (C q').closed :=
        effect_closed (.send item) (by rintro ⟨⟩) q'
      obtain ⟨⟨ls, hls⟩, hsame⟩ := ih (fun q' hq' => (hclosed q').trans (hopen q' hq')) h
      have hstep : Fires ⊤ C (K.net.prog k (.run (.push q item next))) (.run next)
          (some ⟨q, .send item⟩) :=
        .send (hopen q ((N.mem_output k q).mp q.2)) (ENat.natCast_lt_top _)
      exact ⟨⟨k :: ls, .cons (place_step s hstep) hls⟩, fun q' => (hsame q').trans (hclosed q')⟩
  | returns status' m' =>
      cases h
      exact ⟨⟨[], .nil _⟩, fun _ => rfl⟩

/-- A kernel closes its outputs one by one. -/
theorem close_run (s : NetState N T M) (rest : List (PortOf (N.output k))) (C : Chans T) (m : M k) :
    ∃ ls, Run (K.net.Step ⊤) (place s k (.close rest m) C) ls
      (place s k (.stopped m) (closeAll (rest.map Subtype.val) C)) := by
  induction rest generalizing C with
  | nil => exact ⟨[k], .single (place_step s (e := none) .skip)⟩
  | cons q rest ih =>
      obtain ⟨ls, hls⟩ := ih (effect C (some ⟨q, .close⟩))
      exact ⟨k :: ls, .cons (place_step s .close) hls⟩

omit [DecidableEq κ] in
theorem closeAll_of_notMem {qs : List ι} {C : Chans T} {q : ι} (h : q ∉ qs) :
    closeAll qs C q = C q := by
  unfold closeAll
  induction qs generalizing C with
  | nil => rfl
  | cons q' qs ih =>
      rw [List.mem_cons, not_or] at h
      rw [List.foldl_cons, ih h.2, effect_of_ne h.1]

theorem alone_run (s : NetState N T M) {fuel : Nat} {m m' : M k} {C C' : Chans T}
    (hopen : ∀ q, N.src q = k → (C q).closed = false) (h : K.alone k fuel m C = some (m', C')) :
    (∃ ls, Run (K.net.Step ⊤) (place s k (.loop m) C) ls (place s k (.stopped m') C')) ∧
      ∀ q, N.src q ≠ k → (C' q).closed = (C q).closed := by
  have hattach : (N.output k).attach.map Subtype.val = N.output k := List.attach_map_subtype_val _
  -- the end: all outputs are closed
  have hends (m : M k) (C : Chans T) :
      (∃ ls, Run (K.net.Step ⊤) (place s k (.close (N.output k).attach m) C) ls
        (place s k (.stopped m) (closeAll (N.output k) C))) ∧
        ∀ q, N.src q ≠ k → (closeAll (N.output k) C q).closed = (C q).closed := by
    refine ⟨?_, fun q hq => ?_⟩
    · have := close_run (K := K) s (N.output k).attach C m
      rwa [hattach] at this
    · rw [closeAll_of_notMem fun hmem => hq ((N.mem_output k q).mp hmem)]
  induction fuel generalizing m C with
  | zero => cases h
  | succ fuel ih =>
      rw [Kernels.alone] at h
      split at h
      · next hready =>
          have hstep : Fires ⊤ C (K.net.prog k (.loop m)) (.run (K.run k m)) none := by
            show Fires _ _ (if (N.input k).isEmpty then _ else _) _ _
            split
            · exact .skip
            · next hne => exact .data (hready.resolve_left hne)
          split at h
          · next m₁ C₁ hexec =>
              obtain ⟨⟨ls, hls⟩, hsame⟩ := exec_run (K := K) s hopen hexec
              obtain ⟨⟨ls', hls'⟩, hsame'⟩ := ih (fun q hq => (hsame q).trans (hopen q hq)) h
              have hreturn : Fires ⊤ C₁ (K.net.prog k (.run (.returns .proceed m₁))) (.loop m₁) none :=
                .skip
              exact ⟨⟨_, .cons (place_step s hstep) (hls.append (.cons (place_step s hreturn) hls'))⟩,
                fun q hq => (hsame' q hq).trans (hsame q)⟩
          · next m₁ C₁ hexec =>
              cases h
              obtain ⟨⟨ls, hls⟩, hsame⟩ := exec_run (K := K) s hopen hexec
              obtain ⟨⟨ls', hls'⟩, hsame'⟩ := hends m' C₁
              have hreturn : Fires ⊤ C₁ (K.net.prog k (.run (.returns .stop m')))
                  (.close (N.output k).attach m') none := .skip
              exact ⟨⟨_, .cons (place_step s hstep) (hls.append (.cons (place_step s hreturn) hls'))⟩,
                fun q hq => (hsame' q hq).trans (hsame q)⟩
          · cases h
      · next hready =>
          rw [not_or] at hready
          split at h
          · next hclosed =>
              cases h
              obtain ⟨⟨ls, hls⟩, hsame⟩ := hends m' C
              have hstep : Fires ⊤ C (K.net.prog k (.loop m')) (.close (N.output k).attach m') none := by
                show Fires _ _ (if (N.input k).isEmpty then _ else _) _ _
                rw [if_neg hready.1]
                exact .ended hready.2 hclosed
              exact ⟨⟨_, .cons (place_step s hstep) hls⟩, hsame⟩
          · cases h

theorem sequential_run {fuel : Nat} {order : List κ} (hnodup : order.Nodup) {m m' : ∀ k, M k}
    {C C' : Chans T} {s : NetState N T M} (hchan : s.chan = C)
    (hloop : ∀ k ∈ order, s.proc k = .loop (m k))
    (hopen : ∀ q, N.src q ∈ order → (C q).closed = false)
    (h : K.sequential fuel order m C = some (m', C')) :
    ∃ ls t, Run (K.net.Step ⊤) s ls t ∧ t.chan = C' ∧ (∀ k ∈ order, t.proc k = .stopped (m' k)) ∧
      ∀ k, k ∉ order → t.proc k = s.proc k ∧ m' k = m k := by
  induction order generalizing m C s with
  | nil =>
      cases h
      exact ⟨[], s, .nil s, hchan, fun k hk => absurd hk List.not_mem_nil, fun _ _ => ⟨rfl, rfl⟩⟩
  | cons k order ih =>
      obtain ⟨hk, hnodup⟩ := List.nodup_cons.mp hnodup
      obtain ⟨⟨m₁, C₁⟩, halone, hrest⟩ := Option.bind_eq_some_iff.mp h
      have hopenk (q : ι) (hq : N.src q = k) : (C q).closed = false :=
        hopen q (hq ▸ List.mem_cons_self ..)
      obtain ⟨⟨ls, hls⟩, hclosed⟩ := alone_run (K := K) s hopenk halone
      rw [← hchan, place_self (hloop k (List.mem_cons_self ..))] at hls
      have hne {j : κ} (hj : j ∈ order) : j ≠ k := by
        rintro rfl
        exact hk hj
      have hloop' (j : κ) (hj : j ∈ order) :
          (place s k (.stopped m₁) C₁).proc j = .loop (Function.update m k m₁ j) := by
        rw [place_proc_of_ne s (hne hj), hloop j (List.mem_cons_of_mem k hj),
          Function.update_of_ne (hne hj)]
      have hopen' (q : ι) (hq : N.src q ∈ order) : (C₁ q).closed = false :=
        (hclosed q (hne hq)).trans (hopen q (List.mem_cons_of_mem k hq))
      obtain ⟨ls', t, hls', htchan, htproc, htsame⟩ := ih hnodup rfl hloop' hopen' hrest
      refine ⟨ls ++ ls', t, hls.append hls', htchan, fun j hj => ?_, fun j hj => ?_⟩
      · rcases List.mem_cons.mp hj with rfl | hj
        · obtain ⟨hproc, hm⟩ := htsame j hk
          rw [hproc, hm, place_proc, Function.update_self]
        · exact htproc j hj
      · rw [List.mem_cons, not_or] at hj
        obtain ⟨hproc, hm⟩ := htsame j hj.2
        rw [hproc, hm, place_proc_of_ne s hj.1, Function.update_of_ne hj.1]
        exact ⟨rfl, rfl⟩

/-- What the kernels compute one after the other, as a run of the network from its beginning. -/
theorem sequential_halts [∀ q, NeZero (c q)] (uninit : ∀ q, Fin (c q) → T q) {fuel : Nat}
    {order : List κ} (hnodup : order.Nodup) (hall : ∀ k, k ∈ order) {m : ∀ k, M k} {C : Chans T}
    (h : K.sequential fuel order K.init (fun _ => {}) = some (m, C)) :
    ∃ ls u, Run (K.net.Step ⊤) (State.init (c := c) K uninit).abs ls u ∧ u.chan = C ∧
      ∀ k, u.proc k = .stopped (m k) := by
  obtain ⟨ls, u, hls, hchan, hproc, -⟩ := sequential_run hnodup
    (s := (State.init (c := c) K uninit).abs) rfl (fun _ _ => rfl) (fun _ _ => rfl) h
  exact ⟨ls, u, hls, hchan, fun k => hproc k (hall k)⟩

end

/-- **The threads compute what the kernels compute one after the other**, if that comes to an end: the
same items on every queue, as many of them popped, and the same members of the kernels. -/
theorem parallel_eq_sequential [DecidableEq κ] [DecidableEq ι] {K : Kernels N T M}
    [∀ q, NeZero (c q)] {uninit : ∀ q, Fin (c q) → T q} {s : State N T M c} {as : List (Act κ)}
    (hkernels : ∀ k, k ∈ N.kernels) {fuel : Nat} {order : List κ} (hnodup : order.Nodup)
    (hall : ∀ k, k ∈ order) {m : ∀ k, M k} {C : Chans T}
    (hseq : K.sequential fuel order K.init (fun _ => {}) = some (m, C))
    (h : Run (ofFun (State.step K)) (State.init K uninit) as s) (hs : s.start = .returned) :
    (∀ q, (s.queue q).pushed = (C q).sent ∧ (s.queue q).popped = (C q).sent.take (C q).got) ∧
      ∀ k, s.members k = m k := by
  obtain ⟨hi, ks, hks⟩ := run_refines h (Inv.init uninit)
  obtain ⟨ls, u, hls, rfl, hproc⟩ := sequential_halts uninit hnodup hall hseq
  have hstop (k : κ) :=
    halted_of_returned (joined_of_run h (.init uninit) (.init uninit)) hs (hkernels k)
  have hsame : s.abs = u := by
    refine Net.final_unique hks hls (fun k => ?_) fun k => ?_
    · rw [Net.Halted, hstop]
      rfl
    · rw [Net.Halted, hproc]
      rfl
  subst hsame
  refine ⟨fun q => ⟨rfl, popped_eq_take hi q⟩, fun k => ?_⟩
  have := hproc k
  rw [hstop] at this
  exact Phase.stopped.inj this

theorem parallel_eq_sequential_adder :
    ∃ s : State pipe (fun _ => Nat) (fun _ => Nat) fun _ => 1,
      (s.queue ()).popped = [(7, RaftSignal.none)] ∧ s.members true = 7 := by
  obtain ⟨s, h, hs⟩ := sourceFirst
  have hall (k : Bool) : k ∈ pipe.kernels := by cases k <;> decide
  obtain ⟨⟨m, C⟩, hseq, hm, hsent, hgot⟩ : ∃ r, adder.sequential 4 [false, true] adder.init (fun _ => {}) =
      some r ∧ r.1 true = 7 ∧ (r.2 ()).sent = [(7, RaftSignal.none)] ∧ (r.2 ()).got = 1 :=
    ⟨_, rfl, rfl, rfl, rfl⟩
  obtain ⟨hqueue, hmembers⟩ := parallel_eq_sequential hall (by decide) (by decide) hseq h hs
  refine ⟨s, ?_, (hmembers true).trans hm⟩
  rw [(hqueue ()).2, hsent, hgot]
  rfl

/-- **No pop throws**, in no schedule, if the kernels come to their end one after the other. -/
theorem never_throws [DecidableEq κ] [DecidableEq ι] {K : Kernels N T M} [∀ q, NeZero (c q)]
    {uninit : ∀ q, Fin (c q) → T q} {s : State N T M c} {as : List (Act κ)} {fuel : Nat}
    {order : List κ} (hnodup : order.Nodup) (hall : ∀ k, k ∈ order) {m : ∀ k, M k} {C : Chans T}
    (hseq : K.sequential fuel order K.init (fun _ => {}) = some (m, C))
    (h : Run (ofFun (State.step K)) (State.init K uninit) as s) (k : κ)
    (p : Prog ι T (M k) (N.input k) (N.output k)) : s.pc k ≠ .failed p := by
  intro hpc
  obtain ⟨hi, ks, hks⟩ := run_refines h (Inv.init uninit)
  obtain ⟨ls, u, hls, -, hproc⟩ := sequential_halts uninit hnodup hall hseq
  have hhalt (k : κ) : K.net.Halted u k := by
    rw [Net.Halted, hproc]
    rfl
  have hknows := (hi.own k).knows
  rw [hpc] at hknows
  obtain ⟨q, next, rfl, hv, hno⟩ := hknows
  have hat : s.abs.proc k = .run (.pop q next) := by
    show phase s.queue (s.finished k) (s.members k) (s.pc k) = _
    rw [hpc]
    rfl
  have hover : (s.abs.chan q).Over := by
    refine ⟨?_, hno⟩
    show (!(s.queue q).buffer.isValid) = true
    rw [hv]
    rfl
  -- the network could still be brought to its end, but `k` is not there and does not go on
  have hrest := ((K.net.commuting ⊤).complete (Net.run_mono le_top hks) hls
    (Net.stuck_of_halted hhalt)).1
  have hstays := Net.starved (by rw [hat]; rfl) hover hrest
  rw [hproc, hat] at hstays
  cases hstays

theorem never_throws_adder :
    ∃ s : State pipe (fun _ => Nat) (fun _ => Nat) fun _ => 2, ∀ p, s.pc true ≠ .failed p := by
  obtain ⟨s, h, -⟩ := sinkFirst
  obtain ⟨⟨m, C⟩, hseq⟩ : ∃ r, adder.sequential 4 [false, true] adder.init (fun _ => {}) = some r :=
    ⟨_, rfl⟩
  exact ⟨s, never_throws (by decide) (by decide) hseq h true⟩

end RaftLib.Threads.SimpleSchedule
