/-
# `RaftLib.Threads.AllPort` -- kernels that wait for all of their ports

A kernel that is scheduled by `all_port` is called only when each of its inputs has an item. Nobody
else takes items away from them, so a `run()` that pops from each port at most once finds what it
pops: it neither throws nor waits for a producer, in any graph (`allPort_supplied`). Under `any_port`
there is no such thing.

The price is that such a kernel is never called again once one of its inputs is at its end
(`allPort_starved`). What the others still send it stays in the queues.
-/
import RaftLib.Threads.Determinacy

namespace RaftLib.Threads.SimpleSchedule

open RaftLib.Queue
open RaftLib.Logic
open RaftLib.Logic.Kahn
open RaftLib.Logic.Steps
open RaftLib.Threads.PoolSchedule (Net SchedBehav)

variable {κ ι : Type} {T : ι → Type} {M : κ → Type} {c : ι → Nat} {N : Net κ ι}

/-! ## A `run()` that pops from each port once -/

/-- It pops from ports of `ports`, and from none of them twice. -/
def Prog.PopsOnce {M : Type} {input output : List ι} :
    Prog ι T M input output → Set (PortOf input) → Prop
  | .pop q next, ports => q ∈ ports ∧ ∀ v, (next v).PopsOnce (ports \ {q})
  | .push _ _ next, ports => next.PopsOnce ports
  | .returns _ _, _ => True

/-- In a `run()`, each port that may still be popped from has an item. -/
def Phase.Supplied (C : Chans T) {M : Type} {input output : List ι} : Phase ι T M input output → Prop
  | .run p => ∃ ports, p.PopsOnce ports ∧ ∀ q ∈ ports, (C q).HasData
  | _ => True

section

variable [DecidableEq κ] [DecidableEq ι] {K : Kernels N T M} {room : ι → ℕ∞} {a b : NetState N T M}
  {j k : κ}

/-- What another process does leaves the items where they are. -/
theorem hasData_of_step (h : K.net.Step room a j b) (hj : j ≠ k) {q : ι} (hq : N.dst q = k)
    (hd : (a.chan q).HasData) : (b.chan q).HasData := by
  rcases h.chan q with heq | ⟨op, hrole, heq⟩
  · rwa [heq]
  · rw [heq]
    exact hd.after (hrole.ne_recv (Ne.symm hj) hq)

/-- **One step keeps a kernel supplied**, its own or that of another one. -/
theorem supplied_step (hall : N.schedBehav k = .allPort) (honce : ∀ m, (K.run k m).PopsOnce Set.univ)
    (h : K.net.Step room a j b) (hs : (a.proc k).Supplied a.chan) : (b.proc k).Supplied b.chan := by
  by_cases hj : j = k
  · subst hj
    obtain ⟨n, e, hf, rfl⟩ := h
    have hn : (a.after j n e).proc j = n := Function.update_self ..
    rw [hn]
    cases hp : a.proc j with
    | loop m =>
        rw [hp] at hf
        have hf : Fires room a.chan (if (N.input j).isEmpty then .skip (.run (K.run j m))
          else .await (N.schedBehav j = .allPort) (N.input j) (.run (K.run j m))
            (.close (N.output j).attach m)) n e := hf
        split at hf
        · next hempty =>
            cases hf with
            | skip =>
                exact ⟨Set.univ, honce m, fun q _ =>
                  absurd (List.isEmpty_iff.mp hempty) (List.ne_nil_of_mem q.2)⟩
        · cases hf with
          | data hr =>
              rw [hall] at hr
              exact ⟨Set.univ, honce m, fun q _ => hr q q.2⟩
          | ended _ _ => trivial
    | run p =>
        rw [hp] at hf hs
        obtain ⟨ports, hpops, hdata⟩ := hs
        cases p with
        | pop q next =>
            cases hf with
            | recv hv =>
                refine ⟨ports \ {q}, hpops.2 _, fun q' hq' => ?_⟩
                have hne : (q' : ι) ≠ q := fun heq => hq'.2 (Subtype.ext heq)
                show (effect a.chan (some ⟨q, .recv⟩) q').HasData
                rw [effect_of_ne hne]
                exact hdata q' hq'.1
        | push q item next =>
            cases hf with
            | send _ _ =>
                exact ⟨ports, hpops, fun q' hq' => effect_hasData (by rintro ⟨⟩) (hdata q' hq')⟩
        | returns status m =>
            cases status with
            | proceed => cases hf; trivial
            | stop => cases hf; trivial
    | close rest m =>
        rw [hp] at hf
        cases rest with
        | nil => cases hf; trivial
        | cons q rest => cases hf; trivial
    | stopped m =>
        rw [hp] at hf
        cases hf
  · rw [h.proc_of_ne (Ne.symm hj)]
    cases hp : a.proc k with
    | run p =>
        rw [hp] at hs
        obtain ⟨ports, hpops, hdata⟩ := hs
        exact ⟨ports, hpops, fun q hq => hasData_of_step h hj ((N.mem_input k q).mp q.2) (hdata q hq)⟩
    | _ => trivial

end

/-! ### Two sources that meet -/

/-- Two sources, and a kernel that waits for both. -/
def meet : Net (Option Bool) Bool where
  kernels := [some false, some true, none]
  nodup := by decide
  input k := if k.isNone then [false, true] else []
  output k := k.toList
  schedBehav k := if k.isNone then .allPort else .anyPort
  src := some
  dst _ := none
  mem_input k q := by cases k <;> cases q <;> simp
  mem_output k q := by rcases k with - | - | - <;> cases q <;> simp

/-- The second source pushes a number, and so does the first one if `both`. Where they meet, two numbers
are added up. -/
def meeting (both : Bool) : Kernels meet (fun _ => Nat) fun _ => Nat where
  init _ := 0
  run
    | some false, m =>
        if both then .push ⟨false, List.mem_singleton.mpr rfl⟩ (3, RaftSignal.none) (.returns .stop m)
        else .returns .stop m
    | some true, m => .push ⟨true, List.mem_singleton.mpr rfl⟩ (4, RaftSignal.none) (.returns .stop m)
    | none, m =>
        .pop ⟨false, List.mem_cons_self⟩ fun v =>
          .pop ⟨true, List.mem_cons_of_mem _ (List.mem_singleton.mpr rfl)⟩ fun w =>
            .returns .proceed (m + v.1 + w.1)

theorem meeting_popsOnce (both : Bool) (m : Nat) :
    ((meeting both).run none m).PopsOnce Set.univ :=
  ⟨trivial, fun _ => ⟨⟨trivial, fun h =>
    absurd (congrArg Subtype.val (Set.mem_singleton_iff.mp h)) (by decide)⟩, fun _ => trivial⟩⟩

/-- **What a kernel scheduled by `all_port` pops is there**, in every schedule and every graph, if its
`run()` pops from each port at most once: no pop throws, and none has to wait for its producer. -/
theorem allPort_supplied [DecidableEq κ] [DecidableEq ι] {K : Kernels N T M} [∀ q, NeZero (c q)]
    {uninit : ∀ q, Fin (c q) → T q} {s : State N T M c} {as : List (Act κ)} {k : κ}
    (hall : N.schedBehav k = .allPort) (honce : ∀ m, (K.run k m).PopsOnce Set.univ)
    (h : Run (ofFun (State.step K)) (State.init K uninit) as s) :
    (∀ p, s.pc k ≠ .failed p) ∧
      ∀ q next, s.pc k = .popping q next none → (s.queue q).popped.length < (s.queue q).pushed.length := by
  obtain ⟨hi, ks, hks⟩ := run_refines h (Inv.init uninit)
  have hsupplied : (s.abs.proc k).Supplied s.abs.chan :=
    hks.invariant (I := fun a => (a.proc k).Supplied a.chan)
      (fun _ _ _ ha hl => supplied_step hall honce hl ha) trivial
  have hpop (q : PortOf (N.input k)) (next : T q × RaftSignal → Prog ι T (M k) (N.input k) (N.output k))
      (hproc : s.abs.proc k = .run (.pop q next)) : (s.queue q).chan.HasData := by
    rw [hproc] at hsupplied
    obtain ⟨ports, hpops, hdata⟩ := hsupplied
    exact hdata q hpops.1
  refine ⟨fun p hpc => ?_, fun q next hpc => hpop q next ?_⟩
  · have hknows := (hi.own k).knows
    rw [hpc] at hknows
    obtain ⟨q, next, rfl, -, hno⟩ := hknows
    refine hno (hpop q next ?_)
    show phase s.queue (s.finished k) (s.members k) (s.pc k) = _
    rw [hpc]
    rfl
  · show phase s.queue (s.finished k) (s.members k) (s.pc k) = _
    rw [hpc]
    rfl

/-- A pop that has not read its item yet. -/
def Pc.unread {M : Type} {input output : List ι} : Pc ι T M c input output → Bool
  | .popping _ _ item => item.isNone
  | _ => false

/-- Both sources have pushed, and the pop looks at the first queue. -/
theorem allPort_supplied_meeting :
    ∃ s : State meet (fun _ => Nat) (fun _ => Nat) fun _ => 1, (s.pc none).pops = some false ∧
      (s.queue false).popped = [] ∧ 0 < (s.queue false).pushed.length := by
  obtain ⟨s, h, hpops, hread, hpopped⟩ : ∃ s : State meet (fun _ => Nat) (fun _ => Nat) fun _ => 1,
      Run (ofFun (State.step (meeting true))) (State.init (meeting true) fun _ _ => 0)
        ([.start, .start, .start] ++ List.replicate 19 (.kernel (some false)) ++
          List.replicate 19 (.kernel (some true)) ++ List.replicate 13 (.kernel none)) s ∧
        (s.pc none).pops = some false ∧ (s.pc none).unread = true ∧
        (s.queue false).popped = [] :=
    exists_run_of_any (by decide)
  cases hpc : s.pc none with
  | popping q next item =>
      rw [hpc] at hpops hread
      obtain ⟨q, hmem⟩ := q
      obtain rfl : q = false := Option.some.inj hpops
      cases item with
      | none =>
          have hlt := (allPort_supplied (k := none) rfl (meeting_popsOnce true) h).2 _ next hpc
          refine ⟨s, by rw [hpc]; rfl, hpopped, ?_⟩
          exact Nat.zero_lt_of_lt hlt
      | some v => cases hread
  | _ =>
      rw [hpc] at hpops
      cases hpops

/-! ## An input at its end -/

/-- The members of a kernel, outside of a `run()`. -/
def Phase.outside {M : Type} {input output : List ι} : Phase ι T M input output → Option M
  | .loop m | .close _ m | .stopped m => some m
  | .run _ => none

/-- The thread is in a `run()` of its kernel. -/
def Pc.inRun {M : Type} {input output : List ι} : Pc ι T M c input output → Bool
  | .running _ | .pushing _ _ | .popping _ _ _ | .failed _ => true
  | .unborn | .loop | .data _ _ | .size _ _ _ _ | .ports _ | .closing _ _ | .ended => false

theorem phase_outside {queue : ∀ q, Spsc (T q) (c q)} {finished : Bool} {M : Type} {m m' : M}
    {input output : List ι} {pc : Pc ι T M c input output}
    (h : (phase queue finished m pc).outside = some m') : m = m' ∧ pc.inRun = false := by
  have hrun (p : Prog ι T M input output) : (Phase.run p).outside ≠ some m' := by rintro ⟨⟩
  have hif (p : Phase ι T M input output) (hp : p.outside = some m)
      (h : (if finished then .stopped m else p).outside = some m') : m = m' := by
    split at h
    · exact Option.some.inj h
    · rw [hp] at h
      exact Option.some.inj h
  cases pc with
  | running p | failed p => exact absurd h (hrun p)
  | pushing q next =>
      have h : (Phase.push q next (queue q).producer.pending).outside = some m' := h
      cases hp : (queue q).producer.pending with
      | nil =>
          rw [hp] at h
          exact absurd h (hrun next)
      | cons item items =>
          rw [hp] at h
          exact absurd h (hrun (.push q item next))
  | popping q next item =>
      cases item with
      | none => exact absurd h (hrun (.pop q next))
      | some v => exact absurd h (hrun (next v))
  | closing last rest => exact ⟨hif _ rfl h, rfl⟩
  | unborn | loop | data _ _ | size _ _ _ _ | ports _ | ended => exact ⟨hif _ rfl h, rfl⟩

section

variable [DecidableEq κ] [DecidableEq ι] {K : Kernels N T M} {room : ι → ℕ∞} {a b : NetState N T M}
  {j k : κ}

/-- A kernel that needs an item of `q`, of which there is none and will be none, does nothing with its
other inputs. -/
theorem starved_step (hall : N.schedBehav k = .allPort) {q : ι} (hq : N.dst q = k) {m : M k}
    (hs : (a.proc k).outside = some m ∧ (a.chan q).Over) (h : K.net.Step room a j b) :
    ((b.proc k).outside = some m ∧ (b.chan q).Over) ∧
      ∀ q', N.dst q' = k → (b.chan q').got = (a.chan q').got := by
  obtain ⟨hm, hover⟩ := hs
  have hover' := h.chan_over hover
  by_cases hj : j = k
  · subst hj
    obtain ⟨n, e, hf, rfl⟩ := h
    have hn : (a.after j n e).proc j = n := Function.update_self ..
    have hclose (q₀ q' : ι) : (effect a.chan (some ⟨q₀, .close⟩) q').got = (a.chan q').got := by
      by_cases heq : q' = q₀
      · subst heq
        rw [effect_self]
        rfl
      · rw [effect_of_ne heq]
    rw [hn]
    cases hp : a.proc j with
    | loop m' =>
        rw [hp] at hf hm
        have hf : Fires room a.chan (if (N.input j).isEmpty then .skip (.run (K.run j m'))
          else .await (N.schedBehav j = .allPort) (N.input j) (.run (K.run j m'))
            (.close (N.output j).attach m')) n e := hf
        have hmem : q ∈ N.input j := (N.mem_input j q).mpr hq
        rw [if_neg (by simpa using List.ne_nil_of_mem hmem), hall] at hf
        cases hf with
        | data hr => exact absurd (hr q hmem) hover.2
        | ended _ _ => exact ⟨⟨hm, hover'⟩, fun _ _ => rfl⟩
    | close rest m' =>
        rw [hp] at hf hm
        cases rest with
        | nil => cases hf; exact ⟨⟨hm, hover'⟩, fun _ _ => rfl⟩
        | cons q₀ rest => cases hf; exact ⟨⟨hm, hover'⟩, fun q' _ => hclose q₀ q'⟩
    | stopped m' =>
        rw [hp] at hf
        cases hf
    | run p =>
        rw [hp] at hm
        cases hm
  · rw [h.proc_of_ne (Ne.symm hj)]
    refine ⟨⟨hm, hover'⟩, fun q' hq' => ?_⟩
    rcases h.chan q' with heq | ⟨op, hrole, heq⟩
    · rw [heq]
    · rw [heq]
      cases op with
      | recv => exact absurd (hrole.symm.trans hq') hj
      | send v | close => rfl

end

/-- **Once one of its inputs is at its end, a kernel scheduled by `all_port` is never called again.**
Its thread is in no `run()`, its members stay as they are, and what is in its other inputs, or comes into
them, stays there. -/
theorem allPort_starved [DecidableEq κ] [DecidableEq ι] {K : Kernels N T M} [∀ q, NeZero (c q)]
    {uninit : ∀ q, Fin (c q) → T q} {s t : State N T M c} {as bs : List (Act κ)} {k : κ}
    (hall : N.schedBehav k = .allPort) (h : Run (ofFun (State.step K)) (State.init K uninit) as s)
    (hlook : Looking (s.pc k)) {q : ι} (hq : N.dst q = k) (hclosed : (s.queue q).buffer.isValid = false)
    (hempty : (s.queue q).popped.length = (s.queue q).pushed.length)
    (h' : Run (ofFun (State.step K)) s bs t) :
    (t.pc k).inRun = false ∧ t.members k = s.members k ∧
      ∀ q', N.dst q' = k → (t.queue q').popped = (s.queue q').popped := by
  obtain ⟨hi, -, -⟩ := run_refines h (Inv.init uninit)
  obtain ⟨hi', ks, hks⟩ := run_refines h' hi
  have hstart : (s.abs.proc k).outside = some (s.members k) ∧ (s.abs.chan q).Over := by
    refine ⟨?_, ?_, hempty.ge.not_gt⟩
    · show (phase _ _ _ (s.pc k)).outside = _
      rw [hlook.phase]
      split <;> rfl
    · show (!(s.queue q).buffer.isValid) = true
      rw [hclosed]
      rfl
  obtain ⟨⟨hm, -⟩, hgot⟩ := hks.invariant
    (I := fun a => ((a.proc k).outside = some (s.members k) ∧ (a.chan q).Over) ∧
      ∀ q', N.dst q' = k → (a.chan q').got = (s.abs.chan q').got)
    (fun a j b ha hl => by
      obtain ⟨hstep, hsame⟩ := starved_step hall hq ha.1 hl
      exact ⟨hstep, fun q' hq' => (hsame q' hq').trans (ha.2 q' hq')⟩) ⟨hstart, fun _ _ => rfl⟩
  obtain ⟨hmembers, hrun⟩ := phase_outside hm
  refine ⟨hrun, hmembers, fun q' hq' => ?_⟩
  have hlen : (t.queue q').popped.length = (s.queue q').popped.length := hgot q' hq'
  have hpushed : (s.queue q').pushed <+: (t.queue q').pushed := (Net.run_le hks q').sent
  obtain ⟨more, hmore⟩ := hpushed
  rw [popped_eq_take hi' q', popped_eq_take hi q', hlen, ← hmore]
  refine List.take_append_of_le_length ?_
  exact (popped_eq_take hi q') ▸ List.length_take_le' _ _

/-- What the second source pushes stays where it is. -/
theorem allPort_starved_meeting :
    ∃ t : State meet (fun _ => Nat) (fun _ => Nat) fun _ => 1, (t.pc none).inRun = false ∧
      (t.queue true).popped = [] ∧ t.members none = 0 := by
  obtain ⟨s, h, hlook, hclosed, hempty, hpopped, hmembers, hlater⟩ :
      ∃ s : State meet (fun _ => Nat) (fun _ => Nat) fun _ => 1,
        Run (ofFun (State.step (meeting false))) (State.init (meeting false) fun _ _ => 0)
          ([.start, .start, .start] ++ List.replicate 5 (.kernel (some false))) s ∧
        (s.pc none matches .loop) = true ∧ (s.queue false).buffer.isValid = false ∧
        (s.queue false).popped.length = (s.queue false).pushed.length ∧
        (s.queue true).popped = [] ∧ s.members none = 0 ∧
        (exec (State.step (meeting false)) s (List.replicate 19 (.kernel (some true)) ++
          List.replicate 16 (.kernel none))).any
            (fun t => decide ((t.queue true).pushed = [(4, RaftSignal.none)])) = true :=
    exists_run_of_any (by decide)
  obtain ⟨t, h', -⟩ := exists_run_of_any hlater
  have hlook : Looking (s.pc none) := by
    cases hpc : s.pc none with
    | loop => exact ⟨by rintro ⟨⟩, rfl, rfl, rfl, fun _ _ _ => rfl⟩
    | _ =>
        rw [hpc] at hlook
        cases hlook
  obtain ⟨hrun, hm, hsame⟩ := allPort_starved (k := none) (q := false) rfl h hlook rfl hclosed hempty h'
  exact ⟨t, hrun, (hsame true rfl).trans hpopped, hm.trans hmembers⟩

end RaftLib.Threads.SimpleSchedule
