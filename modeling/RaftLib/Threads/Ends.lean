/-
# `RaftLib.Threads.Ends` -- when a graph can come to its end, kernel by kernel

`Threads.Returns` asks what the kernels do one after the other. Here this is taken apart: it is enough
that each kernel, called with all of its input there and closed, comes to its end and pops everything
(`Kernels.Ends`). Of a source, a stage or a sink that is easily said. So a graph of them that has no
cycle can come to its end from wherever its threads have got (`returns_of_ends`).
-/
import RaftLib.Threads.Composition
import RaftLib.Threads.Returns

namespace RaftLib.Threads.SimpleSchedule

open RaftLib.Queue
open RaftLib.Logic
open RaftLib.Logic.Kahn
open RaftLib.Logic.Steps
open RaftLib.Threads.PoolSchedule (Net SchedBehav)

variable {κ ι : Type} {T : ι → Type} {M : κ → Type} {c : ι → Nat} {N : Net κ ι}

section

variable [DecidableEq ι] {K : Kernels N T M} {k : κ}

/-! ## What a kernel leaves alone -/

/-- Of the channels, a kernel changes what it may: it receives from its inputs, and sends on its outputs
or closes them. -/
structure Keeps (N : Net κ ι) (k : κ) (C C' : Chans T) : Prop where
  got : ∀ q, N.dst q ≠ k → (C' q).got = (C q).got
  sent : ∀ q, N.src q ≠ k → (C' q).sent = (C q).sent ∧ (C' q).closed = (C q).closed

omit [DecidableEq ι] in
theorem Keeps.refl (C : Chans T) : Keeps N k C C := ⟨fun _ _ => rfl, fun _ _ => ⟨rfl, rfl⟩⟩

omit [DecidableEq ι] in
theorem Keeps.trans {C C₁ C₂ : Chans T} (h : Keeps N k C C₁) (h' : Keeps N k C₁ C₂) :
    Keeps N k C C₂ where
  got q hq := (h'.got q hq).trans (h.got q hq)
  sent q hq := ⟨(h'.sent q hq).1.trans (h.sent q hq).1, (h'.sent q hq).2.trans (h.sent q hq).2⟩

theorem keeps_recv {C : Chans T} {q : ι} (hq : N.dst q = k) :
    Keeps N k C (effect C (some ⟨q, .recv⟩)) where
  got q' hq' := by rw [effect_of_ne (by rintro rfl; exact hq' hq)]
  sent q' _ := by
    by_cases heq : q' = q
    · subst heq
      rw [effect_self]
      exact ⟨rfl, rfl⟩
    · rw [effect_of_ne heq]
      exact ⟨rfl, rfl⟩

theorem keeps_output {C : Chans T} {q : ι} (hq : N.src q = k) {op : Kahn.Op (T q × RaftSignal)}
    (hop : op ≠ .recv) : Keeps N k C (effect C (some ⟨q, op⟩)) where
  got q' _ := effect_got hop
  sent q' hq' := by
    rw [effect_of_ne (by rintro rfl; exact hq' hq)]
    exact ⟨rfl, rfl⟩

theorem keeps_closeAll {qs : List ι} (hqs : ∀ q ∈ qs, N.src q = k) (C : Chans T) :
    Keeps N k C (closeAll qs C) := by
  induction qs generalizing C with
  | nil => exact .refl _
  | cons q qs ih =>
      have hfirst : Keeps N k C (effect C (some ⟨q, .close⟩)) :=
        keeps_output (hqs q List.mem_cons_self) (by rintro ⟨⟩)
      exact hfirst.trans (ih (fun q' hq' => hqs q' (List.mem_cons_of_mem q hq')) _)

theorem keeps_exec {p : Prog ι T (M k) (N.input k) (N.output k)} {C C' : Chans T} {status : Kstatus}
    {m : M k} (h : p.exec C = some (status, m, C')) : Keeps N k C C' := by
  induction p generalizing C with
  | pop q next ih =>
      rw [Prog.exec] at h
      split at h
      · exact (keeps_recv ((N.mem_input k q).mp q.2)).trans (ih _ h)
      · cases h
  | push q item next ih =>
      exact (keeps_output ((N.mem_output k q).mp q.2) (by rintro ⟨⟩)).trans (ih h)
  | returns status' m' =>
      cases h
      exact .refl _

theorem keeps_alone {fuel : Nat} {m m' : M k} {C C' : Chans T} (h : K.alone k fuel m C = some (m', C')) :
    Keeps N k C C' := by
  have hclose (C : Chans T) : Keeps N k C (closeAll (N.output k) C) :=
    keeps_closeAll (fun q hq => (N.mem_output k q).mp hq) C
  induction fuel generalizing m C with
  | zero => cases h
  | succ fuel ih =>
      cases alone_goes h with
      | proceeds _ hexec hrest => exact (keeps_exec hexec).trans (ih hrest)
      | stops _ hexec hr =>
          cases hr
          exact (keeps_exec hexec).trans (hclose _)
      | ends _ hr =>
          cases hr
          exact hclose C

theorem closeAll_closed {qs : List ι} {C : Chans T} {q : ι} (hq : q ∈ qs ∨ (C q).closed = true) :
    (closeAll qs C q).closed = true := by
  unfold closeAll
  induction qs generalizing C with
  | nil => exact hq.resolve_left List.not_mem_nil
  | cons q' qs ih =>
      rw [List.foldl_cons]
      apply ih
      by_cases heq : q = q'
      · subst heq
        rw [effect_self]
        exact .inr rfl
      · rw [effect_of_ne heq]
        exact hq.imp_left fun hmem => (List.mem_cons.mp hmem).resolve_left heq

/-- A kernel at its end has closed its outputs. -/
theorem alone_closed {fuel : Nat} {m m' : M k} {C C' : Chans T}
    (h : K.alone k fuel m C = some (m', C')) {q : ι} (hq : N.src q = k) : (C' q).closed = true := by
  have hmem : q ∈ N.output k := (N.mem_output k q).mpr hq
  induction fuel generalizing m C with
  | zero => cases h
  | succ fuel ih =>
      cases alone_goes h with
      | proceeds _ _ hrest => exact ih hrest
      | stops _ _ hr | ends _ hr =>
          cases hr
          exact closeAll_closed (.inl hmem)

/-! ## Fuel -/

theorem alone_mono {fuel fuel' : Nat} (hle : fuel ≤ fuel') {m : M k} {C : Chans T}
    {r : M k × Chans T} (h : K.alone k fuel m C = some r) : K.alone k fuel' m C = some r := by
  induction fuel generalizing fuel' m C with
  | zero => cases h
  | succ fuel ih =>
      obtain ⟨fuel', rfl⟩ : ∃ n, fuel' = n + 1 := ⟨fuel' - 1, by omega⟩
      rw [Kernels.alone] at h ⊢
      split at h
      · next hready =>
          rw [if_pos hready]
          split at h
          · exact ih (Nat.le_of_succ_le_succ hle) h
          · exact h
          · cases h
      · next hready =>
          rw [if_neg hready]
          exact h

variable [DecidableEq κ]

theorem sequential_mono {fuel fuel' : Nat} (hle : fuel ≤ fuel') {order : List κ} {m : ∀ k, M k}
    {C : Chans T} {r : (∀ k, M k) × Chans T} (h : K.sequential fuel order m C = some r) :
    K.sequential fuel' order m C = some r := by
  induction order generalizing m C with
  | nil => exact h
  | cons k order ih =>
      obtain ⟨r₁, halone, hrest⟩ := Option.bind_eq_some_iff.mp h
      exact Option.bind_eq_some_iff.mpr ⟨r₁, alone_mono hle halone, ih hrest⟩

/-! ## Kernel by kernel -/

/-- Called with all of its input there and closed, the kernel comes to its end, and pops everything. -/
def Kernels.Ends (K : Kernels N T M) (k : κ) : Prop :=
  ∀ C : Chans T, (∀ q, N.dst q = k → (C q).closed = true ∧ (C q).got = 0) →
    ∃ fuel m' C', K.alone k fuel (K.init k) C = some (m', C') ∧
      ∀ q, N.dst q = k → (C' q).got = (C' q).sent.length

/-- The kernels one after the other come to their end, each having popped everything, if each of them
does by itself. -/
theorem sequential_of_ends (hnoLoop : ∀ q, N.src q ≠ N.dst q) {order : List κ} (hnodup : order.Nodup)
    (hforward : order.Pairwise fun j k => ∀ q, N.src q = k → N.dst q ≠ j)
    (hends : ∀ k ∈ order, K.Ends k) {m : ∀ k, M k} (hm : ∀ k ∈ order, m k = K.init k) {C : Chans T}
    (hgot : ∀ q, N.dst q ∈ order → (C q).got = 0)
    (hclosed : ∀ q, N.dst q ∈ order → N.src q ∉ order → (C q).closed = true) :
    ∃ fuel m' C', K.sequential fuel order m C = some (m', C') ∧
      ∀ q, N.dst q ∈ order → (C' q).got = (C' q).sent.length := by
  have hkeep {order : List κ} {fuel : Nat} {m m' : ∀ k, M k} {C C' : Chans T}
      (h : K.sequential fuel order m C = some (m', C')) {q : ι} (hdst : N.dst q ∉ order)
      (hsrc : N.src q ∉ order) : (C' q).got = (C q).got ∧ (C' q).sent = (C q).sent := by
    induction order generalizing m C with
    | nil =>
        cases h
        exact ⟨rfl, rfl⟩
    | cons k order ih =>
        obtain ⟨⟨m₁, C₁⟩, halone, hrest⟩ := Option.bind_eq_some_iff.mp h
        rw [List.mem_cons, not_or] at hdst hsrc
        have hfirst := keeps_alone halone
        obtain ⟨hg, hs⟩ := ih hrest hdst.2 hsrc.2
        exact ⟨hg.trans (hfirst.got q hdst.1), hs.trans (hfirst.sent q hsrc.1).1⟩
  induction order generalizing m C with
  | nil => exact ⟨0, m, C, rfl, fun q hq => absurd hq List.not_mem_nil⟩
  | cons k order ih =>
      obtain ⟨hk, hnodup⟩ := List.nodup_cons.mp hnodup
      obtain ⟨hforward, hforward'⟩ := List.pairwise_cons.mp hforward
      have hinput (q : ι) (hq : N.dst q = k) : N.src q ∉ k :: order := by
        rw [List.mem_cons, not_or]
        exact ⟨fun hsrc => hnoLoop q (hsrc.trans hq.symm),
          fun hsrc => hforward _ hsrc q rfl hq⟩
      have hne {j : κ} (hj : j ∈ order) : j ≠ k := by
        rintro rfl
        exact hk hj
      obtain ⟨fuel, m₁, C₁, halone, hpopped⟩ := hends k List.mem_cons_self C fun q hq =>
        ⟨hclosed q (hq ▸ List.mem_cons_self) (hinput q hq), hgot q (hq ▸ List.mem_cons_self)⟩
      have hfirst := keeps_alone halone
      obtain ⟨fuel', m', C', hrest, hpopped'⟩ := ih hnodup hforward'
        (fun j hj => hends j (List.mem_cons_of_mem k hj)) (m := Function.update m k m₁) (C := C₁)
        (fun j hj => by
          rw [Function.update_of_ne (hne hj)]
          exact hm j (List.mem_cons_of_mem k hj))
        (fun q hq => by
          rw [hfirst.got q (hne hq)]
          exact hgot q (List.mem_cons_of_mem k hq))
        (fun q hq hsrc => by
          by_cases hqk : N.src q = k
          · exact alone_closed halone hqk
          · rw [(hfirst.sent q hqk).2]
            refine hclosed q (List.mem_cons_of_mem k hq) ?_
            rw [List.mem_cons, not_or]
            exact ⟨hqk, hsrc⟩)
      refine ⟨max fuel fuel', m', C', ?_, fun q hq => ?_⟩
      · refine Option.bind_eq_some_iff.mpr ⟨(m₁, C₁), ?_, sequential_mono (le_max_right _ _) hrest⟩
        rw [hm k List.mem_cons_self]
        exact alone_mono (le_max_left _ _) halone
      · rcases List.mem_cons.mp hq with hqk | hq
        · have hsrc := hinput q hqk
          rw [List.mem_cons, not_or] at hsrc
          obtain ⟨hg, hs⟩ := hkeep hrest (by rw [hqk]; exact hk) hsrc.2
          rw [hg, hs]
          exact hpopped q hqk
        · exact hpopped' q hq

/-! ### Sources, stages and sinks -/

variable {p q : ι}

omit [DecidableEq κ] in
/-- A source ends if it stops some day. -/
theorem Source.ends (g : Source K k q) {vs : List (T q × RaftSignal)} {m' : M k}
    (hstop : Gives g.give g.keep g.status (K.init k) vs m') : K.Ends k := by
  have hempty : (N.input k).isEmpty := g.input_isEmpty
  have halone (C : Chans T) : ∃ fuel r, K.alone k fuel (K.init k) C = some r := by
    generalize K.init k = m at hstop
    induction hstop generalizing C with
    | @stop m hstatus =>
        refine ⟨1, (g.keep m, closeAll (N.output k) (effect C (some ⟨q, .send (g.give m)⟩))), ?_⟩
        rw [Kernels.alone, if_pos (.inl hempty), g.exec, hstatus]
    | @proceed m m' vs hstatus _ ih =>
        obtain ⟨fuel, r, hfuel⟩ := ih (effect C (some ⟨q, .send (g.give m)⟩))
        refine ⟨fuel + 1, r, ?_⟩
        rw [Kernels.alone, if_pos (.inl hempty), g.exec, hstatus]
        exact hfuel
  intro C _
  obtain ⟨fuel, ⟨m₁, C₁⟩, h⟩ := halone C
  exact ⟨fuel, m₁, C₁, h, fun q' hq' => absurd hq' (g.only q')⟩

omit [DecidableEq κ] in
/-- With one input, a kernel whose calls come back and take something comes to its end. -/
theorem alone_of_calls (hdst : N.dst p = k) (honly : ∀ p', N.dst p' = k → p' = p)
    (hnoLoop : N.src p ≠ k)
    (hcall : ∀ m C, (C p).HasData → ∃ m₁ C₁, (K.run k m).exec C = some (.proceed, m₁, C₁) ∧
      (rest (C₁ p)).length < (rest (C p)).length)
    {C : Chans T} (hclosed : (C p).closed = true) (m : M k) :
    ∃ fuel r, K.alone k fuel m C = some r := by
  induction hn : (rest (C p)).length using Nat.strong_induction_on generalizing C m with
  | _ n ih =>
      by_cases hd : (C p).HasData
      · obtain ⟨m₁, C₁, hexec, hless⟩ := hcall m C hd
        have hclosed₁ : (C₁ p).closed = true := ((keeps_exec hexec).sent p hnoLoop).2.trans hclosed
        obtain ⟨fuel, r, hrest⟩ := ih _ (hn ▸ hless) hclosed₁ m₁ rfl
        refine ⟨fuel + 1, r, ?_⟩
        rw [Kernels.alone, if_pos (.inr ((ready_iff_of_only hdst honly).mpr hd)), hexec]
        exact hrest
      · have hempty : ¬(N.input k).isEmpty := by
          rw [List.isEmpty_iff]
          exact List.ne_nil_of_mem ((N.mem_input k p).mpr hdst)
        have hno : ¬Ready (N.schedBehav k = .allPort) (N.input k) C :=
          fun hr => hd ((ready_iff_of_only hdst honly).mp hr)
        refine ⟨1, (m, closeAll (N.output k) C), ?_⟩
        rw [Kernels.alone, if_neg (not_or.mpr ⟨hempty, hno⟩), if_pos fun p' hp' => ?_]
        rw [honly p' ((N.mem_input k p').mp hp')]
        exact hclosed

omit [DecidableEq κ] in
theorem Sink.ends (g : Sink K k p) : K.Ends k := by
  intro C hC
  obtain ⟨hclosed, hgot⟩ := hC p g.dst
  obtain ⟨fuel, ⟨m', C'⟩, halone⟩ := alone_of_calls g.dst g.only g.noLoop (fun m C hd => by
    obtain ⟨v, hv⟩ : ∃ v, (C p).sent[(C p).got]? = some v := ⟨_, List.getElem?_eq_getElem hd⟩
    refine ⟨g.keep m v, effect C (some ⟨p, .recv⟩), ?_, ?_⟩
    · rw [g.run, Prog.exec, hv]
      rfl
    · rw [rest_of_next hv, effect_self]
      exact Nat.lt_succ_self _) hclosed (K.init k)
  refine ⟨fuel, m', C', halone, fun q hq => ?_⟩
  obtain rfl := g.only q hq
  rw [(g.alone halone).2, ((keeps_alone halone).sent q g.noLoop).1, rest, hgot, Nat.zero_add]
  rfl

omit [DecidableEq κ] [DecidableEq ι] in
theorem Stage.stream_length (g : Stage K k p q) (hgo : ∀ m v, g.status m v = .proceed) (m : M k)
    (vs : List (T p × RaftSignal)) : (g.stream m vs).2.length = vs.length := by
  induction vs generalizing m with
  | nil => rfl
  | cons v vs ih =>
      rw [Stage.stream, hgo]
      exact congrArg Nat.succ (ih (g.keep m v))

omit [DecidableEq κ] in
/-- A stage ends, if it does not stop before its input does. -/
theorem Stage.ends (g : Stage K k p q) (hgo : ∀ m v, g.status m v = .proceed) : K.Ends k := by
  intro C hC
  obtain ⟨hclosed, hgot⟩ := hC p g.dst
  obtain ⟨fuel, ⟨m', C'⟩, halone⟩ := alone_of_calls g.dst g.only g.noLoop (fun m C hd => by
    obtain ⟨v, hv⟩ : ∃ v, (C p).sent[(C p).got]? = some v := ⟨_, List.getElem?_eq_getElem hd⟩
    refine ⟨g.keep m v, effect (effect C (some ⟨p, .recv⟩)) (some ⟨q, .send (g.give m v)⟩), ?_, ?_⟩
    · rw [g.run, Prog.exec, hv]
      show some (g.status m v, _, _) = _
      rw [hgo]
    · rw [rest_of_next hv, effect_of_ne g.ne, effect_self]
      exact Nat.lt_succ_self _) hclosed (K.init k)
  refine ⟨fuel, m', C', halone, fun p' hp' => ?_⟩
  obtain rfl := g.only p' hp'
  rw [(g.alone halone).2.2, g.stream_length hgo, ((keeps_alone halone).sent p' g.noLoop).1, rest, hgot,
    Nat.zero_add]
  rfl

end

/-! ## The whole graph -/

/-- **A graph without cycles can come to its end if each of its kernels does.** From wherever its threads
have got, with as little as one place in every queue, `start` can still return. -/
theorem returns_of_ends [DecidableEq κ] [DecidableEq ι] {K : Kernels N T M} [∀ q, NeZero (c q)]
    {uninit : ∀ q, Fin (c q) → T q} {s : State N T M c} {as : List (Act κ)} (F : Forest N.src N.dst)
    (hkernels : ∀ k, k ∈ N.kernels) (hends : ∀ k, K.Ends k)
    (h : Run (ofFun (State.step K)) (State.init K uninit) as s) :
    Leads (ofFun (State.step K)) s fun t => t.start = .returned := by
  obtain ⟨order, hnodup, hmem, hforward⟩ := F.exists_order N.kernels.toFinset
  have hall (k : κ) : k ∈ order := (hmem k).mpr (List.mem_toFinset.mpr (hkernels k))
  obtain ⟨fuel, m, C, hseq, hpopped⟩ := sequential_of_ends F.src_ne_dst hnodup hforward
    (fun k _ => hends k) (fun k _ => rfl) (C := fun _ => {}) (fun _ _ => rfl)
    fun q _ hq => absurd (hall (N.src q)) hq
  exact returns_of_forest F hkernels hnodup hall hseq (fun q => hpopped q (hall (N.dst q))) h

/-- The first kernel is the root. -/
def lineForest : Forest line.src line.dst where
  up
    | .front => none
    | .middle => some .toMiddle
    | .back => some .toBack
  depth
    | .front => 0
    | .middle => 1
    | .back => 2
  isUp q := .inr (by cases q <;> decide)

def pushesSeven : Source doubler .front .toMiddle where
  give _ := (7, RaftSignal.none)
  keep m := m
  status _ := .stop
  src := rfl
  only := by rintro (_ | _) ⟨⟩
  run _ := rfl

def addsUp : Sink doubler .back .toBack where
  keep m v := m + v.1
  dst := rfl
  only := by
    rintro (_ | _) ⟨⟩
    rfl
  noLoop := by rintro ⟨⟩
  run _ := rfl

/-- The first kernel is in the middle of its push, and the others have not been spawned. -/
theorem returns_of_ends_doubler : ∃ s : State line (fun _ => Nat) (fun _ => Nat) fun _ => 1,
    (s.pc .front).pushes = some .toMiddle ∧
      Leads (ofFun (State.step doubler)) s fun t => t.start = .returned := by
  obtain ⟨s, h, hs⟩ : ∃ s : State line (fun _ => Nat) (fun _ => Nat) fun _ => 1,
      Run (ofFun (State.step doubler)) (State.init doubler fun _ _ => 0)
        (.start :: List.replicate 8 (.kernel .front)) s ∧ (s.pc .front).pushes = some .toMiddle :=
    exists_run_of_any (by decide)
  have hall (k : Station) : k ∈ line.kernels := by cases k <;> decide
  have hends (k : Station) : doubler.Ends k := by
    cases k with
    | front => exact pushesSeven.ends (.stop rfl)
    | middle => exact doubles.ends fun _ _ => rfl
    | back => exact addsUp.ends
  exact ⟨s, hs, returns_of_ends lineForest hall hends h⟩

end RaftLib.Threads.SimpleSchedule
