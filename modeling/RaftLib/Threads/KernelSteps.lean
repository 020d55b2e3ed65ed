/-
# `RaftLib.Threads.KernelSteps` -- every step of `simple_schedule` is one of the network, or none

The case analysis behind `Threads.KernelNet`: for each place of a thread, what its next step does to
the invariant and to what the kernel is about. A step of the process is taken where `run()` returns, where a push
stores the write index, where a pop has read both halves of its slot, where a port is invalidated, and
where the last look of `kernelHasInputData` has decided. All other steps are none (`Good`).
-/
import RaftLib.Threads.KernelNet

namespace RaftLib.Threads

open RaftLib.Queue
open RaftLib.Logic
open RaftLib.Logic.Kahn
open RaftLib.Logic.Steps

namespace SimpleSchedule

open PoolSchedule (Net SchedBehav)

variable {κ ι : Type} {T : ι → Type} {M : κ → Type} {c : ι → Nat} {N : Net κ ι}

/-! ## One step -/

section

variable [DecidableEq κ] [DecidableEq ι] [∀ q, NeZero (c q)] {K : Kernels N T M}
  {s t : State N T M c} {k : κ}

/-- How much room there is in the queues. -/
def room (c : ι → Nat) (q : ι) : ℕ∞ := (c q : ℕ∞)

/-- A step of the thread of `k` keeps the invariant, and is one step of the process or none. -/
structure Good (K : Kernels N T M) (s t : State N T M c) (k : κ) : Prop where
  inv : Inv t
  frame : ∀ j, j ≠ k → Frame s t j
  start : t.start = s.start
  refines : t.abs = s.abs ∨ K.net.Step (room c) s.abs k t.abs

omit [DecidableEq κ] [DecidableEq ι] [∀ q, NeZero (c q)] in
/-- The others see only the queues of a thread. -/
theorem Frame.of_queue (hqueue : t.queue = s.queue) {j : κ} (hpc : t.pc j = s.pc j)
    (hfin : t.finished j = s.finished j) (hmem : t.members j = s.members j) : Frame s t j :=
  ⟨hpc, hfin, hmem, fun q _ => by rw [hqueue]; exact ⟨rfl, rfl⟩, fun q _ => by
    rw [hqueue]
    exact ⟨rfl, rfl, le_rfl, fun _ => rfl⟩⟩

/-- What has to be shown of a step of the thread of `k`. -/
theorem Good.of_frame (hi : Inv s) (hframe : ∀ j, j ≠ k → Frame s t j) (hstart : t.start = s.start)
    (hborn : s.pc k ≠ .unborn) (hqueue : ∀ q, (t.queue q).Sound) (hown : Own t k)
    (hsim : (t.abs.proc k = s.abs.proc k ∧ t.abs.chan = s.abs.chan) ∨
      ∃ e, Fires (room c) s.abs.chan (K.net.prog k (s.abs.proc k)) (t.abs.proc k) e ∧
        t.abs.chan = effect s.abs.chan e) : Good K s t k where
  frame := hframe
  start := hstart
  inv := by
    refine ⟨hqueue, fun j => ?_, fun rest hrest => ?_⟩
    · by_cases hj : j = k
      · subst hj
        exact hown
      · exact (hframe j hj).own (hi.own j)
    · rw [hstart] at hrest
      obtain ⟨hnodup, hall⟩ := hi.unborn rest hrest
      refine ⟨hnodup, fun j hj => ?_⟩
      have hne : j ≠ k := by
        rintro rfl
        exact hborn (hall j hj)
      rw [(hframe j hne).pc]
      exact hall j hj
  refines := by
    have hothers (j : κ) (hj : j ≠ k) : t.abs.proc j = s.abs.proc j := (hframe j hj).phase_eq
    rcases hsim with ⟨hproc, hchan⟩ | ⟨e, hfires, hchan⟩
    · left
      refine Kahn.State.ext (funext fun j => ?_) hchan
      by_cases hj : j = k
      · subst hj
        exact hproc
      · exact hothers j hj
    · right
      refine ⟨_, e, hfires, ?_⟩
      apply Kahn.State.ext
      · funext j
        by_cases hj : j = k
        · subst hj
          show t.abs.proc j = Function.update s.abs.proc j (t.abs.proc j) j
          rw [Function.update_self]
        · show t.abs.proc j = Function.update s.abs.proc k (t.abs.proc k) j
          rw [Function.update_of_ne hj]
          exact hothers j hj
      · exact hchan

/-! ### Steps that leave the queues alone -/

omit [DecidableEq κ] [DecidableEq ι] [∀ q, NeZero (c q)] in
/-- A thread that has no operation under way goes on at another place. -/
theorem Own.move (ho : Own s k) (hqueue : t.queue = s.queue) (hfin : t.finished k = s.finished k)
    (hpush : (s.pc k).pushes = none) (hpop : (s.pc k).pops = none)
    (hclosing : (s.pc k).isClosing = false)
    (hknows : Knows s.queue (N.schedBehav k) (t.pc k))
    (hearly : (t.pc k).early = true → s.finished k = false) : Own t k where
  producer q hq _ := by
    rw [hqueue]
    exact ho.producer q hq (by simp [hpush])
  consumer q hq _ := by
    rw [hqueue]
    exact ho.consumer q hq (by simp [hpop])
  past q hq hv := by
    rw [hqueue] at hv
    rw [hfin]
    rcases ho.past q hq hv with hf | hcl
    · exact .inl hf
    · rw [hclosing] at hcl
      cases hcl
  closed hf q hq := by
    rw [hqueue]
    rw [hfin] at hf
    exact ho.closed hf q hq
  knows := by rwa [hqueue]
  early he := by
    rw [hfin]
    exact hearly he

/-- **A step that leaves the queues alone**: the kernel goes on as its process does, or not at all. -/
theorem Good.goto (hi : Inv s) {pc : Pc ι T (M k) c (N.input k) (N.output k)}
    (hborn : s.pc k ≠ .unborn) (hpush : (s.pc k).pushes = none) (hpop : (s.pc k).pops = none)
    (hclosing : (s.pc k).isClosing = false) (hknows : Knows s.queue (N.schedBehav k) pc)
    (hearly : pc.early = true → s.finished k = false)
    (hsim : phase s.queue (s.finished k) (s.members k) pc =
        phase s.queue (s.finished k) (s.members k) (s.pc k) ∨
      Fires (room c) s.abs.chan
        (K.net.prog k (phase s.queue (s.finished k) (s.members k) (s.pc k)))
        (phase s.queue (s.finished k) (s.members k) pc) none) : Good K s (s.goto k pc) k := by
  have hpc : (s.goto k pc).pc k = pc := Function.update_self ..
  have hproc : (s.goto k pc).abs.proc k = phase s.queue (s.finished k) (s.members k) pc := by
    show phase s.queue (s.finished k) (s.members k) ((s.goto k pc).pc k) = _
    rw [hpc]
  refine .of_frame hi (fun j hj => ?_) rfl hborn hi.queue ?_ ?_
  · have hpcj : (s.goto k pc).pc j = s.pc j := Function.update_of_ne hj ..
    exact Frame.of_queue (s := s) (t := s.goto k pc) (j := j) rfl hpcj rfl rfl
  · refine (hi.own k).move rfl rfl hpush hpop hclosing ?_ ?_
    · rwa [hpc]
    · rwa [hpc]
  · rw [hproc]
    exact hsim.imp (⟨·, rfl⟩) (⟨none, ·, rfl⟩)

/-! ### The looks of `kernelRun` -/

/-- The places between two calls of `run()`. -/
structure Looking {M : Type} {input output : List ι} (pc : Pc ι T M c input output) : Prop where
  born : pc ≠ .unborn
  pushes : pc.pushes = none
  pops : pc.pops = none
  isClosing : pc.isClosing = false
  phase : ∀ queue finished m, phase queue finished m pc = if finished then .stopped m else .loop m

/-- A look at something, and no conclusion yet. -/
theorem Good.look (hi : Inv s) {pc : Pc ι T (M k) c (N.input k) (N.output k)}
    (hs : Looking (s.pc k)) (hpc : Looking pc) (hknows : Knows s.queue (N.schedBehav k) pc)
    (hearly : pc.early = true → s.finished k = false) : Good K s (s.goto k pc) k :=
  .goto hi hs.born hs.pushes hs.pops hs.isClosing hknows hearly
    (.inl (by rw [hs.phase, hpc.phase]))

omit [DecidableEq κ] [DecidableEq ι] [∀ q, NeZero (c q)] in
/-- A kernel without input ports runs; another one runs when there is data. -/
theorem fires_run {m : M k} (h : (N.input k).isEmpty = true ∨
      Ready (N.schedBehav k = .allPort) (N.input k) s.abs.chan) :
    Fires (room c) s.abs.chan (K.net.prog k (.loop m)) (.run (K.run k m)) none := by
  show Fires _ _ (if (N.input k).isEmpty then _ else _) _ _
  split
  · exact .skip
  · next hne => exact .data (h.resolve_left hne)

omit [DecidableEq κ] [DecidableEq ι] [∀ q, NeZero (c q)] in
/-- A kernel is done when its ports are invalid and it has no data to run with. -/
theorem fires_over {m : M k} (hne : (N.input k).isEmpty = false)
    (hno : ¬Ready (N.schedBehav k = .allPort) (N.input k) s.abs.chan)
    (hclosed : Closed s.queue (N.input k)) :
    Fires (room c) s.abs.chan (K.net.prog k (.loop m)) (.close (N.output k).attach m) none := by
  show Fires _ _ (if (N.input k).isEmpty then _ else _) _ _
  rw [hne]
  refine .ended hno fun q hq => ?_
  show (!(s.queue q).buffer.isValid) = true
  rw [hclosed ⟨q, hq⟩]
  rfl

/-- **`kernelHasInputData` has returned.** -/
theorem Good.answer (hi : Inv s) (hs : Looking (s.pc k)) {again b : Bool}
    (hfirst : again = false → s.finished k = false)
    (hyes : b = true → again = false → (N.input k).isEmpty = true ∨
      Ready (N.schedBehav k = .allPort) (N.input k) s.abs.chan)
    (hno : b = false → again = true → (N.input k).isEmpty = false ∧
      ¬Ready (N.schedBehav k = .allPort) (N.input k) s.abs.chan ∧ Closed s.queue (N.input k)) :
    Good K s (s.goto k (s.answer K k again b)) k := by
  cases b with
  | true =>
      cases again with
      | true => exact .look hi hs ⟨by rintro ⟨⟩, rfl, rfl, rfl, fun _ _ _ => rfl⟩ trivial (by rintro ⟨⟩)
      | false =>
          have hfin := hfirst rfl
          refine .goto hi hs.born hs.pushes hs.pops hs.isClosing trivial (fun _ => hfin) (.inr ?_)
          rw [hs.phase, hfin]
          exact fires_run (hyes rfl rfl)
  | false =>
      cases again with
      | true =>
          obtain ⟨hne, hnr, hclosed⟩ := hno rfl rfl
          refine .goto hi hs.born hs.pushes hs.pops hs.isClosing
            (fun q => .inl (List.mem_attach _ q)) (by rintro ⟨⟩) ?_
          rw [hs.phase]
          by_cases hf : s.finished k = true
          · left
            simp only [State.answer, phase, hf, if_true]
          · right
            simp only [State.answer, phase, hf, if_true]
            exact fires_over hne hnr hclosed
      | false =>
          exact .look hi hs ⟨by rintro ⟨⟩, rfl, rfl, rfl, fun _ _ _ => rfl⟩
            (fun q => .inl (List.mem_attach _ q)) (by rintro ⟨⟩)

/-- **`kernelHasInputData` is called.** -/
theorem Good.hasInputData (hi : Inv s) (hs : Looking (s.pc k)) {again : Bool}
    (hfirst : again = false → s.finished k = false)
    (hclosed : again = true → Closed s.queue (N.input k)) :
    Good K s (s.goto k (s.hasInputData K k again)) k := by
  unfold State.hasInputData
  split
  · next hempty => exact .answer hi hs hfirst (fun _ _ => .inl hempty) (by rintro ⟨⟩)
  · next hne =>
      refine .look hi hs ⟨by rintro ⟨⟩, rfl, rfl, rfl, fun _ _ _ => rfl⟩ ⟨by simpa using hne, hclosed, ?_⟩ ?_
      · unfold Seen
        split
        · exact fun _ q => .inl (List.mem_attach _ q)
        · exact fun q => .inl (List.mem_attach _ q)
      · intro he
        cases again with
        | true => cases he
        | false => exact hfirst rfl

/-! ### The size of a port -/

omit [DecidableEq κ] [DecidableEq ι] in
/-- Nobody pushes on a closed queue. -/
theorem Inv.idle_of_closed (hi : Inv s) {q : ι} (hv : (s.queue q).buffer.isValid = false) :
    (s.queue q).producer = .idle := by
  have ho := hi.own (N.src q)
  refine ho.producer q rfl fun hpush => ?_
  rcases ho.past q rfl hv with hf | hcl
  · have hearly := ho.early
    cases hpc : s.pc (N.src q) with
    | pushing q' next =>
        rw [hpc] at hearly
        rw [hearly rfl] at hf
        cases hf
    | _ =>
        rw [hpc] at hpush
        cases hpush
  · cases hpc : s.pc (N.src q) with
    | closing last rest =>
        rw [hpc] at hpush
        cases hpush
    | _ =>
        rw [hpc] at hcl
        cases hcl

omit [DecidableEq κ] [DecidableEq ι] in
/-- A size above zero is there, for the kernel that alone takes it away. -/
theorem Inv.size_sees (hi : Inv s) {q : ι} (hcons : (s.queue q).consumer = .idle) {pc : SizePc (c q)}
    (h : pc.ConsumerSees (s.queue q).pushed.length (s.queue q).popped.length) :
    match pc.step (s.queue q).buffer with
    | .inl pc' => pc'.ConsumerSees (s.queue q).pushed.length (s.queue q).popped.length
    | .inr n => 0 < n → (s.queue q).chan.HasData := by
  obtain ⟨R, hR⟩ := (hi.queue q).inv
  have hlen := hR.popped_length
  have hread := hR.read
  rw [hcons] at hlen hread
  have hsize : (s.queue q).popped.length = R := hlen
  rw [hsize] at h ⊢
  have hstep := SizePc.consumer_step hR.write hread hR.le h
  split
  · next pc' hpc =>
      rw [hpc] at hstep
      exact hstep
  · next n hpc =>
      rw [hpc] at hstep
      intro hn
      show (s.queue q).popped.length < (s.queue q).pushed.length
      rw [hsize]
      exact hstep hn

omit [DecidableEq κ] [DecidableEq ι] in
/-- The size of a closed queue is exact. -/
theorem Inv.size_exact (hi : Inv s) {q : ι} (hcons : (s.queue q).consumer = .idle)
    (hv : (s.queue q).buffer.isValid = false) {pc : SizePc (c q)}
    (h : pc.Exact (s.queue q).buffer) :
    match pc.step (s.queue q).buffer with
    | .inl pc' => pc'.Exact (s.queue q).buffer
    | .inr n => n = 0 → ¬(s.queue q).chan.HasData := by
  obtain ⟨R, hR⟩ := (hi.queue q).inv
  have hstep := hR.size_exact (by rw [hi.idle_of_closed hv]; rfl) (by rw [hcons]; rfl) h
  split
  · next pc' hpc =>
      rw [hpc] at hstep
      exact hstep
  · next n hpc =>
      rw [hpc] at hstep
      intro hn hdata
      have hlt : (s.queue q).popped.length < (s.queue q).pushed.length := hdata
      have hn' : n = (s.queue q).pushed.length - (s.queue q).popped.length := hstep
      omega

omit [DecidableEq κ] [DecidableEq ι] [∀ q, NeZero (c q)] in
/-- One more port has answered. -/
theorem Seen.tail {queue : ∀ q, Spsc (T q) (c q)} {behav : SchedBehav} {input : List ι} {again : Bool}
    {q : PortOf input} {rest : List (PortOf input)} (h : Seen queue behav again (q :: rest))
    (hany : behav = .anyPort → again = true → ¬(queue q).chan.HasData)
    (hall : behav = .allPort → (queue q).chan.HasData) : Seen queue behav again rest := by
  have hnext {P : PortOf input → Prop} {q' : PortOf input} (hq' : q' ∈ q :: rest ∨ P q') (hq : P q) :
      q' ∈ rest ∨ P q' := by
    rcases hq' with hmem | hq'
    · rcases List.mem_cons.mp hmem with rfl | hmem
      · exact .inr hq
      · exact .inl hmem
    · exact .inr hq'
  cases behav with
  | anyPort => exact fun ha q' => hnext (P := fun q => ¬(queue q).chan.HasData) (h ha q') (hany rfl ha)
  | allPort => exact fun q' => hnext (P := fun q => (queue q).chan.HasData) (h q') (hall rfl)

/-- **The size of a port is known.** -/
theorem Good.looked (hi : Inv s) {again : Bool} {q : PortOf (N.input k)}
    {rest : List (PortOf (N.input k))} {pc : SizePc (c q)} (hpc : s.pc k = .size again q rest pc)
    {n : Nat} (hdata : 0 < n → (s.queue q).chan.HasData)
    (hempty : again = true → n = 0 → ¬(s.queue q).chan.HasData) :
    Good K s (s.goto k (s.looked K k again rest n)) k := by
  have ho := hi.own k
  have hknows := ho.knows
  have hearly := ho.early
  rw [hpc] at hknows hearly
  obtain ⟨hexact, -, hseen⟩ := hknows
  have hs : Looking (s.pc k) := by
    rw [hpc]
    exact ⟨by rintro ⟨⟩, rfl, rfl, rfl, fun _ _ _ => rfl⟩
  have hne : (N.input k).isEmpty = false := by
    rw [List.isEmpty_eq_false_iff]
    exact List.ne_nil_of_mem q.2
  have hfirst (ha : again = false) : s.finished k = false := by
    subst ha
    exact hearly rfl
  have hnext (hany : N.schedBehav k = .anyPort → n = 0) (hall : N.schedBehav k = .allPort → 0 < n) :
      Good K s (s.goto k (.data again rest)) k := by
    refine .look hi hs ⟨by rintro ⟨⟩, rfl, rfl, rfl, fun _ _ _ => rfl⟩
      ⟨hne, fun ha => (hexact ha).1, hseen.tail ?_ ?_⟩ fun he => ?_
    · exact fun hb ha => hempty ha (hany hb)
    · exact fun hb => hdata (hall hb)
    · cases again with
      | true => cases he
      | false => exact hfirst rfl
  unfold State.looked
  split
  · next hb =>
      split
      · next hn =>
          refine .answer hi hs hfirst (fun _ _ => .inr ?_) (by rintro ⟨⟩)
          rw [hb]
          exact ⟨q, q.2, hdata hn⟩
      · next hn => exact hnext (fun _ => by omega) (fun hb' => by rw [hb] at hb'; cases hb')
  · next hb =>
      split
      · next hn =>
          refine .answer hi hs hfirst (by rintro ⟨⟩) fun _ ha => ⟨hne, ?_, (hexact ha).1⟩
          rw [hb]
          exact fun hall => hempty ha hn (hall q q.2)
      · next hn => exact hnext (fun hb' => by rw [hb] at hb'; cases hb') (fun _ => by omega)

/-- **One load of `size`.** -/
theorem Good.sizeStep (hi : Inv s) {again : Bool} {q : PortOf (N.input k)}
    {rest : List (PortOf (N.input k))} {pc : SizePc (c q)} (hpc : s.pc k = .size again q rest pc)
    (h : s.thread K k = some t) : Good K s t k := by
  have ho := hi.own k
  have hknows := ho.knows
  have hearly := ho.early
  have hcons : (s.queue q).consumer = .idle :=
    ho.consumer q ((N.mem_input k q).mp q.2) (by rw [hpc]; rintro ⟨⟩)
  rw [hpc] at hknows hearly
  obtain ⟨hexact, hsees, hseen⟩ := hknows
  have hsees' := hi.size_sees hcons hsees
  simp only [State.thread, hpc] at h
  split at h
  · next pc' hstep =>
      cases h
      rw [hstep] at hsees'
      refine .look hi (by rw [hpc]; exact ⟨by rintro ⟨⟩, rfl, rfl, rfl, fun _ _ _ => rfl⟩)
        ⟨by rintro ⟨⟩, rfl, rfl, rfl, fun _ _ _ => rfl⟩ ⟨fun ha => ⟨(hexact ha).1, ?_⟩, hsees', hseen⟩ ?_
      · have := hi.size_exact hcons ((hexact ha).1 q) (hexact ha).2
        rwa [hstep] at this
      · intro he
        cases again with
        | true => cases he
        | false => exact hearly rfl
  · next n hstep =>
      cases h
      rw [hstep] at hsees'
      refine .looked hi hpc hsees' fun ha => ?_
      have := hi.size_exact hcons ((hexact ha).1 q) (hexact ha).2
      rwa [hstep] at this

/-! ### Steps on a queue -/

section

variable {pc : Pc ι T (M k) c (N.input k) (N.output k)} {q : ι} {x : Spsc (T q) (c q)}

omit [∀ q, NeZero (c q)] in
theorem State.put_pc : (s.put k pc q x).pc k = pc := Function.update_self ..

omit [∀ q, NeZero (c q)] in
theorem State.put_queue : (s.put k pc q x).queue q = x := Function.update_self ..

omit [∀ q, NeZero (c q)] in
theorem State.put_queue_of_ne {q' : ι} (h : q' ≠ q) : (s.put k pc q x).queue q' = s.queue q' :=
  Function.update_of_ne h ..

omit [∀ q, NeZero (c q)] in
theorem State.put_chan : (s.put k pc q x).abs.chan = Function.update s.abs.chan q x.chan := by
  funext q'
  by_cases hq : q' = q
  · subst hq
    show ((s.put k pc q' x).queue q').chan = _
    rw [put_queue, Function.update_self]
  · show ((s.put k pc q x).queue q').chan = _
    rw [put_queue_of_ne hq, Function.update_of_ne hq]
    rfl

omit [∀ q, NeZero (c q)] in
theorem State.put_proc : (s.put k pc q x).abs.proc k =
    phase (s.put k pc q x).queue (s.finished k) (s.members k) pc := by
  show phase _ _ _ ((s.put k pc q x).pc k) = _
  rw [put_pc]
  rfl

theorem Inv.put_queue (hi : Inv s) {act : Spsc.Act (T q)} (hx : (s.queue q).step act = some x)
    (q' : ι) : ((s.put k pc q x).queue q').Sound := by
  by_cases hq : q' = q
  · subst hq
    rw [State.put_queue]
    exact (hi.queue q').step hi.idle_of_closed hx
  · rw [State.put_queue_of_ne hq]
    exact hi.queue q'

omit [∀ q, NeZero (c q)] in
/-- What a thread does to an output queue, as the others see it. -/
theorem Frame.put_out (hq : N.src q = k) (hcons : x.consumer = (s.queue q).consumer)
    (hpopped : x.popped = (s.queue q).popped)
    (hlen : (s.queue q).pushed.length ≤ x.pushed.length)
    (hsame : (s.queue q).buffer.isValid = false → x = s.queue q) {j : κ} (hj : j ≠ k) :
    Frame s (s.put k pc q x) j where
  pc := Function.update_of_ne hj ..
  finished := rfl
  members := rfl
  output q' hq' := by
    have hne : q' ≠ q := by
      rintro rfl
      exact hj (hq'.symm.trans hq)
    rw [State.put_queue_of_ne hne]
    exact ⟨rfl, rfl⟩
  input q' _ := by
    by_cases hne : q' = q
    · subst hne
      rw [State.put_queue]
      exact ⟨hcons, hpopped, hlen, hsame⟩
    · rw [State.put_queue_of_ne hne]
      exact ⟨rfl, rfl, le_rfl, fun _ => rfl⟩

omit [∀ q, NeZero (c q)] in
/-- What a thread does to an input queue, as the others see it. -/
theorem Frame.put_in (hq : N.dst q = k) (hprod : x.producer = (s.queue q).producer)
    (hvalid : x.buffer.isValid = (s.queue q).buffer.isValid) {j : κ} (hj : j ≠ k) :
    Frame s (s.put k pc q x) j where
  pc := Function.update_of_ne hj ..
  finished := rfl
  members := rfl
  output q' _ := by
    by_cases hne : q' = q
    · subst hne
      rw [State.put_queue]
      exact ⟨hprod, hvalid⟩
    · rw [State.put_queue_of_ne hne]
      exact ⟨rfl, rfl⟩
  input q' hq' := by
    have hne : q' ≠ q := by
      rintro rfl
      exact hj (hq'.symm.trans hq)
    rw [State.put_queue_of_ne hne]
    exact ⟨rfl, rfl, le_rfl, fun _ => rfl⟩

omit [∀ q, NeZero (c q)] in
/-- The thread itself, after an operation on an output queue. -/
theorem Own.put_out (ho : Own s k) (hpush : ∀ q', q' ≠ q → (s.pc k).pushes ≠ some q')
    (hpop : (s.pc k).pops = none) (hprod : pc.pushes ≠ some q → x.producer = .idle)
    (hcons : x.consumer = (s.queue q).consumer)
    (hvalid : (s.queue q).buffer.isValid = false → x.buffer.isValid = false)
    (hpast : x.buffer.isValid = false ∨ (s.pc k).isClosing = true →
      s.finished k = true ∨ pc.isClosing = true)
    (hknows : Knows (s.put k pc q x).queue (N.schedBehav k) pc)
    (hearly : pc.early = true → s.finished k = false) : Own (s.put k pc q x) k where
  producer q' hq' hp := by
    rw [State.put_pc] at hp
    by_cases hne : q' = q
    · subst hne
      rw [State.put_queue]
      exact hprod hp
    · rw [State.put_queue_of_ne hne]
      exact ho.producer q' hq' (hpush q' hne)
  consumer q' hq' _ := by
    have hidle := ho.consumer q' hq' (by simp [hpop])
    by_cases hne : q' = q
    · subst hne
      rw [State.put_queue]
      exact hcons.trans hidle
    · rw [State.put_queue_of_ne hne]
      exact hidle
  past q' hq' hv := by
    rw [State.put_pc]
    by_cases hne : q' = q
    · subst hne
      rw [State.put_queue] at hv
      exact hpast (.inl hv)
    · rw [State.put_queue_of_ne hne] at hv
      rcases ho.past q' hq' hv with hf | hcl
      · exact .inl hf
      · exact hpast (.inr hcl)
  closed hf q' hq' := by
    have hv := ho.closed hf q' hq'
    by_cases hne : q' = q
    · subst hne
      rw [State.put_queue]
      exact hvalid hv
    · rw [State.put_queue_of_ne hne]
      exact hv
  knows := by rwa [State.put_pc]
  early he := by
    rw [State.put_pc] at he
    exact hearly he

omit [∀ q, NeZero (c q)] in
/-- The thread itself, after an operation on an input queue. -/
theorem Own.put_in (ho : Own s k) (hpush : (s.pc k).pushes = none)
    (hpop : ∀ q', q' ≠ q → (s.pc k).pops ≠ some q') (hcons : pc.pops ≠ some q → x.consumer = .idle)
    (hprod : x.producer = (s.queue q).producer)
    (hvalid : x.buffer.isValid = (s.queue q).buffer.isValid)
    (hclosing : (s.pc k).isClosing = false)
    (hknows : Knows (s.put k pc q x).queue (N.schedBehav k) pc)
    (hearly : pc.early = true → s.finished k = false) : Own (s.put k pc q x) k where
  producer q' hq' _ := by
    have hidle := ho.producer q' hq' (by simp [hpush])
    by_cases hne : q' = q
    · subst hne
      rw [State.put_queue]
      exact hprod.trans hidle
    · rw [State.put_queue_of_ne hne]
      exact hidle
  consumer q' hq' hp := by
    rw [State.put_pc] at hp
    by_cases hne : q' = q
    · subst hne
      rw [State.put_queue]
      exact hcons hp
    · rw [State.put_queue_of_ne hne]
      exact ho.consumer q' hq' (hpop q' hne)
  past q' hq' hv := by
    have hv' : (s.queue q').buffer.isValid = false := by
      by_cases hne : q' = q
      · subst hne
        rw [State.put_queue, hvalid] at hv
        exact hv
      · rwa [State.put_queue_of_ne hne] at hv
    rcases ho.past q' hq' hv' with hf | hcl
    · exact .inl hf
    · rw [hclosing] at hcl
      cases hcl
  closed hf q' hq' := by
    have hv := ho.closed hf q' hq'
    by_cases hne : q' = q
    · subst hne
      rw [State.put_queue, hvalid]
      exact hv
    · rw [State.put_queue_of_ne hne]
      exact hv
  knows := by rwa [State.put_pc]
  early he := by
    rw [State.put_pc] at he
    exact hearly he

end

/-! ### A `run()` -/

omit [DecidableEq κ] [DecidableEq ι] in
/-- An output queue of a kernel that is not done is valid. -/
theorem Inv.valid_of_early (hi : Inv s) (he : (s.pc k).early = true)
    (hcl : (s.pc k).isClosing = false) {q : ι} (hq : N.src q = k) :
    (s.queue q).buffer.isValid = true := by
  have ho := hi.own k
  by_contra hv
  rcases ho.past q hq (by simpa using hv) with hf | hcl'
  · rw [ho.early he] at hf
    cases hf
  · rw [hcl] at hcl'
    cases hcl'

/-- `run()` calls `push`. -/
theorem Good.callPush (hi : Inv s) {q : PortOf (N.output k)} {item : T q × RaftSignal}
    {next : Prog ι T (M k) (N.input k) (N.output k)} (hpc : s.pc k = .running (.push q item next))
    (h : s.thread K k = some t) : Good K s t k := by
  have hsrc := (N.mem_output k q).mp q.2
  have ho := hi.own k
  have hfin : s.finished k = false := ho.early (by rw [hpc]; rfl)
  have hvalid : (s.queue q).buffer.isValid = true :=
    hi.valid_of_early (by rw [hpc]; rfl) (by rw [hpc]; rfl) hsrc
  have hidle : (s.queue q).producer = .idle := ho.producer q hsrc (by rw [hpc]; rintro ⟨⟩)
  simp only [State.thread, hpc] at h
  obtain ⟨x, hx, rfl⟩ := Option.map_eq_some_iff.mp h
  have hxe : x = { s.queue q with producer := .spaceAvail item .wrapWrite } := by
    rw [Spsc.step, hidle] at hx
    exact (Option.some.inj hx).symm
  have hcons : x.consumer = (s.queue q).consumer := by rw [hxe]
  have hpopped : x.popped = (s.queue q).popped := by rw [hxe]
  have hlen : (s.queue q).pushed.length ≤ x.pushed.length := by rw [hxe]
  have hopen : x.buffer.isValid = true := by rw [hxe]; exact hvalid
  have hpend : x.producer.pending = [item] := by rw [hxe]; rfl
  have hchan : x.chan = s.abs.chan q := by rw [hxe]; rfl
  refine .of_frame hi (fun j hj => .put_out hsrc hcons hpopped hlen (fun hv => ?_) hj) rfl
    (by rw [hpc]; rintro ⟨⟩) (hi.put_queue hx) (ho.put_out ?_ ?_ ?_ hcons ?_ ?_ trivial fun _ => hfin)
    (.inl ⟨?_, ?_⟩)
  · rw [hvalid] at hv
    cases hv
  · rw [hpc]
    exact fun _ _ => by rintro ⟨⟩
  · rw [hpc]
    rfl
  · exact fun hne => absurd rfl hne
  · intro hv
    rw [hvalid] at hv
    cases hv
  · rw [hpc, hopen]
    rintro (hv | hcl)
    · cases hv
    · cases hcl
  · rw [State.put_proc, phase, State.put_queue, hpend]
    show _ = phase _ _ _ (s.pc k)
    rw [hpc]
    rfl
  · rw [State.put_chan, hchan, Function.update_eq_self]

/-- `run()` calls `pop`. -/
theorem Good.callPop (hi : Inv s) {q : PortOf (N.input k)}
    {next : T q × RaftSignal → Prog ι T (M k) (N.input k) (N.output k)}
    (hpc : s.pc k = .running (.pop q next)) (h : s.thread K k = some t) : Good K s t k := by
  have hdst := (N.mem_input k q).mp q.2
  have ho := hi.own k
  have hfin : s.finished k = false := ho.early (by rw [hpc]; rfl)
  have hidle : (s.queue q).consumer = .idle := ho.consumer q hdst (by rw [hpc]; rintro ⟨⟩)
  simp only [State.thread, hpc] at h
  obtain ⟨x, hx, rfl⟩ := Option.map_eq_some_iff.mp h
  have hxe : x = { s.queue q with consumer := .size .wrapWrite } := by
    rw [Spsc.step, hidle] at hx
    exact (Option.some.inj hx).symm
  have hprod : x.producer = (s.queue q).producer := by rw [hxe]
  have hvalid : x.buffer.isValid = (s.queue q).buffer.isValid := by rw [hxe]
  have hread : x.consumer.hasRead = false := by rw [hxe]; rfl
  have hchan : x.chan = s.abs.chan q := by rw [hxe]; rfl
  refine .of_frame hi (fun j hj => .put_in hdst hprod hvalid hj) rfl (by rw [hpc]; rintro ⟨⟩)
    (hi.put_queue hx) (ho.put_in ?_ ?_ ?_ hprod hvalid ?_ ?_ fun _ => hfin) (.inl ⟨?_, ?_⟩)
  · rw [hpc]
    rfl
  · rw [hpc]
    exact fun _ _ => by rintro ⟨⟩
  · exact fun hne => absurd rfl hne
  · rw [hpc]
    rfl
  · show false = Consumer.hasRead ((s.put k _ q _).queue q).consumer
    rw [State.put_queue, hread]
  · rw [State.put_proc]
    show _ = phase _ _ _ (s.pc k)
    rw [hpc]
    rfl
  · rw [State.put_chan, hchan, Function.update_eq_self]

/-- **One step of a push.** -/
theorem Good.pushStep (hi : Inv s) {q : PortOf (N.output k)}
    {next : Prog ι T (M k) (N.input k) (N.output k)} (hpc : s.pc k = .pushing q next)
    (h : s.thread K k = some t) : Good K s t k := by
  have hsrc := (N.mem_output k q).mp q.2
  have ho := hi.own k
  have hfin : s.finished k = false := ho.early (by rw [hpc]; rfl)
  have hvalid : (s.queue q).buffer.isValid = true :=
    hi.valid_of_early (by rw [hpc]; rfl) (by rw [hpc]; rfl) hsrc
  simp only [State.thread, hpc] at h
  obtain ⟨x, hx, rfl⟩ := Option.map_eq_some_iff.mp h
  obtain ⟨hcons, hsame⟩ := Fed.Inv.produce_frame hx
  have hpopped := Spsc.produce_popped hx
  obtain ⟨R, hR⟩ := (hi.queue q).inv
  have hsent := hR.produce_sent hx
  have hlen : (s.queue q).pushed.length ≤ x.pushed.length := by
    rcases hsent with ⟨heq, -⟩ | ⟨item, -, -, heq, -⟩
    · rw [heq]
    · rw [heq, List.length_append]
      exact Nat.le_add_right _ _
  -- a push that has returned has nothing pending
  have hphase : (s.put k (if x.producer.isIdle then .running next else .pushing q next) q x).abs.proc k =
      .push q next x.producer.pending := by
    rw [State.put_proc]
    split
    · next hidle =>
        rw [Producer.eq_idle hidle]
        rfl
    · rw [phase, State.put_queue]
  have hphase' : s.abs.proc k = .push q next (s.queue q).producer.pending := by
    show phase _ _ _ (s.pc k) = _
    rw [hpc]
    rfl
  refine .of_frame hi (fun j hj => .put_out hsrc hcons hpopped hlen (fun hv => ?_) hj) rfl
    (by rw [hpc]; rintro ⟨⟩) (hi.put_queue (show (s.queue q).step .producer = some _ from hx))
    (ho.put_out ?_ ?_ ?_ hcons ?_ ?_ ?_ fun _ => hfin) ?_
  · rw [hvalid] at hv
    cases hv
  · intro q' hne hq'
    rw [hpc] at hq'
    exact hne (Option.some.inj hq').symm
  · rw [hpc]
    rfl
  · split
    · next hidle => exact fun _ => Producer.eq_idle hidle
    · exact fun hne => absurd rfl hne
  · exact fun hv => hsame.trans hv
  · rw [hpc]
    rintro (hv | hcl)
    · rw [hsame, hvalid] at hv
      cases hv
    · cases hcl
  · split <;> trivial
  · rw [hphase, hphase', State.put_chan]
    rcases hsent with ⟨heq, hpend⟩ | ⟨item, hpend, hpend', heq, hroom⟩
    · refine .inl ⟨by rw [hpend], ?_⟩
      have hchan : x.chan = s.abs.chan q := by
        show x.chan = (s.queue q).chan
        rw [Spsc.chan, Spsc.chan, heq, hpopped, hsame]
      rw [hchan, Function.update_eq_self]
    · refine .inr ⟨some ⟨q, .send item⟩, ?_, ?_⟩
      · rw [hpend, hpend']
        refine .send ?_ ?_
        · show (!(s.queue q).buffer.isValid) = false
          rw [hvalid]
          rfl
        · exact Nat.cast_lt.mpr hroom
      · have hchan : x.chan = (s.abs.chan q).after (.send item) := by
          show x.chan = ((s.queue q).chan).after (.send item)
          rw [Spsc.chan, Spsc.chan, heq, hpopped, hsame]
          rfl
        rw [hchan]
        rfl

/-- **One step of a pop.** -/
theorem Good.popStep (hi : Inv s) {q : PortOf (N.input k)}
    {next : T q × RaftSignal → Prog ι T (M k) (N.input k) (N.output k)}
    {item : Option (T q × RaftSignal)} (hpc : s.pc k = .popping q next item)
    (h : s.thread K k = some t) : Good K s t k := by
  have hdst := (N.mem_input k q).mp q.2
  have ho := hi.own k
  have hfin : s.finished k = false := ho.early (by rw [hpc]; rfl)
  have hitem : item.isSome = (s.queue q).consumer.hasRead := by
    have hknows := ho.knows
    rwa [hpc] at hknows
  simp only [State.thread, hpc] at h
  obtain ⟨x, hx, rfl⟩ := Option.map_eq_some_iff.mp h
  obtain ⟨hpushed, hprod⟩ := Spsc.consume_frame hx
  have hvalid := Fed.Inv.consume_valid hx
  obtain ⟨R, hR⟩ := (hi.queue q).inv
  have hgot := hR.consume_got hx
  have hread := Spsc.consume_hasRead hx hitem
  have hthrown := (hi.queue q).thrown hi.idle_of_closed hx
  -- a pop that has returned goes on with its item, and one that has thrown has none
  have hphase : (s.put k (if x.consumer.isIdle then .popped q next ((s.queue q).itemRead item)
      else .popping q next ((s.queue q).itemRead item)) q x).abs.proc k =
      .pop q next ((s.queue q).itemRead item) := by
    rw [State.put_proc]
    cases (s.queue q).itemRead item <;> split <;> rfl
  have hphase' : s.abs.proc k = .pop q next item := by
    show phase _ _ _ (s.pc k) = _
    rw [hpc]
    rfl
  refine .of_frame hi (fun j hj => .put_in hdst hprod hvalid hj) rfl (by rw [hpc]; rintro ⟨⟩)
    (hi.put_queue (show (s.queue q).step .consumer = some _ from hx))
    (ho.put_in ?_ ?_ ?_ hprod hvalid ?_ ?_ fun _ => hfin) ?_
  · rw [hpc]
    rfl
  · intro q' hne hq'
    rw [hpc] at hq'
    exact hne (Option.some.inj hq').symm
  · split
    · next hidle => exact fun _ => Consumer.eq_idle hidle
    · exact fun hne => absurd rfl hne
  · rw [hpc]
    rfl
  · split
    · next hidle =>
        cases hback : (s.queue q).itemRead item with
        | some v => trivial
        | none =>
            -- nothing has been read, so the pop has thrown
            have hno : (s.queue q).consumer.hasRead = false := by
              rcases hgot with ⟨-, hkeep⟩ | ⟨v, -, -, -, hitem'⟩
              · rw [hkeep] at hback
                rw [← hitem, hback]
                rfl
              · rw [hitem'] at hback
                cases hback
            obtain ⟨hv, hempty⟩ := hthrown hno (Consumer.eq_idle hidle)
            refine ⟨q, next, rfl, ?_, ?_⟩
            · rw [State.put_queue, hvalid]
              exact hv
            · rw [State.put_queue]
              rcases hgot with ⟨hsame, -⟩ | ⟨v, -, -, -, hitem'⟩
              · show ¬x.popped.length < x.pushed.length
                rw [hsame, hpushed]
                exact hempty
              · rw [hitem'] at hback
                cases hback
    · next hidle =>
        show _ = Consumer.hasRead ((s.put k _ q _).queue q).consumer
        rw [State.put_queue]
        refine hread.resolve_right fun heq => hidle ?_
        rw [heq]
        rfl
  · rw [hphase, hphase', State.put_chan]
    rcases hgot with ⟨hsame, hkeep⟩ | ⟨v, hpopped, hno, hv, hitem'⟩
    · refine .inl ⟨by rw [hkeep], ?_⟩
      have hchan : x.chan = s.abs.chan q := by
        show x.chan = (s.queue q).chan
        rw [Spsc.chan, Spsc.chan, hsame, hpushed, hvalid]
      rw [hchan, Function.update_eq_self]
    · have hnone : item = none := by
        rw [hno] at hitem
        exact Option.not_isSome_iff_eq_none.mp (by simp [hitem])
      refine .inr ⟨some ⟨q, .recv⟩, ?_, ?_⟩
      · rw [hnone, hitem']
        exact .recv hv
      · have hchan : x.chan = (s.abs.chan q).after .recv := by
          show x.chan = ((s.queue q).chan).after .recv
          rw [Spsc.chan, Spsc.chan, hpushed, hpopped, hvalid, List.length_append]
          rfl
        rw [hchan]
        rfl

/-- `run()` returns. -/
theorem Good.runReturns (hi : Inv s) {status : Kstatus} {m : M k}
    (hpc : s.pc k = .running (.returns status m)) (h : s.thread K k = some t) : Good K s t k := by
  have ho := hi.own k
  have hfin : s.finished k = false := ho.early (by rw [hpc]; rfl)
  have hphase : s.abs.proc k = .run (.returns status m) := by
    show phase _ _ _ (s.pc k) = _
    rw [hpc]
    rfl
  simp only [State.thread, hpc] at h
  cases h
  have hpush : (s.pc k).pushes = none := by rw [hpc]; rfl
  have hpop : (s.pc k).pops = none := by rw [hpc]; rfl
  have hclosing : (s.pc k).isClosing = false := by rw [hpc]; rfl
  refine .of_frame hi (fun j hj => ?_) rfl (by rw [hpc]; rintro ⟨⟩) hi.queue ?_ (.inr ⟨none, ?_, rfl⟩)
  · exact ⟨Function.update_of_ne hj .., rfl, Function.update_of_ne hj ..,
      fun _ _ => ⟨rfl, rfl⟩, fun _ _ => ⟨rfl, rfl, le_rfl, fun _ => rfl⟩⟩
  · refine ho.move rfl rfl hpush hpop hclosing ?_ fun _ => hfin
    simp only [State.goto, Function.update_self]
    cases status with
    | proceed => exact fun q => .inl (List.mem_attach _ q)
    | stop => exact fun q => .inl (List.mem_attach _ q)
  · rw [hphase]
    simp only [State.abs, State.goto, Function.update_self]
    cases status with
    | proceed =>
        simp only [phase, hfin]
        exact .skip
    | stop =>
        simp only [phase, hfin]
        exact .skip

/-! ### `invalidateOutputPorts` -/

/-- One output is invalidated. -/
theorem Good.closeStep (hi : Inv s) {last : Bool} {q : PortOf (N.output k)}
    {rest : List (PortOf (N.output k))} (hpc : s.pc k = .closing last (q :: rest))
    (h : s.thread K k = some t) : Good K s t k := by
  have hsrc := (N.mem_output k q).mp q.2
  have ho := hi.own k
  have hknows := ho.knows
  have hearly := ho.early
  rw [hpc] at hknows hearly
  have hidle : (s.queue q).producer = .idle := ho.producer q hsrc (by rw [hpc]; rintro ⟨⟩)
  simp only [State.thread, hpc] at h
  obtain ⟨x, hx, rfl⟩ := Option.map_eq_some_iff.mp h
  have hxe : x = { s.queue q with buffer := { (s.queue q).buffer with isValid := false } } :=
    (Option.some.inj hx).symm
  have hcons : x.consumer = (s.queue q).consumer := by rw [hxe]
  have hpopped : x.popped = (s.queue q).popped := by rw [hxe]
  have hlen : (s.queue q).pushed.length ≤ x.pushed.length := by rw [hxe]
  have hprod : x.producer = .idle := by rw [hxe]; exact hidle
  have hclosed : x.buffer.isValid = false := by rw [hxe]
  have hchan : x.chan = (s.abs.chan q).after .close := by rw [hxe]; rfl
  have hsame (hv : (s.queue q).buffer.isValid = false) : x = s.queue q := by rw [hxe, ← hv]
  refine .of_frame hi (fun j hj => .put_out hsrc hcons hpopped hlen hsame hj) rfl
    (by rw [hpc]; rintro ⟨⟩) (hi.put_queue hx)
    (ho.put_out ?_ ?_ (fun _ => hprod) hcons (fun _ => hclosed) (fun _ => .inr rfl) ?_ ?_) ?_
  · rw [hpc]
    exact fun _ _ => by rintro ⟨⟩
  · rw [hpc]
    rfl
  · intro q'
    by_cases hq' : q' = q
    · subst hq'
      right
      rw [State.put_queue]
      exact hclosed
    · rcases hknows q' with hmem | hv
      · exact .inl ((List.mem_cons.mp hmem).resolve_left hq')
      · right
        rw [State.put_queue_of_ne fun heq => hq' (Subtype.ext heq)]
        exact hv
  · intro he
    refine hearly ?_
    cases last with
    | true => cases he
    | false => rfl
  · have hphase : s.abs.proc k = if s.finished k then .stopped (s.members k)
        else .close (q :: rest) (s.members k) := by
      show phase _ _ _ (s.pc k) = _
      rw [hpc]
      rfl
    rw [State.put_proc, State.put_chan, hphase, hchan]
    by_cases hf : s.finished k = true
    · -- the second time around nothing is left to be closed
      simp only [phase, hf, if_true]
      refine .inl ⟨trivial, ?_⟩
      have hv := ho.closed hf q hsrc
      rw [← hchan, hsame hv]
      exact Function.update_eq_self ..
    · simp only [phase, hf]
      exact .inr ⟨some ⟨q, .close⟩, .close, rfl⟩

/-- All outputs are invalidated, and `finished` is set. -/
theorem Good.finish (hi : Inv s) {last : Bool} (hpc : s.pc k = .closing last [])
    (h : s.thread K k = some t) : Good K s t k := by
  have ho := hi.own k
  have hknows := ho.knows
  rw [hpc] at hknows
  have hclosed (q : ι) (hq : N.src q = k) : (s.queue q).buffer.isValid = false :=
    (hknows ⟨q, (N.mem_output k q).mpr hq⟩).resolve_left List.not_mem_nil
  have hphase : s.abs.proc k = if s.finished k then .stopped (s.members k)
      else .close [] (s.members k) := by
    show phase _ _ _ (s.pc k) = _
    rw [hpc]
    rfl
  simp only [State.thread, hpc] at h
  cases h
  refine .of_frame hi (fun j hj => ?_) rfl (by rw [hpc]; rintro ⟨⟩) hi.queue ?_ ?_
  · exact ⟨Function.update_of_ne hj .., Function.update_of_ne hj .., rfl,
      fun _ _ => ⟨rfl, rfl⟩, fun _ _ => ⟨rfl, rfl, le_rfl, fun _ => rfl⟩⟩
  · refine ⟨fun q hq _ => ho.producer q hq (by rw [hpc]; rintro ⟨⟩),
      fun q hq _ => ho.consumer q hq (by rw [hpc]; rintro ⟨⟩), fun _ _ _ => .inl ?_,
      fun _ q hq => hclosed q hq, ?_, fun he => ?_⟩
    · exact Function.update_self ..
    · simp only [State.goto, Function.update_self]
      cases last with
      | true => trivial
      | false => exact fun q => .inl (List.mem_attach _ q)
    · simp only [State.goto, Function.update_self] at he
      cases last <;> cases he
  · rw [hphase]
    simp only [State.abs, State.goto, Function.update_self]
    by_cases hf : s.finished k = true
    · left
      cases last <;> simp [phase, hf]
    · right
      refine ⟨none, ?_, rfl⟩
      simp only [hf]
      cases last with
      | true => exact .skip
      | false => exact .skip

/-! ### Every step -/

/-- **Every step of a thread.** -/
theorem thread_good (hi : Inv s) (h : s.thread K k = some t) : Good K s t k := by
  have ho := hi.own k
  have hknows := ho.knows
  have hearly := ho.early
  cases hpc : s.pc k with
  | unborn | ended | failed _ => simp [State.thread, hpc] at h
  | loop =>
      have hs : Looking (s.pc k) := by
        rw [hpc]
        exact ⟨by rintro ⟨⟩, rfl, rfl, rfl, fun _ _ _ => rfl⟩
      simp only [State.thread, hpc] at h
      cases h
      split
      · exact .look hi hs ⟨by rintro ⟨⟩, rfl, rfl, rfl, fun _ _ _ => rfl⟩ trivial (by rintro ⟨⟩)
      · next hf => exact .hasInputData hi hs (fun _ => by simpa using hf) (by rintro ⟨⟩)
  | data again rest =>
      have hs : Looking (s.pc k) := by
        rw [hpc]
        exact ⟨by rintro ⟨⟩, rfl, rfl, rfl, fun _ _ _ => rfl⟩
      rw [hpc] at hknows hearly
      obtain ⟨hne, hclosed, hseen⟩ := hknows
      have hfirst (ha : again = false) : s.finished k = false := by
        subst ha
        exact hearly rfl
      cases rest with
      | nil =>
          simp only [State.thread, hpc] at h
          cases h
          unfold Seen at hseen
          refine .answer hi hs hfirst (fun hb _ => .inr ?_) fun hb ha => ⟨hne, ?_, hclosed ha⟩
          · have hb : N.schedBehav k = .allPort := by simpa using hb
            rw [hb] at hseen ⊢
            exact fun q hq => (hseen ⟨q, hq⟩).resolve_left List.not_mem_nil
          · cases hbehav : N.schedBehav k with
            | allPort => simp [hbehav] at hb
            | anyPort =>
                rw [hbehav] at hseen
                rintro ⟨q, hq, hdata⟩
                exact (hseen ha ⟨q, hq⟩).resolve_left List.not_mem_nil hdata
      | cons q rest =>
          simp only [State.thread, hpc] at h
          cases h
          refine .look hi hs ⟨by rintro ⟨⟩, rfl, rfl, rfl, fun _ _ _ => rfl⟩
            ⟨fun ha => ⟨hclosed ha, trivial⟩, trivial, hseen⟩ fun he => ?_
          cases again with
          | true => cases he
          | false => exact hfirst rfl
  | size again q rest pc => exact .sizeStep hi hpc h
  | running p =>
      cases p with
      | pop q next => exact .callPop hi hpc h
      | push q item next => exact .callPush hi hpc h
      | returns status m => exact .runReturns hi hpc h
  | pushing q next => exact .pushStep hi hpc h
  | popping q next item => exact .popStep hi hpc h
  | ports rest =>
      have hs : Looking (s.pc k) := by
        rw [hpc]
        exact ⟨by rintro ⟨⟩, rfl, rfl, rfl, fun _ _ _ => rfl⟩
      rw [hpc] at hknows
      cases rest with
      | nil =>
          simp only [State.thread, hpc] at h
          cases h
          exact .hasInputData hi hs (by rintro ⟨⟩) fun _ q => (hknows q).resolve_left List.not_mem_nil
      | cons q rest =>
          simp only [State.thread, hpc] at h
          cases h
          split
          · exact .look hi hs ⟨by rintro ⟨⟩, rfl, rfl, rfl, fun _ _ _ => rfl⟩ trivial (by rintro ⟨⟩)
          · next hv =>
              refine .look hi hs ⟨by rintro ⟨⟩, rfl, rfl, rfl, fun _ _ _ => rfl⟩ (fun q' => ?_) (by rintro ⟨⟩)
              rcases hknows q' with hmem | hv'
              · rcases List.mem_cons.mp hmem with rfl | hmem
                · exact .inr (by simpa using hv)
                · exact .inl hmem
              · exact .inr hv'
  | closing last rest =>
      cases rest with
      | nil => exact .finish hi hpc h
      | cons q rest => exact .closeStep hi hpc h

omit [DecidableEq ι] in
/-- A thread is spawned. -/
theorem spawn_good (hi : Inv s) {rest : List κ} (hstart : s.start = .spawning (k :: rest)) :
    Inv { s.goto k .loop with start := .spawning rest } ∧
      State.abs { s.goto k .loop with start := .spawning rest } = s.abs := by
  obtain ⟨hnodup, hall⟩ := hi.unborn _ hstart
  obtain ⟨hk, hnodup⟩ := List.nodup_cons.mp hnodup
  have hpc : s.pc k = .unborn := hall k (List.mem_cons_self ..)
  have hself : (s.goto k .loop).pc k = .loop := Function.update_self ..
  have hothers {j : κ} (hj : j ≠ k) : (s.goto k .loop).pc j = s.pc j := Function.update_of_ne hj ..
  refine ⟨⟨hi.queue, fun j => ?_, fun rest' hrest' => ?_⟩, ?_⟩
  · by_cases hj : j = k
    · subst hj
      refine (hi.own j).move rfl rfl (by rw [hpc]; rfl) (by rw [hpc]; rfl) (by rw [hpc]; rfl) ?_ ?_
      · show Knows s.queue (N.schedBehav j) ((s.goto j .loop).pc j)
        rw [hself]
        trivial
      · show ((s.goto j .loop).pc j).early = true → _
        rw [hself]
        rintro ⟨⟩
    · exact Frame.own ⟨hothers hj, rfl, rfl, fun _ _ => ⟨rfl, rfl⟩,
        fun _ _ => ⟨rfl, rfl, le_rfl, fun _ => rfl⟩⟩ (hi.own j)
  · cases hrest'
    refine ⟨hnodup, fun j hj => ?_⟩
    have hne : j ≠ k := by
      rintro rfl
      exact hk hj
    exact (hothers hne).trans (hall j (List.mem_cons_of_mem k hj))
  · refine Kahn.State.ext (funext fun j => ?_) rfl
    show phase s.queue (s.finished j) (s.members j) ((s.goto k .loop).pc j) = phase _ _ _ (s.pc j)
    by_cases hj : j = k
    · subst hj
      rw [hself, hpc]
      rfl
    · rw [hothers hj]

omit [DecidableEq ι] in
/-- **Every step of `start`** is none of the network. -/
theorem start_good (hi : Inv s) (h : s.startNext = some t) : Inv t ∧ t.abs = s.abs := by
  have hkeep (start : Start κ) (term : κ → Bool) (hno : ∀ rest, start ≠ .spawning rest) :
      Inv { s with start := start, term := term } :=
    ⟨hi.queue, fun k => ⟨(hi.own k).producer, (hi.own k).consumer, (hi.own k).past, (hi.own k).closed,
      (hi.own k).knows, (hi.own k).early⟩, fun rest hrest => absurd hrest (hno rest)⟩
  unfold State.startNext at h
  split at h
  · next k rest hstart =>
      cases h
      exact spawn_good hi hstart
  · cases h
    exact ⟨hkeep _ s.term (by rintro _ ⟨⟩), rfl⟩
  · cases h
    refine ⟨hkeep _ s.term fun rest => ?_, rfl⟩
    split
    · rintro ⟨⟩
    · split <;> rintro ⟨⟩
  · cases h
    refine ⟨hkeep _ s.term fun rest => ?_, rfl⟩
    split <;> rintro ⟨⟩
  · split at h
    · cases h
      exact ⟨hkeep _ _ (by rintro _ ⟨⟩), rfl⟩
    · cases h
  · cases h

/-! ## Whole runs -/

omit [DecidableEq κ] [DecidableEq ι] in
theorem Inv.init (uninit : ∀ q, Fin (c q) → T q) : Inv (State.init K uninit) where
  queue q := ⟨⟨0, Spsc.Inv.init (uninit q)⟩, by rintro _ ⟨⟩⟩
  own k := {
    producer := fun _ _ _ => rfl
    consumer := fun _ _ _ => rfl
    past := fun _ _ hv => by cases hv
    closed := fun hf => by cases hf
    knows := trivial
    early := fun _ => rfl }
  unborn rest hrest := by
    cases hrest
    exact ⟨N.nodup, fun _ _ => rfl⟩

/-- A step keeps the invariant, and is one step of the network or none. -/
theorem step_good {a : Act κ} (hi : Inv s) (h : s.step K a = some t) :
    Inv t ∧ ∃ ks, Run (K.net.Step (room c)) s.abs ks t.abs := by
  cases a with
  | kernel k =>
      have hgood : Good K s t k := thread_good hi h
      refine ⟨hgood.inv, ?_⟩
      rcases hgood.refines with hsame | hstep
      · rw [hsame]
        exact ⟨[], .nil _⟩
      · exact ⟨[k], .single hstep⟩
  | start =>
      obtain ⟨hi', hsame⟩ := start_good hi h
      refine ⟨hi', ?_⟩
      rw [hsame]
      exact ⟨[], .nil _⟩

/-- **Refinement.** A run of the threads is a run of the network. -/
theorem run_refines {as : List (Act κ)} (h : Run (ofFun (State.step K)) s as t) (hi : Inv s) :
    Inv t ∧ ∃ ks, Run (K.net.Step (room c)) s.abs ks t.abs := by
  induction h with
  | nil s => exact ⟨hi, [], .nil _⟩
  | cons hl _ ih =>
      obtain ⟨hi', ks, hks⟩ := step_good hi hl
      obtain ⟨hi'', ks', hks'⟩ := ih hi'
      exact ⟨hi'', ks ++ ks', hks.append hks'⟩

end

end SimpleSchedule

end RaftLib.Threads
