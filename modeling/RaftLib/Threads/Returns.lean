/-
# `RaftLib.Threads.Returns` -- graphs without cycles come to their end

From wherever the threads of a graph have got, some schedule brings `start` to its return, if the
queues between the kernels form no cycle, and the kernels one after the other come to their end with
everything popped (`returns_of_forest`). Every queue may have a single
place. So such a graph has no deadlock, and nothing that its threads do can spoil it for good.

That the network of `Threads.KernelNet` can go on is `Logic.KahnForest`. Here the threads do what it
can do (`advances`): each completes the increment it is in, so that every fresh `size()` is right
(`settles`), and then the thread in question goes on alone (`Threads.Progress`). Where the network is
at its end, the threads leave their loops (`leads_ended`), and `start` joins them.
-/
import RaftLib.Logic.KahnForest
import RaftLib.Threads.Progress

namespace RaftLib.Threads.SimpleSchedule

open RaftLib.Queue
open RaftLib.Logic
open RaftLib.Logic.Kahn
open RaftLib.Logic.Steps
open RaftLib.Threads.PoolSchedule (Net SchedBehav pipe)

variable {κ ι : Type} {T : ι → Type} {M : κ → Type} {c : ι → Nat} {N : Net κ ι}

/-! ## What is under way -/

/-- A push or pop that has been called has not come back yet. -/
def Pc.Underway (queue : ∀ q, Spsc (T q) (c q)) {M : Type} {input output : List ι} :
    Pc ι T M c input output → Prop
  | .pushing q _ => (queue q).producer ≠ .idle
  | .popping q _ _ => (queue q).consumer ≠ .idle
  | _ => True

/-- Each thread is in the call that its place says, and only threads that are to be spawned are not
there yet. -/
structure Underway (s : State N T M c) : Prop where
  call : ∀ k, (s.pc k).Underway s.queue
  born : ∀ k ∈ N.kernels, s.pc k = .unborn → ∃ rest, s.start = .spawning rest ∧ k ∈ rest

/-- The places outside of push and pop. -/
structure Quiet {M : Type} {input output : List ι} (pc : Pc ι T M c input output) : Prop where
  born : pc ≠ .unborn
  pushes : pc.pushes = none
  pops : pc.pops = none

theorem Quiet.underway {M : Type} {input output : List ι} {pc : Pc ι T M c input output} (h : Quiet pc)
    (queue : ∀ q, Spsc (T q) (c q)) : pc.Underway queue := by
  cases pc with
  | pushing q next => cases h.pushes
  | popping q next item => cases h.pops
  | _ => trivial

section

variable [DecidableEq κ] [DecidableEq ι] {K : Kernels N T M} {s t : State N T M c} {k : κ}

omit [DecidableEq κ] [DecidableEq ι] in
theorem quiet_answer (again b : Bool) : Quiet (s.answer K k again b) := by
  cases b <;> cases again <;> exact ⟨by rintro ⟨⟩, rfl, rfl⟩

omit [DecidableEq κ] [DecidableEq ι] in
theorem quiet_hasInputData (again : Bool) : Quiet (s.hasInputData K k again) := by
  unfold State.hasInputData
  split
  · exact quiet_answer again true
  · exact ⟨by rintro ⟨⟩, rfl, rfl⟩

omit [DecidableEq κ] [DecidableEq ι] in
theorem quiet_looked (again : Bool) (rest : List (PortOf (N.input k))) (n : Nat) :
    Quiet (s.looked K k again rest n) := by
  unfold State.looked
  split
  · split
    · exact quiet_answer again true
    · exact ⟨by rintro ⟨⟩, rfl, rfl⟩
  · split
    · exact quiet_answer again false
    · exact ⟨by rintro ⟨⟩, rfl, rfl⟩

/-- A thread is in the call that its place says. -/
theorem thread_underway (h : s.thread K k = some t) :
    (t.pc k).Underway t.queue ∧ t.pc k ≠ .unborn := by
  have hgoto {pc : Pc ι T (M k) c (N.input k) (N.output k)} (hpc : Quiet pc)
      (queue : ∀ q, Spsc (T q) (c q)) :
      ((s.goto k pc).pc k).Underway queue ∧ (s.goto k pc).pc k ≠ .unborn := by
    rw [State.goto_pc]
    exact ⟨hpc.underway queue, hpc.born⟩
  unfold State.thread at h
  split at h
  · cases h
  · cases h
  · cases h
  · cases h
    refine hgoto ?_ s.queue
    split
    · exact ⟨by rintro ⟨⟩, rfl, rfl⟩
    · exact quiet_hasInputData false
  · cases h
    exact hgoto (quiet_answer _ _) s.queue
  · cases h
    refine hgoto ?_ s.queue
    exact ⟨by rintro ⟨⟩, rfl, rfl⟩
  · split at h
    · cases h
      refine hgoto ?_ s.queue
      exact ⟨by rintro ⟨⟩, rfl, rfl⟩
    · cases h
      exact hgoto (quiet_looked _ _ _) s.queue
  · next q item next _ =>
      obtain ⟨x, hx, rfl⟩ := Option.map_eq_some_iff.mp h
      rw [State.put_pc]
      refine ⟨?_, by rintro ⟨⟩⟩
      show ((s.put k (.pushing q next) q x).queue q).producer ≠ .idle
      rw [State.put_queue]
      simp only [Spsc.step] at hx
      split at hx
      · cases hx
        rintro ⟨⟩
      · cases hx
  · next q next _ =>
      obtain ⟨x, hx, rfl⟩ := Option.map_eq_some_iff.mp h
      rw [State.put_pc]
      refine ⟨?_, by rintro ⟨⟩⟩
      show ((s.put k (.popping q next none) q x).queue q).consumer ≠ .idle
      rw [State.put_queue]
      simp only [Spsc.step] at hx
      split at hx
      · cases hx
        rintro ⟨⟩
      · cases hx
  · cases h
    refine hgoto ?_ s.queue
    split <;> exact ⟨by rintro ⟨⟩, rfl, rfl⟩
  · next q next _ =>
      obtain ⟨x, hx, rfl⟩ := Option.map_eq_some_iff.mp h
      rw [State.put_pc]
      split
      · exact ⟨trivial, by rintro ⟨⟩⟩
      · next hbusy =>
          refine ⟨?_, by rintro ⟨⟩⟩
          show ((s.put k _ q x).queue q).producer ≠ .idle
          rw [State.put_queue]
          intro hidle
          rw [hidle] at hbusy
          exact hbusy rfl
  · next q next item _ =>
      obtain ⟨x, hx, rfl⟩ := Option.map_eq_some_iff.mp h
      rw [State.put_pc]
      split
      · cases (s.queue q).itemRead item with
        | none => exact ⟨trivial, by rintro ⟨⟩⟩
        | some v => exact ⟨trivial, by rintro ⟨⟩⟩
      · next hbusy =>
          refine ⟨?_, by rintro ⟨⟩⟩
          show ((s.put k _ q x).queue q).consumer ≠ .idle
          rw [State.put_queue]
          intro hidle
          rw [hidle] at hbusy
          exact hbusy rfl
  · cases h
    exact hgoto (quiet_hasInputData true) s.queue
  · cases h
    refine hgoto ?_ s.queue
    split <;> exact ⟨by rintro ⟨⟩, rfl, rfl⟩
  · cases h
    refine hgoto ?_ s.queue
    split <;> exact ⟨by rintro ⟨⟩, rfl, rfl⟩
  · obtain ⟨x, hx, rfl⟩ := Option.map_eq_some_iff.mp h
    rw [State.put_pc]
    exact ⟨trivial, by rintro ⟨⟩⟩

omit [DecidableEq κ] [DecidableEq ι] in
/-- Nobody else ends the call of a thread. -/
theorem Frame.underway (h : Frame s t k) (hs : (s.pc k).Underway s.queue) :
    (t.pc k).Underway t.queue := by
  rw [h.pc]
  cases hpc : s.pc k with
  | pushing q next =>
      rw [hpc] at hs
      show (t.queue q).producer ≠ .idle
      rw [(h.output q ((N.mem_output k q).mp q.2)).1]
      exact hs
  | popping q next item =>
      rw [hpc] at hs
      show (t.queue q).consumer ≠ .idle
      rw [(h.input q ((N.mem_input k q).mp q.2)).1]
      exact hs
  | _ => trivial

variable [∀ q, NeZero (c q)]

omit [DecidableEq κ] [DecidableEq ι] in
theorem Underway.init (uninit : ∀ q, Fin (c q) → T q) : Underway (State.init K uninit) where
  call _ := trivial
  born _ hk _ := ⟨N.kernels, rfl, hk⟩

theorem Underway.step {a : Act κ} (hu : Underway s) (hi : Inv s) (h : s.step K a = some t) :
    Underway t := by
  cases a with
  | kernel k =>
      have hgood : Good K s t k := thread_good hi h
      obtain ⟨hcall, hborn⟩ := thread_underway h
      refine ⟨fun j => ?_, fun j hj hpc => ?_⟩
      · by_cases hjk : j = k
        · subst hjk
          exact hcall
        · exact (hgood.frame j hjk).underway (hu.call j)
      · have hjk : j ≠ k := by
          rintro rfl
          exact hborn hpc
        rw [hgood.start]
        exact hu.born j hj ((hgood.frame j hjk).pc.symm.trans hpc)
  | start =>
      simp only [State.step] at h
      have hno {start : Start κ} {term : κ → Bool} (hs : ∀ rest, s.start ≠ .spawning rest) :
          Underway { s with start := start, term := term } :=
        ⟨hu.call, fun j hj hpc => by
          obtain ⟨rest, hrest, -⟩ := hu.born j hj hpc
          exact absurd hrest (hs rest)⟩
      unfold State.startNext at h
      split at h
      · next k' rest hstart =>
          cases h
          refine ⟨fun j => ?_, fun j hj hpc => ?_⟩
          · show ((s.goto k' .loop).pc j).Underway s.queue
            by_cases hjk : j = k'
            · subst hjk
              rw [State.goto_pc]
              trivial
            · rw [State.goto_pc_of_ne s hjk]
              exact hu.call j
          · have hpc' : (s.goto k' .loop).pc j = .unborn := hpc
            have hjk : j ≠ k' := by
              rintro rfl
              rw [State.goto_pc] at hpc'
              cases hpc'
            rw [State.goto_pc_of_ne s hjk] at hpc'
            obtain ⟨rest', hrest', hmem⟩ := hu.born j hj hpc'
            rw [hstart] at hrest'
            cases hrest'
            exact ⟨rest, rfl, (List.mem_cons.mp hmem).resolve_left hjk⟩
      · next hstart =>
          cases h
          refine ⟨hu.call, fun j hj hpc => ?_⟩
          obtain ⟨rest, hrest, hmem⟩ := hu.born j hj hpc
          rw [hstart] at hrest
          cases hrest
          cases hmem
      · next hstart => cases h; exact hno (by rw [hstart]; rintro _ ⟨⟩)
      · next hstart => cases h; exact hno (by rw [hstart]; rintro _ ⟨⟩)
      · next hstart =>
          split at h
          · cases h; exact hno (by rw [hstart]; rintro _ ⟨⟩)
          · cases h
      · cases h

/-- Everything that holds in every run. -/
structure Whole (s : State N T M c) : Prop where
  inv : Inv s
  joined : Joined s
  underway : Underway s

omit [DecidableEq κ] [DecidableEq ι] in
theorem Whole.init (uninit : ∀ q, Fin (c q) → T q) : Whole (State.init K uninit) :=
  ⟨.init uninit, .init uninit, .init uninit⟩

theorem Whole.step {a : Act κ} (hw : Whole s) (h : s.step K a = some t) : Whole t :=
  ⟨(step_good hw.inv h).1, hw.joined.step hw.inv h, hw.underway.step hw.inv h⟩

theorem Whole.run {as : List (Act κ)} (hw : Whole s) (h : Run (ofFun (State.step K)) s as t) :
    Whole t :=
  h.invariant (fun _ _ _ hs hl => hs.step hl) hw

/-! ## Settling -/

/-- How many accesses are left of the increment that a thread is in. -/
def Pc.busy (queue : ∀ q, Spsc (T q) (c q)) {M : Type} {input output : List ι} :
    Pc ι T M c input output → Nat
  | .pushing q _ => IncPc.left (queue q).producer.incPc
  | .popping q _ _ => IncPc.left (queue q).consumer.incPc
  | _ => 0

omit [DecidableEq κ] [DecidableEq ι] [∀ q, NeZero (c q)] in
theorem Frame.busy_eq (h : Frame s t k) : (t.pc k).busy t.queue = (s.pc k).busy s.queue := by
  rw [h.pc]
  cases s.pc k with
  | pushing q next => rw [Pc.busy, Pc.busy, (h.output q ((N.mem_output k q).mp q.2)).1]
  | popping q next item => rw [Pc.busy, Pc.busy, (h.input q ((N.mem_input k q).mp q.2)).1]
  | _ => rfl

omit [∀ q, NeZero (c q)] in
theorem busy_step (hb : 0 < (s.pc k).busy s.queue) :
    ∃ t, s.thread K k = some t ∧ (t.pc k).busy t.queue < (s.pc k).busy s.queue := by
  cases hpc : s.pc k with
  | pushing q next =>
      rw [hpc] at hb
      obtain ⟨x, hx, hless⟩ := Spsc.produce_left hb
      refine ⟨_, by simp only [State.thread, hpc, hx, Option.map_some]; rfl, ?_⟩
      rw [State.put_pc]
      split
      · exact hb
      · rw [Pc.busy, State.put_queue]
        exact hless
  | popping q next item =>
      rw [hpc] at hb
      obtain ⟨x, hx, hless⟩ := Spsc.consume_left hb
      refine ⟨_, by simp only [State.thread, hpc, hx, Option.map_some]; rfl, ?_⟩
      rw [State.put_pc]
      split
      · cases (s.queue q).itemRead item with
        | none => exact hb
        | some v => exact hb
      · rw [Pc.busy, State.put_queue]
        exact hless
  | _ =>
      rw [hpc] at hb
      exact absurd hb (lt_irrefl 0)

/-- One thread completes its increment, and the others stay where they are. -/
theorem settles_one (hi : Inv s) (k : κ) : Leads (ofFun (State.step K)) s fun t =>
    Inv t ∧ (t.pc k).busy t.queue = 0 ∧ ∀ j, j ≠ k → (t.pc j).busy t.queue = (s.pc j).busy s.queue := by
  induction hn : (s.pc k).busy s.queue using Nat.strong_induction_on generalizing s with
  | _ n ih =>
      rcases Nat.eq_zero_or_pos n with rfl | hpos
      · exact .now ⟨hi, hn, fun _ _ => rfl⟩
      · obtain ⟨t, ht, hless⟩ := busy_step (K := K) (hn ▸ hpos)
        have hgood : Good K s t k := thread_good hi ht
        refine leads_kernel ht ((ih _ (hn ▸ hless) hgood.inv rfl).mono fun u hu => ?_)
        exact ⟨hu.1, hu.2.1, fun j hj => (hu.2.2 j hj).trans (hgood.frame j hj).busy_eq⟩

/-- **All threads complete their increments.** -/
theorem settles (hi : Inv s) (ks : List κ) : Leads (ofFun (State.step K)) s fun t =>
    Inv t ∧ ∀ k, k ∈ ks ∨ (s.pc k).busy s.queue = 0 → (t.pc k).busy t.queue = 0 := by
  induction ks generalizing s with
  | nil => exact .now ⟨hi, fun k hk => hk.resolve_left List.not_mem_nil⟩
  | cons k ks ih =>
      refine (settles_one hi k).trans fun t ht => ?_
      obtain ⟨hi', hk, hothers⟩ := ht
      refine (ih hi').mono fun u hu => ⟨hu.1, fun j hj => hu.2 j ?_⟩
      by_cases hjk : j = k
      · subst hjk
        exact .inr hk
      · rw [hothers j hjk]
        exact hj.imp_left fun hmem => (List.mem_cons.mp hmem).resolve_left hjk

/-- Nobody is moving a pointer. -/
def Settled (s : State N T M c) : Prop :=
  ∀ q, (s.queue q).producer.incPc = none ∧ (s.queue q).consumer.incPc = none

omit [DecidableEq κ] [DecidableEq ι] in
theorem settled_of_busy (hi : Inv s) (h : ∀ k, (s.pc k).busy s.queue = 0) : Settled s := by
  intro q
  constructor
  · by_cases hpush : (s.pc (N.src q)).pushes = some q
    · have hb := h (N.src q)
      cases hpc : s.pc (N.src q) with
      | pushing q' next =>
          rw [hpc] at hpush hb
          have hq : (q' : ι) = q := Option.some.inj hpush
          rw [← hq]
          exact IncPc.left_eq_zero hb
      | _ =>
          rw [hpc] at hpush
          cases hpush
    · rw [(hi.own _).producer q rfl hpush]
      rfl
  · by_cases hpop : (s.pc (N.dst q)).pops = some q
    · have hb := h (N.dst q)
      cases hpc : s.pc (N.dst q) with
      | popping q' next item =>
          rw [hpc] at hpop hb
          have hq : (q' : ι) = q := Option.some.inj hpop
          rw [← hq]
          exact IncPc.left_eq_zero hb
      | _ =>
          rw [hpc] at hpop
          cases hpop
    · rw [(hi.own _).consumer q rfl hpop]
      rfl

omit [DecidableEq κ] [DecidableEq ι] in
theorem Settled.sizeOnce (hs : Settled s) (hi : Inv s) (q : ι) :
    (s.queue q).buffer.sizeOnce = some (s.queue q).chan.held := by
  obtain ⟨R, hR⟩ := (hi.queue q).inv
  exact hR.sizeOnce (hs q).1 (hs q).2

/-! ## What the network can do, the threads can do -/

omit [DecidableEq κ] [DecidableEq ι] [∀ q, NeZero (c q)] in
theorem abs_ne (h : phase t.queue (t.finished k) (t.members k) (t.pc k) ≠
    phase s.queue (s.finished k) (s.members k) (s.pc k)) : t.abs ≠ s.abs :=
  fun he => h (congrFun (congrArg Kahn.State.proc he) k)

omit [DecidableEq κ] [DecidableEq ι] [∀ q, NeZero (c q)] in
theorem abs_ne_of_pushed {q : ι} (h : (s.queue q).pushed.length < (t.queue q).pushed.length) :
    t.abs ≠ s.abs := by
  intro he
  have hchan : (t.queue q).chan = (s.queue q).chan := congrFun (congrArg Kahn.State.chan he) q
  have hsent : (t.queue q).pushed = (s.queue q).pushed := congrArg Chan.sent hchan
  rw [hsent] at h
  exact lt_irrefl _ h

omit [DecidableEq κ] [DecidableEq ι] [∀ q, NeZero (c q)] in
theorem abs_ne_of_popped {q : ι} (h : (s.queue q).popped.length < (t.queue q).popped.length) :
    t.abs ≠ s.abs := by
  intro he
  have hchan : (t.queue q).chan = (s.queue q).chan := congrFun (congrArg Kahn.State.chan he) q
  have hgot : (t.queue q).popped.length = (s.queue q).popped.length := congrArg Chan.got hchan
  rw [hgot] at h
  exact lt_irrefl _ h

omit [DecidableEq κ] [DecidableEq ι] [∀ q, NeZero (c q)] in
theorem ready_iff_found :
    Ready (N.schedBehav k = .allPort) (N.input k) s.abs.chan ↔ Found s k (N.input k).attach := by
  unfold Ready Found
  cases N.schedBehav k with
  | anyPort =>
      constructor
      · rintro ⟨q, hq, hd⟩
        exact ⟨⟨q, hq⟩, List.mem_attach _ _, hd⟩
      · rintro ⟨q, -, hd⟩
        exact ⟨q, q.2, hd⟩
  | allPort =>
      constructor
      · exact fun h q _ => h q q.2
      · exact fun h q hq => h ⟨q, hq⟩ (List.mem_attach _ _)

section

variable {p : Phase ι T (M k) (N.input k) (N.output k)} {e : Option (Σ q, Kahn.Op (T q × RaftSignal))}

/-- A kernel that looks whether it can run finds out. -/
theorem moves_look (hw : Whole s) (hs : Settled s) (hl : Looking (s.pc k)) (hne : s.pc k ≠ .ended)
    (hf : Fires (room c) s.abs.chan (K.net.prog k (s.abs.proc k)) p e) :
    Leads (ofFun (State.step K)) s fun t => t.abs ≠ s.abs := by
  have hproc : s.abs.proc k = if s.finished k then .stopped (s.members k) else .loop (s.members k) :=
    hl.phase ..
  cases hfin : s.finished k with
  | true =>
      rw [hproc, hfin] at hf
      cases hf
  | false =>
      rw [hproc, hfin] at hf
      have hcan : (N.input k).isEmpty = true ∨ Found s k (N.input k).attach ∨
          (∀ q : PortOf (N.input k), (s.queue q).buffer.isValid = false) ∧
            ¬Found s k (N.input k).attach := by
        by_cases hempty : (N.input k).isEmpty = true
        · exact .inl hempty
        · have hf : Fires (room c) s.abs.chan (.await (N.schedBehav k = .allPort) (N.input k)
              (.run (K.run k (s.members k))) (.close (N.output k).attach (s.members k))) p e := by
            have hprog : K.net.prog k (.loop (s.members k)) = if (N.input k).isEmpty then _ else _ := rfl
            rw [if_neg hempty] at hprog
            rw [← hprog]
            exact hf
          cases hf with
          | data hr => exact .inr (.inl (ready_iff_found.mp hr))
          | ended hnr hc =>
              refine .inr (.inr ⟨fun q => ?_, fun hfound => hnr (ready_iff_found.mpr hfound)⟩)
              have hclosed : (!(s.queue q).buffer.isValid) = true := hc q q.2
              simpa using hclosed
      have hstill : phase s.queue (s.finished k) (s.members k) (s.pc k) = .loop (s.members k) := by
        rw [hl.phase, hfin]
        rfl
      have hlead := looks_decide (K := K) (G := fun t => t.abs ≠ s.abs)
        (fun q => hs.sizeOnce hw.inv q) hfin hcan (abs_ne (k := k) (by
          rw [State.goto_pc, hstill]
          rintro ⟨⟩)) (abs_ne (k := k) (by
          rw [State.goto_pc, hstill]
          show (if s.finished k then _ else _) ≠ _
          rw [hfin]
          rintro ⟨⟩)) hl hne
      rwa [goto_self] at hlead

/-- Where there is room, a push publishes its item. -/
theorem leads_pushed (hw : Whole s) (hs : Settled s) {q : PortOf (N.output k)}
    (next : Prog ι T (M k) (N.input k) (N.output k)) (hroom : ((s.queue q).chan.held : ℕ∞) < room c q)
    {prod : Producer (T q) (c q)} (hinc : prod.incPc = none) (hidle : prod ≠ .idle) :
    Leads (ofFun (State.step K)) (s.put k (.pushing q next) q { s.queue q with producer := prod })
      fun t => t.abs ≠ s.abs := by
  have hlt : (s.queue q).chan.held < c q := Nat.cast_lt.mp hroom
  refine leads_push (Spsc.publishes (x := { s.queue q with producer := prod })
    (hs.sizeOnce hw.inv q) hlt hinc hidle) fun x' hx' => ?_
  refine abs_ne_of_pushed (q := (q : ι)) ?_
  rw [State.put_queue]
  exact hx'

/-- Where there is data, a pop reads an item. -/
theorem leads_popped (hw : Whole s) (hs : Settled s) {q : PortOf (N.input k)}
    (next : T q × RaftSignal → Prog ι T (M k) (N.input k) (N.output k))
    (item : Option (T q × RaftSignal)) (hdata : (s.queue q).chan.HasData)
    {cons : Consumer (T q) (c q)} (hagain : ∀ pc, cons = .sizeAgain pc → pc.Exact (s.queue q).buffer)
    (hinc : cons.incPc = none) (hidle : cons ≠ .idle) :
    Leads (ofFun (State.step K)) (s.put k (.popping q next item) q { s.queue q with consumer := cons })
      fun t => t.abs ≠ s.abs := by
  refine leads_pop (Spsc.reads (x := { s.queue q with consumer := cons })
    (hs.sizeOnce hw.inv q) (hasData_iff_held_pos.mp hdata) hagain hinc hidle) fun x' item' hx' => ?_
  refine abs_ne_of_popped (q := (q : ι)) ?_
  rw [State.put_queue]
  exact hx'

/-- A `run()` goes on with what it does next. -/
theorem moves_run (hw : Whole s) (hs : Settled s) {r : Prog ι T (M k) (N.input k) (N.output k)}
    (hpc : s.pc k = .running r)
    (hf : Fires (room c) s.abs.chan (K.net.prog k (.run r)) p e) :
    Leads (ofFun (State.step K)) s fun t => t.abs ≠ s.abs := by
  have ho := hw.inv.own k
  cases r with
  | pop q next =>
      have hidle : (s.queue q).consumer = .idle :=
        ho.consumer q ((N.mem_input k q).mp q.2) (by rw [hpc]; rintro ⟨⟩)
      have hx : (s.queue q).step .pop = some { s.queue q with consumer := .size .wrapWrite } := by
        simp only [Spsc.step, hidle]
      cases hf with
      | recv hv =>
          refine leads_kernel (k := k) (by simp only [State.thread, hpc, hx, Option.map_some]; rfl)
            (leads_popped hw hs next none (List.getElem?_eq_some_iff.mp hv).1 ?_ ?_ ?_)
          · rintro _ ⟨⟩
          · rfl
          · rintro ⟨⟩
  | push q item next =>
      have hidle : (s.queue q).producer = .idle :=
        ho.producer q ((N.mem_output k q).mp q.2) (by rw [hpc]; rintro ⟨⟩)
      have hx : (s.queue q).step (.push item.1 item.2) =
          some { s.queue q with producer := .spaceAvail item .wrapWrite } := by
        simp only [Spsc.step, hidle]
      cases hf with
      | send _ hr =>
          refine leads_kernel (k := k) (by simp only [State.thread, hpc, hx, Option.map_some]; rfl)
            (leads_pushed hw hs next hr ?_ ?_)
          · rfl
          · rintro ⟨⟩
  | returns status m =>
      have hfin : s.finished k = false := ho.early (by rw [hpc]; rfl)
      refine leads_kernel (k := k) (by simp only [State.thread, hpc]; rfl) (.now (abs_ne (k := k) ?_))
      rw [hpc]
      show phase s.queue (s.finished k) _ ((s.goto k _).pc k) ≠ .run (.returns status m)
      rw [State.goto_pc, hfin]
      cases status <;> rintro ⟨⟩

omit [∀ q, NeZero (c q)] in
/-- A kernel that closes its outputs goes on. -/
theorem moves_close {last : Bool} {rest : List (PortOf (N.output k))}
    (hpc : s.pc k = .closing last rest) (hfin : s.finished k = false) :
    Leads (ofFun (State.step K)) s fun t => t.abs ≠ s.abs := by
  have hstill : phase s.queue (s.finished k) (s.members k) (s.pc k) = .close rest (s.members k) := by
    rw [hpc, hfin]
    rfl
  cases rest with
  | nil =>
      refine leads_kernel (k := k) (by simp only [State.thread, hpc]; rfl) (.now (abs_ne (k := k) ?_))
      rw [hstill]
      show phase s.queue (Function.update s.finished k true k) _ ((s.goto k _).pc k) ≠ _
      rw [State.goto_pc, Function.update_self]
      cases last <;> rintro ⟨⟩
  | cons q rest =>
      refine leads_kernel (k := k) (by simp only [State.thread, hpc]; rfl) (.now (abs_ne (k := k) ?_))
      rw [hstill]
      show phase _ (s.finished k) _ ((s.put k _ q _).pc k) ≠ _
      rw [State.put_pc, hfin]
      intro he
      have hlen := congrArg List.length (Phase.close.inj he).1
      rw [List.length_cons] at hlen
      exact absurd hlen (Nat.ne_of_lt (Nat.lt_succ_self _))

/-- **Where no pointer is on the move, a step of the network can be taken.** -/
theorem moves (hw : Whole s) (hs : Settled s) (hborn : s.pc k ≠ .unborn)
    (hf : Fires (room c) s.abs.chan (K.net.prog k (s.abs.proc k)) p e) :
    Leads (ofFun (State.step K)) s fun t => t.abs ≠ s.abs := by
  have ho := hw.inv.own k
  have hcall := hw.underway.call k
  have hknows := ho.knows
  have hproc : s.abs.proc k = phase s.queue (s.finished k) (s.members k) (s.pc k) := rfl
  have hlook (hl : Looking (s.pc k)) (hne : s.pc k ≠ .ended) :
      Leads (ofFun (State.step K)) s fun t => t.abs ≠ s.abs := moves_look hw hs hl hne hf
  cases hpc : s.pc k with
  | unborn => exact absurd hpc hborn
  | loop | data _ _ | size _ _ _ _ | ports _ =>
      rw [hpc] at hlook
      exact hlook ⟨by rintro ⟨⟩, rfl, rfl, rfl, fun _ _ _ => rfl⟩ (by rintro ⟨⟩)
  | running r =>
      rw [hproc, hpc] at hf
      exact moves_run hw hs hpc hf
  | pushing q next =>
      rw [hpc] at hcall
      rw [hproc, hpc] at hf
      have hf : Fires (room c) s.abs.chan
          (K.net.prog k (.push q next (s.queue q).producer.pending)) p e := hf
      have hinc := (hs q).1
      have hlead (hroom : ((s.queue q).chan.held : ℕ∞) < room c q) :
          Leads (ofFun (State.step K)) s fun t => t.abs ≠ s.abs := by
        have := leads_pushed (K := K) hw hs next hroom hinc hcall
        rwa [put_self hpc] at this
      have hpending : ∃ item, (s.queue q).producer.pending = [item] := by
        cases hp : (s.queue q).producer with
        | idle => exact absurd hp hcall
        | spaceAvail item _ | writeIndex item | storeItem item _ | storeSignal item _ => exact ⟨item, rfl⟩
        | inc item pc =>
            rw [hp] at hinc
            cases hinc
      obtain ⟨item, hitem⟩ := hpending
      rw [hitem] at hf
      cases hf with
      | send _ hr => exact hlead hr
  | popping q next item =>
      rw [hpc] at hcall hknows
      rw [hproc, hpc] at hf
      have hinc := (hs q).2
      have hread : item.isSome = (s.queue q).consumer.hasRead := hknows
      have hnone : item = none := by
        cases hp : (s.queue q).consumer with
        | inc pc =>
            rw [hp] at hinc
            cases hinc
        | _ =>
            rw [hp] at hread
            exact Option.isSome_eq_false_iff.mp hread |> Option.isNone_iff_eq_none.mp
      subst hnone
      have hf : Fires (room c) s.abs.chan (K.net.prog k (.run (.pop q next))) p e := hf
      cases hf with
      | recv hv =>
          have := leads_popped (K := K) hw hs next none
            (List.getElem?_eq_some_iff.mp hv).1 (fun pc hc => ((hw.inv.queue q).again pc hc).2) hinc hcall
          rwa [put_self hpc] at this
  | closing last rest =>
      cases hfin : s.finished k with
      | true =>
          rw [hproc, hpc, hfin] at hf
          cases hf
      | false => exact moves_close hpc hfin
  | ended =>
      rw [hproc, hpc, hw.joined.ended k hpc] at hf
      cases hf
  | failed r =>
      rw [hpc] at hknows
      rw [hproc, hpc] at hf
      obtain ⟨q, next, rfl, -, hno⟩ := hknows
      have hf : Fires (room c) s.abs.chan (K.net.prog k (.run (.pop q next))) p e := hf
      cases hf with
      | recv hv => exact absurd (List.getElem?_eq_some_iff.mp hv).1 hno

end

/-- All threads are spawned. -/
def Spawned (s : State N T M c) : Prop := ∀ rest, s.start ≠ .spawning rest

omit [∀ q, NeZero (c q)] in
theorem Spawned.step [∀ q, NeZero (c q)] {a : Act κ} (hs : Spawned s) (hi : Inv s)
    (h : s.step K a = some t) : Spawned t := by
  cases a with
  | kernel k =>
      have hgood : Good K s t k := thread_good hi h
      intro rest hrest
      exact hs rest (hgood.start.symm.trans hrest)
  | start =>
      simp only [State.step] at h
      unfold State.startNext at h
      split at h
      · next hstart => exact absurd hstart (hs _)
      · next hstart => exact absurd hstart (hs _)
      · next k rest keepGoing _ =>
          cases h
          intro rest' hrest'
          have hrest' : (if s.term k then _ else if s.finished k then _ else _) = Start.spawning rest' := hrest'
          split at hrest'
          · cases hrest'
          · split at hrest' <;> cases hrest'
      · next keepGoing _ =>
          cases h
          intro rest' hrest'
          have hrest' : (if keepGoing then _ else _) = Start.spawning rest' := hrest'
          split at hrest' <;> cases hrest'
      · split at h
        · cases h
          rintro _ ⟨⟩
        · cases h
      · cases h

theorem Spawned.run {as : List (Act κ)} (hs : Spawned s) (hw : Whole s)
    (h : Run (ofFun (State.step K)) s as t) : Spawned t :=
  (h.invariant (I := fun t => Whole t ∧ Spawned t)
    (fun _ _ _ h hl => ⟨h.1.step hl, h.2.step h.1.inv hl⟩) ⟨hw, hs⟩).2

omit [DecidableEq κ] [DecidableEq ι] in
/-- No thread that `start` has still to spawn is left. -/
theorem Spawned.born (hs : Spawned s) (hw : Whole s) (hk : k ∈ N.kernels) : s.pc k ≠ .unborn := by
  intro hpc
  obtain ⟨rest, hrest, -⟩ := hw.underway.born k hk hpc
  exact hs rest hrest

omit [∀ q, NeZero (c q)] in
theorem leads_start {G : State N T M c → Prop} (h : s.startNext = some t)
    (hG : Leads (ofFun (State.step K)) t G) : Leads (ofFun (State.step K)) s G :=
  .next (show ofFun (State.step K) s .start t from h) hG

omit [∀ q, NeZero (c q)] in
theorem leads_spawned (s : State N T M c) : Leads (ofFun (State.step K)) s Spawned := by
  have hspawn (rest : List κ) (s : State N T M c) (hs : s.start = .spawning rest) :
      Leads (ofFun (State.step K)) s Spawned := by
    induction rest generalizing s with
    | nil =>
        refine leads_start (t := { s with start := .pass N.kernels false }) ?_ (.now (by rintro _ ⟨⟩))
        simp only [State.startNext, hs]
    | cons k rest ih =>
        refine leads_start (t := { s.goto k .loop with start := .spawning rest }) ?_ (ih _ rfl)
        simp only [State.startNext, hs]
  by_cases hs : Spawned s
  · exact .now hs
  · simp only [Spawned, not_forall, not_not] at hs
    obtain ⟨rest, hrest⟩ := hs
    exact hspawn rest s hrest

/-- **What the network can do next, the threads can bring about**, that or something else of it. -/
theorem advances (hw : Whole s) (hs : Spawned s) (hkernels : ∀ k, k ∈ N.kernels)
    {u : NetState N T M} (hstep : K.net.Step (room c) s.abs k u) :
    Leads (ofFun (State.step K)) s fun t => t.abs ≠ s.abs := by
  obtain ⟨ls, t, hrun, -, hbusy⟩ := settles (K := K) hw.inv N.kernels
  have hsettled : Settled t :=
    settled_of_busy (hw.run hrun).inv fun k => hbusy k (.inl (hkernels k))
  by_cases hsame : t.abs = s.abs
  · have hborn : t.pc k ≠ .unborn := (hs.run hw hrun).born (hw.run hrun) (hkernels k)
    rw [← hsame] at hstep ⊢
    obtain ⟨p, e, hf, -⟩ := hstep
    exact .after hrun (moves (hw.run hrun) hsettled hborn hf)
  · exact ⟨ls, t, hrun, hsame⟩

/-- What a kernel is about when it has no more calls of `run()` before it. -/
def Phase.Closing {M : Type} {input output : List ι} : Phase ι T M input output → Prop
  | .close _ _ | .stopped _ => True
  | .loop _ | .run _ => False

omit [DecidableEq κ] [DecidableEq ι] [∀ q, NeZero (c q)] in
theorem lastWait (K : Kernels N T M) : K.net.LastWait fun _ => Phase.Closing where
  ended {k p qs data ended} hprog := by
    cases p with
    | loop m =>
        have hprog : (if (N.input k).isEmpty then Instr.skip (.run (K.run k m))
          else .await (N.schedBehav k = .allPort) (N.input k) (.run (K.run k m))
            (.close (N.output k).attach m)) = .await true qs data ended := hprog
        split at hprog
        · cases hprog
        · obtain ⟨-, -, -, rfl⟩ := Instr.await.inj hprog
          trivial
    | run r =>
        cases r with
        | returns status m => cases status <;> cases hprog
        | pop q next | push q item next => cases hprog
    | close rest m => cases rest <;> cases hprog
    | stopped m => cases hprog
  silent {k p} hp := by
    cases p with
    | loop m | run r => cases hp
    | close rest m => cases rest <;> trivial
    | stopped m => trivial

/-- **The threads can bring a network without cycles to its end.** -/
theorem leads_halted (F : Forest N.src N.dst) (hkernels : ∀ k, k ∈ N.kernels) {s₀ u : NetState N T M} {ks : List κ}
    (hend : Run (K.net.Step ⊤) s₀ ks u) (hhalt : ∀ k, K.net.Halted u k)
    (hpopped : ∀ q, ¬(u.chan q).HasData) (hw : Whole s) (hs : Spawned s) {ls : List κ}
    (hrun : Run (K.net.Step (room c)) s₀ ls s.abs) :
    Leads (ofFun (State.step K)) s fun t => Whole t ∧ Spawned t ∧ t.abs = u := by
  have : Fintype κ := ⟨N.kernels.toFinset, fun k => List.mem_toFinset.mpr (hkernels k)⟩
  have hroom (q : ι) : 0 < room c q := by
    rw [room]
    exact_mod_cast Nat.pos_of_ne_zero (NeZero.ne (c q))
  have hbound {ls : List κ} {t : NetState N T M} (ht : Run (K.net.Step (room c)) s₀ ls t) :
      ls.length ≤ ks.length :=
    (K.net.commuting ⊤).length_le (Net.run_mono le_top ht) hend (Net.stuck_of_halted hhalt)
  obtain ⟨n, hn⟩ : ∃ n, ks.length = ls.length + n := ⟨_, (Nat.add_sub_cancel' (hbound hrun)).symm⟩
  -- by how many steps of the network are left
  induction n using Nat.strong_induction_on generalizing s ls with
  | _ n ih =>
      obtain ⟨ls', hrest⟩ := Net.completes_of_forest F (lastWait K) hroom hend hhalt hpopped hrun
      generalize habs : s.abs = a at hrest
      cases hrest with
      | nil => exact .now ⟨hw, hs, habs⟩
      | cons hstep _ =>
          subst habs
          obtain ⟨as, t, hreach, hne⟩ := advances hw hs hkernels hstep
          obtain ⟨-, ks', hks'⟩ := run_refines hreach hw.inv
          have hpos : 0 < ks'.length := by
            refine List.length_pos_iff.mpr ?_
            rintro rfl
            exact hne hks'.eq_of_nil
          have hrun' := hrun.append hks'
          have hle := hbound hrun'
          have hlen : (ls ++ ks').length = ls.length + ks'.length := List.length_append
          exact .after hreach
            (ih (n - ks'.length) (by omega) (hw.run hreach) (hs.run hw hreach) hrun' (by omega))

/-! ## Leaving the loops -/

omit [∀ q, NeZero (c q)] in
/-- The outputs of a kernel that is finished are closed once more, to no effect. -/
theorem leads_closing {G : State N T M c → Prop} {last : Bool} {rest : List (PortOf (N.output k))}
    (hfin : s.finished k = true) (hclosed : ∀ q, N.src q = k → (s.queue q).buffer.isValid = false)
    (hG : Leads (ofFun (State.step K))
      (s.goto k (if last then .loop else .ports (N.input k).attach)) G) :
    Leads (ofFun (State.step K)) (s.goto k (.closing last rest)) G := by
  induction rest with
  | nil =>
      refine leads_goto _ ?_ hG
      have hset : Function.update s.finished k true = s.finished := by
        rw [← hfin, Function.update_eq_self]
      have hfinished (pc : Pc ι T (M k) c (N.input k) (N.output k)) :
          (s.goto k pc).finished = s.finished := rfl
      simp only [State.thread, State.goto_pc, goto_goto, hfinished, hset]
      rfl
  | cons q rest ih =>
      refine leads_goto _ ?_ ih
      have hqueue (pc : Pc ι T (M k) c (N.input k) (N.output k)) : (s.goto k pc).queue = s.queue := rfl
      have hsame : (s.queue q).step .invalidate = some (s.queue q) := by
        have hv := hclosed q ((N.mem_output k q).mp q.2)
        simp only [Spsc.step]
        rw [← hv]
      simp only [State.thread, State.goto_pc, hqueue, hsame, Option.map_some, State.put, goto_goto,
        Function.update_eq_self]
      rfl

/-- **A thread whose kernel is finished leaves its loop**, wherever it is. -/
theorem leads_ended (hw : Whole s) (hborn : s.pc k ≠ .unborn) (hfin : s.finished k = true)
    (hs : Settled s) :
    Leads (ofFun (State.step K)) s fun t => t = s.goto k .ended := by
  have ho := hw.inv.own k
  have hloop : Leads (ofFun (State.step K)) (s.goto k .loop) fun t => t = s.goto k .ended := by
    refine leads_goto .ended ?_ (.now rfl)
    have hfin' : (s.goto k .loop).finished k = true := hfin
    simp only [State.thread, State.goto_pc, hfin', if_true]
  have hclosing (last : Bool) (rest : List (PortOf (N.output k)))
      (hports : Leads (ofFun (State.step K)) (s.goto k (.ports (N.input k).attach))
        fun t => t = s.goto k .ended) :
      Leads (ofFun (State.step K)) (s.goto k (.closing last rest)) fun t => t = s.goto k .ended := by
    refine leads_closing hfin (ho.closed hfin) ?_
    cases last with
    | false => exact hports
    | true => exact hloop
  have hclose : Leads (ofFun (State.step K)) (s.goto k (.closing true (N.output k).attach))
      fun t => t = s.goto k .ended := leads_closing hfin (ho.closed hfin) hloop
  have hend : Leads (ofFun (State.step K)) (s.goto k (s.hasInputData K k true))
      fun t => t = s.goto k .ended := by
    unfold State.hasInputData
    split
    · exact hloop
    · refine leads_scan (fun q => hs.sizeOnce hw.inv q) fun b hb => ?_
      cases b with
      | false => exact hclose
      | true => exact hloop
  have hports : Leads (ofFun (State.step K)) (s.goto k (.ports (N.input k).attach))
      fun t => t = s.goto k .ended := leads_ports (fun _ _ _ => hloop) hend
  have hlook (hl : Looking (s.pc k)) (hne : s.pc k ≠ .ended) :
      Leads (ofFun (State.step K)) s fun t => t = s.goto k .ended := by
    have := leads_look (fun q => hs.sizeOnce hw.inv q) hl hne hloop hend (fun hearly => by
      rw [ho.early hearly] at hfin
      cases hfin) hclose
    rwa [goto_self] at this
  have hnot (hearly : (s.pc k).early = true) : False := by
    rw [ho.early hearly] at hfin
    cases hfin
  cases hpc : s.pc k with
  | unborn => exact absurd hpc hborn
  | loop | data _ _ | size _ _ _ _ | ports _ =>
      rw [hpc] at hlook
      exact hlook ⟨by rintro ⟨⟩, rfl, rfl, rfl, fun _ _ _ => rfl⟩ (by rintro ⟨⟩)
  | running _ | pushing _ _ | popping _ _ _ | failed _ =>
      rw [hpc] at hnot
      exact (hnot rfl).elim
  | closing last rest =>
      have := hclosing last rest hports
      rwa [← hpc, goto_self] at this
  | ended =>
      refine .now ?_
      rw [← hpc, goto_self]

omit [DecidableEq κ] [DecidableEq ι] [∀ q, NeZero (c q)] in
/-- A kernel that is at its end is finished, and pushes and pops nothing. -/
theorem Halted.done (h : K.net.Halted s.abs k) :
    s.finished k = true ∧ (s.pc k).pushes = none ∧ (s.pc k).pops = none := by
  have hprog : K.net.prog k (phase s.queue (s.finished k) (s.members k) (s.pc k)) = .halt := h
  have hrun (p : Prog ι T (M k) (N.input k) (N.output k)) : K.net.prog k (.run p) ≠ .halt := by
    cases p with
    | returns status m => cases status <;> rintro ⟨⟩
    | pop q next | push q item next => rintro ⟨⟩
  have hfin {p : Phase ι T (M k) (N.input k) (N.output k)} (hp : K.net.prog k p ≠ .halt)
      (hprog : K.net.prog k (if s.finished k then .stopped (s.members k) else p) = .halt) :
      s.finished k = true := by
    by_contra hf
    rw [if_neg hf] at hprog
    exact hp hprog
  have hloop (m : M k) : K.net.prog k (.loop m) ≠ .halt := by
    show (if (N.input k).isEmpty then Instr.skip _ else .await _ _ _ _) ≠ .halt
    split <;> rintro ⟨⟩
  cases hpc : s.pc k with
  | running p | failed p =>
      rw [hpc] at hprog
      exact absurd hprog (hrun p)
  | pushing q next =>
      rw [hpc] at hprog
      have hpush : K.net.prog k (.push q next (s.queue q).producer.pending) = .halt := hprog
      cases hp : (s.queue q).producer.pending with
      | nil =>
          rw [hp] at hpush
          exact absurd hpush (hrun next)
      | cons item items =>
          rw [hp] at hpush
          exact absurd hpush (hrun (.push q item next))
  | popping q next item =>
      rw [hpc] at hprog
      have hpop : K.net.prog k (.pop q next item) = .halt := hprog
      cases item with
      | none => exact absurd hpop (hrun (.pop q next))
      | some v => exact absurd hpop (hrun (next v))
  | closing last rest =>
      rw [hpc] at hprog
      have hclose : K.net.prog k (.close rest (s.members k)) ≠ .halt := by cases rest <;> rintro ⟨⟩
      exact ⟨hfin hclose hprog, rfl, rfl⟩
  | unborn | loop | data _ _ | size _ _ _ _ | ports _ | ended =>
      rw [hpc] at hprog
      exact ⟨hfin (hloop _) hprog, rfl, rfl⟩

/-- All threads end, one after the other, while the network stays at its end. -/
theorem leads_all_ended (hkernels : ∀ k, k ∈ N.kernels) (hw : Whole s) (hs : Spawned s)
    (hhalt : ∀ k, K.net.Halted s.abs k) (ks : List κ) :
    Leads (ofFun (State.step K)) s fun t => Whole t ∧ Spawned t ∧ t.abs = s.abs ∧
      ∀ k, k ∈ ks ∨ s.pc k = .ended → t.pc k = .ended := by
  induction ks generalizing s with
  | nil => exact .now ⟨hw, hs, rfl, fun k hk => hk.resolve_left List.not_mem_nil⟩
  | cons k ks ih =>
      have hsettled : Settled s := by
        intro q
        rw [(hw.inv.own _).producer q rfl (by rw [(Halted.done (hhalt _)).2.1]; rintro ⟨⟩),
          (hw.inv.own _).consumer q rfl (by rw [(Halted.done (hhalt _)).2.2]; rintro ⟨⟩)]
        exact ⟨rfl, rfl⟩
      obtain ⟨as, _, hrun, rfl⟩ := leads_ended (K := K) hw (hs.born hw (hkernels k))
        (Halted.done (hhalt k)).1 hsettled
      have habs : (s.goto k .ended).abs = s.abs := by
        obtain ⟨-, ks', hks'⟩ := run_refines hrun hw.inv
        exact ((Net.stuck_of_halted hhalt).run_nil hks').2
      refine .after hrun ((ih (hw.run hrun) (hs.run hw hrun) fun j => ?_).mono fun u hu => ?_)
      · rw [habs]
        exact hhalt j
      · obtain ⟨hw', hs', habs', hall⟩ := hu
        refine ⟨hw', hs', habs'.trans habs, fun j hj => hall j ?_⟩
        by_cases hjk : j = k
        · subst hjk
          exact .inr (State.goto_pc ..)
        · rw [State.goto_pc_of_ne s hjk]
          exact hj.imp_left fun hmem => (List.mem_cons.mp hmem).resolve_left hjk

omit [∀ q, NeZero (c q)] in
/-- **`start` joins threads that have ended, and returns.** -/
theorem leads_returned (hs : Spawned s) (hend : ∀ k, s.pc k = .ended)
    (hfin : ∀ k, s.finished k = true) :
    Leads (ofFun (State.step K)) s fun t => t.start = .returned := by
  -- over one pass, whatever has been joined before
  have hpass (rest : List κ) (keepGoing : Bool) (term : κ → Bool)
      (hG : ∀ term, Leads (ofFun (State.step K)) { s with start := .pass [] keepGoing, term := term }
        fun t => t.start = .returned) :
      Leads (ofFun (State.step K)) { s with start := .pass rest keepGoing, term := term }
        fun t => t.start = .returned := by
    induction rest generalizing term with
    | nil => exact hG term
    | cons k rest ih =>
        by_cases hterm : term k = true
        · refine leads_start (t := { s with start := .pass rest keepGoing, term := term }) ?_
            (ih term)
          simp only [State.startNext, hterm, if_true]
        · refine leads_start (t := { s with start := .joining k rest keepGoing, term := term }) ?_
            (leads_start (t := { s with
              start := .pass rest keepGoing, term := Function.update term k true }) ?_ (ih _))
          · simp only [State.startNext, hterm, hfin k, if_true, Bool.false_eq_true, if_false]
          · simp only [State.startNext, hend k]
  have hlast (term : κ → Bool) : Leads (ofFun (State.step K)) { s with start := .pass [] false, term := term }
      fun t => t.start = .returned := by
    refine leads_start (t := { s with start := .returned, term := term }) ?_ (.now rfl)
    simp only [State.startNext, Bool.false_eq_true, if_false]
  have hagain (keepGoing : Bool) (term : κ → Bool) :
      Leads (ofFun (State.step K)) { s with start := .pass [] keepGoing, term := term }
        fun t => t.start = .returned := by
    cases keepGoing with
    | false => exact hlast term
    | true =>
        refine leads_start (t := { s with start := .pass N.kernels false, term := term }) ?_
          (hpass N.kernels false term hlast)
        simp only [State.startNext, if_true]
  cases hstart : s.start with
  | spawning rest => exact absurd hstart (hs rest)
  | returned => exact .now hstart
  | pass rest keepGoing =>
      have := hpass rest keepGoing s.term (hagain keepGoing)
      rwa [← hstart] at this
  | joining k rest keepGoing =>
      refine leads_start (t := { s with
        start := .pass rest keepGoing, term := Function.update s.term k true }) ?_
        (hpass rest keepGoing _ (hagain keepGoing))
      simp only [State.startNext, hstart, hend k]

/-- **Graphs without cycles come to their end.** Let the kernels, one after the other and each by
itself, come to theirs with everything popped. Then from wherever their threads have got, `start` can
still return. -/
theorem returns_of_forest {uninit : ∀ q, Fin (c q) → T q} (F : Forest N.src N.dst)
    (hkernels : ∀ k, k ∈ N.kernels) {fuel : Nat}
    {order : List κ} (hnodup : order.Nodup) (hall : ∀ k, k ∈ order) {m : ∀ k, M k} {C : Chans T}
    (hseq : K.sequential fuel order K.init (fun _ => {}) = some (m, C))
    (hpopped : ∀ q, (C q).got = (C q).sent.length) {as : List (Act κ)}
    (h : Run (ofFun (State.step K)) (State.init K uninit) as s) :
    Leads (ofFun (State.step K)) s fun t => t.start = .returned := by
  obtain ⟨ks, u, hend, rfl, hproc⟩ := sequential_halts uninit hnodup hall hseq
  have hhalt (k : κ) : K.net.Halted u k := by
    rw [Net.Halted, hproc]
    rfl
  have hno (q : ι) : ¬(u.chan q).HasData := (hpopped q).symm.le.not_gt
  have hw : Whole s := (Whole.init uninit).run h
  obtain ⟨as₁, t₁, hrun₁, hspawned⟩ := leads_spawned (K := K) s
  have hw₁ := hw.run hrun₁
  obtain ⟨-, ls, hls⟩ := run_refines (h.append hrun₁) (Inv.init uninit)
  obtain ⟨as₂, t₂, hrun₂, hw₂, hs₂, habs⟩ :=
    leads_halted F hkernels hend hhalt hno hw₁ hspawned hls
  subst habs
  obtain ⟨as₃, t₃, hrun₃, hw₃, hs₃, habs₃, hended⟩ :=
    leads_all_ended (K := K) hkernels hw₂ hs₂ hhalt N.kernels
  refine .after hrun₁ (.after hrun₂ (.after hrun₃ (leads_returned hs₃ (fun k => ?_) fun k => ?_)))
  · exact hended k (.inl (hkernels k))
  · exact hw₃.joined.ended k (hended k (.inl (hkernels k)))

end

/-- The source is the root. -/
def pipeForest : Forest pipe.src pipe.dst where
  up k := if k then some () else none
  depth k := if k then 1 else 0
  isUp _ := .inr ⟨rfl, Nat.zero_lt_one⟩

theorem returns_of_forest_adder :
    ∃ s : State pipe (fun _ => Nat) (fun _ => Nat) fun _ => 1, (s.queue ()).pushed = [] ∧
      Leads (ofFun (State.step adder)) s fun t => t.start = .returned := by
  have hall (k : Bool) : k ∈ pipe.kernels := by cases k <;> decide
  obtain ⟨s, h, hs⟩ : ∃ s : State pipe (fun _ => Nat) (fun _ => Nat) fun _ => 1,
      Run (ofFun (State.step adder)) (State.init adder fun _ _ => 0)
        (.start :: List.replicate 8 (.kernel false)) s ∧ (s.queue ()).pushed = [] :=
    exists_run_of_any (by decide)
  obtain ⟨⟨m, C⟩, hseq, hpopped⟩ : ∃ r, adder.sequential 4 [false, true] adder.init (fun _ => {}) =
      some r ∧ ∀ q, (r.2 q).got = (r.2 q).sent.length :=
    ⟨_, rfl, fun _ => rfl⟩
  exact ⟨s, hs, returns_of_forest pipeForest hall (by decide) (by decide) hseq hpopped h⟩

end RaftLib.Threads.SimpleSchedule
