/-
# `RaftLib.Threads.Progress` -- what one thread can do while the others stand still

A `size()` of which some loads are old may answer wrongly, but while nobody moves a pointer a fresh one
does not (`SizeCall.exact`). So a thread that goes on alone finds out whether its kernel can run
(`looks_decide`); if there is room it publishes what it pushes (`Spsc.publishes`), and if there is data
it reads what it pops (`Spsc.reads`).
-/
import RaftLib.Threads.Determinacy

namespace RaftLib.Threads

open RaftLib.Queue
open RaftLib.Logic
open RaftLib.Logic.Kahn
open RaftLib.Logic.Steps

/-! ## Pointers at rest -/

section

variable {T : Type} {c : Nat}

/-- How many accesses of an increment are left at most. -/
def IncPc.left : Option (IncPc c) → Nat
  | some .loadA => 5
  | some (.storeA _) => 4
  | some .testA => 3
  | some .loadWrap => 2
  | some (.storeWrap _) => 1
  | none => 0

theorem IncPc.left_step (ptr : Pointer c) (pc : IncPc c) :
    IncPc.left (pc.step ptr).2 < IncPc.left (some pc) := by
  cases pc with
  | testA =>
      show IncPc.left (if (ptr.a : Nat) = 0 then some .loadWrap else none) < 3
      split
      · exact Nat.lt_succ_self 2
      · exact Nat.zero_lt_succ 2
  | loadA | storeA _ | loadWrap | storeWrap _ => exact Nat.lt_succ_self _

theorem IncPc.left_eq_zero {o : Option (IncPc c)} (h : IncPc.left o = 0) : o = none := by
  cases o with
  | none => rfl
  | some pc => cases pc <;> cases h

/-- After its last load `size` returns or starts over. -/
theorem SizePc.restarts {b : Data T c} {ww wr : Nat} {w : Fin c} {pc : SizePc c}
    (h : (SizePc.rpt ww wr w).step b = .inl pc) : pc = .wrapWrite := by
  simp only [SizePc.step] at h
  split at h
  · cases h
  · exact (Sum.inl.inj h).symm

/-- A caller of `size` on the buffer `b` goes on from load to load; `inside` is how it stands. -/
def SizeCall {σ ℓ : Type*} (step : σ → ℓ → σ → Prop) (b : Data T c) (inside : SizePc c → σ) : Prop :=
  ∀ pc pc', pc.step b = .inl pc' → ∃ l, step (inside pc) l (inside pc')

namespace SizeCall

variable {σ ℓ : Type*} {step : σ → ℓ → σ → Prop} {b : Data T c} {inside : SizePc c → σ} {G : σ → Prop}
  {pc pc' : SizePc c} {m : Nat}

theorem next (hcall : SizeCall step b inside) (h : pc.step b = .inl pc')
    (hG : Leads step (inside pc') G) : Leads step (inside pc) G := by
  obtain ⟨l, hl⟩ := hcall pc pc' h
  exact .next hl hG

/-- A call that has loaded only what is still there, in particular a fresh one, answers right. -/
theorem exact (hcall : SizeCall step b inside) (hm : b.sizeOnce = some m) (hpc : pc.Exact b)
    (hG : ∀ pc, pc.step b = .inr m → Leads step (inside pc) G) : Leads step (inside pc) G := by
  have hlast {ww wr : Nat} {w : Fin c} (h : (SizePc.rpt ww wr w).Exact b) :
      Leads step (inside (.rpt ww wr w)) G := by
    refine hG _ ?_
    rw [SizePc.alone b h.1 h.2.1 h.2.2, hm]
  cases pc with
  | wrapWrite => exact hcall.next rfl (hcall.next rfl (hcall.next rfl (hlast ⟨rfl, rfl, rfl⟩)))
  | wrapRead ww => exact hcall.next rfl (hcall.next rfl (hlast ⟨hpc, rfl, rfl⟩))
  | wpt ww wr => exact hcall.next rfl (hlast ⟨hpc.1, hpc.2, rfl⟩)
  | rpt ww wr w => exact hlast hpc

/-- One that was begun before comes back with some answer, perhaps from a second pass. -/
theorem comesBack (hcall : SizeCall step b inside) (hm : b.sizeOnce = some m)
    (hG : ∀ n pc, pc.step b = .inr n → Leads step (inside pc) G) : Leads step (inside pc) G := by
  have hlast (ww wr : Nat) (w : Fin c) : Leads step (inside (.rpt ww wr w)) G := by
    cases h : (SizePc.rpt ww wr w).step b with
    | inr n => exact hG n _ h
    | inl pc' =>
        obtain rfl := SizePc.restarts h
        exact hcall.next h (hcall.exact hm trivial (hG m))
  cases pc with
  | wrapWrite => exact hcall.exact hm trivial (hG m)
  | wrapRead ww => exact hcall.next rfl (hcall.next rfl (hlast ..))
  | wpt ww wr => exact hcall.next rfl (hlast ..)
  | rpt ww wr w => exact hlast ww wr w

end SizeCall

/-- While no pointer moves, `size` counts right. -/
theorem Spsc.Inv.sizeOnce [NeZero c] {x : Spsc T c} {R : Nat} (h : x.Inv R)
    (hprod : x.producer.incPc = none) (hcons : x.consumer.incPc = none) :
    x.buffer.sizeOnce = some x.chan.held := by
  have hread := h.read
  have hwrite := h.write
  have hle := h.le
  have hfull := h.full
  rw [hcons] at hread
  rw [hprod] at hwrite
  have hahead : x.consumer.ahead = 0 := by
    cases hc : x.consumer with
    | inc pc =>
        rw [hc] at hcons
        cases hcons
    | _ => rfl
  have hlen := h.popped_length
  rw [hahead, Nat.add_zero] at hlen
  have hheld : x.chan.held = x.pushed.length - R := by rw [← hlen]; rfl
  rw [hheld]
  apply Data.sizeOnce_eq
  · rw [hwrite.pos_eq, hread.pos_eq]
    omega
  · omega

namespace Spsc

variable {x : Spsc T c} {n : Nat}

/-- The producer goes on with its push, which is not over yet. -/
def Pushing (x : Spsc T c) (_ : Unit) (x' : Spsc T c) : Prop :=
  x.produce = some x' ∧ x'.producer ≠ .idle

/-- The consumer goes on with its pop, which is not over yet. -/
def Popping (x : Spsc T c) (_ : Unit) (x' : Spsc T c) : Prop :=
  x.consume = some x' ∧ x'.consumer ≠ .idle

theorem leads_pushing {x' : Spsc T c} {G : Spsc T c → Prop} (hG : Leads Pushing x' G)
    (h : x.produce = some x') (hidle : x'.producer ≠ .idle) : Leads Pushing x G :=
  .next (l := ()) ⟨h, hidle⟩ hG

theorem leads_popping {x' : Spsc T c} {G : Spsc T c → Prop} (hG : Leads Popping x' G)
    (h : x.consume = some x') (hidle : x'.consumer ≠ .idle) : Leads Popping x G :=
  .next (l := ()) ⟨h, hidle⟩ hG

/-- An increment goes on, and at least one access less is left. -/
theorem produce_left (h : 0 < IncPc.left x.producer.incPc) :
    ∃ x', x.produce = some x' ∧ IncPc.left x'.producer.incPc < IncPc.left x.producer.incPc := by
  cases hp : x.producer with
  | inc item pc =>
      refine ⟨_, by simp only [produce, hp]; rfl, ?_⟩
      rw [Producer.incPc_after]
      exact IncPc.left_step x.buffer.writePt pc
  | idle | spaceAvail _ _ | writeIndex _ | storeItem _ _ | storeSignal _ _ =>
      rw [hp] at h
      exact absurd h (lt_irrefl 0)

theorem consume_left (h : 0 < IncPc.left x.consumer.incPc) :
    ∃ x', x.consume = some x' ∧ IncPc.left x'.consumer.incPc < IncPc.left x.consumer.incPc := by
  cases hp : x.consumer with
  | inc pc =>
      refine ⟨_, by simp only [consume, hp]; rfl, ?_⟩
      rw [Consumer.incPc_after]
      exact IncPc.left_step x.buffer.readPt pc
  | idle | size _ | isInvalid | sizeAgain _ | readIndex | readSignal _ | readItem _ _ =>
      rw [hp] at h
      exact absurd h (lt_irrefl 0)

/-- **A push into a queue with a free place publishes its item.** -/
theorem publishes (hn : x.buffer.sizeOnce = some n) (hroom : n < c) (hinc : x.producer.incPc = none)
    (hidle : x.producer ≠ .idle) : Leads Pushing x fun x' => x.pushed.length < x'.pushed.length := by
  obtain ⟨buffer, producer, consumer, pushed, popped⟩ := x
  have hsignal (b : Data T c) (item : T × RaftSignal) (i : Fin c) :
      Leads Pushing ⟨b, .storeSignal item i, consumer, pushed, popped⟩
        fun x' => pushed.length < x'.pushed.length := by
    refine .next (l := ()) ⟨rfl, by rintro ⟨⟩⟩ (.next (l := ()) ⟨rfl, by rintro ⟨⟩⟩
      (.next (l := ()) ⟨rfl, by rintro ⟨⟩⟩ (.now ?_)))
    show pushed.length < (pushed ++ [item]).length
    rw [List.length_append]
    exact Nat.lt_succ_self _
  have hitem (item : T × RaftSignal) (i : Fin c) :
      Leads Pushing ⟨buffer, .storeItem item i, consumer, pushed, popped⟩
        fun x' => pushed.length < x'.pushed.length :=
    .next (l := ()) ⟨rfl, by rintro ⟨⟩⟩ (hsignal _ item i)
  have hindex (item : T × RaftSignal) :
      Leads Pushing ⟨buffer, .writeIndex item, consumer, pushed, popped⟩
        fun x' => pushed.length < x'.pushed.length :=
    .next (l := ()) ⟨rfl, by rintro ⟨⟩⟩ (hitem item _)
  have hcall (item : T × RaftSignal) :
      SizeCall Pushing buffer fun pc => ⟨buffer, .spaceAvail item pc, consumer, pushed, popped⟩ :=
    fun pc pc' h => ⟨(), by simp only [produce, h], by rintro ⟨⟩⟩
  have hfresh (item : T × RaftSignal) :
      Leads Pushing ⟨buffer, .spaceAvail item .wrapWrite, consumer, pushed, popped⟩
        fun x' => pushed.length < x'.pushed.length :=
    (hcall item).exact hn trivial fun pc hpc =>
      leads_pushing (hindex item) (by simp only [produce, hpc, if_pos (Nat.sub_pos_of_lt hroom)]) (by rintro ⟨⟩)
  cases producer with
  | idle => exact absurd rfl hidle
  | spaceAvail item pc =>
      refine (hcall item).comesBack hn fun m pc hpc => ?_
      by_cases hm : 0 < c - m
      · exact leads_pushing (hindex item) (by simp only [produce, hpc, if_pos hm]) (by rintro ⟨⟩)
      · exact leads_pushing (hfresh item) (by simp only [produce, hpc, if_neg hm]) (by rintro ⟨⟩)
  | writeIndex item => exact hindex item
  | storeItem item i => exact hitem item i
  | storeSignal item i => exact hsignal _ item i
  | inc item pc => cases hinc

/-- **A pop from a queue that has data reads an item.** -/
theorem reads (hn : x.buffer.sizeOnce = some n) (hdata : 0 < n)
    (hagain : ∀ pc, x.consumer = .sizeAgain pc → pc.Exact x.buffer)
    (hinc : x.consumer.incPc = none) (hidle : x.consumer ≠ .idle) :
    Leads Popping x fun x' => x.popped.length < x'.popped.length := by
  obtain ⟨buffer, producer, consumer, pushed, popped⟩ := x
  have hitem (i : Fin c) (signal : RaftSignal) :
      Leads Popping ⟨buffer, producer, .readItem i signal, pushed, popped⟩
        fun x' => popped.length < x'.popped.length := by
    refine .next (l := ()) ⟨rfl, by rintro ⟨⟩⟩ (.now ?_)
    show popped.length < (popped ++ [(buffer.store i, signal)]).length
    rw [List.length_append]
    exact Nat.lt_succ_self _
  have hsignal (i : Fin c) :
      Leads Popping ⟨buffer, producer, .readSignal i, pushed, popped⟩
        fun x' => popped.length < x'.popped.length :=
    .next (l := ()) ⟨rfl, by rintro ⟨⟩⟩ (hitem i _)
  have hindex :
      Leads Popping ⟨buffer, producer, .readIndex, pushed, popped⟩
        fun x' => popped.length < x'.popped.length :=
    .next (l := ()) ⟨rfl, by rintro ⟨⟩⟩ (hsignal _)
  have hcall : SizeCall Popping buffer fun pc => ⟨buffer, producer, .size pc, pushed, popped⟩ :=
    fun pc pc' h => ⟨(), by simp only [consume, h], by rintro ⟨⟩⟩
  have hcall' : SizeCall Popping buffer fun pc => ⟨buffer, producer, .sizeAgain pc, pushed, popped⟩ :=
    fun pc pc' h => ⟨(), by simp only [consume, h], by rintro ⟨⟩⟩
  have hfresh :
      Leads Popping ⟨buffer, producer, .size .wrapWrite, pushed, popped⟩
        fun x' => popped.length < x'.popped.length :=
    hcall.exact hn trivial fun pc hpc =>
      leads_popping hindex (by simp only [consume, hpc, if_pos hdata]) (by rintro ⟨⟩)
  -- the last look before the exception finds what is there
  have hlast {pc : SizePc c} (hpc : pc.Exact buffer) :
      Leads Popping ⟨buffer, producer, .sizeAgain pc, pushed, popped⟩
        fun x' => popped.length < x'.popped.length :=
    hcall'.exact hn hpc fun pc hpc =>
      leads_popping hfresh (by simp only [consume, hpc, if_neg hdata.ne']) (by rintro ⟨⟩)
  have hinvalid :
      Leads Popping ⟨buffer, producer, .isInvalid, pushed, popped⟩
        fun x' => popped.length < x'.popped.length := by
    by_cases hv : buffer.isValid = true
    · exact leads_popping hfresh (by simp only [consume, if_pos hv]) (by rintro ⟨⟩)
    · exact leads_popping (hlast (show SizePc.Exact buffer .wrapWrite from trivial))
        (by simp only [consume, if_neg hv]) (by rintro ⟨⟩)
  cases consumer with
  | idle => exact absurd rfl hidle
  | size pc =>
      refine hcall.comesBack hn fun m pc hpc => ?_
      by_cases hm : 0 < m
      · exact leads_popping hindex (by simp only [consume, hpc, if_pos hm]) (by rintro ⟨⟩)
      · exact leads_popping hinvalid (by simp only [consume, hpc, if_neg hm]) (by rintro ⟨⟩)
  | isInvalid => exact hinvalid
  | sizeAgain pc => exact hlast (hagain pc rfl)
  | readIndex => exact hindex
  | readSignal i => exact hsignal i
  | readItem i signal => exact hitem i signal
  | inc pc => cases hinc

end Spsc

end

namespace SimpleSchedule

open PoolSchedule (Net SchedBehav)

variable {κ ι : Type} {T : ι → Type} {M : κ → Type} {c : ι → Nat} {N : Net κ ι}
  [DecidableEq κ] [DecidableEq ι] {K : Kernels N T M} {s t : State N T M c} {k : κ}
  {G : State N T M c → Prop}

/-! ## One thread alone: the looks -/

omit [DecidableEq ι] in
theorem goto_goto (s : State N T M c) (pc pc' : Pc ι T (M k) c (N.input k) (N.output k)) :
    (s.goto k pc).goto k pc' = s.goto k pc' := by
  simp only [State.goto, Function.update_idem]

omit [DecidableEq ι] in
theorem goto_self (s : State N T M c) : s.goto k (s.pc k) = s := by
  simp only [State.goto, Function.update_eq_self]

theorem leads_kernel (h : s.thread K k = some t) (hG : Leads (ofFun (State.step K)) t G) :
    Leads (ofFun (State.step K)) s G :=
  .next (show ofFun (State.step K) s (.kernel k) t from h) hG

/-- The thread of `k` goes on from one place to the other. -/
theorem leads_goto {pc : Pc ι T (M k) c (N.input k) (N.output k)}
    (pc' : Pc ι T (M k) c (N.input k) (N.output k))
    (h : (s.goto k pc).thread K k = some ((s.goto k pc).goto k pc'))
    (hG : Leads (ofFun (State.step K)) (s.goto k pc') G) :
    Leads (ofFun (State.step K)) (s.goto k pc) G := by
  refine leads_kernel h ?_
  rw [goto_goto]
  exact hG

section

variable {again : Bool} {q : PortOf (N.input k)} {rest : List (PortOf (N.input k))}

/-- The looks of `kernelHasInputData`. -/
theorem sizeCall_look :
    SizeCall (ofFun (State.step K)) (s.queue q).buffer fun pc => s.goto k (.size again q rest pc) := by
  intro pc pc' h
  refine ⟨.kernel k, ?_⟩
  show (s.goto k (.size again q rest pc)).thread K k = _
  have hqueue : (s.goto k (.size again q rest pc)).queue = s.queue := rfl
  simp only [State.thread, State.goto_pc, hqueue, h, goto_goto]

/-- The last load of `size()`. -/
theorem leads_answer {pc : SizePc (c q)} {n : Nat} (h : pc.step (s.queue q).buffer = .inr n)
    (hG : Leads (ofFun (State.step K)) (s.goto k (s.looked K k again rest n)) G) :
    Leads (ofFun (State.step K)) (s.goto k (.size again q rest pc)) G := by
  refine leads_goto _ ?_ hG
  have hqueue : (s.goto k (.size again q rest pc)).queue = s.queue := rfl
  simp only [State.thread, State.goto_pc, hqueue, h]
  rfl

end

/-- What `kernelHasInputData` finds at the ports of `rest`. -/
def Found (s : State N T M c) (k : κ) (rest : List (PortOf (N.input k))) : Prop :=
  match N.schedBehav k with
  | .anyPort => ∃ q ∈ rest, (s.queue q).chan.HasData
  | .allPort => ∀ q ∈ rest, (s.queue q).chan.HasData

omit [DecidableEq κ] [DecidableEq ι] in
theorem hasData_iff_held_pos {q : ι} : (s.queue q).chan.HasData ↔ 0 < (s.queue q).chan.held :=
  Nat.sub_pos_iff_lt.symm

section

variable {again : Bool} (hrest : ∀ q : PortOf (N.input k),
  (s.queue q).buffer.sizeOnce = some (s.queue q).chan.held)

include hrest in
/-- **A fresh pass over the ports answers right.** -/
theorem leads_scan {rest : List (PortOf (N.input k))}
    (hG : ∀ b : Bool, (b = true ↔ Found s k rest) →
      Leads (ofFun (State.step K)) (s.goto k (s.answer K k again b)) G) :
    Leads (ofFun (State.step K)) (s.goto k (.data again rest)) G := by
  induction rest with
  | nil =>
      refine leads_goto (s.answer K k again (N.schedBehav k = .allPort))
        (by simp only [State.thread, State.goto_pc]; rfl) (hG _ ?_)
      unfold Found
      cases N.schedBehav k with
      | anyPort => simp
      | allPort => simp
  | cons q rest ih =>
      refine leads_goto (.size again q rest .wrapWrite)
        (by simp only [State.thread, State.goto_pc])
        (sizeCall_look.exact (hrest q) trivial fun pc hpc => leads_answer hpc ?_)
      have hdata := hasData_iff_held_pos (s := s) (q := (q : ι))
      unfold State.looked
      unfold Found at hG ih
      cases hb : N.schedBehav k with
      | anyPort =>
          simp only [hb] at hG ih ⊢
          split
          · next hn =>
              refine hG true ⟨fun _ => ⟨q, List.mem_cons_self .., hdata.mpr hn⟩, fun _ => rfl⟩
          · next hn =>
              refine ih fun b hiff => hG b (hiff.trans ⟨?_, ?_⟩)
              · rintro ⟨q', hq', hd⟩
                exact ⟨q', List.mem_cons_of_mem q hq', hd⟩
              · rintro ⟨q', hq', hd⟩
                rcases List.mem_cons.mp hq' with rfl | hq'
                · exact absurd (hdata.mp hd) hn
                · exact ⟨q', hq', hd⟩
      | allPort =>
          simp only [hb] at hG ih ⊢
          split
          · next hn =>
              refine hG false ⟨by rintro ⟨⟩, fun hall => ?_⟩
              have hpos := hdata.mp (hall q (List.mem_cons_self ..))
              rw [hn] at hpos
              exact absurd hpos (lt_irrefl 0)
          · next hn =>
              refine ih fun b hiff => hG b (hiff.trans ⟨fun hall q' hq' => ?_, fun hall q' hq' => ?_⟩)
              · rcases List.mem_cons.mp hq' with rfl | hq'
                · exact hdata.mpr (Nat.pos_of_ne_zero hn)
                · exact hall q' hq'
              · exact hall q' (List.mem_cons_of_mem q hq')

end

/-- `kernelHasNoInputPorts` finds a valid port, or none. -/
theorem leads_ports {rest : List (PortOf (N.input k))}
    (hloop : ∀ q ∈ rest, (s.queue q).buffer.isValid = true →
      Leads (ofFun (State.step K)) (s.goto k .loop) G)
    (hend : Leads (ofFun (State.step K)) (s.goto k (s.hasInputData K k true)) G) :
    Leads (ofFun (State.step K)) (s.goto k (.ports rest)) G := by
  induction rest with
  | nil =>
      refine leads_goto (s.hasInputData K k true) ?_ hend
      simp only [State.thread, State.goto_pc]
      rfl
  | cons q rest ih =>
      by_cases hv : (s.queue q).buffer.isValid = true
      · refine leads_goto .loop ?_ (hloop q (List.mem_cons_self ..) hv)
        have hqueue : (s.goto k (.ports (q :: rest))).queue = s.queue := rfl
        simp only [State.thread, State.goto_pc, hqueue, hv, if_true]
      · refine leads_goto (.ports rest) ?_
          (ih fun q' hq' => hloop q' (List.mem_cons_of_mem q hq'))
        have hqueue : (s.goto k (.ports (q :: rest))).queue = s.queue := rfl
        simp only [State.thread, State.goto_pc, hqueue, hv, if_false, Bool.false_eq_true]

/-- The head of the loop of a kernel that is not finished. -/
theorem leads_loop (hfin : s.finished k = false)
    (hG : Leads (ofFun (State.step K)) (s.goto k (s.hasInputData K k false)) G) :
    Leads (ofFun (State.step K)) (s.goto k .loop) G := by
  refine leads_goto (s.hasInputData K k false) ?_ hG
  have hf : (s.goto k .loop).finished k = false := hfin
  simp only [State.thread, State.goto_pc, hf, if_false, Bool.false_eq_true]
  rfl

section

variable (hrest : ∀ q : PortOf (N.input k),
  (s.queue q).buffer.sizeOnce = some (s.queue q).chan.held)

include hrest in
/-- Wherever the looks of a thread stand, they come to the head of its loop, to the second call of
`kernelHasInputData`, to the end, or from an early place to a `run()`. -/
theorem leads_look {pc : Pc ι T (M k) c (N.input k) (N.output k)} (hpc : Looking pc)
    (hne : pc ≠ .ended) (hloop : Leads (ofFun (State.step K)) (s.goto k .loop) G)
    (hend : Leads (ofFun (State.step K)) (s.goto k (s.hasInputData K k true)) G)
    (hrun : pc.early = true →
      Leads (ofFun (State.step K)) (s.goto k (.running (K.run k (s.members k)))) G)
    (hclose : Leads (ofFun (State.step K)) (s.goto k (.closing true (N.output k).attach)) G) :
    Leads (ofFun (State.step K)) (s.goto k pc) G := by
  have hports (rest : List (PortOf (N.input k))) :
      Leads (ofFun (State.step K)) (s.goto k (.ports rest)) G :=
    leads_ports (fun _ _ _ => hloop) hend
  have hanswer (again b : Bool) (hfirst : again = false → pc.early = true) :
      Leads (ofFun (State.step K)) (s.goto k (s.answer K k again b)) G := by
    cases again with
    | false =>
        cases b with
        | false => exact hports _
        | true => exact hrun (hfirst rfl)
    | true =>
        cases b with
        | false => exact hclose
        | true => exact hloop
  have hdata (again : Bool) (hfirst : again = false → pc.early = true)
      (rest : List (PortOf (N.input k))) :
      Leads (ofFun (State.step K)) (s.goto k (.data again rest)) G :=
    leads_scan hrest fun b _ => hanswer again b hfirst
  cases pc with
  | loop => exact hloop
  | data again rest =>
      exact hdata again (by rintro rfl; rfl) rest
  | size again q rest pc =>
      refine sizeCall_look.comesBack (hrest q) fun n pc hn => leads_answer hn ?_
      unfold State.looked
      split
      · split
        · exact hanswer again true (by rintro rfl; rfl)
        · exact hdata again (by rintro rfl; rfl) rest
      · split
        · exact hanswer again false (by rintro rfl; rfl)
        · exact hdata again (by rintro rfl; rfl) rest
  | ports rest => exact hports rest
  | unborn => exact absurd rfl hpc.born
  | ended => exact absurd rfl hne
  | pushing q next => cases hpc.pushes
  | popping q next item => cases hpc.pops
  | closing last rest => cases hpc.isClosing
  | running p => cases hpc.phase s.queue true (s.members k)
  | failed p => cases hpc.phase s.queue true (s.members k)

include hrest in
/-- **A kernel that can be called is called, and one whose input is over is done.** -/
theorem looks_decide (hfin : s.finished k = false)
    (hcan : (N.input k).isEmpty = true ∨ Found s k (N.input k).attach ∨
      (∀ q : PortOf (N.input k), (s.queue q).buffer.isValid = false) ∧
        ¬Found s k (N.input k).attach)
    (hrun : G (s.goto k (.running (K.run k (s.members k)))))
    (hclose : G (s.goto k (.closing true (N.output k).attach)))
    {pc : Pc ι T (M k) c (N.input k) (N.output k)} (hpc : Looking pc) (hne : pc ≠ .ended) :
    Leads (ofFun (State.step K)) (s.goto k pc) G := by
  by_cases hempty : (N.input k).isEmpty = true
  · have hcall (again : Bool) : s.hasInputData K k again = s.answer K k again true := if_pos hempty
    have hloop : Leads (ofFun (State.step K)) (s.goto k .loop) G :=
      leads_loop hfin (by rw [hcall]; exact .now hrun)
    refine leads_look hrest hpc hne hloop ?_ (fun _ => .now hrun) (.now hclose)
    rw [hcall]
    exact hloop
  · have hcall (again : Bool) : s.hasInputData K k again = .data again (N.input k).attach :=
      if_neg hempty
    rcases hcan.resolve_left hempty with hfound | ⟨hclosed, hno⟩
    · have hloop : Leads (ofFun (State.step K)) (s.goto k .loop) G := by
        refine leads_loop hfin ?_
        rw [hcall]
        refine leads_scan hrest fun b hb => ?_
        rw [hb.mpr hfound]
        exact .now hrun
      refine leads_look hrest hpc hne hloop ?_ (fun _ => .now hrun) (.now hclose)
      rw [hcall]
      refine leads_scan hrest fun b hb => ?_
      rw [hb.mpr hfound]
      exact hloop
    · have hfalse {b : Bool} (hb : b = true ↔ Found s k (N.input k).attach) : b = false := by
        by_contra hb'
        exact hno (hb.mp (by simpa using hb'))
      have hend : Leads (ofFun (State.step K)) (s.goto k (s.hasInputData K k true)) G := by
        rw [hcall]
        refine leads_scan hrest fun b hb => ?_
        rw [hfalse hb]
        exact .now hclose
      refine leads_look hrest hpc hne (leads_loop hfin ?_) hend (fun _ => .now hrun) (.now hclose)
      rw [hcall]
      refine leads_scan hrest fun b hb => ?_
      rw [hfalse hb]
      refine leads_ports (fun q _ hv => ?_) hend
      rw [hclosed q] at hv
      cases hv

end

/-! ## One thread alone: push and pop -/

section

variable {q : ι} {pc pc' : Pc ι T (M k) c (N.input k) (N.output k)} {x x' : Spsc (T q) (c q)}

theorem put_put : (s.put k pc q x).put k pc' q x' = s.put k pc' q x' := by
  simp only [State.put, State.goto, Function.update_idem]

theorem put_self (h : s.pc k = pc) : s.put k pc q (s.queue q) = s := by
  subst h
  simp only [State.put, State.goto, Function.update_eq_self]

end

/-- What the producer of a queue can do, the thread that is in a push can do. -/
theorem leads_push {q : PortOf (N.output k)} {next : Prog ι T (M k) (N.input k) (N.output k)}
    {x : Spsc (T q) (c q)} {H : Spsc (T q) (c q) → Prop} (h : Leads Spsc.Pushing x H)
    (hG : ∀ x', H x' → G (s.put k (.pushing q next) q x')) :
    Leads (ofFun (State.step K)) (s.put k (.pushing q next) q x) G := by
  obtain ⟨ls, x', hrun, hx'⟩ := h
  induction hrun with
  | nil x => exact .now (hG x hx')
  | @cons x y _ _ _ hstep _ ih =>
      obtain ⟨hprod, hidle⟩ := hstep
      have hbusy : y.producer.isIdle = false := by
        by_contra hb
        exact hidle (Producer.eq_idle (by simpa using hb))
      refine leads_kernel (k := k) (t := s.put k (.pushing q next) q y) ?_ (ih hx')
      simp only [State.thread, State.put_pc, State.put_queue, hprod, Option.map_some, hbusy, put_put,
        Bool.false_eq_true, if_false]

/-- What the consumer of a queue can do, the thread that is in a pop can do. -/
theorem leads_pop {q : PortOf (N.input k)}
    {next : T q × RaftSignal → Prog ι T (M k) (N.input k) (N.output k)}
    {item : Option (T q × RaftSignal)} {x : Spsc (T q) (c q)} {H : Spsc (T q) (c q) → Prop}
    (h : Leads Spsc.Popping x H) (hG : ∀ x' item, H x' → G (s.put k (.popping q next item) q x')) :
    Leads (ofFun (State.step K)) (s.put k (.popping q next item) q x) G := by
  obtain ⟨ls, x', hrun, hx'⟩ := h
  induction hrun generalizing item with
  | nil x => exact .now (hG x item hx')
  | @cons x y _ _ _ hstep _ ih =>
      obtain ⟨hcons, hidle⟩ := hstep
      have hbusy : y.consumer.isIdle = false := by
        by_contra hb
        exact hidle (Consumer.eq_idle (by simpa using hb))
      refine leads_kernel (k := k) (t := s.put k (.popping q next (x.itemRead item)) q y) ?_ (ih hx')
      simp only [State.thread, State.put_pc, State.put_queue, hcons, Option.map_some, hbusy, put_put,
        Bool.false_eq_true, if_false]

end SimpleSchedule

end RaftLib.Threads
