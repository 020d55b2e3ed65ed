/-
# `RaftLib.Threads.Handshake` -- when a resize has the queue to itself

The handshake works as long as the flag that a call raised stands in the buffer that the monitor
looks at. `enterBuffer` loads the pointer and stores the flag in two steps, so it may not: a resize
in between leaves the store to a deleted buffer. `KeepsFlags` lists the three things that must not
happen to it, and `Careful` one more, which is about the statistics; each is a condition on the state
before one kind of step. In a run that keeps the flags the monitor replaces the buffer only while no
call is inside (`State.Inv`), and no careful step touches a deleted buffer.

What a step of a thread can do is said once, in `Thread.Effect`; what a step of the monitor does
depends on where it stands, and the invariant is stated by its places.
-/
import RaftLib.Threads.Resize
import RaftLib.Logic.Steps

namespace RaftLib.Threads

open RaftLib.Queue
open RaftLib.Logic.Steps

/-! ## The conditions -/

/-- What the handshake needs of a thread. A call that finds `resizing` down has its flag up in the
buffer that `thread_access` leads to; and only the call that ends it lowers the flag of an earlier call
that is still inside. -/
structure Thread.KeepsFlags (dm : DataManager) (t : Thread) : Prop where
  check : ∀ yes no, t.pc = .at (.notResizing yes no) → dm.resizing = false →
    (dm.heap dm.threadAccess).threadAccess.flag t.op.key = true
  exit : ∀ p k, t.pc = .flag false p k → t.op.releases = false → t.held t.op.key = false

/-- What a thread must be careful about: besides, the statistics are updated while the first buffer is
there. -/
structure Thread.Careful (dm : DataManager) (t : Thread) : Prop extends t.KeepsFlags dm where
  stats : t.updatesStats = true → (dm.heap 0).alive = true

/-- The thread is not between a successful check and the matching exit, under any key. -/
def Thread.Outside (t : Thread) : Prop := (∀ k, t.busy k = false) ∧ t.insideSize = false

/-- What must not go wrong with the flags at a step, and that a buffer is deleted only when no thread
outside the handshake has a pointer to it left. -/
def KeepsFlags (s : State) : Act → Prop
  | .producer => s.producer.KeepsFlags s.dm
  | .consumer => s.consumer.KeepsFlags s.dm
  | .monitor => ∀ old, s.monitor = .deleteOld old →
      (s.producer.Outside → s.producer.pointer ≠ some old) ∧
        (s.consumer.Outside → s.consumer.pointer ≠ some old)
  | _ => True

/-- What must not go wrong at a step: the threads are careful, and a buffer is deleted only when no
thread outside the handshake has a pointer to it left. -/
def Careful (s : State) : Act → Prop
  | .producer => s.producer.Careful s.dm
  | .consumer => s.consumer.Careful s.dm
  | .monitor => ∀ old, s.monitor = .deleteOld old →
      (s.producer.Outside → s.producer.pointer ≠ some old) ∧
        (s.consumer.Outside → s.consumer.pointer ≠ some old)
  | _ => True

theorem Careful.keepsFlags {s : State} {act : Act} (h : Careful s act) : KeepsFlags s act := by
  cases act with
  | producer | consumer => exact h.toKeepsFlags
  | monitor => exact h
  | produce | consume | resize | exitAlloc => trivial

/-! ### They can be computed -/

instance Thread.decidableClear (t : Thread) : Decidable (∀ k, t.busy k = false) :=
  decidable_of_iff ((t.busy .allocate || t.busy .allocateRange || t.busy .push || t.busy .recycle ||
    t.busy .pop || t.busy .peek || t.busy .size) = false)
    ⟨fun h k => by simp only [Bool.or_eq_false_iff] at h; cases k <;> simp [h], fun h => by simp [h]⟩

instance (t : Thread) : Decidable t.Outside := inferInstanceAs (Decidable (_ ∧ _))

/-- `Thread.Careful`, by the place where the thread stands. -/
def Thread.careful (dm : DataManager) (t : Thread) : Bool :=
  match t.pc with
  | .at (.notResizing _ _) => dm.resizing || (dm.heap dm.threadAccess).threadAccess.flag t.op.key
  | .flag false _ _ => t.op.releases || !t.held t.op.key
  | .access _ .stats _ _ | .at (.stats _) => (dm.heap 0).alive
  | _ => true

theorem Thread.careful_iff {dm : DataManager} {t : Thread} : t.careful dm = true ↔ t.Careful dm := by
  constructor
  · intro h
    unfold Thread.careful at h
    refine ⟨⟨fun yes no hpc hres => ?_, fun p k hpc hrel => ?_⟩, fun hstats => ?_⟩
    · simpa [hpc, hres] using h
    · simpa [hpc, hrel] using h
    · unfold Thread.updatesStats at hstats
      split at hstats <;> simp_all
  · rintro ⟨⟨hcheck, hexit⟩, hstats⟩
    unfold Thread.careful
    unfold Thread.updatesStats at hstats
    split
    · next yes no hpc =>
        cases hres : dm.resizing with
        | true => rfl
        | false => exact hcheck yes no hpc hres
    · next p k hpc =>
        cases hrel : t.op.releases with
        | true => rfl
        | false => simp [hexit p k hpc hrel]
    · next hpc => exact hstats (by rw [hpc])
    · next hpc => exact hstats (by rw [hpc])
    · rfl

instance (dm : DataManager) (t : Thread) : Decidable (t.Careful dm) :=
  decidable_of_iff _ Thread.careful_iff

instance (s : State) : (act : Act) → Decidable (Careful s act)
  | .producer => inferInstanceAs (Decidable (s.producer.Careful s.dm))
  | .consumer => inferInstanceAs (Decidable (s.consumer.Careful s.dm))
  | .monitor =>
      match hm : s.monitor with
      | .deleteOld old =>
          decidable_of_iff ((s.producer.Outside → s.producer.pointer ≠ some old) ∧
            (s.consumer.Outside → s.consumer.pointer ≠ some old))
            ⟨fun h _ ho => by rw [hm] at ho; cases ho; exact h, fun h => h old hm⟩
      | .idle | .isResizeable _ | .newBuffer _ | .getOld _ | .checkExit _ _ | .cancelDelete _
      | .cancelFlag | .setResizing _ _ | .readProducer _ _ | .readConsumer _ _ | .readSize _ _
      | .buffercondition _ _ | .backOff _ _ | .copyPointers _ _ | .copyValid _ _ | .copyArrays _ _
      | .copyProducer _ _ | .copyConsumer _ _ | .setBuffer _ _ | .setResizeable _ _
      | .setThreadAccess _ _ | .clearResizing =>
          .isTrue fun _ ho => by rw [hm] at ho; cases ho
  | .produce _ | .consume _ | .resize _ | .exitAlloc => .isTrue trivial

/-- The buffers that a step reads or writes. -/
def State.touching (s : State) : Act → List BufId
  | .producer => s.producer.touching.toList
  | .consumer => s.consumer.touching.toList
  | .monitor => s.monitor.touching s.dm
  | _ => []

/-! ## What a step of a thread can do -/

/-- Two states of the data manager that differ in no flag, no pointer and no life. -/
structure DataManager.Same (dm dm' : DataManager) : Prop where
  buffer : dm'.buffer = dm.buffer
  threadAccess : dm'.threadAccess = dm.threadAccess
  resizing : dm'.resizing = dm.resizing
  next : dm'.next = dm.next
  alive : ∀ q, (dm'.heap q).alive = (dm.heap q).alive
  flag : ∀ q, (dm'.heap q).threadAccess = (dm.heap q).threadAccess

theorem DataManager.Same.refl (dm : DataManager) : dm.Same dm :=
  ⟨rfl, rfl, rfl, rfl, fun _ => rfl, fun _ => rfl⟩

/-- A change to one buffer that leaves its flags and its life. -/
theorem DataManager.same_onBuf (dm : DataManager) (p : BufId) {f : Buf → Buf}
    (halive : ∀ b, (f b).alive = b.alive) (hflag : ∀ b, (f b).threadAccess = b.threadAccess) :
    dm.Same (dm.onBuf p f) := by
  refine ⟨rfl, rfl, rfl, rfl, fun q => ?_, fun q => ?_⟩
  · by_cases hq : q = p
    · simp [DataManager.onBuf, hq, halive]
    · simp [DataManager.onBuf, hq]
  · by_cases hq : q = p
    · simp [DataManager.onBuf, hq, hflag]
    · simp [DataManager.onBuf, hq]

theorem Action.run_same (a : Action) (p : BufId) (dm : DataManager) (r : Regs) :
    dm.Same (a.run p dm r).1 := by
  cases a with
  | readCap | readValid | touch | stats => exact DataManager.Same.refl dm
  | incWrite | incWriteBy | incRead | storeForce _ | invalidate =>
      simp only [Action.run]
      exact dm.same_onBuf p (fun _ => rfl) fun _ => rfl

theorem Action.run_checkingSize (a : Action) (p : BufId) (dm : DataManager) (r : Regs) :
    (a.run p dm r).1.checkingSize = dm.checkingSize := by
  cases a <;> rfl

/-- The flag `k` that the monitor would see. -/
def DataManager.up (dm : DataManager) (k : AccessKey) : Bool :=
  (dm.heap dm.threadAccess).threadAccess.flag k

/-- **What a step of a thread can do** to the handshake: it changes no flag but its own, keeps count
of `size`, takes a pointer only from the data manager, gets inside only while nobody is resizing,
and if careful has its flag up where the monitor looks. -/
structure Thread.Effect (dm dm' : DataManager) (t t' : Thread) : Prop where
  buffer : dm'.buffer = dm.buffer
  threadAccess : dm'.threadAccess = dm.threadAccess
  resizing : dm'.resizing = dm.resizing
  next : dm'.next = dm.next
  alive : ∀ q, (dm'.heap q).alive = (dm.heap q).alive
  flags : ∀ q k, k ≠ t.op.key →
    (dm'.heap q).threadAccess.flag k = (dm.heap q).threadAccess.flag k
  op : t'.op = t.op
  count : dm'.checkingSize + t.counted = dm.checkingSize + t'.counted
  pointer : ∀ p, t'.pointer = some p → t.pointer = some p ∨ p = dm.buffer ∨ p = dm.threadAccess
  busy : ∀ k, t'.busy k = true → t.busy k = true ∨
    (dm.resizing = false ∧ ∃ yes no, t.pc = .at (.notResizing yes no) ∧ k = t.op.key)
  insideSize : t'.insideSize = true → t.insideSize = true ∨ dm.resizing = false
  raised : t.KeepsFlags dm → (∀ k, t.busy k = true → dm.up k = true) →
    ∀ k, t'.busy k = true → dm'.up k = true

/-- A step that leaves the flags and the record of the thread alone. -/
theorem Thread.Effect.of_same {dm dm' : DataManager} {t t' : Thread} (h : dm.Same dm')
    (hsize : dm'.checkingSize = dm.checkingSize) (hop : t'.op = t.op)
    (hin : t'.inside = t.inside) (hheld : t'.held = t.held) (hcount : t'.counted = t.counted)
    (hptr : ∀ p, t'.pointer = some p → t.pointer = some p ∨ p = dm.buffer ∨ p = dm.threadAccess)
    (hins : t'.insideSize = true → t.insideSize = true ∨ dm.resizing = false) :
    Thread.Effect dm dm' t t' := by
  have hbusy : ∀ k, t'.busy k = t.busy k := fun k => by rw [Thread.busy, Thread.busy, hin, hheld]
  refine ⟨h.buffer, h.threadAccess, h.resizing, h.next, h.alive, fun q k _ => by rw [h.flag], hop,
    by rw [hsize, hcount], hptr, fun k hk => .inl (hbusy k ▸ hk), hins, fun _ hup k hk => ?_⟩
  rw [DataManager.up, h.threadAccess, h.flag]
  exact hup k (hbusy k ▸ hk)

section Effects

variable {dm dm' : DataManager} {t t' : Thread}

/-- A store of a flag makes nobody busier. -/
theorem Thread.flagged_busy {val : Bool} {k : Code} {j : AccessKey}
    (h : (t.flagged val k).busy j = true) : t.busy j = true := by
  cases val with
  | true => exact h
  | false =>
      by_cases hkey : j = t.op.key
      · cases hr : t.op.releases
        · simp only [Thread.flagged, Thread.busy, hr, hkey, Function.update_self, Bool.false_or,
            Bool.false_eq_true, if_false] at h ⊢
          rw [h, Bool.or_true]
        · simp [Thread.flagged, Thread.busy, hr, hkey] at h
      · cases hr : t.op.releases
        · simpa [Thread.flagged, Thread.busy, hr, hkey] using h
        · simpa [Thread.flagged, Thread.busy, hr, hkey] using h

/-- Whoever lowers a flag with care is not busy under its key any more. -/
theorem Thread.flagged_key (hcare : t.op.releases = false → t.held t.op.key = false) (k : Code) :
    (t.flagged false k).busy t.op.key = false := by
  cases hr : t.op.releases with
  | false => simp [Thread.flagged, Thread.busy, hr, hcare hr]
  | true => simp [Thread.flagged, Thread.busy, hr]

/-- The store of `enterBuffer` or `exitBuffer`. -/
theorem Thread.effect_flag {val : Bool} {p : BufId} {k : Code} (hpc : t.pc = .flag val p k) :
    Thread.Effect dm
      (dm.onBuf p fun b => { b with threadAccess := b.threadAccess.set t.op.key val }) t
      (t.flagged val k) := by
  have hflag : ∀ q j, j ≠ t.op.key →
      ((dm.onBuf p fun b => { b with threadAccess := b.threadAccess.set t.op.key val }).heap
        q).threadAccess.flag j = (dm.heap q).threadAccess.flag j := by
    intro q j hj
    by_cases hq : q = p
    · simp [DataManager.onBuf, hq, hj]
    · simp [DataManager.onBuf, hq]
  have halive : ∀ q, ((dm.onBuf p fun b =>
      { b with threadAccess := b.threadAccess.set t.op.key val }).heap q).alive =
        (dm.heap q).alive := by
    intro q
    by_cases hq : q = p
    · simp [DataManager.onBuf, hq]
    · simp [DataManager.onBuf, hq]
  refine ⟨rfl, rfl, rfl, rfl, halive, hflag, by cases val <;> rfl, ?_, ?_,
    fun j hj => .inl (Thread.flagged_busy hj), ?_, fun hcare hup j hj => ?_⟩
  · cases val <;> simp [DataManager.onBuf, Thread.flagged, Thread.counted, hpc]
  · intro q hq
    cases val <;> simp [Thread.flagged, Thread.pointer] at hq
  · intro hq
    cases val <;> simp [Thread.flagged, Thread.insideSize] at hq
  · by_cases hkey : j = t.op.key
    · subst hkey
      cases val with
      | true =>
          show ((dm.onBuf p _).heap dm.threadAccess).threadAccess.flag t.op.key = true
          by_cases hp : dm.threadAccess = p
          · simp [DataManager.onBuf, hp]
          · simpa [DataManager.onBuf, DataManager.up, hp] using hup _ (Thread.flagged_busy hj)
      | false =>
          rw [Thread.flagged_key (hcare.exit p k hpc)] at hj
          cases hj
    · exact (hflag _ j hkey).trans (hup j (Thread.flagged_busy hj))

/-- The successful check. -/
theorem Thread.effect_check {yes no : Code} (hpc : t.pc = .at (.notResizing yes no))
    (hres : dm.resizing = false) :
    Thread.Effect dm dm t
      { t with pc := .at yes, inside := Function.update t.inside t.op.key true } := by
  have hbusy : ∀ k, k ≠ t.op.key →
      Thread.busy { t with pc := .at yes, inside := Function.update t.inside t.op.key true } k =
        t.busy k := fun k hk => by simp [Thread.busy, hk]
  refine ⟨rfl, rfl, rfl, rfl, fun _ => rfl, fun _ _ _ => rfl, rfl, ?_, fun p hp => ?_, fun k hk => ?_,
    fun h => ?_, fun hcare hup k hk => ?_⟩
  · simp [Thread.counted, hpc]
  · simp [Thread.pointer] at hp
  · by_cases hkey : k = t.op.key
    · exact .inr ⟨hres, yes, no, hpc, hkey⟩
    · exact .inl (hbusy k hkey ▸ hk)
  · simp [Thread.insideSize] at h
  · by_cases hkey : k = t.op.key
    · rw [hkey]
      exact hcare.check yes no hpc hres
    · exact hup k (hbusy k hkey ▸ hk)

/-- A call ends: what is still inside is held. -/
theorem Thread.effect_done (hpc : t.pc = .at .done) :
    Thread.Effect dm dm t { t with
      pc := .idle
      inside := Function.update t.inside t.op.key false
      held := Function.update t.held t.op.key (t.held t.op.key || t.inside t.op.key) } := by
  have hbusy : ∀ k, Thread.busy { t with
      pc := .idle
      inside := Function.update t.inside t.op.key false
      held := Function.update t.held t.op.key (t.held t.op.key || t.inside t.op.key) } k =
        t.busy k := by
    intro k
    by_cases hkey : k = t.op.key
    · simp [Thread.busy, hkey, Bool.or_comm]
    · simp [Thread.busy, hkey]
  refine ⟨rfl, rfl, rfl, rfl, fun _ => rfl, fun _ _ _ => rfl, rfl, ?_, fun p hp => ?_,
    fun k hk => .inl (hbusy k ▸ hk), fun h => ?_, fun _ hup k hk => hup k (hbusy k ▸ hk)⟩
  · simp [Thread.counted, hpc]
  · simp [Thread.pointer] at hp
  · simp [Thread.insideSize] at h

/-- A call ends by an exception, its flag left up. -/
theorem Thread.effect_throw (hpc : t.pc = .at .throw) :
    Thread.Effect dm dm t
      { t with pc := .idle, inside := Function.update t.inside t.op.key false } := by
  have hbusy : ∀ k, Thread.busy
      { t with pc := .idle, inside := Function.update t.inside t.op.key false } k = true →
        t.busy k = true := by
    intro k hk
    by_cases hkey : k = t.op.key
    · have hheld : t.held k = true := by simpa [Thread.busy, hkey] using hk
      rw [Thread.busy, hheld, Bool.or_true]
    · simpa [Thread.busy, hkey] using hk
  refine ⟨rfl, rfl, rfl, rfl, fun _ => rfl, fun _ _ _ => rfl, rfl, ?_, fun p hp => ?_,
    fun k hk => .inl (hbusy k hk), fun h => ?_, fun _ hup k hk => hup k (hbusy k hk)⟩
  · simp [Thread.counted, hpc]
  · simp [Thread.pointer] at hp
  · simp [Thread.insideSize] at h

/-- A step of `size` that enters or leaves the count. -/
theorem Thread.effect_count {n : Nat} {pc : Pc} (hcount : n + t.counted =
      dm.checkingSize + Thread.counted { t with pc := pc })
    (hptr : Thread.pointer { t with pc := pc } = none)
    (hins : Thread.insideSize { t with pc := pc } = false) :
    Thread.Effect dm { dm with checkingSize := n } t { t with pc := pc } := by
  refine ⟨rfl, rfl, rfl, rfl, fun _ => rfl, fun _ _ _ => rfl, rfl, hcount, fun p hp => ?_,
    fun _ hk => .inl hk, fun h => ?_, fun _ hup k hk => hup k hk⟩
  · rw [hptr] at hp
    cases hp
  · rw [hins] at h
    cases h

/-- A step that only moves the thread on, to a place without a pointer and outside `size`. -/
theorem Thread.effect_local {pc : Pc} {r : Regs} (h : dm.Same dm')
    (hsize : dm'.checkingSize = dm.checkingSize)
    (hcount : Thread.counted { t with pc := pc, regs := r } = t.counted)
    (hptr : Thread.pointer { t with pc := pc, regs := r } = none)
    (hins : Thread.insideSize { t with pc := pc, regs := r } = false) :
    Thread.Effect dm dm' t { t with pc := pc, regs := r } := by
  refine .of_same h hsize rfl rfl rfl hcount (fun p hp => ?_) (fun hi => ?_)
  · rw [hptr] at hp
    cases hp
  · rw [hins] at hi
    cases hi

/-- A step that loads a pointer from the data manager. -/
theorem Thread.effect_load {pc : Pc} {p : BufId} (hp : p = dm.buffer ∨ p = dm.threadAccess)
    (hcount : Thread.counted { t with pc := pc } = t.counted)
    (hptr : Thread.pointer { t with pc := pc } = some p)
    (hins : Thread.insideSize { t with pc := pc } = true → t.insideSize = true) :
    Thread.Effect dm dm t { t with pc := pc } := by
  refine .of_same (DataManager.Same.refl dm) rfl rfl rfl rfl hcount (fun q hq => .inr ?_)
    fun hi => .inl (hins hi)
  rw [← Option.some_inj.mp (hptr.symm.trans hq)]
  exact hp

/-- **One step of a thread has no other effect.** -/
theorem Thread.step_effect (hcount : t.counted ≤ dm.checkingSize)
    (h : t.step dm = some (dm', t')) : Thread.Effect dm dm' t t' := by
  unfold Thread.step at h
  split at h
  · cases h
  · next k hpc =>
      cases h
      exact Thread.effect_load (.inr rfl) (by simp [Thread.counted, hpc]) rfl fun hi => nomatch hi
  · next k hpc =>
      cases h
      exact Thread.effect_load (.inr rfl) (by simp [Thread.counted, hpc]) rfl fun hi => nomatch hi
  · next val p k hpc =>
      cases h
      exact Thread.effect_flag hpc
  · next yes no hpc =>
      split at h
      · cases h
        exact Thread.effect_local (DataManager.Same.refl dm) rfl (by simp [Thread.counted, hpc]) rfl rfl
      · next hres =>
          cases h
          exact Thread.effect_check hpc (by simpa using hres)
  · next k hpc =>
      cases h
      exact Thread.effect_count (by simp [Thread.counted, hpc]) rfl rfl
  · next k hpc =>
      split at h
      · cases h
        exact Thread.effect_local (DataManager.Same.refl dm) rfl (by simp [Thread.counted, hpc]) rfl rfl
      · next hres =>
          cases h
          refine .of_same (DataManager.Same.refl dm) rfl rfl rfl rfl ?_ (fun p hp => ?_)
            (fun _ => .inr (by simpa using hres))
          · simp [Thread.counted, hpc]
          · cases hp
  · next k hpc =>
      cases h
      exact Thread.effect_load (.inl rfl) (by simp [Thread.counted, hpc]) rfl
        fun _ => by simp [Thread.insideSize, hpc]
  · next p k hpc =>
      split at h
      · cases h
        refine .of_same (DataManager.Same.refl dm) rfl rfl rfl rfl ?_ (fun q hq => ?_)
          (fun _ => .inl ?_)
        · simp [Thread.counted, hpc]
        · cases hq
        · simp [Thread.insideSize, hpc]
      · cases h
        exact .of_same (DataManager.Same.refl dm) rfl rfl rfl rfl rfl (fun q hq => .inl hq) .inl
  · next k hpc =>
      cases h
      have hone : t.counted = 1 := by simp [Thread.counted, hpc]
      refine Thread.effect_count ?_ rfl rfl
      show dm.checkingSize - 1 + t.counted = dm.checkingSize + 0
      omega
  · next k hpc =>
      cases h
      have hone : t.counted = 1 := by simp [Thread.counted, hpc]
      refine Thread.effect_count ?_ rfl rfl
      show dm.checkingSize - 1 + t.counted = dm.checkingSize + 0
      omega
  · next a rest k hpc =>
      cases h
      exact Thread.effect_load (.inl rfl) (by simp [Thread.counted, hpc]) rfl fun hi => nomatch hi
  · next p a k hpc =>
      cases h
      exact Thread.effect_local (a.run_same p dm _) (a.run_checkingSize p dm _)
        (by simp [Thread.counted, hpc]) rfl rfl
  · next p a b rest k hpc =>
      cases h
      refine .of_same (a.run_same p dm _) (a.run_checkingSize p dm _) rfl rfl rfl ?_ (fun q hq => ?_)
        (fun hi => ?_)
      · simp [Thread.counted, hpc]
      · exact .inl (by simpa [Thread.pointer, hpc] using hq)
      · cases hi
  · next test yes no hpc =>
      cases h
      exact Thread.effect_local (DataManager.Same.refl dm) rfl (by simp [Thread.counted, hpc]) rfl rfl
  · next f k hpc =>
      cases h
      exact Thread.effect_local (DataManager.Same.refl dm) rfl (by simp [Thread.counted, hpc]) rfl rfl
  · next k hpc =>
      cases h
      exact Thread.effect_local (DataManager.Same.refl dm) rfl (by simp [Thread.counted, hpc]) rfl rfl
  · next hpc =>
      cases h
      exact Thread.effect_local (DataManager.Same.refl dm) rfl (by simp [Thread.counted, hpc]) rfl rfl
  · next hpc =>
      cases h
      exact Thread.effect_done hpc
  · next hpc =>
      cases h
      exact Thread.effect_throw hpc

end Effects

end RaftLib.Threads
