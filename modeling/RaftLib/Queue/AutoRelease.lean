/-
# `RaftLib.Queue.AutoRelease` -- the handles of `pop_s` and `allocate_s`

A handle of `autorelease.tcc` releases what it stands for in its destructor, unless its flag `copied` is
up. The copy constructor raises the flag of the handle it copies from; the copy starts with its own flag
down. The copies made of one handle are a tree, and the handles whose destructor does something are its
leaves: a handle copied twice leaves two of them.

For `pop_s` the destructor recycles an entry, so one entry goes, and goes last, exactly if the tree is a
chain whose end is destroyed last (`releasesOnce_iff`). For `allocate_s` it sends, and a `send` after the
first finds nothing allocated: exactly one item is sent whatever the tree.
-/
import RaftLib.Queue.Contents
import Mathlib.Data.List.Induction

namespace RaftLib.Queue

open RaftLib.Logic.Program

variable {T : Type} {cap : Nat}

/-! ## What a program does with its handles -/

/-- The handles are numbered in the order they are made; the call returned handle `0`. -/
inductive HandleEvent where
  | copy (i : Nat)
  | destroy (i : Nat)
  deriving DecidableEq, Repr

namespace HandleEvent

/-- The handle that is copied or destroyed. -/
def handle : HandleEvent → Nat
  | .copy i => i
  | .destroy i => i

def isCopy : HandleEvent → Bool
  | .copy _ => true
  | .destroy _ => false

/-- The number of handles there have been. -/
def made (es : List HandleEvent) : Nat := es.countP isCopy + 1

/-- A handle that has been made and not destroyed. -/
def Alive (es : List HandleEvent) (i : Nat) : Prop := i < made es ∧ .destroy i ∉ es

instance (es : List HandleEvent) (i : Nat) : Decidable (Alive es i) :=
  inferInstanceAs (Decidable (_ ∧ _))

end HandleEvent

open HandleEvent

/-- The events build a tree of copies and take it down: only living handles are copied or destroyed, and
in the end every handle has been destroyed. -/
structure CopyTree (es : List HandleEvent) : Prop where
  used : ∀ n (h : n < es.length), Alive (es.take n) es[n].handle
  gone : ∀ i < made es, .destroy i ∈ es

/-- The handle destroyed last is the only one that is never copied. -/
def LastIsLeaf (es : List HandleEvent) : Prop :=
  ∃ front j, es = front ++ [.destroy j] ∧ ∀ i < made es, i ≠ j → .copy i ∈ es

/-! ## The handles themselves -/

/-- The queue, the flags of the handles, and how many destructors have released something. -/
structure Handles (T : Type) (cap : Nat) where
  queue : RingBuffer T cap
  made : Nat := 1
  copied : Nat → Bool := fun _ => false
  released : Nat := 0

/-- Statements about the handles: they may stop as a call on the queue does. -/
abbrev HandleCall (T : Type) (cap : Nat) := EStateM Stop (Handles T cap)

namespace Handles

/-- What the destructor of a handle does to the queue when it is the one to release. -/
abbrev Release (T : Type) (cap : Nat) := Nat → Call T cap PUnit

/-- `autorelease( const autorelease & )`. -/
def copy (i : Nat) : HandleCall T cap PUnit :=
  -- the duty goes to the copy, again at every copy
  modify fun hs => { hs with
    copied := Function.update (Function.update hs.copied i true) hs.made false, made := hs.made + 1 }

/-- `~autorelease()`. -/
def destroy (release : Release T cap) (i : Nat) : HandleCall T cap PUnit := do
  let hs ← get
  if hs.copied i then
    pure ()
  else
    match (release i).run hs.queue with
    | .ok _ queue => set { hs with queue := queue, released := hs.released + 1 }
    | .error x queue => do
        set { hs with queue := queue }
        throw x

def event (release : Release T cap) : HandleEvent → HandleCall T cap PUnit
  | .copy i => copy i
  | .destroy i => destroy release i

def run (release : Release T cap) (es : List HandleEvent) : HandleCall T cap PUnit :=
  es.forM (event release)

/-- The release of a `pop_s` handle: `fifo.unpeek()` and `fifo.recycle()`, of one entry. -/
def Release.unpeekRecycle : Release T cap := fun _ => do
  RingBuffer.unpeek
  RingBuffer.localRecycle 1

/-- The release of an `allocate_s` handle: `fifo.send( signal )`, with the signal of that handle. -/
def Release.sendSignal (signal : Nat → RaftSignal) : Release T cap := fun i => RingBuffer.send (signal i)

end Handles

/-! ## One release -/

/-- The peek is in force and nothing is recycled as long as there is a handle, and the whole run has
released once: the peek is over and the entry that was peeked at is gone. -/
structure ReleasesOnce [NeZero cap] (queue : RingBuffer T cap) (e : T × RaftSignal)
    (es : List (T × RaftSignal)) (events : List HandleEvent) : Prop where
  before : ∀ p, p <+: events → p ≠ events → ∃ hs,
    (Handles.run .unpeekRecycle p).run { queue } = .ok ⟨⟩ hs ∧ hs.released = 0 ∧
      hs.queue.buffer.threadAccess.flag .peek = true ∧ Holds hs.queue (e :: es)
  after : ∃ hs, (Handles.run .unpeekRecycle events).run { queue } = .ok ⟨⟩ hs ∧ hs.released = 1 ∧
    hs.queue.buffer.threadAccess.flag .peek = false ∧ Holds hs.queue es

/-- The whole run has sent one item, with the signal of one of the handles. -/
def SendsOnce [NeZero cap] (queue : RingBuffer T cap) (es : List (T × RaftSignal))
    (signal : Nat → RaftSignal) (events : List HandleEvent) : Prop :=
  ∃ hs, (Handles.run (.sendSignal signal) events).run { queue } = .ok ⟨⟩ hs ∧
    ∃ i < made events, Holds hs.queue (es ++ [(queue.buffer.store queue.buffer.writePt.a, signal i)])

/-! ## Trees of copies -/

namespace HandleEvent

variable {p q : List HandleEvent} {i : Nat}

theorem made_append (p q : List HandleEvent) : made (p ++ q) = made p + q.countP isCopy := by
  simp only [made, List.countP_append]
  omega

theorem made_copy (p : List HandleEvent) (i : Nat) : made (p ++ [.copy i]) = made p + 1 := by
  rw [made_append]
  rfl

theorem made_destroy (p : List HandleEvent) (i : Nat) : made (p ++ [.destroy i]) = made p := by
  rw [made_append]
  rfl

theorem made_le_append (p q : List HandleEvent) : made p ≤ made (p ++ q) := by
  rw [made_append]
  exact Nat.le_add_right ..

end HandleEvent

namespace CopyTree

variable {events p rest : List HandleEvent} {ev : HandleEvent} {i j : Nat}

theorem alive (h : CopyTree events) (hsplit : events = p ++ ev :: rest) : Alive p ev.handle := by
  have hlen : p.length < events.length := by simp [hsplit]
  have hused := h.used p.length hlen
  subst hsplit
  simpa using hused

theorem alive_of_prefix (h : CopyTree events) (hp : p ++ [ev] <+: events) : Alive p ev.handle := by
  obtain ⟨rest, hrest⟩ := hp
  have hsplit : events = p ++ ev :: rest := by simp [← hrest]
  exact h.alive hsplit

/-- A handle that has been copied is not the one made last. -/
theorem lt_of_copy (h : CopyTree events) (hp : p <+: events) (hcopy : .copy i ∈ p) :
    i + 1 < made p := by
  obtain ⟨q, rest, rfl⟩ := List.mem_iff_append.mp hcopy
  obtain ⟨last, hlast⟩ := hp
  have hsplit : events = q ++ .copy i :: (rest ++ last) := by simp [← hlast]
  have halive : i < made q := (h.alive hsplit).1
  have hmade : made (q ++ [.copy i]) ≤ made (q ++ .copy i :: rest) := by
    rw [show q ++ .copy i :: rest = (q ++ [.copy i]) ++ rest by simp]
    exact made_le_append ..
  rw [made_copy] at hmade
  omega

theorem lt_of_destroy (h : CopyTree events) (hgone : .destroy i ∈ events) : i < made events := by
  obtain ⟨p, rest, hsplit⟩ := List.mem_iff_append.mp hgone
  have halive : i < made p := (h.alive hsplit).1
  rw [hsplit]
  exact halive.trans_le (made_le_append ..)

/-- After its destruction a handle is not copied. -/
theorem copied_before (h : CopyTree events) (hsplit : events = p ++ .destroy i :: rest)
    (hcopy : .copy i ∈ events) : .copy i ∈ p := by
  by_contra hnot
  have hrest : .copy i ∈ rest := by
    rw [hsplit] at hcopy
    simpa [hnot] using hcopy
  obtain ⟨q, last, hq⟩ := List.mem_iff_append.mp hrest
  have hsplit' : events = (p ++ .destroy i :: q) ++ .copy i :: last := by
    rw [hsplit, hq]
    simp
  have halive : Alive (p ++ .destroy i :: q) i := h.alive hsplit'
  exact halive.2 (by simp)

/-- The last event is a destruction. -/
theorem last_destroy (h : CopyTree events) : ∃ front j, events = front ++ [.destroy j] := by
  rcases List.eq_nil_or_concat events with hnil | ⟨front, ev, hev⟩
  · have := h.gone 0 (Nat.succ_pos _)
    rw [hnil] at this
    cases this
  · cases ev with
    | destroy j => exact ⟨front, j, by simpa using hev⟩
    | copy i =>
        have hsplit : events = front ++ [.copy i] := by simpa using hev
        -- the handle that this copy makes would have to be destroyed before it is made
        have hgone : .destroy (made front) ∈ front := by
          have := h.gone (made front) (by rw [hsplit, made_copy]; exact Nat.lt_succ_self _)
          rw [hsplit] at this
          simpa using this
        obtain ⟨p, rest, hp⟩ := List.mem_iff_append.mp hgone
        have hsplit' : events = p ++ .destroy (made front) :: (rest ++ [.copy i]) := by
          rw [hsplit]
          conv_lhs => rw [hp]
          simp
        have halive : made front < made p := (h.alive hsplit').1
        have hle : made p ≤ made front := by
          have := made_le_append p (.destroy (made front) :: rest)
          rwa [← hp] at this
        omega

/-- Under the condition, the handle destroyed last is the one made last, and it is never copied. -/
theorem last_uncopied (h : CopyTree events)
    (hleaf : ∀ i < made events, i ≠ j → .copy i ∈ events) : .copy j ∉ events := by
  have hpos : 0 < made events := Nat.succ_pos _
  by_cases hj : made events - 1 = j
  · intro hcopy
    have := h.lt_of_copy List.prefix_rfl hcopy
    omega
  · have := h.lt_of_copy List.prefix_rfl (hleaf (made events - 1) (by omega) hj)
    omega

end CopyTree

/-! ## Runs of the handles -/

namespace Handles

variable {release : Release T cap} {hs hs' : Handles T cap} {p events : List HandleEvent} {i : Nat}

theorem run_snoc (release : Release T cap) (p : List HandleEvent) (ev : HandleEvent) :
    run release (p ++ [ev]) = run release p >>= fun _ => event release ev := by
  simp [run, List.forM_append]

theorem run_snoc_ok {ev : HandleEvent} {start : Handles T cap}
    (hrun : (run release (p ++ [ev])).run start = .ok ⟨⟩ hs') :
    ∃ hs, (run release p).run start = .ok ⟨⟩ hs ∧ (event release ev).run hs = .ok ⟨⟩ hs' := by
  rw [run_snoc, run_bind_ok] at hrun
  obtain ⟨_, hs, hp, hev⟩ := hrun
  exact ⟨hs, hp, hev⟩

/-- The flags say which handles have been copied. -/
structure Records (hs : Handles T cap) (p : List HandleEvent) : Prop where
  made : hs.made = HandleEvent.made p
  copied : ∀ i, hs.copied i = decide (.copy i ∈ p)

theorem records_nil (queue : RingBuffer T cap) : Records { queue } [] := ⟨rfl, fun _ => rfl⟩

@[simp] theorem copy_run (i : Nat) (hs : Handles T cap) :
    (copy i).run hs = .ok ⟨⟩ { hs with
      copied := Function.update (Function.update hs.copied i true) hs.made false,
      made := hs.made + 1 } := rfl

/-- The destructor of a handle that was copied does nothing, -/
theorem destroy_copied (hcopied : hs.copied i = true) : (destroy release i).run hs = .ok ⟨⟩ hs := by
  simp [destroy, hcopied]

/-- and that of any other handle releases. -/
theorem destroy_uncopied (hcopied : hs.copied i = false) {queue : RingBuffer T cap}
    (hrelease : (release i).run hs.queue = .ok ⟨⟩ queue) :
    (destroy release i).run hs =
      .ok ⟨⟩ { hs with queue := queue, released := hs.released + 1 } := by
  simp [destroy, hcopied, hrelease]

/-- What a destructor has done that returned. -/
theorem destroy_cases (hrun : (destroy release i).run hs = .ok ⟨⟩ hs') :
    (hs.copied i = true ∧ hs' = hs) ∨
      (hs.copied i = false ∧ ∃ queue, (release i).run hs.queue = .ok ⟨⟩ queue ∧
        hs' = { hs with queue := queue, released := hs.released + 1 }) := by
  cases hcopied : hs.copied i with
  | true =>
      rw [destroy_copied hcopied] at hrun
      injection hrun with _ hhs
      exact .inl ⟨rfl, hhs.symm⟩
  | false =>
      cases hrelease : (release i).run hs.queue with
      | ok u queue =>
          rw [destroy_uncopied hcopied hrelease] at hrun
          injection hrun with _ hhs
          exact .inr ⟨rfl, queue, rfl, hhs.symm⟩
      | error x queue => simp [destroy, hcopied, hrelease] at hrun

theorem Records.copy (h : Records hs p) (hlive : ∀ i, .copy i ∈ p → i < HandleEvent.made p)
    (hi : i < HandleEvent.made p) :
    Records { hs with
      copied := Function.update (Function.update hs.copied i true) hs.made false,
      made := hs.made + 1 } (p ++ [.copy i]) where
  made := by rw [made_copy, ← h.made]
  copied k := by
    show Function.update (Function.update hs.copied i true) hs.made false k = _
    rw [h.made]
    by_cases hk : k = HandleEvent.made p
    · subst hk
      have hnot : .copy (HandleEvent.made p) ∉ p := fun hmem => Nat.lt_irrefl _ (hlive _ hmem)
      have hne : HandleEvent.made p ≠ i := by omega
      simp [hnot, hne]
    · rw [Function.update_of_ne hk]
      by_cases hki : k = i
      · subst hki
        simp
      · rw [Function.update_of_ne hki, h.copied]
        simp [hki]

theorem Records.destroy (h : Records hs p) (queue : RingBuffer T cap) (n : Nat) (i : Nat) :
    Records { hs with queue := queue, released := n } (p ++ [.destroy i]) where
  made := by rw [made_destroy, ← h.made]
  copied k := by
    show hs.copied k = _
    rw [h.copied]
    simp

/-- A run that has released nothing: every handle destroyed was copied before. -/
theorem run_unreleased (h : CopyTree events) {queue : RingBuffer T cap} (hp : p <+: events)
    (hrun : (run release p).run { queue } = .ok ⟨⟩ hs) (hzero : hs.released = 0) :
    Records hs p ∧ hs.queue = queue ∧ ∀ i, .destroy i ∈ p → .copy i ∈ p := by
  induction p using List.reverseRecOn generalizing hs with
  | nil =>
      injection hrun with _ hhs
      subst hhs
      exact ⟨records_nil queue, rfl, by simp⟩
  | append_singleton p ev ih =>
      obtain ⟨m, hm, hev⟩ := run_snoc_ok hrun
      have hp' : p <+: events := (List.prefix_append p [ev]).trans hp
      cases ev with
      | copy i =>
          rw [event, copy_run] at hev
          injection hev with _ hhs
          subst hhs
          obtain ⟨hrec, hqueue, hcopied⟩ := ih hp' hm hzero
          have hi : i < HandleEvent.made p := (h.alive_of_prefix hp).1
          refine ⟨hrec.copy (fun k hk => Nat.lt_of_succ_lt (h.lt_of_copy hp' hk)) hi, hqueue, ?_⟩
          intro k hk
          exact List.mem_append_left _ (hcopied k (by simpa using hk))
      | destroy i =>
          rcases destroy_cases hev with ⟨hflag, rfl⟩ | ⟨_, _, _, rfl⟩
          · obtain ⟨hrec, hqueue, hcopied⟩ := ih hp' hm hzero
            refine ⟨hrec.destroy _ _ i, hqueue, ?_⟩
            intro k hk
            rcases List.mem_append.mp hk with hk | hk
            · exact List.mem_append_left _ (hcopied k hk)
            · have hki : k = i := by simpa using hk
              rw [hrec.copied] at hflag
              rw [hki]
              exact List.mem_append_left _ (of_decide_eq_true hflag)
          · cases hzero

/-- Where every handle that is destroyed is copied at some time, nothing is released. -/
theorem run_quiet (h : CopyTree events) (release : Release T cap) (queue : RingBuffer T cap)
    (hp : p <+: events) (hcopied : ∀ i, .destroy i ∈ p → .copy i ∈ events) :
    ∃ hs, (run release p).run { queue } = .ok ⟨⟩ hs ∧ hs.released = 0 := by
  induction p using List.reverseRecOn with
  | nil => exact ⟨_, rfl, rfl⟩
  | append_singleton p ev ih =>
      have hp' : p <+: events := (List.prefix_append p [ev]).trans hp
      obtain ⟨hs, hrun, hzero⟩ := ih hp' fun i hi => hcopied i (List.mem_append_left _ hi)
      rw [run_snoc, run_bind_of_ok hrun]
      cases ev with
      | copy i => exact ⟨_, copy_run i hs, hzero⟩
      | destroy i =>
          obtain ⟨rest, hrest⟩ := hp
          have hsplit : events = p ++ .destroy i :: rest := by simp [← hrest]
          have hbefore : .copy i ∈ p := h.copied_before hsplit (hcopied i (by simp))
          have hflag : hs.copied i = true := by
            rw [(run_unreleased h hp' hrun hzero).1.copied]
            exact decide_eq_true hbefore
          exact ⟨hs, destroy_copied hflag, hzero⟩

end Handles

/-! ## Pop handles -/

section Results

variable [NeZero cap] {queue : RingBuffer T cap} {e : T × RaftSignal} {es : List (T × RaftSignal)}
  {events p : List HandleEvent}

theorem unpeekRecycle_run (hq : Holds queue (e :: es)) (i : Nat) :
    (Handles.Release.unpeekRecycle i).run queue =
      .ok ⟨⟩ (RingBuffer.recycledOne (RingBuffer.setHelper .peek false queue)) := by
  have hdown : Holds (RingBuffer.setHelper .peek false queue) (e :: es) := hq.setHelper .peek false
  have hunpeek : (RingBuffer.unpeek : Call T cap PUnit).run queue =
      .ok ⟨⟩ (RingBuffer.setHelper .peek false queue) := rfl
  rw [Handles.Release.unpeekRecycle, run_bind_of_ok hunpeek, RingBuffer.localRecycle_succ hdown]
  rfl

/-- Up to the last event nothing is released, so every handle gone before it has been copied. -/
theorem lastIsLeaf_of_releasesOnce (h : CopyTree events) (hreleases : ReleasesOnce queue e es events) :
    LastIsLeaf events := by
  obtain ⟨front, j, hsplit⟩ := h.last_destroy
  refine ⟨front, j, hsplit, ?_⟩
  intro i hi hij
  obtain ⟨hs, hrun, hzero, _⟩ :=
    hreleases.before front ⟨[.destroy j], hsplit.symm⟩ (by rw [hsplit]; simp)
  have hgone : .destroy i ∈ front := by
    have := h.gone i hi
    rw [hsplit] at this
    simpa [hij] using this
  have hcopy : .copy i ∈ front :=
    (Handles.run_unreleased h ⟨[.destroy j], hsplit.symm⟩ hrun hzero).2.2 i hgone
  rw [hsplit]
  exact List.mem_append_left _ hcopy

/-- If only the handle destroyed last has never been copied, all the others go quietly. -/
theorem releasesOnce_of_lastIsLeaf (h : CopyTree events) (hq : Holds queue (e :: es))
    (hpeek : queue.buffer.threadAccess.flag .peek = true) (hlast : LastIsLeaf events) :
    ReleasesOnce queue e es events := by
  obtain ⟨front, j, hsplit, hleaf⟩ := hlast
  have hfront : front ++ [.destroy j] <+: events := ⟨[], by rw [hsplit, List.append_nil]⟩
  have hdestroyed : ∀ i, .destroy i ∈ front → .copy i ∈ events := by
    intro i hi
    have hij : i ≠ j := fun hij => (h.alive_of_prefix hfront).2 (by rw [← hij] at *; exact hi)
    exact hleaf i (h.lt_of_destroy (hsplit ▸ List.mem_append_left _ hi)) hij
  -- a handle that goes before the last one has been copied, and does nothing
  have hquiet : ∀ p, p <+: front → ∃ hs, (Handles.run .unpeekRecycle p).run { queue } = .ok ⟨⟩ hs ∧
      hs.released = 0 ∧ hs.queue = queue ∧ Handles.Records hs p := by
    intro p hp
    have hp' : p <+: events := hp.trans ((List.prefix_append ..).trans hfront)
    obtain ⟨hs, hrun, hzero⟩ := Handles.run_quiet h .unpeekRecycle queue hp' fun i hi =>
      hdestroyed i (hp.subset hi)
    obtain ⟨hrec, hsame, _⟩ := Handles.run_unreleased h hp' hrun hzero
    exact ⟨hs, hrun, hzero, hsame, hrec⟩
  refine ⟨?_, ?_⟩
  · intro p hp hne
    rw [hsplit, List.prefix_concat_iff] at hp
    obtain ⟨hs, hrun, hzero, hsame, _⟩ := hquiet p (hp.resolve_left (hsplit ▸ hne))
    exact ⟨hs, hrun, hzero, by rw [hsame]; exact hpeek, by rw [hsame]; exact hq⟩
  · obtain ⟨hs, hrun, hzero, hsame, hrec⟩ := hquiet front List.prefix_rfl
    have hflag : hs.copied j = false := by
      rw [hrec.copied, decide_eq_false_iff_not]
      intro hcopy
      exact h.last_uncopied hleaf (hsplit ▸ List.mem_append_left _ hcopy)
    have hrelease : (Handles.Release.unpeekRecycle j).run hs.queue =
        .ok ⟨⟩ (RingBuffer.recycledOne (RingBuffer.setHelper .peek false queue)) := by
      rw [hsame]
      exact unpeekRecycle_run hq j
    have hwhole : (Handles.run .unpeekRecycle events).run { queue } = .ok ⟨⟩ { hs with
        queue := RingBuffer.recycledOne (RingBuffer.setHelper .peek false queue),
        released := hs.released + 1 } := by
      rw [hsplit, Handles.run_snoc, run_bind_of_ok hrun]
      exact Handles.destroy_uncopied hflag hrelease
    exact ⟨_, hwhole, congrArg (· + 1) hzero, rfl,
      RingBuffer.holds_recycledOne (hq.setHelper .peek false)⟩

/-- **A tree of pop handles releases once, and last, exactly if the handle destroyed last is the only
one that is never copied.** -/
theorem releasesOnce_iff (h : CopyTree events) (hq : Holds queue (e :: es))
    (hpeek : queue.buffer.threadAccess.flag .peek = true) :
    ReleasesOnce queue e es events ↔ LastIsLeaf events :=
  ⟨lastIsLeaf_of_releasesOnce h, releasesOnce_of_lastIsLeaf h hq hpeek⟩

/-! ## Allocate handles -/

/-- What a run of allocate handles has done so far: nothing, or one send. -/
theorem run_sends (h : CopyTree events) (hq : Holds queue es) (hroom : es.length < cap)
    (halloc : queue.allocateCalled = true) (signal : Nat → RaftSignal) (hp : p <+: events) :
    ∃ hs, (Handles.run (.sendSignal signal) p).run { queue } = .ok ⟨⟩ hs ∧ Handles.Records hs p ∧
      ((hs.queue = queue ∧ ∀ i, .destroy i ∈ p → .copy i ∈ p) ∨
        (hs.queue.allocateCalled = false ∧ ∃ i < made p, Holds hs.queue
          (es ++ [(queue.buffer.store queue.buffer.writePt.a, signal i)]))) := by
  induction p using List.reverseRecOn with
  | nil => exact ⟨_, rfl, Handles.records_nil queue, .inl ⟨rfl, by simp⟩⟩
  | append_singleton p ev ih =>
      have hp' : p <+: events := (List.prefix_append p [ev]).trans hp
      have halive := h.alive_of_prefix hp
      obtain ⟨hs, hrun, hrec, hdone⟩ := ih hp'
      rw [Handles.run_snoc, run_bind_of_ok hrun]
      cases ev with
      | copy i =>
          refine ⟨_, Handles.copy_run i hs,
            hrec.copy (fun k hk => Nat.lt_of_succ_lt (h.lt_of_copy hp' hk)) halive.1, ?_⟩
          rcases hdone with ⟨hsame, hcopied⟩ | ⟨hsent, k, hk, hholds⟩
          · exact .inl ⟨hsame, fun k hk => List.mem_append_left _ (hcopied k (by simpa using hk))⟩
          · exact .inr ⟨hsent, k, by rw [made_copy]; omega, hholds⟩
      | destroy i =>
          cases hflag : hs.copied i with
          | true =>
              refine ⟨hs, Handles.destroy_copied hflag, hrec.destroy hs.queue hs.released i, ?_⟩
              rw [made_destroy]
              rcases hdone with ⟨hsame, hcopied⟩ | hsent
              · refine .inl ⟨hsame, fun k hk => ?_⟩
                rcases List.mem_append.mp hk with hk | hk
                · exact List.mem_append_left _ (hcopied k hk)
                · have hki : k = i := by simpa using hk
                  rw [hrec.copied] at hflag
                  rw [hki]
                  exact List.mem_append_left _ (of_decide_eq_true hflag)
              · exact .inr hsent
          | false =>
              rcases hdone with ⟨hsame, _⟩ | ⟨hsent, k, hk, hholds⟩
              · have hsend : (Handles.Release.sendSignal signal i).run hs.queue =
                    .ok ⟨⟩ (RingBuffer.sent (signal i) queue) := by
                  rw [hsame]
                  exact RingBuffer.send_run halloc (signal i)
                exact ⟨_, Handles.destroy_uncopied hflag hsend, hrec.destroy _ _ i,
                  .inr ⟨rfl, i, by rw [made_destroy]; exact halive.1,
                    RingBuffer.holds_sent hq hroom (signal i)⟩⟩
              · have hsend : (Handles.Release.sendSignal signal i).run hs.queue = .ok ⟨⟩ hs.queue :=
                  RingBuffer.send_run_nothing hsent (signal i)
                exact ⟨_, Handles.destroy_uncopied hflag hsend, hrec.destroy _ _ i,
                  .inr ⟨hsent, k, by rw [made_destroy]; exact hk, hholds⟩⟩

/-- **A tree of allocate handles sends one item.** -/
theorem sendsOnce (h : CopyTree events) (hq : Holds queue es) (hroom : es.length < cap)
    (halloc : queue.allocateCalled = true) (signal : Nat → RaftSignal) :
    SendsOnce queue es signal events := by
  obtain ⟨hs, hrun, _, hdone⟩ := run_sends h hq hroom halloc signal List.prefix_rfl
  refine ⟨hs, hrun, ?_⟩
  rcases hdone with ⟨_, hcopied⟩ | ⟨_, hsent⟩
  · -- the handle made last is destroyed, and nobody has copied it
    have hpos : 0 < made events := Nat.succ_pos _
    have := h.lt_of_copy List.prefix_rfl (hcopied (made events - 1) (h.gone _ (by omega)))
    omega
  · exact hsent

/-- **Auto-release handles.** The copies of a `pop_s` handle recycle one entry and release the peek once,
after the last handle is gone, exactly if the handle destroyed last is the only one never copied; the
copies of an `allocate_s` handle send one item. -/
theorem autorelease_iff (h : CopyTree events) :
    (∀ (rb queue : RingBuffer T cap) e es item, Holds rb (e :: es) →
      RingBuffer.localPeek.run rb = .ok item queue →
      (ReleasesOnce queue e es events ↔ LastIsLeaf events)) ∧
    ∀ (rb queue : RingBuffer T cap) es item, Holds rb es →
      RingBuffer.localAllocate.run rb = .ok item queue →
      ∀ signal, SendsOnce queue es signal events := by
  constructor
  · intro rb queue e es item hrb hpeek
    rw [RingBuffer.localPeek_run hrb] at hpeek
    injection hpeek with _ hqueue
    rw [← hqueue]
    exact releasesOnce_iff h (hrb.setHelper .peek true) rfl
  · intro rb queue es item hrb halloc signal
    have hroom : es.length < cap := by
      by_contra hfull
      obtain ⟨rb', herror⟩ := RingBuffer.localAllocate_full hrb hfull
      rw [herror] at halloc
      cases halloc
    rw [RingBuffer.localAllocate_run hrb hroom] at halloc
    injection halloc with _ hqueue
    rw [← hqueue]
    exact sendsOnce h (RingBuffer.holds_allocated hrb) hroom rfl signal

end Results

local instance twoSlots : NeZero 2 := ⟨by decide⟩

/-- Two entries in a queue of two slots. -/
def twoEntries : RingBuffer Nat 2 :=
  .pushed 8 RaftSignal.eof (.pushed 7 RaftSignal.none (.init fun _ => 0))

theorem holds_twoEntries : Holds twoEntries [(7, RaftSignal.none), (8, RaftSignal.eof)] :=
  RingBuffer.holds_pushed (RingBuffer.holds_pushed (.init _) (by decide) 7 _) (by decide) 8 _

/-- The first handle is copied, and goes before its copy. -/
def moved : List HandleEvent := [.copy 0, .destroy 0, .destroy 1]

/-- The first handle is copied twice. -/
def shared : List HandleEvent := [.copy 0, .copy 0, .destroy 2, .destroy 1, .destroy 0]

theorem copyTree_moved : CopyTree moved := ⟨by decide, by decide⟩

theorem copyTree_shared : CopyTree shared := ⟨by decide, by decide⟩

theorem autorelease_iff_moved :
    ReleasesOnce (RingBuffer.setHelper .peek true twoEntries) (7, RaftSignal.none)
        [(8, RaftSignal.eof)] moved ∧
      SendsOnce (RingBuffer.allocated (RingBuffer.popped twoEntries)) [(8, RaftSignal.eof)]
        (fun _ => RaftSignal.none) moved :=
  ⟨((autorelease_iff copyTree_moved).1 twoEntries _ _ _ _ holds_twoEntries
      (RingBuffer.localPeek_run holds_twoEntries)).mpr ⟨[.copy 0, .destroy 0], 1, rfl, by decide⟩,
    (autorelease_iff copyTree_moved).2 _ _ _ _ (RingBuffer.holds_popped holds_twoEntries)
      (RingBuffer.localAllocate_run (RingBuffer.holds_popped holds_twoEntries) (by decide)) _⟩

/-- A handle copied twice leaves two copies to release, and both entries of the queue are gone. -/
theorem shared_recycles_twice :
    Holds twoEntries [(7, RaftSignal.none), (8, RaftSignal.eof)] ∧ CopyTree shared ∧
      ¬ReleasesOnce (RingBuffer.setHelper .peek true twoEntries) (7, RaftSignal.none)
        [(8, RaftSignal.eof)] shared ∧
      ∃ hs, (Handles.run .unpeekRecycle shared).run
          { queue := RingBuffer.setHelper .peek true twoEntries } = .ok ⟨⟩ hs ∧
        hs.released = 2 ∧ hs.queue.buffer.sizeOnce = some 0 := by
  refine ⟨holds_twoEntries, copyTree_shared, ?_, _, rfl, rfl, rfl⟩
  rw [releasesOnce_iff copyTree_shared (holds_twoEntries.setHelper .peek true) rfl]
  rintro ⟨front, j, hsplit, hleaf⟩
  have hj : j = 0 := by
    have := congrArg List.getLast? hsplit
    simpa [shared] using this.symm
  have hcopy : HandleEvent.copy 1 ∈ shared := hleaf 1 (by decide) (by omega)
  revert hcopy
  decide

end RaftLib.Queue
