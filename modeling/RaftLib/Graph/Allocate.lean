/-
# `RaftLib.Graph.Allocate` -- checking a map and giving its ports queues

`map::checkEdges`, and `Allocate` with the pass that `stdalloc::run` and `dynalloc::run` begin with. The
check is a loop over all kernels, the pass a traversal from the kernels without input ports, so it
comes to what the check has let through if that can be reached from there (`queues_given`): along
connections that form no cycle it can.

A queue is a place in the heap of the allocator, which only grows: `new` gives every queue an address
of its own.
-/
import RaftLib.Graph.GraphTools

namespace RaftLib.Graph

open RaftLib.Logic.Program
open RaftLib.Logic.Steps

/-! ## `map::checkEdges` -/

/-- The exception of `kernel::allConnected` for a port of kernel class `name`. -/
def portUnconnected (name : String) : Side → PortKey → Err
  | .input, key => .portUnconnected ("Port from edge (" ++ "null" ++ " -> " ++ key ++
      ") with kernel types (src: " ++ "nullptr" ++ "), (dst: " ++ name ++ "), exiting!!\n")
  | .output, key => .portUnconnected ("Port from edge (" ++ key ++ " -> " ++ "null" ++
      ") with kernel types (src: " ++ name ++ "), (dst: " ++ "nullptr" ++ "), exiting!!\n")

/-- The body of the two loops of `kernel::allConnected`. -/
def portConnected (k : KernelId) (s : Side) (key : PortKey) : Prog PUnit := do
  let w ← get
  if (w.info ⟨k, s, key⟩).otherKernel = none then throw (portUnconnected (w.kernel k).className s key)

/-- `kernel::allConnected`. -/
def allConnected (k : KernelId) : Prog PUnit := do
  ((← get).ports k .input).keys.forM (portConnected k .input)
  ((← get).ports k .output).keys.forM (portConnected k .output)

/-- `map::checkEdges`, on the kernels of `all_kernels` in the order of the set. -/
def checkEdges (container : List KernelId) : Prog PUnit := container.forM allConnected

/-! ## `Allocate` -/

/-- The arguments of `make_new_fifo`. -/
structure NewFifo where
  nItems : Nat
  startIndex : Nat
  ptr : Option Nat

/-- The map, the queues that were made, and `allocated_fifo`. -/
structure Alloc where
  world : World
  heap : List NewFifo := []
  allocatedFifo : Finset FifoId := ∅

abbrev AllocProg := EStateM Err Alloc

/-- `INITIAL_ALLOC_SIZE`. -/
def initialAllocSize : Nat := 64

/-- `PortInfo::setFIFO`. -/
def setFifo (r : PortRef) (fifo : FifoId) : AllocProg PUnit :=
  modify fun a => { a with world := a.world.setInfo r { a.world.info r with fifo := some fifo } }

/-- `Allocate::initialize`. -/
def initializePorts (src dst : PortRef) (fifo : FifoId) : AllocProg PUnit := do
  if ((← get).world.info src).fifo ≠ none then
    throw (.portDoubleInitialize ("Source port \"" ++ src.key ++ "\" already initialized!"))
  else if ((← get).world.info dst).fifo ≠ none then
    throw (.portDoubleInitialize ("Destination port \"" ++ dst.key ++ " already initialized!"))
  else
    setFifo src fifo
    setFifo dst fifo
    modify fun a => { a with allocatedFifo := insert fifo a.allocatedFifo }

/-- What `Allocate::allocate` has a queue made of; `align` is `ALLOC_ALIGN_WIDTH`. -/
def NewFifo.ofPort (align : Nat) (a : PortInfo) : NewFifo :=
  match a.existingBuffer with
  | some ptr => { nItems := a.nitems, startIndex := a.startIndex, ptr := some ptr }
  | none =>
      { nItems := if a.fixedBufferSize ≠ 0 then a.fixedBufferSize else initialAllocSize
        startIndex := align
        ptr := none }

/-- `new`: the queue, and where it is. -/
def newFifo (f : NewFifo) : AllocProg FifoId := do
  let fifo := (← get).heap.length
  modify fun a => { a with heap := a.heap ++ [f] }
  return fifo

/-- `Allocate::allocate`. -/
def allocate (align : Nat) (a b : PortRef) : AllocProg PUnit := do
  let fifo ← newFifo (.ofPort align ((← get).world.info a))
  initializePorts a b fifo

/-- The pass of `stdalloc::run` and `dynalloc::run`, over the kernels of `source_kernels`. -/
def allocateAll (align fuel : Nat) (sourceKernels : List KernelId) : AllocProg Bool :=
  bfs Alloc.world (allocate align) false fuel sourceKernels

/-! ## What the check lets through -/

section Check

variable {w w' : World} {container : List KernelId} {k : KernelId} {s : Side} {key : PortKey}

theorem portConnected_ok {u : PUnit} : (portConnected k s key).run w = .ok u w' ↔
    w' = w ∧ (w.info ⟨k, s, key⟩).otherKernel ≠ none := by
  unfold portConnected
  by_cases h : (w.info ⟨k, s, key⟩).otherKernel = none
  · simp [h]
  · simp only [ne_eq, h, not_false_eq_true, and_true]
    simp [h]
    exact ⟨Eq.symm, Eq.symm⟩

theorem allConnected_ok {u : PUnit} : (allConnected k).run w = .ok u w' ↔
    w' = w ∧ ∀ s, ∀ key ∈ (w.ports k s).keys, (w.info ⟨k, s, key⟩).otherKernel ≠ none := by
  have hloop (s : Side) {v v' : World} {u : PUnit} : ((v.ports k s).keys.forM (portConnected k s)).run v =
      .ok u v' ↔ v' = v ∧ ∀ key ∈ (v.ports k s).keys, (v.info ⟨k, s, key⟩).otherKernel ≠ none := by
    rw [run_forM_ok fun _ _ _ _ h => (portConnected_ok.mp h).1]
    simp [portConnected_ok]
  have hrun : (allConnected k).run w = ((w.ports k .input).keys.forM (portConnected k .input) >>=
      fun _ => get >>= fun w => (w.ports k .output).keys.forM (portConnected k .output)).run w := rfl
  rw [hrun, run_bind_ok]
  constructor
  · rintro ⟨_, v, hin, hout⟩
    obtain ⟨rfl, hin⟩ := (hloop .input).mp hin
    obtain ⟨rfl, hout⟩ := (hloop .output).mp hout
    refine ⟨rfl, fun s => ?_⟩
    cases s with
    | input => exact hin
    | output => exact hout
  · rintro ⟨rfl, h⟩
    exact ⟨u, w', (hloop .input).mpr ⟨rfl, h .input⟩, (hloop .output).mpr ⟨rfl, h .output⟩⟩

/-- **A map passes the check** exactly if all ports of its kernels are connected. -/
theorem checkEdges_ok {u : PUnit} : (checkEdges container).run w = .ok u w' ↔ w' = w ∧
    ∀ k ∈ container, ∀ s, ∀ key ∈ (w.ports k s).keys, (w.info ⟨k, s, key⟩).otherKernel ≠ none := by
  unfold checkEdges
  rw [run_forM_ok fun _ _ _ _ h => (allConnected_ok.mp h).1]
  simp [allConnected_ok]

end Check

/-! ## What the pass writes -/

/-- The queue of a port once the output ports `done` have been gone through, each of which was given one
of its own. -/
def World.queueOf (w : World) (done : List PortRef) (r : PortRef) : Option FifoId :=
  match r.side with
  | .output => done.idxOf? r
  | .input => (w.other r).bind done.idxOf?

/-- The map `w`, with the queues of its ports. -/
structure Queued (w : World) (done : List PortRef) (a : Alloc) : Prop where
  kernel : a.world.kernel = w.kernel
  info : ∀ r, w.IsPort r → a.world.info r = { w.info r with fifo := w.queueOf done r }
  heap : a.heap.length = done.length

section Pass

variable {w : World} {done : List PortRef} {a : Alloc} {r r' : PortRef} {align : Nat}

theorem idxOf?_append_self (hr : r ∉ done) : (done ++ [r]).idxOf? r = some done.length := by
  have hnone := List.idxOf?_eq_none_iff.mpr hr
  unfold List.idxOf? at hnone ⊢
  rw [List.findIdx?_append, hnone]
  simp

theorem idxOf?_append_of_ne {q : PortRef} (hne : q ≠ r) : (done ++ [r]).idxOf? q = done.idxOf? q := by
  unfold List.idxOf?
  rw [List.findIdx?_append]
  simp [hne.symm]

variable (align) in
/-- One allocation, on two ports without a queue. -/
theorem allocate_run (hne : r ≠ r') (hr : (a.world.info r).fifo = none)
    (hr' : (a.world.info r').fifo = none) : ∃ a', (allocate align r r').run a = .ok ⟨⟩ a' ∧
      a'.heap.length = a.heap.length + 1 ∧
      a'.world = (a.world.setInfo r { a.world.info r with fifo := some a.heap.length }).setInfo r'
        { a.world.info r' with fifo := some a.heap.length } := by
  let f := NewFifo.ofPort align (a.world.info r)
  let a₁ : Alloc := { a with heap := a.heap ++ [f] }
  have hnew : (newFifo f).run a = .ok a.heap.length a₁ := rfl
  let a₂ : Alloc := { a₁ with
    world := (a.world.setInfo r { a.world.info r with fifo := some a.heap.length }).setInfo r'
      { a.world.info r' with fifo := some a.heap.length }
    allocatedFifo := insert a.heap.length a.allocatedFifo }
  have hports : (initializePorts r r' a.heap.length).run a₁ = .ok ⟨⟩ a₂ := by
    unfold initializePorts setFifo
    simp [a₁, a₂, hr, hr', World.setInfo_info_of_ne _ _ _ hne.symm]
  refine ⟨a₂, ?_, List.length_append, rfl⟩
  unfold allocate
  rw [run_bind_of_ok (rfl : (get : AllocProg Alloc).run a = .ok a a), run_bind_of_ok hnew]
  exact hports

variable (hm : w.Matched) (hr : w.IsPort r) (hside : r.side = .output) (ho : w.other r = some r')
  (hnew : r ∉ done)
include hm hr hside ho hnew

variable (align) in
/-- **A connection gets a queue**, both ends the same one, and no other port does. -/
theorem Queued.allocate (h : Queued w done a) :
    ∃ a', (allocate align r r').run a = .ok ⟨⟩ a' ∧ Queued w (done ++ [r]) a' := by
  obtain ⟨hr', hback⟩ := hm.symm r r' hr ho
  have hside' : r'.side = .input := by rw [World.other_side ho, hside]; rfl
  have hne : r ≠ r' := World.ports_ne hside hside'
  have hnone : done.idxOf? r = none := List.idxOf?_eq_none_iff.mpr hnew
  have hq : w.queueOf done r = none := by simp only [World.queueOf, hside, hnone]
  have hq' : w.queueOf done r' = none := by
    simp only [World.queueOf, hside', hback, Option.bind_some, hnone]
  obtain ⟨a', hrun, hheap, hworld⟩ := allocate_run align hne
    (by rw [h.info r hr]; exact hq) (by rw [h.info r' hr']; exact hq')
  refine ⟨a', hrun, by rw [hworld]; exact h.kernel, fun q hqp => ?_, ?_⟩
  · rw [hworld, h.heap]
    by_cases hqr' : q = r'
    · subst hqr'
      rw [World.setInfo_info_self, h.info _ hqp]
      simp only [World.queueOf, hside', hback, Option.bind_some, idxOf?_append_self hnew]
    · rw [World.setInfo_info_of_ne _ _ _ hqr']
      by_cases hqr : q = r
      · subst hqr
        rw [World.setInfo_info_self, h.info _ hqp]
        simp only [World.queueOf, hside, idxOf?_append_self hnew]
      · rw [World.setInfo_info_of_ne _ _ _ hqr, h.info q hqp]
        -- neither the port nor its other end is the one just done
        have hsame : w.queueOf (done ++ [r]) q = w.queueOf done q := by
          unfold World.queueOf
          cases hs : q.side with
          | output => exact idxOf?_append_of_ne hqr
          | input =>
              cases hoq : w.other q with
              | none => rfl
              | some p =>
                  refine idxOf?_append_of_ne ?_
                  rintro rfl
                  have hbackq := (hm.symm q p hqp hoq).2
                  rw [ho] at hbackq
                  exact hqr' (Option.some_inj.mp hbackq).symm
        rw [hsame]
  · rw [hheap, h.heap, List.length_append]
    rfl

omit hm hr hside ho hnew in
/-- A queue does not change what is connected. -/
theorem sameGraph_setFifo (v : World) (r : PortRef) (fifo : Option FifoId) :
    v.SameGraph (v.setInfo r { v.info r with fifo := fifo }) := by
  refine ⟨rfl, fun q => ?_⟩
  unfold World.other
  by_cases hq : q = r
  · subst hq
    rw [World.setInfo_info_self]
  · rw [World.setInfo_info_of_ne _ _ _ hq]

omit hm hr hside ho hnew in
/-- An allocation that returns has written its queue to both ports, and nothing else to the map. -/
theorem allocate_returned {u : PUnit} {a' : Alloc} (h : (allocate align r r').run a = .ok u a') :
    let w₁ := a.world.setInfo r { a.world.info r with fifo := some a.heap.length }
    a'.world = w₁.setInfo r' { w₁.info r' with fifo := some a.heap.length } := by
  let a₁ : Alloc := { a with heap := a.heap ++ [NewFifo.ofPort align (a.world.info r)] }
  have hinit : (initializePorts r r' a.heap.length).run a₁ = .ok u a' := h
  unfold initializePorts setFifo at hinit
  by_cases hsrc : (a.world.info r).fifo = none
  · by_cases hdst : (a.world.info r').fifo = none
    · simp [a₁, hsrc, hdst] at hinit
      rw [← hinit]
    · simp [a₁, hsrc, hdst] at hinit
  · simp [a₁, hsrc] at hinit

variable (align) in
omit hm hr hside ho hnew in
theorem keeps_allocate : Keeps Alloc.world (allocate align) := by
  intro r r' a u a' h
  rw [allocate_returned h]
  exact (sameGraph_setFifo _ r _).trans (sameGraph_setFifo _ r' _)

end Pass

section Calls

variable {w : World} {done : List PortRef} {a : Alloc} {r r' q : PortRef} {align : Nat}
variable {edges : List (PortRef × PortRef)} {sources : List KernelId}

variable (align) in
/-- The connections are given their queues one after another. -/
theorem Queued.callAll (hm : w.Matched) (hedges : ∀ e ∈ edges, w.IsPort e.1 ∧ e.1.side = .output ∧
    w.other e.1 = some e.2) (hnodup : (done ++ edges.map Prod.fst).Nodup) (h : Queued w done a) :
    ∃ a', (callAll (Graph.allocate align) edges).run a = .ok ⟨⟩ a' ∧
      Queued w (done ++ edges.map Prod.fst) a' := by
  induction edges generalizing done a with
  | nil => exact ⟨a, rfl, by rwa [List.map_nil, List.append_nil]⟩
  | cons e edges ih =>
      obtain ⟨hport, hside, ho⟩ := hedges e List.mem_cons_self
      rw [List.map_cons, List.append_cons] at hnodup ⊢
      have hnew : e.1 ∉ done := fun hmem =>
        (List.nodup_append.mp (List.nodup_append.mp hnodup).1).2.2 e.1 hmem e.1
          (List.mem_singleton_self _) rfl
      obtain ⟨m, hm', hq⟩ := h.allocate align hm hport hside ho hnew
      obtain ⟨a', ha', hq'⟩ := ih (fun e' he' => hedges e' (List.mem_cons_of_mem e he')) hnodup hq
      exact ⟨a', by rw [callAll_cons, run_bind_of_ok hm', ha'], hq'⟩

/-- The output port of the connection that the port is an end of. -/
def World.writer (w : World) (r : PortRef) : Option PortRef :=
  match r.side with
  | .output => some r
  | .input => w.other r

theorem queueOf_eq : w.queueOf done r = (w.writer r).bind done.idxOf? := by
  unfold World.queueOf World.writer
  cases r.side <;> rfl

/-- The two ends of a connection have the same writer. -/
theorem writer_other (hm : w.Matched) (hr : w.IsPort r) (ho : w.other r = some r') :
    w.writer r' = w.writer r := by
  have hback := (hm.symm r r' hr ho).2
  unfold World.writer
  rw [World.other_side ho]
  cases hside : r.side with
  | output => exact hback
  | input => exact ho.symm

/-- Ports with the same writer are the same, or the two ends of a connection. -/
theorem eq_or_other_of_writer (hm : w.Matched) (hr : w.IsPort r) (hq : w.IsPort q) {p : PortRef}
    (hwr : w.writer r = some p) (hwq : w.writer q = some p) : q = r ∨ w.other r = some q := by
  unfold World.writer at hwr hwq
  cases hside : r.side with
  | output =>
      rw [hside] at hwr
      obtain rfl := Option.some_inj.mp hwr
      cases hside' : q.side with
      | output =>
          rw [hside'] at hwq
          exact .inl (Option.some_inj.mp hwq)
      | input =>
          rw [hside'] at hwq
          exact .inr (hm.symm q r hq hwq).2
  | input =>
      rw [hside] at hwr
      have hback := (hm.symm r p hr hwr).2
      cases hside' : q.side with
      | output =>
          rw [hside'] at hwq
          exact .inr (hwr.trans hwq.symm)
      | input =>
          rw [hside'] at hwq
          have hback' := (hm.symm q p hq hwq).2
          exact .inl (Option.some_inj.mp (hback'.symm.trans hback))

theorem idxOf?_inj {p p' : PortRef} {i : Nat} (hp : done.idxOf? p = some i)
    (hp' : done.idxOf? p' = some i) : p = p' := by
  obtain ⟨hlt, heq, -⟩ := List.findIdx?_eq_some_iff_getElem.mp hp
  obtain ⟨_, heq', -⟩ := List.findIdx?_eq_some_iff_getElem.mp hp'
  exact (beq_iff_eq.mp heq).symm.trans (beq_iff_eq.mp heq')

/-- The map after the pass has the queues of the connections that begin at `done`. -/
theorem Queued.fifo (h : Queued w done a) (hr : w.IsPort r) :
    (a.world.info r).fifo = (w.writer r).bind done.idxOf? := by
  rw [h.info r hr, ← queueOf_eq]

end Calls

/-! ## Maps built by calls -/

section Built

variable {w w' : World} {a b k : KernelId} {r r' : PortRef} {sources : List KernelId}

/-- A map that no allocator has seen. -/
structure World.Unallocated (w : World) : Prop where
  fifo : ∀ r, (w.info r).fifo = none
  all : w.sourceKernels ⊆ w.allKernels

/-- A call gives no queues, and enters source kernels like the others. -/
def KeepsUnallocated (w w' : World) : Prop := w.Unallocated → w'.Unallocated

theorem keepsUnallocated_setInfo {i : PortInfo} (hi : i.fifo = (w.info r).fifo) :
    KeepsUnallocated w (w.setInfo r i) := by
  refine fun h => ⟨fun q => ?_, h.all⟩
  by_cases hq : q = r
  · subst hq
    rw [World.setInfo_info_self, hi]
    exact h.fifo q
  · rw [World.setInfo_info_of_ne _ _ _ hq]
    exact h.fifo q

/-- A source kernel is entered like the others. -/
theorem sources_withKernels (h : w.sourceKernels ⊆ w.allKernels) :
    (w.withKernels a b).sourceKernels ⊆ (w.withKernels a b).allKernels := by
  intro k hk
  refine Finset.mem_insert_of_mem ?_
  unfold World.withKernels at hk
  dsimp only at hk
  split at hk
  · rcases Finset.mem_insert.mp hk with rfl | hk
    · exact Finset.mem_insert_self _ _
    · exact Finset.mem_insert_of_mem (h hk)
  · exact Finset.mem_insert_of_mem (h hk)

theorem keepsUnallocated_withKernels : KeepsUnallocated w (w.withKernels a b) :=
  fun h => ⟨h.fifo, sources_withKernels h.all⟩

theorem keepsUnallocated_trans (w w' w'' : World) (h : KeepsUnallocated w w')
    (h' : KeepsUnallocated w' w'') : KeepsUnallocated w w'' := h' ∘ h

theorem keepsUnallocated_sized (buffer : Nat) (rs : List PortRef) :
    KeepsUnallocated w (w.sized buffer rs) := by
  induction rs generalizing w with
  | nil => exact id
  | cons r rs ih =>
      have hr : KeepsUnallocated w (w.setInfo r { w.info r with fixedBufferSize := buffer }) :=
        keepsUnallocated_setInfo rfl
      exact keepsUnallocated_trans _ _ _ hr ih

theorem keepsUnallocated_linked (t : Order) : KeepsUnallocated w (w.linked t r r') := by
  by_cases hne : r' = r
  · subst hne
    refine keepsUnallocated_trans _ _ _ (keepsUnallocated_setInfo ?_) (keepsUnallocated_setInfo ?_)
    · rfl
    · rw [World.setInfo_info_self]
  · refine keepsUnallocated_trans _ _ _ (keepsUnallocated_setInfo ?_) (keepsUnallocated_setInfo ?_)
    · rfl
    · rw [World.setInfo_info_of_ne _ _ _ hne]

theorem link_keepsUnallocated (t : Order) (aPort bPort : PortKey) (buffer : Nat) :
    Along KeepsUnallocated (link t a aPort b bPort buffer) (fun _ _ => True) w := by
  apply along_link keepsUnallocated_trans
  · intro rs
    exact keepsUnallocated_trans _ _ _ keepsUnallocated_withKernels (keepsUnallocated_sized buffer rs)
  · intro ra rb w' _ _
    exact keepsUnallocated_linked t

theorem keepsUnallocated_discipline : Discipline KeepsUnallocated fun _ _ => True where
  refl _ := id
  trans := keepsUnallocated_trans
  mono _ _ := trivial
  link _ _ := link_keepsUnallocated
  clone {k w} _ := by
    refine clone_along id ⟨fun hw => ⟨fun r => ?_, hw.all⟩, trivial⟩
    show (if r.kernel = w.next then _ else _ : PortInfo).fifo = none
    split
    · rfl
    · exact hw.fifo r

theorem unallocated_of_run {cs : List Call} (h : Run Calls w cs w') (hw : w.Unallocated) :
    w'.Unallocated :=
  keepsUnallocated_discipline.of_run (fun _ _ _ => trivial) h hw

namespace World

/-- The ports of a connection exist. -/
theorem Matched.closed (hm : w.Matched) : w.Closed := by
  intro k hk e he
  obtain ⟨key, hkey, heq, ho⟩ := mem_edgesFrom.mp he
  obtain ⟨hport, -⟩ := hm.symm ⟨k, .output, key⟩ e.2 ⟨hk, hkey⟩ ho
  refine ⟨hport.1, ?_⟩
  have hmem := hport.2
  rwa [other_side ho] at hmem

/-- A connection leads from the kernel of its one end to the kernel of the other. -/
theorem feeds_of_other (hr : w.IsPort r) (hside : r.side = .output) (ho : w.other r = some r') :
    w.Feeds r.kernel r'.kernel := by
  refine ⟨(r, r'), mem_edgesFrom.mpr ⟨r.key, hside ▸ hr.2, ?_, ?_⟩, rfl⟩
  · rw [← hside]
  · rwa [← hside]

theorem Reached.feeds (h : w.Reached sources a) (hab : w.Feeds a b) : w.Reached sources b := by
  obtain ⟨s, hs, hpath⟩ := h
  exact ⟨s, hs, hpath.tail hab⟩

/-- All ports of the kernels of `all_kernels` are connected. -/
def Connected (w : World) : Prop :=
  ∀ k ∈ w.allKernels, ∀ s, ∀ key ∈ (w.ports k s).keys, (w.info ⟨k, s, key⟩).otherKernel ≠ none

theorem Connected.exists_other (h : w.Connected) (hr : w.IsPort r) (hall : r.kernel ∈ w.allKernels) :
    ∃ r', w.other r = some r' := by
  refine Option.ne_none_iff_exists'.mp fun hnone => ?_
  exact h r.kernel hall r.side r.key hr.2 (other_eq_none.mp hnone)

/-- A kernel that the traversal reaches is in the map. -/
theorem Reached.mem_all (hm : w.Matched) (hall : w.sourceKernels ⊆ w.allKernels)
    (hsources : ∀ k ∈ sources, k ∈ w.sourceKernels) (h : w.Reached sources k) :
    k ∈ w.allKernels := by
  have hlt : ∀ k ∈ sources, k < w.next := fun k hk => (hm.source k (hsources k hk)).1
  obtain ⟨s, hs, hpath⟩ := h
  induction hpath with
  | refl => exact hall (hsources s hs)
  | @tail j k hpath hstep _ =>
      obtain ⟨e, he, rfl⟩ := hstep
      obtain ⟨key, hkey, -, ho⟩ := mem_edgesFrom.mp he
      have hj : w.Reached sources j := ⟨s, hs, hpath⟩
      obtain ⟨hport, hback⟩ := hm.symm _ e.2 ⟨hj.lt hm.closed hlt, hkey⟩ ho
      exact hm.all _ _ hport hback

/-- So none that it reaches has a port that is not connected. -/
theorem Connected.not_someFree (h : w.Connected) (hall : ∀ k, w.Reached sources k → k ∈ w.allKernels) :
    ¬w.SomeFree sources := by
  rintro ⟨k, hk, key, hkey, ho⟩
  exact h k (hall k hk) .output key hkey (other_eq_none.mp ho)

/-- **Along connections that form no cycle** every kernel is reached from the source kernels. -/
theorem reached_of_acyclic (hm : w.Matched) (hc : w.Connected)
    (hsources : ∀ k, k ∈ sources ↔ k ∈ w.sourceKernels)
    (hacyclic : ∀ k, ¬Relation.TransGen w.Feeds k k) (hr : w.IsPort r)
    (hall : r.kernel ∈ w.allKernels) : w.Reached sources r.kernel := by
  let before : Fin w.next → Fin w.next → Prop := fun a b => Relation.TransGen w.Feeds a b
  have hirrefl : Std.Irrefl before := ⟨fun a => hacyclic a⟩
  have htrans : IsTrans (Fin w.next) before := ⟨fun a b c hab hbc => hab.trans hbc⟩
  have hwf : WellFounded before := Finite.wellFounded_of_trans_of_irrefl before
  suffices h : ∀ (k : Fin w.next) (r : PortRef), r.kernel = k → w.IsPort r → r.kernel ∈ w.allKernels →
      w.Reached sources r.kernel from h ⟨r.kernel, hr.1⟩ r rfl hr hall
  intro k
  induction k using hwf.induction with
  | _ k ih =>
      intro r hk hr hall
      obtain ⟨r', ho⟩ := hc.exists_other hr hall
      cases hp : (w.ports r.kernel .input).hasPorts with
      | false =>
          have hsource := (hm.source_iff hr ho).mpr hp
          exact ⟨r.kernel, (hsources _).mpr hsource, .refl⟩
      | true =>
          -- the kernel at the other end of an input port comes before this one
          obtain ⟨key, hkey⟩ := List.exists_mem_of_length_pos (of_decide_eq_true hp)
          have hin : w.IsPort ⟨r.kernel, .input, key⟩ := ⟨hr.1, hkey⟩
          obtain ⟨q, hq⟩ := hc.exists_other hin hall
          obtain ⟨hportq, hback⟩ := hm.symm _ q hin hq
          have hfeeds := feeds_of_other hportq (other_side hq) hback
          have hbefore : before ⟨q.kernel, hportq.1⟩ k := .single (hk ▸ hfeeds)
          have hallq := hm.all q _ hportq hback
          exact (ih ⟨q.kernel, hportq.1⟩ hbefore q rfl hportq hallq).feeds hfeeds

end World

end Built

/-! ## The pass -/

section Given

variable {w : World} {sources : List KernelId} {r r' q : PortRef} {align fuel : Nat}

/-- The kernel that writes to the connection of the port is reached. -/
def World.Fed (w : World) (sources : List KernelId) (r : PortRef) : Prop :=
  ∃ p, w.writer r = some p ∧ w.Reached sources p.kernel

/-- What the pass makes of a map that is connected: the connections of the kernels that are reached
have their queues, one each. -/
structure Given (w : World) (sources : List KernelId) (a : Alloc) : Prop where
  shared : ∀ r r', w.IsPort r → w.other r = some r' → (a.world.info r').fifo = (a.world.info r).fifo
  single : ∀ r q, w.IsPort r → w.IsPort q → (a.world.info r).fifo ≠ none →
    (a.world.info q).fifo = (a.world.info r).fifo → q = r ∨ w.other r = some q
  fed : ∀ r, w.IsPort r → ((a.world.info r).fifo ≠ none ↔ w.Fed sources r)

theorem writer_port (hm : w.Matched) (hr : w.IsPort r) {p : PortRef} (hp : w.writer r = some p) :
    w.IsPort p ∧ p.side = .output := by
  unfold World.writer at hp
  cases hside : r.side with
  | output =>
      rw [hside] at hp
      obtain rfl := Option.some_inj.mp hp
      exact ⟨hr, hside⟩
  | input =>
      rw [hside] at hp
      exact ⟨(hm.symm r p hr hp).1, by rw [World.other_side hp, hside]; rfl⟩

/-- Queues by the place of the writer in a list are one for each connection. -/
theorem Queued.given {a : Alloc} {done : List PortRef} (hm : w.Matched)
    (hdone : ∀ p, w.IsPort p → p.side = .output → (p ∈ done ↔ w.Reached sources p.kernel))
    (h : Queued w done a) : Given w sources a := by
  refine ⟨fun r r' hr ho => ?_, fun r q hr hq hsome heq => ?_, fun r hr => ?_⟩
  · rw [h.fifo hr, h.fifo (hm.symm r r' hr ho).1, writer_other hm hr ho]
  · obtain ⟨f, hf⟩ := Option.ne_none_iff_exists'.mp hsome
    rw [hf, h.fifo hq] at heq
    rw [h.fifo hr] at hf
    obtain ⟨p, hp, hpf⟩ := Option.bind_eq_some_iff.mp hf
    obtain ⟨p', hp', hpf'⟩ := Option.bind_eq_some_iff.mp heq
    obtain rfl := idxOf?_inj hpf hpf'
    exact eq_or_other_of_writer hm hr hq hp hp'
  · rw [h.fifo hr, World.Fed]
    cases hw : w.writer r with
    | none => simp
    | some p =>
        obtain ⟨hp, hside⟩ := writer_port hm hr hw
        simp only [Option.bind_some, Option.some.injEq, exists_eq_left', ← hdone p hp hside, ne_eq,
          List.idxOf?_eq_none_iff, not_not]

variable (align) in
/-- **The pass over a map that is connected.** -/
theorem allocateAll_given (hm : w.Matched) (hu : w.Unallocated) (hc : w.Connected)
    (hnodup : sources.Nodup) (hsources : ∀ k, k ∈ sources ↔ k ∈ w.sourceKernels)
    (hfuel : w.next + 2 ≤ fuel) :
    ∃ a, (allocateAll align fuel sources).run { world := w } = .ok true a ∧ Given w sources a := by
  have hlt : ∀ k ∈ sources, k < w.next := fun k hk => (hm.source k ((hsources k).mp hk)).1
  obtain ⟨l, hl, hmem, horder⟩ := exists_taken hm.closed hlt hnodup
  have hall : ∀ k, w.Reached sources k → k ∈ w.allKernels :=
    fun k hk => hk.mem_all hm hu.all fun k => (hsources k).mp
  have hks : ∀ k, k ∈ upToNull l ↔ w.Reached sources k :=
    fun k => mem_upToNull_iff (horder fuel hfuel) hl hmem (hc.not_someFree hall)
  have hedges : ∀ e ∈ (upToNull l).flatMap w.edgesFrom, w.IsPort e.1 ∧ e.1.side = .output ∧
      w.other e.1 = some e.2 := by
    intro e he
    obtain ⟨k, hk, he⟩ := mem_edges.mp he
    obtain ⟨key, hkey, heq, ho⟩ := World.mem_edgesFrom.mp he
    rw [heq]
    exact ⟨⟨((hks k).mp hk).lt hm.closed hlt, hkey⟩, rfl, ho⟩
  have hfirsts : (((upToNull l).flatMap w.edgesFrom).map Prod.fst).Nodup := by
    refine List.Nodup.map_on (fun e he e' he' heq => ?_) (nodup_edges (nodup_upToNull hl))
    have ho := (hedges e he).2.2
    rw [heq, (hedges e' he').2.2] at ho
    exact Prod.ext heq (Option.some_inj.mp ho).symm
  have hstart : Queued w [] { world := w } := by
    refine ⟨rfl, fun r _ => ?_, rfl⟩
    have hq : w.queueOf [] r = none := by
      rw [queueOf_eq]
      cases w.writer r <;> rfl
    rw [hq, ← hu.fifo r]
  obtain ⟨a, ha, hqueued⟩ := hstart.callAll align hm hedges hfirsts
  have hst : w.SameGraph (Alloc.world { world := w }) := .refl w
  have hrun := bfsLoop_run false ((keeps_allocate align).on w) hm.closed (horder fuel hfuel)
    (fun k hk => ((hmem k).mp hk).lt hm.closed hlt) nofun hst
  rw [run_bind_of_ok ha] at hrun
  refine ⟨a, hrun, hqueued.given hm fun p hp hside => ?_⟩
  rw [List.nil_append, List.mem_map]
  constructor
  · rintro ⟨e, he, rfl⟩
    obtain ⟨k, hk, he⟩ := mem_edges.mp he
    obtain ⟨key, -, heq, -⟩ := World.mem_edgesFrom.mp he
    rw [heq]
    exact (hks k).mp hk
  · intro hreached
    obtain ⟨p', ho⟩ := hc.exists_other hp (hall _ hreached)
    refine ⟨(p, p'), mem_edges.mpr ⟨p.kernel, (hks _).mpr hreached, ?_⟩, rfl⟩
    refine World.mem_edgesFrom.mpr ⟨p.key, hside ▸ hp.2, ?_, ?_⟩
    · rw [← hside]
    · rwa [← hside]

/-- Where all kernels are reached, all ports are fed, and the other way round. -/
theorem fed_iff_reached (hm : w.Matched) (hc : w.Connected) :
    (∀ r, w.IsPort r → r.kernel ∈ w.allKernels → w.Fed sources r) ↔
      ∀ r, w.IsPort r → r.kernel ∈ w.allKernels → w.Reached sources r.kernel := by
  constructor
  · intro h r hr hall
    obtain ⟨p, hp, hreached⟩ := h r hr hall
    cases hside : r.side with
    | output =>
        unfold World.writer at hp
        rw [hside] at hp
        exact Option.some_inj.mp hp ▸ hreached
    | input =>
        unfold World.writer at hp
        rw [hside] at hp
        obtain ⟨hport, hback⟩ := hm.symm r p hr hp
        have hside' : p.side = .output := by rw [World.other_side hp, hside]; rfl
        exact hreached.feeds (World.feeds_of_other hport hside' hback)
  · intro h r hr hall
    obtain ⟨r', ho⟩ := hc.exists_other hr hall
    unfold World.Fed World.writer
    cases hside : r.side with
    | output => exact ⟨r, rfl, h r hr hall⟩
    | input =>
        obtain ⟨hport, hback⟩ := hm.symm r r' hr ho
        exact ⟨r', ho, h r' hport (hm.all _ _ hport hback)⟩

end Given

/-- **Every port gets a queue**, in a map built by calls that has passed the check, as far as it is
reached from the source kernels: the pass ends; the two ends of a connection share their queue, and two
connections never do; and every port of every kernel has one exactly if every kernel with ports is
reached from the source kernels along connections, as it is where these form no cycle. -/
theorem queues_given {w₀ w : World} {cs : List Call} (h₀ : w₀.Unlinked)
    (hfifo : ∀ r, (w₀.info r).fifo = none) (hrun : Run Calls w₀ cs w) {container sources : List KernelId}
    (hcontainer : ∀ k, k ∈ container ↔ k ∈ w.allKernels)
    (hcheck : (checkEdges container).run w = .ok ⟨⟩ w) (hnodup : sources.Nodup)
    (hsources : ∀ k, k ∈ sources ↔ k ∈ w.sourceKernels) (align : Nat) {fuel : Nat}
    (hfuel : w.next + 2 ≤ fuel) :
    ∃ a, (allocateAll align fuel sources).run { world := w } = .ok true a ∧
      (∀ r r', w.IsPort r → w.other r = some r' →
        (a.world.info r').fifo = (a.world.info r).fifo) ∧
      (∀ r q, w.IsPort r → w.IsPort q → (a.world.info r).fifo ≠ none →
        (a.world.info q).fifo = (a.world.info r).fifo → q = r ∨ w.other r = some q) ∧
      ((∀ r, w.IsPort r → r.kernel ∈ w.allKernels → (a.world.info r).fifo ≠ none) ↔
        ∀ r, w.IsPort r → r.kernel ∈ w.allKernels → w.Reached sources r.kernel) ∧
      ((∀ k, ¬Relation.TransGen w.Feeds k k) →
        ∀ r, w.IsPort r → r.kernel ∈ w.allKernels → (a.world.info r).fifo ≠ none) := by
  have hm : w.Matched := (evolves_of_run hrun).2 h₀.matched
  have hu : w.Unallocated :=
    unallocated_of_run hrun ⟨hfifo, by rw [h₀.source]; exact Finset.empty_subset _⟩
  have hc : w.Connected := fun k hk => (checkEdges_ok.mp hcheck).2 k ((hcontainer k).mpr hk)
  obtain ⟨a, ha, hgiven⟩ := allocateAll_given align hm hu hc hnodup hsources hfuel
  have hfed : (∀ r, w.IsPort r → r.kernel ∈ w.allKernels → (a.world.info r).fifo ≠ none) ↔
      ∀ r, w.IsPort r → r.kernel ∈ w.allKernels → w.Reached sources r.kernel := by
    rw [← fed_iff_reached hm hc]
    exact forall_congr' fun r => forall_congr' fun hr => imp_congr_right fun _ => hgiven.fed r hr
  refine ⟨a, ha, hgiven.shared, hgiven.single, hfed, fun hacyclic => ?_⟩
  exact hfed.mpr fun r hr hall => World.reached_of_acyclic hm hc hsources hacyclic hr hall

/-- One connection, allocated. -/
theorem queues_given_one : ∃ w, Run Calls twoKernels [.link .in 0 "out" 1 nullPortValue 0] w ∧
    ∃ a, (allocateAll 16 4 [0]).run { world := w } = .ok true a ∧
      (a.world.info ⟨0, .output, "out"⟩).fifo ≠ none ∧
      (a.world.info ⟨1, .input, "in"⟩).fifo = (a.world.info ⟨0, .output, "out"⟩).fifo := by
  obtain ⟨w, hrun, hall, hsource, hnext, hport, hother, hcheck⟩ : ∃ w,
      Run Calls twoKernels [.link .in 0 "out" 1 nullPortValue 0] w ∧ w.allKernels = {1, 0} ∧
      w.sourceKernels = {0} ∧ w.next = 2 ∧ w.IsPort ⟨0, .output, "out"⟩ ∧
      w.other ⟨0, .output, "out"⟩ = some ⟨1, .input, "in"⟩ ∧
      (checkEdges [0, 1]).run w = .ok ⟨⟩ w := by
    refine ⟨_, .single ⟨⟨by decide, by decide⟩, .inl ⟨_, rfl⟩⟩, rfl, rfl, rfl,
      ⟨by decide, by decide⟩, rfl, rfl⟩
  have hcontainer : ∀ k, k ∈ [0, 1] ↔ k ∈ w.allKernels := by simp [hall, or_comm]
  have hsources : ∀ k, k ∈ [0] ↔ k ∈ w.sourceKernels := by simp [hsource]
  have hfuel : w.next + 2 ≤ 4 := by rw [hnext]
  obtain ⟨a, ha, hshared, -, hgiven, -⟩ := queues_given twoKernels_unlinked (fun _ => rfl) hrun
    hcontainer hcheck (by decide) hsources 16 hfuel
  have hzero : w.Reached [0] 0 := ⟨0, List.mem_singleton_self 0, .refl⟩
  have hone : w.Reached [0] 1 := hzero.feeds (World.feeds_of_other hport rfl hother)
  have hreached : ∀ r, w.IsPort r → r.kernel ∈ w.allKernels → w.Reached [0] r.kernel := by
    intro r _ hr
    rcases List.mem_pair.mp ((hcontainer r.kernel).mpr hr) with hr | hr
    · rw [hr]
      exact hzero
    · rw [hr]
      exact hone
  exact ⟨w, hrun, a, ha, hgiven.mpr hreached _ hport (by simp [hall]), hshared _ _ hport hother⟩

/-- Two kernels with an input and an output port each. -/
def twoRelays : World where
  kernel := fun _ => { className := "relay", input := .one "in", output := .one "out" }
  info := fun _ => { type := "int" }
  next := 2

/-- Linked to a cycle they pass the check, and there is no source kernel to reach them from: the pass
gives no queue at all. -/
theorem cycle_not_allocated : ∃ w,
    Run Calls twoRelays [.link .in 0 "out" 1 "in" 0, .link .in 1 "out" 0 "in" 0] w ∧
      (∀ k, k ∈ [0, 1] ↔ k ∈ w.allKernels) ∧ (checkEdges [0, 1]).run w = .ok ⟨⟩ w ∧
      (∀ k, k ∈ ([] : List KernelId) ↔ k ∈ w.sourceKernels) ∧
      ∀ align fuel, 0 < fuel → (allocateAll align fuel []).run { world := w } = .ok true { world := w } ∧
        w.IsPort ⟨0, .output, "out"⟩ ∧ (w.info ⟨0, .output, "out"⟩).fifo = none := by
  refine ⟨_, .cons ⟨⟨by decide, by decide⟩, .inl ⟨_, rfl⟩⟩ (.single ⟨⟨by decide, by decide⟩,
    .inl ⟨_, rfl⟩⟩), ?_, rfl, ?_, ?_⟩
  · intro k
    show _ ↔ k ∈ ({0, 1, 1, 0} : Finset KernelId)
    simp [or_comm]
  · intro k
    exact iff_of_false List.not_mem_nil (Finset.notMem_empty k)
  · intro align fuel hfuel
    obtain ⟨n, rfl⟩ := Nat.exists_eq_succ_of_ne_zero hfuel.ne'
    exact ⟨rfl, ⟨by decide, by decide⟩, rfl⟩

end RaftLib.Graph
