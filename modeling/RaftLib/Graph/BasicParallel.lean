/-
# `RaftLib.Graph.BasicParallel` -- kernels duplicated while the graph runs

`basic_parallel::start` (`basicparallel.cpp`) takes a kernel that is enabled for duplication, clones it,
adds a port to the kernel before it and to the kernel behind it, gives the new ports their queues, and
schedules the clone. Each of these is a step here, and a kernel that stops, and closes its output queues
(`schedule.cpp`), may come at any point in between. Which kernels are taken depends on how full the queues
have been; here any that is enabled may be.

`Allocate::allocate` gives two ports a queue and does not say that they are connected. So none of the new
ports ever is (`Loose`), and a queue that comes after its producing kernel has stopped is never closed.
-/
import RaftLib.Graph.Allocate

namespace RaftLib.Graph

open RaftLib.Logic.Program
open RaftLib.Logic.Steps

namespace BasicParallel

/-! ## The state -/

/-- What `basic_parallel` is about to do with the kernel it has taken, and with its clone. -/
inductive Manager where
  | idle
  | attachIn (kernel ptr : KernelId)
  | attachOut (kernel ptr : KernelId)
  | schedule (ptr : KernelId)
  deriving DecidableEq, Repr

/-- The graph with its queues, of which some are closed; `portNameIndex` is the counter of a
`parallel_k`. -/
structure State where
  alloc : Alloc
  portNameIndex : KernelId → Nat := fun _ => 0
  closed : Finset FifoId := ∅
  stopped : Finset KernelId := ∅
  manager : Manager := .idle

namespace State

def world (s : State) : World := s.alloc.world

def withWorld (s : State) (w : World) : State := { s with alloc := { s.alloc with world := w } }

end State

/-- The exceptions of the graph, those that only happen here, and a null pointer that is followed. -/
inductive Stop where
  | graph (e : Err)
  | portAlreadyExists (what : String)
  | nullPointer
  deriving DecidableEq, Repr

abbrev Prog := EStateM Stop State

def onWorld {α : Type} (x : Graph.Prog α) : Prog α := fun s =>
  match x.run s.world with
  | .ok a w => .ok a (s.withWorld w)
  | .error e w => .error (.graph e) (s.withWorld w)

def onAlloc {α : Type} (x : AllocProg α) : Prog α := fun s =>
  match x.run s.alloc with
  | .ok a alloc => .ok a { s with alloc := alloc }
  | .error e alloc => .error (.graph e) { s with alloc := alloc }

/-! ## `addPort` -/

/-- A port with a new key, at the place where its key belongs. -/
def insertKey (m : PortMap) (key : PortKey) (hkey : key ∉ m.keys) : PortMap where
  keys := m.keys.orderedInsert (· ≤ ·) key
  nodup := (List.perm_orderedInsert (· ≤ ·) key m.keys).nodup_iff.mpr (List.nodup_cons.mpr ⟨hkey, m.nodup⟩)

def withPort (w : World) (r : PortRef) (type : TypeIndex) (hkey : r.key ∉ (w.ports r.kernel r.side).keys) :
    World :=
  let m := insertKey (w.ports r.kernel r.side) r.key hkey
  { w with
    kernel := Function.update w.kernel r.kernel (match r.side with
      | .input => { w.kernel r.kernel with input := m }
      | .output => { w.kernel r.kernel with output := m })
    info := Function.update w.info r { type := type } }

/-- `Port::add_port`. -/
def addPortNamed (r : PortRef) (type : TypeIndex) : Prog PUnit := do
  let s ← get
  if hkey : r.key ∉ (s.world.ports r.kernel r.side).keys then
    set (s.withWorld (withPort s.world r type hkey))
  else throw (.portAlreadyExists ("FATAL ERROR: port \"" ++ r.key ++ "\" already exists!"))

/-- On which side `addPort` of a kernel's class adds a port, and of which type: `split` and `join` call
`addPortTo`, and `kernel::addPort` adds none. -/
abbrev Adds := KernelId → Option (Side × TypeIndex)

variable (adds : Adds)

/-- `addPort`. -/
def addPort (k : KernelId) : Prog Nat :=
  match adds k with
  | some (side, type) => do
      let portid := (← get).portNameIndex k
      modify fun s => { s with portNameIndex := Function.update s.portNameIndex k (portid + 1) }
      addPortNamed ⟨k, side, toString portid⟩ type
      return portid
  | none => return 0

/-! ## The steps of the manager -/

variable (align : Nat)

/-- `kernel->clone()`. -/
def cloneKernel (k : KernelId) : Prog PUnit := do
  let ptr ← onWorld (clone k)
  modify fun s => { s with manager := .attachIn k ptr }

/-- The clone `ptr` is attached to the kernel in front of `kernel`. -/
def attachInput (kernel ptr : KernelId) : Prog PUnit := do
  if ((← get).world.ports kernel .input).count ≠ 0 then
    let oldPortIn ← onWorld (getPortInfo kernel .input)
    match ((← get).world.info oldPortIn).otherKernel with
    | some other =>
        let portid ← addPort adds other
        let newOtherOutport ← onWorld (getPortInfoFor other .output (toString portid))
        let newPortIn ← onWorld (getPortInfo ptr .input)
        onAlloc (allocate align newOtherOutport newPortIn)
    | none => throw .nullPointer
  modify fun s => { s with manager := .attachOut kernel ptr }

/-- And to the kernel behind it. -/
def attachOutput (kernel ptr : KernelId) : Prog PUnit := do
  if ((← get).world.ports kernel .output).count ≠ 0 then
    let oldPortOut ← onWorld (getPortInfo kernel .output)
    match ((← get).world.info oldPortOut).otherKernel with
    | some other =>
        let portid ← addPort adds other
        let newOtherInport ← onWorld (getPortInfoFor other .input (toString portid))
        let newoutport ← onWorld (getPortInfo ptr .output)
        onAlloc (allocate align newoutport newOtherInport)
    | none => throw .nullPointer
  modify fun s => { s with manager := .schedule ptr }

/-- `Schedule::scheduleKernel`, on the keepers. -/
def withScheduled (w : World) (k : KernelId) : World :=
  { w with
    sourceKernels := if !(w.ports k .input).hasPorts then insert k w.sourceKernels else w.sourceKernels
    dstKernels := if !(w.ports k .output).hasPorts then insert k w.dstKernels else w.dstKernels
    allKernels := insert k w.allKernels
    internallyCreatedKernels := if (w.kernel k).internalAlloc then insert k w.internallyCreatedKernels
      else w.internallyCreatedKernels }

def scheduleKernel (k : KernelId) : Prog PUnit :=
  modify fun s => { s.withWorld (withScheduled s.world k) with manager := .idle }

/-! ## Kernels that stop -/

/-- `port.invalidate()`, on the queue of the port. -/
def invalidatePort (k : KernelId) (key : PortKey) : Prog PUnit := do
  match ((← get).world.info ⟨k, .output, key⟩).fifo with
  | some fifo => modify fun s => { s with closed := insert fifo s.closed }
  | none => throw .nullPointer

/-- `Schedule::invalidateOutputPorts`, of a kernel that has stopped. -/
def stopKernel (k : KernelId) : Prog PUnit := do
  ((← get).world.ports k .output).keys.forM (invalidatePort k)
  modify fun s => { s with stopped := insert k s.stopped }

/-! ## Runs -/

inductive Action where
  | clone (k : KernelId)
  | attachInput
  | attachOutput
  | schedule
  | stop (k : KernelId)
  deriving DecidableEq, Repr

variable (dupEnabled : KernelId → Bool)

/-- One step. What throws, or follows a null pointer, ends the program. -/
inductive Step (s : State) : Action → State → Prop
  | clone {k t} (hidle : s.manager = .idle) (hk : k ∈ s.world.allKernels) (hdup : dupEnabled k)
      (h : (cloneKernel k).run s = .ok ⟨⟩ t) : Step s (.clone k) t
  | attachInput {k ptr t} (hm : s.manager = .attachIn k ptr)
      (h : (attachInput adds align k ptr).run s = .ok ⟨⟩ t) : Step s .attachInput t
  | attachOutput {k ptr t} (hm : s.manager = .attachOut k ptr)
      (h : (attachOutput adds align k ptr).run s = .ok ⟨⟩ t) : Step s .attachOutput t
  | schedule {ptr t} (hm : s.manager = .schedule ptr)
      (h : (scheduleKernel ptr).run s = .ok ⟨⟩ t) : Step s .schedule t
  | stop {k t} (hk : k ∈ s.world.allKernels) (hrun : k ∉ s.stopped)
      (h : (stopKernel k).run s = .ok ⟨⟩ t) : Step s (.stop k) t

/-! ## A whole graph -/

/-- The two ports are connected, both ways, and share a queue. -/
structure Paired (w : World) (r r' : PortRef) : Prop where
  there : w.other r = some r'
  back : w.other r' = some r
  port : w.IsPort r'
  shared : (w.info r').fifo = (w.info r).fifo
  queue : (w.info r).fifo ≠ none

/-- **The graph is whole**: each port is paired with another, and the queues that a stopped kernel writes
to are closed. -/
structure Whole (s : State) : Prop where
  paired : ∀ r, s.world.IsPort r → ∃ r', Paired s.world r r'
  closed : ∀ r, s.world.IsPort r → r.side = .input → ∀ r', s.world.other r = some r' →
    r'.kernel ∈ s.stopped → ∀ fifo, (s.world.info r).fifo = some fifo → fifo ∈ s.closed

/-- The kernel has no ports. -/
def Portless (w : World) (k : KernelId) : Prop := ∀ side, (w.ports k side).keys = []

/-- A step that duplicates no kernel with ports. -/
def NoDuplication (s : State) (a : Action) : Prop := ∀ k, a = .clone k → Portless s.world k

/-! ## What a port keeps -/

/-- Ports stay, with what they record of their other ends. -/
def Extends (w w' : World) : Prop := ∀ r, w.IsPort r → w'.IsPort r ∧ w'.other r = w.other r

theorem Extends.refl (w : World) : Extends w w := fun _ hr => ⟨hr, rfl⟩

theorem Extends.trans {w w' w'' : World} (h : Extends w w') (h' : Extends w' w'') : Extends w w'' :=
  fun r hr => ⟨(h' r (h r hr).1).1, (h' r (h r hr).1).2.trans (h r hr).2⟩

theorem extends_withClone (w : World) (k : KernelId) : Extends w (w.withClone k) := by
  intro r hr
  have hne : r.kernel ≠ w.next := Nat.ne_of_lt hr.1
  refine ⟨⟨Nat.lt_succ_of_lt hr.1, ?_⟩, ?_⟩
  · rw [World.withClone_ports_of_ne w k hne]
    exact hr.2
  · unfold World.other
    rw [World.withClone_info_of_ne w k hne]

theorem withPort_ports (w : World) (r : PortRef) (type : TypeIndex)
    (hkey : r.key ∉ (w.ports r.kernel r.side).keys) (k : KernelId) (side : Side) :
    (withPort w r type hkey).ports k side =
      if k = r.kernel ∧ side = r.side then insertKey (w.ports r.kernel r.side) r.key hkey
      else w.ports k side := by
  by_cases hk : k = r.kernel
  · subst hk
    obtain ⟨rk, rs, rkey⟩ := r
    cases rs <;> cases side <;> simp [withPort, World.ports, Kernel.ports]
  · simp [withPort, World.ports, Kernel.ports, hk]

/-- A new port changes nothing about the others. -/
theorem extends_withPort (w : World) (r : PortRef) (type : TypeIndex)
    (hkey : r.key ∉ (w.ports r.kernel r.side).keys) : Extends w (withPort w r type hkey) := by
  intro q hq
  refine ⟨⟨hq.1, ?_⟩, ?_⟩
  · rw [withPort_ports]
    split
    · next h =>
        obtain ⟨hk, hs⟩ := h
        have hmem := hq.2
        rw [hk, hs] at hmem
        exact (List.mem_orderedInsert (· ≤ ·)).mpr (.inr hmem)
    · exact hq.2
  · have hne : q ≠ r := by
      rintro rfl
      exact hkey hq.2
    have hinfo : (withPort w r type hkey).info q = w.info q := Function.update_of_ne hne _ _
    unfold World.other
    rw [hinfo]

/-! ## The programs of the manager -/

section Carries

variable {α β : Type} {w : World}

/-- A return leaves the ports of `w` as they are. -/
def Carries (w : World) (x : Prog α) : Prop :=
  Triple (fun s => Extends w s.world) x (fun _ s => Extends w s.world) fun _ _ => True

theorem Carries.bind {x : Prog α} {f : α → Prog β} (hx : Carries w x) (hf : ∀ a, Carries w (f a)) :
    Carries w (x >>= f) :=
  triple_bind hx hf

theorem carries_pure (a : α) : Carries w (pure a) := fun _ hs => hs

theorem carries_throw (e : Stop) : Carries w (throw e : Prog α) := fun _ _ => trivial

theorem carries_get : Carries w get := fun _ hs => hs

theorem carries_modify {f : State → State} (h : ∀ s, Extends s.world (f s).world) :
    Carries w (modify f) := fun s hs => hs.trans (h s)

theorem carries_onWorld {x : Graph.Prog α}
    (h : ∀ v a v', x.run v = .ok a v' → Extends v v') : Carries w (onWorld x) := by
  refine Triple.intro (fun s a t hs hrun => ?_) fun _ _ _ _ _ => trivial
  have hx : onWorld x s = .ok a t := hrun
  unfold onWorld at hx
  split at hx
  · next b v hv =>
      cases hx
      exact hs.trans (h _ _ _ hv)
  · cases hx

theorem carries_clone (k : KernelId) : Carries w (onWorld (clone k)) := by
  refine carries_onWorld fun v a v' h => ?_
  rcases clone_run (w := v) k with ⟨-, hrun⟩ | ⟨-, e, hrun⟩
  · rw [hrun] at h
    cases h
    exact extends_withClone v k
  · rw [hrun] at h
    cases h

theorem carries_getPortInfo (k : KernelId) (side : Side) :
    Carries w (onWorld (getPortInfo k side)) := by
  refine carries_onWorld fun v a v' h => ?_
  rcases getPortInfo_run (w := v) k side with ⟨key, -, hrun⟩ | ⟨e, hrun⟩
  · rw [hrun] at h
    cases h
    exact .refl v
  · rw [hrun] at h
    cases h

theorem carries_getPortInfoFor (k : KernelId) (side : Side) (key : PortKey) :
    Carries w (onWorld (getPortInfoFor k side key)) := by
  refine carries_onWorld fun v a v' h => ?_
  unfold getPortInfoFor at h
  by_cases hkey : key ∈ (v.ports k side).keys
  · simp [hkey] at h
    rw [← h.2]
    exact .refl v
  · simp [hkey] at h

theorem carries_allocate (a b : PortRef) : Carries w (onAlloc (allocate align a b)) := by
  refine Triple.intro (fun s u t hs hrun => ?_) fun _ _ _ _ _ => trivial
  have hx : onAlloc (allocate align a b) s = .ok u t := hrun
  unfold onAlloc at hx
  cases halloc : (allocate align a b).run s.alloc with
  | error e alloc =>
      rw [halloc] at hx
      cases hx
  | ok v alloc =>
      rw [halloc] at hx
      cases hx
      have hsame := keeps_allocate _ a b s.alloc _ alloc halloc
      have hnext : alloc.world.next = s.alloc.world.next := by
        rw [allocate_returned halloc]
        rfl
      refine hs.trans fun r hr => ⟨⟨?_, ?_⟩, hsame.other r⟩
      · show r.kernel < alloc.world.next
        rw [hnext]
        exact hr.1
      · show r.key ∈ (alloc.world.ports r.kernel r.side).keys
        rw [hsame.ports]
        exact hr.2

theorem carries_addPortNamed (r : PortRef) (type : TypeIndex) : Carries w (addPortNamed r type) := by
  refine Triple.intro (fun s u t hs hrun => ?_) fun _ _ _ _ _ => trivial
  unfold addPortNamed at hrun
  by_cases hkey : r.key ∉ (s.world.ports r.kernel r.side).keys
  · rw [run_bind_of_ok (EStateM.run_get _), dif_pos hkey] at hrun
    cases hrun
    exact hs.trans (extends_withPort s.world r type hkey)
  · rw [run_bind_of_ok (EStateM.run_get _), dif_neg hkey] at hrun
    cases hrun

theorem carries_addPort (k : KernelId) : Carries w (addPort adds k) := by
  unfold addPort
  cases adds k with
  | none => exact carries_pure 0
  | some port =>
      obtain ⟨side, type⟩ := port
      refine carries_get.bind fun s => ?_
      refine Carries.bind (carries_modify fun s => .refl s.world) fun _ => ?_
      exact (carries_addPortNamed _ type).bind fun _ => carries_pure _

theorem carries_cloneKernel (k : KernelId) : Carries w (cloneKernel k) :=
  (carries_clone k).bind fun _ => carries_modify fun s => .refl s.world

theorem carries_attachInput (k ptr : KernelId) : Carries w (attachInput adds align k ptr) := by
  have hend : Carries w (modify fun s => { s with manager := .attachOut k ptr }) :=
    carries_modify fun s => .refl s.world
  refine carries_get.bind fun s => ?_
  split
  · refine (carries_getPortInfo k .input).bind fun oldPortIn => carries_get.bind fun s => ?_
    split
    · next other _ =>
        exact (carries_addPort adds other).bind fun portid =>
          (carries_getPortInfoFor other .output _).bind fun newOtherOutport =>
            (carries_getPortInfo ptr .input).bind fun newPortIn =>
              (carries_allocate align newOtherOutport newPortIn).bind fun _ => hend
    · exact Carries.bind (carries_throw _) fun _ => hend
  · exact hend

theorem carries_attachOutput (k ptr : KernelId) : Carries w (attachOutput adds align k ptr) := by
  have hend : Carries w (modify fun s => { s with manager := .schedule ptr }) :=
    carries_modify fun s => .refl s.world
  refine carries_get.bind fun s => ?_
  split
  · refine (carries_getPortInfo k .output).bind fun oldPortOut => carries_get.bind fun s => ?_
    split
    · next other _ =>
        exact (carries_addPort adds other).bind fun portid =>
          (carries_getPortInfoFor other .input _).bind fun newOtherInport =>
            (carries_getPortInfo ptr .output).bind fun newoutport =>
              (carries_allocate align newoutport newOtherInport).bind fun _ => hend
    · exact Carries.bind (carries_throw _) fun _ => hend
  · exact hend

theorem carries_scheduleKernel (k : KernelId) : Carries w (scheduleKernel k) :=
  carries_modify fun _ _ hr => ⟨hr, rfl⟩

theorem carries_stopKernel (k : KernelId) : Carries w (stopKernel k) := by
  refine carries_get.bind fun s => Carries.bind ?_ fun _ => carries_modify fun s => .refl s.world
  induction (s.world.ports k .output).keys with
  | nil => exact carries_pure _
  | cons key keys ih =>
      refine Carries.bind (carries_get.bind fun s => ?_) fun _ => ih
      split
      · exact carries_modify fun s => .refl s.world
      · exact carries_throw _

end Carries

variable {adds align dupEnabled}
variable {s t : State} {a : Action} {as : List Action}

/-- **No step connects a port.** -/
theorem Step.extends (h : Step adds align dupEnabled s a t) : Extends s.world t.world := by
  cases h with
  | clone hidle hk hdup h => exact (carries_cloneKernel _).ok (.refl s.world) h
  | attachInput hm h => exact (carries_attachInput adds align _ _).ok (.refl s.world) h
  | attachOutput hm h => exact (carries_attachOutput adds align _ _).ok (.refl s.world) h
  | schedule hm h => exact (carries_scheduleKernel _).ok (.refl s.world) h
  | stop hk hrun h => exact (carries_stopKernel _).ok (.refl s.world) h

theorem extends_of_run (h : Run (Step adds align dupEnabled) s as t) : Extends s.world t.world :=
  h.invariant (I := fun v => Extends s.world v.world) (fun _ _ _ hs hstep => hs.trans hstep.extends)
    (.refl s.world)

/-! ## A duplication leaves loose ports -/

/-- A port that is not connected. -/
def Loose (w : World) : Prop := ∃ r, w.IsPort r ∧ w.other r = none

theorem Loose.of_extends {w w' : World} (h : Loose w) (he : Extends w w') : Loose w' := by
  obtain ⟨r, hr, ho⟩ := h
  exact ⟨r, (he r hr).1, (he r hr).2.trans ho⟩

theorem Whole.not_loose (h : Whole s) : ¬Loose s.world := by
  rintro ⟨r, hr, ho⟩
  obtain ⟨r', hpair⟩ := h.paired r hr
  have hthere := hpair.there
  rw [ho] at hthere
  cases hthere

/-- The ports of a clone are not connected. -/
theorem loose_withClone {w : World} {k : KernelId} (h : ¬Portless w k) : Loose (w.withClone k) := by
  obtain ⟨side, hne⟩ := not_forall.mp h
  obtain ⟨key, hkey⟩ := List.exists_mem_of_ne_nil _ hne
  refine ⟨⟨w.next, side, key⟩, ⟨Nat.lt_succ_self _, ?_⟩, ?_⟩
  · rw [World.withClone_ports_self]
    exact hkey
  · unfold World.other
    rw [World.withClone_info_self w k rfl]
    rfl

theorem cloneKernel_ok {k : KernelId} (h : (cloneKernel k).run s = .ok ⟨⟩ t) :
    t = { s.withWorld (s.world.withClone k) with manager := .attachIn k s.world.next } := by
  unfold cloneKernel at h
  obtain ⟨ptr, m, hclone, hrest⟩ := run_bind_ok.mp h
  have hx : onWorld (clone k) s = .ok ptr m := hclone
  unfold onWorld at hx
  rcases clone_run (w := s.world) k with ⟨-, hrun⟩ | ⟨-, e, hrun⟩
  · rw [hrun] at hx
    cases hx
    cases hrest
    rfl
  · rw [hrun] at hx
    cases hx

/-- **Once a kernel with ports has been cloned** the graph is not whole again. -/
theorem loose_of_clone {k : KernelId} (h : Step adds align dupEnabled s (.clone k) t)
    (hports : ¬Portless s.world k) : Loose t.world := by
  cases h with
  | clone hidle hk hdup h =>
      rw [cloneKernel_ok h]
      exact loose_withClone hports

/-! ## Steps that duplicate no kernel with ports -/

/-- The kernel that the manager is about to attach a clone of has no ports. -/
def Manager.Portless (w : World) : Manager → Prop
  | .attachIn k _ | .attachOut k _ => BasicParallel.Portless w k
  | .idle | .schedule _ => True

/-- The ports are the same, with their connections and queues. -/
structure SamePorts (w w' : World) : Prop where
  port : ∀ r, w'.IsPort r ↔ w.IsPort r
  info : ∀ r, w.IsPort r → w'.info r = w.info r

theorem SamePorts.other {w w' : World} (h : SamePorts w w') {r : PortRef} (hr : w.IsPort r) :
    w'.other r = w.other r := by
  unfold World.other
  rw [h.info r hr]

/-- A graph stays whole when its ports and what is stopped and closed stay. -/
theorem Whole.of_samePorts (h : Whole s) (hsame : SamePorts s.world t.world)
    (hstopped : t.stopped = s.stopped) (hclosed : t.closed = s.closed) : Whole t where
  paired r hr := by
    have hr' := (hsame.port r).mp hr
    obtain ⟨r', hpair⟩ := h.paired r hr'
    refine ⟨r', (hsame.other hr').trans hpair.there, (hsame.other hpair.port).trans hpair.back,
      (hsame.port r').mpr hpair.port, ?_, ?_⟩
    · rw [hsame.info r hr', hsame.info r' hpair.port]
      exact hpair.shared
    · rw [hsame.info r hr']
      exact hpair.queue
  closed r hr hside r' ho hk fifo hfifo := by
    have hr' := (hsame.port r).mp hr
    rw [hsame.other hr'] at ho
    rw [hsame.info r hr'] at hfifo
    rw [hstopped] at hk
    rw [hclosed]
    exact h.closed r hr' hside r' ho hk fifo hfifo

theorem samePorts_withClone {w : World} {k : KernelId} (h : Portless w k) :
    SamePorts w (w.withClone k) where
  port r := by
    constructor
    · rintro ⟨hlt, hkey⟩
      by_cases hr : r.kernel = w.next
      · rw [hr, World.withClone_ports_self, h] at hkey
        cases hkey
      · rw [World.withClone_ports_of_ne w k hr] at hkey
        exact ⟨Nat.lt_of_le_of_ne (Nat.le_of_lt_succ hlt) hr, hkey⟩
    · exact fun hr => (extends_withClone w k r hr).1
  info r hr := World.withClone_info_of_ne w k (Nat.ne_of_lt hr.1)

theorem portless_withClone {w : World} {k : KernelId} (h : Portless w k) :
    Portless (w.withClone k) k := by
  intro side
  by_cases hk : k = w.next
  · rw [hk] at h ⊢
    rw [World.withClone_ports_self]
    exact h side
  · rw [World.withClone_ports_of_ne w k hk]
    exact h side

theorem attachInput_ok {k ptr : KernelId} (hp : Portless s.world k)
    (h : (attachInput adds align k ptr).run s = .ok ⟨⟩ t) :
    t = { s with manager := .attachOut k ptr } := by
  have hcount : (s.world.ports k .input).count = 0 := congrArg List.length (hp .input)
  unfold attachInput at h
  rw [run_bind_of_ok (EStateM.run_get _), if_neg (by simp [hcount])] at h
  cases h
  rfl

theorem attachOutput_ok {k ptr : KernelId} (hp : Portless s.world k)
    (h : (attachOutput adds align k ptr).run s = .ok ⟨⟩ t) :
    t = { s with manager := .schedule ptr } := by
  have hcount : (s.world.ports k .output).count = 0 := congrArg List.length (hp .output)
  unfold attachOutput at h
  rw [run_bind_of_ok (EStateM.run_get _), if_neg (by simp [hcount])] at h
  cases h
  rfl

/-- The queues of the ports are closed, one by one. -/
theorem invalidatePorts_ok {k : KernelId} {keys : List PortKey}
    (h : (keys.forM (invalidatePort k)).run s = .ok ⟨⟩ t) :
    ∃ closed, t = { s with closed := closed } ∧ s.closed ⊆ closed ∧
      ∀ key ∈ keys, ∀ fifo, (s.world.info ⟨k, .output, key⟩).fifo = some fifo → fifo ∈ closed := by
  induction keys generalizing s with
  | nil =>
      cases h
      exact ⟨_, rfl, Finset.Subset.refl _, fun _ hkey => absurd hkey List.not_mem_nil⟩
  | cons key keys ih =>
      obtain ⟨u, m, hkey, hrest⟩ := run_bind_ok.mp h
      unfold invalidatePort at hkey
      rw [run_bind_of_ok (EStateM.run_get _)] at hkey
      split at hkey
      · next fifo hfifo =>
          cases hkey
          obtain ⟨closed, rfl, hsub, hmem⟩ := ih hrest
          refine ⟨closed, rfl, (Finset.subset_insert _ _).trans hsub, fun key' hkey' f hf => ?_⟩
          rcases List.mem_cons.mp hkey' with rfl | hkey'
          · rw [hfifo] at hf
            cases hf
            exact hsub (Finset.mem_insert_self _ _)
          · exact hmem key' hkey' f hf
      · cases hkey

/-- A kernel that stops closes the queues it writes to. -/
theorem Whole.stop {k : KernelId} (h : Whole s) (hrun : (stopKernel k).run s = .ok ⟨⟩ t) :
    Whole t ∧ t.manager = s.manager ∧ t.world = s.world := by
  unfold stopKernel at hrun
  rw [run_bind_of_ok (EStateM.run_get _)] at hrun
  obtain ⟨u, m, hports, hlast⟩ := run_bind_ok.mp hrun
  obtain ⟨closed, rfl, hsub, hmem⟩ := invalidatePorts_ok hports
  cases hlast
  refine ⟨⟨h.paired, fun r hr hside r' ho hk fifo hfifo => ?_⟩, rfl, rfl⟩
  rcases Finset.mem_insert.mp hk with hk | hk
  · obtain ⟨r'', hpair⟩ := h.paired r hr
    obtain rfl : r'' = r' := Option.some_inj.mp (hpair.there.symm.trans ho)
    have hside' : r''.side = .output := by rw [World.other_side ho, hside]; rfl
    have hr'' : r'' = ⟨k, .output, r''.key⟩ := by
      cases r''
      cases hside'
      cases hk
      rfl
    refine hmem r''.key ?_ fifo ?_
    · have hkey := hpair.port.2
      rwa [hk, hside'] at hkey
    · rw [← hr'', hpair.shared]
      exact hfifo
  · exact hsub (h.closed r hr hside r' ho hk fifo hfifo)

/-- **One step that duplicates no kernel with ports.** -/
theorem whole_of_step (h : Whole s) (hp : s.manager.Portless s.world)
    (hstep : Step adds align dupEnabled s a t) (ha : NoDuplication s a) :
    Whole t ∧ t.manager.Portless t.world := by
  cases hstep with
  | @clone k _ hidle hk hdup hrun =>
      have hports := ha k rfl
      rw [cloneKernel_ok hrun]
      exact ⟨h.of_samePorts (samePorts_withClone hports) rfl rfl, portless_withClone hports⟩
  | attachInput hm hrun =>
      rw [hm] at hp
      rw [attachInput_ok hp hrun]
      exact ⟨h.of_samePorts ⟨fun _ => Iff.rfl, fun _ _ => rfl⟩ rfl rfl, hp⟩
  | attachOutput hm hrun =>
      rw [hm] at hp
      rw [attachOutput_ok hp hrun]
      exact ⟨h.of_samePorts ⟨fun _ => Iff.rfl, fun _ _ => rfl⟩ rfl rfl, trivial⟩
  | schedule hm hrun =>
      cases hrun
      exact ⟨h.of_samePorts ⟨fun _ => Iff.rfl, fun _ _ => rfl⟩ rfl rfl, trivial⟩
  | stop hk hnot hrun =>
      obtain ⟨hwhole, hmanager, hworld⟩ := h.stop hrun
      rw [hmanager, hworld]
      exact ⟨hwhole, hp⟩

/-- **When duplication keeps the graph whole**: never, once a kernel with ports has been duplicated. -/
theorem duplication_whole_iff (hw : Whole s) (hidle : s.manager = .idle)
    (hrun : Run (Step adds align dupEnabled) s as t) :
    Whole t ↔ Run (restrict (Step adds align dupEnabled) NoDuplication) s as t := by
  constructor
  · intro ht
    clear hw hidle
    induction hrun with
    | nil s => exact .nil s
    | @cons s m t a as hstep hrest ih =>
        refine .cons ⟨?_, hstep⟩ (ih ht)
        rintro k rfl
        by_contra hports
        exact ht.not_loose ((loose_of_clone hstep hports).of_extends (extends_of_run hrest))
  · intro hrun'
    have hp : s.manager.Portless s.world := by
      rw [hidle]
      trivial
    exact (hrun'.invariant (I := fun v => Whole v ∧ v.manager.Portless v.world)
      (fun _ _ _ hs hstep => whole_of_step hs.1 hs.2 hstep.2 hstep.1) ⟨hw, hp⟩).1

/-! ## A line with a kernel to duplicate -/

/-- A source, a split, a kernel, a join and a sink in a row, with their queues, and a kernel without ports
beside them. -/
def line : World where
  kernel := fun k =>
    if k = 0 then { className := "gen", input := .empty, output := .one "0" }
    else if k = 4 then { className := "print", input := .one "0", output := .empty }
    else if k = 5 then { className := "timer", input := .empty, output := .empty }
    else { className := "work", input := .one "0", output := .one "0" }
  info := fun r => match r.side with
    | .output => { type := "int", otherKernel := some (r.kernel + 1), otherName := "0", fifo := some r.kernel }
    | .input => { type := "int", otherKernel := some (r.kernel - 1), otherName := "0", fifo := some (r.kernel - 1) }
  next := 6
  sourceKernels := {0}
  dstKernels := {4}
  allKernels := {0, 1, 2, 3, 4, 5}

def lineState : State where
  alloc := { world := line, heap := List.replicate 4 ⟨64, 16, none⟩, allocatedFifo := {0, 1, 2, 3} }
  portNameIndex := fun _ => 1

/-- The second kernel is the split, the fourth the join. -/
def lineAdds : Adds := fun k =>
  if k = 1 then some (.output, "int") else if k = 3 then some (.input, "int") else none

theorem whole_line : Whole lineState where
  paired r hr := by
    obtain ⟨k, side, key⟩ := r
    obtain ⟨hlt, hkey⟩ := hr
    have hall : ∀ k < 6, ∀ side ∈ [Side.input, .output], ∀ key ∈ (line.ports k side).keys,
        ∃ k' < 6, (line.other ⟨k, side, key⟩ = some ⟨k', side.opposite, "0"⟩ ∧
          line.other ⟨k', side.opposite, "0"⟩ = some ⟨k, side, key⟩ ∧
          "0" ∈ (line.ports k' side.opposite).keys ∧
          (line.info ⟨k', side.opposite, "0"⟩).fifo = (line.info ⟨k, side, key⟩).fifo ∧
          (line.info ⟨k, side, key⟩).fifo ≠ none) := by
      decide +kernel
    obtain ⟨k', hlt', hthere, hback, hport, hshared, hqueue⟩ :=
      hall k hlt side (by cases side <;> decide) key hkey
    exact ⟨_, hthere, hback, ⟨hlt', hport⟩, hshared, hqueue⟩
  closed _ _ _ _ _ hk := absurd hk (Finset.notMem_empty _)

/-- The source and the split stop, and the kernel without ports is duplicated. -/
theorem duplication_whole_iff_stops : ∃ t,
    Run (Step lineAdds 16 (· = 5)) lineState
      [.stop 0, .stop 1, .clone 5, .attachInput, .attachOutput, .schedule] t ∧
    t.manager = .idle ∧ t.world.next = 7 ∧ Whole t := by
  have hports : ∀ side, (line.ports 5 side).keys = [] := by
    intro side
    cases side <;> rfl
  obtain ⟨t, hrun, hidle, hnext⟩ : ∃ t, Run (restrict (Step lineAdds 16 (· = 5)) NoDuplication) lineState
      [.stop 0, .stop 1, .clone 5, .attachInput, .attachOutput, .schedule] t ∧
      t.manager = .idle ∧ t.world.next = 7 := by
    refine ⟨_, .cons ⟨(fun _ h => nomatch h), .stop (by decide) (by decide) rfl⟩
      (.cons ⟨(fun _ h => nomatch h), .stop (by decide) (by decide) rfl⟩
        (.cons ⟨fun k hk => ?_, .clone rfl (by decide) rfl rfl⟩
          (.cons ⟨(fun _ h => nomatch h), .attachInput rfl rfl⟩
            (.cons ⟨(fun _ h => nomatch h), .attachOutput rfl rfl⟩
              (.single ⟨(fun _ h => nomatch h), .schedule rfl rfl⟩))))), rfl, rfl⟩
    cases hk
    exact hports
  exact ⟨t, hrun.of_restrict, hidle, hnext,
    (duplication_whole_iff whole_line rfl hrun.of_restrict).mpr hrun⟩

/-- They stop, and then the kernel behind the split is duplicated. The ports of the clone and the new port
of the split are not connected, and the queue between them is not closed. -/
theorem duplication_not_whole : Whole lineState ∧ ∃ t,
    Run (Step lineAdds 16 (· = 2)) lineState
      [.stop 0, .stop 1, .clone 2, .attachInput, .attachOutput, .schedule] t ∧
    t.manager = .idle ∧ ¬Whole t ∧
    t.world.IsPort ⟨6, .input, "0"⟩ ∧ t.world.other ⟨6, .input, "0"⟩ = none ∧
    t.world.IsPort ⟨1, .output, "1"⟩ ∧ t.world.other ⟨1, .output, "1"⟩ = none ∧
    1 ∈ t.stopped ∧ (t.world.info ⟨1, .output, "1"⟩).fifo = some 4 ∧
    (t.world.info ⟨6, .input, "0"⟩).fifo = some 4 ∧ 4 ∉ t.closed := by
  refine ⟨whole_line, ?_⟩
  obtain ⟨t, hrun, hidle, hport, hother, hrest⟩ : ∃ t, Run (Step lineAdds 16 (· = 2)) lineState
      [.stop 0, .stop 1, .clone 2, .attachInput, .attachOutput, .schedule] t ∧
      t.manager = .idle ∧
      t.world.IsPort ⟨6, .input, "0"⟩ ∧ t.world.other ⟨6, .input, "0"⟩ = none ∧
      t.world.IsPort ⟨1, .output, "1"⟩ ∧ t.world.other ⟨1, .output, "1"⟩ = none ∧
      1 ∈ t.stopped ∧ (t.world.info ⟨1, .output, "1"⟩).fifo = some 4 ∧
      (t.world.info ⟨6, .input, "0"⟩).fifo = some 4 ∧ 4 ∉ t.closed := by
    refine ⟨_, .cons (.stop (by decide) (by decide) rfl) (.cons (.stop (by decide) (by decide) rfl)
      (.cons (.clone rfl (by decide) rfl rfl) (.cons (.attachInput rfl rfl)
        (.cons (.attachOutput rfl rfl) (.single (.schedule rfl rfl)))))), rfl,
      ⟨by decide +kernel, by decide +kernel⟩, rfl, ⟨by decide +kernel, by decide +kernel⟩, rfl,
      by decide +kernel, rfl, rfl, by decide +kernel⟩
  refine ⟨t, hrun, hidle, fun hwhole => ?_, hport, hother, hrest⟩
  exact hwhole.not_loose ⟨_, hport, hother⟩

end BasicParallel

end RaftLib.Graph
