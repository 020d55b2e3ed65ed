/-
# `RaftLib.Graph.EnableDuplication` -- split and join kernels put into out-of-order connections

`map::enableDuplication` (`map.cpp`) walks over the connections, breadth first, and puts a split kernel
before and a join kernel behind what may run in parallel. It puts a kernel into a connection with
`MapBase::insert` (`mapbase.cpp`), which joins the two ports to those of the new kernel; `join` refuses a
port that is connected, and these two are (`insert_throws`). So the first connection at which the method
would insert ends it with an exception.
-/
import RaftLib.Graph.Allocate

namespace RaftLib.Graph

open RaftLib.Logic.Program
open RaftLib.Logic.Steps
open RaftLib.Logic.Traversal

/-! ## `MapBase::insert` -/

/-- `MapBase::insert`: `i` between the ports `a` and `b`. -/
def insertKernel (a b : PortRef) (i : KernelId) : Prog PUnit := do
  let iIn ← getPortInfoFor i .input "0"
  let iOut ← getPortInfoFor i .output "0"
  join a iIn
  join iOut b

/-- The state with a new kernel of one input and one output port, both named `"0"`. -/
def World.withParallel (w : World) (className : String) (type : TypeIndex) : World :=
  { w with
    kernel := Function.update w.kernel w.next
      { className := className, input := .one "0", output := .one "0", cloneable := false }
    info := fun r => if r.kernel = w.next then { type := type } else w.info r
    next := w.next + 1 }

def newParallel (className : String) (type : TypeIndex) : Prog KernelId := do
  let w ← get
  set (w.withParallel className type)
  return w.next

/-- `split_func`: `new raft::split< T, roundrobin >()`. -/
def PortInfo.splitFunc (i : PortInfo) : Prog KernelId :=
  newParallel ("raft::split<" ++ i.type ++ ", roundrobin>") i.type

/-- `join_func`: `new raft::join< T, roundrobin >()`. -/
def PortInfo.joinFunc (i : PortInfo) : Prog KernelId :=
  newParallel ("raft::join<" ++ i.type ++ ", roundrobin>") i.type

/-- A kernel from `new`, entered into `all_k` and put between two ports. -/
def insertNew (func : Prog KernelId) (a b : PortRef) : Prog PUnit := do
  let i ← func
  modify fun w => { w with allKernels := insert i w.allKernels }
  insertKernel a b i

/-! ## `map::enableDuplication` -/

/-- A map, and the flags of its kernels for duplication. -/
structure DupWorld where
  world : World
  dupCandidate : KernelId → Bool := fun _ => false
  dupEnabled : KernelId → Bool := fun _ => false

abbrev DupProg := EStateM Err DupWorld

def onWorld {α : Type} (x : Prog α) : DupProg α := fun st =>
  match x.run st.world with
  | .ok a w => .ok a { st with world := w }
  | .error e w => .error e { st with world := w }

def enableDup (k : KernelId) : DupProg PUnit :=
  modify fun st => { st with dupEnabled := Function.update st.dupEnabled k true }

namespace World

variable (w : World)

/-- Both ends of a connection are marked. -/
def outOfOrder (e : PortRef × PortRef) : Bool := (w.info e.1).outOfOrder && (w.info e.2).outOfOrder

/-- "case of inline kernel", as far as the second kernel goes. -/
def oneInOneOut (k : KernelId) : Bool := (w.ports k .input).count = 1 && (w.ports k .output).count = 1

/-- "parallalizable source, single output no inputs". -/
def isSource (k : KernelId) : Bool := (w.ports k .input).count = 0 && (w.ports k .output).count = 1

/-- "parallelizable sink, single input, no outputs". -/
def isSink (k : KernelId) : Bool := (w.ports k .input).count = 1 && (w.ports k .output).count = 0

end World

/-- The branch for a kernel that was flagged before, between `front` and the kernel of `b`. That it has a
kernel in front of it is not asked. -/
def insertAround (a b : PortRef) : DupProg PUnit := do
  if ((← get).world.ports a.kernel .input).count = 1 then
    let portInfoFront ← onWorld (getPortInfo a.kernel .input)
    match ((← get).world.info portInfoFront).otherKernel with
    | some front =>
        let frontPortInfo ← onWorld (getPortInfo front .output)
        onWorld (insertNew ((← get).world.info portInfoFront).splitFunc frontPortInfo portInfoFront)
        if ((← get).world.ports a.kernel .output).count = 1 then
          onWorld (insertNew ((← get).world.info a).joinFunc a b)
          enableDup a.kernel
        else throw .assertion
    | none => throw .assertion
  else throw .assertion

/-- The function that `enableDuplication` calls on a connection from `a` to `b`. -/
def duplicate (a b : PortRef) : DupProg PUnit := do
  let st ← get
  if st.world.outOfOrder (a, b) then
    if st.world.oneInOneOut b.kernel && st.dupCandidate a.kernel then
      insertAround a b
    else if st.world.isSource a.kernel then
      onWorld (insertNew (st.world.info a).joinFunc a b)
      enableDup a.kernel
    else if st.world.isSink b.kernel then
      onWorld (insertNew (st.world.info b).splitFunc a b)
      enableDup b.kernel
    else if (st.world.ports b.kernel .input).count = 1 then
      modify fun st => { st with dupCandidate := Function.update st.dupCandidate b.kernel true }
    else pure ()
  else pure ()

/-- `map::enableDuplication`. -/
def enableDuplication (fuel : Nat) (source : List KernelId) : DupProg Bool :=
  bfs DupWorld.world duplicate false fuel source

/-! ## What the method selects -/

namespace World

variable (w : World)

/-- The connections in the order in which a traversal from the `sources` meets them. -/
def visits (sources : List KernelId) : List (PortRef × PortRef) :=
  match order w.successors (w.next + 2) (.start (sources.map some)) with
  | some l => (upToNull l).flatMap w.edgesFrom
  | none => []

/-- The connection makes kernel `k` a candidate. -/
def Flags (e : PortRef × PortRef) (k : KernelId) : Prop :=
  w.outOfOrder e ∧ e.2.kernel = k ∧ (w.ports k .input).count = 1

/-- The connection leads from a candidate to a kernel with one port on each side. Candidates are those
that were so at the beginning and those of the connections met `before`. -/
def InsertsAround (candidate : KernelId → Bool) (before : List (PortRef × PortRef))
    (e : PortRef × PortRef) : Prop :=
  w.outOfOrder e ∧ w.oneInOneOut e.2.kernel ∧
    (candidate e.1.kernel ∨ ∃ e' ∈ before, w.Flags e' e.1.kernel)

/-- The method's own condition for inserting. -/
def Inserts (candidate : KernelId → Bool) (before : List (PortRef × PortRef))
    (e : PortRef × PortRef) : Prop :=
  w.InsertsAround candidate before e ∨
    w.outOfOrder e ∧ (w.isSource e.1.kernel ∨ w.isSink e.2.kernel)

/-- A kernel is to be put into the connection `e`: at its own turn, or as the one in front of a kernel
that is duplicated. -/
def Selected (candidate : KernelId → Bool) (sources : List KernelId) (e : PortRef × PortRef) : Prop :=
  ∃ before e' after, w.visits sources = before ++ e' :: after ∧
    (e = e' ∧ w.Inserts candidate before e ∨
      e.2.kernel = e'.1.kernel ∧ w.InsertsAround candidate before e')

end World

/-- The map `w` has become the map `w'`. -/
structure Rewritten (w : World) (selected : PortRef × PortRef → Prop) (w' : World) : Prop where
  connected : w'.Connected
  matched : ∀ r r', w'.IsPort r → w'.other r = some r' → w'.IsPort r' ∧ w'.other r' = some r
  replaced : ∀ r r', w.IsPort r → r.side = .output → w.other r = some r' → selected (r, r') →
    ∃ i, w.next ≤ i ∧ i < w'.next ∧ w'.other r = some ⟨i, .input, "0"⟩ ∧
      w'.other ⟨i, .output, "0"⟩ = some r' ∧ (w'.info ⟨i, .input, "0"⟩).type = (w.info r).type ∧
      (w'.info ⟨i, .output, "0"⟩).type = (w.info r).type
  kept : ∀ r r', w.IsPort r → r.side = .output → w.other r = some r' → ¬selected (r, r') →
    w'.other r = some r'

/-- **`enableDuplication` rewrites the selected connections**: it ends without an exception, and has
rewritten these and no others. -/
def Rewrites (st : DupWorld) (sources : List KernelId) : Prop :=
  ∃ n st', (∀ fuel, n ≤ fuel → (enableDuplication fuel sources).run st = .ok true st') ∧
    Rewritten st.world (st.world.Selected st.dupCandidate sources) st'.world

/-! ## Inserting between connected ports -/

section Throws

variable {w : World} {a b : PortRef} {k : KernelId} {s : Side}

theorem getPortInfoFor_run (k : KernelId) (s : Side) (key : PortKey) :
    (getPortInfoFor k s key).run w = .ok ⟨k, s, key⟩ w ∨
      ∃ e, (getPortInfoFor k s key).run w = .error e w := by
  unfold getPortInfoFor
  by_cases hkey : key ∈ (w.ports k s).keys
  · exact .inl (by simp [hkey])
  · exact .inr ⟨_, by simp [hkey]; rfl⟩

/-- `join` does not get past a port that is connected. -/
theorem insertKernel_throws (ha : w.other a ≠ none) (i : KernelId) :
    ∃ e, (insertKernel a b i).run w = .error e w := by
  unfold insertKernel
  rcases getPortInfoFor_run (w := w) i .input "0" with hin | ⟨e, hin⟩
  · rcases getPortInfoFor_run (w := w) i .output "0" with hout | ⟨e, hout⟩
    · rcases join_run (w := w) a ⟨i, .input, "0"⟩ with ⟨-, e, hjoin⟩ | ⟨⟨-, hfree, -⟩, -⟩
      · exact ⟨e, by rw [run_bind_of_ok hin, run_bind_of_ok hout, run_bind_of_error hjoin]⟩
      · exact absurd hfree ha
    · exact ⟨e, by rw [run_bind_of_ok hin, run_bind_of_error hout]⟩
  · exact ⟨e, by rw [run_bind_of_error hin]⟩

theorem withParallel_other (hk : a.kernel < w.next) (className : String) (type : TypeIndex) :
    (w.withParallel className type).other a = w.other a := by
  have hne : a.kernel ≠ w.next := Nat.ne_of_lt hk
  unfold World.other World.withParallel
  simp [hne]

/-- **Inserting throws** where the first of the two ports is connected. -/
theorem insert_throws (ha : w.other a ≠ none) (hk : a.kernel < w.next) (className : String)
    (type : TypeIndex) : ∃ e w', (insertNew (newParallel className type) a b).run w = .error e w' := by
  have hother : ({ w.withParallel className type with
      allKernels := insert w.next (w.withParallel className type).allKernels } : World).other a ≠ none := by
    show (w.withParallel className type).other a ≠ none
    rwa [withParallel_other hk]
  obtain ⟨e, he⟩ := insertKernel_throws (b := b) hother w.next
  exact ⟨e, _, he⟩

end Throws

/-! ## One call of the function -/

theorem onWorld_ok {α : Type} {x : Prog α} {st : DupWorld} {a : α} {w : World}
    (h : x.run st.world = .ok a w) : (onWorld x).run st = .ok a { st with world := w } := by
  show onWorld x st = _
  unfold onWorld
  rw [h]

theorem onWorld_error {α : Type} {x : Prog α} {st : DupWorld} {e : Err} {w : World}
    (h : x.run st.world = .error e w) : (onWorld x).run st = .error e { st with world := w } := by
  show onWorld x st = _
  unfold onWorld
  rw [h]

/-- The condition, with the candidates as they are. -/
def World.InsertsNow (w : World) (candidate : KernelId → Bool) (e : PortRef × PortRef) : Prop :=
  w.outOfOrder e ∧ (w.oneInOneOut e.2.kernel ∧ candidate e.1.kernel ∨
    w.isSource e.1.kernel ∨ w.isSink e.2.kernel)

/-- The candidates after a call that does not insert. -/
def World.flagged (w : World) (candidate : KernelId → Bool) (e : PortRef × PortRef) :
    KernelId → Bool :=
  if w.outOfOrder e ∧ (w.ports e.2.kernel .input).count = 1 then
    Function.update candidate e.2.kernel true
  else candidate

section Duplicate

variable {w : World} {st : DupWorld} {e : PortRef × PortRef}

/-- A call at which there is nothing to insert flags a kernel at most. -/
theorem duplicate_flags (h : ¬st.world.InsertsNow st.dupCandidate e) :
    (duplicate e.1 e.2).run st =
      .ok ⟨⟩ { st with dupCandidate := st.world.flagged st.dupCandidate e } := by
  unfold World.InsertsNow at h
  unfold duplicate World.flagged
  by_cases hout : st.world.outOfOrder e = true
  · simp only [hout, true_and, not_or] at h
    obtain ⟨hinline, hsource, hsink⟩ := h
    by_cases hcount : (st.world.ports e.2.kernel .input).count = 1
    · simp [hout, hinline, hsource, hsink, hcount]
    · simp [hout, hinline, hsource, hsink, hcount]
  · simp [hout]

variable (hm : w.Matched) (hc : w.Connected)
include hm hc

/-- The branch for a candidate ends at its first insertion, if not before. -/
theorem insertAround_throws (hst : st.world = w) (he : ∃ k < w.next, e ∈ w.edgesFrom k) :
    ∃ err st', (insertAround e.1 e.2).run st = .error err st' := by
  subst hst
  obtain ⟨k, hk, he⟩ := he
  obtain ⟨key, hkey, heq, ho⟩ := World.mem_edgesFrom.mp he
  have hport : st.world.IsPort e.1 := by
    rw [heq]
    exact ⟨hk, hkey⟩
  have hall : e.1.kernel ∈ st.world.allKernels := hm.all _ _ hport (by rw [heq]; exact ho)
  unfold insertAround
  rw [run_bind_of_ok (EStateM.run_get _)]
  split
  · next hcount =>
      rcases getPortInfo_run (w := st.world) e.1.kernel .input with ⟨front, hkeys, hrun⟩ | ⟨err, hrun⟩
      · have hfrontPort : st.world.IsPort ⟨e.1.kernel, .input, front⟩ :=
          ⟨hport.1, by rw [hkeys]; exact List.mem_singleton_self _⟩
        obtain ⟨r, hr⟩ := hc.exists_other hfrontPort hall
        obtain ⟨hrport, hback⟩ := hm.symm _ _ hfrontPort hr
        rw [run_bind_of_ok (onWorld_ok hrun), run_bind_of_ok (EStateM.run_get _),
          (World.otherKernel_eq hr).1]
        rcases getPortInfo_run (w := st.world) r.kernel .output with ⟨out, hout, hrun'⟩ | ⟨err, hrun'⟩
        · -- the only output port of the kernel in front is the one that leads here
          have hr' : r = ⟨r.kernel, .output, out⟩ := by
            have hside : r.side = .output := World.other_side hr
            have hmem := hrport.2
            rw [hside, hout, List.mem_singleton] at hmem
            cases r
            cases hside
            cases hmem
            rfl
          have hconnected : st.world.other ⟨r.kernel, .output, out⟩ ≠ none := by
            rw [← hr', hback]
            exact Option.some_ne_none _
          obtain ⟨err, w', hthrow⟩ := insert_throws (b := ⟨e.1.kernel, .input, front⟩) hconnected
            hrport.1 ("raft::split<" ++ (st.world.info ⟨e.1.kernel, .input, front⟩).type ++
              ", roundrobin>") (st.world.info ⟨e.1.kernel, .input, front⟩).type
          refine ⟨err, { st with world := w' }, ?_⟩
          show EStateM.run (onWorld (getPortInfo r.kernel .output) >>= _) st = _
          rw [run_bind_of_ok (onWorld_ok hrun'), run_bind_of_ok (EStateM.run_get _)]
          exact run_bind_of_error (onWorld_error hthrow)
        · exact ⟨err, _, run_bind_of_error (onWorld_error hrun')⟩
      · exact ⟨err, _, run_bind_of_error (onWorld_error hrun)⟩
  · exact ⟨_, _, rfl⟩

/-- **A call at which there is something to insert throws.** -/
theorem duplicate_throws (hst : st.world = w) (he : ∃ k < w.next, e ∈ w.edgesFrom k)
    (h : w.InsertsNow st.dupCandidate e) : ∃ err st', (duplicate e.1 e.2).run st = .error err st' := by
  have haround := insertAround_throws hm hc hst he
  subst hst
  obtain ⟨k, hk, he⟩ := he
  obtain ⟨key, -, heq, ho⟩ := World.mem_edgesFrom.mp he
  have hlt : e.1.kernel < st.world.next := by
    rw [heq]
    exact hk
  have hconnected : st.world.other e.1 ≠ none := by
    rw [heq, ho]
    exact Option.some_ne_none _
  obtain ⟨hout, hcase⟩ := h
  unfold duplicate
  rw [run_bind_of_ok (EStateM.run_get _), if_pos hout]
  by_cases hinline : (st.world.oneInOneOut e.2.kernel && st.dupCandidate e.1.kernel) = true
  · rw [if_pos hinline]
    exact haround
  · rw [if_neg hinline]
    by_cases hsource : st.world.isSource e.1.kernel = true
    · obtain ⟨err, w', hthrow⟩ := insert_throws (b := e.2) hconnected hlt
        ("raft::join<" ++ (st.world.info e.1).type ++ ", roundrobin>") (st.world.info e.1).type
      rw [if_pos hsource]
      exact ⟨err, _, run_bind_of_error (onWorld_error hthrow)⟩
    · have hsink : st.world.isSink e.2.kernel = true := by
        rcases hcase with hcase | hcase | hcase
        · exact absurd (by simpa using hcase) hinline
        · exact absurd hcase hsource
        · exact hcase
      obtain ⟨err, w', hthrow⟩ := insert_throws (b := e.2) hconnected hlt
        ("raft::split<" ++ (st.world.info e.2).type ++ ", roundrobin>") (st.world.info e.2).type
      rw [if_neg hsource, if_pos hsink]
      exact ⟨err, _, run_bind_of_error (onWorld_error hthrow)⟩

end Duplicate

/-! ## The calls of a traversal -/

section Calls

variable {w : World} {candidate : KernelId → Bool} {edges : List (PortRef × PortRef)}

theorem flagged_iff {e : PortRef × PortRef} {k : KernelId} :
    w.flagged candidate e k ↔ candidate k ∨ w.Flags e k := by
  unfold World.flagged World.Flags
  split
  · next h =>
      obtain ⟨hout, hcount⟩ := h
      by_cases hk : e.2.kernel = k
      · subst hk
        simp [hout, hcount]
      · simp [Function.update_of_ne (Ne.symm hk), hk]
  · next h =>
      constructor
      · exact .inl
      · rintro (hk | ⟨hout, rfl, hcount⟩)
        · exact hk
        · exact absurd ⟨hout, hcount⟩ h

/-- The candidates after some calls. -/
theorem foldl_flagged_iff {k : KernelId} :
    edges.foldl w.flagged candidate k ↔ candidate k ∨ ∃ e ∈ edges, w.Flags e k := by
  induction edges generalizing candidate with
  | nil => simp
  | cons e edges ih => rw [List.foldl_cons, ih, flagged_iff, or_assoc, List.exists_mem_cons_iff]

theorem inserts_iff {e : PortRef × PortRef} :
    w.Inserts candidate edges e ↔ w.InsertsNow (edges.foldl w.flagged candidate) e := by
  unfold World.Inserts World.InsertsAround World.InsertsNow
  rw [foldl_flagged_iff, ← and_or_left]

variable (hm : w.Matched) (hc : w.Connected)
include hm hc

/-- **Calls on connections** all go through, or there is one at which there is something to insert. -/
theorem callAll_duplicate {st : DupWorld} (hst : st.world = w)
    (hedges : ∀ e ∈ edges, ∃ k < w.next, e ∈ w.edgesFrom k) :
    ((∃ flags, (callAll duplicate edges).run st = .ok ⟨⟩ { st with dupCandidate := flags }) ∧
      ∀ before e after, edges = before ++ e :: after → ¬w.Inserts st.dupCandidate before e) ∨
    (∃ err st', (callAll duplicate edges).run st = .error err st') ∧
      ∃ before e after, edges = before ++ e :: after ∧ w.Inserts st.dupCandidate before e := by
  induction edges generalizing st with
  | nil => exact .inl ⟨⟨st.dupCandidate, rfl⟩, fun _ _ _ h => by simp at h⟩
  | cons e edges ih =>
      obtain ⟨he, hedges⟩ := List.forall_mem_cons.mp hedges
      rw [callAll_cons]
      by_cases hnow : w.InsertsNow st.dupCandidate e
      · obtain ⟨err, st', hthrow⟩ := duplicate_throws hm hc hst he hnow
        exact .inr ⟨⟨err, st', run_bind_of_error hthrow⟩, [], e, edges, rfl, inserts_iff.mpr hnow⟩
      · have hflags : ¬st.world.InsertsNow st.dupCandidate e := by rwa [hst]
        rw [run_bind_of_ok (duplicate_flags hflags)]
        rcases @ih { st with dupCandidate := st.world.flagged st.dupCandidate e } hst hedges with
          ⟨⟨flags, hrun⟩, hnone⟩ | ⟨hthrow, before, e', after, rfl, hins⟩
        · refine .inl ⟨⟨flags, hrun⟩, fun before e' after heq => ?_⟩
          cases before with
          | nil =>
              obtain ⟨rfl, -⟩ := List.cons.inj heq
              rwa [inserts_iff]
          | cons e'' before =>
              obtain ⟨rfl, hrest⟩ := List.cons.inj heq
              have hnow' := hnone before e' after hrest
              rw [inserts_iff, hst] at hnow'
              rw [inserts_iff]
              exact hnow'
        · refine .inr ⟨hthrow, e :: before, e', after, rfl, ?_⟩
          rw [inserts_iff, hst] at hins
          rw [inserts_iff]
          exact hins

end Calls

/-! ## The method -/

section Method

variable {st : DupWorld} {sources : List KernelId}

theorem keepsOn_duplicate {w : World} (hm : w.Matched) (hc : w.Connected) :
    KeepsOn w DupWorld.world (fun st => st.world = w) duplicate where
  graph st hst := by
    rw [hst]
    exact .refl w
  step e he st u st' hst hrun := by
    by_cases hnow : st.world.InsertsNow st.dupCandidate e
    · obtain ⟨err, m, hthrow⟩ := duplicate_throws hm hc hst he (by rwa [hst] at hnow)
      rw [hthrow] at hrun
      cases hrun
    · rw [duplicate_flags hnow] at hrun
      cases hrun
      exact hst

variable (hm : st.world.Matched) (hc : st.world.Connected)
variable (hlt : ∀ k ∈ sources, k < st.world.next) (hnodup : sources.Nodup)
include hm hlt hnodup

/-- The connections met are those of kernels there are. -/
theorem visits_spec : (∀ e ∈ st.world.visits sources, ∃ k < st.world.next, e ∈ st.world.edgesFrom k) ∧
    ∃ l, st.world.visits sources = (upToNull l).flatMap st.world.edgesFrom ∧
      (∀ k, some k ∈ l → k < st.world.next) ∧ ∀ fuel, st.world.next + 2 ≤ fuel →
        order st.world.successors fuel (.start (sources.map some)) = some l := by
  obtain ⟨l, -, hmem, horder⟩ := exists_taken hm.closed hlt hnodup
  have hvisits : st.world.visits sources = (upToNull l).flatMap st.world.edgesFrom := by
    unfold World.visits
    rw [horder _ (Nat.le_refl _)]
  have hlt' : ∀ k, some k ∈ l → k < st.world.next := fun k hk => ((hmem k).mp hk).lt hm.closed hlt
  refine ⟨fun e he => ?_, l, hvisits, hlt', horder⟩
  rw [hvisits, mem_edges] at he
  obtain ⟨k, hk, he⟩ := he
  exact ⟨k, hlt' k (mem_upToNull hk), he⟩

include hc

/-- **The method, run**: it only flags kernels, or it throws at the first connection into which it is to
insert a kernel. -/
theorem enableDuplication_run :
    ((∃ flags, ∀ fuel, st.world.next + 2 ≤ fuel →
        (enableDuplication fuel sources).run st = .ok true { st with dupCandidate := flags }) ∧
      ∀ before e after, st.world.visits sources = before ++ e :: after →
        ¬st.world.Inserts st.dupCandidate before e) ∨
    (∃ err st', ∀ fuel, st.world.next + 2 ≤ fuel →
        (enableDuplication fuel sources).run st = .error err st') ∧
      ∃ before e after, st.world.visits sources = before ++ e :: after ∧
        st.world.Inserts st.dupCandidate before e := by
  obtain ⟨hedges, l, hvisits, hlt', horder⟩ := visits_spec hm hlt hnodup
  have hrun : ∀ fuel, st.world.next + 2 ≤ fuel → (enableDuplication fuel sources).run st =
      (callAll duplicate (st.world.visits sources) >>= fun _ => pure true).run st := fun fuel hfuel => by
    rw [hvisits]
    exact bfsLoop_run false (keepsOn_duplicate hm hc) hm.closed (horder fuel hfuel)
      hlt' nofun rfl
  rcases callAll_duplicate hm hc rfl hedges with ⟨⟨flags, hcalls⟩, hnone⟩ | ⟨⟨err, st', hcalls⟩, hsome⟩
  · refine .inl ⟨⟨flags, fun fuel hfuel => ?_⟩, hnone⟩
    rw [hrun fuel hfuel, run_bind_of_ok hcalls]
    rfl
  · refine .inr ⟨⟨err, st', fun fuel hfuel => ?_⟩, hsome⟩
    rw [hrun fuel hfuel, run_bind_of_error hcalls]

/-- **When `enableDuplication` does what it is for**: when no connection that is met calls for a kernel to
be inserted, so that there is nothing to do. -/
theorem duplication_rewrites_iff : Rewrites st sources ↔
    ∀ before e after, st.world.visits sources = before ++ e :: after →
      ¬st.world.Inserts st.dupCandidate before e := by
  constructor
  · rintro ⟨n, st', hrun, -⟩
    rcases enableDuplication_run hm hc hlt hnodup with ⟨-, hnone⟩ | ⟨⟨err, st'', hthrow⟩, -⟩
    · exact hnone
    · have hok := hrun (max n (st.world.next + 2)) (Nat.le_max_left _ _)
      rw [hthrow _ (Nat.le_max_right _ _)] at hok
      cases hok
  · intro hnone
    rcases enableDuplication_run hm hc hlt hnodup with ⟨⟨flags, hrun⟩, -⟩ | ⟨-, before, e, after, heq, hins⟩
    · refine ⟨_, _, hrun, hc, fun r r' hr ho => hm.symm r r' hr ho, fun r r' _ _ _ hsel => ?_,
        fun r r' _ _ ho _ => ho⟩
      obtain ⟨before, e', after, heq, ⟨rfl, hins⟩ | ⟨-, hins⟩⟩ := hsel
      · exact absurd hins (hnone before _ after heq)
      · exact absurd (.inl hins) (hnone before e' after heq)
    · exact absurd hins (hnone before e after heq)

end Method

/-- Three kernels, the first connected to both others and the second to the third. -/
def fan : World where
  kernel := fun k =>
    if k = 0 then { className := "gen", input := .empty, output := twoPorts }
    else if k = 1 then { className := "work", input := .one "in", output := .one "out" }
    else { className := "sum", input := twoPorts, output := .empty }
  info := fun _ => { type := "int" }
  next := 3

theorem fan_unlinked : fan.Unlinked := ⟨fun _ _ => rfl, rfl, rfl⟩

/-- All three connections are out of order, and none of them is one to insert a kernel into. -/
theorem duplication_rewrites_iff_fan : ∃ w, Run Calls fan
    [.link .out 0 "0" 1 "in" 0, .link .out 0 "1" 2 "0" 0, .link .out 1 "out" 2 "1" 0] w ∧
      Rewrites { world := w } [0] := by
  obtain ⟨w, hrun, hnext, hcheck, hall, hnone⟩ : ∃ w, Run Calls fan
      [.link .out 0 "0" 1 "in" 0, .link .out 0 "1" 2 "0" 0, .link .out 1 "out" 2 "1" 0] w ∧
      w.next = 3 ∧ (checkEdges [0, 1, 2]).run w = .ok ⟨⟩ w ∧ w.allKernels = {2, 1, 2, 0, 1, 0} ∧
      ∀ e ∈ w.visits [0], w.isSource e.1.kernel = false ∧ w.isSink e.2.kernel = false ∧
        (w.oneInOneOut e.2.kernel = false ∨ (w.ports e.1.kernel .input).count ≠ 1) := by
    refine ⟨_, .cons ⟨⟨by decide, by decide⟩, .inl ⟨_, rfl⟩⟩ (.cons ⟨⟨by decide, by decide⟩,
      .inl ⟨_, rfl⟩⟩ (.single ⟨⟨by decide, by decide⟩, .inl ⟨_, rfl⟩⟩)), rfl, rfl, rfl, ?_⟩
    decide +kernel
  have hm : w.Matched := (evolves_of_run hrun).2 fan_unlinked.matched
  have hc : w.Connected := fun k hk => (checkEdges_ok.mp hcheck).2 k (by
    rw [hall] at hk
    simpa [or_comm, or_assoc, or_left_comm] using hk)
  have hiff : Rewrites { world := w } [0] ↔ _ :=
    duplication_rewrites_iff hm hc (by simp [hnext]) (by decide)
  refine ⟨w, hrun, hiff.mpr fun before e after heq hins => ?_⟩
  obtain ⟨hsource, hsink, hinline⟩ := hnone e (by rw [heq]; simp)
  rcases hins with ⟨-, hone, hcand | ⟨e', -, -, -, hcount⟩⟩ | ⟨-, hcase | hcase⟩
  · cases hcand
  · rcases hinline with hinline | hinline
    · rw [hone] at hinline
      cases hinline
    · exact hinline hcount
  · rw [hsource] at hcase
    cases hcase
  · rw [hsink] at hcase
    cases hcase

/-- One connection out of order, from a kernel without input ports. It is selected, and the method ends
with an exception. -/
theorem duplication_throws : ∃ w, Run Calls twoKernels [.link .out 0 "out" 1 nullPortValue 0] w ∧
    w.Connected ∧
    w.Selected (fun _ => false) [0] (⟨0, .output, "out"⟩, ⟨1, .input, "in"⟩) ∧
    ¬Rewrites { world := w } [0] := by
  obtain ⟨w, hrun, hnext, hcheck, hall, hvisits, hout, hsource⟩ : ∃ w,
      Run Calls twoKernels [.link .out 0 "out" 1 nullPortValue 0] w ∧ w.next = 2 ∧
      (checkEdges [0, 1]).run w = .ok ⟨⟩ w ∧ w.allKernels = {1, 0} ∧
      w.visits [0] = [(⟨0, .output, "out"⟩, ⟨1, .input, "in"⟩)] ∧
      w.outOfOrder (⟨0, .output, "out"⟩, ⟨1, .input, "in"⟩) = true ∧ w.isSource 0 = true := by
    refine ⟨_, .single ⟨⟨by decide, by decide⟩, .inl ⟨_, rfl⟩⟩, rfl, rfl, rfl, ?_, rfl, rfl⟩
    decide +kernel
  have hm : w.Matched := (evolves_of_run hrun).2 twoKernels_unlinked.matched
  have hc : w.Connected := fun k hk => (checkEdges_ok.mp hcheck).2 k (by simpa [hall, or_comm] using hk)
  have hins : w.Inserts (fun _ => false) [] (⟨0, .output, "out"⟩, ⟨1, .input, "in"⟩) :=
    .inr ⟨hout, .inl hsource⟩
  refine ⟨w, hrun, hc, ⟨[], _, [], hvisits, .inl ⟨rfl, hins⟩⟩, ?_⟩
  rintro ⟨n, st', hok, -⟩
  have hsources : ∀ k ∈ [0], k < ({ world := w } : DupWorld).world.next := by simp [hnext]
  rcases enableDuplication_run hm hc hsources (by decide) with
    ⟨-, hnone⟩ | ⟨⟨err, st'', hthrow⟩, -⟩
  · exact hnone [] _ [] hvisits hins
  · have hrun' := hok (max n (w.next + 2)) (Nat.le_max_left _ _)
    rw [hthrow _ (Nat.le_max_right _ _)] at hrun'
    cases hrun'

end RaftLib.Graph
