/-
# `RaftLib.Graph.GraphTools` -- the traversal over edges

`graphtools.cpp`: `GraphTools::BFS` with a function that is called for each edge. The queue holds
pointers, and the other end of a port that is not connected is a null pointer, which is met and queued
like a kernel; the loop ends when it takes one. So a run is the call of the function on the edges of the
kernels that a traversal takes before the null pointer (`bfs_run`), and `edges_visited_iff` says when
these are all there are.

The function may be any program, on a state that has the map in it. The loop is run with fuel; it is
shown to end.
-/
import Mathlib.Data.Fintype.EquivFin
import RaftLib.Graph.Matching
import RaftLib.Logic.Traversal

namespace RaftLib.Graph

open RaftLib.Logic.Program
open RaftLib.Logic.Traversal

/-! ## `GraphTools::BFS` -/

section Code

variable {σ : Type} (world : σ → World)

/-- `getPortInfoFor`, on the map in the state. -/
def lookup (k : KernelId) (s : Side) (key : PortKey) : EStateM Err σ PortRef := fun st =>
  match (getPortInfoFor k s key).run (world st) with
  | .ok r _ => .ok r st
  | .error e _ => .error e st

variable (func : PortRef → PortRef → EStateM Err σ PUnit) (connectedError : Bool)

/-- The body of the loop over the output ports of `k`. -/
def visitPort (k : KernelId) (s : Front (Option KernelId)) (name : PortKey) :
    EStateM Err σ (Front (Option KernelId)) := do
  let source : PortRef := ⟨k, .output, name⟩
  match ((world (← get)).info source).otherKernel with
  | some other =>
      let dst ← lookup world other .input ((world (← get)).info source).otherName
      func source dst
  | none => if connectedError then throw .assertion
  return s.meet ((world (← get)).info source).otherKernel

/-- The loop of `__BFS`, and whether it has come to its end. -/
def bfsLoop : Nat → Front (Option KernelId) → EStateM Err σ Bool
  | 0, _ => return false
  | fuel + 1, s =>
      match s.queue with
      | [] => return true
      | none :: _ => return true
      | some k :: queue => do
          let keys := ((world (← get)).ports k .output).keys
          let s ← keys.foldlM (visitPort world func connectedError k) { s with queue := queue }
          bfsLoop fuel s

/-- `GraphTools::BFS`, on the kernels of `source_kernels` in the order of the set. -/
def bfs (fuel : Nat) (sourceKernels : List KernelId) : EStateM Err σ Bool :=
  bfsLoop world func connectedError fuel (.start (sourceKernels.map some))

end Code

/-! ## The graph -/

namespace World

/-- What a kernel's output ports lead to, one by one. -/
def successors (w : World) : Option KernelId → List (Option KernelId)
  | none => []
  | some k => (w.ports k .output).keys.map fun key => (w.info ⟨k, .output, key⟩).otherKernel

/-- A port with its other end, if it is connected. -/
def edge? (w : World) (r : PortRef) : Option (PortRef × PortRef) := (w.other r).map fun r' => (r, r')

/-- The connections from the kernel, by its output ports. -/
def edgesFrom (w : World) (k : KernelId) : List (PortRef × PortRef) :=
  (w.ports k .output).keys.filterMap fun key => w.edge? ⟨k, .output, key⟩

/-- One step along a connection. -/
def Feeds (w : World) (a b : KernelId) : Prop := ∃ e ∈ w.edgesFrom a, e.2.kernel = b

/-- The kernel can be reached along connections from one of the `sources`. -/
def Reached (w : World) (sources : List KernelId) (k : KernelId) : Prop :=
  ∃ s ∈ sources, Relation.ReflTransGen w.Feeds s k

/-- The kernels are those below `next`, and a connection leads to an input port of one of them. -/
def Closed (w : World) : Prop :=
  ∀ k < w.next, ∀ e ∈ w.edgesFrom k, e.2.kernel < w.next ∧
    e.2.key ∈ (w.ports e.2.kernel .input).keys

/-- The two maps have the same ports, with the same connections. -/
structure SameGraph (w w' : World) : Prop where
  ports : w'.ports = w.ports
  other : ∀ r, w'.other r = w.other r

variable {w w' w'' : World}

theorem SameGraph.refl (w : World) : w.SameGraph w := ⟨rfl, fun _ => rfl⟩

theorem SameGraph.trans (h : w.SameGraph w') (h' : w'.SameGraph w'') : w.SameGraph w'' :=
  ⟨h'.ports.trans h.ports, fun r => (h'.other r).trans (h.other r)⟩

theorem mem_edgesFrom {k : KernelId} {e : PortRef × PortRef} :
    e ∈ w.edgesFrom k ↔ ∃ key ∈ (w.ports k .output).keys, e.1 = ⟨k, .output, key⟩ ∧
      w.other ⟨k, .output, key⟩ = some e.2 := by
  unfold edgesFrom edge?
  simp only [List.mem_filterMap, Option.map_eq_some_iff]
  constructor
  · rintro ⟨key, hkey, r', hr', rfl⟩
    exact ⟨key, hkey, rfl, hr'⟩
  · rintro ⟨key, hkey, he, hr'⟩
    exact ⟨key, hkey, e.2, hr', by rw [← he]⟩

/-- The connections from different kernels are different. -/
theorem nodup_edgesFrom (w : World) (k : KernelId) : (w.edgesFrom k).Nodup := by
  refine (w.ports k .output).nodup.filterMap fun key key' e he he' => ?_
  obtain ⟨r, -, rfl⟩ := Option.map_eq_some_iff.mp he
  obtain ⟨r', -, heq⟩ := Option.map_eq_some_iff.mp he'
  cases congrArg Prod.fst heq
  rfl

end World

/-! ## Runs -/

/-- The function is called on the edges, one after another. -/
def callAll {σ : Type} (func : PortRef → PortRef → EStateM Err σ PUnit)
    (edges : List (PortRef × PortRef)) : EStateM Err σ PUnit :=
  edges.forM fun e => func e.1 e.2

/-- The function leaves the graph as it is. -/
def Keeps {σ : Type} (world : σ → World) (func : PortRef → PortRef → EStateM Err σ PUnit) : Prop :=
  ∀ r r' st u st', (func r r').run st = .ok u st' → (world st).SameGraph (world st')

/-- Called on connections of the graph `w`, the function stays in states `I` with that graph. -/
structure KeepsOn {σ : Type} (w : World) (world : σ → World) (I : σ → Prop)
    (func : PortRef → PortRef → EStateM Err σ PUnit) : Prop where
  graph : ∀ st, I st → w.SameGraph (world st)
  step : ∀ e, (∃ k < w.next, e ∈ w.edgesFrom k) → ∀ st u st', I st →
    (func e.1 e.2).run st = .ok u st' → I st'

/-- The kernels before the null pointer. -/
def upToNull : List (Option KernelId) → List KernelId
  | some k :: l => k :: upToNull l
  | _ => []

section Runs

variable {σ : Type} {world : σ → World} {func : PortRef → PortRef → EStateM Err σ PUnit}
variable {connectedError : Bool} {w : World} {st : σ} {k : KernelId} {r r' : PortRef}
variable {key : PortKey} {s : Front (Option KernelId)} {I : σ → Prop}

theorem World.otherKernel_eq {w : World} (ho : w.other r = some r') :
    (w.info r).otherKernel = some r'.kernel ∧ (w.info r).otherName = r'.key ∧
      r'.side = r.side.opposite := by
  obtain ⟨j, hj, rfl⟩ := Option.map_eq_some_iff.mp ho
  exact ⟨hj, rfl, rfl⟩

theorem callAll_cons (e : PortRef × PortRef) (edges : List (PortRef × PortRef)) :
    callAll func (e :: edges) = func e.1 e.2 >>= fun _ => callAll func edges := rfl

theorem callAll_append (edges edges' : List (PortRef × PortRef)) :
    callAll func (edges ++ edges') = callAll func edges >>= fun _ => callAll func edges' := by
  induction edges with
  | nil => rfl
  | cons e edges ih => rw [List.cons_append, callAll_cons, callAll_cons, ih, bind_assoc]

theorem Keeps.on (hkeep : Keeps world func) (w : World) :
    KeepsOn w world (fun st => w.SameGraph (world st)) func where
  graph _ hst := hst
  step _ _ _ _ _ hst hfunc := hst.trans (hkeep _ _ _ _ _ hfunc)

/-- So do calls on several. -/
theorem KeepsOn.callAll (hkeep : KeepsOn w world I func) {edges : List (PortRef × PortRef)}
    (hedges : ∀ e ∈ edges, ∃ k < w.next, e ∈ w.edgesFrom k) {u : PUnit} {st' : σ}
    (hst : I st) (h : (callAll func edges).run st = .ok u st') : I st' := by
  induction edges generalizing st with
  | nil =>
      cases h
      exact hst
  | cons e edges ih =>
      obtain ⟨he, hedges⟩ := List.forall_mem_cons.mp hedges
      rw [callAll_cons] at h
      obtain ⟨v, m, hfunc, hrest⟩ := run_bind_ok.mp h
      exact ih hedges (hkeep.step e he st v m hst hfunc) hrest

/-- A port that is not connected is passed over, or ends the traversal. -/
theorem visitPort_none (ho : (world st).other ⟨k, .output, key⟩ = none) :
    (visitPort world func connectedError k s key).run st =
      if connectedError then .error .assertion st else .ok (s.meet none) st := by
  have hk := World.other_eq_none.mp ho
  unfold visitPort
  cases connectedError <;> simp [hk]

variable (connectedError s) in
/-- The function is called on a connection. -/
theorem visitPort_some (hkeep : KeepsOn w world I func) (hclosed : w.Closed) (hk : k < w.next)
    (hkey : key ∈ (w.ports k .output).keys) (hst : I st)
    (ho : w.other ⟨k, .output, key⟩ = some r') :
    (visitPort world func connectedError k s key).run st =
      (func ⟨k, .output, key⟩ r' >>= fun _ => pure (s.meet (some r'.kernel))).run st := by
  have hedge : ((⟨k, .output, key⟩ : PortRef), r') ∈ w.edgesFrom k :=
    World.mem_edgesFrom.mpr ⟨key, hkey, rfl, ho⟩
  have hmem := (hclosed k hk _ hedge).2
  have hgraph := hkeep.graph st hst
  rw [← hgraph.ports] at hmem
  obtain ⟨hkernel, hname, hside⟩ := World.otherKernel_eq ((hgraph.other _).trans ho)
  have hlookup : (lookup world r'.kernel .input r'.key).run st = .ok r' st := by
    have hr' : (⟨r'.kernel, .input, r'.key⟩ : PortRef) = r' := by
      cases r'
      cases hside
      rfl
    show lookup world r'.kernel .input r'.key st = _
    unfold lookup getPortInfoFor
    simp [hmem, hr']
  have hrun : (visitPort world func connectedError k s key).run st =
      (lookup world r'.kernel .input r'.key >>= fun dst => func ⟨k, .output, key⟩ dst >>= fun _ =>
        get >>= fun st => pure (s.meet ((world st).info ⟨k, .output, key⟩).otherKernel)).run st := by
    unfold visitPort
    simp [hkernel, hname]
  rw [hrun, run_bind_of_ok hlookup, EStateM.run_bind, EStateM.run_bind]
  cases hfunc : (func ⟨k, .output, key⟩ r').run st with
  | error e m => rfl
  | ok u m =>
      -- the function has left the connection where it was
      have hm := ((hkeep.graph m (hkeep.step _ ⟨k, hk, hedge⟩ _ _ _ hst hfunc)).other
        ⟨k, .output, key⟩).trans ho
      show EStateM.Result.ok (s.meet ((world m).info ⟨k, .output, key⟩).otherKernel) m = _
      rw [(World.otherKernel_eq hm).1]
      rfl

variable (hkeep : KeepsOn w world I func) (hclosed : w.Closed)
include hkeep hclosed

variable (connectedError s) in
/-- **The loop over the ports of a kernel** calls the function on its connections, and meets what its
ports lead to. -/
theorem visitPorts_run (hk : k < w.next) {keys : List PortKey}
    (hkeys : ∀ key ∈ keys, key ∈ (w.ports k .output).keys)
    (hconnected : connectedError = true → ∀ key ∈ keys, w.other ⟨k, .output, key⟩ ≠ none)
    (hst : I st) :
    (keys.foldlM (visitPort world func connectedError k) s).run st =
      (callAll func (keys.filterMap fun key => w.edge? ⟨k, .output, key⟩) >>= fun _ =>
        pure (s.meetAll (keys.map fun key => (w.info ⟨k, .output, key⟩).otherKernel))).run st := by
  induction keys generalizing s st with
  | nil => rfl
  | cons key keys ih =>
      have hkeys' : ∀ key' ∈ keys, key' ∈ (w.ports k .output).keys := fun key' hkey' =>
        hkeys key' (List.mem_cons_of_mem key hkey')
      have hconnected' : connectedError = true → ∀ key' ∈ keys, w.other ⟨k, .output, key'⟩ ≠ none :=
        fun hc key' hkey' => hconnected hc key' (List.mem_cons_of_mem key hkey')
      rw [List.foldlM_cons, List.filterMap_cons, List.map_cons]
      cases ho : w.other ⟨k, .output, key⟩ with
      | none =>
          have hfalse : connectedError = false := by
            cases hc : connectedError with
            | false => rfl
            | true => exact absurd ho (hconnected hc key List.mem_cons_self)
          subst hfalse
          have hvisit : (visitPort world func false k s key).run st = .ok (s.meet none) st :=
            visitPort_none (((hkeep.graph st hst).other ⟨k, .output, key⟩).trans ho)
          rw [run_bind_of_ok hvisit, ih _ hkeys' hconnected' hst]
          simp only [World.edge?, ho, Option.map_none, World.other_eq_none.mp ho]
          rfl
      | some r' =>
          have hedge : ((⟨k, .output, key⟩ : PortRef), r') ∈ w.edgesFrom k :=
            World.mem_edgesFrom.mpr ⟨key, hkeys key List.mem_cons_self, rfl, ho⟩
          have hvisit := visitPort_some connectedError s hkeep hclosed hk
            (hkeys key List.mem_cons_self) hst ho
          simp only [World.edge?, ho, Option.map_some, (World.otherKernel_eq ho).1]
          rw [callAll_cons, bind_assoc, EStateM.run_bind, hvisit, EStateM.run_bind, EStateM.run_bind]
          cases hfunc : (func ⟨k, .output, key⟩ r').run st with
          | error e m => rfl
          | ok u m => exact ih _ hkeys' hconnected' (hkeep.step _ ⟨k, hk, hedge⟩ _ _ _ hst hfunc)

variable (connectedError) in
/-- **The loop over the queue**, from any state of it: the function is called on the connections of the
kernels that are taken before the null pointer. -/
theorem bfsLoop_run {fuel : Nat} {l : List (Option KernelId)} (hl : order w.successors fuel s = some l)
    (hlt : ∀ k, some k ∈ l → k < w.next)
    (hconnected : connectedError = true → ∀ k ∈ upToNull l, ∀ key ∈ (w.ports k .output).keys,
      w.other ⟨k, .output, key⟩ ≠ none) (hst : I st) :
    (bfsLoop world func connectedError fuel s).run st =
      (callAll func ((upToNull l).flatMap w.edgesFrom) >>= fun _ => pure true).run st := by
  induction fuel generalizing s l st with
  | zero => cases hl
  | succ fuel ih =>
      unfold order at hl
      unfold bfsLoop
      split at hl
      · next hq =>
          rw [hq]
          obtain rfl := Option.some_inj.mp hl
          rfl
      · next node queue hq =>
          rw [hq]
          obtain ⟨l, hrest, rfl⟩ := Option.map_eq_some_iff.mp hl
          cases node with
          | none => rfl
          | some k =>
              have hk : k < w.next := hlt k List.mem_cons_self
              have hlt' : ∀ j, some j ∈ l → j < w.next := fun j hj =>
                hlt j (List.mem_cons_of_mem _ hj)
              have hconnected' : connectedError = true → ∀ j ∈ upToNull l,
                  ∀ key ∈ (w.ports j .output).keys, w.other ⟨j, .output, key⟩ ≠ none :=
                fun hc j hj => hconnected hc j (List.mem_cons_of_mem k hj)
              have hports := visitPorts_run connectedError { s with queue := queue } hkeep hclosed hk
                (fun _ hkey => hkey) (fun hc => hconnected hc k List.mem_cons_self) hst
              show ((((world st).ports k .output).keys.foldlM
                (visitPort world func connectedError k) { s with queue := queue }) >>= fun s =>
                  bfsLoop world func connectedError fuel s).run st = _
              rw [(hkeep.graph st hst).ports, EStateM.run_bind, hports]
              show _ = (callAll func (w.edgesFrom k ++ (upToNull l).flatMap w.edgesFrom) >>=
                fun _ => pure true).run st
              rw [callAll_append, bind_assoc, EStateM.run_bind, EStateM.run_bind]
              unfold World.edgesFrom
              cases hcalls : (callAll func ((w.ports k .output).keys.filterMap fun key =>
                  w.edge? ⟨k, .output, key⟩)).run st with
              | error e m => rfl
              | ok u m =>
                  exact ih hrest hlt' hconnected' (hkeep.callAll (fun e he => ⟨k, hk, he⟩) hst hcalls)

variable (hreturns : ∀ r r' st, ∃ st', (func r r').run st = .ok ⟨⟩ st')
include hreturns

omit hkeep hclosed in
theorem callAll_returns (edges : List (PortRef × PortRef)) (st : σ) :
    ∃ st', (callAll func edges).run st = .ok ⟨⟩ st' := by
  induction edges generalizing st with
  | nil => exact ⟨st, rfl⟩
  | cons e edges ih =>
      obtain ⟨m, hm⟩ := hreturns e.1 e.2 st
      obtain ⟨st', hst'⟩ := ih m
      exact ⟨st', by rw [callAll_cons, run_bind_of_ok hm, hst']⟩

/-- With `connected_error`, a port that is not connected ends the loop over the ports. -/
theorem visitPorts_fails (hk : k < w.next) {keys : List PortKey}
    (hkeys : ∀ key ∈ keys, key ∈ (w.ports k .output).keys)
    (hfree : ∃ key ∈ keys, w.other ⟨k, .output, key⟩ = none) (hst : I st) :
    ∃ st', (keys.foldlM (visitPort world func true k) s).run st = .error .assertion st' := by
  induction keys generalizing s st with
  | nil =>
      obtain ⟨_, hkey, -⟩ := hfree
      cases hkey
  | cons key keys ih =>
      rw [List.foldlM_cons]
      cases ho : w.other ⟨k, .output, key⟩ with
      | none =>
          have hvisit : (visitPort world func true k s key).run st = .error .assertion st :=
            visitPort_none (((hkeep.graph st hst).other ⟨k, .output, key⟩).trans ho)
          exact ⟨st, by rw [run_bind_of_error hvisit]⟩
      | some r' =>
          have hedge : ((⟨k, .output, key⟩ : PortRef), r') ∈ w.edgesFrom k :=
            World.mem_edgesFrom.mpr ⟨key, hkeys key List.mem_cons_self, rfl, ho⟩
          obtain ⟨m, hm⟩ := hreturns ⟨k, .output, key⟩ r' st
          have hvisit := visitPort_some true s hkeep hclosed hk
            (hkeys key List.mem_cons_self) hst ho
          rw [run_bind_of_ok hm] at hvisit
          have hfree' : ∃ key ∈ keys, w.other ⟨k, .output, key⟩ = none := by
            obtain ⟨key', hkey', ho'⟩ := hfree
            rcases List.mem_cons.mp hkey' with rfl | hkey'
            · rw [ho] at ho'
              cases ho'
            · exact ⟨key', hkey', ho'⟩
          obtain ⟨st', hst'⟩ := ih (s := s.meet (some r'.kernel))
            (fun key' hkey' => hkeys key' (List.mem_cons_of_mem key hkey')) hfree'
            (hkeep.step _ ⟨k, hk, hedge⟩ _ _ _ hst hm)
          exact ⟨st', by rw [run_bind_of_ok hvisit]; exact hst'⟩

/-- And so the traversal. -/
theorem bfsLoop_fails {fuel : Nat} {l : List (Option KernelId)}
    (hl : order w.successors fuel s = some l) (hlt : ∀ k, some k ∈ l → k < w.next)
    (hfree : ∃ k ∈ upToNull l, ∃ key ∈ (w.ports k .output).keys, w.other ⟨k, .output, key⟩ = none)
    (hst : I st) :
    ∃ st', (bfsLoop world func true fuel s).run st = .error .assertion st' := by
  induction fuel generalizing s l st with
  | zero => cases hl
  | succ fuel ih =>
      unfold order at hl
      unfold bfsLoop
      split at hl
      · obtain rfl := Option.some_inj.mp hl
        obtain ⟨_, hk, -⟩ := hfree
        cases hk
      · next node queue hq =>
          rw [hq]
          obtain ⟨l, hrest, rfl⟩ := Option.map_eq_some_iff.mp hl
          cases node with
          | none =>
              obtain ⟨_, hk, -⟩ := hfree
              cases hk
          | some k =>
              have hk : k < w.next := hlt k List.mem_cons_self
              show ∃ st', ((((world st).ports k .output).keys.foldlM
                (visitPort world func true k) { s with queue := queue }) >>= fun s =>
                  bfsLoop world func true fuel s).run st = .error .assertion st'
              rw [(hkeep.graph st hst).ports]
              by_cases hfreek : ∃ key ∈ (w.ports k .output).keys, w.other ⟨k, .output, key⟩ = none
              · obtain ⟨st', hst'⟩ := visitPorts_fails (s := { s with queue := queue }) hkeep hclosed
                  hreturns hk (fun _ hkey => hkey) hfreek hst
                exact ⟨st', by rw [run_bind_of_error hst']⟩
              · have hports := visitPorts_run true { s with queue := queue } hkeep hclosed hk
                  (fun _ hkey => hkey)
                  (fun _ key hkey ho => hfreek ⟨key, hkey, ho⟩) hst
                obtain ⟨m, hm⟩ := callAll_returns hreturns (w.edgesFrom k) st
                unfold World.edgesFrom at hm
                rw [run_bind_of_ok hm] at hports
                obtain ⟨j, hj, hfreej⟩ := hfree
                have hj' : j ∈ upToNull l := by
                  rcases List.mem_cons.mp hj with rfl | hj
                  · exact absurd hfreej hfreek
                  · exact hj
                obtain ⟨st', hst'⟩ := ih hrest (fun j hj => hlt j (List.mem_cons_of_mem _ hj))
                  ⟨j, hj', hfreej⟩ (hkeep.callAll (fun e he => ⟨k, hk, he⟩) hst hm)
                exact ⟨st', by rw [run_bind_of_ok hports]; exact hst'⟩

end Runs

/-! ## Which kernels are taken -/

section Taken

variable {w : World} {sources : List KernelId} {k : KernelId} {l : List (Option KernelId)}

theorem World.some_mem_successors {j : KernelId} :
    some k ∈ w.successors (some j) ↔ w.Feeds j k := by
  unfold World.Feeds World.successors
  simp only [List.mem_map, World.mem_edgesFrom]
  constructor
  · rintro ⟨key, hkey, hother⟩
    exact ⟨(⟨j, .output, key⟩, ⟨k, .input, (w.info ⟨j, .output, key⟩).otherName⟩),
      ⟨key, hkey, rfl, by rw [World.other, hother]; rfl⟩, rfl⟩
  · rintro ⟨e, ⟨key, hkey, -, ho⟩, rfl⟩
    exact ⟨key, hkey, (World.otherKernel_eq ho).1⟩

theorem World.none_mem_successors {j : KernelId} :
    none ∈ w.successors (some j) ↔ ∃ key ∈ (w.ports j .output).keys,
      w.other ⟨j, .output, key⟩ = none := by
  unfold World.successors
  simp only [List.mem_map, World.other_eq_none]

/-- The null pointer leads nowhere, so a kernel is reached over kernels. -/
theorem reaches_iff :
    Reaches w.successors (sources.map some) (some k) ↔ w.Reached sources k := by
  constructor
  · rintro ⟨_, hsome, hpath⟩
    obtain ⟨s, hs, rfl⟩ := List.mem_map.mp hsome
    refine ⟨s, hs, ?_⟩
    suffices h : ∀ x, Relation.ReflTransGen (fun a b => b ∈ w.successors a) (some s) x →
        ∀ k, x = some k → Relation.ReflTransGen w.Feeds s k from h _ hpath k rfl
    intro x hx
    induction hx with
    | refl =>
        rintro k ⟨⟩
        exact .refl
    | @tail y x _ hstep ih =>
        rintro k rfl
        cases y with
        | none => cases hstep
        | some j => exact (ih j rfl).tail (World.some_mem_successors.mp hstep)
  · rintro ⟨s, hs, hpath⟩
    refine ⟨some s, List.mem_map_of_mem hs, ?_⟩
    exact hpath.lift some fun _ _ h => World.some_mem_successors.mpr h

theorem mem_upToNull : k ∈ upToNull l → some k ∈ l := by
  induction l with
  | nil => exact nofun
  | cons x l ih =>
      cases x with
      | none => exact nofun
      | some j =>
          intro hk
          rcases List.mem_cons.mp hk with rfl | hk
          · exact List.mem_cons_self
          · exact List.mem_cons_of_mem _ (ih hk)

/-- A kernel is taken before the null pointer, or behind it. -/
theorem mem_upToNull_or (h : some k ∈ l) :
    k ∈ upToNull l ∨ ∃ l₁ l₂, l = l₁ ++ none :: l₂ ∧ some k ∈ l₂ := by
  induction l with
  | nil => cases h
  | cons x l ih =>
      cases x with
      | none =>
          refine .inr ⟨[], l, rfl, ?_⟩
          simpa using h
      | some j =>
          rcases List.mem_cons.mp h with heq | h
          · cases heq
            exact .inl List.mem_cons_self
          · rcases ih h with hk | ⟨l₁, l₂, rfl, hk⟩
            · exact .inl (List.mem_cons_of_mem j hk)
            · exact .inr ⟨some j :: l₁, l₂, rfl, hk⟩

theorem upToNull_append (l₁ l₂ : List (Option KernelId)) :
    upToNull (l₁ ++ none :: l₂) = upToNull l₁ := by
  induction l₁ with
  | nil => rfl
  | cons x l₁ ih =>
      cases x with
      | none => rfl
      | some j => exact congrArg (j :: ·) ih

theorem nodup_upToNull (h : l.Nodup) : (upToNull l).Nodup := by
  induction l with
  | nil => exact List.nodup_nil
  | cons x l ih =>
      obtain ⟨hx, hl⟩ := List.nodup_cons.mp h
      cases x with
      | none => exact List.nodup_nil
      | some j => exact List.nodup_cons.mpr ⟨fun hj => hx (mem_upToNull hj), ih hl⟩

/-- The connections of different kernels, one after another. -/
theorem nodup_edges {ks : List KernelId} (h : ks.Nodup) : (ks.flatMap w.edgesFrom).Nodup := by
  refine List.nodup_flatMap.mpr ⟨fun k _ => w.nodup_edgesFrom k, h.imp fun {j k} hne => ?_⟩
  intro e he he'
  obtain ⟨key, -, hj, -⟩ := World.mem_edgesFrom.mp he
  obtain ⟨key', -, hk, -⟩ := World.mem_edgesFrom.mp he'
  rw [hj] at hk
  exact hne (congrArg PortRef.kernel hk)

variable (hclosed : w.Closed) (hlt : ∀ k ∈ sources, k < w.next)
include hclosed hlt

theorem World.Reached.lt (h : w.Reached sources k) : k < w.next := by
  obtain ⟨s, hs, hpath⟩ := h
  induction hpath with
  | refl => exact hlt s hs
  | tail _ hstep ih =>
      obtain ⟨e, he, rfl⟩ := hstep
      exact (hclosed _ ih e he).1

/-- **The traversal ends**, and takes each kernel that can be reached once. -/
theorem exists_taken (hnodup : sources.Nodup) : ∃ l : List (Option KernelId), l.Nodup ∧
    (∀ k, some k ∈ l ↔ w.Reached sources k) ∧
    ∀ fuel, w.next + 2 ≤ fuel → order w.successors fuel (.start (sources.map some)) = some l := by
  have hnodup' : (sources.map some).Nodup := hnodup.map (Option.some_injective _)
  let nodes : Finset (Option KernelId) := insert none ((Finset.range w.next).image some)
  have hnodes : ∀ a, Reaches w.successors (sources.map some) a → a ∈ nodes := by
    intro a ha
    cases a with
    | none => exact Finset.mem_insert_self _ _
    | some k =>
        refine Finset.mem_insert_of_mem (Finset.mem_image_of_mem some (Finset.mem_range.mpr ?_))
        exact (reaches_iff.mp ha).lt hclosed hlt
  have hcard : nodes.card < w.next + 2 := by
    have himage : ((Finset.range w.next).image (some (α := KernelId))).card ≤ w.next :=
      Finset.card_image_le.trans (Finset.card_range w.next).le
    have hinsert := Finset.card_insert_le none ((Finset.range w.next).image (some (α := KernelId)))
    exact Nat.lt_succ_of_le (hinsert.trans (Nat.succ_le_succ himage))
  obtain ⟨l, hl⟩ := exists_order hnodes hnodup' hcard
  obtain ⟨hl', hmem⟩ := order_spec hnodup' hl
  refine ⟨l, hl', fun k => (hmem _).trans reaches_iff, fun fuel hfuel => ?_⟩
  obtain ⟨l', hl''⟩ := exists_order hnodes hnodup' (hcard.trans_le hfuel)
  rw [hl'', order_unique hl'' hl]

omit hclosed hlt in
/-- The null pointer is taken only behind a kernel with a port that leads to it. -/
theorem exists_free {fuel : Nat} (hl : order w.successors fuel (.start (sources.map some)) = some l)
    (hnodup : l.Nodup) (hnone : none ∈ l) : ∃ k ∈ upToNull l, ∃ key ∈ (w.ports k .output).keys,
      w.other ⟨k, .output, key⟩ = none := by
  obtain ⟨l₁, l₂, rfl⟩ := List.append_of_mem hnone
  have hnot : none ∉ l₁ := fun hmem =>
    (List.nodup_append.mp hnodup).2.2 none hmem none List.mem_cons_self rfl
  have hparent : none ∈ sources.map some ∨ ∃ a ∈ [] ++ l₁, none ∈ w.successors a :=
    order_parent hl (fun q hq => .inl hq) rfl
  rcases hparent with hs | ⟨a, ha, hstep⟩
  · simp at hs
  · cases a with
    | none => cases hstep
    | some k =>
        refine ⟨k, ?_, World.none_mem_successors.mp hstep⟩
        rw [upToNull_append]
        rcases mem_upToNull_or ha with hk | ⟨_, _, heq, -⟩
        · exact hk
        · rw [List.nil_append] at heq
          exact absurd (heq ▸ List.mem_append_right _ List.mem_cons_self) hnot

end Taken

/-! ## Each edge once -/

/-- A kernel that is reached has an output port that is not connected. -/
def World.SomeFree (w : World) (sources : List KernelId) : Prop :=
  ∃ k, w.Reached sources k ∧ ∃ key ∈ (w.ports k .output).keys, w.other ⟨k, .output, key⟩ = none

/-- The traversal of the graph ends, and is the call of the function on each connection of the kernels
that are reached, once; with `connected_error` it fails when there is a port that is not connected, and
only then. -/
structure EdgesVisited (w : World) (sources : List KernelId) : Prop where
  calls : ∃ edges : List (PortRef × PortRef), edges.Nodup ∧
    (∀ e, e ∈ edges ↔ ∃ k, w.Reached sources k ∧ e ∈ w.edgesFrom k) ∧
    ∀ (σ : Type) (world : σ → World) (func : PortRef → PortRef → EStateM Err σ PUnit)
      (connectedError : Bool) (st : σ) (fuel : Nat), Keeps world func → w.SameGraph (world st) →
      w.next + 2 ≤ fuel → (connectedError = true → ¬w.SomeFree sources) →
      (bfs world func connectedError fuel sources).run st =
        (callAll func edges >>= fun _ => pure true).run st
  fails : ∀ (σ : Type) (world : σ → World) (func : PortRef → PortRef → EStateM Err σ PUnit) (st : σ)
    (fuel : Nat), Keeps world func → (∀ r r' st, ∃ st', (func r r').run st = .ok ⟨⟩ st') →
    w.SameGraph (world st) → w.next + 2 ≤ fuel →
    ((∃ e st', (bfs world func true fuel sources).run st = .error e st') ↔ w.SomeFree sources)

section Visited

variable {w : World} {sources : List KernelId} {l : List (Option KernelId)}

/-- A callback that writes down what it is called on. -/
def record (r r' : PortRef) : EStateM Err (World × List (PortRef × PortRef)) PUnit :=
  modify fun st => (st.1, st.2 ++ [(r, r')])

theorem keeps_record : Keeps Prod.fst record := by
  intro r r' st u st' h
  cases h
  exact .refl _

theorem callAll_record (edges : List (PortRef × PortRef)) (st : World × List (PortRef × PortRef)) :
    (callAll record edges >>= fun _ => pure true).run st = .ok true (st.1, st.2 ++ edges) := by
  induction edges generalizing st with
  | nil =>
      show EStateM.Result.ok true st = _
      rw [List.append_nil]
  | cons e edges ih =>
      rw [callAll_cons, bind_assoc, run_bind_of_ok (x := record e.1 e.2) rfl, ih, List.append_assoc]
      rfl

theorem mem_edges {ks : List KernelId} {e : PortRef × PortRef} :
    e ∈ ks.flatMap w.edgesFrom ↔ ∃ k ∈ ks, e ∈ w.edgesFrom k := List.mem_flatMap

/-- What is behind the null pointer is not among the kernels before it. -/
theorem not_mem_upToNull {k : KernelId} {l₁ l₂ : List (Option KernelId)}
    (hnodup : (l₁ ++ none :: l₂).Nodup) (hk : some k ∈ l₂) : k ∉ upToNull (l₁ ++ none :: l₂) := by
  rw [upToNull_append]
  intro hmem
  exact (List.nodup_append.mp hnodup).2.2 _ (mem_upToNull hmem) _ (List.mem_cons_of_mem _ hk) rfl

/-- The connections called on are all that there are, if none comes from behind the null pointer. -/
theorem mem_taken_iff (hmem : ∀ k, some k ∈ l ↔ w.Reached sources k)
    (hbehind : ∀ k l₁ l₂, l = l₁ ++ none :: l₂ → some k ∈ l₂ → w.edgesFrom k = [])
    (e : PortRef × PortRef) :
    e ∈ (upToNull l).flatMap w.edgesFrom ↔ ∃ k, w.Reached sources k ∧ e ∈ w.edgesFrom k := by
  rw [mem_edges]
  constructor
  · rintro ⟨k, hk, he⟩
    exact ⟨k, (hmem k).mp (mem_upToNull hk), he⟩
  · rintro ⟨k, hk, he⟩
    rcases mem_upToNull_or ((hmem k).mpr hk) with hk | ⟨l₁, l₂, heq, hk⟩
    · exact ⟨k, hk, he⟩
    · rw [hbehind k l₁ l₂ heq hk] at he
      cases he

/-- Where no kernel that is reached has a port that is not connected, there is no null pointer in
front of any of them. -/
theorem mem_upToNull_iff {fuel : Nat}
    (horder : order w.successors fuel (.start (sources.map some)) = some l) (hl : l.Nodup)
    (hmem : ∀ k, some k ∈ l ↔ w.Reached sources k) (hfree : ¬w.SomeFree sources) {k : KernelId} :
    k ∈ upToNull l ↔ w.Reached sources k := by
  constructor
  · intro hk
    exact (hmem k).mp (mem_upToNull hk)
  · intro hk
    rcases mem_upToNull_or ((hmem k).mpr hk) with hk | ⟨l₁, l₂, rfl, -⟩
    · exact hk
    · obtain ⟨j, hj, key, hkey, ho⟩ :=
        exists_free horder hl (List.mem_append_right l₁ List.mem_cons_self)
      exact absurd ⟨j, (hmem j).mp (mem_upToNull hj), key, hkey, ho⟩ hfree

variable (hclosed : w.Closed) (hlt : ∀ k ∈ sources, k < w.next) (hnodup : sources.Nodup)
include hclosed hlt hnodup

/-- With `connected_error`, the traversal fails exactly when there is a port that is not connected. -/
theorem bfs_fails_iff {σ : Type} {world : σ → World}
    {func : PortRef → PortRef → EStateM Err σ PUnit} {st : σ} {fuel : Nat} (hkeep : Keeps world func)
    (hreturns : ∀ r r' st, ∃ st', (func r r').run st = .ok ⟨⟩ st') (hst : w.SameGraph (world st))
    (hfuel : w.next + 2 ≤ fuel) :
    (∃ e st', (bfs world func true fuel sources).run st = .error e st') ↔ w.SomeFree sources := by
  obtain ⟨l, hl, hmem, horder⟩ := exists_taken hclosed hlt hnodup
  have hlt' : ∀ k, some k ∈ l → k < w.next := fun k hk => ((hmem k).mp hk).lt hclosed hlt
  constructor
  · rintro ⟨e, st', herror⟩
    by_contra hfree
    have hrun := bfsLoop_run true (hkeep.on w) hclosed (horder fuel hfuel)
      hlt' (fun _ k hk key hkey ho => hfree ⟨k, (hmem k).mp (mem_upToNull hk), key, hkey, ho⟩) hst
    obtain ⟨m, hm⟩ := callAll_returns hreturns ((upToNull l).flatMap w.edgesFrom) st
    rw [run_bind_of_ok hm] at hrun
    cases hrun.symm.trans herror
  · rintro ⟨k, hk, key, hkey, ho⟩
    -- the port leads to the null pointer, so a port that leads there is met before it is taken
    have hnone : none ∈ l := by
      have hreach : Reaches w.successors (sources.map some) none := by
        obtain ⟨s, hs, hpath⟩ := reaches_iff.mpr hk
        exact ⟨s, hs, hpath.tail (World.none_mem_successors.mpr ⟨key, hkey, ho⟩)⟩
      exact ((order_spec (hnodup.map (Option.some_injective _)) (horder fuel hfuel)).2 none).mpr hreach
    obtain ⟨st', hst'⟩ := bfsLoop_fails (hkeep.on w) hclosed hreturns (horder fuel hfuel) hlt'
      (exists_free (horder fuel hfuel) hl hnone) hst
    exact ⟨_, st', hst'⟩

/-- **When each edge is visited**: no kernel with a connection from it comes behind the null pointer
that a port that is not connected leads to. -/
theorem edges_visited_iff : EdgesVisited w sources ↔
    ∀ k, Behind w.successors (sources.map some) none (some k) → w.edgesFrom k = [] := by
  obtain ⟨l, hl, hmem, horder⟩ := exists_taken hclosed hlt hnodup
  have hlt' : ∀ k, some k ∈ l → k < w.next := fun k hk => ((hmem k).mp hk).lt hclosed hlt
  have hbehind : ∀ k, Behind w.successors (sources.map some) none (some k) ↔
      ∃ l₁ l₂, l = l₁ ++ none :: l₂ ∧ some k ∈ l₂ := fun k => behind_iff (horder _ (Nat.le_refl _))
  constructor
  · intro h k hk
    obtain ⟨edges, -, hedges, hcalls⟩ := h.calls
    have hst : w.SameGraph (Prod.fst (w, ([] : List (PortRef × PortRef)))) := .refl w
    have hrun := bfsLoop_run false (keeps_record.on w) hclosed
      (horder _ (Nat.le_refl _)) hlt' nofun hst
    have hrun' := hcalls _ Prod.fst record false (w, []) _ keeps_record hst (Nat.le_refl _) nofun
    have heq : edges = (upToNull l).flatMap w.edgesFrom := by
      have hsame := (callAll_record edges (w, [])).symm.trans
        (hrun'.symm.trans (hrun.trans (callAll_record _ (w, []))))
      cases hsame
      rfl
    obtain ⟨l₁, l₂, rfl, hkl⟩ := (hbehind k).mp hk
    refine List.eq_nil_iff_forall_not_mem.mpr fun e he => ?_
    have hreached := (hmem k).mp (List.mem_append_right _ (List.mem_cons_of_mem _ hkl))
    obtain ⟨j, hj, hej⟩ := mem_edges.mp (heq ▸ (hedges e).mpr ⟨k, hreached, he⟩)
    obtain ⟨key, -, hkernel, -⟩ := World.mem_edgesFrom.mp he
    obtain ⟨key', -, hkernel', -⟩ := World.mem_edgesFrom.mp hej
    have hjk : j = k := congrArg PortRef.kernel (hkernel'.symm.trans hkernel)
    exact not_mem_upToNull hl hkl (hjk ▸ hj)
  · intro h
    refine ⟨⟨(upToNull l).flatMap w.edgesFrom, nodup_edges (nodup_upToNull hl),
      mem_taken_iff hmem fun k l₁ l₂ heq hk => h k ((hbehind k).mpr ⟨l₁, l₂, heq, hk⟩), ?_⟩, ?_⟩
    · intro σ world func connectedError st fuel hkeep hst hfuel hfree
      exact bfsLoop_run connectedError (hkeep.on w) hclosed (horder fuel hfuel) hlt' (fun hc k hk key hkey ho =>
        hfree hc ⟨k, (hmem k).mp (mem_upToNull hk), key, hkey, ho⟩) hst
    · intro σ world func st fuel hkeep hreturns hst hfuel
      exact bfs_fails_iff hclosed hlt hnodup hkeep hreturns hst hfuel

end Visited

/-! ## The edges that are met -/

/-- The connections that the traversal calls its function on, in that order. -/
def World.edgesMet (w : World) (sources : List KernelId) : List (PortRef × PortRef) :=
  match (bfs Prod.fst record false (w.next + 2) sources).run (w, []) with
  | .ok _ st => st.2
  | .error _ st => st.2

section Met

variable {w : World} {sources : List KernelId} (hclosed : w.Closed) (hlt : ∀ k ∈ sources, k < w.next)
  (hnodup : sources.Nodup)
include hclosed hlt hnodup

/-- They are the connections of some kernels that are reached, each kernel once. -/
theorem exists_edgesMet : ∃ ks : List KernelId, ks.Nodup ∧ (∀ k ∈ ks, w.Reached sources k) ∧
    (¬w.SomeFree sources → ∀ k, w.Reached sources k → k ∈ ks) ∧
    w.edgesMet sources = ks.flatMap w.edgesFrom ∧
    ∀ (σ : Type) (world : σ → World) (func : PortRef → PortRef → EStateM Err σ PUnit) (st : σ)
      (fuel : Nat), Keeps world func → w.SameGraph (world st) → w.next + 2 ≤ fuel →
      (bfs world func false fuel sources).run st =
        (callAll func (ks.flatMap w.edgesFrom) >>= fun _ => pure true).run st := by
  obtain ⟨l, hl, hmem, horder⟩ := exists_taken hclosed hlt hnodup
  have hruns : ∀ (σ : Type) (world : σ → World) (func : PortRef → PortRef → EStateM Err σ PUnit) (st : σ)
      (fuel : Nat), Keeps world func → w.SameGraph (world st) → w.next + 2 ≤ fuel →
      (bfs world func false fuel sources).run st =
        (callAll func ((upToNull l).flatMap w.edgesFrom) >>= fun _ => pure true).run st :=
    fun σ world func st fuel hkeep hst hfuel =>
      bfsLoop_run false (hkeep.on w) hclosed (horder fuel hfuel)
        (fun k hk => ((hmem k).mp hk).lt hclosed hlt) nofun hst
  refine ⟨upToNull l, nodup_upToNull hl, fun k hk => (hmem k).mp (mem_upToNull hk),
    fun hfree _ => (mem_upToNull_iff (horder _ le_rfl) hl hmem hfree).mpr, ?_, hruns⟩
  unfold World.edgesMet
  rw [hruns _ Prod.fst record (w, []) _ keeps_record (.refl w) (Nat.le_refl _), callAll_record]
  rfl

/-- **The traversal is the call of the function on them.** -/
theorem bfs_edgesMet {σ : Type} {world : σ → World} {func : PortRef → PortRef → EStateM Err σ PUnit} {st : σ}
    {fuel : Nat} (hkeep : Keeps world func) (hst : w.SameGraph (world st)) (hfuel : w.next + 2 ≤ fuel) :
    (bfs world func false fuel sources).run st =
      (callAll func (w.edgesMet sources) >>= fun _ => pure true).run st := by
  obtain ⟨ks, -, -, -, hmet, hruns⟩ := exists_edgesMet hclosed hlt hnodup
  rw [hmet]
  exact hruns σ world func st fuel hkeep hst hfuel

/-- They are all the connections of the kernels that are reached, where none of these has a port that
is not connected. -/
theorem mem_edgesMet_iff (hfree : ¬w.SomeFree sources) {e : PortRef × PortRef} :
    e ∈ w.edgesMet sources ↔ ∃ k, w.Reached sources k ∧ e ∈ w.edgesFrom k := by
  obtain ⟨ks, -, hreached, hall, hmet, -⟩ := exists_edgesMet hclosed hlt hnodup
  rw [hmet, mem_edges]
  constructor
  · rintro ⟨k, hk, he⟩
    exact ⟨k, hreached k hk, he⟩
  · rintro ⟨k, hk, he⟩
    exact ⟨k, hall hfree k hk, he⟩

/-- No port is the start of two of them. -/
theorem nodup_edgesMet : ((w.edgesMet sources).map Prod.fst).Nodup := by
  obtain ⟨ks, hks, -, -, hmet, -⟩ := exists_edgesMet hclosed hlt hnodup
  rw [hmet]
  refine (nodup_edges hks).map_on fun e he e' he' hfst => Prod.ext hfst ?_
  obtain ⟨k, -, hk⟩ := mem_edges.mp he
  obtain ⟨k', -, hk'⟩ := mem_edges.mp he'
  obtain ⟨key, -, heq, hother⟩ := World.mem_edgesFrom.mp hk
  obtain ⟨key', -, heq', hother'⟩ := World.mem_edgesFrom.mp hk'
  rw [← heq] at hother
  rw [← heq', ← hfst, hother] at hother'
  exact Option.some_inj.mp hother'

end Met

/-- Three kernels in a row; the first has a port that is not connected, before the one that is. -/
def sparePort : World where
  kernel := fun k =>
    if k = 0 then { className := "gen", input := .empty, output := ⟨["err", "out"], by decide⟩ }
    else if k = 1 then { className := "work", input := .one "in", output := .one "out" }
    else { className := "print", input := .one "in", output := .empty }
  info := fun r =>
    if r = ⟨0, .output, "out"⟩ then { type := "int", otherKernel := some 1, otherName := "in" }
    else if r = ⟨1, .input, "in"⟩ then { type := "int", otherKernel := some 0, otherName := "out" }
    else if r = ⟨1, .output, "out"⟩ then { type := "int", otherKernel := some 2, otherName := "in" }
    else if r = ⟨2, .input, "in"⟩ then { type := "int", otherKernel := some 1, otherName := "out" }
    else { type := "int" }
  next := 3

theorem sparePort_closed : sparePort.Closed := by
  unfold World.Closed
  decide +kernel

/-- From the second kernel on, every port is connected. -/
theorem edges_visited_iff_row : EdgesVisited sparePort [1] := by
  refine (edges_visited_iff sparePort_closed (by decide) (by decide)).mpr fun k hk => ?_
  have horder : order sparePort.successors 4 (.start ([1].map some)) = some [some 1, some 2] := by
    decide +kernel
  obtain ⟨l₁, l₂, heq, -⟩ := (behind_iff horder).mp hk
  have hnone : (none : Option KernelId) ∈ [some 1, some 2] := heq ▸ by simp
  simp at hnone

/-- From the first one on, the port that is not connected comes first, and the connection of the second
kernel is not visited. -/
theorem edge_not_visited : ¬EdgesVisited sparePort [0] := by
  intro h
  obtain ⟨edges, -, hedges, hcalls⟩ := h.calls
  have hst : sparePort.SameGraph (Prod.fst (sparePort, ([] : List (PortRef × PortRef)))) := .refl _
  have hrun := hcalls _ Prod.fst record false (sparePort, []) 5 keeps_record hst (by decide) nofun
  rw [callAll_record] at hrun
  have hone : edges = [(⟨0, .output, "out"⟩, ⟨1, .input, "in"⟩)] := by
    have hfirst : (bfs Prod.fst record false 5 [0]).run (sparePort, []) =
      .ok true (sparePort, [(⟨0, .output, "out"⟩, ⟨1, .input, "in"⟩)]) := by rfl
    have heq := hrun.symm.trans hfirst
    simpa using congrArg (fun r => match r with | .ok _ st => st.2 | .error _ st => st.2) heq
  have hfeeds : sparePort.Feeds 0 1 := ⟨(⟨0, .output, "out"⟩, ⟨1, .input, "in"⟩), by decide +kernel, rfl⟩
  have hmem := (hedges (⟨1, .output, "out"⟩, ⟨2, .input, "in"⟩)).mpr
    ⟨1, ⟨0, List.mem_singleton_self 0, .single hfeeds⟩, by decide +kernel⟩
  rw [hone] at hmem
  revert hmem
  decide

end RaftLib.Graph
