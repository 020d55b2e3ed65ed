/-
# `RaftLib.Graph.Partition` -- the tables for the partitioner, and the way back to the kernels

`raft::graph` (`graph.tcc`) collects weighted edges between numbers and writes them out in compressed rows;
`partition_scotch.cpp` numbers the kernels by their position in the set, adds an edge for each connection,
and deals the parts that come back out to the kernels.

Two places take a number for a position. `getScotchTables` writes a neighbour as its distance from the
smallest number, which is its row exactly if no number between is missing (`tables_iff`). `run_scotch` gives
the part of the `i`-th row to the `i`-th kernel, which is that row's kernel exactly if no kernel without
connections stands before one that has some (`assignsOwn_iff`).
-/
import Mathlib.Algebra.BigOperators.Group.List.Lemmas
import Mathlib.Data.Finset.Sort
import Mathlib.Data.List.Induction
import Mathlib.Order.Interval.Finset.Basic
import Mathlib.Data.Int.Interval
import RaftLib.Graph.GraphTools

namespace RaftLib.Graph

open RaftLib.Logic.Program

/-! ## `raft::graph` -/

/-- A value of the type `std::int32_t`, after a conversion. -/
def int32 (x : Int) : Int := x.bmod (2 ^ 32)

/-- A call of `addEdge`; `edge_id_t` and `weight_t` are `std::int32_t`. -/
structure EdgeCall where
  src : Int32
  dst : Int32
  weight : Int32
  deriving DecidableEq

/-- `wt`. -/
structure Wt where
  dst : Int
  weight : Int
  deriving DecidableEq, Repr

/-- `raft::graph`. A number without a vector in `edgelist` has the empty list here. -/
structure EdgeGraph where
  edgelist : Int → List Wt := fun _ => []
  vertexHash : Finset Int := ∅

namespace EdgeGraph

/-- `__addEdge`. -/
def addEdgeTo (src dst weight : Int) (g : EdgeGraph) : EdgeGraph where
  -- the source is entered when its vector is made, the destination at every call
  edgelist := Function.update g.edgelist src (g.edgelist src ++ [⟨dst, weight⟩])
  vertexHash := if g.edgelist src = [] then insert dst (insert src g.vertexHash)
    else insert dst g.vertexHash

/-- `addEdge`: the edge and its back edge. -/
def addEdge (g : EdgeGraph) (c : EdgeCall) : EdgeGraph :=
  (g.addEdgeTo c.src.toInt c.dst.toInt c.weight.toInt).addEdgeTo
    c.dst.toInt c.src.toInt c.weight.toInt

end EdgeGraph

/-- The graph after some calls. -/
def graphOf (calls : List EdgeCall) : EdgeGraph := calls.foldl EdgeGraph.addEdge {}

/-- `ScotchTables`. -/
structure ScotchTables where
  vtable : List Int
  etable : List Int
  eweight : List Int
  numVertices : Nat
  numEdges : Nat
  deriving DecidableEq

/-- `vertex_list`, from `edge_index` on, and the entry one past the end. -/
def vertexList (edgeIndex : Int) : List Nat → List Int
  | [] => [edgeIndex]
  | n :: sizes => edgeIndex :: vertexList (int32 (edgeIndex + n)) sizes

/-- The arrays that `getScotchTables` fills, for the vertices in the order of the set. -/
def EdgeGraph.tables (g : EdgeGraph) (first : Int) (vertices : List Int) : ScotchTables :=
  let edges := (vertices.map g.edgelist).flatten
  { vtable := vertexList 0 (vertices.map fun v => (g.edgelist v).length)
    -- a distance, where a row is meant
    etable := edges.map fun edge => int32 (edge.dst - first)
    eweight := edges.map Wt.weight
    numVertices := vertices.length
    numEdges := edges.length }

/-- `getScotchTables`. Without a vertex it reads the first one of an empty set, and for a vertex without a
vector a null pointer. -/
def EdgeGraph.getScotchTables (g : EdgeGraph) : Option ScotchTables :=
  match g.vertexHash.sort with
  | [] => none
  | first :: rest =>
      if ∀ v ∈ first :: rest, g.edgelist v ≠ [] then some (g.tables first (first :: rest)) else none

/-! ## `partition_scotch` -/

/-- `numbering[ k ]`: the position of the kernel in the set; for any other kernel `operator []` puts in a
zero. -/
def numbering (ks : List KernelId) (k : KernelId) : Nat := if k ∈ ks then ks.idxOf k else 0

/-- The call that `get_graph_info` makes for a connection. -/
def edgeCall (ks : List KernelId) (weightFunc : PortRef → PortRef → Int32) (a b : PortRef) : EdgeCall where
  src := Int32.ofNat (numbering ks a.kernel)
  dst := Int32.ofNat (numbering ks b.kernel)
  weight := weightFunc a b

def graphFunction (ks : List KernelId) (weightFunc : PortRef → PortRef → Int32) (a b : PortRef) :
    EStateM Err (World × EdgeGraph) PUnit :=
  modify fun st => (st.1, st.2.addEdge (edgeCall ks weightFunc a b))

/-- `get_graph_info`, on the kernels in the order of the set. The numbers are counted in an `int`. -/
def getGraphInfo (w : World) (ks : List KernelId) (weightFunc : PortRef → PortRef → Int32) :
    Option EdgeGraph :=
  if ks.length < 2 ^ 31 then
    match (bfs Prod.fst (graphFunction ks weightFunc) false (w.next + 2) ks).run (w, {}) with
    | .ok true st => some st.2
    | _ => none
  else none

/-- The loop at the end of `run_scotch`; `it` goes through the set. -/
def setCores : List KernelId → List Int → (KernelId → Int) → Option (KernelId → Int)
  | _, [], core => some core
  | [], _ :: _, _ => none
  | k :: ks, part :: parts, core => setCores ks parts (Function.update core k part)

/-- `run_scotch`: `scotch` is the library, which fills in `partition`. -/
def runScotch (w : World) (ks : List KernelId) (weightFunc : PortRef → PortRef → Int32)
    (scotch : ScotchTables → List Int) (core : KernelId → Int) :
    Option (ScotchTables × (KernelId → Int)) := do
  let graph ← getGraphInfo w ks weightFunc
  let table ← graph.getScotchTables
  let core ← setCores ks (scotch table) core
  return (table, core)

/-! ## Valid tables, and parts that belong -/

/-- The numbers that occur in the calls, the smallest first. -/
def vertices (calls : List EdgeCall) : List Int :=
  (calls.flatMap fun c => [c.src.toInt, c.dst.toInt]).toFinset.sort

/-- The neighbours of a number in the undirected multigraph of the calls, with the weights. -/
def neighbours (calls : List EdgeCall) (v : Int) : List Wt :=
  calls.flatMap fun c =>
    (if c.src.toInt = v then [⟨c.dst.toInt, c.weight.toInt⟩] else []) ++
      if c.dst.toInt = v then [⟨c.src.toInt, c.weight.toInt⟩] else []

/-- The row of a number. -/
def rank (calls : List EdgeCall) (v : Int) : Nat := (vertices calls).idxOf v

/-- Row `i` of the tables, as the partitioner reads it: `vtable[ i ]` to `vtable[ i + 1 ]`. -/
def ScotchTables.row (t : ScotchTables) (i : Nat) : List (Int × Int) :=
  ((t.etable.zip t.eweight).take (t.vtable.getD (i + 1) 0).toNat).drop (t.vtable.getD i 0).toNat

/-- The tables are compressed rows of the undirected multigraph of the calls. -/
structure CompressedRows (calls : List EdgeCall) (t : ScotchTables) : Prop where
  numVertices : t.numVertices = (vertices calls).length
  numEdges : t.numEdges = 2 * calls.length
  lengths : t.vtable.length = t.numVertices + 1 ∧ t.etable.length = t.numEdges ∧
    t.eweight.length = t.numEdges
  last : t.vtable.getLast? = some (t.numEdges : Int)
  bounded : ∀ e ∈ t.etable, 0 ≤ e ∧ e < t.numVertices
  rows : ∀ i (h : i < (vertices calls).length),
    (t.row i).Perm ((neighbours calls (vertices calls)[i]).map fun e =>
      ((rank calls e.dst : Int), e.weight))
  reverse : ∀ i < t.numVertices, ∀ e ∈ t.row i, ((i : Int), e.2) ∈ t.row e.1.toNat

/-- Between two numbers that occur none is missing. -/
def Contiguous (calls : List EdgeCall) : Prop :=
  ∀ u ∈ vertices calls, ∀ v ∈ vertices calls, ∀ x, u ≤ x → x ≤ v → x ∈ vertices calls

/-- The calls for the connections of a map. -/
def kernelCalls (w : World) (ks : List KernelId) (weightFunc : PortRef → PortRef → Int32) :
    List EdgeCall :=
  (w.edgesMet ks).map fun e => edgeCall ks weightFunc e.1 e.2

/-- If the library returns one part for each row, each kernel is given the part of the row that its number
has, whatever the parts and the cores before. -/
def AssignsOwn (w : World) (ks : List KernelId) (weightFunc : PortRef → PortRef → Int32) : Prop :=
  ∀ scotch, (∀ t : ScotchTables, (scotch t).length = t.numVertices) → ∀ core, ∃ t core',
    runScotch w ks weightFunc scotch core = some (t, core') ∧
      ∀ k ∈ ks, ∀ (r : Nat) part, (vertices (kernelCalls w ks weightFunc))[r]? = some (numbering ks k : Int) →
        (scotch t)[r]? = some part → core' k = part

/-- The kernel is an end of a connection. -/
def HasConnection (w : World) (ks : List KernelId) (k : KernelId) : Prop :=
  ∃ e ∈ w.edgesMet ks, e.1.kernel = k ∨ e.2.kernel = k

/-- There are connections, the kernels can be counted in an `int`, and no kernel without connections stands
before one that has some. -/
structure ConnectedFirst (w : World) (ks : List KernelId) : Prop where
  connections : w.edgesMet ks ≠ []
  few : ks.length < 2 ^ 31
  first : ∀ (i j : Nat) k k', i < j → ks[i]? = some k → ks[j]? = some k' → HasConnection w ks k' →
    HasConnection w ks k

/-! ## The graph that the calls build -/

section Build

variable {calls : List EdgeCall} {u v : Int} {c : EdgeCall}

theorem mem_vertices : v ∈ vertices calls ↔ ∃ c ∈ calls, v = c.src.toInt ∨ v = c.dst.toInt := by
  simp [vertices]

theorem pairwise_vertices (calls : List EdgeCall) : (vertices calls).Pairwise (· < ·) :=
  (Finset.sortedLT_sort _).pairwise

theorem nodup_vertices (calls : List EdgeCall) : (vertices calls).Nodup := Finset.sort_nodup _ _

theorem neighbours_cons (c : EdgeCall) (calls : List EdgeCall) (v : Int) :
    neighbours (c :: calls) v =
      ((if c.src.toInt = v then [⟨c.dst.toInt, c.weight.toInt⟩] else []) ++
        if c.dst.toInt = v then [⟨c.src.toInt, c.weight.toInt⟩] else []) ++ neighbours calls v :=
  List.flatMap_cons

theorem mem_neighbours {e : Wt} : e ∈ neighbours calls v ↔ ∃ c ∈ calls, c.weight.toInt = e.weight ∧
    (c.src.toInt = v ∧ c.dst.toInt = e.dst ∨ c.dst.toInt = v ∧ c.src.toInt = e.dst) := by
  obtain ⟨d, weight⟩ := e
  simp only [neighbours, List.mem_flatMap, List.mem_append]
  refine exists_congr fun c => and_congr_right fun _ => ?_
  by_cases hs : c.src.toInt = v <;> by_cases hd : c.dst.toInt = v <;>
    simp [hs, hd] <;> tauto

/-- A neighbour has the vertex as its neighbour, with the same weight. -/
theorem neighbours_symm {e : Wt} (h : e ∈ neighbours calls v) : ⟨v, e.weight⟩ ∈ neighbours calls e.dst := by
  obtain ⟨c, hc, hweight, hends⟩ := mem_neighbours.mp h
  exact mem_neighbours.mpr ⟨c, hc, hweight, hends.symm.imp And.symm And.symm⟩

theorem neighbour_mem {e : Wt} (h : e ∈ neighbours calls v) : e.dst ∈ vertices calls := by
  obtain ⟨c, hc, -, hends⟩ := mem_neighbours.mp h
  refine mem_vertices.mpr ⟨c, hc, ?_⟩
  rcases hends with ⟨-, hd⟩ | ⟨-, hs⟩
  · exact .inr hd.symm
  · exact .inl hs.symm

theorem neighbours_ne_nil (h : v ∈ vertices calls) : neighbours calls v ≠ [] := by
  obtain ⟨c, hc, hends⟩ := mem_vertices.mp h
  rcases hends with rfl | rfl
  · exact List.ne_nil_of_mem (mem_neighbours (e := ⟨c.dst.toInt, c.weight.toInt⟩).mpr
      ⟨c, hc, rfl, .inl ⟨rfl, rfl⟩⟩)
  · exact List.ne_nil_of_mem (mem_neighbours (e := ⟨c.src.toInt, c.weight.toInt⟩).mpr
      ⟨c, hc, rfl, .inr ⟨rfl, rfl⟩⟩)

theorem EdgeGraph.addEdgeTo_edgelist (g : EdgeGraph) (src dst weight v : Int) :
    (g.addEdgeTo src dst weight).edgelist v =
      g.edgelist v ++ if src = v then [⟨dst, weight⟩] else [] := by
  show Function.update g.edgelist src (g.edgelist src ++ [⟨dst, weight⟩]) v = _
  by_cases hv : v = src
  · subst hv
    simp
  · rw [Function.update_of_ne hv, if_neg (Ne.symm hv), List.append_nil]

/-- Every vertex with a vector is in the set. -/
def EdgeGraph.Covered (g : EdgeGraph) : Prop := ∀ v, g.edgelist v ≠ [] → v ∈ g.vertexHash

theorem EdgeGraph.Covered.addEdgeTo {g : EdgeGraph} (h : g.Covered) (src dst weight : Int) :
    (g.addEdgeTo src dst weight).Covered ∧
      (g.addEdgeTo src dst weight).vertexHash = insert dst (insert src g.vertexHash) := by
  have hset : (g.addEdgeTo src dst weight).vertexHash = insert dst (insert src g.vertexHash) := by
    by_cases hsrc : g.edgelist src = []
    · exact if_pos hsrc
    · rw [EdgeGraph.addEdgeTo, if_neg hsrc, Finset.insert_eq_of_mem (h src hsrc)]
  refine ⟨fun v hv => ?_, hset⟩
  rw [hset]
  by_cases hvs : v = src
  · simp [hvs]
  · rw [EdgeGraph.addEdgeTo_edgelist, if_neg (Ne.symm hvs), List.append_nil] at hv
    exact Finset.mem_insert_of_mem (Finset.mem_insert_of_mem (h v hv))

/-- **The calls build the multigraph.** -/
theorem graphOf_spec (calls : List EdgeCall) : (graphOf calls).Covered ∧
    (∀ v, (graphOf calls).edgelist v = neighbours calls v) ∧
    (graphOf calls).vertexHash = (calls.flatMap fun c => [c.src.toInt, c.dst.toInt]).toFinset := by
  induction calls using List.reverseRecOn with
  | nil => exact ⟨fun v hv => absurd rfl hv, fun v => rfl, rfl⟩
  | append_singleton calls c ih =>
      obtain ⟨hcovered, hedges, hset⟩ := ih
      have hgraph : graphOf (calls ++ [c]) = (graphOf calls).addEdge c := by
        simp [graphOf, List.foldl_append]
      rw [hgraph]
      obtain ⟨hcovered₁, hset₁⟩ := hcovered.addEdgeTo c.src.toInt c.dst.toInt c.weight.toInt
      obtain ⟨hcovered₂, hset₂⟩ := hcovered₁.addEdgeTo c.dst.toInt c.src.toInt c.weight.toInt
      refine ⟨hcovered₂, fun v => ?_, ?_⟩
      · have happend : neighbours (calls ++ [c]) v = neighbours calls v ++ neighbours [c] v := by
          simp [neighbours, List.flatMap_append]
        rw [happend, ← hedges, EdgeGraph.addEdge, EdgeGraph.addEdgeTo_edgelist,
          EdgeGraph.addEdgeTo_edgelist, List.append_assoc]
        simp [neighbours]
      · rw [EdgeGraph.addEdge, hset₂, hset₁, hset]
        ext x
        simp only [List.flatMap_append, List.flatMap_singleton, List.toFinset_append, Finset.mem_union,
          Finset.mem_insert, List.mem_toFinset, List.mem_cons, List.not_mem_nil, or_false]
        tauto

theorem sum_indicator (vs : List Int) (x : Int) :
    (vs.map fun v => if x = v then 1 else 0).sum = vs.count x := by
  induction vs with
  | nil => rfl
  | cons v vs ih =>
      rw [List.map_cons, List.sum_cons, ih, List.count_cons, Nat.add_comm]
      by_cases hv : x = v
      · simp [hv]
      · simp [hv, Ne.symm hv]

/-- Each call adds one entry to the row of each of its ends. -/
theorem length_neighbours (vs : List Int) (hvs : vs.Nodup) (calls : List EdgeCall)
    (hends : ∀ c ∈ calls, c.src.toInt ∈ vs ∧ c.dst.toInt ∈ vs) :
    (vs.map fun v => (neighbours calls v).length).sum = 2 * calls.length := by
  induction calls with
  | nil => simp [neighbours]
  | cons c calls ih =>
      have hone : ∀ x ∈ vs, (vs.map fun v => if x = v then 1 else 0).sum = 1 := by
        intro x hx
        rw [sum_indicator, List.count_eq_one_of_mem hvs hx]
      have hlen : ∀ v, (neighbours (c :: calls) v).length =
          ((if c.src.toInt = v then 1 else 0) + if c.dst.toInt = v then 1 else 0) +
            (neighbours calls v).length := by
        intro v
        rw [neighbours_cons, List.length_append, List.length_append]
        by_cases hs : c.src.toInt = v <;> by_cases hd : c.dst.toInt = v <;> simp [hs, hd]
      obtain ⟨hs, hd⟩ := hends c List.mem_cons_self
      have hrest := ih fun c hc => hends c (List.mem_cons_of_mem _ hc)
      simp only [hlen, List.sum_map_add, hone _ hs, hone _ hd, hrest, List.length_cons]
      omega

end Build

/-! ## The rows -/

section Rows

theorem int32_eq {x : Int} (h : 0 ≤ x) (h' : x < 2 ^ 31) : int32 x = x := by
  unfold int32
  apply Int.bmod_eq_of_le <;> omega

/-- The starts of the rows, added up as values of 32 bits. -/
theorem vertexList_getElem (sizes : List Nat) : ∀ (start : Int) (k : Nat), k ≤ sizes.length →
    (vertexList (int32 start) sizes)[k]? = some (int32 (start + (sizes.take k).sum)) := by
  induction sizes with
  | nil =>
      intro start k hk
      obtain rfl : k = 0 := by simpa using hk
      simp [vertexList]
  | cons n sizes ih =>
      intro start k hk
      cases k with
      | zero => simp [vertexList]
      | succ k =>
          have hstep : int32 (int32 start + n) = int32 (start + n) := Int.bmod_add_bmod
          rw [vertexList, List.getElem?_cons_succ, hstep, ih (start + n) k (by simpa using hk)]
          simp [Int.add_assoc]

theorem vertexList_length (sizes : List Nat) : ∀ start : Int,
    (vertexList start sizes).length = sizes.length + 1 := by
  induction sizes with
  | nil =>
      intro start
      rfl
  | cons n sizes ih =>
      intro start
      rw [vertexList, List.length_cons, ih, List.length_cons]

variable {calls : List EdgeCall}

/-- The tables that come out, for at least one call. -/
theorem getScotchTables_eq (calls : List EdgeCall) : (graphOf calls).getScotchTables =
    match vertices calls with
    | [] => none
    | first :: _ => some ((graphOf calls).tables first (vertices calls)) := by
  obtain ⟨-, hedges, hset⟩ := graphOf_spec calls
  have hsort : (graphOf calls).vertexHash.sort = vertices calls := by rw [hset]; rfl
  unfold EdgeGraph.getScotchTables
  rw [hsort]
  cases hv : vertices calls with
  | nil => rfl
  | cons first rest =>
      have hall : ∀ v ∈ first :: rest, (graphOf calls).edgelist v ≠ [] := by
        intro v hmem
        rw [hedges]
        exact neighbours_ne_nil (hv ▸ hmem)
      exact if_pos hall

/-- The sizes of the rows. -/
def sizes (calls : List EdgeCall) : List Nat := (vertices calls).map fun v => (neighbours calls v).length

theorem sum_sizes (calls : List EdgeCall) : (sizes calls).sum = 2 * calls.length :=
  length_neighbours (vertices calls) (nodup_vertices calls) calls fun c hc =>
    ⟨mem_vertices.mpr ⟨c, hc, .inl rfl⟩, mem_vertices.mpr ⟨c, hc, .inr rfl⟩⟩

theorem tables_eq (calls : List EdgeCall) (first : Int) :
    (graphOf calls).tables first (vertices calls) =
      { vtable := vertexList 0 (sizes calls)
        etable := ((vertices calls).map (neighbours calls)).flatten.map fun e => int32 (e.dst - first)
        eweight := ((vertices calls).map (neighbours calls)).flatten.map Wt.weight
        numVertices := (vertices calls).length
        numEdges := 2 * calls.length } := by
  have hedges : (graphOf calls).edgelist = neighbours calls := funext (graphOf_spec calls).2.1
  have hlen : ((vertices calls).map (neighbours calls)).flatten.length = 2 * calls.length := by
    rw [List.length_flatten, List.map_map]
    exact sum_sizes calls
  rw [EdgeGraph.tables, hedges, hlen]
  rfl

/-- Where the sums fit, a row is what was written for its vertex. -/
theorem row_tables (hlt : calls.length < 2 ^ 30) (first : Int) {i : Nat}
    (hi : i < (vertices calls).length) :
    ((graphOf calls).tables first (vertices calls)).row i =
      (neighbours calls (vertices calls)[i]).map fun e => (int32 (e.dst - first), e.weight) := by
  have hstart : ∀ k ≤ (vertices calls).length,
      ((vertexList 0 (sizes calls)).getD k 0).toNat = ((sizes calls).take k).sum := by
    intro k hk
    have hsum : ((sizes calls).take k).sum ≤ 2 * calls.length := by
      have hcut := congrArg List.sum (List.take_append_drop k (sizes calls))
      rw [List.sum_append, sum_sizes] at hcut
      omega
    have hget := vertexList_getElem (sizes calls) 0 k (by simpa [sizes] using hk)
    rw [show int32 0 = 0 from rfl, int32_eq (by omega) (by omega)] at hget
    rw [List.getD_eq_getElem?_getD, hget, Option.getD_some, Int.zero_add, Int.toNat_natCast]
  rw [tables_eq, ScotchTables.row]
  simp only
  rw [List.zip_map', hstart _ hi, hstart _ hi.le, ← List.map_take, ← List.map_drop]
  congr 1
  have hcut := List.drop_take_succ_flatten_eq_getElem ((vertices calls).map (neighbours calls)) i
    (by simpa using hi)
  rw [List.getElem_map] at hcut
  rw [← hcut, sizes, List.map_map]
  rfl

/-! ### Numbers without a gap -/

/-- In increasing order, numbers between which none is missing count up. -/
theorem getElem_of_contiguous : ∀ {l : List Int} {first : Int}, (first :: l).Pairwise (· < ·) →
    (∀ u ∈ first :: l, ∀ v ∈ first :: l, ∀ x, u ≤ x → x ≤ v → x ∈ first :: l) →
    ∀ i (h : i < (first :: l).length), (first :: l)[i] = first + i := by
  intro l
  induction l with
  | nil =>
      intro first _ _ i hi
      obtain rfl : i = 0 := by simpa using hi
      simp
  | cons second l ih =>
      intro first hpair hall i hi
      obtain ⟨hlt, hrest⟩ := List.pairwise_cons.mp hpair
      obtain ⟨hlt', -⟩ := List.pairwise_cons.mp hrest
      have hfirst : first < second := hlt second List.mem_cons_self
      have hnext : second = first + 1 := by
        have hmem := hall first List.mem_cons_self second (by simp) (first + 1) (by omega) (by omega)
        rcases List.mem_cons.mp hmem with heq | hmem
        · omega
        · rcases List.mem_cons.mp hmem with heq | hmem
          · exact heq.symm
          · have := hlt' _ hmem
            omega
      have hall' : ∀ u ∈ second :: l, ∀ v ∈ second :: l, ∀ x, u ≤ x → x ≤ v → x ∈ second :: l := by
        intro u hu v hv x hux hxv
        have hmem := hall u (List.mem_cons_of_mem _ hu) v (List.mem_cons_of_mem _ hv) x hux hxv
        refine (List.mem_cons.mp hmem).resolve_left fun heq => ?_
        have := hlt u hu
        omega
      cases i with
      | zero => simp
      | succ i =>
          rw [List.getElem_cons_succ, ih hrest hall' i (by simpa using hi), hnext]
          omega

variable {first v : Int} {rest : List Int}

theorem first_le (hv : vertices calls = first :: rest) (hmem : v ∈ vertices calls) : first ≤ v := by
  have hpair := pairwise_vertices calls
  rw [hv] at hpair hmem
  rcases List.mem_cons.mp hmem with rfl | hmem
  · exact le_rfl
  · exact ((List.pairwise_cons.mp hpair).1 v hmem).le

theorem length_vertices_le (calls : List EdgeCall) : (vertices calls).length ≤ 2 * calls.length := by
  have hone : ∀ n ∈ sizes calls, 1 ≤ n := by
    intro n hn
    obtain ⟨v, hv, rfl⟩ := List.mem_map.mp hn
    exact List.length_pos_of_ne_nil (neighbours_ne_nil hv)
  have := List.length_le_sum_of_one_le (sizes calls) hone
  rwa [sum_sizes, sizes, List.length_map] at this

theorem rank_lt (hmem : v ∈ vertices calls) : rank calls v < (vertices calls).length :=
  List.idxOf_lt_length_of_mem hmem

theorem rank_getElem {i : Nat} (hi : i < (vertices calls).length) :
    rank calls (vertices calls)[i] = i := (nodup_vertices calls).idxOf_getElem i hi

/-- Without a gap, the distance from the smallest number is the row. -/
theorem distance_eq_rank (hv : vertices calls = first :: rest) (hcont : Contiguous calls)
    (hmem : v ∈ vertices calls) : v - first = rank calls v := by
  have hrank := rank_lt hmem
  have hget : (vertices calls)[rank calls v] = v := List.getElem_idxOf hrank
  have hpair := pairwise_vertices calls
  unfold Contiguous at hcont
  rw [hv] at hpair hcont
  have hcount := getElem_of_contiguous hpair hcont (rank calls v) (by rw [← hv]; exact hrank)
  simp only [← hv] at hcount
  rw [hget] at hcount
  omega

theorem entry_eq_rank (hv : vertices calls = first :: rest) (hcont : Contiguous calls)
    (hlt : calls.length < 2 ^ 30) (hmem : v ∈ vertices calls) :
    int32 (v - first) = rank calls v := by
  have hdist := distance_eq_rank hv hcont hmem
  have hrank := rank_lt hmem
  have hlen := length_vertices_le calls
  rw [int32_eq (by omega) (by omega), hdist]

/-- The last entry of `vtable`. -/
theorem getLast_vtable (calls : List EdgeCall) :
    (vertexList 0 (sizes calls)).getLast? = some (int32 (2 * calls.length)) := by
  have hget := vertexList_getElem (sizes calls) 0 (sizes calls).length le_rfl
  rw [List.take_length, sum_sizes, show int32 0 = 0 from rfl] at hget
  rw [List.getLast?_eq_getElem?, vertexList_length, Nat.add_sub_cancel, hget]
  simp

theorem compressedRows_of (hv : vertices calls = first :: rest) (hcont : Contiguous calls)
    (hlt : calls.length < 2 ^ 30) :
    CompressedRows calls ((graphOf calls).tables first (vertices calls)) := by
  have hrow : ∀ i (hi : i < (vertices calls).length),
      ((graphOf calls).tables first (vertices calls)).row i =
        (neighbours calls (vertices calls)[i]).map fun e => ((rank calls e.dst : Int), e.weight) := by
    intro i hi
    rw [row_tables hlt first hi]
    refine List.map_congr_left fun e he => ?_
    rw [entry_eq_rank hv hcont hlt (neighbour_mem he)]
  have hlen : ((vertices calls).map (neighbours calls)).flatten.length = 2 * calls.length := by
    rw [List.length_flatten, List.map_map]
    exact sum_sizes calls
  have htables := tables_eq calls first
  refine ⟨rfl, ?_, ⟨?_, ?_, ?_⟩, ?_, ?_, fun i hi => ?_, ?_⟩
  · rw [htables]
  · rw [htables]
    simp [vertexList_length, sizes]
  · rw [htables, List.length_map]
    exact hlen
  · rw [htables, List.length_map]
    exact hlen
  · rw [htables]
    exact (getLast_vtable calls).trans (congrArg some (int32_eq (by omega) (by omega)))
  · intro entry hentry
    rw [htables] at hentry
    obtain ⟨e, he, rfl⟩ := List.mem_map.mp hentry
    obtain ⟨row, hrow, he⟩ := List.mem_flatten.mp he
    obtain ⟨v, -, rfl⟩ := List.mem_map.mp hrow
    rw [entry_eq_rank hv hcont hlt (neighbour_mem he)]
    have : rank calls e.dst < (vertices calls).length := rank_lt (neighbour_mem he)
    exact ⟨Int.natCast_nonneg _, Int.ofNat_lt.mpr this⟩
  · rw [hrow i hi]
  · intro i hi entry hentry
    rw [hrow i hi] at hentry
    obtain ⟨e, he, rfl⟩ := List.mem_map.mp hentry
    have hrank : rank calls e.dst < (vertices calls).length := rank_lt (neighbour_mem he)
    have hget : (vertices calls)[rank calls e.dst] = e.dst := List.getElem_idxOf hrank
    show ((i : Int), e.weight) ∈ _
    rw [Int.toNat_natCast, hrow _ hrank, hget]
    refine List.mem_map.mpr ⟨_, neighbours_symm he, ?_⟩
    rw [rank_getElem hi]

/-- The numbers come from variables of type `int`. -/
theorem bounded_of_mem (hmem : v ∈ vertices calls) : -2 ^ 31 ≤ v ∧ v < 2 ^ 31 := by
  obtain ⟨c, -, rfl | rfl⟩ := mem_vertices.mp hmem
  · exact ⟨Int32.le_toInt _, Int32.toInt_lt _⟩
  · exact ⟨Int32.le_toInt _, Int32.toInt_lt _⟩

/-- An entry is within the rows only if its number is that close to the smallest one. -/
theorem distance_lt (hv : vertices calls = first :: rest)
    (hrows : CompressedRows calls ((graphOf calls).tables first (vertices calls)))
    (hmem : v ∈ vertices calls) : v - first < (vertices calls).length := by
  obtain ⟨e, he⟩ := List.exists_mem_of_ne_nil _ (neighbours_ne_nil hmem)
  have hback : (⟨v, e.weight⟩ : Wt) ∈ ((vertices calls).map (neighbours calls)).flatten :=
    List.mem_flatten.mpr ⟨_, List.mem_map_of_mem (neighbour_mem he), neighbours_symm he⟩
  have hentry := hrows.bounded (int32 (v - first))
  rw [tables_eq] at hentry
  obtain ⟨hnonneg, hlt⟩ := hentry (List.mem_map.mpr ⟨_, hback, rfl⟩)
  have hle := first_le hv hmem
  have hvbound := bounded_of_mem hmem
  have hfirst := bounded_of_mem (show first ∈ vertices calls by rw [hv]; simp)
  simp only at hlt
  unfold int32 at hnonneg hlt
  rw [Int.bmod_def] at hnonneg hlt
  split at hlt <;> omega

theorem contiguous_of_compressedRows (hv : vertices calls = first :: rest)
    (hrows : CompressedRows calls ((graphOf calls).tables first (vertices calls))) :
    Contiguous calls := by
  have hsub : (vertices calls).toFinset ⊆ Finset.Ico first (first + (vertices calls).length) := by
    intro v hmem
    rw [List.mem_toFinset] at hmem
    have := distance_lt hv hrows hmem
    exact Finset.mem_Ico.mpr ⟨first_le hv hmem, by omega⟩
  -- that many numbers in an interval of that length leave none out
  have hcard : (vertices calls).toFinset.card = (vertices calls).length :=
    List.toFinset_card_of_nodup (nodup_vertices calls)
  have hall := Finset.eq_of_subset_of_card_le hsub (by simp [hcard])
  intro u hu v hmem x hux hxv
  rw [← List.mem_toFinset, hall, Finset.mem_Ico] at hu hmem ⊢
  omega

/-- **The tables are right exactly if no number is missing between two that occur** (and their entries
fit 32 bits). -/
theorem tables_iff (hne : calls ≠ []) :
    (∃ t, (graphOf calls).getScotchTables = some t ∧ CompressedRows calls t) ↔
      Contiguous calls ∧ calls.length < 2 ^ 30 := by
  rw [getScotchTables_eq]
  cases hv : vertices calls with
  | nil =>
      obtain ⟨c, rest, rfl⟩ := List.exists_cons_of_ne_nil hne
      have hmem : c.src.toInt ∈ vertices (c :: rest) := mem_vertices.mpr ⟨c, by simp, .inl rfl⟩
      rw [hv] at hmem
      cases hmem
  | cons first rest =>
      simp only [Option.some_inj, exists_eq_left', ← hv]
      constructor
      · intro hrows
        refine ⟨contiguous_of_compressedRows hv hrows, ?_⟩
        have hlast := hrows.last
        rw [hrows.numEdges, tables_eq] at hlast
        simp only [getLast_vtable, Option.some_inj] at hlast
        unfold int32 at hlast
        rw [Int.bmod_def] at hlast
        split at hlast <;> omega
      · rintro ⟨hcont, hlt⟩
        exact compressedRows_of hv hcont hlt

end Rows

/-! ## From rows to kernels -/

/-- **The loop at the end of `run_scotch`**: the parts go to the first kernels of the set, in order. -/
theorem setCores_run : ∀ {ks : List KernelId} (parts : List Int) (core : KernelId → Int),
    parts.length ≤ ks.length → ks.Nodup → ∃ core', setCores ks parts core = some core' ∧
      (∀ (i : Nat) k part, ks[i]? = some k → parts[i]? = some part → core' k = part) ∧
      ∀ k, k ∉ ks.take parts.length → core' k = core k := by
  intro ks
  induction ks with
  | nil =>
      intro parts core hlen _
      obtain rfl : parts = [] := List.eq_nil_of_length_eq_zero (Nat.le_zero.mp hlen)
      exact ⟨core, rfl, fun i k part hk => by simp at hk, fun k _ => rfl⟩
  | cons k₀ ks ih =>
      intro parts core hlen hnodup
      obtain ⟨hk₀, hnodup⟩ := List.nodup_cons.mp hnodup
      cases parts with
      | nil => exact ⟨core, rfl, fun i k part _ hpart => by simp at hpart, fun k _ => rfl⟩
      | cons part₀ parts =>
          obtain ⟨core', hrun, hset, hrest⟩ :=
            ih parts (Function.update core k₀ part₀) (by simpa using hlen) hnodup
          refine ⟨core', hrun, ?_, ?_⟩
          · intro i k part hk hpart
            cases i with
            | zero =>
                obtain rfl : k₀ = k := by simpa using hk
                obtain rfl : part₀ = part := by simpa using hpart
                rw [hrest k₀ fun hmem => hk₀ (List.mem_of_mem_take hmem), Function.update_self]
            | succ i => exact hset i k part (by simpa using hk) (by simpa using hpart)
          · intro k hk
            rw [List.length_cons, List.take_succ_cons, List.mem_cons, not_or] at hk
            rw [hrest k hk.2, Function.update_of_ne hk.1]

section Kernels

variable {w : World} {ks : List KernelId} {weightFunc : PortRef → PortRef → Int32}

theorem keeps_graphFunction : Keeps Prod.fst (graphFunction ks weightFunc) := by
  intro r r' st u st' h
  cases h
  exact .refl _

theorem callAll_graphFunction (edges : List (PortRef × PortRef)) (st : World × EdgeGraph) :
    (callAll (graphFunction ks weightFunc) edges >>= fun _ => pure true).run st =
      .ok true (st.1, (edges.map fun e => edgeCall ks weightFunc e.1 e.2).foldl EdgeGraph.addEdge st.2) := by
  induction edges generalizing st with
  | nil => rfl
  | cons e edges ih =>
      rw [callAll_cons, bind_assoc, run_bind_of_ok (x := graphFunction ks weightFunc e.1 e.2) rfl, ih]
      rfl

variable (hclosed : w.Closed) (hall : ∀ k, k ∈ ks ↔ k < w.next) (hnodup : ks.Nodup)
include hclosed hall hnodup

/-- `get_graph_info` adds an edge for each connection. -/
theorem getGraphInfo_eq (hfew : ks.length < 2 ^ 31) :
    getGraphInfo w ks weightFunc = some (graphOf (kernelCalls w ks weightFunc)) := by
  have hrun : (bfs Prod.fst (graphFunction ks weightFunc) false (w.next + 2) ks).run (w, {}) = _ :=
    bfs_edgesMet hclosed (fun k hk => (hall k).mp hk) hnodup keeps_graphFunction (.refl w) le_rfl
  rw [getGraphInfo, if_pos hfew, hrun, callAll_graphFunction]
  rfl

/-- The ends of a connection are kernels of the set. -/
theorem ends_mem {e : PortRef × PortRef} (he : e ∈ w.edgesMet ks) :
    e.1.kernel ∈ ks ∧ e.2.kernel ∈ ks := by
  obtain ⟨ks, -, hreached, -, hmet, -⟩ := exists_edgesMet hclosed (fun k hk => (hall k).mp hk) hnodup
  rw [hmet] at he
  obtain ⟨k, hk, hek⟩ := mem_edges.mp he
  have hlt : k < w.next := (hreached k hk).lt hclosed fun k hk => (hall k).mp hk
  obtain ⟨key, -, hfst, -⟩ := World.mem_edgesFrom.mp hek
  refine ⟨(hall _).mpr ?_, (hall _).mpr (hclosed k hlt e hek).1⟩
  rw [hfst]
  exact hlt

/-- The numbers in the calls are the positions of the kernels that have a connection. -/
theorem mem_vertices_kernelCalls (hfew : ks.length < 2 ^ 31) {x : Int} :
    x ∈ vertices (kernelCalls w ks weightFunc) ↔ ∃ k, HasConnection w ks k ∧ x = ks.idxOf k := by
  have hnumber : ∀ k ∈ ks, (Int32.ofNat (numbering ks k)).toInt = ks.idxOf k := by
    intro k hk
    have hlt : ks.idxOf k < ks.length := List.idxOf_lt_length_of_mem hk
    have hsize : Int32.size = 2 ^ 32 := rfl
    rw [numbering, if_pos hk, Int32.toInt_ofNat', hsize]
    exact Int.bmod_eq_of_le (by omega) (by omega)
  rw [mem_vertices]
  constructor
  · rintro ⟨call, hcall, hx⟩
    obtain ⟨e, he, rfl⟩ := List.mem_map.mp hcall
    obtain ⟨hsrc, hdst⟩ := ends_mem hclosed hall hnodup he
    rcases hx with rfl | rfl
    · exact ⟨_, ⟨e, he, .inl rfl⟩, hnumber _ hsrc⟩
    · exact ⟨_, ⟨e, he, .inr rfl⟩, hnumber _ hdst⟩
  · rintro ⟨k, ⟨e, he, hk⟩, rfl⟩
    obtain ⟨hsrc, hdst⟩ := ends_mem hclosed hall hnodup he
    refine ⟨_, List.mem_map_of_mem he, ?_⟩
    rcases hk with rfl | rfl
    · exact .inl (hnumber _ hsrc).symm
    · exact .inr (hnumber _ hdst).symm

/-- There are no more rows than kernels. -/
theorem length_vertices_le_kernels (hfew : ks.length < 2 ^ 31) :
    (vertices (kernelCalls w ks weightFunc)).length ≤ ks.length := by
  have hsub : (vertices (kernelCalls w ks weightFunc)).toFinset ⊆
      (Finset.range ks.length).image fun i : Nat => (i : Int) := by
    intro x hx
    obtain ⟨k, ⟨e, he, hk⟩, rfl⟩ :=
      (mem_vertices_kernelCalls hclosed hall hnodup hfew).mp (List.mem_toFinset.mp hx)
    obtain ⟨hsrc, hdst⟩ := ends_mem hclosed hall hnodup he
    have hmem : k ∈ ks := by
      rcases hk with rfl | rfl
      · exact hsrc
      · exact hdst
    exact Finset.mem_image_of_mem _ (Finset.mem_range.mpr (List.idxOf_lt_length_of_mem hmem))
  have hcard := (Finset.card_le_card hsub).trans Finset.card_image_le
  rwa [List.toFinset_card_of_nodup (nodup_vertices _), Finset.card_range] at hcard

/-- A kernel with a connection is in the set, and its position in the set is its number. -/
theorem HasConnection.mem {k : KernelId} (h : HasConnection w ks k) : k ∈ ks := by
  obtain ⟨e, he, hk⟩ := h
  obtain ⟨hsrc, hdst⟩ := ends_mem hclosed hall hnodup he
  rcases hk with rfl | rfl
  · exact hsrc
  · exact hdst

/-- Where the kernels with connections come first, the rows are the first positions. -/
theorem getElem_vertices (h : ConnectedFirst w ks) (r : Nat)
    (hr : r < (vertices (kernelCalls w ks weightFunc)).length) :
    (vertices (kernelCalls w ks weightFunc))[r] = r := by
  have hmem : ∀ {x}, x ∈ vertices (kernelCalls w ks weightFunc) ↔
      ∃ k, HasConnection w ks k ∧ x = ks.idxOf k := mem_vertices_kernelCalls hclosed hall hnodup h.few
  have hdown : ∀ x ∈ vertices (kernelCalls w ks weightFunc), ∀ y, 0 ≤ y → y ≤ x →
      y ∈ vertices (kernelCalls w ks weightFunc) := by
    intro x hx y hy hyx
    obtain ⟨k, hk, rfl⟩ := hmem.mp hx
    have hkc : k ∈ ks := hk.mem hclosed hall hnodup
    obtain ⟨i, rfl⟩ := Int.eq_ofNat_of_zero_le hy
    rcases Nat.lt_or_ge i (ks.idxOf k) with hlt | hge
    · have hi : i < ks.length := hlt.trans (List.idxOf_lt_length_of_mem hkc)
      refine hmem.mpr ⟨ks[i], h.first i (ks.idxOf k) _ k hlt (List.getElem?_eq_getElem hi) ?_ hk, ?_⟩
      · rw [List.getElem?_eq_getElem (List.idxOf_lt_length_of_mem hkc), List.getElem_idxOf]
      · rw [hnodup.idxOf_getElem i hi]
    · exact hmem.mpr ⟨k, hk, by omega⟩
  obtain ⟨first, rest, hv⟩ := List.exists_cons_of_length_pos (Nat.zero_lt_of_lt hr)
  have hfirst : first ∈ vertices (kernelCalls w ks weightFunc) := by
    rw [hv]
    exact List.mem_cons_self
  obtain ⟨k, -, hk⟩ := hmem.mp hfirst
  have hzero := first_le hv (hdown first hfirst 0 le_rfl (by omega))
  have hpair := pairwise_vertices (kernelCalls w ks weightFunc)
  have hcont : Contiguous (kernelCalls w ks weightFunc) := by
    intro u hu v hmemv x hux hxv
    have := first_le hv hu
    exact hdown v hmemv x (by omega) hxv
  unfold Contiguous at hcont
  rw [hv] at hpair hcont
  have hcount := getElem_of_contiguous hpair hcont r (by rw [← hv]; exact hr)
  simp only [← hv] at hcount
  omega

/-- What `run_scotch` does when there is a connection. -/
theorem runScotch_eq (hfew : ks.length < 2 ^ 31) (hv : vertices (kernelCalls w ks weightFunc) ≠ []) :
    ∃ t : ScotchTables, t.numVertices = (vertices (kernelCalls w ks weightFunc)).length ∧
      ∀ scotch core, runScotch w ks weightFunc scotch core =
        (setCores ks (scotch t) core).map fun core' => (t, core') := by
  obtain ⟨first, rest, hv⟩ := List.exists_cons_of_ne_nil hv
  have htables := getScotchTables_eq (kernelCalls w ks weightFunc)
  simp only [hv] at htables
  refine ⟨(graphOf (kernelCalls w ks weightFunc)).tables first (first :: rest), by rw [hv]; rfl, ?_⟩
  intro scotch core
  rw [runScotch, getGraphInfo_eq hclosed hall hnodup hfew]
  simp only [Option.bind_eq_bind, Option.bind_some, htables]
  cases setCores ks _ core <;> rfl

/-- Without one it reads the first vertex of an empty set. -/
theorem runScotch_none (hfew : ks.length < 2 ^ 31) (hv : vertices (kernelCalls w ks weightFunc) = [])
    (scotch : ScotchTables → List Int) (core : KernelId → Int) :
    runScotch w ks weightFunc scotch core = none := by
  have htables := getScotchTables_eq (kernelCalls w ks weightFunc)
  simp only [hv] at htables
  rw [runScotch, getGraphInfo_eq hclosed hall hnodup hfew]
  simp only [Option.bind_eq_bind, Option.bind_some, htables, Option.bind_none]

/-- If every kernel gets the part of its own row, the rows are the first positions. -/
theorem rows_of_assignsOwn (hfew : ks.length < 2 ^ 31) (h : AssignsOwn w ks weightFunc) (r : Nat)
    (hr : r < (vertices (kernelCalls w ks weightFunc)).length) :
    (vertices (kernelCalls w ks weightFunc))[r] = r := by
  have hne : vertices (kernelCalls w ks weightFunc) ≠ [] :=
    List.ne_nil_of_length_pos (Nat.zero_lt_of_lt hr)
  obtain ⟨t, hnum, hruns⟩ := runScotch_eq hclosed hall hnodup hfew hne
  -- parts that name their row, and a core that is no part
  let scotch : ScotchTables → List Int := fun t => (List.range t.numVertices).map fun i : Nat => (i : Int)
  have hlen : (scotch t).length = (vertices (kernelCalls w ks weightFunc)).length := by
    simp [scotch, hnum]
  have hparts : ∀ i < (vertices (kernelCalls w ks weightFunc)).length,
      (scotch t)[i]? = some (i : Int) := by
    intro i hi
    simp [scotch, hnum, hi]
  obtain ⟨t', core', hrun, hown⟩ := h scotch (fun t => by simp [scotch]) fun _ => -1
  obtain ⟨core₂, hcores, hset, hkeep⟩ := setCores_run (scotch t) (fun _ => -1)
    (by rw [hlen]; exact length_vertices_le_kernels hclosed hall hnodup hfew) hnodup
  rw [hruns, hcores] at hrun
  obtain ⟨rfl, rfl⟩ := Prod.mk.inj (Option.some_inj.mp hrun)
  obtain ⟨k, hk, hx⟩ := (mem_vertices_kernelCalls hclosed hall hnodup hfew).mp (List.getElem_mem hr)
  have hkc : k ∈ ks := hk.mem hclosed hall hnodup
  have hpos : ks.idxOf k < ks.length := List.idxOf_lt_length_of_mem hkc
  have hgiven : core₂ k = r := by
    refine hown k hkc r r ?_ (hparts r hr)
    rw [List.getElem?_eq_getElem hr, hx, numbering, if_pos hkc]
  by_cases hi : ks.idxOf k < (vertices (kernelCalls w ks weightFunc)).length
  · have hposition : ks[ks.idxOf k]? = some k := by
      rw [List.getElem?_eq_getElem hpos, List.getElem_idxOf]
    rw [hset _ k _ hposition (hparts _ hi)] at hgiven
    rw [hx, hgiven]
  · have hnot : k ∉ ks.take (scotch t).length := by
      rw [hlen]
      intro hmem
      obtain ⟨j, hj, heq⟩ := List.mem_take_iff_getElem.mp hmem
      have hidx := hnodup.idxOf_getElem j (by omega)
      rw [heq] at hidx
      omega
    rw [hkeep k hnot] at hgiven
    omega

/-- Where parts are assigned at all there are rows, and each is that of the kernel in its place. -/
theorem connectedFirst_of_assignsOwn (hassigns : AssignsOwn w ks weightFunc) : ConnectedFirst w ks := by
  obtain ⟨t, core', hrun, -⟩ := hassigns (fun t => List.replicate t.numVertices 0)
    (fun t => List.length_replicate) fun _ => 0
  have hfew : ks.length < 2 ^ 31 := by
    by_contra hmany
    rw [runScotch, getGraphInfo, if_neg hmany] at hrun
    cases hrun
  have hrows := rows_of_assignsOwn hclosed hall hnodup hfew hassigns
  have hmem : ∀ {x}, x ∈ vertices (kernelCalls w ks weightFunc) ↔
      ∃ k, HasConnection w ks k ∧ x = ks.idxOf k := mem_vertices_kernelCalls hclosed hall hnodup hfew
  refine ⟨?_, hfew, ?_⟩
  · intro hnone
    have hv : vertices (kernelCalls w ks weightFunc) = [] := by
      rw [kernelCalls, hnone]
      simp [vertices]
    rw [runScotch_none hclosed hall hnodup hfew hv] at hrun
    cases hrun
  · intro i j k k' hij hk hk' hconnected
    obtain ⟨hi, rfl⟩ := List.getElem?_eq_some_iff.mp hk
    obtain ⟨hj, rfl⟩ := List.getElem?_eq_some_iff.mp hk'
    have hjmem := hmem.mpr ⟨_, hconnected, rfl⟩
    rw [hnodup.idxOf_getElem j hj] at hjmem
    obtain ⟨r, hr, hget⟩ := List.getElem_of_mem hjmem
    rw [hrows r hr] at hget
    have himem := List.getElem_mem (l := vertices (kernelCalls w ks weightFunc)) (n := i) (by omega)
    rw [hrows i (by omega)] at himem
    obtain ⟨k₂, hk₂, hidx⟩ := hmem.mp himem
    have hk₂ks : k₂ ∈ ks := hk₂.mem hclosed hall hnodup
    obtain rfl : ks[i] = k₂ := by
      have hpos : i = ks.idxOf k₂ := by omega
      simp only [hpos]
      exact List.getElem_idxOf _
    exact hk₂

/-- With the connected kernels in front, the rows are the kernels' positions. -/
theorem assignsOwn_of_connectedFirst (h : ConnectedFirst w ks) : AssignsOwn w ks weightFunc := by
  intro scotch hscotch core
  obtain ⟨e, he⟩ := List.exists_mem_of_ne_nil _ h.connections
  have hmem : (ks.idxOf e.1.kernel : Int) ∈ vertices (kernelCalls w ks weightFunc) :=
    (mem_vertices_kernelCalls hclosed hall hnodup h.few).mpr ⟨_, ⟨e, he, .inl rfl⟩, rfl⟩
  obtain ⟨t, hnum, hruns⟩ := runScotch_eq hclosed hall hnodup h.few (List.ne_nil_of_mem hmem)
  have hlen : (vertices (kernelCalls w ks weightFunc)).length ≤ ks.length :=
    length_vertices_le_kernels hclosed hall hnodup h.few
  obtain ⟨core', hcores, hset, -⟩ := setCores_run (scotch t) core
    (by rw [hscotch t, hnum]; exact hlen) hnodup
  refine ⟨t, core', ?_, ?_⟩
  · rw [hruns, hcores]
    rfl
  · intro k hk r part hrow hpart
    obtain ⟨hr, hget⟩ := List.getElem?_eq_some_iff.mp hrow
    rw [getElem_vertices hclosed hall hnodup h, numbering, if_pos hk] at hget
    obtain rfl : r = ks.idxOf k := by omega
    refine hset (ks.idxOf k) k part ?_ hpart
    rw [List.getElem?_eq_getElem (List.idxOf_lt_length_of_mem hk), List.getElem_idxOf]

/-- **Each kernel gets the part of its own row exactly if the kernels with connections come first.** -/
theorem assignsOwn_iff : AssignsOwn w ks weightFunc ↔ ConnectedFirst w ks :=
  ⟨connectedFirst_of_assignsOwn hclosed hall hnodup, assignsOwn_of_connectedFirst hclosed hall hnodup⟩

end Kernels

/-- **The partitioner's tables and its parts.** The tables are a valid graph exactly if the numbers have no
gap, and each kernel gets its own part exactly if the kernels with connections come first. -/
theorem partition_iff {calls : List EdgeCall} (hne : calls ≠ []) {w : World} {ks : List KernelId}
    {weightFunc : PortRef → PortRef → Int32} (hclosed : w.Closed) (hall : ∀ k, k ∈ ks ↔ k < w.next)
    (hnodup : ks.Nodup) :
    ((∃ t, (graphOf calls).getScotchTables = some t ∧ CompressedRows calls t) ↔
        Contiguous calls ∧ calls.length < 2 ^ 30) ∧
      (AssignsOwn w ks weightFunc ↔ ConnectedFirst w ks) :=
  ⟨tables_iff hne, assignsOwn_iff hclosed hall hnodup⟩

/-- A kernel without ports, and two that are connected. -/
def idleKernel : World where
  kernel := fun k =>
    if k = 0 then { className := "idle", input := .empty, output := .empty }
    else if k = 1 then { className := "gen", input := .empty, output := .one "out" }
    else { className := "print", input := .one "in", output := .empty }
  info := fun r =>
    if r = ⟨1, .output, "out"⟩ then { type := "int", otherKernel := some 2, otherName := "in" }
    else if r = ⟨2, .input, "in"⟩ then { type := "int", otherKernel := some 1, otherName := "out" }
    else { type := "int" }
  next := 3

theorem idleKernel_closed : idleKernel.Closed := by
  unfold World.Closed
  decide +kernel

theorem edgesMet_idleLast :
    idleKernel.edgesMet [1, 2, 0] = [(⟨1, .output, "out"⟩, ⟨2, .input, "in"⟩)] := by rfl

theorem edgesMet_idleFirst :
    idleKernel.edgesMet [0, 1, 2] = [(⟨1, .output, "out"⟩, ⟨2, .input, "in"⟩)] := by rfl

theorem mem_idleKernel {ks : List KernelId} (h : ks = [1, 2, 0] ∨ ks = [0, 1, 2]) (k : KernelId) :
    k ∈ ks ↔ k < idleKernel.next := by
  have hlast : ∀ n : Nat, (n = 1 ∨ n = 2 ∨ n = 0) ↔ n < 3 := by omega
  have hfirst : ∀ n : Nat, (n = 0 ∨ n = 1 ∨ n = 2) ↔ n < 3 := by omega
  rcases h with rfl | rfl
  · simpa [idleKernel] using hlast k
  · simpa [idleKernel] using hfirst k

/-- Numbers next to each other, and the idle kernel at the end of the set. -/
theorem partition_iff_row :
    (∃ t, (graphOf [⟨4, 5, 1⟩, ⟨5, 6, 1⟩]).getScotchTables = some t ∧
        CompressedRows [⟨4, 5, 1⟩, ⟨5, 6, 1⟩] t) ∧
      AssignsOwn idleKernel [1, 2, 0] fun _ _ => 1 := by
  have hiff := @partition_iff [⟨4, 5, 1⟩, ⟨5, 6, 1⟩] (by simp) idleKernel [1, 2, 0] (fun _ _ => 1)
    idleKernel_closed (mem_idleKernel (.inl rfl)) (by decide)
  refine ⟨hiff.1.mpr ⟨?_, by decide⟩, hiff.2.mpr ⟨?_, by decide, ?_⟩⟩
  · intro u hu v hv x hux hxv
    rw [mem_vertices] at hu hv ⊢
    simp only [List.mem_cons, List.not_mem_nil, or_false, exists_eq_or_imp, exists_eq_left] at hu hv ⊢
    have h4 : (4 : Int32).toInt = 4 := rfl
    have h5 : (5 : Int32).toInt = 5 := rfl
    have h6 : (6 : Int32).toInt = 6 := rfl
    rw [h4, h5, h6] at hu hv ⊢
    omega
  · rw [edgesMet_idleLast]
    simp
  · intro i j k k' hij hk hk' hconnected
    unfold HasConnection at hconnected ⊢
    rw [edgesMet_idleLast] at hconnected ⊢
    simp only [List.mem_singleton, exists_eq_left] at hconnected ⊢
    match j, hij, hk' with
    | 1, hij, _ =>
        obtain rfl : i = 0 := by omega
        exact .inl (Option.some_inj.mp hk)
    | 2, _, hk' =>
        obtain rfl : 0 = k' := Option.some_inj.mp hk'
        rcases hconnected with h | h
        · cases h
        · cases h

/-- Between `0` and `2` a number is missing, and the second row lies outside the tables; and the idle kernel,
first in the set, is given the part of the next one. -/
theorem gap_and_idle :
    (¬∃ t, (graphOf [⟨0, 2, 1⟩]).getScotchTables = some t ∧ CompressedRows [⟨0, 2, 1⟩] t) ∧
      ¬AssignsOwn idleKernel [0, 1, 2] fun _ _ => 1 := by
  constructor
  · rw [tables_iff (by simp)]
    rintro ⟨hcont, -⟩
    have hends : (0 : Int) ∈ vertices [⟨0, 2, 1⟩] ∧ (2 : Int) ∈ vertices [⟨0, 2, 1⟩] := by
      constructor
      · exact mem_vertices.mpr ⟨_, List.mem_singleton_self _, .inl rfl⟩
      · exact mem_vertices.mpr ⟨_, List.mem_singleton_self _, .inr rfl⟩
    obtain ⟨c, hc, hone⟩ := mem_vertices.mp (hcont 0 hends.1 2 hends.2 1 (by decide) (by decide))
    obtain rfl := List.mem_singleton.mp hc
    revert hone
    decide
  · rw [assignsOwn_iff idleKernel_closed (mem_idleKernel (.inr rfl)) (by decide)]
    intro h
    have hconnected : HasConnection idleKernel [0, 1, 2] 1 := by
      unfold HasConnection
      rw [edgesMet_idleFirst]
      exact ⟨_, List.mem_singleton_self _, .inl rfl⟩
    obtain ⟨e, he, hk⟩ := h.first 0 1 0 1 (by decide) rfl rfl hconnected
    rw [edgesMet_idleFirst, List.mem_singleton] at he
    subst he
    revert hk
    decide

end RaftLib.Graph
