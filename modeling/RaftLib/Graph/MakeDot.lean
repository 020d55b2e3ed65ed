/-
# `RaftLib.Graph.MakeDot` -- the export of a map to a DOT file

`make_dot` (`makedot.cpp`, `makedot.hpp`) and the numbers of kernels (`kernel.cpp`). The nodes are
written from `all_kernels`, one after another. The edges are written by a traversal that begins at
`source_kernels`. Both name kernels by `get_id`, which a constructor takes from a counter; the
constructor over existing memory does not count.

The file is a list of statements (`Statement`) one behind the other, and is read back statement by
statement (`readFile`), which works as long as no label has a quotation mark in it: labels are not
escaped. What is written is the graph exactly if the numbers of the kernels differ and the traversal
comes to all connections (`dot_is_graph_iff`).

Height and width are what the constructor of `make_dot` leaves, from the environment or by default;
`use_my_allocator` and `mem` of a port are their defaults, as nothing sets them.
-/
import RaftLib.Graph.Allocate
import RaftLib.Logic.ReadBack

namespace RaftLib.Graph

open RaftLib.Logic.Program
open RaftLib.Logic.Steps
open RaftLib.Logic.ReadBack
open RaftLib.Logic.Traversal

/-! ## Numbers of kernels -/

/-- The two constructors of `raft::kernel`: the default one, and the one over existing memory. A copy
is made by one of them, which the copy constructor of its class calls. -/
inductive Construction where
  | default | existingMemory
  deriving DecidableEq, Repr

/-- The number that a constructor gives, and `kernel_count` after it. -/
def construct (kernelCount : Nat) : Construction → Nat × Nat
  | .default => (kernelCount, kernelCount + 1)
  | .existingMemory => (kernelCount, kernelCount)

/-- The numbers of the kernels that are constructed one after another. -/
def kernelIds (kernelCount : Nat) : List Construction → List Nat
  | [] => []
  | made :: rest => (construct kernelCount made).1 :: kernelIds (construct kernelCount made).2 rest

/-- `kernel::get_id`, of the kernel constructed in place `k`. -/
def getId (made : List Construction) (k : KernelId) : Nat := (kernelIds 0 made).getD k 0

/-! ## `make_dot` -/

/-- The map, and what has been written to the stream. -/
structure MakeDot where
  world : World
  stream : String := ""

abbrev DotProg := EStateM Err MakeDot

def write (text : String) : DotProg PUnit := modify fun m => { m with stream := m.stream ++ text }

/-- `field_helper::get_csv`. -/
def getCsv : List String → String
  | [] => ""
  | str :: rest => str ++ (if rest.length = 0 then "" else ", ") ++ getCsv rest

/-- `make_dot::generate_field`. -/
def generateField (name : String) (values : List String) : String :=
  name ++ "=\"" ++ getCsv values ++ "\""

/-- `make_dot::generate_preamble`. -/
def generatePreamble (height width : Int) : DotProg PUnit := do
  write "digraph G\x7b\n"
  write "\t"
  write (generateField "size" [toString height, toString width] ++ ";\n")

/-- The body of the loop of `make_dot::generate_vertex_list`. -/
def generateVertex (ids : KernelId → Nat) (k : KernelId) : DotProg PUnit := do
  write ("\t" ++ Nat.repr (ids k))
  write "["
  write (generateField "label" [((← get).world.kernel k).className])
  write ", "
  write (generateField "shape" ["ellipse"] ++ ", ")
  write (generateField "fontname" ["Helvetica"])
  write "];\n"

/-- `make_dot::generate_vertex_list`, over `all_kernels` in the order of the set. -/
def generateVertexList (ids : KernelId → Nat) (allKernels : List KernelId) : DotProg PUnit :=
  allKernels.forM (generateVertex ids)

/-- `memory_type`. -/
inductive MemoryType where
  | heap | shm
  deriving DecidableEq, Repr

/-- `Type::type_prints`, by the number of the memory type. -/
def MemoryType.typePrint : MemoryType → String
  | .heap => "Heap"
  | .shm => "SharedMemory"

/-- `use_my_allocator` and `mem` of every port. -/
def useMyAllocator : Bool := false

def mem : MemoryType := .heap

/-- The label of an edge, from the `PortInfo` of its source. -/
def edgeLabel (w : World) (a b : PortRef) : String :=
  let info := w.info a
  a.key ++ " to " ++ b.key ++ " (" ++ info.type ++ ")" ++ "\n" ++
    "OoO=" ++ toString info.outOfOrder ++ "\n" ++
    "custom allocator=" ++ toString useMyAllocator ++ "\n" ++
    "queue type=" ++ mem.typePrint ++ "\n" ++
    if info.existingBuffer ≠ none then
      "existing_buffer\n" ++
        "\tsize: " ++ toString info.nitems ++ "\n" ++
        "\tstart_offset: " ++ toString info.startIndex ++ "\n" ++
        "\tfixed_buffer_size: " ++ toString info.fixedBufferSize ++ "\n"
    else ""

/-- `dot_func`, which `make_dot::generate_edge_list` has the traversal call. -/
def dotFunc (ids : KernelId → Nat) (a b : PortRef) : DotProg PUnit := do
  write ("\t" ++ Nat.repr (ids a.kernel) ++ " -> ")
  write (Nat.repr (ids b.kernel))
  write "["
  write (generateField "label" [edgeLabel (← get).world a b])
  write "];\n"

/-- `make_dot::generate_edge_list`, from `source_kernels` in the order of the set, and whether the
traversal has ended. -/
def generateEdgeList (ids : KernelId → Nat) (fuel : Nat) (sourceKernels : List KernelId) :
    DotProg Bool :=
  bfs MakeDot.world (dotFunc ids) false fuel sourceKernels

/-- `make_dot::generate_close`. -/
def generateClose : DotProg PUnit := write "\x7d\n"

/-- `make_dot::_run`. -/
def runDot (ids : KernelId → Nat) (height width : Int) (fuel : Nat)
    (allKernels sourceKernels : List KernelId) : DotProg Bool := do
  generatePreamble height width
  generateVertexList ids allKernels
  let ended ← generateEdgeList ids fuel sourceKernels
  generateClose
  return ended

/-! ## The file as a list of statements -/

/-- A statement of the file: a node with its number, or an edge with the numbers of its ends. -/
inductive Statement where
  | node (id : Nat) (label : String)
  | edge (src dst : Nat) (label : String)
  deriving DecidableEq, Repr

namespace Statement

def text : Statement → String
  | node id label =>
      "\t" ++ Nat.repr id ++ "[" ++ generateField "label" [label] ++ ", " ++
        (generateField "shape" ["ellipse"] ++ ", ") ++ generateField "fontname" ["Helvetica"] ++ "];\n"
  | edge src dst label =>
      "\t" ++ Nat.repr src ++ " -> " ++ Nat.repr dst ++ "[" ++ generateField "label" [label] ++ "];\n"

/-- The number of a node. -/
def nodeId : Statement → Option Nat
  | node id _ => some id
  | edge .. => none

/-- The numbers of the ends of an edge. -/
def edgeIds : Statement → Option (Nat × Nat)
  | node .. => none
  | edge src dst _ => some (src, dst)

def label : Statement → String
  | node _ label => label
  | edge _ _ label => label

/-- There is no quotation mark in the label. -/
def Plain (s : Statement) : Prop := '"' ∉ s.label.toList

end Statement

/-- Statements one behind the other. -/
def texts : List Statement → String
  | [] => ""
  | s :: l => s.text ++ texts l

/-- The whole file. -/
def render (height width : Int) (l : List Statement) : String :=
  "digraph G\x7b\n" ++ "\t" ++ (generateField "size" [toString height, toString width] ++ ";\n") ++
    texts l ++ "\x7d\n"

/-- The statement for a kernel. -/
def World.nodeOf (w : World) (ids : KernelId → Nat) (k : KernelId) : Statement :=
  .node (ids k) (w.kernel k).className

/-- The statement for a connection. -/
def World.edgeOf (w : World) (ids : KernelId → Nat) (e : PortRef × PortRef) : Statement :=
  .edge (ids e.1.kernel) (ids e.2.kernel) (edgeLabel w e.1 e.2)

/-- What is written for the map. -/
def World.dotStatements (w : World) (ids : KernelId → Nat) (allKernels sourceKernels : List KernelId) :
    List Statement :=
  allKernels.map (w.nodeOf ids) ++ (w.edgesMet sourceKernels).map (w.edgeOf ids)

/-! ### What is written -/

section Written

variable {w : World} {ids : KernelId → Nat} {stream : String}

theorem texts_append (l l' : List Statement) : texts (l ++ l') = texts l ++ texts l' := by
  induction l with
  | nil => simp [texts]
  | cons s l ih => simp only [List.cons_append, texts, ih, String.append_assoc]

theorem generateVertex_run (k : KernelId) :
    (generateVertex ids k).run { world := w, stream := stream } =
      .ok ⟨⟩ { world := w, stream := stream ++ (w.nodeOf ids k).text } := by
  simp [generateVertex, write, World.nodeOf, Statement.text, String.append_assoc]

theorem generateVertexList_run (ks : List KernelId) :
    (generateVertexList ids ks).run { world := w, stream := stream } =
      .ok ⟨⟩ { world := w, stream := stream ++ texts (ks.map (w.nodeOf ids)) } := by
  induction ks generalizing stream with
  | nil =>
      rw [List.map_nil, texts, String.append_empty]
      rfl
  | cons k ks ih =>
      have hcons : generateVertexList ids (k :: ks) =
          generateVertex ids k >>= fun _ => generateVertexList ids ks := rfl
      rw [hcons, run_bind_of_ok (generateVertex_run k), ih, List.map_cons, texts,
        String.append_assoc]

theorem dotFunc_run (a b : PortRef) :
    (dotFunc ids a b).run { world := w, stream := stream } =
      .ok ⟨⟩ { world := w, stream := stream ++ (w.edgeOf ids (a, b)).text } := by
  simp [dotFunc, write, World.edgeOf, Statement.text, String.append_assoc]

theorem keeps_dotFunc : Keeps MakeDot.world (dotFunc ids) := by
  intro a b m u m' h
  obtain ⟨w, stream⟩ := m
  rw [dotFunc_run] at h
  cases h
  exact .refl w

theorem callAll_dotFunc (edges : List (PortRef × PortRef)) :
    (callAll (dotFunc ids) edges).run { world := w, stream := stream } =
      .ok ⟨⟩ { world := w, stream := stream ++ texts (edges.map (w.edgeOf ids)) } := by
  induction edges generalizing stream with
  | nil =>
      rw [List.map_nil, texts, String.append_empty]
      rfl
  | cons e edges ih =>
      rw [callAll_cons, run_bind_of_ok (dotFunc_run e.1 e.2), ih, List.map_cons, texts,
        String.append_assoc]

/-- **The file** is the rendering of the statements for the kernels and for the connections that the
traversal meets. -/
theorem runDot_run (hclosed : w.Closed) {allKernels sourceKernels : List KernelId}
    (hlt : ∀ k ∈ sourceKernels, k < w.next) (hnodup : sourceKernels.Nodup) (height width : Int)
    {fuel : Nat} (hfuel : w.next + 2 ≤ fuel) :
    (runDot ids height width fuel allKernels sourceKernels).run { world := w } =
      .ok true { world := w
                 stream := render height width (w.dotStatements ids allKernels sourceKernels) } := by
  have hpreamble : (generatePreamble height width).run { world := w } =
      .ok ⟨⟩ { world := w, stream := "digraph G\x7b\n" ++ "\t" ++
        (generateField "size" [toString height, toString width] ++ ";\n") } := by
    simp [generatePreamble, write]
  have hedges : ∀ stream : String,
      (generateEdgeList ids fuel sourceKernels).run { world := w, stream := stream } =
        .ok true { world := w
                   stream := stream ++ texts ((w.edgesMet sourceKernels).map (w.edgeOf ids)) } := by
    intro stream
    rw [generateEdgeList, bfs_edgesMet hclosed hlt hnodup keeps_dotFunc (.refl w) hfuel,
      run_bind_of_ok (callAll_dotFunc _)]
    rfl
  rw [runDot, run_bind_of_ok hpreamble, run_bind_of_ok (generateVertexList_run allKernels),
    run_bind_of_ok (hedges _)]
  delta render
  simp [generateClose, write, World.dotStatements, texts_append, String.append_assoc]

end Written

/-! ### Reading it back -/

/-- What stands in front of a label, and behind that of a node and that of an edge. -/
def labelOpen : String := "label=\""

def nodeClose : String :=
  ", " ++ (generateField "shape" ["ellipse"] ++ ", ") ++ generateField "fontname" ["Helvetica"] ++ "];\n"

def edgeClose : String := "];\n"

/-- Between the two numbers of an edge. -/
def arrow : List Char := [' ', '-', '>', ' ']

/-- A label, up to the first quotation mark. -/
def readLabel : Reader Char String := do
  word labelOpen.toList
  let label ← stretch fun a => a ≠ '"'
  word ['"']
  return String.ofList label

/-- A statement: what stands behind the first number tells a node from an edge. -/
def readStatement : Reader Char Statement := do
  word ['\t']
  let id ← number
  let between ← stretch fun a => a ∈ arrow
  if between = [] then
    word ['[']
    let label ← readLabel
    word nodeClose.toList
    return .node id label
  else if between = arrow then
    let dst ← number
    word ['[']
    let label ← readLabel
    word edgeClose.toList
    return .edge id dst label
  else failure

/-- The two lines in front of the statements. -/
def readPreamble : Reader Char PUnit := do
  word "digraph G\x7b\n".toList
  let _ ← stretch fun a => a ≠ '\n'
  word ['\n']

/-- The statements of a file. -/
def readFile (text : String) : Option (List Statement) := do
  let (_, body) ← readPreamble.run text.toList
  readAll readStatement "\x7d\n".toList (body.length + 1) body

section Reading

theorem toList_labelField (label : String) :
    (generateField "label" [label]).toList = labelOpen.toList ++ (label.toList ++ ['"']) := by
  simp [generateField, getCsv, labelOpen]

theorem toList_node (id : Nat) (label : String) : (Statement.node id label).text.toList =
    '\t' :: (Nat.toDigits 10 id ++
      '[' :: (labelOpen.toList ++ (label.toList ++ '"' :: nodeClose.toList))) := by
  have htext : (Statement.node id label).text =
      "\t" ++ Nat.repr id ++ "[" ++ generateField "label" [label] ++ nodeClose := by
    simp only [Statement.text, nodeClose, String.append_assoc]
  simp [htext, toList_labelField]

theorem toList_edge (src dst : Nat) (label : String) : (Statement.edge src dst label).text.toList =
    '\t' :: (Nat.toDigits 10 src ++ arrow ++ (Nat.toDigits 10 dst ++
      '[' :: (labelOpen.toList ++ (label.toList ++ '"' :: edgeClose.toList)))) := by
  have htext : (Statement.edge src dst label).text =
      "\t" ++ Nat.repr src ++ " -> " ++ Nat.repr dst ++ "[" ++ generateField "label" [label] ++
        edgeClose := rfl
  simp [htext, toList_labelField, arrow]

/-- A label without a quotation mark is read whole. -/
theorem readLabel_append {label : String} (h : '"' ∉ label.toList) (rest : List Char) :
    readLabel.run (labelOpen.toList ++ (label.toList ++ '"' :: rest)) = some (label, rest) := by
  have hplain : ∀ a ∈ label.toList, decide (a ≠ '"') = true := by
    intro a ha
    refine decide_eq_true fun hquote => h ?_
    rwa [← hquote]
  rw [readLabel, read_bind (word_append _ _), read_bind (stretch_append hplain (by decide) rest),
    read_bind (letter_cons _ _), read_pure, String.ofList_toList]

/-- There is no arrow behind the number of a node. -/
theorem stretch_bracket (rest : List Char) :
    (stretch fun a => a ∈ arrow).run ('[' :: rest) = some ([], '[' :: rest) := by
  have hnil : ∀ a ∈ ([] : List Char), decide (a ∈ arrow) = true := by
    intro a ha
    cases ha
  exact stretch_append hnil (by decide) rest

/-- The arrow ends at the first digit of the number behind it. -/
theorem stretch_arrow (n : Nat) (rest : List Char) :
    (stretch fun a => a ∈ arrow).run (arrow ++ (Nat.toDigits 10 n ++ rest)) =
      some (arrow, Nat.toDigits 10 n ++ rest) := by
  obtain ⟨d, ds, hdigits⟩ := List.exists_cons_of_ne_nil (Nat.toDigits_ne_nil (n := n) (b := 10))
  have hd : d.isDigit = true :=
    Nat.isDigit_of_mem_toDigits (by decide) (by decide) (hdigits ▸ List.mem_cons_self)
  have hother : decide (d ∈ arrow) = false := by
    refine decide_eq_false fun hmem => ?_
    have hnone : (!d.isDigit) = true :=
      List.all_eq_true.mp (show arrow.all (fun a => !a.isDigit) = true by decide) d hmem
    rw [hd] at hnone
    cases hnone
  have hmine : ∀ a ∈ arrow, decide (a ∈ arrow) = true := fun a ha => decide_eq_true ha
  rw [hdigits]
  exact stretch_append hmine hother (ds ++ rest)

/-- **A statement is read back** if there is no quotation mark in its label. -/
theorem readStatement_append {s : Statement} (h : s.Plain) (rest : List Char) :
    readStatement.run (s.text.toList ++ rest) = some (s, rest) := by
  cases s with
  | node id label =>
      have hlabel : '"' ∉ label.toList := h
      rw [toList_node]
      simp only [List.cons_append, List.append_assoc]
      rw [readStatement, read_bind (letter_cons _ _), read_bind (number_append id (by decide) _),
        read_bind (stretch_bracket _), if_pos rfl, read_bind (letter_cons _ _),
        read_bind (readLabel_append hlabel _), read_bind (word_append _ _), read_pure]
  | edge src dst label =>
      have hlabel : '"' ∉ label.toList := h
      have hsrc : ∀ rest : List Char, number.run (Nat.toDigits 10 src ++ (arrow ++ rest)) =
          some (src, arrow ++ rest) := fun rest => number_append src (by decide) _
      rw [toList_edge]
      simp only [List.cons_append, List.append_assoc]
      rw [readStatement, read_bind (letter_cons _ _), read_bind (hsrc _),
        read_bind (stretch_arrow dst _), if_neg (by decide), if_pos rfl,
        read_bind (number_append dst (by decide) _), read_bind (letter_cons _ _),
        read_bind (readLabel_append hlabel _), read_bind (word_append _ _), read_pure]

theorem readLabel_some {text rest : List Char} {label : String}
    (h : readLabel.run text = some (label, rest)) : '"' ∉ label.toList := by
  obtain ⟨_, _, -, h⟩ := read_bind_some h
  obtain ⟨letters, _, hletters, h⟩ := read_bind_some h
  obtain ⟨_, _, -, h⟩ := read_bind_some h
  have heq : String.ofList letters = label := read_pure_some h
  rw [← heq, String.toList_ofList]
  intro hquote
  exact of_decide_eq_true (stretch_some hletters _ hquote) rfl

/-- No other statement is read. -/
theorem readStatement_some {text rest : List Char} {s : Statement}
    (h : readStatement.run text = some (s, rest)) : s.Plain := by
  obtain ⟨_, _, -, h⟩ := read_bind_some h
  obtain ⟨id, _, -, h⟩ := read_bind_some h
  obtain ⟨between, _, -, h⟩ := read_bind_some h
  split at h
  · obtain ⟨_, _, -, h⟩ := read_bind_some h
    obtain ⟨label, _, hlabel, h⟩ := read_bind_some h
    obtain ⟨_, _, -, h⟩ := read_bind_some h
    rw [← read_pure_some h]
    exact readLabel_some hlabel
  · split at h
    · obtain ⟨dst, _, -, h⟩ := read_bind_some h
      obtain ⟨_, _, -, h⟩ := read_bind_some h
      obtain ⟨label, _, hlabel, h⟩ := read_bind_some h
      obtain ⟨_, _, -, h⟩ := read_bind_some h
      rw [← read_pure_some h]
      exact readLabel_some hlabel
    · cases h

/-- Every statement begins with a tab. -/
theorem exists_tab (s : Statement) : ∃ behind, s.text.toList = '\t' :: behind := by
  cases s with
  | node id label => exact ⟨_, toList_node id label⟩
  | edge src dst label => exact ⟨_, toList_edge src dst label⟩

theorem toList_texts (l : List Statement) :
    (texts l).toList = l.flatMap fun s => s.text.toList := by
  induction l with
  | nil => rfl
  | cons s l ih => rw [texts, String.toList_append, ih, List.flatMap_cons]

theorem mem_toString_nat {n : Nat} {a : Char} (h : a ∈ (toString n).toList) : a.isDigit = true := by
  have hdigits : (toString n).toList = Nat.toDigits 10 n := by simp
  rw [hdigits] at h
  exact Nat.isDigit_of_mem_toDigits (by decide) (by decide) h

theorem mem_toString_int {i : Int} {a : Char} (h : a ∈ (toString i).toList) :
    a = '-' ∨ a.isDigit = true := by
  cases i with
  | ofNat n => exact Or.inr (mem_toString_nat h)
  | negSucc n =>
      have hsign : a ∈ ("-" ++ toString (n + 1)).toList := h
      rw [String.toList_append, List.mem_append] at hsign
      rcases hsign with hsign | hdigit
      · exact Or.inl (List.mem_singleton.mp hsign)
      · exact Or.inr (mem_toString_nat hdigit)

/-- The line with the size. -/
def sizeLine (height width : Int) : String :=
  "\t" ++ generateField "size" [toString height, toString width] ++ ";"

theorem mem_sizeLine {height width : Int} {a : Char} (h : a ∈ (sizeLine height width).toList) :
    a ≠ '\n' := by
  rintro rfl
  have hnumber : ∀ i : Int, '\n' ∉ (toString i).toList := by
    intro i hi
    rcases mem_toString_int hi with hsign | hdigit
    · cases hsign
    · cases hdigit
  have hmem : '\n' ∈ (toString height).toList ∨ '\n' ∈ (toString width).toList := by
    simpa [sizeLine, generateField, getCsv] using h
  rcases hmem with hheight | hwidth
  · exact hnumber height hheight
  · exact hnumber width hwidth

theorem toList_render (height width : Int) (l : List Statement) :
    (render height width l).toList = "digraph G\x7b\n".toList ++ ((sizeLine height width).toList ++
      '\n' :: ((l.flatMap fun s => s.text.toList) ++ "\x7d\n".toList)) := by
  rw [← toList_texts]
  delta render
  simp [sizeLine]

/-- **The statements can be read back** from the file exactly if no label has a quotation mark. -/
theorem readFile_render_iff {height width : Int} {l : List Statement} :
    readFile (render height width l) = some l ↔ ∀ s ∈ l, s.Plain := by
  let body := (l.flatMap fun s : Statement => s.text.toList) ++ "\x7d\n".toList
  have hpreamble : readPreamble.run (render height width l).toList = some (⟨⟩, body) := by
    rw [toList_render, readPreamble, read_bind (word_append _ _),
      read_bind (stretch_append (fun a ha => decide_eq_true (mem_sizeLine ha)) (by decide) _)]
    exact letter_cons _ _
  have hbody : readFile (render height width l) =
      readAll readStatement "\x7d\n".toList (body.length + 1) body := by
    rw [readFile, hpreamble]
    rfl
  rw [hbody]
  constructor
  · intro h
    exact readAll_some (fun _ _ _ hs => readStatement_some hs) h
  · intro h
    refine readAll_flatMap (fun s hs rest => readStatement_append (h s hs) rest) ?_ ?_
    · intro s rest heq
      obtain ⟨behind, htab⟩ := exists_tab s
      rw [htab] at heq
      cases heq
    · have hle := length_le_flatMap (l := l) (f := fun s : Statement => s.text.toList) fun s _ => by
        obtain ⟨behind, htab⟩ := exists_tab s
        rw [htab]
        exact List.cons_ne_nil _ _
      rw [List.length_append]
      omega

end Reading

/-! ## When the numbers differ -/

section Numbers

variable {made : List Construction} {j k : Nat}

/-- A kernel's number is how many kernels were counted before it. -/
theorem kernelIds_getD (count : Nat) (hk : k < made.length) :
    (kernelIds count made).getD k 0 = count + (made.take k).count .default := by
  induction made generalizing count k with
  | nil => cases hk
  | cons made rest ih =>
      cases k with
      | zero => cases made <;> rfl
      | succ k =>
          have hrest : k < rest.length := Nat.lt_of_succ_lt_succ hk
          rw [kernelIds, List.getD_cons_succ, ih _ hrest, List.take_succ_cons, List.count_cons]
          cases made with
          | default => simp [construct]; omega
          | existingMemory => simp [construct]

theorem getId_eq (hk : k < made.length) : getId made k = (made.take k).count .default := by
  rw [getId, kernelIds_getD 0 hk, Nat.zero_add]

/-- From one kernel on to a later one, a kernel was counted. -/
def CountedBetween (made : List Construction) (j k : Nat) : Prop :=
  ∃ i : Nat, j ≤ i ∧ i < k ∧ made[i]? = some .default

theorem getId_eq_iff (hjk : j ≤ k) (hk : k < made.length) :
    getId made j = getId made k ↔ ¬CountedBetween made j k := by
  have hsplit : made.take k = made.take j ++ (made.drop j).take (k - j) := by
    rw [← List.take_append_drop j (made.take k), List.take_take, Nat.min_eq_left hjk,
      List.drop_take]
  rw [getId_eq (hjk.trans_lt hk), getId_eq hk, hsplit, List.count_append]
  have hnone : ((made.drop j).take (k - j)).count .default = 0 ↔ ¬CountedBetween made j k := by
    rw [List.count_eq_zero, not_iff_not, List.mem_iff_getElem?]
    constructor
    · rintro ⟨i, hi⟩
      have hlt : i < k - j := by
        by_contra hle
        rw [List.getElem?_take_eq_none (not_lt.mp hle)] at hi
        cases hi
      rw [List.getElem?_take_of_lt hlt, List.getElem?_drop] at hi
      exact ⟨j + i, by omega, by omega, hi⟩
    · rintro ⟨i, hji, hik, hi⟩
      refine ⟨i - j, ?_⟩
      have hlt : i - j < k - j := by omega
      rw [List.getElem?_take_of_lt hlt, List.getElem?_drop, Nat.add_sub_cancel' hji]
      exact hi
  rw [← hnone]
  omega

/-- Between any two of the kernels one was counted, the earlier of the two included: none of them is
over existing memory and followed by another before the counter moves on. -/
def Numbered (made : List Construction) (kernels : Finset KernelId) : Prop :=
  ∀ j ∈ kernels, ∀ k ∈ kernels, j < k → CountedBetween made j k

/-- The numbers of the kernels differ exactly then. -/
theorem nodup_ids_iff {kernels : Finset KernelId} (hlt : ∀ k ∈ kernels, k < made.length)
    {ks : List KernelId} (hnodup : ks.Nodup) (hks : ∀ k, k ∈ ks ↔ k ∈ kernels) :
    (ks.map (getId made)).Nodup ↔ Numbered made kernels := by
  rw [List.nodup_map_iff_inj_on hnodup]
  constructor
  · intro hinj j hj k hk hjk
    by_contra hnot
    have heq := (getId_eq_iff hjk.le (hlt k hk)).mpr hnot
    exact hjk.ne (hinj j ((hks j).mpr hj) k ((hks k).mpr hk) heq)
  · intro h j hj k hk heq
    rw [hks] at hj hk
    rcases lt_trichotomy j k with hjk | rfl | hkj
    · exact absurd (h j hj k hk hjk) ((getId_eq_iff hjk.le (hlt k hk)).mp heq)
    · rfl
    · exact absurd (h k hk j hj hkj) ((getId_eq_iff hkj.le (hlt j hj)).mp heq.symm)

/-- Kernels that were all counted have different numbers. -/
theorem numbered_of_default {kernels : Finset KernelId}
    (h : ∀ k ∈ kernels, made[k]? = some .default) : Numbered made kernels :=
  fun j hj _ _ hjk => ⟨j, le_rfl, hjk, h j hj⟩

end Numbers

/-! ## The keepers of a map built by calls -/

section Keepers

variable {w w' : World} {a b : KernelId} {r r' : PortRef}

/-- The map keeps kernels that exist, and the source kernels among them. -/
structure World.Kept (w : World) : Prop where
  known : ∀ k ∈ w.allKernels, k < w.next
  sources : w.sourceKernels ⊆ w.allKernels

/-- A call keeps it that way. -/
def KeepsKept (w w' : World) : Prop := w.next ≤ w'.next ∧ (w.Kept → w'.Kept)

theorem keepsKept_trans (w w' w'' : World) (h : KeepsKept w w') (h' : KeepsKept w' w'') :
    KeepsKept w w'' := ⟨h.1.trans h'.1, h'.2 ∘ h.2⟩

/-- What does not touch the keepers does. -/
theorem keepsKept_of_eq (hnext : w.next ≤ w'.next) (hall : w'.allKernels = w.allKernels)
    (hsources : w'.sourceKernels = w.sourceKernels) : KeepsKept w w' := by
  refine ⟨hnext, fun h => ⟨fun k hk => ?_, ?_⟩⟩
  · rw [hall] at hk
    exact (h.known k hk).trans_le hnext
  · rw [hall, hsources]
    exact h.sources

theorem keepsKept_withKernels (ha : a < w.next) (hb : b < w.next) :
    KeepsKept w (w.withKernels a b) := by
  refine ⟨le_rfl, fun h => ⟨fun k hk => ?_, sources_withKernels h.sources⟩⟩
  have hk' : k ∈ insert b (insert a w.allKernels) := hk
  rcases Finset.mem_insert.mp hk' with rfl | hk'
  · exact hb
  · rcases Finset.mem_insert.mp hk' with rfl | hk'
    · exact ha
    · exact h.known k hk'

theorem link_keepsKept (ha : a < w.next) (hb : b < w.next) (t : Order) (aPort bPort : PortKey)
    (buffer : Nat) : Along KeepsKept (link t a aPort b bPort buffer) (fun _ _ => True) w := by
  apply along_link keepsKept_trans
  · intro rs
    obtain ⟨hsource, -, hall, -⟩ := World.sized_keepers (w.withKernels a b) buffer rs
    have hnext := World.sized_next (w.withKernels a b) buffer rs
    exact keepsKept_trans _ _ _ (keepsKept_withKernels ha hb) (keepsKept_of_eq hnext.ge hall hsource)
  · intro ra rb w' _ _
    exact keepsKept_of_eq le_rfl rfl rfl

theorem keepsKept_discipline : Discipline KeepsKept fun k w => k < w.next where
  refl _ := ⟨le_rfl, id⟩
  trans := keepsKept_trans
  mono h hkeep := h.trans_le hkeep.1
  link ha hb := link_keepsKept ha hb
  clone _ := clone_along ⟨le_rfl, id⟩
    ⟨keepsKept_of_eq (Nat.le_succ _) rfl rfl, Nat.lt_succ_self _⟩

theorem kept_of_run {calls : List Call} (h : Run Calls w calls w') (hw : w.Kept) : w'.Kept :=
  (keepsKept_discipline.of_run (fun _ _ hk => hk) h).2 hw

end Keepers

/-! ## When all connections are written -/

section Edges

variable {w : World} {sources container : List KernelId} {made : List Construction}

/-- In a map that has passed the check the traversal meets the connections of all kernels that it
reaches, each once. -/
theorem edgesMet_of_connected (hm : w.Matched) (hkept : w.Kept) (hc : w.Connected)
    (hsources : ∀ k ∈ sources, k ∈ w.sourceKernels) (hnodup : sources.Nodup) :
    (w.edgesMet sources).Nodup ∧
      ∀ e, e ∈ w.edgesMet sources ↔ ∃ k, w.Reached sources k ∧ e ∈ w.edgesFrom k := by
  have hlt : ∀ k ∈ sources, k < w.next := fun k hk => (hm.source k (hsources k hk)).1
  have hfree : ¬w.SomeFree sources :=
    hc.not_someFree fun k hk => hk.mem_all hm hkept.sources hsources
  exact ⟨(nodup_edgesMet hm.closed hlt hnodup).of_map _,
    fun e => mem_edgesMet_iff hm.closed hlt hnodup hfree⟩

/-! ## The file and the graph -/

/-- The statements declare the map: one node for each kernel, with numbers of their own, and one edge
for each connection, from the number of the kernel that writes to that of the kernel that reads. -/
structure World.DotIsGraph (w : World) (ids : KernelId → Nat) (l : List Statement) : Prop where
  nodes : ∃ ks : List KernelId, ks.Nodup ∧ (∀ k, k ∈ ks ↔ k ∈ w.allKernels) ∧
    l.filterMap Statement.nodeId = ks.map ids
  distinct : (l.filterMap Statement.nodeId).Nodup
  edges : ∃ es : List (PortRef × PortRef), es.Nodup ∧
    (∀ e, e ∈ es ↔ ∃ k ∈ w.allKernels, e ∈ w.edgesFrom k) ∧
    l.filterMap Statement.edgeIds = es.map fun e => (ids e.1.kernel, ids e.2.kernel)

theorem nodeIds_dotStatements (ids : KernelId → Nat) :
    (w.dotStatements ids container sources).filterMap Statement.nodeId = container.map ids := by
  simp [World.dotStatements, World.nodeOf, World.edgeOf, List.filterMap_append, List.filterMap_map,
    Function.comp_def, Statement.nodeId]

theorem edgeIds_dotStatements (ids : KernelId → Nat) :
    (w.dotStatements ids container sources).filterMap Statement.edgeIds =
      (w.edgesMet sources).map fun e => (ids e.1.kernel, ids e.2.kernel) := by
  simp [World.dotStatements, World.nodeOf, World.edgeOf, List.filterMap_append, List.filterMap_map,
    Function.comp_def, Statement.edgeIds]

theorem kernel_of_mem_edgesFrom {k : KernelId} {e : PortRef × PortRef} (he : e ∈ w.edgesFrom k) :
    e.1.kernel = k := by
  obtain ⟨key, -, heq, -⟩ := World.mem_edgesFrom.mp he
  rw [heq]

/-- Every kernel with a connection to write to is reached from the source kernels. -/
def World.AllReached (w : World) (sources : List KernelId) : Prop :=
  ∀ k ∈ w.allKernels, ∀ e ∈ w.edgesFrom k, w.Reached sources k

/-- No class name of a kernel, and no port or type name of a connection, has a quotation mark in it. -/
structure World.Unquoted (w : World) : Prop where
  kernels : ∀ k ∈ w.allKernels, '"' ∉ (w.kernel k).className.toList
  edges : ∀ k ∈ w.allKernels, ∀ e ∈ w.edgesFrom k,
    '"' ∉ e.1.key.toList ∧ '"' ∉ e.2.key.toList ∧ '"' ∉ (w.info e.1).type.toList

/-- Nothing else comes into a label that could bring one. -/
theorem plain_edgeOf_iff (ids : KernelId → Nat) (e : PortRef × PortRef) :
    (w.edgeOf ids e).Plain ↔
      '"' ∉ e.1.key.toList ∧ '"' ∉ e.2.key.toList ∧ '"' ∉ (w.info e.1).type.toList := by
  have hnumber : ∀ n : Nat, '"' ∉ (toString n).toList := by
    intro n hn
    cases mem_toString_nat hn
  have hbool : ∀ b : Bool, '"' ∉ (toString b).toList := by decide
  show '"' ∉ (edgeLabel w e.1 e.2).toList ↔ _
  delta edgeLabel
  by_cases hbuffer : (w.info e.1).existingBuffer = none
  · simp +decide only [hbuffer, mem, MemoryType.typePrint, String.toList_append, List.mem_append,
      not_or, hbool, if_false, and_true, and_assoc]
  · simp +decide only [hbuffer, mem, MemoryType.typePrint, String.toList_append, List.mem_append,
      not_or, hbool, hnumber, ne_eq, not_false_iff, if_true, and_true, and_assoc]

/-- Where all is reached, the connections met are those of the map. -/
theorem mem_edgesMet_all (hm : w.Matched) (hkept : w.Kept) (hc : w.Connected)
    (hsources : ∀ k ∈ sources, k ∈ w.sourceKernels) (hnodup : sources.Nodup)
    (hreached : w.AllReached sources) (e : PortRef × PortRef) :
    e ∈ w.edgesMet sources ↔ ∃ k ∈ w.allKernels, e ∈ w.edgesFrom k := by
  rw [(edgesMet_of_connected hm hkept hc hsources hnodup).2]
  constructor
  · rintro ⟨k, hk, he⟩
    exact ⟨k, hk.mem_all hm hkept.sources hsources, he⟩
  · rintro ⟨k, hk, he⟩
    exact ⟨k, hreached k hk e he, he⟩

/-- **What is written is the graph** exactly if the numbers differ and all is reached. -/
theorem dotIsGraph_iff (hm : w.Matched) (hkept : w.Kept) (hc : w.Connected)
    (hmade : made.length = w.next) (hcontainer : container.Nodup)
    (hmem : ∀ k, k ∈ container ↔ k ∈ w.allKernels) (hsources : ∀ k ∈ sources, k ∈ w.sourceKernels)
    (hnodup : sources.Nodup) :
    w.DotIsGraph (getId made) (w.dotStatements (getId made) container sources) ↔
      Numbered made w.allKernels ∧ w.AllReached sources := by
  obtain ⟨hmet, hedges⟩ := edgesMet_of_connected hm hkept hc hsources hnodup
  have hids : (container.map (getId made)).Nodup ↔ Numbered made w.allKernels :=
    nodup_ids_iff (fun k hk => hmade ▸ hkept.known k hk) hcontainer hmem
  constructor
  · intro h
    have hdistinct := h.distinct
    rw [nodeIds_dotStatements] at hdistinct
    refine ⟨hids.mp hdistinct, fun k hk e he => ?_⟩
    obtain ⟨es, hes, hall, hwritten⟩ := h.edges
    rw [edgeIds_dotStatements] at hwritten
    -- as many edges are met as there are, and they are among these
    have hsub : w.edgesMet sources ⊆ es := by
      intro e he
      obtain ⟨j, hj, he⟩ := (hedges e).mp he
      exact (hall e).mpr ⟨j, hj.mem_all hm hkept.sources hsources, he⟩
    have hlength : es.length ≤ (w.edgesMet sources).length := by
      have := congrArg List.length hwritten
      rw [List.length_map, List.length_map] at this
      exact this.ge
    have hperm := (List.subperm_of_subset hmet hsub).perm_of_length_le hlength
    obtain ⟨j, hj, hej⟩ := (hedges e).mp (hperm.mem_iff.mpr ((hall e).mpr ⟨k, hk, he⟩))
    rwa [← kernel_of_mem_edgesFrom he, kernel_of_mem_edgesFrom hej]
  · rintro ⟨hnumbered, hreached⟩
    refine ⟨⟨container, hcontainer, hmem, nodeIds_dotStatements _⟩, ?_,
      ⟨w.edgesMet sources, hmet, fun e => ?_, edgeIds_dotStatements _⟩⟩
    · rw [nodeIds_dotStatements]
      exact hids.mpr hnumbered
    · exact mem_edgesMet_all hm hkept hc hsources hnodup hreached e

/-- And the labels written are those of the whole map. -/
theorem plain_dotStatements_iff (ids : KernelId → Nat)
    (hedges : ∀ e, e ∈ w.edgesMet sources ↔ ∃ k ∈ w.allKernels, e ∈ w.edgesFrom k)
    (hmem : ∀ k, k ∈ container ↔ k ∈ w.allKernels) :
    (∀ s ∈ w.dotStatements ids container sources, s.Plain) ↔ w.Unquoted := by
  constructor
  · intro h
    refine ⟨fun k hk => ?_, fun k hk e he => ?_⟩
    · exact h _ (List.mem_append_left _ (List.mem_map_of_mem ((hmem k).mpr hk)))
    · have hmet := (hedges e).mpr ⟨k, hk, he⟩
      have hplain := h _ (List.mem_append_right _ (List.mem_map_of_mem hmet))
      exact (plain_edgeOf_iff ids e).mp hplain
  · intro h s hs
    rcases List.mem_append.mp hs with hs | hs
    · obtain ⟨k, hk, rfl⟩ := List.mem_map.mp hs
      exact h.kernels k ((hmem k).mp hk)
    · obtain ⟨e, he, rfl⟩ := List.mem_map.mp hs
      obtain ⟨k, hk, he⟩ := (hedges e).mp he
      exact (plain_edgeOf_iff ids e).mpr (h.edges k hk e he)

/-- Kernels of the default constructor, connected without a cycle, are exported as they are. -/
theorem dotIsGraph_of_acyclic (hm : w.Matched) (hkept : w.Kept) (hc : w.Connected)
    (hmade : made.length = w.next) (hdefault : ∀ k ∈ w.allKernels, made[k]? = some .default)
    (hacyclic : ∀ k, ¬Relation.TransGen w.Feeds k k) (hcontainer : container.Nodup)
    (hmem : ∀ k, k ∈ container ↔ k ∈ w.allKernels)
    (hsources : ∀ k, k ∈ sources ↔ k ∈ w.sourceKernels) (hnodup : sources.Nodup) :
    w.DotIsGraph (getId made) (w.dotStatements (getId made) container sources) := by
  refine (dotIsGraph_iff hm hkept hc hmade hcontainer hmem (fun k => (hsources k).mp) hnodup).mpr
    ⟨numbered_of_default hdefault, fun k hk e he => ?_⟩
  obtain ⟨key, hkey, heq, -⟩ := World.mem_edgesFrom.mp he
  exact World.reached_of_acyclic (r := ⟨k, .output, key⟩) hm hc hsources hacyclic
    ⟨hkept.known k hk, hkey⟩ hk

end Edges

/-- **The DOT export**, of any map built by calls over kernels constructed in any order that has passed
the check: the statements can be read back from the file and are the graph exactly if no name has a
quotation mark in it, between any two kernels one was counted, and every kernel that writes to a
connection is reached from the source kernels. -/
theorem dot_is_graph_iff {w₀ w : World} {calls : List Call} (h₀ : w₀.Unlinked)
    (hall₀ : w₀.allKernels = ∅) (hrun : Run Calls w₀ calls w) {made : List Construction}
    (hmade : made.length = w.next) {container sources : List KernelId} (hcontainer : container.Nodup)
    (hmem : ∀ k, k ∈ container ↔ k ∈ w.allKernels)
    (hcheck : (checkEdges container).run w = .ok ⟨⟩ w) (hnodup : sources.Nodup)
    (hsources : ∀ k, k ∈ sources ↔ k ∈ w.sourceKernels) (height width : Int) {fuel : Nat}
    (hfuel : w.next + 2 ≤ fuel) :
    (runDot (getId made) height width fuel container sources).run { world := w } =
        .ok true { world := w
                   stream := render height width (w.dotStatements (getId made) container sources) } ∧
      ((readFile (render height width (w.dotStatements (getId made) container sources)) =
            some (w.dotStatements (getId made) container sources) ∧
          w.DotIsGraph (getId made) (w.dotStatements (getId made) container sources)) ↔
        w.Unquoted ∧ Numbered made w.allKernels ∧ w.AllReached sources) := by
  have hm : w.Matched := (evolves_of_run hrun).2 h₀.matched
  have hkept : w.Kept := by
    refine kept_of_run hrun ⟨fun k hk => ?_, ?_⟩
    · rw [hall₀] at hk
      exact absurd hk (Finset.notMem_empty k)
    · rw [h₀.source]
      exact Finset.empty_subset _
  have hc : w.Connected := fun k hk => (checkEdges_ok.mp hcheck).2 k ((hmem k).mpr hk)
  have hsource : ∀ k ∈ sources, k ∈ w.sourceKernels := fun k => (hsources k).mp
  have hlt : ∀ k ∈ sources, k < w.next := fun k hk => (hm.source k (hsource k hk)).1
  have hgraph := dotIsGraph_iff hm hkept hc hmade hcontainer hmem hsource hnodup
  refine ⟨runDot_run hm.closed hlt hnodup height width hfuel, ?_⟩
  rw [readFile_render_iff, hgraph]
  constructor
  · rintro ⟨hplain, hnumbered, hreached⟩
    exact ⟨(plain_dotStatements_iff _ (mem_edgesMet_all hm hkept hc hsource hnodup hreached)
      hmem).mp hplain, hnumbered, hreached⟩
  · rintro ⟨hunquoted, hnumbered, hreached⟩
    exact ⟨(plain_dotStatements_iff _ (mem_edgesMet_all hm hkept hc hsource hnodup hreached)
      hmem).mpr hunquoted, hnumbered, hreached⟩

/-- One connection between two counted kernels. -/
theorem dot_is_graph_one : ∃ w, Run Calls twoKernels [.link .in 0 "out" 1 nullPortValue 0] w ∧
    ∃ l : List Statement, (runDot (getId [.default, .default]) 10 10 4 [0, 1] [0]).run { world := w } =
        .ok true { world := w, stream := render 10 10 l } ∧
      readFile (render 10 10 l) = some l ∧ w.DotIsGraph (getId [.default, .default]) l := by
  obtain ⟨w, hrun, hall, hsource, hnext, hcheck, hunquoted, hfirst⟩ : ∃ w,
      Run Calls twoKernels [.link .in 0 "out" 1 nullPortValue 0] w ∧ w.allKernels = {1, 0} ∧
      w.sourceKernels = {0} ∧ w.next = 2 ∧ (checkEdges [0, 1]).run w = .ok ⟨⟩ w ∧ w.Unquoted ∧
      ∀ k ∈ w.allKernels, ∀ e ∈ w.edgesFrom k, k = 0 :=
    ⟨_, .single ⟨⟨by decide, by decide⟩, .inl ⟨_, rfl⟩⟩, rfl, rfl, rfl, rfl,
      ⟨by decide +kernel, by decide +kernel⟩, by decide +kernel⟩
  have hmem : ∀ k, k ∈ [0, 1] ↔ k ∈ w.allKernels := by simp [hall, or_comm]
  have hsources : ∀ k, k ∈ [0] ↔ k ∈ w.sourceKernels := by simp [hsource]
  have hfuel : w.next + 2 ≤ 4 := by rw [hnext]
  have hnumbered : Numbered [.default, .default] w.allKernels := by
    rw [hall]
    exact numbered_of_default (by decide)
  have hreached : w.AllReached [0] := by
    intro k hk e he
    rw [hfirst k hk e he]
    exact ⟨0, List.mem_singleton_self 0, .refl⟩
  have hmade : [Construction.default, .default].length = w.next := by
    rw [hnext]
    rfl
  obtain ⟨hstream, hgraph⟩ := dot_is_graph_iff twoKernels_unlinked rfl hrun hmade (by decide) hmem
    hcheck (by decide) hsources 10 10 hfuel
  exact ⟨w, hrun, _, hstream, hgraph.mpr ⟨hunquoted, hnumbered, hreached⟩⟩

theorem twoRelays_unlinked : twoRelays.Unlinked := ⟨fun _ _ => rfl, rfl, rfl⟩

/-- A kernel over existing memory and the next kernel are written under the same number; and two
kernels in a cycle are written without the connections between them. -/
theorem dot_not_graph :
    (∃ w, Run Calls twoKernels [.link .in 0 "out" 1 nullPortValue 0] w ∧
      (checkEdges [0, 1]).run w = .ok ⟨⟩ w ∧
      ∃ l : List Statement, (runDot (getId [.existingMemory, .default]) 10 10 4 [0, 1] [0]).run
          { world := w } = .ok true { world := w, stream := render 10 10 l } ∧
        l.filterMap Statement.nodeId = [0, 0] ∧
        ¬w.DotIsGraph (getId [.existingMemory, .default]) l) ∧
    ∃ w, Run Calls twoRelays [.link .in 0 "out" 1 "in" 0, .link .in 1 "out" 0 "in" 0] w ∧
      (checkEdges [0, 1]).run w = .ok ⟨⟩ w ∧
      ∃ l : List Statement, (runDot (getId [.default, .default]) 10 10 4 [0, 1] []).run
          { world := w } = .ok true { world := w, stream := render 10 10 l } ∧
        l.filterMap Statement.edgeIds = [] ∧ ¬w.DotIsGraph (getId [.default, .default]) l := by
  constructor
  · obtain ⟨w, hrun, hnext, hcheck⟩ : ∃ w,
        Run Calls twoKernels [.link .in 0 "out" 1 nullPortValue 0] w ∧ w.next = 2 ∧
        (checkEdges [0, 1]).run w = .ok ⟨⟩ w :=
      ⟨_, .single ⟨⟨by decide, by decide⟩, .inl ⟨_, rfl⟩⟩, rfl, rfl⟩
    have hm : w.Matched := (evolves_of_run hrun).2 twoKernels_unlinked.matched
    have hlt : ∀ k ∈ [0], k < w.next := by simp [hnext]
    have hids : (w.dotStatements (getId [.existingMemory, .default]) [0, 1] [0]).filterMap
        Statement.nodeId = [0, 0] := nodeIds_dotStatements _
    refine ⟨w, hrun, hcheck, _, runDot_run hm.closed hlt (by decide) 10 10 (by rw [hnext]), hids, ?_⟩
    intro h
    have hdistinct := h.distinct
    rw [hids] at hdistinct
    exact absurd hdistinct (by decide)
  · obtain ⟨w, hrun, hnext, hcheck, hedge, hmet⟩ : ∃ w,
        Run Calls twoRelays [.link .in 0 "out" 1 "in" 0, .link .in 1 "out" 0 "in" 0] w ∧ w.next = 2 ∧
        (checkEdges [0, 1]).run w = .ok ⟨⟩ w ∧
        (∃ k ∈ w.allKernels, (⟨0, .output, "out"⟩, ⟨1, .input, "in"⟩) ∈ w.edgesFrom k) ∧
        w.edgesMet [] = [] :=
      ⟨_, .cons ⟨⟨by decide, by decide⟩, .inl ⟨_, rfl⟩⟩ (.single ⟨⟨by decide, by decide⟩,
        .inl ⟨_, rfl⟩⟩), rfl, rfl,
        ⟨0, by decide, World.mem_edgesFrom.mpr ⟨"out", by decide, rfl, rfl⟩⟩, rfl⟩
    have hm : w.Matched := (evolves_of_run hrun).2 twoRelays_unlinked.matched
    have hids : (w.dotStatements (getId [.default, .default]) [0, 1] []).filterMap
        Statement.edgeIds = [] := by
      rw [edgeIds_dotStatements, hmet, List.map_nil]
    have hlt : ∀ k ∈ ([] : List KernelId), k < w.next := fun _ hk => absurd hk List.not_mem_nil
    refine ⟨w, hrun, hcheck, _, runDot_run hm.closed hlt List.nodup_nil 10 10 (by rw [hnext]), hids,
      ?_⟩
    intro h
    obtain ⟨es, -, hall, hwritten⟩ := h.edges
    have hnone : es = [] := List.map_eq_nil_iff.mp (hwritten.symm.trans hids)
    have hmem := (hall _).mpr hedge
    rw [hnone] at hmem
    cases hmem

end RaftLib.Graph
