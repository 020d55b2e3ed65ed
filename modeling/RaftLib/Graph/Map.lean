/-
# `RaftLib.Graph.Map` -- `map::operator +=`

`map.cpp`: the chain builder walks the list of pairs and carries the kernels at its end along, in
groups. A split opens a group for each kernel, a join closes groups, and kernels that are needed more
than once are cloned. Its loops are written as folds over the containers they run over; `Locals` is
what the loops of one `inline_*` function change: the groups being filled, and the pair at hand, whose
ends and names are overwritten before each link.
-/
import Mathlib.Algebra.Group.Nat.Defs
import RaftLib.Graph.MapBase
import RaftLib.Graph.Kpair

namespace RaftLib.Graph

open RaftLib.Logic.Program

/-! ## Groups -/

abbrev Groups := List (List KernelId)

namespace Groups

/-- `push_back` of an empty group. -/
def pushEmpty (gs : Groups) : Groups := gs ++ [[]]

/-- `groups[ 0 ]->size() == 0`. -/
def firstEmpty (gs : Groups) : Bool := (gs.headD []).isEmpty

/-- `groups[ 0 ]->emplace_back( k )`. -/
def emplaceFirst (gs : Groups) (k : KernelId) : Groups :=
  match gs with
  | [] => []
  | g :: gs => (g ++ [k]) :: gs

/-- `groups.back()->emplace_back( k )`. -/
def emplaceBack (gs : Groups) (k : KernelId) : Groups := gs.dropLast ++ [gs.getLastD [] ++ [k]]

end Groups

structure Locals where
  tempGroups : Groups := []
  next : Kpair

/-- `map::joink`. -/
def joink (next : Kpair) : Prog PUnit := do
  let _ ← link (if next.outOfOrder then .out else .in) next.src next.srcName next.dst next.dstName
    next.bufferSize

/-- `k` itself, or a copy of it where one is needed. -/
def cloneIf (fresh : Bool) (k : KernelId) : Prog KernelId := if fresh then clone k else pure k

/-! ## `inline_cont` -/

/-- The body of the inner loop. -/
def contKernel (l : Locals) (kernel : KernelId) : Prog Locals := do
  if l.tempGroups.firstEmpty then
    joink l.next
    return { l with tempGroups := l.tempGroups.emplaceFirst l.next.dst }
  else
    let dstClone ← clone l.next.dst
    let next := { l.next with src := kernel, dst := dstClone }
    joink next
    return { tempGroups := l.tempGroups.emplaceBack dstClone, next := next }

/-- `map::inline_cont`. -/
def inlineCont (groups : Groups) (next : Kpair) : Prog Locals :=
  groups.foldlM (fun l group => group.foldlM contKernel { l with tempGroups := l.tempGroups.pushEmpty })
    { next := next }

/-! ## `inline_split` -/

/-- The body of the loops over the output ports of `kernel`; `fresh` tells whether they clone. -/
def splitPort (kernel : KernelId) (fresh : Bool) (l : Locals) (name : PortKey) : Prog Locals := do
  let next := { l.next with src := kernel, srcName := name, hasSrcName := true }
  let dst ← cloneIf fresh next.dst
  let next := { next with dst := dst }
  joink next
  return { tempGroups := l.tempGroups.emplaceBack dst, next := next }

/-- The body of the loop over the kernels. -/
def splitKernel (l : Locals) (kernel : KernelId) : Prog Locals := do
  let l := { l with tempGroups := l.tempGroups.pushEmpty }
  let keys := ((← get).ports kernel .output).keys
  if l.tempGroups.firstEmpty then
    match keys with
    | [] => return l
    | begin' :: keys => keys.foldlM (splitPort kernel true) (← splitPort kernel false l begin')
  else keys.foldlM (splitPort kernel true) l

/-- `map::inline_split`, and the stack with the number of out-edges on it. -/
def inlineSplit (splitStack : List Nat) (groups : Groups) (next : Kpair) :
    Prog (List Nat × Locals) := do
  let l ← groups.foldlM (fun l group => group.foldlM splitKernel l) { next := next }
  return (next.srcOutCount :: splitStack, l)

/-! ## `inline_join` -/

/-- `joinfunc`: the input ports `keys` of the destination take the kernels of the group, from `it` on. -/
def joinFunc : List PortKey → List KernelId → Kpair → Prog Kpair
  | [], _, n => return n
  | _ :: _, [], _ => throw .pastEnd
  | key :: keys, kernel :: it, n => do
      let n := { n with src := kernel, dstName := key, hasDstName := true }
      joink n
      joinFunc keys it n

/-- `if( count <= 0 )`: a new group, for as many kernels as the split had out-edges. `count` is how
many more the last group takes. -/
def newBatch (top count : Nat) (gs : Groups) : Nat × Groups :=
  if count = 0 then (top, gs.pushEmpty) else (count, gs)

/-- `count--`, on a `std::size_t`. -/
def decrement (count : Nat) : Nat := if count = 0 then 2 ^ 64 - 1 else count - 1

/-- The body of the loop over the groups. -/
def joinGroup (top : Nat) (s : Nat × Locals) (group : List KernelId) : Prog (Nat × Locals) := do
  let batch := newBatch top s.1 s.2.tempGroups
  let dst ← cloneIf (!batch.2.firstEmpty) s.2.next.dst
  let keys := ((← get).ports dst .input).keys
  let next ← joinFunc keys group { s.2.next with dst := dst }
  return (decrement batch.1, { tempGroups := batch.2.emplaceBack dst, next := next })

/-- `map::inline_join`, and the stack without its top. -/
def inlineJoin (splitStack : List Nat) (groups : Groups) (next : Kpair) :
    Prog (List Nat × Locals) := do
  match splitStack with
  | [] => throw .pastEnd
  | top :: rest =>
      let (_, l) ← groups.foldlM (joinGroup top) (0, { next := next })
      return (rest, l)

/-! ## `inline_dup_join` -/

/-- What `inline_dup_join` changes: the one group, the pair at hand, and the first pair of the list
where that is another one. -/
structure DupLocals where
  gp : List KernelId
  next : Kpair
  head : Option Kpair

/-- The body of the loop over the input ports, from the second port on. -/
def dupPort (l : DupLocals) (name : PortKey) : Prog DupLocals := do
  match l.head with
  | some headNext =>
      -- the loop that is to walk from the head to `next` assigns `next` to its variable at the end of
      -- its body, which so runs once
      let src ← clone headNext.src
      let dst ← clone headNext.dst
      let headNext := { headNext with src := src, dst := dst }
      joink headNext
      let next := { l.next with dstName := name, hasDstName := true, src := dst }
      joink next
      return { gp := l.gp ++ [src], next := next, head := some headNext }
  | none =>
      let src ← clone l.next.src
      let next := { l.next with src := src, dstName := name, hasDstName := true }
      joink next
      return { gp := l.gp ++ [src], next := next, head := none }

/-- `map::inline_dup_join`, with the groups it leaves, the new ones, and the first pair. -/
def inlineDupJoin (groups : Groups) (next : Kpair) (head : Option Kpair) :
    Prog (Groups × Locals × Option Kpair) := do
  match groups with
  | [[k]] =>
      match ((← get).ports next.dst .input).keys with
      -- the assertion at the end: as many sources as there are input ports
      | [] => throw .assertion
      | begin' :: keys =>
          let next := { next with dstName := begin', hasDstName := true }
          joink next
          let l ← keys.foldlM dupPort { gp := [k], next := next, head := head }
          return ([l.gp], { tempGroups := [[next.dst]], next := l.next }, l.head)
  | _ => throw .assertion

/-! ## The loop over the chain -/

/-- The local variables of `operator +=`; `head` is the first pair of the list, as it is by now, once
the loop is past it. -/
structure AddState where
  groups : Groups
  stack : List Op := []
  splitOutEdges : List Nat := []
  retKernelPair : KernelPair := {}
  initialized : Bool := false
  head : Option Kpair := none

/-- `next_link_type`. -/
def nextLinkType (k : Kpair) : Prog Op :=
  match k.splitTo, k.joinFrom with
  | true, false => return .split
  | false, true => return .join
  | false, false => return .cont
  | true, true => throw (.invalidTopologyOperation
      "Invalid ordering of topology operators \"<=\", \">>\", \">=.\" Please check and try again\n")

namespace AddState

/-- The end of the loop's body: the sources are noted once, and the new groups take the place of the
old ones. -/
def finish (s : AddState) (l : Locals) : AddState :=
  let ret := if s.initialized then s.retKernelPair
    else { s.retKernelPair with source := s.retKernelPair.source ++ s.groups.flatten }
  { s with
    groups := l.tempGroups
    retKernelPair := ret
    initialized := true
    head := some (s.head.getD l.next) }

/-- The body of the loop. -/
def step (s : AddState) (next : Kpair) : Prog AddState := do
  match ← nextLinkType next with
  | .cont =>
      let l ← inlineCont s.groups next
      return s.finish l
  | .split =>
      let (edges, l) ← inlineSplit s.splitOutEdges s.groups next
      return { s with stack := .split :: s.stack, splitOutEdges := edges }.finish l
  | .join =>
      match s.stack with
      | [] =>
          let (groups, l, head) ← inlineDupJoin s.groups next s.head
          return { s with
            groups := groups
            retKernelPair := { s.retKernelPair with source := [] }
            initialized := false
            head := head }.finish l
      | .split :: stack =>
          let (edges, l) ← inlineJoin s.splitOutEdges s.groups next
          return { s with stack := stack, splitOutEdges := edges }.finish l
      | _ => throw .assertion

end AddState

/-- The loop of `operator +=`, from the head of the list. -/
def addLoop (src : KernelId) (chain : List Kpair) : Prog AddState :=
  chain.foldlM AddState.step { groups := [[src]] }

/-- `map::operator +=`, on the pairs from the head to the end. -/
def addAssign : List Kpair → Prog KernelPair
  | [] => throw .assertion
  | next :: chain => do
      let s ← addLoop next.src (next :: chain)
      return { s.retKernelPair with
        destination := s.retKernelPair.destination ++ s.groups.flatten }

end RaftLib.Graph
