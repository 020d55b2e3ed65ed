/-
# `RaftLib.Graph.MapBase` -- `MapBase::link`

`mapbase.hpp` and `mapbase.cpp`: a call finds the two ports, writes the buffer size, and joins them.
The keepers are updated first, so a call that throws has entered its kernels all the same.
-/
import RaftLib.Graph.Kernel

namespace RaftLib.Graph

open RaftLib.Logic.Program

/-- `raft::order::spec`. -/
inductive Order where
  | in | out
  deriving DecidableEq, Repr

/-- `kernel_pair_t`. -/
structure KernelPair where
  source : List KernelId := []
  destination : List KernelId := []
  deriving DecidableEq, Repr

/-- `MapBase::updateKernels`, on the keepers. -/
def World.withKernels (w : World) (a b : KernelId) : World :=
  { w with
    sourceKernels :=
      if !(w.ports a .input).hasPorts then insert a w.sourceKernels else w.sourceKernels
    dstKernels := if !(w.ports b .output).hasPorts then insert b w.dstKernels else w.dstKernels
    allKernels := insert b (insert a w.allKernels)
    internallyCreatedKernels :=
      let s := if (w.kernel a).internalAlloc then insert a w.internallyCreatedKernels
        else w.internallyCreatedKernels
      if (w.kernel b).internalAlloc then insert b s else s }

def updateKernels (a b : KernelId) : Prog PUnit := modify fun w => w.withKernels a b

/-- `MapBase::portNotFound`, as the handler it is called from. -/
def portNotFound (src : Bool) (k : KernelId) : Err → Prog PortRef
  | .ambiguousPortAssignment what => do
      let name := ((← get).kernel k).className
      if src then
        throw (.ambiguousPortAssignment (what ++ "\n" ++ "Output port from source kernel (" ++ name ++
          ") " ++ "has more than a single port."))
      else
        throw (.ambiguousPortAssignment (what ++ "\n" ++ "Input port from destination kernel (" ++
          name ++ ") " ++ "has more than a single port."))
  | e => throw e

/-- The discovery of one of the two ports of `link`. -/
def discover (src : Bool) (k : KernelId) (s : Side) (port : PortKey) : Prog PortRef :=
  if port = nullPortValue then tryCatch (getPortInfo k s) (portNotFound src k)
  else getPortInfoFor k s port

def setFixedBufferSize (r : PortRef) (buffer : Nat) : Prog PUnit :=
  modify fun w => w.setInfo r { w.info r with fixedBufferSize := buffer }

/-- What `join` writes: each port has the other one for its other end. -/
def World.joined (w : World) (a b : PortRef) : World :=
  let w := w.setInfo a { w.info a with otherKernel := some b.kernel, otherName := b.key }
  w.setInfo b { w.info b with otherKernel := some a.kernel, otherName := a.key }

/-- `MapBase::join`. -/
def join (a b : PortRef) : Prog PUnit := do
  let w ← get
  if (w.info a).type ≠ (w.info b).type then
    throw (.portTypeMismatch ("Error found when attempting to join kernel \"" ++
      (w.kernel a.kernel).className ++ "\" with port " ++ "[" ++ a.key ++ "] to " ++ " kernel \"" ++
      (w.kernel b.kernel).className ++ "\" with port [" ++ b.key ++ "], their types must match. " ++
      " currently their types are (" ++ (w.info a).type ++ " -and- " ++ (w.info b).type ++ ")."))
  else if (w.info a).otherKernel ≠ none then
    throw (.portDoubleInitialize "port double initialized with: ")
  else if (w.info b).otherKernel ≠ none then
    throw (.portDoubleInitialize "port double initialized with: ")
  else set (w.joined a b)

/-- `MapBase::set_order`. -/
def setOrder (t : Order) (a b : PortRef) : Prog PUnit :=
  modify fun w =>
    let w := w.setInfo a { w.info a with outOfOrder := decide (t = .out) }
    w.setInfo b { w.info b with outOfOrder := decide (t = .out) }

/-- `MapBase::link`. -/
def link (t : Order) (a : KernelId) (aPort : PortKey) (b : KernelId) (bPort : PortKey)
    (buffer : Nat) : Prog KernelPair := do
  updateKernels a b
  let portInfoA ← discover true a .output aPort
  setFixedBufferSize portInfoA buffer
  let portInfoB ← discover false b .input bPort
  setFixedBufferSize portInfoB buffer
  join portInfoA portInfoB
  setOrder t portInfoA portInfoB
  return { source := [a], destination := [b] }

end RaftLib.Graph
