/-
# `RaftLib.Graph.Kernel` -- kernels, their ports, and the state a map is built in

The data behind `raft::map`: `raft::kernel` (`kernel.hpp`), its two `Port` containers (`port.hpp`,
`portmap_t.hpp`) and `PortInfo` (`port_info.hpp`), with string port names, the default of the build.
Kernels live under numbers; a port is a kernel, a side and a key, and what `PortInfo` calls
`my_kernel` and `my_name` are the kernel and the key of its place.

A call on the graph is a program with state `World` and exceptions `Err`: what was written before a
`throw` stays written.
-/
import Mathlib.Data.Finset.Insert
import Mathlib.Logic.Function.Basic
import RaftLib.Logic.Program

namespace RaftLib.Graph

open RaftLib.Logic.Program

/-! ## Ports -/

abbrev KernelId := Nat

/-- `raft::port_key_type`, with `STRING_NAMES`. -/
abbrev PortKey := String

/-- `raft::null_port_value`. -/
def nullPortValue : PortKey := ""

/-- `std::type_index`, by the name of the type. -/
abbrev TypeIndex := String

abbrev FifoId := Nat

/-- The container a port is in: `kernel::input` or `kernel::output`. -/
inductive Side where
  | input | output
  deriving DecidableEq, Repr

/-- Where a `PortInfo` is kept. -/
structure PortRef where
  kernel : KernelId
  side : Side
  key : PortKey
  deriving DecidableEq, Repr

/-- `PortInfo`. -/
structure PortInfo where
  type : TypeIndex
  otherKernel : Option KernelId := none
  otherName : PortKey := nullPortValue
  outOfOrder : Bool := false
  existingBuffer : Option Nat := none
  nitems : Nat := 0
  startIndex : Nat := 0
  fixedBufferSize : Nat := 0
  fifo : Option FifoId := none
  deriving DecidableEq, Repr

/-- The keys of `portmap.map`, in the order in which its iterators give them. -/
structure PortMap where
  keys : List PortKey
  nodup : keys.Nodup

namespace PortMap

def empty : PortMap := ⟨[], List.nodup_nil⟩

def one (key : PortKey) : PortMap := ⟨[key], List.nodup_singleton key⟩

/-- `Port::count`. -/
def count (m : PortMap) : Nat := m.keys.length

/-- `Port::hasPorts`. -/
def hasPorts (m : PortMap) : Bool := decide (m.count > 0)

end PortMap

/-- Two ports. -/
def twoPorts : PortMap := ⟨["0", "1"], by decide⟩

/-! ## Kernels -/

/-- `raft::kernel`; `className` is what `typeid` has for it, and `cloneable` says that its class has
overridden `clone`. -/
structure Kernel where
  className : String
  input : PortMap
  output : PortMap
  cloneable : Bool := true
  internalAlloc : Bool := false
  enabledPort : List PortKey := []

def Kernel.ports (k : Kernel) : Side → PortMap
  | .input => k.input
  | .output => k.output

/-! ## The state of a map -/

/-- The exceptions, with their text, and the two ways to lose defined behaviour: an assertion that
does not hold, and an iterator read or moved past the end. -/
inductive Err where
  | portNotFound (what : String)
  | ambiguousPortAssignment (what : String)
  | portTypeMismatch (what : String)
  | portDoubleInitialize (what : String)
  | portUnconnected (what : String)
  | cloneNotImplemented (what : String)
  | invalidTopologyOperation (what : String)
  | assertion
  | pastEnd
  deriving DecidableEq, Repr

/-- The kernels, their ports, and the four keepers of `MapBase`. Kernels from `next` on are yet to be
made. -/
structure World where
  kernel : KernelId → Kernel
  info : PortRef → PortInfo
  next : KernelId
  sourceKernels : Finset KernelId := ∅
  dstKernels : Finset KernelId := ∅
  allKernels : Finset KernelId := ∅
  internallyCreatedKernels : Finset KernelId := ∅

abbrev Prog := EStateM Err World

namespace World

def ports (w : World) (k : KernelId) (s : Side) : PortMap := (w.kernel k).ports s

/-- Write the `PortInfo` of a port. -/
def setInfo (w : World) (r : PortRef) (i : PortInfo) : World :=
  { w with info := Function.update w.info r i }

section SetInfo

variable (w : World) (r : PortRef) (i : PortInfo)

@[simp] theorem setInfo_info_self : (w.setInfo r i).info r = i := by simp [setInfo]

theorem setInfo_info_of_ne {q : PortRef} (h : q ≠ r) : (w.setInfo r i).info q = w.info q := by
  simp [setInfo, h]

theorem setInfo_setInfo (j : PortInfo) : (w.setInfo r i).setInfo r j = w.setInfo r j := by
  simp [setInfo]

theorem setInfo_comm {q : PortRef} (h : r ≠ q) (j : PortInfo) :
    (w.setInfo r i).setInfo q j = (w.setInfo q j).setInfo r i := by
  simp only [setInfo, Function.update_comm h]

end SetInfo

end World

/-! ### Looking ports up -/

/-- `Port::getPortInfoFor`, and where the `PortInfo` is. -/
def getPortInfoFor (k : KernelId) (s : Side) (key : PortKey) : Prog PortRef := do
  if key ∈ ((← get).ports k s).keys then return ⟨k, s, key⟩
  else throw (.portNotFound ("Port not found for name \"" ++ key ++ "\""))

/-- `Port::getPortInfo`: the one port there is. -/
def getPortInfo (k : KernelId) (s : Side) : Prog PortRef := do
  match ((← get).ports k s).keys with
  | [key] => return ⟨k, s, key⟩
  | [] => throw (.portNotFound ("At least one port must be defined, none were for kernel class \"" ++
      ((← get).kernel k).className ++ "\""))
  | _ => throw (.ambiguousPortAssignment "One port expected, more than one found!")

/-! ### Copies -/

/-- A port of a copy: the copy constructor of the class adds the same ports again, unconnected. -/
def PortInfo.copied (i : PortInfo) : PortInfo :=
  { type := i.type, existingBuffer := i.existingBuffer, nitems := i.nitems, startIndex := i.startIndex }

def Kernel.copied (k : Kernel) : Kernel := { k with internalAlloc := true, enabledPort := [] }

/-- The state with a copy of `k` under the next number. -/
def World.withClone (w : World) (k : KernelId) : World :=
  { w with
    kernel := Function.update w.kernel w.next (w.kernel k).copied
    info := fun r => if r.kernel = w.next then (w.info { r with kernel := k }).copied else w.info r
    next := w.next + 1 }

/-- `kernel::clone`. -/
def clone (k : KernelId) : Prog KernelId := do
  let w ← get
  if (w.kernel k).cloneable then
    set (w.withClone k)
    return w.next
  else throw (.cloneNotImplemented
    "Sub-class has failed to implement clone function, please use the CLONE() macro to add functionality")

namespace World

variable (w : World) (k : KernelId)

@[simp] theorem withClone_next : (w.withClone k).next = w.next + 1 := rfl

theorem withClone_kernel_self : (w.withClone k).kernel w.next = (w.kernel k).copied := by
  simp [withClone]

theorem withClone_kernel_of_ne {j : KernelId} (h : j ≠ w.next) :
    (w.withClone k).kernel j = w.kernel j := by
  simp [withClone, h]

theorem withClone_info_of_ne {r : PortRef} (h : r.kernel ≠ w.next) :
    (w.withClone k).info r = w.info r := by
  simp [withClone, h]

theorem withClone_info_self {r : PortRef} (h : r.kernel = w.next) :
    (w.withClone k).info r = (w.info { r with kernel := k }).copied := by
  simp [withClone, h]

/-- A copy has the ports of its original. -/
theorem withClone_ports_self (s : Side) : (w.withClone k).ports w.next s = w.ports k s := by
  rw [ports, withClone_kernel_self]
  cases s <;> rfl

theorem withClone_ports_of_ne {j : KernelId} (h : j ≠ w.next) (s : Side) :
    (w.withClone k).ports j s = w.ports j s := by
  rw [ports, withClone_kernel_of_ne w k h]
  rfl

end World

end RaftLib.Graph
