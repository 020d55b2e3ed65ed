/-
# `RaftLib.Graph.Kpair` -- `kpair` and the operators `>>`, `<=` and `>=`

`kpair.cpp`: an operator makes a pair on the heap and writes pointers into the pairs it is given. An
expression is evaluated as C++ does it, from its grouping: the operands first, then the overload that
their types pick. The three kinds of operand are a kernel, a wrapper around a kernel that was made in
place, and the pair that another operator returned.
-/
import RaftLib.Graph.Kernel

namespace RaftLib.Graph

/-! ## Pairs on the heap -/

abbrev KpairId := Nat

/-- `kpair`. -/
structure Kpair where
  next : Option KpairId := none
  head : KpairId
  src : KernelId
  hasSrcName : Bool := false
  srcName : PortKey := nullPortValue
  dst : KernelId
  hasDstName : Bool := false
  dstName : PortKey := nullPortValue
  bufferSize : Nat := 0
  splitTo : Bool := false
  srcOutCount : Nat := 0
  joinFrom : Bool := false
  dstInCount : Nat := 0
  outOfOrder : Bool := false

/-- The kernels an expression is over, and the pairs made so far. -/
structure Pairs where
  kernel : KernelId → Kernel
  pair : KpairId → Kpair
  next : KpairId := 0

abbrev PairProg := EStateM Err Pairs

def Pairs.setPair (h : Pairs) (p : KpairId) (x : Kpair) : Pairs :=
  { h with pair := Function.update h.pair p x }

def Pairs.setKernel (h : Pairs) (k : KernelId) (x : Kernel) : Pairs :=
  { h with kernel := Function.update h.kernel k x }

/-! ### Names -/

/-- `kernel::operator[]`. -/
def bracket (k : KernelId) (portname : PortKey) : PairProg PUnit := do
  let x := (← get).kernel k
  if x.enabledPort.length < 2 then
    modify fun h => h.setKernel k { x with enabledPort := x.enabledPort ++ [portname] }
  else throw (.ambiguousPortAssignment "too many ports added with: ")

/-- `kernel::getEnabledPort`. -/
def getEnabledPort (k : KernelId) : PairProg PortKey := do
  let x := (← get).kernel k
  match x.enabledPort with
  | [] => return nullPortValue
  | front :: rest =>
      modify fun h => h.setKernel k { x with enabledPort := rest }
      return front

/-! ### Constructors -/

namespace Kpair

/-- `kpair( kernel &a, kernel &b )`, for which the other constructors delegate to it. -/
def make (a b : KernelId) : PairProg KpairId := do
  let srcName ← getEnabledPort a
  let dstName ← getEnabledPort b
  let h ← get
  set { h.setPair h.next {
      head := h.next
      src := a
      hasSrcName := decide (srcName ≠ nullPortValue)
      srcName := srcName
      dst := b
      hasDstName := decide (dstName ≠ nullPortValue)
      dstName := dstName
      srcOutCount := (h.kernel a).output.count
      dstInCount := (h.kernel b).input.count } with next := h.next + 1 }
  return h.next

def modifyPair (p : KpairId) (f : Kpair → Kpair) : PairProg PUnit :=
  modify fun h => h.setPair p (f (h.pair p))

/-- `kpair( kernel &a, kernel &b, split, join )`. -/
def ofKernels (a b : KernelId) (split join : Bool) : PairProg KpairId := do
  let this ← make a b
  modifyPair this fun x => { x with splitTo := split, joinFrom := join }
  return this

/-- `kpair( kpair &a, kernel &b, split, join )`. -/
def ofPairKernel (a : KpairId) (b : KernelId) (split join : Bool) : PairProg KpairId := do
  let this ← make ((← get).pair a).dst b
  let head := ((← get).pair a).head
  modifyPair this fun x => { x with head := head }
  modifyPair a fun x => { x with next := some this }
  modifyPair this fun x => { x with splitTo := split, joinFrom := join }
  return this

/-- `kpair( kernel &a, kpair &n, split, join )`. -/
def ofKernelPair (a : KernelId) (n : KpairId) (split join : Bool) : PairProg KpairId := do
  let this ← make a ((← get).pair n).src
  modifyPair this fun x => { x with head := this, next := some n, splitTo := split, joinFrom := join }
  return this

/-- `kpair( kpair &a, kpair &b, split, join )`. -/
def ofPairs (a b : KpairId) (split join : Bool) : PairProg KpairId := do
  let this ← make ((← get).pair a).dst ((← get).pair b).src
  let head := ((← get).pair a).head
  modifyPair this fun x => { x with head := head }
  modifyPair a fun x => { x with next := some this }
  modifyPair b fun x => { x with head := head }
  modifyPair this fun x => { x with next := some b, splitTo := split, joinFrom := join }
  return this

end Kpair

/-! ## Expressions -/

/-- An operand as it is written: a kernel with the port names in brackets behind it, or a wrapper. -/
inductive Operand where
  | kernel (k : KernelId) (names : List PortKey)
  | wrapper (k : KernelId)
  deriving DecidableEq, Repr

def Operand.id : Operand → KernelId
  | .kernel k _ => k
  | .wrapper k => k

def Operand.names : Operand → List PortKey
  | .kernel _ names => names
  | .wrapper _ => []

/-- The operators; `split` is `<=` and `join` is `>=`. -/
inductive Op where
  | cont | split | join
  deriving DecidableEq, Repr

/-- An expression with its grouping. -/
inductive Expr where
  | operand (o : Operand)
  | bin (op : Op) (l r : Expr)
  deriving DecidableEq, Repr

/-- The C++ type of an operand: `kernel&`, `kernel_wrapper&&` or `kpair&`. -/
inductive Ty where
  | kernel | wrapper | pair
  deriving DecidableEq, Repr

/-- Is there an overload for operands of these types? -/
def Op.overload : Op → Ty → Ty → Bool
  | .cont, .kernel, .kernel | .cont, .wrapper, .wrapper | .cont, .kernel, .wrapper
  | .cont, .pair, .kernel | .cont, .pair, .wrapper => true
  | .split, .kernel, .kernel | .split, .wrapper, .wrapper | .split, .kernel, .pair
  | .split, .wrapper, .pair => true
  | .join, .kernel, .kernel | .join, .wrapper, .wrapper | .join, .pair, .wrapper
  | .join, .pair, .kernel | .join, .pair, .pair | .join, .kernel, .pair | .join, .wrapper, .pair => true
  | _, _, _ => false

/-- The type of an expression, if it type-checks. -/
def Expr.type : Expr → Option Ty
  | .operand (.kernel _ _) => some .kernel
  | .operand (.wrapper _) => some .wrapper
  | .bin op l r =>
      match l.type, r.type with
      | some a, some b => if op.overload a b then some .pair else none
      | _, _ => none

/-- The flags that the operators pass on. -/
def Op.splitFlag (op : Op) : Bool := decide (op = .split)
def Op.joinFlag (op : Op) : Bool := decide (op = .join)

/-- The value of an operand. -/
inductive Value where
  | kernel (k : KernelId)
  | pair (p : KpairId)
  deriving DecidableEq, Repr

def Operand.eval (o : Operand) : PairProg Value := do
  o.names.forM (bracket o.id)
  return .kernel o.id

/-- The overload that the operands pick. -/
def Op.apply (op : Op) : Value → Value → PairProg KpairId
  | .kernel a, .kernel b => Kpair.ofKernels a b op.splitFlag op.joinFlag
  | .pair a, .kernel b => Kpair.ofPairKernel a b op.splitFlag op.joinFlag
  | .kernel a, .pair n => Kpair.ofKernelPair a n op.splitFlag op.joinFlag
  | .pair a, .pair b => Kpair.ofPairs a b op.splitFlag op.joinFlag

/-- The left operand is evaluated first; C++ leaves that open for `<=` and `>=`. -/
def Expr.eval : Expr → PairProg Value
  | .operand o => o.eval
  | .bin op l r => do
      let a ← l.eval
      let b ← r.eval
      return .pair (← op.apply a b)

end RaftLib.Graph
