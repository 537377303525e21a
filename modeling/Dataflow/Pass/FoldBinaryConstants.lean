import Dataflow.Graph.Edit.Constant
import Dataflow.Node.Constant
import Dataflow.Op.Arithmetic
import Dataflow.Pass

/- An addition, subtraction or product of two floating-point constants is replaced by a constant
   with the result, element by element after broadcasting. The result is kept in host memory if
   one of the operands is. Operands that cannot be read or do not broadcast leave the node as it
   is; an array that cannot be allocated ends the pass. -/

namespace Dataflow.Pass.FoldBinaryConstants

/-- The arithmetic of a node, and the two nodes that it reads. -/
structure Operands where
  arithmetic : Arithmetic
  leftNode : Node
  rightNode : Node

/-- The arithmetic of a node, and the two constants that it reads. -/
structure Operation extends Operands where
  left : DenseArray Binary32
  right : DenseArray Binary32

/-- The node that a data reference to port 0 names. -/
def operand? (g : Graph) (input : String) : Option Node :=
  let r := Reference.parse input
  if r.isData ∧ r.port = 0 then g.node? r.node else none

def operands? (g : Graph) (n : Node) : Option Operands := do
  let arithmetic ← Arithmetic.ofOp? n.op
  match n.inputs with
  | [left, right] => return { arithmetic, leftNode := ← operand? g left, rightNode := ← operand? g right }
  | _ => none

/-- Two nodes as constants. The right one is read only if the left one could be. -/
def Operands.read (o : Operands) : Except Error (Option Operation) := do
  let some left ← o.leftNode.floatConstant? | return none
  let some right ← o.rightNode.floatConstant? | return none
  return some { o with left, right }

def operation? (g : Graph) (n : Node) : Except Error (Option Operation) :=
  match operands? g n with
  | none => .ok none
  | some o => o.read

def Operation.result? (o : Operation) : Except Error (Option (DenseArray Binary32)) :=
  DenseArray.zipBroadcast? Storage.float.width o.arithmetic.apply o.left o.right

def Operation.placement (o : Operation) : Placement :=
  if o.leftNode.op = Op.hostConst ∨ o.rightNode.op = Op.hostConst then .accelerator else .cpu

/-- The constant that a node folds into. -/
def folded? (g : Graph) (n : Node) : Except Error (Option Node) := do
  let some o ← operation? g n | return none
  let some a ← o.result? | return none
  Error.unlessRefused (Node.constant n.name (.float a) .float none o.placement)

def foldedAt? (g : Graph) (name : String) : Except Error (Option Node) :=
  match g.node? name with
  | none => .ok none
  | some n => folded? g n

def attempt (name : String) : Edit PassResult := do
  let before ← get
  match ← foldedAt? before name with
  | none => return .empty
  | some constant =>
    Graph.fold constant name
    -- Constants that fed only this node are gone with it; the difference counts them.
    return { PassResult.empty with matched := 1 }.record name (before.size - (← get).size)

end FoldBinaryConstants

def foldBinaryConstants : Pass where
  name := "FoldBinaryConstants"
  sites g := (g.nodesByOps Op.foldables).map Node.name
  attempt := FoldBinaryConstants.attempt

end Dataflow.Pass
