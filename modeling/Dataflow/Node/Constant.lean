import Dataflow.Node

/- A constant node carries its element type and its literal as attributes. Here such nodes are
   made, and the value they hold is read. -/

namespace Dataflow

/-- Where the data of a constant lives. -/
inductive Placement where
  | cpu
  | accelerator
  deriving DecidableEq, Repr

def Placement.op : Placement → String
  | .cpu => Op.const
  | .accelerator => Op.hostConst

namespace Node

def valueKey : String := "value"

def elementTypeKey : String := "dtype"

def constant (name : String) (value : Value) (t : ElementType) (dims : Option (List Int64))
    (placement : Placement) : Except Error Node :=
  ((make placement.op name []).withAttribute elementTypeKey (.ofElementType t)).withTensor
    valueKey value t dims

/-- The literal of a constant node. -/
def literal (n : Node) : Except Error Literal :=
  if n.isConstant then
    match (n.attribute? valueKey).bind Attribute.tensor? with
    | some l => .ok l
    | none => .error (.missingAttribute n.name valueKey)
  else .error (.notConstant n.name n.op)

def constantValue (n : Node) : Except Error Value := n.literal >>= Literal.toValue

/-- The value of a constant node, if it can be read as 32-bit floating-point elements. -/
def floatConstant? (n : Node) : Except Error (Option (DenseArray Binary32)) := do
  let some v ← Error.unlessRefused n.constantValue | return none
  match v with
  | .float a => return some a
  | _ => return none

end Node
end Dataflow
