import Dataflow.AttributeMap
import Dataflow.Op
import Dataflow.Value.Literal

/- A node is one operation of a graph: its name, its inputs as references, and its attributes. -/

namespace Dataflow

structure Node where
  name : String := ""
  op : String := ""
  /-- References to producers, data inputs before control inputs by convention. -/
  inputs : List String := []
  /-- The requested placement. -/
  device : String := ""
  attributes : AttributeMap := AttributeMap.empty
  /-- Debug information, kept as it is. -/
  debugInfo : Bytes := []
  /-- The full type, kept as it is. -/
  fullType : Bytes := []
  deriving DecidableEq, Inhabited

namespace Node

def make (op name : String) (inputs : List String) : Node := { op, name, inputs }

def isConstant (n : Node) : Bool := Op.isConstant n.op

def opIn (n : Node) (ops : List String) : Bool := ops.contains n.op

def attribute? (n : Node) (key : String) : Option Attribute := n.attributes.get? key

def withAttribute (n : Node) (key : String) (value : Attribute) : Node :=
  { n with attributes := n.attributes.insert key value }

def withTensor (n : Node) (key : String) (value : Value) (t : ElementType)
    (dims : Option (List Int64)) : Except Error Node := do
  let literal ← value.toLiteral t dims
  return n.withAttribute key (.tensor literal)

/-- Whether two nodes with at most one input do the same: operation, inputs and attributes agree,
with floating-point parts compared as numbers. Names are not compared. -/
def interchangeable (a b : Node) : Bool :=
  a.inputs.length ≤ 1 && b.inputs.length ≤ 1
    && a.op == b.op && a.inputs == b.inputs && a.attributes.sameNumbers b.attributes

end Node
end Dataflow
