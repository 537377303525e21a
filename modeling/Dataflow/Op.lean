/- A node's operation is named by a string, since a graph may hold operations that nothing here
   knows of. What the rest of the library asks is to which group of operations a name belongs. -/

namespace Dataflow.Op

/-- The operation of a constant placed with the rest of the graph. -/
def const : String := "Const"

/-- The operation of a constant kept in host memory. -/
def hostConst : String := "HostConst"

def isConstant (op : String) : Bool := op == const || op == hostConst

/-- Operations that forward their first input unchanged. -/
def identities : List String := ["Identity", "Snapshot", "StopGradient"]

def rectifiers : List String := ["Relu", "Relu6"]

def additions : List String := ["Add", "AddV2", "AddN"]

def convolutions : List String := ["Conv2D", "DepthwiseConv2dNative"]

def poolings : List String := ["MaxPool", "AvgPool"]

/-- Operations whose output is non-negative if every data input is. -/
def merges : List String := ["Concat", "Add", "AddV2", "AddN"]

/-- Operations that keep the sign of their first input. -/
def signPreserving : List String :=
  ["Conv2D", "DepthwiseConv2D", "DepthwiseConv2dNative", "QuantizeV2", "MaxPool", "AvgPool",
    "Requantize", "Pad", "CropAndResize", "Dequantize", "Mean", "MatMul"]

/-- Operations on two operands that are evaluated over constants. -/
def foldables : List String := ["Add", "AddV2", "Sub", "Mul"]

end Dataflow.Op
