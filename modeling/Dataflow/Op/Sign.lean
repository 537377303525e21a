import Dataflow.Op

/- How the sign of the output of an operation depends on its inputs. Rectifiers and operations
   fused with one are non-negative whatever they read; nothing is known of other quantized
   operations. -/

namespace Dataflow

/-- When the output of an operation is non-negative. -/
inductive SignRule where
  /-- Always. -/
  | nonNegative
  /-- When every data input is. -/
  | allInputs
  /-- When the first input is. -/
  | firstInput
  /-- Nothing is known. -/
  | unknown
  deriving DecidableEq, Repr

namespace Op

def occursIn (part : List Char) : List Char → Bool
  | [] => part.isEmpty
  | c :: rest => part.isPrefixOf (c :: rest) || occursIn part rest

/-- Whether an operation ends in a rectifier: it is one, or is fused with one. -/
def isRectified (op : String) : Bool :=
  rectifiers.contains op || occursIn "AndRelu".toList op.toList

def isQuantized (op : String) : Bool := "Quantized".toList.isPrefixOf op.toList

def signRule (op : String) : SignRule :=
  if isRectified op then .nonNegative
  else if isQuantized op then .unknown
  else if merges.contains op then .allInputs
  else if signPreserving.contains op then .firstInput
  else .unknown

end Op
end Dataflow
