import Dataflow.Graph.Edit

/- A node with at most one input that is no constant is bypassed: its consumers read what its
   first input names, control references become control references to that producer, and the
   consumers stand in its place among the consumers of that producer. -/

namespace Dataflow.Graph

def namesNonConstant (g : Graph) (producer : String) : Bool :=
  match g.node? producer with
  | some n => !n.isConstant
  | none => false

/-- The first input of a node, if it is a data input from another node. -/
def primaryInput (n : Node) : Except Error String :=
  match n.inputs.head? with
  | some input =>
    let r := Reference.parse input
    if r.isData && r.node != n.name then .ok input else .error (.noPrimaryInput n.name)
  | none => .error (.noPrimaryInput n.name)

def splicedInputFault? (g : Graph) (name producer : String) : Option Error :=
  if g.has producer then none else some (.danglingReference name producer)

/-- The input that the consumers of a spliced node are to read. -/
def checkSplice (name : String) (g : Graph) : Except Error String := do
  let e ← g.entry name
  Edit.refuseFirst e.node.inputNodes (g.splicedInputFault? name)
  -- Inputs are counted, not producers: two inputs from one producer are two.
  let count := e.node.inputNodes.countP g.namesNonConstant
  if 1 < count then throw (.multipleProducers name count)
  let primary ← primaryInput e.node
  Edit.refuseFirst e.consumers fun consumer =>
    if g.has consumer then none else some (.danglingReference name consumer)
  return primary

/-- A reference to a spliced node as its consumers read it afterwards. -/
def pastSplice (primary : String) (r : Reference) : String :=
  if r.control then Reference.toNode (Reference.nodeOf primary) true else primary

def bypass (name primary : String) (g : Graph) : Graph :=
  let top := Reference.nodeOf primary
  let consumers := g.consumers name
  ((g.redirect consumers name (pastSplice primary)).updateConsumers top fun e =>
    (e.replaceConsumer name consumers).consumers).detach name

/-- Bypasses a node, takes it out, and returns the input that its consumers read now. -/
def splice (name : String) : Edit String := Edit.guarded (checkSplice name) (bypass name)

end Dataflow.Graph
