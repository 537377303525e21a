import Dataflow.Graph.Basic

/- What can be asked of a graph without changing it: producers of references, nodes by operation,
   and the boundary of the graph. No query fails. -/

namespace Dataflow.Graph

def producerOf? (g : Graph) (reference : String) : Option Node :=
  g.node? (Reference.nodeOf reference)

/-- The producer of the first input of a node. -/
def firstProducer? (g : Graph) (n : Node) : Option Node := n.inputs.head?.bind g.producerOf?

def nodesByOp (g : Graph) (op : String) : List Node := g.nodes.filter fun n => n.op == op

def nodesByOps (g : Graph) (ops : List String) : List Node := g.nodes.filter fun n => n.opIn ops

/-! ## The boundary -/

/-- Whether a node stands alone: it has neither inputs nor consumers. -/
def isIsolated (e : Entry) : Bool := e.node.inputs.isEmpty && e.consumers.isEmpty

def isolated (g : Graph) : List Entry :=
  g.entries.filter fun e => !e.node.isConstant && isIsolated e

/-- The names of the nodes other than constants that have consumers but no inputs. -/
def inputNames (g : Graph) : List String :=
  (g.entries.filter fun e =>
    !e.node.isConstant && e.node.inputs.isEmpty && !e.consumers.isEmpty).map Entry.name

/-- The names of the nodes other than constants that have inputs but no consumers. -/
def outputNames (g : Graph) : List String :=
  (g.entries.filter fun e =>
    !e.node.isConstant && !e.node.inputs.isEmpty && e.consumers.isEmpty).map Entry.name

end Dataflow.Graph
