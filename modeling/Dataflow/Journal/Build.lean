import Dataflow.Graph.Build
import Dataflow.Journal
import Dataflow.Wire.Graph

/- What is told while a graph is read and built: its size, the nodes that are left out, the
   references that are read, and the inputs that name no node. The strict builder refuses such
   inputs and does not tell of them. -/

namespace Dataflow.Journal

/-- The nodes left out because an earlier node has their name. -/
def duplicates : List String → List Node → List Node
  | _, [] => []
  | seen, n :: rest =>
    if seen.contains n.name then n :: duplicates seen rest else duplicates (n.name :: seen) rest

def listing (nodes : List Node) : List Line :=
  ofEvents ((duplicates [] nodes).map fun n => .duplicateDropped n.name n.op)
    ++ ofReads ((Graph.keepFirst nodes).flatMap Node.inputs)

def absentLinks (g : Graph) : List Graph.Link := g.links.filter fun l => !g.has l.producer

def ofTryBuild (nodes : List Node) : List Line := listing nodes

def ofBuild (nodes : List Node) : List Line :=
  listing nodes
    ++ ofEvents ((absentLinks (.unlinked nodes)).map fun l => .absentInput l.consumer l.producer)

/-- The journal of reading a saved graph. A graph that cannot be read is told of by its error
alone. -/
def ofDecode (content : Bytes) : List Line :=
  match SavedGraph.ofBytes content with
  | .ok saved => [.event (.decoded saved.nodes.length content.length)]
  | .error _ => []

end Dataflow.Journal
