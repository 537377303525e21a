import Dataflow.Node
import Dataflow.Reference

/- Which producers the inputs of a node name, and redirecting the inputs that name one of them. -/

namespace Dataflow.Node

/-- The name of the producer of each input, in order. -/
def inputNodes (n : Node) : List String := n.inputs.map Reference.nodeOf

/-- The names of the producers, each once, in the order in which they are first named. -/
def producerNames (n : Node) : List String := n.inputNodes.eraseDups

def references (n : Node) (producer : String) : Bool := n.inputNodes.contains producer

/-- An input exchanged for what `target` makes of it, if it names `producer`. -/
def redirectInput (producer : String) (target : Reference → String) (input : String) : String :=
  let r := Reference.parse input
  if r.node = producer then target r else input

def redirectInputs (n : Node) (producer : String) (target : Reference → String) : Node :=
  { n with inputs := n.inputs.map (redirectInput producer target) }

theorem references_iff {n : Node} {producer : String} :
    n.references producer = true ↔ producer ∈ n.inputNodes := by
  simp [references]

theorem mem_producerNames {n : Node} {producer : String} :
    producer ∈ n.producerNames ↔ producer ∈ n.inputNodes := by
  simp [producerNames]

end Dataflow.Node
