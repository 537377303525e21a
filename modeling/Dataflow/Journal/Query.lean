import Dataflow.Journal
import Dataflow.Pattern.Match
import Dataflow.Positivity

/- What is told while a graph is asked: the boundary, producers, matches of patterns, and the
   signs of outputs. -/

namespace Dataflow.Journal

def ofBoundary (g : Graph) : List Line :=
  ofEvents (g.isolated.map (fun e => .isolatedSkipped e.name)
    ++ [.boundaryListed g.inputNames g.outputNames])

/-- The journal of asking a node by name whether an input of it names a producer. -/
def ofAsking (g : Graph) (producer name : String) : List Line :=
  ofReferences producer (g.inputs name)

/-- The journal of looking for disagreements: each node reads its inputs, and then its consumers
are asked whether they name it. -/
def ofConsistency (g : Graph) : List Line :=
  g.entries.flatMap fun e => ofReads e.node.inputs ++ e.consumers.flatMap (ofAsking g e.name)

/-! ## Patterns -/

/-- What is told of the producers that are walked by the tokens left. The first input of a node is
read for each token that is tried on its producer. -/
def ofWalk (g : Graph) (current : Node) : List Token → List Line
  | [] => []
  | t :: rest =>
    ofReads current.inputs.head?.toList ++
      match g.firstProducer? current with
      | none => [.event (.walkEnded current.name)]
      | some producer =>
        if t.accepts producer.op then ofWalk g producer rest
        else if t.isOptional then ofWalk g current rest
        else []

def ofMatchAt (p : Pattern) (g : Graph) (n : Node) : List Line :=
  match Pattern.align n.op p.tokens.reverse with
  | none => []
  | some rest =>
    let matched := (Pattern.walk g n rest).length + 1
    ofWalk g n rest
      ++ if matched < p.mandatoryCount then [.event (.tooFewMatched n.name matched)] else []

/-- The journal of searching for a pattern. Nothing is told of the empty pattern. -/
def ofSearch (p : Pattern) (g : Graph) : List Line :=
  if p.tokens.isEmpty then []
  else g.nodes.flatMap (ofMatchAt p g) ++ [.event (.searchFinished (p.search g).length)]

/-! ## Signs -/

def ofSignStep : SignStep → List Line
  | .started _ => []
  | .read reference => [.read reference]
  | .evaluated n result => [.event (.signEvaluated n.name n.op result)]
  | .unresolved name => [.event (.unresolvedProducer name)]

/-- The journal of steps of the analysis of signs, which are given latest first. -/
def ofSignTrail (trail : SignTrail) : List Line := trail.reverse.flatMap ofSignStep

end Dataflow.Journal
