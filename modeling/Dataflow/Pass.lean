import Dataflow.Graph.Edit
import Dataflow.Pass.Result

/- A pass lists sites in a graph, and then tries to simplify each of them in turn. A site is
   looked at in the graph that the sites before it left behind. A refused step ends the pass, and
   what was done before stays. -/

namespace Dataflow

/-- A simplification of a whole graph. -/
structure Pass where
  name : String
  /-- The names of the nodes to be looked at, by the graph as it is at the start. -/
  sites : Graph → List String
  /-- Looks at one node, and simplifies the graph there if it can. -/
  attempt : String → Edit PassResult

namespace Pass

def attemptAll (attempt : String → Edit PassResult) : List String → Edit PassResult
  | [] => return .empty
  | site :: rest => do
    let r ← attempt site
    return r.merge (← attemptAll attempt rest)

def run (p : Pass) : Edit PassResult := do
  attemptAll p.attempt (p.sites (← get))

/-- Runs a pass once. A tolerated refusal counts as nothing done; an overrun is never tolerated. -/
def runOr (tolerant : Bool) (p : Pass) : Edit PassResult := fun g =>
  match p.run g with
  | (.error e, h) => if tolerant && !e.isOverrun then (.ok .empty, h) else (.error e, h)
  | done => done

def runAll (tolerant : Bool) : List Pass → Edit PassResult
  | [] => return .empty
  | p :: rest => do
    let r ← p.runOr tolerant
    return r.merge (← runAll tolerant rest)

end Pass

/-- Passes that are run in rounds. -/
structure Pipeline where
  passes : List Pass
  /-- The most rounds that are run. -/
  maxRounds : Nat := 10
  /-- Whether a pass that is refused is passed over. -/
  continueOnError : Bool := false

namespace Pipeline

/-- Runs rounds of the passes until one changes nothing, but not more than a number of them. -/
def rounds (p : Pipeline) : Nat → Edit PassResult
  | 0 => return .empty
  | more + 1 => do
    let r ← Pass.runAll p.continueOnError p.passes
    if r.changed then return r.merge (← p.rounds more) else return r

def run (p : Pipeline) : Edit PassResult := p.rounds p.maxRounds

end Pipeline
end Dataflow
