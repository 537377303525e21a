import Dataflow.Graph.Query
import Dataflow.Op.Sign

/- Which nodes have an output that is non-negative whatever the graph is fed. The analysis looks
   at a node only after the nodes its sign rests on, and notes every step on a trail, which is
   also its memory: no node is looked at twice. A node that is reached again while it is being
   looked at counts as unproven. `Proven` gives the rules of which the analysis finds the
   consequences. -/

namespace Dataflow

/-- A step of the analysis. -/
inductive SignStep where
  /-- The node is being looked at. -/
  | started (name : String)
  /-- An input of a node was read. -/
  | read (reference : String)
  /-- The node has been looked at. -/
  | evaluated (node : Node) (result : Bool)
  /-- No node has this name. -/
  | unresolved (name : String)
  deriving DecidableEq

/-- What a step says about a name: nothing is proven of a node that is still being looked at. -/
def SignStep.verdict? (name : String) : SignStep → Option Bool
  | .started other => if other = name then some false else none
  | .evaluated node result => if node.name = name then some result else none
  | .read _ => none
  | .unresolved _ => none

/-- The steps of the analysis so far, latest first. -/
abbrev SignTrail := List SignStep

namespace Node

def dataInputNodes (n : Node) : List String :=
  ((n.inputs.map Reference.parse).filter Reference.isData).map Reference.node

end Node

namespace Graph

def noteVerdict (n : Node) (result : Bool) : StateM SignTrail Bool := do
  modify (.evaluated n result :: ·)
  return result

def readInput (input : String) : StateM SignTrail Reference := do
  modify (.read input :: ·)
  return Reference.parse input

/-- Looks at a node. The first number bounds how deep the analysis goes; a depth that is used up
proves nothing. -/
def visit (g : Graph) : Nat → String → StateM SignTrail Bool
  | 0, _ => return false
  | depth + 1, name => do
    match (← get).findSome? (SignStep.verdict? name) with
    | some result => return result
    | none =>
      match g.node? name with
      | none =>
        modify (.unresolved name :: ·)
        return false
      | some n =>
        -- Noted before the inputs are looked at, so that a cycle ends here.
        modify (.started name :: ·)
        match Op.signRule n.op with
        | .nonNegative => noteVerdict n true
        | .unknown => noteVerdict n false
        | .allInputs =>
          -- Control inputs are read, but nothing is asked of them.
          noteVerdict n (← n.inputs.allM fun input => do
            let r ← readInput input
            if r.isData then g.visit depth r.node else return true)
        | .firstInput =>
          match n.inputs.head? with
          | some input => noteVerdict n (← g.visit depth (← readInput input).node)
          | none => noteVerdict n false

/-- Whether the output of a node is proven non-negative, after earlier questions left a trail. At
most every node is being looked at when one more is reached. -/
def isNonNegative (g : Graph) (name : String) : StateM SignTrail Bool := g.visit (g.size + 1) name

def provesNonNegative (g : Graph) (name : String) : Bool := (g.isNonNegative name []).1

/-! ## The rules -/

/-- The nodes whose output is non-negative by their sign rules. -/
inductive Proven (g : Graph) : String → Prop where
  | always {name : String} {n : Node} : g.node? name = some n →
    Op.signRule n.op = .nonNegative → Proven g name
  | all {name : String} {n : Node} : g.node? name = some n → Op.signRule n.op = .allInputs →
    (∀ producer ∈ n.dataInputNodes, Proven g producer) → Proven g name
  | first {name producer : String} {n : Node} : g.node? name = some n →
    Op.signRule n.op = .firstInput → n.inputNodes.head? = some producer → Proven g producer →
    Proven g name

theorem Proven.has {g : Graph} {name : String} (h : Proven g name) : g.has name = true := by
  cases h with
  | always hn _ | all hn _ _ | first hn _ _ _ =>
    rw [Graph.has]
    rw [Graph.node?, Option.map_eq_some_iff] at hn
    obtain ⟨e, he, -⟩ := hn
    rw [he]; rfl

end Graph
end Dataflow
