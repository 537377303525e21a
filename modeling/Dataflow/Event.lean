import Dataflow.Error
import Dataflow.Text.Quoted

/- What is worth telling while a graph is built, asked and changed. An event has a level, a
   message and fields, all of which follow from what happened. -/

namespace Dataflow

inductive Level where
  | trace
  | debug
  | warn
  deriving DecidableEq, Repr

inductive FieldValue where
  | text (s : String)
  | number (n : Nat)
  | flag (b : Bool)
  deriving DecidableEq, Repr

namespace FieldValue

/-- A list of names, each between quotation marks. -/
def ofNames (names : List String) : FieldValue := .text (listText (names.map Text.quote))

def ofNumbers (numbers : List Nat) : FieldValue := .text (listText (numbers.map Nat.repr))

/-- A name between quotation marks, or that there is none. -/
def ofName? : Option String → FieldValue
  | some name => .text ("Some(" ++ Text.quote name ++ ")")
  | none => .text "None"

end FieldValue

inductive Event where
  /-- A reference has a port above the largest one. -/
  | portOutOfRange (reference : String)
  /-- A node was left out because its name was taken. -/
  | duplicateDropped (node op : String)
  /-- An input names no node. -/
  | absentInput (node missing : String)
  /-- A node that stands alone is not at the boundary. -/
  | isolatedSkipped (node : String)
  /-- The boundary of a graph was listed. -/
  | boundaryListed (inputs outputs : List String)
  /-- An edit was refused. -/
  | refused (command : String) (error : Error)
  /-- A node is removed although it has consumers. -/
  | stillConsumed (node : String) (consumers : List String)
  | removed (node : String)
  | spliced (node into : String)
  | inserted (node : String) (producer? : Option String)
  /-- Consumers of a node read a new constant. -/
  | constantSwapped (old new : String)
  /-- A constant that fed only a folded node was removed. -/
  | feederRemoved (node : String)
  | folded (node : String)
  | replaced (old new : String)
  /-- A node was discarded because a new one has its name. -/
  | discarded (node : String)
  /-- A walk along a pattern came to a node without a first producer. -/
  | walkEnded (node : String)
  /-- A match was too short for the pattern. -/
  | tooFewMatched (anchor : String) (matched : Nat)
  | searchFinished (count : Nat)
  /-- The sign of a node that is not there was asked for. -/
  | unresolvedProducer (node : String)
  | signEvaluated (node op : String) (result : Bool)
  /-- The operands of a node do not go together. -/
  | shapesDisagree (node : String) (left right : List Nat)
  | operationFolded (node : String) (count : Nat)
  /-- An identity cannot be spliced out. -/
  | identityKept (node : String) (error : Error)
  | passFinished (pass : String) (round? : Option Nat) (applied : Nat)
  /-- A pass was refused and passed over. -/
  | passFailed (pass : String) (error : Error)
  | decoded (nodes bytes : Nat)
  deriving DecidableEq

namespace Event

def level : Event → Level
  | portOutOfRange .. | absentInput .. | passFailed .. => .warn
  | walkEnded .. | tooFewMatched .. | unresolvedProducer .. | signEvaluated .. => .trace
  | _ => .debug

def message : Event → String
  | portOutOfRange .. => "port suffix out of range, saturating"
  | duplicateDropped .. => "dropping duplicate node"
  | absentInput .. => "input references an absent node"
  | isolatedSkipped .. => "skipping isolated node"
  | boundaryListed .. => "graph boundary"
  | refused .. => "mutation rejected"
  | stillConsumed .. => "removed node still has consumers"
  | removed .. => "node removed"
  | spliced .. => "node spliced"
  | inserted .. => "node inserted"
  | constantSwapped .. => "constant producer replaced"
  | feederRemoved .. => "folded constant removed"
  | folded .. => "constant subgraph folded"
  | replaced .. => "node replaced"
  | discarded .. => "discarding existing node with the same name"
  | walkEnded .. => "walk ended: no first producer"
  | tooFewMatched .. => "too few nodes matched"
  | searchFinished .. => "pattern search finished"
  | unresolvedProducer .. => "unresolved producer"
  | signEvaluated .. => "positivity evaluated"
  | shapesDisagree .. => "operand shapes do not broadcast"
  | operationFolded .. => "binary op folded"
  | identityKept .. => "identity kept"
  | passFinished .. => "pass finished"
  | passFailed .. => "pass failed, continuing"
  | decoded .. => "decoded graph"

def fields : Event → List (String × FieldValue)
  | portOutOfRange reference => [("reference", .text reference)]
  | duplicateDropped node op => [("node", .text node), ("op", .text op)]
  | absentInput node missing => [("node", .text node), ("missing", .text missing)]
  | isolatedSkipped node | removed node | feederRemoved node | folded node | discarded node
  | walkEnded node | unresolvedProducer node => [("node", .text node)]
  | boundaryListed inputs outputs => [("inputs", .ofNames inputs), ("outputs", .ofNames outputs)]
  | refused command error => [("op", .text command), ("error", .text error.message)]
  | stillConsumed node consumers => [("node", .text node), ("consumers", .ofNames consumers)]
  | spliced node into => [("node", .text node), ("into", .text into)]
  | inserted node producer? => [("node", .text node), ("producer", .ofName? producer?)]
  | constantSwapped old new | replaced old new => [("old", .text old), ("new", .text new)]
  | tooFewMatched anchor matched => [("anchor", .text anchor), ("matched", .number matched)]
  | searchFinished count => [("count", .number count)]
  | signEvaluated node op result =>
    [("node", .text node), ("op", .text op), ("result", .flag result)]
  | shapesDisagree node left right =>
    [("node", .text node), ("lhs", .ofNumbers left), ("rhs", .ofNumbers right)]
  | operationFolded node count => [("node", .text node), ("removed", .number count)]
  | identityKept node error => [("node", .text node), ("error", .text error.message)]
  | passFinished pass round? applied =>
    ("pass", .text pass) :: (round?.map fun n => ("iteration", .number n)).toList
      ++ [("applied", .number applied)]
  | passFailed pass error => [("pass", .text pass), ("error", .text error.message)]
  | decoded nodes bytes => [("nodes", .number nodes), ("bytes", .number bytes)]

end Event
end Dataflow
