import Dataflow.Graph.Command
import Dataflow.Journal.Query

/- Which references are read while it is checked whether an edit is possible. A check goes on up
   to the first fault, and so does the reading: names first, then the listed consumers, which are
   asked whether they name their producer, then the inputs of the new node. -/

namespace Dataflow.Journal

/-- What follows a part of a check, unless that part refuses. -/
def following {α : Type} (part : Except Error α) (lines : List Line) : List Line :=
  match part with
  | .ok _ => lines
  | .error _ => []

def ofCheckedInputs (fault? : String → Option Error) (inputs : List String) : List Line :=
  ofReadsUntil (fun input => (fault? (Reference.nodeOf input)).isSome) inputs

/-- Listed consumers are asked whether they name a producer, up to the first that is refused. One
that is refused for another fault than the answer is not asked. -/
def ofCheckedConsumers (g : Graph) (producer : String) (fault? : String → Option Error) :
    List String → List Line
  | [] => []
  | consumer :: rest =>
    match fault? consumer with
    | none => ofAsking g producer consumer ++ ofCheckedConsumers g producer fault? rest
    | some (.notConnected _ _) => ofAsking g producer consumer
    | some _ => []

/-! ## The edits -/

def ofCheckSplice (name : String) (g : Graph) : List Line :=
  ofCheckedInputs (g.splicedInputFault? name) (g.inputs name)

def ofCheckReplace (new : Node) (old : String) (consumers : List String) (g : Graph) : List Line :=
  following (g.entry old) <|
    ofCheckedConsumers g old (g.replacedConsumerFault? new old) consumers
      ++ following (Graph.checkReplacePlace new old consumers g)
        (ofCheckedInputs (g.replacingInputFault? new old) new.inputs)

def ofCheckInsert (new : Node) (producer? : Option String) (consumers : List String) (g : Graph) :
    List Line :=
  let producer := producer?.getD new.name
  following (Edit.refuse (g.producerFault? new producer?)) <|
    ofCheckedConsumers g producer (g.listedConsumerFault? new.name producer) consumers
      ++ following (Graph.checkInsertPlace new producer? consumers g)
        (ofCheckedInputs (g.newInputFault? new) new.inputs)

def ofCheckSwap (new : Node) (old : String) (consumers : List String) (g : Graph) : List Line :=
  following (Graph.checkSwapNames new old g) <|
    ofCheckedConsumers g old (g.listedConsumerFault? new.name old) consumers
      ++ following (Graph.checkSwapPlace new old consumers g)
        (ofCheckedInputs (g.newInputFault? new) new.inputs)

/-- The journal of the check of folding. The constant has no inputs when it is checked as a
replacement. -/
def ofCheckFold (new : Node) (name : String) (g : Graph) : List Line :=
  following (Graph.checkConstant new) <|
    ofCheckedInputs (g.foldedInputFault? name) (g.inputs name)
      ++ following (Graph.checkFeeders new name g)
        (ofCheckReplace { new with inputs := [] } name (g.consumers name) g)

/-- The journal of the check of a command. Removing reads nothing beforehand. -/
def ofCheck (c : Graph.Command) (g : Graph) : List Line :=
  match c with
  | .remove _ => []
  | .splice name => ofCheckSplice name g
  | .replace new old consumers => ofCheckReplace new old consumers g
  | .insert new producer? consumers => ofCheckInsert new producer? consumers g
  | .swapConstant new old consumers => ofCheckSwap new old consumers g
  | .fold new name => ofCheckFold new name g

end Dataflow.Journal
