import Dataflow.Graph.Edit.Insert
import Dataflow.Graph.Edit.Replace

/- Two edits put a new constant into a graph. Swapping points some consumers of a node at the
   constant and leaves the node where it is. Folding replaces a node whose inputs are all
   constants, and takes out the constants that fed nothing else. -/

namespace Dataflow.Graph

def checkConstant (n : Node) : Except Error Unit :=
  if n.isConstant then .ok () else .error (.notConstant n.name n.op)

/-! ## Swapping -/

def checkSwapNames (new : Node) (old : String) (g : Graph) : Except Error Unit := do
  checkConstant new
  let _ ← g.entry old
  if new.name = old then throw (.nameConflict old)

def checkSwapPlace (new : Node) (old : String) (consumers : List String) (g : Graph) :
    Except Error Unit := do
  checkSwapNames new old g
  Edit.refuseFirst consumers (g.listedConsumerFault? new.name old)

def checkSwap (new : Node) (old : String) (consumers : List String) (g : Graph) :
    Except Error Unit := do
  checkSwapPlace new old consumers g
  Edit.refuseFirst new.inputNodes (g.newInputFault? new)

/-- The graph with a new constant before an old one, read by the listed consumers. -/
def standBefore (new : Node) (old : String) (consumers : List String) (g : Graph) : Graph :=
  let carried := g.inherited new.name none
  let g := divert consumers old (renamed new.name) (g.detach new.name)
  let e := Entry.withConsumers new (consumers ++ carried)
  let g := match g.position? old with
    | some position => g.place position e
    | none => g.append e
  g.linkAll new.producerNames new.name

/-- Points consumers of a node at a new constant. -/
def swapConstant (new : Node) (old : String) (consumers : List String) : Edit Unit :=
  Edit.guarded (checkSwap new old consumers) fun _ => standBefore new old consumers

/-! ## Folding -/

def foldedInputFault? (g : Graph) (node producer : String) : Option Error :=
  match g.node? producer with
  | none => some (.danglingReference node producer)
  | some n => if n.isConstant then none else some (.nonConstantInput node producer)

def checkFeeders (new : Node) (name : String) (g : Graph) : Except Error Unit := do
  checkConstant new
  let n ← g.node name
  Edit.refuseFirst n.inputNodes (g.foldedInputFault? name)

def checkFold (new : Node) (name : String) (g : Graph) : Except Error Unit := do
  checkFeeders new name g
  checkReplace new name (g.consumers name) g

def feedsOnly (g : Graph) (producer name : String) : Bool :=
  (g.consumers producer).all (· == name) && producer != name

/-- The graph without the producers of a folded node that feed nothing else. Each is looked at when
those before it are gone. -/
def dropFeeders (name : String) (producers : List String) (g : Graph) : Graph :=
  producers.foldl (fun g p => if g.feedsOnly p name then g.detach p else g) g

def collapse (new : Node) (name : String) (g : Graph) : Graph :=
  -- The consumers are those from before the feeders go.
  let consumers := g.consumers name
  let producers := ((g.node? name).map Node.producerNames).getD []
  exchange new name consumers (dropFeeders name producers g)

/-- Replaces a node by a constant, which loses its inputs. -/
def fold (new : Node) (name : String) : Edit Unit :=
  let constant := { new with inputs := [] }
  Edit.guarded (checkFold constant name) fun _ => collapse constant name

end Dataflow.Graph
