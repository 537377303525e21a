import Dataflow.Graph.Edit

/- A new node takes the place of an old one in index order. Every consumer of the old node must
   be listed; their references keep port and control marker and name the new node. If the new
   node takes the name of a third node, that node goes away and its consumers become consumers of
   the new one. -/

namespace Dataflow.Graph

def replacedConsumerFault? (g : Graph) (new : Node) (old consumer : String) : Option Error :=
  if new.name ≠ old ∧ (consumer = new.name ∨ consumer = old) then some (.nameConflict consumer)
  else
    match g.node? consumer with
    | none => some (.danglingReference old consumer)
    | some n => if n.references old then none else some (.notConnected old consumer)

def unlistedConsumerFault? (old : String) (consumers : List String) (current : String) :
    Option Error :=
  if current = old || consumers.contains current then none
  else some (.danglingReference current old)

/-- What is wrong with an input of a node that replaces another: it names the old node, or no
node. -/
def replacingInputFault? (g : Graph) (new : Node) (old producer : String) : Option Error :=
  if producer = new.name || (producer ≠ old && g.has producer) then none
  else some (.danglingReference new.name producer)

def checkReplacePlace (new : Node) (old : String) (consumers : List String) (g : Graph) :
    Except Error Unit := do
  let e ← g.entry old
  Edit.refuseFirst consumers (g.replacedConsumerFault? new old)
  Edit.refuseFirst e.consumers (unlistedConsumerFault? old consumers)

def checkReplace (new : Node) (old : String) (consumers : List String) (g : Graph) :
    Except Error Unit := do
  checkReplacePlace new old consumers g
  Edit.refuseFirst new.inputNodes (g.replacingInputFault? new old)

/-- The graph without a third node that has the name of the new one. -/
def vacate (new : Node) (old : String) (g : Graph) : Graph :=
  if new.name = old then g else g.detach new.name

/-- The graph with a new node at the position of an old one, which its consumers still name. There is
none if the old node has no position. -/
def seat? (new : Node) (old : String) (consumers : List String) (g : Graph) : Option Graph :=
  let carried := if new.name = old then [] else g.inherited new.name (some old)
  let g := g.vacate new old
  -- The position is that of the old node after a third one of the new name is gone.
  (g.position? old).map fun position =>
    (g.detach old).place position (.withConsumers new (consumers ++ carried))

def exchange (new : Node) (old : String) (consumers : List String) (g : Graph) : Graph :=
  match seat? new old consumers g with
  | none => g.vacate new old
  | some seated =>
    (seated.redirect consumers old (renamed new.name)).linkAll new.producerNames new.name

def replace (new : Node) (old : String) (consumers : List String) : Edit Unit :=
  Edit.guarded (checkReplace new old consumers) fun _ => exchange new old consumers

end Dataflow.Graph
