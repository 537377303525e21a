import Dataflow.Graph.Edit

/- A new node is put last in index order, between a producer and some of its consumers: their
   references to the producer become references to port 0 of the new node. Without a producer the
   listed consumers must name the new node already. A node that has the name of the new one goes
   away first, and its consumers become consumers of the new node. -/

namespace Dataflow.Graph

def producerFault? (g : Graph) (new : Node) (producer? : Option String) : Option Error :=
  match producer? with
  | none => none
  | some producer =>
    if !g.has producer then some (.unknownNode producer)
    else if producer = new.name then some (.nameConflict new.name)
    else none

/-- What is wrong with a listed consumer that is to name `producer` and become a consumer of a node
called `name`. -/
def listedConsumerFault? (g : Graph) (name producer consumer : String) : Option Error :=
  if consumer = name then some (.nameConflict name)
  else
    match g.node? consumer with
    | none => some (.unknownNode consumer)
    | some n => if n.references producer then none else some (.notConnected producer consumer)

def newInputFault? (g : Graph) (new : Node) (producer : String) : Option Error :=
  if producer = new.name || g.has producer then none
  else some (.danglingReference new.name producer)

def checkInsertPlace (new : Node) (producer? : Option String) (consumers : List String)
    (g : Graph) : Except Error Unit := do
  Edit.refuse (g.producerFault? new producer?)
  Edit.refuseFirst consumers (g.listedConsumerFault? new.name (producer?.getD new.name))

def checkInsert (new : Node) (producer? : Option String) (consumers : List String) (g : Graph) :
    Except Error Unit := do
  checkInsertPlace new producer? consumers g
  Edit.refuseFirst new.inputNodes (g.newInputFault? new)

/-- The graph with consumers that no longer read `producer` but what `target` makes of the
reference. -/
def divert (consumers : List String) (producer : String) (target : Reference → String)
    (g : Graph) : Graph :=
  consumers.foldl (fun g c => (g.redirectReferences c producer target).unlink producer c) g

def interpose (new : Node) (producer? : Option String) (consumers : List String)
    (g : Graph) : Graph :=
  -- The consumers to carry over are asked for while their producer is still there.
  let carried := g.inherited new.name none
  let g := g.detach new.name
  let g := match producer? with
    | some producer => divert consumers producer (towards new.name) g
    | none => g
  (g.append (.withConsumers new (consumers ++ carried))).linkAll new.producerNames new.name

def insert (new : Node) (producer? : Option String) (consumers : List String) : Edit Unit :=
  Edit.guarded (checkInsert new producer? consumers) fun _ => interpose new producer? consumers

end Dataflow.Graph
