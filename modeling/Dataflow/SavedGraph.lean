import Dataflow.Node

/- A graph as it is saved: a flat list of nodes, with the version numbers, the function library
   and the debug information that are carried along unread. -/

namespace Dataflow

structure Versions where
  producer : Int32 := 0
  minConsumer : Int32 := 0
  badConsumers : List Int32 := []
  deriving DecidableEq, Repr

structure SavedGraph where
  nodes : List Node := []
  /-- The function library, kept as it is. -/
  library : Bytes := []
  /-- The single version number of old graphs. -/
  version : Int32 := 0
  versions : Option Versions := none
  /-- Debug information, kept as it is. -/
  debugInfo : Bytes := []
  deriving DecidableEq, Inhabited

namespace SavedGraph

def ofNodes (nodes : List Node) : SavedGraph := { nodes }

def node? (g : SavedGraph) (name : String) : Option Node := g.nodes.find? fun n => n.name == name

/-- The refusal of a node's first attribute, in key order, that has no supported kind. -/
def attributeFault? (n : Node) : Option Error :=
  n.attributes.unsupportedKey?.map fun key => .unsupportedAttribute n.name key

def checkAttributes (g : SavedGraph) : Except Error Unit :=
  match g.nodes.findSome? attributeFault? with
  | some e => .error e
  | none => .ok ()

end SavedGraph
end Dataflow
