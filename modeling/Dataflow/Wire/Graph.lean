import Dataflow.SavedGraph
import Dataflow.Wire.Node

/- The message of a saved graph, and reading and writing whole graphs. A graph that has been read
   is accepted only if every attribute has a supported kind. -/

namespace Dataflow.Wire

def writeVersions (v : Versions) : Bytes :=
  writeScalarUnless .int32 1 0 v.producer
    ++ writeScalarUnless .int32 2 0 v.minConsumer
    ++ writePacked .int32 3 v.badConsumers

def versionsField : FieldReader Versions := fun budget key v =>
  let named := within (α := Versions) "VersionDef"
  match key.tag with
  | 1 => named "producer" do return { v with producer := ← readScalar .int32 key }
  | 2 => named "min_consumer" do return { v with minConsumer := ← readScalar .int32 key }
  | 3 => named "bad_consumers" do
    return { v with badConsumers := ← readRepeated .int32 key v.badConsumers }
  | _ => do
    skipField budget key
    return v

def writeGraph (g : SavedGraph) : Bytes :=
  writeEach writeNode 1 g.nodes
    ++ writeBytes 2 g.library
    ++ writeScalarUnless .int32 3 0 g.version
    ++ writeEach writeVersions 4 g.versions.toList
    ++ writeBytes 5 g.debugInfo

def graphField : FieldReader SavedGraph := fun budget key g =>
  let named := within (α := SavedGraph) "GraphDef"
  match key.tag with
  | 1 => named "node" do
    let n ← readMessage nodeField budget key {}
    return { g with nodes := g.nodes ++ [n] }
  | 2 => named "library" do return { g with library := ← readBytes key }
  | 3 => named "version" do return { g with version := ← readScalar .int32 key }
  | 4 => named "versions" do
    let v ← readMessage versionsField budget key (g.versions.getD {})
    return { g with versions := some v }
  | 5 => named "debug_info" do return { g with debugInfo := ← readBytes key }
  | _ => do
    skipField budget key
    return g

end Dataflow.Wire

namespace Dataflow.SavedGraph

/-- The stored form of a graph. -/
def toBytes (g : SavedGraph) : Bytes := Wire.writeGraph g

/-- The graph of a stored form, whatever its attributes hold. -/
def decode (bytes : Bytes) : Except Wire.Fault SavedGraph := Wire.readWhole Wire.graphField {} bytes

/-- The graph of a stored form. -/
def ofBytes (bytes : Bytes) : Except Error SavedGraph := do
  let g ← (decode bytes).mapError Error.decode
  g.checkAttributes
  return g

end Dataflow.SavedGraph
