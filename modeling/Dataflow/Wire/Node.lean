import Dataflow.Node
import Dataflow.Wire.Attribute

/- The message of a node. Its attributes are entries of a key and a value; a part of an entry
   that is empty is left out, and a later entry replaces an earlier one with the same key. -/

namespace Dataflow.Wire

def writeEntry (e : String × Attribute) : Bytes :=
  writeText 1 e.1 ++ if e.2 = .none then [] else writeDelimited 2 (writeAttribute e.2)

def entryField : FieldReader (String × Attribute) := fun budget key e =>
  match key.tag with
  | 1 => do return (← readText key, e.2)
  | 2 => do return (e.1, ← readMessage attributeField budget key e.2)
  | _ => do
    skipField budget key
    return e

def writeNode (n : Node) : Bytes :=
  writeText 1 n.name
    ++ writeText 2 n.op
    ++ writeEach Bytes.ofText 3 n.inputs
    ++ writeText 4 n.device
    ++ writeEach writeEntry 5 n.attributes.entries
    ++ writeBytes 6 n.debugInfo
    ++ writeBytes 7 n.fullType

/-- Reads a field of a node. The layout of an attribute entry is not looked at. -/
def nodeField : FieldReader Node := fun budget key n =>
  let named := within (α := Node) "NodeDef"
  match key.tag with
  | 1 => named "name" do return { n with name := ← readText key }
  | 2 => named "op" do return { n with op := ← readText key }
  | 3 => named "input" do return { n with inputs := n.inputs ++ [← readText key] }
  | 4 => named "device" do return { n with device := ← readText key }
  | 5 => named "attr" do
    let e ← readFields entryField budget ("", .none)
    return { n with attributes := n.attributes.insert e.1 e.2 }
  | 6 => named "experimental_debug_info" do return { n with debugInfo := ← readBytes key }
  | 7 => named "experimental_type" do return { n with fullType := ← readBytes key }
  | _ => do
    skipField budget key
    return n

end Dataflow.Wire
