import Dataflow.Attribute
import Dataflow.Wire.Tensor

/- The messages of attribute lists and attributes. An attribute holds one member of a choice: a
   member is always written, and reading another member than before replaces it, while a message
   member read again is completed. -/

namespace Dataflow.Wire

def writeAttributeList (l : AttributeList) : Bytes :=
  writeEach id 2 l.strings
    ++ writePacked .int64 3 l.ints
    ++ writePacked .binary32 4 l.floats
    ++ writePacked .bool 5 l.bools
    ++ writePacked .int32 6 l.typeCodes
    ++ writeEach writeShape 7 l.shapes
    ++ writeEach writeTensor 8 l.tensors

def attributeListField : FieldReader AttributeList := fun budget key l =>
  let named := within (α := AttributeList) "ListValue"
  match key.tag with
  | 2 => named "s" do return { l with strings := l.strings ++ [← readBytes key] }
  | 3 => named "i" do return { l with ints := ← readRepeated .int64 key l.ints }
  | 4 => named "f" do return { l with floats := ← readRepeated .binary32 key l.floats }
  | 5 => named "b" do return { l with bools := ← readRepeated .bool key l.bools }
  | 6 => named "r#type" do return { l with typeCodes := ← readRepeated .int32 key l.typeCodes }
  | 7 => named "shape" do
    let s ← readMessage shapeField budget key {}
    return { l with shapes := l.shapes ++ [s] }
  | 8 => named "tensor" do
    let t ← readMessage tensorField budget key {}
    return { l with tensors := l.tensors ++ [t] }
  | _ => do
    skipField budget key
    return l

def writeAttribute : Attribute → Bytes
  | .none => []
  | .list items => writeDelimited 1 (writeAttributeList items)
  | .string bytes => writeDelimited 2 bytes
  | .int value => writeScalar .int64 3 value
  | .float value => writeScalar .binary32 4 value
  | .bool value => writeScalar .bool 5 value
  | .typeCode code => writeScalar .int32 6 code
  | .shape value => writeDelimited 7 (writeShape value)
  | .tensor value => writeDelimited 8 (writeTensor value)

/-- The list that reading a list member starts from. -/
def listSoFar : Attribute → AttributeList
  | .list items => items
  | _ => {}

def shapeSoFar : Attribute → DeclaredShape
  | .shape value => value
  | _ => {}

def tensorSoFar : Attribute → Literal
  | .tensor value => value
  | _ => {}

def attributeField : FieldReader Attribute := fun budget key a =>
  let member := within (α := Attribute) "AttrValue" "value"
  -- Only list, shape and tensor look at the member that was read before.
  match key.tag with
  | 1 => member (.list <$> readMessage attributeListField budget key (listSoFar a))
  | 2 => member (.string <$> readBytes key)
  | 3 => member (.int <$> readScalar .int64 key)
  | 4 => member (.float <$> readScalar .binary32 key)
  | 5 => member (.bool <$> readScalar .bool key)
  | 6 => member (.typeCode <$> readScalar .int32 key)
  | 7 => member (.shape <$> readMessage shapeField budget key (shapeSoFar a))
  | 8 => member (.tensor <$> readMessage tensorField budget key (tensorSoFar a))
  | _ => do
    skipField budget key
    return a

end Dataflow.Wire
