import Dataflow.Literal
import Dataflow.Wire.Field

/- The messages of dimensions, declared shapes and tensor literals: how each is written, and how
   each field of it is read. -/

namespace Dataflow.Wire

/-! ## Dimensions -/

def writeDimension (d : Dimension) : Bytes :=
  writeScalarUnless .int64 1 0 d.size ++ writeText 2 d.name

def dimensionField : FieldReader Dimension := fun budget key d =>
  match key.tag with
  | 1 => within "Dim" "size" do return { d with size := ← readScalar .int64 key }
  | 2 => within "Dim" "name" do return { d with name := ← readText key }
  | _ => do
    skipField budget key
    return d

/-! ## Shapes -/

def writeShape (s : DeclaredShape) : Bytes :=
  writeEach writeDimension 2 s.dimensions ++ writeScalarUnless .bool 3 false s.unknownRank

def shapeField : FieldReader DeclaredShape := fun budget key s =>
  match key.tag with
  | 2 => within "TensorShapeProto" "dim" do
    let d ← readMessage dimensionField budget key {}
    return { s with dimensions := s.dimensions ++ [d] }
  | 3 => within "TensorShapeProto" "unknown_rank" do
    return { s with unknownRank := ← readScalar .bool key }
  | _ => do
    skipField budget key
    return s

/-! ## Literals -/

def writeTensor (l : Literal) : Bytes :=
  writeScalarUnless .int32 1 0 l.typeCode
    ++ writeEach writeShape 2 l.shape.toList
    ++ writeScalarUnless .int32 3 0 l.version
    ++ writeBytes 4 l.content
    ++ writePacked .binary32 5 l.floats
    ++ writePacked .binary64 6 l.doubles
    ++ writePacked .int32 7 l.ints
    ++ writeEach id 8 l.strings
    ++ writePacked .binary32 9 l.complexFloats
    ++ writePacked .int64 10 l.longs
    ++ writePacked .bool 11 l.bools
    ++ writePacked .binary64 12 l.complexDoubles
    ++ writePacked .int32 13 l.halves
    ++ writeEach id 14 l.resources
    ++ writeEach id 15 l.variants
    ++ writePacked .uint32 16 l.unsignedInts
    ++ writePacked .uint64 17 l.unsignedLongs
    ++ writeBytes 18 l.quarters

def tensorField : FieldReader Literal := fun budget key l =>
  let named := within (α := Literal) "TensorProto"
  match key.tag with
  | 1 => named "dtype" do return { l with typeCode := ← readScalar .int32 key }
  | 2 => named "tensor_shape" do
    let s ← readMessage shapeField budget key (l.shape.getD {})
    return { l with shape := some s }
  | 3 => named "version_number" do return { l with version := ← readScalar .int32 key }
  | 4 => named "tensor_content" do return { l with content := ← readBytes key }
  | 5 => named "float_val" do return { l with floats := ← readRepeated .binary32 key l.floats }
  | 6 => named "double_val" do return { l with doubles := ← readRepeated .binary64 key l.doubles }
  | 7 => named "int_val" do return { l with ints := ← readRepeated .int32 key l.ints }
  | 8 => named "string_val" do return { l with strings := l.strings ++ [← readBytes key] }
  | 9 => named "scomplex_val" do
    return { l with complexFloats := ← readRepeated .binary32 key l.complexFloats }
  | 10 => named "int64_val" do return { l with longs := ← readRepeated .int64 key l.longs }
  | 11 => named "bool_val" do return { l with bools := ← readRepeated .bool key l.bools }
  | 12 => named "dcomplex_val" do
    return { l with complexDoubles := ← readRepeated .binary64 key l.complexDoubles }
  | 13 => named "half_val" do return { l with halves := ← readRepeated .int32 key l.halves }
  | 14 => named "resource_handle_val" do
    return { l with resources := l.resources ++ [← readBytes key] }
  | 15 => named "variant_val" do return { l with variants := l.variants ++ [← readBytes key] }
  | 16 => named "uint32_val" do
    return { l with unsignedInts := ← readRepeated .uint32 key l.unsignedInts }
  | 17 => named "uint64_val" do
    return { l with unsignedLongs := ← readRepeated .uint64 key l.unsignedLongs }
  | 18 => named "float8_val" do return { l with quarters := ← readBytes key }
  | _ => do
    skipField budget key
    return l

end Dataflow.Wire
