import Dataflow.Value

/- Reading a literal as a value and writing a value as a literal. A literal with packed content
   is read from it alone; otherwise the field of its element type is read and filled up to the
   declared shape. Filling up takes room for elements that are not stored, so a short literal may
   overrun. -/

namespace Dataflow

namespace Literal

/-- The elements of packed content: one number after another, narrow integers extended to 32
bits. -/
def unpack (t : ElementType) (count : Nat) (content : Bytes) : Option Value :=
  let numbers (width : Nat) := Bytes.numbers width count content
  match t with
  | .float => some <| .float <| .vector <| (numbers 4).map fun n => ⟨UInt32.ofNat n⟩
  | .double => some <| .double <| .vector <| (numbers 8).map fun n => ⟨UInt64.ofNat n⟩
  | .int32 | .qint32 => some <| .int32 <| .vector <| (numbers 4).map fun (n : Nat) => Int32.ofInt n
  -- Narrow signed integers are the balanced residues of the numbers read.
  | .int16 =>
    some <| .int32 <| .vector <| (numbers 2).map fun (n : Nat) => Int32.ofInt (Int.bmod n 65536)
  | .int8 | .qint8 =>
    some <| .int32 <| .vector <| (numbers 1).map fun (n : Nat) => Int32.ofInt (Int.bmod n 256)
  | .uint8 | .quint8 => some <| .int32 <| .vector <| (numbers 1).map fun (n : Nat) => Int32.ofInt n
  | .int64 => some <| .int64 <| .vector <| (numbers 8).map fun (n : Nat) => Int64.ofInt n
  | .bool => some <| .bool <| .vector <| (numbers 1).map fun n => n != 0
  | .half | .bfloat16 | .string | .invalid => none

/-- The elements of packed content, which must be exactly as long as the shape asks for. -/
def readContent (t : ElementType) (count : Nat) (content : Bytes) : Except Error Value := do
  let width ← t.width
  if count * width ≠ content.length then
    .error (.shapeMismatch (.contentSize content.length count width))
  else
    match unpack t count content with
    | some v => .ok v
    | none => .error (ElementType.refusal t.code)

def field (l : Literal) : Storage → Value
  | .float => .float (.vector l.floats)
  | .double => .double (.vector l.doubles)
  | .int32 => .int32 (.vector l.ints)
  | .int64 => .int64 (.vector l.longs)
  | .bool => .bool (.vector l.bools)

/-- Elements brought to the shape of their literal, with the last one repeated or zeros where the
literal holds fewer. -/
def fillUp (v : Value) (shape : List Nat) : Except Error Value :=
  let width := v.storage.width
  match v with
  | .float a => .float <$> DenseArray.ofStored width Binary32.zero a.data shape
  | .double a => .double <$> DenseArray.ofStored width Binary64.zero a.data shape
  | .int32 a => .int32 <$> DenseArray.ofStored width 0 a.data shape
  | .int64 a => .int64 <$> DenseArray.ofStored width 0 a.data shape
  | .bool a => .bool <$> DenseArray.ofStored width false a.data shape

def toValue (l : Literal) : Except Error Value := do
  let t ← ElementType.ofCode l.typeCode
  let count ← (Shape.declaredCount l.dims).mapError Error.shapeMismatch
  let stored ←
    if l.content.isEmpty then l.field <$> t.storage else readContent t count l.content
  fillUp stored (Shape.clamp l.dims)

end Literal

namespace Value

def listed (v : Value) (t : ElementType) : Literal :=
  let empty : Literal :=
    { typeCode := t.code, shape := some (DeclaredShape.ofDims (v.shape.map Int64.ofNat)) }
  match v with
  | float a => { empty with floats := a.data }
  | double a => { empty with doubles := a.data }
  | int32 a => { empty with ints := a.data }
  | int64 a => { empty with longs := a.data }
  | bool a => { empty with bools := a.data }

/-- The literal of a value: cast to an element type, and brought to a shape where one is given. -/
def toLiteral (v : Value) (t : ElementType) (dims : Option (List Int64)) :
    Except Error Literal := do
  let cast ← v.cast t
  let fitted ←
    match dims with
    | some dims => cast.fitTo dims
    | none => .ok cast
  return fitted.listed t

end Value
end Dataflow
