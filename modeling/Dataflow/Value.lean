import Dataflow.DenseArray
import Dataflow.Literal

/- A value is a tensor that has been read: a dense array of one storage. It can be cast element
   by element and brought to a shape. -/

namespace Dataflow

inductive Value where
  | float (array : DenseArray Binary32)
  | double (array : DenseArray Binary64)
  | int32 (array : DenseArray Int32)
  | int64 (array : DenseArray Int64)
  | bool (array : DenseArray Bool)
  deriving DecidableEq

namespace Value

def storage : Value → Storage
  | float _ => .float
  | double _ => .double
  | int32 _ => .int32
  | int64 _ => .int64
  | bool _ => .bool

def shape : Value → List Nat
  | float a => a.shape
  | double a => a.shape
  | int32 a => a.shape
  | int64 a => a.shape
  | bool a => a.shape

def size (v : Value) : Nat := Shape.volume v.shape

def elementType (v : Value) : ElementType := v.storage.elementType

/-- Whether two values have one storage and shape and equal elements; floating-point elements are
compared as numbers. -/
def sameNumbers : Value → Value → Bool
  | float a, float b => a.agrees Binary32.sameNumber b
  | double a, double b => a.agrees Binary64.sameNumber b
  | int32 a, int32 b => a.agrees (· == ·) b
  | int64 a, int64 b => a.agrees (· == ·) b
  | bool a, bool b => a.agrees (· == ·) b
  | _, _ => false

/-! ## Casting -/

/-- The value as 32-bit floating-point elements, rounded to nearest. -/
def toFloat : Value → DenseArray Binary32
  | float a => a
  | double a => a.map Binary64.toBinary32
  | int32 a => a.map fun x => Binary32.ofValue x.toFloat32
  | int64 a => a.map fun x => Binary32.ofValue x.toFloat32
  | bool a => a.map Binary32.ofBool

def toDouble : Value → DenseArray Binary64
  | float a => a.map Binary32.toBinary64
  | double a => a
  | int32 a => a.map fun x => Binary64.ofValue x.toFloat
  | int64 a => a.map fun x => Binary64.ofValue x.toFloat
  | bool a => a.map Binary64.ofBool

/-- The value as 32-bit integers: numbers are cut and bounded, longer integers lose their high
bits. -/
def toInt32 : Value → DenseArray Int32
  | float a => a.map Binary32.toInt32
  | double a => a.map Binary64.toInt32
  | int32 a => a
  | int64 a => a.map Int64.toInt32
  | bool a => a.map Bool.toInt32

def toInt64 : Value → DenseArray Int64
  | float a => a.map Binary32.toInt64
  | double a => a.map Binary64.toInt64
  | int32 a => a.map Int32.toInt64
  | int64 a => a
  | bool a => a.map Bool.toInt64

/-- The value as conditions: everything but zero holds. -/
def toBool : Value → DenseArray Bool
  | float a => a.map fun x => !x.isZero
  | double a => a.map fun x => !x.isZero
  | int32 a => a.map fun x => x != 0
  | int64 a => a.map fun x => x != 0
  | bool a => a

def toStorage (v : Value) : Storage → Value
  | .float => float v.toFloat
  | .double => double v.toDouble
  | .int32 => int32 v.toInt32
  | .int64 => int64 v.toInt64
  | .bool => bool v.toBool

def cast (v : Value) (t : ElementType) : Except Error Value := do
  let s ← t.storage
  if Shape.fitsBytes s.width v.shape then return v.toStorage s else throw (.overrun .bytes)

/-! ## Shapes -/

def reshape (v : Value) (shape : List Nat) : Except Error Value :=
  let width := v.storage.width
  match v with
  | float a => float <$> a.fit width shape
  | double a => double <$> a.fit width shape
  | int32 a => int32 <$> a.fit width shape
  | int64 a => int64 <$> a.fit width shape
  | bool a => bool <$> a.fit width shape

/-- The value brought to declared sizes, all of which must be known. -/
def fitTo (v : Value) (dims : List Int64) : Except Error Value :=
  if Shape.isDynamic dims then
    .error (.shapeMismatch (.dynamicShape (dims.map Int64.toInt)))
  else v.reshape (Shape.clamp dims)

end Value
end Dataflow
