import Dataflow.Error

/- The element types of tensors, their numbers in stored graphs, the width of a packed element,
   and the storage in which elements are kept once they are read. A storage may be wider than the
   type: small integers of either sign are kept in 32 bits. -/

namespace Dataflow

inductive ElementType where
  | invalid
  | float
  | double
  | int32
  | uint8
  | int16
  | int8
  | string
  | int64
  | bool
  | qint8
  | quint8
  | qint32
  | bfloat16
  | half
  deriving DecidableEq, Repr

/-- The storage of elements that have been read. -/
inductive Storage where
  | float
  | double
  | int32
  | int64
  | bool
  deriving DecidableEq, Repr

namespace ElementType

def all : List ElementType :=
  [invalid, float, double, int32, uint8, int16, int8, string, int64, bool, qint8, quint8, qint32,
    bfloat16, half]

def code : ElementType → Int32
  | invalid => 0
  | float => 1
  | double => 2
  | int32 => 3
  | uint8 => 4
  | int16 => 5
  | int8 => 6
  | string => 7
  | int64 => 9
  | bool => 10
  | qint8 => 11
  | quint8 => 12
  | qint32 => 13
  | bfloat16 => 14
  | half => 19

def ofCode? (n : Int32) : Option ElementType := all.find? fun t => t.code == n

def name : ElementType → String
  | invalid => "Invalid"
  | float => "Float"
  | double => "Double"
  | int32 => "Int32"
  | uint8 => "Uint8"
  | int16 => "Int16"
  | int8 => "Int8"
  | string => "String"
  | int64 => "Int64"
  | bool => "Bool"
  | qint8 => "Qint8"
  | quint8 => "Quint8"
  | qint32 => "Qint32"
  | bfloat16 => "Bfloat16"
  | half => "Half"

/-- The refusal of a number that names no usable element type. -/
def refusal (n : Int32) : Error := .invalidElementType n.toInt

def ofCode (n : Int32) : Except Error ElementType :=
  match ofCode? n with
  | some t => .ok t
  | none => .error (refusal n)

/-- The number of bytes of a packed element, for types that can be packed. -/
def width? : ElementType → Option Nat
  | float | int32 | qint32 => some 4
  | double | int64 => some 8
  | int16 | half | bfloat16 => some 2
  | uint8 | int8 | bool | qint8 | quint8 => some 1
  | invalid | string => none

def width (t : ElementType) : Except Error Nat :=
  match t.width? with
  | some n => .ok n
  | none => .error (refusal t.code)

/-- The storage of elements of a type, for types whose elements are read. Narrow integers are
widened to 32 bits. -/
def storage? : ElementType → Option Storage
  | float => some .float
  | double => some .double
  | int32 | int16 | int8 | uint8 | qint8 | quint8 | qint32 => some .int32
  | int64 => some .int64
  | bool => some .bool
  | invalid | string | bfloat16 | half => none

def storage (t : ElementType) : Except Error Storage :=
  match t.storage? with
  | some s => .ok s
  | none => .error (refusal t.code)

def isFloat : ElementType → Bool
  | float | double | half | bfloat16 => true
  | _ => false

/-- Whether a type holds integers, plain or quantized. -/
def isInteger : ElementType → Bool
  | int8 | int16 | int32 | int64 | uint8 | qint8 | quint8 | qint32 => true
  | _ => false

/-- The numbers an integer type can hold, least and greatest. -/
def range? : ElementType → Option (Int × Int)
  | int8 | qint8 => some (-128, 127)
  | uint8 | quint8 => some (0, 255)
  | int16 => some (-32768, 32767)
  | int32 | qint32 => some (-2147483648, 2147483647)
  | int64 => some (-9223372036854775808, 9223372036854775807)
  | _ => none

theorem ofCode?_code (t : ElementType) : ofCode? t.code = some t := by cases t <;> rfl

end ElementType

namespace Storage

def elementType : Storage → ElementType
  | float => .float
  | double => .double
  | int32 => .int32
  | int64 => .int64
  | bool => .bool

/-- The number of bytes that an element takes once it is read. -/
def width : Storage → Nat
  | float | int32 => 4
  | double | int64 => 8
  | bool => 1

end Storage

end Dataflow
