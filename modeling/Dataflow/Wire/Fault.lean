/- What can be wrong with the bytes of a stored message, and where. A fault carries its cause and
   the fields around it, innermost first, in the order in which the reader leaves them. -/

namespace Dataflow.Wire

/-- How the payload of a field is laid out. -/
inductive WireType where
  | varint
  | fixed64
  | delimited
  | startGroup
  | endGroup
  | fixed32
  deriving DecidableEq, Repr

namespace WireType

def code : WireType → Nat
  | varint => 0
  | fixed64 => 1
  | delimited => 2
  | startGroup => 3
  | endGroup => 4
  | fixed32 => 5

/-- The layout with a number; six and seven name none. -/
def ofCode? : Nat → Option WireType
  | 0 => some varint
  | 1 => some fixed64
  | 2 => some delimited
  | 3 => some startGroup
  | 4 => some endGroup
  | 5 => some fixed32
  | _ => none

def name : WireType → String
  | varint => "Varint"
  | fixed64 => "SixtyFourBit"
  | delimited => "LengthDelimited"
  | startGroup => "StartGroup"
  | endGroup => "EndGroup"
  | fixed32 => "ThirtyTwoBit"

theorem ofCode_code (w : WireType) : ofCode? w.code = some w := by cases w <;> rfl

end WireType

inductive Cause where
  /-- A number that does not end, is longer than ten bytes, or exceeds 64 bits. -/
  | invalidVarint
  /-- A field key above 32 bits. -/
  | invalidKey (value : Nat)
  /-- A field key with a layout that does not exist. -/
  | invalidWireType (code : Nat)
  /-- A field key with field number zero. -/
  | invalidTag
  /-- A known field in another layout than its own. -/
  | unexpectedWireType (got want : WireType)
  /-- A payload longer than what is left of the input. -/
  | underflow
  /-- The parts of a delimited payload run past its end. -/
  | lengthExceeded
  /-- A text that is not UTF-8. -/
  | notUtf8
  /-- The end of a group that is not open. -/
  | unexpectedEndGroup
  /-- Nesting deeper than the reader follows. -/
  | nestedTooDeep
  deriving DecidableEq, Repr

def Cause.message : Cause → String
  | .invalidVarint => "invalid varint"
  | .invalidKey value => "invalid key value: " ++ value.repr
  | .invalidWireType code => "invalid wire type value: " ++ code.repr
  | .invalidTag => "invalid tag value: 0"
  | .unexpectedWireType got want =>
    "invalid wire type: " ++ got.name ++ " (expected " ++ want.name ++ ")"
  | .underflow => "buffer underflow"
  | .lengthExceeded => "delimited length exceeded"
  | .notUtf8 => "invalid string value: data is not UTF-8 encoded"
  | .unexpectedEndGroup => "unexpected end group tag"
  | .nestedTooDeep => "recursion limit reached"

/-- A field of a message, by the names used in messages. -/
structure FieldName where
  message : String
  field : String
  deriving DecidableEq, Repr

/-- A cause and the fields around it, innermost first. -/
structure Fault where
  path : List FieldName
  cause : Cause
  deriving DecidableEq, Repr

namespace Fault

def bare (cause : Cause) : Fault := { path := [], cause }

def within (field : FieldName) (f : Fault) : Fault := { f with path := f.path ++ [field] }

/-- The wording of a fault: the fields around it, then the cause. -/
def message (f : Fault) : String :=
  "failed to decode Protobuf message: "
    ++ String.join (f.path.map fun n => n.message ++ "." ++ n.field ++ ": ") ++ f.cause.message

end Fault
end Dataflow.Wire
