import Dataflow.Literal

/- An attribute of a node holds one value, or none. The kinds that are supported are a closed
   set: of the lists only those of integers belong to it, so that a list is judged by the
   payloads it holds (`Attribute.kind?`). -/

namespace Dataflow

/-- The list payload of an attribute. A stored list may hold elements of several fields. -/
structure AttributeList where
  strings : List Bytes := []
  ints : List Int64 := []
  floats : List Binary32 := []
  bools : List Bool := []
  typeCodes : List Int32 := []
  shapes : List DeclaredShape := []
  tensors : List Literal := []
  deriving DecidableEq, Repr

/-- The value of an attribute. -/
inductive Attribute where
  /-- No value. -/
  | none
  | list (items : AttributeList)
  | string (bytes : Bytes)
  | int (value : Int64)
  | float (value : Binary32)
  | bool (value : Bool)
  /-- An element type by its number. -/
  | typeCode (code : Int32)
  | shape (value : DeclaredShape)
  | tensor (value : Literal)
  deriving DecidableEq, Repr

inductive AttributeKind where
  | int
  | float
  | bool
  | string
  | intList
  | shape
  | elementType
  | tensor
  deriving DecidableEq, Repr

namespace AttributeList

/-- Whether the list holds no element that is not an integer. -/
def onlyInts (l : AttributeList) : Bool :=
  l.strings.isEmpty && l.floats.isEmpty && l.bools.isEmpty && l.typeCodes.isEmpty
    && l.shapes.isEmpty && l.tensors.isEmpty

def withoutFloats (l : AttributeList) : AttributeList := { l with floats := [], tensors := [] }

def sameNumbers (a b : AttributeList) : Bool :=
  listsAgree Binary32.sameNumber a.floats b.floats
    && listsAgree Literal.sameNumbers a.tensors b.tensors
    && decide (a.withoutFloats = b.withoutFloats)

end AttributeList

namespace Attribute

/-- The kind of an attribute; none for an empty one and for lists of anything but integers. -/
def kind? : Attribute → Option AttributeKind
  | .none => Option.none
  | .int _ => some .int
  | .float _ => some .float
  | .bool _ => some .bool
  | .string _ => some .string
  | .typeCode _ => some .elementType
  | .shape _ => some .shape
  | .tensor _ => some .tensor
  | .list items => if items.onlyInts then some .intList else Option.none

/-! ## Making attributes -/

def ofInts (values : List Int64) : Attribute := .list { ints := values }

def ofDims (dims : List Int64) : Attribute := .shape (DeclaredShape.ofDims dims)

def ofElementType (t : ElementType) : Attribute := .typeCode t.code

/-! ## Reading attributes -/

def int? : Attribute → Option Int64
  | .int value => some value
  | _ => Option.none

def float? : Attribute → Option Binary32
  | .float value => some value
  | _ => Option.none

def bool? : Attribute → Option Bool
  | .bool value => some value
  | _ => Option.none

def string? : Attribute → Option Bytes
  | .string bytes => some bytes
  | _ => Option.none

def ints? : Attribute → Option (List Int64)
  | .list items => some items.ints
  | _ => Option.none

/-- The element type of a type attribute, if its number names one. -/
def elementType? : Attribute → Option ElementType
  | .typeCode code => ElementType.ofCode? code
  | _ => Option.none

def shape? : Attribute → Option DeclaredShape
  | .shape value => some value
  | _ => Option.none

def tensor? : Attribute → Option Literal
  | .tensor value => some value
  | _ => Option.none

def sameNumbers : Attribute → Attribute → Bool
  | .float a, .float b => a.sameNumber b
  | .list a, .list b => a.sameNumbers b
  | .tensor a, .tensor b => a.sameNumbers b
  | a, b => decide (a = b)

end Attribute
end Dataflow
