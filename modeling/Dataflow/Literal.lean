import Dataflow.Binary
import Dataflow.Bytes
import Dataflow.ElementType

/- A tensor as it is stored: its element type by number, its declared shape, and its elements
   either packed into bytes or listed in the field of their type. Nothing here asks whether the
   parts go together; reading a literal as a value does. -/

namespace Dataflow

/-- A dimension of a declared shape: its size, negative when unknown, and a name that may be
empty. -/
structure Dimension where
  size : Int64 := 0
  name : String := ""
  deriving DecidableEq, Repr

structure DeclaredShape where
  dimensions : List Dimension := []
  /-- Set when even the number of dimensions is unknown. -/
  unknownRank : Bool := false
  deriving DecidableEq, Repr

namespace DeclaredShape

def ofDims (dims : List Int64) : DeclaredShape :=
  { dimensions := dims.map fun size => { size } }

def dims (s : DeclaredShape) : List Int64 := s.dimensions.map Dimension.size

theorem dims_ofDims (dims : List Int64) : (ofDims dims).dims = dims := by
  simp [ofDims, DeclaredShape.dims, Function.comp_def]

end DeclaredShape

structure Literal where
  /-- The number of the element type. -/
  typeCode : Int32 := 0
  shape : Option DeclaredShape := none
  version : Int32 := 0
  /-- Elements packed with the lowest byte first. -/
  content : Bytes := []
  floats : List Binary32 := []
  doubles : List Binary64 := []
  /-- Integers of up to 32 bits. -/
  ints : List Int32 := []
  strings : List Bytes := []
  /-- Real and imaginary parts in turn. -/
  complexFloats : List Binary32 := []
  longs : List Int64 := []
  bools : List Bool := []
  /-- Real and imaginary parts in turn. -/
  complexDoubles : List Binary64 := []
  /-- Patterns of 16-bit floating-point numbers. -/
  halves : List Int32 := []
  resources : List Bytes := []
  variants : List Bytes := []
  unsignedInts : List UInt32 := []
  unsignedLongs : List UInt64 := []
  /-- Patterns of 8-bit floating-point numbers. -/
  quarters : Bytes := []
  deriving DecidableEq, Repr

namespace Literal

/-- The declared sizes; a literal without a shape is a scalar. -/
def dims (l : Literal) : List Int64 := (l.shape.map DeclaredShape.dims).getD []

def withoutFloats (l : Literal) : Literal :=
  { l with floats := [], doubles := [], complexFloats := [], complexDoubles := [] }

end Literal

def listsAgree {α : Type} (same : α → α → Bool) : List α → List α → Bool
  | [], [] => true
  | x :: xs, y :: ys => same x y && listsAgree same xs ys
  | _, _ => false

/-- Whether two literals are equal, with floating-point fields compared as numbers. -/
def Literal.sameNumbers (a b : Literal) : Bool :=
  listsAgree Binary32.sameNumber a.floats b.floats
    && listsAgree Binary64.sameNumber a.doubles b.doubles
    && listsAgree Binary32.sameNumber a.complexFloats b.complexFloats
    && listsAgree Binary64.sameNumber a.complexDoubles b.complexDoubles
    && decide (a.withoutFloats = b.withoutFloats)

end Dataflow
