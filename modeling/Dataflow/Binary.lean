/- Floating-point elements are kept as bit patterns, so that every pattern, not-a-numbers
   included, is stored and read back as it is. Arithmetic is that of `Float32` and `Float` on
   patterns that are numbers. A not-a-number passes through: the first operand that is one wins
   and becomes quiet, and an operation that has no result gives the default pattern. -/

namespace Dataflow

/-- A 32-bit floating-point pattern. -/
structure Binary32 where
  bits : UInt32
  deriving DecidableEq, Repr

/-- A 64-bit floating-point pattern. -/
structure Binary64 where
  bits : UInt64
  deriving DecidableEq, Repr

namespace Binary32

def zero : Binary32 := ⟨0⟩

def one : Binary32 := ⟨0x3f800000⟩

/-- The pattern an operation without a result gives. -/
def noNumber : Binary32 := ⟨0xffc00000⟩

def value (x : Binary32) : Float32 := Float32.ofBits x.bits

def ofValue (v : Float32) : Binary32 := ⟨v.toBits⟩

def isNaN (x : Binary32) : Bool := x.bits &&& 0x7fffffff > 0x7f800000

/-- The quiet form of a pattern that is no number. -/
def quiet (x : Binary32) : Binary32 := ⟨x.bits ||| 0x00400000⟩

/-- Whether two patterns are equal as numbers. -/
def sameNumber (x y : Binary32) : Bool := x.value == y.value

def ofBool (b : Bool) : Binary32 := if b then one else zero

def isZero (x : Binary32) : Bool := x.bits &&& 0x7fffffff == 0

/-- An operation on numbers, on patterns. -/
def combine (op : Float32 → Float32 → Float32) (x y : Binary32) : Binary32 :=
  if x.isNaN then x.quiet
  else if y.isNaN then y.quiet
  else
    -- Both are numbers, so a result that is none comes from the operation.
    let r := ofValue (op x.value y.value)
    if r.isNaN then noNumber else r

def add : Binary32 → Binary32 → Binary32 := combine (· + ·)

def sub : Binary32 → Binary32 → Binary32 := combine (· - ·)

def mul : Binary32 → Binary32 → Binary32 := combine (· * ·)

def toBinary64 (x : Binary32) : Binary64 :=
  if x.isNaN then
    -- The payload keeps its place below the sign and the exponent, and is made quiet.
    let sign : UInt64 := (x.bits.toUInt64 &&& 0x80000000) <<< (32 : UInt64)
    let payload : UInt64 := (x.bits.toUInt64 &&& 0x007fffff) <<< (29 : UInt64)
    ⟨sign ||| 0x7ff8000000000000 ||| payload⟩
  else ⟨x.value.toFloat.toBits⟩

/-- The number cut to a 32-bit integer; too large a number goes to the nearest bound and no number
to zero. -/
def toInt32 (x : Binary32) : Int32 := x.value.toInt32

def toInt64 (x : Binary32) : Int64 := x.value.toInt64

end Binary32

namespace Binary64

def zero : Binary64 := ⟨0⟩

def one : Binary64 := ⟨0x3ff0000000000000⟩

def value (x : Binary64) : Float := Float.ofBits x.bits

def ofValue (v : Float) : Binary64 := ⟨v.toBits⟩

def isNaN (x : Binary64) : Bool := x.bits &&& 0x7fffffffffffffff > 0x7ff0000000000000

def sameNumber (x y : Binary64) : Bool := x.value == y.value

def ofBool (b : Bool) : Binary64 := if b then one else zero

def isZero (x : Binary64) : Bool := x.bits &&& 0x7fffffffffffffff == 0

/-- The nearest number of 32 bits. -/
def toBinary32 (x : Binary64) : Binary32 :=
  if x.isNaN then
    -- The low bits of the payload are lost; the rest is made quiet.
    let sign : UInt64 := (x.bits >>> (32 : UInt64)) &&& 0x80000000
    let payload : UInt64 := (x.bits >>> (29 : UInt64)) &&& 0x003fffff
    ⟨(sign ||| 0x7fc00000 ||| payload).toUInt32⟩
  else ⟨x.value.toFloat32.toBits⟩

def toInt32 (x : Binary64) : Int32 := x.value.toInt32

def toInt64 (x : Binary64) : Int64 := x.value.toInt64

end Binary64
end Dataflow
