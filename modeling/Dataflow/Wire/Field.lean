import Dataflow.Binary
import Dataflow.Wire.Key

/- Writing and reading the fields of messages: numbers of a fixed kind, alone or packed one after
   another; texts and byte strings; and messages inside messages. A delimited payload is read
   part by part; the parts may read past its end, which is noticed after the part that did so. -/

namespace Dataflow.Wire

/-- A kind of number: the layout of one of them, and how it is read and written. -/
structure Scalar (α : Type) where
  layout : WireType
  read : Reader α
  write : α → Bytes

namespace Scalar

def unsigned64 (n : Int) : Nat := (n % 18446744073709551616).toNat

/-- Integers of 32 bits. Only the low 32 bits are read; negative numbers are written in 64. -/
def int32 : Scalar Int32 where
  layout := .varint
  read := do return Int32.ofInt (← readVarint)
  write n := writeVarint (unsigned64 n.toInt)

def int64 : Scalar Int64 where
  layout := .varint
  read := do return Int64.ofInt (← readVarint)
  write n := writeVarint (unsigned64 n.toInt)

def uint32 : Scalar UInt32 where
  layout := .varint
  read := do return UInt32.ofNat (← readVarint)
  write n := writeVarint n.toNat

def uint64 : Scalar UInt64 where
  layout := .varint
  read := do return UInt64.ofNat (← readVarint)
  write n := writeVarint n.toNat

def bool : Scalar Bool where
  layout := .varint
  read := do return (← readVarint) != 0
  write b := writeVarint b.toNat

def binary32 : Scalar Binary32 where
  layout := .fixed32
  read := do return ⟨UInt32.ofNat (Bytes.littleEndian (← take 4))⟩
  write x := Bytes.ofNat 4 x.bits.toNat

def binary64 : Scalar Binary64 where
  layout := .fixed64
  read := do return ⟨UInt64.ofNat (Bytes.littleEndian (← take 8))⟩
  write x := Bytes.ofNat 8 x.bits.toNat

end Scalar

/-! ## Writing -/

def withLength (payload : Bytes) : Bytes := writeVarint payload.length ++ payload

def writeDelimited (tag : Nat) (payload : Bytes) : Bytes :=
  writeKey { tag, layout := .delimited } ++ withLength payload

def writeScalar {α : Type} (s : Scalar α) (tag : Nat) (x : α) : Bytes :=
  writeKey { tag, layout := s.layout } ++ s.write x

/-- A field with one number, left out when it is `zero`. -/
def writeScalarUnless {α : Type} [DecidableEq α] (s : Scalar α) (tag : Nat) (zero x : α) : Bytes :=
  if x = zero then [] else writeScalar s tag x

/-- A field with numbers one after another, left out when there are none. -/
def writePacked {α : Type} (s : Scalar α) (tag : Nat) (xs : List α) : Bytes :=
  if xs.isEmpty then [] else writeDelimited tag (xs.flatMap s.write)

def writeBytes (tag : Nat) (b : Bytes) : Bytes := if b.isEmpty then [] else writeDelimited tag b

def writeText (tag : Nat) (s : String) : Bytes := writeBytes tag (Bytes.ofText s)

def writeEach {α : Type} (payload : α → Bytes) (tag : Nat) (xs : List α) : Bytes :=
  xs.flatMap fun x => writeDelimited tag (payload x)

/-! ## Reading -/

/-- Repeats a step until at most `limit` bytes are left, which must then be exactly as many. There
are at most `fuel` steps, which is enough if it is the number of bytes. -/
def repeatDown {α : Type} (step : α → Reader α) (limit : Nat) : (fuel : Nat) → α → Reader α
  | 0, acc => do
    let i ← get
    if i.size = limit then pure acc else fail .lengthExceeded
  | fuel + 1, acc => do
    let i ← get
    if limit < i.size then
      let acc ← step acc
      repeatDown step limit fuel acc
    else if i.size = limit then pure acc
    else fail .lengthExceeded

def readDelimited {α : Type} (step : α → Reader α) (acc : α) : Reader α := do
  let n ← readVarint
  let i ← get
  if i.size < n then fail .underflow
  -- The payload ends where so many bytes of the input are left.
  else repeatDown step (i.size - n) i.size acc

def readScalar {α : Type} (s : Scalar α) (key : Key) : Reader α := do
  expect s.layout key
  s.read

/-- Reads numbers, one or packed, and puts them after those read before. -/
def readRepeated {α : Type} (s : Scalar α) (key : Key) (before : List α) : Reader (List α) :=
  if key.layout = .delimited then do
    let latest ← readDelimited (fun xs => do return (← s.read) :: xs) []
    return before ++ latest.reverse
  else do
    let x ← readScalar s key
    return before ++ [x]

def readBytes (key : Key) : Reader Bytes := do
  expect .delimited key
  let n ← readVarint
  take n

def readText (key : Key) : Reader String := do
  let b ← readBytes key
  match Bytes.toText? b with
  | some s => pure s
  | none => fail .notUtf8

/-- How one field of a message is read into what has been read of it so far. -/
abbrev FieldReader (α : Type) := (budget : Nat) → Key → α → Reader α

/-- Reads the fields of a delimited payload, one level deeper. -/
def readFields {α : Type} (field : FieldReader α) : (budget : Nat) → α → Reader α
  | 0, _ => fail .nestedTooDeep
  | budget + 1, a =>
    readDelimited (fun a => do
      let key ← readKey
      field budget key a) a

/-- Reads a message inside a message into what has been read of it so far. -/
def readMessage {α : Type} (field : FieldReader α) (budget : Nat) (key : Key) (a : α) :
    Reader α := do
  expect .delimited key
  readFields field budget a

def readWhole {α : Type} (field : FieldReader α) (a : α) (bytes : Bytes) : Except Fault α :=
  let step (a : α) : Reader α := do
    let key ← readKey
    field nestingLimit key a
  Prod.fst <$> repeatDown step 0 bytes.length a (Input.ofBytes bytes)

/-- The reading of a known field: faults inside it name the field. -/
def within {α : Type} (message field : String) (r : Reader α) : Reader α := fun i =>
  (r i).mapError (Fault.within { message, field })

end Dataflow.Wire
