import Dataflow.Wire.Varint

/- Every field starts with a key: its number and the layout of its payload. A field whose number
   is not known is skipped by its layout; groups are skipped field by field up to their own end,
   as deep as the nesting budget allows. -/

namespace Dataflow.Wire

structure Key where
  tag : Nat
  layout : WireType
  deriving DecidableEq, Repr

/-- How many messages and groups may be nested. -/
def nestingLimit : Nat := 100

def writeKey (k : Key) : Bytes := writeVarint (k.tag * 8 + k.layout.code)

/-- The key with a number: the layout in the three lowest bits, the field above them. -/
def keyOf (n : Nat) : Except Fault Key :=
  if 4294967295 < n then fail (.invalidKey n)
  else
    match WireType.ofCode? (n % 8) with
    | none => fail (.invalidWireType (n % 8))
    | some layout => if n / 8 = 0 then fail .invalidTag else .ok { tag := n / 8, layout }

def readKey : Reader Key := do
  let n ← readVarint
  keyOf n

/-- Refuses a known field in another layout than `want`. -/
def expect (want : WireType) (key : Key) : Except Fault Unit :=
  if key.layout = want then .ok () else fail (.unexpectedWireType key.layout want)

/-! ## Skipping -/

/-- Skips fields up to the end of the open group. There are at most `fuel` of them, which is enough
if it is the number of bytes. -/
def skipGroup (skip : Key → Reader Unit) (tag : Nat) : (fuel : Nat) → Reader Unit
  | 0 => fail .invalidVarint
  | fuel + 1 => do
    let key ← readKey
    if key.layout = .endGroup then
      if key.tag = tag then pure () else fail .unexpectedEndGroup
    else
      skip key
      skipGroup skip tag fuel

def skipField : (budget : Nat) → Key → Reader Unit
  | 0, _ => fail .nestedTooDeep
  | budget + 1, key =>
    match key.layout with
    | .varint => do let _ ← readVarint
    | .fixed32 => do let _ ← take 4
    | .fixed64 => do let _ ← take 8
    | .delimited => do
      let n ← readVarint
      let _ ← take n
    | .startGroup => do
      let i ← get
      skipGroup (skipField budget) key.tag i.size
    | .endGroup => fail .unexpectedEndGroup

/-! ## Laws -/

theorem WireType.code_lt (w : WireType) : w.code < 8 := by cases w <;> decide

/-- A key of a field number below `2 ^ 29` reads back. -/
theorem readKey_writeKey {k : Key} (hpos : 0 < k.tag) (hlt : k.tag < 536870912) (rest : Bytes) :
    readKey (Input.ofBytes (writeKey k ++ rest)) = .ok (k, Input.ofBytes rest) := by
  have hc := k.layout.code_lt
  have hv : k.tag * 8 + k.layout.code < 18446744073709551616 := by omega
  have hmod : (k.tag * 8 + k.layout.code) % 8 = k.layout.code := by omega
  have hdiv : (k.tag * 8 + k.layout.code) / 8 = k.tag := by omega
  have hkey : keyOf (k.tag * 8 + k.layout.code) = .ok k := by
    unfold keyOf
    rw [if_neg (by omega), hmod, hdiv, WireType.ofCode_code]
    simp [Nat.ne_of_gt hpos]
  simp [readKey, writeKey, readVarint_writeVarint hv, hkey, bind, StateT.bind, Except.bind,
    liftM, monadLift, MonadLift.monadLift, StateT.lift, pure, Except.pure]

end Dataflow.Wire
