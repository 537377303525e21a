import Dataflow.Wire.Reader

/- A number is written seven bits at a time, lowest first, each byte but the last with its high
   bit set. The reader takes up to ten bytes and at most 64 bits; longer spellings of a number
   than needed are accepted. A number below `2 ^ 64` reads back from its bytes, whatever follows
   them. -/

namespace Dataflow.Wire

/-- The bytes of a number, at most `left` of them. -/
def varintBytes : (left value : Nat) → Bytes
  | 0, _ => []
  | left + 1, value =>
    if value < 128 then [UInt8.ofNat value]
    else UInt8.ofNat (value % 128 + 128) :: varintBytes left (value / 128)

def writeVarint (value : Nat) : Bytes := varintBytes 10 value

/-- The number at the front of an input, in at most `left` bytes. The last byte allowed holds the
64th bit only. -/
def varintOf? : (left : Nat) → Input → Option (Nat × Input)
  | 0, _ => none
  | left + 1, i =>
    match i.next? with
    | none => none
    | some (b, i) =>
      if b < 128 then
        -- The tenth byte stands for the bits from 63 on.
        if left = 0 ∧ 2 ≤ b then none else some (b.toNat, i)
      else
        match varintOf? left i with
        | some (high, i) => some (b.toNat - 128 + 128 * high, i)
        | none => none

def readVarint : Reader Nat := fun i =>
  match varintOf? 10 i with
  | some r => .ok r
  | none => fail .invalidVarint

theorem varintOf?_varintBytes {left value : Nat} (hlt : value < 2 * Nat.pow 128 left)
    (rest : Bytes) :
    varintOf? (left + 1) (Input.ofBytes (varintBytes (left + 1) value ++ rest))
      = some (value, Input.ofBytes rest) := by
  induction left generalizing value with
  | zero =>
    -- One byte is left, and it holds a single bit.
    have hv : value < 2 := by simpa using hlt
    have h128 : value < 128 := by omega
    have hb : UInt8.ofNat value < 128 := by
      rw [UInt8.lt_iff_toNat_lt]; simp; omega
    have h2 : ¬(2 ≤ UInt8.ofNat value) := by
      rw [UInt8.le_iff_toNat_le]; simp; omega
    simp [varintBytes, varintOf?, h128, hb, h2]
    omega
  | succ left ih =>
    rw [varintBytes]
    split
    · rename_i h128
      have hb : UInt8.ofNat value < 128 := by
        rw [UInt8.lt_iff_toNat_lt]; simp; omega
      simp [varintOf?, hb]
      omega
    · rename_i h128
      have hb : ¬(UInt8.ofNat (value % 128 + 128) < 128) := by
        rw [UInt8.lt_iff_toNat_lt]; simp; omega
      have hp : Nat.pow 128 (left + 1) = Nat.pow 128 left * 128 := rfl
      have hdiv : value / 128 < 2 * Nat.pow 128 left := by
        rw [Nat.div_lt_iff_lt_mul (by decide)]
        rw [hp] at hlt; omega
      rw [List.cons_append, varintOf?, Input.next?_cons]
      simp only [if_neg hb, ih hdiv]
      simp
      omega

/-- A number of up to 64 bits reads back from its bytes. -/
theorem readVarint_writeVarint {value : Nat} (h : value < 18446744073709551616) (rest : Bytes) :
    readVarint (Input.ofBytes (writeVarint value ++ rest)) = .ok (value, Input.ofBytes rest) := by
  have h9 : value < 2 * Nat.pow 128 9 := by simpa using h
  simp [readVarint, writeVarint, varintOf?_varintBytes h9]

end Dataflow.Wire
