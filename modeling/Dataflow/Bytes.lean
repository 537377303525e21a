/- Byte strings as lists, and numbers of a fixed width written with the lowest byte first. A
   number written in `n` bytes reads back modulo `256 ^ n`, and so do numbers written one after
   the other. -/

namespace Dataflow

abbrev Bytes := List UInt8

namespace Bytes

/-- The number written by bytes, lowest byte first. -/
def littleEndian : Bytes → Nat
  | [] => 0
  | b :: bs => b.toNat + 256 * littleEndian bs

/-- The lowest `n` bytes of a number, lowest first. -/
def ofNat : (n value : Nat) → Bytes
  | 0, _ => []
  | n + 1, value => UInt8.ofNat value :: ofNat n (value / 256)

/-- The first `count` numbers of `width` bytes each. -/
def numbers (width : Nat) : (count : Nat) → Bytes → List Nat
  | 0, _ => []
  | count + 1, bytes => littleEndian (bytes.take width) :: numbers width count (bytes.drop width)

/-- The text of bytes, if they are UTF-8. -/
def toText? (bytes : Bytes) : Option String := String.fromUTF8? ⟨bytes.toArray⟩

def ofText (text : String) : Bytes := text.toUTF8.data.toList

@[simp] theorem length_ofNat (n value : Nat) : (ofNat n value).length = n := by
  induction n generalizing value with
  | zero => rfl
  | succ n ih => simp [ofNat, ih]

@[simp] theorem length_numbers (width count : Nat) (bytes : Bytes) :
    (numbers width count bytes).length = count := by
  induction count generalizing bytes with
  | zero => rfl
  | succ count ih => simp [numbers, ih]

theorem littleEndian_ofNat (n value : Nat) :
    littleEndian (ofNat n value) = value % Nat.pow 256 n := by
  induction n generalizing value with
  | zero => simp [ofNat, littleEndian, Nat.mod_one]
  | succ n ih =>
    have hp : Nat.pow 256 (n + 1) = 256 * Nat.pow 256 n := Nat.mul_comm _ _
    simp only [ofNat, littleEndian, ih, hp, Nat.mod_mul]
    simp

theorem toText?_ofText (text : String) : toText? (ofText text) = some text := by
  have h : (⟨(ofText text).toArray⟩ : ByteArray) = text.toByteArray := by
    simp [ofText, String.toUTF8]
  simp only [toText?, h, String.fromUTF8?, text.isValidUTF8, dif_pos]
  rfl

theorem ofText_of_toText? {bytes : Bytes} {text : String} (h : toText? bytes = some text) :
    ofText text = bytes := by
  rw [toText?, String.fromUTF8?] at h
  split at h
  · cases h
    simp [ofText, String.toUTF8, String.fromUTF8]
  · cases h

end Bytes
end Dataflow
