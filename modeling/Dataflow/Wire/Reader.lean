import Dataflow.Bytes
import Dataflow.Wire.Fault

/- A reader takes bytes from the front of an input. The input knows how many bytes it holds, so
   that payload lengths are compared without counting. -/

namespace Dataflow.Wire

/-- Bytes that are still to be read, with their number. -/
structure Input where
  bytes : Bytes
  size : Nat
  size_eq : size = bytes.length
  deriving DecidableEq

namespace Input

def ofBytes (bytes : Bytes) : Input := ⟨bytes, bytes.length, rfl⟩

def next? (i : Input) : Option (UInt8 × Input) :=
  match h : i.bytes with
  | [] => none
  | b :: rest => some (b, ⟨rest, i.size - 1, by rw [i.size_eq, h]; rfl⟩)

def drop (i : Input) (n : Nat) : Input :=
  ⟨i.bytes.drop n, i.size - n, by rw [i.size_eq, List.length_drop]⟩

theorem ext {i j : Input} (h : i.bytes = j.bytes) : i = j := by
  cases i with
  | mk b s hs =>
    cases j with
    | mk c t ht =>
      simp only at h
      subst h
      simp [hs, ht]

@[simp] theorem bytes_ofBytes (bytes : Bytes) : (ofBytes bytes).bytes = bytes := rfl

@[simp] theorem size_ofBytes (bytes : Bytes) : (ofBytes bytes).size = bytes.length := rfl

@[simp] theorem next?_cons (b : UInt8) (rest : Bytes) :
    (ofBytes (b :: rest)).next? = some (b, ofBytes rest) := rfl

@[simp] theorem drop_ofBytes (bytes : Bytes) (n : Nat) :
    (ofBytes bytes).drop n = ofBytes (bytes.drop n) := ext rfl

theorem next?_eq_some {i j : Input} {b : UInt8} (h : i.next? = some (b, j)) :
    i.bytes = b :: j.bytes := by
  unfold next? at h
  split at h
  · simp at h
  · rename_i b' rest hb
    simp only [Option.some.injEq, Prod.mk.injEq] at h
    rw [hb, h.1, ← h.2]

end Input

/-- A reader takes bytes from the front of the input, or finds a fault. -/
abbrev Reader := StateT Input (Except Fault)

/-- A fault outside of any known field. -/
def fail {α : Type} (cause : Cause) : Except Fault α := .error (Fault.bare cause)

def take (n : Nat) : Reader Bytes := fun i =>
  if i.size < n then fail .underflow else .ok (i.bytes.take n, i.drop n)

theorem take_append (payload rest : Bytes) :
    take payload.length (Input.ofBytes (payload ++ rest)) = .ok (payload, Input.ofBytes rest) := by
  have h : ¬(payload ++ rest).length < payload.length := by rw [List.length_append]; omega
  simp only [take, Input.size_ofBytes, if_neg h, Input.bytes_ofBytes, Input.drop_ofBytes,
    List.take_left, List.drop_left]

end Dataflow.Wire
