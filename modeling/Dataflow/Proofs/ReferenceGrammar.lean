import Dataflow.Proofs.ReadBack
import Dataflow.Reference.Normalizer

/- A reference is a control marker or none, a name, and a port or none. The grammar, `Denotes`,
   says which reference a text denotes without saying how it is taken apart: one marker is one
   marker, whatever follows it, and a port suffix is a colon and a number at the very end,
   whatever stands before it. Every text denotes one reference, and that is what it is resolved
   to (`parse_eq_iff`); a name can be referred to exactly if what is written for it denotes it
   (`parse_data_iff`, `parse_control_iff`). `resolve_outcome` is about a normalizer after any
   calls. -/

namespace Dataflow

namespace Reference

/-! ## The grammar -/

def IsNumeral (digits : String) : Prop := digits ≠ "" ∧ ∀ d ∈ digits.toList, d.isDigit = true

def Marked (text : String) : Prop := ∃ body, text = String.singleton controlMark ++ body

/-- A text that ends in a colon and a number. -/
def EndsInPort (text : String) : Prop :=
  ∃ stem digits, IsNumeral digits ∧ text = stem ++ String.singleton portMark ++ digits

/-- What a text without a marker addresses: the number at its end is a port, with the largest port for
numbers above it; without such an ending the whole text is a name, and the port is zero. -/
inductive Addresses : String → String → UInt32 → Prop
  | port {node digits : String} {port : UInt32} : IsNumeral digits →
      port.toNat = min (suffixValue digits.toList) maxPort →
      Addresses (node ++ String.singleton portMark ++ digits) node port
  | bare {node : String} : ¬EndsInPort node → Addresses node node 0

/-- The reference that a text denotes. Only one marker is taken; a second one belongs to the name. -/
inductive Denotes : String → Reference → Prop
  | control {body node : String} {port : UInt32} : Addresses body node port →
      Denotes (String.singleton controlMark ++ body) ⟨node, true, port⟩
  | data {text node : String} {port : UInt32} : ¬Marked text → Addresses text node port →
      Denotes text ⟨node, false, port⟩

variable {text body node : String} {port : UInt32} {r : Reference}

theorem marked_iff : Marked text ↔ text.toList.head? = some controlMark := by
  constructor
  · intro h
    obtain ⟨body, rfl⟩ := h
    rw [toList_marked, List.head?_cons]
  · intro h
    obtain ⟨rest, hrest⟩ := List.head?_eq_some_iff.mp h
    refine ⟨String.ofList rest, String.toList_inj.mp ?_⟩
    rw [toList_marked, String.toList_ofList, hrest]

theorem IsNumeral.toList_ne_nil {digits : String} (h : IsNumeral digits) : digits.toList ≠ [] := by
  intro hnil
  exact h.1 (String.toList_inj.mp hnil)

theorem IsNumeral.splitPort_eq {digits : String} (h : IsNumeral digits) (stem : String) :
    splitPort (stem ++ String.singleton portMark ++ digits).toList =
      (stem.toList, some digits.toList) := by
  rw [toList_port, splitPort_append h.toList_ne_nil h.2]

theorem not_endsInPort_iff : ¬EndsInPort text ↔ (splitPort text.toList).2 = none := by
  rw [splitPort_eq_none]
  constructor
  · intro h stem digits hne hd ht
    refine h ⟨String.ofList stem, String.ofList digits, ⟨?_, ?_⟩, ?_⟩
    · intro he
      exact hne (by simpa using congrArg String.toList he)
    · simpa using hd
    · apply String.toList_inj.mp
      rw [toList_port, String.toList_ofList, String.toList_ofList, ht]
  · intro h hends
    obtain ⟨stem, digits, hd, rfl⟩ := hends
    exact h stem.toList digits.toList hd.toList_ne_nil hd.2 (toList_port stem digits)

/-! ## Reading -/

/-- The name and the port that a text without a marker is taken apart into. -/
def address (body : String) : String × UInt32 :=
  (String.ofList (splitPort body.toList).1, ((splitPort body.toList).2.map portOfDigits).getD 0)

theorem parse_marked (body : String) : parse (String.singleton controlMark ++ body) =
    ⟨(address body).1, true, (address body).2⟩ := by
  rw [parse, ofChars, toList_marked, splitControl, if_pos rfl]
  rfl

theorem parse_unmarked (h : ¬Marked text) : parse text =
    ⟨(address text).1, false, (address text).2⟩ := by
  have hc : (splitControl text.toList).1 = false := splitControl_eq_false.mpr (mt marked_iff.mpr h)
  rw [parse, ofChars, splitControl_eq_self hc]
  rfl

theorem toNat_portOfDigits (digits : List Char) :
    (portOfDigits digits).toNat = min (suffixValue digits) maxPort := by
  have hle : min (suffixValue digits) maxPort ≤ maxPort := Nat.min_le_right _ _
  exact UInt32.toNat_ofNat_of_lt' (Nat.lt_of_le_of_lt hle (by decide))

theorem address_port {digits : String} (h : IsNumeral digits) (stem : String) :
    address (stem ++ String.singleton portMark ++ digits) = (stem, portOfDigits digits.toList) := by
  rw [address, h.splitPort_eq, String.ofList_toList]
  rfl

theorem address_bare (h : ¬EndsInPort node) : address node = (node, 0) := by
  rw [address, splitPort_eq_self (not_endsInPort_iff.mp h), String.ofList_toList]
  rfl

theorem addresses_iff : Addresses body node port ↔ address body = (node, port) := by
  constructor
  · intro h
    cases h with
    | port hd hp =>
      rw [address_port hd, UInt32.toNat_inj.mp ((toNat_portOfDigits _).trans hp.symm)]
    | bare hn => exact address_bare hn
  · intro h
    by_cases hn : EndsInPort body
    · obtain ⟨stem, digits, hd, rfl⟩ := hn
      rw [address_port hd, Prod.mk.injEq] at h
      obtain ⟨rfl, rfl⟩ := h
      exact .port hd (toNat_portOfDigits _)
    · rw [address_bare hn, Prod.mk.injEq] at h
      obtain ⟨rfl, rfl⟩ := h
      exact .bare hn

theorem parse_eq_iff : parse text = r ↔ Denotes text r := by
  constructor
  · intro h
    by_cases hm : Marked text
    · obtain ⟨body, rfl⟩ := hm
      rw [← h, parse_marked]
      exact .control (addresses_iff.mpr rfl)
    · rw [← h, parse_unmarked hm]
      exact .data hm (addresses_iff.mpr rfl)
  · intro h
    cases h with
    | control ha => rw [parse_marked, addresses_iff.mp ha]
    | data hm ha => rw [parse_unmarked hm, addresses_iff.mp ha]

/-! ## Reading what was written -/

/-- A name that ends in a port is not read as that name. -/
theorem address_eq_self_iff : address node = (node, 0) ↔ ¬EndsInPort node := by
  constructor
  · intro h hends
    obtain ⟨stem, digits, hd, rfl⟩ := hends
    rw [address_port hd, Prod.mk.injEq] at h
    have hlength := congrArg (fun s => s.toList.length) h.1
    simp [String.toList_append] at hlength
  · exact address_bare

/-- A data reference is read back exactly if its name does not start with the marker, and either a port
is written after the name or the name does not end in one. -/
theorem parse_data_iff : parse (render ⟨node, false, port⟩) = ⟨node, false, port⟩ ↔
    ¬Marked node ∧ (0 < port ∨ ¬EndsInPort node) := by
  rw [UInt32.pos_iff_ne_zero]
  by_cases hm : Marked node
  · -- Whatever follows the name, the marker is taken for one.
    obtain ⟨body, rfl⟩ := hm
    have hcontrol :
        (parse (render ⟨String.singleton controlMark ++ body, false, port⟩)).control = true := by
      by_cases hp : port = 0
      · subst hp
        exact congrArg control (parse_marked body)
      · simp only [render, if_neg hp, String.append_assoc]
        exact congrArg control (parse_marked _)
    constructor
    · intro h
      rw [h] at hcontrol
      cases hcontrol
    · intro h
      exact absurd ⟨body, rfl⟩ h.1
  · by_cases hp : port = 0
    · subst hp
      show parse node = _ ↔ _
      rw [parse_unmarked hm, mk.injEq]
      simp [hm, ← address_eq_self_iff, Prod.ext_iff]
    · have hport := parse_port (mt marked_iff.mpr hm) port
      simp only [render, if_neg hp]
      exact ⟨fun _ => ⟨hm, .inl hp⟩, fun _ => hport⟩

/-- A control reference is read back, with port zero, exactly if its name does not end in a port. -/
theorem parse_control_iff :
    parse (render ⟨node, true, port⟩) = ⟨node, true, 0⟩ ↔ ¬EndsInPort node := by
  show parse (String.singleton controlMark ++ node) = _ ↔ _
  rw [parse_marked, ← address_eq_self_iff, mk.injEq, Prod.ext_iff]
  simp

end Reference

namespace Normalizer

open Reference

/-- After any calls a normalizer resolves every text to the reference it denotes. So a name is read back
from a data reference to it exactly if it does not start with the marker, and either there is a port or
the name does not end in one; and from a control reference to it, which carries no port, exactly if it
does not end in one. -/
theorem resolve_outcome (cs : List Call) :
    (∀ text r, ((empty.calls cs).2.resolve text).1 = r ↔ Denotes text r) ∧
    (∀ node port, ((empty.calls cs).2.resolve (render ⟨node, false, port⟩)).1 = ⟨node, false, port⟩ ↔
      ¬Marked node ∧ (0 < port ∨ ¬EndsInPort node)) ∧
    ∀ node port, ((empty.calls cs).2.resolve (render ⟨node, true, port⟩)).1 = ⟨node, true, 0⟩ ↔
      ¬EndsInPort node := by
  have hparse : ∀ text, ((empty.calls cs).2.resolve text).1 = parse text :=
    resolve_eq_parse (calls_sound empty_sound cs)
  simp only [hparse]
  exact ⟨fun _ _ => parse_eq_iff, fun _ _ => parse_data_iff, fun _ _ => parse_control_iff⟩

/-- With a port after it a name may end in one itself; without, its end is taken for the port. Numbers
that are no port stand for the largest. -/
example : parse (render ⟨"a:1", false, 2⟩) = ⟨"a:1", false, 2⟩ ∧
    parse (render ⟨"a:1", false, 0⟩) = ⟨"a", false, 1⟩ ∧
    parse "^^a:b:4294967296" = ⟨"^a:b", true, 4294967295⟩ := by
  decide

end Normalizer
end Dataflow
