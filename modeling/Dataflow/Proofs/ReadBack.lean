import Dataflow.Reference

/- A reference that is written for a plain name is read as what was written (`parse_render`),
   except that a control reference never carries a port. An edit that redirects inputs therefore
   reaches the node it means, whatever the port and the marker (`nodeOf_render`). -/

namespace Dataflow.Reference

/-! ## Plain names -/

theorem splitControl_eq_false {text : List Char} :
    (splitControl text).1 = false ↔ text.head? ≠ some controlMark := by
  cases text with
  | nil => simp [splitControl]
  | cons c rest =>
    simp only [splitControl, List.head?_cons, ne_eq, Option.some.injEq]
    split <;> simp_all

theorem splitPort_eq_none {body : List Char} :
    (splitPort body).2 = none ↔ ∀ stem digits, digits ≠ [] →
      (∀ d ∈ digits, d.isDigit = true) → body ≠ stem ++ portMark :: digits := by
  refine ⟨?_, ?_⟩
  · intro h stem digits hne hd hb
    rw [hb, splitPort_append hne hd] at h
    cases h
  · intro h
    cases hs : splitPort body with
    | mk stem suffix =>
      cases suffix with
      | none => rfl
      | some digits =>
        obtain ⟨hb, hne, hd⟩ := splitPort_eq_some hs
        exact absurd hb (h stem digits hne hd)

/-- A plain name does not start with the control marker and does not end in a colon and digits. -/
theorem isPlain_iff {name : String} :
    isPlain name = true ↔ name.toList.head? ≠ some controlMark ∧ ∀ stem digits, digits ≠ [] →
      (∀ d ∈ digits, d.isDigit = true) → name.toList ≠ stem ++ portMark :: digits := by
  rw [isPlain, Bool.and_eq_true, Bool.not_eq_true', Option.isNone_iff_eq_none,
    splitControl_eq_false, splitPort_eq_none]

/-! ## Reading what was written -/

theorem toList_marked (body : String) :
    (String.singleton controlMark ++ body).toList = controlMark :: body.toList := by
  simp [String.toList_append]

theorem toList_port (stem digits : String) :
    (stem ++ String.singleton portMark ++ digits).toList = stem.toList ++ portMark :: digits.toList := by
  simp [String.toList_append]

theorem portOfDigits_repr (port : UInt32) : portOfDigits port.toNat.repr.toList = port := by
  have hb := port.toNat_lt
  rw [portOfDigits, suffixValue, Nat.toList_repr, Nat.ofDigitChars_ten_toDigits,
    Nat.min_eq_left (by unfold maxPort; omega), UInt32.ofNat_toNat]

/-- A control reference to a name without a suffix has port 0. -/
theorem parse_control {name : String} (h : (splitPort name.toList).2 = none) :
    parse (String.singleton controlMark ++ name) = ⟨name, true, 0⟩ := by
  rw [parse, ofChars, toList_marked, splitControl, if_pos rfl]
  simp [splitPort_eq_self h]

/-- A data reference with a port is read as written, whatever its name ends in. -/
theorem parse_port {name : String} (h : name.toList.head? ≠ some controlMark) (port : UInt32) :
    parse (name ++ String.singleton portMark ++ port.toNat.repr) = ⟨name, false, port⟩ := by
  -- The name may be empty; then the colon comes first.
  have hc : (splitControl (name.toList ++ portMark :: port.toNat.repr.toList)).1 = false := by
    rw [splitControl_eq_false]
    cases hl : name.toList with
    | nil => simp [portMark, controlMark]
    | cons c rest =>
      rw [hl] at h
      exact h
  have hd : ∀ d ∈ port.toNat.repr.toList, d.isDigit = true := by
    intro d hd
    rw [Nat.toList_repr] at hd
    exact Nat.isDigit_of_mem_toDigits (by omega) (by omega) hd
  have hne : port.toNat.repr.toList ≠ [] := by
    rw [Nat.toList_repr]
    exact Nat.toDigits_ne_nil
  have hs := @splitPort_append name.toList _ hne hd
  simp only [parse, ofChars, toList_port, splitControl_eq_self hc, hs, String.ofList_toList,
    Option.map_some, Option.getD_some, portOfDigits_repr]

theorem parse_render {r : Reference} (h : isPlain r.node = true) :
    parse r.render = { r with port := if r.control then 0 else r.port } := by
  obtain ⟨node, control, port⟩ := r
  cases control with
  | true => exact parse_control (splitPort_eq_none.mpr (isPlain_iff.mp h).2)
  | false =>
    by_cases hp : port = 0
    · subst hp
      exact parse_render_plain h
    · simp only [render, if_neg hp]
      exact parse_port (isPlain_iff.mp h).1 port

theorem nodeOf_render {r : Reference} (h : isPlain r.node = true) : nodeOf r.render = r.node := by
  rw [nodeOf, parse_render h]

end Dataflow.Reference
