import Dataflow.Proofs.ReferenceGrammar

/- The canonical form of a reference carries a port. Whether one is there is asked of the text
   behind the marker, and the port that is added comes at the end of the whole text. Both are
   right for every text, because a marker is never part of a port suffix: a text ends in a port
   exactly if what follows its marker does (`endsInPort_marked`). So a text is its own canonical
   form exactly if it ends in a port, and the canonical form is read as the text is;
   `canonicalize_outcome` says this of a normalizer after any calls. -/

namespace Dataflow

namespace Reference

variable {text body : String}

/-! ## Endings -/

theorem endsInPort_marked : EndsInPort (String.singleton controlMark ++ body) ↔ EndsInPort body := by
  constructor
  · intro h
    obtain ⟨stem, digits, hd, ht⟩ := h
    have hchars : controlMark :: body.toList = stem.toList ++ portMark :: digits.toList := by
      rw [← toList_marked, ht, toList_port]
    -- The stem is not empty, since the text does not start with the colon.
    cases hs : stem.toList with
    | nil =>
      rw [hs] at hchars
      exact absurd (List.cons.inj hchars).1 (by decide)
    | cons c rest =>
      rw [hs, List.cons_append] at hchars
      refine ⟨String.ofList rest, digits, hd, String.toList_inj.mp ?_⟩
      rw [toList_port, String.toList_ofList, (List.cons.inj hchars).2]
  · intro h
    obtain ⟨stem, digits, hd, rfl⟩ := h
    exact ⟨String.singleton controlMark ++ stem, digits, hd, by simp only [String.append_assoc]⟩

theorem splitPort_behind_marker :
    (splitPort (splitControl text.toList).2).2 = none ↔ ¬EndsInPort text := by
  by_cases hm : Marked text
  · obtain ⟨body, rfl⟩ := hm
    rw [endsInPort_marked, not_endsInPort_iff, toList_marked, splitControl, if_pos rfl]
  · have hc := splitControl_eq_false.mpr (mt marked_iff.mpr hm)
    rw [splitControl_eq_self hc, not_endsInPort_iff]

/-! ## The canonical form -/

theorem canonical_of_endsInPort (h : EndsInPort text) : canonical text = text := by
  cases hs : (splitPort (splitControl text.toList).2).2 with
  | none => exact absurd h (splitPort_behind_marker.mp hs)
  | some digits => rw [canonical, hs]

theorem canonical_of_not_endsInPort (h : ¬EndsInPort text) : canonical text = text ++ ":0" := by
  rw [canonical, splitPort_behind_marker.mpr h]

theorem isNumeral_zero : IsNumeral "0" := by simp [IsNumeral]

theorem append_zero (text : String) : text ++ ":0" = text ++ String.singleton portMark ++ "0" := by
  rw [String.append_assoc]
  rfl

theorem endsInPort_append_zero (text : String) : EndsInPort (text ++ ":0") :=
  ⟨text, "0", isNumeral_zero, append_zero text⟩

theorem endsInPort_canonical (text : String) : EndsInPort (canonical text) := by
  by_cases h : EndsInPort text
  · rwa [canonical_of_endsInPort h]
  · rw [canonical_of_not_endsInPort h]
    exact endsInPort_append_zero text

/-- A text is its own canonical form exactly if it ends in a port. -/
theorem canonical_eq_self_iff : canonical text = text ↔ EndsInPort text := by
  refine ⟨fun h => ?_, canonical_of_endsInPort⟩
  rw [← h]
  exact endsInPort_canonical text

/-! ## Reading canonical forms -/

theorem address_append_zero (h : ¬EndsInPort body) : address (body ++ ":0") = address body := by
  rw [append_zero, address_port isNumeral_zero, address_bare h]
  rfl

theorem not_marked_append_zero (h : ¬Marked text) : ¬Marked (text ++ ":0") := by
  rw [marked_iff] at h ⊢
  rw [String.toList_append]
  cases hl : text.toList with
  | nil => decide
  | cons c rest =>
    rw [hl] at h
    exact h

theorem parse_canonical (text : String) : parse (canonical text) = parse text := by
  by_cases h : EndsInPort text
  · rw [canonical_of_endsInPort h]
  · rw [canonical_of_not_endsInPort h]
    by_cases hm : Marked text
    · obtain ⟨body, rfl⟩ := hm
      rw [String.append_assoc, parse_marked, parse_marked,
        address_append_zero (mt endsInPort_marked.mpr h)]
    · rw [parse_unmarked (not_marked_append_zero hm), parse_unmarked hm, address_append_zero h]

end Reference

namespace Normalizer

open Reference

/-- After any calls a normalizer brings a text to the canonical form: the text itself if it ends in a port,
and the text with port zero added otherwise. The form ends in a port, is resolved to what the text is
resolved to, and is its own canonical form. -/
theorem canonicalize_outcome (cs : List Call) (text : String) :
    ((empty.calls cs).2.canonicalize text).1 = Reference.canonical text ∧
    (Reference.canonical text = text ∧ EndsInPort text ∨
      Reference.canonical text = text ++ ":0" ∧ ¬EndsInPort text) ∧
    EndsInPort (Reference.canonical text) ∧
    ((empty.calls cs).2.resolve (Reference.canonical text)).1 = ((empty.calls cs).2.resolve text).1 ∧
    ((empty.calls cs).2.canonicalize (Reference.canonical text)).1 = Reference.canonical text := by
  have hsound := calls_sound empty_sound cs
  refine ⟨canonicalize_eq_canonical hsound text, ?_, endsInPort_canonical text, ?_, ?_⟩
  · by_cases h : EndsInPort text
    · exact .inl ⟨canonical_of_endsInPort h, h⟩
    · exact .inr ⟨canonical_of_not_endsInPort h, h⟩
  · rw [resolve_eq_parse hsound, resolve_eq_parse hsound, parse_canonical]
  · rw [canonicalize_eq_canonical hsound, canonical_eq_self_iff]
    exact endsInPort_canonical text

/-- An empty name, a colon at the end, and a name that holds a colon. -/
example : Reference.canonical "^" = "^:0" ∧ Reference.canonical "x:" = "x::0" ∧
    parse "x::0" = ⟨"x:", false, 0⟩ ∧ Reference.canonical "^a:b:7" = "^a:b:7" := by
  decide

end Normalizer
end Dataflow
