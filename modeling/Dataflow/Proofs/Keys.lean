import Dataflow.Reference

/- A key is read back from left to right (`readKey_keyChars`). An underscore that stays as it is
   never stands before another one: it would have been written as a word. So two underscores in a
   row open a word, the next characters say which one, and reading goes on right behind it, even
   where the word is followed by more underscores. With `not_mem_keyChars`, that neither marker
   is left in a key, this gives `key_faithful`. -/

namespace Dataflow.Reference

/-! ## Reading keys -/

def readKey : List Char → List Char
  | '_' :: '_' :: 'p' :: 'o' :: 'r' :: 't' :: '_' :: '_' :: rest => portMark :: readKey rest
  | '_' :: '_' :: 'h' :: 'a' :: 't' :: '_' :: '_' :: rest => controlMark :: readKey rest
  | '_' :: '_' :: 'u' :: 's' :: '_' :: '_' :: rest => '_' :: readKey rest
  | c :: rest => c :: readKey rest
  | [] => []

theorem readKey_cons {c : Char} {rest : List Char} (h : c = '_' → rest.head? ≠ some '_') :
    readKey (c :: rest) = c :: readKey rest := by
  conv => lhs; unfold readKey
  split <;> simp_all

/-! ## Tokens -/

def keyToken (c : Char) (next : Option Char) : List Char :=
  if c = portMark then "__port__".toList
  else if c = controlMark then "__hat__".toList
  else if c = '_' && joinsToken next then "__us__".toList
  else [c]

theorem keyChars_cons (c : Char) (rest : List Char) :
    keyChars (c :: rest) = keyToken c rest.head? ++ keyChars rest := rfl

/-- The key of a text starts with an underscore only if the text starts with one or with a marker. -/
theorem head?_keyChars {cs : List Char} (h : joinsToken cs.head? = false) :
    (keyChars cs).head? ≠ some '_' := by
  cases cs with
  | nil => simp [keyChars]
  | cons c rest =>
    simp only [joinsToken, List.head?_cons, Bool.or_eq_false_iff, beq_eq_false_iff_ne, ne_eq,
      Option.some.injEq] at h
    obtain ⟨⟨hu, hp⟩, hc⟩ := h
    rw [keyChars_cons, keyToken, if_neg hp, if_neg hc, if_neg (by simp [hu])]
    simpa using hu

/-- What is written for a character is read as that character, and reading goes on behind it. -/
theorem readKey_keyToken (c : Char) (cs : List Char) :
    readKey (keyToken c cs.head? ++ keyChars cs) = c :: readKey (keyChars cs) := by
  unfold keyToken
  split
  · rename_i hp
    rw [hp]
    rfl
  · split
    · rename_i hc
      rw [hc]
      rfl
    · split
      · rename_i hu
        rw [Bool.and_eq_true, decide_eq_true_eq] at hu
        rw [hu.1]
        rfl
      · rename_i hu
        apply readKey_cons
        intro hc
        apply head?_keyChars
        simpa [hc] using hu

theorem readKey_keyChars (cs : List Char) : readKey (keyChars cs) = cs := by
  induction cs with
  | nil => rfl
  | cons c rest ih => rw [keyChars_cons, readKey_keyToken, ih]

theorem not_mem_keyToken (c : Char) (next : Option Char) :
    portMark ∉ keyToken c next ∧ controlMark ∉ keyToken c next := by
  unfold keyToken
  split
  · decide
  · rename_i hp
    split
    · decide
    · rename_i hc
      split
      · decide
      · simp [Ne.symm hp, Ne.symm hc]

theorem not_mem_keyChars (cs : List Char) : portMark ∉ keyChars cs ∧ controlMark ∉ keyChars cs := by
  induction cs with
  | nil => decide
  | cons c rest ih =>
    obtain ⟨hp, hc⟩ := not_mem_keyToken c rest.head?
    rw [keyChars_cons]
    simp [hp, hc, ih.1, ih.2]

/-! ## Keys -/

/-- Different texts have different keys, and no key holds a marker. -/
theorem key_faithful (s t : String) :
    (key s = key t ↔ s = t) ∧ portMark ∉ (key s).toList ∧ controlMark ∉ (key s).toList := by
  have hkey : (key s).toList = keyChars s.toList := String.toList_ofList
  rw [hkey]
  refine ⟨⟨fun h => ?_, congrArg key⟩, not_mem_keyChars s.toList⟩
  have hchars : keyChars s.toList = keyChars t.toList := String.ofList_inj.mp h
  have hread := congrArg readKey hchars
  rw [readKey_keyChars, readKey_keyChars] at hread
  exact String.toList_inj.mp hread

/-- Underscores that stood in the text, before a marker and at the end. -/
example : key "__port__:_" = "__us___port__us____us____port___" ∧ key "_port__" = "_port__us___" := by
  decide

end Dataflow.Reference
