import Dataflow.Proofs.FieldReadBack

/- A known field takes the bytes that are skipped when its number is not known (`Skips`). So two
   readers of the same message that know different fields stay at the same place of the input,
   field after field.

   For a payload that is read part by part this needs that readers move forward (`Advances`): the
   parts end where the right number of bytes is left (`Repeats`), and what is left is the end of
   the input. -/

namespace Dataflow.Wire

variable {α β : Type}

/-! ## What a successful reading went through -/

theorem bind_eq_ok {r : Reader α} {f : α → Reader β} {i k : Input} {b : β} :
    (r >>= f) i = .ok (b, k) ↔ ∃ a j, r i = .ok (a, j) ∧ f a j = .ok (b, k) := by
  show (r i >>= fun p => f p.1 p.2) = _ ↔ _
  cases r i with
  | error e => simp [Bind.bind, Except.bind]
  | ok p =>
    refine ⟨fun h => ⟨p.1, p.2, rfl, h⟩, ?_⟩
    rintro ⟨a, j, hp, h⟩
    cases hp
    exact h

theorem map_eq_ok {r : Reader α} {f : α → β} {i k : Input} {b : β} :
    (do return f (← r) : Reader β) i = .ok (b, k) ↔ ∃ a, r i = .ok (a, k) ∧ f a = b := by
  rw [bind_eq_ok]
  constructor
  · rintro ⟨a, j, ha, hb⟩
    cases hb
    exact ⟨a, ha, rfl⟩
  · rintro ⟨a, ha, rfl⟩
    exact ⟨a, k, ha, rfl⟩

theorem after_expect_eq_ok {want : WireType} {key : Key} {r : Reader α} {i : Input}
    {p : α × Input} : (do expect want key; r : Reader α) i = .ok p ↔
      key.layout = want ∧ r i = .ok p := by
  by_cases hk : key.layout = want
  · rw [show (do expect want key; r : Reader α) = r by rw [expect, if_pos hk]; rfl]
    exact (and_iff_right hk).symm
  · rw [show (do expect want key; r : Reader α) i = fail (.unexpectedWireType key.layout want) by
      rw [expect, if_neg hk]; rfl]
    simp [hk, fail]

theorem within_eq_ok {message field : String} {r : Reader α} {i : Input} {p : α × Input} :
    within message field r i = .ok p ↔ r i = .ok p := by
  rw [within]
  cases r i with
  | error e =>
    constructor
    · rintro ⟨⟩
    · rintro ⟨⟩
  | ok q => exact Iff.rfl

theorem take_eq_ok {n : Nat} {i j : Input} {b : Bytes} :
    take n i = .ok (b, j) ↔ n ≤ i.size ∧ b = i.bytes.take n ∧ j = i.drop n := by
  rw [take]
  split
  · rename_i hlt
    simp only [fail, reduceCtorEq, false_iff]
    omega
  · rename_i hle
    constructor
    · intro h
      cases h
      exact ⟨Nat.not_lt.mp hle, rfl, rfl⟩
    · rintro ⟨-, rfl, rfl⟩
      rfl

theorem readText_eq_ok {key : Key} {i j : Input} {s : String} : readText key i = .ok (s, j) ↔
    ∃ b, readBytes key i = .ok (b, j) ∧ Bytes.toText? b = some s := by
  rw [readText, bind_eq_ok]
  refine exists_congr fun b => ?_
  cases Bytes.toText? b with
  | none =>
    refine iff_of_false ?_ (by simp)
    rintro ⟨k, -, ⟨⟩⟩
  | some t =>
    constructor
    · rintro ⟨k, hb, ⟨⟩⟩
      exact ⟨hb, rfl⟩
    · rintro ⟨hb, ⟨⟩⟩
      exact ⟨j, hb, rfl⟩

/-! ## Readers that move forward -/

/-- What the reader leaves is the end of its input. -/
def Advances (r : Reader α) : Prop :=
  ∀ i a j, r i = .ok (a, j) → j.bytes <:+ i.bytes

theorem advances_pure (a : α) : Advances (pure a) := by
  intro i b j h
  cases h
  exact List.suffix_refl i.bytes

theorem Advances.bind {r : Reader α} {f : α → Reader β} (hr : Advances r)
    (hf : ∀ a, Advances (f a)) : Advances (r >>= f) := by
  intro i b k h
  obtain ⟨a, j, ha, hb⟩ := bind_eq_ok.mp h
  exact (hf a j b k hb).trans (hr i a j ha)

theorem Advances.map {r : Reader α} (hr : Advances r) (f : α → β) :
    Advances (do return f (← r)) := hr.bind fun a => advances_pure (f a)

/-- A check that looks at no input. -/
theorem advances_lift (c : Except Fault α) : Advances (liftM c) := by
  intro i a j h
  cases c with
  | error e => cases h
  | ok x =>
    cases h
    exact List.suffix_refl i.bytes

theorem advances_get : Advances get := by
  intro i a j h
  cases h
  exact List.suffix_refl i.bytes

theorem advances_take (n : Nat) : Advances (take n) := by
  intro i b j h
  obtain ⟨-, -, rfl⟩ := take_eq_ok.mp h
  exact List.drop_suffix n i.bytes

theorem suffix_varintOf? {left value : Nat} {i j : Input}
    (h : varintOf? left i = some (value, j)) : j.bytes <:+ i.bytes := by
  induction left generalizing i j value with
  | zero => cases h
  | succ left ih =>
    simp only [varintOf?] at h
    split at h
    · cases h
    · rename_i b k hk
      have hik : k.bytes <:+ i.bytes := by
        rw [Input.next?_eq_some hk]
        exact List.suffix_cons b k.bytes
      split at h
      · split at h
        · cases h
        · cases h
          exact hik
      · split at h
        · rename_i high k' hr
          cases h
          exact (ih hr).trans hik
        · cases h

theorem advances_readVarint : Advances readVarint := by
  intro i n j h
  unfold readVarint at h
  split at h
  · rename_i r hr
    cases h
    exact suffix_varintOf? hr
  · cases h

theorem advances_readKey : Advances readKey :=
  advances_readVarint.bind fun n => advances_lift (keyOf n)

theorem advances_skipGroup {skip : Key → Reader Unit} (hs : ∀ key, Advances (skip key))
    (tag fuel : Nat) : Advances (skipGroup skip tag fuel) := by
  induction fuel with
  | zero => exact advances_lift _
  | succ fuel ih =>
    refine advances_readKey.bind fun key => ?_
    split
    · split
      · exact advances_pure ()
      · exact advances_lift _
    · exact (hs key).bind fun _ => ih

theorem advances_skipField (budget : Nat) (key : Key) : Advances (skipField budget key) := by
  induction budget generalizing key with
  | zero => exact advances_lift _
  | succ budget ih =>
    rw [skipField]
    cases key.layout with
    | varint => exact advances_readVarint.map _
    | fixed32 => exact (advances_take 4).map _
    | fixed64 => exact (advances_take 8).map _
    | delimited => exact advances_readVarint.bind fun n => (advances_take n).map _
    | startGroup => exact advances_get.bind fun i => advances_skipGroup ih key.tag i.size
    | endGroup => exact advances_lift _

section Repeat

variable {step : α → Reader α}

/-- Steps that lead from one place of the input to another, until so many bytes are left. -/
inductive Repeats (step : α → Reader α) (limit : Nat) : α → Input → α → Input → Prop where
  | done {a : α} {i : Input} : i.size = limit → Repeats step limit a i a i
  | step {a b c : α} {i j k : Input} : limit < i.size → step a i = .ok (b, j) →
    Repeats step limit b j c k → Repeats step limit a i c k

variable {limit fuel : Nat} {a b : α} {i j : Input}

theorem repeats_of_repeatDown (h : repeatDown step limit fuel a i = .ok (b, j)) :
    Repeats step limit a i b j := by
  induction fuel generalizing a i with
  | zero =>
    obtain ⟨k, i', hget, h⟩ := bind_eq_ok.mp h
    cases hget
    split at h
    · rename_i hsize
      cases h
      exact .done hsize
    · cases h
  | succ fuel ih =>
    rw [repeatDown_succ] at h
    split at h
    · rename_i hlimit
      obtain ⟨c, k, hstep, hrest⟩ := bind_eq_ok.mp h
      exact .step hlimit hstep (ih hrest)
    · split at h
      · rename_i hsize
        cases h
        exact .done hsize
      · cases h

theorem Repeats.size (h : Repeats step limit a i b j) : j.size = limit := by
  induction h with
  | done hsize => exact hsize
  | step _ _ _ ih => exact ih

theorem Repeats.suffix (h : Repeats step limit a i b j) (hs : ∀ a, Advances (step a)) :
    j.bytes <:+ i.bytes := by
  induction h with
  | done _ => exact List.suffix_refl _
  | step _ hstep _ ih => exact ih.trans (hs _ _ _ _ hstep)

theorem Repeats.rest {n : Nat} (h : Repeats step (i.size - n) a i b j)
    (hs : ∀ a, Advances (step a)) (hn : n ≤ i.size) : j = i.drop n := by
  refine Input.ext ?_
  have hsize := h.size
  rw [List.suffix_iff_eq_drop.mp (h.suffix hs), Input.drop]
  congr 1
  rw [← i.size_eq, ← j.size_eq]
  omega

/-- A delimited payload is its length and so many bytes, and the steps take just these. -/
theorem readDelimited_eq_ok {k : Input} : readDelimited step a i = .ok (b, k) ↔
    ∃ n j, readVarint i = .ok (n, j) ∧ n ≤ j.size ∧
      repeatDown step (j.size - n) j.size a j = .ok (b, k) := by
  rw [readDelimited, bind_eq_ok]
  refine exists_congr fun n => exists_congr fun j => and_congr_right fun _ => ?_
  show (if j.size < n then fail .underflow
    else repeatDown step (j.size - n) j.size a : Reader α) j = _ ↔ _
  split
  · rename_i hlt
    refine iff_of_false (fun h => by cases h) ?_
    omega
  · rename_i hle
    rw [and_iff_right (by omega)]

end Repeat

/-! ## Known fields and skipped fields -/

/-- The reader takes the bytes that are skipped when the field is not known. -/
def Skips (key : Key) (r : Reader α) : Prop :=
  ∀ budget i a j, r i = .ok (a, j) → skipField (budget + 1) key i = .ok ((), j)

theorem skipField_delimited {budget : Nat} {key : Key} (hk : key.layout = .delimited)
    {i k : Input} : skipField (budget + 1) key i = .ok ((), k) ↔
      ∃ n j, readVarint i = .ok (n, j) ∧ n ≤ j.size ∧ k = j.drop n := by
  simp only [skipField, hk]
  rw [bind_eq_ok]
  refine exists_congr fun n => exists_congr fun j => and_congr_right fun _ => ?_
  rw [map_eq_ok]
  constructor
  · rintro ⟨b, hb, -⟩
    obtain ⟨hn, -, hk⟩ := take_eq_ok.mp hb
    exact ⟨hn, hk⟩
  · rintro ⟨hn, hk⟩
    exact ⟨j.bytes.take n, take_eq_ok.mpr ⟨hn, rfl, hk⟩, rfl⟩

section Skips

variable {key : Key}

theorem Skips.advances {r : Reader α} (hr : Skips key r) : Advances r :=
  fun i a j h => advances_skipField 1 key i () j (hr 0 i a j h)

theorem Skips.map {r : Reader α} (hr : Skips key r) (f : α → β) :
    Skips key (do return f (← r)) := by
  intro budget i b j h
  obtain ⟨a, ha, -⟩ := map_eq_ok.mp h
  exact hr budget i a j ha

theorem Skips.within {r : Reader α} (hr : Skips key r) (message field : String) :
    Skips key (within message field r) :=
  fun budget i a j h => hr budget i a j (within_eq_ok.mp h)

/-- A known field whose value is put into the message that has been read so far. -/
theorem Skips.known {message field : String} {r : Reader α} {f : α → β} (hr : Skips key r) :
    Skips key (Wire.within message field (do return f (← r))) := (hr.map f).within message field

theorem skips_readBytes : Skips key (readBytes key) := by
  intro budget i b k h
  obtain ⟨hk, h⟩ := after_expect_eq_ok.mp h
  obtain ⟨n, j, hn, hb⟩ := bind_eq_ok.mp h
  obtain ⟨hle, -, hrest⟩ := take_eq_ok.mp hb
  exact (skipField_delimited hk).mpr ⟨n, j, hn, hle, hrest⟩

theorem skips_readText : Skips key (readText key) := by
  intro budget i s j h
  obtain ⟨b, hb, -⟩ := readText_eq_ok.mp h
  exact skips_readBytes budget i b j hb

theorem skips_readDelimited {step : α → Reader α} (hs : ∀ a, Advances (step a))
    (hk : key.layout = .delimited) (a : α) : Skips key (readDelimited step a) := by
  intro budget i b k h
  obtain ⟨n, j, hn, hle, hr⟩ := readDelimited_eq_ok.mp h
  exact (skipField_delimited hk).mpr ⟨n, j, hn, hle, (repeats_of_repeatDown hr).rest hs hle⟩

def Scalar.Skips (s : Scalar α) : Prop := ∀ key, key.layout = s.layout → Wire.Skips key s.read

theorem skips_readVarint (hk : key.layout = .varint) : Skips key readVarint := by
  intro budget i n j h
  simp only [skipField, hk]
  exact map_eq_ok.mpr ⟨n, h, rfl⟩

theorem skips_take {n : Nat}
    (hk : key.layout = .fixed32 ∧ n = 4 ∨ key.layout = .fixed64 ∧ n = 8) :
    Skips key (take n) := by
  intro budget i b j h
  rcases hk with ⟨hk, rfl⟩ | ⟨hk, rfl⟩
  · simp only [skipField, hk]
    exact map_eq_ok.mpr ⟨b, h, rfl⟩
  · simp only [skipField, hk]
    exact map_eq_ok.mpr ⟨b, h, rfl⟩

theorem Scalar.skips_int32 : int32.Skips := fun _ hk => (skips_readVarint hk).map _
theorem Scalar.skips_int64 : int64.Skips := fun _ hk => (skips_readVarint hk).map _
theorem Scalar.skips_uint32 : uint32.Skips := fun _ hk => (skips_readVarint hk).map _
theorem Scalar.skips_uint64 : uint64.Skips := fun _ hk => (skips_readVarint hk).map _
theorem Scalar.skips_bool : bool.Skips := fun _ hk => (skips_readVarint hk).map _
theorem Scalar.skips_binary32 : binary32.Skips := fun _ hk => (skips_take (.inl ⟨hk, rfl⟩)).map _
theorem Scalar.skips_binary64 : binary64.Skips := fun _ hk => (skips_take (.inr ⟨hk, rfl⟩)).map _

variable {s : Scalar α}

theorem Scalar.Skips.advances (hs : s.Skips) : Advances s.read :=
  (hs { tag := 1, layout := s.layout } rfl).advances

theorem skips_readScalar (hs : s.Skips) : Skips key (readScalar s key) := by
  intro budget i x j h
  obtain ⟨hk, h⟩ := after_expect_eq_ok.mp h
  exact hs key hk budget i x j h

theorem skips_readRepeated (hs : s.Skips) (before : List α) :
    Skips key (readRepeated s key before) := by
  rw [readRepeated]
  split
  · rename_i hk
    exact (skips_readDelimited (fun xs => hs.advances.map (· :: xs)) hk []).map _
  · exact (skips_readScalar hs).map _

theorem skips_readMessage {field : FieldReader α}
    (hf : ∀ budget key a, Advances (field budget key a)) (budget : Nat) (a : α) :
    Skips key (readMessage field budget key a) := by
  intro budget' i b j h
  obtain ⟨hk, h⟩ := after_expect_eq_ok.mp h
  cases budget with
  | zero => cases h
  | succ budget =>
    exact skips_readDelimited (fun a => advances_readKey.bind fun key => hf budget key a) hk a
      budget' i b j h

end Skips

/-! ## Messages that are not looked into -/

theorem advances_dimensionField (budget : Nat) (key : Key) (d : Dimension) :
    Advances (dimensionField budget key d) := by
  unfold dimensionField
  split
  · exact (skips_readScalar Scalar.skips_int64).known.advances
  · exact skips_readText.known.advances
  · exact (advances_skipField budget key).map _

theorem advances_shapeField (budget : Nat) (key : Key) (s : DeclaredShape) :
    Advances (shapeField budget key s) := by
  unfold shapeField
  split
  · exact (skips_readMessage advances_dimensionField budget {}).known.advances
  · exact (skips_readScalar Scalar.skips_bool).known.advances
  · exact (advances_skipField budget key).map _

theorem advances_tensorField (budget : Nat) (key : Key) (l : Literal) :
    Advances (tensorField budget key l) := by
  unfold tensorField
  split
  · exact (skips_readScalar Scalar.skips_int32).known.advances
  · exact (skips_readMessage advances_shapeField budget _).known.advances
  · exact (skips_readScalar Scalar.skips_int32).known.advances
  · exact skips_readBytes.known.advances
  · exact (skips_readRepeated Scalar.skips_binary32 _).known.advances
  · exact (skips_readRepeated Scalar.skips_binary64 _).known.advances
  · exact (skips_readRepeated Scalar.skips_int32 _).known.advances
  · exact skips_readBytes.known.advances
  · exact (skips_readRepeated Scalar.skips_binary32 _).known.advances
  · exact (skips_readRepeated Scalar.skips_int64 _).known.advances
  · exact (skips_readRepeated Scalar.skips_bool _).known.advances
  · exact (skips_readRepeated Scalar.skips_binary64 _).known.advances
  · exact (skips_readRepeated Scalar.skips_int32 _).known.advances
  · exact skips_readBytes.known.advances
  · exact skips_readBytes.known.advances
  · exact (skips_readRepeated Scalar.skips_uint32 _).known.advances
  · exact (skips_readRepeated Scalar.skips_uint64 _).known.advances
  · exact skips_readBytes.known.advances
  · exact (advances_skipField budget key).map _

theorem advances_versionsField (budget : Nat) (key : Key) (v : Versions) :
    Advances (versionsField budget key v) := by
  unfold versionsField
  split
  · exact (skips_readScalar Scalar.skips_int32).known.advances
  · exact (skips_readScalar Scalar.skips_int32).known.advances
  · exact (skips_readRepeated Scalar.skips_int32 _).known.advances
  · exact (advances_skipField budget key).map _

end Dataflow.Wire
