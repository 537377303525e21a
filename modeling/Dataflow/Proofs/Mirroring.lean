import Dataflow.Proofs.FieldExtents

/- A message can be read twice, once into what it means and once into what stands in its bytes.
   If each field that the first reading takes is taken by the second one, and what the two have
   read stays related, then the second reading succeeds wherever the first one does. `Mirrors` is
   this relation of two readers, put together up to whole messages (`mirrors_readWhole`). -/

namespace Dataflow.Wire

variable {α β γ δ : Type}

/-! ## Mirrored readers -/

/-- Where the first reader succeeds, the second one succeeds as well, takes the same bytes, and
gives a related value. -/
def Mirrors (R : α → β → Prop) (r : Reader α) (q : Reader β) : Prop :=
  ∀ i a j, r i = .ok (a, j) → ∃ b, q i = .ok (b, j) ∧ R a b

section Mirrors

variable {R : α → β → Prop} {S : γ → δ → Prop} {r : Reader α} {q : Reader β}

theorem mirrors_pure {a : α} {b : β} (h : R a b) : Mirrors R (pure a) (pure b) := by
  intro i a' j ha
  cases ha
  exact ⟨b, rfl, h⟩

theorem Mirrors.bind {f : α → Reader γ} {f' : β → Reader δ} (h : Mirrors R r q)
    (hf : ∀ a b, R a b → Mirrors S (f a) (f' b)) : Mirrors S (r >>= f) (q >>= f') := by
  intro i c k hc
  obtain ⟨a, j, ha, hc⟩ := bind_eq_ok.mp hc
  obtain ⟨b, hb, hab⟩ := h i a j ha
  obtain ⟨d, hd, hcd⟩ := hf a b hab j c k hc
  exact ⟨d, bind_eq_ok.mpr ⟨b, j, hb, hd⟩, hcd⟩

theorem Mirrors.map {f : α → γ} {f' : β → δ} (h : Mirrors R r q)
    (hf : ∀ a b, R a b → S (f a) (f' b)) :
    Mirrors S (do return f (← r)) (do return f' (← q)) :=
  h.bind fun a b hab => mirrors_pure (hf a b hab)

theorem Mirrors.within (h : Mirrors R r q) (message field : String) :
    Mirrors R (within message field r) q :=
  fun i a j ha => h i a j (within_eq_ok.mp ha)

/-- A known field mirrors the reading of its payload, whatever is made of the two. -/
theorem Mirrors.known {message field : String} {f : α → γ} {f' : β → δ} (h : Mirrors R r q)
    (hf : ∀ a b, R a b → S (f a) (f' b)) :
    Mirrors S (Wire.within message field (do return f (← r))) (do return f' (← q)) :=
  (h.map hf).within message field

theorem Mirrors.after_expect {want : WireType} {key : Key} (h : Mirrors R r q) :
    Mirrors R (do expect want key; r) (do expect want key; q) := by
  intro i a j ha
  obtain ⟨hk, ha⟩ := after_expect_eq_ok.mp ha
  obtain ⟨b, hb, hab⟩ := h i a j ha
  exact ⟨b, after_expect_eq_ok.mpr ⟨hk, hb⟩, hab⟩

theorem mirrors_refl (r : Reader α) : Mirrors Eq r r := fun _ a _ ha => ⟨a, ha, rfl⟩

theorem Skips.skipped {key : Key} {budget : Nat} (h : Skips key r) :
    Mirrors (fun _ _ => True) r (skipField (budget + 1) key) :=
  fun i a j ha => ⟨(), h budget i a j ha, trivial⟩

theorem mirrors_repeatDown {step : α → Reader α} {step' : β → Reader β}
    (hs : ∀ a b, R a b → Mirrors R (step a) (step' b)) (limit fuel : Nat) {a : α} {b : β}
    (hab : R a b) : Mirrors R (repeatDown step limit fuel a) (repeatDown step' limit fuel b) := by
  induction fuel generalizing a b with
  | zero =>
    refine (mirrors_refl get).bind ?_
    rintro i _ rfl
    split
    · exact mirrors_pure hab
    · rintro _ _ _ ⟨⟩
  | succ fuel ih =>
    refine (mirrors_refl get).bind ?_
    rintro i _ rfl
    split
    · exact (hs a b hab).bind fun a' b' => ih
    · split
      · exact mirrors_pure hab
      · rintro _ _ _ ⟨⟩

theorem mirrors_readDelimited {step : α → Reader α} {step' : β → Reader β}
    (hs : ∀ a b, R a b → Mirrors R (step a) (step' b)) {a : α} {b : β} (hab : R a b) :
    Mirrors R (readDelimited step a) (readDelimited step' b) := by
  intro i a' k h
  obtain ⟨n, j, hn, hle, h⟩ := readDelimited_eq_ok.mp h
  obtain ⟨b', hb, hab'⟩ := mirrors_repeatDown hs _ _ hab j a' k h
  exact ⟨b', readDelimited_eq_ok.mpr ⟨n, j, hn, hle, hb⟩, hab'⟩

variable {field : FieldReader α} {field' : FieldReader β} {budget : Nat}

theorem mirrors_readFields
    (hf : ∀ key a b, R a b → Mirrors R (field budget key a) (field' budget key b))
    {a : α} {b : β} (hab : R a b) :
    Mirrors R (readFields field (budget + 1) a) (readFields field' (budget + 1) b) := by
  refine mirrors_readDelimited (fun a b hab => (mirrors_refl readKey).bind ?_) hab
  rintro key _ rfl
  exact hf key a b hab

theorem mirrors_readMessage {key : Key}
    (hf : ∀ key a b, R a b → Mirrors R (field budget key a) (field' budget key b))
    {a : α} {b : β} (hab : R a b) :
    Mirrors R (readMessage field (budget + 1) key a) (readMessage field' (budget + 1) key b) :=
  (mirrors_readFields hf hab).after_expect

theorem readWhole_eq_ok {a c : α} {bytes : Bytes} : readWhole field a bytes = .ok c ↔
    ∃ j, repeatDown (fieldStep field nestingLimit) 0 bytes.length a (Input.ofBytes bytes) =
      .ok (c, j) := by
  show Prod.fst <$> repeatDown (fieldStep field nestingLimit) 0 bytes.length a _ = _ ↔ _
  cases repeatDown (fieldStep field nestingLimit) 0 bytes.length a (Input.ofBytes bytes) with
  | error e => simp [Functor.map, Except.map]
  | ok p =>
    constructor
    · rintro ⟨⟩
      exact ⟨p.2, rfl⟩
    · rintro ⟨j, h⟩
      cases h
      rfl

/-- Where a message can be read that takes up the whole input, it is mirrored. -/
theorem mirrors_readWhole
    (hf : ∀ key a b, R a b → Mirrors R (field nestingLimit key a) (field' nestingLimit key b))
    {a c : α} {b : β} {bytes : Bytes} (hab : R a b) (h : readWhole field a bytes = .ok c) :
    ∃ d, readWhole field' b bytes = .ok d ∧ R c d := by
  obtain ⟨j, hc⟩ := readWhole_eq_ok.mp h
  have hstep : ∀ a b, R a b →
      Mirrors R (fieldStep field nestingLimit a) (fieldStep field' nestingLimit b) := by
    intro a b hab
    refine (mirrors_refl readKey).bind ?_
    rintro key _ rfl
    exact hf key a b hab
  obtain ⟨d, hd, hcd⟩ := mirrors_repeatDown hstep 0 bytes.length hab _ c j hc
  exact ⟨d, readWhole_eq_ok.mpr ⟨j, hd⟩, hcd⟩

end Mirrors

/-! ## Payloads as they stand in the bytes -/

def readPayload (budget : Nat) (key : Key) : Reader Bytes :=
  if key.layout = .delimited then do take (← readVarint)
  else fun i => (skipField budget key i).map fun r => (i.bytes.take (i.size - r.2.size), r.2)

section Payloads

variable {budget : Nat} {key : Key}

theorem mirrors_skipField :
    Mirrors (fun _ _ => True) (skipField (budget + 1) key) (readPayload (budget + 1) key) := by
  intro i _ j h
  rw [readPayload]
  split
  · rename_i hk
    obtain ⟨n, k, hn, hle, rfl⟩ := (skipField_delimited hk).mp h
    have htake : take n k = .ok (k.bytes.take n, k.drop n) := take_eq_ok.mpr ⟨hle, rfl, rfl⟩
    exact ⟨k.bytes.take n, bind_eq_ok.mpr ⟨n, k, hn, htake⟩, trivial⟩
  · refine ⟨i.bytes.take (i.size - j.size), ?_, trivial⟩
    show (skipField (budget + 1) key i).map _ = _
    rw [h]
    rfl

theorem Skips.payload {r : Reader α} (h : Skips key r) :
    Mirrors (fun _ _ => True) r (readPayload (budget + 1) key) :=
  fun i a j ha => mirrors_skipField i () j (h budget i a j ha)

theorem Repeats.ne_nil {s : Scalar α} {limit : Nat} {before xs : List α} {i j : Input}
    (h : Repeats (fun xs => do return (← s.read) :: xs) limit before i xs j)
    (hsome : before ≠ [] ∨ limit < i.size) : xs ≠ [] := by
  induction h with
  | done hsize => exact hsome.resolve_right (by omega)
  | step _ hstep _ ih =>
    obtain ⟨x, -, rfl⟩ := map_eq_ok.mp hstep
    exact ih (.inl (List.cons_ne_nil x _))

/-- Reading numbers gives none exactly if they are packed and there are no bytes. -/
theorem mirrors_readRepeated {s : Scalar α} (hs : s.Skips) (before : List α) :
    Mirrors (fun xs payload => xs = [] ↔ before = [] ∧ key.layout = .delimited ∧ payload = [])
      (readRepeated s key before) (readPayload (budget + 1) key) := by
  intro i xs k h
  obtain ⟨payload, hp, -⟩ := (skips_readRepeated hs before).payload i xs k h
  refine ⟨payload, hp, ?_⟩
  rw [readRepeated] at h
  by_cases hk : key.layout = .delimited
  · rw [if_pos hk] at h
    rw [readPayload, if_pos hk] at hp
    obtain ⟨latest, hlatest, rfl⟩ := map_eq_ok.mp h
    obtain ⟨n, j, hn, hle, hrepeat⟩ := readDelimited_eq_ok.mp hlatest
    obtain ⟨m, j', hm, htake⟩ := bind_eq_ok.mp hp
    rw [hn] at hm
    cases hm
    obtain ⟨-, rfl, -⟩ := take_eq_ok.mp htake
    have hnone : latest = [] ↔ n = 0 := by
      constructor
      · intro hnil
        have hsome := mt (repeats_of_repeatDown hrepeat).ne_nil (not_not_intro hnil)
        omega
      · rintro rfl
        have hdone := repeatDown_done (fun xs => do return (← s.read) :: xs) j.size [] j.bytes
        rw [← j.size_eq, show Input.ofBytes j.bytes = j from Input.ext rfl] at hdone
        cases hdone.symm.trans hrepeat
        rfl
    have hbytes : j.bytes.take n = [] ↔ n = 0 := by
      rw [List.take_eq_nil_iff, ← List.length_eq_zero_iff, ← j.size_eq]
      omega
    rw [List.append_eq_nil_iff, List.reverse_eq_nil_iff, hnone, hbytes, and_iff_right hk]
  · rw [if_neg hk] at h
    obtain ⟨x, -, rfl⟩ := map_eq_ok.mp h
    simp [hk]

end Payloads
end Dataflow.Wire
