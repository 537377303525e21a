import Dataflow.Proofs.Elements

/- A constant is made from a value of any storage. The value is cast to the storage of the
   element type, which for the narrow integers is wider than the type, and brought to the shape,
   where one is given; what a constant is read as is exactly that.

   1. Which values are written, and what is stored of them: `toLiteral_eq_ok`,
      `toLiteral_of_suits`.
   2. When a constant can be made, what is read from it, and when making it overruns instead:
      `constant_outcome`, for which `constant_overruns` has a single element and sizes that
      can be counted.
   3. When all that is stored are elements of the type: `toLiteral_within_iff`. A cast looks
      at the storage only, so that a number may be too large for a narrow type
      (`toLiteral_not_within`). -/

namespace Dataflow

open Shape (volume)

namespace Value

variable {v w : Value} {t : ElementType} {s : Storage} {dims : Option (List Int64)} {l : Literal}

/-- `w` is `v` cast element by element to a storage and, where sizes are given, brought to them: with the
same elements if they are as many, or with the only element everywhere. -/
structure Converts (v w : Value) (s : Storage) (dims : Option (List Int64)) : Prop where
  storage : w.storage = s
  free : dims = none → w.shape = v.shape ∧ w.elements = v.elements.map (·.toStorage s)
  shaped : ∀ ds ∈ dims, (∀ d ∈ ds, 0 ≤ d) ∧ w.shape = Shape.clamp ds ∧
    (v.size = volume (Shape.clamp ds) ∧ w.elements = v.elements.map (·.toStorage s) ∨
      ∃ x, v.elements = [x] ∧
        w.elements = List.replicate (volume (Shape.clamp ds)) (x.toStorage s))

/-- No size is unknown, and the value has as many elements as the sizes ask for or only one. -/
def Suits (v : Value) (dims : Option (List Int64)) : Prop :=
  ∀ ds ∈ dims, (∀ d ∈ ds, 0 ≤ d) ∧ (v.size = volume (Shape.clamp ds) ∨ v.size = 1)

/-- In a storage, the elements of the value and those that the sizes ask for take no more bytes than can
be addressed. -/
def Allocates (v : Value) (s : Storage) (dims : Option (List Int64)) : Prop :=
  v.size * s.width ≤ Shape.addressLimit ∧
    ∀ ds ∈ dims, volume (Shape.clamp ds) * s.width ≤ Shape.addressLimit

theorem fitsBytes_iff_size : Shape.fitsBytes s.width v.shape = true ↔
    v.size * s.width ≤ Shape.addressLimit := by
  simp [Shape.fitsBytes, size]

theorem fitsBytes_of_toLiteral (ht : t.storage? = some s) (h : v.toLiteral t dims = .ok l) :
    Shape.fitsBytes s.width v.shape = true := by
  refine Bool.not_eq_false _ ▸ fun hb => ?_
  rw [toLiteral_of_overrun ht hb] at h
  cases h

theorem toLiteral_some_eq_ok {ds : List Int64} (ht : t.storage? = some s)
    (h : v.toLiteral t (some ds) = .ok l) : (∀ d ∈ ds, 0 ≤ d) ∧
      ∃ w, (v.toStorage s).reshape (Shape.clamp ds) = .ok w ∧ l = w.listed t := by
  rw [toLiteral_some ht (fitsBytes_of_toLiteral ht h)] at h
  cases hw : (v.toStorage s).fitTo ds with
  | error e =>
    rw [hw] at h
    cases h
  | ok w =>
    rw [hw] at h
    cases h
    obtain ⟨hd, hw⟩ := fitTo_eq_ok.mp hw
    exact ⟨hd, w, hw, rfl⟩

theorem toLiteral_eq_ok (ht : t.storage? = some s) (h : v.toLiteral t dims = .ok l) :
    ∃ w, v.Converts w s dims ∧ l = w.listed t := by
  cases dims with
  | none =>
    rw [toLiteral_none ht (fitsBytes_of_toLiteral ht h), Except.ok.injEq] at h
    refine ⟨v.toStorage s, ⟨by simp, fun _ => ⟨by simp, v.elements_toStorage s⟩, by simp⟩, h.symm⟩
  | some ds =>
    obtain ⟨hd, w, hw, rfl⟩ := toLiteral_some_eq_ok ht h
    obtain ⟨hs, hsh, he⟩ := reshape_eq_ok hw
    refine ⟨w, ⟨by simpa using hs, by simp, ?_⟩, rfl⟩
    intro sizes hsizes
    cases hsizes
    refine ⟨hd, hsh, ?_⟩
    rcases he with ⟨hn, he⟩ | ⟨y, hy, he⟩
    · exact .inl ⟨by simpa [size] using hn, he.trans (v.elements_toStorage s)⟩
    · rw [elements_toStorage, List.map_eq_singleton_iff] at hy
      obtain ⟨x, hx, rfl⟩ := hy
      exact .inr ⟨x, hx, he⟩

theorem Converts.suits (hw : v.Converts w s dims) : v.Suits dims := by
  intro ds hds
  obtain ⟨hd, -, ⟨hn, -⟩ | ⟨x, hx, -⟩⟩ := hw.shaped ds hds
  · exact ⟨hd, .inl hn⟩
  · have hone : v.size = 1 := by rw [← v.length_elements, hx, List.length_singleton]
    exact ⟨hd, .inr hone⟩

theorem allocates_of_toLiteral (ht : t.storage? = some s) (h : v.toLiteral t dims = .ok l) :
    v.Allocates s dims := by
  have hb := fitsBytes_of_toLiteral ht h
  refine ⟨fitsBytes_iff_size.mp hb, fun ds hds => ?_⟩
  cases hds
  obtain ⟨-, w, hw, -⟩ := toLiteral_some_eq_ok ht h
  have hfits := fitsBytes_of_reshape (by simpa using hb) hw
  simpa [Shape.fitsBytes] using hfits

/-- A value that suits the sizes is written if all of it can be allocated, and overruns otherwise. -/
theorem toLiteral_of_suits (ht : t.storage? = some s)
    (hl : ∀ ds ∈ dims, (∀ d ∈ ds, 0 ≤ d) → Shape.fitsLayout (Shape.clamp ds) = true)
    (hv : v.Suits dims) : (∃ l, v.toLiteral t dims = .ok l) ∧ v.Allocates s dims ∨
      v.toLiteral t dims = .error (.overrun .bytes) ∧ ¬v.Allocates s dims := by
  by_cases hb : Shape.fitsBytes s.width v.shape = true
  · cases dims with
    | none =>
      have hw := toLiteral_none ht hb
      exact .inl ⟨⟨_, hw⟩, allocates_of_toLiteral ht hw⟩
    | some ds =>
      obtain ⟨hd, hsize⟩ := hv ds rfl
      have hcast : (v.toStorage s).size = v.size := by simp [size]
      have hout := @reshape_of_size (v.toStorage s) _ (hl ds rfl hd) (by simpa using hb)
        (hcast ▸ hsize)
      have hbind := @toLiteral_some v t s ds ht hb
      rw [fitTo_of_known hd] at hbind
      split at hout
      · obtain ⟨w, hw⟩ := hout
        have hwritten : v.toLiteral t (some ds) = .ok (w.listed t) := by rw [hbind, hw]; rfl
        exact .inl ⟨⟨_, hwritten⟩, allocates_of_toLiteral ht hwritten⟩
      · rename_i hfits
        refine .inr ⟨by rw [hbind, hout]; rfl, fun ha => hfits ?_⟩
        simpa [Shape.fitsBytes] using ha.2 ds rfl
  · refine .inr ⟨toLiteral_of_overrun ht (Bool.eq_false_iff.mpr hb), fun ha => hb ?_⟩
    exact fitsBytes_iff_size.mpr ha.1

theorem exists_toLiteral_iff (ht : t.storage? = some s)
    (hl : ∀ ds ∈ dims, (∀ d ∈ ds, 0 ≤ d) → Shape.fitsLayout (Shape.clamp ds) = true) :
    (∃ l, v.toLiteral t dims = .ok l) ↔ v.Suits dims ∧ v.Allocates s dims := by
  constructor
  · intro h
    obtain ⟨l, hl⟩ := h
    obtain ⟨w, hw, -⟩ := toLiteral_eq_ok ht hl
    exact ⟨hw.suits, allocates_of_toLiteral ht hl⟩
  · intro h
    rcases toLiteral_of_suits ht hl h.1 with ⟨hw, -⟩ | ⟨-, hnot⟩
    · exact hw
    · exact absurd h.2 hnot

end Value

namespace Node

variable {v : Value} {t : ElementType} {s : Storage} {dims : Option (List Int64)}

/-- A constant can be made of a value if no size is unknown, the value has as many elements as the sizes
ask for or only one, and the elements can be allocated. If only the last is missing, making it overruns. A
constant is read as the value cast element by element, in the shape of the sizes or else in its own, with
its elements in their order or the only one everywhere. -/
theorem constant_outcome (name : String) (placement : Placement) (ht : t.storage? = some s)
    (hv : dims = none → Shape.fitsLayout v.shape = true)
    (hl : ∀ ds ∈ dims, (∀ d ∈ ds, 0 ≤ d) → Shape.fitsLayout (Shape.clamp ds) = true) :
    ((∃ c, constant name v t dims placement = .ok c) ↔ v.Suits dims ∧ v.Allocates s dims) ∧
    (v.Suits dims → ¬v.Allocates s dims →
      constant name v t dims placement = .error (.overrun .bytes)) ∧
    ∀ c, constant name v t dims placement = .ok c →
      ∃ w, c.constantValue = .ok w ∧ v.Converts w s dims := by
  refine ⟨?_, ?_, ?_⟩
  · rw [← Value.exists_toLiteral_iff ht hl]
    constructor
    · intro h
      obtain ⟨c, hc⟩ := h
      obtain ⟨l, hl, -⟩ := constant_eq_ok.mp hc
      exact ⟨l, hl⟩
    · intro h
      obtain ⟨l, hl⟩ := h
      exact ⟨_, constant_eq_ok.mpr ⟨l, hl, rfl⟩⟩
  · intro hsuits hnot
    rcases Value.toLiteral_of_suits ht hl hsuits with ⟨-, ha⟩ | ⟨ho, -⟩
    · exact absurd ha hnot
    · exact constant_of_error ho
  · intro c hc
    obtain ⟨l, h, hval⟩ := constantValue_eq hc
    have hroom := Value.allocates_of_toLiteral ht h
    obtain ⟨w, hw, rfl⟩ := Value.toLiteral_eq_ok ht h
    obtain ⟨hfit, hbytes⟩ : Shape.fitsLayout w.shape = true ∧
        Shape.fitsBytes s.width w.shape = true := by
      cases dims with
      | none =>
        rw [(hw.free rfl).1]
        exact ⟨hv rfl, Value.fitsBytes_iff_size.mpr hroom.1⟩
      | some ds =>
        obtain ⟨hd, hsh, -⟩ := hw.shaped ds rfl
        rw [hsh]
        exact ⟨hl ds rfl hd, by simpa [Shape.fitsBytes] using hroom.2 ds rfl⟩
    refine ⟨w, ?_, hw⟩
    rw [hval, Value.toValue_listed (hw.storage.symm ▸ ht) hfit (hw.storage.symm ▸ hbytes)]

/-- Negative zero and a not-a-number with a payload. -/
def oddNumbers : Value := .float (.vector [⟨0x80000000⟩, ⟨0x7fc00001⟩])

theorem constant_outcome_oddNumbers : ∃ c w,
    constant "odd" oddNumbers .float (some [2, 1]) .accelerator = .ok c ∧
      c.constantValue = .ok w ∧ w.shape = [2, 1] ∧ w.elements = oddNumbers.elements := by
  have hfit : ∀ ds ∈ some [(2 : Int64), 1], (∀ d ∈ ds, 0 ≤ d) →
      Shape.fitsLayout (Shape.clamp ds) = true := by
    intro ds hds _
    cases hds
    rfl
  have hsuits : oddNumbers.Suits (some [2, 1]) := by
    intro ds hds
    cases hds
    exact ⟨by simp, .inl rfl⟩
  have hroom : oddNumbers.Allocates .float (some [2, 1]) := by
    refine ⟨by decide, fun ds hds => ?_⟩
    cases hds
    decide
  obtain ⟨hiff, -, hval⟩ := @constant_outcome oddNumbers .float .float (some [2, 1]) "odd"
    .accelerator rfl (by simp) hfit
  obtain ⟨c, hc⟩ := hiff.mpr ⟨hsuits, hroom⟩
  obtain ⟨w, hw, hconv⟩ := hval c hc
  obtain ⟨-, hshape, ⟨-, he⟩ | ⟨x, hx, -⟩⟩ := hconv.shaped _ rfl
  · exact ⟨c, w, hc, hw, hshape, he⟩
  · cases hx

/-- A single element suits any sizes, and may overrun where they can be counted and laid out. -/
theorem constant_overruns : (Value.float (.scalar .one)).Suits (some [2305843009213693952]) ∧
    Shape.fitsLayout (Shape.clamp [2305843009213693952]) = true ∧
    constant "c" (.float (.scalar .one)) .float (some [2305843009213693952]) .cpu =
      .error (.overrun .bytes) := by
  refine ⟨fun ds hds => ?_, by decide, rfl⟩
  cases hds
  exact ⟨by simp, .inr rfl⟩

end Node

/-! ## Ranges -/

theorem Element.within_of_wide {t : ElementType} {x : Element} (hx : t.storage? = some x.storage)
    (ht : t = .int32 ∨ t = .qint32 ∨ t = .int64) : x.Within t := by
  refine ⟨hx, fun r hr n hn => ?_⟩
  have hword : ∀ y : Int32, -2147483648 ≤ y.toInt ∧ y.toInt ≤ 2147483647 := by
    intro y
    have := y.le_toInt
    have := y.toInt_lt
    omega
  have hlong : ∀ y : Int64, -9223372036854775808 ≤ y.toInt ∧ y.toInt ≤ 9223372036854775807 := by
    intro y
    have := y.le_toInt
    have := y.toInt_lt
    omega
  rcases ht with rfl | rfl | rfl <;> cases hr <;> cases x <;> cases hx <;> cases hn
  · exact hword _
  · exact hword _
  · exact hlong _

namespace Value

variable {v w : Value} {t : ElementType} {s : Storage} {dims : Option (List Int64)} {l : Literal}

theorem Converts.elements_eq (hw : v.Converts w s dims) :
    w.elements = v.elements.map (·.toStorage s) ∨
      ∃ x n, v.elements = [x] ∧ w.elements = List.replicate n (x.toStorage s) := by
  cases dims with
  | none => exact .inl (hw.free rfl).2
  | some ds =>
    obtain ⟨-, -, ⟨-, he⟩ | ⟨x, hx, he⟩⟩ := hw.shaped ds rfl
    · exact .inl he
    · exact .inr ⟨x, _, hx, he⟩

/-- Something holds of all that a value converts to if it holds of its elements cast one by one; the only
exception is that nothing is left. -/
theorem Converts.forall_mem_iff (hw : v.Converts w s dims) {P : Element → Prop} :
    (∀ x ∈ w.elements, P x) ↔ w.elements = [] ∨ ∀ x ∈ v.elements, P (x.toStorage s) := by
  rcases hw.elements_eq with he | ⟨x, n, hx, he⟩
  · rw [he, List.forall_mem_map, List.map_eq_nil_iff]
    constructor
    · exact .inr
    · intro h
      rcases h with h | h
      · simp [h]
      · exact h
  · rw [he, hx]
    cases n <;> simp

/-- What is stored of a value are elements of the type exactly if nothing is stored or all elements cast to
the storage are; an integer type as wide as its storage holds all of them. -/
theorem toLiteral_within_iff (ht : t.storage? = some s) (h : v.toLiteral t dims = .ok l) :
    ((∀ x ∈ l.elements s, x.Within t) ↔
      l.elements s = [] ∨ ∀ x ∈ v.elements, (x.toStorage s).Within t) ∧
    (t = .int32 ∨ t = .qint32 ∨ t = .int64 → ∀ x ∈ l.elements s, x.Within t) := by
  obtain ⟨w, hw, rfl⟩ := toLiteral_eq_ok ht h
  have hl : (w.listed t).elements s = w.elements := hw.storage ▸ w.elements_listed t
  rw [hl]
  refine ⟨hw.forall_mem_iff, fun hwide x hx => ?_⟩
  apply Element.within_of_wide _ hwide
  rw [storage_of_mem_elements hx, hw.storage, ht]

def byteBounds : Value := .int64 (.vector [-128, 127])

theorem toLiteral_within_byteBounds : ∃ l, byteBounds.toLiteral .int8 (some [1, 2]) = .ok l ∧
    ∀ x ∈ l.elements .int32, x.Within .int8 := by
  obtain ⟨l, hl⟩ : ∃ l, byteBounds.toLiteral .int8 (some [1, 2]) = .ok l := ⟨_, rfl⟩
  exact ⟨l, hl, (toLiteral_within_iff rfl hl).1.mpr (.inr (by decide))⟩

/-- A number that is too large for the type is stored as it is. -/
theorem toLiteral_not_within : ∃ l, (Value.int64 (.scalar 300)).toLiteral .uint8 none = .ok l ∧
    ∃ x ∈ l.elements .int32, ¬x.Within .uint8 :=
  ⟨_, rfl, .int32 300, by decide, by decide⟩

end Value
end Dataflow
