import Dataflow.Proofs.Elements

/- A stored tensor may list its elements in the field of their storage, pack them into bytes, or
   list only the first of them and leave out what repeats the last one listed. However it is
   stored, it is read as the same value (`toValue_encodings`): packed numbers are read back from
   as many bytes as the type has (`ofNumber_pattern`), and elements that were left out are filled
   up (`fillUp_of_shortens`).

   Filling up takes room that the stored form does not have, so a literal with an innocent count
   may overrun; `toValue_manyOnes` does. -/

namespace Dataflow

open Shape (volume)

/-- Numbers of one width that are written one after the other are read back, each as far as the width
goes. -/
theorem Bytes.numbers_flatMap {α : Type} (width : Nat) (f : α → Nat) : ∀ xs : List α,
    numbers width xs.length (xs.flatMap fun x => ofNat width (f x)) =
      xs.map fun x => f x % Nat.pow 256 width
  | [] => rfl
  | x :: xs => by
    have ht := numbers_flatMap width f xs
    rw [List.length_cons, List.flatMap_cons, numbers, List.take_left' (length_ofNat _ _),
      List.drop_left' (length_ofNat _ _), littleEndian_ofNat, ht, List.map_cons]

namespace Element

/-- The bits of an element as a number; integers are in two's complement. -/
def pattern : Element → Nat
  | float x => x.bits.toNat
  | double x => x.bits.toNat
  | int32 x => x.toUInt32.toNat
  | int64 x => x.toUInt64.toNat
  | bool x => x.toNat

/-- The lowest bytes of an element, lowest first. -/
def packed (width : Nat) (x : Element) : Bytes := Bytes.ofNat width x.pattern

/-- The element of a type that packed bytes hold, from the number that they write. -/
def ofNumber : ElementType → Nat → Element
  | .float, n => float ⟨.ofNat n⟩
  | .double, n => double ⟨.ofNat n⟩
  | .int16, n => int32 (.ofInt (Int.bmod n 65536))
  | .int8, n => int32 (.ofInt (Int.bmod n 256))
  | .qint8, n => int32 (.ofInt (Int.bmod n 256))
  | .int64, n => int64 (.ofInt n)
  | .bool, n => bool (n != 0)
  | _, n => int32 (.ofInt n)

theorem toInt_eq_bmod (x : Int32) : x.toInt = Int.bmod x.toUInt32.toNat 4294967296 :=
  BitVec.toInt_eq_toNat_bmod x.toBitVec

/-- An integer that fits into its lowest bits with its sign is their balanced residue. -/
theorem ofInt_bmod {x : Int32} {m : Nat} (hm : m = 256 ∨ m = 65536)
    (hx : -(m : Int) ≤ 2 * x.toInt ∧ 2 * x.toInt < m) :
    Int32.ofInt (Int.bmod (x.toUInt32.toNat % m : Nat) m) = x := by
  have hn : Int.bmod (x.toUInt32.toNat % m : Nat) m = x.toInt := by
    rw [toInt_eq_bmod x] at hx ⊢
    simp only [Int.bmod_def] at hx ⊢
    rcases hm with rfl | rfl <;> omega
  rw [hn, Int32.ofInt_toInt]

theorem ofInt_mod {x : Int32} (hx : 0 ≤ x.toInt ∧ x.toInt ≤ 255) :
    Int32.ofInt (x.toUInt32.toNat % 256 : Nat) = x := by
  have hn : ((x.toUInt32.toNat % 256 : Nat) : Int) = x.toInt := by
    rw [toInt_eq_bmod x] at hx ⊢
    simp only [Int.bmod_def] at hx ⊢
    omega
  rw [hn, Int32.ofInt_toInt]

theorem ofInt_toUInt32 (x : Int32) : Int32.ofInt x.toUInt32.toNat = x := by
  apply Int32.toInt_inj.mp
  rw [Int32.toInt_ofInt, toInt_eq_bmod x, Int32.size]

theorem ofInt_toUInt64 (x : Int64) : Int64.ofInt x.toUInt64.toNat = x := by
  apply Int64.toInt_inj.mp
  rw [Int64.toInt_ofInt]
  exact (BitVec.toInt_eq_toNat_bmod x.toBitVec).symm

theorem ofNumber_pattern {t : ElementType} {x : Element} {width : Nat} (hx : x.Within t)
    (hw : t.width? = some width) : ofNumber t (x.pattern % Nat.pow 256 width) = x := by
  obtain ⟨hs, hr⟩ := hx
  have hrange : ∀ {y : Int32}, x = int32 y → ∀ r ∈ t.range?, r.1 ≤ y.toInt ∧ y.toInt ≤ r.2 := by
    intro y hy r hm
    subst hy
    exact hr r hm y.toInt rfl
  have hword : ∀ y : Int32, int32 (.ofInt (y.toUInt32.toNat % 4294967296 : Nat)) = int32 y := by
    intro y
    rw [Nat.mod_eq_of_lt y.toUInt32.toNat_lt, ofInt_toUInt32]
  cases t <;> cases hw <;> cases x <;> cases hs
  case float x =>
    have hb : UInt32.ofNat (x.bits.toNat % 4294967296) = x.bits := by simp
    exact congrArg (fun b => float ⟨b⟩) hb
  case double x =>
    have hb : UInt64.ofNat (x.bits.toNat % 18446744073709551616) = x.bits := by simp
    exact congrArg (fun b => double ⟨b⟩) hb
  case int32 x => exact hword x
  case qint32 x => exact hword x
  case uint8 x =>
    exact congrArg int32 (ofInt_mod (hrange rfl (0, 255) rfl))
  case quint8 x =>
    exact congrArg int32 (ofInt_mod (hrange rfl (0, 255) rfl))
  case int16 x =>
    have := hrange rfl (-32768, 32767) rfl
    exact congrArg int32 (@ofInt_bmod x 65536 (.inr rfl) (by omega))
  case int8 x =>
    have := hrange rfl (-128, 127) rfl
    exact congrArg int32 (@ofInt_bmod x 256 (.inl rfl) (by omega))
  case qint8 x =>
    have := hrange rfl (-128, 127) rfl
    exact congrArg int32 (@ofInt_bmod x 256 (.inl rfl) (by omega))
  case int64 x =>
    show int64 (.ofInt (x.toUInt64.toNat % 18446744073709551616 : Nat)) = int64 x
    rw [Nat.mod_eq_of_lt x.toUInt64.toNat_lt, ofInt_toUInt64]
  case bool x => cases x <;> rfl

end Element

namespace Literal

variable {t : ElementType} {s : Storage} {width : Nat}

theorem exists_unpack (ht : t.storage? = some s) (hw : t.width? = some width) (count : Nat)
    (content : Bytes) : ∃ u, unpack t count content = some u ∧ u.storage = s ∧
      u.elements = (Bytes.numbers width count content).map (Element.ofNumber t) := by
  cases t <;> cases ht <;> cases hw <;>
    exact ⟨_, rfl, rfl, by simp [Value.elements, DenseArray.vector, Element.ofNumber, Function.comp_def]⟩

theorem unpack_packed (ht : t.storage? = some s) (hw : t.width? = some width) {xs : List Element}
    (hx : ∀ x ∈ xs, x.Within t) : ∃ u, unpack t xs.length (xs.flatMap (·.packed width)) = some u ∧
      u.storage = s ∧ u.elements = xs := by
  obtain ⟨u, hu, hs, he⟩ := exists_unpack ht hw xs.length (xs.flatMap (·.packed width))
  refine ⟨u, hu, hs, ?_⟩
  calc u.elements
      = (xs.map fun x => x.pattern % Nat.pow 256 width).map (Element.ofNumber t) := by
        rw [he]
        exact congrArg _ (Bytes.numbers_flatMap width Element.pattern xs)
    _ = xs.map fun x => Element.ofNumber t (x.pattern % Nat.pow 256 width) := List.map_map
    _ = xs := (List.map_congr_left fun x hm => Element.ofNumber_pattern (hx x hm) hw).trans
        (List.map_id xs)

theorem length_packed (width : Nat) (xs : List Element) :
    (xs.flatMap (·.packed width)).length = xs.length * width := by
  induction xs with
  | nil => simp
  | cons x xs ih =>
    rw [List.flatMap_cons, List.length_append, ih, Element.packed, Bytes.length_ofNat,
      List.length_cons, Nat.succ_mul, Nat.add_comm]

theorem readContent_of_unpack {count : Nat} {content : Bytes} {u : Value}
    (hw : t.width? = some width) (hl : content.length = count * width)
    (hu : unpack t count content = some u) : readContent t count content = .ok u := by
  unfold readContent ElementType.width
  rw [hw]
  show (if count * width ≠ content.length then _ else _) = _
  rw [if_neg (not_not_intro hl.symm), hu]

theorem readContent_of_length_ne {count : Nat} {content : Bytes} (hw : t.width? = some width)
    (hl : content.length ≠ count * width) : readContent t count content =
      .error (.shapeMismatch (.contentSize content.length count width)) := by
  unfold readContent ElementType.width
  rw [hw]
  show (if count * width ≠ content.length then _ else _) = _
  rw [if_pos hl.symm]

/-! ## Filling up -/

/-- `stored` are the first of `xs`, and every further one is the last that is stored, or `zero` where
none is. -/
def Shortens {α : Type} (zero : α) (stored xs : List α) : Prop :=
  ∃ rest, xs = stored ++ rest ∧ ∀ x ∈ rest, x = stored.getLast?.getD zero

theorem shortens_self {α : Type} (zero : α) (xs : List α) : Shortens zero xs xs :=
  ⟨[], by simp, by simp⟩

/-- What was left out is what filling up puts there. -/
theorem Shortens.eq_append {α : Type} {zero : α} {stored xs : List α}
    (h : Shortens zero stored xs) : stored.length ≤ xs.length ∧
      xs = stored ++ List.replicate (xs.length - stored.length) (DenseArray.filler zero stored) := by
  obtain ⟨rest, rfl, hrest⟩ := h
  refine ⟨by simp, ?_⟩
  rw [List.length_append, Nat.add_sub_cancel_left]
  exact congrArg _ (List.eq_replicate_iff.mpr ⟨rfl, hrest⟩)

theorem Shortens.of_map {α β : Type} {f : α → β} (hf : f.Injective) {zero : α} {stored xs : List α}
    (h : Shortens (f zero) (stored.map f) (xs.map f)) : Shortens zero stored xs := by
  obtain ⟨rest, he, hrest⟩ := h
  obtain ⟨l, r, rfl, hl, rfl⟩ := List.map_eq_append_iff.mp he
  obtain rfl := (List.map_inj_right fun _ _ h => hf h).mp hl
  refine ⟨r, rfl, fun x hx => hf ?_⟩
  rw [hrest (f x) (List.mem_map_of_mem hx), List.getLast?_map, Option.getD_map]

/-- Elements that were left out are filled up, if all of them can be allocated. -/
theorem fillUp_of_shortens {u v : Value} (hs : u.storage = s) (ht : v.storage = s)
    (h : Shortens (s.element s.zero) u.elements v.elements)
    (hf : Shape.fitsLayout v.shape = true) : fillUp u v.shape =
      if Shape.fitsBytes s.width v.shape = true then .ok v else .error (.overrun .bytes) := by
  obtain ⟨s, a, rfl⟩ := u.exists_wrap
  obtain ⟨s', b, rfl⟩ := v.exists_wrap
  simp only [Storage.storage_wrap] at hs ht
  subst hs ht
  simp only [Storage.elements_wrap, Storage.shape_wrap] at h hf ⊢
  obtain ⟨hle, hb⟩ := (h.of_map Storage.element_injective).eq_append
  rw [b.length_data] at hle hb
  rw [Storage.fillUp_wrap, DenseArray.ofStored_eq _ _ _ hf, dif_pos hle]
  split
  · exact congrArg (fun c => Except.ok (Storage.wrap _ c)) (DenseArray.eq_of_data rfl hb.symm)
  · rfl

theorem fillUp_of_lt {u : Value} {shape : List Nat} (hf : Shape.fitsLayout shape = true)
    (h : volume shape < u.elements.length) :
    fillUp u shape = .error (.shapeMismatch (.tooMany u.elements.length shape (volume shape))) := by
  obtain ⟨s, a, rfl⟩ := u.exists_wrap
  rw [Storage.elements_wrap, List.length_map] at h ⊢
  rw [Storage.fillUp_wrap, DenseArray.ofStored_eq _ _ _ hf, dif_neg (Nat.not_le.mpr h)]
  rfl

/-! ## Encodings -/

/-- The ways to store elements in a literal. -/
inductive Encodes (l : Literal) (s : Storage) (width : Nat) (xs : List Element) : Prop where
  /-- Each is listed in the field of the storage. -/
  | listed : l.content = [] → l.elements s = xs → Encodes l s width xs
  /-- They are packed one after the other; the fields do not matter unless nothing is packed. -/
  | packed : l.content = xs.flatMap (·.packed width) → (xs = [] → l.elements s = []) →
    Encodes l s width xs
  /-- Only the first are listed; the rest repeats the last one listed, or is zero. -/
  | shortened : l.content = [] → Shortens (s.element s.zero) (l.elements s) xs →
    Encodes l s width xs

section

variable {l : Literal} {v : Value} {shape : List Nat}

theorem storage_field (l : Literal) (s : Storage) : (l.field s).storage = s := by cases s <;> rfl

/-- A literal is read as the value whose elements it stores, in whichever way, or overruns if they cannot
be allocated. -/
theorem toValue_of_encodes (hl : l.Declares t v.shape) (hf : Shape.fitsLayout v.shape = true)
    (ht : t.storage? = some s) (hw : t.width? = some width) (hs : v.storage = s)
    (hx : ∀ x ∈ v.elements, x.Within t) (h : l.Encodes s width v.elements) : l.toValue =
      if Shape.fitsBytes s.width v.shape = true then .ok v else .error (.overrun .bytes) := by
  have hfield : l.content = [] → Shortens (s.element s.zero) (l.elements s) v.elements → l.toValue =
      if Shape.fitsBytes s.width v.shape = true then .ok v else .error (.overrun .bytes) := by
    intro hc hsh
    rw [toValue_field hl hf hc ht, fillUp_of_shortens (l.storage_field s) hs hsh hf]
  cases h with
  | listed hc he => exact hfield hc (he ▸ shortens_self _ _)
  | shortened hc hsh => exact hfield hc hsh
  | packed hc he =>
    have hlen : l.content.length = v.elements.length * width := by rw [hc, length_packed]
    by_cases hnil : v.elements = []
    · rw [hnil, List.length_nil, Nat.zero_mul, List.length_eq_zero_iff] at hlen
      refine hfield hlen ?_
      rw [he hnil, hnil]
      exact shortens_self _ _
    · have hne : l.content ≠ [] := by
        intro hempty
        have hpos : 0 < width := by cases t <;> cases hw <;> decide
        rw [hempty, List.length_nil] at hlen
        rcases Nat.mul_eq_zero.mp hlen.symm with h | h
        · exact hnil (List.length_eq_zero_iff.mp h)
        · omega
      obtain ⟨u, hu, hus, hue⟩ := unpack_packed ht hw hx
      rw [← hc, v.length_elements] at hu
      rw [v.length_elements] at hlen
      have hread : readContent t (volume v.shape) l.content = .ok u :=
        readContent_of_unpack hw hlen hu
      rw [toValue_content hl hf hne, hread]
      exact fillUp_of_shortens hus hs (hue ▸ shortens_self _ _) hf

/-- Every way to store the elements of a type in a literal is read as one value, that of the declared shape
with these elements in row-major order; where they take more bytes than can be addressed, every way
overruns. More listed elements than the shape has, and packed content of another length than the shape
asks for, are refused. -/
theorem toValue_encodings (ht : t.storage? = some s) (hw : t.width? = some width)
    (hf : Shape.fitsLayout shape = true) :
    (∀ xs : List Element, xs.length = volume shape → (∀ x ∈ xs, x.Within t) →
      ∃ v : Value, v.storage = s ∧ v.shape = shape ∧ v.elements = xs ∧
        ∀ l : Literal, l.Declares t shape → l.Encodes s width xs → l.toValue =
          if volume shape * s.width ≤ Shape.addressLimit then .ok v else .error (.overrun .bytes)) ∧
    ∀ l : Literal, l.Declares t shape →
      (l.content = [] → volume shape < (l.elements s).length → l.toValue =
        .error (.shapeMismatch (.tooMany (l.elements s).length shape (volume shape)))) ∧
      (l.content ≠ [] → l.content.length ≠ volume shape * width → l.toValue =
        .error (.shapeMismatch (.contentSize l.content.length (volume shape) width))) := by
  refine ⟨?_, ?_⟩
  · intro xs hlen hx
    have hst : ∀ x ∈ xs, x.storage = s := fun x hm => by
      have := (hx x hm).1
      rw [ht] at this
      exact (Option.some.inj this).symm
    obtain ⟨v, hs, rfl, rfl⟩ := Value.exists_value hst hlen
    refine ⟨v, hs, rfl, rfl, fun l hl he => ?_⟩
    rw [toValue_of_encodes hl hf ht hw hs hx he]
    simp only [Shape.fitsBytes, decide_eq_true_eq]
  · intro l hl
    refine ⟨?_, ?_⟩
    · intro hc hlt
      rw [toValue_field hl hf hc ht, fillUp_of_lt hf hlt]
      rfl
    · intro hc hne
      rw [toValue_content hl hf hc, readContent_of_length_ne hw hne]
      rfl

def repeatedBytes : List Element := [.int32 5, .int32 (-1), .int32 (-1), .int32 (-1)]

/-- A literal of two rows of two such numbers, stored as `content` or listed as `ints`. -/
def byteSquare (content : Bytes) (ints : List Int32) : Literal :=
  { typeCode := 6, shape := some (.ofDims [2, 2]), content, ints }

theorem toValue_encodings_repeatedBytes : ∃ v : Value, v.shape = [2, 2] ∧
    v.elements = repeatedBytes ∧ (byteSquare [] [5, -1, -1, -1]).toValue = .ok v ∧
      (byteSquare [5, 255, 255, 255] [7]).toValue = .ok v ∧
        (byteSquare [] [5, -1]).toValue = .ok v := by
  have hd : ∀ content ints, (byteSquare content ints).Declares .int8 [2, 2] :=
    fun _ _ => ⟨rfl, rfl⟩
  obtain ⟨hread, -⟩ := @toValue_encodings .int8 .int32 1 [2, 2] rfl rfl (by decide)
  obtain ⟨v, -, hs, he, hv⟩ := hread repeatedBytes rfl (by decide)
  refine ⟨v, hs, he, hv _ (hd _ _) (.listed rfl rfl), hv _ (hd _ _) (.packed rfl nofun),
    hv _ (hd _ _) (.shortened rfl ⟨[.int32 (-1), .int32 (-1)], rfl, by decide⟩)⟩

def manyOnes : Literal :=
  { typeCode := 1, shape := some (.ofDims [2305843009213693952]), floats := [.one] }

/-- A literal may store elements that can be counted and laid out, and cannot be allocated. -/
theorem toValue_manyOnes : manyOnes.Declares .float [2305843009213693952] ∧
    Shape.fitsLayout [2305843009213693952] = true ∧
    manyOnes.Encodes .float 4 (List.replicate 2305843009213693952 (.float .one)) ∧
    manyOnes.toValue = .error (.overrun .bytes) := by
  refine ⟨⟨rfl, rfl⟩, by decide, .shortened rfl ?_, rfl⟩
  refine ⟨List.replicate 2305843009213693951 (.float .one), List.replicate_succ, ?_⟩
  intro x hx
  exact List.eq_of_mem_replicate hx

end

end Literal

end Dataflow
