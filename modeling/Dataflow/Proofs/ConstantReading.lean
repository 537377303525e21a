import Dataflow.Node.Constant
import Dataflow.Proofs.Counting

/- A value that is written as a literal of its own storage is read back as it was
   (`toValue_listed`), and so is the constant node that holds it, provided its shape can be laid
   out: the sizes fit the stored dimensions, the elements are counted without an overflow, and
   nothing has to be filled up. -/

namespace Dataflow

namespace Shape

theorem clamp_ofNat {shape : List Nat} (h : fitsLayout shape = true) :
    clamp (shape.map Int64.ofNat) = shape := by
  rw [clamp, List.map_map]
  refine (List.map_congr_left fun d hd => ?_).trans (List.map_id shape)
  have hd : d ≤ addressLimit := Nat.le_trans (le_volume_filter hd) (fitsLayout_iff.mp h)
  have hlt : d < 2 ^ 63 := by
    unfold addressLimit at hd
    omega
  show (Int64.ofNat d).toInt.toNat = d
  rw [Int64.toInt_ofNat_of_lt hlt, Int.toNat_natCast]

end Shape

namespace DenseArray

/-- Where a shape can be laid out, stored data is refused only if there is too much of it, and
overruns if its elements are too large. -/
theorem ofStored_eq {α : Type} (width : Nat) (zero : α) (data : List α) {shape : List Nat}
    (h : Shape.fitsLayout shape = true) : ofStored width zero data shape =
      if hl : data.length ≤ Shape.volume shape then
        if Shape.fitsBytes width shape = true then
          .ok ⟨shape, data ++ List.replicate (Shape.volume shape - data.length) (filler zero data),
            length_append_replicate _ hl⟩
        else .error (.overrun .bytes)
      else .error (.shapeMismatch (.tooMany data.length shape (Shape.volume shape))) := by
  have hc := Shape.count_of_fitsLayout h
  unfold ofStored
  split
  · rename_i e he
    cases hc.symm.trans he
  · rename_i n hn
    cases hc.symm.trans hn
    simp only [h, if_true]

theorem ofStored_data {α : Type} {width : Nat} (zero : α) (a : DenseArray α)
    (h : Shape.fitsLayout a.shape = true) (hb : Shape.fitsBytes width a.shape = true) :
    ofStored width zero a.data a.shape = .ok a := by
  rw [ofStored_eq width zero a.data h, dif_pos (Nat.le_of_eq a.length_data), if_pos hb]
  cases a with
  | mk shape data hl => simp [hl]

end DenseArray

namespace Literal

/-- The literal declares an element type and a shape. -/
structure Declares (l : Literal) (t : ElementType) (shape : List Nat) : Prop where
  typeCode : l.typeCode = t.code
  dims : l.dims = shape.map Int64.ofNat

variable {l : Literal} {t : ElementType} {shape : List Nat} {s : Storage}

theorem Declares.ofCode (hl : l.Declares t shape) : ElementType.ofCode l.typeCode = .ok t := by
  rw [hl.typeCode, ElementType.ofCode, ElementType.ofCode?_code]

theorem Declares.clamp (hl : l.Declares t shape) (hs : Shape.fitsLayout shape = true) :
    Shape.clamp l.dims = shape := by
  rw [hl.dims, Shape.clamp_ofNat hs]

theorem Declares.count (hl : l.Declares t shape) (hs : Shape.fitsLayout shape = true) :
    Shape.declaredCount l.dims = .ok (Shape.volume shape) := by
  rw [Shape.declaredCount, hl.clamp hs, Shape.count?_of_fitsLayout hs]

/-- How a literal is read whose elements are of a type and can be counted. -/
theorem toValue_of_count {n : Nat} (ht : ElementType.ofCode l.typeCode = .ok t)
    (hn : Shape.declaredCount l.dims = .ok n) : l.toValue =
      (if l.content.isEmpty then l.field <$> t.storage else readContent t n l.content) >>=
        fun stored => fillUp stored (Shape.clamp l.dims) := by
  unfold toValue
  rw [ht, hn]
  cases l.content.isEmpty <;> rfl

theorem toValue_of_field {n : Nat} (ht : ElementType.ofCode l.typeCode = .ok t)
    (hn : Shape.declaredCount l.dims = .ok n) (hc : l.content = []) (hs : t.storage? = some s) :
    l.toValue = fillUp (l.field s) (Shape.clamp l.dims) := by
  rw [toValue_of_count ht hn, hc, ElementType.storage, hs]
  rfl

theorem toValue_of_content {n : Nat} (ht : ElementType.ofCode l.typeCode = .ok t)
    (hn : Shape.declaredCount l.dims = .ok n) (hc : l.content ≠ []) : l.toValue =
      readContent t n l.content >>= fun stored => fillUp stored (Shape.clamp l.dims) := by
  rw [toValue_of_count ht hn, if_neg (by simpa using hc)]

theorem toValue_field (hl : l.Declares t shape) (hs : Shape.fitsLayout shape = true)
    (hc : l.content = []) (ht : t.storage? = some s) : l.toValue = fillUp (l.field s) shape := by
  rw [toValue_of_field hl.ofCode (hl.count hs) hc ht, hl.clamp hs]

theorem toValue_content (hl : l.Declares t shape) (hs : Shape.fitsLayout shape = true)
    (hc : l.content ≠ []) : l.toValue = readContent t (Shape.volume shape) l.content >>=
      fun stored => fillUp stored shape := by
  rw [toValue_of_content hl.ofCode (hl.count hs) hc, hl.clamp hs]

end Literal

namespace Value

theorem fillUp_listed {v : Value} {t : ElementType} (hs : Shape.fitsLayout v.shape = true)
    (hb : Shape.fitsBytes v.storage.width v.shape = true) :
    Literal.fillUp ((v.listed t).field v.storage) v.shape = .ok v := by
  cases v with
  | float a => exact congrArg (Functor.map Value.float) (a.ofStored_data _ hs hb)
  | double a => exact congrArg (Functor.map Value.double) (a.ofStored_data _ hs hb)
  | int32 a => exact congrArg (Functor.map Value.int32) (a.ofStored_data _ hs hb)
  | int64 a => exact congrArg (Functor.map Value.int64) (a.ofStored_data _ hs hb)
  | bool a => exact congrArg (Functor.map Value.bool) (a.ofStored_data _ hs hb)

theorem declares_listed (v : Value) (t : ElementType) : (v.listed t).Declares t v.shape := by
  cases v <;> exact ⟨rfl, DeclaredShape.dims_ofDims _⟩

theorem content_listed (v : Value) (t : ElementType) : (v.listed t).content = [] := by
  cases v <;> rfl

theorem toValue_listed {v : Value} {t : ElementType} (ht : t.storage? = some v.storage)
    (hs : Shape.fitsLayout v.shape = true) (hb : Shape.fitsBytes v.storage.width v.shape = true) :
    (v.listed t).toValue = .ok v := by
  rw [Literal.toValue_field (v.declares_listed t) hs (v.content_listed t) ht, fillUp_listed hs hb]

/-! ## Casting -/

theorem toStorage_storage (v : Value) : v.toStorage v.storage = v := by cases v <;> rfl

/-- A cast to a type with a storage only overruns. -/
theorem cast_eq (v : Value) {t : ElementType} {s : Storage} (ht : t.storage? = some s) :
    v.cast t = if Shape.fitsBytes s.width v.shape = true then .ok (v.toStorage s)
      else .error (.overrun .bytes) := by
  have hs : t.storage = .ok s := by rw [ElementType.storage, ht]
  unfold cast
  rw [hs]
  rfl

end Value

namespace Node

variable {name : String} {v : Value} {t : ElementType} {dims : Option (List Int64)}
  {placement : Placement} {c : Node}

theorem isConstant_placement (placement : Placement) :
    Op.isConstant placement.op = true := by
  cases placement <;> rfl

theorem literal_withAttribute {n : Node} (hn : n.isConstant = true) (l : Literal) :
    (n.withAttribute valueKey (.tensor l)).literal = .ok l := by
  have hc : (n.withAttribute valueKey (.tensor l)).isConstant = true := hn
  rw [literal, if_pos hc, attribute?, withAttribute, AttributeMap.get?_insert_self]
  rfl

theorem constant_eq_ok : constant name v t dims placement = .ok c ↔
    ∃ l, v.toLiteral t dims = .ok l ∧ ((make placement.op name []).withAttribute elementTypeKey
      (.ofElementType t)).withAttribute valueKey (.tensor l) = c := by
  unfold constant withTensor
  cases v.toLiteral t dims with
  | error e =>
    refine iff_of_false ?_ (by simp)
    rintro ⟨⟩
  | ok l =>
    constructor
    · rintro ⟨⟩
      exact ⟨l, rfl, rfl⟩
    · rintro ⟨_, ⟨⟩, rfl⟩
      rfl

theorem constant_of_error {e : Error} (h : v.toLiteral t dims = .error e) :
    constant name v t dims placement = .error e := by
  unfold constant withTensor
  rw [h]
  rfl

theorem op_constant (hc : constant name v t dims placement = .ok c) :
    c.name = name ∧ c.op = placement.op ∧ c.inputs = [] := by
  obtain ⟨l, -, rfl⟩ := constant_eq_ok.mp hc
  exact ⟨rfl, rfl, rfl⟩

theorem constantValue_eq (hc : constant name v t dims placement = .ok c) :
    ∃ l, v.toLiteral t dims = .ok l ∧ c.constantValue = l.toValue := by
  obtain ⟨l, hl, rfl⟩ := constant_eq_ok.mp hc
  have hn : ((make placement.op name []).withAttribute elementTypeKey
      (.ofElementType t)).isConstant = true := isConstant_placement placement
  exact ⟨l, hl, congrArg (· >>= Literal.toValue) (literal_withAttribute hn l)⟩

theorem constantValue_constant (hc : constant name v t none placement = .ok c)
    (ht : t.storage? = some v.storage) (hs : Shape.fitsLayout v.shape = true) :
    c.constantValue = .ok v := by
  obtain ⟨l, hl, hval⟩ := constantValue_eq hc
  unfold Value.toLiteral at hl
  rw [v.cast_eq ht, v.toStorage_storage] at hl
  by_cases hb : Shape.fitsBytes v.storage.width v.shape = true
  · rw [if_pos hb] at hl
    cases hl
    rw [hval, Value.toValue_listed ht hs hb]
  · rw [if_neg hb] at hl
    cases hl

end Node
end Dataflow
