import Dataflow.Proofs.ConstantReading
import Mathlib.Data.Set.List

/- A value keeps its elements in one of five storages. Here they are seen as one list in
   row-major order, whatever the storage is; casting, taking on a shape and writing a literal are
   each one fact about that list (`elements_toStorage`, `reshape_eq_ok`, `toLiteral_none`,
   `toLiteral_some`). What is true of the arrays of each storage is true of values
   (`exists_wrap`), so that no proof goes through the five storages again. -/

namespace Dataflow

inductive Element where
  | float (x : Binary32)
  | double (x : Binary64)
  | int32 (x : Int32)
  | int64 (x : Int64)
  | bool (x : Bool)
  deriving DecidableEq

namespace Element

def storage : Element → Storage
  | float _ => .float
  | double _ => .double
  | int32 _ => .int32
  | int64 _ => .int64
  | bool _ => .bool

/-- The number of an integer. -/
def number? : Element → Option Int
  | int32 x => some x.toInt
  | int64 x => some x.toInt
  | _ => none

/-- The element is one of a type: the storage is that of the type, and an integer is one that the type
can hold. -/
def Within (t : ElementType) (x : Element) : Prop :=
  t.storage? = some x.storage ∧ ∀ r ∈ t.range?, ∀ n ∈ x.number?, r.1 ≤ n ∧ n ≤ r.2

instance (t : ElementType) (x : Element) : Decidable (Within t x) := by
  unfold Within
  infer_instance

/-! ## Casting one element -/

def toFloat : Element → Binary32
  | float x => x
  | double x => x.toBinary32
  | int32 x => .ofValue x.toFloat32
  | int64 x => .ofValue x.toFloat32
  | bool x => .ofBool x

def toDouble : Element → Binary64
  | float x => x.toBinary64
  | double x => x
  | int32 x => .ofValue x.toFloat
  | int64 x => .ofValue x.toFloat
  | bool x => .ofBool x

/-- Numbers are cut and bounded, a longer integer loses its high bits. -/
def toInt32 : Element → Int32
  | float x => x.toInt32
  | double x => x.toInt32
  | int32 x => x
  | int64 x => x.toInt32
  | bool x => x.toInt32

def toInt64 : Element → Int64
  | float x => x.toInt64
  | double x => x.toInt64
  | int32 x => x.toInt64
  | int64 x => x
  | bool x => x.toInt64

def toBool : Element → Bool
  | float x => !x.isZero
  | double x => !x.isZero
  | int32 x => x != 0
  | int64 x => x != 0
  | bool x => x

def toStorage (x : Element) : Storage → Element
  | .float => float x.toFloat
  | .double => double x.toDouble
  | .int32 => int32 x.toInt32
  | .int64 => int64 x.toInt64
  | .bool => bool x.toBool

end Element

open Shape (volume)

/-! ## Values as lists of elements -/

/-- The elements of a value in row-major order. -/
def Value.elements : Value → List Element
  | .float a => a.data.map .float
  | .double a => a.data.map .double
  | .int32 a => a.data.map .int32
  | .int64 a => a.data.map .int64
  | .bool a => a.data.map .bool

namespace Storage

/-- What a storage keeps for an element. -/
def Carrier : Storage → Type
  | .float => Binary32
  | .double => Binary64
  | .int32 => Int32
  | .int64 => Int64
  | .bool => Bool

def element : (s : Storage) → s.Carrier → Element
  | .float => .float
  | .double => .double
  | .int32 => .int32
  | .int64 => .int64
  | .bool => .bool

/-- Zero; all its bits are zero. -/
def zero : (s : Storage) → s.Carrier
  | .float => Binary32.zero
  | .double => Binary64.zero
  | .int32 => (0 : Int32)
  | .int64 => (0 : Int64)
  | .bool => false

def wrap : (s : Storage) → DenseArray s.Carrier → Value
  | .float => .float
  | .double => .double
  | .int32 => .int32
  | .int64 => .int64
  | .bool => .bool

variable {s : Storage} {a : DenseArray s.Carrier}

theorem element_injective : s.element.Injective := by
  cases s <;> rintro _ _ ⟨⟩ <;> rfl

theorem exists_element {x : Element} (hx : x.storage = s) : ∃ y, s.element y = x := by
  cases x <;> cases hx <;> exact ⟨_, rfl⟩

@[simp] theorem storage_wrap : (s.wrap a).storage = s := by cases s <;> rfl

@[simp] theorem shape_wrap : (s.wrap a).shape = a.shape := by cases s <;> rfl

@[simp] theorem elements_wrap : (s.wrap a).elements = a.data.map s.element := by cases s <;> rfl

theorem fillUp_wrap (shape : List Nat) : Literal.fillUp (s.wrap a) shape =
    s.wrap <$> DenseArray.ofStored s.width s.zero a.data shape := by
  cases s <;> rfl

theorem reshape_wrap (shape : List Nat) :
    (s.wrap a).reshape shape = s.wrap <$> a.fit s.width shape := by
  cases s <;> rfl

end Storage

namespace Value

variable {v w : Value} {s : Storage} {shape : List Nat}

/-- What is true of the arrays of every storage is true of values. -/
theorem exists_wrap (v : Value) : ∃ s a, v = Storage.wrap s a := by
  cases v with
  | float a => exact ⟨.float, a, rfl⟩
  | double a => exact ⟨.double, a, rfl⟩
  | int32 a => exact ⟨.int32, a, rfl⟩
  | int64 a => exact ⟨.int64, a, rfl⟩
  | bool a => exact ⟨.bool, a, rfl⟩

@[simp] theorem length_elements (v : Value) : v.elements.length = v.size := by
  obtain ⟨s, a, rfl⟩ := v.exists_wrap
  simp [size, a.length_data]

theorem storage_of_mem_elements {x : Element} (hx : x ∈ v.elements) : x.storage = v.storage := by
  cases v <;> obtain ⟨y, -, rfl⟩ := List.mem_map.mp hx <;> rfl

theorem exists_value {xs : List Element} (hx : ∀ x ∈ xs, x.storage = s)
    (hl : xs.length = volume shape) : ∃ v : Value, v.storage = s ∧ v.shape = shape ∧
      v.elements = xs := by
  obtain ⟨data, rfl⟩ : xs ∈ Set.range (List.map s.element) := by
    rw [Set.range_list_map]
    exact fun x hm => Storage.exists_element (hx x hm)
  rw [List.length_map] at hl
  exact ⟨s.wrap ⟨shape, data, hl⟩, by simp⟩

/-! ## Casting -/

@[simp] theorem storage_toStorage (v : Value) (s : Storage) : (v.toStorage s).storage = s := by
  cases s <;> rfl

@[simp] theorem shape_toStorage (v : Value) (s : Storage) : (v.toStorage s).shape = v.shape := by
  cases v <;> cases s <;> rfl

theorem elements_toStorage (v : Value) (s : Storage) :
    (v.toStorage s).elements = v.elements.map (·.toStorage s) := by
  cases v <;> cases s <;>
    simp [toStorage, elements, toFloat, toDouble, toInt32, toInt64, toBool, DenseArray.map,
      Element.toStorage, Element.toFloat, Element.toDouble, Element.toInt32, Element.toInt64,
      Element.toBool, Function.comp_def]

end Value

/-! ## Taking on a shape -/

namespace DenseArray

variable {α : Type} {a b : DenseArray α} {shape : List Nat} {width : Nat} {x : α}

theorem fill_eq_ok (h : fill width shape x = .ok b) : b.shape = shape ∧
    b.data = List.replicate (volume shape) x ∧ Shape.fitsBytes width shape = true := by
  unfold fill at h
  split at h
  · split at h
    · rename_i hb
      cases h
      exact ⟨rfl, rfl, hb⟩
    · cases h
  · cases h

/-- An array that is brought to a shape keeps its elements, or repeats its only one if they can be
allocated. -/
theorem fit_eq_ok (h : a.fit width shape = .ok b) : b.shape = shape ∧
    (a.data.length = volume shape ∧ b.data = a.data ∨
      ∃ x, a.data = [x] ∧ b.data = List.replicate (volume shape) x ∧
        Shape.fitsBytes width shape = true) := by
  unfold fit at h
  split at h
  · cases h
  · rename_i n hn
    split at h
    · rename_i hl
      split at h
      · cases h
        exact ⟨rfl, .inl ⟨hl.trans (Shape.count_eq_ok hn).1, rfl⟩⟩
      · cases h
    · split at h
      · rename_i x hx
        obtain ⟨hs, hd, hb⟩ := fill_eq_ok h
        exact ⟨hs, .inr ⟨x, hx, hd, hb⟩⟩
      · cases h

theorem fit_of_length (hf : Shape.fitsLayout shape = true) (hl : a.data.length = volume shape) :
    ∃ b, a.fit width shape = .ok b := by
  have hc := Shape.count_of_fitsLayout hf
  unfold fit
  split
  · rename_i e he
    cases hc.symm.trans he
  · rename_i n hn
    cases hc.symm.trans hn
    rw [dif_pos hl, if_pos hf]
    exact ⟨_, rfl⟩

theorem fit_of_singleton (hf : Shape.fitsLayout shape = true) (hx : a.data = [x])
    (hn : a.data.length ≠ volume shape) : a.fit width shape =
      if Shape.fitsBytes width shape = true then
        .ok ⟨shape, List.replicate (volume shape) x, List.length_replicate⟩
      else .error (.overrun .bytes) := by
  have hc := Shape.count_of_fitsLayout hf
  unfold fit
  split
  · rename_i e he
    cases hc.symm.trans he
  · rename_i n hn'
    cases hc.symm.trans hn'
    rw [dif_neg hn]
    split
    · rename_i y hy
      cases hx.symm.trans hy
      rw [fill, if_pos hf]
    · rename_i hnot
      exact absurd hx (hnot x)

end DenseArray

namespace Value

variable {v w : Value} {t : ElementType} {s : Storage} {shape : List Nat} {l : Literal}

/-- `w` is `v` brought to a shape: with the same elements, or with its only element everywhere. -/
structure Takes (v w : Value) (shape : List Nat) : Prop where
  storage_eq : w.storage = v.storage
  shape_eq : w.shape = shape
  elements_eq : v.size = volume shape ∧ w.elements = v.elements ∨
    ∃ x, v.elements = [x] ∧ w.elements = List.replicate (volume shape) x

theorem reshape_eq_ok (h : v.reshape shape = .ok w) : v.Takes w shape := by
  obtain ⟨s, a, rfl⟩ := v.exists_wrap
  rw [Storage.reshape_wrap] at h
  cases hb : a.fit s.width shape with
  | error e =>
    rw [hb] at h
    cases h
  | ok b =>
    rw [hb] at h
    cases h
    obtain ⟨hs, hd⟩ := DenseArray.fit_eq_ok hb
    refine ⟨by simp, by simp [hs], ?_⟩
    rw [size, Storage.shape_wrap, ← a.length_data, Storage.elements_wrap, Storage.elements_wrap]
    rcases hd with ⟨hl, hd⟩ | ⟨x, hx, hd, -⟩
    · exact .inl ⟨hl, by rw [hd]⟩
    · exact .inr ⟨s.element x, by rw [hx, List.map_singleton], by rw [hd, List.map_replicate]⟩

theorem fitsBytes_of_reshape (hv : Shape.fitsBytes v.storage.width v.shape = true)
    (h : v.reshape shape = .ok w) : Shape.fitsBytes v.storage.width shape = true := by
  obtain ⟨s, a, rfl⟩ := v.exists_wrap
  rw [Storage.storage_wrap, Storage.shape_wrap] at hv
  rw [Storage.reshape_wrap] at h
  rw [Storage.storage_wrap]
  cases hb : a.fit s.width shape with
  | error e =>
    rw [hb] at h
    cases h
  | ok b =>
    obtain ⟨-, ⟨hl, -⟩ | ⟨-, -, -, hfits⟩⟩ := DenseArray.fit_eq_ok hb
    · rwa [Shape.fitsBytes, ← hl, a.length_data]
    · exact hfits

/-- A value with as many elements as a shape has, or a single one, is brought to it or overruns. -/
theorem reshape_of_size (hf : Shape.fitsLayout shape = true)
    (hb : Shape.fitsBytes v.storage.width v.shape = true)
    (hv : v.size = volume shape ∨ v.size = 1) :
    if Shape.fitsBytes v.storage.width shape = true then ∃ w, v.reshape shape = .ok w
    else v.reshape shape = .error (.overrun .bytes) := by
  obtain ⟨s, a, rfl⟩ := v.exists_wrap
  rw [size, Storage.shape_wrap, ← a.length_data] at hv
  rw [Storage.storage_wrap, Storage.shape_wrap] at hb
  rw [Storage.reshape_wrap, Storage.storage_wrap]
  by_cases hl : a.data.length = volume shape
  · have hfits : Shape.fitsBytes s.width shape = true := by rwa [Shape.fitsBytes, ← hl, a.length_data]
    obtain ⟨b, hfit⟩ := @DenseArray.fit_of_length _ a shape s.width hf hl
    rw [if_pos hfits, hfit]
    exact ⟨s.wrap b, rfl⟩
  · obtain ⟨x, hx⟩ := List.length_eq_one_iff.mp (hv.resolve_left hl)
    rw [DenseArray.fit_of_singleton hf hx hl]
    by_cases hfits : Shape.fitsBytes s.width shape = true
    · rw [if_pos hfits, if_pos hfits]
      exact ⟨s.wrap _, rfl⟩
    · rw [if_neg hfits, if_neg hfits]
      rfl

end Value

/-! ## Writing -/

def Literal.elements (l : Literal) (s : Storage) : List Element := (l.field s).elements

theorem Shape.isDynamic_eq_false {dims : List Int64} :
    isDynamic dims = false ↔ ∀ d ∈ dims, 0 ≤ d := by
  simp [isDynamic, Int64.not_lt]

namespace Value

variable {v w : Value} {t : ElementType} {s : Storage} {dims : List Int64} {l : Literal}

theorem elements_listed (v : Value) (t : ElementType) :
    (v.listed t).elements v.storage = v.elements := by
  cases v <;> rfl

theorem fitTo_of_known (hd : ∀ d ∈ dims, 0 ≤ d) : v.fitTo dims = v.reshape (Shape.clamp dims) := by
  rw [fitTo, Shape.isDynamic_eq_false.mpr hd]
  rfl

theorem fitTo_eq_ok : v.fitTo dims = .ok w ↔
    (∀ d ∈ dims, 0 ≤ d) ∧ v.reshape (Shape.clamp dims) = .ok w := by
  rw [← Shape.isDynamic_eq_false, fitTo]
  cases Shape.isDynamic dims <;> simp

/-- A cast that overruns leaves nothing to write. -/
theorem toLiteral_of_overrun {sizes : Option (List Int64)} (ht : t.storage? = some s)
    (hb : Shape.fitsBytes s.width v.shape = false) :
    v.toLiteral t sizes = .error (.overrun .bytes) := by
  have hc : v.cast t = .error (.overrun .bytes) := by rw [v.cast_eq ht, hb]; rfl
  unfold toLiteral
  rw [hc]
  rfl

theorem toLiteral_none (ht : t.storage? = some s) (hb : Shape.fitsBytes s.width v.shape = true) :
    v.toLiteral t none = .ok ((v.toStorage s).listed t) := by
  unfold toLiteral
  rw [v.cast_eq ht, if_pos hb]
  rfl

theorem toLiteral_some (ht : t.storage? = some s) (hb : Shape.fitsBytes s.width v.shape = true) :
    v.toLiteral t (some dims) = (v.toStorage s).fitTo dims >>= fun w => .ok (w.listed t) := by
  unfold toLiteral
  rw [v.cast_eq ht, if_pos hb]
  rfl

end Value
end Dataflow
