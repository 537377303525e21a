import Dataflow.Shape

/- An array is a shape and its elements in row-major order; that the data is as long as the
   product of the sizes is kept by the type. Arrays are reshaped, filled up, repeated and
   combined element by element along broadcast axes.

   Making an array takes room: an element has a width, and all of them together must not take
   more bytes than can be addressed. Where they do, nothing is returned that could be tolerated
   or reported; this is the outcome `overrun`, which is kept apart from every refusal. -/

namespace Dataflow

/-- Elements in row-major order, as many as the shape has. -/
structure DenseArray (α : Type) where
  shape : List Nat
  data : List α
  length_data : data.length = Shape.volume shape
  deriving DecidableEq

namespace DenseArray

variable {α β γ : Type}

/-- The array without axes. -/
def scalar (x : α) : DenseArray α := ⟨[], [x], rfl⟩

def vector (xs : List α) : DenseArray α := ⟨[xs.length], xs, (Nat.mul_one _).symm⟩

def ofData? (shape : List Nat) (data : List α) : Option (DenseArray α) :=
  if h : data.length = Shape.volume shape then some ⟨shape, data, h⟩ else none

/-- The array of a shape with one element everywhere, which takes `width` bytes. -/
def fill (width : Nat) (shape : List Nat) (x : α) : Except Error (DenseArray α) :=
  if Shape.fitsLayout shape then
    if Shape.fitsBytes width shape then
      .ok ⟨shape, List.replicate (Shape.volume shape) x, List.length_replicate⟩
    else .error (.overrun .bytes)
  else .error (.overrun .layout)

def size (a : DenseArray α) : Nat := Shape.volume a.shape

def map (f : α → β) (a : DenseArray α) : DenseArray β :=
  ⟨a.shape, a.data.map f, by rw [List.length_map]; exact a.length_data⟩

def agrees (same : α → α → Bool) (a b : DenseArray α) : Bool :=
  a.shape == b.shape && (a.data.zip b.data).all fun p => same p.1 p.2

/-! ## Taking on a shape -/

/-- The array brought to a shape: the same elements if they are as many, or its only element
everywhere. -/
def fit (width : Nat) (a : DenseArray α) (shape : List Nat) : Except Error (DenseArray α) :=
  match hn : Shape.count shape with
  | .error e => .error (.shapeMismatch e)
  | .ok n =>
    if h : a.data.length = n then
      if Shape.fitsLayout shape then
        .ok ⟨shape, a.data, h.trans (Shape.count_eq_ok hn).1⟩
      else .error (.shapeMismatch .layoutOverflow)
    else
      -- A single element fills every other shape, empty ones too.
      match a.data with
      | [x] => fill width shape x
      | _ => .error (.shapeMismatch (.wrongCount a.data.length shape))

/-- The last element of stored data, or `zero` where there is none. -/
def filler (zero : α) (data : List α) : α := (data.getLast?).getD zero

theorem length_append_replicate {data : List α} {n : Nat} (x : α) (h : data.length ≤ n) :
    (data ++ List.replicate (n - data.length) x).length = n := by
  rw [List.length_append, List.length_replicate]; omega

/-- Stored data brought to a shape: what is missing at the end repeats the last element stored, or
is `zero` where nothing is stored. -/
def ofStored (width : Nat) (zero : α) (data : List α) (shape : List Nat) :
    Except Error (DenseArray α) :=
  match hn : Shape.count shape with
  | .error e => .error (.shapeMismatch e)
  | .ok n =>
    if h : data.length ≤ n then
      -- The data grows to its full length before it is laid out.
      if Shape.fitsBytes width shape then
        if Shape.fitsLayout shape then
          .ok ⟨shape, data ++ List.replicate (n - data.length) (filler zero data),
            (length_append_replicate _ h).trans (Shape.count_eq_ok hn).1⟩
        else .error (.shapeMismatch .layoutOverflow)
      else .error (.overrun .bytes)
    else .error (.shapeMismatch (.tooMany data.length shape n))

/-! ## Broadcasting -/

/-- Row-major data of shape `source` repeated along the axes where `target` differs. The shapes
have as many axes, and where they differ the source has size one. -/
def stretch : (source target : List Nat) → List α → List α
  | s :: ss, t :: ts, data =>
    -- A row is what one position of the outermost axis holds.
    let width := Shape.volume ss
    let rows := (List.range s).map fun i => stretch ss ts ((data.drop (i * width)).take width)
    if s = t then rows.flatten else (List.replicate t rows.flatten).flatten
  | _, _, data => data

/-- The data of an array broadcast to a shape; missing axes are added outermost with size one. -/
def stretched (a : DenseArray α) (target : List Nat) : List α :=
  stretch (List.replicate (target.length - a.shape.length) 1 ++ a.shape) target a.data

/-- Two arrays combined element by element after broadcasting, to elements of `width` bytes. There
is no result if their shapes do not broadcast, or broadcast to more than can be laid out. -/
def zipBroadcast? (width : Nat) (f : α → β → γ) (a : DenseArray α) (b : DenseArray β) :
    Except Error (Option (DenseArray γ)) :=
  match Shape.broadcast? a.shape b.shape with
  | some shape =>
    if Shape.fitsLayout shape then
      if Shape.fitsBytes width shape then
        .ok (ofData? shape (List.zipWith f (a.stretched shape) (b.stretched shape)))
      else .error (.overrun .bytes)
    else .ok none
  | none => .ok none

/-- The position of an element in row-major data. -/
def offset : (shape index : List Nat) → Nat
  | _ :: ds, i :: is => i * Shape.volume ds + offset ds is
  | _, _ => 0

/-- An index is inside a shape: it has as many axes, and each position is below the size. -/
def InBounds : (shape index : List Nat) → Prop
  | [], [] => True
  | d :: ds, i :: is => i < d ∧ InBounds ds is
  | _, _ => False

def get? (a : DenseArray α) (index : List Nat) : Option α := a.data[offset a.shape index]?

/-- An index of a broadcast shape as an operand of shape `source` sees it: outer axes it lacks are
dropped, and the position is zero along axes of size one. -/
def project (source index : List Nat) : List Nat :=
  List.zipWith (fun d i => if d = 1 then 0 else i) source
    (index.drop (index.length - source.length))

theorem eq_of_data {a b : DenseArray α} (hs : a.shape = b.shape) (hd : a.data = b.data) : a = b := by
  cases a
  cases b
  cases hs
  cases hd
  rfl

end DenseArray
end Dataflow
