import Dataflow.Error

/- A shape is the list of the sizes of a tensor, outermost first. Its elements are counted and it
   is broadcast with other shapes, within the limits that addressing sets: a count has to fit a
   word, and an array has to be laid out. -/

namespace Dataflow.Shape

/-- The number of values of a machine word. -/
def wordLimit : Nat := 18446744073709551616

/-- The largest number of elements that can be addressed, and of bytes. -/
def addressLimit : Nat := 9223372036854775807

/-! ## Counting -/

def volume : List Nat → Nat
  | [] => 1
  | d :: ds => d * volume ds

/-- The product of sizes after `acc`, multiplied from the left as long as it fits a word. -/
def checkedProduct (acc : Nat) : List Nat → Option Nat
  | [] => some acc
  -- A zero further right does not undo an overflow here.
  | d :: ds => if acc * d < wordLimit then checkedProduct (acc * d) ds else none

def count? (shape : List Nat) : Option Nat :=
  (checkedProduct 1 shape).filter (· ≤ addressLimit)

def count (shape : List Nat) : Except ShapeFault Nat :=
  match count? shape with
  | some n => .ok n
  | none => .error (.countOverflow (shape.map Int.ofNat))

/-- The sizes of declared dimensions, with unknown ones counted as zero. -/
def clamp (dims : List Int64) : List Nat := dims.map fun d => d.toInt.toNat

def declaredCount (dims : List Int64) : Except ShapeFault Nat :=
  match count? (clamp dims) with
  | some n => .ok n
  | none => .error (.countOverflow (dims.map Int64.toInt))

def isDynamic (dims : List Int64) : Bool := dims.any fun d => d < 0

/-- Whether an array of a shape can be laid out: the sizes other than zero multiply to an
addressable number. -/
def fitsLayout (shape : List Nat) : Bool := volume (shape.filter (· ≠ 0)) ≤ addressLimit

/-- Whether the elements of an array can be allocated where each takes `width` bytes. -/
def fitsBytes (width : Nat) (shape : List Nat) : Bool := volume shape * width ≤ addressLimit

/-! ## Broadcasting -/

def broadcastAxis (a b : Nat) : Option Nat :=
  if a = b then some a else if a = 1 then some b else if b = 1 then some a else none

/-- The common shape of two shapes given innermost first; missing axes have size one. -/
def broadcastInner : List Nat → List Nat → Option (List Nat)
  | [], bs => some bs
  | as, [] => some as
  | a :: as, b :: bs =>
    match broadcastAxis a b, broadcastInner as bs with
    | some c, some cs => some (c :: cs)
    | _, _ => none

/-- The common shape of two shapes aligned at the innermost axis, if there is one. -/
def broadcast? (a b : List Nat) : Option (List Nat) :=
  (broadcastInner a.reverse b.reverse).map List.reverse

/-- `a` broadcasts to `r`: it has no more axes, and aligned at the innermost axis each of its sizes
is that of `r` or one. Both are given innermost first. -/
def BroadcastsInner : List Nat → List Nat → Prop
  | [], _ => True
  | _ :: _, [] => False
  | a :: as, r :: rs => (a = r ∨ a = 1) ∧ BroadcastsInner as rs

def BroadcastsTo (a r : List Nat) : Prop := BroadcastsInner a.reverse r.reverse

/-! ## What counting and broadcasting do -/

theorem volume_cons (d : Nat) (ds : List Nat) : volume (d :: ds) = d * volume ds := rfl

theorem checkedProduct_eq_some {acc n : Nat} {shape : List Nat}
    (h : checkedProduct acc shape = some n) : n = acc * volume shape := by
  induction shape generalizing acc with
  | nil =>
    simp only [checkedProduct, Option.some.injEq] at h
    rw [← h, volume, Nat.mul_one]
  | cons d ds ih =>
    simp only [checkedProduct] at h
    split at h
    · rw [ih h, volume_cons, Nat.mul_assoc]
    · simp at h

theorem count?_eq_some {shape : List Nat} {n : Nat} (h : count? shape = some n) :
    n = volume shape ∧ n ≤ addressLimit := by
  simp only [count?, Option.filter_eq_some_iff, decide_eq_true_eq] at h
  exact ⟨by simpa using checkedProduct_eq_some h.1, h.2⟩

theorem count_eq_ok {shape : List Nat} {n : Nat} (h : count shape = .ok n) :
    n = volume shape ∧ n ≤ addressLimit := by
  unfold count at h
  split at h
  · rename_i m hm
    cases h
    exact count?_eq_some hm
  · simp at h

theorem broadcastInner_nil_right (a : List Nat) : broadcastInner a [] = some a := by
  cases a <;> rfl

theorem broadcast?_nil_left (b : List Nat) : broadcast? [] b = some b := by
  simp [broadcast?, broadcastInner]

theorem broadcast?_nil_right (a : List Nat) : broadcast? a [] = some a := by
  simp [broadcast?, broadcastInner_nil_right]

end Dataflow.Shape
