import Dataflow.Pass.FoldBinaryConstants
import Dataflow.Proofs.Broadcast
import Dataflow.Proofs.Encodings
import Dataflow.Proofs.Steps

/- Which nodes fold, and where folding overruns. A node is read in steps: its inputs name two nodes,
   these hold constants, and the constants combine to a result. At every step there may be nothing to
   fold, and the steps that make an array may overrun. `folded?_eq_some` says what a node is like that
   folds, `folded?_eq_error` what one is like at which folding overruns, both in terms of the graph
   and not of the steps. Everything else is left alone.

   Reading a literal overruns exactly if the elements it declares are well counted and take more bytes
   than can be addressed (`toValue_eq_overrun`); combining two arrays does so exactly if the elements
   of the common shape do. -/

namespace Dataflow

namespace Error

variable {α β : Type} {e : Error}

theorem bind_eq_error {x : Except Error α} {f : α → Except Error β} :
    x >>= f = .error e ↔ x = .error e ∨ ∃ a, x = .ok a ∧ f a = .error e := by
  cases x <;> simp [Bind.bind, Except.bind]

theorem map_eq_error {x : Except Error α} {f : α → β} : f <$> x = .error e ↔ x = .error e := by
  cases x <;> simp [Functor.map, Except.map]

/-! A step that needs a result does nothing where there is none. -/

section

variable {x : Except Error (Option α)} {f : Option α → Except Error (Option β)} {b : β}

theorem exists_of_bind_some (h : x >>= f = .ok (some b)) (hf : f none = .ok none) :
    ∃ a, x = .ok (some a) ∧ f (some a) = .ok (some b) := by
  cases x with
  | error d => cases h
  | ok a? =>
    cases a? with
    | none => cases hf.symm.trans h
    | some a => exact ⟨a, rfl, h⟩

theorem error_of_bind_some (h : x >>= f = .error e) (hf : f none = .ok none) :
    x = .error e ∨ ∃ a, x = .ok (some a) ∧ f (some a) = .error e := by
  rcases bind_eq_error.mp h with hx | ⟨a?, hx, h⟩
  · exact .inl hx
  · cases a? with
    | none => cases hf.symm.trans h
    | some a => exact .inr ⟨a, hx, h⟩

end

end Error

/-! ## Literals that overrun -/

namespace DenseArray

variable {α : Type} {width n : Nat} {zero : α} {data : List α} {shape : List Nat} {o : Overrun}

theorem ofStored_eq_overrun (hn : Shape.count shape = .ok n) :
    ofStored width zero data shape = .error (.overrun o) ↔ o = .bytes ∧ data.length ≤ n ∧
      Shape.addressLimit < n * width := by
  have hb : Shape.fitsBytes width shape = false ↔ Shape.addressLimit < n * width := by
    rw [(Shape.count_eq_ok hn).1, Shape.fitsBytes, decide_eq_false_iff_not, Nat.not_le]
  unfold ofStored
  split
  · rename_i fault hfault
    cases hn.symm.trans hfault
  · rename_i m hm
    cases hn.symm.trans hm
    by_cases hl : data.length ≤ n
    · rw [← hb, dif_pos hl]
      cases Shape.fitsBytes width shape with
      | false => simp [hl, eq_comm]
      | true =>
        rw [if_pos rfl]
        split <;> simp
    · simp [hl]

end DenseArray

namespace Literal

variable {l : Literal} {t : ElementType} {n : Nat} {v : Value} {o : Overrun}

/-- The literal declares elements of a type that is read, and as many as its shape asks for at most; but
once they are read they take more bytes than can be addressed. -/
def Oversized (l : Literal) : Prop :=
  ∃ t s n, ElementType.ofCode l.typeCode = .ok t ∧ t.storage? = some s ∧
    Shape.declaredCount l.dims = .ok n ∧ Shape.addressLimit < n * s.width ∧
      (l.content = [] → (l.elements s).length ≤ n) ∧
        (l.content ≠ [] → ∃ width, t.width? = some width ∧ l.content.length = n * width)

theorem fillUp_eq_overrun {dims : List Int64} (hn : Shape.declaredCount dims = .ok n) :
    fillUp v (Shape.clamp dims) = .error (.overrun o) ↔
      o = .bytes ∧ v.size ≤ n ∧ Shape.addressLimit < n * v.storage.width := by
  have hcount : Shape.count (Shape.clamp dims) = .ok n := by
    rw [Shape.count, Shape.declaredCount_eq_ok.mp hn]
  obtain ⟨s, a, rfl⟩ := v.exists_wrap
  rw [Storage.fillUp_wrap, Error.map_eq_error, DenseArray.ofStored_eq_overrun hcount,
    Storage.storage_wrap, Value.size, Storage.shape_wrap, ← a.length_data]

theorem readContent_eq_ok {content : Bytes} (h : readContent t n content = .ok v) :
    ∃ width, t.storage? = some v.storage ∧ t.width? = some width ∧
      content.length = n * width ∧ v.size = n := by
  cases hw : t.width? with
  | none =>
    rw [readContent, ElementType.width, hw] at h
    cases h
  | some width =>
    have hlen : content.length = n * width := by
      refine by_contra fun hne => ?_
      rw [readContent_of_length_ne hw hne] at h
      cases h
    rw [readContent, ElementType.width, hw] at h
    change (if n * width ≠ content.length then _ else _) = _ at h
    rw [if_neg (not_not_intro hlen.symm)] at h
    cases hs : t.storage? with
    | none => cases t <;> cases hs <;> cases h
    | some s =>
      obtain ⟨u, hu, rfl, he⟩ := exists_unpack hs hw n content
      rw [hu] at h
      cases h
      exact ⟨width, rfl, rfl, hlen, by rw [← v.length_elements, he, List.length_map,
        Bytes.length_numbers]⟩

theorem readContent_ne_overrun (t : ElementType) (n : Nat) (content : Bytes) :
    readContent t n content ≠ .error (.overrun o) := by
  intro h
  cases hw : t.width? with
  | none =>
    rw [readContent, ElementType.width, hw] at h
    cases h
  | some width =>
    rw [readContent, ElementType.width, hw] at h
    change (if n * width ≠ content.length then _ else _) = _ at h
    split at h
    · cases h
    · split at h <;> cases h

theorem toValue_field_eq_overrun (ht : ElementType.ofCode l.typeCode = .ok t)
    (hn : Shape.declaredCount l.dims = .ok n) (hc : l.content = []) :
    l.toValue = .error (.overrun o) ↔ o = .bytes ∧ ∃ s, t.storage? = some s ∧
      (l.elements s).length ≤ n ∧ Shape.addressLimit < n * s.width := by
  cases hs : t.storage? with
  | none =>
    rw [toValue_of_count ht hn, hc, ElementType.storage, hs]
    refine iff_of_false ?_ (by simp)
    rintro ⟨⟩
  | some s =>
    rw [toValue_of_field ht hn hc hs, fillUp_eq_overrun hn, storage_field, ← Value.length_elements]
    simp only [Option.some.injEq, exists_eq_left']
    rfl

theorem toValue_content_eq_overrun (ht : ElementType.ofCode l.typeCode = .ok t)
    (hn : Shape.declaredCount l.dims = .ok n) (hc : l.content ≠ []) :
    l.toValue = .error (.overrun o) ↔ o = .bytes ∧ ∃ s width, t.storage? = some s ∧
      t.width? = some width ∧ l.content.length = n * width ∧ Shape.addressLimit < n * s.width := by
  rw [toValue_of_content ht hn hc]
  constructor
  · intro h
    rcases Error.bind_eq_error.mp h with h | ⟨v, hv, h⟩
    · exact absurd h (readContent_ne_overrun t n _)
    · obtain ⟨width, hs, hw, hlen, -⟩ := readContent_eq_ok hv
      obtain ⟨rfl, -, hlt⟩ := (fillUp_eq_overrun hn).mp h
      exact ⟨rfl, _, width, hs, hw, hlen, hlt⟩
  · rintro ⟨rfl, s, width, hs, hw, hlen, hlt⟩
    obtain ⟨v, hu, rfl, he⟩ := exists_unpack hs hw n l.content
    have hsize : v.size = n := by
      rw [← v.length_elements, he, List.length_map, Bytes.length_numbers]
    rw [readContent_of_unpack hw hlen hu]
    exact (fillUp_eq_overrun hn).mpr ⟨rfl, Nat.le_of_eq hsize, hlt⟩

theorem exists_type_count_of_overrun (h : l.toValue = .error (.overrun o)) :
    ∃ t n, ElementType.ofCode l.typeCode = .ok t ∧ Shape.declaredCount l.dims = .ok n := by
  cases ht : ElementType.ofCode l.typeCode with
  | error e =>
    rw [toValue, ht] at h
    cases h
    rw [ElementType.ofCode] at ht
    split at ht <;> cases ht
  | ok t =>
    cases hn : Shape.declaredCount l.dims with
    | error e =>
      rw [toValue, ht, hn] at h
      cases h
    | ok n => exact ⟨t, n, rfl, rfl⟩

/-- Reading a literal overruns exactly if it is oversized. -/
theorem toValue_eq_overrun : l.toValue = .error (.overrun o) ↔ o = .bytes ∧ l.Oversized := by
  constructor
  · intro h
    obtain ⟨t, n, ht, hn⟩ := exists_type_count_of_overrun h
    by_cases hc : l.content = []
    · obtain ⟨rfl, s, hs, hle, hlt⟩ := (toValue_field_eq_overrun ht hn hc).mp h
      exact ⟨rfl, t, s, n, ht, hs, hn, hlt, fun _ => hle, fun hne => absurd hc hne⟩
    · obtain ⟨rfl, s, width, hs, hw, hlen, hlt⟩ := (toValue_content_eq_overrun ht hn hc).mp h
      exact ⟨rfl, t, s, n, ht, hs, hn, hlt, fun hnil => absurd hnil hc, fun _ => ⟨width, hw, hlen⟩⟩
  · rintro ⟨rfl, t, s, n, ht, hs, hn, hlt, hfield, hcontent⟩
    by_cases hc : l.content = []
    · exact (toValue_field_eq_overrun ht hn hc).mpr ⟨rfl, s, hs, hfield hc, hlt⟩
    · obtain ⟨width, hw, hlen⟩ := hcontent hc
      exact (toValue_content_eq_overrun ht hn hc).mpr ⟨rfl, s, width, hs, hw, hlen, hlt⟩

end Literal

namespace Node

variable {n : Node} {a : DenseArray Binary32} {o : Overrun} {e : Error}

def Oversized (n : Node) : Prop := ∃ l, n.literal = .ok l ∧ l.Oversized

theorem constantValue_eq_overrun :
    n.constantValue = .error (.overrun o) ↔ o = .bytes ∧ n.Oversized := by
  unfold constantValue Oversized
  cases hl : n.literal with
  | error e =>
    refine iff_of_false ?_ (by simp)
    rintro ⟨⟩
    unfold literal at hl
    split at hl
    · split at hl <;> cases hl
    · cases hl
  | ok l =>
    simp only [Except.ok.injEq, exists_eq_left']
    exact Literal.toValue_eq_overrun

theorem isConstant_of_constantValue {x : Value} (h : n.constantValue = .ok x) :
    n.isConstant = true := by
  refine by_contra fun hn => ?_
  rw [constantValue, literal, if_neg hn] at h
  cases h

theorem floatConstant?_eq_some :
    n.floatConstant? = .ok (some a) ↔ n.constantValue = .ok (.float a) := by
  constructor
  · intro h
    obtain ⟨v, hv, h⟩ := Error.exists_of_bind_some h rfl
    cases v <;> cases h
    exact Error.unlessRefused_eq_some.mp hv
  · intro h
    rw [floatConstant?, Error.unlessRefused_eq_some.mpr h]
    rfl

theorem floatConstant?_eq_error :
    n.floatConstant? = .error e ↔ e = .overrun .bytes ∧ n.Oversized := by
  constructor
  · intro h
    rcases Error.error_of_bind_some h rfl with h | ⟨v, -, h⟩
    · obtain ⟨o, rfl, hread⟩ := Error.unlessRefused_eq_error.mp h
      obtain ⟨rfl, hn⟩ := constantValue_eq_overrun.mp hread
      exact ⟨rfl, hn⟩
    · cases v <;> cases h
  · rintro ⟨rfl, h⟩
    have hread := constantValue_eq_overrun.mpr ⟨rfl, h⟩
    rw [floatConstant?, Error.unlessRefused_eq_error.mpr ⟨.bytes, rfl, hread⟩]
    rfl

end Node

/-! ## Arithmetic on constants -/

namespace Pass.FoldBinaryConstants

open DenseArray (zipBroadcast?_eq_error zipBroadcast?_isBroadcast)

variable {g : Graph} {m n c : Node} {name input : String} {e : Error}

/-- The input is a data reference to port 0 of the node. -/
def Names (g : Graph) (input : String) (m : Node) : Prop :=
  (Reference.parse input).isData = true ∧ (Reference.parse input).port = 0 ∧
    g.node? (Reference.nodeOf input) = some m

structure Arranges (g : Graph) (n : Node) (o : Operands) : Prop where
  arithmetic : Arithmetic.ofOp? n.op = some o.arithmetic
  inputs : ∃ l r, n.inputs = [l, r] ∧ Names g l o.leftNode ∧ Names g r o.rightNode

/-- The node performs an operation: the nodes that its inputs name are constants, and hold the
operands. -/
structure Performs (g : Graph) (n : Node) (o : Operation) : Prop
    extends Arranges g n o.toOperands where
  left : o.leftNode.constantValue = .ok (.float o.left)
  right : o.rightNode.constantValue = .ok (.float o.right)

/-- Reading the constants overruns: the left one does, or the right one after the left one has been
read. -/
def Operands.Oversized (o : Operands) : Prop :=
  o.leftNode.Oversized ∨ (∃ a, o.leftNode.constantValue = .ok (.float a)) ∧ o.rightNode.Oversized

/-- The common shape of the operands can be laid out, but its elements take more bytes than can be
addressed. -/
def Operation.Oversized (o : Operation) : Prop :=
  ∃ shape, Shape.broadcast? o.left.shape o.right.shape = some shape ∧
    Shape.fitsLayout shape = true ∧ Shape.addressLimit < Shape.volume shape * Storage.float.width

/-- To fold the node takes an array that cannot be allocated: one of its operands, or the result. -/
inductive Overruns (g : Graph) (n : Node) : Prop where
  | operand {o : Operands} : Arranges g n o → o.Oversized → Overruns g n
  | result {o : Operation} : Performs g n o → o.Oversized → Overruns g n

theorem operand?_eq_some : operand? g input = some m ↔ Names g input m := by
  simp only [operand?, Option.ite_none_right_eq_some, and_assoc]
  rfl

theorem operands?_eq_some {o : Operands} : operands? g n = some o ↔ Arranges g n o := by
  unfold operands?
  constructor
  · intro h
    obtain ⟨arithmetic, ha, h⟩ := Option.bind_eq_some_iff.mp h
    split at h
    · rename_i left right hi
      obtain ⟨leftNode, hl, h⟩ := Option.bind_eq_some_iff.mp h
      obtain ⟨rightNode, hr, h⟩ := Option.bind_eq_some_iff.mp h
      cases h
      exact ⟨ha, left, right, hi, operand?_eq_some.mp hl, operand?_eq_some.mp hr⟩
    · cases h
  · intro h
    obtain ⟨left, right, hi, hl, hr⟩ := h.inputs
    simp [h.arithmetic, hi, operand?_eq_some.mpr hl, operand?_eq_some.mpr hr]

theorem read_eq_some {o : Operands} {p : Operation} : o.read = .ok (some p) ↔ p.toOperands = o ∧
    p.leftNode.constantValue = .ok (.float p.left) ∧
      p.rightNode.constantValue = .ok (.float p.right) := by
  constructor
  · intro h
    obtain ⟨left, hl, h⟩ := Error.exists_of_bind_some h rfl
    obtain ⟨right, hr, h⟩ := Error.exists_of_bind_some h rfl
    cases h
    exact ⟨rfl, Node.floatConstant?_eq_some.mp hl, Node.floatConstant?_eq_some.mp hr⟩
  · rintro ⟨rfl, hl, hr⟩
    rw [Operands.read, Node.floatConstant?_eq_some.mpr hl, Node.floatConstant?_eq_some.mpr hr]
    rfl

theorem read_eq_error {o : Operands} : o.read = .error e ↔ e = .overrun .bytes ∧ o.Oversized := by
  constructor
  · intro h
    rcases Error.error_of_bind_some h rfl with h | ⟨left, hl, h⟩
    · obtain ⟨rfl, hl⟩ := Node.floatConstant?_eq_error.mp h
      exact ⟨rfl, .inl hl⟩
    · rcases Error.error_of_bind_some h rfl with h | ⟨right, -, h⟩
      · obtain ⟨rfl, hr⟩ := Node.floatConstant?_eq_error.mp h
        exact ⟨rfl, .inr ⟨⟨left, Node.floatConstant?_eq_some.mp hl⟩, hr⟩⟩
      · cases h
  · rintro ⟨rfl, hl | ⟨⟨left, hl⟩, hr⟩⟩
    · rw [Operands.read, Node.floatConstant?_eq_error.mpr ⟨rfl, hl⟩]
      rfl
    · rw [Operands.read, Node.floatConstant?_eq_some.mpr hl,
        Node.floatConstant?_eq_error.mpr ⟨rfl, hr⟩]
      rfl

theorem operation?_eq_some {o : Operation} : operation? g n = .ok (some o) ↔ Performs g n o := by
  unfold operation?
  constructor
  · intro h
    cases ho : operands? g n with
    | none =>
      rw [ho] at h
      cases h
    | some p =>
      rw [ho] at h
      obtain ⟨rfl, hl, hr⟩ := read_eq_some.mp h
      exact ⟨operands?_eq_some.mp ho, hl, hr⟩
  · intro h
    rw [operands?_eq_some.mpr h.toArranges]
    exact read_eq_some.mpr ⟨rfl, h.left, h.right⟩

theorem operation?_eq_error : operation? g n = .error e ↔
    e = .overrun .bytes ∧ ∃ o, Arranges g n o ∧ o.Oversized := by
  simp only [operation?, ← operands?_eq_some]
  cases operands? g n with
  | none => simp
  | some o => simp [read_eq_error]

theorem result?_eq_error {o : Operation} :
    o.result? = .error e ↔ e = .overrun .bytes ∧ o.Oversized := by
  rw [Operation.result?, zipBroadcast?_eq_error]
  simp only [Operation.Oversized, Shape.fitsBytes, decide_eq_false_iff_not, Nat.not_le]

theorem folded?_eq_some : folded? g n = .ok (some c) ↔ ∃ o a, Performs g n o ∧
    o.result? = .ok (some a) ∧ Node.constant n.name (.float a) .float none o.placement = .ok c := by
  constructor
  · intro h
    obtain ⟨o, ho, h⟩ := Error.exists_of_bind_some h rfl
    obtain ⟨a, ha, h⟩ := Error.exists_of_bind_some h rfl
    exact ⟨o, a, operation?_eq_some.mp ho, ha, Error.unlessRefused_eq_some.mp h⟩
  · intro h
    obtain ⟨o, a, ho, ha, hc⟩ := h
    rw [folded?, operation?_eq_some.mpr ho]
    show (o.result? >>= _) = _
    rw [ha]
    exact Error.unlessRefused_eq_some.mpr hc

theorem exists_constant {o : Operation} {a : DenseArray Binary32} (ha : o.result? = .ok (some a)) :
    ∃ c, Node.constant name (.float a) .float none o.placement = .ok c := by
  obtain ⟨-, -, hb⟩ := zipBroadcast?_isBroadcast ha
  exact ⟨_, Node.constant_eq_ok.mpr ⟨_, Value.toLiteral_none rfl hb, rfl⟩⟩

/-- Folding overruns exactly at the nodes that overrun. -/
theorem folded?_eq_error : folded? g n = .error e ↔ e = .overrun .bytes ∧ Overruns g n := by
  constructor
  · intro h
    rcases Error.error_of_bind_some h rfl with h | ⟨o, ho, h⟩
    · obtain ⟨rfl, o, ho, hover⟩ := operation?_eq_error.mp h
      exact ⟨rfl, .operand ho hover⟩
    · rcases Error.error_of_bind_some h rfl with h | ⟨a, ha, h⟩
      · obtain ⟨rfl, hover⟩ := result?_eq_error.mp h
        exact ⟨rfl, .result (operation?_eq_some.mp ho) hover⟩
      · -- The elements of the result have just been allocated.
        obtain ⟨c, hc⟩ := @exists_constant n.name o a ha
        dsimp only at h
        rw [hc] at h
        cases h
  · rintro ⟨rfl, ⟨ho, hover⟩ | ⟨ho, hover⟩⟩
    · rw [folded?, operation?_eq_error.mpr ⟨rfl, _, ho, hover⟩]
      rfl
    · rw [folded?, operation?_eq_some.mpr ho]
      show (Operation.result? _ >>= _) = _
      rw [result?_eq_error.mpr ⟨rfl, hover⟩]
      rfl

/-! ## What folding brings in -/

theorem Arranges.foldable {o : Operands} (h : Arranges g n o) : n.op ∈ Op.foldables :=
  Arithmetic.ofOp?_isSome.mp (by rw [h.arithmetic]; rfl)

theorem Overruns.foldable (h : Overruns g n) : n.op ∈ Op.foldables := by
  rcases h with ⟨ho, -⟩ | ⟨ho, -⟩
  · exact ho.foldable
  · exact ho.toArranges.foldable

theorem Performs.isConstant {o : Operation} (h : Performs g n o) :
    ∀ p ∈ n.inputNodes, ∃ m, g.node? p = some m ∧ m.isConstant = true := by
  obtain ⟨left, right, hi, hl, hr⟩ := h.inputs
  intro p hp
  rw [Node.inputNodes, hi, List.map_cons, List.map_cons, List.map_nil, List.mem_cons,
    List.mem_singleton] at hp
  rcases hp with rfl | rfl
  · exact ⟨_, hl.2.2, Node.isConstant_of_constantValue h.left⟩
  · exact ⟨_, hr.2.2, Node.isConstant_of_constantValue h.right⟩

theorem isConstant_of_folded (hf : folded? g n = .ok (some c)) : c.bare.isConstant = true := by
  obtain ⟨o, a, -, -, hc⟩ := folded?_eq_some.mp hf
  show Op.isConstant c.op = true
  rw [(Node.op_constant hc).2.1]
  exact Node.isConstant_placement _

theorem name_of_folded (hn : g.node? name = some n) (hf : folded? g n = .ok (some c)) :
    c.name = name := by
  obtain ⟨o, a, -, -, hc⟩ := folded?_eq_some.mp hf
  exact (Node.op_constant hc).1.trans (Graph.name_of_node? hn)

end Pass.FoldBinaryConstants
end Dataflow
