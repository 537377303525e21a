import Dataflow.Node.Constant
import Dataflow.Op.Arithmetic
import Dataflow.Proofs.Broadcast
import Dataflow.Proofs.Recording
import Mathlib.Data.Fintype.EquivFin
import Mathlib.Data.Fintype.Sets

/- What a graph computes is left to an interpretation of its operations: it says what a node has
   on each port, given the values of its data inputs. Of the constants, the identities and the
   arithmetic it is fixed what they compute; everything else is free, and may depend on
   everything a node holds except how its inputs are written. Control inputs only order the
   nodes, and carry no value.

   There are interpretations, one for any meaning of the operations that are not fixed
   (`Interpretation.extending`). An acyclic graph has values (`exists_solves`), and where every
   input names a node it has only one (`Solves.eq`). -/

namespace Dataflow

open DenseArray (IsBroadcast)

namespace Node

def dataInputs (n : Node) : List Reference := (n.inputs.map Reference.parse).filter (·.isData)

/-- What the data inputs carry, where `v` says what every node has on every port. -/
def dataValues {V : Type*} (n : Node) (v : String → UInt32 → Option V) : List (Option V) :=
  n.dataInputs.map fun r => v r.node r.port

theorem mem_inputNodes_of_dataInputs {n : Node} {r : Reference} (hr : r ∈ n.dataInputs) :
    r.node ∈ n.inputNodes := by
  obtain ⟨i, hi, rfl⟩ := List.mem_map.mp (List.mem_filter.mp hr).1
  exact List.mem_map_of_mem hi

/-- What an input carries: a control input nothing, a data input one value, present or missing. -/
def carried {V : Type*} (v : String → UInt32 → Option V) (input : String) : List (Option V) :=
  let r := Reference.parse input
  if r.isData then [v r.node r.port] else []

theorem dataValues_eq {V : Type*} (n : Node) (v : String → UInt32 → Option V) :
    n.dataValues v = n.inputs.flatMap (carried v) := by
  unfold dataValues dataInputs
  induction n.inputs with
  | nil => rfl
  | cons i inputs ih =>
    rw [List.flatMap_cons, ← ih, List.map_cons, List.filter_cons]
    by_cases hd : (Reference.parse i).isData = true
    · simp only [carried, hd, if_true, List.map_cons, List.cons_append, List.nil_append]
    · simp only [carried, hd, Bool.false_eq_true, if_false, List.nil_append]

/-- Each reference to `p` that is redirected by `t` stays what it is, data or control, and carries
the same. -/
def Carries {V : Type*} (v : String → UInt32 → Option V) (p : String) (t : Reference → String) :
    Prop :=
  ∀ r : Reference, r.node = p → (Reference.parse (t r)).isData = r.isData ∧ (r.isData = true →
    v (Reference.parse (t r)).node (Reference.parse (t r)).port = v r.node r.port)

theorem dataValues_redirectInputs {V : Type*} {n : Node} {p : String} {t : Reference → String}
    {v : String → UInt32 → Option V} (ht : Carries v p t) :
    (n.redirectInputs p t).dataValues v = n.dataValues v := by
  rw [dataValues_eq, dataValues_eq, redirectInputs, List.flatMap_map]
  refine List.flatMap_congr fun i _ => ?_
  by_cases hp : Reference.nodeOf i = p
  · obtain ⟨hd, hv⟩ := ht (Reference.parse i) hp
    rw [Graph.redirectInput_of_eq hp]
    by_cases hdata : (Reference.parse i).isData = true
    · simp only [carried, hd, hdata, if_true, hv hdata]
    · simp only [carried, hd, hdata, Bool.false_eq_true, if_false]
  · rw [Graph.redirectInput_of_ne hp]

end Node

namespace Op

theorem isConstant_of_identities : ∀ op ∈ identities, isConstant op = false := by decide

theorem isConstant_of_foldables : ∀ op ∈ foldables, isConstant op = false := by decide

theorem not_identities_of_foldables : ∀ op ∈ foldables, op ∉ identities := by decide

end Op

/-- What nodes compute: the values a node has on its ports, given those of its data inputs. A value
may be missing. -/
structure Interpretation (V : Type*) where
  /-- The value of a tensor that has been read. -/
  ofValue : Value → V
  apply : Node → List (Option V) → UInt32 → Option V
  /-- A constant has the value it holds. -/
  constant {n : Node} {x : Value} (args : List (Option V)) : n.isConstant = true →
    n.constantValue = .ok x → apply n args 0 = some (ofValue x)
  /-- An identity has what its first data input carries, on every port. -/
  identity {n : Node} (arg : Option V) (args : List (Option V)) (port : UInt32) :
    n.op ∈ Op.identities → apply n (arg :: args) port = arg
  /-- Arithmetic on two arrays is done element by element after broadcasting. -/
  arithmetic {n : Node} {f : Arithmetic} {a b c : DenseArray Binary32} :
    Arithmetic.ofOp? n.op = some f → IsBroadcast f.apply a b c →
      apply n [some (ofValue (.float a)), some (ofValue (.float b))] 0 =
        some (ofValue (.float c))
  /-- Constants and arithmetic have one port. -/
  single {n : Node} {port : UInt32} (args : List (Option V)) :
    n.isConstant = true ∨ n.op ∈ Op.foldables → port ≠ 0 → apply n args port = none

namespace Interpretation

/-! ## Interpretations there are -/

open Classical in
/-- What arithmetic gives on two arrays, if they combine to one. -/
noncomputable def combined (f : Arithmetic) : List (Option Value) → Option Value
  | [some (.float a), some (.float b)] =>
    if h : ∃ c, IsBroadcast f.apply a b c then some (.float h.choose) else none
  | _ => none

theorem combined_eq {f : Arithmetic} {a b c : DenseArray Binary32}
    (h : IsBroadcast f.apply a b c) :
    combined f [some (.float a), some (.float b)] = some (.float c) := by
  have hc : ∃ c, IsBroadcast f.apply a b c := ⟨c, h⟩
  rw [combined, dif_pos hc, hc.choose_spec.unique h]

/-- The interpretation with values as they are read, in which constants, identities and arithmetic do
what is fixed of them, and `other` says what all the rest do. -/
noncomputable def extending (other : Node → List (Option Value) → UInt32 → Option Value) :
    Interpretation Value where
  ofValue x := x
  apply n args port :=
    if n.isConstant = true then if port = 0 then n.constantValue.toOption else none
    else if n.op ∈ Op.identities then args.head?.join
    else match Arithmetic.ofOp? n.op with
      | some f => if port = 0 then (combined f args).or (other n args port) else none
      | none => other n args port
  constant {n x} args hn hx := by
    rw [if_pos hn, if_pos rfl, hx]
    rfl
  identity {n} arg args port hid := by
    have hn : ¬n.isConstant = true := by
      rw [Node.isConstant, Op.isConstant_of_identities n.op hid]
      exact Bool.false_ne_true
    rw [if_neg hn, if_pos hid]
    rfl
  arithmetic {n f a b c} hf h := by
    have hop : n.op ∈ Op.foldables := Arithmetic.ofOp?_isSome.mp (by rw [hf]; rfl)
    have hn : ¬n.isConstant = true := by
      rw [Node.isConstant, Op.isConstant_of_foldables n.op hop]
      exact Bool.false_ne_true
    rw [if_neg hn, if_neg (Op.not_identities_of_foldables n.op hop), hf]
    show (if (0 : UInt32) = 0 then (combined f _).or (other n _ 0) else none) = _
    rw [if_pos rfl, combined_eq h]
    rfl
  single {n port} args hn hport := by
    by_cases hc : n.isConstant = true
    · rw [if_pos hc, if_neg hport]
    · have hop : n.op ∈ Op.foldables := hn.resolve_left hc
      obtain ⟨f, hf⟩ := Option.isSome_iff_exists.mp (Arithmetic.ofOp?_isSome.mpr hop)
      rw [if_neg hc, if_neg (Op.not_identities_of_foldables n.op hop), hf]
      exact if_neg hport

/-! ## Values of a graph -/

variable {V : Type*} {I : Interpretation V} {g : Graph} {v w : String → UInt32 → Option V}

/-- Every node of the graph has the values that its data inputs give it. -/
def Solves (I : Interpretation V) (g : Graph) (v : String → UInt32 → Option V) : Prop :=
  ∀ x n, g.node? x = some n → ∀ port, v x port = I.apply n.bare (n.dataValues v) port

/-- A node keeps its values if references of it are redirected that carry the same. -/
theorem Solves.redirected (hv : I.Solves g v) {p : String} {t : Reference → String}
    (ht : Node.Carries v p t) {x : String} {n : Node} (hn : g.node? x = some n) (cs : List String)
    (port : UInt32) :
    v x port = I.apply (if x ∈ cs then n.redirectInputs p t else n).bare
      ((if x ∈ cs then n.redirectInputs p t else n).dataValues v) port := by
  refine (hv x n hn port).trans ?_
  by_cases hx : x ∈ cs
  · rw [if_pos hx, Node.dataValues_redirectInputs ht]
    rfl
  · rw [if_neg hx]

end Interpretation

namespace Graph

variable {g : Graph}

theorem wellFounded_reads (ha : g.Acyclic) : WellFounded fun b a => g.Reads a b := by
  -- Only the names of the graph read anything, and these are finitely many.
  have hfin : Finite {x // x ∈ g.names} := inferInstance
  have htrans : IsTrans {x // x ∈ g.names} fun b a => Relation.TransGen g.Reads a.1 b.1 :=
    ⟨fun _ _ _ hab hbc => hbc.trans hab⟩
  have hirrefl : Std.Irrefl fun b a : {x // x ∈ g.names} => Relation.TransGen g.Reads a.1 b.1 :=
    ⟨fun a h => ha a.1 h⟩
  have hwf : WellFounded fun b a : {x // x ∈ g.names} => Relation.TransGen g.Reads a.1 b.1 :=
    Finite.wellFounded_of_trans_of_irrefl _
  have hnames : ∀ a : {x // x ∈ g.names}, Acc (fun b a => g.Reads a b) a.1 := by
    intro a
    induction a using hwf.induction with
    | h a ih =>
      refine Acc.intro _ fun b hab => ?_
      by_cases hb : b ∈ g.names
      · exact ih ⟨b, hb⟩ (.single hab)
      · exact Acc.intro _ fun c hbc => absurd (has_iff.mp hbc.has) hb
  refine ⟨fun a => Acc.intro _ fun b hab => ?_⟩
  by_cases hb : b ∈ g.names
  · exact hnames ⟨b, hb⟩
  · exact Acc.intro _ fun c hbc => absurd (has_iff.mp hbc.has) hb

end Graph

namespace Interpretation

variable {V : Type*} {I : Interpretation V} {g : Graph} {v w : String → UInt32 → Option V}

def valueAt (I : Interpretation V) (g : Graph) (x : String)
    (known : ∀ b, g.Reads x b → UInt32 → Option V) (port : UInt32) : Option V :=
  match hn : g.node? x with
  | none => none
  | some n => I.apply n.bare (n.dataInputs.attach.map fun r =>
      known r.1.node ⟨n, hn, Node.mem_inputNodes_of_dataInputs r.2⟩ r.1.port) port

theorem exists_solves (I : Interpretation V) (ha : g.Acyclic) : ∃ v, I.Solves g v := by
  have hwf := Graph.wellFounded_reads ha
  refine ⟨hwf.fix (I.valueAt g), ?_⟩
  intro x n hn port
  rw [hwf.fix_eq, valueAt]
  split
  · rename_i hx
    rw [hn] at hx
    cases hx
  · rename_i m hm
    cases hn.symm.trans hm
    exact congrArg (I.apply n.bare · port)
      (List.attach_map_val (f := fun r : Reference => hwf.fix (I.valueAt g) r.node r.port))

/-- An acyclic graph whose inputs all name nodes has only one value for each of its nodes. -/
theorem Solves.eq (hv : I.Solves g v) (hw : I.Solves g w) (ha : g.Acyclic) (hc : g.Closed)
    {x : String} (hx : g.has x = true) : v x = w x := by
  induction x using (Graph.wellFounded_reads ha).induction with
  | h x ih =>
    obtain ⟨n, hn⟩ := Graph.has_iff_exists.mp hx
    funext port
    have hargs : n.dataValues v = n.dataValues w := by
      refine List.map_congr_left fun r hr => ?_
      have hxr : g.Reads x r.node := ⟨n, hn, Node.mem_inputNodes_of_dataInputs hr⟩
      exact congrFun (ih r.node hxr (hc x r.node hxr)) r.port
    calc v x port = I.apply n.bare (n.dataValues v) port := hv x n hn port
      _ = I.apply n.bare (n.dataValues w) port := by rw [hargs]
      _ = w x port := (hw x n hn port).symm

end Interpretation
end Dataflow
