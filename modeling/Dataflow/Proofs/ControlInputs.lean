import Dataflow.Proofs.Rebuilding
import Dataflow.Proofs.Signs

/- A control input makes a node wait and carries no value, so the sign of an output should not
   depend on it. The rule of merges passes over control inputs. The rule of operations that keep
   the sign of their first input does not: where such a node reads a control input first, the
   analysis goes by the node that is waited for. This is the only place where control inputs come
   in, so that deleting them changes an answer exactly if it changes the answer about a node of
   this kind (`agrees_iff`).

   `AgreesBelow.proven_iff` follows a derivation of any depth, `provesNonNegative_withoutControl`
   tells whose answers stay, for one name and for all, and `waitingPool_proven` is an answer that
   does not. -/

namespace Dataflow

open Relation (ReflTransGen)

/-! ## Deleting control inputs -/

namespace Node

variable {n : Node} {waited : String}

def withoutControl (n : Node) : Node :=
  { n with inputs := n.inputs.filter fun input => (Reference.parse input).isData }

/-- The node that is waited for by the first input, where the sign of the output goes by that input. -/
def leadingControl? (n : Node) : Option String :=
  if Op.signRule n.op = .firstInput then
    ((n.inputs.head?.map Reference.parse).filter Reference.control).map Reference.node
  else none

/-- Data inputs stand before control inputs. -/
def DataFirst (n : Node) : Prop :=
  n.inputs.Pairwise fun a b => (Reference.parse b).isData = true → (Reference.parse a).isData = true

instance (n : Node) : Decidable n.DataFirst := inferInstanceAs (Decidable (List.Pairwise _ _))

theorem inputNodes_withoutControl (n : Node) : n.withoutControl.inputNodes = n.dataInputNodes := by
  rw [inputNodes, withoutControl, dataInputNodes, List.filter_map, List.map_map]
  rfl

theorem dataInputNodes_withoutControl (n : Node) :
    n.withoutControl.dataInputNodes = n.dataInputNodes := by
  rw [dataInputNodes, withoutControl, dataInputNodes, List.filter_map, List.filter_map,
    List.filter_filter]
  simp only [Function.comp_def, Bool.and_self]

theorem leadingControl?_eq_some : n.leadingControl? = some waited ↔
    Op.signRule n.op = .firstInput ∧ ∃ input rest, n.inputs = input :: rest ∧
      (Reference.parse input).isData = false ∧ Reference.nodeOf input = waited := by
  unfold leadingControl?
  cases n.inputs with
  | nil => simp
  | cons input rest => simp [Option.filter, Reference.isData, Reference.nodeOf]

theorem head?_withoutControl (hr : Op.signRule n.op = .firstInput) (hn : n.leadingControl? = none) :
    n.withoutControl.inputs.head? = n.inputs.head? := by
  cases hi : n.inputs with
  | nil => simp only [withoutControl, hi, List.filter_nil]
  | cons input rest =>
    have hdata : (Reference.parse input).isData = true := by
      refine Classical.byContradiction fun hc => ?_
      have hw := leadingControl?_eq_some.mpr ⟨hr, input, rest, hi, Bool.eq_false_iff.mpr hc, rfl⟩
      rw [hn] at hw
      cases hw
    simp only [withoutControl, hi, List.filter_cons, hdata, if_true, List.head?_cons]

theorem DataFirst.dataInputNodes_eq_nil (hd : n.DataFirst) (hw : n.leadingControl? = some waited) :
    n.dataInputNodes = [] := by
  obtain ⟨-, input, rest, hi, hc, -⟩ := leadingControl?_eq_some.mp hw
  rw [DataFirst, hi, List.pairwise_cons] at hd
  have hnone : ∀ b ∈ n.inputs, ¬(Reference.parse b).isData = true := by
    intro b hb hdata
    rcases List.mem_cons.mp (hi ▸ hb) with rfl | hb
    · exact absurd hdata (Bool.eq_false_iff.mp hc)
    · exact absurd (hd.1 b hb hdata) (Bool.eq_false_iff.mp hc)
  rw [← inputNodes_withoutControl, inputNodes, withoutControl, List.filter_eq_nil_iff.mpr hnone,
    List.map_nil]

end Node

namespace Graph

variable {g h : Graph} {x y waited : String} {n : Node}

/-! ## One sign rule -/

/-- The answer about a node rests on the answer about another. -/
def Asks (g : Graph) (x y : String) : Prop :=
  ∃ n names, g.node? x = some n ∧ (Question.rule n).asks? = some names ∧ y ∈ names

/-- A control input that stands first says of the sign what the first data input says. -/
def Agrees (g h : Graph) (n : Node) : Prop :=
  ∀ waited ∈ n.leadingControl?, (g.provesNonNegative waited = true ↔
    ∃ producer ∈ n.dataInputNodes.head?, h.provesNonNegative producer = true)

/-- Control inputs agree at every node that the answer about this one rests on. -/
def AgreesBelow (g h : Graph) (x : String) : Prop :=
  ∀ y n, ReflTransGen g.Asks x y → g.node? y = some n → g.Agrees h n

theorem AgreesBelow.of_asks (ha : g.AgreesBelow h x) (hxy : g.Asks x y) : g.AgreesBelow h y :=
  fun z n hyz hn => ha z n (.head hxy hyz) hn

theorem asks?_withoutControl (hn : n.leadingControl? = none) :
    (Question.rule n.withoutControl).asks? = (Question.rule n).asks? := by
  have hop : n.withoutControl.op = n.op := rfl
  cases hr : Op.signRule n.op with
  | nonNegative | unknown => simp only [Question.asks?, hop, hr]
  | allInputs => simp only [Question.asks?, hop, hr, n.dataInputNodes_withoutControl]
  | firstInput => simp only [Question.asks?, hop, hr, Node.head?_withoutControl hr hn]

theorem holds_leading (hw : n.leadingControl? = some waited) :
    g.Holds (.rule n) ↔ g.Proven waited := by
  obtain ⟨hr, input, rest, hi, -, rfl⟩ := Node.leadingControl?_eq_some.mp hw
  simp [Holds, Question.asks?, hr, hi]

theorem holds_withoutControl (hr : Op.signRule n.op = .firstInput) :
    h.Holds (.rule n.withoutControl) ↔ ∃ producer ∈ n.dataInputNodes.head?, h.Proven producer := by
  have hop : Op.signRule n.withoutControl.op = .firstInput := hr
  have hhead : n.dataInputNodes.head? = n.withoutControl.inputs.head?.map Reference.nodeOf := by
    rw [← Node.inputNodes_withoutControl, Node.inputNodes, List.head?_map]
  rw [hhead]
  cases hi : n.withoutControl.inputs.head? <;> simp [Holds, Question.asks?, hop, hi]

section Deleted

variable (hh : h.nodes = g.nodes.map Node.withoutControl)

include hh

theorem node?_withoutControl (x : String) : h.node? x = (g.node? x).map Node.withoutControl := by
  rw [node?_eq_find?, node?_eq_find?, hh, List.find?_map]
  rfl

theorem agrees_iff (hn : g.node? x = some n) (hw : n.leadingControl? = some waited) :
    g.Agrees h n ↔ (h.Proven x ↔ g.Proven x) := by
  obtain ⟨hr, -⟩ := Node.leadingControl?_eq_some.mp hw
  have hnh : h.node? x = some n.withoutControl := by
    rw [node?_withoutControl hh, hn, Option.map_some]
  rw [proven_iff_holds hn, proven_iff_holds hnh, holds_leading hw, holds_withoutControl hr]
  simp only [Agrees, hw, Option.mem_some_iff, forall_eq', provesNonNegative_iff]
  exact Iff.comm

/-! ## Derivations -/

/-- The answer about a node stays if control inputs agree at all nodes that it rests on. -/
theorem AgreesBelow.proven_iff (hx : g.AgreesBelow h x) : h.Proven x ↔ g.Proven x := by
  constructor
  · intro hp
    refine hp.asks_induction (P := fun x => g.AgreesBelow h x → g.Proven x) ?_ hx
    intro x m names hm hasks hall hx
    have hpx : h.Proven x := proven_of_holds hm ⟨names, hasks, fun y hy => (hall y hy).1⟩
    rw [node?_withoutControl hh] at hm
    obtain ⟨n, hn, rfl⟩ := Option.map_eq_some_iff.mp hm
    cases hw : n.leadingControl? with
    | some waited => exact ((agrees_iff hh hn hw).mp (hx x n .refl hn)).mp hpx
    | none =>
      rw [asks?_withoutControl hw] at hasks
      refine proven_of_holds hn ⟨names, hasks, fun y hy => (hall y hy).2 ?_⟩
      exact hx.of_asks ⟨n, names, hn, hasks, hy⟩
  · intro hp
    refine hp.asks_induction (P := fun x => g.AgreesBelow h x → h.Proven x) ?_ hx
    intro x n names hn hasks hall hx
    have hpx : g.Proven x := proven_of_holds hn ⟨names, hasks, fun y hy => (hall y hy).1⟩
    cases hw : n.leadingControl? with
    | some waited => exact ((agrees_iff hh hn hw).mp (hx x n .refl hn)).mpr hpx
    | none =>
      have hnh : h.node? x = some n.withoutControl := by
        rw [node?_withoutControl hh, hn, Option.map_some]
      refine proven_of_holds hnh ⟨names, (asks?_withoutControl hw).trans hasks, fun y hy => ?_⟩
      exact (hall y hy).2 (hx.of_asks ⟨n, names, hn, hasks, hy⟩)

end Deleted

/-! ## Whose answers stay -/

/-- What becomes of the answers where control inputs are deleted from all nodes. The answer about a name
stays if at every node that it rests on a control input that stands first says what the first data
input says. All answers stay exactly if this is so at every node; where data inputs stand before control
inputs, exactly if no node that keeps the sign of its first input waits first for one that is proven. -/
theorem provesNonNegative_withoutControl (hh : h.nodes = g.nodes.map Node.withoutControl) :
    (∀ x, g.AgreesBelow h x → h.provesNonNegative x = g.provesNonNegative x) ∧
    ((∀ x, h.provesNonNegative x = g.provesNonNegative x) ↔ ∀ n ∈ g.nodes, g.Agrees h n) ∧
    ((∀ n ∈ g.nodes, n.DataFirst) → ((∀ x, h.provesNonNegative x = g.provesNonNegative x) ↔
      ∀ n ∈ g.nodes, ∀ waited ∈ n.leadingControl?, g.provesNonNegative waited = false)) := by
  have heq : ∀ x, h.provesNonNegative x = g.provesNonNegative x ↔ (h.Proven x ↔ g.Proven x) := by
    intro x
    rw [Bool.eq_iff_iff, provesNonNegative_iff, provesNonNegative_iff]
  have hone : ∀ x, g.AgreesBelow h x → h.provesNonNegative x = g.provesNonNegative x :=
    fun x hx => (heq x).mpr (hx.proven_iff hh)
  have hall : (∀ x, h.provesNonNegative x = g.provesNonNegative x) ↔
      ∀ n ∈ g.nodes, g.Agrees h n := by
    constructor
    · intro hsame n hn
      cases hw : n.leadingControl? with
      | none =>
        intro waited hwaited
        rw [hw] at hwaited
        cases hwaited
      | some waited =>
        exact (agrees_iff hh (node?_of_mem_nodes hn) hw).mpr ((heq n.name).mp (hsame n.name))
    · intro hagree x
      exact hone x fun y n _ hn => hagree n (node?_eq_some.mp hn).1
  refine ⟨hone, hall, fun hfirst => hall.trans ?_⟩
  refine forall₂_congr fun n hn => forall₂_congr fun waited hw => ?_
  rw [(hfirst n hn).dataInputNodes_eq_nil hw]
  simp

/-- A pooling and a sum that wait for what is not proven, and a mean that reads nothing but waits for
it. -/
def waitingPools : List Node :=
  [.make "Relu" "relu" ["x"], .make "Placeholder" "x" [], .make "MaxPool" "pool" ["relu", "^x"],
    .make "AddN" "sum" ["pool", "^x"], .make "Mean" "mean" ["^x"]]

/-- Here the answers stay. The pooling is proven with and without the input that it waits for. -/
theorem provesNonNegative_waitingPools :
    (build (waitingPools.map Node.withoutControl)).nodes =
        (build waitingPools).nodes.map Node.withoutControl ∧
      (build waitingPools).provesNonNegative "pool" = true ∧
      ∀ x, (build (waitingPools.map Node.withoutControl)).provesNonNegative x =
        (build waitingPools).provesNonNegative x := by
  have hnodes : (build (waitingPools.map Node.withoutControl)).nodes =
      (build waitingPools).nodes.map Node.withoutControl := by decide
  obtain ⟨-, -, hiff⟩ := provesNonNegative_withoutControl hnodes
  exact ⟨hnodes, by decide, (hiff (by decide)).mpr (by decide)⟩

/-- A pooling that reads nothing is proven by the rectifier that it waits for. -/
theorem waitingPool_proven :
    ¬∀ (g h : Graph), h.nodes = g.nodes.map Node.withoutControl →
      ∀ x, h.provesNonNegative x = g.provesNonNegative x := by
  intro hall
  have hsame := hall (build [.make "Relu" "relu" [], .make "MaxPool" "pool" ["^relu"]])
    (build [.make "Relu" "relu" [], .make "MaxPool" "pool" []]) (by decide) "pool"
  revert hsame
  decide

end Graph
end Dataflow
