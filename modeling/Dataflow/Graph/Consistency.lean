import Dataflow.Error
import Dataflow.Graph.Query

/- The inputs of the nodes and the consumers recorded for them say the same thing twice. The
   checker finds every disagreement: an input that names no node, an input that is not recorded
   with the node it names, and a recorded consumer that does not name the node it is recorded
   with. It accepts exactly the graphs in which the two agree (`check_eq_ok_iff`). -/

namespace Dataflow.Graph

def inputFault? (g : Graph) (node producer : String) : Option Error :=
  match g.find? producer with
  | none => some (.danglingReference node producer)
  | some p => if p.hasConsumer node then none else some (.inconsistentConsumers producer node)

def consumerFault? (g : Graph) (producer consumer : String) : Option Error :=
  match g.node? consumer with
  | none => some (.inconsistentConsumers producer consumer)
  | some n =>
    if n.references producer then none else some (.inconsistentConsumers producer consumer)

/-- What is wrong with an entry: its inputs in order, then its consumers. -/
def entryFaults (g : Graph) (e : Entry) : List Error :=
  e.node.inputNodes.filterMap (g.inputFault? e.name)
    ++ e.consumers.filterMap (g.consumerFault? e.name)

def faults (g : Graph) : List Error := g.entries.flatMap g.entryFaults

/-- What is odd but not wrong: nodes that stand alone. -/
def warnings (g : Graph) : List String :=
  g.isolated.map fun e => "Node " ++ e.name ++ " is isolated"

def check (g : Graph) : Except Error Unit :=
  match g.faults with
  | [] => .ok ()
  | e :: _ => .error e

/-! ## What the checker decides -/

/-- Every input names a node that records it. -/
def InputsRecorded (g : Graph) : Prop :=
  ∀ e ∈ g.entries, ∀ producer ∈ e.node.inputNodes,
    ∃ p, g.find? producer = some p ∧ e.name ∈ p.consumers

/-- Every recorded consumer is a node with an input that names the node it is recorded with. -/
def ConsumersReferring (g : Graph) : Prop :=
  ∀ e ∈ g.entries, ∀ consumer ∈ e.consumers,
    ∃ n, g.node? consumer = some n ∧ e.name ∈ n.inputNodes

def Consistent (g : Graph) : Prop := g.InputsRecorded ∧ g.ConsumersReferring

theorem inputFault?_eq_none {g : Graph} {node producer : String} :
    g.inputFault? node producer = none
      ↔ ∃ p, g.find? producer = some p ∧ node ∈ p.consumers := by
  unfold inputFault?
  cases h : g.find? producer with
  | none => simp
  | some p => simp [Entry.hasConsumer]

theorem consumerFault?_eq_none {g : Graph} {producer consumer : String} :
    g.consumerFault? producer consumer = none
      ↔ ∃ n, g.node? consumer = some n ∧ producer ∈ n.inputNodes := by
  unfold consumerFault?
  cases h : g.node? consumer with
  | none => simp
  | some n => simp [Node.references_iff]

theorem entryFaults_eq_nil {g : Graph} {e : Entry} :
    g.entryFaults e = [] ↔
      (∀ producer ∈ e.node.inputNodes, ∃ p, g.find? producer = some p ∧ e.name ∈ p.consumers) ∧
      ∀ consumer ∈ e.consumers, ∃ n, g.node? consumer = some n ∧ e.name ∈ n.inputNodes := by
  simp only [entryFaults, List.append_eq_nil_iff, List.filterMap_eq_nil_iff, inputFault?_eq_none,
    consumerFault?_eq_none]

theorem faults_eq_nil_iff {g : Graph} : g.faults = [] ↔ g.Consistent := by
  simp only [faults, List.flatMap_eq_nil_iff, entryFaults_eq_nil, Consistent, InputsRecorded,
    ConsumersReferring]
  exact ⟨fun h => ⟨fun e he => (h e he).1, fun e he => (h e he).2⟩,
    fun h e he => ⟨h.1 e he, h.2 e he⟩⟩

/-- The checker accepts exactly the graphs in which inputs and recorded consumers agree. -/
theorem check_eq_ok_iff {g : Graph} : g.check = .ok () ↔ g.Consistent := by
  rw [← faults_eq_nil_iff]
  unfold check
  cases g.faults <;> simp

end Dataflow.Graph
