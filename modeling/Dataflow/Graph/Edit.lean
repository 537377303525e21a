import Dataflow.Error
import Dataflow.Graph.Query

/- An edit reads and changes a graph, and may be refused. What it changed before a refusal stays,
   so an edit that wants to leave the graph alone when it is refused checks everything first
   (`Edit.guarded`). The changes that several edits share are here too: taking a node out, and
   making room for a new node under a name that is taken. -/

namespace Dataflow

/-- A change of a graph that may be refused. The graph is there after a refusal too. -/
abbrev Edit := ExceptT Error (StateM Graph)

namespace Edit

/-- An edit that checks the graph as it is, and then changes it by what the check found. -/
def guarded {α : Type} (check : Graph → Except Error α) (change : α → Graph → Graph) : Edit α :=
  fun g =>
    match check g with
    | .error e => (.error e, g)
    | .ok a => (.ok a, change a g)

/-- An edit that checks first leaves the graph as it was when it is refused. -/
theorem guarded_error {α : Type} {check : Graph → Except Error α} {change : α → Graph → Graph}
    {g h : Graph} {e : Error} (hr : guarded check change g = (.error e, h)) : h = g := by
  unfold guarded at hr
  cases hc : check g with
  | error e' => rw [hc] at hr; exact (Prod.mk.inj hr).2.symm
  | ok a => rw [hc] at hr; cases (Prod.mk.inj hr).1

def refuse : Option Error → Except Error Unit
  | some e => .error e
  | none => .ok ()

def refuseFirst {α : Type} (items : List α) (fault? : α → Option Error) : Except Error Unit :=
  refuse (items.findSome? fault?)

theorem refuseFirst_eq_ok {α : Type} {items : List α} {fault? : α → Option Error} :
    refuseFirst items fault? = .ok () ↔ ∀ a ∈ items, fault? a = none := by
  unfold refuseFirst
  cases h : items.findSome? fault? with
  | none => simpa [refuse] using List.findSome?_eq_none_iff.mp h
  | some e =>
    simp only [refuse, reduceCtorEq, false_iff]
    intro hall
    rw [List.findSome?_eq_none_iff.mpr hall] at h
    simp at h

end Edit

namespace Graph

def entry (g : Graph) (name : String) : Except Error Entry :=
  match g.find? name with
  | some e => .ok e
  | none => .error (.unknownNode name)

def node (g : Graph) (name : String) : Except Error Node := Entry.node <$> g.entry name

/-! ## Shared changes -/

def unlinkAll (g : Graph) (producers : List String) (consumer : String) : Graph :=
  producers.foldl (fun g p => g.unlink p consumer) g

def linkAll (g : Graph) (producers : List String) (consumer : String) : Graph :=
  producers.foldl (fun g p => g.link p consumer) g

/-- The graph without a node, which is no longer recorded as a consumer of its producers. -/
def detach (g : Graph) (name : String) : Graph :=
  match g.node? name with
  | none => g
  | some n => (g.erase name).unlinkAll n.producerNames name

/-- The consumers that a new node takes over from the node that has its name, other than
`skip?`. -/
def inherited (g : Graph) (name : String) (skip? : Option String) : List String :=
  (g.consumers name).filter fun c => some c != skip?

def redirect (g : Graph) (consumers : List String) (producer : String)
    (target : Reference → String) : Graph :=
  consumers.foldl (fun g c => g.redirectReferences c producer target) g

/-- A reference with its node exchanged; port and control marker stay. -/
def renamed (name : String) (r : Reference) : String := Reference.render { r with node := name }

/-- A reference to port 0 of a node; the control marker stays. -/
def towards (name : String) (r : Reference) : String := Reference.toNode name r.control

/-! ## Removing a node -/

/-- Removes a node and returns it. References to it stay with its consumers, which are not asked. -/
def remove (name : String) : Edit Node := Edit.guarded (·.node name) fun _ g => g.detach name

end Graph
end Dataflow
