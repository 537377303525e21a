import Dataflow.Node.Inputs

/- An entry of a graph is a node with the names of the nodes that consume it, in the order in
   which they were recorded. Recording keeps each name once. -/

namespace Dataflow

/-- A node and the names of its consumers. -/
structure Entry where
  node : Node
  consumers : List String := []
  deriving DecidableEq, Inhabited

namespace Entry

def name (e : Entry) : String := e.node.name

/-- An entry with the given consumers, each kept once. -/
def withConsumers (node : Node) (consumers : List String) : Entry :=
  { node, consumers := consumers.eraseDups }

def hasConsumer (e : Entry) (name : String) : Bool := e.consumers.contains name

/-- The entry with a consumer recorded last, unless it is recorded already. -/
def addConsumer (e : Entry) (name : String) : Entry :=
  if e.hasConsumer name then e else { e with consumers := e.consumers ++ [name] }

def removeConsumer (e : Entry) (name : String) : Entry :=
  { e with consumers := e.consumers.filter (· != name) }

/-- The entry with consumers standing in the place of one of them: each kept at its first place,
and those not placed yet at the end. -/
def replaceConsumer (e : Entry) (name : String) (substitutes : List String) : Entry :=
  let placed := e.consumers.flatMap fun c => if c = name then substitutes else [c]
  { e with consumers := (placed ++ substitutes).eraseDups }

/-! ## What recording does -/

theorem mem_addConsumer {e : Entry} {name other : String} :
    other ∈ (e.addConsumer name).consumers ↔ other ∈ e.consumers ∨ other = name := by
  unfold addConsumer
  split
  · rename_i h
    have hm : name ∈ e.consumers := by simpa [hasConsumer] using h
    refine ⟨?_, ?_⟩
    · exact .inl
    · intro hcase
      rcases hcase with h | rfl
      · exact h
      · exact hm
  · simp

theorem mem_removeConsumer {e : Entry} {name other : String} :
    other ∈ (e.removeConsumer name).consumers ↔ other ∈ e.consumers ∧ other ≠ name := by
  simp [removeConsumer]

theorem nodup_addConsumer {e : Entry} (h : e.consumers.Nodup) (name : String) :
    (e.addConsumer name).consumers.Nodup := by
  unfold addConsumer
  split
  · exact h
  · rename_i hc
    have hm : name ∉ e.consumers := by simpa [hasConsumer] using hc
    rw [List.nodup_append]
    refine ⟨h, by simp, ?_⟩
    intro a ha b hb
    rw [List.mem_singleton] at hb
    subst hb
    exact fun hab => hm (hab ▸ ha)

end Entry
end Dataflow
