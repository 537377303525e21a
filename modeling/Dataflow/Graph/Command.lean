import Dataflow.Graph.Edit.Constant
import Dataflow.Graph.Edit.Splice

/- The six edits as data, so that one can speak of a run of edits. An edit that is refused leaves
   the graph as it was (`run_error`). -/

namespace Dataflow.Graph

inductive Command where
  | remove (name : String)
  | splice (name : String)
  | replace (new : Node) (old : String) (consumers : List String)
  | insert (new : Node) (producer? : Option String) (consumers : List String)
  | swapConstant (new : Node) (old : String) (consumers : List String)
  | fold (new : Node) (name : String)
  deriving DecidableEq

namespace Command

/-- What an edit gives, with its answer as a node where it has one. -/
def answering {α : Type} (f : α → Option Node) (r : Except Error α × Graph) :
    Except Error (Option Node) × Graph := (r.1.map f, r.2)

/-- The answer of a command, and the graph after it. Only removing answers a node. -/
def run (c : Command) (g : Graph) : Except Error (Option Node) × Graph :=
  match c with
  | .remove name => answering some (Graph.remove name g)
  | .splice name => answering (fun _ => none) (Graph.splice name g)
  | .replace new old consumers => answering (fun _ => none) (Graph.replace new old consumers g)
  | .insert new producer? consumers =>
    answering (fun _ => none) (Graph.insert new producer? consumers g)
  | .swapConstant new old consumers =>
    answering (fun _ => none) (Graph.swapConstant new old consumers g)
  | .fold new name => answering (fun _ => none) (Graph.fold new name g)

def name : Command → String
  | .remove _ => "remove_node"
  | .splice _ => "splice_single_input"
  | .replace .. => "replace_node"
  | .insert .. => "insert_node"
  | .swapConstant .. => "replace_producer_constant"
  | .fold .. => "fold_constant_subgraph"

/-- The graph after commands none of which is refused. -/
inductive Reaches : Graph → List Command → Graph → Prop where
  | done (g : Graph) : Reaches g [] g
  | step {g h k : Graph} {c : Command} {cs : List Command} {answer : Option Node} :
    c.run g = (.ok answer, h) → Reaches h cs k → Reaches g (c :: cs) k

/-! ## Checking comes first -/

theorem answering_error {α : Type} {f : α → Option Node} {r : Except Error α × Graph} {h : Graph}
    {e : Error} (hr : answering f r = (.error e, h)) : r = (.error e, h) := by
  obtain ⟨x, k⟩ := r
  cases x with
  | error e' => simpa [answering, Except.map] using hr
  | ok a => simp [answering, Except.map] at hr

theorem run_error {c : Command} {g h : Graph} {e : Error} (hr : c.run g = (.error e, h)) :
    h = g := by
  cases c <;> exact Edit.guarded_error (answering_error hr)

end Command
end Dataflow.Graph
