import Dataflow.Error
import Dataflow.Graph.Basic
import Dataflow.SavedGraph

/- A graph is built from a flat list of nodes: the first node of each name is kept, and then
   every input is recorded as a consumer of the node it names. The lenient builder leaves out
   inputs that name no node, the strict one refuses them. -/

namespace Dataflow.Graph

/-- The first node of each name, in order. -/
def keepFirst : List Node → List Node
  | [] => []
  -- Later nodes of a name that is taken are dropped.
  | n :: rest => n :: (keepFirst rest).filter fun m => m.name != n.name

theorem nodup_keepFirst (nodes : List Node) : ((keepFirst nodes).map Node.name).Nodup := by
  induction nodes with
  | nil => exact List.nodup_nil
  | cons n rest ih =>
    rw [keepFirst, List.map_cons, List.nodup_cons]
    refine ⟨by simp, (List.filter_sublist.map Node.name).nodup ih⟩

def bareEntries (nodes : List Node) : List Entry := nodes.map fun node => { node }

theorem bareEntries_names (nodes : List Node) :
    (bareEntries nodes).map Entry.name = nodes.map Node.name := by
  simp [bareEntries, Function.comp_def, Entry.name]

def unlinked (nodes : List Node) : Graph :=
  ⟨bareEntries (keepFirst nodes), by rw [bareEntries_names]; exact nodup_keepFirst nodes⟩

structure Link where
  producer : String
  consumer : String
  deriving DecidableEq, Repr

/-- The links of a graph: one for each input, in index order and then input order. -/
def links (g : Graph) : List Link :=
  g.nodes.flatMap fun n => n.inputNodes.map fun producer => { producer, consumer := n.name }

/-- The graph with links recorded; those whose producer is absent are left out. -/
def recordLinks (g : Graph) (links : List Link) : Graph :=
  links.foldl (fun g l => g.link l.producer l.consumer) g

/-- The graph of a list of nodes. Inputs that name no node are left out of the consumers. -/
def build (nodes : List Node) : Graph :=
  let g := unlinked nodes
  g.recordLinks g.links

/-- The graph of a list of nodes, which must name each other only. -/
def tryBuild (nodes : List Node) : Except Error Graph :=
  let g := unlinked nodes
  match g.links.find? fun l => !g.has l.producer with
  | some l => .error (.danglingReference l.consumer l.producer)
  | none => .ok (g.recordLinks g.links)

def ofSaved (saved : SavedGraph) : Graph := build saved.nodes

def toSaved (g : Graph) : SavedGraph := .ofNodes g.nodes

/-! ## What building keeps -/

theorem link_nodes (g : Graph) (producer consumer : String) :
    (g.link producer consumer).nodes = g.nodes := by
  simp only [nodes, link, updateConsumers, mapEntries, List.map_map]
  congr 1
  funext e
  simp only [Function.comp_def, atName]
  split <;> rfl

theorem recordLinks_nodes (g : Graph) (links : List Link) :
    (g.recordLinks links).nodes = g.nodes := by
  induction links generalizing g with
  | nil => rfl
  | cons l rest ih =>
    rw [recordLinks, List.foldl_cons]
    exact (ih (g.link l.producer l.consumer)).trans (g.link_nodes _ _)

theorem unlinked_nodes (nodes : List Node) : (unlinked nodes).nodes = keepFirst nodes := by
  simp [Graph.nodes, unlinked, bareEntries, Function.comp_def]

theorem build_nodes (nodes : List Node) : (build nodes).nodes = keepFirst nodes := by
  rw [build, recordLinks_nodes, unlinked_nodes]

end Dataflow.Graph
