import Dataflow.Graph.Entry

/- A graph is a list of entries in index order, with distinct names. Here are the type, what can
   be asked of it by name, and the elementary changes, each of which keeps the names distinct.
   Beside each change stands what it does to the names of the graph, and to what is found under a
   name. -/

namespace Dataflow

/-- Entries in index order, with distinct names. -/
structure Graph where
  entries : List Entry
  nodup_names : (entries.map Entry.name).Nodup
  deriving DecidableEq

namespace Graph

def empty : Graph := ⟨[], List.nodup_nil⟩

instance : Inhabited Graph := ⟨empty⟩

/-! ## Asking by name -/

def nodes (g : Graph) : List Node := g.entries.map Entry.node

def names (g : Graph) : List String := g.entries.map Entry.name

def size (g : Graph) : Nat := g.entries.length

def find? (g : Graph) (name : String) : Option Entry := g.entries.find? fun e => e.name == name

def node? (g : Graph) (name : String) : Option Node := (g.find? name).map Entry.node

def has (g : Graph) (name : String) : Bool := (g.find? name).isSome

def position? (g : Graph) (name : String) : Option Nat :=
  g.entries.findIdx? fun e => e.name == name

/-- The consumers recorded for a name; none if no node has it. -/
def consumers (g : Graph) (name : String) : List String :=
  ((g.find? name).map Entry.consumers).getD []

def inputs (g : Graph) (name : String) : List String := ((g.node? name).map Node.inputs).getD []

/-! ## Elementary changes -/

/-- The graph with a function applied to every entry; the function keeps names. -/
def mapEntries (g : Graph) (f : Entry → Entry) (h : ∀ e, (f e).name = e.name) : Graph :=
  ⟨g.entries.map f, by
    rw [List.map_map, show Entry.name ∘ f = Entry.name from funext h]
    exact g.nodup_names⟩

/-- A function on the entries with one name. -/
def atName (name : String) (f : Entry → Entry) (e : Entry) : Entry :=
  if e.name = name then f e else e

theorem atName_name {name : String} {f : Entry → Entry} (h : ∀ e, (f e).name = e.name) (e : Entry) :
    (atName name f e).name = e.name := by
  unfold atName; split
  · exact h e
  · rfl

def updateConsumers (g : Graph) (name : String) (f : Entry → List String) : Graph :=
  g.mapEntries (atName name fun e => { e with consumers := f e }) (atName_name fun _ => rfl)

/-- The graph with a consumer recorded for a producer, if the producer is there. -/
def link (g : Graph) (producer consumer : String) : Graph :=
  g.updateConsumers producer fun e => (e.addConsumer consumer).consumers

def unlink (g : Graph) (producer consumer : String) : Graph :=
  g.updateConsumers producer fun e => (e.removeConsumer consumer).consumers

/-- The graph with the inputs of `consumer` that name `producer` redirected. -/
def redirectReferences (g : Graph) (consumer producer : String)
    (target : Reference → String) : Graph :=
  g.mapEntries (atName consumer fun e => { e with node := e.node.redirectInputs producer target })
    (atName_name fun _ => rfl)

def updateAttributes (g : Graph) (name : String) (f : AttributeMap → AttributeMap) : Graph :=
  g.mapEntries
    (atName name fun e => { e with node := { e.node with attributes := f e.node.attributes } })
    (atName_name fun _ => rfl)

/-- The graph without the entry of a name. References to it and its places among the consumers of
others stay. -/
def erase (g : Graph) (name : String) : Graph :=
  ⟨g.entries.filter fun e => e.name != name,
    (List.filter_sublist.map Entry.name).nodup g.nodup_names⟩

theorem nodup_place {entries : List Entry} {e : Entry} (position : Nat)
    (h : (entries.map Entry.name).Nodup) (ha : e.name ∉ entries.map Entry.name) :
    ((entries.take position ++ e :: entries.drop position).map Entry.name).Nodup := by
  have hp : (entries.take position ++ e :: entries.drop position).Perm (e :: entries) := by
    have := @List.perm_middle _ e (entries.take position) (entries.drop position)
    rwa [List.take_append_drop] at this
  refine (List.Perm.nodup_iff (hp.map Entry.name)).mpr ?_
  rw [List.map_cons]
  exact List.nodup_cons.mpr ⟨ha, h⟩

theorem name_not_mem_erase (g : Graph) (name : String) : name ∉ (g.erase name).names := by
  simp [names, erase]

/-- The graph with an entry put at a position, after an entry of the same name is taken out. -/
def place (g : Graph) (position : Nat) (e : Entry) : Graph :=
  let kept := g.erase e.name
  ⟨kept.entries.take position ++ e :: kept.entries.drop position,
    nodup_place position kept.nodup_names (g.name_not_mem_erase e.name)⟩

def append (g : Graph) (e : Entry) : Graph := g.place (g.erase e.name).size e

/-! ## Views of the elementary changes -/

theorem ext {g h : Graph} (he : g.entries = h.entries) : g = h := by
  cases g; cases h; cases he; rfl

theorem mem_names {g : Graph} {name : String} :
    name ∈ g.names ↔ ∃ e ∈ g.entries, e.name = name := by simp [names]

/-- Where names are distinct, an entry is the only one with its name. -/
theorem eq_of_name_eq {entries : List Entry} (h : (entries.map Entry.name).Nodup) {a b : Entry}
    (ha : a ∈ entries) (hb : b ∈ entries) (hn : a.name = b.name) : a = b := by
  induction entries with
  | nil => simp at ha
  | cons e rest ih =>
    -- Either both are the front entry, or its name would stand in the rest again.
    rw [List.map_cons, List.nodup_cons] at h
    rcases List.mem_cons.mp ha with rfl | ha'
    · rcases List.mem_cons.mp hb with rfl | hb'
      · rfl
      · exact absurd (hn ▸ List.mem_map_of_mem hb') h.1
    · rcases List.mem_cons.mp hb with rfl | hb'
      · exact absurd (hn ▸ List.mem_map_of_mem ha') h.1
      · exact ih h.2 ha' hb'

theorem find?_eq_some {g : Graph} {name : String} {e : Entry} :
    g.find? name = some e ↔ e ∈ g.entries ∧ e.name = name := by
  refine ⟨?_, ?_⟩
  · intro h
    exact ⟨List.mem_of_find?_eq_some h, by simpa using List.find?_some h⟩
  · intro hboth
    obtain ⟨hm, rfl⟩ := hboth
    cases hf : g.find? e.name with
    | none =>
      have := List.find?_eq_none.mp hf e hm
      simp at this
    | some e' =>
      have hm' := List.mem_of_find?_eq_some hf
      have hn' : e'.name = e.name := by simpa using List.find?_some hf
      exact congrArg some (eq_of_name_eq g.nodup_names hm' hm hn')

theorem has_iff {g : Graph} {name : String} : g.has name = true ↔ name ∈ g.names := by
  rw [has, Option.isSome_iff_exists, mem_names]
  refine ⟨?_, ?_⟩
  · intro hex
    obtain ⟨e, he⟩ := hex
    exact ⟨e, find?_eq_some.mp he⟩
  · intro hex
    obtain ⟨e, he⟩ := hex
    exact ⟨e, find?_eq_some.mpr he⟩

theorem mapEntries_names (g : Graph) (f : Entry → Entry) (h : ∀ e, (f e).name = e.name) :
    (g.mapEntries f h).names = g.names := by
  simp only [names, mapEntries, List.map_map]
  exact congrArg (List.map · g.entries) (funext h)

theorem mapEntries_find? (g : Graph) (f : Entry → Entry) (h : ∀ e, (f e).name = e.name)
    (name : String) : (g.mapEntries f h).find? name = (g.find? name).map f := by
  simp only [find?, mapEntries, List.find?_map]
  congr 2
  funext e
  simp [h e]

theorem erase_names (g : Graph) (name : String) :
    (g.erase name).names = g.names.filter (· != name) := by
  simp only [names, erase, List.filter_map]
  rfl

theorem erase_find? (g : Graph) (name other : String) :
    (g.erase name).find? other = if other = name then none else g.find? other := by
  split
  · rename_i h
    subst h
    cases hf : (g.erase other).find? other with
    | none => rfl
    | some e =>
      have := find?_eq_some.mp hf
      exact absurd (mem_names.mpr ⟨e, this⟩) (g.name_not_mem_erase other)
  · rename_i h
    simp only [find?, erase, List.find?_filter]
    congr 1
    funext e
    by_cases he : e.name = other
    · simp [he, h]
    · simp [he]

end Graph
end Dataflow
