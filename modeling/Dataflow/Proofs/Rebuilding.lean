import Dataflow.Proofs.Recording

/- The consumers of a graph are kept up to date edit by edit; a graph that is built from the same
   nodes collects them all at once. Here the two are compared on graphs of any kind, with
   whatever inputs and recorded consumers: the checker accepts a graph exactly if building it
   anew gives the same consumers (`check_eq_ok_iff_tryBuild`). Building anew keeps every node,
   since names are distinct, and consistent graphs with the same nodes have the same consumers. -/

namespace Dataflow.Graph

variable {g : Graph} {a b : String}

theorem keepFirst_of_nodup {ns : List Node} (hd : (ns.map Node.name).Nodup) :
    keepFirst ns = ns := by
  induction ns with
  | nil => rfl
  | cons n ns ih =>
    rw [List.map_cons, List.nodup_cons] at hd
    obtain ⟨hn, hd⟩ := hd
    rw [keepFirst, ih hd, List.filter_eq_self.mpr]
    intro m hm
    exact bne_iff_ne.mpr fun heq => hn (heq ▸ List.mem_map_of_mem hm)

theorem nodes_build_nodes (g : Graph) : (build g.nodes).nodes = g.nodes := by
  rw [build_nodes, keepFirst_of_nodup (g.map_name_nodes ▸ g.nodup_names)]

theorem node?_eq_find? (g : Graph) (x : String) :
    g.node? x = g.nodes.find? fun n => n.name == x := by
  rw [node?, find?, nodes, List.find?_map]
  rfl

theorem node?_build_nodes (g : Graph) (x : String) : (build g.nodes).node? x = g.node? x := by
  rw [node?_eq_find?, nodes_build_nodes, ← node?_eq_find?]

theorem reads_build_nodes : (build g.nodes).Reads a b ↔ g.Reads a b :=
  reads_congr (node?_build_nodes g a)

theorem has_build_nodes (g : Graph) (x : String) : (build g.nodes).has x = g.has x := by
  rw [has_eq_isSome, node?_build_nodes, ← has_eq_isSome]

theorem closed_build_nodes : (build g.nodes).Closed ↔ g.Closed := by
  simp only [Closed, reads_build_nodes, has_build_nodes]

/-- A graph is consistent exactly if every input names a node and the consumers recorded for a node are
those that read it. -/
theorem consistent_iff : g.Consistent ↔
    g.Closed ∧ ∀ a b, g.has b = true → (a ∈ g.consumers b ↔ g.Reads a b) := by
  rw [Consistent, inputsRecorded_iff, consumersReferring_iff]
  constructor
  · rintro ⟨⟨hclosed, hrecorded⟩, hreferring⟩
    exact ⟨hclosed, fun a b hb => ⟨hreferring a b, fun hr => hrecorded a b hr hb⟩⟩
  · rintro ⟨hclosed, hall⟩
    refine ⟨⟨hclosed, fun a b hr hb => (hall a b hb).mpr hr⟩, fun a b ha => ?_⟩
    exact (hall a b (has_of_mem_consumers ha)).mp ha

/-- The consumers that a consistent graph records for a node can be told from its nodes. -/
theorem mem_consumers_iff_of_nodes {h : Graph} (hg : g.Consistent) (hh : h.Consistent)
    (hn : g.nodes = h.nodes) : a ∈ g.consumers b ↔ a ∈ h.consumers b := by
  have hnode : ∀ z, g.node? z = h.node? z := fun z => by
    rw [node?_eq_find?, hn, ← node?_eq_find?]
  have hhas : g.has b = h.has b := by rw [has_eq_isSome, hnode, ← has_eq_isSome]
  by_cases hb : g.has b = true
  · rw [(consistent_iff.mp hg).2 a b hb, (consistent_iff.mp hh).2 a b (hhas ▸ hb)]
    exact reads_congr (hnode a)
  · exact iff_of_false (fun hm => hb (has_of_mem_consumers hm))
      fun hm => hb (hhas ▸ has_of_mem_consumers hm)

/-- The checker accepts a graph exactly if the strict builder accepts its nodes and records the same
consumers for each of them. -/
theorem check_eq_ok_iff_tryBuild {g : Graph} : g.check = .ok () ↔
    ∃ h, tryBuild g.nodes = .ok h ∧
      ∀ e ∈ g.entries, ∀ a, a ∈ e.consumers ↔ a ∈ h.consumers e.name := by
  have hbuilt : ∀ a b, g.has b = true →
      (a ∈ (build g.nodes).consumers b ↔ g.Reads a b) := by
    intro a b hb
    rw [mem_consumers_build, reads_build_nodes, has_build_nodes, and_iff_left hb]
  rw [check_eq_ok_iff, consistent_iff]
  constructor
  · rintro ⟨hclosed, hall⟩
    refine ⟨build g.nodes, tryBuild_eq_ok.mpr ⟨closed_build_nodes.mpr hclosed, rfl⟩, ?_⟩
    intro e he a
    have hb : g.has e.name = true := has_of_node? (node?_of_mem he)
    rw [← consumers_of_mem he, hall a e.name hb, hbuilt a e.name hb]
  · rintro ⟨h, hh, hsame⟩
    obtain ⟨hclosed, rfl⟩ := tryBuild_eq_ok.mp hh
    refine ⟨closed_build_nodes.mp hclosed, fun a b hb => ?_⟩
    obtain ⟨e, he, rfl⟩ := exists_mem_of_has hb
    rw [consumers_of_mem he, hsame e he a, hbuilt a e.name hb]

end Dataflow.Graph
