import Dataflow.Proofs.IndexOrder

/- Where every input that names a node is recorded with it, and every recorded consumer reads
   what it is recorded with, one thing is left that may be wrong: an input may name no node. Then
   the checker finds these inputs and nothing else (`faults_of_recorded`). Graphs get there in
   two ways. The builder takes such inputs as they come, and removing a node makes them out of
   inputs that were in order; `remove_outcome` tells all that the checker finds after that. -/

namespace Dataflow.Graph

variable {g h : Graph} {x y : String}

/-! ## What the checker finds -/

theorem inputFault?_of_not_has {node producer : String} (hp : ¬g.has producer = true) :
    g.inputFault? node producer = some (.danglingReference node producer) := by
  have hnone : g.find? producer = none := by
    rwa [has, Bool.not_eq_true, Option.isSome_eq_false_iff, Option.isNone_iff_eq_none] at hp
  rw [inputFault?, hnone]

/-- What is wrong with the inputs of a node that is recorded with every producer that is there. -/
theorem filterMap_inputFault? {node : String} {producers : List String}
    (hp : ∀ p ∈ producers, g.has p = true → node ∈ g.consumers p) :
    producers.filterMap (g.inputFault? node) =
      (producers.filter fun p => !g.has p).map (.danglingReference node) := by
  rw [← List.filterMap_eq_map, List.filterMap_filter]
  refine List.filterMap_congr fun p hm => ?_
  by_cases hg : g.has p = true
  · rw [hg, inputFault?_eq_none.mpr (mem_consumers.mp (hp p hm hg))]
    rfl
  · rw [inputFault?_of_not_has hg, if_pos (by simpa using hg)]
    rfl

/-- Where present inputs are recorded and recorded consumers read, the only faults are inputs that name
no node. -/
theorem faults_of_recorded (hj : g.PresentInputsRecorded) (hr : g.ConsumersReferring) :
    g.faults = g.nodes.flatMap fun n =>
      (n.inputNodes.filter fun p => !g.has p).map (.danglingReference n.name) := by
  rw [faults, nodes, List.flatMap_map]
  refine List.flatMap_congr fun e he => ?_
  have hconsumers : e.consumers.filterMap (g.consumerFault? e.name) = [] :=
    List.filterMap_eq_nil_iff.mpr fun c hc => consumerFault?_eq_none.mpr (hr e he c hc)
  have hinputs : ∀ p ∈ e.node.inputNodes, g.has p = true → e.name ∈ g.consumers p :=
    fun p hp hg => hj e.name p ⟨e.node, node?_of_mem he, hp⟩ hg
  rw [entryFaults, hconsumers, List.append_nil, filterMap_inputFault? hinputs]
  rfl

theorem check_of_recorded (hj : g.PresentInputsRecorded) (hr : g.ConsumersReferring) :
    g.check = .ok () ↔ g.Closed := by
  rw [check_eq_ok_iff, Consistent, and_iff_left hr, inputsRecorded_iff, and_iff_left hj]

/-! ## Removing -/

/-- Nobody is stranded when a node is taken out: it is forgotten wherever it read. -/
theorem referring_detach (hr : g.ConsumersReferring) (x : String) :
    (g.detach x).ConsumersReferring := by
  rw [consumersReferring_iff] at hr ⊢
  intro a b hm
  obtain ⟨-, hm, hne⟩ := mem_consumers_detach.mp hm
  exact reads_detach.mpr ⟨fun ha => hne ⟨ha, ha ▸ hr a b hm⟩, hr a b hm⟩

theorem nodes_detach (g : Graph) (x : String) :
    (g.detach x).nodes = g.nodes.filter fun n => n.name != x := by
  have hkept : ((g.names.filter (· != x)).map id).filterMap (g.detach x).node? =
      (g.nodes.filter fun n => n.name != x).map id :=
    filterMap_node? fun y n hn hy => by
      rw [id_eq, node?_detach, if_neg (bne_iff_ne.mp hy), hn, id_eq]
  rwa [List.map_id, List.map_id, ← names_detach, ← nodes_eq_filterMap] at hkept

/-- What `h` is to `g` when `x` was removed and nobody was told. -/
structure Removed (x : String) (g h : Graph) : Prop where
  /-- The other nodes stay as they are, and in order. -/
  nodes : h.nodes = g.nodes.filter fun n => n.name != x
  /-- The producers of `x` forget it, each whatever its number of references; no other consumer is
  forgotten. -/
  consumers : ∀ y, y ≠ x → h.consumers y = (g.consumers y).filter (· != x)
  /-- One fault for each input that named `x`, in index order and then input order. -/
  faults : h.faults = h.nodes.flatMap fun n =>
    (n.inputNodes.filter (· == x)).map fun _ => .danglingReference n.name x

theorem faults_detach (hc : g.Closed) (hj : g.PresentInputsRecorded) (hr : g.ConsumersReferring)
    (x : String) : (g.detach x).faults = (g.detach x).nodes.flatMap fun n =>
      (n.inputNodes.filter (· == x)).map fun _ => .danglingReference n.name x := by
  rw [faults_of_recorded (hj.detach x) (referring_detach hr x)]
  refine List.flatMap_congr fun n hn => ?_
  have hmissing : ∀ p ∈ n.inputNodes, (!(g.detach x).has p) = (p == x) := by
    intro p hp
    have hread : g.Reads n.name p := (reads_detach.mp ⟨n, node?_of_mem_nodes hn, hp⟩).2
    have hg := hc n.name p hread
    rw [Bool.eq_iff_iff, Bool.not_eq_true', ← Bool.not_eq_true, has_detach, beq_iff_eq]
    simp [hg]
  rw [List.filter_congr hmissing]
  refine List.map_congr_left fun p hp => ?_
  rw [beq_iff_eq.mp (List.mem_filter.mp hp).2]

theorem detach_removed (hk : g.Consistent) (x : String) : Removed x g (g.detach x) where
  nodes := nodes_detach g x
  consumers _ hy := consumers_detach_eq hy fun hm => consumersReferring_iff.mp hk.2 _ _ hm
  faults := by
    obtain ⟨hc, hj⟩ := inputsRecorded_iff.mp hk.1
    exact faults_detach hc hj hk.2 x

theorem check_detach (hk : g.Consistent) (hx : g.has x = true) :
    (g.detach x).check = .ok () ↔ ∀ c ∈ g.consumers x, c = x := by
  obtain ⟨hc, hj⟩ := inputsRecorded_iff.mp hk.1
  rw [check_of_recorded (hj.detach x) (referring_detach hk.2 x)]
  refine ⟨?_, ?_⟩
  · intro hclosed c hm
    refine by_contra fun hne => ?_
    have hread : (g.detach x).Reads c x :=
      reads_detach.mpr ⟨hne, consumersReferring_iff.mp hk.2 c x hm⟩
    exact (has_detach.mp (hclosed c x hread)).1 rfl
  · intro hself a b hab
    obtain ⟨hne, hread⟩ := reads_detach.mp hab
    refine has_detach.mpr ⟨fun hb => ?_, hc a b hread⟩
    subst hb
    exact hne (hself a (hj a b hread hx))

/-- Removing a node of a consistent graph returns it and leaves the others as they are. What is wrong
then is one dangling reference for each input of another node that named it, in order; so the graph
stays consistent exactly if no other node consumed it. -/
theorem remove_outcome {n : Node} (hk : g.check = .ok ()) (hn : g.node? x = some n) :
    ∃ h, remove x g = (.ok n, h) ∧ Removed x g h ∧
      (h.check = .ok () ↔ ∀ c ∈ g.consumers x, c = x) := by
  have hg : g.Consistent := check_eq_ok_iff.mp hk
  refine ⟨g.detach x, ?_, detach_removed hg x, check_detach hg (has_of_node? hn)⟩
  exact Edit.guarded_eq_ok.mpr ⟨node_eq_ok.mpr hn, rfl⟩

/-- A node in the middle that reads itself, a port of its source and its source again; its readers read
it through ports, twice, and wait for it. -/
def hubNodes : List Node :=
  [.make "Placeholder" "source" [], .make "Merge" "hub" ["source:1", "hub", "^source"],
    .make "Add" "sum" ["hub:2", "source", "^hub"], .make "Relu" "out" ["sum", "hub"]]

theorem remove_outcome_hubNodes : ∃ h,
    remove "hub" (build hubNodes) = (.ok (.make "Merge" "hub" ["source:1", "hub", "^source"]), h) ∧
      h.nodes = [.make "Placeholder" "source" [], .make "Add" "sum" ["hub:2", "source", "^hub"],
        .make "Relu" "out" ["sum", "hub"]] ∧
      h.consumers "source" = ["sum"] ∧
      h.faults = [.danglingReference "sum" "hub", .danglingReference "sum" "hub",
        .danglingReference "out" "hub"] ∧
      ¬h.check = .ok () := by
  obtain ⟨h, hs, hr, hcheck⟩ := @remove_outcome (build hubNodes) "hub"
    (.make "Merge" "hub" ["source:1", "hub", "^source"]) rfl (by decide)
  have hnodes := hr.nodes.trans (by decide : _ = [.make "Placeholder" "source" [],
    .make "Add" "sum" ["hub:2", "source", "^hub"], .make "Relu" "out" ["sum", "hub"]])
  refine ⟨h, hs, hnodes, (hr.consumers "source" (by decide)).trans (by decide), ?_, ?_⟩
  · rw [hr.faults, hnodes]
    decide
  · rw [hcheck]
    decide

end Dataflow.Graph
