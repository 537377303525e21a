import Dataflow.Proofs.IndexOrder

/- A new node comes last, and a node of its name goes away first. That node may feed the
   producer, be fed by it, or be read by the listed consumers; a listed consumer may be the
   producer itself, or be listed twice. On a consistent graph the outcome is one rule for all of
   these, as long as the node that goes away does not read itself: `insert_outcome`, from
   `nodes_interpose` for the nodes and `interpose_inserted` for the consumers. -/

namespace Dataflow.Graph

/-- A node as it is after a node called `name` was put between a producer and the listed consumers:
those name it where they named the producer, through port 0 and with the same control marker. Without
a producer nothing is renamed. -/
def behind (name : String) (producer? : Option String) (cs : List String) (n : Node) : Node :=
  match producer? with
  | none => n
  | some producer =>
    if n.name ∈ cs then
      n.redirectInputs producer fun r => Reference.render ⟨name, r.control, 0⟩
    else n

/-- What `h` is to `g` when `new` was put between a producer and the listed consumers. -/
structure Inserted (new : Node) (producer? : Option String) (cs : List String) (g h : Graph) :
    Prop where
  /-- The new node comes last, and a node of its name is gone. Of the others only those listed are
  changed, and only where they named the producer. -/
  nodes : h.nodes =
    (g.nodes.filter fun n => n.name != new.name).map (behind new.name producer? cs) ++ [new]
  /-- A node that is not listed keeps reading the producer, and is still recorded with it. -/
  unlisted : ∀ p, producer? = some p → ∀ c ∈ g.consumers p, c ≠ new.name → c ∉ cs →
    h.Reads c p ∧ c ∈ h.consumers p
  /-- Who consumed the node that is gone consumes the new one. -/
  inherited : ∀ c ∈ g.consumers new.name, c ∈ h.consumers new.name

variable {g h : Graph} {new : Node} {producer? : Option String} {cs : List String}

/-! ## What an insertion leaves -/

theorem node?_interpose (hp : ∀ p, producer? = some p → p ≠ new.name)
    (hn : Reference.isPlain new.name = true) (y : String) :
    (interpose new producer? cs g).node? y = if y = new.name then some new
      else (g.node? y).map (behind new.name producer? cs) := by
  have hsettle : ∀ k : Graph, ((k.append (.withConsumers new
      (cs ++ g.inherited new.name none))).linkAll new.producerNames new.name).node? y =
        if y = new.name then some new else k.node? y :=
    fun k => node?_settle new (cs ++ g.inherited new.name none) _ k y
  by_cases hy : y = new.name
  · rw [if_pos hy]
    cases producer? with
    | none => exact (hsettle _).trans (if_pos hy)
    | some p => exact (hsettle _).trans (if_pos hy)
  · rw [if_neg hy]
    cases producer? with
    | none =>
      refine (hsettle _).trans ?_
      rw [if_neg hy, node?_detach, if_neg hy]
      exact Option.map_id'.symm
    | some p =>
      -- A consumer that is listed twice no longer names the producer the second time.
      have hs : Settled p (towards new.name) :=
        settled_of_ne (nodeOf_towards hn) (hp p rfl).symm
      refine (hsettle _).trans ?_
      rw [if_neg hy, node?_divert_settled hs, node?_detach, if_neg hy]
      rfl

theorem nodes_interpose (hp : ∀ p, producer? = some p → p ≠ new.name)
    (hn : Reference.isPlain new.name = true) : (interpose new producer? cs g).nodes =
      (g.nodes.filter fun n => n.name != new.name).map (behind new.name producer? cs) ++ [new] := by
  have hlast : (interpose new producer? cs g).node? new.name = some new :=
    (node?_interpose hp hn _).trans (if_pos rfl)
  have hrest := @filterMap_node? g (interpose new producer? cs g) (fun y => y != new.name) id
    (behind new.name producer? cs) fun y n hnode hy => by
      rw [id_eq, node?_interpose hp hn, if_neg (bne_iff_ne.mp hy), hnode, Option.map_some]
  rw [List.map_id] at hrest
  calc (interpose new producer? cs g).nodes
      = (g.names.filter (· != new.name) ++ [new.name]).filterMap
          (interpose new producer? cs g).node? := by
        rw [nodes_eq_filterMap, names_interpose]
    _ = (g.names.filter (· != new.name)).filterMap (interpose new producer? cs g).node?
          ++ [new] := by
        rw [List.filterMap_append, List.filterMap_cons_some hlast, List.filterMap_nil]
    _ = _ := by rw [hrest]

theorem interpose_inserted (hr : g.ConsumersReferring)
    (hp : ∀ p, producer? = some p → p ≠ new.name) (hn : Reference.isPlain new.name = true) :
    Inserted new producer? cs g (interpose new producer? cs g) where
  nodes := nodes_interpose hp hn
  unlisted := by
    rintro p rfl c hc hcn hcs
    have he : Enters new p cs g (interpose new (some p) cs g) :=
      @interpose_enters g new cs (some p) hn
    refine ⟨?_, ?_⟩
    · exact he.reads_kept hcn (consumersReferring_iff.mp hr c p hc) fun hx => hcs hx.2
    · exact (he.consumers c p).mpr
        (.inr (.inl ⟨hp p rfl, hc, fun hx => hcn hx.1, fun hx => hcs hx.2⟩))
  inherited c hc := ((interpose_enters hn).consumers c new.name).mpr (.inl ⟨rfl, .inr hc⟩)

/-! ## Inserting -/

/-- On a consistent graph with plain names in which no node of the new name reads itself, a node is
inserted exactly if the producer, where one is given, is another node, every listed consumer is another
node that reads the producer, or the new name where none is given, and every input of the new node
names the new node or one that is there. What is left is the graph with the node inserted, and it is
consistent. -/
theorem insert_outcome (hk : g.check = .ok ()) (hp : g.PlainNames) (hd : g.ConsumersDistinct)
    (hn : Reference.isPlain new.name = true) (hself : ¬g.Reads new.name new.name) :
    ((∃ h, insert new producer? cs g = (.ok (), h)) ↔
      (∀ p, producer? = some p → g.has p = true ∧ p ≠ new.name) ∧
      (∀ c ∈ cs, c ≠ new.name ∧ g.Reads c (producer?.getD new.name)) ∧
      ∀ p ∈ new.inputNodes, p = new.name ∨ g.has p = true) ∧
    ∀ h, insert new producer? cs g = (.ok (), h) →
      Inserted new producer? cs g h ∧ h.check = .ok () := by
  have hg : g.Recorded := recorded_of_check hk hp hd
  have hr : g.ConsumersReferring := (check_eq_ok_iff.mp hk).2
  constructor
  · exact Edit.exists_guarded_eq_ok.trans checkInsert_eq_ok
  · intro h hs
    obtain ⟨hc, rfl⟩ := Edit.guarded_eq_ok.mp hs
    have hproducer : ∀ p, producer? = some p → p ≠ new.name :=
      fun p hpe => ((checkInsert_eq_ok.mp hc).1 p hpe).2
    have hm : Command.Moves (.insert new producer? cs) g (interpose new producer? cs g) :=
      .insert hc
    have hstrands : ¬g.Strands (.insert new producer? cs) :=
      fun hx => hself (consumersReferring_iff.mp hr _ _ hx.2)
    refine ⟨interpose_inserted hr hproducer hn, ?_⟩
    refine hm.check ⟨trivial, fun n hnode => ?_⟩ hg hr hstrands
    cases hnode
    exact hn

/-- A loop, a node whose name is wanted between the loop and one of its readers, and another reader. -/
def crowdedNodes : List Node :=
  [.make "Merge" "loop" ["loop:1", "taken"], .make "Relu" "taken" ["loop:2"],
    .make "Add" "sum" ["^loop", "loop:3", "taken:1"], .make "Relu" "out" ["loop", "taken"]]

/-- The new node takes the name of one that the loop feeds and that feeds it. -/
def newcomer : Node := .make "Identity" "taken" ["loop", "^sum"]

theorem insert_outcome_crowdedNodes :
    ∃ h, insert newcomer (some "loop") ["loop", "sum", "loop"] (build crowdedNodes) = (.ok (), h) ∧
      h.nodes = [.make "Merge" "loop" ["taken", "taken"],
        .make "Add" "sum" ["^taken", "taken", "taken:1"], .make "Relu" "out" ["loop", "taken"],
        newcomer] ∧
      h.Reads "out" "loop" ∧ "out" ∈ h.consumers "taken" ∧ h.check = .ok () := by
  have hs : insert newcomer (some "loop") ["loop", "sum", "loop"] (build crowdedNodes)
      = (.ok (), _) := Edit.guarded_eq_ok.mpr ⟨rfl, rfl⟩
  obtain ⟨-, hout⟩ := @insert_outcome (build crowdedNodes) newcomer (some "loop")
    ["loop", "sum", "loop"] rfl (build_plainNames (by decide)) (build_consumersDistinct _)
    (by decide) (by decide)
  obtain ⟨hinserted, hcheck⟩ := hout _ hs
  refine ⟨_, hs, hinserted.nodes.trans (by decide), ?_, ?_, hcheck⟩
  · exact (hinserted.unlisted "loop" rfl "out" (by decide) (by decide) (by decide)).1
  · exact hinserted.inherited "out" (by decide)

end Dataflow.Graph
