import Dataflow.Proofs.IndexOrder

/- A new constant comes in before an old node, and a node of its name goes away first. That node
   may stand on either side of the old one, feed it or read it; the constant may wait for the old
   node; a listed consumer may read the old node through several ports and wait for it as well,
   be listed twice, or be the old node itself. On a consistent graph the outcome is one rule for
   all of these, as long as the node that goes away does not read itself (`swap_outcome`). -/

namespace Dataflow.Graph

/-- A node as it is after a constant called `name` was swapped in for the listed consumers of `old`:
those name it where they named the old node, with the same port and the same control marker. -/
def repointed (name old : String) (cs : List String) (n : Node) : Node :=
  if n.name ∈ cs then
    n.redirectInputs old fun r => Reference.render ⟨name, r.control, r.port⟩
  else n

/-- What `h` is to `g` when `new` was swapped in before `old` for the listed consumers. -/
structure Swapped (new : Node) (old : String) (cs : List String) (g h : Graph) : Prop where
  /-- The new constant stands immediately before the old node, and a node of its name is gone. Of
  the others only those listed are changed, and only where they named the old node. -/
  nodes : h.nodes = (g.nodes.filter fun n => n.name != new.name).flatMap fun n =>
    if n.name = old then [new, repointed new.name old cs n] else [repointed new.name old cs n]
  /-- The old node is still there. -/
  stays : h.has old = true
  /-- It has lost the listed consumers and the node that is gone, and has the constant as its last
  consumer if that reads it. -/
  consumers : h.consumers old =
    ((g.consumers old).filter fun c => c != new.name && !cs.contains c)
      ++ if old ∈ new.inputNodes then [new.name] else []

variable {g h : Graph} {new : Node} {old : String} {cs : List String}

/-! ## What a swap leaves -/

/-- The graph without a node of the new name, in which the listed consumers no longer read the old
node. -/
def diverted (new : Node) (old : String) (cs : List String) (g : Graph) : Graph :=
  divert cs old (renamed new.name) (g.detach new.name)

theorem names_diverted (new : Node) (old : String) (cs : List String) (g : Graph) :
    (diverted new old cs g).names = g.names.filter (· != new.name) := by
  rw [diverted, names_divert, names_detach]

/-- The constant is settled at the place of the old node, which is still there. -/
theorem standBefore_eq (ho : g.has old = true) (hne : new.name ≠ old) :
    ∃ position, (g.names.filter (· != new.name)).findIdx? (· == old) = some position ∧
      standBefore new old cs g =
        settle new (cs ++ g.inherited new.name none) position (diverted new old cs g) := by
  have hd : (diverted new old cs g).has old = true := by
    rw [diverted, has_divert]
    exact has_detach.mpr ⟨Ne.symm hne, ho⟩
  obtain ⟨position, hq⟩ := position?_isSome hd
  refine ⟨position, ?_, ?_⟩
  · rw [← names_diverted new old cs g, ← position?_eq, hq]
  · have hq' : (divert cs old (renamed new.name) (g.detach new.name)).position? old
        = some position := hq
    simp only [standBefore, hq']
    rfl

theorem names_standBefore (ho : g.has old = true) (hne : new.name ≠ old) :
    (standBefore new old cs g).names =
      (g.names.filter (· != new.name)).flatMap fun y =>
        if y = old then [new.name, y] else [y] := by
  obtain ⟨position, hq, he⟩ := @standBefore_eq g new old cs ho hne
  have hnames : (diverted new old cs g).names.filter (· != new.name) =
      g.names.filter (· != new.name) := by
    rw [names_diverted, List.filter_filter]
    simp only [Bool.and_self]
  have hd : (g.names.filter (· != new.name)).Nodup := g.nodup_names.filter _
  rw [he, settle, names_linkAll, names_place]
  show ((diverted new old cs g).names.filter (· != new.name)).take position ++
    new.name :: ((diverted new old cs g).names.filter (· != new.name)).drop position = _
  rw [hnames, take_append_cons_drop_before hd hq]

theorem node?_standBefore (ho : g.has old = true) (hne : new.name ≠ old)
    (hn : Reference.isPlain new.name = true) (y : String) : (standBefore new old cs g).node? y =
      if y = new.name then some new else (g.node? y).map (repointed new.name old cs) := by
  obtain ⟨position, -, he⟩ := @standBefore_eq g new old cs ho hne
  have hs : Settled old (renamed new.name) := settled_of_ne (nodeOf_renamed hn) hne
  rw [he, node?_settle, diverted, node?_divert_settled hs, node?_detach]
  split <;> rfl

theorem nodes_standBefore (ho : g.has old = true) (hne : new.name ≠ old)
    (hn : Reference.isPlain new.name = true) : (standBefore new old cs g).nodes =
      (g.nodes.filter fun n => n.name != new.name).flatMap fun n =>
        if n.name = old then [new, repointed new.name old cs n]
        else [repointed new.name old cs n] := by
  rw [nodes_eq_filterMap, names_standBefore ho hne]
  refine flatMap_node? fun y n hnode hy => ?_
  have hnew : (standBefore new old cs g).node? new.name = some new :=
    (node?_standBefore ho hne hn _).trans (if_pos rfl)
  have hkept : (standBefore new old cs g).node? y = some (repointed new.name old cs n) := by
    rw [node?_standBefore ho hne hn, if_neg (bne_iff_ne.mp hy), hnode, Option.map_some]
  rw [name_of_node? hnode]
  split
  · rw [List.filterMap_cons_some hnew, List.filterMap_cons_some hkept, List.filterMap_nil]
  · rw [List.filterMap_cons_some hkept, List.filterMap_nil]

theorem consumers_standBefore_old (hd : g.ConsumersDistinct) (hr : g.ConsumersReferring)
    (ho : g.has old = true) (hne : new.name ≠ old) : (standBefore new old cs g).consumers old =
      ((g.consumers old).filter fun c => c != new.name && !cs.contains c)
        ++ if old ∈ new.inputNodes then [new.name] else [] := by
  obtain ⟨position, -, he⟩ := @standBefore_eq g new old cs ho hne
  have hdiverted : (diverted new old cs g).consumers old =
      (g.consumers old).filter fun c => c != new.name && !cs.contains c := by
    rw [diverted, consumers_divert, if_pos rfl,
      consumers_detach_eq (Ne.symm hne) (consumersReferring_iff.mp hr new.name old),
      List.filter_filter]
    simp only [Bool.and_comm]
  have hplaced : ((diverted new old cs g).place position
      (.withConsumers new (cs ++ g.inherited new.name none))).consumers old =
        (g.consumers old).filter fun c => c != new.name && !cs.contains c := by
    rw [consumers_place]
    exact (if_neg (Ne.symm hne)).trans hdiverted
  have hhas : ((diverted new old cs g).place position
      (.withConsumers new (cs ++ g.inherited new.name none))).has old = true := by
    refine has_place.mpr (.inr ?_)
    rw [diverted, has_divert]
    exact has_detach.mpr ⟨Ne.symm hne, ho⟩
  -- What is kept has no name twice, and does not have the new one.
  rw [he, settle, consumers_linkAll_of_not_mem hhas, hplaced]
  · simp only [Node.mem_producerNames]
  · rw [hplaced]
    exact (hd.nodup_consumers old).filter _
  · simp [hplaced]

theorem standBefore_swapped (hd : g.ConsumersDistinct) (hr : g.ConsumersReferring)
    (ho : g.has old = true) (hne : new.name ≠ old) (hn : Reference.isPlain new.name = true) :
    Swapped new old cs g (standBefore new old cs g) where
  nodes := nodes_standBefore ho hne hn
  stays := ((standBefore_enters hn).has old).mpr (.inr ho)
  consumers := consumers_standBefore_old hd hr ho hne

/-! ## Swapping -/

/-- On a consistent graph with plain names in which no node of the new name reads itself, a node is
swapped in exactly if it is a constant, the old node is there and has another name, every listed
consumer is a node of another name that reads the old one, and every input of the constant names the
constant or a node that is there. What is left is the graph with the constant swapped in, and it is
consistent. -/
theorem swap_outcome (hk : g.check = .ok ()) (hp : g.PlainNames) (hd : g.ConsumersDistinct)
    (hn : Reference.isPlain new.name = true) (hself : ¬g.Reads new.name new.name) :
    ((∃ h, swapConstant new old cs g = (.ok (), h)) ↔
      new.isConstant = true ∧ (g.has old = true ∧ old ≠ new.name) ∧
      (∀ c ∈ cs, g.has c = true ∧ c ≠ new.name ∧ g.Reads c old) ∧
      ∀ p ∈ new.inputNodes, p = new.name ∨ g.has p = true) ∧
    ∀ h, swapConstant new old cs g = (.ok (), h) →
      Swapped new old cs g h ∧ h.check = .ok () := by
  have hg : g.Recorded := recorded_of_check hk hp hd
  have hr : g.ConsumersReferring := (check_eq_ok_iff.mp hk).2
  -- A consumer that reads the old node is there.
  have hlisted : (∀ c ∈ cs, g.has c = true ∧ c ≠ new.name ∧ g.Reads c old) ↔
      ∀ c ∈ cs, c ≠ new.name ∧ g.Reads c old :=
    forall₂_congr fun c _ => and_iff_right_of_imp fun hc => hc.2.has
  constructor
  · rw [swapConstant, Edit.exists_guarded_eq_ok, checkSwap_eq_ok, hlisted, and_assoc,
      ne_comm (a := old)]
  · intro h hs
    obtain ⟨hc, rfl⟩ := Edit.guarded_eq_ok.mp hs
    obtain ⟨-, ho, hne, -⟩ := checkSwap_eq_ok.mp hc
    have hm : Command.Moves (.swapConstant new old cs) g (standBefore new old cs g) := .swap hc
    have hstrands : ¬g.Strands (.swapConstant new old cs) :=
      fun hx => hself (consumersReferring_iff.mp hr _ _ hx.2)
    refine ⟨standBefore_swapped hd hr ho hne hn, ?_⟩
    refine hm.check ⟨trivial, fun n hnode => ?_⟩ hg hr hstrands
    cases hnode
    exact hn

/-- A constant that reads itself, one whose name is wanted and that feeds and reads it, and two more
that read it. -/
def entangledNodes : List Node :=
  [.make "Const" "taken" ["^weight"], .make "Placeholder" "x" [],
    .make "Const" "weight" ["^taken", "weight:1"],
    .make "Mul" "a" ["weight", "weight:2", "^weight"], .make "Relu" "b" ["weight", "taken:1"]]

/-- The constant that comes in takes the name of the first one, and waits for the old one. -/
def standIn : Node := .make "HostConst" "taken" ["^weight", "^b"]

theorem swap_outcome_entangledNodes :
    ∃ h, swapConstant standIn "weight" ["a", "weight", "a"] (build entangledNodes) = (.ok (), h) ∧
      h.nodes = [.make "Placeholder" "x" [], standIn,
        .make "Const" "weight" ["^taken", "taken:1"],
        .make "Mul" "a" ["taken", "taken:2", "^taken"], .make "Relu" "b" ["weight", "taken:1"]] ∧
      h.consumers "weight" = ["b", "taken"] ∧ h.check = .ok () := by
  obtain ⟨hiff, hout⟩ := @swap_outcome (build entangledNodes) standIn "weight"
    ["a", "weight", "a"] rfl (build_plainNames (by decide)) (build_consumersDistinct _) (by decide)
    (by decide)
  obtain ⟨h, hs⟩ := hiff.mpr ⟨by decide, by decide, by decide, by decide⟩
  obtain ⟨hswapped, hcheck⟩ := hout h hs
  exact ⟨h, hs, hswapped.nodes.trans (by decide), hswapped.consumers.trans (by decide), hcheck⟩

end Dataflow.Graph
