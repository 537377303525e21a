import Dataflow.Proofs.IndexOrder

/- A new node may take the name of the old one, a fresh name, or the name of a third node, which
   then goes away first and may have stood on either side of the old one. Consumers may be listed
   in any order and more than once. On a consistent graph the outcome is one rule for all of
   these, as long as neither of the nodes that go away reads itself: `replace_outcome`, from
   `nodes_exchange` for the nodes in order and `consumers_exchange_new` for the consumers of the
   new one. -/

namespace Dataflow.Graph

/-- What `h` is to `g` when `new` stands for `old` with the listed consumers. -/
structure Replaced (new : Node) (old : String) (cs : List String) (g h : Graph) : Prop where
  /-- The new node has the slot of the old one, and a third node of its name is gone. What named the
  old node names the new one, through the same port and with the same control marker; nothing else
  is changed. -/
  nodes : h.nodes = (g.nodes.filter fun n => n.name == old || n.name != new.name).map fun n =>
    if n.name = old then new
    else n.redirectInputs old fun r => Reference.render ⟨new.name, r.control, r.port⟩
  /-- The consumers of the new node are those listed, then those of the third node but for the old
  one, then the new node if it reads itself; each name stands where it came first. -/
  consumers : h.consumers new.name =
    (cs ++ (if new.name = old then [] else (g.consumers new.name).filter (· != old))
      ++ if new.name ∈ new.inputNodes then [new.name] else []).eraseDups

variable {g h : Graph} {new : Node} {old : String} {cs : List String}

/-! ## What an exchange leaves -/

theorem node?_exchange_listed (hp : Reference.isPlain new.name = true) (ho : g.has old = true)
    (cs : List String) (y : String) : (exchange new old cs g).node? y =
      (if y = new.name then some new else if y = old then none else g.node? y).map fun n =>
        if y ∈ cs then n.redirectInputs old (renamed new.name) else n := by
  obtain ⟨position, he⟩ := exchange_eq new cs ho
  rw [he, node?_linkAll, node?_redirect_settled (settled_renamed hp old), node?_installed]
  by_cases hc : y ∈ cs
  · simp only [hc, if_true]
  · simp only [hc, if_false, Option.map_id']

/-- The nodes in order, where the new node is not listed and every reader of the old one is. -/
theorem nodes_exchange (hp : Reference.isPlain new.name = true) (ho : g.has old = true)
    (hnew : new.name ∉ cs) (hl : ∀ c, g.Reads c old → c = old ∨ c ∈ cs) :
    (exchange new old cs g).nodes =
      (g.nodes.filter fun n => n.name == old || n.name != new.name).map fun n =>
        if n.name = old then new else n.redirectInputs old (renamed new.name) := by
  rw [nodes_eq_filterMap, names_exchange cs ho]
  refine filterMap_node? fun y n hn hkeep => ?_
  rw [name_of_node? hn, node?_exchange_listed hp ho]
  by_cases hy : y = old
  · simp only [hy, if_true, Option.map_some, hnew, if_false]
  · have hyn : y ≠ new.name := by simpa [hy] using hkeep
    simp only [hy, hyn, if_false, hn, Option.map_some, Option.some.injEq]
    split
    · rfl
    · rename_i hm
      exact (redirectInputs_of_not_mem (fun hi => (hl y ⟨n, hn, hi⟩).elim hy hm) _).symm

theorem consumers_exchange_new (ho : g.has old = true) :
    (exchange new old cs g).consumers new.name = (seated new old cs g ++
      if new.name ∈ new.inputNodes then [new.name] else []).eraseDups := by
  obtain ⟨position, he⟩ := exchange_eq new cs ho
  rw [he]
  have hhas : ((installed new old cs position g).redirect cs old (renamed new.name)).has new.name
      = true := by
    rw [has_redirect]
    exact has_installed.mpr (.inl rfl)
  have hcons : ((installed new old cs position g).redirect cs old
      (renamed new.name)).consumers new.name = (seated new old cs g).eraseDups := by
    rw [consumers_redirect, installed, consumers_place]
    exact if_pos rfl
  rw [consumers_linkAll_eq hhas hcons]
  simp only [Node.mem_producerNames]

theorem exchange_replaced (hp : Reference.isPlain new.name = true) (ho : g.has old = true)
    (hnew : new.name ∉ cs) (hl : ∀ c, g.Reads c old → c = old ∨ c ∈ cs) :
    Replaced new old cs g (exchange new old cs g) where
  nodes := nodes_exchange hp ho hnew hl
  consumers := by
    have hskip : ∀ c : String, (some c != some old) = (c != old) := fun _ => rfl
    rw [consumers_exchange_new ho, seated]
    simp only [inherited, hskip]

/-! ## Replacing -/

/-- On a consistent graph with plain names in which neither the old node nor one of the new name reads
itself, a node is replaced exactly if it is there, every listed consumer reads it and, for a new name,
is neither of the two nodes that go away, all its consumers are listed, and every input of the new node
names the new node or one that is there and is not the old one. What is left is the replaced graph, and
it is consistent. -/
theorem replace_outcome (hk : g.check = .ok ()) (hp : g.PlainNames) (hd : g.ConsumersDistinct)
    (hn : Reference.isPlain new.name = true) (hold : ¬g.Reads old old)
    (hself : ¬g.Reads new.name new.name) :
    ((∃ h, replace new old cs g = (.ok (), h)) ↔ g.has old = true ∧
      (∀ c ∈ cs, g.Reads c old ∧ (new.name ≠ old → c ≠ new.name ∧ c ≠ old)) ∧
      (∀ c ∈ g.consumers old, c ∈ cs) ∧
      ∀ p ∈ new.inputNodes, p = new.name ∨ (g.has p = true ∧ p ≠ old)) ∧
    ∀ h, replace new old cs g = (.ok (), h) → Replaced new old cs g h ∧ h.check = .ok () := by
  have hg : g.Recorded := recorded_of_check hk hp hd
  have hr : g.ConsumersReferring := (check_eq_ok_iff.mp hk).2
  -- The old node is not among its own consumers.
  have hlisted : (∀ c ∈ g.consumers old, c = old ∨ c ∈ cs) ↔ ∀ c ∈ g.consumers old, c ∈ cs := by
    refine forall₂_congr fun c hc => or_iff_right fun hco => hold ?_
    exact consumersReferring_iff.mp hr old old (hco ▸ hc)
  constructor
  · rw [replace, Edit.exists_guarded_eq_ok, checkReplace_eq_ok, hlisted]
    simp only [and_comm (a := g.Reads _ old), and_comm (a := g.has _ = true)]
  · intro h hs
    obtain ⟨hc, rfl⟩ := Edit.guarded_eq_ok.mp hs
    obtain ⟨ho, hcs, hl, -⟩ := checkReplace_eq_ok.mp hc
    -- A node of the old name would have to read itself to be listed.
    have hnew : new.name ∉ cs := by
      intro hm
      by_cases hno : new.name = old
      · exact hself (hno ▸ (hcs _ hm).2)
      · exact ((hcs _ hm).1 hno).1 rfl
    have hstrands : ¬g.Strands (.replace new old cs) := by
      rintro ⟨-, hm⟩
      split at hm
      · exact hnew hm
      · exact hself (consumersReferring_iff.mp hr _ _ hm)
    have hm : Command.Moves (.replace new old cs) g (exchange new old cs g) := .replace hc
    refine ⟨exchange_replaced hn ho hnew fun c hread => ?_, ?_⟩
    · exact hl c (hg.presentInputsRecorded c old hread ho)
    · refine hm.check ⟨trivial, fun n hnode => ?_⟩ hg hr hstrands
      cases hnode
      exact hn

/-- A node whose name is wanted, one that is to go, and two that read both. -/
def contestedNodes : List Node :=
  [.make "Relu" "taken" ["x"], .make "Placeholder" "x" [], .make "Identity" "old" ["x"],
    .make "Relu" "a" ["old:1", "taken"], .make "Add" "b" ["^old", "old:2", "taken:1"]]

/-- The new node takes the name of the first one, and reads itself. -/
def taker : Node := .make "Merge" "taken" ["x:3", "taken:1"]

theorem replace_outcome_contestedNodes :
    ∃ h, replace taker "old" ["b", "a", "b"] (build contestedNodes) = (.ok (), h) ∧
      h.nodes = [.make "Placeholder" "x" [], taker, .make "Relu" "a" ["taken:1", "taken"],
        .make "Add" "b" ["^taken", "taken:2", "taken:1"]] ∧
      h.consumers "taken" = ["b", "a", "taken"] ∧ h.check = .ok () := by
  have hs : replace taker "old" ["b", "a", "b"] (build contestedNodes) = (.ok (), _) :=
    Edit.guarded_eq_ok.mpr ⟨rfl, rfl⟩
  obtain ⟨-, hout⟩ := @replace_outcome (build contestedNodes) taker "old" ["b", "a", "b"] rfl
    (build_plainNames (by decide)) (build_consumersDistinct _) (by decide) (by decide) (by decide)
  obtain ⟨hreplaced, hcheck⟩ := hout _ hs
  exact ⟨_, hs, hreplaced.nodes.trans (by decide), hreplaced.consumers.trans (by decide), hcheck⟩

end Dataflow.Graph
