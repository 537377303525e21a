import Dataflow.Proofs.FixedPoints

/- Folding visits the arithmetic nodes of a graph in order. Each is looked at in the graph that
   the visits before it left: an earlier fold may have made an operand of it, or may have taken a
   constant away. `Visits` is such a run, with what happens at each visit; the constants that
   come in hold the results element by element (`results_of_folded`). On a graph built from any
   nodes folding is a run over all of its sites, or one up to a site that overruns
   (`run_build_visits`), and `run_cutShort` shows that the latter is met. -/

namespace Dataflow

open Dataflow.Graph DenseArray

namespace Pass.FoldBinaryConstants

variable {g h k : Graph} {m n c : Node} {o : Operation} {name : String}

/-! ## What folds -/

/-- The operands broadcast, to a shape that can be laid out. -/
def Operation.Broadcasts (o : Operation) : Prop :=
  ∃ shape, Shape.broadcast? o.left.shape o.right.shape = some shape ∧
    Shape.fitsLayout shape = true

/-- The constant holds the results of an operation: in the common shape, what the operation gives at every
index on the elements that the operands show there. It is kept in host memory if an operand is. -/
structure Operation.Results (o : Operation) (c : Node) : Prop where
  value : ∃ z : DenseArray Binary32, c.constantValue = .ok (.float z) ∧
    Shape.broadcast? o.left.shape o.right.shape = some z.shape ∧
    ∀ index, InBounds z.shape index → ∃ x y, o.left.get? (project o.left.shape index) = some x ∧
      o.right.get? (project o.right.shape index) = some y ∧
        z.get? index = some (o.arithmetic.apply x y)
  placement : c.op = Op.hostConst ↔ o.leftNode.op = Op.hostConst ∨ o.rightNode.op = Op.hostConst

theorem Operation.op_placement (o : Operation) : o.placement.op = Op.hostConst ↔
    o.leftNode.op = Op.hostConst ∨ o.rightNode.op = Op.hostConst := by
  unfold Operation.placement
  split
  · rename_i h
    exact iff_of_true rfl h
  · rename_i h
    exact iff_of_false (by decide) h

theorem results_of_folded (hf : folded? g n = .ok (some c)) :
    ∃ o, Performs g n o ∧ o.Broadcasts ∧ o.Results c := by
  obtain ⟨o, z, ho, hz, hc⟩ := folded?_eq_some.mp hf
  obtain ⟨hb, hfit, -⟩ := zipBroadcast?_isBroadcast hz
  have hs := broadcast?_of_zipBroadcast? hz
  refine ⟨o, ho, ⟨z.shape, hs, hfit⟩, ?_, ?_⟩
  · exact ⟨z, Node.constantValue_constant hc rfl hfit, hs, hb.element⟩
  · rw [(Node.op_constant hc).2.1]
    exact o.op_placement

theorem folded_or_overruns {o : Operation} (ho : Performs g n o) (hb : o.Broadcasts) :
    (∃ c, folded? g n = .ok (some c)) ∨ Overruns g n := by
  obtain ⟨shape, hs, hfit⟩ := hb
  cases hbytes : Shape.fitsBytes Storage.float.width shape with
  | false =>
    refine .inr (.result ho ⟨shape, hs, hfit, ?_⟩)
    simpa [Shape.fitsBytes] using hbytes
  | true =>
    obtain ⟨z, hz, -⟩ := @exists_zipBroadcast? _ _ _ _ o.arithmetic.apply _ _ _ hs hfit hbytes
    obtain ⟨c, hc⟩ := @exists_constant n.name o z hz
    exact .inl ⟨c, folded?_eq_some.mpr ⟨o, z, ho, hz, hc⟩⟩

theorem bare_of_folded (hf : folded? g n = .ok (some c)) : c.bare = c := by
  obtain ⟨o, z, -, -, hc⟩ := folded?_eq_some.mp hf
  have hi : c.inputs = [] := (Node.op_constant hc).2.2
  cases c
  cases hi
  rfl

/-! ## Visits -/

/-- Folding the node leads from `g` to `h`: a constant with the results of the operation that it performs
stands under its name. -/
structure Folds (g : Graph) (n : Node) (o : Operation) (c : Node) (h : Graph) : Prop where
  performs : Performs g n o
  broadcasts : o.Broadcasts
  fold : Graph.fold c n.name g = (.ok (), h)
  node : h.node? n.name = some c
  results : o.Results c

/-- A run of folding leads from `g` to `h`, past the listed nodes and with the named ones folded. Each node
is still there when it is reached, with the operation it had, and does not overrun. It is folded if it
performs an operation whose operands broadcast, and left alone otherwise. -/
inductive Visits : Graph → List Node → List String → Graph → Prop where
  | done (g : Graph) : Visits g [] [] g
  | fold {g h k : Graph} {m n c : Node} {o : Operation} {sites : List Node} {folded : List String} :
    g.node? m.name = some n → n.op = m.op → ¬Overruns g n → Folds g n o c h →
      Visits h sites folded k → Visits g (m :: sites) (m.name :: folded) k
  | keep {g k : Graph} {m n : Node} {sites : List Node} {folded : List String} :
    g.node? m.name = some n → n.op = m.op → ¬Overruns g n →
      (∀ o, Performs g n o → ¬o.Broadcasts) → Visits g sites folded k →
        Visits g (m :: sites) folded k

/-- The node is still there, with the operation it had, and overruns. -/
def Stops (g : Graph) (m : Node) : Prop :=
  ∃ n, g.node? m.name = some n ∧ n.op = m.op ∧ Overruns g n

theorem folds_of_folded (hg : g.Workable) (hn : g.node? name = some n) (hf : folded? g n = .ok (some c)) :
    ∃ o, Folds g n o c (collapse c.bare name g) := by
  obtain ⟨o, ho, hb, hres⟩ := results_of_folded hf
  have hname : n.name = name := name_of_node? hn
  refine ⟨o, ho, hb, ?_, ?_, hres⟩
  · rw [hname]
    exact Edit.guarded_eq_ok.mpr ⟨hg.checkFold hn hf, rfl⟩
  · rw [hname, node?_folded hg.consumersDistinct hn hf, bare_of_folded hf]

def Awaits (g : Graph) (sites : List Node) : Prop :=
  ∀ m ∈ sites, m.op ∈ Op.foldables ∧ ∃ n, g.node? m.name = some n ∧ n.op = m.op

/-- A fold takes none of the nodes away that are still to be visited: what it takes with it are
constants. -/
theorem Awaits.collapse {sites : List Node} (hw : Awaits g sites) (hg : g.Workable)
    (hn : g.node? name = some n) (hf : folded? g n = .ok (some c)) (hne : name ∉ sites.map Node.name) :
    Awaits (collapse c.bare name g) sites := by
  intro m hm
  obtain ⟨hop, l, hl, hlop⟩ := hw m hm
  refine ⟨hop, ?_⟩
  have hmn : m.name ≠ name := fun heq => hne (heq ▸ List.mem_map_of_mem hm)
  have hnc : g.namesNonConstant m.name = true :=
    namesNonConstant_of_op hl (Op.isConstant_of_foldables _ (hlop ▸ hop))
  rw [node?_collapse_of_namesNonConstant hg.consumersDistinct hn hf hnc hmn, hl, Option.map_some]
  refine ⟨_, rfl, ?_⟩
  split <;> exact hlop

theorem attemptAll_cons {attempt : String → Edit PassResult} {rest : List String} {s r : PassResult}
    (ha : attempt name g = (.ok s, h)) (hr : attemptAll attempt rest h = (.ok r, k)) :
    attemptAll attempt (name :: rest) g = (.ok (s.merge r), k) := by
  rw [attemptAll, Edit.bind_apply ha, Edit.bind_apply hr]
  rfl

theorem attemptAll_cons_error {attempt : String → Edit PassResult} {rest : List String}
    {s : PassResult} {e : Error} (ha : attempt name g = (.ok s, h))
    (hr : attemptAll attempt rest h = (.error e, k)) :
    attemptAll attempt (name :: rest) g = (.error e, k) := by
  rw [attemptAll, Edit.bind_apply ha]
  exact Edit.bind_error hr

/-- Folding leads from a graph over all of the sites, or up to one at which it stops. -/
def Runs (g : Graph) (sites : List Node) : Prop :=
  (∃ r h, attemptAll attempt (sites.map Node.name) g = (.ok r, h) ∧ Visits g sites r.touched h) ∨
    ∃ before m rest folded h, sites = before ++ m :: rest ∧
      attemptAll attempt (sites.map Node.name) g = (.error (.overrun .bytes), h) ∧
      Visits g before folded h ∧ Stops h m

theorem Runs.cons {m : Node} {sites : List Node} {s : PassResult}
    (ha : attempt m.name g = (.ok s, h))
    (hv : ∀ {sites folded k}, Visits h sites folded k → Visits g (m :: sites) (s.touched ++ folded) k)
    (hr : Runs h sites) : Runs g (m :: sites) := by
  rcases hr with ⟨r, k, hr, hk⟩ | ⟨before, l, rest, folded, k, rfl, hr, hk, hl⟩
  · exact .inl ⟨s.merge r, k, attemptAll_cons ha hr, hv hk⟩
  · exact .inr ⟨m :: before, l, rest, _, k, rfl, attemptAll_cons_error ha hr, hv hk, hl⟩

/-- Looking at nodes one after the other is a run of folding over them. -/
theorem runs_attemptAll : ∀ {sites : List Node} {g : Graph}, g.Workable →
    (sites.map Node.name).Nodup → Awaits g sites → Runs g sites
  | [], g, _, _, _ => .inl ⟨.empty, g, rfl, .done g⟩
  | m :: sites, g, hg, hd, hw => by
    obtain ⟨hm, hd⟩ := List.nodup_cons.mp hd
    obtain ⟨-, n, hn, hop⟩ := hw m List.mem_cons_self
    have hrest : Awaits g sites := fun l hl => hw l (List.mem_cons_of_mem m hl)
    have hat := foldedAt?_of_node? hn
    cases hf : folded? g n with
    | error e =>
      obtain ⟨rfl, hover⟩ := folded?_eq_error.mp hf
      refine .inr ⟨[], m, sites, [], g, rfl, ?_, .done g, n, hn, hop, hover⟩
      exact Edit.bind_error (attempt_error (hat.trans hf))
    | ok c? =>
      have hover : ¬Overruns g n := fun h => by
        cases hf.symm.trans (folded?_eq_error.mpr ⟨rfl, h⟩)
      cases c? with
      | none =>
        have hnone : ∀ o, Performs g n o → ¬o.Broadcasts := by
          intro o ho hb
          obtain ⟨c, hc⟩ := (folded_or_overruns ho hb).resolve_right hover
          cases hf.symm.trans hc
        exact .cons (attempt_none (hat.trans hf)) (.keep hn hop hover hnone)
          (runs_attemptAll hg hd hrest)
      | some c =>
        obtain ⟨o, hfolds⟩ := folds_of_folded hg hn hf
        exact .cons (attempt_some (hat.trans hf) (hg.checkFold hn hf)) (.fold hn hop hover hfolds)
          (runs_attemptAll (hg.collapse hn hf) hd (hrest.collapse hg hn hf hm))

/-- On a graph built from nodes with plain names folding is not refused. It visits the nodes that can be
folded in their order, and folds those that perform an operation whose operands broadcast by then. It
ends after the last of them, or at the first that overruns. -/
theorem run_build_visits {ns : List Node} (hns : ∀ n ∈ ns, Reference.isPlain n.name = true) :
    (∃ r h, foldBinaryConstants.run (build ns) = (.ok r, h) ∧ Visits (build ns)
      ((build ns).nodes.filter fun n => Op.foldables.contains n.op) r.touched h) ∨
    ∃ before m rest folded h, (build ns).nodes.filter (fun n => Op.foldables.contains n.op) =
        before ++ m :: rest ∧
      foldBinaryConstants.run (build ns) = (.error (.overrun .bytes), h) ∧
      Visits (build ns) before folded h ∧ Stops h m := by
  refine runs_attemptAll (build_workable hns) ?_ fun m hm => ?_
  · exact nodup_names_nodesByOps (build ns) Op.foldables
  · obtain ⟨hmem, hop⟩ := List.mem_filter.mp hm
    exact ⟨List.contains_iff_mem.mp hop, m, node?_of_mem_nodes hmem, rfl⟩

def filledNode (name : String) (shape : List Int64) (placement : Placement) : Node :=
  ((Node.constant name (.float (.scalar .one)) .float (some shape) placement).toOption).getD default

/-- A product that reads a sum, which has to be folded for it, and an operand of the sum. -/
def tableNodes : List Node :=
  [filledNode "column" [2, 1] .cpu, filledNode "row" [3] .accelerator,
    .make "Add" "table" ["column", "row"], .make "Mul" "scaled" ["table:0", "column"]]

theorem run_build_visits_tableNodes : ∃ r h,
    foldBinaryConstants.run (build tableNodes) = (.ok r, h) ∧ r.touched = ["table", "scaled"] ∧
      Visits (build tableNodes) [.make "Add" "table" ["column", "row"],
        .make "Mul" "scaled" ["table:0", "column"]] r.touched h := by
  have hns : ∀ n ∈ tableNodes, Reference.isPlain n.name = true := by decide
  have hrun : (foldBinaryConstants.run (build tableNodes)).1 = .ok ⟨2, 2, 3, ["table", "scaled"]⟩ := by
    decide +kernel
  rcases run_build_visits hns with ⟨r, h, hr, hv⟩ | ⟨_, _, _, _, h, -, hr, -⟩
  · rw [hr] at hrun
    cases hrun
    exact ⟨_, h, hr, rfl, hv⟩
  · rw [hr] at hrun
    cases hrun

/-- A sum with an operand that cannot be allocated, and a product that could be folded. -/
def cutShort : List Node :=
  [Pipeline.onesNode, Pipeline.oneNode, .make "Add" "vast" ["ones", "one"],
    .make "Mul" "small" ["one", "one"]]

theorem run_cutShort : (∀ n ∈ cutShort, Reference.isPlain n.name = true) ∧
    (foldBinaryConstants.run (build cutShort)).1 = .error (.overrun .bytes) := by
  decide +kernel

end Pass.FoldBinaryConstants
end Dataflow
