import Dataflow.Proofs.IndexOrder
import Dataflow.Proofs.Simplification

/- When a node is spliced out, its consumers may read its producer already, and they may include
   the producer and the node itself. On a consistent graph the outcome is the same plain rule in
   all these cases: the node is gone, whoever named it names its producer, and its consumers
   stand among those of the producer where it stood. `splice_outcome` says so, with what a splice
   asks for (`checkSplice_eq_ok_iff`), and that the graph stays consistent and acyclic. -/

namespace Dataflow.Graph

/-- What `h` is to `g` when `x` was spliced out towards its first input, whose text is `primary`. -/
structure Spliced (x primary : String) (g h : Graph) : Prop where
  /-- The other nodes stay in order. What was a data reference to `x` is the text of its first input,
  what was a control reference to `x` is one to the producer; nothing else is changed. -/
  nodes : h.nodes = (g.nodes.filter fun n => n.name != x).map fun n =>
    n.redirectInputs x fun r => if r.control then "^" ++ Reference.nodeOf primary else primary
  /-- The consumers of `x` stand in its place with the producer, each name where it came first. -/
  producer : h.consumers (Reference.nodeOf primary) =
    ((g.consumers (Reference.nodeOf primary)).flatMap fun c =>
      if c = x then (g.consumers x).filter (· != x) else [c]).eraseDups
  /-- Every other node has the consumers that it had, but for `x`. -/
  others : ∀ y, y ≠ x → y ≠ Reference.nodeOf primary →
    h.consumers y = (g.consumers y).filter (· != x)

variable {g h : Graph} {x y primary : String}

/-! ## What a splice asks for -/

/-- On a consistent graph all inputs and all recorded consumers are there, so that only the first
input and the number of inputs that are no constants are left to be checked. -/
theorem checkSplice_eq_ok_iff (hc : g.Closed) (hr : g.ConsumersReferring) :
    checkSplice x g = .ok primary ↔ ∃ n, g.node? x = some n ∧ n.inputs.head? = some primary ∧
      (Reference.parse primary).isData = true ∧ Reference.nodeOf primary ≠ x ∧
        n.inputNodes.countP g.namesNonConstant ≤ 1 := by
  rw [checkSplice_eq_ok]
  constructor
  · rintro ⟨n, hn, -, hcount, hh, hdata, hne, -⟩
    exact ⟨n, hn, hh, hdata, hne, hcount⟩
  · rintro ⟨n, hn, hh, hdata, hne, hcount⟩
    refine ⟨n, hn, fun p hp => hc x p ⟨n, hn, hp⟩, hcount, hh, hdata, hne, fun c hm => ?_⟩
    exact (consumersReferring_iff.mp hr c x hm).has

theorem pastSplice_eq (primary : String) : pastSplice primary =
    fun r => if r.control then "^" ++ Reference.nodeOf primary else primary := rfl

/-! ## What a splice leaves -/

theorem node?_bypass_kept (hg : g.Recorded) (hx : g.has x = true) (hy : y ≠ x) :
    (bypass x primary g).node? y =
      (g.node? y).map fun n => n.redirectInputs x (pastSplice primary) := by
  rw [node?_bypass_eq hg.consumersDistinct, if_neg hy]
  cases hn : g.node? y with
  | none => rfl
  | some n =>
    rw [Option.map_some, Option.map_some]
    split
    · rfl
    · rename_i hm
      have hnot : x ∉ n.inputNodes :=
        fun hi => hm (hg.presentInputsRecorded y x ⟨n, hn, hi⟩ hx)
      rw [redirectInputs_of_not_mem hnot]

theorem nodes_bypass (hg : g.Recorded) (hx : g.has x = true) : (bypass x primary g).nodes =
    (g.nodes.filter fun n => n.name != x).map fun n => n.redirectInputs x (pastSplice primary) := by
  rw [nodes_eq_filterMap, names_bypass, ← List.map_id (g.names.filter _)]
  refine filterMap_node? fun y n hn hy => ?_
  rw [id_eq, node?_bypass_kept hg hx (bne_iff_ne.mp hy), hn, Option.map_some]

/-- The graph in which the consumers of `x` read past it and are recorded with its producer, but `x`
is still there. -/
def pastNode (x primary : String) (g : Graph) : Graph :=
  (g.redirect (g.consumers x) x (pastSplice primary)).updateConsumers (Reference.nodeOf primary)
    fun e => (e.replaceConsumer x (g.consumers x)).consumers

theorem reads_pastNode (hp : Reference.isPlain (Reference.nodeOf primary) = true) (hy : y ≠ x)
    (hr : g.Reads x y) : (pastNode x primary g).Reads x y := by
  rw [pastNode, reads_congr (node?_updateConsumers _ _ _ x), reads_redirect (nodeOf_pastSplice hp)]
  by_cases hm : x ∈ g.consumers x
  · exact .inr ⟨hm, .inl ⟨hr, hy⟩⟩
  · exact .inl ⟨hm, hr⟩

theorem consumers_pastNode (ht : g.has y = true) :
    (pastNode x primary g).consumers y = if y = Reference.nodeOf primary then
      ((g.consumers y).flatMap (fun c => if c = x then g.consumers x else [c])
        ++ g.consumers x).eraseDups else g.consumers y := by
  rw [pastNode, consumers_updateConsumers]
  split
  · have hk := consumers_redirect g (g.consumers x) x (pastSplice primary) y
    obtain ⟨e, he⟩ := Option.isSome_iff_exists.mp
      ((has_redirect g (g.consumers x) x (pastSplice primary) y).trans ht)
    rw [consumers, he, Option.map_some, Option.getD_some] at hk
    rw [he, Option.map_some, Option.getD_some, Entry.replaceConsumer, hk]
  · exact consumers_redirect g _ _ _ y

/-- With the producer, the consumers of `x` other than `x` stand where it stood. -/
theorem consumers_bypass_primary (hg : g.Recorded) (hc : checkSplice x g = .ok primary) :
    (bypass x primary g).consumers (Reference.nodeOf primary) =
      ((g.consumers (Reference.nodeOf primary)).flatMap fun c =>
        if c = x then (g.consumers x).filter (· != x) else [c]).eraseDups := by
  have ht := has_primary hc
  obtain ⟨-, -, -, -, -, -, hne, -⟩ := checkSplice_eq_ok.mp hc
  have hrx := reads_primary hc
  have hx : x ∈ g.consumers (Reference.nodeOf primary) := hg.presentInputsRecorded x _ hrx ht
  -- Each part of the list loses `x`; it stood for itself only.
  have hpart : ∀ c, (if c = x then g.consumers x else [c]).filter (· != x) =
      if c = x then (g.consumers x).filter (· != x) else [c] := by
    intro c
    split
    · rfl
    · rename_i hcx
      simp [hcx]
  have hsub : (g.consumers x).filter (· != x) ⊆ (g.consumers (Reference.nodeOf primary)).flatMap
      fun c => if c = x then (g.consumers x).filter (· != x) else [c] := by
    intro c hm
    exact List.mem_flatMap.mpr ⟨x, hx, by rwa [if_pos rfl]⟩
  calc (bypass x primary g).consumers (Reference.nodeOf primary)
      = ((pastNode x primary g).consumers (Reference.nodeOf primary)).filter (· != x) :=
        consumers_detach_eq hne fun _ => reads_pastNode (hg.plainNames _ ht) hne hrx
    _ = (((g.consumers (Reference.nodeOf primary)).flatMap
          (fun c => if c = x then g.consumers x else [c])).filter (· != x)
            ++ (g.consumers x).filter (· != x)).eraseDups := by
        rw [consumers_pastNode ht, if_pos rfl, filter_eraseDups, List.filter_append]
    _ = _ := by
        rw [List.filter_flatMap]
        simp only [hpart]
        exact eraseDups_append_of_subset hsub

theorem consumers_bypass_other (hg : g.Recorded) (hr : g.ConsumersReferring)
    (hc : checkSplice x g = .ok primary) (hy : y ≠ x) (hyp : y ≠ Reference.nodeOf primary) :
    (bypass x primary g).consumers y = (g.consumers y).filter (· != x) := by
  have hpast : (pastNode x primary g).consumers y = g.consumers y := by
    rw [pastNode, consumers_updateConsumers, if_neg hyp, consumers_redirect]
  rw [← hpast]
  refine consumers_detach_eq hy fun hm => ?_
  have hread : g.Reads x y := consumersReferring_iff.mp hr x y (hpast ▸ hm)
  exact reads_pastNode (hg.plainNames _ (has_primary hc)) hy hread

theorem bypass_spliced (hg : g.Recorded) (hr : g.ConsumersReferring)
    (hc : checkSplice x g = .ok primary) : Spliced x primary g (bypass x primary g) where
  nodes := by rw [nodes_bypass hg (reads_primary hc).has, pastSplice_eq]
  producer := consumers_bypass_primary hg hc
  others _ := consumers_bypass_other hg hr hc

/-! ## Splicing -/

/-- On a consistent graph with plain names, whatever cycles it has, a node is spliced out exactly if it
is there, its first input is a data reference to another node, and at most one of its inputs names a
node that is no constant. What is left is the spliced graph; it is consistent, and acyclic if the graph
was. -/
theorem splice_outcome (hk : g.check = .ok ()) (hp : g.PlainNames) (hd : g.ConsumersDistinct)
    (x : String) :
    ((∃ primary h, splice x g = (.ok primary, h)) ↔
      ∃ n primary, g.node? x = some n ∧ n.inputs.head? = some primary ∧
        (Reference.parse primary).isData = true ∧ Reference.nodeOf primary ≠ x ∧
          n.inputNodes.countP g.namesNonConstant ≤ 1) ∧
    ∀ primary h, splice x g = (.ok primary, h) →
      (∃ n, g.node? x = some n ∧ n.inputs.head? = some primary) ∧ Spliced x primary g h ∧
        h.check = .ok () ∧ (g.Acyclic → h.Acyclic) := by
  have hg : g.Recorded := recorded_of_check hk hp hd
  have hr : g.ConsumersReferring := (check_eq_ok_iff.mp hk).2
  have hcheck : ∀ primary, checkSplice x g = .ok primary ↔ _ :=
    fun _ => checkSplice_eq_ok_iff hg.closed hr
  constructor
  · constructor
    · rintro ⟨primary, hs⟩
      obtain ⟨n, hn⟩ := (hcheck primary).mp (Edit.exists_guarded_eq_ok.mp hs)
      exact ⟨n, primary, hn⟩
    · rintro ⟨n, primary, hn⟩
      exact ⟨primary, Edit.exists_guarded_eq_ok.mpr ((hcheck primary).mpr ⟨n, hn⟩)⟩
  · intro primary h hs
    obtain ⟨hc, rfl⟩ := Edit.guarded_eq_ok.mp hs
    obtain ⟨n, hn, hh, -⟩ := (hcheck primary).mp hc
    have hm : Command.Moves (.splice x) g (bypass x primary g) := .splice hc
    refine ⟨⟨n, hn, hh⟩, bypass_spliced hg hr hc, ?_, fun ha => ?_⟩
    · exact hm.check ⟨trivial, fun _ hnew => by cases hnew⟩ hg hr not_false
    · exact (bypass_sound (sound_of_check hk hp hd ha) hc).acyclic

/-- A constant that waits for itself and passes on what a loop feeds it. The loop reads it, and itself
already. -/
def knottedNodes : List Node :=
  [.make "Merge" "loop" ["step:1", "loop"], .make "Const" "step" ["loop:2", "^step", "^seed"],
    .make "Relu" "out" ["^step", "step:3", "loop"], .make "Const" "seed" []]

theorem splice_outcome_knottedNodes :
    ∃ h, splice "step" (build knottedNodes) = (.ok "loop:2", h) ∧
      h.nodes = [.make "Merge" "loop" ["loop:2", "loop"],
        .make "Relu" "out" ["^loop", "loop:2", "loop"], .make "Const" "seed" []] ∧
      h.consumers "loop" = ["loop", "out"] ∧ h.consumers "seed" = [] ∧ h.check = .ok () := by
  obtain ⟨hiff, hout⟩ := splice_outcome (g := build knottedNodes) rfl (build_plainNames (by decide))
    (build_consumersDistinct _) "step"
  obtain ⟨primary, h, hs⟩ := hiff.mpr
    ⟨.make "Const" "step" ["loop:2", "^step", "^seed"], "loop:2", by decide⟩
  obtain ⟨⟨n, hn, hh⟩, hspliced, hcheck, -⟩ := hout primary h hs
  have hprimary : primary = "loop:2" := by
    have hnode : (build knottedNodes).node? "step" =
        some (.make "Const" "step" ["loop:2", "^step", "^seed"]) := by decide
    cases hn.symm.trans hnode
    exact (Option.some.inj hh).symm
  subst hprimary
  refine ⟨h, hs, hspliced.nodes.trans (by decide), hspliced.producer.trans (by decide), ?_, hcheck⟩
  exact (hspliced.others "seed" (by decide) (by decide)).trans (by decide)

end Dataflow.Graph
