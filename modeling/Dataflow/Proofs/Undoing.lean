import Dataflow.Proofs.Inserting
import Dataflow.Proofs.SpliceOrder

/- An insertion turns references to a producer into references to the new node, and a splice of
   the new node turns these into the text of its first input. The port of a reference is lost on
   the way there, so that only references to port 0 and control references come back as they were
   (`readPast_towards`); those, and only those, are written as the bare name or as the name after
   the control marker. `splice_insert` undoes an insertion by splicing the new node out. -/

namespace Dataflow.Graph

variable {g : Graph} {new : Node} {p name : String} {cs : List String}

/-! ## An input there and back -/

theorem parse_toNode {node : String} (hn : Reference.isPlain node = true) (control : Bool) :
    Reference.parse (Reference.toNode node control) = ⟨node, control, 0⟩ := by
  have hr := Reference.parse_render (r := ⟨node, control, 0⟩) hn
  simp only [ite_self] at hr
  exact hr

theorem pastSplice_self (hp : Reference.isPlain p = true) (r : Reference) :
    pastSplice p r = Reference.toNode p r.control := by
  have hnode : Reference.nodeOf p = p := congrArg Reference.node (Reference.parse_render_plain hp)
  rw [pastSplice, hnode]
  cases r.control <;> rfl

/-- A reference to port 0 of `p`, or a control reference to it, that was diverted to a node reads as it
did once that node is spliced out towards `p`. -/
theorem readPast_towards (hp : Reference.isPlain p = true) (hn : Reference.isPlain name = true)
    (control : Bool) : readPast name p
      (Node.redirectInput p (towards name) (Reference.toNode p control)) =
        Reference.toNode p control := by
  have hthere : Node.redirectInput p (towards name) (Reference.toNode p control) =
      Reference.toNode name control := by
    have hnode : Reference.nodeOf (Reference.toNode p control) = p :=
      congrArg Reference.node (parse_toNode hp control)
    rw [redirectInput_of_eq hnode, parse_toNode hp]
    rfl
  have hname : Reference.nodeOf (Reference.toNode name control) = name :=
    congrArg Reference.node (parse_toNode hn control)
  calc readPast name p (Node.redirectInput p (towards name) (Reference.toNode p control))
      = readPast name p (Reference.toNode name control) := by rw [hthere]
    _ = pastSplice p (Reference.parse (Reference.toNode name control)) := readPast_of_eq hname
    _ = pastSplice p ⟨name, control, 0⟩ := by rw [parse_toNode hn]
    _ = Reference.toNode p control := pastSplice_self hp _

/-- Every reference of a node to `p` is written as the bare name, or as the name after the control
marker. -/
def NamesBare (p : String) (n : Node) : Prop :=
  ∀ i ∈ n.inputs, Reference.nodeOf i = p → i = p ∨ i = "^" ++ p

instance (p : String) (n : Node) : Decidable (NamesBare p n) :=
  inferInstanceAs (Decidable (∀ i ∈ n.inputs, Reference.nodeOf i = p → i = p ∨ i = "^" ++ p))

theorem exists_toNode {n : Node} {i : String} (hb : NamesBare p n) (hi : i ∈ n.inputs)
    (hp : Reference.nodeOf i = p) : ∃ control, i = Reference.toNode p control := by
  rcases hb i hi hp with hdata | hcontrol
  · exact ⟨false, hdata⟩
  · exact ⟨true, hcontrol⟩

theorem redirectInputs_behind {n : Node} (hp : Reference.isPlain p = true)
    (hn : Reference.isPlain name = true) (hfree : name ∉ n.inputNodes)
    (hb : n.name ∈ cs → NamesBare p n) :
    (behind name (some p) cs n).redirectInputs name (pastSplice p) = n := by
  by_cases hm : n.name ∈ cs
  · have hbehind : behind name (some p) cs n = n.redirectInputs p (towards name) := if_pos hm
    have hinput : ∀ i ∈ n.inputs,
        readPast name p (Node.redirectInput p (towards name) i) = i := by
      intro i hi
      by_cases hip : Reference.nodeOf i = p
      · obtain ⟨control, rfl⟩ := exists_toNode (hb hm) hi hip
        exact readPast_towards hp hn control
      · have hother : Reference.nodeOf i ≠ name :=
          fun hin => hfree (List.mem_map.mpr ⟨i, hi, hin⟩)
        rw [redirectInput_of_ne hip, readPast_of_ne hother]
    have hmap : (n.inputs.map (Node.redirectInput p (towards name))).map (readPast name p) =
        n.inputs := by
      rw [List.map_map]
      refine (List.map_congr_left fun i hi => ?_).trans (List.map_id n.inputs)
      rw [Function.comp_apply, hinput i hi, id_eq]
    rw [hbehind]
    exact congrArg (fun inputs : List String => { n with inputs := inputs }) hmap
  · have hbehind : behind name (some p) cs n = n := if_neg hm
    rw [hbehind, redirectInputs_of_not_mem hfree]

theorem behind_name (producer? : Option String) (n : Node) :
    (behind name producer? cs n).name = n.name := by
  unfold behind
  split
  · rfl
  · split <;> rfl

/-! ## A graph there and back -/

theorem nodes_bypass_interpose (hc : g.Closed) (hp : Reference.isPlain p = true)
    (hn : Reference.isPlain new.name = true) (hne : p ≠ new.name)
    (hfree : ¬g.has new.name = true) (hb : ∀ n ∈ g.nodes, n.name ∈ cs → NamesBare p n)
    (hk : (interpose new (some p) cs g).Recorded) :
    (bypass new.name p (interpose new (some p) cs g)).nodes = g.nodes := by
  have hnodes := @nodes_interpose g new (some p) cs (fun q hq => Option.some.inj hq ▸ hne) hn
  have hhas : (interpose new (some p) cs g).has new.name = true := by
    rw [has_iff, names_interpose]
    simp
  have hother : ∀ n ∈ g.nodes, n.name ≠ new.name :=
    fun n hm he => hfree (he ▸ has_of_node? (node?_of_mem_nodes hm))
  have hunread : ∀ n ∈ g.nodes, new.name ∉ n.inputNodes :=
    fun n hm hi => hfree (hc n.name _ ⟨n, node?_of_mem_nodes hm, hi⟩)
  have hall : (g.nodes.filter fun n => n.name != new.name) = g.nodes :=
    List.filter_eq_self.mpr fun n hm => bne_iff_ne.mpr (hother n hm)
  have hkept : ((g.nodes.map (behind new.name (some p) cs) ++ [new]).filter
      fun n => n.name != new.name) = g.nodes.map (behind new.name (some p) cs) := by
    rw [List.filter_append, List.filter_map]
    have hcomp : ((fun n : Node => n.name != new.name) ∘ behind new.name (some p) cs) =
        fun n => n.name != new.name := funext fun n => by rw [Function.comp_apply, behind_name]
    simp [hcomp, hall]
  rw [nodes_bypass hk hhas, hnodes, hall, hkept, List.map_map]
  refine (List.map_congr_left fun n hm => ?_).trans (List.map_id g.nodes)
  exact redirectInputs_behind hp hn (hunread n hm) (hb n hm)

/-! ## Inserting and splicing -/

theorem inputNodes_of_singleton (hp : Reference.isPlain p = true) (hin : new.inputs = [p]) :
    new.inputNodes = [p] := by
  have hnode : Reference.nodeOf p = p := congrArg Reference.node (Reference.parse_render_plain hp)
  rw [Node.inputNodes, hin, List.map_singleton, hnode]

theorem checkInsert_of_consumers (hr : g.ConsumersReferring) (ht : g.has p = true)
    (hfree : ¬g.has new.name = true) (hin : new.inputNodes = [p])
    (hcs : ∀ c ∈ cs, c ∈ g.consumers p) : checkInsert new (some p) cs g = .ok () := by
  refine checkInsert_eq_ok.mpr ⟨?_, ?_, ?_⟩
  · intro q hq
    cases hq
    exact ⟨ht, fun he => hfree (he ▸ ht)⟩
  · intro c hc
    have hread : g.Reads c p := consumersReferring_iff.mp hr c p (hcs c hc)
    exact ⟨fun he => hfree (he ▸ hread.has), hread⟩
  · intro q hq
    rw [hin, List.mem_singleton] at hq
    exact .inr (hq ▸ ht)

/-- A node of a new name strands no consumer. -/
theorem consistent_interpose (hg : g.Recorded) (hr : g.ConsumersReferring)
    (hn : Reference.isPlain new.name = true) (hfree : ¬g.has new.name = true)
    (hc : checkInsert new (some p) cs g = .ok ()) :
    (interpose new (some p) cs g).Recorded ∧
      (interpose new (some p) cs g).ConsumersReferring := by
  have hm : Command.Moves (.insert new (some p) cs) g (interpose new (some p) cs g) := .insert hc
  have hplain : (Command.insert new (some p) cs).Plain := by
    intro m hnew
    cases hnew
    exact hn
  have hstrands : ¬g.Strands (.insert new (some p) cs) :=
    fun hx => hfree (has_of_mem_consumers hx.2)
  refine ⟨hm.recorded ⟨trivial, hplain⟩ hg, ?_⟩
  exact (hm.consumersReferring_iff ⟨trivial, hplain⟩ hg.plainNames hr).mpr hstrands

theorem checkSplice_interpose (hk : (interpose new (some p) cs g).Consistent)
    (hp : Reference.isPlain p = true) (hn : Reference.isPlain new.name = true)
    (hne : p ≠ new.name) (hin : new.inputs = [p]) :
    checkSplice new.name (interpose new (some p) cs g) = .ok p := by
  have hnew : (interpose new (some p) cs g).node? new.name = some new :=
    (node?_interpose (fun q hq => Option.some.inj hq ▸ hne) hn _).trans (if_pos rfl)
  have hparse : Reference.parse p = ⟨p, false, 0⟩ := Reference.parse_render_plain hp
  refine (checkSplice_eq_ok_iff (inputsRecorded_iff.mp hk.1).1 hk.2).mpr ⟨new, hnew, ?_, ?_, ?_, ?_⟩
  · rw [hin, List.head?_cons]
  · rw [hparse]
    rfl
  · rw [Reference.nodeOf, hparse]
    exact hne
  · rw [inputNodes_of_singleton hp hin]
    exact List.countP_le_length

/-- On a consistent graph with plain names, a node of a new name that is put between a node `p` and
consumers of `p` can be spliced out again, if those consumers name `p` without a port. What is left has
the nodes of the graph that it was, in order, and the same consumers for each of them. -/
theorem splice_insert (hk : g.check = .ok ()) (hp : g.PlainNames) (hd : g.ConsumersDistinct)
    (ht : g.has p = true) (hn : Reference.isPlain new.name = true)
    (hfree : ¬g.has new.name = true) (hin : new.inputs = [p]) (hcs : ∀ c ∈ cs, c ∈ g.consumers p)
    (hb : ∀ c ∈ cs, ∀ n, g.node? c = some n → NamesBare p n) :
    ∃ k h, insert new (some p) cs g = (.ok (), k) ∧ splice new.name k = (.ok p, h) ∧
      h.nodes = g.nodes ∧ ∀ a b, a ∈ h.consumers b ↔ a ∈ g.consumers b := by
  have hg : g.Recorded := recorded_of_check hk hp hd
  have hr : g.ConsumersReferring := (check_eq_ok_iff.mp hk).2
  have hplain : Reference.isPlain p = true := hp p ht
  have hne : p ≠ new.name := fun he => hfree (he ▸ ht)
  have hci : checkInsert new (some p) cs g = .ok () :=
    checkInsert_of_consumers hr ht hfree (inputNodes_of_singleton hplain hin) hcs
  obtain ⟨hkg, hkr⟩ := consistent_interpose hg hr hn hfree hci
  have hsp : checkSplice new.name (interpose new (some p) cs g) = .ok p :=
    checkSplice_interpose ⟨hkg.inputsRecorded, hkr⟩ hplain hn hne hin
  have hnodes : (bypass new.name p (interpose new (some p) cs g)).nodes = g.nodes :=
    nodes_bypass_interpose hg.closed hplain hn hne hfree
      (fun n hm hc => hb n.name hc n (node?_of_mem_nodes hm)) hkg
  -- Both graphs are consistent, so that the nodes tell the consumers.
  have hconsistent : (bypass new.name p (interpose new (some p) cs g)).Consistent :=
    consistent_bypass hkg hkr hsp
  refine ⟨_, _, Edit.guarded_eq_ok.mpr ⟨hci, rfl⟩, Edit.guarded_eq_ok.mpr ⟨hsp, rfl⟩, hnodes, ?_⟩
  exact fun a b => mem_consumers_iff_of_nodes hconsistent (check_eq_ok_iff.mp hk) hnodes

/-- A loop that feeds itself several times; its readers name it through ports, twice, and wait for
it. -/
def loopedNodes : List Node :=
  [.make "Merge" "loop" ["loop", "start", "^loop"], .make "Const" "start" [],
    .make "Add" "sum" ["loop", "loop", "^loop", "start:1"], .make "Relu" "out" ["loop:1", "sum"]]

theorem splice_insert_loopedNodes : ∃ k h,
    insert (.make "Identity" "tap" ["loop"]) (some "loop") ["sum", "loop", "sum"]
      (build loopedNodes) = (.ok (), k) ∧ splice "tap" k = (.ok "loop", h) ∧
    h.nodes = loopedNodes ∧
    (∀ a b, a ∈ h.consumers b ↔ a ∈ (build loopedNodes).consumers b) := by
  have hbare : ∀ c ∈ ["sum", "loop", "sum"], ∀ n ∈ (build loopedNodes).node? c,
      NamesBare "loop" n := by decide
  exact @splice_insert (build loopedNodes) (.make "Identity" "tap" ["loop"]) "loop"
    ["sum", "loop", "sum"] rfl (build_plainNames (by decide)) (build_consumersDistinct _)
    (by decide) (by decide) (by decide) rfl (by decide) hbare

end Dataflow.Graph
