import Dataflow.Proofs.Rebuilding
import Dataflow.Proofs.Splicing

/- A splice substitutes the text of the first input of a node for the references to that node.
   When two nodes are spliced out and one is the first input of the other, the text that the
   second splice substitutes was changed by the first one, or the first one brings in references
   that the second one has to change. Either way a reference ends up as the same text
   (`readPast_comm`): this is the substitution lemma, for terms that are inputs. From it come the
   nodes that are left (`nodes_bypass_comm`) and two splices that succeed in either order
   (`splice_comm`). -/

namespace Dataflow.Graph

variable {g h h' k l : Graph} {x y p q i : String}

/-! ## An input under two splices -/

def readPast (x p input : String) : String := Node.redirectInput x (pastSplice p) input

theorem readPast_of_eq (hi : Reference.nodeOf i = x) :
    readPast x p i = pastSplice p (Reference.parse i) := redirectInput_of_eq hi

theorem readPast_of_ne (hi : Reference.nodeOf i ≠ x) : readPast x p i = i :=
  redirectInput_of_ne hi

theorem pastSplice_of_isData {r : Reference} (hr : r.isData = true) : pastSplice p r = p := by
  rw [Reference.isData, Bool.not_eq_true'] at hr
  rw [pastSplice, hr]
  rfl

/-- What a splice puts for a reference is changed by another splice as its first input is: a control
reference carries nothing of that input but the name. -/
theorem readPast_pastSplice (hp : Reference.isPlain (Reference.nodeOf p) = true)
    (hd : (Reference.parse p).isData = true) (r : Reference) :
    readPast y q (pastSplice p r) = pastSplice (readPast y q p) r := by
  cases hr : r.control with
  | false =>
    have hdata : r.isData = true := by rw [Reference.isData, hr]; rfl
    rw [pastSplice_of_isData hdata, pastSplice_of_isData hdata]
  | true =>
    have hcontrol : ∀ t, pastSplice t r = Reference.toNode (Reference.nodeOf t) true :=
      fun t => if_pos hr
    have hparse : Reference.parse (pastSplice p r) = ⟨Reference.nodeOf p, true, 0⟩ := by
      rw [hcontrol]
      exact Reference.parse_render (r := ⟨Reference.nodeOf p, true, 0⟩) hp
    have hnode : Reference.nodeOf (pastSplice p r) = Reference.nodeOf p := nodeOf_pastSplice hp r
    by_cases hy : Reference.nodeOf p = y
    · calc readPast y q (pastSplice p r)
          = pastSplice q (Reference.parse (pastSplice p r)) := readPast_of_eq (hnode.trans hy)
        _ = pastSplice q r := by rw [hparse, hcontrol]; rfl
        _ = pastSplice (readPast y q p) r := by rw [readPast_of_eq hy, pastSplice_of_isData hd]
    · rw [readPast_of_ne hy, readPast_of_ne (hnode ▸ hy)]

/-- The first inputs `p` of `x` and `q` of `y` do not both name the other node. -/
def Unlocked (x y p q : String) : Prop := Reference.nodeOf p = y → Reference.nodeOf q ≠ x

theorem Unlocked.symm (hu : Unlocked x y p q) : Unlocked y x q p :=
  fun hq hp => hu hp hq

/-- If the first input of `x` is `y`, then the splice of `x` leaves the first input of `y` alone. -/
theorem Unlocked.readPast_eq (hu : Unlocked x y p q) :
    readPast y (readPast x p q) p = readPast y q p := by
  by_cases hy : Reference.nodeOf p = y
  · rw [readPast_of_ne (hu hy)]
  · rw [readPast_of_ne hy, readPast_of_ne hy]

theorem readPast_comm_of_eq (hne : x ≠ y) (hu : Unlocked x y p q)
    (hp : Reference.isPlain (Reference.nodeOf p) = true)
    (hd : (Reference.parse p).isData = true) (hi : Reference.nodeOf i = x) :
    readPast y (readPast x p q) (readPast x p i) =
      readPast x (readPast y q p) (readPast y q i) := by
  calc readPast y (readPast x p q) (readPast x p i)
      = readPast y (readPast x p q) (pastSplice p (Reference.parse i)) := by
        rw [readPast_of_eq (p := p) hi]
    _ = pastSplice (readPast y (readPast x p q) p) (Reference.parse i) :=
        readPast_pastSplice hp hd _
    _ = pastSplice (readPast y q p) (Reference.parse i) := by rw [hu.readPast_eq]
    _ = readPast x (readPast y q p) i := (readPast_of_eq hi).symm
    _ = readPast x (readPast y q p) (readPast y q i) := by
        rw [readPast_of_ne (i := i) (x := y) (fun hy => hne (hi.symm.trans hy))]

/-- Two splices change an input to the same text in either order. The one that comes second is made
towards a first input that the other one has changed. -/
theorem readPast_comm (hne : x ≠ y) (hu : Unlocked x y p q)
    (hp : Reference.isPlain (Reference.nodeOf p) = true)
    (hq : Reference.isPlain (Reference.nodeOf q) = true)
    (hpd : (Reference.parse p).isData = true) (hqd : (Reference.parse q).isData = true)
    (i : String) :
    readPast y (readPast x p q) (readPast x p i) =
      readPast x (readPast y q p) (readPast y q i) := by
  by_cases hx : Reference.nodeOf i = x
  · exact readPast_comm_of_eq hne hu hp hpd hx
  · by_cases hy : Reference.nodeOf i = y
    · exact (readPast_comm_of_eq (Ne.symm hne) hu.symm hq hqd hy).symm
    · rw [readPast_of_ne (p := p) hx, readPast_of_ne (p := q) hy, readPast_of_ne hy,
        readPast_of_ne hx]

theorem redirectInputs_comm {p' q' : String}
    (hi : ∀ i, readPast y q' (readPast x p i) = readPast x p' (readPast y q i)) (n : Node) :
    (n.redirectInputs x (pastSplice p)).redirectInputs y (pastSplice q') =
      (n.redirectInputs y (pastSplice q)).redirectInputs x (pastSplice p') := by
  have hmap : (n.inputs.map (readPast x p)).map (readPast y q') =
      (n.inputs.map (readPast y q)).map (readPast x p') := by
    rw [List.map_map, List.map_map]
    refine List.map_congr_left fun i _ => ?_
    rw [Function.comp_apply, Function.comp_apply, hi]
  unfold Node.redirectInputs
  exact congrArg (fun inputs : List String => { n with inputs := inputs }) hmap

/-! ## A graph under two splices -/

/-- A node is spliced out towards its first input as an earlier splice left it. -/
theorem primary_bypass {p' : String} (hg : g.Recorded) (hne : y ≠ x)
    (hx : checkSplice x g = .ok p) (hy : checkSplice y g = .ok q)
    (hxy : checkSplice y (bypass x p g) = .ok p') : p' = readPast x p q := by
  obtain ⟨n, hn, -, -, hh, -⟩ := checkSplice_eq_ok.mp hy
  obtain ⟨m, hm, -, -, hh', -⟩ := checkSplice_eq_ok.mp hxy
  rw [node?_bypass_kept hg (reads_primary hx).has hne, hn, Option.map_some,
    Option.some.injEq] at hm
  subst hm
  have hhead : (n.inputs.map (readPast x p)).head? = some p' := hh'
  rw [List.head?_map, hh, Option.map_some, Option.some.injEq] at hhead
  exact hhead.symm

/-- Of two nodes that are each the first input of the other, the second one cannot be spliced
out. -/
theorem unlocked_of_checkSplice {p' : String} (hg : g.Recorded) (hne : y ≠ x)
    (hx : checkSplice x g = .ok p) (hy : checkSplice y g = .ok q)
    (hxy : checkSplice y (bypass x p g) = .ok p') : Unlocked x y p q := by
  obtain ⟨-, -, -, -, -, hdata, -⟩ := checkSplice_eq_ok.mp hy
  obtain ⟨-, -, -, -, -, -, hother, -⟩ := checkSplice_eq_ok.mp hxy
  intro hp hq
  have hback : p' = p := by
    rw [primary_bypass hg hne hx hy hxy, readPast_of_eq hq, pastSplice_of_isData hdata]
  exact hother (hback ▸ hp)

theorem recorded_bypass (hg : g.Recorded) (hc : checkSplice x g = .ok p) :
    (bypass x p g).Recorded :=
  (Command.Moves.splice hc).recorded ⟨trivial, fun _ hn => by cases hn⟩ hg

theorem nodes_bypass_bypass (hg : g.Recorded) (hx : checkSplice x g = .ok p)
    (hxy : checkSplice y (bypass x p g) = .ok q) : (bypass y q (bypass x p g)).nodes =
      (g.nodes.filter fun n => n.name != x && n.name != y).map fun n =>
        (n.redirectInputs x (pastSplice p)).redirectInputs y (pastSplice q) := by
  rw [nodes_bypass (recorded_bypass hg hx) (reads_primary hxy).has,
    nodes_bypass hg (reads_primary hx).has, List.filter_map, List.filter_filter, List.map_map]
  have hkeep : ∀ n ∈ g.nodes, (((fun n : Node => n.name != y) ∘
      fun n : Node => n.redirectInputs x (pastSplice p)) n && n.name != x) =
        (n.name != x && n.name != y) := fun n _ => Bool.and_comm (n.name != y) (n.name != x)
  rw [List.filter_congr hkeep]
  rfl

theorem nodes_bypass_comm {p' q' : String} (hg : g.Recorded) (hne : x ≠ y)
    (hx : checkSplice x g = .ok p) (hxy : checkSplice y (bypass x p g) = .ok q')
    (hy : checkSplice y g = .ok q) (hyx : checkSplice x (bypass y q g) = .ok p') :
    (bypass y q' (bypass x p g)).nodes = (bypass x p' (bypass y q g)).nodes := by
  obtain ⟨-, -, -, -, -, hpd, -⟩ := checkSplice_eq_ok.mp hx
  obtain ⟨-, -, -, -, -, hqd, -⟩ := checkSplice_eq_ok.mp hy
  have hinput : ∀ i, readPast y q' (readPast x p i) = readPast x p' (readPast y q i) := by
    intro i
    rw [primary_bypass hg (Ne.symm hne) hx hy hxy, primary_bypass hg hne hy hx hyx]
    exact readPast_comm hne (unlocked_of_checkSplice hg (Ne.symm hne) hx hy hxy)
      (hg.plainNames _ (has_primary hx)) (hg.plainNames _ (has_primary hy)) hpd hqd i
  have hkeep : ∀ n ∈ g.nodes, (n.name != x && n.name != y) = (n.name != y && n.name != x) :=
    fun n _ => Bool.and_comm _ _
  rw [nodes_bypass_bypass hg hx hxy, nodes_bypass_bypass hg hy hyx, List.filter_congr hkeep]
  exact List.map_congr_left fun n _ => redirectInputs_comm hinput n

theorem consistent_bypass (hg : g.Recorded) (hr : g.ConsumersReferring)
    (hc : checkSplice x g = .ok p) : (bypass x p g).Consistent :=
  ⟨(recorded_bypass hg hc).inputsRecorded, referring_bypass hr hg.plainNames (has_primary hc)⟩

theorem consistent_bypass_bypass (hg : g.Recorded) (hr : g.ConsumersReferring)
    (hx : checkSplice x g = .ok p) (hxy : checkSplice y (bypass x p g) = .ok q) :
    (bypass y q (bypass x p g)).Consistent :=
  consistent_bypass (recorded_bypass hg hx) (consistent_bypass hg hr hx).2 hxy

/-! ## Splicing -/

/-- On a consistent graph with plain names, whatever cycles it has, two nodes that can be spliced out
in either order leave the others, with the same input texts and in the same order, and every node
has the same consumers. -/
theorem splice_comm {p p' q q' : String} (hc : g.check = .ok ()) (hp : g.PlainNames)
    (hd : g.ConsumersDistinct) (hne : x ≠ y)
    (hx : splice x g = (.ok p, k)) (hxy : splice y k = (.ok q', h))
    (hy : splice y g = (.ok q, l)) (hyx : splice x l = (.ok p', h')) :
    h.nodes = h'.nodes ∧ (∀ a b, a ∈ h.consumers b ↔ a ∈ h'.consumers b) ∧
      h.names = g.names.filter fun z => z != x && z != y := by
  have hg : g.Recorded := recorded_of_check hc hp hd
  have hr : g.ConsumersReferring := (check_eq_ok_iff.mp hc).2
  obtain ⟨hcx, rfl⟩ := Edit.guarded_eq_ok.mp hx
  obtain ⟨hcxy, rfl⟩ := Edit.guarded_eq_ok.mp hxy
  obtain ⟨hcy, rfl⟩ := Edit.guarded_eq_ok.mp hy
  obtain ⟨hcyx, rfl⟩ := Edit.guarded_eq_ok.mp hyx
  have hnodes := nodes_bypass_comm hg hne hcx hcxy hcy hcyx
  refine ⟨hnodes, fun a b => mem_consumers_iff_of_nodes ?_ ?_ hnodes, ?_⟩
  · exact consistent_bypass_bypass hg hr hcx hcxy
  · exact consistent_bypass_bypass hg hr hcy hcyx
  · rw [names_bypass, names_bypass, List.filter_filter]
    simp only [Bool.and_comm]

/-- A constant reads the outer one of two nodes, the outer one reads the inner one, and the inner
one reads the constant. Others read both through several ports, and wait for them. -/
def braidedNodes : List Node :=
  [.make "Relu" "side" ["^inner", "inner:2"], .make "Relu" "outer" ["inner:1", "^loop"],
    .make "Relu" "inner" ["loop:2"], .make "Const" "loop" ["outer:3", "^out", "loop"],
    .make "Add" "out" ["outer:1", "inner:4", "^outer", "^inner"]]

/-- The order of the consumers does depend on which node went first. -/
theorem splice_comm_braidedNodes : ∃ k l h h',
    splice "outer" (build braidedNodes) = (.ok "inner:1", k) ∧
    splice "inner" k = (.ok "loop:2", h) ∧
    splice "inner" (build braidedNodes) = (.ok "loop:2", l) ∧
    splice "outer" l = (.ok "loop:2", h') ∧
    h.nodes = [.make "Relu" "side" ["^loop", "loop:2"],
      .make "Const" "loop" ["loop:2", "^out", "loop"],
      .make "Add" "out" ["loop:2", "loop:2", "^loop", "^loop"]] ∧ h'.nodes = h.nodes ∧
    (∀ a b, a ∈ h'.consumers b ↔ a ∈ h.consumers b) ∧
    h.consumers "loop" = ["side", "loop", "out"] ∧
    h'.consumers "loop" = ["loop", "out", "side"] := by
  have houter : splice "outer" (build braidedNodes) =
      (.ok "inner:1", bypass "outer" "inner:1" (build braidedNodes)) :=
    Edit.guarded_eq_ok.mpr ⟨rfl, rfl⟩
  have hinner : splice "inner" (build braidedNodes) =
      (.ok "loop:2", bypass "inner" "loop:2" (build braidedNodes)) :=
    Edit.guarded_eq_ok.mpr ⟨rfl, rfl⟩
  have hthen : splice "inner" (bypass "outer" "inner:1" (build braidedNodes)) =
      (.ok "loop:2", bypass "inner" "loop:2" (bypass "outer" "inner:1" (build braidedNodes))) :=
    Edit.guarded_eq_ok.mpr ⟨rfl, rfl⟩
  have hthen' : splice "outer" (bypass "inner" "loop:2" (build braidedNodes)) =
      (.ok "loop:2", bypass "outer" "loop:2" (bypass "inner" "loop:2" (build braidedNodes))) :=
    Edit.guarded_eq_ok.mpr ⟨rfl, rfl⟩
  obtain ⟨hnodes, hconsumers, -⟩ := splice_comm (g := build braidedNodes) rfl
    (build_plainNames (by decide)) (build_consumersDistinct _) (by decide) houter hthen hinner
    hthen'
  refine ⟨_, _, _, _, houter, hthen, hinner, hthen', ?_, hnodes.symm, ?_, ?_, ?_⟩
  · decide
  · exact fun a b => (hconsumers a b).symm
  · decide
  · decide

end Dataflow.Graph
