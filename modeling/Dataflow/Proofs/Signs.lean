import Dataflow.Graph.Build
import Dataflow.Proofs.SignRuns

/- The analysis stops where it comes back to a node that it is looking at, and it remembers for
   later what it found under that cut. This is right because each sign rule asks for all of a
   fixed list of nodes, and never for one of several: a node that was found unproven under a cut
   is needed by the node of the cut, which therefore is not proven either. `Justified` says this
   of a trail while nodes are being looked at, and `Concludes.settled` is the induction that
   keeps it. What remains is `provesNonNegative_iff` for a trail of its own, and
   `queries_outcome` for any number of questions to one analysis. -/

namespace Dataflow.Graph

variable {g : Graph} {t u : SignTrail} {name : String} {n : Node} {r : Bool}

/-! ## What a trail may say -/

/-- The nodes that a question asks for: the answer is yes if all of them are proven. Nothing makes it
yes where there is no such list. -/
def Question.asks? : Question → Option (List String)
  | .node name => some [name]
  | .rule n =>
    match Op.signRule n.op with
    | .nonNegative => some []
    | .allInputs => some n.dataInputNodes
    | .firstInput => n.inputs.head?.map fun input => [Reference.nodeOf input]
    | .unknown => none
  | .inputs references => some (dataNodes references)

def Holds (g : Graph) (q : Question) : Prop :=
  ∃ names, q.asks? = some names ∧ ∀ name ∈ names, g.Proven name

/-- A name of no node, or one that the trail gives up or is not done with. -/
def Unproven (g : Graph) (t : SignTrail) (name : String) : Prop :=
  g.node? name = none ∨ t.verdict? name = some false

/-- One of the nodes that a question asks for is not proven by the trail. -/
def Fails (g : Graph) (t : SignTrail) (q : Question) : Prop :=
  ∀ names, q.asks? = some names → ∃ name ∈ names, g.Unproven t name

/-- The verdicts of a trail are right: what is proven is proven, and for every name that was given up
there is another one that it needs. Nothing is said of the names that are still being looked at. -/
structure Justified (g : Graph) (pending : List String) (t : SignTrail) : Prop where
  proven : ∀ x, t.verdict? x = some true → g.Proven x
  blocked : ∀ x ∉ pending, t.verdict? x = some false →
    ∃ n, g.node? x = some n ∧ g.Fails t (.rule n)

structure Outcome (g : Graph) (pending : List String) (q : Question) (t : SignTrail) (r : Bool)
    (u : SignTrail) : Prop where
  justified : g.Justified pending u
  /-- An answer yes gives nothing up on the way. -/
  holds : r = true → g.Holds q ∧ ∀ x, u.verdict? x = some false → t.verdict? x = some false
  fails : r = false → g.Fails u q

theorem proven_of_holds (hn : g.node? name = some n) (hh : g.Holds (.rule n)) : g.Proven name := by
  obtain ⟨names, hnames, hall⟩ := hh
  unfold Question.asks? at hnames
  cases hr : Op.signRule n.op with
  | nonNegative => exact .always hn hr
  | allInputs =>
    simp only [hr, Option.some.injEq] at hnames
    exact .all hn hr (hnames ▸ hall)
  | firstInput =>
    simp only [hr, Option.map_eq_some_iff] at hnames
    obtain ⟨input, hh, rfl⟩ := hnames
    refine .first hn hr ?_ (hall _ (List.mem_singleton.mpr rfl))
    rw [Node.inputNodes, List.head?_map, hh, Option.map_some]
  | unknown => simp only [hr, reduceCtorEq] at hnames

/-- A derivation goes, node by node, by what the sign rules ask for. -/
theorem Proven.asks_induction {P : String → Prop} (hp : g.Proven name)
    (step : ∀ x n names, g.node? x = some n → (Question.rule n).asks? = some names →
      (∀ y ∈ names, g.Proven y ∧ P y) → P x) : P name := by
  induction hp with
  | @always x n hn hr =>
    have hasks : (Question.rule n).asks? = some [] := by simp only [Question.asks?, hr]
    exact step x n [] hn hasks nofun
  | @all x n hn hr hall ih =>
    have hasks : (Question.rule n).asks? = some n.dataInputNodes := by
      simp only [Question.asks?, hr]
    exact step x n _ hn hasks fun y hy => ⟨hall y hy, ih y hy⟩
  | @first x producer n hn hr hh hp ih =>
    rw [Node.inputNodes, List.head?_map] at hh
    obtain ⟨input, hi, rfl⟩ := Option.map_eq_some_iff.mp hh
    have hasks : (Question.rule n).asks? = some [Reference.nodeOf input] := by
      simp only [Question.asks?, hr, hi, Option.map_some]
    refine step x n _ hn hasks fun y hy => ?_
    rw [List.mem_singleton.mp hy]
    exact ⟨hp, ih⟩

/-- A node is proven exactly if its sign rule asks for nodes that are all proven. -/
theorem proven_iff_holds (hn : g.node? name = some n) : g.Proven name ↔ g.Holds (.rule n) := by
  constructor
  · intro hp
    refine hp.asks_induction (P := fun x => ∀ m, g.node? x = some m → g.Holds (.rule m)) ?_ n hn
    intro x m names hm hasks hall k hk
    cases hm.symm.trans hk
    exact ⟨names, hasks, fun y hy => (hall y hy).1⟩
  · exact proven_of_holds hn

theorem Unproven.mono (hk : ∀ x, t.verdict? x = some false → u.verdict? x = some false)
    (h : g.Unproven t name) : g.Unproven u name :=
  h.imp_right (hk name)

theorem Fails.mono {q : Question} (hk : ∀ x, t.verdict? x = some false → u.verdict? x = some false)
    (h : g.Fails t q) : g.Fails u q := by
  intro names hnames
  obtain ⟨name, hmem, hu⟩ := h names hnames
  exact ⟨name, hmem, hu.mono hk⟩

theorem Justified.congr {pending : List String} (hv : ∀ x, u.verdict? x = t.verdict? x)
    (hj : g.Justified pending t) : g.Justified pending u where
  proven x hx := hj.proven x (hv x ▸ hx)
  blocked x hp hx := by
    obtain ⟨n, hn, hf⟩ := hj.blocked x hp (hv x ▸ hx)
    exact ⟨n, hn, hf.mono fun y hy => (hv y).trans hy⟩

theorem Justified.read {pending : List String} {input : String} (hj : g.Justified pending t) :
    g.Justified pending (.read input :: t) :=
  hj.congr fun _ => SignTrail.verdict?_read

theorem Justified.started {pending : List String} (hj : g.Justified pending t)
    (hv : t.verdict? name = none) : g.Justified (name :: pending) (.started name :: t) := by
  have hold : ∀ x, x ≠ name → SignTrail.verdict? (.started name :: t) x = t.verdict? x :=
    fun x hx => SignTrail.verdict?_started.trans (if_neg (Ne.symm hx))
  refine ⟨fun x hx => ?_, fun x hp hx => ?_⟩
  · by_cases he : x = name
    · rw [he, SignTrail.verdict?_started, if_pos rfl] at hx
      cases hx
    · exact hj.proven x (hold x he ▸ hx)
  · rw [List.mem_cons, not_or] at hp
    obtain ⟨hne, hp⟩ := hp
    obtain ⟨n, hn, hf⟩ := hj.blocked x hp (hold x hne ▸ hx)
    refine ⟨n, hn, hf.mono fun y hy => ?_⟩
    have hy' : y ≠ name := by
      intro he
      rw [he, hv] at hy
      cases hy
    rw [hold y hy', hy]

/-! ## What a run settles -/

theorem Outcome.of_asks {pending : List String} {q q' : Question} (hq : q'.asks? = q.asks?)
    (ho : g.Outcome pending q t r u) : g.Outcome pending q' t r u where
  justified := ho.justified
  holds hr := by
    obtain ⟨⟨names, hnames, hall⟩, hnew⟩ := ho.holds hr
    exact ⟨⟨names, hq.trans hnames, hall⟩, hnew⟩
  fails hr names hnames := ho.fails hr names (hq.symm.trans hnames)

/-- That an input was read gives nothing up. -/
theorem Outcome.of_read {pending : List String} {q : Question} {input : String}
    (ho : g.Outcome pending q (.read input :: t) r u) : g.Outcome pending q t r u :=
  ⟨ho.justified, ho.holds, ho.fails⟩

theorem verdict?_looked (hn : g.node? name = some n) (x : String) :
    SignTrail.verdict? (.evaluated n r :: u) x = if name = x then some r else u.verdict? x := by
  rw [SignTrail.verdict?_evaluated, name_of_node? hn]

theorem proven_looked {pending : List String} {x : String} (hn : g.node? name = some n)
    (ho : g.Outcome pending (.rule n) t r u)
    (hx : SignTrail.verdict? (.evaluated n r :: u) x = some true) : g.Proven x := by
  rw [verdict?_looked hn] at hx
  split at hx
  · rename_i he
    cases hx
    exact he ▸ proven_of_holds hn (ho.holds rfl).1
  · exact ho.justified.proven x hx

/-- After a yes nothing is given up that was not given up before the node was looked at, and that needs
no more than nodes that were given up then: the node itself was not. -/
theorem Outcome.looked_true {pending : List String} (hj : g.Justified pending t)
    (hv : t.verdict? name = none) (hn : g.node? name = some n)
    (hk : ∀ x b, SignTrail.verdict? (.started name :: t) x = some b → u.verdict? x = some b)
    (ho : g.Outcome (name :: pending) (.rule n) (.started name :: t) true u) :
    g.Outcome pending (.node name) t true (.evaluated n true :: u) := by
  have hkeep : ∀ x, t.verdict? x = some false →
      SignTrail.verdict? (.evaluated n true :: u) x = some false := by
    intro x hx
    have hne : name ≠ x := by
      intro he
      rw [he, hx] at hv
      cases hv
    rw [verdict?_looked hn, if_neg hne]
    exact hk x false (by rw [SignTrail.verdict?_started, if_neg hne, hx])
  have hnew : ∀ x, SignTrail.verdict? (.evaluated n true :: u) x = some false →
      t.verdict? x = some false := by
    intro x hx
    rw [verdict?_looked hn] at hx
    split at hx
    · cases hx
    · rename_i hne
      have hstarted := (ho.holds rfl).2 x hx
      rwa [SignTrail.verdict?_started, if_neg hne] at hstarted
  refine ⟨⟨fun x hx => proven_looked hn ho hx, fun x hp hx => ?_⟩,
    fun _ => ⟨⟨_, rfl, fun y hy => ?_⟩, hnew⟩, nofun⟩
  · obtain ⟨m, hm, hf⟩ := hj.blocked x hp (hnew x hx)
    exact ⟨m, hm, hf.mono hkeep⟩
  · rw [List.mem_singleton.mp hy]
    exact proven_of_holds hn (ho.holds rfl).1

/-- After a no the node is given up, for a node that its sign rule asks for. What was given up while it
was looked at may be given up for the node itself. -/
theorem Outcome.looked_false {pending : List String} (hn : g.node? name = some n)
    (ho : g.Outcome (name :: pending) (.rule n) (.started name :: t) false u) :
    g.Outcome pending (.node name) t false (.evaluated n false :: u) := by
  have hkeep : ∀ x, u.verdict? x = some false →
      SignTrail.verdict? (.evaluated n false :: u) x = some false := by
    intro x hx
    rw [verdict?_looked hn, hx]
    exact ite_self _
  refine ⟨⟨fun x hx => proven_looked hn ho hx, fun x hp hx => ?_⟩, nofun,
    fun _ names hnames => ?_⟩
  · by_cases he : name = x
    · exact ⟨n, he ▸ hn, (ho.fails rfl).mono hkeep⟩
    · rw [verdict?_looked hn, if_neg he] at hx
      obtain ⟨m, hm, hf⟩ := ho.justified.blocked x (by simp [Ne.symm he, hp]) hx
      exact ⟨m, hm, hf.mono hkeep⟩
  · cases hnames
    exact ⟨name, List.mem_singleton.mpr rfl, .inr ((verdict?_looked hn name).trans (if_pos rfl))⟩

theorem dataNodes_cons_control {input : String} {rest : List String}
    (hi : (Reference.parse input).isData = false) :
    dataNodes (input :: rest) = dataNodes rest := by
  rw [dataNodes, List.map_cons, List.filter_cons_of_neg (by simp [hi]), dataNodes]

theorem dataNodes_cons_data {input : String} {rest : List String}
    (hi : (Reference.parse input).isData = true) :
    dataNodes (input :: rest) = Reference.nodeOf input :: dataNodes rest := by
  rw [dataNodes, List.map_cons, List.filter_cons_of_pos hi, List.map_cons, dataNodes]
  rfl

/-- A proven input leaves the answer to the others. -/
theorem Outcome.proven {pending : List String} {input : String} {rest : List String}
    {v : SignTrail} (hi : (Reference.parse input).isData = true)
    (hnode : g.Outcome pending (.node (Reference.nodeOf input)) t true u)
    (hrest : g.Outcome pending (.inputs rest) u r v) :
    g.Outcome pending (.inputs (input :: rest)) t r v := by
  have hasks : (Question.inputs (input :: rest)).asks? =
      some (Reference.nodeOf input :: dataNodes rest) := congrArg some (dataNodes_cons_data hi)
  refine ⟨hrest.justified, fun hr => ?_, fun hr names hnames => ?_⟩
  · obtain ⟨⟨_, hone, hfirst⟩, hnew⟩ := hnode.holds rfl
    obtain ⟨⟨_, hmany, hall⟩, hthen⟩ := hrest.holds hr
    cases hone
    cases hmany
    refine ⟨⟨_, hasks, ?_⟩, fun x hx => hnew x (hthen x hx)⟩
    exact List.forall_mem_cons.mpr ⟨hfirst _ (List.mem_singleton.mpr rfl), hall⟩
  · obtain ⟨name, hmem, hu⟩ := hrest.fails hr _ rfl
    rw [hasks, Option.some.injEq] at hnames
    exact ⟨name, hnames ▸ List.mem_cons_of_mem _ hmem, hu⟩

theorem Outcome.unproven {pending : List String} {input : String} {rest : List String}
    (hi : (Reference.parse input).isData = true)
    (hnode : g.Outcome pending (.node (Reference.nodeOf input)) t false u) :
    g.Outcome pending (.inputs (input :: rest)) t false u := by
  refine ⟨hnode.justified, nofun, fun _ names hnames => ?_⟩
  obtain ⟨name, hmem, hu⟩ := hnode.fails rfl _ rfl
  rw [Question.asks?, dataNodes_cons_data hi, Option.some.injEq] at hnames
  rw [List.mem_singleton.mp hmem] at hu
  exact ⟨_, hnames ▸ List.mem_cons_self, hu⟩

/-- What a run settles while some nodes are being looked at. The induction is on the run, for every
list of these nodes: it grows by a node on the way down. -/
theorem Concludes.settled {q : Question} (h : g.Concludes q t r u) :
    ∀ pending, g.Justified pending t → g.Outcome pending q t r u := by
  induction h with
  | @known name t r hv =>
    intro pending hj
    refine ⟨hj, fun hr => ⟨⟨_, rfl, fun y hy => ?_⟩, fun _ hx => hx⟩, fun hr names hnames => ?_⟩
    · rw [List.mem_singleton.mp hy]
      exact hj.proven name (hr ▸ hv)
    · cases hnames
      exact ⟨name, List.mem_singleton.mpr rfl, .inr (hr ▸ hv)⟩
  | @absent name t hv hn =>
    intro pending hj
    refine ⟨hj.congr fun _ => SignTrail.verdict?_unresolved, nofun, fun _ names hnames => ?_⟩
    cases hnames
    exact ⟨name, List.mem_singleton.mpr rfl, .inl hn⟩
  | @looked name n t u r hv hn hrun ih =>
    intro pending hj
    have ho := ih (name :: pending) (hj.started hv)
    cases r with
    | true => exact .looked_true hj hv hn (fun x b hx => hrun.keeps hx) ho
    | false => exact .looked_false hn ho
  | always hr =>
    intro pending hj
    refine ⟨hj, fun _ => ⟨⟨[], ?_, nofun⟩, fun _ hx => hx⟩, nofun⟩
    simp only [Question.asks?, hr]
  | never hr =>
    intro pending hj
    refine ⟨hj, nofun, fun _ names hnames => ?_⟩
    simp only [Question.asks?, hr, reduceCtorEq] at hnames
  | all hr _ ih =>
    intro pending hj
    refine (ih pending hj).of_asks ?_
    simp only [Question.asks?, hr]
    rfl
  | first hr hh _ ih =>
    intro pending hj
    refine (ih pending hj.read).of_read.of_asks ?_
    simp only [Question.asks?, hr, hh, Option.map_some]
  | noFirst hr hh =>
    intro pending hj
    refine ⟨hj, nofun, fun _ names hnames => ?_⟩
    simp only [Question.asks?, hr, hh, Option.map_none, reduceCtorEq] at hnames
  | done =>
    intro pending hj
    exact ⟨hj, fun _ => ⟨⟨[], rfl, nofun⟩, fun _ hx => hx⟩, nofun⟩
  | control hi _ ih =>
    intro pending hj
    refine (ih pending hj.read).of_read.of_asks ?_
    rw [Question.asks?, dataNodes_cons_control hi, Question.asks?]
  | proven hi _ _ ihnode ihrest =>
    intro pending hj
    have hnode := ihnode pending hj.read
    exact .proven hi hnode.of_read (ihrest pending hnode.justified)
  | unproven hi _ ih =>
    intro pending hj
    exact .unproven hi (ih pending hj.read).of_read

/-! ## Questions one after the other -/

theorem justified_nil (g : Graph) : g.Justified [] [] := ⟨nofun, nofun⟩

/-- A trail on which no node is being looked at does not give up a node, if it gives up none of those
that the sign rule asks for. -/
theorem Justified.not_unproven {names : List String} (hj : g.Justified [] t)
    (hn : g.node? name = some n) (hnames : (Question.rule n).asks? = some names)
    (hall : ∀ y ∈ names, ¬g.Unproven t y) : ¬g.Unproven t name := by
  intro hu
  rcases hu with habsent | hgiven
  · rw [habsent] at hn
    cases hn
  · obtain ⟨m, hm, hf⟩ := hj.blocked name List.not_mem_nil hgiven
    rw [hn, Option.some.injEq] at hm
    obtain ⟨y, hy, hyu⟩ := hf names (hm ▸ hnames)
    exact hall y hy hyu

/-- The nodes that are given up and the names of no node are closed under the rules, so that no
derivation starts among them. -/
theorem Justified.not_proven (hj : g.Justified [] t) (hp : g.Proven name) : ¬g.Unproven t name :=
  hp.asks_induction fun _ _ _ hn hasks hall =>
    hj.not_unproven hn hasks fun y hy => (hall y hy).2

theorem Concludes.answer_iff (h : g.Concludes (.node name) t r u) (hj : g.Justified [] t) :
    r = true ↔ g.Proven name := by
  have ho := h.settled [] hj
  constructor
  · intro hr
    obtain ⟨⟨_, hnames, hall⟩, -⟩ := ho.holds hr
    cases hnames
    exact hall name (List.mem_singleton.mpr rfl)
  · intro hp
    cases r with
    | true => rfl
    | false =>
      obtain ⟨y, hy, hu⟩ := ho.fails rfl _ rfl
      rw [List.mem_singleton.mp hy] at hu
      exact absurd hu (ho.justified.not_proven hp)

theorem Justified.isNonNegative (hj : g.Justified [] t) (name : String) :
    g.Justified [] (g.isNonNegative name t).2 :=
  ((g.isNonNegative_concludes name t).settled [] hj).justified

theorem isNonNegative_iff (hj : g.Justified [] t) :
    (g.isNonNegative name t).1 = true ↔ g.Proven name :=
  (g.isNonNegative_concludes name t).answer_iff hj

theorem provesNonNegative_iff : g.provesNonNegative name = true ↔ g.Proven name :=
  isNonNegative_iff g.justified_nil

def trailAfter (g : Graph) (names : List String) : SignTrail :=
  (names.mapM g.isNonNegative []).2

theorem mapM_isNonNegative (names : List String) : ∀ t, g.Justified [] t →
    (names.mapM g.isNonNegative t).1 = names.map g.provesNonNegative ∧
      g.Justified [] (names.mapM g.isNonNegative t).2 := by
  induction names with
  | nil => exact fun t hj => ⟨rfl, hj⟩
  | cons name rest ih =>
    intro t hj
    obtain ⟨hanswers, hafter⟩ := ih _ (hj.isNonNegative name)
    have hanswer : (g.isNonNegative name t).1 = g.provesNonNegative name :=
      Bool.eq_iff_iff.mpr ((isNonNegative_iff hj).trans provesNonNegative_iff.symm)
    rw [List.mapM_cons]
    refine ⟨?_, hafter⟩
    rw [List.map_cons, ← hanswer, ← hanswers]
    rfl

/-- Whatever cycles a graph has and whatever its inputs name, and after any questions to one analysis,
the analysis of a node comes to its end with no bound on how deep it goes, and it answers yes exactly if
the node is proven non-negative. So some questions get the answers that a new analysis gives to each
of them. -/
theorem queries_outcome (g : Graph) (names : List String) :
    (∀ name r u, g.Concludes (.node name) (g.trailAfter names) r u ↔
      g.isNonNegative name (g.trailAfter names) = (r, u)) ∧
    (∀ name, (g.isNonNegative name (g.trailAfter names)).1 = true ↔ g.Proven name) ∧
    (names.mapM g.isNonNegative []).1 = names.map g.provesNonNegative := by
  obtain ⟨hanswers, hafter⟩ := mapM_isNonNegative names [] g.justified_nil
  refine ⟨fun name r u => ?_, fun name => isNonNegative_iff hafter, hanswers⟩
  have hends := g.isNonNegative_concludes name (g.trailAfter names)
  constructor
  · intro h
    obtain ⟨hr, hu⟩ := h.unique hends
    exact Prod.ext hr hu
  · intro h
    rw [h] at hends
    exact hends

/-- Two merges that read each other and a rectifier, and a pooling of the rectifier behind a merge that
waits for them. -/
example : (["there", "back", "pool", "ghost", "there"].mapM (build
    [.make "Relu" "relu" ["there"], .make "Add" "there" ["relu", "back:1"],
      .make "Add" "back" ["there", "gone"], .make "AddN" "sum" ["^back", "relu"],
      .make "MaxPool" "pool" ["sum:2", "there"]]).isNonNegative []).1 =
    [false, false, true, false, false] := by decide

end Dataflow.Graph
