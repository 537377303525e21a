import Dataflow.Proofs.PipelineValues
import Dataflow.Proofs.Signs

/- Splicing identities out and folding arithmetic on constants may add to what is proven
   non-negative, and take nothing away. A derivation rests on proven nodes only, and no step
   touches one: nothing is known of an identity or of a constant, and so nothing of arithmetic on
   constants. What changes at a proven node are its references to a node that it does not rest on
   (`Proven.of_redirected`). `run_keeps_signs` is the same for whole pipelines. -/

namespace Dataflow

/-! ## What is not proven -/

namespace Op

theorem signRule_of_isConstant {op : String} (hc : isConstant op = true) :
    signRule op = .unknown := by
  rw [isConstant, Bool.or_eq_true, beq_iff_eq, beq_iff_eq] at hc
  rcases hc with rfl | rfl
  · decide
  · decide

theorem signRule_of_identities : ∀ op ∈ identities, signRule op = .unknown := by decide

theorem signRule_of_foldables :
    ∀ op ∈ foldables, signRule op = .allInputs ∨ signRule op = .unknown := by decide

end Op

namespace Graph

variable {g h : Graph} {x name primary : String} {n c : Node}

theorem not_proven_of_unknown (hn : g.node? x = some n) (hr : Op.signRule n.op = .unknown) :
    ¬g.Proven x := by
  intro hp
  obtain ⟨names, hasks, -⟩ := (proven_iff_holds hn).mp hp
  simp only [Question.asks?, hr, reduceCtorEq] at hasks

theorem Proven.namesNonConstant (hp : g.Proven x) : g.namesNonConstant x = true := by
  obtain ⟨n, hn⟩ := has_iff_exists.mp hp.has
  refine namesNonConstant_iff.mpr ⟨n, hn, Bool.eq_false_iff.mpr fun hc => ?_⟩
  exact not_proven_of_unknown hn (Op.signRule_of_isConstant hc) hp

open Pass.FoldBinaryConstants in
/-- Arithmetic that folds has an operand, which is a constant. -/
theorem not_proven_of_folded (hn : g.node? name = some n) (hf : folded? g n = .ok (some c)) :
    ¬g.Proven name := by
  intro hp
  obtain ⟨o, -, ho, -⟩ := folded?_eq_some.mp hf
  obtain ⟨left, right, hi, hl, -⟩ := ho.inputs
  rcases Op.signRule_of_foldables n.op (op_of_folded hf) with hr | hr
  · obtain ⟨names, hasks, hall⟩ := (proven_iff_holds hn).mp hp
    simp only [Question.asks?, hr, Option.some.injEq] at hasks
    have hmem : Reference.nodeOf left ∈ n.dataInputNodes := by
      have hdata : Reference.parse left ∈ (n.inputs.map Reference.parse).filter Reference.isData :=
        List.mem_filter.mpr ⟨List.mem_map_of_mem (by simp [hi]), hl.1⟩
      exact List.mem_map_of_mem hdata
    have hreads : g.Reads name (Reference.nodeOf left) :=
      (reads_iff hn).mpr (by simp [Node.inputNodes, hi])
    exact not_namesNonConstant_operand hn hf hreads (hall _ (hasks ▸ hmem)).namesNonConstant
  · exact not_proven_of_unknown hn hr hp

/-! ## Redirected references -/

section Redirected

variable {p : String} {t : Reference → String} {names : List String}
  (ht : ∀ r : Reference, r.node = p → (Reference.parse (t r)).isData = r.isData)

include ht

theorem isData_redirectInput (input : String) :
    (Reference.parse (Node.redirectInput p t input)).isData = (Reference.parse input).isData := by
  by_cases hi : Reference.nodeOf input = p
  · rw [redirectInput_of_eq hi]
    exact ht _ hi
  · rw [redirectInput_of_ne hi]

theorem dataNodes_redirected : ∀ {references : List String}, p ∉ dataNodes references →
    dataNodes (references.map (Node.redirectInput p t)) = dataNodes references
  | [], _ => rfl
  | input :: rest, hp => by
    have hd := isData_redirectInput ht input
    rw [List.map_cons]
    cases hi : (Reference.parse input).isData with
    | false =>
      rw [dataNodes_cons_control hi] at hp ⊢
      rw [dataNodes_cons_control (hd.trans hi)]
      exact dataNodes_redirected hp
    | true =>
      rw [dataNodes_cons_data hi, List.mem_cons, not_or] at hp
      rw [dataNodes_cons_data (hd.trans hi), dataNodes_cons_data hi,
        redirectInput_of_ne (Ne.symm hp.1), dataNodes_redirected hp.2]

/-- A sign rule asks for the same nodes if references to another node were redirected and stayed what
they are, data or control. -/
theorem asks?_redirectInputs (hasks : (Question.rule n).asks? = some names) (hp : p ∉ names) :
    (Question.rule (n.redirectInputs p t)).asks? = some names := by
  have hop : (n.redirectInputs p t).op = n.op := rfl
  simp only [Question.asks?, hop] at hasks ⊢
  cases hr : Op.signRule n.op with
  | nonNegative | unknown => simpa only [hr] using hasks
  | allInputs =>
    simp only [hr, Option.some.injEq] at hasks ⊢
    subst hasks
    exact dataNodes_redirected ht hp
  | firstInput =>
    simp only [hr] at hasks ⊢
    obtain ⟨input, hi, rfl⟩ := Option.map_eq_some_iff.mp hasks
    rw [List.mem_singleton] at hp
    rw [Node.redirectInputs, List.head?_map, hi, Option.map_some, Option.map_some,
      redirectInput_of_ne (Ne.symm hp)]

/-- What is proven stays proven if all that happens to proven nodes is that references to an unproven
one are redirected. -/
theorem Proven.of_redirected (hp : ¬g.Proven p) (cs : List String)
    (hkept : ∀ y m, g.Proven y → g.node? y = some m →
      h.node? y = some (if y ∈ cs then m.redirectInputs p t else m)) (hx : g.Proven x) :
    h.Proven x := by
  refine hx.asks_induction fun y m names hm hasks hall => ?_
  have hy : g.Proven y := proven_of_holds hm ⟨names, hasks, fun z hz => (hall z hz).1⟩
  refine proven_of_holds (hkept y m hy hm) ⟨names, ?_, fun z hz => (hall z hz).2⟩
  split
  · exact asks?_redirectInputs ht hasks fun hmem => hp (hall p hmem).1
  · exact hasks

end Redirected

/-! ## Steps -/

theorem proven_bypass (hg : g.Workable) (hc : checkSplice name g = .ok primary)
    (hn : g.node? name = some n) (hid : n.op ∈ Op.identities) (hx : g.Proven x) :
    (bypass name primary g).Proven x := by
  have hnot : ¬g.Proven name := not_proven_of_unknown hn (Op.signRule_of_identities n.op hid)
  obtain ⟨-, -, -, -, -, hdata, -⟩ := checkSplice_eq_ok.mp hc
  have ht := isData_pastSplice (hg.plainNames _ (has_primary hc)) hdata
  refine hx.of_redirected (fun r _ => ht r) hnot (g.consumers name) fun y m hy hm => ?_
  have hne : y ≠ name := fun he => hnot (he ▸ hy)
  rw [node?_bypass_eq hg.consumersDistinct, if_neg hne, hm, Option.map_some]

open Pass.FoldBinaryConstants in
theorem proven_collapse (hg : g.Workable) (hn : g.node? name = some n)
    (hf : folded? g n = .ok (some c)) (hx : g.Proven x) : (collapse c.bare name g).Proven x := by
  have hnot : ¬g.Proven name := not_proven_of_folded hn hf
  have ht := isData_renamed (hg.plainNames name (has_of_node? hn))
  refine hx.of_redirected (fun r _ => ht r) hnot (g.consumers name) fun y m hy hm => ?_
  have hne : y ≠ name := fun he => hnot (he ▸ hy)
  rw [node?_collapse_of_namesNonConstant hg.consumersDistinct hn hf hy.namesNonConstant hne, hm,
    Option.map_some]

theorem Simplifies.keeps_proven {r : PassResult} (hs : g.Simplifies r h) (hg : g.Workable)
    (hx : g.Proven x) : h.Proven x := by
  induction hs with
  | done g => exact hx
  | seen g => exact hx
  | splice hc hn hid => exact proven_bypass hg hc hn hid hx
  | fold hn hf => exact proven_collapse hg hn hf hx
  | merge hs _ ih ih' => exact ih' (hs.workable hg) (ih hg hx)

end Graph

/-! ## Pipelines -/

namespace Pipeline

open Dataflow.Graph

/-- A pipeline of folding and removing identities, in any order and number and with any settings, is
not refused on a consistent graph. Every node that was proven non-negative before is still there
wherever it ends, and still proven. -/
theorem run_keeps_signs {g : Graph} {p : Pipeline}
    (hps : ∀ q ∈ p.passes, q = Pass.foldBinaryConstants ∨ q = Pass.removeIdentity)
    (hc : g.check = .ok ()) (hp : g.PlainNames) (hd : g.ConsumersDistinct) :
    ∃ r h, p.run.Ends g r h ∧
      ∀ x, g.provesNonNegative x = true → h.has x = true ∧ h.provesNonNegative x = true := by
  have hg : g.Workable := workable_of_check hc hp hd
  obtain ⟨r, h, hend, -, hs⟩ := simplifying_run hps g hg
  refine ⟨r, h, hend, fun x hx => ?_⟩
  have hh : h.Proven x := hs.keeps_proven hg (provesNonNegative_iff.mp hx)
  exact ⟨hh.has, provesNonNegative_iff.mpr hh⟩

/-- A pooling and a merge that wait for a copy of a constant and for a sum that folds once the copy is
gone, beside a sum that reads itself. -/
def pooledNodes : List Node :=
  [.make "Placeholder" "x" [], oneNode, .make "Identity" "copy" ["one"],
    .make "Add" "sum" ["one", "copy"], .make "Relu" "relu" ["x"],
    .make "MaxPool" "pool" ["relu", "^copy"], .make "Concat" "both" ["pool", "relu:1", "^sum"],
    .make "Add" "loop" ["loop", "relu"]]

theorem standard_run_pooledNodes : ∃ r h, standard.run (build pooledNodes) = (.ok r, h) ∧
    r.touched = ["copy", "sum"] ∧ h.provesNonNegative "both" = true := by
  have hc : (build pooledNodes).check = .ok () := by rfl
  have hp : (build pooledNodes).PlainNames := build_plainNames (by decide)
  have hrun : (standard.run (build pooledNodes)).1 = .ok ⟨2, 2, 1, ["copy", "sum"]⟩ := by
    decide +kernel
  obtain ⟨r, h, hend, hkept⟩ :=
    run_keeps_signs standard_passes hc hp (build_consumersDistinct pooledNodes)
  obtain ⟨rfl, hok⟩ := hend.of_ok hrun
  exact ⟨_, h, hok, rfl, (hkept "both" (by decide)).2⟩

end Pipeline
end Dataflow
