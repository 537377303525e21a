import Dataflow.Proofs.PipelineSteps

/- A pipeline is a chain of splices and folds. Whatever solves a graph solves it after each of
   them (`Simplifies.keepsValues`), and so where the whole run ends (`run_keeps_values`). -/

namespace Dataflow

open Dataflow.Graph

universe u

/-- Whatever gives values to the nodes of one graph gives them to those of the other. -/
def KeepsValues (g h : Graph) : Prop :=
  ∀ (V : Type u) (I : Interpretation V) (v : String → UInt32 → Option V),
    I.Solves g v → I.Solves h v

theorem Graph.Simplifies.keepsValues {g h : Graph} {r : PassResult} (hs : g.Simplifies r h)
    (hg : g.Sound) : KeepsValues.{u} g h := by
  induction hs with
  | done g => exact fun _ _ _ hv => hv
  | seen g => exact fun _ _ _ hv => hv
  | @splice g name _ n hc hn hid =>
    have hall : ∀ m, g.node? name = some m → m.op ∈ Op.identities := by
      intro m hm
      cases hn.symm.trans hm
      exact hid
    exact fun _ _ _ hv => solves_bypass hg hc hall hv
  | fold hn hf => exact fun _ _ _ hv => solves_collapse hg hn hf hv
  | merge hs _ ih ih' => exact fun V I v hv => ih' (hs.sound hg) V I v (ih hg V I v hv)

/-! ## Pipelines -/

namespace Pipeline

variable {g : Graph} {p : Pipeline}

/-- A pipeline of folding and removing identities, in any order and number and with any settings, is
not refused on a consistent acyclic graph. Wherever it ends there is such a graph, and every node that
is still there has the values it had before, whatever the other operations mean. -/
theorem run_keeps_values
    (hps : ∀ q ∈ p.passes, q = Pass.foldBinaryConstants ∨ q = Pass.removeIdentity)
    (hc : g.check = .ok ()) (hn : g.PlainNames) (hd : g.ConsumersDistinct) (ha : g.Acyclic) :
    ∃ r h, p.run.Ends g r h ∧ h.check = .ok () ∧ h.PlainNames ∧ h.ConsumersDistinct ∧
      h.Acyclic ∧ ∀ (V : Type u) (I : Interpretation V),
        (∃ v, I.Solves g v) ∧ (∃ w, I.Solves h w) ∧ ∀ v w, I.Solves g v → I.Solves h w →
          ∀ x, h.has x = true → w x = v x := by
  have hg : g.Sound := sound_of_check hc hn hd ha
  obtain ⟨r, h, hr, -, hs⟩ := simplifying_run hps g hg.workable
  have hh := hs.sound hg
  refine ⟨r, h, hr, hh.check, hh.plainNames, hh.consumersDistinct, hh.acyclic, ?_⟩
  intro V I
  obtain ⟨v, hgv⟩ := I.exists_solves ha
  have hhv := hs.keepsValues hg V I v hgv
  refine ⟨⟨v, hgv⟩, ⟨v, hhv⟩, ?_⟩
  intro v' w hgv' hhw x hx
  exact hhw.eq (hs.keepsValues hg V I v' hgv') hh.acyclic hh.closed hx

def oneNode : Node :=
  ((Node.constant "one" (.float (.scalar .one)) .float none .cpu).toOption).getD default

/-- A sum of constants that is copied and then read. -/
def sumNodes : List Node :=
  [oneNode, .make "Add" "sum" ["one", "one"], .make "Identity" "copy" ["sum"],
    .make "Relu" "out" ["copy"]]

/-- Operations of which nothing is fixed pass their first data input on. -/
noncomputable def passing : Interpretation Value := .extending fun _ args _ => args.head?.join

theorem standard_run_sumNodes : ∃ r h v w, standard.run (build sumNodes) = (.ok r, h) ∧
    r.touched = ["sum", "copy"] ∧ h.check = .ok () ∧ passing.Solves (build sumNodes) v ∧
      passing.Solves h w ∧ w "sum" = v "sum" ∧ w "out" = v "out" := by
  have hrun : (standard.run (build sumNodes)).1 = .ok ⟨2, 2, 2, ["sum", "copy"]⟩ := by
    decide +kernel
  have hnames : (standard.run (build sumNodes)).2.names = ["sum", "out"] := by decide +kernel
  have hplain : (build sumNodes).PlainNames := build_plainNames (by decide)
  have hacyclic : (build sumNodes).Acyclic :=
    acyclic_of_rank (fun x => ["one", "sum", "copy", "out"].idxOf x) (by decide)
  obtain ⟨r, h, hend, hcheck, -, -, -, hv⟩ := run_keeps_values standard_passes rfl hplain
    (build_consumersDistinct sumNodes) hacyclic
  obtain ⟨rfl, hok⟩ := hend.of_ok hrun
  rw [hok] at hnames
  obtain ⟨⟨v, hgv⟩, ⟨w, hhw⟩, hsame⟩ := hv Value passing
  have hall := hsame v w hgv hhw
  exact ⟨_, h, v, w, hok, rfl, hcheck, hgv, hhw, hall "sum" (has_iff.mpr (by simp [hnames])),
    hall "out" (has_iff.mpr (by simp [hnames]))⟩

end Pipeline
end Dataflow
