import Dataflow.Location
import Dataflow.Proofs.PassResults
import Dataflow.Proofs.StoredGraphs

/- From file to file, a graph is loaded, its nodes are built into a graph for the passes, and
   what they leave is saved with all else as it was loaded. A file loads only if every attribute
   has a supported kind, and passes touch attributes in one place: a fold brings in a constant
   with an element type and a tensor. Both have a supported kind, so what is saved loads again
   (`Simplifies.supported`).

   `process_outcome` tells what a pipeline writes that is run from file to file, and when it
   writes nothing. One reason is a file that loads and holds a constant too large to be read;
   `process_savedOnes` is about such a file. -/

namespace Dataflow

/-! ## Attributes that are brought in -/

namespace Node

variable {n : Node}

theorem supported_make (op name : String) (inputs : List String) :
    (make op name inputs).Supported := by
  intro key a ha
  cases ha

theorem Supported.withInputs (hn : n.Supported) (inputs : List String) :
    ({ n with inputs := inputs } : Node).Supported := hn

theorem Supported.withAttribute (hn : n.Supported) (key : String) {a : Attribute}
    (ha : a.kind? ≠ none) : (n.withAttribute key a).Supported := by
  intro other b hb
  rw [attribute?, Node.withAttribute] at hb
  by_cases ho : other = key
  · rw [ho, AttributeMap.get?_insert_self] at hb
    exact Option.some.inj hb ▸ ha
  · rw [AttributeMap.get?_insert_ne _ _ ho] at hb
    exact hn other b hb

/-- A constant has an element type and a tensor, and nothing else. -/
theorem supported_constant {name : String} {v : Value} {t : ElementType}
    {dims : Option (List Int64)} {placement : Placement} {c : Node}
    (hc : constant name v t dims placement = .ok c) : c.Supported := by
  have htyped : ((make placement.op name []).withAttribute elementTypeKey
      (.ofElementType t)).Supported :=
    (supported_make placement.op name []).withAttribute _ nofun
  unfold constant withTensor at hc
  cases hl : v.toLiteral t dims with
  | error e =>
    rw [hl] at hc
    cases hc
  | ok l =>
    rw [hl] at hc
    cases hc
    exact htyped.withAttribute _ nofun

end Node

namespace Graph

open Pass.FoldBinaryConstants

variable {g h : Graph} {name primary : String} {n c : Node}

/-- Every attribute of every node has a supported kind. -/
def Supported (g : Graph) : Prop := ∀ y n, g.node? y = some n → n.Supported

theorem supported_iff : g.Supported ↔ ∀ n ∈ g.nodes, n.Supported := by
  constructor
  · exact fun hs n hn => hs n.name n (node?_of_mem_nodes hn)
  · exact fun hs y n hn => hs n (node?_eq_some.mp hn).1

theorem build_supported {ns : List Node} (hs : ∀ n ∈ ns, n.Supported) : (build ns).Supported := by
  rw [supported_iff, build_nodes]
  exact fun n hn => hs n (mem_of_mem_keepFirst hn)

theorem Supported.bypass (hs : g.Supported) (hd : g.ConsumersDistinct) :
    (Graph.bypass name primary g).Supported := by
  intro y m hm
  obtain ⟨n, inputs, hn, rfl⟩ := exists_node?_of_bypass hd hm
  exact (hs y n hn).withInputs inputs

theorem Supported.collapse (hs : g.Supported) (hd : g.ConsumersDistinct)
    (hn : g.node? name = some n) (hf : folded? g n = .ok (some c)) :
    (Graph.collapse c.bare name g).Supported := by
  intro y m hm
  rcases exists_node?_of_collapse hd hn hf hm with ⟨-, rfl⟩ | ⟨l, inputs, hl, rfl⟩
  · obtain ⟨o, a, -, -, hc⟩ := folded?_eq_some.mp hf
    exact (Node.supported_constant hc).withInputs []
  · exact (hs y l hl).withInputs inputs

/-- A chain of steps leaves attributes of supported kinds only. -/
theorem Simplifies.supported {r : PassResult} (hs : g.Simplifies r h) (hg : g.Workable)
    (ha : g.Supported) : h.Supported := by
  induction hs with
  | done g => exact ha
  | seen g => exact ha
  | splice _ _ _ => exact ha.bypass hg.consumersDistinct
  | fold hn hf => exact ha.collapse hg.consumersDistinct hn hf
  | merge hs _ ih ih' => exact ih' (hs.workable hg) (ih hg ha)

end Graph

/-! ## Files -/

namespace Location

variable {p : Pipeline} {input output l : Location} {saved : SavedGraph}

def Writable (l : Location) : Prop := ∃ content k, l.write content = .ok k

theorem Writable.write (hl : l.Writable) (content : Bytes) :
    l.write content = .ok (.file content) := by
  obtain ⟨other, k, hk⟩ := hl
  cases l with
  | file _ => rfl
  | vacant => rfl
  | unreachable => cases hk
  | directory => cases hk

theorem supported_of_load (hl : l.load = .ok saved) : ∀ n ∈ saved.nodes, n.Supported := by
  cases l with
  | file content => exact SavedGraph.supported_of_ofBytes hl
  | vacant => cases hl
  | unreachable => cases hl
  | directory => cases hl

theorem load_toBytes (hlen : saved.toBytes.length < Wire.lengthLimit)
    (hs : ∀ n ∈ saved.nodes, n.Supported) : (file saved.toBytes).load = .ok saved := by
  show SavedGraph.ofBytes saved.toBytes = .ok saved
  rw [SavedGraph.ofBytes_of_decode (SavedGraph.decode_toBytes hlen),
    SavedGraph.checkAttributes_eq_ok.mpr hs]
  rfl

section Run

variable {r : PassResult} {h : Graph}

/-- What is written once the input has been loaded and the pipeline has run. -/
theorem process_of_run (hl : input.load = .ok saved) (hw : output.Writable)
    (hr : p.run (.build saved.nodes) = (.ok r, h)) :
    process p input output = .ok (r, .file { saved with nodes := h.nodes }.toBytes) := by
  have ht : transform p saved = .ok (r, { saved with nodes := h.nodes }) := by
    rw [transform, hr]
  have hs : output.save { saved with nodes := h.nodes } =
      .ok (.file { saved with nodes := h.nodes }.toBytes) := hw.write _
  rw [process, hl]
  show (transform p saved >>= _) = _
  rw [ht]
  show (output.save { saved with nodes := h.nodes } >>= _) = _
  rw [hs]
  rfl

theorem process_of_error {e : Error} (hl : input.load = .ok saved)
    (hr : p.run (.build saved.nodes) = (.error e, h)) :
    process p input output = .error e ∧ afterProcess p input output = output := by
  have hp : process p input output = .error e := by
    have ht : transform p saved = .error e := by rw [transform, hr]
    rw [process, hl]
    show (transform p saved >>= _) = _
    rw [ht]
    rfl
  exact ⟨hp, by rw [afterProcess, hp]⟩

end Run

/-- A pipeline of folding and removing identities, in any order and number and with any settings, is
run from file to file. From an input that loads with plain names a file is written that loads again,
unless it is longer than a length can tell: its nodes are those of the graph after the passes, and all
else is as it was loaded. If the passes overrun, or if the input cannot be loaded, what stands at the
output stays. -/
theorem process_outcome
    (hps : ∀ q ∈ p.passes, q = Pass.foldBinaryConstants ∨ q = Pass.removeIdentity)
    (input output : Location) :
    (∀ saved, input.load = .ok saved → (∀ n ∈ saved.nodes, Reference.isPlain n.name = true) →
      output.Writable →
        (∃ r h rewritten, p.run (.build saved.nodes) = (.ok r, h) ∧
          rewritten = { saved with nodes := h.nodes } ∧
          process p input output = .ok (r, .file rewritten.toBytes) ∧
          afterProcess p input output = .file rewritten.toBytes ∧
          (rewritten.toBytes.length < Wire.lengthLimit →
            (Location.file rewritten.toBytes).load = .ok rewritten)) ∨
        ∃ h, p.run (.build saved.nodes) = (.error (.overrun .bytes), h) ∧ h.Overrunning ∧
          process p input output = .error (.overrun .bytes) ∧
          afterProcess p input output = output) ∧
    ∀ e, input.load = .error e →
      process p input output = .error e ∧ afterProcess p input output = output := by
  constructor
  · intro saved hl hn hw
    have hg : (Graph.build saved.nodes).Workable := Graph.build_workable hn
    obtain ⟨r, h, hr | ⟨hr, hover⟩, -, hs⟩ := Pipeline.simplifying_run hps _ hg
    · have ha : h.Supported := hs.supported hg (Graph.build_supported (supported_of_load hl))
      have hdone := process_of_run hl hw hr
      refine .inl ⟨r, h, _, hr, rfl, hdone, by rw [afterProcess, hdone], fun hlen => ?_⟩
      exact load_toBytes hlen (Graph.supported_iff.mp ha)
    · exact .inr ⟨h, hr, hover, process_of_error hl hr⟩
  · exact fun e he => process_keeps he

def numberNode (name : String) (x : Binary32) : Node :=
  ((Node.constant name (.float (.scalar x)) .float none .cpu).toOption).getD default

def packNode (inputs : List String) : Node :=
  { Node.make "Pack" "out" inputs with
    attributes := .ofList [("N", .int 1), ("axis", .int (-1))] }

/-- A sum of constants behind a copy, with all that a saved graph carries along. -/
def copiedSum : SavedGraph where
  nodes := [numberNode "one" .one, .make "Identity" "copy" ["one"],
    .make "Add" "sum" ["one", "copy"], packNode ["sum:1", "^copy"]]
  library := [0x0a, 0x00]
  version := -3
  versions := some { producer := 24, badConsumers := [7] }
  debugInfo := [0xff]

/-- What is saved once the copy is gone and the sum has become the number two. -/
def foldedSum : SavedGraph :=
  { copiedSum with nodes :=
    [numberNode "one" .one, numberNode "sum" ⟨0x40000000⟩, packNode ["sum:1", "^one"]] }

theorem process_outcome_copiedSum :
    (Location.file copiedSum.toBytes).load = .ok copiedSum ∧
    (∃ r, process .standard (.file copiedSum.toBytes) .vacant = .ok (r, .file foldedSum.toBytes)) ∧
    (Location.file foldedSum.toBytes).load = .ok foldedSum ∧
    afterProcess .standard .directory (.file [0x0a]) = .file [0x0a] := by
  have hload : (Location.file copiedSum.toBytes).load = .ok copiedSum := by
    refine load_toBytes (by decide +kernel) fun n hn => ?_
    apply Node.unsupportedKey?_eq_none.mp
    revert n
    decide
  have hrun : (Pipeline.standard.run (.build copiedSum.nodes)).1 =
      .ok ⟨2, 2, 1, ["copy", "sum"]⟩ := by decide +kernel
  have hnodes : (Pipeline.standard.run (.build copiedSum.nodes)).2.nodes = foldedSum.nodes := by
    decide +kernel
  have hout := @process_outcome .standard Pipeline.standard_passes
  rcases (hout (.file copiedSum.toBytes) .vacant).1 copiedSum hload (by decide) ⟨[], _, rfl⟩ with
    ⟨r, h, rewritten, hr, rfl, hdone, -, hsaved⟩ | ⟨h, hr, -⟩
  · rw [hr] at hnodes
    have hfolded : { copiedSum with nodes := h.nodes } = foldedSum := by
      rw [hnodes]
      rfl
    rw [hfolded] at hdone hsaved
    exact ⟨hload, ⟨r, hdone⟩, hsaved (by decide +kernel), ((hout .directory _).2 _ rfl).2⟩
  · rw [hr] at hrun
    cases hrun

/-- A sum with an operand that cannot be allocated, saved with nothing else. -/
def savedOnes : SavedGraph := { nodes := Pipeline.onesSum }

/-- An input may load with plain names, and nothing is written at a place where a file can be. -/
theorem process_savedOnes : (Location.file savedOnes.toBytes).load = .ok savedOnes ∧
    (∀ n ∈ savedOnes.nodes, Reference.isPlain n.name = true) ∧ Writable .vacant ∧
    process .standard (.file savedOnes.toBytes) .vacant = .error (.overrun .bytes) ∧
    afterProcess .standard (.file savedOnes.toBytes) .vacant = .vacant := by
  have hload : (Location.file savedOnes.toBytes).load = .ok savedOnes := by
    refine load_toBytes (by decide +kernel) fun n hn => ?_
    apply Node.unsupportedKey?_eq_none.mp
    revert n
    decide
  have hrun : (Pipeline.standard.run (.build savedOnes.nodes)).1 = .error (.overrun .bytes) := by
    decide +kernel
  exact ⟨hload, by decide, ⟨[], _, rfl⟩, process_of_error hload (Prod.ext hrun rfl)⟩

end Location
end Dataflow
