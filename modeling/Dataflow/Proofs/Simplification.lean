import Dataflow.Proofs.Evaluation
import Dataflow.Proofs.Meaning
import Dataflow.Proofs.Rewiring

/- Splicing an identity out and folding arithmetic on constants leave the values of all other
   nodes as they are. Whatever solves a graph before the step solves it afterwards: the
   references that changed carry what they carried, and the constant that comes in holds what the
   arithmetic gave (`solves_bypass`, `solves_collapse`). Both steps keep a consistent acyclic
   graph one (`bypass_sound`, `collapse_sound`). -/

namespace Dataflow

open Relation (TransGen)

namespace Graph

variable {g h : Graph} {a b name primary : String}

/-- A consistent acyclic graph with plain names. -/
structure Sound (g : Graph) : Prop extends Recorded g where
  consumersReferring : g.ConsumersReferring
  acyclic : g.Acyclic

theorem Sound.check (hg : g.Sound) : g.check = .ok () :=
  check_eq_ok_iff.mpr ⟨hg.toRecorded.inputsRecorded, hg.consumersReferring⟩

theorem sound_of_check (hc : g.check = .ok ()) (hp : g.PlainNames) (hd : g.ConsumersDistinct)
    (ha : g.Acyclic) : g.Sound :=
  { recorded_of_check hc hp hd with
    consumersReferring := (check_eq_ok_iff.mp hc).2
    acyclic := ha }

theorem Sound.mem_consumers_iff (hg : g.Sound) : a ∈ g.consumers b ↔ g.Reads a b := by
  refine ⟨?_, ?_⟩
  · exact fun ha => consumersReferring_iff.mp hg.consumersReferring a b ha
  · exact fun hr => hg.presentInputsRecorded a b hr (hg.closed a b hr)

theorem Sound.not_reads_self (hg : g.Sound) : ¬g.Reads a a := fun hr => hg.acyclic a (.single hr)

theorem Acyclic.of_reads (ha : g.Acyclic) (hr : ∀ a b, h.Reads a b → TransGen g.Reads a b) :
    h.Acyclic :=
  fun a ht => ha a (ht.lift' id hr)

/-! ## Splicing -/

theorem bypass_sound (hg : g.Sound) (hc : checkSplice name g = .ok primary) :
    (bypass name primary g).Sound := by
  have hm : Command.Moves (.splice name) g (bypass name primary g) := .splice hc
  have hw : Command.Rewires (.splice name) ∧ Command.Plain (.splice name) :=
    ⟨trivial, fun n hn => nomatch hn⟩
  have hp := hg.plainNames _ (has_primary hc)
  refine { hm.recorded hw hg.toRecorded with consumersReferring := ?_, acyclic := ?_ }
  · exact (hm.consumersReferring_iff hw hg.plainNames hg.consumersReferring).mpr not_false
  · apply hg.acyclic.of_reads
    intro a b hr
    obtain ⟨-, ⟨-, hg⟩ | ⟨-, ⟨hg, -⟩ | ⟨hg, hb⟩⟩⟩ := (reads_bypass hp).mp hr
    · exact .single hg
    · exact .single hg
    · -- The consumer reaches the producer through the node that is spliced out.
      rw [hb]
      exact .tail (.single hg) (reads_primary hc)

theorem node?_bypass_eq (hd : g.ConsumersDistinct) (y : String) :
    (bypass name primary g).node? y = if y = name then none
      else (g.node? y).map fun n =>
        if y ∈ g.consumers name then n.redirectInputs name (pastSplice primary) else n := by
  rw [node?_bypass, node?_redirect (hd.nodup_consumers name)]
  by_cases hc : y ∈ g.consumers name
  · simp only [hc, if_true]
  · simp only [hc, if_false, Option.map_id']

/-! ## Folding -/

section Fold

variable {constant : Node}

theorem reads_collapse (hg : g.Sound) (hn : constant.name = name)
    (hc : checkFold constant.bare name g = .ok ())
    (hr : (collapse constant.bare name g).Reads a b) : g.Reads a b := by
  have hp : Reference.isPlain constant.bare.name = true := by
    obtain ⟨n, hx, -⟩ := (checkFold_eq_ok.mp hc).2.1
    exact hn ▸ hg.plainNames name (has_of_node? hx)
  have hs := Command.supersedes_of_checkFold hp hc
  have ht := thinned_thins name g
  rcases (hs.reads a b).mp hr with ⟨-, hb⟩ | ⟨-, -, ⟨-, hr⟩ | ⟨-, ⟨hr, -⟩ | ⟨hr, hb⟩⟩⟩
  · cases hb
  · exact (ht.reads.mp hr).2
  · exact (ht.reads.mp hr).2
  · exact (hb.trans hn) ▸ (ht.reads.mp hr).2

theorem collapse_sound (hg : g.Sound) (hn : constant.name = name)
    (hc : checkFold constant.bare name g = .ok ()) : (collapse constant.bare name g).Sound := by
  obtain ⟨n, hx, -⟩ := (checkFold_eq_ok.mp hc).2.1
  have hm : Command.Moves (.fold constant name) g (collapse constant.bare name g) := .fold hc
  have hw : Command.Rewires (.fold constant name) ∧ Command.Plain (.fold constant name) := by
    refine ⟨trivial, fun m hm => ?_⟩
    cases hm
    exact hn ▸ hg.plainNames name (has_of_node? hx)
  have hs : ¬g.Strands (.fold constant name) := by
    intro hcase
    rcases hcase with hself | ⟨a, ha, hna⟩
    · exact hg.not_reads_self (hg.mem_consumers_iff.mp hself)
    · -- A consumer that went away as a feeder would be read by the node that it reads.
      have hr : g.Reads a name := hg.mem_consumers_iff.mp ha
      exact hg.acyclic a (.tail (.single hr) (reads_of_dropped hr.has hna))
  refine { hm.recorded hw hg.toRecorded with consumersReferring := ?_, acyclic := ?_ }
  · exact (hm.consumersReferring_iff hw hg.plainNames hg.consumersReferring).mpr hs
  · exact hg.acyclic.of_reads fun a b hr => .single (reads_collapse hg hn hc hr)

/-- The nodes after a fold: the constant, and those that stay, which refer to it as they referred to
the node it stands for. -/
theorem node?_collapse (hd : g.ConsumersDistinct) (hn : constant.name = name)
    (hx : g.has name = true) (y : String) : (collapse constant.bare name g).node? y =
      if y = name then some constant.bare
      else ((thinned name g).node? y).map fun n =>
        if y ∈ g.consumers name then n.redirectInputs name (renamed name) else n := by
  have ho := (thinned_thins name g).stays hx
  have hb : constant.bare.name = name := hn
  have he := @node?_exchange (thinned name g) constant.bare name (g.consumers name) ho
    (hd.nodup_consumers name) y
  rw [hb] at he
  refine he.trans ?_
  by_cases hy : y = name
  · -- The constant has no inputs that could be redirected.
    rw [if_pos hy, if_pos hy, Option.map_some]
    split <;> rfl
  · simp only [hy, if_false]

end Fold

end Graph

/-! ## Values after a splice -/

section Splice

open Dataflow.Graph

variable {V : Type*} {I : Interpretation V} {g : Graph} {v : String → UInt32 → Option V}
  {name primary : String}

/-- An identity has on every port what its first input carries. -/
theorem value_identity (hc : checkSplice name g = .ok primary)
    (hid : ∀ n, g.node? name = some n → n.op ∈ Op.identities) (hv : I.Solves g v) (port : UInt32) :
    v name port = v (Reference.parse primary).node (Reference.parse primary).port := by
  obtain ⟨n, hn, -, -, hh, hd, -⟩ := checkSplice_eq_ok.mp hc
  obtain ⟨rest, hi⟩ : ∃ rest, n.inputs = primary :: rest := by
    cases hi : n.inputs with
    | nil =>
      rw [hi] at hh
      cases hh
    | cons i rest =>
      rw [hi] at hh
      cases hh
      exact ⟨rest, rfl⟩
  have hargs : n.dataValues v =
      v (Reference.parse primary).node (Reference.parse primary).port ::
        rest.flatMap (Node.carried v) := by
    rw [Node.dataValues_eq, hi, List.flatMap_cons, Node.carried]
    simp only [hd, if_true, List.cons_append, List.nil_append]
  calc v name port = I.apply n.bare (n.dataValues v) port := hv name n hn port
    _ = v (Reference.parse primary).node (Reference.parse primary).port := by
      rw [hargs]
      exact I.identity _ _ port (hid n hn)

theorem carries_pastSplice (hp : Reference.isPlain (Reference.nodeOf primary) = true)
    (hc : checkSplice name g = .ok primary)
    (hid : ∀ n, g.node? name = some n → n.op ∈ Op.identities) (hv : I.Solves g v) :
    Node.Carries v name (pastSplice primary) := by
  obtain ⟨-, -, -, -, -, hd, -⟩ := checkSplice_eq_ok.mp hc
  intro r hr
  refine ⟨isData_pastSplice hp hd r, fun hdata => ?_⟩
  have hcontrol : ¬r.control = true := by simpa [Reference.isData] using hdata
  rw [pastSplice, if_neg hcontrol, hr]
  exact (value_identity hc hid hv r.port).symm

theorem solves_bypass (hg : g.Sound) (hc : checkSplice name g = .ok primary)
    (hid : ∀ n, g.node? name = some n → n.op ∈ Op.identities) (hv : I.Solves g v) :
    I.Solves (bypass name primary g) v := by
  have hp := hg.plainNames _ (has_primary hc)
  intro y n hy port
  rw [node?_bypass_eq hg.consumersDistinct] at hy
  by_cases hyn : y = name
  · rw [if_pos hyn] at hy
    cases hy
  · rw [if_neg hyn] at hy
    obtain ⟨m, hm, rfl⟩ := Option.map_eq_some_iff.mp hy
    exact hv.redirected (carries_pastSplice hp hc hid hv) hm _ port

end Splice

/-! ## Values after a fold -/

/-- A fold that is looked for is not refused where the recorded consumers read the node. -/
theorem Pass.FoldBinaryConstants.checkFold_of_folded {g : Graph} {n c : Node} {name : String}
    (hr : ∀ a ∈ g.consumers name, g.Reads a name) (hn : g.node? name = some n)
    (hf : folded? g n = .ok (some c)) : Graph.checkFold c.bare name g = .ok () := by
  obtain ⟨o, a, ho, -, -⟩ := folded?_eq_some.mp hf
  have hname : c.name = name := name_of_folded hn hf
  apply Graph.checkFold_eq_ok.mpr
  refine ⟨isConstant_of_folded hf, ⟨n, hn, ho.isConstant⟩, ?_⟩
  apply Graph.checkReplace_eq_ok.mpr
  refine ⟨Graph.has_of_node? hn, ?_, fun x hx => .inr hx, fun p hp => nomatch hp⟩
  intro x hx
  exact ⟨fun hne => absurd hname hne, hr x hx⟩

section Fold

open Dataflow.Graph Pass.FoldBinaryConstants

variable {V : Type*} {I : Interpretation V} {g : Graph} {v : String → UInt32 → Option V}
  {n c : Node} {name : String}

theorem carried_operand {input : String} {m : Node} {a : DenseArray Binary32}
    (hm : Names g input m) (hx : m.constantValue = .ok (.float a)) (hv : I.Solves g v) :
    Node.carried v input = [some (I.ofValue (.float a))] := by
  obtain ⟨hd, hp, hn⟩ := hm
  have hc : m.bare.isConstant = true := Node.isConstant_of_constantValue hx
  rw [Node.carried]
  simp only [hd, if_true, hp]
  exact congrArg (fun x => [x]) ((hv _ m hn 0).trans (I.constant _ hc hx))

theorem value_folded (hn : g.node? name = some n) (hf : folded? g n = .ok (some c))
    (hv : I.Solves g v) (port : UInt32) : v name port = I.apply c.bare [] port := by
  obtain ⟨o, a, ho, ha, hc⟩ := folded?_eq_some.mp hf
  obtain ⟨left, right, hi, hl, hr⟩ := ho.inputs
  have hconst : c.bare.isConstant = true := isConstant_of_folded hf
  by_cases hport : port = 0
  · obtain ⟨hb, hfit, -⟩ := DenseArray.zipBroadcast?_isBroadcast ha
    have hval : c.constantValue = .ok (.float a) := Node.constantValue_constant hc rfl hfit
    have hargs : n.dataValues v =
        [some (I.ofValue (.float o.left)), some (I.ofValue (.float o.right))] := by
      rw [Node.dataValues_eq, hi, List.flatMap_cons, List.flatMap_cons, List.flatMap_nil,
        carried_operand hl ho.left hv, carried_operand hr ho.right hv]
      rfl
    calc v name port = I.apply n.bare (n.dataValues v) port := hv name n hn port
      _ = some (I.ofValue (.float a)) := by
        rw [hargs, hport]
        exact I.arithmetic ho.arithmetic hb
      _ = I.apply c.bare [] port := by
        rw [hport]
        exact (I.constant [] hconst hval).symm
  · have hfoldable : n.bare.op ∈ Op.foldables :=
      Arithmetic.ofOp?_isSome.mp (by rw [show n.bare.op = n.op from rfl, ho.arithmetic]; rfl)
    calc v name port = I.apply n.bare (n.dataValues v) port := hv name n hn port
      _ = none := I.single _ (.inr hfoldable) hport
      _ = I.apply c.bare [] port := (I.single _ (.inl hconst) hport).symm

/-- A renamed reference reads as before, but for the port of a control reference. -/
theorem carries_renamed (hp : Reference.isPlain name = true) :
    Node.Carries v name (renamed name) := by
  intro r hr
  refine ⟨isData_renamed hp r, fun hdata => ?_⟩
  have hcontrol : r.control = false := by simpa [Reference.isData] using hdata
  rw [renamed, Reference.parse_render (r := { r with node := name }) hp, hr]
  simp only [hcontrol, Bool.false_eq_true, if_false]

theorem solves_collapse (hg : g.Sound) (hn : g.node? name = some n) (hf : folded? g n = .ok (some c))
    (hv : I.Solves g v) : I.Solves (collapse c.bare name g) v := by
  have hx := has_of_node? hn
  intro y m hy port
  rw [node?_collapse hg.consumersDistinct (name_of_folded hn hf) hx] at hy
  by_cases hyn : y = name
  · rw [if_pos hyn] at hy
    cases hy
    rw [hyn]
    exact value_folded hn hf hv port
  · rw [if_neg hyn] at hy
    obtain ⟨k, hk, rfl⟩ := Option.map_eq_some_iff.mp hy
    have hgk : g.node? y = some k := by
      rw [← hk]
      exact ((thinned_thins name g).node y (has_of_node? hk)).symm
    exact hv.redirected (carries_renamed (hg.plainNames name hx)) hgk _ port

end Fold

end Dataflow
