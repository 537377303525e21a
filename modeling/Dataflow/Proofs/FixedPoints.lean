import Dataflow.Proofs.PassResults
import Dataflow.Proofs.PipelineValues

/- One pass makes room for the other: splicing an identity out turns an operand into a constant,
   and a fold turns what an identity reads into one. What gets smaller is the number of nodes
   with an operation that is folded or removed. Every step takes exactly one of them away
   (`Simplifies.applied_add_candidates`), so that a pipeline with as many rounds as there are
   such nodes comes to a round in which nothing happens, and stays there (`rounds_settles`,
   `run_build_settles`). -/

namespace Dataflow

open Dataflow.Graph Pass.FoldBinaryConstants

namespace Graph

variable {g h : Graph} {ops : List String} {x y name primary : String} {n c : Node}
  {r : PassResult}

/-! ## Counting candidates -/

/-- The number of nodes whose operation is one that is folded or removed. -/
def candidates (g : Graph) : Nat := (g.nodesByOps (Op.foldables ++ Op.identities)).length

def Candidate (g : Graph) (x : String) : Prop :=
  ∃ n, g.node? x = some n ∧ n.op ∈ Op.foldables ++ Op.identities

theorem mem_names_nodesByOps :
    x ∈ (g.nodesByOps ops).map Node.name ↔ ∃ n, g.node? x = some n ∧ n.op ∈ ops := by
  simp only [nodesByOps, Node.opIn, List.mem_map, List.mem_filter, List.contains_iff_mem,
    node?_eq_some, and_right_comm]

theorem nodup_names_nodesByOps (g : Graph) (ops : List String) :
    ((g.nodesByOps ops).map Node.name).Nodup := by
  have hs : (g.nodesByOps ops).Sublist g.nodes := List.filter_sublist
  exact (hs.map Node.name).nodup (g.map_name_nodes ▸ g.nodup_names)

theorem candidates_of_lacks (hx : g.Candidate x)
    (hh : ∀ y, h.Candidate y ↔ y ≠ x ∧ g.Candidate y) : h.candidates + 1 = g.candidates := by
  have hlen := length_of_lacks (nodup_names_nodesByOps h (Op.foldables ++ Op.identities))
    (nodup_names_nodesByOps g (Op.foldables ++ Op.identities)) (mem_names_nodesByOps.mpr hx)
    fun y => by
      rw [mem_names_nodesByOps, mem_names_nodesByOps]
      exact hh y
  rwa [List.length_map, List.length_map] at hlen

theorem Candidate.namesNonConstant (hx : g.Candidate x) : g.namesNonConstant x = true := by
  obtain ⟨n, hn, hop⟩ := hx
  refine namesNonConstant_of_op hn ?_
  rcases List.mem_append.mp hop with hf | hi
  · exact Op.isConstant_of_foldables _ hf
  · exact Op.isConstant_of_identities _ hi

theorem candidate_of_map {f : Node → Node} (hop : ∀ n, (f n).op = n.op)
    (hy : h.node? y = (g.node? y).map f) : h.Candidate y ↔ g.Candidate y := by
  unfold Candidate
  rw [hy]
  cases g.node? y with
  | none => simp
  | some n => simp [hop]

/-! ## What steps use up -/

theorem candidates_bypass (hd : g.ConsumersDistinct) (hn : g.node? name = some n)
    (hid : n.op ∈ Op.identities) : (bypass name primary g).candidates + 1 = g.candidates := by
  refine candidates_of_lacks ⟨n, hn, List.mem_append_right _ hid⟩ fun y => ?_
  have hy := @node?_bypass_eq g name primary hd y
  by_cases hne : y = name
  · rw [if_pos hne] at hy
    have hnot : ¬(bypass name primary g).Candidate y := by simp [Candidate, hy]
    exact iff_of_false hnot fun hboth => hboth.1 hne
  · rw [if_neg hne] at hy
    rw [candidate_of_map (fun n => by split <;> rfl) hy, and_iff_right hne]

/-- A fold takes away the node that is folded, and no other candidate: what goes with it are
constants. -/
theorem candidates_collapse (hd : g.ConsumersDistinct) (hn : g.node? name = some n)
    (hf : folded? g n = .ok (some c)) : (collapse c.bare name g).candidates + 1 = g.candidates := by
  refine candidates_of_lacks ⟨n, hn, List.mem_append_left _ (op_of_folded hf)⟩ fun y => ?_
  have hy := node?_collapse hd (name_of_folded hn hf) (has_of_node? hn) y
  by_cases hne : y = name
  · rw [if_pos hne] at hy
    have hnot : ¬(collapse c.bare name g).Candidate y := by
      intro hc
      obtain ⟨m, hm, hmc⟩ := namesNonConstant_iff.mp hc.namesNonConstant
      cases hy.symm.trans hm
      exact absurd (isConstant_of_folded hf) (by simp [hmc])
    exact iff_of_false hnot fun hboth => hboth.1 hne
  · rw [if_neg hne] at hy
    rw [candidate_of_map (fun n => by split <;> rfl) hy, and_iff_right hne]
    have ht := thinned_thins name g
    constructor
    · intro hc
      obtain ⟨m, hm, hop⟩ := hc
      exact ⟨m, ht.node y (has_of_node? hm) ▸ hm, hop⟩
    · intro hc
      have hk := has_thinned_of_namesNonConstant hn hf hc.namesNonConstant
      obtain ⟨m, hm, hop⟩ := hc
      exact ⟨m, (ht.node y hk).trans hm, hop⟩

/-- A chain of steps uses up one candidate for each step. -/
theorem Simplifies.applied_add_candidates (hs : g.Simplifies r h) (hg : g.Workable) :
    r.applied + h.candidates = g.candidates := by
  induction hs with
  | done g => exact Nat.zero_add _
  | seen g => exact Nat.zero_add _
  | splice _ hn hid =>
    rw [Nat.add_comm]
    exact candidates_bypass hg.consumersDistinct hn hid
  | fold hn hf =>
    rw [Nat.add_comm]
    exact candidates_collapse hg.consumersDistinct hn hf
  | merge hs _ ih ih' =>
    have := ih hg
    have := ih' (hs.workable hg)
    simp only [PassResult.merge]
    omega

theorem Overrunning.candidates_pos (hg : g.Overrunning) : 0 < g.candidates := by
  obtain ⟨x, n, hn, hover⟩ := hg
  have hmem : x ∈ (g.nodesByOps (Op.foldables ++ Op.identities)).map Node.name :=
    mem_names_nodesByOps.mpr ⟨n, hn, List.mem_append_left _ hover.foldable⟩
  have hlen := List.length_pos_of_mem hmem
  rwa [List.length_map] at hlen

theorem Simplifies.eq_of_applied (hs : g.Simplifies r h) (hr : r.applied = 0) : h = g := by
  induction hs with
  | done g => rfl
  | seen g => rfl
  | splice _ _ _ => cases hr
  | fold _ _ => cases hr
  | merge _ _ ih ih' =>
    obtain ⟨hr, hr'⟩ := Nat.add_eq_zero_iff.mp hr
    exact (ih' hr').trans (ih hr)

end Graph

/-! ## Rounds -/

namespace Pipeline

open Edit (Simplifying)

variable {p : Pipeline} {g h : Graph}

/-- A round of the passes finds nothing to do and leaves the graph alone. -/
def Settles (p : Pipeline) (g : Graph) : Prop :=
  ∃ r, Pass.runAll p.continueOnError p.passes g = (.ok r, g) ∧ r.applied = 0

theorem settles_of_applied {r : PassResult}
    (hrun : Pass.runAll p.continueOnError p.passes g = (.ok r, h)) (hs : g.Simplifies r h)
    (hr : r.applied = 0) : p.Settles g := by
  obtain rfl := hs.eq_of_applied hr
  exact ⟨r, hrun, hr⟩

/-- With as many rounds as there are candidates a pipeline ends where its passes find nothing to do:
a round that does something uses up a candidate. -/
theorem rounds_settles (hp : ∀ q ∈ p.passes, Simplifying Workable q.run) :
    ∀ {more : Nat} {g h : Graph} {r : PassResult}, g.Workable → g.candidates ≤ more →
      p.rounds more g = (.ok r, h) → p.Settles h := by
  intro more
  induction more with
  | zero =>
    intro g h r hg hle hr
    obtain ⟨s, k, hend, -, hs⟩ := Pass.simplifying_runAll hp g hg
    have hadd := hs.applied_add_candidates hg
    cases hr
    rcases hend with hrun | ⟨-, hover⟩
    · exact settles_of_applied hrun hs (by omega)
    · -- There is nothing left that could overrun.
      have hpos := hover.candidates_pos
      omega
  | succ more ih =>
    intro g h r hg hle hr
    obtain ⟨s, k, hend, hk, hs⟩ := Pass.simplifying_runAll hp g hg
    have hadd := hs.applied_add_candidates hg
    obtain ⟨s', k', hrun, hr⟩ := Edit.exists_of_bind hr
    rcases hend with hrun' | ⟨hrun', -⟩
    · cases hrun.symm.trans hrun'
      by_cases hc : s.changed = true
      · have hpos : 0 < s.applied := of_decide_eq_true hc
        rw [if_pos hc] at hr
        obtain ⟨t, l, hrun', hr⟩ := Edit.exists_of_bind hr
        cases hr
        exact ih hk (by omega) hrun'
      · have hzero : s.applied = 0 := Nat.eq_zero_of_not_pos fun hpos => hc (decide_eq_true hpos)
        rw [if_neg hc] at hr
        cases hr
        exact hs.eq_of_applied hzero ▸ settles_of_applied hrun hs hzero
    · cases hrun.symm.trans hrun'

theorem Settles.run (hp : p.Settles g) : ∃ r, p.run g = (.ok r, g) ∧ r.applied = 0 := by
  obtain ⟨r, hrun, hr⟩ := hp
  unfold Pipeline.run
  cases p.maxRounds with
  | zero => exact ⟨.empty, rfl, rfl⟩
  | succ more =>
    have hc : ¬r.changed = true := by simp [PassResult.changed, hr]
    refine ⟨r, ?_, hr⟩
    rw [rounds, Edit.bind_apply hrun, if_neg hc]
    rfl

/-- A pipeline of folding and removing identities, in any order and number and with any settings, makes
at most as many changes as there are nodes with an operation that is folded or removed, wherever it
ends. If it has as many rounds and does not overrun, it ends in a graph on which running it again
changes nothing. -/
theorem run_build_settles {ns : List Node} {p : Pipeline}
    (hps : ∀ q ∈ p.passes, q = Pass.foldBinaryConstants ∨ q = Pass.removeIdentity)
    (hns : ∀ n ∈ ns, Reference.isPlain n.name = true) :
    ∃ r h, p.run.Ends (build ns) r h ∧ (build ns).Simplifies r h ∧
      r.applied ≤ (build ns).candidates ∧
      (p.run (build ns) = (.ok r, h) → (build ns).candidates ≤ p.maxRounds →
        ∃ s, p.run h = (.ok s, h) ∧ s.applied = 0) := by
  have hg : (build ns).Workable := build_workable hns
  obtain ⟨r, h, hend, -, hs⟩ := simplifying_run hps _ hg
  have hadd := hs.applied_add_candidates hg
  refine ⟨r, h, hend, hs, by omega, fun hr hle => ?_⟩
  exact (rounds_settles (simplifying_passes hps) hg hle hr).run

/-- A sum that can be folded only after the copy of its operand is gone. -/
def copiedNodes : List Node :=
  [oneNode, .make "Identity" "copy" ["one"], .make "Add" "sum" ["one", "copy"],
    .make "Relu" "out" ["sum"]]

/-- The standard passes, for as many rounds as the sum and the copy need. -/
def twoRounds : Pipeline := { standard with maxRounds := 2 }

theorem twoRounds_run_copiedNodes : ∃ r h, twoRounds.run (build copiedNodes) = (.ok r, h) ∧
    r.applied = 2 ∧ ∃ s, twoRounds.run h = (.ok s, h) ∧ s.applied = 0 := by
  have hcount : (build copiedNodes).candidates = 2 := by decide
  have hplain : ∀ n ∈ copiedNodes, Reference.isPlain n.name = true := by decide
  have hrun : (twoRounds.run (build copiedNodes)).1 = .ok ⟨2, 2, 2, ["copy", "sum"]⟩ := by
    decide +kernel
  obtain ⟨r, h, hend, -, -, hfix⟩ := @run_build_settles copiedNodes twoRounds standard_passes hplain
  obtain ⟨rfl, hok⟩ := hend.of_ok hrun
  exact ⟨_, h, hok, rfl, hfix hok (hcount ▸ Nat.le_refl 2)⟩

end Pipeline
end Dataflow
