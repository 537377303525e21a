import Dataflow.Proofs.PipelineSteps

/- A pass reports how many places it found, how many of them it changed, which they were, and how
   many nodes went away. The nodes of a graph are counted by its names, which are distinct, so
   that what an edit does to the size is read off from the names that are there afterwards
   (`size_bypass`). A chain of steps reports what it did (`Simplifies.exact`), and so does a
   pipeline on a graph built from any nodes, unless it is cut short by an overrun
   (`run_build_exact`, `standard_run_onesSum`). -/

namespace Dataflow

namespace Graph

variable {g h : Graph} {x name primary : String} {n c : Node}

/-! ## Counting nodes -/

theorem size_eq_length_names (g : Graph) : g.size = g.names.length := by
  rw [size, names, List.length_map]

theorem size_le_of_has (hh : ∀ y, h.has y = true → g.has y = true) : h.size ≤ g.size := by
  have hsub : h.names ⊆ g.names := fun y hy => has_iff.mp (hh y (has_iff.mpr hy))
  rw [size_eq_length_names, size_eq_length_names]
  exact (List.subperm_of_subset h.nodup_names hsub).length_le

theorem length_of_lacks {l m : List String} (hl : l.Nodup) (hm : m.Nodup) (hx : x ∈ m)
    (h : ∀ y, y ∈ l ↔ y ≠ x ∧ y ∈ m) : l.length + 1 = m.length := by
  have hnot : x ∉ l := fun hmem => ((h x).mp hmem).1 rfl
  have hd : (x :: l).Nodup := List.nodup_cons.mpr ⟨hnot, hl⟩
  have hp : m.Perm (x :: l) := by
    refine (List.perm_ext_iff_of_nodup hm hd).mpr fun y => ?_
    rw [List.mem_cons, h]
    by_cases hy : y = x
    · simp [hy, hx]
    · simp [hy]
  rw [hp.length_eq, List.length_cons]

theorem size_of_has (hx : g.has x = true) (hh : ∀ y, h.has y = true ↔ y ≠ x ∧ g.has y = true) :
    h.size + 1 = g.size := by
  rw [size_eq_length_names, size_eq_length_names]
  refine length_of_lacks h.nodup_names g.nodup_names (has_iff.mp hx) fun y => ?_
  rw [← has_iff, ← has_iff]
  exact hh y

theorem size_bypass (hc : checkSplice name g = .ok primary) :
    (bypass name primary g).size + 1 = g.size := by
  obtain ⟨n, hn, -⟩ := checkSplice_eq_ok.mp hc
  exact size_of_has (has_of_node? hn) fun y => has_bypass

/-! ## Results -/

/-- The result says what happened between two graphs: the nodes that went away are counted, and every
place that was changed is named and was found. -/
structure Exact (g : Graph) (r : PassResult) (h : Graph) : Prop where
  removed : r.removed + h.size = g.size
  touched : r.touched.length = r.applied
  applied : r.applied ≤ r.matched

theorem Exact.merge {k : Graph} {r s : PassResult} (hr : g.Exact r h) (hs : h.Exact s k) :
    g.Exact (r.merge s) k where
  removed := by
    have := hr.removed
    have := hs.removed
    simp only [PassResult.merge]
    omega
  touched := by
    simp only [PassResult.merge, List.length_append, hr.touched, hs.touched]
  applied := Nat.add_le_add hr.applied hs.applied

theorem exact_record {removed : Nat} (hr : removed + h.size = g.size) :
    g.Exact (PassResult.record { matched := 1 } name removed) h where
  removed := by simpa [PassResult.record] using hr
  touched := rfl
  applied := Nat.le_refl 1

theorem Simplifies.exact {r : PassResult} (hs : g.Simplifies r h) (hg : g.Workable) :
    g.Exact r h := by
  induction hs with
  | done g => exact ⟨Nat.zero_add _, rfl, Nat.le_refl 0⟩
  | seen g => exact ⟨Nat.zero_add _, rfl, Nat.zero_le 1⟩
  | splice hc _ _ =>
    apply exact_record
    rw [Nat.add_comm]
    exact size_bypass hc
  | fold hn hf =>
    -- A fold may take out no node at all, and never adds one.
    have hages := Pass.FoldBinaryConstants.ages_collapse hg.consumersDistinct hn hf
    exact exact_record (Nat.sub_add_cancel (size_le_of_has fun _ => hages.has))
  | merge hs _ ih ih' => exact (ih hg).merge (ih' (hs.workable hg))

end Graph

namespace Pipeline

open Dataflow.Graph

/-- A pipeline of folding and removing identities, in any order and number and with any settings, is
not refused on a graph built from nodes with plain names, whatever their inputs are. Its result is
exact, unless the run is cut short at a node that overruns. -/
theorem run_build_exact {ns : List Node} {p : Pipeline}
    (hps : ∀ q ∈ p.passes, q = Pass.foldBinaryConstants ∨ q = Pass.removeIdentity)
    (hns : ∀ n ∈ ns, Reference.isPlain n.name = true) :
    (∃ r h, p.run (build ns) = (.ok r, h) ∧ r.removed + h.size = (build ns).size ∧
      r.touched.length = r.applied ∧ r.applied ≤ r.matched) ∨
    ∃ h, p.run (build ns) = (.error (.overrun .bytes), h) ∧ h.Overrunning := by
  have hg : (build ns).Workable := build_workable hns
  obtain ⟨r, h, hr | ⟨hr, hover⟩, -, hs⟩ := simplifying_run hps _ hg
  · have he := hs.exact hg
    exact .inl ⟨r, h, hr, he.removed, he.touched, he.applied⟩
  · exact .inr ⟨h, hr, hover⟩

/-- A loop, two nodes of one name and an input that names no node. -/
def tangledNodes : List Node :=
  [.make "Identity" "copy" ["loop:1", "^gone"], .make "Merge" "loop" ["loop", "copy"],
    .make "Identity" "relay" ["loop"], .make "Relu" "copy" ["^copy", ""]]

/-- Removing identities, folding and removing identities again, for at most three rounds. -/
def cleaning : Pipeline where
  passes := [Pass.removeIdentity, Pass.foldBinaryConstants, Pass.removeIdentity]
  maxRounds := 3
  continueOnError := true

theorem cleaning_run_tangledNodes : ∃ r h, cleaning.run (build tangledNodes) = (.ok r, h) ∧
    r.touched = ["relay"] ∧ r.removed + h.size = (build tangledNodes).size ∧
      r.touched.length = r.applied ∧ r.applied ≤ r.matched := by
  have hrun : (cleaning.run (build tangledNodes)).1 = .ok ⟨5, 1, 1, ["relay"]⟩ := by
    decide +kernel
  have hps : ∀ q ∈ cleaning.passes, q = Pass.foldBinaryConstants ∨ q = Pass.removeIdentity := by
    intro q hq
    simp only [cleaning, List.mem_cons, List.not_mem_nil, or_false] at hq
    rcases hq with rfl | rfl | rfl
    · exact .inr rfl
    · exact .inl rfl
    · exact .inr rfl
  have hns : ∀ n ∈ tangledNodes, Reference.isPlain n.name = true := by decide
  rcases run_build_exact hps hns with ⟨r, h, hr, hexact⟩ | ⟨h, hr, -⟩
  · rw [hr] at hrun
    cases hrun
    exact ⟨_, h, hr, rfl, hexact⟩
  · rw [hr] at hrun
    cases hrun

def onesNode : Node :=
  (Node.make Op.const "ones" []).withAttribute Node.valueKey (.tensor Literal.manyOnes)

/-- A sum with an operand that cannot be allocated. -/
def onesSum : List Node := [onesNode, .make "Add" "sum" ["ones", "ones"]]

/-- A run may be cut short where the result of another one would be exact. -/
theorem standard_run_onesSum : (∀ n ∈ onesSum, Reference.isPlain n.name = true) ∧
    (standard.run (build onesSum)).1 = .error (.overrun .bytes) := by
  decide +kernel

end Pipeline
end Dataflow
