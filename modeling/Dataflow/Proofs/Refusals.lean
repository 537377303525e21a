import Dataflow.Graph.Build
import Dataflow.Pass.RemoveIdentity
import Dataflow.Proofs.Checks

/- An edit looks at a graph and then changes it. What it may be refused for is found while it
   looks, on any graph, consistent or not, so that a refusal leaves the graph alone. A pass is
   made of attempts, each of which is one edit: an attempt that reports no change made none
   (`Edit.Idles`), and neither did a pass in which all of them report none
   (`unchanged_of_refused_of_idle`). -/

namespace Dataflow

namespace Edit

/-- An edit that reports nothing applied leaves the graph as it was. -/
def Idles (e : Edit PassResult) : Prop :=
  ∀ g h r, e g = (.ok r, h) → r.applied = 0 → h = g

theorem idles_done : Idles (pure .empty) := by
  intro g h r hr _
  cases hr
  rfl

theorem Idles.merge {e f : Edit PassResult} (he : Idles e) (hf : Idles f) :
    Idles (do let r ← e; return r.merge (← f)) := by
  intro g k r hr hzero
  obtain ⟨s, h, hrun, hr⟩ := exists_of_bind hr
  obtain ⟨t, k', hrun', hr⟩ := exists_of_bind hr
  cases hr
  -- The merged result counts what both parts applied.
  obtain ⟨hs, ht⟩ := Nat.add_eq_zero_iff.mp hzero
  exact (hf h _ t hrun' ht).trans (he g h s hrun hs)

end Edit

namespace Pass

open Edit (Idles idles_done exists_of_bind)

theorem idles_attemptAll {attempt : String → Edit PassResult} (ha : ∀ s, Idles (attempt s)) :
    ∀ sites : List String, Idles (attemptAll attempt sites)
  | [] => idles_done
  | s :: rest => (ha s).merge (idles_attemptAll ha rest)

theorem idles_run {p : Pass} (ha : ∀ s, Idles (p.attempt s)) : Idles p.run :=
  fun g => idles_attemptAll ha (p.sites g) g

/-- Either the node does not fold, or what is reported is the fold. -/
theorem FoldBinaryConstants.idles_attempt (name : String) : Idles (attempt name) := by
  intro g h r hr hzero
  obtain ⟨_, _, hget, hr⟩ := exists_of_bind hr
  cases hget
  obtain ⟨c?, k, hfound, hr⟩ := exists_of_bind hr
  obtain ⟨-, rfl⟩ := Prod.mk.inj hfound
  cases c? with
  | none =>
    cases hr
    rfl
  | some c =>
    obtain ⟨_, _, -, hr⟩ := exists_of_bind hr
    cases hr
    cases hzero

theorem RemoveIdentity.idles_attempt (name : String) : Idles (attempt name) := by
  intro g h r hr hzero
  unfold attempt at hr
  cases hs : Graph.splice name g with
  | mk x k =>
    rw [hs] at hr
    cases x with
    | error e =>
      cases hr
      exact Edit.guarded_error hs
    | ok primary =>
      cases hr
      cases hzero

theorem idles_of_builtIn {p : Pass} (hp : p = foldBinaryConstants ∨ p = removeIdentity) :
    Idles p.run := by
  rcases hp with rfl | rfl
  · exact idles_run FoldBinaryConstants.idles_attempt
  · exact idles_run RemoveIdentity.idles_attempt

end Pass

namespace Graph

/-- On any graph, a command that is refused leaves everything as it was, and so does a pass that is not
refused and applied nothing. -/
theorem unchanged_of_refused_of_idle (g h : Graph) :
    (∀ (c : Command) (e : Error), c.run g = (.error e, h) → h = g) ∧
      ∀ p, p = Pass.foldBinaryConstants ∨ p = Pass.removeIdentity →
        ∀ r, p.run g = (.ok r, h) → r.applied = 0 → h = g :=
  ⟨fun _ _ hr => Command.run_error hr, fun _ hp r => Pass.idles_of_builtIn hp g h r⟩

/-- A copy that also waits for a node that is not there. -/
def waitingCopy : Graph :=
  build [.make "Placeholder" "x" [], .make "Identity" "copy" ["x", "^gone"]]

theorem unchanged_waitingCopy :
    (Command.splice "copy").run waitingCopy
        = (.error (.danglingReference "copy" "gone"), waitingCopy) ∧
      ∃ r, Pass.removeIdentity.run waitingCopy = (.ok r, waitingCopy) ∧
        r.matched = 1 ∧ r.applied = 0 := by
  have hsplice : ((Command.splice "copy").run waitingCopy).1
      = .error (.danglingReference "copy" "gone") := rfl
  have hpass : (Pass.removeIdentity.run waitingCopy).1 = .ok { matched := 1 } := rfl
  obtain ⟨hrefused, -⟩ :=
    unchanged_of_refused_of_idle waitingCopy ((Command.splice "copy").run waitingCopy).2
  obtain ⟨-, hidle⟩ :=
    unchanged_of_refused_of_idle waitingCopy (Pass.removeIdentity.run waitingCopy).2
  refine ⟨Prod.ext hsplice ?_, { matched := 1 }, Prod.ext hpass ?_, rfl, rfl⟩
  · exact hrefused (.splice "copy") _ (Prod.ext hsplice rfl)
  · exact hidle _ (.inr rfl) { matched := 1 } (Prod.ext hpass rfl) rfl

end Graph
end Dataflow
