import Dataflow.Graph.Edit.Splice
import Dataflow.Pass.FoldBinaryConstants
import Dataflow.Pattern.Match

/- Nodes that forward their first input are spliced out. Those that cannot be spliced are kept. With
   folding this makes the standard pipeline. -/

namespace Dataflow

namespace Pass

namespace RemoveIdentity

def pattern : Pattern := ⟨[.required Op.identities]⟩

/-- Splices an identity out if that is possible. -/
def attempt (name : String) : Edit PassResult := fun g =>
  let seen : PassResult := { matched := 1 }
  match Graph.splice name g with
  | (.ok _, h) => (.ok (seen.record name 1), h)
  | (.error _, h) => (.ok seen, h)

end RemoveIdentity

def removeIdentity : Pass where
  name := "RemoveIdentity"
  sites g := (RemoveIdentity.pattern.search g).map Match.last
  attempt := RemoveIdentity.attempt

end Pass

/-- Folding arithmetic on constants, and then removing identities, until nothing changes. -/
def Pipeline.standard : Pipeline where
  passes := [Pass.foldBinaryConstants, Pass.removeIdentity]

end Dataflow
