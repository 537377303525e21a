import Dataflow.Journal.Edit
import Dataflow.Pass.RemoveIdentity

/- What is told while passes run. A narrator tells what a pass does at its start and at each
   site, by the graph as it is then. -/

namespace Dataflow

/-- A pass, with what is told of it. -/
structure Narrator where
  pass : Pass
  /-- What is told while the sites are listed. -/
  opening : Graph → List Journal.Line := fun _ => []
  /-- What is told while a site is looked at. -/
  site : Graph → String → List Journal.Line := fun _ _ => []

namespace Journal

/-- What is told at the sites of a pass, up to the first that is refused. -/
def ofSites (n : Narrator) : List String → Graph → List Line
  | [], _ => []
  | name :: rest, g =>
    n.site g name ++
      match n.pass.attempt name g with
      | (.ok _, h) => ofSites n rest h
      | (.error _, _) => []

def ofPass (n : Narrator) (g : Graph) : List Line :=
  n.opening g ++ ofSites n (n.pass.sites g) g

def ofPasses (tolerant : Bool) (round? : Option Nat) : List Narrator → Graph → List Line
  | [], _ => []
  | n :: rest, g =>
    ofPass n g ++
      match n.pass.run g with
      | (.ok r, h) =>
        .event (.passFinished n.pass.name round? r.applied) :: ofPasses tolerant round? rest h
      | (.error e, h) =>
        -- What a refused pass did before stays, and the next one starts there.
        if tolerant && !e.isOverrun then
          .event (.passFailed n.pass.name e) :: ofPasses tolerant round? rest h
        else []

def ofRounds (narrators : List Narrator) (tolerant : Bool) (round : Nat) :
    Nat → Graph → List Line
  | 0, _ => []
  | more + 1, g =>
    ofPasses tolerant (some round) narrators g ++
      match Pass.runAll tolerant (narrators.map Narrator.pass) g with
      | (.ok r, h) => if r.changed then ofRounds narrators tolerant (round + 1) more h else []
      | (.error _, _) => []

/-! ## The passes of the library -/

/-- Both inputs of an arithmetic node are read before anything else is asked of them. -/
def ofOperands (n : Node) : List Line :=
  match Arithmetic.ofOp? n.op, n.inputs with
  | some _, [left, right] => ofReads [left, right]
  | _, _ => []

def ofOperation (g : Graph) (name : String) : List Line :=
  match (g.node? name).map (Pass.FoldBinaryConstants.operation? g) with
  | some (.ok (some o)) =>
    match Shape.broadcast? o.left.shape o.right.shape with
    | none => [.event (.shapesDisagree name o.left.shape o.right.shape)]
    | some _ =>
      match Pass.FoldBinaryConstants.foldedAt? g name with
      | .ok (some constant) =>
        ofCommand (.fold constant name) g ++
          match Graph.fold constant name g with
          | (.ok _, h) => [.event (.operationFolded name (g.size - h.size))]
          | (.error _, _) => []
      | _ => []
  | _ => []

def ofFolding (g : Graph) (name : String) : List Line :=
  ((g.node? name).map ofOperands).getD [] ++ ofOperation g name

def ofIdentity (g : Graph) (name : String) : List Line :=
  ofCommand (.splice name) g ++
    match (Graph.splice name g).1 with
    | .ok _ => []
    | .error e => [.event (.identityKept name e)]

end Journal

namespace Narrator

def foldBinaryConstants : Narrator where
  pass := Pass.foldBinaryConstants
  site := Journal.ofFolding

def removeIdentity : Narrator where
  pass := Pass.removeIdentity
  opening := Journal.ofSearch Pass.RemoveIdentity.pattern
  site := Journal.ofIdentity

end Narrator
end Dataflow
