import Dataflow.Journal.Check

/- What is told while a graph is edited: what the check reads, and then either the refusal or
   what the edit does. A node that is taken out reads its inputs to find its producers, and a
   consumer that is redirected reads all of its inputs, as they are when its turn comes. -/

namespace Dataflow.Journal

/-! ## Shared changes -/

def ofDetach (g : Graph) (name : String) : List Line := ofReads (g.inputs name)

def ofRedirect (producer : String) (target : Reference → String) :
    List String → Graph → List Line
  | [], _ => []
  | consumer :: rest, g =>
    ofReads (g.inputs consumer)
      ++ ofRedirect producer target rest (g.redirectReferences consumer producer target)

/-- What is told of a node that goes away because a new one has its name. -/
def ofDiscard (g : Graph) (name : String) : List Line :=
  if g.has name then .event (.discarded name) :: ofDetach g name else []

/-! ## The edits -/

def ofRemove (name : String) (g : Graph) : List Line :=
  let consumers := g.consumers name
  (if consumers.isEmpty then [] else [.event (.stillConsumed name consumers)])
    ++ ofDetach g name ++ [.event (.removed name)]

def ofBypass (name primary : String) (g : Graph) : List Line :=
  let consumers := g.consumers name
  let target := Graph.pastSplice primary
  -- A node that consumes itself is redirected before it is taken out.
  ofRedirect name target consumers g
    ++ ofDetach (g.redirect consumers name target) name
    ++ [.event (.spliced name (Reference.nodeOf primary))]

def ofExchange (new : Node) (old : String) (consumers : List String) (g : Graph) : List Line :=
  (if new.name = old then [] else ofDiscard g new.name) ++
    match Graph.seat? new old consumers g with
    | none => []
    | some seated =>
      ofDetach (g.vacate new old) old
        ++ ofRedirect old (Graph.renamed new.name) consumers seated
        ++ [.event (.replaced old new.name)]

def ofInterpose (new : Node) (producer? : Option String) (consumers : List String) (g : Graph) :
    List Line :=
  let redirected := match producer? with
    | some producer =>
      ofRedirect producer (Graph.towards new.name) consumers (g.detach new.name)
    | none => []
  ofDiscard g new.name ++ redirected ++ [.event (.inserted new.name producer?)]

def ofStandBefore (new : Node) (old : String) (consumers : List String) (g : Graph) : List Line :=
  ofDiscard g new.name
    ++ ofRedirect old (Graph.renamed new.name) consumers (g.detach new.name)
    ++ [.event (.constantSwapped old new.name)]

def ofDropFeeders (name : String) : List String → Graph → List Line
  | [], _ => []
  | p :: rest, g =>
    if g.feedsOnly p name then
      ofDetach g p ++ .event (.feederRemoved p) :: ofDropFeeders name rest (g.detach p)
    else ofDropFeeders name rest g

def ofCollapse (new : Node) (name : String) (g : Graph) : List Line :=
  let producers := ((g.node? name).map Node.producerNames).getD []
  -- The replacement is told by the graph without the feeders.
  ofDropFeeders name producers g
    ++ ofExchange new name (g.consumers name) (Graph.dropFeeders name producers g)
    ++ [.event (.folded name)]

/-- The journal of a command that is carried out. -/
def ofChange (c : Graph.Command) (g : Graph) : List Line :=
  match c with
  | .remove name => ofRemove name g
  | .splice name =>
    match Graph.checkSplice name g with
    | .ok primary => ofBypass name primary g
    | .error _ => []
  | .replace new old consumers => ofExchange new old consumers g
  | .insert new producer? consumers => ofInterpose new producer? consumers g
  | .swapConstant new old consumers => ofStandBefore new old consumers g
  | .fold new name => ofCollapse { new with inputs := [] } name g

def ofCommand (c : Graph.Command) (g : Graph) : List Line :=
  ofCheck c g ++
    match (c.run g).1 with
    | .error e => [.event (.refused c.name e)]
    | .ok _ => ofChange c g

end Dataflow.Journal
