/- What a pass over a graph did, in numbers and names. Results of passes that run one after the
   other are merged. -/

namespace Dataflow

/-- What one pass or several passes did. -/
structure PassResult where
  /-- Places where something could be done. -/
  matched : Nat := 0
  /-- Places where something was done. -/
  applied : Nat := 0
  /-- Nodes that went away. -/
  removed : Nat := 0
  /-- The nodes at those places, in order. -/
  touched : List String := []
  deriving DecidableEq, Repr

namespace PassResult

def empty : PassResult := {}

/-- The result after a step at a node that took nodes out. -/
def record (r : PassResult) (name : String) (removed : Nat) : PassResult :=
  { r with
    applied := r.applied + 1
    removed := r.removed + removed
    touched := r.touched ++ [name] }

def changed (r : PassResult) : Bool := 0 < r.applied

/-- The result of one run and then another. -/
def merge (r s : PassResult) : PassResult where
  matched := r.matched + s.matched
  applied := r.applied + s.applied
  removed := r.removed + s.removed
  touched := r.touched ++ s.touched

end PassResult
end Dataflow
