import Dataflow.Graph.Build
import Dataflow.Pass
import Dataflow.Wire.Graph

/- What stands at the path of a file, reading and writing it, and running a pipeline over a saved
   graph from one path to another. An output stays as it was if the input cannot be loaded
   (`process_keeps`). -/

namespace Dataflow

def version : String := "0.1.0"

inductive Location where
  /-- A file. -/
  | file (content : Bytes)
  /-- Nothing, but a file can be made. -/
  | vacant
  /-- Nothing, in a directory that is not there either. -/
  | unreachable
  /-- A directory. -/
  | directory
  deriving DecidableEq, Repr

namespace Location

def read : Location → Except Error Bytes
  | file content => .ok content
  | vacant => .error (.file .noSuchFile)
  | unreachable => .error (.file .noSuchFile)
  | directory => .error (.file .isDirectory)

/-- The location with a file of some content, in the place of one that was there. -/
def write (content : Bytes) : Location → Except Error Location
  | file _ => .ok (file content)
  | vacant => .ok (file content)
  | unreachable => .error (.file .noSuchFile)
  | directory => .error (.file .isDirectory)

def content? : Location → Option Bytes
  | file content => some content
  | _ => none

def load (l : Location) : Except Error SavedGraph := l.read >>= SavedGraph.ofBytes

def save (saved : SavedGraph) (l : Location) : Except Error Location := l.write saved.toBytes

/-- A saved graph after a pipeline has run over its nodes. All else stays. -/
def transform (p : Pipeline) (saved : SavedGraph) : Except Error (PassResult × SavedGraph) :=
  match p.run (.build saved.nodes) with
  | (.error e, _) => .error e
  | (.ok r, g) => .ok (r, { saved with nodes := g.nodes })

/-- Loads a graph from `input`, runs a pipeline over it and saves it at `output`. -/
def process (p : Pipeline) (input output : Location) : Except Error (PassResult × Location) := do
  let (r, saved) ← input.load >>= transform p
  -- The output is touched last, so a refusal before leaves it alone.
  return (r, ← output.save saved)

def afterProcess (p : Pipeline) (input output : Location) : Location :=
  match process p input output with
  | .ok (_, l) => l
  | .error _ => output

/-- An output stays as it was if the input cannot be loaded. -/
theorem process_keeps {p : Pipeline} {input output : Location} {e : Error}
    (h : input.load = .error e) :
    process p input output = .error e ∧ afterProcess p input output = output := by
  have hp : process p input output = .error e := by rw [process, h]; rfl
  exact ⟨hp, by rw [afterProcess, hp]⟩

end Location
end Dataflow
