import Dataflow.Event
import Dataflow.Reference.Normalizer

/- A journal is what happens in the course of an operation, in order: events, and references that
   are read. Reading is worth telling only where the reference was not read before in the session
   and its port is out of range, which the session's memory of references decides. -/

namespace Dataflow

namespace Normalizer

/-- What is told when a reference is parsed: nothing if the answer is remembered. -/
def parseEvents (n : Normalizer) (text : String) : List Event :=
  if (n.resolved.lookup text).isSome then []
  else (Reference.outOfRange? text).toList.map .portOutOfRange

def canonicalizeEvents (n : Normalizer) (text : String) : List Event :=
  if (n.canonical.lookup text).isSome then []
  else (Reference.outOfRange? text).toList.map .portOutOfRange

end Normalizer

namespace Journal

inductive Line where
  | event (e : Event)
  /-- A reference was read. -/
  | read (reference : String)
  deriving DecidableEq

def Line.tell (memory : Normalizer) : Line → List Event × Normalizer
  | event e => ([e], memory)
  | read reference => (memory.parseEvents reference, (memory.resolve reference).2)

/-- What a journal tells, and the memory of references after it. -/
def tell (memory : Normalizer) : List Line → List Event × Normalizer
  | [] => ([], memory)
  | line :: rest =>
    let (now, memory) := line.tell memory
    let (later, memory) := tell memory rest
    (now ++ later, memory)

def ofEvents (events : List Event) : List Line := events.map .event

def ofReads (references : List String) : List Line := references.map .read

/-- References that are read up to the first that satisfies a condition. -/
def ofReadsUntil (stop : String → Bool) : List String → List Line
  | [] => []
  | reference :: rest => .read reference :: if stop reference then [] else ofReadsUntil stop rest

/-- The journal of asking whether an input of a node names a producer. -/
def ofReferences (producer : String) (inputs : List String) : List Line :=
  ofReadsUntil (fun input => Reference.nodeOf input = producer) inputs

end Journal
end Dataflow
