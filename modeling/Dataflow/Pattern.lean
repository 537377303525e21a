import Dataflow.Op

/- A pattern describes a chain of operations, producer first. Each token names the operations
   that may stand at its place; an optional token may also be left out. -/

namespace Dataflow

/-- One place of a pattern. -/
inductive Token where
  /-- One of these operations stands here. -/
  | required (ops : List String)
  /-- One of these operations stands here, or nothing. -/
  | optional (ops : List String)
  deriving DecidableEq, Repr

namespace Token

def ops : Token → List String
  | .required ops => ops
  | .optional ops => ops

def accepts (t : Token) (op : String) : Bool := t.ops.contains op

def isOptional : Token → Bool
  | .required _ => false
  | .optional _ => true

theorem accepts_iff {t : Token} {op : String} : t.accepts op = true ↔ op ∈ t.ops := by
  simp [accepts]

end Token

/-- A chain of tokens, producer first. -/
structure Pattern where
  tokens : List Token := []
  deriving DecidableEq, Repr

namespace Pattern

def chain (ops : List String) : Pattern := ⟨ops.map fun op => .required [op]⟩

def size (p : Pattern) : Nat := p.tokens.length

def mandatoryCount (p : Pattern) : Nat := p.tokens.countP fun t => !t.isOptional

/-- A convolution with a bias, an addition or none, and a rectifier. -/
def convBiasAddRelu : Pattern :=
  ⟨[.required Op.convolutions, .required ["BiasAdd"], .optional Op.additions,
    .required Op.rectifiers]⟩

/-- A matrix product with a bias, and a rectifier or none. -/
def matMulBiasRelu : Pattern :=
  ⟨[.required ["MatMul"], .required ["BiasAdd"], .optional Op.rectifiers]⟩

end Pattern
end Dataflow
