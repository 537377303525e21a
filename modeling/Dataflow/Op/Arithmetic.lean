import Dataflow.Binary
import Dataflow.Op

/- The operations on two operands that can be evaluated element by element. -/

namespace Dataflow

inductive Arithmetic where
  | add
  | sub
  | mul
  deriving DecidableEq, Repr

namespace Arithmetic

/-- The arithmetic that an operation stands for. -/
def ofOp? (op : String) : Option Arithmetic :=
  if op = "Add" ∨ op = "AddV2" then some .add
  else if op = "Sub" then some .sub
  else if op = "Mul" then some .mul
  else none

def apply : Arithmetic → Binary32 → Binary32 → Binary32
  | .add => Binary32.add
  | .sub => Binary32.sub
  | .mul => Binary32.mul

/-- Exactly the foldable operations stand for arithmetic. -/
theorem ofOp?_isSome {op : String} : (ofOp? op).isSome = true ↔ op ∈ Op.foldables := by
  unfold ofOp?
  simp only [Op.foldables, List.mem_cons, List.not_mem_nil, or_false]
  split
  · rename_i h; rcases h with h | h <;> simp [h]
  · rename_i h
    simp only [not_or] at h
    split
    · rename_i hs; simp [hs]
    · split
      · rename_i hm; simp [hm]
      · rename_i hs hm; simp [h, hs, hm]

end Arithmetic
end Dataflow
