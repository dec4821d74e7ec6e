import CilMethod.Offset
import CilMethod.Operand

/-!
# Instructions

An instruction as its sequence keeps it: opcode and operand, the links to its neighbours, and the
index and offset that the last recompute gave it. An instruction outside the sequence has no links
but remembers its last index and offset.
-/

namespace CilMethod

structure Instruction where
  opcode : Opcode
  operand : Operand
  /-- Position in the sequence as of the last recompute. -/
  index : Nat := 0
  /-- Offset from the start of the body as of the last recompute. -/
  offset : Nat := 0
  previous : Option InstructionId := none
  next : Option InstructionId := none
  isMember : Bool := false
  deriving DecidableEq

namespace Instruction

/-- Bytes of the opcode and the operand. -/
def size (i : Instruction) : Nat :=
  i.opcode.size + i.opcode.operandType.size i.operand.tableLength

def isTargetBearing (i : Instruction) : Bool := i.opcode.isTargetBearing

theorem size_pos (i : Instruction) : 0 < i.size := by
  unfold size Opcode.size
  split <;> omega

end Instruction

end CilMethod
