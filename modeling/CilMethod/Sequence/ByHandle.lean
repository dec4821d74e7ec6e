import CilMethod.Opcode.Table
import CilMethod.Sequence.Basic

/-!
# Edits at a named instruction

The positional edits, with the place given by a member instead of a number. The member is looked for
first, so a place that is not there is reported before anything about the instruction to be placed.
-/

namespace CilMethod.Sequence

/-- The position of an instruction, which must be a member. -/
def locate (id : InstructionId) : EditM Nat := do
  match (← get).positionOf? id with
  | some position => return position
  | none => throw (.notMember id)

/-- Creates an instruction and appends it. -/
def emit (opcode : Opcode) (operand : Operand) : EditM InstructionId := do
  let id ← create opcode operand
  append id
  return id

/-- Emits the same instruction `count` times. -/
def emitMany (opcode : Opcode) (operand : Operand) : (count : Nat) → EditM Unit
  | 0 => return
  | count + 1 => do
    discard <| emit opcode operand
    emitMany opcode operand count

def insertBefore (target id : InstructionId) : EditM Unit := do
  insert (← locate target) id

def insertAfter (target id : InstructionId) : EditM Unit := do
  insert ((← locate target) + 1) id

/-- Puts `id` where `target` is. -/
def replaceTarget (target id : InstructionId) : EditM Unit := do
  discard <| replace (← locate target) id

def removeTarget (id : InstructionId) : EditM Unit := do
  discard <| remove (← locate id)

/-- Turns a short branch into its long form, which is the answer. An instruction that is none, or
does not exist, is left alone. -/
def widen (id : InstructionId) : EditM (Option Opcode) := do
  match ((← get).node? id).bind (·.opcode.longForm?) with
  | some opcode =>
    setOpcode id opcode
    return opcode
  | none => return none

end CilMethod.Sequence
