import CilMethod.Sequence.ByHandle
import CilMethod.Sequence.Layout

/-!
# Edit scripts

Edits as data, and scripts of them: lists of edits, recomputes, changes of the suppression flag and
loads, which may nest. A script goes on after a step that fails, from what that step left behind, so
every script runs to its end from every sequence.
-/

namespace CilMethod.Sequence

/-- One edit. -/
inductive Edit where
  | create (opcode : Opcode) (operand : Operand)
  | append (id : InstructionId)
  | insert (position : Nat) (id : InstructionId)
  | replace (position : Nat) (id : InstructionId)
  | remove (position : Nat)
  | setInstruction (id : InstructionId) (opcode : Opcode) (operand : Operand)
  | setOpcode (id : InstructionId) (opcode : Opcode)
  | setOperand (id : InstructionId) (operand : Operand)
  | emit (opcode : Opcode) (operand : Operand)
  | insertBefore (target id : InstructionId)
  | insertAfter (target id : InstructionId)
  | replaceTarget (target id : InstructionId)
  | removeTarget (id : InstructionId)

/-- Does an edit. The handle in the answer is that of a new instruction or of one that left its
position; edits that say nothing new have none. -/
def apply : Edit → EditM (Option InstructionId)
  | .create opcode operand => some <$> create opcode operand
  | .append id => silently (append id)
  | .insert position id => silently (insert position id)
  | .replace position id => some <$> replace position id
  | .remove position => some <$> remove position
  | .setInstruction id opcode operand => silently (setInstruction id opcode operand)
  | .setOpcode id opcode => silently (setOpcode id opcode)
  | .setOperand id operand => silently (setOperand id operand)
  | .emit opcode operand => some <$> emit opcode operand
  | .insertBefore target id => silently (insertBefore target id)
  | .insertAfter target id => silently (insertAfter target id)
  | .replaceTarget target id => silently (replaceTarget target id)
  | .removeTarget id => silently (removeTarget id)
where
  silently (edit : EditM Unit) : EditM (Option InstructionId) := do
    edit
    return none

/-- One step of a script. -/
inductive Step where
  | edit (edit : Edit)
  | recompute
  | suppress (on : Bool)
  /-- begins a load, runs the steps and ends the load -/
  | load (steps : List Step)

/-- What a step answers. -/
inductive Outcome where
  | edited (result : Except Error (Option InstructionId))
  | recomputed (size : Option Nat)
  | suppressed
  | loaded (outcomes : List Outcome)

/-- Does an edit, and goes on with the sequence that it leaves behind. -/
def runEdit (s : Sequence) (e : Edit) : Except Error (Option InstructionId) × Sequence :=
  match (apply e).run s with
  | .ok handle s => (.ok handle, s)
  | .error err s => (.error err, s)

mutual

def runStep (s : Sequence) : Step → Outcome × Sequence
  | .edit e =>
    let (result, s) := s.runEdit e
    (.edited result, s)
  | .recompute =>
    let (size, s) := s.recompute
    (.recomputed size, s)
  | .suppress on => (.suppressed, s.setSuppressed on)
  | .load steps =>
    let (outcomes, s) := s.beginLoad.runScript steps
    (.loaded outcomes, s.endLoad)

def runScript (s : Sequence) : List Step → List Outcome × Sequence
  | [] => ([], s)
  | step :: steps =>
    let (outcome, s) := s.runStep step
    let (outcomes, s) := s.runScript steps
    (outcome :: outcomes, s)

end

end CilMethod.Sequence
