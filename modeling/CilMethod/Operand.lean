import CilMethod.Handle
import CilMethod.Metadata.Token
import CilMethod.Opcode.Basic

/-!
# Operands

What an instruction carries besides its opcode. Apart from instruction targets, an operand is only
carried along for the encoder; floating-point constants are kept as bits, so that every payload
survives. Which payload an operand type takes is decided by `Operand.fits`.
-/

namespace CilMethod

inductive Operand where
  | none
  | int8 (value : Int8)
  | int32 (value : Int32)
  | int64 (value : Int64)
  /-- the bits of a 32-bit floating-point number -/
  | float32 (bits : UInt32)
  /-- the bits of a 64-bit floating-point number -/
  | float64 (bits : UInt64)
  | string (value : String)
  | token (value : Token)
  | localVar (id : VariableId)
  | argument (number : UInt16)
  /-- the target of a branch -/
  | target (id : InstructionId)
  /-- the jump table of a `switch` -/
  | switch (ids : List InstructionId)
  deriving DecidableEq, Inhabited

namespace Operand

/-- Is this a payload for the operand type? -/
def fits : Operand → OperandType → Bool
  | none, t => t == .inlineNone
  | int8 _, t => t == .shortInlineI
  | int32 _, t => t == .inlineI
  | int64 _, t => t == .inlineI8
  | float32 _, t => t == .shortInlineR
  | float64 _, t => t == .inlineR
  | string _, t => t == .inlineString
  | token _, t =>
    t == .inlineField || t == .inlineMethod || t == .inlineType || t == .inlineTok ||
      t == .inlineSig
  | localVar _, t => t == .inlineVar || t == .shortInlineVar
  | argument _, t => t == .inlineArg || t == .shortInlineArg
  | target _, t => t == .inlineBrTarget || t == .shortInlineBrTarget
  | switch _, t => t == .inlineSwitch

/-- The instructions that the operand names, in order and with repetitions. -/
def targets : Operand → List InstructionId
  | target id => [id]
  | switch ids => ids
  | _ => []

/-- The length of a jump table, zero for any other operand. -/
def tableLength : Operand → Nat
  | switch ids => ids.length
  | _ => 0

/-- Only an operand type that bears targets takes a payload that has some. -/
theorem targets_eq_nil {x : Operand} {t : OperandType} (hfit : x.fits t)
    (hclass : t.operandClass.isTargetBearing = false) : x.targets = [] := by
  cases x with
  | target id =>
    simp only [fits, Bool.or_eq_true, beq_iff_eq] at hfit
    rcases hfit with rfl | rfl <;> contradiction
  | switch ids =>
    simp only [fits, beq_iff_eq] at hfit
    subst hfit
    contradiction
  | _ => rfl

end Operand

end CilMethod
