/-!
# Opcodes

An opcode is a mnemonic, a value and the type of its operand. The operand type fixes how many bytes
the operand takes and whether it names other instructions. Values above `0xff` are written in two
bytes, a fixed lead byte and the low byte of the value.
-/

namespace CilMethod

/-- What kind of operand follows an opcode, and in which width. -/
inductive OperandType where
  | inlineNone
  | inlineBrTarget
  | shortInlineBrTarget
  | inlineSwitch
  | inlineI
  | inlineI8
  | shortInlineI
  | inlineR
  | shortInlineR
  | inlineString
  | inlineField
  | inlineMethod
  | inlineType
  | inlineTok
  | inlineSig
  | inlineVar
  | shortInlineVar
  | inlineArg
  | shortInlineArg
  deriving DecidableEq

/-- Operand types by what the operand refers to. -/
inductive OperandClass where
  /-- no operand -/
  | noOperand
  /-- a constant, a token, a variable or an argument -/
  | value
  /-- one instruction -/
  | singleTarget
  /-- a table of instructions -/
  | multiTarget
  deriving DecidableEq

namespace OperandClass

/-- Does the operand name other instructions? -/
def isTargetBearing : OperandClass → Bool
  | singleTarget | multiTarget => true
  | noOperand | value => false

def name : OperandClass → String
  | noOperand => "NoOperand"
  | value => "Value"
  | singleTarget => "SingleTarget"
  | multiTarget => "MultiTarget"

end OperandClass

namespace OperandType

/-- Every operand type, once. -/
def all : List OperandType :=
  [inlineNone, inlineBrTarget, shortInlineBrTarget, inlineSwitch, inlineI, inlineI8, shortInlineI,
    inlineR, shortInlineR, inlineString, inlineField, inlineMethod, inlineType, inlineTok,
    inlineSig, inlineVar, shortInlineVar, inlineArg, shortInlineArg]

theorem mem_all (t : OperandType) : t ∈ all := by
  cases t <;> decide

def name : OperandType → String
  | inlineNone => "InlineNone"
  | inlineBrTarget => "InlineBrTarget"
  | shortInlineBrTarget => "ShortInlineBrTarget"
  | inlineSwitch => "InlineSwitch"
  | inlineI => "InlineI"
  | inlineI8 => "InlineI8"
  | shortInlineI => "ShortInlineI"
  | inlineR => "InlineR"
  | shortInlineR => "ShortInlineR"
  | inlineString => "InlineString"
  | inlineField => "InlineField"
  | inlineMethod => "InlineMethod"
  | inlineType => "InlineType"
  | inlineTok => "InlineTok"
  | inlineSig => "InlineSig"
  | inlineVar => "InlineVar"
  | shortInlineVar => "ShortInlineVar"
  | inlineArg => "InlineArg"
  | shortInlineArg => "ShortInlineArg"

def operandClass : OperandType → OperandClass
  | inlineNone => .noOperand
  | inlineBrTarget | shortInlineBrTarget => .singleTarget
  | inlineSwitch => .multiTarget
  | _ => .value

/-- Bytes of the operand. The number of targets counts only for a jump table, which writes its
length and then one distance for each target. -/
def size (t : OperandType) (targets : Nat) : Nat :=
  match t with
  | inlineNone => 0
  | inlineSwitch => 4 + 4 * targets
  | shortInlineBrTarget | shortInlineI | shortInlineVar | shortInlineArg => 1
  | inlineVar | inlineArg => 2
  | inlineI8 | inlineR => 8
  | inlineBrTarget | inlineI | shortInlineR | inlineString | inlineField | inlineMethod
  | inlineType | inlineTok | inlineSig => 4

end OperandType

structure Opcode where
  name : String
  value : UInt16
  operandType : OperandType
  deriving DecidableEq

namespace Opcode

/-- The first byte of every two-byte opcode. -/
def leadByte : UInt8 := 0xfe

def isTwoByte (op : Opcode) : Bool := 0xff < op.value

/-- Bytes of the opcode itself. -/
def size (op : Opcode) : Nat := if op.isTwoByte then 2 else 1

def bytes (op : Opcode) : List UInt8 :=
  if op.isTwoByte then [leadByte, op.value.toUInt8] else [op.value.toUInt8]

theorem length_bytes (op : Opcode) : op.bytes.length = op.size := by
  unfold bytes size
  split <;> rfl

def operandClass (op : Opcode) : OperandClass := op.operandType.operandClass

def isTargetBearing (op : Opcode) : Bool := op.operandClass.isTargetBearing

end Opcode

end CilMethod
