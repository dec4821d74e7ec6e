import CilMethod.Offset
import CilMethod.Operand
import CilMethod.Text.Quoted

/-!
# What can go wrong with a method body

The causes for which an edit, a query or an encoding fails, and their wording. An encoding may also
break off without a cause.
-/

namespace CilMethod

inductive Error where
  /-- a position past the end of a list with `length` members -/
  | positionOutOfRange (position length : Nat)
  /-- a handle that the sequence never gave out -/
  | unknownInstruction (id : InstructionId)
  /-- an instruction can be in the sequence only once -/
  | alreadyMember (id : InstructionId)
  | notMember (id : InstructionId)
  | unknownVariable (id : VariableId)
  | variableAlreadyMember (id : VariableId)
  /-- an instruction uses a variable that is not in the list of locals -/
  | detachedVariable (id : VariableId)
  /-- a variable or argument number too large for the operand of the instruction -/
  | operandOutOfRange (id : InstructionId)
  /-- a payload that the opcode does not take -/
  | operandMismatch (opcode : String) (expected : OperandType)
  /-- there is no `this` without a declaring type -/
  | noDeclaringType
  /-- a branch, a jump table or a handler names an instruction that is not in the sequence -/
  | danglingReference (id : InstructionId)
  /-- a branch whose distance its operand cannot hold -/
  | branchOutOfRange (branch : InstructionId) (distance : Int)
  /-- offsets are not final while recomputing is suppressed -/
  | recomputeSuppressed
  /-- more code than 32 bits can address -/
  | codeOverflow (size : Nat)
  /-- an encoder could not deliver its bytes -/
  | writeFailed (reason : String)
  deriving DecidableEq

namespace Error

/-- The name of the cause. -/
def kind : Error → String
  | positionOutOfRange .. => "PositionOutOfRange"
  | unknownInstruction _ => "UnknownInstruction"
  | alreadyMember _ => "AlreadyMember"
  | notMember _ => "NotMember"
  | unknownVariable _ => "UnknownVariable"
  | variableAlreadyMember _ => "VariableAlreadyMember"
  | detachedVariable _ => "DetachedVariable"
  | operandOutOfRange _ => "OperandOutOfRange"
  | operandMismatch .. => "OperandMismatch"
  | noDeclaringType => "NoDeclaringType"
  | danglingReference _ => "DanglingReference"
  | branchOutOfRange .. => "BranchOutOfRange"
  | recomputeSuppressed => "RecomputeSuppressed"
  | codeOverflow _ => "MethodCodeOverflow"
  | writeFailed _ => "IoError"

private def named (fields : String) : String := " \x7b " ++ fields ++ " \x7d"

private def single (value : String) : String := "(" ++ value ++ ")"

/-- What is said after the name of the cause. -/
def details : Error → String
  | positionOutOfRange position length => named s!"position: {position}, len: {length}"
  | unknownInstruction id | alreadyMember id | notMember id | operandOutOfRange id
  | danglingReference id => single id.text
  | unknownVariable id | variableAlreadyMember id | detachedVariable id =>
    single id.text
  | operandMismatch opcode expected =>
    named ("opcode: " ++ Text.quoted opcode ++ ", expected: " ++ expected.name)
  | branchOutOfRange branch distance =>
    named ("branch: " ++ branch.text ++ s!", distance: {distance}")
  | noDeclaringType | recomputeSuppressed => ""
  | codeOverflow size => single (Offset.text size)
  | writeFailed reason =>
    single ("Custom" ++ named ("kind: Other, error: " ++ Text.quoted reason))

def message (e : Error) : String := e.kind ++ e.details

end Error

/-- How an encoding comes to an end without an image. -/
inductive Failure where
  /-- it says what is wrong -/
  | fault (cause : Error)
  /-- it breaks off at a number that there is no room for -/
  | abort
  deriving DecidableEq

end CilMethod
