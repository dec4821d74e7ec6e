import CilMethod.Error

/-!
# What can go wrong with a listing

A line can be malformed in a number of ways, a label can be defined twice or not at all, and an edit
of the body behind the listing can fail.
-/

namespace CilMethod

/-- What is wrong with one line. -/
inductive LineFault where
  | unknownDirective
  | malformedTry
  | labelWithoutInstruction
  | unknownMnemonic (mnemonic : String)
  | takesNoOperand (mnemonic : String)
  | invalidNumber (text : String)
  | invalidToken (text : String)
  | noLocal (index : Nat)
  | notQuoted
  deriving DecidableEq

def LineFault.message : LineFault → String
  | unknownDirective => "unknown directive"
  | malformedTry => "expected '.try <start> to <end> <kind> handler <start> to <end>'"
  | labelWithoutInstruction => "label without an instruction"
  | unknownMnemonic mnemonic => "unknown instruction '" ++ mnemonic ++ "'"
  | takesNoOperand mnemonic => "'" ++ mnemonic ++ "' takes no operand"
  | invalidNumber text => "invalid number '" ++ text ++ "'"
  | invalidToken text => "invalid token '" ++ text ++ "'"
  | noLocal index => "there is no local " ++ String.ofList (Text.decimal index)
  | notQuoted => "expected a quoted string"

inductive ListingError where
  /-- a malformed line; lines are numbered from one -/
  | malformed (line : Nat) (fault : LineFault)
  | unknownLabel (label : String)
  /-- a label that an earlier line carries -/
  | duplicateLabel (line : Nat) (label : String)
  /-- the body behind the listing could not be edited or encoded -/
  | body (error : Error)
  deriving DecidableEq

/-- The full text of a fault, as a failing program reports it. -/
def ListingError.report : ListingError → String
  | malformed line fault =>
    "Syntax \x7b line: " ++ String.ofList (Text.decimal line) ++ ", message: " ++
      Text.quoted fault.message ++ " \x7d"
  | unknownLabel label => "UnknownLabel(" ++ Text.quoted label ++ ")"
  | duplicateLabel line label =>
    "DuplicateLabel \x7b line: " ++ String.ofList (Text.decimal line) ++ ", label: " ++
      Text.quoted label ++ " \x7d"
  | body error => "Body(" ++ error.message ++ ")"

end CilMethod
