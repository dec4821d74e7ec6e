import CilMethod.Listing.Error
import CilMethod.Text.Blank

/-!
# Lines of a listing

A listing holds one item on a line, and `//` starts a comment. A line that is not empty declares
local variables (`.locals`) or a handler (`.try`), or is an instruction with an optional label.
Which of these it is and where its parts lie is decided here; what the parts mean is not.
-/

namespace CilMethod.Listing

/-- The kind of a handler as it is written. -/
inductive KindText where
  | catchType (type : String)
  | filterFrom (label : String)
  | finallyBlock
  | faultBlock
  deriving DecidableEq

/-- The parts of a `.try` line. -/
structure TryLine where
  tryStart : String
  tryEnd : String
  kind : KindText
  handlerStart : String
  handlerEnd : String
  deriving DecidableEq

/-- The parts of an instruction line. -/
structure CodeLine where
  label : Option String
  mnemonic : String
  operand : String
  deriving DecidableEq

inductive Line where
  | locals (types : List String)
  | region (parts : TryLine)
  | code (parts : CodeLine)
  deriving DecidableEq

/-- Drops a comment. Within a string literal, where `inLiteral` is set, slashes are text and a
backslash keeps the next character from ending the literal. -/
def stripComment : (inLiteral : Bool) → List Char → List Char
  | _, [] => []
  | true, '\\' :: c :: cs => '\\' :: c :: stripComment true cs
  | true, c :: cs => c :: stripComment (c != '"') cs
  | false, '/' :: '/' :: _ => []
  | false, c :: cs => c :: stripComment (c == '"') cs

/-- The text of a line that counts. -/
def content (cs : List Char) : List Char := Text.trim (stripComment false cs)

/-- A label is made of letters, digits and underscores. -/
def isLabel (cs : List Char) : Bool :=
  !cs.isEmpty && cs.all fun c => c.isAlphanum || c == '_'

/-- The parts of a `.try` line, from its words behind the directive. -/
def splitTry : List String → Except LineFault TryLine
  | [tryStart, "to", tryEnd, "catch", type, "handler", handlerStart, "to", handlerEnd] =>
    .ok { tryStart, tryEnd, kind := .catchType type, handlerStart, handlerEnd }
  | [tryStart, "to", tryEnd, "filter", label, "handler", handlerStart, "to", handlerEnd] =>
    .ok { tryStart, tryEnd, kind := .filterFrom label, handlerStart, handlerEnd }
  | [tryStart, "to", tryEnd, "finally", "handler", handlerStart, "to", handlerEnd] =>
    .ok { tryStart, tryEnd, kind := .finallyBlock, handlerStart, handlerEnd }
  | [tryStart, "to", tryEnd, "fault", "handler", handlerStart, "to", handlerEnd] =>
    .ok { tryStart, tryEnd, kind := .faultBlock, handlerStart, handlerEnd }
  | _ => .error .malformedTry

/-- The label before the first colon, if what stands there is one, and the rest of the line. -/
def splitLabel (cs : List Char) : Option String × List Char :=
  let label := Text.trim (cs.takeWhile (· != ':'))
  match cs.dropWhile (· != ':') with
  | _ :: rest => if isLabel label then (some (String.ofList label), Text.trim rest) else (none, cs)
  | [] => (none, cs)

/-- The parts of an instruction line. -/
def splitCode (cs : List Char) : Except LineFault CodeLine :=
  let (label, rest) := splitLabel cs
  let mnemonic := rest.takeWhile fun c => !Text.isBlank c
  let operand := (rest.dropWhile fun c => !Text.isBlank c).drop 1
  if mnemonic.isEmpty then .error .labelWithoutInstruction
  else .ok
    { label
      mnemonic := String.ofList mnemonic
      operand := String.ofList (Text.trim operand) }

/-- The parts of a line that is not empty. -/
def splitLine (cs : List Char) : Except LineFault Line :=
  match Text.after? ".locals".toList cs with
  | some rest => .ok (.locals ((Text.entries rest).map String.ofList))
  | none =>
    match Text.after? ".try".toList cs with
    | some rest => (splitTry ((Text.words rest).map String.ofList)).map .region
    | none =>
      if cs.head? = some '.' then .error .unknownDirective
      else (splitCode cs).map .code

/-- A line of the source that is not empty, with its number. -/
structure Numbered (α : Type) where
  line : Nat
  item : α
  deriving DecidableEq

/-- The lines that count, numbered from one. -/
def contentLines (source : String) : List (Numbered (List Char)) :=
  ((Text.lines source.toList).zipIdx 1).filterMap fun (cs, line) =>
    let text := content cs
    if text.isEmpty then none else some ⟨line, text⟩

/-- Splits every line, up to the first that is malformed. -/
def splitLines (source : String) : Except ListingError (List (Numbered Line)) :=
  (contentLines source).mapM fun ⟨line, cs⟩ =>
    match splitLine cs with
    | .ok item => .ok ⟨line, item⟩
    | .error fault => .error (.malformed line fault)

end CilMethod.Listing
