import CilMethod.Decimal.Shortest
import CilMethod.Listing.Basic

/-!
# Printing a listing

A listing is shown as the last recompute laid it out: a header, the handlers, and each member with
its offset, index and size. Notes behind the code tell where the branches are and what they or the
handlers name that is no longer there.
-/

namespace CilMethod.Listing

/-- How an instruction is referred to: by its label, or else by its offset. One that is not a member
is marked as removed. -/
def nameOf (l : Listing) (id : InstructionId) : String :=
  let name := match l.labelOf? id with
    | some label => label
    | none =>
      match l.body.instructions.node? id with
      | some i => Offset.text i.offset
      | none => id.text
  if l.body.instructions.contains id then name else "<removed " ++ name ++ ">"

/-- The end of a region: its instruction, or the end of the body. -/
def endName (l : Listing) : Option InstructionId → String
  | some id => l.nameOf id
  | none => "end"

/-- Within a literal every quote is written behind a backslash. -/
def escape (cs : List Char) : List Char :=
  cs.flatMap fun c => if c = '"' then ['\\', '"'] else [c]

/-- A variable is named by its number among the members. -/
def variableName (l : Listing) (id : VariableId) : String :=
  match l.body.locals.slot? id with
  | some slot =>
    if slot.index.isSome then "V_" ++ String.ofList (Text.signedDecimal slot.rawIndex)
    else "<removed " ++ id.text ++ ">"
  | none => "<removed " ++ id.text ++ ">"

/-- An operand with the blank before it; nothing if there is no operand. -/
def operandText (l : Listing) : Operand → String
  | .none => ""
  | .int8 value => " " ++ String.ofList (Text.signedDecimal value.toInt)
  | .int32 value => " " ++ String.ofList (Text.signedDecimal value.toInt)
  | .int64 value => " " ++ String.ofList (Text.signedDecimal value.toInt)
  | .float32 bits => " " ++ String.ofList (Decimal.BinaryFormat.single.text bits.toNat)
  | .float64 bits => " " ++ String.ofList (Decimal.BinaryFormat.double.text bits.toNat)
  | .string value => " \"" ++ String.ofList (escape value.toList) ++ "\""
  | .token value => " 0x" ++ String.ofList (Text.hexadecimal 8 value.raw.toNat)
  | .localVar id => " " ++ l.variableName id
  | .argument number => " " ++ String.ofList (Text.decimal number.toNat)
  | .target id => " " ++ l.nameOf id
  | .switch ids => " (" ++ ", ".intercalate (ids.map l.nameOf) ++ ")"

/-- What a handler's kind is followed by. -/
def kindArgument (g : TypeGraph) (l : Listing) : HandlerKind → String
  | .catchType type => " " ++ g.fullName type
  | .filterFrom start => " " ++ l.nameOf start
  | .finallyBlock | .faultBlock => ""

def handlerLine (g : TypeGraph) (l : Listing) (h : Handler) : String :=
  ".try " ++ l.nameOf h.tryStart ++ " to " ++ l.endName h.tryEnd ++ " " ++ h.kind.name ++
    l.kindArgument g h.kind ++ " handler " ++ l.nameOf h.handlerStart ++ " to " ++
    l.endName h.handlerEnd

/-- An instruction from its label on; the label takes at least ten columns. -/
def codeText (l : Listing) (id : InstructionId) (i : Instruction) : String :=
  let label := match l.labelOf? id with
    | some label => label.toList ++ [':']
    | none => []
  String.ofList (Text.padRight 10 label) ++ i.opcode.name ++ l.operandText i.operand

/-- The columns before the label: offset, index and size. -/
def layoutText (i : Instruction) : String :=
  Offset.text i.offset ++ " " ++ String.ofList (Text.padLeft 4 ' ' (Text.decimal i.index)) ++ " " ++
    String.ofList (Text.padLeft 3 ' ' (Text.decimal i.size)) ++ "  "

def codeLine (l : Listing) (id : InstructionId) (i : Instruction) : String :=
  layoutText i ++ l.codeText id i

/-- The lines before the handlers. -/
def headerLines (g : TypeGraph) (l : Listing) : List String :=
  let b := l.body
  let this := match b.thisParameter g with
    | .ok p => if b.method.attributes.hasThis then [".this " ++ g.parameterText p] else []
    | .error _ => []
  let locals :=
    if b.locals.isEmpty then []
    else [".locals " ++ ", ".intercalate (b.locals.members.map fun (_, s) => g.fullName s.type)]
  [".method " ++ g.methodText b.method] ++ this ++
    [".maxstack " ++ String.ofList (Text.decimal b.maxStack.toNat) ++ " // code size " ++
      String.ofList (Text.decimal b.codeSize)] ++ locals

/-- The notes behind the code. -/
def noteLines (l : Listing) : List String :=
  let s := l.body.instructions
  let branches := s.branchList.map l.nameOf
  (if branches.isEmpty then [] else ["// branches at " ++ ", ".intercalate branches]) ++
    s.danglingTargets.map (fun (branch, target) =>
      "// " ++ l.nameOf branch ++ " jumps to " ++ l.nameOf target) ++
    l.body.danglingBoundaries.map fun (position, boundary, id) =>
      "// handler " ++ String.ofList (Text.decimal position) ++ " has " ++ boundary.name ++
        " at " ++ l.nameOf id

/-- All lines of the printed listing. -/
def printLines (g : TypeGraph) (l : Listing) : List String :=
  l.headerLines g ++ l.body.handlers.toList.map (l.handlerLine g) ++
    l.body.instructions.members.map (fun (id, i) => l.codeLine id i) ++ l.noteLines

/-- The printed listing; every line ends in a line feed. -/
def print (g : TypeGraph) (l : Listing) : String :=
  String.join ((l.printLines g).map (· ++ "\n"))

end CilMethod.Listing
