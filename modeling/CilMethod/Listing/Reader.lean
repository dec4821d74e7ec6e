import CilMethod.Decimal.Reader
import CilMethod.Listing.Basic
import CilMethod.Listing.Line

/-!
# Reading a listing

A source is read in phases, and the first fault of the first phase that finds one is reported:

* every line is split into its parts;
* the local variables are declared;
* the labels are collected, so that a branch can name a later line;
* mnemonics and operands are read, line by line;
* the handlers are built.

Types that the source names are looked up in the graph or added to it, and stay there when a later
phase fails. The n-th instruction line is the instruction with handle n.
-/

namespace CilMethod.Listing

/-! ## Types -/

/-- The full names behind the short names of the common types. -/
def typeAlias (name : String) : String :=
  match name with
  | "bool" => "System.Boolean"
  | "int32" => "System.Int32"
  | "int64" => "System.Int64"
  | "float64" => "System.Double"
  | "string" => "System.String"
  | "object" => "System.Object"
  | other => other

/-- The type with a short or full name. One that is not in the graph is added as a class, its
namespace being what stands before the last point. -/
def resolveType (g : TypeGraph) (name : String) : TypeId × TypeGraph :=
  let fullName := typeAlias name
  match g.lookup? fullName with
  | some id => (id, g)
  | none =>
    let (nameSpace, name) := splitFullName fullName
    g.add { nameSpace, name, base := g.lookup? "System.Object" }

/-- Resolves names one after the other. -/
def resolveTypes (g : TypeGraph) : List String → List TypeId × TypeGraph
  | [] => ([], g)
  | name :: names =>
    let (id, g) := resolveType g name
    let (ids, g) := resolveTypes g names
    (id :: ids, g)

/-- Declares variables one behind the other. -/
def declareAll : List TypeId → Locals.EditM Unit
  | [] => return
  | type :: types => do
    discard <| Locals.declare type
    declareAll types

/-! ## Labels -/

abbrev Labels := List (String × InstructionId)

def findLabel (labels : Labels) (name : String) : Except ListingError InstructionId :=
  match findLabel? labels name with
  | some id => .ok id
  | none => .error (.unknownLabel name)

/-- The labels of instruction lines, the first of which has the handle `next`, behind those found so
far. -/
def collectLabels (labels : Labels) (next : Nat) :
    List (Numbered CodeLine) → Except ListingError Labels
  | [] => .ok labels
  | ⟨line, code⟩ :: rest =>
    match code.label with
    | none => collectLabels labels (next + 1) rest
    | some label =>
      if (findLabel? labels label).isSome then .error (.duplicateLabel line label)
      else collectLabels (labels ++ [(label, ⟨next⟩)]) (next + 1) rest

/-! ## Operands -/

/-- A number, or the fault that it is none. -/
def readNumber {α : Type} (read? : List Char → Option α) (text : List Char) : Except LineFault α :=
  match read? text with
  | some n => .ok n
  | none => .error (.invalidNumber (String.ofList text))

/-- Drops every `V_` from the start. -/
def dropVariableMark : List Char → List Char
  | 'V' :: '_' :: cs => dropVariableMark cs
  | cs => cs

/-- A variable: its number, with or without `V_` before it. -/
def readVariable (locals : Locals) (text : List Char) : Except LineFault Operand := do
  let index ← readNumber (Text.readUnsigned? 10 (1 <<< 64)) (dropVariableMark text)
  match locals.get? index with
  | some id => .ok (.localVar id)
  | none => .error (.noLocal index)

/-- A token: hexadecimal behind `0x`, decimal otherwise. -/
def readToken (text : List Char) : Except LineFault Operand :=
  match Text.after? ['0', 'x'] text with
  | some digits =>
    match Text.readUnsigned? 16 (1 <<< 32) digits with
    | some n => .ok (.token ⟨n.toUInt32⟩)
    | none => .error (.invalidToken (String.ofList text))
  | none => do return .token ⟨(← readNumber (Text.readUnsigned? 10 (1 <<< 32)) text).toUInt32⟩

/-- Between the quotes of a literal, a backslash and a quote stand for a quote; a backslash before
anything else stands for itself. -/
def unescape : List Char → List Char
  | '\\' :: '"' :: cs => '"' :: unescape cs
  | c :: cs => c :: unescape cs
  | [] => []

/-- A literal: everything between a first and a last quote. -/
def readLiteral (text : List Char) : Except LineFault Operand :=
  match text with
  | '"' :: rest =>
    if rest.getLast? = some '"' then .ok (.string (String.ofList (unescape rest.dropLast)))
    else .error .notQuoted
  | _ => .error .notQuoted

/-- The names in a jump table; the brackets around it may be missing or doubled. -/
def tableNames (text : List Char) : List String :=
  let inner := Text.dropEndWhile (· == ')') (text.dropWhile (· == '('))
  (Text.entries inner).map String.ofList

/-- A fault in what is read on a line is a fault of that line. -/
def onLine {α : Type} (line : Nat) : Except LineFault α → Except ListingError α
  | .ok a => .ok a
  | .error fault => .error (.malformed line fault)

/-- The operand of an instruction on a line. -/
def readOperand (labels : Labels) (locals : Locals) (line : Nat) (opcode : Opcode)
    (text : String) : Except ListingError Operand :=
  let cs := text.toList
  match opcode.operandType with
  | .inlineNone =>
    if cs.isEmpty then .ok .none else .error (.malformed line (.takesNoOperand opcode.name))
  | .inlineBrTarget | .shortInlineBrTarget => do return .target (← findLabel labels text)
  | .inlineSwitch => do return .switch (← (tableNames cs).mapM (findLabel labels))
  | .shortInlineI => onLine line do
    return .int8 (.ofInt (← readNumber (Text.readSigned? (1 <<< 7)) cs))
  | .inlineI => onLine line do
    return .int32 (.ofInt (← readNumber (Text.readSigned? (1 <<< 31)) cs))
  | .inlineI8 => onLine line do
    return .int64 (.ofInt (← readNumber (Text.readSigned? (1 <<< 63)) cs))
  | .shortInlineR => onLine line do
    return .float32 (← readNumber Decimal.BinaryFormat.single.read? cs).toUInt32
  | .inlineR => onLine line do
    return .float64 (← readNumber Decimal.BinaryFormat.double.read? cs).toUInt64
  | .inlineString => onLine line (readLiteral cs)
  | .inlineField | .inlineMethod | .inlineType | .inlineTok | .inlineSig =>
    onLine line (readToken cs)
  | .inlineVar | .shortInlineVar => onLine line (readVariable locals cs)
  | .inlineArg | .shortInlineArg => onLine line do
    return .argument (← readNumber (Text.readUnsigned? 10 (1 <<< 16)) cs).toUInt16

/-- The opcode and the operand of an instruction line. Mnemonics are read in any case. -/
def readCode (labels : Labels) (locals : Locals) (code : Numbered CodeLine) :
    Except ListingError (Opcode × Operand) :=
  let ⟨line, parts⟩ := code
  match Opcode.named? (String.ofList (parts.mnemonic.toList.map Char.toLower)) with
  | none => .error (.malformed line (.unknownMnemonic parts.mnemonic))
  | some opcode => do return (opcode, ← readOperand labels locals line opcode parts.operand)

/-- Emits instructions one behind the other. -/
def emitAll : List (Opcode × Operand) → Sequence.EditM Unit
  | [] => return
  | (opcode, operand) :: rest => do
    discard <| Sequence.emit opcode operand
    emitAll rest

/-- What edits make of `start`. The first that fails is a fault of the source, and then nothing is
kept of what was made. -/
def build {σ : Type} (edits : EStateM Error σ Unit) (start : σ) : Except ListingError σ :=
  match edits.run start with
  | .ok _ made => .ok made
  | .error e _ => .error (.body e)

/-! ## Handlers -/

/-- The end of a region: a label, or the word `end` for the end of the body. -/
def regionEnd (labels : Labels) (name : String) : Except ListingError (Option InstructionId) :=
  if name = "end" then .ok none else (findLabel labels name).map some

/-- The kind of a handler; a catch type is added to the graph whatever follows. -/
def readKind (labels : Labels) (g : TypeGraph) :
    KindText → Except ListingError HandlerKind × TypeGraph
  | .catchType type =>
    let (id, g) := resolveType g type
    (.ok (.catchType id), g)
  | .filterFrom label => ((findLabel labels label).map .filterFrom, g)
  | .finallyBlock => (.ok .finallyBlock, g)
  | .faultBlock => (.ok .faultBlock, g)

/-- A handler whose kind is known. -/
def readRegions (labels : Labels) (parts : TryLine) (kind : HandlerKind) :
    Except ListingError Handler := do
  let tryStart ← findLabel labels parts.tryStart
  let tryEnd ← regionEnd labels parts.tryEnd
  let handlerStart ← findLabel labels parts.handlerStart
  let handlerEnd ← regionEnd labels parts.handlerEnd
  return { kind, tryStart, tryEnd, handlerStart, handlerEnd }

def readHandlers (labels : Labels) (g : TypeGraph) :
    List TryLine → Except ListingError (List Handler) × TypeGraph
  | [] => (.ok [], g)
  | parts :: rest =>
    let (kind, g) := readKind labels g parts.kind
    match kind.bind (readRegions labels parts) with
    | .error e => (.error e, g)
    | .ok handler =>
      let (handlers, g) := readHandlers labels g rest
      (handlers.map (handler :: ·), g)

/-! ## The whole source -/

/-- The names of the declared variables' types, in order. -/
def localTypes (lines : List (Numbered Line)) : List String :=
  lines.flatMap fun l =>
    match l.item with
    | .locals types => types
    | _ => []

def tryLines (lines : List (Numbered Line)) : List TryLine :=
  lines.filterMap fun l =>
    match l.item with
    | .region parts => some parts
    | _ => none

def codeLines (lines : List (Numbered Line)) : List (Numbered CodeLine) :=
  lines.filterMap fun l =>
    match l.item with
    | .code parts => some ⟨l.line, parts⟩
    | _ => none

/-- Declares the variables and reads the instructions. -/
def readInstructions (types : List TypeId) (lines : List (Numbered CodeLine)) :
    Except ListingError (Labels × Locals × Sequence) := do
  let locals ← build (declareAll types) {}
  let labels ← collectLabels [] 0 lines
  let code ← lines.mapM (readCode labels locals)
  let instructions ← build (emitAll code) Sequence.empty.beginLoad
  return (labels, locals, instructions.endLoad)

/-- Reads lines that are split already. -/
def readLines (lines : List (Numbered Line)) (method : MethodDef) (g : TypeGraph) :
    Except ListingError Listing × TypeGraph :=
  let (types, g) := resolveTypes g.addCore.2 (localTypes lines)
  match readInstructions types (codeLines lines) with
  | .error e => (.error e, g)
  | .ok (labels, locals, instructions) =>
    let (handlers, g) := readHandlers labels g (tryLines lines)
    (handlers.map fun handlers =>
      let body : Body := { method, instructions, locals, handlers := handlers.toArray }
      { body := body.computeOffsets.2, labels }, g)

/-- Reads a source into a new body of a method. The graph is the answer's second part, also when the
source has a fault; a line that cannot be split leaves it untouched. -/
def read (source : String) (method : MethodDef) (g : TypeGraph) :
    Except ListingError Listing × TypeGraph :=
  match splitLines source with
  | .error e => (.error e, g)
  | .ok lines => readLines lines method g

end CilMethod.Listing
