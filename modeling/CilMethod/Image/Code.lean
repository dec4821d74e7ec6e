import CilMethod.Body
import CilMethod.Image.Bytes
import CilMethod.Image.UserStrings

/-!
# The instruction stream

Each member is written as its opcode bytes and the bytes of its operand. Branch distances count from
the end of the branch instruction. Instructions are written as they are: a short branch that does
not reach is an error and is not made longer.
-/

namespace CilMethod.Image

/-- A variable or argument number, in one byte for the short operand types and in two otherwise. -/
def indexBytes (id : InstructionId) (type : OperandType) (index : Nat) :
    Except Error (List UInt8) :=
  let width := if type = .shortInlineVar ∨ type = .shortInlineArg then 1 else 2
  if index < Bytes.limit width then .ok (Bytes.little width index)
  else .error (.operandOutOfRange id)

/-- The distance from the end of a branch, at `origin`, to its target, in `width` bytes. -/
def distanceBytes (s : Sequence) (branch : InstructionId) (origin width : Nat)
    (target : InstructionId) : Except Error (List UInt8) :=
  if s.contains target then
    let distance := Offset.distance (s.offsetOf target) origin
    if Bytes.holdsSigned width distance then .ok (Bytes.signedLittle width distance)
    else .error (.branchOutOfRange branch distance)
  else .error (.danglingReference target)

/-- The bytes of an operand. Literals are looked up in `strings`. -/
def operandBytes (strings : UserStrings) (s : Sequence) (locals : Locals) (id : InstructionId)
    (i : Instruction) : Except Error (List UInt8) :=
  let type := i.opcode.operandType
  let origin := i.offset + i.size
  match i.operand with
  | .none => .ok []
  | .int8 value => .ok (Bytes.little 1 value.toUInt8.toNat)
  | .int32 value => .ok (Bytes.little 4 value.toUInt32.toNat)
  | .int64 value => .ok (Bytes.little 8 value.toUInt64.toNat)
  | .float32 bits => .ok (Bytes.little 4 bits.toNat)
  | .float64 bits => .ok (Bytes.little 8 bits.toNat)
  | .string value => .ok (Bytes.little 4 (strings.token value).raw.toNat)
  | .token value => .ok (Bytes.little 4 value.raw.toNat)
  | .localVar v =>
    match locals.indexOf? v with
    | some index => indexBytes id type index
    | none => .error (.detachedVariable v)
  | .argument number => indexBytes id type number.toNat
  | .target target =>
    distanceBytes s id origin (if type = .shortInlineBrTarget then 1 else 4) target
  | .switch targets => do
    let distances ← targets.mapM (distanceBytes s id origin 4)
    return Bytes.little 4 targets.length ++ distances.flatten

/-- The literals after an instruction: a string operand is listed, anything else changes nothing. -/
def noteStrings (strings : UserStrings) (i : Instruction) : UserStrings :=
  match i.operand with
  | .string value => strings.insert value
  | _ => strings

/-- Writes instructions behind `code`. On failure the literals of the instructions written so far
stay listed. -/
def writeMembers (s : Sequence) (locals : Locals) :
    (members : List (InstructionId × Instruction)) → UserStrings → (code : Array UInt8) →
      Except Error (Array UInt8) × UserStrings
  | [], strings, code => (.ok code, strings)
  | (id, i) :: members, strings, code =>
    let strings := noteStrings strings i
    match operandBytes strings s locals id i with
    | .ok operand => writeMembers s locals members strings (code ++ i.opcode.bytes ++ operand)
    | .error e => (.error e, strings)

end CilMethod.Image
