import CilMethod.Body
import CilMethod.Image.Bytes

/-!
# The exception handling section

A header of four bytes, the kind of the section and its size in 24 bits, and then one clause of six
32-bit words for each handler. A body without handlers has no section. The size is taken as a 32-bit
number, which starts over at zero when there are too many handlers; one that is too large for its
three bytes makes the encoding break off.
-/

namespace CilMethod.Image

/-- The kind byte of a table of clauses with 32-bit words. -/
def fatTable : UInt8 := 0x41

/-- The size of a section, by the number of its clauses. -/
def tableSize (clauses : Nat) : UInt32 := clauses.toUInt32 * 24 + 4

theorem toNat_tableSize (clauses : Nat) :
    (tableSize clauses).toNat = (4 + 24 * clauses) % Bytes.limit 4 := by
  have hword : UInt32.toNat 24 = 24 ∧ UInt32.toNat 4 = 4 := ⟨rfl, rfl⟩
  simp only [tableSize, UInt32.toNat_add, UInt32.toNat_mul, UInt32.toNat_ofNat', hword,
    Bytes.limit_four]
  omega

/-- The offset of a boundary, which must be a member; a missing end is the end of the code. -/
def boundaryOffset (s : Sequence) (codeSize : Nat) : Option InstructionId → Except Error Nat
  | none => .ok codeSize
  | some id => if s.contains id then .ok (s.offsetOf id) else .error (.danglingReference id)

/-- One clause: flags, offset and length of the protected region, offset and length of the handler,
and the token of the caught type or the offset of the filter. A region that ends before it starts
has length zero. -/
def clauseWords (g : TypeGraph) (s : Sequence) (codeSize : Nat) (h : Handler) :
    Except Error (List Nat) := do
  let tryStart ← boundaryOffset s codeSize (some h.tryStart)
  let tryEnd ← boundaryOffset s codeSize h.tryEnd
  let handlerStart ← boundaryOffset s codeSize (some h.handlerStart)
  let handlerEnd ← boundaryOffset s codeSize h.handlerEnd
  let extra ← match h.kind with
    | .catchType type => .ok (g.typeDef type).token.raw.toNat
    | .filterFrom start => boundaryOffset s codeSize (some start)
    | .finallyBlock | .faultBlock => .ok 0
  return [h.kind.flags, tryStart, tryEnd - tryStart, handlerStart, handlerEnd - handlerStart, extra]

def clauseBytes (g : TypeGraph) (s : Sequence) (codeSize : Nat) (h : Handler) :
    Except Error (List UInt8) := do
  return (← clauseWords g s codeSize h).flatMap (Bytes.little 4)

/-- The section of a list of handlers. -/
def handlerTable (g : TypeGraph) (s : Sequence) (codeSize : Nat) (handlers : List Handler) :
    Except Failure (Array UInt8) :=
  let size := (tableSize handlers.length).toNat
  if handlers.isEmpty then .ok #[]
  else if Bytes.limit 3 ≤ size then .error .abort
  else do
    let clauses ← (handlers.mapM (clauseBytes g s codeSize)).mapError .fault
    return (fatTable :: Bytes.little 3 size ++ clauses.flatten).toArray

end CilMethod.Image
