import CilMethod.Image.Code
import CilMethod.Image.HandlerTable
import CilMethod.Image.Signature

/-!
# The plain encoder

Lays a body out and writes its four sections, in the order code, handlers, locals, signature; the
first fault on the way is the cause of failure, and the handlers may also be too many to go on. The
layout and the literals listed so far stay when the encoding fails.
-/

namespace CilMethod.Image

/-- The sections of a body that is laid out, of which the code is written already. -/
def finish (g : TypeGraph) (b : Body) (codeSize : Nat) (code : Array UInt8) :
    Except Failure Image := do
  let handlers ← handlerTable g b.instructions codeSize b.handlers.toList
  let types := b.locals.members.map fun (_, slot) => g.typeDef slot.type
  return {
    sections :=
      { code, handlers, locals := localsSignature types
        signature := methodSignature b.method.attributes }
    codeSize }

/-- Encodes a body against the types of a graph. -/
def encode (g : TypeGraph) : Encoder UserStrings := fun strings b =>
  match b.computeOffsets with
  | (none, b) => (.error (.fault .recomputeSuppressed), strings, b)
  | (some codeSize, b) =>
    if Bytes.limit 4 ≤ codeSize then (.error (.fault (.codeOverflow codeSize)), strings, b)
    else
      match writeMembers b.instructions b.locals b.instructions.members strings #[] with
      | (.ok code, strings) => (finish g b codeSize code, strings, b)
      | (.error e, strings) => (.error (.fault e), strings, b)

end CilMethod.Image
