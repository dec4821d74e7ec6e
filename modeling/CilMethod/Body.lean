import CilMethod.Handler
import CilMethod.Locals
import CilMethod.Scope
import CilMethod.Sequence.Layout

/-!
# Method bodies

The code of a method with all that is needed to encode it: instructions, local variables, handlers
and header fields, and the sections of its last encoding. An encoder turns a body into an image; it
may lay the body out anew and may remember things from one body to the next. A failed encoding keeps
the sections of the last one that succeeded.
-/

namespace CilMethod

/-- The encoded parts of a body. -/
structure Sections where
  /-- The instruction stream. -/
  code : Array UInt8 := #[]
  /-- The exception handling section. -/
  handlers : Array UInt8 := #[]
  /-- The signature of the local variables. -/
  locals : Array UInt8 := #[]
  /-- The signature of the method. -/
  signature : Array UInt8 := #[]
  deriving DecidableEq

/-- What an encoder makes of a body. -/
structure Image where
  sections : Sections := {}
  /-- The deepest the evaluation stack gets, if the encoder found out. -/
  maxStack : Option UInt16 := none
  codeSize : Nat := 0
  deriving DecidableEq

structure Body where
  method : MethodDef
  /-- Keep `maxStack` when the header is computed. -/
  preserveMaxStack : Bool := false
  maxStack : UInt16 := 0
  /-- Zero the local variables on entry. -/
  initLocals : Bool := false
  /-- The token of the stand-alone signature of the local variables. -/
  localVarToken : Token := .zero
  scope : Option Scope := none
  /-- The code size as of the last layout or encoding. -/
  codeSize : Nat := 0
  instructions : Sequence := {}
  locals : Locals := {}
  handlers : Array Handler := #[]
  sections : Sections := {}

/-- An encoder with a memory: the image or why there is none, what it remembers from now on, and the
body as it leaves it. -/
def Encoder (memory : Type) : Type := memory → Body → Except Failure Image × memory × Body

namespace Body

/-- The boundaries of handlers that are not members, with the positions of their handlers. -/
def danglingBoundaries (b : Body) : List (Nat × Boundary × InstructionId) :=
  b.handlers.toList.zipIdx.flatMap fun (h, position) =>
    (h.danglingBoundaries b.instructions).map (position, ·)

/-- The implicit first argument of an instance method. It has the type that declares the method and
is passed by reference if that is a value type. -/
def thisParameter (g : TypeGraph) (b : Body) : Except Error Parameter :=
  match b.method.declaringType with
  | none => .error .noDeclaringType
  | some type => .ok
    { name := "this"
      sequence := 0
      attributes := .none
      type
      isByRef := (g.typeDef type).isValueType }

/-- Lays out the instructions and notes the code size; does nothing while recomputing is
suppressed. -/
def computeOffsets (b : Body) : Option Nat × Body :=
  match b.instructions.recompute with
  | (some size, instructions) => (some size, { b with instructions, codeSize := size })
  | (none, _) => (none, b)

/-- Takes over an image. -/
def install (b : Body) (image : Image) : Body :=
  { b with
    codeSize := image.codeSize
    maxStack := if b.preserveMaxStack then b.maxStack else image.maxStack.getD b.maxStack
    sections := image.sections }

/-- Encodes the body and takes over the image. -/
def computeHeader {memory : Type} (encoder : Encoder memory) (m : memory) (b : Body) :
    Except Failure Unit × memory × Body :=
  match encoder m b with
  | (.ok image, m, b) => (.ok (), m, b.install image)
  | (.error e, m, b) => (.error e, m, b)

end Body

end CilMethod
