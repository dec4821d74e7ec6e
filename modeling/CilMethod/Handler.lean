import CilMethod.Metadata.TypeGraph
import CilMethod.Sequence.Basic

/-!
# Exception handlers

A handler protects a region of a body and says what runs when control leaves it by an exception.
Regions are given by the instruction they start with and the instruction behind their end; without
an end they run to the end of the body. The boundaries are plain handles, and taking one of these
instructions out of the sequence leaves the handler as it is.
-/

namespace CilMethod

inductive HandlerKind where
  /-- runs for exceptions of a type -/
  | catchType (type : TypeId)
  /-- runs if the filter that starts at an instruction says so -/
  | filterFrom (start : InstructionId)
  /-- runs whichever way control leaves -/
  | finallyBlock
  /-- runs if control leaves by an exception -/
  | faultBlock
  deriving DecidableEq

namespace HandlerKind

/-- The flag word of a clause of this kind. -/
def flags : HandlerKind → Nat
  | catchType _ => 0x0
  | filterFrom _ => 0x1
  | finallyBlock => 0x2
  | faultBlock => 0x4

def name : HandlerKind → String
  | catchType _ => "catch"
  | filterFrom _ => "filter"
  | finallyBlock => "finally"
  | faultBlock => "fault"

end HandlerKind

/-- Which edge of a handler an instruction marks. -/
inductive Boundary where
  | tryStart
  | tryEnd
  | filterStart
  | handlerStart
  | handlerEnd
  deriving DecidableEq

def Boundary.name : Boundary → String
  | tryStart => "TryStart"
  | tryEnd => "TryEnd"
  | filterStart => "FilterStart"
  | handlerStart => "HandlerStart"
  | handlerEnd => "HandlerEnd"

structure Handler where
  kind : HandlerKind
  tryStart : InstructionId
  tryEnd : Option InstructionId
  handlerStart : InstructionId
  handlerEnd : Option InstructionId
  deriving DecidableEq

namespace Handler

/-- The type that a typed handler catches. -/
def catchType? (h : Handler) : Option TypeId :=
  match h.kind with
  | .catchType type => some type
  | _ => none

/-- The start of the filter block. -/
def filterStart? (h : Handler) : Option InstructionId :=
  match h.kind with
  | .filterFrom start => some start
  | _ => none

/-- Every instruction that the handler names. -/
def boundaries (h : Handler) : List (Boundary × InstructionId) :=
  (.tryStart, h.tryStart) ::
    ((h.tryEnd.map (Boundary.tryEnd, ·)).toList ++
      (h.filterStart?.map (Boundary.filterStart, ·)).toList ++
      (.handlerStart, h.handlerStart) ::
      (h.handlerEnd.map (Boundary.handlerEnd, ·)).toList)

/-- The boundaries that are not members of the sequence. -/
def danglingBoundaries (h : Handler) (s : Sequence) : List (Boundary × InstructionId) :=
  h.boundaries.filter fun (_, id) => !s.contains id

/-- Do two handlers say the same? Catch types count as the same if their names are. -/
def same (g : TypeGraph) (h k : Handler) : Bool :=
  let sameKind := match h.kind, k.kind with
    | .catchType t, .catchType u => (g.typeDef t).sameName (g.typeDef u)
    | a, b => a == b
  sameKind && h.tryStart == k.tryStart && h.tryEnd == k.tryEnd &&
    h.handlerStart == k.handlerStart && h.handlerEnd == k.handlerEnd

end Handler

end CilMethod
