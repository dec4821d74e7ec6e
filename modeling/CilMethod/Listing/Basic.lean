import CilMethod.Body
import CilMethod.Listing.Error
import CilMethod.Sequence.ByHandle

/-!
# Listings

A listing is a method body together with the labels it was written with. Labels outlive their
instructions: when an instruction is taken out, what still names it can be shown by its label.
-/

namespace CilMethod

structure Listing where
  body : Body
  /-- Each label with the instruction that carries it, in the order of the source. -/
  labels : List (String × InstructionId) := []

namespace Listing

/-- The instruction that carries a label. -/
def findLabel? (labels : List (String × InstructionId)) (name : String) : Option InstructionId :=
  (labels.find? (·.1 == name)).map (·.2)

def label? (l : Listing) (name : String) : Option InstructionId := findLabel? l.labels name

/-- The label of an instruction. -/
def labelOf? (l : Listing) (id : InstructionId) : Option String :=
  (l.labels.find? (·.2 == id)).map (·.1)

/-- Edits the instructions of the body. -/
def editInstructions {α : Type} (edit : Sequence.EditM α) : EStateM ListingError Listing α :=
  fun l =>
    match edit.run l.body.instructions with
    | .ok a instructions => .ok a { l with body := { l.body with instructions } }
    | .error e instructions => .error (.body e) { l with body := { l.body with instructions } }

/-- Takes out the instruction with a label, which is the answer, and lays the body out anew. -/
def remove (name : String) : EStateM ListingError Listing InstructionId := do
  match (← get).label? name with
  | none => throw (.unknownLabel name)
  | some id =>
    editInstructions (Sequence.removeTarget id)
    modify fun l => { l with body := l.body.computeOffsets.2 }
    return id

end Listing

end CilMethod
