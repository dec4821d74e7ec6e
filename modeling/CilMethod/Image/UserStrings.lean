import CilMethod.Metadata.Token

/-!
# User strings

String literals are written as tokens into a table that an encoder shares between bodies. The table
lists each literal once, in the order of first use, and the row of a literal is its place there
counted from one.
-/

namespace CilMethod

/-- The literals seen so far. -/
structure UserStrings where
  entries : Array String := #[]
  deriving DecidableEq

namespace UserStrings

def empty : UserStrings := {}

/-- Lists a literal, unless it is listed already. -/
def insert (t : UserStrings) (s : String) : UserStrings :=
  if t.entries.contains s then t else ⟨t.entries.push s⟩

/-- The token of a literal in the table. -/
def token (t : UserStrings) (s : String) : Token :=
  let place := (t.entries.findIdx? (· == s)).getD t.entries.size
  .ofRow .string (place.toUInt32 + 1)

end UserStrings

end CilMethod
