import CilMethod.Handle

/-!
# Debug scopes

The lexical scopes of local variables, as debug information records them. Scopes nest; a scope is
visited before the scopes within it, level by level.
-/

namespace CilMethod

structure Scope where
  start : Option InstructionId
  /-- The instruction behind the scope; missing if it runs to the end of the body. -/
  finish : Option InstructionId
  locals : List VariableId
  scopes : List Scope

namespace Scope

mutual

/-- The number of scopes in a tree. -/
def size : Scope → Nat
  | ⟨_, _, _, scopes⟩ => sizeAll scopes + 1

/-- The number of scopes in a list of trees. -/
def sizeAll : List Scope → Nat
  | [] => 0
  | s :: ss => s.size + sizeAll ss

end

theorem sizeAll_append (a b : List Scope) : sizeAll (a ++ b) = sizeAll a + sizeAll b := by
  induction a with
  | nil => simp [sizeAll]
  | cons s a ih => simp [sizeAll, ih, Nat.add_assoc]

theorem size_eq (s : Scope) : s.size = sizeAll s.scopes + 1 := by
  cases s
  rfl

/-- Visits a queue of scopes; the scopes within one go to the end of the queue. -/
def walkQueue : List Scope → List Scope
  | [] => []
  | s :: queue => s :: walkQueue (queue ++ s.scopes)
termination_by queue => sizeAll queue
decreasing_by
  simp only [sizeAll_append, sizeAll, size_eq]
  omega

/-- The scope and all scopes within it, level by level. -/
def walk (s : Scope) : List Scope := walkQueue [s]

end Scope

end CilMethod
