import Std.Data.ExtTreeSet

/-!
# Handles

Instructions, local variables, types and methods are named by handles: the number of the item among
all those its owner ever created, counted from zero. A handle outlives the place of its item, so
what is taken out of a list can be put back by the same handle. Instruction handles are ordered by
their numbers.
-/

namespace CilMethod

@[ext]
structure InstructionId where
  index : Nat
  deriving DecidableEq, Inhabited

structure VariableId where
  index : Nat
  deriving DecidableEq, Inhabited

@[ext]
structure TypeId where
  index : Nat
  deriving DecidableEq, Inhabited

structure MethodId where
  index : Nat
  deriving DecidableEq, Inhabited

namespace InstructionId

instance : Ord InstructionId := ⟨compareOn index⟩

instance : Std.TransOrd InstructionId := inferInstanceAs (Std.TransCmp (compareOn index))

instance : Std.LawfulEqOrd InstructionId where
  eq_of_compare {a b} h := by
    have : a.index = b.index := Std.LawfulEqOrd.eq_of_compare h
    cases a; cases b; simp_all

/-- How messages name an instruction. -/
def text (id : InstructionId) : String := s!"i{id.index}"

end InstructionId

/-- How messages name a variable. -/
def VariableId.text (id : VariableId) : String := s!"v{id.index}"

end CilMethod
