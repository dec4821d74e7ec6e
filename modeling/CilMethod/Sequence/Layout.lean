import CilMethod.Sequence.Basic

/-!
# Layout of a sequence

Recomputing lays the members out one behind the other: each gets its position as index and the sum
of the sizes before it as offset, and its links are set from the order. Loading many instructions
suppresses recomputing until the load ends, and then recomputes once.
-/

namespace CilMethod.Sequence

/-- Lays out `ids` from a position and an offset on, behind `previous`; the answer is the offset
behind the last of them. -/
def layoutFrom (nodes : Array Instruction) (previous : Option InstructionId)
    (position offset : Nat) : List InstructionId → Array Instruction × Nat
  | [] => (nodes, offset)
  | id :: ids =>
    let size := nodes[id.index]?.elim 0 Instruction.size
    let nodes := nodes.modify id.index fun i =>
      { i with index := position, offset, previous, next := ids.head? }
    layoutFrom nodes (some id) (position + 1) (Offset.after offset size) ids

/-- Refreshes index, offset and links of every member and answers the code size; does nothing while
suppressed. -/
def recompute (s : Sequence) : Option Nat × Sequence :=
  if s.suppressed then (none, s)
  else
    let (nodes, size) := layoutFrom s.nodes none 0 0 s.order.toList
    (some size, { s with nodes })

/-- Turns recomputing off or on. -/
def setSuppressed (s : Sequence) (on : Bool) : Sequence := { s with suppressed := on }

/-- Starts loading: recomputing is off until the load ends. -/
def beginLoad (s : Sequence) : Sequence := s.setSuppressed true

/-- Ends loading: recomputing is on again, also for a load that is still open around this one, and
is done once. -/
def endLoad (s : Sequence) : Sequence := (s.setSuppressed false).recompute.2

end CilMethod.Sequence
