import CilMethod.Error
import CilMethod.Instruction

/-!
# Instruction sequences

A sequence owns every instruction it ever created and keeps some of them, its members, in an order.
Creating an instruction does not place it; an instruction that is taken out stays with the sequence
and can be placed again, so a handle never goes stale.

Every edit repairs the links of the neighbours it touches and keeps the set of branches, the members
whose opcode names other instructions. Indices and offsets depend on everything before an
instruction and are left to `Sequence.recompute`. An edit that can fail makes all its checks before
its first change.
-/

namespace CilMethod

structure Sequence where
  /-- Every instruction ever created, by handle. -/
  nodes : Array Instruction := #[]
  /-- The members, in order. -/
  order : Array InstructionId := #[]
  /-- The members whose opcode names other instructions. -/
  branches : Std.ExtTreeSet InstructionId := ∅
  /-- Recomputing does nothing while this is set. -/
  suppressed : Bool := false

namespace Sequence

def empty : Sequence := {}

/-! ## Looking up -/

/-- The number of members. -/
def length (s : Sequence) : Nat := s.order.size

def isEmpty (s : Sequence) : Bool := s.order.isEmpty

/-- The member at a position. -/
def get? (s : Sequence) (position : Nat) : Option InstructionId := s.order[position]?

def first? (s : Sequence) : Option InstructionId := s.order[0]?

def last? (s : Sequence) : Option InstructionId := s.order.back?

/-- The member right before a position. -/
def before? (s : Sequence) : (position : Nat) → Option InstructionId
  | 0 => none
  | position + 1 => s.order[position]?

/-- The instruction with a handle, member or not. -/
def node? (s : Sequence) (id : InstructionId) : Option Instruction := s.nodes[id.index]?

/-- Is the instruction a member? -/
def contains (s : Sequence) (id : InstructionId) : Bool := (s.node? id).any (·.isMember)

/-- The position of a member, found by search and so never out of date. -/
def positionOf? (s : Sequence) (id : InstructionId) : Option Nat :=
  if s.contains id then s.order.findIdx? (· == id) else none

/-- The members with their handles, in order. -/
def members (s : Sequence) : List (InstructionId × Instruction) :=
  s.order.toList.filterMap fun id => (s.node? id).map (id, ·)

/-- The sum of the sizes of all members. -/
def codeSize (s : Sequence) : Nat := Offset.total (s.members.map (·.2.size))

/-- The offset that the last recompute gave an instruction. -/
def offsetOf (s : Sequence) (id : InstructionId) : Nat := (s.node? id).elim 0 (·.offset)

/-- The instructions that an instruction names. -/
def targetsOf (s : Sequence) (id : InstructionId) : List InstructionId :=
  (s.node? id).elim [] (·.operand.targets)

/-- The branches, by ascending handle. -/
def branchList (s : Sequence) : List InstructionId := s.branches.toList

def isBranch (s : Sequence) (id : InstructionId) : Bool := s.branches.contains id

/-- Each branch with each of its targets that is not a member. -/
def danglingTargets (s : Sequence) : List (InstructionId × InstructionId) :=
  s.branchList.flatMap fun branch =>
    ((s.targetsOf branch).filter fun target => !s.contains target).map (branch, ·)

/-- Follows a link from instruction to instruction, for at most `fuel` steps. -/
def follow (s : Sequence) (link : Instruction → Option InstructionId) :
    (fuel : Nat) → Option InstructionId → List InstructionId
  | 0, _ => []
  | _, none => []
  | fuel + 1, some id => id :: s.follow link fuel ((s.node? id).bind link)

/-- The members along the `next` links. A walk that never comes back to an instruction takes no more
steps than there are instructions. -/
def walkForward (s : Sequence) : List InstructionId :=
  s.follow (·.next) s.nodes.size s.first?

/-- The members along the `previous` links, from the last one. -/
def walkBackward (s : Sequence) : List InstructionId :=
  s.follow (·.previous) s.nodes.size s.last?

/-! ## Checks -/

/-- An edit of a sequence. It may fail, and leaves a sequence behind whether it does or not. -/
abbrev EditM := EStateM Error Sequence

def checkOperand (opcode : Opcode) (operand : Operand) : EditM Unit :=
  if operand.fits opcode.operandType then pure ()
  else throw (.operandMismatch opcode.name opcode.operandType)

/-- The instruction with a handle, which must have been created. -/
def node (id : InstructionId) : EditM Instruction := do
  match (← get).node? id with
  | some i => return i
  | none => throw (.unknownInstruction id)

/-- Only an instruction that exists and is not a member can be placed. -/
def checkDetached (id : InstructionId) : EditM Unit := do
  if (← node id).isMember then throw (.alreadyMember id)

/-- A new member can stand at any position up to the length. -/
def checkPlace (position : Nat) : EditM Unit := do
  let length := (← get).length
  if length < position then throw (.positionOutOfRange position length)

/-- The member at a position, which must be in range. -/
def member (position : Nat) : EditM InstructionId := do
  let s ← get
  match s.get? position with
  | some id => return id
  | none => throw (.positionOutOfRange position s.length)

/-! ## Links and membership -/

def modifyNode (s : Sequence) (id : InstructionId) (f : Instruction → Instruction) : Sequence :=
  { s with nodes := s.nodes.modify id.index f }

/-- Sets the `next` link of an instruction, if there is one. -/
def setNext (s : Sequence) (id : Option InstructionId) (next : Option InstructionId) : Sequence :=
  match id with
  | some id => s.modifyNode id fun i => { i with next }
  | none => s

/-- Sets the `previous` link of an instruction, if there is one. -/
def setPrevious (s : Sequence) (id : Option InstructionId) (previous : Option InstructionId) :
    Sequence :=
  match id with
  | some id => s.modifyNode id fun i => { i with previous }
  | none => s

/-- Links an instruction with the neighbours on both of its sides. -/
def link (s : Sequence) (previous : Option InstructionId) (id : InstructionId)
    (next : Option InstructionId) : Sequence :=
  ((s.setNext previous (some id)).setPrevious next (some id)).modifyNode id fun i =>
    { i with previous, next }

/-- Lists an instruction as a branch if its opcode names other instructions, and otherwise not. -/
def indexBranch (s : Sequence) (id : InstructionId) : Sequence :=
  match s.node? id with
  | some i =>
    { s with branches := if i.isTargetBearing then s.branches.insert id else s.branches.erase id }
  | none => s

/-- Marks an instruction as a member, and lists it if its opcode makes it a branch. One that is not
a member is never listed, so nothing has to be taken off the list. -/
def attach (s : Sequence) (id : InstructionId) : Sequence :=
  let s := s.modifyNode id fun i => { i with isMember := true }
  if (s.node? id).any (·.isTargetBearing) then { s with branches := s.branches.insert id } else s

/-- Marks an instruction as no member and drops its links; its index and offset stay. -/
def detach (s : Sequence) (id : InstructionId) : Sequence :=
  let s := s.modifyNode id fun i => { i with isMember := false, previous := none, next := none }
  { s with branches := s.branches.erase id }

/-! ## Edits by position -/

/-- Creates an instruction outside the order. -/
def create (opcode : Opcode) (operand : Operand) : EditM InstructionId := do
  checkOperand opcode operand
  let id := ⟨(← get).nodes.size⟩
  modify fun s => { s with nodes := s.nodes.push { opcode, operand } }
  return id

/-- Places an instruction behind the last member. -/
def append (id : InstructionId) : EditM Unit := do
  checkDetached id
  let previous := (← get).last?
  modify (·.link previous id none)
  modify fun s => { s with order := s.order.push id }
  modify (·.attach id)

/-- Places an instruction before the member at a position; at the length of the sequence this is
appending. -/
def insert (position : Nat) (id : InstructionId) : EditM Unit := do
  checkPlace position
  checkDetached id
  let previous := (← get).before? position
  let next := (← get).get? position
  modify (·.link previous id next)
  modify fun s => { s with order := s.order.insertIdxIfInBounds position id }
  modify (·.attach id)

/-- Puts an instruction in the place of the member at a position, which is the answer. -/
def replace (position : Nat) (id : InstructionId) : EditM InstructionId := do
  let replaced ← member position
  checkDetached id
  let previous := (← get).before? position
  let next := (← get).get? (position + 1)
  modify (·.detach replaced)
  modify (·.link previous id next)
  modify fun s => { s with order := s.order.setIfInBounds position id }
  modify (·.attach id)
  return replaced

/-- Takes out the member at a position, which is the answer. Whatever still names it is left as it
is. -/
def remove (position : Nat) : EditM InstructionId := do
  let removed ← member position
  modify fun s => { s with order := s.order.eraseIdxIfInBounds position }
  let previous := (← get).before? position
  let next := (← get).get? position
  modify (·.setNext previous next)
  modify (·.setPrevious next previous)
  modify (·.detach removed)
  return removed

/-! ## Edits in place -/

/-- Changes opcode and operand. A member is then a branch exactly if its new opcode makes it one. -/
def setInstruction (id : InstructionId) (opcode : Opcode) (operand : Operand) : EditM Unit := do
  checkOperand opcode operand
  let i ← node id
  modify (·.modifyNode id fun i => { i with opcode, operand })
  if i.isMember then modify (·.indexBranch id)

/-- Changes the opcode and keeps the operand. -/
def setOpcode (id : InstructionId) (opcode : Opcode) : EditM Unit := do
  let i ← node id
  setInstruction id opcode i.operand

/-- Changes the operand and keeps the opcode. -/
def setOperand (id : InstructionId) (operand : Operand) : EditM Unit := do
  let i ← node id
  setInstruction id i.opcode operand

end Sequence

end CilMethod
