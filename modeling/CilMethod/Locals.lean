import CilMethod.Error

/-!
# Local variables

The local variables of a body are kept like its instructions: every variable ever created, and an
order of those that are members. Here indices are never stale: every edit renumbers the members it
shifts, so a variable knows its position and knows by having none that it is not a member.
-/

namespace CilMethod

/-- A local variable. -/
structure Slot where
  type : TypeId
  /-- The position among the members, missing outside the order. -/
  index : Option Nat := none
  deriving DecidableEq

/-- The position as a signed 32-bit number, minus one outside the order. -/
def Slot.rawIndex (s : Slot) : Int :=
  match s.index with
  | some index => Int.bmod index (1 <<< 32)
  | none => -1

structure Locals where
  /-- Every variable ever created, by handle. -/
  slots : Array Slot := #[]
  /-- The members, in order. -/
  order : Array VariableId := #[]
  deriving DecidableEq

namespace Locals

def empty : Locals := {}

/-- The number of members. -/
def length (l : Locals) : Nat := l.order.size

def isEmpty (l : Locals) : Bool := l.order.isEmpty

/-- The member at a position. -/
def get? (l : Locals) (position : Nat) : Option VariableId := l.order[position]?

/-- The variable with a handle, member or not. -/
def slot? (l : Locals) (id : VariableId) : Option Slot := l.slots[id.index]?

/-- The position of a member. -/
def indexOf? (l : Locals) (id : VariableId) : Option Nat := (l.slot? id).bind (·.index)

/-- Is the variable a member? -/
def contains (l : Locals) (id : VariableId) : Bool := (l.indexOf? id).isSome

/-- The members with their handles, in order. -/
def members (l : Locals) : List (VariableId × Slot) :=
  l.order.toList.filterMap fun id => (l.slot? id).map (id, ·)

/-- An edit of the local variables. It may fail, and leaves local variables behind whether it does
or not. -/
abbrev EditM := EStateM Error Locals

/-- The variable with a handle, which must have been created. -/
def slot (id : VariableId) : EditM Slot := do
  match (← get).slot? id with
  | some slot => return slot
  | none => throw (.unknownVariable id)

/-- Only a variable that exists and is not a member can be placed. -/
def checkDetached (id : VariableId) : EditM Unit := do
  if (← slot id).index.isSome then throw (.variableAlreadyMember id)

/-- A new member can stand at any position up to the length. -/
def checkPlace (position : Nat) : EditM Unit := do
  let length := (← get).length
  if length < position then throw (.positionOutOfRange position length)

/-- The member at a position, which must be in range. -/
def member (position : Nat) : EditM VariableId := do
  let l ← get
  match l.get? position with
  | some id => return id
  | none => throw (.positionOutOfRange position l.length)

def setIndex (slots : Array Slot) (id : VariableId) (index : Option Nat) : Array Slot :=
  slots.modify id.index fun s => { s with index }

/-- Numbers variables from a position on. -/
def numberFrom (slots : Array Slot) (position : Nat) : List VariableId → Array Slot
  | [] => slots
  | id :: ids => numberFrom (setIndex slots id (some position)) (position + 1) ids

/-- Numbers the members anew from a position on. -/
def renumber (l : Locals) (position : Nat) : Locals :=
  { l with slots := numberFrom l.slots position (l.order.extract position).toList }

/-- Creates a variable outside the order. -/
def create (type : TypeId) : EditM VariableId := do
  let id := ⟨(← get).slots.size⟩
  modify fun l => { l with slots := l.slots.push { type } }
  return id

/-- Places a variable behind the last member. -/
def append (id : VariableId) : EditM Unit := do
  checkDetached id
  let position := (← get).length
  modify fun l => { l with order := l.order.push id }
  modify (·.renumber position)

/-- Places a variable before the member at a position and shifts the later ones up. -/
def insert (position : Nat) (id : VariableId) : EditM Unit := do
  checkPlace position
  checkDetached id
  modify fun l => { l with order := l.order.insertIdxIfInBounds position id }
  modify (·.renumber position)

/-- Puts a variable in the place of the member at a position, which is the answer. -/
def replace (position : Nat) (id : VariableId) : EditM VariableId := do
  let replaced ← member position
  checkDetached id
  modify fun l => { l with order := l.order.setIfInBounds position id }
  modify fun l => { l with slots := setIndex l.slots replaced none }
  modify fun l => { l with slots := setIndex l.slots id (some position) }
  return replaced

/-- Takes out the member at a position, which is the answer, and shifts the later ones down.
Instructions that still use it are left as they are. -/
def remove (position : Nat) : EditM VariableId := do
  let removed ← member position
  modify fun l => { l with order := l.order.eraseIdxIfInBounds position }
  modify fun l => { l with slots := setIndex l.slots removed none }
  modify (·.renumber position)
  return removed

/-- Creates a variable and appends it. -/
def declare (type : TypeId) : EditM VariableId := do
  let id ← create type
  append id
  return id

/-- Declares `count` variables of one type. -/
def declareMany (type : TypeId) : (count : Nat) → EditM Unit
  | 0 => return
  | count + 1 => do
    discard <| declare type
    declareMany type count

end Locals

end CilMethod
