import CilMethod.Proofs.Edits
import CilMethod.Sequence.Script
import Mathlib.Logic.Relation

/-!
# What a script can do to a sequence

There are four elementary changes of a sequence: an instruction is created, put at a position, taken
out from a position, or changed in place. An edit that fails has made none of them, and one that
succeeds has made one or two (`apply_atomic`). So whatever the elementary changes, the layout and
the suppression flag keep is kept by every script (`Invariant.runScript`).
-/

namespace CilMethod.Sequence

/-- One elementary change, with what must hold for it to be made. -/
inductive Change : Sequence → Sequence → Prop where
  | create {s : Sequence} {opcode : Opcode} {operand : Operand}
      (hfits : operand.fits opcode.operandType = true) : Change s (s.created opcode operand)
  | insert {s : Sequence} {position : Nat} {id : InstructionId} (hposition : position ≤ s.length)
      (hid : s.placeFault? id = none) : Change s (s.inserted position id)
  | remove {s : Sequence} {position : Nat} {old : InstructionId}
      (hold : s.get? position = some old) : Change s (s.removed position old)
  | rewrite {s : Sequence} {id : InstructionId} {i : Instruction} {opcode : Opcode}
      {operand : Operand} (hfits : operand.fits opcode.operandType = true)
      (hid : s.node? id = some i) : Change s (s.changed id opcode operand)

/-- Changes made one after the other. -/
abbrev Changes : Sequence → Sequence → Prop := Relation.ReflTransGen Change

/-- The outcome of an edit of `s` that makes its changes whole or not at all. -/
def Atomic {α : Type} (s : Sequence) : EStateM.Result Error Sequence α → Prop
  | .ok _ t => s.Changes t
  | .error _ t => t = s

section Atomic

variable (s : Sequence) (position : Nat) (id target : InstructionId) (opcode : Opcode)
  (operand : Operand)

theorem Atomic.map {α β : Type} {s : Sequence} {x : EditM α} (h : s.Atomic (x.run s)) (f : α → β) :
    s.Atomic ((f <$> x).run s) := by
  rw [map_eq_pure_bind, EStateM.run_bind]
  cases hx : x.run s with
  | ok a t => rwa [hx] at h
  | error e t => rwa [hx] at h

theorem Atomic.silently {s : Sequence} {x : EditM Unit} (h : s.Atomic (x.run s)) :
    s.Atomic ((apply.silently x).run s) := by
  rw [apply.silently, ← map_eq_pure_bind]
  exact h.map _

theorem Atomic.locate {α : Type} {s : Sequence} {target : InstructionId} {f : Nat → EditM α}
    (h : ∀ position, s.Atomic ((f position).run s)) :
    s.Atomic ((locate target >>= f).run s) := by
  rw [run_locate_bind]
  cases s.positionOf? target with
  | none => rfl
  | some position => exact h position

theorem placeFault?_eq_none {s : Sequence} {id : InstructionId} (h : s.placeFault? id = none) :
    ∃ i, s.node? id = some i ∧ i.isMember = false := by
  unfold placeFault? at h
  cases hid : s.node? id with
  | none => simp [hid] at h
  | some i => exact ⟨i, rfl, by simpa [hid] using h⟩

theorem placeFault?_removed {s : Sequence} {id : InstructionId} (h : s.placeFault? id = none)
    (position : Nat) (old : InstructionId) : (s.removed position old).placeFault? id = none := by
  obtain ⟨i, hi, hm⟩ := placeFault?_eq_none h
  have hnode : (s.struck position).node? id = some i := hi
  simp only [placeFault?, removed, node?_takeOut, hnode, Option.map_some, hm]
  split <;> simp_all

theorem le_length_removed {s : Sequence} {position : Nat} {old : InstructionId}
    (h : s.get? position = some old) : position ≤ (s.removed position old).length := by
  rw [get?_eq_toList] at h
  obtain ⟨hlt, -⟩ := List.getElem?_eq_some_iff.1 h
  rw [length, ← Array.length_toList, toList_removed, List.length_eraseIdx_of_lt hlt]
  omega

theorem create_atomic : s.Atomic ((create opcode operand).run s) := by
  rw [run_create]
  split_ifs with h
  · exact .single (.create h)
  · rfl

theorem insert_atomic : s.Atomic ((insert position id).run s) := by
  rw [run_insert]
  split_ifs with h
  · rfl
  · cases hid : s.placeFault? id with
    | some e => rfl
    | none => exact .single (.insert (Nat.not_lt.1 h) hid)

theorem append_atomic : s.Atomic ((append id).run s) := by
  rw [run_append]
  exact insert_atomic ..

theorem replace_atomic : s.Atomic ((replace position id).run s) := by
  rw [run_replace]
  cases hold : s.get? position with
  | none => rfl
  | some old =>
    cases hid : s.placeFault? id with
    | some e => rfl
    | none =>
      obtain ⟨i, hi, -⟩ := placeFault?_eq_none hid
      change s.Changes (s.replaced position id old)
      rw [replaced_eq s position id hold hi]
      exact .tail (.single (.remove hold))
        (.insert (le_length_removed hold) (placeFault?_removed hid position old))

theorem remove_atomic : s.Atomic ((remove position).run s) := by
  rw [run_remove]
  cases hold : s.get? position with
  | none => rfl
  | some old => exact .single (.remove hold)

theorem setInstruction_atomic : s.Atomic ((setInstruction id opcode operand).run s) := by
  rw [run_setInstruction]
  split_ifs with h
  · cases hid : s.node? id with
    | none => rfl
    | some i => exact .single (.rewrite h hid)
  · rfl

theorem emit_atomic : s.Atomic ((emit opcode operand).run s) := by
  rw [run_emit]
  split_ifs with h
  · exact .tail (.single (.create h)) (.insert (Nat.le_refl _) (placeFault?_created ..))
  · rfl

theorem setOpcode_atomic : s.Atomic ((setOpcode id opcode).run s) := by
  rw [run_setOpcode]
  cases s.node? id with
  | none => rfl
  | some i => exact setInstruction_atomic ..

theorem setOperand_atomic : s.Atomic ((setOperand id operand).run s) := by
  rw [run_setOperand]
  cases s.node? id with
  | none => rfl
  | some i => exact setInstruction_atomic ..

/-- An edit that fails leaves the sequence it found; one that succeeds has changed it. -/
theorem apply_atomic (e : Edit) : s.Atomic ((apply e).run s) := by
  cases e with
  | create opcode operand => exact (create_atomic s opcode operand).map _
  | append id => exact (append_atomic s id).silently
  | insert position id => exact (insert_atomic s position id).silently
  | replace position id => exact (replace_atomic s position id).map _
  | remove position => exact (remove_atomic s position).map _
  | setInstruction id opcode operand => exact (setInstruction_atomic s id opcode operand).silently
  | setOpcode id opcode => exact (setOpcode_atomic s id opcode).silently
  | setOperand id operand => exact (setOperand_atomic s id operand).silently
  | emit opcode operand => exact (emit_atomic s opcode operand).map _
  | insertBefore target id => exact (Atomic.locate fun p => insert_atomic s p id).silently
  | insertAfter target id => exact (Atomic.locate fun p => insert_atomic s (p + 1) id).silently
  | replaceTarget target id =>
    exact (Atomic.locate fun p => (replace_atomic s p id).map _).silently
  | removeTarget id => exact (Atomic.locate fun p => (remove_atomic s p).map _).silently

end Atomic

/-- The sequences that a script can make of the empty one. -/
def Reachable (s : Sequence) : Prop := ∃ steps : List Step, (empty.runScript steps).2 = s

/-- What the elementary changes, the layout and the suppression flag keep. -/
structure Invariant (P : Sequence → Prop) : Prop where
  change : ∀ {s t : Sequence}, Change s t → P s → P t
  recompute : ∀ {s : Sequence}, P s → P s.recompute.2
  suppress : ∀ {s : Sequence} (on : Bool), P s → P (s.setSuppressed on)

namespace Invariant

variable {P : Sequence → Prop}

theorem changes (h : Invariant P) {s t : Sequence} (hst : s.Changes t) (hs : P s) : P t := by
  induction hst with
  | refl => exact hs
  | tail _ hc ih => exact h.change hc ih

theorem runEdit (h : Invariant P) {s : Sequence} (e : Edit) (hs : P s) : P (s.runEdit e).2 := by
  have hatomic := apply_atomic s e
  unfold Sequence.runEdit
  cases hrun : (apply e).run s with
  | ok handle t =>
    rw [hrun] at hatomic
    exact h.changes hatomic hs
  | error err t =>
    rw [hrun] at hatomic
    exact hatomic ▸ hs

theorem endLoad (h : Invariant P) {s : Sequence} (hs : P s) : P s.endLoad :=
  h.recompute (h.suppress false hs)

mutual

theorem runStep (h : Invariant P) : ∀ {s : Sequence} (step : Step), P s → P (s.runStep step).2
  | _, .edit e, hs => h.runEdit e hs
  | _, .recompute, hs => h.recompute hs
  | _, .suppress on, hs => h.suppress on hs
  | _, .load steps, hs => h.endLoad (h.runScript steps (h.suppress true hs))

/-- Every script keeps an invariant, whichever of its steps fail. -/
theorem runScript (h : Invariant P) :
    ∀ {s : Sequence} (steps : List Step), P s → P (s.runScript steps).2
  | _, [], hs => hs
  | _, step :: steps, hs => h.runScript steps (h.runStep step hs)

end

theorem reachable (h : Invariant P) (hempty : P empty) {s : Sequence} (hs : s.Reachable) : P s := by
  obtain ⟨steps, rfl⟩ := hs
  exact h.runScript steps hempty

end Invariant

end CilMethod.Sequence
