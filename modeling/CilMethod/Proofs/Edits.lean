import CilMethod.Proofs.Links
import CilMethod.Proofs.Runs
import CilMethod.Sequence.ByHandle

/-!
# What each edit answers and leaves behind

An edit makes its checks first, so one that fails leaves the sequence it found, and one that passes
its checks goes through. Each equation says which check fails first and what the edit makes of the
sequence when none does: `inserted`, `removed`, `replaced`, `created` or `changed`. Appending is
inserting at the length (`run_append`), and replacing a member is taking it out and inserting in its
place (`replaced_eq`).
-/

namespace CilMethod.Sequence

variable (s : Sequence) (position : Nat) (id : InstructionId) (opcode : Opcode) (operand : Operand)

/-- Why an instruction cannot be placed, if it cannot. -/
def placeFault? : Option Error :=
  match s.node? id with
  | none => some (.unknownInstruction id)
  | some i => if i.isMember then some (.alreadyMember id) else none

/-- The sequence with `id` put at a position. -/
def inserted : Sequence :=
  s.place id (s.before? position) (s.get? position) (s.order.insertIdxIfInBounds position id)

/-- The sequence with a position struck from the order. -/
def struck : Sequence := { s with order := s.order.eraseIdxIfInBounds position }

/-- The sequence with the member `old` taken out from a position. -/
def removed (old : InstructionId) : Sequence :=
  (s.struck position).takeOut old ((s.struck position).before? position)
    ((s.struck position).get? position)

/-- The sequence with `id` in the place of the member `old` at a position. -/
def replaced (old : InstructionId) : Sequence :=
  (s.detach old).place id (s.before? position) (s.get? (position + 1))
    (s.order.setIfInBounds position id)

/-- The sequence with one more instruction, outside the order. -/
def created : Sequence := { s with nodes := s.nodes.push { opcode, operand } }

/-- The sequence with opcode and operand of an instruction changed. -/
def changed : Sequence :=
  let t := s.modifyNode id fun i => { i with opcode, operand }
  if s.contains id then t.indexBranch id else t

/-- Opcode and operand of an instruction. -/
def code? : Option (Opcode × Operand) := (s.node? id).map fun i => (i.opcode, i.operand)

section Checks

theorem run_checkOperand :
    (checkOperand opcode operand).run s =
      if operand.fits opcode.operandType then .ok () s
      else .error (.operandMismatch opcode.name opcode.operandType) s := by
  unfold checkOperand
  split <;> rfl

theorem run_node :
    (node id).run s = match s.node? id with
      | some i => .ok i s
      | none => .error (.unknownInstruction id) s := by
  simp only [node, EStateM.run_bind, EStateM.run_get]
  cases s.node? id <;> rfl

theorem run_checkDetached :
    (checkDetached id).run s = match s.placeFault? id with
      | some e => .error e s
      | none => .ok () s := by
  simp only [checkDetached, EStateM.run_bind, run_node, placeFault?]
  cases s.node? id with
  | none => rfl
  | some i => cases h : i.isMember <;> simp [h]

theorem run_checkPlace :
    (checkPlace position).run s =
      if s.length < position then .error (.positionOutOfRange position s.length) s
      else .ok () s := by
  simp only [checkPlace, EStateM.run_bind, EStateM.run_get]
  split <;> rfl

theorem run_member :
    (member position).run s = match s.get? position with
      | some old => .ok old s
      | none => .error (.positionOutOfRange position s.length) s := by
  simp only [member, EStateM.run_bind, EStateM.run_get]
  cases s.get? position <;> rfl

theorem run_locate :
    (locate id).run s = match s.positionOf? id with
      | some position => .ok position s
      | none => .error (.notMember id) s := by
  simp only [locate, EStateM.run_bind, EStateM.run_get]
  cases s.positionOf? id <;> rfl

end Checks

section Positions

@[simp]
theorem before?_succ : s.before? (position + 1) = s.get? position := rfl

theorem get?_eq_toList : s.get? position = s.order.toList[position]? := by
  simp [get?]

@[simp]
theorem toList_inserted :
    (s.inserted position id).order.toList = s.order.toList.insertIdx position id := by
  simp [inserted, toList_insertIdxIfInBounds]

@[simp]
theorem toList_removed (old : InstructionId) :
    (s.removed position old).order.toList = s.order.toList.eraseIdx position := by
  simp [removed, struck]

theorem get?_removed (old : InstructionId) (q : Nat) :
    (s.removed position old).get? q = if q < position then s.get? q else s.get? (q + 1) := by
  simp only [get?_eq_toList, toList_removed, List.getElem?_eraseIdx]

theorem before?_removed (old : InstructionId) (q : Nat) :
    (s.removed position old).before? q =
      if q ≤ position then s.before? q else s.before? (q + 1) := by
  cases q with
  | zero => simp [before?]
  | succ q => simp only [before?_succ, get?_removed, Nat.succ_le_iff]

theorem removed_eq (old : InstructionId) :
    s.removed position old =
      (s.struck position).takeOut old (s.before? position) (s.get? (position + 1)) := by
  have hprevious : (s.struck position).before? position = s.before? position := by
    cases position with
    | zero => rfl
    | succ n => simp [struck, get?_eq_toList, List.getElem?_eraseIdx]
  have hnext : (s.struck position).get? position = s.get? (position + 1) := by
    simp [struck, get?_eq_toList, List.getElem?_eraseIdx]
  rw [removed, hprevious, hnext]

theorem node?_struck (k : InstructionId) : (s.struck position).node? k = s.node? k := rfl

/-- Replacing a member is taking it out and inserting in its place. -/
theorem replaced_eq {old : InstructionId} {i : Instruction} (hold : s.get? position = some old)
    (hid : s.node? id = some i) :
    s.replaced position id old = (s.removed position old).inserted position id := by
  have hlt : position < s.order.toList.length := by
    rw [get?_eq_toList] at hold
    exact (List.getElem?_eq_some_iff.1 hold).1
  have horder : s.order.setIfInBounds position id =
      (s.removed position old).order.insertIdxIfInBounds position id := by
    apply Array.toList_inj.1
    rw [toList_insertIdxIfInBounds, Array.toList_setIfInBounds, toList_removed,
      insertIdx_eraseIdx_self hlt]
  calc s.replaced position id old
      = ((s.struck position).detach old).place id (s.before? position) (s.get? (position + 1))
          (s.order.setIfInBounds position id) := (place_with_order ..).symm
    _ = (s.removed position old).place id (s.before? position) (s.get? (position + 1))
          (s.order.setIfInBounds position id) := by
        rw [place_detach (s := s.struck position) (h := hid), removed_eq]
    _ = (s.removed position old).inserted position id := by
        rw [inserted, before?_removed, get?_removed, if_pos (Nat.le_refl _),
          if_neg (Nat.lt_irrefl _), horder]

theorem run_create :
    (create opcode operand).run s =
      if operand.fits opcode.operandType then .ok ⟨s.nodes.size⟩ (s.created opcode operand)
      else .error (.operandMismatch opcode.name opcode.operandType) s := by
  unfold create
  by_cases h : operand.fits opcode.operandType = true
  · rw [if_pos h, run_bind_of_ok (by rw [run_checkOperand, if_pos h])]
    rfl
  · rw [if_neg h, run_bind_of_error (by rw [run_checkOperand, if_neg h])]

theorem run_insert :
    (insert position id).run s =
      if s.length < position then .error (.positionOutOfRange position s.length) s
      else match s.placeFault? id with
        | some e => .error e s
        | none => .ok () (s.inserted position id) := by
  unfold insert
  by_cases h : s.length < position
  · rw [if_pos h, run_bind_of_error (by rw [run_checkPlace, if_pos h])]
  · rw [if_neg h, run_bind_of_ok (by rw [run_checkPlace, if_neg h])]
    cases hid : s.placeFault? id with
    | some e => rw [run_bind_of_error (by rw [run_checkDetached, hid])]
    | none =>
      rw [run_bind_of_ok (by rw [run_checkDetached, hid])]
      simp [inserted, place]

theorem run_append : (append id).run s = (insert s.length id).run s := by
  have hnew : s.order.push id = s.order.insertIdxIfInBounds s.length id :=
    push_eq_insertIdxIfInBounds s.order id
  have hprevious : s.last? = s.before? s.length := by
    unfold last? before? length
    cases h : s.order.size <;> simp [Array.back?, h]
  have hnext : s.get? s.length = none := by simp [get?, length]
  rw [run_insert, if_neg (by omega), append]
  cases hid : s.placeFault? id with
  | some e => rw [run_bind_of_error (by rw [run_checkDetached, hid])]
  | none =>
    rw [run_bind_of_ok (by rw [run_checkDetached, hid])]
    simp [inserted, place, ← hnew, ← hprevious, hnext]

theorem run_replace :
    (replace position id).run s = match s.get? position with
      | none => .error (.positionOutOfRange position s.length) s
      | some old => match s.placeFault? id with
        | some e => .error e s
        | none => .ok old (s.replaced position id old) := by
  unfold replace
  cases hold : s.get? position with
  | none => rw [run_bind_of_error (by rw [run_member, hold])]
  | some old =>
    rw [run_bind_of_ok (by rw [run_member, hold])]
    cases hid : s.placeFault? id with
    | some e => rw [run_bind_of_error (by rw [run_checkDetached, hid])]
    | none =>
      rw [run_bind_of_ok (by rw [run_checkDetached, hid])]
      simp only [EStateM.run_bind, EStateM.run_get, EStateM.run_modify, EStateM.run_pure,
        order_link, detach_frame, replaced, place]

theorem run_remove :
    (remove position).run s = match s.get? position with
      | none => .error (.positionOutOfRange position s.length) s
      | some old => .ok old (s.removed position old) := by
  unfold remove
  cases hold : s.get? position with
  | none => rw [run_bind_of_error (by rw [run_member, hold])]
  | some old =>
    rw [run_bind_of_ok (by rw [run_member, hold])]
    rfl

end Positions

section Code

variable (k : InstructionId)

theorem exists_node?_iff : (∃ i, s.node? k = some i) ↔ ∃ c, s.code? k = some c := by
  cases h : s.node? k <;> simp [code?, h]

theorem exists_isTargetBearing_iff :
    (∃ i, s.node? k = some i ∧ i.isTargetBearing = true) ↔
      ∃ c, s.code? k = some c ∧ c.1.isTargetBearing = true := by
  cases h : s.node? k <;> simp [code?, h, Instruction.isTargetBearing]

@[simp]
theorem code?_inserted : (s.inserted position id).code? k = s.code? k := by
  simp [code?, inserted, node?_place, Function.comp_def]

@[simp]
theorem code?_removed (old : InstructionId) : (s.removed position old).code? k = s.code? k := by
  simp [code?, removed_eq, node?_takeOut, node?_struck, Function.comp_def]

theorem node?_changed :
    (s.changed id opcode operand).node? k = (s.node? k).map fun i =>
      if k = id then { i with opcode, operand } else i := by
  rw [← node?_modifyNode s id k fun i => { i with opcode, operand }]
  simp only [changed]
  split_ifs
  · rw [node?_indexBranch]
  · rfl

theorem code?_changed :
    (s.changed id opcode operand).code? k =
      if k = id then (s.code? k).map fun _ => (opcode, operand) else s.code? k := by
  rw [code?, node?_changed, code?, Option.map_map, Option.map_map]
  split_ifs <;> rfl

end Code

section InPlace

theorem run_setInstruction :
    (setInstruction id opcode operand).run s =
      if operand.fits opcode.operandType then match s.node? id with
        | none => .error (.unknownInstruction id) s
        | some _ => .ok () (s.changed id opcode operand)
      else .error (.operandMismatch opcode.name opcode.operandType) s := by
  unfold setInstruction
  by_cases h : operand.fits opcode.operandType = true
  · rw [if_pos h, run_bind_of_ok (by rw [run_checkOperand, if_pos h])]
    cases hid : s.node? id with
    | none => rw [run_bind_of_error (by rw [run_node, hid])]
    | some i =>
      rw [run_bind_of_ok (by rw [run_node, hid])]
      cases hi : i.isMember <;> simp [changed, contains, hid, hi]
  · rw [if_neg h, run_bind_of_error (by rw [run_checkOperand, if_neg h])]

theorem run_setOpcode :
    (setOpcode id opcode).run s = match s.node? id with
      | none => .error (.unknownInstruction id) s
      | some i => (setInstruction id opcode i.operand).run s := by
  unfold setOpcode
  cases hid : s.node? id with
  | none => rw [run_bind_of_error (by rw [run_node, hid])]
  | some i => rw [run_bind_of_ok (by rw [run_node, hid])]

theorem run_setOperand :
    (setOperand id operand).run s = match s.node? id with
      | none => .error (.unknownInstruction id) s
      | some i => (setInstruction id i.opcode operand).run s := by
  unfold setOperand
  cases hid : s.node? id with
  | none => rw [run_bind_of_error (by rw [run_node, hid])]
  | some i => rw [run_bind_of_ok (by rw [run_node, hid])]

end InPlace

section ByHandle

variable (target : InstructionId)

/-- What follows the search for a member starts at its position, in the same sequence. -/
theorem run_locate_bind {α : Type} (f : Nat → EditM α) :
    (locate target >>= f).run s = match s.positionOf? target with
      | none => .error (.notMember target) s
      | some position => (f position).run s := by
  cases h : s.positionOf? target with
  | none => rw [run_bind_of_error (by rw [run_locate, h])]
  | some position => rw [run_bind_of_ok (by rw [run_locate, h])]

theorem placeFault?_created : (s.created opcode operand).placeFault? ⟨s.nodes.size⟩ = none := by
  simp [placeFault?, created, node?_push]

/-- A new instruction can always be appended, so emitting fails only where creating does. -/
theorem run_emit :
    (emit opcode operand).run s =
      if operand.fits opcode.operandType then
        .ok ⟨s.nodes.size⟩ ((s.created opcode operand).inserted s.length ⟨s.nodes.size⟩)
      else .error (.operandMismatch opcode.name opcode.operandType) s := by
  unfold emit
  by_cases h : operand.fits opcode.operandType = true
  · have hrun : (append ⟨s.nodes.size⟩).run (s.created opcode operand) =
        .ok () ((s.created opcode operand).inserted s.length ⟨s.nodes.size⟩) := by
      rw [run_append, run_insert, if_neg (Nat.lt_irrefl _), placeFault?_created]
      rfl
    rw [if_pos h, run_bind_of_ok (by rw [run_create, if_pos h]), run_bind_of_ok hrun]
    rfl
  · rw [if_neg h, run_bind_of_error (by rw [run_create, if_neg h])]

end ByHandle

end CilMethod.Sequence
