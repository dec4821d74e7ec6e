import CilMethod.Proofs.Edits
import CilMethod.Sequence.Layout

/-!
# The layout of a sequence

Laying out a list of instructions goes through it once, writing to each what it knows by then: the
position, the sum of the sizes so far, and the neighbours. Writing these changes no size, and an
instruction that occurs once is written to once, so what the whole pass makes of it can be read off
its position alone (`layoutFrom_get`); what does not occur stays as it is (`layoutFrom_of_notMem`).
A recompute that is not suppressed does this to the members (`recompute_eq`, `node?_laidOut`).
-/

namespace CilMethod.Sequence

/-- The size of an instruction, zero if there is none with the handle. -/
def sizeIn (nodes : Array Instruction) (id : InstructionId) : Nat :=
  nodes[id.index]?.elim 0 Instruction.size

/-- Writes its place in the layout to an instruction. -/
def settle (nodes : Array Instruction) (id : InstructionId) (index offset : Nat)
    (previous next : Option InstructionId) : Array Instruction :=
  nodes.modify id.index fun i => { i with index, offset, previous, next }

theorem layoutFrom_cons (nodes : Array Instruction) (previous : Option InstructionId)
    (position offset : Nat) (id : InstructionId) (ids : List InstructionId) :
    layoutFrom nodes previous position offset (id :: ids) =
      layoutFrom (settle nodes id position offset previous ids.head?) (some id) (position + 1)
        (offset + sizeIn nodes id) ids := rfl

section Settle

variable (nodes : Array Instruction) (id k : InstructionId) (index offset : Nat)
  (previous next : Option InstructionId)

theorem getElem?_settle :
    (settle nodes id index offset previous next)[k.index]? =
      if k = id then nodes[k.index]?.map fun i => { i with index, offset, previous, next }
      else nodes[k.index]? := by
  obtain ⟨n⟩ := id
  obtain ⟨m⟩ := k
  simp only [settle, Array.getElem?_modify, InstructionId.mk.injEq, eq_comm]

theorem sizeIn_settle : sizeIn (settle nodes id index offset previous next) k = sizeIn nodes k := by
  unfold sizeIn
  rw [getElem?_settle]
  split_ifs
  · cases nodes[k.index]? <;> rfl
  · rfl

end Settle

theorem layoutFrom_snd : ∀ (ids : List InstructionId) (nodes : Array Instruction)
    (previous : Option InstructionId) (position offset : Nat),
    (layoutFrom nodes previous position offset ids).2 =
      offset + Offset.total (ids.map (sizeIn nodes))
  | [], _, _, _, _ => rfl
  | id :: ids, nodes, previous, position, offset => by
    rw [layoutFrom_cons, layoutFrom_snd ids, List.map_cons, Offset.total_cons,
      List.map_congr_left fun k _ => sizeIn_settle nodes id k position offset previous ids.head?]
    omega

theorem layoutFrom_of_notMem : ∀ (ids : List InstructionId) {nodes : Array Instruction}
    {previous : Option InstructionId} {position offset : Nat} {k : InstructionId}, k ∉ ids →
    (layoutFrom nodes previous position offset ids).1[k.index]? = nodes[k.index]?
  | [], _, _, _, _, _, _ => rfl
  | id :: ids, nodes, previous, position, offset, k, hk => by
    rw [List.mem_cons, not_or] at hk
    rw [layoutFrom_cons, layoutFrom_of_notMem ids hk.2, getElem?_settle, if_neg hk.1]

/-- In a list without repetitions, the instruction at a position gets that position, the sizes of
what stands before it and its neighbours. -/
theorem layoutFrom_get : ∀ {ids : List InstructionId} {nodes : Array Instruction}
    {previous : Option InstructionId} {position offset n : Nat} {k : InstructionId}, ids.Nodup →
    ids[n]? = some k →
    (layoutFrom nodes previous position offset ids).1[k.index]? =
      nodes[k.index]?.map fun i =>
        { i with
          index := position + n
          offset := offset + Offset.total ((ids.take n).map (sizeIn nodes))
          previous := if n = 0 then previous else ids[n - 1]?
          next := ids[n + 1]? }
  | [], _, _, _, _, _, _, _, hn => by simp at hn
  | id :: ids, nodes, previous, position, offset, 0, k, hnd, hn => by
    obtain rfl : id = k := by simpa using hn
    rw [layoutFrom_cons, layoutFrom_of_notMem ids (List.nodup_cons.1 hnd).1, getElem?_settle,
      if_pos rfl, List.head?_eq_getElem?]
    simp
  | id :: ids, nodes, previous, position, offset, n + 1, k, hnd, hn => by
    have hnd' := List.nodup_cons.1 hnd
    have hn : ids[n]? = some k := by simpa using hn
    have hk : k ≠ id := fun h => hnd'.1 (h ▸ List.mem_of_getElem? hn)
    rw [layoutFrom_cons, layoutFrom_get hnd'.2 hn, getElem?_settle, if_neg hk,
      List.map_congr_left fun k _ => sizeIn_settle nodes id k position offset previous ids.head?]
    congr 1
    funext i
    have hprev : (if n = 0 then some id else ids[n - 1]?) = (id :: ids)[n]? := by
      cases n <;> simp
    simp only [hprev, Instruction.mk.injEq, true_and]
    simp
    omega

theorem size_layoutFrom : ∀ (ids : List InstructionId) (nodes : Array Instruction)
    (previous : Option InstructionId) (position offset : Nat),
    (layoutFrom nodes previous position offset ids).1.size = nodes.size
  | [], _, _, _, _ => rfl
  | id :: ids, nodes, previous, position, offset => by
    rw [layoutFrom_cons, size_layoutFrom ids, settle, Array.size_modify]

section Recompute

variable (s : Sequence)

/-- The sequence laid out. -/
def laidOut : Sequence :=
  { s with nodes := (layoutFrom s.nodes none 0 0 s.order.toList).1 }

/-- The sum of the sizes of the members before a position. -/
def sizeBefore (position : Nat) : Nat :=
  Offset.total ((s.order.toList.take position).map (sizeIn s.nodes))

theorem codeSize_eq : s.codeSize = Offset.total (s.order.toList.map (sizeIn s.nodes)) := by
  unfold codeSize members
  induction s.order.toList with
  | nil => rfl
  | cons id ids ih =>
    rw [List.filterMap_cons, List.map_cons, Offset.total_cons, ← ih, sizeIn]
    change _ = (s.node? id).elim 0 Instruction.size + _
    cases s.node? id <;> simp

theorem recompute_of_suppressed (h : s.suppressed = true) : s.recompute = (none, s) := by
  simp [recompute, h]

theorem recompute_eq (h : s.suppressed = false) : s.recompute = (some s.codeSize, s.laidOut) := by
  rw [codeSize_eq, ← Nat.zero_add (Offset.total _), ← layoutFrom_snd _ _ none 0]
  simp [recompute, h, laidOut]

variable {s}

/-- A member gets its position, the sizes before it and its neighbours. -/
theorem node?_laidOut (hnodup : s.order.toList.Nodup) {position : Nat} {id : InstructionId}
    (h : s.get? position = some id) :
    s.laidOut.node? id = (s.node? id).map fun i =>
      { i with
        index := position
        offset := s.sizeBefore position
        previous := s.before? position
        next := s.get? (position + 1) } := by
  have hprevious : (if position = 0 then none else s.order.toList[position - 1]?) =
      s.before? position := by
    cases position <;> simp [before?]
  rw [get?_eq_toList] at h ⊢
  refine (layoutFrom_get hnodup h).trans ?_
  simp only [Nat.zero_add, hprevious]
  rfl

theorem node?_laidOut_of_notMem {id : InstructionId} (h : id ∉ s.order) :
    s.laidOut.node? id = s.node? id :=
  layoutFrom_of_notMem _ (by simpa using h)

/-- The layout changes no membership, and nothing at all outside the order. -/
theorem exists_of_node?_laidOut (hnodup : s.order.toList.Nodup) {id : InstructionId}
    {i : Instruction} (h : s.laidOut.node? id = some i) :
    ∃ j, s.node? id = some j ∧ i.isMember = j.isMember ∧ (id ∉ s.order → i = j) := by
  by_cases hid : id ∈ s.order
  · obtain ⟨position, hposition⟩ := Array.mem_iff_getElem?.1 hid
    rw [node?_laidOut hnodup hposition] at h
    obtain ⟨j, hj, rfl⟩ := Option.map_eq_some_iff.1 h
    exact ⟨j, hj, rfl, fun hno => absurd hid hno⟩
  · rw [node?_laidOut_of_notMem hid] at h
    exact ⟨i, h, rfl, fun _ => rfl⟩

theorem code?_laidOut (hnodup : s.order.toList.Nodup) (id : InstructionId) :
    s.laidOut.code? id = s.code? id := by
  by_cases h : id ∈ s.order
  · obtain ⟨position, hposition⟩ := Array.mem_iff_getElem?.1 h
    rw [code?, node?_laidOut hnodup hposition, Option.map_map]
    rfl
  · rw [code?, node?_laidOut_of_notMem h, code?]

theorem sizeIn_eq (s : Sequence) (id : InstructionId) :
    sizeIn s.nodes id =
      (s.code? id).elim 0 fun c => c.1.size + c.1.operandType.size c.2.tableLength := by
  change (s.node? id).elim 0 Instruction.size = _
  rw [code?]
  cases s.node? id <;> rfl

theorem sizeIn_laidOut (hnodup : s.order.toList.Nodup) (id : InstructionId) :
    sizeIn s.laidOut.nodes id = sizeIn s.nodes id := by
  rw [sizeIn_eq, sizeIn_eq, code?_laidOut hnodup]

theorem sizeBefore_laidOut (hnodup : s.order.toList.Nodup) (position : Nat) :
    s.laidOut.sizeBefore position = s.sizeBefore position := by
  rw [sizeBefore, List.map_congr_left fun k _ => sizeIn_laidOut hnodup k]
  rfl

theorem codeSize_laidOut (hnodup : s.order.toList.Nodup) : s.laidOut.codeSize = s.codeSize := by
  rw [codeSize_eq, codeSize_eq, List.map_congr_left fun k _ => sizeIn_laidOut hnodup k]
  rfl

/-- What is written to a member does not depend on what the last layout wrote there. -/
theorem laidOut_laidOut (hnodup : s.order.toList.Nodup) : s.laidOut.laidOut = s.laidOut := by
  refine ext_node? (size_layoutFrom ..) (fun id => ?_) rfl (fun _ => Iff.rfl) rfl
  by_cases hid : id ∈ s.order
  · obtain ⟨position, hposition⟩ := Array.mem_iff_getElem?.1 hid
    have hagain := node?_laidOut (s := s.laidOut) hnodup hposition
    rw [hagain, node?_laidOut hnodup hposition, sizeBefore_laidOut hnodup, Option.map_map]
    rfl
  · exact node?_laidOut_of_notMem hid

end Recompute

section SizeBefore

variable {s : Sequence} {p q : Nat} {id : InstructionId} {i : Instruction}

theorem sizeBefore_succ (hid : s.get? p = some id) :
    s.sizeBefore (p + 1) = s.sizeBefore p + sizeIn s.nodes id := by
  rw [get?_eq_toList] at hid
  rw [sizeBefore, List.take_add_one, hid, Option.toList_some, List.map_append, List.map_singleton,
    Offset.total_append, Offset.total_cons, Offset.total_nil, sizeBefore]
  rfl

theorem sizeBefore_le (hpq : p ≤ q) : s.sizeBefore p ≤ s.sizeBefore q := by
  obtain ⟨more, hmore⟩ := List.take_prefix_take_left (l := s.order.toList) hpq
  rw [sizeBefore, sizeBefore, ← hmore, List.map_append, Offset.total_append]
  exact Nat.le_add_right ..

/-- A member takes up room, so what stands behind it starts later. -/
theorem sizeBefore_lt (hid : s.get? p = some id) (hi : s.node? id = some i) (hpq : p < q) :
    s.sizeBefore p < s.sizeBefore q := by
  have hsize : sizeIn s.nodes id = i.size := by
    change (s.node? id).elim 0 Instruction.size = _
    rw [hi]
    rfl
  calc s.sizeBefore p
      < s.sizeBefore p + sizeIn s.nodes id := by
        rw [hsize]
        exact Nat.lt_add_of_pos_right i.size_pos
    _ = s.sizeBefore (p + 1) := (sizeBefore_succ hid).symm
    _ ≤ s.sizeBefore q := sizeBefore_le hpq

end SizeBefore

end CilMethod.Sequence
