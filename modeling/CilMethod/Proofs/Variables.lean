import CilMethod.Locals
import CilMethod.Proofs.Runs

/-!
# Local variables know their positions

Every edit of the local variables numbers the members from its position on and leaves those before
it alone. So a variable has the number `p` exactly if it stands at the position `p`, and has none
exactly if it is no member (`Numbered`), after any edits, failed ones among them
(`Reachable.indexOf?_eq_some_iff`).
-/

namespace CilMethod.Locals

/-- One edit. -/
inductive Edit where
  | create (type : TypeId)
  | append (id : VariableId)
  | insert (position : Nat) (id : VariableId)
  | replace (position : Nat) (id : VariableId)
  | remove (position : Nat)

/-- Does an edit and goes on with what it leaves behind, whether it succeeds or not. -/
def after (l : Locals) : Edit → Locals
  | .create type => left (create type)
  | .append id => left (append id)
  | .insert position id => left (insert position id)
  | .replace position id => left (replace position id)
  | .remove position => left (remove position)
where
  left {α : Type} (edit : EditM α) : Locals :=
    match edit.run l with
    | .ok _ l => l
    | .error _ l => l

/-- The local variables that edits can make of none. -/
def Reachable (l : Locals) : Prop := ∃ edits : List Edit, edits.foldl after empty = l

/-- Numbers and positions agree. -/
structure Numbered (l : Locals) : Prop where
  nodup : l.order.toList.Nodup
  exists_slot : ∀ {id : VariableId}, id ∈ l.order → ∃ slot, l.slot? id = some slot
  index_iff : ∀ {id : VariableId} {slot : Slot} {position : Nat}, l.slot? id = some slot →
    (slot.index = some position ↔ l.get? position = some id)

variable (l : Locals) (position : Nat) (id : VariableId)

/-- Why a variable cannot be placed, if it cannot. -/
def placeFault? : Option Error :=
  match l.slot? id with
  | none => some (.unknownVariable id)
  | some slot => if slot.index.isSome then some (.variableAlreadyMember id) else none

/-- The local variables with one more, outside the order. -/
def created (type : TypeId) : Locals := { l with slots := l.slots.push { type } }

/-- The local variables with `id` put at a position. -/
def inserted : Locals :=
  { l with order := l.order.insertIdxIfInBounds position id }.renumber position

/-- The local variables with the member `old` taken out from a position. -/
def removed (old : VariableId) : Locals :=
  ({ slots := setIndex l.slots old none
     order := l.order.eraseIdxIfInBounds position } : Locals).renumber position

/-- The local variables with `id` in the place of the member `old` at a position. -/
def replaced (old : VariableId) : Locals where
  slots := setIndex (setIndex l.slots old none) id (some position)
  order := l.order.setIfInBounds position id

section Runs

theorem run_slot :
    (slot id).run l = match l.slot? id with
      | some slot => .ok slot l
      | none => .error (.unknownVariable id) l := by
  simp only [slot, EStateM.run_bind, EStateM.run_get]
  cases l.slot? id <;> rfl

theorem run_checkDetached :
    (checkDetached id).run l = match l.placeFault? id with
      | some e => .error e l
      | none => .ok () l := by
  simp only [checkDetached, EStateM.run_bind, run_slot, placeFault?]
  cases l.slot? id with
  | none => rfl
  | some slot => cases h : slot.index <;> simp [h]

theorem run_checkPlace :
    (checkPlace position).run l =
      if l.length < position then .error (.positionOutOfRange position l.length) l
      else .ok () l := by
  simp only [checkPlace, EStateM.run_bind, EStateM.run_get]
  split <;> rfl

theorem run_member :
    (member position).run l = match l.get? position with
      | some old => .ok old l
      | none => .error (.positionOutOfRange position l.length) l := by
  simp only [member, EStateM.run_bind, EStateM.run_get]
  cases l.get? position <;> rfl

theorem run_create (type : TypeId) :
    (create type).run l = .ok ⟨l.slots.size⟩ (l.created type) := rfl

theorem run_insert :
    (insert position id).run l =
      if l.length < position then .error (.positionOutOfRange position l.length) l
      else match l.placeFault? id with
        | some e => .error e l
        | none => .ok () (l.inserted position id) := by
  unfold insert
  by_cases h : l.length < position
  · rw [if_pos h, run_bind_of_error (by rw [run_checkPlace, if_pos h])]
  · rw [if_neg h, run_bind_of_ok (by rw [run_checkPlace, if_neg h])]
    cases hid : l.placeFault? id with
    | some e => rw [run_bind_of_error (by rw [run_checkDetached, hid])]
    | none =>
      rw [run_bind_of_ok (by rw [run_checkDetached, hid])]
      rfl

theorem run_append : (append id).run l = (insert l.length id).run l := by
  rw [run_insert, if_neg (Nat.lt_irrefl _), append]
  cases hid : l.placeFault? id with
  | some e => rw [run_bind_of_error (by rw [run_checkDetached, hid])]
  | none =>
    rw [run_bind_of_ok (by rw [run_checkDetached, hid])]
    simp [inserted, push_eq_insertIdxIfInBounds, length]

theorem run_replace :
    (replace position id).run l = match l.get? position with
      | none => .error (.positionOutOfRange position l.length) l
      | some old => match l.placeFault? id with
        | some e => .error e l
        | none => .ok old (l.replaced position id old) := by
  unfold replace
  cases hold : l.get? position with
  | none => rw [run_bind_of_error (by rw [run_member, hold])]
  | some old =>
    rw [run_bind_of_ok (by rw [run_member, hold])]
    cases hid : l.placeFault? id with
    | some e => rw [run_bind_of_error (by rw [run_checkDetached, hid])]
    | none =>
      rw [run_bind_of_ok (by rw [run_checkDetached, hid])]
      rfl

theorem run_remove :
    (remove position).run l = match l.get? position with
      | none => .error (.positionOutOfRange position l.length) l
      | some old => .ok old (l.removed position old) := by
  unfold remove
  cases hold : l.get? position with
  | none => rw [run_bind_of_error (by rw [run_member, hold])]
  | some old =>
    rw [run_bind_of_ok (by rw [run_member, hold])]
    rfl

end Runs

section Numbering

variable {l : Locals} {position : Nat} {id k : VariableId} {slots : Array Slot}

theorem getElem?_setIndex (slots : Array Slot) (id k : VariableId) (index : Option Nat) :
    (setIndex slots id index)[k.index]? =
      slots[k.index]?.map fun s => { s with index := if k = id then index else s.index } := by
  obtain ⟨n⟩ := id
  obtain ⟨m⟩ := k
  simp only [setIndex, Array.getElem?_modify, VariableId.mk.injEq]
  by_cases h : n = m
  · simp [h]
  · simp [h, Ne.symm h]

theorem numberFrom_of_notMem : ∀ {ids : List VariableId} {slots : Array Slot} {position : Nat},
    k ∉ ids → (numberFrom slots position ids)[k.index]? = slots[k.index]?
  | [], _, _, _ => rfl
  | id :: ids, slots, position, hk => by
    rw [List.mem_cons, not_or] at hk
    rw [numberFrom, numberFrom_of_notMem hk.2, getElem?_setIndex]
    simp [hk.1]

theorem numberFrom_get : ∀ {ids : List VariableId} {slots : Array Slot} {position n : Nat},
    ids.Nodup → ids[n]? = some k →
    (numberFrom slots position ids)[k.index]? =
      slots[k.index]?.map fun s => { s with index := some (position + n) }
  | [], _, _, _, _, hn => by simp at hn
  | id :: ids, slots, position, 0, hnd, hn => by
    obtain rfl : id = k := by simpa using hn
    rw [numberFrom, numberFrom_of_notMem (List.nodup_cons.1 hnd).1, getElem?_setIndex]
    simp
  | id :: ids, slots, position, n + 1, hnd, hn => by
    obtain ⟨hid, hnd⟩ := List.nodup_cons.1 hnd
    have hn : ids[n]? = some k := by simpa using hn
    have hk : k ≠ id := fun h => hid (h ▸ List.mem_of_getElem? hn)
    rw [numberFrom, numberFrom_get hnd hn, getElem?_setIndex]
    simp [hk, Nat.add_assoc, Nat.add_comm 1 n]

theorem get?_eq_toList (l : Locals) (position : Nat) :
    l.get? position = l.order.toList[position]? := by
  simp [get?]

theorem mem_order_iff : id ∈ l.order ↔ ∃ position, l.get? position = some id :=
  Array.mem_iff_getElem?

/-- The position where a member was found is the only one. -/
theorem some_eq_some_iff (hnodup : l.order.toList.Nodup) {p q : Nat} (hq : l.get? q = some id) :
    some q = some p ↔ l.get? p = some id := by
  refine ⟨fun h => Option.some.inj h ▸ hq, fun hp => congrArg some ?_⟩
  rw [get?_eq_toList] at hp hq
  obtain ⟨hlt, -⟩ := List.getElem?_eq_some_iff.1 hq
  exact (List.getElem?_inj hlt hnodup).1 (hq.trans hp.symm)

/-- Numbering anew from a position on is enough if the members before it have their numbers and the
rest have none. -/
theorem numbered_renumber (hnodup : l.order.toList.Nodup)
    (hslot : ∀ {id}, id ∈ l.order → ∃ slot, l.slot? id = some slot)
    (hbefore : ∀ {id slot q}, l.slot? id = some slot → q < position → l.get? q = some id →
      slot.index = some q)
    (hout : ∀ {id slot}, l.slot? id = some slot → id ∉ l.order → slot.index = none) :
    (l.renumber position).Numbered := by
  have hdrop : (l.order.extract position).toList = l.order.toList.drop position := by
    simp [List.take_of_length_le]
  have hfrom : ∀ {id q}, position ≤ q → l.get? q = some id →
      (l.renumber position).slot? id =
        (l.slot? id).map fun slot => { slot with index := some q } := by
    intro id q hq hid
    have hn : (l.order.toList.drop position)[q - position]? = some id := by
      rw [List.getElem?_drop, Nat.add_sub_cancel' hq, ← get?_eq_toList, hid]
    rw [slot?, renumber, hdrop, numberFrom_get hnodup.drop hn, Nat.add_sub_cancel' hq]
    rfl
  have hkeep : ∀ {id}, (∀ q, position ≤ q → l.get? q ≠ some id) →
      (l.renumber position).slot? id = l.slot? id := by
    intro id hid
    refine numberFrom_of_notMem fun hmem => ?_
    obtain ⟨n, hn⟩ := List.mem_iff_getElem?.1 hmem
    rw [hdrop, List.getElem?_drop] at hn
    exact hid _ (Nat.le_add_right _ _) (by rw [get?_eq_toList, hn])
  refine ⟨hnodup, fun {id} hid => ?_, fun {id slot p} hs => ?_⟩
  · obtain ⟨slot, hs⟩ := hslot hid
    by_cases h : ∃ q, position ≤ q ∧ l.get? q = some id
    · obtain ⟨q, hq, hid⟩ := h
      exact ⟨_, by rw [hfrom hq hid, hs]; rfl⟩
    · exact ⟨slot, by rw [hkeep fun q hq hid => h ⟨q, hq, hid⟩, hs]⟩
  · change slot.index = some p ↔ l.get? p = some id
    by_cases h : ∃ q, position ≤ q ∧ l.get? q = some id
    · obtain ⟨q, hq, hid⟩ := h
      rw [hfrom hq hid] at hs
      obtain ⟨old, -, rfl⟩ := Option.map_eq_some_iff.1 hs
      exact some_eq_some_iff hnodup hid
    · rw [hkeep fun q hq hid => h ⟨q, hq, hid⟩] at hs
      by_cases hmem : id ∈ l.order
      · obtain ⟨q, hid⟩ := mem_order_iff.1 hmem
        have hlt : q < position := Nat.lt_of_not_le fun hq => h ⟨q, hq, hid⟩
        rw [hbefore hs hlt hid]
        exact some_eq_some_iff hnodup hid
      · have hno : l.get? p ≠ some id := fun hp => hmem (mem_order_iff.2 ⟨p, hp⟩)
        simp [hout hs hmem, hno]

end Numbering

namespace Numbered

variable {l : Locals} {position : Nat} {id k old : VariableId} {slot : Slot}

theorem empty : Numbered empty where
  nodup := List.nodup_nil
  exists_slot h := by simp [Locals.empty] at h
  index_iff h := by simp [slot?, Locals.empty] at h

theorem index_eq_none (h : l.Numbered) (hslot : l.slot? id = some slot) (hid : id ∉ l.order) :
    slot.index = none := by
  cases hindex : slot.index with
  | none => rfl
  | some q => exact absurd (mem_order_iff.2 ⟨q, (h.index_iff hslot).1 hindex⟩) hid

/-- What can be placed is there and is no member. -/
theorem notMem_of_placeFault? (h : l.Numbered) (hid : l.placeFault? id = none) :
    (∃ slot, l.slot? id = some slot) ∧ id ∉ l.order := by
  unfold placeFault? at hid
  cases hslot : l.slot? id with
  | none => simp [hslot] at hid
  | some slot =>
    refine ⟨⟨slot, rfl⟩, fun hmem => ?_⟩
    obtain ⟨q, hq⟩ := mem_order_iff.1 hmem
    simp [hslot, (h.index_iff hslot).2 hq] at hid

theorem created (h : l.Numbered) (type : TypeId) : (l.created type).Numbered := by
  have hslot : ∀ k, (l.created type).slot? k =
      if k.index = l.slots.size then some { type } else l.slot? k := by
    intro k
    simp only [slot?, Locals.created, Array.getElem?_push]
  have hnew : ∀ {k : VariableId}, k ∈ l.order → k.index ≠ l.slots.size := by
    intro k hmem hk
    obtain ⟨slot, hs⟩ := h.exists_slot hmem
    simp [slot?, hk] at hs
  refine ⟨h.nodup, fun {k} hk => ?_, fun {k slot p} hs => ?_⟩
  · obtain ⟨slot, hs⟩ := h.exists_slot hk
    exact ⟨slot, by rw [hslot, if_neg (hnew hk), hs]⟩
  · rw [hslot] at hs
    split_ifs at hs with hk
    · obtain rfl := Option.some.inj hs
      have hno : l.get? p ≠ some k := fun hp => hnew (mem_order_iff.2 ⟨p, hp⟩) hk
      exact ⟨nofun, fun hp => absurd hp hno⟩
    · exact h.index_iff hs

theorem inserted (h : l.Numbered) (hposition : position ≤ l.length)
    (hid : l.placeFault? id = none) : (l.inserted position id).Numbered := by
  obtain ⟨hslot, hno⟩ := h.notMem_of_placeFault? hid
  have hlen : position ≤ l.order.toList.length := by simpa [length] using hposition
  have hmem : ∀ {k}, k ∈ l.order.insertIdxIfInBounds position id ↔ k = id ∨ k ∈ l.order := by
    intro k
    rw [← Array.mem_toList_iff, ← Array.mem_toList_iff, toList_insertIdxIfInBounds,
      List.mem_insertIdx hlen]
  refine numbered_renumber ?_ ?_ ?_ ?_
  · rw [toList_insertIdxIfInBounds]
    exact nodup_insertIdx hlen h.nodup (by simpa using hno)
  · intro k hk
    rcases hmem.1 hk with rfl | hk
    · exact hslot
    · exact h.exists_slot hk
  · intro k slot q hs hq hk
    rw [get?_eq_toList, toList_insertIdxIfInBounds, List.getElem?_insertIdx_of_lt hq,
      ← get?_eq_toList] at hk
    exact (h.index_iff hs).2 hk
  · intro k slot hs hk
    exact h.index_eq_none hs fun hmem' => hk (hmem.2 (.inr hmem'))

theorem left_insert (h : l.Numbered) (position : Nat) (id : VariableId) :
    (after.left l (insert position id)).Numbered := by
  rw [after.left, run_insert]
  split_ifs with hposition
  · exact h
  · cases hid : l.placeFault? id with
    | some e => exact h
    | none => exact h.inserted (Nat.not_lt.1 hposition) hid

theorem removed (h : l.Numbered) (hold : l.get? position = some old) :
    (l.removed position old).Numbered := by
  have hslot : ∀ {k slot}, (setIndex l.slots old none)[k.index]? = some slot →
      ∃ s, l.slot? k = some s ∧ slot = { s with index := if k = old then none else s.index } := by
    intro k slot hs
    rw [getElem?_setIndex] at hs
    obtain ⟨s, hk, rfl⟩ := Option.map_eq_some_iff.1 hs
    exact ⟨s, hk, rfl⟩
  refine numbered_renumber ?_ ?_ ?_ ?_
  · rw [Array.toList_eraseIdxIfInBounds]
    exact h.nodup.eraseIdx position
  · intro k hk
    rw [← Array.mem_toList_iff, Array.toList_eraseIdxIfInBounds] at hk
    obtain ⟨slot, hs⟩ := h.exists_slot (by simpa using List.mem_of_mem_eraseIdx hk)
    exact ⟨_, by rw [slot?, getElem?_setIndex, ← slot?, hs]; rfl⟩
  · intro k slot q hs hq hk
    rw [get?_eq_toList, Array.toList_eraseIdxIfInBounds, List.getElem?_eraseIdx, if_pos hq,
      ← get?_eq_toList] at hk
    obtain ⟨s, hk', rfl⟩ := hslot hs
    have hne : k ≠ old := fun hkold => by
      have := (some_eq_some_iff h.nodup hold).2 (hkold ▸ hk)
      cases this
      omega
    simp only [hne, if_false]
    exact (h.index_iff hk').2 hk
  · intro k slot hs hk
    obtain ⟨s, hk', rfl⟩ := hslot hs
    split_ifs with hkold
    · rfl
    · refine h.index_eq_none hk' fun hmem => hk ?_
      obtain ⟨q, hq⟩ := mem_order_iff.1 hmem
      have hne : q ≠ position := fun hqp => hkold (Option.some.inj ((hqp ▸ hq).symm.trans hold))
      rw [← Array.mem_toList_iff, Array.toList_eraseIdxIfInBounds, List.mem_eraseIdx_iff_getElem?]
      exact ⟨q, hne, by rw [← get?_eq_toList, hq]⟩

theorem replaced (h : l.Numbered) (hold : l.get? position = some old)
    (hid : l.placeFault? id = none) : (l.replaced position id old).Numbered := by
  obtain ⟨⟨slot, hs⟩, hno⟩ := h.notMem_of_placeFault? hid
  have hlt : position < l.order.toList.length := by
    rw [get?_eq_toList] at hold
    exact (List.getElem?_eq_some_iff.1 hold).1
  have hget : ∀ q, (l.replaced position id old).get? q =
      if q = position then some id else l.get? q := by
    intro q
    rw [get?_eq_toList, Locals.replaced, Array.toList_setIfInBounds, List.getElem?_set,
      ← get?_eq_toList]
    split_ifs <;> first | rfl | omega
  have hslot : ∀ k, (l.replaced position id old).slot? k = (l.slot? k).map fun s =>
      { s with index := if k = id then some position else if k = old then none else s.index } := by
    intro k
    rw [slot?, Locals.replaced, getElem?_setIndex, getElem?_setIndex, Option.map_map]
    rfl
  refine ⟨?_, fun {k} hk => ?_, fun {k slot p} hk => ?_⟩
  · rw [Locals.replaced, Array.toList_setIfInBounds]
    exact nodup_set h.nodup (by simpa using hno) hlt
  · obtain ⟨q, hq⟩ := mem_order_iff.1 hk
    rw [hget] at hq
    rw [hslot]
    split_ifs at hq with hqp
    · exact ⟨_, by rw [← Option.some.inj hq, hs]; rfl⟩
    · obtain ⟨slot, hs⟩ := h.exists_slot (mem_order_iff.2 ⟨q, hq⟩)
      exact ⟨_, by rw [hs]; rfl⟩
  · rw [hslot] at hk
    obtain ⟨s, hk', rfl⟩ := Option.map_eq_some_iff.1 hk
    rw [hget]
    by_cases hkid : k = id
    · have hno' : l.get? p ≠ some k := fun hp => hno (hkid ▸ mem_order_iff.2 ⟨p, hp⟩)
      grind
    · by_cases hkold : k = old
      · subst hkold
        have honly : some position = some p ↔ l.get? p = some k := some_eq_some_iff h.nodup hold
        grind
      · have hiff : s.index = some p ↔ l.get? p = some k := h.index_iff hk'
        grind

theorem after (h : l.Numbered) : ∀ e : Edit, (l.after e).Numbered
  | .create type => h.created type
  | .append id => by
    rw [Locals.after, Locals.after.left, run_append]
    exact h.left_insert l.length id
  | .insert position id => h.left_insert position id
  | .replace position id => by
    rw [Locals.after, Locals.after.left, run_replace]
    cases hold : l.get? position with
    | none => exact h
    | some old =>
      cases hid : l.placeFault? id with
      | some e => exact h
      | none => exact h.replaced hold hid
  | .remove position => by
    rw [Locals.after, Locals.after.left, run_remove]
    cases hold : l.get? position with
    | none => exact h
    | some old => exact h.removed hold

end Numbered

theorem Reachable.numbered {l : Locals} (h : l.Reachable) : l.Numbered := by
  obtain ⟨edits, rfl⟩ := h
  exact List.foldlRecOn edits after .empty fun l hl e _ => hl.after e

/-- The number that a variable has is the position where it stands. -/
theorem Reachable.indexOf?_eq_some_iff {l : Locals} (h : l.Reachable) {id : VariableId} {p : Nat} :
    l.indexOf? id = some p ↔ l.get? p = some id := by
  unfold indexOf?
  cases hslot : l.slot? id with
  | none =>
    refine ⟨nofun, fun hp => ?_⟩
    obtain ⟨slot, hs⟩ := h.numbered.exists_slot (mem_order_iff.2 ⟨p, hp⟩)
    rw [hslot] at hs
    cases hs
  | some slot => exact h.numbered.index_iff hslot

end CilMethod.Locals
