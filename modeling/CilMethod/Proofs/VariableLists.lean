import CilMethod.Proofs.Variables

/-!
# Local variables as lists

To their callers the local variables are two lists: the members in order, and the type of every
variable by handle. The number that is kept with each variable is a third copy of the order, which
the edits bring up to date only from their position on; `Numbered` says that this is enough.
`Declarations.edit` says what each edit does to the two lists and which of its faults it reports.
After any edits, failed ones among them, the next one does this and nothing else
(`apply_refines_lists`).
-/

namespace CilMethod

/-- Local variables as lists. -/
structure Declarations where
  members : List VariableId
  /-- The type of every variable ever created, by handle. -/
  types : List TypeId
  deriving DecidableEq

namespace Declarations

variable (d : Declarations) (position : Nat) (id : VariableId)

/-- New members, after `id` came in: it must exist and must not have been a member. -/
def place (members : List VariableId) : Except Error Declarations :=
  if d.types.length ≤ id.index then .error (.unknownVariable id)
  else if id ∈ d.members then .error (.variableAlreadyMember id)
  else .ok { d with members }

def insert : Except Error Declarations :=
  if d.members.length < position then .error (.positionOutOfRange position d.members.length)
  else d.place id (d.members.insertIdx position id)

def replace : Except Error (VariableId × Declarations) :=
  match d.members[position]? with
  | none => .error (.positionOutOfRange position d.members.length)
  | some old => (d.place id (d.members.set position id)).map (old, ·)

def remove : Except Error (VariableId × Declarations) :=
  match d.members[position]? with
  | none => .error (.positionOutOfRange position d.members.length)
  | some old => .ok (old, { d with members := d.members.eraseIdx position })

/-- What an edit does to the lists, with the handle it answers. -/
def edit : Locals.Edit → Except Error (Option VariableId × Declarations)
  | .create type => .ok (some ⟨d.types.length⟩, { d with types := d.types ++ [type] })
  | .append id => (d.place id (d.members ++ [id])).map (none, ·)
  | .insert position id => (d.insert position id).map (none, ·)
  | .replace position id => (d.replace position id).map fun (old, d) => (some old, d)
  | .remove position => (d.remove position).map fun (old, d) => (some old, d)

theorem types_place {d d' : Declarations} {id : VariableId} {members : List VariableId}
    (h : d.place id members = .ok d') : d'.types = d.types := by
  unfold place at h
  split_ifs at h
  rw [← Except.ok.inj h]

/-- Only creating touches the types, and it adds one at the end. -/
theorem types_isPrefix_edit {d d' : Declarations} {e : Locals.Edit} {answer : Option VariableId}
    (h : d.edit e = .ok (answer, d')) : d.types <+: d'.types := by
  cases e with
  | create type =>
    obtain ⟨-, rfl⟩ := Prod.mk.inj (Except.ok.inj h)
    exact List.prefix_append ..
  | append id =>
    obtain ⟨d'', hplace, heq⟩ := map_eq_ok_iff.1 h
    obtain ⟨-, rfl⟩ := Prod.mk.inj heq
    exact types_place hplace ▸ List.prefix_rfl
  | insert position id =>
    obtain ⟨d'', hinsert, heq⟩ := map_eq_ok_iff.1 h
    obtain ⟨-, rfl⟩ := Prod.mk.inj heq
    unfold insert at hinsert
    split_ifs at hinsert
    exact types_place hinsert ▸ List.prefix_rfl
  | replace position id =>
    obtain ⟨⟨old, d''⟩, hreplace, heq⟩ := map_eq_ok_iff.1 h
    obtain ⟨-, rfl⟩ := Prod.mk.inj heq
    unfold replace at hreplace
    split at hreplace
    · cases hreplace
    · obtain ⟨placed, hplace, heq⟩ := map_eq_ok_iff.1 hreplace
      obtain ⟨-, rfl⟩ := Prod.mk.inj heq
      exact types_place hplace ▸ List.prefix_rfl
  | remove position =>
    obtain ⟨⟨old, d''⟩, hremove, heq⟩ := map_eq_ok_iff.1 h
    obtain ⟨-, rfl⟩ := Prod.mk.inj heq
    unfold remove at hremove
    split at hremove
    · cases hremove
    · obtain ⟨-, rfl⟩ := Prod.mk.inj (Except.ok.inj hremove)
      exact List.prefix_rfl

end Declarations

namespace Locals

/-- Does an edit. The handle in the answer is that of a new variable or of one that left its
position; the others have none. -/
def apply : Edit → EditM (Option VariableId)
  | .create type => some <$> create type
  | .append id => silently (append id)
  | .insert position id => silently (insert position id)
  | .replace position id => some <$> replace position id
  | .remove position => some <$> remove position
where
  silently (edit : EditM Unit) : EditM (Option VariableId) := do
    edit
    return none

/-- What the local variables are to a caller. -/
def declarations (l : Locals) : Declarations where
  members := l.order.toList
  types := l.slots.toList.map (·.type)

/-- What a caller sees of the outcome of an edit. -/
def report {α : Type} : EStateM.Result Error Locals α → Except Error (α × Declarations)
  | .ok a l => .ok (a, l.declarations)
  | .error e _ => .error e

/-- The outcome of an edit of `l` that changes nothing if it fails. -/
def Intact {α : Type} (l : Locals) : EStateM.Result Error Locals α → Prop
  | .ok _ _ => True
  | .error _ t => t = l

variable {l : Locals} {position : Nat} {id : VariableId}

section Declarations

theorem map_type_setIndex (slots : Array Slot) (id : VariableId) (index : Option Nat) :
    (setIndex slots id index).toList.map (·.type) = slots.toList.map (·.type) := by
  refine List.ext_getElem? fun n => ?_
  rw [List.getElem?_map, List.getElem?_map, Array.getElem?_toList, Array.getElem?_toList,
    getElem?_setIndex slots id ⟨n⟩ index, Option.map_map]
  rfl

theorem map_type_numberFrom : ∀ (ids : List VariableId) (slots : Array Slot) (position : Nat),
    (numberFrom slots position ids).toList.map (·.type) = slots.toList.map (·.type)
  | [], _, _ => rfl
  | id :: ids, slots, position => by
    rw [numberFrom, map_type_numberFrom ids, map_type_setIndex]

theorem declarations_created (type : TypeId) :
    (l.created type).declarations =
      { l.declarations with types := l.declarations.types ++ [type] } := by
  simp [declarations, created]

theorem declarations_inserted :
    (l.inserted position id).declarations =
      { l.declarations with members := l.declarations.members.insertIdx position id } := by
  simp only [declarations, inserted, renumber, map_type_numberFrom, toList_insertIdxIfInBounds]

theorem declarations_removed (old : VariableId) :
    (l.removed position old).declarations =
      { l.declarations with members := l.declarations.members.eraseIdx position } := by
  simp only [declarations, removed, renumber, map_type_numberFrom, map_type_setIndex,
    Array.toList_eraseIdxIfInBounds]

theorem declarations_replaced (old : VariableId) :
    (l.replaced position id old).declarations =
      { l.declarations with members := l.declarations.members.set position id } := by
  simp only [declarations, replaced, map_type_setIndex, Array.toList_setIfInBounds]

theorem length_types (l : Locals) : l.declarations.types.length = l.slots.size := by
  simp [declarations]

theorem length_members (l : Locals) : l.declarations.members.length = l.length := by
  simp [declarations, length]

end Declarations

section Report

theorem Numbered.isSome_iff (h : l.Numbered) {slot : Slot} (hslot : l.slot? id = some slot) :
    slot.index.isSome = true ↔ id ∈ l.order := by
  rw [Option.isSome_iff_exists, mem_order_iff]
  exact exists_congr fun p => h.index_iff hslot

theorem Numbered.contains_iff (h : l.Numbered) : l.contains id = true ↔ id ∈ l.order := by
  unfold contains indexOf?
  cases hslot : l.slot? id with
  | none =>
    refine ⟨nofun, fun hmem => ?_⟩
    obtain ⟨slot, hs⟩ := h.exists_slot hmem
    rw [hslot] at hs
    cases hs
  | some slot => exact h.isSome_iff hslot

/-- The check before a variable comes in sees the same in the lists. -/
theorem Numbered.place_eq (h : l.Numbered) (members : List VariableId) :
    l.declarations.place id members = match l.placeFault? id with
      | some e => .error e
      | none => .ok { l.declarations with members } := by
  rw [Declarations.place, placeFault?, length_types]
  cases hslot : l.slot? id with
  | none =>
    have hle : l.slots.size ≤ id.index := by simpa [slot?] using hslot
    rw [if_pos hle]
  | some slot =>
    have hlt : ¬ l.slots.size ≤ id.index := fun hle => by
      simp [slot?, Array.getElem?_eq_none hle] at hslot
    rw [if_neg hlt]
    simp only [declarations, Array.mem_toList_iff, ← h.isSome_iff hslot]
    split_ifs <;> rfl

theorem report_map {α β : Type} (x : EditM α) (f : α → β) :
    report ((f <$> x).run l) = (report (x.run l)).map fun (a, d) => (f a, d) := by
  rw [map_eq_pure_bind, EStateM.run_bind]
  cases x.run l <;> rfl

theorem report_silently {x : EditM Unit} {r : Except Error Declarations}
    (h : report (x.run l) = r.map ((), ·)) :
    report ((apply.silently x).run l) = r.map (none, ·) := by
  rw [apply.silently, ← map_eq_pure_bind, report_map, h]
  cases r <;> rfl

theorem Numbered.report_insert (h : l.Numbered) :
    report ((insert position id).run l) = (l.declarations.insert position id).map ((), ·) := by
  rw [run_insert, Declarations.insert, length_members, h.place_eq]
  split_ifs
  · rfl
  · cases l.placeFault? id with
    | some e => rfl
    | none => rw [report, declarations_inserted]; rfl

theorem Numbered.report_append (h : l.Numbered) :
    report ((append id).run l) =
      (l.declarations.place id (l.declarations.members ++ [id])).map ((), ·) := by
  -- appending is inserting behind the last member, a position that is always in range
  rw [run_append, h.report_insert, Declarations.insert, length_members,
    if_neg (Nat.lt_irrefl _), ← length_members, List.insertIdx_length_self]

theorem Numbered.report_replace (h : l.Numbered) :
    report ((replace position id).run l) = l.declarations.replace position id := by
  rw [run_replace, Declarations.replace, get?_eq_toList, length_members, h.place_eq]
  cases hold : l.order.toList[position]? with
  | none => simp only [declarations, hold]; rfl
  | some old =>
    simp only [declarations, hold]
    cases l.placeFault? id with
    | some e => rfl
    | none => simp only [report, declarations_replaced]; rfl

theorem report_remove : report ((remove position).run l) = l.declarations.remove position := by
  rw [run_remove, Declarations.remove, get?_eq_toList, length_members]
  cases hold : l.order.toList[position]? with
  | none => simp only [declarations, hold]; rfl
  | some old =>
    rw [report, declarations_removed]
    simp only [declarations, hold]

theorem Numbered.report_apply (h : l.Numbered) (e : Edit) :
    report ((apply e).run l) = l.declarations.edit e := by
  cases e with
  | create type =>
    rw [apply, report_map, run_create, report, declarations_created, Declarations.edit,
      length_types]
    rfl
  | append id => exact report_silently h.report_append
  | insert position id => exact report_silently h.report_insert
  | replace position id => rw [apply, report_map, h.report_replace]; rfl
  | remove position => rw [apply, report_map, report_remove]; rfl

end Report

section Intact

variable (l : Locals)

theorem Intact.map {α β : Type} {l : Locals} {x : EditM α} (h : l.Intact (x.run l)) (f : α → β) :
    l.Intact ((f <$> x).run l) := by
  rw [map_eq_pure_bind, EStateM.run_bind]
  cases hx : x.run l with
  | ok a t => trivial
  | error e t => rwa [hx] at h

theorem insert_intact (position : Nat) (id : VariableId) :
    l.Intact ((insert position id).run l) := by
  rw [run_insert]
  split_ifs
  · rfl
  · cases l.placeFault? id with
    | some e => rfl
    | none => trivial

/-- Every check of an edit comes before its first change. -/
theorem apply_intact (e : Edit) : l.Intact ((apply e).run l) := by
  cases e with
  | create type => exact Intact.map (x := create type) trivial _
  | append id =>
    rw [apply, apply.silently, ← map_eq_pure_bind]
    refine Intact.map ?_ _
    rw [run_append]
    exact insert_intact l l.length id
  | insert position id =>
    rw [apply, apply.silently, ← map_eq_pure_bind]
    exact (insert_intact l position id).map _
  | replace position id =>
    refine Intact.map ?_ _
    rw [run_replace]
    cases l.get? position with
    | none => rfl
    | some old =>
      cases l.placeFault? id with
      | some e => rfl
      | none => trivial
  | remove position =>
    refine Intact.map ?_ _
    rw [run_remove]
    cases l.get? position with
    | none => rfl
    | some old => trivial

theorem left_map {α β : Type} (x : EditM α) (f : α → β) :
    after.left l (f <$> x) = after.left l x := by
  rw [after.left, after.left, map_eq_pure_bind, EStateM.run_bind]
  cases x.run l <;> rfl

theorem after_eq (e : Edit) : l.after e = after.left l (apply e) := by
  cases e with
  | create type => exact (left_map l (create type) some).symm
  | append id =>
    rw [apply, apply.silently, ← map_eq_pure_bind, left_map]
    rfl
  | insert position id =>
    rw [apply, apply.silently, ← map_eq_pure_bind, left_map]
    rfl
  | replace position id => exact (left_map l (replace position id) some).symm
  | remove position => exact (left_map l (remove position) some).symm

end Intact

/-- After any edits, failed ones among them, a variable has the number of its position, and only a
member has one. The next edit does to the lists what `Declarations.edit` says, with the same answer
and without touching a type, or fails for the same reason and changes nothing at all. -/
theorem apply_refines_lists (edits : List Edit) (e : Edit) :
    let l := edits.foldl after empty
    l.Numbered ∧ (∀ id, l.contains id = true ↔ id ∈ l.order)
      ∧ match (apply e).run l with
        | .ok answer t =>
          l.declarations.edit e = .ok (answer, t.declarations)
            ∧ l.declarations.types <+: t.declarations.types ∧ l.after e = t
        | .error err t => l.declarations.edit e = .error err ∧ t = l ∧ l.after e = l := by
  intro l
  have hnumbered : l.Numbered := Reachable.numbered ⟨edits, rfl⟩
  have hreport := hnumbered.report_apply e
  have hintact := apply_intact l e
  refine ⟨hnumbered, fun id => hnumbered.contains_iff, ?_⟩
  rw [after_eq, after.left]
  cases hrun : (apply e).run l with
  | ok answer t =>
    rw [hrun] at hreport
    exact ⟨hreport.symm, Declarations.types_isPrefix_edit hreport.symm, rfl⟩
  | error err t =>
    rw [hrun] at hreport hintact
    exact ⟨hreport.symm, hintact, hintact⟩

end Locals

end CilMethod
