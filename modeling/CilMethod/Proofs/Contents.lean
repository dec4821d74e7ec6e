import CilMethod.Proofs.Consistency

/-!
# Sequences as lists

To its callers a sequence is two lists: the members in order, and opcode and operand of every
instruction by handle. Links, membership flags and the set of branches follow from these two as long
as the sequence is consistent. `Contents.edit` says what each edit does to the lists, and which of
its faults it reports; `report_apply` says that an edit of a consistent sequence does this. What the
lists do not show, the suppression flag and where the last layout put each instruction, no edit
touches (`Changes.keeps`).
-/

namespace CilMethod

/-- A sequence as lists. -/
structure Contents where
  members : List InstructionId
  /-- Opcode and operand of every instruction ever created, by handle. -/
  arena : List (Opcode × Operand)
  deriving DecidableEq

namespace Contents

variable (c : Contents) (position : Nat) (target id : InstructionId) (opcode : Opcode)
  (operand : Operand)

/-- New members, after `id` came in: it must exist and must not have been a member. -/
def place (members : List InstructionId) : Except Error Contents :=
  if c.arena.length ≤ id.index then .error (.unknownInstruction id)
  else if id ∈ c.members then .error (.alreadyMember id)
  else .ok { c with members }

def create : Except Error (InstructionId × Contents) :=
  if operand.fits opcode.operandType then
    .ok (⟨c.arena.length⟩, { c with arena := c.arena ++ [(opcode, operand)] })
  else .error (.operandMismatch opcode.name opcode.operandType)

def append : Except Error Contents := c.place id (c.members ++ [id])

def insert : Except Error Contents :=
  if c.members.length < position then .error (.positionOutOfRange position c.members.length)
  else c.place id (c.members.insertIdx position id)

def replace : Except Error (InstructionId × Contents) :=
  match c.members[position]? with
  | none => .error (.positionOutOfRange position c.members.length)
  | some old => (c.place id (c.members.set position id)).map (old, ·)

def remove : Except Error (InstructionId × Contents) :=
  match c.members[position]? with
  | none => .error (.positionOutOfRange position c.members.length)
  | some old => .ok (old, { c with members := c.members.eraseIdx position })

def setInstruction : Except Error Contents :=
  if operand.fits opcode.operandType then
    if id.index < c.arena.length then
      .ok { c with arena := c.arena.set id.index (opcode, operand) }
    else .error (.unknownInstruction id)
  else .error (.operandMismatch opcode.name opcode.operandType)

def setOpcode : Except Error Contents :=
  match c.arena[id.index]? with
  | none => .error (.unknownInstruction id)
  | some (_, operand) => c.setInstruction id opcode operand

def setOperand : Except Error Contents :=
  match c.arena[id.index]? with
  | none => .error (.unknownInstruction id)
  | some (opcode, _) => c.setInstruction id opcode operand

/-- Goes on with the position of a member. -/
def locate {α : Type} (f : Nat → Except Error α) : Except Error α :=
  match c.members.idxOf? target with
  | none => .error (.notMember target)
  | some position => f position

/-- What an edit does to the lists, with the handle it answers. -/
def edit : Sequence.Edit → Except Error (Option InstructionId × Contents)
  | .create opcode operand => answer (c.create opcode operand)
  | .append id => silent (c.append id)
  | .insert position id => silent (c.insert position id)
  | .replace position id => answer (c.replace position id)
  | .remove position => answer (c.remove position)
  | .setInstruction id opcode operand => silent (c.setInstruction id opcode operand)
  | .setOpcode id opcode => silent (c.setOpcode id opcode)
  | .setOperand id operand => silent (c.setOperand id operand)
  | .emit opcode operand => answer do
    let (id, c) ← c.create opcode operand
    return (id, { c with members := c.members ++ [id] })
  | .insertBefore target id => silent (c.locate target fun p => c.insert p id)
  | .insertAfter target id => silent (c.locate target fun p => c.insert (p + 1) id)
  | .replaceTarget target id => silent (c.locate target fun p => (c.replace p id).map Prod.snd)
  | .removeTarget id => silent (c.locate id fun p => (c.remove p).map Prod.snd)
where
  answer (r : Except Error (InstructionId × Contents)) :
      Except Error (Option InstructionId × Contents) := r.map fun (id, c) => (some id, c)
  silent (r : Except Error Contents) : Except Error (Option InstructionId × Contents) :=
    r.map (none, ·)

end Contents

namespace Sequence

/-- What a sequence holds, as lists. -/
def contents (s : Sequence) : Contents where
  members := s.order.toList
  arena := s.nodes.toList.map fun i => (i.opcode, i.operand)

/-- What a caller sees of the outcome of an edit. -/
def report {α : Type} : EStateM.Result Error Sequence α → Except Error (α × Contents)
  | .ok a s => .ok (a, s.contents)
  | .error e _ => .error e

/-- What was there stays where the last layout put it, and the suppression flag stays. -/
structure Keeps (s t : Sequence) : Prop where
  suppressed : t.suppressed = s.suppressed
  node : ∀ {id : InstructionId} {i : Instruction}, s.node? id = some i →
    ∃ j, t.node? id = some j ∧ j.index = i.index ∧ j.offset = i.offset

variable {s t : Sequence} {position : Nat} {id : InstructionId} {opcode : Opcode}
  {operand : Operand}

section Keeps

theorem Keeps.refl (s : Sequence) : s.Keeps s := ⟨rfl, fun h => ⟨_, h, rfl, rfl⟩⟩

theorem Keeps.trans {u : Sequence} (hst : s.Keeps t) (htu : t.Keeps u) : s.Keeps u := by
  refine ⟨htu.suppressed.trans hst.suppressed, fun h => ?_⟩
  obtain ⟨j, hj, hindex, hoffset⟩ := hst.node h
  obtain ⟨k, hk, hindex', hoffset'⟩ := htu.node hj
  exact ⟨k, hk, hindex'.trans hindex, hoffset'.trans hoffset⟩

theorem Change.keeps (h : Change s t) : s.Keeps t := by
  cases h with
  | create hfits =>
    refine ⟨rfl, fun {id i} h => ⟨i, ?_, rfl, rfl⟩⟩
    have hlt : id.index ≠ s.nodes.size := fun hid => by simp [node?, hid] at h
    rw [created, node?_push, if_neg hlt, h]
  | insert hposition hid =>
    refine ⟨by simp [inserted], fun h => ?_⟩
    rw [inserted, node?_place, h]
    exact ⟨_, rfl, rfl, rfl⟩
  | remove hold =>
    refine ⟨by simp [removed, struck], fun h => ?_⟩
    rw [removed_eq, node?_takeOut, node?_struck, h]
    exact ⟨_, rfl, rfl, rfl⟩
  | rewrite hfits hid =>
    refine ⟨by simp only [changed]; split_ifs <;> simp, fun h => ?_⟩
    rw [node?_changed, h]
    refine ⟨_, rfl, ?_⟩
    split_ifs <;> exact ⟨rfl, rfl⟩

theorem Changes.keeps (h : s.Changes t) : s.Keeps t := by
  induction h with
  | refl => exact .refl s
  | tail _ hc ih => exact ih.trans hc.keeps

end Keeps

section Contents

theorem Consistent.nodup_members (hs : s.Consistent) : s.contents.members.Nodup := hs.nodup

theorem mem_members : id ∈ s.contents.members ↔ id ∈ s.order := Array.mem_toList_iff

theorem getElem?_arena (s : Sequence) (n : Nat) : s.contents.arena[n]? = s.code? ⟨n⟩ := by
  simp [contents, code?, node?]

/-- Two sequences hold the same if their members and the opcode and operand of each handle are. -/
theorem contents_eq {c : Contents} (hmembers : s.order.toList = c.members)
    (harena : ∀ n, s.code? ⟨n⟩ = c.arena[n]?) : s.contents = c := by
  have h : s.contents.arena = c.arena := List.ext_getElem? fun n => by
    rw [getElem?_arena, harena]
  cases c
  cases hmembers
  cases h
  rfl

theorem contents_created :
    (s.created opcode operand).contents =
      { s.contents with arena := s.contents.arena ++ [(opcode, operand)] } := by
  simp [contents, created]

theorem contents_inserted :
    (s.inserted position id).contents =
      { s.contents with members := s.contents.members.insertIdx position id } :=
  contents_eq (toList_inserted ..) fun n => by rw [code?_inserted, ← getElem?_arena]

theorem contents_removed (old : InstructionId) :
    (s.removed position old).contents =
      { s.contents with members := s.contents.members.eraseIdx position } :=
  contents_eq (toList_removed ..) fun n => by rw [code?_removed, ← getElem?_arena]

theorem contents_replaced (old : InstructionId) :
    (s.replaced position id old).contents =
      { s.contents with members := s.contents.members.set position id } := by
  refine contents_eq (by simp [replaced, contents]) fun n => ?_
  rw [getElem?_arena]
  simp [code?, replaced, node?_place, node?_detach, Function.comp_def]

theorem contents_changed :
    (s.changed id opcode operand).contents =
      { s.contents with arena := s.contents.arena.set id.index (opcode, operand) } := by
  refine contents_eq (by simp [contents]) fun n => ?_
  rw [code?_changed, List.getElem?_set', getElem?_arena]
  obtain ⟨m⟩ := id
  by_cases h : n = m
  · subst h
    cases s.code? ⟨n⟩ <;> simp
  · simp [h, Ne.symm h]

theorem contents_laidOut (hnodup : s.order.toList.Nodup) : s.laidOut.contents = s.contents :=
  contents_eq rfl fun n => by rw [code?_laidOut hnodup, getElem?_arena]

end Contents

section Report

theorem report_map {α β : Type} (x : EditM α) (f : α → β) :
    report ((f <$> x).run s) = (report (x.run s)).map fun (a, c) => (f a, c) := by
  rw [map_eq_pure_bind, EStateM.run_bind]
  cases x.run s <;> rfl

/-- An edit that answers nothing changes the lists as `r` says. -/
theorem report_silently {x : EditM Unit} {r : Except Error Contents}
    (h : report (x.run s) = r.map ((), ·)) :
    report ((apply.silently x).run s) = Contents.edit.silent r := by
  rw [apply.silently, ← map_eq_pure_bind, report_map, h]
  cases r <;> rfl

theorem report_discard {x : EditM InstructionId} {r : Except Error (InstructionId × Contents)}
    (h : report (x.run s) = r) : report ((discard x).run s) = (r.map Prod.snd).map ((), ·) := by
  rw [show discard x = (fun _ => ()) <$> x from rfl, report_map, h]
  cases r <;> rfl

theorem Consistent.positionOf?_eq (hs : s.Consistent) (target : InstructionId) :
    s.positionOf? target = s.contents.members.idxOf? target := by
  simp only [positionOf?, hs.contains_iff, contents]
  split_ifs with h
  · rw [List.idxOf?, ← List.findIdx?_toArray, Array.toArray_toList]
  · rw [eq_comm, List.idxOf?_eq_none_iff]
    simpa using h

theorem Consistent.run_locate_of_notMem (hs : s.Consistent) {f : Nat → EditM Unit}
    (h : id ∉ s.order) : (locate id >>= f).run s = .error (.notMember id) s := by
  have hposition : s.positionOf? id = none := by
    rw [hs.positionOf?_eq, List.idxOf?_eq_none_iff, mem_members]
    exact h
  rw [run_locate_bind, hposition]

theorem Consistent.report_locate (hs : s.Consistent) (target : InstructionId) (f : Nat → EditM Unit)
    {r : Nat → Except Error Contents}
    (h : ∀ position, report ((f position).run s) = (r position).map ((), ·)) :
    report ((locate target >>= f).run s) = (s.contents.locate target r).map ((), ·) := by
  rw [run_locate_bind, hs.positionOf?_eq, Contents.locate]
  cases s.contents.members.idxOf? target with
  | none => rfl
  | some position => exact h position

theorem report_create :
    report ((create opcode operand).run s) = s.contents.create opcode operand := by
  rw [run_create, Contents.create]
  split_ifs
  · rw [report, contents_created]
    simp [contents]
  · rfl

/-- The check before an instruction comes in sees the same in the lists. -/
theorem Consistent.place_eq (hs : s.Consistent) (members : List InstructionId) :
    s.contents.place id members = match s.placeFault? id with
      | some e => .error e
      | none => .ok { s.contents with members } := by
  have hlen : s.contents.arena.length = s.nodes.size := by simp [contents]
  rw [Contents.place, placeFault?, hlen]
  cases hid : s.node? id with
  | none => rw [if_pos ((node?_eq_none_iff s id).1 hid)]
  | some i =>
    have hlt : ¬ s.nodes.size ≤ id.index := fun h => by
      rw [(node?_eq_none_iff s id).2 h] at hid
      cases hid
    rw [if_neg hlt]
    simp only [contents, Array.mem_toList_iff, ← hs.isMember_iff hid]
    split_ifs <;> rfl

theorem Consistent.report_insert (hs : s.Consistent) :
    report ((insert position id).run s) = (s.contents.insert position id).map ((), ·) := by
  have hlen : s.contents.members.length = s.length := by simp [contents, length]
  rw [run_insert, Contents.insert, hlen, hs.place_eq]
  split_ifs
  · rfl
  · cases s.placeFault? id with
    | some e => rfl
    | none => rw [report, contents_inserted]; rfl

theorem Consistent.report_append (hs : s.Consistent) :
    report ((append id).run s) = (s.contents.append id).map ((), ·) := by
  have hlen : s.contents.members.length = s.length := by simp [contents, length]
  rw [run_append, hs.report_insert, Contents.insert, hlen, if_neg (Nat.lt_irrefl _), ← hlen,
    List.insertIdx_length_self]
  rfl

theorem Consistent.report_replace (hs : s.Consistent) :
    report ((replace position id).run s) = s.contents.replace position id := by
  have hlen : s.contents.members.length = s.length := by simp [contents, length]
  rw [run_replace, Contents.replace, get?_eq_toList, hlen, hs.place_eq]
  cases hold : s.order.toList[position]? with
  | none => simp only [contents, hold]; rfl
  | some old =>
    simp only [contents, hold]
    cases s.placeFault? id with
    | some e => rfl
    | none => simp only [report, contents_replaced]; rfl

theorem report_remove : report ((remove position).run s) = s.contents.remove position := by
  have hlen : s.contents.members.length = s.length := by simp [contents, length]
  rw [run_remove, Contents.remove, get?_eq_toList, hlen]
  cases hold : s.order.toList[position]? with
  | none => simp only [contents, hold]; rfl
  | some old =>
    rw [report, contents_removed]
    simp only [contents, hold]

theorem report_setInstruction :
    report ((setInstruction id opcode operand).run s) =
      (s.contents.setInstruction id opcode operand).map ((), ·) := by
  have hlen : s.contents.arena.length = s.nodes.size := by simp [contents]
  rw [run_setInstruction, Contents.setInstruction, hlen]
  split_ifs with hfits hlt
  · cases hid : s.node? id with
    | none => exact absurd ((node?_eq_none_iff s id).1 hid) (Nat.not_le.2 hlt)
    | some i => rw [report, contents_changed]; rfl
  · rw [(node?_eq_none_iff s id).2 (Nat.not_lt.1 hlt)]
    rfl
  · rfl

theorem report_setOpcode :
    report ((setOpcode id opcode).run s) = (s.contents.setOpcode id opcode).map ((), ·) := by
  rw [run_setOpcode, Contents.setOpcode, getElem?_arena, code?]
  cases s.node? id with
  | none => rfl
  | some i => exact report_setInstruction

theorem report_setOperand :
    report ((setOperand id operand).run s) = (s.contents.setOperand id operand).map ((), ·) := by
  rw [run_setOperand, Contents.setOperand, getElem?_arena, code?]
  cases s.node? id with
  | none => rfl
  | some i => exact report_setInstruction

theorem report_emit :
    report ((emit opcode operand).run s) = do
      let (id, c) ← s.contents.create opcode operand
      return (id, { c with members := c.members ++ [id] }) := by
  have hlen : s.contents.members.length = s.length := by simp [contents, length]
  have hsize : s.contents.arena.length = s.nodes.size := by simp [contents]
  rw [run_emit, Contents.create]
  split_ifs
  · rw [report, contents_inserted, contents_created, ← hlen, List.insertIdx_length_self, hsize]
    rfl
  · rfl

/-- An edit of a consistent sequence reports what the lists say. -/
theorem Consistent.report_apply (hs : s.Consistent) (e : Edit) :
    report ((apply e).run s) = s.contents.edit e := by
  cases e with
  | create opcode operand => rw [apply, report_map, report_create]; rfl
  | append id => exact report_silently hs.report_append
  | insert position id => exact report_silently hs.report_insert
  | replace position id => rw [apply, report_map, hs.report_replace]; rfl
  | remove position => rw [apply, report_map, report_remove]; rfl
  | setInstruction id opcode operand => exact report_silently report_setInstruction
  | setOpcode id opcode => exact report_silently report_setOpcode
  | setOperand id operand => exact report_silently report_setOperand
  | emit opcode operand => rw [apply, report_map, report_emit]; rfl
  | insertBefore target id =>
    exact report_silently (hs.report_locate target _ fun p => hs.report_insert)
  | insertAfter target id =>
    exact report_silently (hs.report_locate target _ fun p => hs.report_insert)
  | replaceTarget target id =>
    exact report_silently (hs.report_locate target _ fun p => report_discard hs.report_replace)
  | removeTarget id =>
    exact report_silently (hs.report_locate id _ fun p => report_discard report_remove)

end Report

/-- An edit of a reachable sequence does to the lists what `Contents.edit` says, with the same
answer, or fails for the same reason and changes nothing at all; and appending is inserting behind
the last member. -/
theorem apply_refines_edit (hs : s.Reachable) (e : Edit) :
    (match (apply e).run s with
      | .ok answer t =>
        s.contents.edit e = .ok (answer, t.contents) ∧ t.Consistent ∧ s.Keeps t
      | .error err t => s.contents.edit e = .error err ∧ t = s)
    ∧ ∀ id, (append id).run s = (insert s.length id).run s := by
  refine ⟨?_, run_append s⟩
  have hreport := hs.consistent.report_apply e
  have hatomic := apply_atomic s e
  cases hrun : (apply e).run s with
  | ok answer t =>
    rw [hrun] at hreport hatomic
    exact ⟨hreport.symm, consistent_invariant.changes hatomic hs.consistent, hatomic.keeps⟩
  | error err t =>
    rw [hrun] at hreport hatomic
    exact ⟨hreport.symm, hatomic⟩

/-- Two instructions are members and a third is not; it takes the place of the first. -/
theorem apply_refines_edit_replace :
    ∃ s t : Sequence, s.Reachable ∧ s.contents.members = [⟨0⟩, ⟨1⟩]
      ∧ (apply (.replace 0 ⟨2⟩)).run s = .ok (some ⟨0⟩) t ∧ t.contents.members = [⟨2⟩, ⟨1⟩]
      ∧ t.Consistent ∧ s.Keeps t := by
  obtain ⟨s, hs, hcontents⟩ : ∃ s : Sequence, s.Reachable
      ∧ s.contents = ⟨[⟨0⟩, ⟨1⟩], List.replicate 3 (⟨"nop", 0, .inlineNone⟩, .none)⟩ :=
    ⟨_, ⟨[.edit (.emit ⟨"nop", 0, .inlineNone⟩ .none), .edit (.emit ⟨"nop", 0, .inlineNone⟩ .none),
      .edit (.create ⟨"nop", 0, .inlineNone⟩ .none)], rfl⟩, rfl⟩
  have hedit : s.contents.edit (.replace 0 ⟨2⟩) =
      .ok (some ⟨0⟩, ⟨[⟨2⟩, ⟨1⟩], List.replicate 3 (⟨"nop", 0, .inlineNone⟩, .none)⟩) := by
    rw [hcontents]
    rfl
  have h := (apply_refines_edit hs (.replace 0 ⟨2⟩)).1
  cases hrun : (apply (.replace 0 ⟨2⟩)).run s with
  | ok answer t =>
    rw [hrun, hedit] at h
    obtain ⟨hsame, hconsistent, hkeeps⟩ := h
    obtain ⟨rfl, hresult⟩ := Prod.mk.inj (Except.ok.inj hsame)
    exact ⟨s, t, hs, by rw [hcontents], hrun, by rw [← hresult], hconsistent, hkeeps⟩
  | error err t =>
    rw [hrun, hedit] at h
    cases h.1

end Sequence

end CilMethod
