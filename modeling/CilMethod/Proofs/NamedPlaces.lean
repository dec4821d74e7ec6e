import CilMethod.Proofs.Contents

/-!
# Edits at a named instruction

An edit at a named instruction looks for its position and hands it to a positional edit, which makes
checks of its own. On lists this is an edit at a split: where the members are `before`, then the
named instruction, then `after`, the position is the length of `before` (`locate_split`). So the
positional edit never finds its position out of range (`edit_ne_positionOutOfRange`), and what is
left of its checks is whether the instruction that comes in may be placed (`Consistent.placing`).
-/

namespace CilMethod

namespace Contents

variable {c : Contents} {before after members : List InstructionId} {target id : InstructionId}

theorem insertIdx_split {α : Type} (before after : List α) (x : α) :
    (before ++ after).insertIdx before.length x = before ++ x :: after := by
  induction before with
  | nil => rfl
  | cons y before ih => simp [ih]

/-- A member is found where the members split. -/
theorem locate_split {α : Type} (hnodup : c.members.Nodup)
    (h : c.members = before ++ target :: after) (f : Nat → Except Error α) :
    c.locate target f = f before.length := by
  have hbefore : target ∉ before := by
    rw [h] at hnodup
    exact fun hmem => (List.nodup_append.1 hnodup).2.2 target hmem target List.mem_cons_self rfl
  have hfound : c.members.idxOf? target = some before.length := by
    rw [h, List.idxOf?, List.findIdx?_append, ← List.idxOf?, List.idxOf?_eq_none_iff.2 hbefore,
      List.idxOf?_cons]
    simp
  rw [locate, hfound]

section Split

variable (h : c.members = before ++ target :: after)

include h

theorem insert_before :
    c.insert before.length id = c.place id (before ++ id :: target :: after) := by
  rw [insert, if_neg (by simp [h]), h, insertIdx_split]

theorem insert_after :
    c.insert (before.length + 1) id = c.place id (before ++ target :: id :: after) := by
  have hsplit := insertIdx_split (before ++ [target]) after id
  rw [insert, if_neg (by simp [h]), h]
  simpa using congrArg (c.place id) hsplit

theorem replace_split :
    c.replace before.length id = (c.place id (before ++ id :: after)).map (target, ·) := by
  have hget : c.members[before.length]? = some target := by simp [h]
  rw [replace, hget, h, List.set_append_right _ _ (Nat.le_refl _)]
  simp

theorem remove_split :
    c.remove before.length = .ok (target, { c with members := before ++ after }) := by
  have hget : c.members[before.length]? = some target := by simp [h]
  rw [remove, hget, h, List.eraseIdx_append_of_length_le (Nat.le_refl _)]
  simp

end Split

section Positions

variable {position length p n : Nat} {e : Error} {opcode : Opcode} {operand : Operand}

theorem place_ne_positionOutOfRange :
    c.place id members ≠ .error (.positionOutOfRange position length) := by
  unfold place
  split_ifs <;> simp

/-- A position that is looked up is one of the members'. -/
theorem locate_ne {α : Type} {f : Nat → Except Error α} (he : e ≠ .notMember target)
    (hf : ∀ p < c.members.length, f p ≠ .error e) : c.locate target f ≠ .error e := by
  unfold locate
  cases hp : c.members.idxOf? target with
  | none => exact fun h => he (Except.error.inj h).symm
  | some p =>
    obtain ⟨hlt, -⟩ := List.idxOf?_eq_some_iff.1 hp
    exact hf p hlt

theorem insert_ne_positionOutOfRange (hp : p ≤ c.members.length) :
    c.insert p id ≠ .error (.positionOutOfRange position length) := by
  rw [insert, if_neg (Nat.not_lt.2 hp)]
  exact place_ne_positionOutOfRange

theorem create_ne_positionOutOfRange :
    c.create opcode operand ≠ .error (.positionOutOfRange position length) := by
  unfold create
  split_ifs <;> simp

theorem setInstruction_ne_positionOutOfRange :
    c.setInstruction id opcode operand ≠ .error (.positionOutOfRange position length) := by
  unfold setInstruction
  split_ifs <;> simp

theorem setOpcode_ne_positionOutOfRange :
    c.setOpcode id opcode ≠ .error (.positionOutOfRange position length) := by
  unfold setOpcode
  split
  · simp
  · exact setInstruction_ne_positionOutOfRange

theorem setOperand_ne_positionOutOfRange :
    c.setOperand id operand ≠ .error (.positionOutOfRange position length) := by
  unfold setOperand
  split
  · simp
  · exact setInstruction_ne_positionOutOfRange

end Positions

end Contents

/-- An edit that is given a position. -/
def Sequence.Edit.isPositional : Edit → Bool
  | .insert .. | .replace .. | .remove _ => true
  | _ => false

theorem map_ne_error {α β : Type} {r : Except Error α} {e : Error} (f : α → β)
    (h : r ≠ .error e) : r.map f ≠ .error e := by
  cases r with
  | ok a => simp [Except.map]
  | error e' => simpa [Except.map] using h

theorem Contents.edit_ne_positionOutOfRange (c : Contents) {e : Sequence.Edit}
    (he : e.isPositional = false) (position length : Nat) :
    c.edit e ≠ .error (.positionOutOfRange position length) := by
  cases e with
  | create opcode operand => exact map_ne_error _ create_ne_positionOutOfRange
  | append id => exact map_ne_error _ place_ne_positionOutOfRange
  | emit opcode operand =>
    refine map_ne_error _ fun h => ?_
    cases hcreate : c.create opcode operand with
    | ok created =>
      rw [hcreate] at h
      cases h
    | error e =>
      rw [hcreate] at h
      exact create_ne_positionOutOfRange (hcreate.trans h)
  | insertBefore target id =>
    refine map_ne_error _ (locate_ne (by simp) fun p hp => ?_)
    exact insert_ne_positionOutOfRange (Nat.le_of_lt hp)
  | insertAfter target id =>
    refine map_ne_error _ (locate_ne (by simp) fun p hp => ?_)
    exact insert_ne_positionOutOfRange hp
  | replaceTarget target id =>
    refine map_ne_error _ (locate_ne (by simp) fun p hp => map_ne_error _ ?_)
    rw [replace, List.getElem?_eq_getElem hp]
    exact map_ne_error _ place_ne_positionOutOfRange
  | removeTarget id =>
    refine map_ne_error _ (locate_ne (by simp) fun p hp => map_ne_error _ ?_)
    rw [remove, List.getElem?_eq_getElem hp]
    simp
  | setInstruction id opcode operand => exact map_ne_error _ setInstruction_ne_positionOutOfRange
  | setOpcode id opcode => exact map_ne_error _ setOpcode_ne_positionOutOfRange
  | setOperand id operand => exact map_ne_error _ setOperand_ne_positionOutOfRange
  | insert _ _ | replace _ _ | remove _ => cases he

namespace Sequence

variable {s t : Sequence} {target id : InstructionId} {before after members : List InstructionId}

/-- An instruction outside the order, with no links. -/
def Detached (s : Sequence) (id : InstructionId) : Prop :=
  ∃ i, s.node? id = some i ∧ i.isMember = false ∧ i.previous = none ∧ i.next = none

/-- An edit that goes through and leaves these members. All else that the lists show is as it was,
the sequence is consistent, and no instruction has lost its place in the last layout. -/
def Leaves (s : Sequence) (edit : EditM Unit) (members : List InstructionId) : Prop :=
  ∃ t, edit.run s = .ok () t ∧ t.contents = { s.contents with members } ∧ t.Consistent ∧ s.Keeps t

theorem leaves_of_report {edit : EditM Unit} (hs : s.Consistent) (hatomic : s.Atomic (edit.run s))
    (h : report (edit.run s) = .ok ((), { s.contents with members })) : s.Leaves edit members := by
  cases hrun : edit.run s with
  | ok a t =>
    rw [hrun] at h hatomic
    exact ⟨t, hrun, congrArg Prod.snd (Except.ok.inj h),
      consistent_invariant.changes hatomic hs, hatomic.keeps⟩
  | error e t =>
    rw [hrun] at h
    cases h

theorem run_of_report {α : Type} {edit : EditM α} {e : Error} (hatomic : s.Atomic (edit.run s))
    (h : report (edit.run s) = .error e) : edit.run s = .error e s := by
  cases hrun : edit.run s with
  | ok a t =>
    rw [hrun] at h
    cases h
  | error e' t =>
    rw [hrun] at h hatomic
    rw [Except.error.inj h, hatomic]

/-- What is not among the members that are left is outside, with no links. -/
theorem Leaves.detached {edit : EditM Unit} (h : s.Leaves edit members)
    (hrun : edit.run s = .ok () t) (hknown : id.index < s.nodes.size) (hout : id ∉ members) :
    t.Detached id := by
  obtain ⟨t', hrun', hcontents, ht, -⟩ := h
  obtain rfl : t' = t := by
    rw [hrun] at hrun'
    cases hrun'
    rfl
  have hsize : t'.nodes.size = s.nodes.size := by
    simpa [contents] using congrArg (·.arena.length) hcontents
  have hno : id ∉ t'.order := fun hmem => by
    rw [← mem_members, hcontents] at hmem
    exact hout hmem
  obtain ⟨i, hi⟩ : ∃ i, t'.node? id = some i := ⟨_, Array.getElem?_eq_getElem (hsize ▸ hknown)⟩
  have hm : i.isMember = false := eq_false_of_ne_true fun h => hno ((ht.isMember_iff hi).1 h)
  exact ⟨i, hi, hm, ht.unlinked hi hm⟩

/-- An edit that places an instruction, and leaves these members. It fails if the handle is unknown
or that of a member, and changes nothing then. -/
structure Places (s : Sequence) (id : InstructionId) (edit : EditM Unit)
    (members : List InstructionId) : Prop where
  unknown : s.nodes.size ≤ id.index → edit.run s = .error (.unknownInstruction id) s
  member : id ∈ s.order → edit.run s = .error (.alreadyMember id) s
  leaves : id.index < s.nodes.size → id ∉ s.order → s.Leaves edit members

theorem Consistent.lt_of_mem (hs : s.Consistent) (h : id ∈ s.order) : id.index < s.nodes.size := by
  obtain ⟨i, hi⟩ := hs.exists_node h
  exact (Array.getElem?_eq_some_iff.1 hi).1

theorem Consistent.places_of_report {edit : EditM Unit} (hs : s.Consistent)
    (hatomic : s.Atomic (edit.run s))
    (hreport : report (edit.run s) = (s.contents.place id members).map ((), ·)) :
    s.Places id edit members := by
  have hsize : s.contents.arena.length = s.nodes.size := by simp [contents]
  rw [Contents.place, hsize] at hreport
  refine ⟨fun hunknown => ?_, fun hmember => ?_, fun hknown hout => ?_⟩
  · rw [if_pos hunknown] at hreport
    exact run_of_report hatomic hreport
  · rw [if_neg (Nat.not_le.2 (hs.lt_of_mem hmember)), if_pos (mem_members.2 hmember)] at hreport
    exact run_of_report hatomic hreport
  · rw [if_neg (Nat.not_le.2 hknown), if_neg (mt mem_members.1 hout)] at hreport
    exact leaves_of_report hs hatomic hreport

section Edits

variable (hs : s.Consistent)

include hs

/-- What an edit at a named instruction finds is a member. -/
theorem Consistent.mem_of_run_locate {f : Nat → EditM Unit}
    (hrun : (locate target >>= f).run s = .ok () t) : target ∈ s.order := by
  refine Decidable.byContradiction fun h => ?_
  rw [hs.run_locate_of_notMem h] at hrun
  cases hrun

variable (hsplit : s.order.toList = before ++ target :: after)

include hsplit

/-- An edit at a named instruction does to the lists what the positional one does at the split. -/
theorem Consistent.report_locate_split {f : Nat → EditM Unit} {r : Nat → Except Error Contents}
    (hf : ∀ p, report ((f p).run s) = (r p).map ((), ·)) :
    report ((locate target >>= f).run s) = (r before.length).map ((), ·) := by
  rw [hs.report_locate target f hf, Contents.locate_split hs.nodup_members hsplit]

theorem Consistent.places_insertBefore :
    s.Places id (insertBefore target id) (before ++ id :: target :: after) := by
  refine hs.places_of_report (Atomic.locate fun p => insert_atomic s p id) ?_
  rw [insertBefore, hs.report_locate_split hsplit fun p => hs.report_insert,
    Contents.insert_before hsplit]

theorem Consistent.places_insertAfter :
    s.Places id (insertAfter target id) (before ++ target :: id :: after) := by
  refine hs.places_of_report (Atomic.locate fun p => insert_atomic s (p + 1) id) ?_
  rw [insertAfter, hs.report_locate_split hsplit fun p => hs.report_insert,
    Contents.insert_after hsplit]

theorem Consistent.places_replaceTarget :
    s.Places id (replaceTarget target id) (before ++ id :: after) := by
  refine hs.places_of_report (Atomic.locate fun p => (replace_atomic s p id).map _) ?_
  rw [replaceTarget, hs.report_locate_split hsplit fun p => report_discard hs.report_replace,
    Contents.replace_split hsplit]
  cases s.contents.place id (before ++ id :: after) <;> rfl

theorem Consistent.leaves_removeTarget : s.Leaves (removeTarget target) (before ++ after) := by
  refine leaves_of_report hs (Atomic.locate fun p => (remove_atomic s p).map _) ?_
  rw [removeTarget, hs.report_locate_split hsplit fun p => report_discard report_remove,
    Contents.remove_split hsplit]
  rfl

theorem Consistent.notMem_of_split : target ∉ before ++ after := by
  have hnodup := hs.nodup
  rw [hsplit, List.perm_middle.nodup_iff] at hnodup
  exact (List.nodup_cons.1 hnodup).1

end Edits

theorem Consistent.detached_replaceTarget (hs : s.Consistent)
    (hrun : (replaceTarget target id).run s = .ok () t) : t.Detached target := by
  have htarget : target ∈ s.order := hs.mem_of_run_locate hrun
  obtain ⟨before, after, hsplit⟩ := List.append_of_mem (Array.mem_toList_iff.2 htarget)
  have hplaces : s.Places id (replaceTarget target id) (before ++ id :: after) :=
    hs.places_replaceTarget hsplit
  have hknown : id.index < s.nodes.size := by
    refine Nat.lt_of_not_ge fun h => ?_
    rw [hplaces.unknown h] at hrun
    cases hrun
  have hout : id ∉ s.order := fun h => by
    rw [hplaces.member h] at hrun
    cases hrun
  refine (hplaces.leaves hknown hout).detached hrun (hs.lt_of_mem htarget) ?_
  have hne : target ≠ id := fun h => hout (h ▸ htarget)
  simpa [hne] using hs.notMem_of_split hsplit

theorem Consistent.detached_removeTarget (hs : s.Consistent)
    (hrun : (removeTarget target).run s = .ok () t) : t.Detached target := by
  have htarget : target ∈ s.order := hs.mem_of_run_locate hrun
  obtain ⟨before, after, hsplit⟩ := List.append_of_mem (Array.mem_toList_iff.2 htarget)
  exact (hs.leaves_removeTarget hsplit).detached hrun (hs.lt_of_mem htarget)
    (hs.notMem_of_split hsplit)

/-- An edit without a position fails for another reason, and no edit that fails changes anything. -/
theorem Consistent.run_apply_error (hs : s.Consistent) {e : Edit} (he : e.isPositional = false)
    {err : Error} (h : (apply e).run s = .error err t) :
    t = s ∧ ∀ position length, err ≠ .positionOutOfRange position length := by
  have hatomic := apply_atomic s e
  have hreport := hs.report_apply e
  rw [h] at hatomic hreport
  refine ⟨hatomic, fun position length herr => ?_⟩
  exact s.contents.edit_ne_positionOutOfRange he position length (by rw [← hreport, herr]; rfl)

theorem run_emit_error_iff {opcode : Opcode} {operand : Operand} {e : Error} :
    (emit opcode operand).run s = .error e t ↔ operand.fits opcode.operandType = false
      ∧ e = .operandMismatch opcode.name opcode.operandType ∧ t = s := by
  rw [run_emit]
  cases operand.fits opcode.operandType with
  | true => simp
  | false => simp [eq_comm]

/-- An edit at a named instruction edits there, whatever the handles are. At every member it leaves
the members that a reader of the split expects, with the old one outside where it gave up its place,
or it fails because of the instruction that comes in. Elsewhere it fails because of the target. No
edit but a positional one finds a position out of range, and `emit` fails over its operand only. -/
theorem edits_at_named (hs : s.Reachable) (target id : InstructionId) :
    (∀ before after, s.order.toList = before ++ target :: after →
      s.Places id (insertBefore target id) (before ++ id :: target :: after)
      ∧ s.Places id (insertAfter target id) (before ++ target :: id :: after)
      ∧ s.Places id (replaceTarget target id) (before ++ id :: after)
      ∧ s.Leaves (removeTarget target) (before ++ after))
    ∧ (∀ t, (replaceTarget target id).run s = .ok () t → t.Detached target)
    ∧ (∀ t, (removeTarget target).run s = .ok () t → t.Detached target)
    ∧ (target ∉ s.order → ∀ edit ∈ [insertBefore target id, insertAfter target id,
        replaceTarget target id, removeTarget target], edit.run s = .error (.notMember target) s)
    ∧ (∀ e : Edit, e.isPositional = false → ∀ err t, (apply e).run s = .error err t →
        t = s ∧ ∀ position length, err ≠ .positionOutOfRange position length)
    ∧ ∀ opcode operand err t, (emit opcode operand).run s = .error err t ↔
        operand.fits opcode.operandType = false
          ∧ err = .operandMismatch opcode.name opcode.operandType ∧ t = s := by
  have hs := hs.consistent
  refine ⟨fun before after hsplit => ⟨hs.places_insertBefore hsplit, hs.places_insertAfter hsplit,
    hs.places_replaceTarget hsplit, hs.leaves_removeTarget hsplit⟩,
    fun t => hs.detached_replaceTarget, fun t => hs.detached_removeTarget, fun h => ?_,
    fun e he err t => hs.run_apply_error he, fun opcode operand err t => run_emit_error_iff⟩
  simp only [List.forall_mem_cons]
  exact ⟨hs.run_locate_of_notMem h, hs.run_locate_of_notMem h, hs.run_locate_of_notMem h,
    hs.run_locate_of_notMem h, nofun⟩

/-- The members are 0 and 1, and 2 waits outside. It is put before the first and after the last, and
a member is not put at itself. -/
theorem edits_at_named_ends :
    ∃ s : Sequence, s.Reachable ∧ s.order = #[⟨0⟩, ⟨1⟩]
      ∧ s.Leaves (insertBefore ⟨0⟩ ⟨2⟩) [⟨2⟩, ⟨0⟩, ⟨1⟩]
      ∧ s.Leaves (insertAfter ⟨1⟩ ⟨2⟩) [⟨0⟩, ⟨1⟩, ⟨2⟩]
      ∧ s.Leaves (replaceTarget ⟨0⟩ ⟨2⟩) [⟨2⟩, ⟨1⟩]
      ∧ (insertBefore ⟨0⟩ ⟨0⟩).run s = .error (.alreadyMember ⟨0⟩) s
      ∧ (insertAfter ⟨1⟩ ⟨9⟩).run s = .error (.unknownInstruction ⟨9⟩) s
      ∧ (replaceTarget ⟨9⟩ ⟨9⟩).run s = .error (.notMember ⟨9⟩) s
      ∧ (removeTarget ⟨2⟩).run s = .error (.notMember ⟨2⟩) s := by
  obtain ⟨s, hs, horder, hsize⟩ : ∃ s : Sequence, s.Reachable ∧ s.order = #[⟨0⟩, ⟨1⟩]
      ∧ s.nodes.size = 3 :=
    ⟨_, ⟨[.edit (.emit ⟨"nop", 0, .inlineNone⟩ .none), .edit (.emit ⟨"nop", 0, .inlineNone⟩ .none),
      .edit (.create ⟨"nop", 0, .inlineNone⟩ .none)], rfl⟩, rfl, rfl⟩
  have hfirst := fun id => (edits_at_named hs ⟨0⟩ id).1 [] [⟨1⟩] (by rw [horder]; rfl)
  have hlast := fun id => (edits_at_named hs ⟨1⟩ id).1 [⟨0⟩] [] (by rw [horder]; rfl)
  have habsent := fun target id => (edits_at_named hs target id).2.2.2.1
  have hknown : (2 : Nat) < s.nodes.size := by rw [hsize]; decide
  have hunknown : s.nodes.size ≤ 9 := by rw [hsize]; decide
  have hout : ∀ n, 2 ≤ n → (⟨n⟩ : InstructionId) ∉ s.order := by
    intro n hn
    rw [horder]
    simp
    omega
  refine ⟨s, hs, horder, (hfirst ⟨2⟩).1.leaves hknown (hout 2 (by decide)),
    (hlast ⟨2⟩).2.1.leaves hknown (hout 2 (by decide)),
    (hfirst ⟨2⟩).2.2.1.leaves hknown (hout 2 (by decide)),
    (hfirst ⟨0⟩).1.member (by simp [horder]), (hlast ⟨9⟩).2.1.unknown hunknown, ?_, ?_⟩
  · exact habsent ⟨9⟩ ⟨9⟩ (hout 9 (by decide)) _ (by simp)
  · exact habsent ⟨2⟩ ⟨2⟩ (hout 2 (by decide)) _ (by simp)

end Sequence

end CilMethod
