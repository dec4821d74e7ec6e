import CilMethod.Proofs.Decoder
import CilMethod.Proofs.FailedEncoding
import CilMethod.Proofs.Loads

/-!
# Making short branches long

Making one branch long moves what follows it and can put other short branches out of reach, so
nothing can be said about distances until the last one is done. What can be said at each step is
that it succeeds and changes an opcode and nothing else (`Reachable.run_widen`): the long form of
a branch takes the same operand in three bytes more. So the branches can be taken in any order
(`Reachable.run_widenAll`). When none is short every distance has four bytes, enough for code of
less than 2 GiB (`encode_ne_branchOutOfRange`).
-/

namespace CilMethod

theorem exists_longForm : ∀ op ∈ Opcode.table, op.operandType = .shortInlineBrTarget →
    ∃ long ∈ Opcode.table, op.longForm? = some long ∧ long.operandType = .inlineBrTarget
      ∧ long.size = op.size := by
  decide +kernel

theorem Operand.fits_long {operand : Operand} (h : operand.fits .shortInlineBrTarget = true) :
    operand.fits .inlineBrTarget = true := by
  cases operand with
  | target id => rfl
  | _ => simp [fits] at h

namespace Sequence

variable {s t u : Sequence} {id k : InstructionId} {ids : List InstructionId} {i : Instruction}
  {opcode long : Opcode} {operand : Operand} {n : Nat}

/-- The members that are short branches. -/
def shortBranches (s : Sequence) : List InstructionId :=
  s.order.toList.filter fun id =>
    (s.node? id).any (·.opcode.operandType == .shortInlineBrTarget)

def longForm? (s : Sequence) (id : InstructionId) : Option Opcode :=
  (s.node? id).bind (·.opcode.longForm?)

theorem mem_shortBranches : id ∈ s.shortBranches ↔
    id ∈ s.order ∧ ∃ i, s.node? id = some i ∧ i.opcode.operandType = .shortInlineBrTarget := by
  simp [shortBranches, Option.any_eq_true]

theorem forall_mem_codes {P : Opcode → Prop} : (∀ c ∈ s.codes, P c.1) ↔
    ∀ id ∈ s.order, ∀ i, s.node? id = some i → P i.opcode := by
  simp only [codes, List.forall_mem_map]
  exact ⟨fun h id hid i hi => h (id, i) (mk_mem_members.2 ⟨hid, hi⟩),
    fun h m hm => h m.1 (mk_mem_members.1 hm).1 m.2 (mk_mem_members.1 hm).2⟩

section Widened

/-- `t` is `s` with some instructions in their long form. -/
structure Widened (s : Sequence) (ids : List InstructionId) (t : Sequence) : Prop where
  order : t.order = s.order
  branches : t.branches = s.branches
  node : ∀ k, t.node? k = (s.node? k).map fun i =>
    if k ∈ ids then { i with opcode := i.opcode.longForm?.getD i.opcode } else i

/-- What can be asked about a sequence without looking at opcodes has the same answer in both. -/
structure SameButOpcodes (s t : Sequence) : Prop where
  order : t.order = s.order
  operand : ∀ id, (t.node? id).map (·.operand) = (s.node? id).map (·.operand)
  links : ∀ id, t.links? id = s.links? id
  contains : ∀ id, t.contains id = s.contains id
  branchList : t.branchList = s.branchList
  danglingTargets : t.danglingTargets = s.danglingTargets

theorem Widened.nil : s.Widened [] s := ⟨rfl, rfl, fun k => by simp⟩

theorem Widened.cons (h : s.Widened [id] t) (h' : t.Widened ids u) (hid : id ∉ ids) :
    s.Widened (id :: ids) u := by
  refine ⟨h'.order.trans h.order, h'.branches.trans h.branches, fun k => ?_⟩
  rw [h'.node, h.node, Option.map_map]
  refine congrArg (Option.map · _) (funext fun i => ?_)
  by_cases hk : k = id
  · simp [hk, hid]
  · simp [hk]

theorem Widened.node?_of_notMem (h : s.Widened ids t) (hk : k ∉ ids) : t.node? k = s.node? k := by
  simp [h.node, hk]

theorem Widened.map_eq {α : Type} {f : Instruction → α} (h : s.Widened ids t)
    (hf : ∀ i opcode, f { i with opcode } = f i) (k : InstructionId) :
    (t.node? k).map f = (s.node? k).map f := by
  rw [h.node, Option.map_map]
  refine congrArg (Option.map · _) (funext fun i => ?_)
  simp only [Function.comp_apply]
  split_ifs
  · exact hf ..
  · rfl

theorem Widened.sameButOpcodes (h : s.Widened ids t) : s.SameButOpcodes t := by
  have hbranches : t.branchList = s.branchList := congrArg Std.ExtTreeSet.toList h.branches
  have hcontains : ∀ k, t.contains k = s.contains k := fun k => by
    have hmap := h.map_eq (f := (·.isMember)) (fun i opcode => rfl) k
    simpa [contains, Option.any_map] using congrArg (·.any id) hmap
  have htargets : ∀ k, t.targetsOf k = s.targetsOf k := fun k => by
    have hmap := h.map_eq (f := (·.operand.targets)) (fun i opcode => rfl) k
    simpa [targetsOf] using congrArg (·.elim [] id) hmap
  refine ⟨h.order, h.map_eq fun i opcode => rfl, h.map_eq fun i opcode => rfl, hcontains,
    hbranches, ?_⟩
  simp only [danglingTargets, hbranches, htargets, hcontains]

end Widened

section Step

theorem total_map_add {f f' : InstructionId → Nat} (hnodup : ids.Nodup) (hid : id ∈ ids)
    (hself : f' id = f id + n) (hrest : ∀ k, k ≠ id → f' k = f k) :
    Offset.total (ids.map f') = Offset.total (ids.map f) + n := by
  obtain ⟨before, after, rfl⟩ := List.append_of_mem hid
  rw [List.perm_middle.nodup_iff, List.nodup_cons, List.mem_append, not_or] at hnodup
  have hbefore : before.map f' = before.map f :=
    List.map_congr_left fun k hk => hrest k fun heq => hnodup.1.1 (heq ▸ hk)
  have hafter : after.map f' = after.map f :=
    List.map_congr_left fun k hk => hrest k fun heq => hnodup.1.2 (heq ▸ hk)
  simp only [List.map_append, List.map_cons, Offset.total_append, Offset.total_cons, hbefore,
    hafter, hself]
  omega

theorem Consistent.codeSize_changed (hs : s.Consistent) (hid : id ∈ s.order)
    (hi : s.node? id = some i)
    (hsize : opcode.size + opcode.operandType.size operand.tableLength = i.size + n) :
    (s.changed id opcode operand).codeSize = s.codeSize + n := by
  rw [codeSize_eq, codeSize_eq, order_changed]
  refine total_map_add hs.nodup (Array.mem_toList_iff.2 hid) ?_ fun k hk => ?_
  · rw [sizeIn_eq, sizeIn_eq, code?_changed, if_pos rfl, code?, hi]
    exact hsize
  · rw [sizeIn_eq, sizeIn_eq, code?_changed, if_neg hk]

theorem Reachable.setOpcode (hs : s.Reachable) (h : (setOpcode id opcode).run s = .ok () t) :
    t.Reachable := by
  obtain ⟨steps, rfl⟩ := hs
  refine ⟨steps ++ [.edit (.setOpcode id opcode)], ?_⟩
  have happly : (apply (.setOpcode id opcode)).run (empty.runScript steps).2 = .ok none t :=
    run_bind_of_ok h
  rw [runScript_append]
  change (runEdit _ _).2 = t
  rw [runEdit, happly]

/-- One short branch can be made long, which changes its opcode and takes three bytes. -/
theorem Reachable.run_widen (hs : s.Reachable) (hknown : ∀ c ∈ s.codes, c.1 ∈ Opcode.table)
    (hid : id ∈ s.shortBranches) :
    ∃ long t, s.longForm? id = some long ∧ (Sequence.setOpcode id long).run s = .ok () t
      ∧ (widen id).run s = .ok (some long) t ∧ t.Reachable
      ∧ (∀ c ∈ t.codes, c.1 ∈ Opcode.table) ∧ s.Widened [id] t ∧ t.codeSize = s.codeSize + 3 := by
  have hc := hs.consistent
  obtain ⟨hmem, i, hi, hshort⟩ := mem_shortBranches.1 hid
  have hop : i.opcode ∈ Opcode.table := forall_mem_codes.1 hknown id hmem i hi
  obtain ⟨long, hlong, hform, htype, hsize⟩ := exists_longForm i.opcode hop hshort
  have hfits : i.operand.fits long.operandType = true := by
    have hfits := hc.fits hi
    rw [hshort] at hfits
    rw [htype]
    exact Operand.fits_long hfits
  have hrun : (Sequence.setOpcode id long).run s = .ok () (s.changed id long i.operand) := by
    rw [run_setOpcode, hi]
    dsimp only
    rw [run_setInstruction, if_pos hfits, hi]
  have hwidened : s.Widened [id] (s.changed id long i.operand) := by
    refine ⟨order_changed, Std.ExtTreeSet.ext_mem fun {k} => ?_, fun k => ?_⟩
    · -- both forms name their target, so the branch stays listed
      rw [hc.mem_changed hi]
      split_ifs with hk
      · subst hk
        simp [hc.mem_branches, hmem, hi, Instruction.isTargetBearing, Opcode.isTargetBearing,
          Opcode.operandClass, htype, hshort, OperandType.operandClass]
      · rfl
    · rw [node?_changed]
      by_cases hk : k = id
      · subst hk
        simp [hi, hform]
      · simp [hk]
  refine ⟨long, s.changed id long i.operand, by rw [longForm?, hi]; exact hform, hrun, ?_,
    hs.setOpcode hrun, forall_mem_codes.2 fun k hk j hj => ?_, hwidened, ?_⟩
  · rw [widen, run_bind_of_ok (rfl : (get : EditM Sequence).run s = .ok s s)]
    simp only [hi, Option.bind_some, hform]
    exact run_bind_of_ok hrun
  · rw [order_changed] at hk
    rw [node?_changed] at hj
    obtain ⟨j', hj', rfl⟩ := Option.map_eq_some_iff.1 hj
    split_ifs
    · exact hlong
    · exact forall_mem_codes.1 hknown k hk j' hj'
  · refine hc.codeSize_changed hmem hi ?_
    rw [Instruction.size, hsize, htype, hshort]
    rfl

/-- Short branches can be made long one after the other, in any order. -/
theorem Reachable.run_widenAll : ∀ {ids : List InstructionId} {s : Sequence}, s.Reachable →
    (∀ c ∈ s.codes, c.1 ∈ Opcode.table) → ids.Nodup → (∀ id ∈ ids, id ∈ s.shortBranches) →
    ∃ t, (ids.mapM widen).run s = .ok (ids.map s.longForm?) t ∧ t.Reachable
      ∧ (∀ c ∈ t.codes, c.1 ∈ Opcode.table) ∧ s.Widened ids t
      ∧ t.codeSize = s.codeSize + 3 * ids.length
  | [], s, hs, hknown, _, _ => ⟨s, rfl, hs, hknown, .nil, rfl⟩
  | id :: ids, s, hs, hknown, hnodup, hshort => by
    obtain ⟨hid, hnodup⟩ := List.nodup_cons.1 hnodup
    obtain ⟨long, t, hlong, -, hrun, ht, hknown', hwidened, hsize⟩ :=
      hs.run_widen hknown (hshort id List.mem_cons_self)
    -- the other branches are as they were
    have hsame : ∀ k ∈ ids, t.node? k = s.node? k := fun k hk =>
      hwidened.node?_of_notMem fun hmem => hid (List.mem_singleton.1 hmem ▸ hk)
    have hshort' : ∀ k ∈ ids, k ∈ t.shortBranches := fun k hk => by
      rw [mem_shortBranches, hwidened.order, hsame k hk]
      exact mem_shortBranches.1 (hshort k (List.mem_cons_of_mem id hk))
    have hforms : ids.map t.longForm? = ids.map s.longForm? :=
      List.map_congr_left fun k hk => by rw [longForm?, hsame k hk, longForm?]
    obtain ⟨u, hrun', hu, hknownAll, hwidened', hsize'⟩ :=
      ht.run_widenAll hknown' hnodup hshort'
    refine ⟨u, ?_, hu, hknownAll, hwidened.cons hwidened' hid, ?_⟩
    · rw [List.mapM_cons, run_bind_of_ok hrun, run_bind_of_ok hrun', hforms, List.map_cons, hlong]
      rfl
    · rw [hsize', hsize, List.length_cons]
      omega

theorem Widened.shortBranches_eq_nil (h : s.Widened ids t)
    (hknown : ∀ c ∈ s.codes, c.1 ∈ Opcode.table) (hids : ids.Perm s.shortBranches) :
    t.shortBranches = [] := by
  refine List.eq_nil_iff_forall_not_mem.2 fun id hid => ?_
  obtain ⟨hmem, j, hj, hshort⟩ := mem_shortBranches.1 hid
  rw [h.order] at hmem
  rw [h.node] at hj
  obtain ⟨i, hi, rfl⟩ := Option.map_eq_some_iff.1 hj
  split_ifs at hshort with hin
  · obtain ⟨-, i', hi', hshort'⟩ := mem_shortBranches.1 (hids.mem_iff.1 hin)
    obtain rfl : i' = i := by simpa [hi'] using hi
    obtain ⟨long, -, hform, htype, -⟩ :=
      exists_longForm i'.opcode (forall_mem_codes.1 hknown id hmem i' hi') hshort'
    simp [hform, htype] at hshort
  · exact hin (hids.mem_iff.2 (mem_shortBranches.2 ⟨hmem, i, hi, hshort⟩))

end Step

end Sequence

section Encode

variable {g : TypeGraph} {strings strings' : UserStrings} {b b' : Body} {image : Image}
  {id : InstructionId} {opcode : Opcode} {operand : Operand}

theorem Image.encode_ne_branchOutOfRange (g : TypeGraph) (strings : UserStrings) (hb : b.Reachable)
    (hsize : b.instructions.codeSize < 1 <<< 31) (hshort : b.instructions.shortBranches = [])
    (k : InstructionId) (distance : Int) :
    (encode g strings b).1 ≠ .error (.fault (.branchOutOfRange k distance)) := by
  have hs := hb.instructions.consistent
  refine fun heq => encode_fault_ne (by simp) (by simp) (by simp)
    (fun ⟨id, i⟩ hm strings => ?_) (congrArg faultOf heq)
  obtain ⟨hid, hi⟩ := Sequence.mk_mem_members.1 hm
  rw [faultOf_operandBytes hb hsize hid hi]
  intro hfault
  -- only a short branch is out of reach, and the layout has the opcodes of the body
  have htype : i.opcode.operandType = .shortInlineBrTarget := by
    rcases Body.operandFault?_cases hfault with ⟨v, -, -, he⟩ | he | ⟨target, -, -, he⟩ | ⟨h, -⟩
    · cases he
    · cases he
    · cases he
    · exact h
  have hcode : b.instructions.code? id = some (i.opcode, i.operand) := by
    rw [← Sequence.code?_laidOut hs.nodup, Sequence.code?, hi]
    rfl
  obtain ⟨j, hj, heq⟩ := Option.map_eq_some_iff.1 hcode
  have hmem : id ∈ b.instructions.shortBranches :=
    Sequence.mem_shortBranches.2 ⟨hid, j, hj, (Prod.mk.inj heq).1 ▸ htype⟩
  rw [hshort] at hmem
  cases hmem

/-- Where an instruction stands, the code reads as an opcode and an operand. Each instruction that
the operand names is as far from the end of the line as the line says. -/
def Image.ReadsAs (image : Image) (strings : UserStrings) (b : Body) (id : InstructionId)
    (opcode : Opcode) (operand : Operand) : Prop :=
  ∃ line, Code.line? (b.instructions.offsetOf id)
      (image.sections.code.toList.drop (b.instructions.offsetOf id)) = some line
    ∧ line.opcode = opcode
    ∧ line.operand.Shows strings b.locals (fun target distance => target ∈ b.instructions.order
      ∧ (line.next : Int) + distance = b.instructions.offsetOf target) operand

theorem Image.readsAs_encode (hb : b.Reachable)
    (hknown : ∀ c ∈ b.instructions.codes, c.1 ∈ Opcode.table)
    (h : encode g strings b = (.ok image, strings', b')) (hid : id ∈ b.instructions.order)
    (hc : b.instructions.code? id = some (opcode, operand)) :
    image.ReadsAs strings' b' id opcode operand := by
  have hs := hb.instructions.consistent
  obtain ⟨rfl, hsize, hlt, -⟩ := encode_eq_ok h
  obtain ⟨i, hi⟩ := hs.laidOut.exists_node hid
  have hm : (id, i) ∈ b.instructions.laidOut.members := Sequence.mk_mem_members.2 ⟨hid, hi⟩
  have hlaidOut : b.instructions.laidOut.codeSize < Bytes.limit 4 := by
    rw [hs.codeSize_laidOut, ← hsize]
    exact hlt
  have hend : i.offset + i.size ≤ b.instructions.laidOut.codeSize := by
    simpa [Sequence.codeSize] using hs.located.end_le hm
  have hoffset : b.instructions.laidOut.offsetOf id = i.offset := by
    rw [Sequence.offsetOf, hi]
    rfl
  rw [← Sequence.code?_laidOut hs.nodup, Sequence.code?, hi] at hc
  cases hc
  obtain ⟨bytes, hoperand, hbytes⟩ := exists_operandBytes hb h hm
  -- the code from the offset on starts with the bytes of the member
  have hdrop : image.sections.code.toList.drop i.offset =
      (i.opcode.bytes ++ bytes) ++ image.sections.code.toList.drop (i.offset + i.size) := by
    rw [← hbytes, ← List.drop_drop, List.take_append_drop]
  obtain ⟨line, hline, hshows⟩ := Code.line?_append
    (Code.readable_of_mem hs.laidOut hs.located hlaidOut (by rwa [hs.codes_laidOut]) hm)
    hb.locals ⟨bytes, hoperand, rfl⟩ (image.sections.code.toList.drop (i.offset + i.size))
  have hnext : line.next = i.offset + i.size := by
    rw [Code.Line.next, hshows.offset, hshows.size_eq]
  refine ⟨line, by rw [hoffset, hdrop]; exact hline, hshows.opcode, ?_⟩
  exact hshows.operand.mono fun target distance hleads => by
    rw [hnext]
    exact hleads.add_eq hs.laidOut hs.located hlaidOut hend

/-- A short branch can always be made long, which changes its opcode alone and takes three bytes,
and all of them can, in any order. After that no branch of code below 2 GiB is out of reach, and
every operand in the code leads to the instructions that it named before. -/
theorem Image.encode_widened (hb : b.Reachable)
    (hknown : ∀ c ∈ b.instructions.codes, c.1 ∈ Opcode.table) :
    (∀ id ∈ b.instructions.shortBranches, ∃ long t, b.instructions.longForm? id = some long
      ∧ (Sequence.setOpcode id long).run b.instructions = .ok () t
      ∧ b.instructions.Widened [id] t ∧ b.instructions.SameButOpcodes t
      ∧ t.codeSize = b.instructions.codeSize + 3)
    ∧ ∀ ids : List InstructionId, ids.Perm b.instructions.shortBranches → ∃ t,
      (ids.mapM Sequence.widen).run b.instructions = .ok (ids.map b.instructions.longForm?) t
      ∧ b.instructions.Widened ids t ∧ b.instructions.SameButOpcodes t
      ∧ t.codeSize = b.instructions.codeSize + 3 * ids.length
      ∧ (t.codeSize < 1 <<< 31 → ∀ g strings,
        (∀ id distance, (encode g strings { b with instructions := t }).1 ≠
          .error (.fault (.branchOutOfRange id distance)))
        ∧ ∀ image strings' b',
          encode g strings { b with instructions := t } = (.ok image, strings', b') →
          ∀ id ∈ b.instructions.order, ∀ i, b.instructions.node? id = some i →
            ∃ opcode, t.code? id = some (opcode, i.operand)
              ∧ image.ReadsAs strings' b' id opcode i.operand) := by
  have hs := hb.instructions
  refine ⟨fun id hid => ?_, fun ids hids => ?_⟩
  · obtain ⟨long, t, hlong, hrun, -, -, -, hwidened, hsize⟩ := hs.run_widen hknown hid
    exact ⟨long, t, hlong, hrun, hwidened, hwidened.sameButOpcodes, hsize⟩
  have hnodup : ids.Nodup := hids.nodup_iff.2 (hs.consistent.nodup.filter _)
  obtain ⟨t, hrun, ht, hknown', hwidened, hsize⟩ :=
    hs.run_widenAll hknown hnodup fun id hid => hids.mem_iff.1 hid
  refine ⟨t, hrun, hwidened, hwidened.sameButOpcodes, hsize, fun hshort g strings => ?_⟩
  have hbody : Body.Reachable { b with instructions := t } := ⟨ht, hb.locals⟩
  refine ⟨encode_ne_branchOutOfRange g strings hbody hshort
    (hwidened.shortBranches_eq_nil hknown hids), fun image strings' b' h id hid i hi => ?_⟩
  · have hid' : id ∈ t.order := by rwa [hwidened.order]
    have hoperand := hwidened.sameButOpcodes.operand id
    rw [hi] at hoperand
    obtain ⟨j, hj, hsame⟩ := Option.map_eq_some_iff.1 hoperand
    have hcode : t.code? id = some (j.opcode, i.operand) := by
      rw [Sequence.code?, hj]
      exact congrArg (fun operand => some (j.opcode, operand)) hsame
    exact ⟨j.opcode, hcode, readsAs_encode hbody hknown' h hid' hcode⟩

/-- A branch forward and a branch back, over a jump table that puts both out of reach. -/
theorem Image.encode_widened_table :
    ∃ (b b' : Body) (t : Sequence) (image : Image) (strings' : UserStrings) (opcode : Opcode),
      b.Reachable ∧ (∀ c ∈ b.instructions.codes, c.1 ∈ Opcode.table)
      ∧ b.instructions.shortBranches = [⟨0⟩, ⟨3⟩]
      ∧ (encode .empty .empty b).1 = .error (.fault (.branchOutOfRange ⟨0⟩ 165))
      ∧ ([⟨3⟩, ⟨0⟩].mapM Sequence.widen).run b.instructions =
        .ok [some ⟨"brtrue", 0x3a, .inlineBrTarget⟩, some ⟨"br", 0x38, .inlineBrTarget⟩] t
      ∧ t.codeSize = b.instructions.codeSize + 6 ∧ t.codeSize < 1 <<< 31
      ∧ encode .empty .empty { b with instructions := t } = (.ok image, strings', b')
      ∧ t.code? ⟨3⟩ = some (opcode, .target ⟨0⟩)
      ∧ image.ReadsAs strings' b' ⟨3⟩ opcode (.target ⟨0⟩) := by
  let steps : List Sequence.Step :=
    [.edit (.emit ⟨"br.s", 0x2b, .shortInlineBrTarget⟩ (.target ⟨2⟩)),
      .edit (.emit ⟨"switch", 0x45, .inlineSwitch⟩ (.switch (List.replicate 40 ⟨0⟩))),
      .edit (.emit ⟨"nop", 0x00, .inlineNone⟩ .none),
      .edit (.emit ⟨"brtrue.s", 0x2d, .shortInlineBrTarget⟩ (.target ⟨0⟩))]
  let b : Body := { method := {}, instructions := (Sequence.empty.runScript steps).2 }
  have hb : b.Reachable := ⟨⟨steps, rfl⟩, ⟨[], rfl⟩⟩
  have hknown : ∀ c ∈ b.instructions.codes, c.1 ∈ Opcode.table := by decide +kernel
  have hshort : b.instructions.shortBranches = [⟨0⟩, ⟨3⟩] := by decide +kernel
  have hfault : (encode .empty .empty b).1 = .error (.fault (.branchOutOfRange ⟨0⟩ 165)) := by
    decide +kernel
  let run := ([⟨3⟩, ⟨0⟩].mapM Sequence.widen).run b.instructions
  let widened : Sequence := match run with
    | .ok _ t => t
    | .error _ t => t
  have hok : (encode .empty .empty { b with instructions := widened }).1.isOk = true := by
    decide +kernel
  have hsmall : widened.codeSize < 1 <<< 31 := by decide +kernel
  obtain ⟨t, hrun, -, -, hsize, hencode⟩ := (encode_widened hb hknown).2 [⟨3⟩, ⟨0⟩]
    (by rw [hshort]; exact List.Perm.swap ..)
  have hforms : [(⟨3⟩ : InstructionId), ⟨0⟩].map b.instructions.longForm? =
      [some ⟨"brtrue", 0x3a, .inlineBrTarget⟩, some ⟨"br", 0x38, .inlineBrTarget⟩] := by
    decide +kernel
  rw [hforms] at hrun
  have ht : widened = t := by simp only [widened, run, hrun]
  rw [ht] at hok hsmall
  obtain ⟨-, hreads⟩ := hencode hsmall .empty .empty
  cases h : encode .empty .empty { b with instructions := t } with
  | mk result left =>
    cases result with
    | error e =>
      rw [h] at hok
      cases hok
    | ok image =>
      obtain ⟨opcode, hcode, hreads⟩ := hreads image left.1 left.2 h ⟨3⟩
        (by decide +kernel) _ rfl
      exact ⟨b, left.2, t, image, left.1, opcode, hb, hknown, hshort, hfault, hrun, hsize, hsmall,
        h, hcode, hreads⟩

end Encode

end CilMethod
