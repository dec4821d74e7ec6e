import CilMethod.CommandLine
import CilMethod.Proofs.FailedEncoding
import CilMethod.Proofs.FreshListing
import CilMethod.Proofs.Layouts

/-!
# The order of removals

An instruction that is taken out keeps the place that the layout before gave it, so listings from
which the same instructions were taken out in another order are not the same: they agree but for
what the instructions outside remember (`SameButStale`). None of it is seen. The encoder lays the
body out and looks at offsets of members only (`encode_sameButLayout`); the printer looks at offsets
of instructions without a label, and what was taken out by its label has one (`Named`,
`print_sameButStale`). What a listing holds in the end is what it held before without the
instructions of the labels, in whatever order these came (`run_removeAll`).
-/

namespace CilMethod

namespace Sequence

variable {s t : Sequence} {id : InstructionId}

namespace SameButLayout

theorem contains_eq (h : s.SameButLayout t) : s.contains = t.contains := by
  have hmember : ∀ (u : Sequence) (id : InstructionId),
      u.contains id = ((u.node? id).map Instruction.unplaced).any (·.isMember) := by
    intro u id
    rw [contains]
    cases u.node? id <;> rfl
  funext id
  rw [hmember, hmember, h.node]

theorem targetsOf_eq (h : s.SameButLayout t) : s.targetsOf = t.targetsOf := by
  have htargets : ∀ (u : Sequence) (id : InstructionId),
      u.targetsOf id = (u.code? id).elim [] (·.2.targets) := by
    intro u id
    rw [targetsOf, code?]
    cases u.node? id <;> rfl
  funext id
  rw [htargets, htargets, h.code?_eq]

theorem danglingTargets_eq (h : s.SameButLayout t) : s.danglingTargets = t.danglingTargets := by
  rw [danglingTargets, danglingTargets, branchList, branchList, h.branches, h.targetsOf_eq,
    h.contains_eq]

theorem codeSize_eq (h : s.SameButLayout t) : s.codeSize = t.codeSize := by
  have hsize : ∀ k, sizeIn s.nodes k = sizeIn t.nodes k := fun k => by
    rw [sizeIn_eq, sizeIn_eq, h.code?_eq]
  rw [Sequence.codeSize_eq, Sequence.codeSize_eq, h.order, List.map_congr_left fun k _ => hsize k]

end SameButLayout

namespace SameButStale

theorem members_eq (h : s.SameButStale t) : s.members = t.members := by
  rw [members, members, ← h.order]
  refine List.filterMap_congr fun id hid => ?_
  rw [h.member id (Array.mem_toList_iff.1 hid)]

theorem offsetOf_eq (h : s.SameButStale t) (hid : id ∈ s.order) :
    s.offsetOf id = t.offsetOf id := by
  rw [offsetOf, offsetOf, h.member id hid]

end SameButStale

section RemoveTarget

/-- A member is found and taken out, and nothing else is. -/
theorem Consistent.run_removeTarget (hs : s.Consistent) (hid : id ∈ s.order) :
    ∃ t, (removeTarget id).run s = .ok () t ∧ t.Consistent ∧ t.suppressed = s.suppressed
      ∧ t.contents = { s.contents with members := s.contents.members.filter (· != id) } := by
  obtain ⟨p, hp⟩ : ∃ p, s.contents.members.idxOf? id = some p :=
    Option.isSome_iff_exists.1 (List.isSome_idxOf?.2 (Array.mem_toList_iff.2 hid))
  have hget : s.get? p = some id := by
    obtain ⟨hlt, heq, -⟩ := List.idxOf?_eq_some_iff.1 hp
    rw [get?_eq_toList]
    exact List.getElem?_eq_some_iff.2 ⟨hlt, heq⟩
  have herase : s.contents.members.eraseIdx p = s.contents.members.filter (· != id) := by
    have hnodup : s.contents.members.Nodup := hs.nodup
    rw [← hnodup.erase_eq_filter, List.erase_eq_eraseIdx, hp]
  have hchange : Change s (s.removed p id) := .remove hget
  refine ⟨s.removed p id, ?_, hs.removed hget, hchange.keeps.suppressed, ?_⟩
  · rw [removeTarget, run_locate_bind, hs.positionOf?_eq, hp]
    dsimp only
    rw [Listing.run_discard, run_remove, hget]
  · rw [contents_removed, herase]

end RemoveTarget

end Sequence

namespace Image

variable {s t : Sequence}

theorem distanceBytes_sameButStale (hs : s.Consistent) (h : s.SameButStale t) :
    distanceBytes s = distanceBytes t := by
  funext branch origin width target
  rw [distanceBytes, distanceBytes, ← h.contains_eq]
  by_cases htarget : s.contains target = true
  · rw [if_pos htarget, if_pos htarget, h.offsetOf_eq (hs.contains_iff.1 htarget)]
  · rw [if_neg htarget, if_neg htarget]

theorem operandBytes_sameButStale (hs : s.Consistent) (h : s.SameButStale t)
    (strings : UserStrings) : operandBytes strings s = operandBytes strings t := by
  funext locals id i
  simp only [operandBytes, distanceBytes_sameButStale hs h]

theorem writeMembers_sameButStale (hs : s.Consistent) (h : s.SameButStale t) (locals : Locals) :
    ∀ (members : List (InstructionId × Instruction)) (strings : UserStrings) (code : Array UInt8),
    writeMembers s locals members strings code = writeMembers t locals members strings code
  | [], _, _ => rfl
  | (id, i) :: members, strings, code => by
    rw [writeMembers, writeMembers, operandBytes_sameButStale hs h]
    split
    · exact writeMembers_sameButStale hs h locals members _ _
    · rfl

theorem boundaryOffset_sameButStale (hs : s.Consistent) (h : s.SameButStale t) :
    boundaryOffset s = boundaryOffset t := by
  funext codeSize boundary
  cases boundary with
  | none => rfl
  | some id =>
    rw [boundaryOffset, boundaryOffset, ← h.contains_eq]
    by_cases hid : s.contains id = true
    · rw [if_pos hid, if_pos hid, h.offsetOf_eq (hs.contains_iff.1 hid)]
    · rw [if_neg hid, if_neg hid]

theorem handlerTable_sameButStale (hs : s.Consistent) (h : s.SameButStale t) (g : TypeGraph)
    (codeSize : Nat) (handlers : List Handler) :
    handlerTable g s codeSize handlers = handlerTable g t codeSize handlers := by
  have hclause : clauseBytes g s codeSize = clauseBytes g t codeSize := by
    funext handler
    simp only [clauseBytes, clauseWords, boundaryOffset_sameButStale hs h]
  rw [handlerTable, handlerTable, hclause]

/-- An encoding starts with a layout, so it sees nothing of the one before. -/
theorem encode_sameButLayout {b : Body} (hb : b.instructions.Consistent)
    (h : b.instructions.SameButLayout t) (hsuppressed : b.instructions.suppressed = false)
    (g : TypeGraph) (strings : UserStrings) :
    (encode g strings b).1 = (encode g strings { b with instructions := t }).1
      ∧ (encode g strings b).2.1 = (encode g strings { b with instructions := t }).2.1 := by
  have hlaid := h.laidOut hb.nodup
  have hwrite := writeMembers_sameButStale hb.laidOut hlaid b.locals b.instructions.laidOut.members
    strings #[]
  have hsuppressed' : ({ b with instructions := t } : Body).instructions.suppressed = false :=
    h.suppressed ▸ hsuppressed
  rw [encode, encode, computeOffsets_eq hsuppressed, computeOffsets_eq hsuppressed']
  dsimp only
  rw [← h.codeSize_eq, ← hlaid.members_eq, ← hwrite]
  split_ifs
  · exact ⟨rfl, rfl⟩
  · split
    · refine ⟨?_, rfl⟩
      simp only [finish, handlerTable_sameButStale hb.laidOut hlaid]
    · exact ⟨rfl, rfl⟩

end Image

namespace Listing

/-- The listing with other instructions in its body. -/
def withInstructions (l : Listing) (t : Sequence) : Listing :=
  { l with body := { l.body with instructions := t } }

/-- The same listings, but for where the last layout put instructions that are not members. -/
def SameButStale (l m : Listing) : Prop :=
  ∃ t, l.body.instructions.SameButStale t ∧ m = l.withInstructions t

/-- Every instruction that is not a member has a label. -/
def Named (l : Listing) : Prop :=
  ∀ {id : InstructionId} {i : Instruction}, l.body.instructions.node? id = some i →
    id ∉ l.body.instructions.order → ∃ name, l.labelOf? id = some name

section Print

variable {l : Listing} {t : Sequence}

theorem nameOf_sameButStale (hnamed : l.Named) (h : l.body.instructions.SameButStale t) :
    (l.withInstructions t).nameOf = l.nameOf := by
  funext id
  have hlabel : (l.withInstructions t).labelOf? id = l.labelOf? id := rfl
  have hcontains : (l.withInstructions t).body.instructions.contains id =
      l.body.instructions.contains id := congrFun h.contains_eq.symm id
  rw [nameOf, nameOf, hlabel, hcontains]
  cases hname : l.labelOf? id with
  | some name => rfl
  | none =>
    -- without a label, it is a member or not there at all
    have hnode : (l.withInstructions t).body.instructions.node? id =
        l.body.instructions.node? id := by
      by_cases hid : id ∈ l.body.instructions.order
      · exact (h.member id hid).symm
      · have hnone : l.body.instructions.node? id = none := by
          refine Option.eq_none_iff_forall_ne_some.2 fun i hi => ?_
          obtain ⟨name, hname'⟩ := hnamed hi hid
          rw [hname] at hname'
          cases hname'
        have hrest := h.node id
        rw [hnone, eq_comm, Option.map_none, Option.map_eq_none_iff] at hrest
        exact hrest.trans hnone.symm
    rw [hnode]

theorem operandText_sameButStale (hnamed : l.Named) (h : l.body.instructions.SameButStale t)
    (operand : Operand) : (l.withInstructions t).operandText operand = l.operandText operand := by
  cases operand with
  | target id => simp only [operandText, nameOf_sameButStale hnamed h]
  | switch ids => simp only [operandText, nameOf_sameButStale hnamed h]
  | _ => rfl

theorem codeLine_sameButStale (hnamed : l.Named) (h : l.body.instructions.SameButStale t)
    (id : InstructionId) (i : Instruction) :
    (l.withInstructions t).codeLine id i = l.codeLine id i := by
  rw [codeLine, codeLine, codeText, codeText, operandText_sameButStale hnamed h]
  rfl

theorem handlerLine_sameButStale (hnamed : l.Named) (h : l.body.instructions.SameButStale t)
    (g : TypeGraph) : handlerLine g (l.withInstructions t) = handlerLine g l := by
  funext handler
  have hname := nameOf_sameButStale hnamed h
  have hend : (l.withInstructions t).endName = l.endName := by
    funext boundary
    cases boundary with
    | none => rfl
    | some id => rw [endName, endName, hname]
  have hkind : (l.withInstructions t).kindArgument g handler.kind =
      l.kindArgument g handler.kind := by
    cases handler.kind with
    | filterFrom start => rw [kindArgument, kindArgument, hname]
    | _ => rfl
  unfold handlerLine
  rw [hname, hend, hkind]

theorem danglingBoundaries_sameButStale (h : l.body.instructions.SameButStale t) :
    (l.withInstructions t).body.danglingBoundaries = l.body.danglingBoundaries := by
  simp only [Body.danglingBoundaries, Handler.danglingBoundaries, withInstructions, h.contains_eq]

theorem noteLines_sameButStale (hnamed : l.Named) (h : l.body.instructions.SameButStale t) :
    (l.withInstructions t).noteLines = l.noteLines := by
  have hbranches : (l.withInstructions t).body.instructions.branchList =
      l.body.instructions.branchList := by
    rw [Sequence.branchList, Sequence.branchList, h.branches]
    rfl
  have hdangling : (l.withInstructions t).body.instructions.danglingTargets =
      l.body.instructions.danglingTargets := h.danglingTargets_eq.symm
  rw [noteLines, noteLines, nameOf_sameButStale hnamed h, hbranches, hdangling,
    danglingBoundaries_sameButStale h]

/-- What instructions outside remember of former layouts is not printed. -/
theorem print_sameButStale (hnamed : l.Named) (h : l.body.instructions.SameButStale t)
    (g : TypeGraph) : (l.withInstructions t).print g = l.print g := by
  have hmembers : (l.withInstructions t).body.instructions.members = l.body.instructions.members :=
    h.members_eq.symm
  have hheader : (l.withInstructions t).headerLines g = l.headerLines g := rfl
  have hhandlers : (l.withInstructions t).body.handlers = l.body.handlers := rfl
  rw [print, print, printLines, printLines, hheader, hhandlers, hmembers,
    handlerLine_sameButStale hnamed h, noteLines_sameButStale hnamed h]
  simp only [codeLine_sameButStale hnamed h]

end Print

section Remove

variable {l m : Listing} {name : String} {id : InstructionId} {gone : List InstructionId}

theorem run_remove_unknown (h : l.label? name = none) :
    (remove name).run l = .error (.unknownLabel name) l := by
  simp only [remove, EStateM.run_bind, EStateM.run_get, h]
  rfl

theorem run_remove_of_error {e : Error} (hname : l.label? name = some id)
    (h : (Sequence.removeTarget id).run l.body.instructions = .error e l.body.instructions) :
    (remove name).run l = .error (.body e) l := by
  have hedit : (editInstructions (Sequence.removeTarget id)).run l = .error (.body e) l := by
    rw [EStateM.run, editInstructions, h]
  simp only [remove, EStateM.run_bind, EStateM.run_get, hname, hedit]

theorem run_remove_of_ok {t : Sequence} (hname : l.label? name = some id)
    (h : (Sequence.removeTarget id).run l.body.instructions = .ok () t) :
    (remove name).run l =
      .ok id { l with body := (l.withInstructions t).body.computeOffsets.2 } := by
  have hedit : (editInstructions (Sequence.removeTarget id)).run l =
      .ok () (l.withInstructions t) := by
    rw [EStateM.run, editInstructions, h]
    rfl
  simp only [remove, EStateM.run_bind, EStateM.run_get, hname, hedit]
  rfl

/-- `m` is `l` without the instructions `gone`, laid out. -/
structure Without (l : Listing) (gone : List InstructionId) (m : Listing) : Prop where
  frame : m = { l with body :=
    { l.body with
      instructions := m.body.instructions
      codeSize := m.body.instructions.codeSize } }
  contents : m.body.instructions.contents =
    { l.body.instructions.contents with
      members := l.body.instructions.contents.members.filter (· ∉ gone) }
  laidOut : ∃ s : Sequence, s.Consistent ∧ s.suppressed = false ∧ m.body.instructions = s.laidOut

namespace Without

theorem consistent (h : l.Without gone m) : m.body.instructions.Consistent := by
  obtain ⟨s, hs, -, heq⟩ := h.laidOut
  rw [heq]
  exact hs.laidOut

theorem suppressed (h : l.Without gone m) : m.body.instructions.suppressed = false := by
  obtain ⟨s, -, hs, heq⟩ := h.laidOut
  rw [heq]
  exact hs

theorem label?_eq (h : l.Without gone m) (name : String) : m.label? name = l.label? name := by
  rw [h.frame]
  rfl

theorem labelOf?_eq (h : l.Without gone m) (id : InstructionId) :
    m.labelOf? id = l.labelOf? id := by
  rw [h.frame]
  rfl

theorem mem_order_iff (h : l.Without gone m) :
    id ∈ m.body.instructions.order ↔ id ∈ l.body.instructions.order ∧ id ∉ gone := by
  have hmem : id ∈ m.body.instructions.contents.members ↔
      id ∈ l.body.instructions.contents.members ∧ id ∉ gone := by
    rw [h.contents]
    simp
  simpa only [Sequence.contents, Array.mem_toList_iff] using hmem

/-- Which instructions are gone decides, and not in which order they are listed. -/
theorem sameButStale {gone' : List InstructionId} {m' : Listing} (h : l.Without gone m)
    (h' : l.Without gone' m') (hgone : ∀ id, id ∈ gone ↔ id ∈ gone') : m.SameButStale m' := by
  have hcontents : m.body.instructions.contents = m'.body.instructions.contents := by
    rw [h.contents, h'.contents]
    simp only [hgone]
  have hstale : m.body.instructions.SameButStale m'.body.instructions := by
    obtain ⟨s, hs, hsuppressed, heq⟩ := h.laidOut
    obtain ⟨s', hs', hsuppressed', heq'⟩ := h'.laidOut
    rw [heq, heq', Sequence.contents_laidOut hs.nodup, Sequence.contents_laidOut hs'.nodup]
      at hcontents
    rw [heq, heq']
    exact (hs.sameButLayout hs' hcontents (hsuppressed.trans hsuppressed'.symm)).laidOut hs.nodup
  refine ⟨_, hstale, ?_⟩
  rw [h'.frame, h.frame, withInstructions]
  dsimp only
  rw [hstale.codeSize_eq]

/-- One more instruction is taken out. -/
theorem run_remove (h : l.Without gone m) (hname : l.label? name = some id)
    (hid : id ∈ l.body.instructions.order) (hnot : id ∉ gone) :
    ∃ m', (remove name).run m = .ok id m' ∧ l.Without (gone ++ [id]) m' := by
  obtain ⟨t, hrun, ht, hsuppressed, hcontents⟩ :=
    h.consistent.run_removeTarget (h.mem_order_iff.2 ⟨hid, hnot⟩)
  rw [h.suppressed] at hsuppressed
  have hlaid := Image.computeOffsets_eq (b := (m.withInstructions t).body) hsuppressed
  refine ⟨_, run_remove_of_ok ((h.label?_eq name).trans hname) hrun, ?_, ?_, ?_⟩
  · rw [hlaid]
    dsimp only
    rw [withInstructions, ht.codeSize_laidOut, h.frame]
  · rw [hlaid]
    dsimp only
    rw [withInstructions, Sequence.contents_laidOut ht.nodup, hcontents, h.contents]
    simp only [List.filter_filter]
    congr 1
    refine List.filter_congr fun k _ => ?_
    rw [Bool.eq_iff_iff]
    simp [not_or, and_comm]
  · rw [hlaid]
    exact ⟨t, ht, hsuppressed, rfl⟩

/-- What was taken out cannot be taken out again. -/
theorem run_remove_again (h : l.Without gone m) (hname : l.label? name = some id)
    (hid : id ∈ gone) : (remove name).run m = .error (.body (.notMember id)) m := by
  refine run_remove_of_error ((h.label?_eq name).trans hname) ?_
  exact h.consistent.run_locate_of_notMem fun hmem => (h.mem_order_iff.1 hmem).2 hid

theorem run_removeAll : ∀ {names : List String} {gone : List InstructionId} {m : Listing},
    l.Without gone m → names.Nodup →
    (∀ name ∈ names, ∃ id, l.label? name = some id ∧ id ∈ l.body.instructions.order ∧ id ∉ gone) →
    (∀ {a b : String} {id : InstructionId}, l.label? a = some id → l.label? b = some id → a = b) →
    ∃ m', (CommandLine.removeAll names).run m = .ok () m'
      ∧ l.Without (gone ++ names.filterMap l.label?) m'
  | [], gone, m, h, _, _, _ => ⟨m, rfl, by simpa using h⟩
  | name :: names, gone, m, h, hnodup, hknown, hinj => by
    obtain ⟨hnot, hnodup⟩ := List.nodup_cons.1 hnodup
    obtain ⟨id, hname, hid, hgone⟩ := hknown name List.mem_cons_self
    obtain ⟨m₁, hrun, h₁⟩ := h.run_remove hname hid hgone
    have hknown' : ∀ other ∈ names, ∃ k, l.label? other = some k
        ∧ k ∈ l.body.instructions.order ∧ k ∉ gone ++ [id] := by
      intro other hother
      obtain ⟨k, hk, hmem, hkgone⟩ := hknown other (List.mem_cons_of_mem name hother)
      refine ⟨k, hk, hmem, fun hin => ?_⟩
      rcases List.mem_append.1 hin with hin | hin
      · exact hkgone hin
      · obtain rfl := List.mem_singleton.1 hin
        exact hnot (hinj hname hk ▸ hother)
    obtain ⟨m₂, hrun₂, h₂⟩ := run_removeAll h₁ hnodup hknown' hinj
    refine ⟨m₂, ?_, ?_⟩
    · rw [CommandLine.removeAll, EStateM.run_bind, run_discard, hrun]
      exact hrun₂
    · rw [List.filterMap_cons_some hname]
      simpa using h₂

end Without

end Remove

section Read

variable {source : String} {method : MethodDef} {g g' : TypeGraph} {l m : Listing}
  {names : List String} {gone : List InstructionId}

theorem Phases.without_nil (p : Phases source g) (method : MethodDef) :
    (p.listing method).Without [] (p.listing method) := by
  have hs := p.endLoad_reachable.consistent
  have hbody := p.body_listing method
  refine ⟨?_, ?_, p.loaded.endLoad, hs, by rw [p.endLoad_eq]; rfl, by rw [hbody]⟩
  · have hsize : (p.listing method).body.codeSize =
        (p.listing method).body.instructions.codeSize := by
      rw [hbody, hs.codeSize_laidOut]
    rw [← hsize]
  · simp

theorem Fresh.label?_inj {lines : List (Numbered CodeLine)} (h : l.Fresh lines) {a b : String}
    {id : InstructionId} (ha : l.label? a = some id) (hb : l.label? b = some id) : a = b := by
  rw [← h.labelOf?_iff] at ha hb
  exact Option.some.inj (ha.symm.trans hb)

theorem Fresh.mem_order {lines : List (Numbered CodeLine)} (h : l.Fresh lines) {id : InstructionId}
    (hid : id.index < lines.length) : id ∈ l.body.instructions.order := by
  rw [← Array.mem_toList_iff, h.order_eq, List.mem_map]
  exact ⟨id.index, List.mem_range.2 hid, rfl⟩

/-- All instructions of a source are members, so what is not one was taken out by its label. -/
theorem Without.named {lines : List (Numbered CodeLine)} (h : l.Without gone m)
    (hl : l.Fresh lines) (hgone : ∀ id ∈ gone, ∃ name, l.label? name = some id) : m.Named := by
  intro id i hi hid
  have hsize : m.body.instructions.nodes.size = lines.length := by
    have harena := congrArg (·.arena.length) h.contents
    simpa [Sequence.contents, hl.size_eq] using harena
  have hlt : id.index < lines.length := by
    rw [← hsize]
    exact (Array.getElem?_eq_some_iff.1 hi).1
  have hmem : id ∈ gone := by
    by_contra hnot
    exact hid (h.mem_order_iff.2 ⟨hl.mem_order hlt, hnot⟩)
  obtain ⟨name, hname⟩ := hgone id hmem
  exact ⟨name, (h.labelOf?_eq id).trans (hl.labelOf?_iff.2 hname)⟩

/-- Nothing that is printed, encoded or looked up tells two listings apart. -/
structure SameOutput (l m : Listing) : Prop where
  print : ∀ g, l.print g = m.print g
  encode : ∀ g strings, (Image.encode g strings l.body).1 = (Image.encode g strings m.body).1
  strings : ∀ g strings, (Image.encode g strings l.body).2.1 = (Image.encode g strings m.body).2.1
  order : l.body.instructions.order = m.body.instructions.order
  branchList : l.body.instructions.branchList = m.body.instructions.branchList
  danglingTargets : l.body.instructions.danglingTargets = m.body.instructions.danglingTargets
  danglingBoundaries : l.body.danglingBoundaries = m.body.danglingBoundaries
  codeSize : l.body.codeSize = m.body.codeSize

theorem SameButStale.sameOutput (h : l.SameButStale m) (hnamed : l.Named)
    (hs : l.body.instructions.Consistent) (hsuppressed : l.body.instructions.suppressed = false) :
    l.SameOutput m := by
  obtain ⟨t, hstale, rfl⟩ := h
  have hencode := Image.encode_sameButLayout hs hstale.toSameButLayout hsuppressed
  exact ⟨fun g => (print_sameButStale hnamed hstale g).symm, fun g strings => (hencode g strings).1,
    fun g strings => (hencode g strings).2, hstale.order,
    congrArg Std.ExtTreeSet.toList hstale.branches, hstale.danglingTargets_eq,
    (danglingBoundaries_sameButStale hstale).symm, rfl⟩

/-- Instructions can be taken out by their labels in any order: whatever can be seen of the listing
is the same in the end, and only what the instructions outside remember of former layouts may
differ. A label is good for one removal. -/
theorem removeAll_perm (h : read source method g = (.ok l, g')) (hnodup : names.Nodup)
    (hknown : ∀ name ∈ names, (l.label? name).isSome = true) :
    ∃ m, (CommandLine.removeAll names).run l = .ok () m
      ∧ m.body.instructions.order.toList =
        l.body.instructions.order.toList.filter (· ∉ names.filterMap l.label?)
      ∧ (∀ names', names.Perm names' → ∃ m',
        (CommandLine.removeAll names').run l = .ok () m' ∧ m.SameOutput m' ∧ m.SameButStale m')
      ∧ (∀ name ∈ names, ∃ id, l.label? name = some id
        ∧ (remove name).run m = .error (.body (.notMember id)) m)
      ∧ ∀ name, l.label? name = none → (remove name).run m = .error (.unknownLabel name) m := by
  obtain ⟨p, rfl, rfl⟩ := read_eq_ok_iff.1 h
  have hfresh := p.fresh_listing method
  have hstart := p.without_nil method
  have hrun : ∀ names' : List String, names'.Nodup →
      (∀ name ∈ names', ((p.listing method).label? name).isSome = true) →
      ∃ m', (CommandLine.removeAll names').run (p.listing method) = .ok () m'
        ∧ (p.listing method).Without (names'.filterMap (p.listing method).label?) m' := by
    intro names' hnodup' hknown'
    refine hstart.run_removeAll hnodup' (fun name hname => ?_) hfresh.label?_inj
    obtain ⟨id, hid⟩ := Option.isSome_iff_exists.1 (hknown' name hname)
    exact ⟨id, hid, p.mem_order_of_findLabel? method hid, List.not_mem_nil⟩
  obtain ⟨m, hm, hwithout⟩ := hrun names hnodup hknown
  have hnamed : m.Named := hwithout.named hfresh fun id hid => by
    obtain ⟨name, -, hname⟩ := List.mem_filterMap.1 hid
    exact ⟨name, hname⟩
  refine ⟨m, hm, congrArg Contents.members hwithout.contents, ?_, ?_, ?_⟩
  · intro names' hperm
    obtain ⟨m', hm', hwithout'⟩ := hrun names' (hperm.nodup_iff.1 hnodup) fun name hname =>
      hknown name (hperm.mem_iff.2 hname)
    have hstale := hwithout.sameButStale hwithout' fun id => (hperm.filterMap _).mem_iff
    exact ⟨m', hm', hstale.sameOutput hnamed hwithout.consistent hwithout.suppressed, hstale⟩
  · intro name hname
    obtain ⟨id, hid⟩ := Option.isSome_iff_exists.1 (hknown name hname)
    exact ⟨id, hid, hwithout.run_remove_again hid (List.mem_filterMap.2 ⟨name, hname, hid⟩)⟩
  · intro name hname
    exact run_remove_unknown ((hwithout.label?_eq name).trans hname)

theorem eq_of_run {β : Type} {x : EStateM ListingError Listing Unit} {f : Listing → β} {b : β}
    (hrun : x.run l = .ok () m) (h : (x *> f <$> get).run' l = some b) : f m = b := by
  have hget : (x *> f <$> get).run l = .ok (f m) m := by
    rw [seqRight_eq_bind, EStateM.run_bind, hrun]
    rfl
  delta EStateM.run' at h
  rw [hget] at h
  exact Option.some.inj h

/-- Two instructions are taken out in both orders, one of them the target of a branch. The one
behind the other is moved up before it goes, or it is not. -/
theorem removeAll_perm_two :
    ∃ source l g' m m', read source {} .empty = (.ok l, g')
      ∧ (CommandLine.removeAll ["first", "last"]).run l = .ok () m
      ∧ (CommandLine.removeAll ["last", "first"]).run l = .ok () m'
      ∧ m.SameOutput m' ∧ m.body.instructions.danglingTargets = [(⟨1⟩, ⟨3⟩)]
      ∧ m.body.instructions.spot? ⟨3⟩ = some (2, 3) ∧ m'.body.instructions.spot? ⟨3⟩ = some (3, 4)
      ∧ (remove "last").run m = .error (.body (.notMember ⟨3⟩)) m
      ∧ (remove "none").run m = .error (.unknownLabel "none") m := by
  have hlisting : ∃ l g', read "first: nop\nbr.s last\nnop\nlast: ret" {} .empty = (.ok l, g')
      ∧ (["first", "last"].all (fun name => (l.label? name).isSome)
        && l.label? "last" == some ⟨3⟩ && l.label? "none" == none
        && (CommandLine.removeAll ["first", "last"] *>
          (·.body.instructions.danglingTargets) <$> get).run' l == some [(⟨1⟩, ⟨3⟩)]
        && (CommandLine.removeAll ["first", "last"] *>
          (·.body.instructions.spot? ⟨3⟩) <$> get).run' l == some (some (2, 3))
        && (CommandLine.removeAll ["last", "first"] *>
          (·.body.instructions.spot? ⟨3⟩) <$> get).run' l == some (some (3, 4))) = true :=
    exists_read (by decide +kernel)
  obtain ⟨l, g', hread, htest⟩ := hlisting
  simp only [Bool.and_eq_true, beq_iff_eq, List.all_eq_true] at htest
  obtain ⟨⟨⟨⟨⟨hknown, hlast⟩, hnone⟩, hdangling⟩, hspot⟩, hspot'⟩ := htest
  obtain ⟨m, hm, -, hperm, hagain, hunknown⟩ := removeAll_perm hread (by decide) hknown
  obtain ⟨m', hm', hsame, -⟩ := hperm ["last", "first"] (.swap ..)
  obtain ⟨id, hid, hagain⟩ := hagain "last" (.tail _ (.head _))
  obtain rfl : ⟨3⟩ = id := Option.some.inj (hlast.symm.trans hid)
  exact ⟨_, l, g', m, m', hread, hm, hm', hsame, eq_of_run hm hdangling, eq_of_run hm hspot,
    eq_of_run hm' hspot', hagain, hunknown "none" hnone⟩

end Read

end Listing

end CilMethod
