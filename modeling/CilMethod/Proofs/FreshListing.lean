import CilMethod.Proofs.Faults
import CilMethod.Proofs.Phases

/-!
# A listing that was just read

Every name in a source is looked up among the labels of its lines or among its variables, and what
is not found there is a fault. So a listing that was read names nothing outside itself
(`Body.Closed`): the members are the instructions of the lines, one for each and in their order, and
all targets, boundaries and variables are among the members. It is laid out, too (`Fresh`). What is
left to go wrong when it is encoded is a number or a distance that its operand cannot hold
(`Body.Closed.outOfRange_of_fault?`).
-/

namespace CilMethod

/-- Whatever a body names is one of its members. -/
structure Body.Closed (b : Body) : Prop where
  targets : ∀ {id : InstructionId} {i : Instruction}, b.instructions.node? id = some i →
    ∀ target ∈ i.operand.targets, target ∈ b.instructions.order
  localVar : ∀ {id : InstructionId} {i : Instruction} {v : VariableId},
    b.instructions.node? id = some i → i.operand = .localVar v → v ∈ b.locals.order
  boundaries : ∀ h ∈ b.handlers, ∀ x ∈ h.boundaries, x.2 ∈ b.instructions.order

namespace Body.Closed

variable {b : Body}

theorem danglingTargets_eq (hb : b.Closed) (hs : b.instructions.Consistent) :
    b.instructions.danglingTargets = [] := by
  refine List.eq_nil_iff_forall_not_mem.2 ?_
  rintro ⟨branch, target⟩ hmem
  obtain ⟨hbranch, htarget, hno⟩ := hs.mem_danglingTargets.1 hmem
  obtain ⟨i, hi⟩ := hs.exists_node hbranch
  rw [Sequence.targetsOf, hi] at htarget
  exact hno (hb.targets hi target htarget)

theorem danglingBoundaries_eq (hb : b.Closed) (hs : b.instructions.Consistent) :
    b.danglingBoundaries = [] := by
  refine List.eq_nil_iff_forall_not_mem.2 ?_
  rintro ⟨position, boundary, id⟩ hmem
  obtain ⟨h, hh, hboundary, hno⟩ := (mem_danglingBoundaries hs).1 hmem
  exact hno (hb.boundaries h (Array.mem_toList_iff.1 (List.mem_of_getElem? hh)) _ hboundary)

/-- Where all names are members, an operand can only be too small for a number or a distance. -/
theorem outOfRange_of_operandFault? {id : InstructionId} {opcode : Opcode} {operand : Operand}
    {e : Error} (htargets : ∀ target ∈ operand.targets, target ∈ b.instructions.order)
    (hvar : ∀ v, operand = .localVar v → v ∈ b.locals.order)
    (h : b.operandFault? id opcode operand = some e) :
    (∃ distance, e = .branchOutOfRange id distance) ∨ e = .operandOutOfRange id := by
  rcases operandFault?_cases h with ⟨v, hv, hno, -⟩ | he | ⟨target, hmem, hno, -⟩ | ⟨-, hbranch⟩
  · exact absurd (hvar v hv) hno
  · exact .inr he
  · exact absurd (htargets target hmem) hno
  · exact .inl hbranch

theorem outOfRange_of_fault? (hb : b.Closed) (hsuppressed : b.instructions.suppressed = false)
    {e : Error} (h : b.fault? = some e) :
    (∃ id distance, e = .branchOutOfRange id distance) ∨ ∃ id, e = .operandOutOfRange id := by
  rw [fault?, hsuppressed, if_neg Bool.false_ne_true] at h
  rcases Option.or_eq_some_iff.1 h with hfault | ⟨-, hfault⟩
  · obtain ⟨id, -, hfault⟩ := List.exists_of_findSome?_eq_some hfault
    obtain ⟨c, hc, hfault⟩ := Option.bind_eq_some_iff.1 hfault
    obtain ⟨i, hi, rfl⟩ := Option.map_eq_some_iff.1 hc
    rcases outOfRange_of_operandFault? (hb.targets hi) (fun v => hb.localVar hi) hfault with
      ⟨distance, rfl⟩ | rfl
    · exact .inl ⟨id, distance, rfl⟩
    · exact .inr ⟨id, rfl⟩
  · obtain ⟨handler, hhandler, hfault⟩ := List.exists_of_findSome?_eq_some hfault
    have hmembers : ∀ id ∈ handler.clauseBoundaries, id ∈ b.instructions.order := fun id hid => by
      obtain ⟨boundary, hboundary⟩ := Handler.mem_clauseBoundaries.1 hid
      exact hb.boundaries handler (Array.mem_toList_iff.1 hhandler) _ hboundary
    rw [handlerFault?, Sequence.missing?_eq_none_iff.2 hmembers] at hfault
    cases hfault

end Body.Closed

namespace Listing

/-- A listing as reading made it of instruction lines. -/
structure Fresh (lines : List (Numbered CodeLine)) (l : Listing) : Prop where
  /-- The handles count the lines, and there are no other instructions. -/
  order_eq : l.body.instructions.order.toList = (List.range lines.length).map InstructionId.mk
  size_eq : l.body.instructions.nodes.size = lines.length
  line : ∀ {n : Nat} {code : Numbered CodeLine}, lines[n]? = some code →
    ∃ i, l.body.instructions.node? ⟨n⟩ = some i
      ∧ readCode l.labels l.body.locals code = .ok (i.opcode, i.operand)
  nodup_labels : (l.labels.map Prod.fst).Nodup
  /-- A label names the instruction of its own line. -/
  label?_iff : ∀ {name : String} {id : InstructionId}, l.label? name = some id ↔
    ∃ code, lines[id.index]? = some code ∧ code.item.label = some name
  labelOf?_iff : ∀ {name : String} {id : InstructionId},
    l.labelOf? id = some name ↔ l.label? name = some id
  closed : l.body.Closed
  attached : ∀ {id : InstructionId} {i : Instruction} {v : VariableId},
    l.body.instructions.node? id = some i → i.operand = .localVar v →
    l.body.locals.contains v = true
  danglingTargets_eq : l.body.instructions.danglingTargets = []
  danglingBoundaries_eq : l.body.danglingBoundaries = []
  suppressed_eq : l.body.instructions.suppressed = false
  placed : ∀ {position : Nat} {id : InstructionId} {i : Instruction},
    l.body.instructions.get? position = some id → l.body.instructions.node? id = some i →
    i.index = position
      ∧ i.offset = Offset.total ((l.body.instructions.members.map (·.2.size)).take position)
  codeSize_eq : l.body.codeSize = Offset.total (l.body.instructions.members.map (·.2.size))

namespace Phases

variable {source : String} {g : TypeGraph} (p : Phases source g) (method : MethodDef)

theorem length_code : p.code.length = (codeLines p.lines).length := p.readCodes.length_eq.symm

theorem contents_loaded :
    p.loaded.contents = ⟨(List.range p.code.length).map InstructionId.mk, p.code⟩ :=
  contents_emitted p.emit

theorem nodup_loaded : p.loaded.order.toList.Nodup := by
  have horder : p.loaded.order.toList = (List.range p.code.length).map InstructionId.mk :=
    congrArg Contents.members p.contents_loaded
  rw [horder]
  exact List.nodup_range.map fun a b h => InstructionId.mk.inj h

theorem endLoad_eq : p.loaded.endLoad = (p.loaded.setSuppressed false).laidOut := by
  rw [Sequence.endLoad, Sequence.recompute_eq _ rfl]

theorem endLoad_reachable : p.loaded.endLoad.Reachable := by
  refine ⟨[.load (emits p.code)], ?_⟩
  change ((Sequence.empty.beginLoad.runScript (emits p.code)).2).endLoad = _
  rw [runScript_emits p.emit]

/-- The body of the listing, laid out. -/
theorem body_listing : (p.listing method).body =
    { method, instructions := p.loaded.endLoad.laidOut, codeSize := p.loaded.endLoad.codeSize,
      locals := p.locals, handlers := p.handlers.toArray } := by
  have hsuppressed : p.loaded.endLoad.suppressed = false := by
    rw [endLoad_eq]
    rfl
  rw [listing, Body.computeOffsets]
  dsimp only
  rw [Sequence.recompute_eq _ hsuppressed]

theorem reachable_listing : (p.listing method).body.Reachable := by
  rw [body_listing]
  refine ⟨?_, reachable_of_declareAll ⟨[], rfl⟩ p.declare⟩
  refine ⟨[.load (emits p.code), .recompute], ?_⟩
  change ((Sequence.empty.beginLoad.runScript (emits p.code)).2).endLoad.recompute.2 = _
  rw [runScript_emits p.emit, Sequence.recompute_eq _ (by rw [endLoad_eq]; rfl)]

theorem contents_listing : (p.listing method).body.instructions.contents =
    ⟨(List.range (codeLines p.lines).length).map InstructionId.mk, p.code⟩ := by
  rw [body_listing, Sequence.contents_laidOut p.endLoad_reachable.consistent.nodup, endLoad_eq,
    Sequence.contents_laidOut (s := p.loaded.setSuppressed false) p.nodup_loaded, ← length_code]
  exact p.contents_loaded

theorem order_listing : (p.listing method).body.instructions.order.toList =
    (List.range (codeLines p.lines).length).map InstructionId.mk :=
  congrArg Contents.members (p.contents_listing method)

theorem mem_order_listing {id : InstructionId} :
    id ∈ (p.listing method).body.instructions.order ↔ id.index < (codeLines p.lines).length := by
  rw [← Array.mem_toList_iff, order_listing, List.mem_map]
  constructor
  · rintro ⟨n, hn, rfl⟩
    exact List.mem_range.1 hn
  · intro h
    exact ⟨id.index, List.mem_range.2 h, rfl⟩

theorem code?_listing (id : InstructionId) :
    (p.listing method).body.instructions.code? id = p.code[id.index]? := by
  rw [← Sequence.getElem?_arena _ id.index, contents_listing]

theorem codes_listing : (p.listing method).body.instructions.codes = p.code := by
  have hs := (p.reachable_listing method).instructions.consistent
  refine List.ext_getElem? fun n => ?_
  rw [hs.getElem?_codes, Sequence.get?_eq_toList, order_listing, List.getElem?_map, ← length_code]
  by_cases hn : n < p.code.length
  · rw [List.getElem?_range hn]
    exact p.code?_listing method ⟨n⟩
  · rw [List.getElem?_eq_none (by simpa using hn), List.getElem?_eq_none (Nat.le_of_not_lt hn)]
    rfl

theorem mem_order_of_findLabel? {name : String} {id : InstructionId}
    (h : findLabel? p.labels name = some id) :
    id ∈ (p.listing method).body.instructions.order :=
  (p.mem_order_listing method).2 (p.labelled.index_lt h)

theorem readCode_of_node? {id : InstructionId} {i : Instruction}
    (h : (p.listing method).body.instructions.node? id = some i) :
    ∃ line, (codeLines p.lines)[id.index]? = some line
      ∧ readCode p.labels p.locals line = .ok (i.opcode, i.operand) := by
  have hcode : p.code[id.index]? = some (i.opcode, i.operand) := by
    rw [← code?_listing p method, Sequence.code?, h]
    rfl
  exact exists_of_forall₂ p.readCodes.flip hcode

theorem resolved_of_node? {id : InstructionId} {i : Instruction}
    (h : (p.listing method).body.instructions.node? id = some i) :
    Resolved p.labels p.locals i.operand := by
  obtain ⟨line, -, hline⟩ := p.readCode_of_node? method h
  exact resolved_of_readOperand (readCode_eq_ok_iff.1 hline).2

theorem label?_listing {name : String} {id : InstructionId} :
    (p.listing method).label? name = some id ↔ (name, id) ∈ p.labels :=
  p.labelled.findLabel?_eq_some_iff

theorem labelOf?_listing {name : String} {id : InstructionId} :
    (p.listing method).labelOf? id = some name ↔ (name, id) ∈ p.labels :=
  p.labelled.map_fst_find?_eq_some_iff

end Phases

theorem boundaries_of_readHandlers {labels : Labels} : ∀ {tries : List TryLine} {g g' : TypeGraph}
    {handlers : List Handler}, readHandlers labels g tries = (.ok handlers, g') →
    ∀ h ∈ handlers, ∀ id ∈ h.clauseBoundaries, ∃ name, findLabel? labels name = some id
  | [], g, g', handlers, h => by
    cases h
    simp
  | parts :: rest, g, g', handlers, h => by
    obtain ⟨kind, g₁, first, hs, hkind, hregions, hrest, rfl⟩ := readHandlers_cons_iff.1 h
    obtain ⟨rfl, htry, htryEnd, hhandler, hhandlerEnd⟩ := readRegions_eq_ok_iff.1 hregions
    intro k hk id hid
    rcases List.mem_cons.1 hk with rfl | hk
    · simp only [Handler.clauseBoundaries, List.mem_cons, List.mem_append, Option.mem_toList] at hid
      rcases hid with rfl | hid | rfl | hid | hid
      · exact ⟨_, htry⟩
      · exact ⟨_, (regionEnd_eq_ok_some (hid ▸ htryEnd)).2⟩
      · exact ⟨_, hhandler⟩
      · exact ⟨_, (regionEnd_eq_ok_some (hid ▸ hhandlerEnd)).2⟩
      · have hfilter : k.kind = .filterFrom id := by
          unfold Handler.filterStart? at hid
          split at hid
          · rename_i start hstart
            rw [hstart, Option.some.inj hid]
          · cases hid
        obtain ⟨name, -, hname⟩ := filterStart_of_readKind (hfilter ▸ hkind)
        exact ⟨name, hname⟩
    · exact boundaries_of_readHandlers hrest k hk id hid

namespace Phases

variable {source : String} {g : TypeGraph} (p : Phases source g) (method : MethodDef)

theorem closed_listing : (p.listing method).body.Closed where
  targets := by
    intro id i hi target htarget
    obtain ⟨name, hname⟩ := (p.resolved_of_node? method hi).targets target htarget
    exact p.mem_order_of_findLabel? method hname
  localVar := by
    intro id i v hi hv
    obtain ⟨index, hindex⟩ := (p.resolved_of_node? method hi).localVar v hv
    rw [body_listing]
    exact Array.mem_of_getElem? hindex
  boundaries := by
    rintro h hh ⟨boundary, id⟩ hid
    rw [body_listing] at hh
    obtain ⟨name, hname⟩ := boundaries_of_readHandlers p.handle h (List.mem_toArray.1 hh) id
      (Handler.mem_clauseBoundaries.2 ⟨boundary, hid⟩)
    exact p.mem_order_of_findLabel? method hname

theorem placed_listing {position : Nat} {id : InstructionId} {i : Instruction}
    (hid : (p.listing method).body.instructions.get? position = some id)
    (hi : (p.listing method).body.instructions.node? id = some i) :
    i.index = position ∧ i.offset = Offset.total
      (((p.listing method).body.instructions.members.map (·.2.size)).take position) := by
  have hs := p.endLoad_reachable.consistent
  rw [body_listing] at hid hi ⊢
  constructor
  · have hplace : p.loaded.endLoad.get? position = some id := hid
    rw [Sequence.node?_laidOut hs.nodup hplace] at hi
    obtain ⟨j, -, rfl⟩ := Option.map_eq_some_iff.1 hi
    rfl
  · have hmember : p.loaded.endLoad.laidOut.members[position]? = some (id, i) := by
      rw [hs.laidOut.getElem?_members, hid]
      simp only [Option.bind_some, hi, Option.map_some]
    have hoffset := hs.located position (id, i) hmember
    rw [Nat.zero_add] at hoffset
    exact hoffset

theorem fresh_listing : (p.listing method).Fresh (codeLines p.lines) := by
  have hs := (p.reachable_listing method).instructions.consistent
  have hclosed := p.closed_listing method
  refine ⟨p.order_listing method, ?_, ?_, p.labelled.nodup, ?_, ?_, hclosed, ?_,
    hclosed.danglingTargets_eq hs, hclosed.danglingBoundaries_eq hs, ?_, p.placed_listing method,
    ?_⟩
  · have harena := congrArg (·.arena.length) (p.contents_listing method)
    simpa [Sequence.contents, length_code] using harena
  · intro n code hn
    obtain ⟨c, hc, hread⟩ := exists_of_forall₂ p.readCodes hn
    rw [← code?_listing p method ⟨n⟩] at hc
    obtain ⟨i, hi, rfl⟩ := Option.map_eq_some_iff.1 hc
    refine ⟨i, hi, ?_⟩
    rw [body_listing]
    exact hread
  · intro name id
    rw [label?_listing, p.labelled.mem_iff]
  · intro name id
    rw [labelOf?_listing, label?_listing]
  · intro id i v hi hv
    obtain ⟨index, hindex⟩ := Array.mem_iff_getElem?.1 (hclosed.localVar hi hv)
    rw [Locals.contains, (p.reachable_listing method).locals.indexOf?_eq_some_iff.2 hindex]
    rfl
  · rw [body_listing, endLoad_eq]
    rfl
  · rw [body_listing]
    exact p.endLoad_reachable.consistent.codeSize_laidOut.symm

end Phases

section Read

variable {source : String} {method : MethodDef} {g g' : TypeGraph} {l : Listing}

/-- A listing that was just read names only its own members and is laid out. An encoding of it
fails only for a number or a distance that is out of range. -/
theorem read_fresh (h : read source method g = (.ok l, g')) :
    (∃ lines, splitLines source = .ok lines ∧ l.Fresh (codeLines lines))
      ∧ ∀ (graph : TypeGraph) (strings : UserStrings) (e : Failure),
        l.body.codeSize < 1 <<< 31 → l.body.handlers.size ≤ 699050 →
        (Image.encode graph strings l.body).1 = .error e →
        (∃ id distance, e = .fault (.branchOutOfRange id distance))
          ∨ ∃ id, e = .fault (.operandOutOfRange id) := by
  obtain ⟨p, rfl, rfl⟩ := read_eq_ok_iff.1 h
  have hfresh := p.fresh_listing method
  refine ⟨⟨p.lines, p.split, hfresh⟩, fun graph strings e hsize hhandlers he => ?_⟩
  have hfault : faultOf (Image.encode graph strings (p.listing method).body).1 =
      (p.listing method).body.fault?.map .fault := by
    rw [hfresh.codeSize_eq] at hsize
    exact Image.faultOf_encode (p.reachable_listing method) hsize (Image.tableSize_lt hhandlers)
  rw [he] at hfault
  obtain ⟨cause, hcause, rfl⟩ := Option.map_eq_some_iff.1 hfault.symm
  rcases hfresh.closed.outOfRange_of_fault? hfresh.suppressed_eq hcause with
    ⟨id, d, rfl⟩ | ⟨id, rfl⟩
  · exact .inl ⟨id, d, rfl⟩
  · exact .inr ⟨id, rfl⟩

theorem exists_read {test : Listing → Bool}
    (h : (read source method g).1.toOption.any test = true) :
    ∃ l g', read source method g = (.ok l, g') ∧ test l = true := by
  cases hread : read source method g with
  | mk result g' =>
    rw [hread] at h
    cases result with
    | ok l => exact ⟨l, g', rfl, h⟩
    | error e => cases h

/-- A variable, a branch, a handler, and an argument with too large a number for its short form. -/
theorem read_fresh_argument :
    ∃ source lines l g', read source {} .empty = (.ok l, g') ∧ splitLines source = .ok lines
      ∧ l.Fresh (codeLines lines) ∧ (codeLines lines).length = 4
      ∧ (Image.encode .empty .empty l.body).1 = .error (.fault (.operandOutOfRange ⟨1⟩))
      ∧ ∀ e, (Image.encode .empty .empty l.body).1 = .error e →
        (∃ id distance, e = .fault (.branchOutOfRange id distance))
          ∨ ∃ id, e = .fault (.operandOutOfRange id) := by
  have hlisting : ∃ l g', read (".locals int32\n.try top to done finally handler done to end\n" ++
        "top: ldloc.s V_0\nldarg.s 300\nbrtrue.s top\ndone: endfinally") {} .empty = (.ok l, g')
      ∧ (l.body.instructions.order.size == 4 && l.body.codeSize < 1 <<< 31
        && l.body.handlers.size ≤ 699050
        && faultOf (Image.encode .empty .empty l.body).1 ==
          some (.fault (.operandOutOfRange ⟨1⟩))) = true :=
    exists_read (by decide +kernel)
  obtain ⟨l, g', hread, htest⟩ := hlisting
  simp only [Bool.and_eq_true, beq_iff_eq, decide_eq_true_eq] at htest
  obtain ⟨⟨⟨hlength, hsize⟩, hhandlers⟩, hfault⟩ := htest
  obtain ⟨⟨lines, hlines, hfresh⟩, hencode⟩ := read_fresh hread
  have horder := congrArg List.length hfresh.order_eq
  rw [Array.length_toList, hlength, List.length_map, List.length_range] at horder
  exact ⟨_, lines, l, g', hread, hlines, hfresh, horder.symm, eq_error_of_faultOf hfault,
    fun e => hencode .empty .empty e hsize hhandlers⟩

end Read

end Listing

end CilMethod
