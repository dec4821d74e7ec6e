import CilMethod.Proofs.FailedEncoding

/-!
# What an encoding depends on

The outline of a body shows none of the handles that it was put together with. An instruction that
an operand or a handler names stands there with its position among the members, a variable with its
position among the variables, and what is not a member has none.

The encoder knows nothing of positions. It asks an instruction by its handle whether it is a member
and at which offset, and a variable for its number. But offsets are sums of sizes, and the outline
shows the sizes (`sizeBefore_eq`), so in bodies with the same outline whatever stands for the same
position gets the same answers (`twins_of_place?`). Going through the members, the handlers and the
variables of both bodies side by side, the encoder then writes the same bytes, or stops in both
(`encode_congr`). The cause for which it stops names handles, so it is not compared.
-/

namespace CilMethod

/-- An operand, with positions in place of the handles of instructions and variables. -/
inductive OperandOutline where
  /-- an operand without handles -/
  | constant (operand : Operand)
  | localVar (position : Option Nat)
  | target (position : Option Nat)
  | switch (positions : List (Option Nat))
  deriving DecidableEq

def OperandOutline.tableLength : OperandOutline → Nat
  | switch positions => positions.length
  | _ => 0

/-- The kind of a handler, with the token of the type that it catches. -/
inductive KindOutline where
  | catchType (token : Token)
  | filterFrom (position : Option Nat)
  | finallyBlock
  | faultBlock
  deriving DecidableEq

structure HandlerOutline where
  kind : KindOutline
  tryStart : Option Nat
  /-- Missing if the region runs to the end of the body. -/
  tryEnd : Option (Option Nat)
  handlerStart : Option Nat
  /-- Missing if the handler runs to the end of the body. -/
  handlerEnd : Option (Option Nat)
  deriving DecidableEq

/-- What a signature needs of a type. -/
structure TypeOutline where
  nameSpace : String
  name : String
  isValueType : Bool
  token : Token
  deriving DecidableEq

structure Outline where
  attributes : MethodAttributes
  suppressed : Bool
  /-- The types of the variables, in order. -/
  locals : List TypeOutline
  /-- The members, in order. -/
  code : List (Opcode × OperandOutline)
  handlers : List HandlerOutline
  deriving DecidableEq

def TypeDef.outline (t : TypeDef) : TypeOutline := ⟨t.nameSpace, t.name, t.isValueType, t.token⟩

namespace Body

variable (g : TypeGraph) (b : Body)

/-- The position of an instruction among the members. -/
def place? (id : InstructionId) : Option Nat := b.instructions.order.toList.idxOf? id

def operandOutline : Operand → OperandOutline
  | .localVar v => .localVar (b.locals.order.toList.idxOf? v)
  | .target id => .target (b.place? id)
  | .switch ids => .switch (ids.map b.place?)
  | operand => .constant operand

def kindOutline : HandlerKind → KindOutline
  | .catchType type => .catchType (g.typeDef type).token
  | .filterFrom start => .filterFrom (b.place? start)
  | .finallyBlock => .finallyBlock
  | .faultBlock => .faultBlock

def handlerOutline (h : Handler) : HandlerOutline where
  kind := b.kindOutline g h.kind
  tryStart := b.place? h.tryStart
  tryEnd := h.tryEnd.map b.place?
  handlerStart := b.place? h.handlerStart
  handlerEnd := h.handlerEnd.map b.place?

/-- What a body says, apart from how it was put together. -/
def outline : Outline where
  attributes := b.method.attributes
  suppressed := b.instructions.suppressed
  locals := b.locals.members.map fun m => (g.typeDef m.2.type).outline
  code := b.instructions.codes.map fun c => (c.1, b.operandOutline c.2)
  handlers := b.handlers.toList.map (b.handlerOutline g)

section Operand

variable {b c : Body} {x : Operand}

theorem tableLength_operandOutline : (b.operandOutline x).tableLength = x.tableLength := by
  cases x <;> simp [operandOutline, OperandOutline.tableLength, Operand.tableLength]

theorem eq_of_outline_constant {y : Operand} (h : b.operandOutline x = .constant y) : x = y := by
  cases x with
  | localVar v => cases h
  | target id => cases h
  | switch ids => cases h
  | _ => exact OperandOutline.constant.inj h

theorem exists_of_outline_localVar {p : Option Nat} (h : b.operandOutline x = .localVar p) :
    ∃ v, x = .localVar v ∧ b.locals.order.toList.idxOf? v = p := by
  cases x with
  | localVar v => exact ⟨v, rfl, OperandOutline.localVar.inj h⟩
  | _ => cases h

theorem exists_of_outline_target {p : Option Nat} (h : b.operandOutline x = .target p) :
    ∃ id, x = .target id ∧ b.place? id = p := by
  cases x with
  | target id => exact ⟨id, rfl, OperandOutline.target.inj h⟩
  | _ => cases h

theorem exists_of_outline_switch {ps : List (Option Nat)} (h : b.operandOutline x = .switch ps) :
    ∃ ids, x = .switch ids ∧ ids.map b.place? = ps := by
  cases x with
  | switch ids => exact ⟨ids, rfl, OperandOutline.switch.inj h⟩
  | _ => cases h

end Operand

theorem kindOutline_cases {g g' : TypeGraph} {b c : Body} {kind kind' : HandlerKind}
    (h : b.kindOutline g kind = c.kindOutline g' kind') :
    (∃ type type', kind = .catchType type ∧ kind' = .catchType type'
        ∧ (g.typeDef type).token = (g'.typeDef type').token)
      ∨ (∃ start start', kind = .filterFrom start ∧ kind' = .filterFrom start'
        ∧ b.place? start = c.place? start')
      ∨ (kind = .finallyBlock ∧ kind' = .finallyBlock)
      ∨ (kind = .faultBlock ∧ kind' = .faultBlock) := by
  cases kind <;> cases kind' <;> simp_all [kindOutline]

end Body

section Offsets

variable {g : TypeGraph} {b : Body} {id : InstructionId}

/-- The sizes of the members, as the outline shows them. -/
def Outline.sizes (o : Outline) : List Nat :=
  o.code.map fun c => c.1.size + c.1.operandType.size c.2.tableLength

theorem Body.code_outline (hs : b.instructions.Consistent) :
    (b.outline g).code = b.instructions.laidOut.members.map fun m =>
      (m.2.opcode, b.operandOutline m.2.operand) := by
  rw [outline, ← hs.codes_laidOut, Sequence.codes, List.map_map]
  rfl

theorem Body.sizes_outline (hs : b.instructions.Consistent) :
    (b.outline g).sizes = b.instructions.laidOut.members.map (·.2.size) := by
  rw [Outline.sizes, code_outline hs, List.map_map]
  refine List.map_congr_left fun m _ => ?_
  simp only [Function.comp_apply, tableLength_operandOutline]
  rfl

theorem Body.map_sizeIn_eq (hs : b.instructions.Consistent) :
    b.instructions.order.toList.map (Sequence.sizeIn b.instructions.nodes) =
      (b.outline g).sizes := by
  rw [sizes_outline hs, hs.laidOut.map_size_members,
    List.map_congr_left fun k _ => (Sequence.sizeIn_laidOut hs.nodup k).symm]
  rfl

theorem Body.sizeBefore_eq (hs : b.instructions.Consistent) (position : Nat) :
    b.instructions.sizeBefore position =
      Offset.total ((b.outline g).sizes.take position) := by
  rw [Sequence.sizeBefore, List.map_take, map_sizeIn_eq hs]

theorem Body.codeSize_eq (hs : b.instructions.Consistent) :
    b.instructions.codeSize = Offset.total (b.outline g).sizes := by
  rw [Sequence.codeSize_eq, map_sizeIn_eq hs]

theorem Body.startOf_eq (hs : b.instructions.Consistent) {position : Nat}
    (h : b.place? id = some position) :
    b.instructions.startOf id = Offset.total ((b.outline g).sizes.take position) := by
  rw [place?] at h
  rw [Sequence.startOf, List.idxOf_eq_getD_idxOf?, h, Option.getD_some, sizeBefore_eq hs]

end Offsets

/-- Instructions of two sequences that an encoder cannot tell apart: members at the same offset, or
neither a member. -/
def Sequence.Twins (s t : Sequence) (id id' : InstructionId) : Prop :=
  s.contains id = t.contains id' ∧ (s.contains id = true → s.offsetOf id = t.offsetOf id')

/-- Members of two bodies that say the same at the same offset. -/
structure Body.SameLine (b c : Body) (m m' : InstructionId × Instruction) : Prop where
  opcode : m.2.opcode = m'.2.opcode
  operand : b.operandOutline m.2.operand = c.operandOutline m'.2.operand
  offset : m.2.offset = m'.2.offset

section Twins

variable {g g' : TypeGraph} {b c : Body}

/-- What stands at the same position is a member in both bodies, at the same offset, and what stands
nowhere is a member in neither. -/
theorem Body.twins_of_place? (hb : b.Reachable) (hc : c.Reachable)
    (houtline : b.outline g = c.outline g') {id id' : InstructionId}
    (h : b.place? id = c.place? id') :
    b.instructions.laidOut.Twins c.instructions.laidOut id id' := by
  have hs := hb.instructions.consistent
  have ht := hc.instructions.consistent
  have hmem : id ∈ b.instructions.order.toList ↔ id' ∈ c.instructions.order.toList := by
    rw [← List.isSome_idxOf?, ← List.isSome_idxOf?, ← place?, ← place?, h]
  refine ⟨by rw [hs.contains_laidOut, ht.contains_laidOut, decide_eq_decide, hmem], fun hid => ?_⟩
  -- the offset of a member is the sum of the sizes before its position, which the outline shows
  rw [hs.contains_laidOut, decide_eq_true_eq] at hid
  obtain ⟨position, hposition⟩ := Option.isSome_iff_exists.1 (List.isSome_idxOf?.2 hid)
  rw [hs.offsetOf_laidOut (Array.mem_toList_iff.1 hid),
    ht.offsetOf_laidOut (Array.mem_toList_iff.1 (hmem.1 hid)),
    startOf_eq (g := g) hs hposition, startOf_eq (g := g') ht (h.symm.trans hposition), houtline]

theorem Body.SameLine.size_eq {m m' : InstructionId × Instruction} (h : b.SameLine c m m') :
    m.2.size = m'.2.size := by
  rw [Instruction.size, Instruction.size, h.opcode, ← tableLength_operandOutline (b := b),
    ← tableLength_operandOutline (b := c), h.operand]

theorem Body.sameLines (hb : b.Reachable) (hc : c.Reachable)
    (houtline : b.outline g = c.outline g') :
    List.Forall₂ (b.SameLine c) b.instructions.laidOut.members c.instructions.laidOut.members := by
  have hs := hb.instructions.consistent
  have ht := hc.instructions.consistent
  have hcode := congrArg Outline.code houtline
  have hsizes := congrArg Outline.sizes houtline
  rw [code_outline hs, code_outline ht] at hcode
  rw [sizes_outline hs, sizes_outline ht] at hsizes
  rw [List.forall₂_iff_get]
  refine ⟨by simpa using congrArg List.length hcode, fun n hn hn' => ?_⟩
  have hline := congrArg (·[n]?) hcode
  simp only [List.getElem?_map, List.getElem?_eq_getElem hn, List.getElem?_eq_getElem hn',
    Option.map_some, Option.some.injEq, Prod.mk.injEq] at hline
  refine ⟨hline.1, hline.2, ?_⟩
  rw [List.get_eq_getElem, List.get_eq_getElem, hs.located n _ (List.getElem?_eq_getElem hn),
    ht.located n _ (List.getElem?_eq_getElem hn'), hsizes]

end Twins

/-! ## Lists side by side, and results but for the cause of a failure -/

section Congruence

variable {ε α β γ : Type}

theorem map_eq_map_iff_forall₂ {f : α → γ} {g : β → γ} {xs : List α} {ys : List β} :
    xs.map f = ys.map g ↔ List.Forall₂ (fun x y => f x = g y) xs ys := by
  rw [← List.forall₂_eq_eq_eq, List.forall₂_map_left_iff, List.forall₂_map_right_iff]

theorem toOption_cases {r r' : Except ε α} (h : r.toOption = r'.toOption) :
    (∃ a, r = .ok a ∧ r' = .ok a) ∨ ∃ e e', r = .error e ∧ r' = .error e' := by
  cases r with
  | error e =>
    cases r' with
    | error e' => exact .inr ⟨e, e', rfl, rfl⟩
    | ok a' => cases h
  | ok a =>
    cases r' with
    | error e' => cases h
    | ok a' => exact .inl ⟨a, rfl, by rw [Option.some.inj h]⟩

theorem toOption_mapError {δ : Type} (r : Except ε α) (f : ε → δ) :
    (r.mapError f).toOption = r.toOption := by
  cases r <;> rfl

theorem toOption_bind_congr {r r' : Except ε α} {f f' : α → Except ε β}
    (hr : r.toOption = r'.toOption) (hf : ∀ a, (f a).toOption = (f' a).toOption) :
    (r >>= f).toOption = (r' >>= f').toOption := by
  obtain ⟨a, rfl, rfl⟩ | ⟨e, e', rfl, rfl⟩ := toOption_cases hr
  · exact hf a
  · rfl

theorem toOption_mapM_congr {f : α → Except ε γ} {f' : β → Except ε γ} {xs : List α}
    {ys : List β} (h : List.Forall₂ (fun x y => (f x).toOption = (f' y).toOption) xs ys) :
    (xs.mapM f).toOption = (ys.mapM f').toOption := by
  induction h with
  | nil => rfl
  | cons hxy _ ih =>
    rw [List.mapM_cons, List.mapM_cons]
    exact toOption_bind_congr hxy fun z => toOption_bind_congr ih fun zs => rfl

end Congruence

namespace Image

variable {g g' : TypeGraph} {b c : Body} {id id' : InstructionId}

theorem indexBytes_congr (type : OperandType) (index : Nat) :
    (indexBytes id type index).toOption = (indexBytes id' type index).toOption := by
  simp only [indexBytes]
  split_ifs <;> rfl

theorem distanceBytes_congr {s t : Sequence} {target target' : InstructionId}
    (h : s.Twins t target target') (origin width : Nat) :
    (distanceBytes s id origin width target).toOption =
      (distanceBytes t id' origin width target').toOption := by
  obtain ⟨hmember, hoffset⟩ := h
  simp only [distanceBytes, ← hmember]
  split_ifs with hcontains hholds hholds'
  · rw [hoffset hcontains]
  · rw [hoffset hcontains] at hholds
    contradiction
  · rw [hoffset hcontains] at hholds
    contradiction
  · rfl
  · rfl

theorem noteStrings_congr {i i' : Instruction}
    (h : b.operandOutline i.operand = c.operandOutline i'.operand) (strings : UserStrings) :
    noteStrings strings i = noteStrings strings i' := by
  cases hx : i.operand with
  | localVar v =>
    rw [hx] at h
    obtain ⟨v', hv', -⟩ := Body.exists_of_outline_localVar h.symm
    simp only [noteStrings, hx, hv']
  | target target =>
    rw [hx] at h
    obtain ⟨target', htarget', -⟩ := Body.exists_of_outline_target h.symm
    simp only [noteStrings, hx, htarget']
  | switch targets =>
    rw [hx] at h
    obtain ⟨targets', htargets', -⟩ := Body.exists_of_outline_switch h.symm
    simp only [noteStrings, hx, htargets']
  | _ =>
    rw [hx] at h
    simp only [noteStrings, hx, Body.eq_of_outline_constant h.symm]

theorem typeBytes_congr {t t' : TypeDef} (h : t.outline = t'.outline) :
    typeBytes t = typeBytes t' := by
  obtain ⟨hspace, hname, hvalue, htoken⟩ := TypeOutline.mk.inj h
  simp only [typeBytes, primitiveByte?, hspace, hname, hvalue, htoken]

theorem localsSignature_congr {types types' : List TypeDef}
    (h : types.map TypeDef.outline = types'.map TypeDef.outline) :
    localsSignature types = localsSignature types' := by
  have hsame := map_eq_map_iff_forall₂.1 h
  have hbytes : types.map typeBytes = types'.map typeBytes :=
    map_eq_map_iff_forall₂.2 (hsame.imp fun _ _ => typeBytes_congr)
  simp only [localsSignature, List.isEmpty_iff_length_eq_zero, hsame.length_eq, List.flatMap_def,
    hbytes]

section SameOutline

variable (hb : b.Reachable) (hc : c.Reachable) (houtline : b.outline g = c.outline g')
include hb hc houtline

/-- Operands that say the same at the same offset are written alike. -/
theorem operandBytes_congr {m m' : InstructionId × Instruction} (h : b.SameLine c m m')
    (strings : UserStrings) :
    (operandBytes strings b.instructions.laidOut b.locals m.1 m.2).toOption =
      (operandBytes strings c.instructions.laidOut c.locals m'.1 m'.2).toOption := by
  have hsame := h.operand.symm
  cases hx : m.2.operand with
  | localVar v =>
    rw [hx] at hsame
    obtain ⟨v', hv', hplace⟩ := Body.exists_of_outline_localVar hsame
    simp only [operandBytes, hx, hv', hb.locals.indexOf?_eq_idxOf?, hc.locals.indexOf?_eq_idxOf?,
      hplace, h.opcode]
    cases b.locals.order.toList.idxOf? v with
    | none => rfl
    | some index => exact indexBytes_congr ..
  | target target =>
    rw [hx] at hsame
    obtain ⟨target', htarget', hplace⟩ := Body.exists_of_outline_target hsame
    simp only [operandBytes, hx, htarget', h.opcode, h.offset, h.size_eq]
    exact distanceBytes_congr (Body.twins_of_place? hb hc houtline hplace.symm) ..
  | switch targets =>
    rw [hx] at hsame
    obtain ⟨targets', htargets', hplaces⟩ := Body.exists_of_outline_switch hsame
    have htwins := (map_eq_map_iff_forall₂.1 hplaces.symm).imp
      fun _ _ => Body.twins_of_place? hb hc houtline
    simp only [operandBytes, hx, htargets', h.offset, h.size_eq, htwins.length_eq]
    exact toOption_bind_congr
      (toOption_mapM_congr (htwins.imp fun _ _ htwin => distanceBytes_congr htwin ..)) fun _ => rfl
  | argument number =>
    rw [hx] at hsame
    simp only [operandBytes, hx, Body.eq_of_outline_constant hsame, h.opcode]
    exact indexBytes_congr ..
  | _ =>
    -- the operand names no handle, so it is the same in both
    rw [hx] at hsame
    simp only [operandBytes, hx, Body.eq_of_outline_constant hsame]

/-- Lines that say the same are written alike, and the literals are the same even where writing
stops. -/
theorem writeMembers_congr {lines lines' : List (InstructionId × Instruction)}
    (h : List.Forall₂ (b.SameLine c) lines lines') (strings : UserStrings) (code : Array UInt8) :
    (writeMembers b.instructions.laidOut b.locals lines strings code).1.toOption =
        (writeMembers c.instructions.laidOut c.locals lines' strings code).1.toOption
      ∧ (writeMembers b.instructions.laidOut b.locals lines strings code).2 =
        (writeMembers c.instructions.laidOut c.locals lines' strings code).2 := by
  induction h generalizing strings code with
  | nil => exact ⟨rfl, rfl⟩
  | @cons m m' lines lines' hline _ ih =>
    rw [writeMembers, writeMembers, noteStrings_congr hline.operand strings, hline.opcode]
    obtain ⟨operand, hm, hm'⟩ | ⟨e, e', hm, hm'⟩ := toOption_cases
      (operandBytes_congr hb hc houtline hline (noteStrings strings m'.2))
    · rw [hm, hm']
      exact ih ..
    · rw [hm, hm']
      exact ⟨rfl, rfl⟩

theorem boundaryOffset_congr (codeSize : Nat) {boundary boundary' : Option InstructionId}
    (h : boundary.map b.place? = boundary'.map c.place?) :
    (boundaryOffset b.instructions.laidOut codeSize boundary).toOption =
      (boundaryOffset c.instructions.laidOut codeSize boundary').toOption := by
  cases boundary with
  | none =>
    obtain rfl : boundary' = none := Option.map_eq_none_iff.1 h.symm
    rfl
  | some id =>
    obtain ⟨id', rfl, hplace⟩ := Option.map_eq_some_iff.1 h.symm
    obtain ⟨hmember, hoffset⟩ := Body.twins_of_place? hb hc houtline hplace.symm
    simp only [boundaryOffset, ← hmember]
    split_ifs with hcontains
    · rw [hoffset hcontains]
    · rfl

theorem clauseWords_congr (codeSize : Nat) {h h' : Handler}
    (hsame : b.handlerOutline g h = c.handlerOutline g' h') :
    (clauseWords g b.instructions.laidOut codeSize h).toOption =
      (clauseWords g' c.instructions.laidOut codeSize h').toOption := by
  obtain ⟨hkind, htryStart, htryEnd, hstart, hend⟩ := HandlerOutline.mk.inj hsame
  have hboundary {x y : Option InstructionId} (hxy : x.map b.place? = y.map c.place?) :=
    boundaryOffset_congr hb hc houtline codeSize hxy
  have hflags : h.kind.flags = h'.kind.flags := by
    obtain ⟨_, _, hk, hk', -⟩ | ⟨_, _, hk, hk', -⟩ | ⟨hk, hk'⟩ | ⟨hk, hk'⟩ :=
      Body.kindOutline_cases hkind <;> rw [hk, hk'] <;> rfl
  rw [clauseWords, clauseWords, hflags]
  refine toOption_bind_congr (hboundary (congrArg some htryStart)) fun _ =>
    toOption_bind_congr (hboundary htryEnd) fun _ =>
    toOption_bind_congr (hboundary (congrArg some hstart)) fun _ =>
    toOption_bind_congr (hboundary hend) fun _ => ?_
  obtain ⟨_, _, hk, hk', htoken⟩ | ⟨_, _, hk, hk', hplace⟩ | ⟨hk, hk'⟩ | ⟨hk, hk'⟩ :=
    Body.kindOutline_cases hkind <;> simp only [hk, hk']
  · rw [htoken]
  · exact toOption_bind_congr (hboundary (congrArg some hplace)) fun _ => rfl

theorem handlerTable_congr (codeSize : Nat) :
    (handlerTable g b.instructions.laidOut codeSize b.handlers.toList).toOption =
      (handlerTable g' c.instructions.laidOut codeSize c.handlers.toList).toOption := by
  have hsame := map_eq_map_iff_forall₂.1 (congrArg Outline.handlers houtline)
  simp only [handlerTable, List.isEmpty_iff_length_eq_zero, hsame.length_eq]
  split_ifs
  · rfl
  · rfl
  · refine toOption_bind_congr ?_ fun _ => rfl
    rw [toOption_mapError, toOption_mapError]
    refine toOption_mapM_congr (hsame.imp fun h h' hh => ?_)
    exact toOption_bind_congr (clauseWords_congr hb hc houtline codeSize hh) fun _ => rfl

theorem finish_congr (codeSize : Nat) (code : Array UInt8) :
    (finish g { b with instructions := b.instructions.laidOut, codeSize } codeSize code).toOption =
      (finish g' { c with instructions := c.instructions.laidOut, codeSize } codeSize
        code).toOption := by
  have hattributes : b.method.attributes = c.method.attributes :=
    congrArg Outline.attributes houtline
  have hlocals : localsSignature (b.locals.members.map fun m => g.typeDef m.2.type) =
      localsSignature (c.locals.members.map fun m => g'.typeDef m.2.type) := by
    refine localsSignature_congr ?_
    rw [List.map_map, List.map_map]
    exact congrArg Outline.locals houtline
  refine toOption_bind_congr (handlerTable_congr hb hc houtline codeSize) fun handlers => ?_
  dsimp only
  rw [hattributes, hlocals]

theorem encode_congr (strings : UserStrings) :
    (encode g strings b).1.toOption = (encode g' strings c).1.toOption
      ∧ (encode g strings b).2.1 = (encode g' strings c).2.1 := by
  have hflag : b.instructions.suppressed = c.instructions.suppressed :=
    congrArg Outline.suppressed houtline
  have hsize : b.instructions.codeSize = c.instructions.codeSize := by
    rw [Body.codeSize_eq (g := g) hb.instructions.consistent,
      Body.codeSize_eq (g := g') hc.instructions.consistent, houtline]
  cases hsuppressed : c.instructions.suppressed with
  | true =>
    rw [encode_of_suppressed (hflag.trans hsuppressed), encode_of_suppressed hsuppressed]
    exact ⟨rfl, rfl⟩
  | false =>
    have hlines := Body.sameLines hb hc houtline
    obtain ⟨hcode, hstrings⟩ := writeMembers_congr hb hc houtline hlines strings #[]
    rw [encode, encode, computeOffsets_eq (hflag.trans hsuppressed), computeOffsets_eq hsuppressed,
      hsize]
    dsimp only
    split_ifs
    · exact ⟨rfl, rfl⟩
    · -- both stop among the members, or both go on with the same code and the same literals
      revert hcode hstrings
      generalize writeMembers b.instructions.laidOut _ _ strings #[] = written
      generalize writeMembers c.instructions.laidOut _ _ strings #[] = written'
      obtain ⟨result, listed⟩ := written
      obtain ⟨result', listed'⟩ := written'
      rintro hcode rfl
      obtain ⟨code, rfl, rfl⟩ | ⟨e, e', rfl, rfl⟩ := toOption_cases hcode
      · exact ⟨finish_congr hb hc houtline _ code, rfl⟩
      · exact ⟨rfl, rfl⟩

end SameOutline

/-- Bodies with the same outline have the same image, or neither has any, and the same literals are
listed, however the bodies were put together. -/
theorem encode_eq_of_outline (hb : b.Reachable) (hc : c.Reachable)
    (houtline : b.outline g = c.outline g') (strings : UserStrings) :
    (∀ image, (encode g strings b).1 = .ok image ↔ (encode g' strings c).1 = .ok image)
      ∧ (encode g strings b).2.1 = (encode g' strings c).2.1 := by
  obtain ⟨hresult, hstrings⟩ := encode_congr hb hc houtline strings
  refine ⟨fun image => ?_, hstrings⟩
  obtain ⟨image', hb', hc'⟩ | ⟨e, e', hb', hc'⟩ := toOption_cases hresult
  · rw [hb', hc']
  · simp [hb', hc']

/-- Four instructions in the order of their handles, and the same four put before the first of them
with another variable, after a layout that is stale by now. -/
theorem encode_eq_of_outline_stale :
    ∃ (b c : Body) (image : Image), b.Reachable ∧ c.Reachable
      ∧ b.outline .empty = c.outline .empty
      ∧ b.instructions.order = #[⟨0⟩, ⟨1⟩, ⟨2⟩, ⟨3⟩] ∧ c.instructions.order = #[⟨1⟩, ⟨2⟩, ⟨3⟩, ⟨0⟩]
      ∧ b.locals.order = #[⟨0⟩] ∧ c.locals.order = #[⟨1⟩]
      ∧ image.sections.code = #[0x72, 1, 0, 0, 0x70, 0x11, 0, 0x2b, 0, 0x2a]
      ∧ (encode .empty .empty b).1 = .ok image ∧ (encode .empty .empty c).1 = .ok image := by
  obtain ⟨b, c, hb, hc, houtline, ⟨hcode, hcode', hlocals, hlocals'⟩, himage⟩ : ∃ b c : Body,
      b.Reachable ∧ c.Reachable ∧ b.outline .empty = c.outline .empty
      ∧ (b.instructions.order = #[⟨0⟩, ⟨1⟩, ⟨2⟩, ⟨3⟩] ∧ c.instructions.order = #[⟨1⟩, ⟨2⟩, ⟨3⟩, ⟨0⟩]
        ∧ b.locals.order = #[⟨0⟩] ∧ c.locals.order = #[⟨1⟩])
      ∧ (encode .empty .empty b).1 = .ok
        { sections :=
            { code := #[0x72, 1, 0, 0, 0x70, 0x11, 0, 0x2b, 0, 0x2a]
              handlers := #[0x41, 28, 0, 0, 2, 0, 0, 0, 0, 0, 0, 0, 7, 0, 0, 0, 7, 0, 0, 0,
                3, 0, 0, 0, 0, 0, 0, 0]
              locals := #[7, 1, 0x12, 0]
              signature := #[0x20, 0, 1] }
          codeSize := 10 } :=
    ⟨{ method := {}
       instructions := (Sequence.empty.runScript
        [.edit (.emit ⟨"ldstr", 0x72, .inlineString⟩ (.string "a")),
          .edit (.emit ⟨"ldloc.s", 0x11, .shortInlineVar⟩ (.localVar ⟨0⟩)),
          .edit (.emit ⟨"br.s", 0x2b, .shortInlineBrTarget⟩ (.target ⟨3⟩)),
          .edit (.emit ⟨"ret", 0x2a, .inlineNone⟩ .none)]).2
       locals := [.create ⟨0⟩, .append ⟨0⟩].foldl Locals.after .empty
       handlers := #[⟨.finallyBlock, ⟨0⟩, some ⟨2⟩, ⟨2⟩, none⟩] },
      { method := {}
        instructions := (Sequence.empty.runScript
          [.edit (.emit ⟨"ret", 0x2a, .inlineNone⟩ .none),
            .edit (.create ⟨"ldstr", 0x72, .inlineString⟩ (.string "a")), .edit (.insert 0 ⟨1⟩),
            .recompute,
            .edit (.create ⟨"ldloc.s", 0x11, .shortInlineVar⟩ (.localVar ⟨1⟩)),
            .edit (.insert 1 ⟨2⟩),
            .edit (.create ⟨"br.s", 0x2b, .shortInlineBrTarget⟩ (.target ⟨0⟩)),
            .edit (.insertBefore ⟨0⟩ ⟨3⟩)]).2
        locals := [.create ⟨0⟩, .append ⟨0⟩, .create ⟨0⟩, .replace 0 ⟨1⟩].foldl Locals.after .empty
        handlers := #[⟨.finallyBlock, ⟨1⟩, some ⟨3⟩, ⟨3⟩, none⟩] },
      ⟨⟨_, rfl⟩, ⟨_, rfl⟩⟩, ⟨⟨_, rfl⟩, ⟨_, rfl⟩⟩, by decide +kernel, by decide +kernel,
      by decide +kernel⟩
  obtain ⟨hsame, -⟩ := encode_eq_of_outline hb hc houtline .empty
  exact ⟨b, c, _, hb, hc, houtline, hcode, hcode', hlocals, hlocals', rfl, himage,
    (hsame _).1 himage⟩

end Image

end CilMethod
