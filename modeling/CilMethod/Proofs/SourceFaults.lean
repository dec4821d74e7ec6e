import CilMethod.Proofs.Placeholders
import CilMethod.Proofs.TypeNames

/-!
# Why a source cannot be read

The reader goes through a source several times: it splits the lines, collects the labels, reads the
instructions and then the handlers, and stops for the first thing that is wrong in the first of
these passes. `fault?` names that thing by the text alone. Which label is known, which variable is
declared and which label is repeated are then questions about the lines, and neither the graph nor a
handle comes into it.

A result `Stops` for a fault if it is that fault, and it is a success where there is none. Passes
one after the other stop for the first fault of the first that has one (`Stops.bind`), and a pass
over a list stops for the first fault on the list (`Stops.mapM`). Declaring variables and emitting
instructions never fails, since what is read for an opcode is an operand that it takes
(`fits_of_readOperand`).
-/

namespace CilMethod

/-- The result is this fault, or a success where there is none. -/
def Stops {ε α : Type} : Option ε → Except ε α → Prop
  | some e, r => r = .error e
  | none, r => ∃ a, r = .ok a

section Stops

variable {ε α β : Type} {fault? next? : Option ε} {r : Except ε α}

theorem Stops.bind {f : α → Except ε β} (hr : Stops fault? r)
    (hf : ∀ a, r = .ok a → Stops next? (f a)) : Stops (fault?.or next?) (r >>= f) := by
  cases fault? with
  | some e =>
    obtain rfl : r = .error e := hr
    rfl
  | none =>
    obtain ⟨a, rfl⟩ := hr
    exact hf a rfl

theorem Stops.map (f : α → β) (hr : Stops fault? r) : Stops fault? (r.map f) := by
  cases fault? with
  | some e =>
    obtain rfl : r = .error e := hr
    rfl
  | none =>
    obtain ⟨a, rfl⟩ := hr
    exact ⟨f a, rfl⟩

/-- What is made of a result adds no fault. -/
theorem Stops.bind_pure (f : α → β) (hr : Stops fault? r) :
    Stops fault? (r >>= fun a => pure (f a)) := by
  have h : Stops (fault?.or none) (r >>= fun a => pure (f a)) := hr.bind fun a _ => ⟨f a, rfl⟩
  rwa [Option.or_none] at h

theorem Stops.mapM {fault? : α → Option ε} {f : α → Except ε β} :
    ∀ {xs : List α}, (∀ x ∈ xs, Stops (fault? x) (f x)) →
    Stops (xs.findSome? fault?) (xs.mapM f)
  | [], _ => ⟨[], rfl⟩
  | x :: xs, h => by
    have hrest := Stops.mapM fun y hy => h y (List.mem_cons_of_mem x hy)
    have hor : (x :: xs).findSome? fault? = (fault? x).or (xs.findSome? fault?) := by
      rw [List.findSome?_cons]
      cases fault? x <;> rfl
    rw [List.mapM_cons, hor]
    exact (h x List.mem_cons_self).bind fun y _ => hrest.bind_pure _

end Stops

namespace Listing

/-! ## The faults -/

/-- The fault of a text that cannot be split. -/
def textFault? (text : Numbered (List Char)) : Option ListingError :=
  match splitLine text.item with
  | .ok _ => none
  | .error fault => some (.malformed text.line fault)

/-- The first line that counts and cannot be split; lines are numbered from one. -/
def splitFault? (source : String) : Option ListingError :=
  ((Text.lines source.toList).zipIdx 1).findSome? fun l =>
    if (content l.1).isEmpty then none else textFault? ⟨l.2, content l.1⟩

section Faults

variable (codes : List (Numbered CodeLine)) (count : Nat)

def labelNames : List String := codes.filterMap (·.item.label)

/-- The fault of a line whose label is on one of the lines before it. -/
def repetition? (code : Numbered CodeLine) : Option ListingError :=
  match code.item.label with
  | some label => if label ∈ labelNames codes then some (.duplicateLabel code.line label) else none
  | none => none

/-- The first label that an earlier line carries. -/
def repeatFault? : Option ListingError :=
  codes.zipIdx.findSome? fun c => repetition? (codes.take c.2) c.1

/-- The fault of a name that is the label of no instruction line. -/
def labelFault? (name : String) : Option ListingError :=
  if name ∈ labelNames codes then none else some (.unknownLabel name)

def numberFault? {α : Type} (read? : List Char → Option α) (cs : List Char) : Option LineFault :=
  if (read? cs).isSome then none else some (.invalidNumber (String.ofList cs))

def literalFault? (cs : List Char) : Option LineFault :=
  if cs.head? = some '"' ∧ cs.tail.getLast? = some '"' then none else some .notQuoted

def tokenFault? (cs : List Char) : Option LineFault :=
  match Text.after? ['0', 'x'] cs with
  | some digits =>
    if (Text.readUnsigned? 16 (1 <<< 32) digits).isSome then none
    else some (.invalidToken (String.ofList cs))
  | none => numberFault? (Text.readUnsigned? 10 (1 <<< 32)) cs

/-- The fault of a variable, of which `count` are declared. -/
def variableFault? (cs : List Char) : Option LineFault :=
  match Text.readUnsigned? 10 (1 <<< 64) (dropVariableMark cs) with
  | some index => if index < count then none else some (.noLocal index)
  | none => some (.invalidNumber (String.ofList (dropVariableMark cs)))

/-- What is wrong with the operand of an instruction on a line. -/
def operandFault? (line : Nat) (opcode : Opcode) (text : String) : Option ListingError :=
  let cs := text.toList
  match opcode.operandType with
  | .inlineNone =>
    if cs.isEmpty then none else some (.malformed line (.takesNoOperand opcode.name))
  | .inlineBrTarget | .shortInlineBrTarget => labelFault? codes text
  | .inlineSwitch => (tableNames cs).findSome? (labelFault? codes)
  | .shortInlineI => (numberFault? (Text.readSigned? (1 <<< 7)) cs).map (.malformed line)
  | .inlineI => (numberFault? (Text.readSigned? (1 <<< 31)) cs).map (.malformed line)
  | .inlineI8 => (numberFault? (Text.readSigned? (1 <<< 63)) cs).map (.malformed line)
  | .shortInlineR => (numberFault? Decimal.BinaryFormat.single.read? cs).map (.malformed line)
  | .inlineR => (numberFault? Decimal.BinaryFormat.double.read? cs).map (.malformed line)
  | .inlineString => (literalFault? cs).map (.malformed line)
  | .inlineField | .inlineMethod | .inlineType | .inlineTok | .inlineSig =>
    (tokenFault? cs).map (.malformed line)
  | .inlineVar | .shortInlineVar => (variableFault? count cs).map (.malformed line)
  | .inlineArg | .shortInlineArg =>
    (numberFault? (Text.readUnsigned? 10 (1 <<< 16)) cs).map (.malformed line)

/-- What is wrong with an instruction line. -/
def codeFault? (code : Numbered CodeLine) : Option ListingError :=
  match Opcode.named? (String.ofList (code.item.mnemonic.toList.map Char.toLower)) with
  | none => some (.malformed code.line (.unknownMnemonic code.item.mnemonic))
  | some opcode => operandFault? codes count code.line opcode code.item.operand

/-- The label at the end of a region, where the word `end` is none. -/
def endLabels (name : String) : List String := if name = "end" then [] else [name]

def KindText.labels : KindText → List String
  | .filterFrom label => [label]
  | _ => []

/-- The labels that a `.try` line names, in the order in which they are looked up. -/
def TryLine.labels (parts : TryLine) : List String :=
  parts.kind.labels ++ ([parts.tryStart] ++ (endLabels parts.tryEnd ++
    ([parts.handlerStart] ++ endLabels parts.handlerEnd)))

def tryFault? (parts : TryLine) : Option ListingError :=
  parts.labels.findSome? (labelFault? codes)

end Faults

/-- The first thing that is wrong with lines that could be split: a label that comes again, or else
an instruction line, or else a `.try` line. -/
def linesFault? (lines : List (Numbered Line)) : Option ListingError :=
  let codes := codeLines lines
  (repeatFault? codes).or
    ((codes.findSome? (codeFault? codes (localTypes lines).length)).or
      ((tryLines lines).findSome? (tryFault? codes)))

/-! ## The passes -/

section Split

theorem findSome?_filterMap {α β γ : Type} (p : α → Option β) (f : β → Option γ) (xs : List α) :
    (xs.filterMap p).findSome? f = xs.findSome? fun x => (p x).bind f := by
  induction xs with
  | nil => rfl
  | cons x xs ih =>
    rw [List.filterMap_cons, List.findSome?_cons, ← ih]
    cases p x with
    | none => rfl
    | some y =>
      rw [List.findSome?_cons]
      rfl

theorem stops_splitLines (source : String) : Stops (splitFault? source) (splitLines source) := by
  have hfault : splitFault? source = (contentLines source).findSome? textFault? := by
    rw [contentLines, findSome?_filterMap, splitFault?]
    refine congrArg (List.findSome? · _) (funext fun l => ?_)
    dsimp only
    split_ifs <;> rfl
  rw [hfault]
  refine Stops.mapM fun text _ => ?_
  obtain ⟨line, cs⟩ := text
  rw [textFault?]
  dsimp only
  cases splitLine cs with
  | ok item => exact ⟨_, rfl⟩
  | error fault => rfl

end Split

section Labels

variable {codes : List (Numbered CodeLine)} {labels : Labels} {name : String}

theorem labelNames_append (codes codes' : List (Numbered CodeLine)) :
    labelNames (codes ++ codes') = labelNames codes ++ labelNames codes' := List.filterMap_append

/-- The labels that are collected so far are those on the lines that are done. -/
theorem stops_collectLabels (rest : List (Numbered CodeLine)) :
    ∀ (before : List (Numbered CodeLine)) {labels : Labels} {next : Nat},
    labels.map Prod.fst = labelNames before →
    Stops ((rest.zipIdx before.length).findSome? fun c =>
        repetition? ((before ++ rest).take c.2) c.1)
      (collectLabels labels next rest) := by
  induction rest with
  | nil => exact fun _ _ _ _ => ⟨_, rfl⟩
  | cons code rest ih =>
    intro before labels next hlabels
    -- the lines before this one are those that are done, and this one joins them
    have htake : (before ++ code :: rest).take before.length = before := by simp
    have happend : before ++ code :: rest = (before ++ [code]) ++ rest := by simp
    have hlength : (before ++ [code]).length = before.length + 1 := by simp
    rw [List.zipIdx_cons, List.findSome?_cons, htake, happend, ← hlength, collectLabels]
    dsimp only
    unfold repetition?
    cases hlabel : code.item.label with
    | none =>
      refine ih _ ?_
      rw [hlabels, labelNames_append]
      simp [labelNames, hlabel]
    | some label =>
      dsimp only
      by_cases hknown : label ∈ labelNames before
      · rw [if_pos hknown, if_pos (isSome_findLabel?.2 (hlabels ▸ hknown))]
        rfl
      · rw [if_neg hknown, if_neg (isSome_findLabel?.not.2 (hlabels ▸ hknown))]
        refine ih _ ?_
        rw [List.map_append, hlabels, labelNames_append]
        simp [labelNames, hlabel]

theorem stops_findLabel (h : Labelled codes labels) (name : String) :
    Stops (labelFault? codes name) (findLabel labels name) := by
  have hknown : name ∈ labelNames codes ↔ ∃ id, findLabel? labels name = some id := by
    simp only [h.findLabel?_eq_some_iff, h.mem_iff, labelNames, List.mem_filterMap]
    constructor
    · rintro ⟨code, hcode, hlabel⟩
      obtain ⟨n, hn⟩ := List.mem_iff_getElem?.1 hcode
      exact ⟨⟨n⟩, code, hn, hlabel⟩
    · rintro ⟨id, code, hn, hlabel⟩
      exact ⟨code, List.mem_of_getElem? hn, hlabel⟩
  unfold labelFault? findLabel
  cases hfound : findLabel? labels name with
  | some id =>
    rw [if_pos (hknown.2 ⟨id, hfound⟩)]
    exact ⟨id, rfl⟩
  | none =>
    rw [if_neg fun hmem => by simpa [hfound] using hknown.1 hmem]
    rfl

end Labels

section Operands

variable {codes : List (Numbered CodeLine)} {labels : Labels}

theorem stops_onLine {α : Type} {line : Nat} {fault? : Option LineFault} {r : Except LineFault α}
    (hr : Stops fault? r) : Stops (fault?.map (.malformed line)) (onLine line r) := by
  cases fault? with
  | some fault =>
    obtain rfl : r = .error fault := hr
    rfl
  | none =>
    obtain ⟨a, rfl⟩ := hr
    exact ⟨a, rfl⟩

theorem stops_readNumber {α : Type} (read? : List Char → Option α) (cs : List Char) :
    Stops (numberFault? read? cs) (readNumber read? cs) := by
  unfold numberFault? readNumber
  cases read? cs with
  | some n => exact ⟨n, rfl⟩
  | none => rfl

theorem stops_readLiteral (cs : List Char) : Stops (literalFault? cs) (readLiteral cs) := by
  by_cases hquote : ∃ rest, cs = '"' :: rest
  · obtain ⟨rest, rfl⟩ := hquote
    unfold literalFault? readLiteral
    simp only [List.head?_cons, List.tail_cons, true_and]
    split_ifs
    · exact ⟨_, rfl⟩
    · rfl
  · have hhead : cs.head? ≠ some '"' := fun h => hquote (List.head?_eq_some_iff.1 h)
    have hread : readLiteral cs = .error .notQuoted := by
      unfold readLiteral
      split
      · exact absurd ⟨_, rfl⟩ hquote
      · rfl
    rw [literalFault?, if_neg fun h => hhead h.1, hread]
    rfl

theorem stops_readToken (cs : List Char) : Stops (tokenFault? cs) (readToken cs) := by
  unfold tokenFault? readToken
  cases Text.after? ['0', 'x'] cs with
  | none => exact (stops_readNumber _ cs).bind_pure _
  | some digits =>
    dsimp only
    cases Text.readUnsigned? 16 (1 <<< 32) digits with
    | some n => exact ⟨_, rfl⟩
    | none => rfl

theorem stops_readVariable (locals : Locals) (cs : List Char) :
    Stops (variableFault? locals.length cs) (readVariable locals cs) := by
  unfold variableFault? readVariable readNumber
  cases Text.readUnsigned? 10 (1 <<< 64) (dropVariableMark cs) with
  | none => rfl
  | some index =>
    dsimp only [bind, Except.bind]
    by_cases hindex : index < locals.length
    · rw [if_pos hindex, Locals.get?, Array.getElem?_eq_getElem hindex]
      exact ⟨_, rfl⟩
    · rw [if_neg hindex, Locals.get?, Array.getElem?_eq_none (Nat.le_of_not_lt hindex)]
      rfl

theorem stops_readOperand (h : Labelled codes labels) (locals : Locals) (line : Nat)
    (opcode : Opcode) (text : String) :
    Stops (operandFault? codes locals.length line opcode text)
      (readOperand labels locals line opcode text) := by
  unfold operandFault? readOperand
  dsimp only
  cases opcode.operandType with
  | inlineNone =>
    dsimp only
    split_ifs
    · exact ⟨_, rfl⟩
    · rfl
  | inlineBrTarget | shortInlineBrTarget => exact (stops_findLabel h text).bind_pure _
  | inlineSwitch => exact (Stops.mapM fun name _ => stops_findLabel h name).bind_pure _
  | inlineString => exact stops_onLine (stops_readLiteral _)
  | inlineField | inlineMethod | inlineType | inlineTok | inlineSig =>
    exact stops_onLine (stops_readToken _)
  | inlineVar | shortInlineVar => exact stops_onLine (stops_readVariable locals _)
  | _ => exact stops_onLine ((stops_readNumber _ _).bind_pure _)

theorem stops_readCode (h : Labelled codes labels) (locals : Locals) (code : Numbered CodeLine) :
    Stops (codeFault? codes locals.length code) (readCode labels locals code) := by
  obtain ⟨line, parts⟩ := code
  rw [codeFault?, readCode]
  dsimp only
  cases Opcode.named? (String.ofList (parts.mnemonic.toList.map Char.toLower)) with
  | none => rfl
  | some opcode => exact (stops_readOperand h locals line opcode _).bind_pure _

end Operands

section Handlers

variable {codes : List (Numbered CodeLine)} {labels : Labels} (h : Labelled codes labels)

include h

theorem stops_regionEnd (name : String) :
    Stops ((endLabels name).findSome? (labelFault? codes)) (regionEnd labels name) := by
  unfold endLabels regionEnd
  split_ifs
  · exact ⟨none, rfl⟩
  · rw [List.findSome?_singleton]
    exact (stops_findLabel h name).map some

theorem stops_readRegions (parts : TryLine) (kind : HandlerKind) :
    Stops (([parts.tryStart] ++ (endLabels parts.tryEnd ++
        ([parts.handlerStart] ++ endLabels parts.handlerEnd))).findSome? (labelFault? codes))
      (readRegions labels parts kind) := by
  simp only [List.findSome?_append, List.findSome?_singleton]
  exact (stops_findLabel h _).bind fun _ _ => (stops_regionEnd h _).bind fun _ _ =>
    (stops_findLabel h _).bind fun _ _ => (stops_regionEnd h _).bind_pure _

theorem stops_readKind (g : TypeGraph) (kind : KindText) :
    Stops (kind.labels.findSome? (labelFault? codes)) (readKind labels g kind).1 := by
  cases kind with
  | filterFrom label =>
    rw [KindText.labels, List.findSome?_singleton]
    exact (stops_findLabel h label).map _
  | _ => exact ⟨_, rfl⟩

theorem stops_readHandlers (tries : List TryLine) : ∀ g : TypeGraph,
    Stops (tries.findSome? (tryFault? codes)) (readHandlers labels g tries).1 := by
  induction tries with
  | nil => exact fun g => ⟨[], rfl⟩
  | cons parts rest ih =>
    intro g
    have hregions : Stops (tryFault? codes parts)
        ((readKind labels g parts.kind).1 >>= readRegions labels parts) := by
      rw [tryFault?, TryLine.labels, List.findSome?_append]
      exact (stops_readKind h g parts.kind).bind fun kind _ => stops_readRegions h parts kind
    rw [List.findSome?_cons, readHandlers]
    dsimp only
    cases hfault : tryFault? codes parts with
    | some e =>
      rw [hfault] at hregions
      have herror : (readKind labels g parts.kind).1.bind (readRegions labels parts) = .error e :=
        hregions
      rw [herror]
      rfl
    | none =>
      rw [hfault] at hregions
      obtain ⟨handler, hok⟩ : ∃ handler,
          (readKind labels g parts.kind).1.bind (readRegions labels parts) = .ok handler := hregions
      rw [hok]
      exact (ih _).map _

end Handlers

section Edits

variable {line : Nat} {operand : Operand} {cs : List Char}

theorem fits_of_constant {α : Type} {read : Except LineFault α} {f : α → Operand}
    {type : OperandType} (h : onLine line (do return f (← read)) = .ok operand)
    (hf : ∀ a, (f a).fits type = true) : operand.fits type = true := by
  obtain ⟨a, -, ha⟩ := bind_eq_ok_iff.1 (onLine_eq_ok_iff.1 h)
  cases ha
  exact hf a

theorem exists_of_readVariable {locals : Locals} (h : readVariable locals cs = .ok operand) :
    ∃ v, operand = .localVar v := by
  obtain ⟨index, -, h⟩ := bind_eq_ok_iff.1 h
  split at h
  · cases h
    exact ⟨_, rfl⟩
  · cases h

/-- What is read for an opcode is an operand that it takes. -/
theorem fits_of_readOperand {labels : Labels} {locals : Locals} {opcode : Opcode} {text : String}
    (h : readOperand labels locals line opcode text = .ok operand) :
    operand.fits opcode.operandType = true := by
  unfold readOperand at h
  dsimp only at h
  cases htype : opcode.operandType <;> rw [htype] at h
  case inlineNone =>
    dsimp only at h
    split_ifs at h
    cases h
    rfl
  case inlineBrTarget | shortInlineBrTarget =>
    obtain ⟨id, -, h⟩ := bind_eq_ok_iff.1 h
    cases h
    rfl
  case inlineSwitch =>
    obtain ⟨ids, -, h⟩ := bind_eq_ok_iff.1 h
    cases h
    rfl
  case inlineString =>
    obtain ⟨s, rfl⟩ := exists_of_readLiteral (onLine_eq_ok_iff.1 h)
    rfl
  case inlineField | inlineMethod | inlineType | inlineTok | inlineSig =>
    obtain ⟨token, rfl⟩ := exists_of_readToken (onLine_eq_ok_iff.1 h)
    rfl
  case inlineVar | shortInlineVar =>
    obtain ⟨v, rfl⟩ := exists_of_readVariable (onLine_eq_ok_iff.1 h)
    rfl
  all_goals exact fits_of_constant h fun _ => rfl

/-- A variable that is declared is a new one. -/
theorem run_declare_eq (type : TypeId) (l : Locals) :
    (Locals.declare type).run l =
      .ok ⟨l.slots.size⟩ ((l.created type).inserted l.length ⟨l.slots.size⟩) := by
  have hnew : (l.created type).placeFault? ⟨l.slots.size⟩ = none := by
    simp [Locals.placeFault?, Locals.slot?, Locals.created]
  rw [run_declare, Locals.run_append, Locals.run_insert, if_neg (Nat.lt_irrefl _), hnew]
  rfl

theorem exists_declareAll : ∀ (types : List TypeId) (l : Locals), ∃ l',
    (declareAll types).run l = .ok () l' ∧ l'.length = l.length + types.length
  | [], l => ⟨l, rfl, rfl⟩
  | type :: types, l => by
    obtain ⟨l', hrun, hlength⟩ :=
      exists_declareAll types ((l.created type).inserted l.length ⟨l.slots.size⟩)
    have hone : ((l.created type).inserted l.length ⟨l.slots.size⟩).length = l.length + 1 := by
      simp [Locals.length, Locals.inserted, Locals.created, Locals.renumber,
        ← push_eq_insertIdxIfInBounds]
    refine ⟨l', ?_, ?_⟩
    · rw [declareAll, run_bind_of_ok (by rw [run_discard, run_declare_eq]), hrun]
    · rw [hlength, hone, List.length_cons]
      omega

theorem exists_emitAll : ∀ {code : List (Opcode × Operand)} (s : Sequence),
    (∀ c ∈ code, c.2.fits c.1.operandType = true) → ∃ t, (emitAll code).run s = .ok () t
  | [], s, _ => ⟨s, rfl⟩
  | (opcode, operand) :: code, s, h => by
    obtain ⟨t, ht⟩ := exists_emitAll
      ((s.created opcode operand).inserted s.length ⟨s.nodes.size⟩)
      fun c hc => h c (List.mem_cons_of_mem _ hc)
    exact ⟨t, run_emitAll_cons.2 ⟨h _ List.mem_cons_self, ht⟩⟩

theorem fits_of_mapM_readCode {labels : Labels} {locals : Locals}
    {codes : List (Numbered CodeLine)} {code : List (Opcode × Operand)}
    (h : codes.mapM (readCode labels locals) = .ok code) :
    ∀ c ∈ code, c.2.fits c.1.operandType = true := by
  intro c hc
  obtain ⟨n, hn⟩ := List.mem_iff_getElem?.1 hc
  obtain ⟨⟨line, parts⟩, -, hread⟩ := exists_of_forall₂ (mapM_eq_ok_iff.1 h).flip hn
  exact fits_of_readOperand (readCode_eq_ok_iff.1 hread).2

end Edits

section Read

theorem stops_readInstructions (types : List TypeId) (codes : List (Numbered CodeLine)) :
    Stops ((repeatFault? codes).or (codes.findSome? (codeFault? codes types.length)))
      (readInstructions types codes) := by
  obtain ⟨locals, hdeclare, hlength⟩ := exists_declareAll types {}
  have hcount : types.length = locals.length := by simpa [Locals.length] using hlength.symm
  rw [readInstructions, build_eq_ok_iff.2 hdeclare, hcount]
  refine (stops_collectLabels codes [] rfl).bind fun labels hlabels => ?_
  have hcodes := Stops.mapM fun code (_ : code ∈ codes) =>
    stops_readCode (collectLabels_nil_iff.1 hlabels) locals code
  have hbuild : ∀ code, codes.mapM (readCode labels locals) = .ok code →
      ∃ made, build (emitAll code) Sequence.empty.beginLoad = .ok made := by
    intro code hcode
    obtain ⟨t, ht⟩ := exists_emitAll Sequence.empty.beginLoad (fits_of_mapM_readCode hcode)
    exact ⟨t, build_eq_ok_iff.2 ht⟩
  rw [← Option.or_none (o := codes.findSome? _)]
  refine hcodes.bind fun code hcode => ?_
  obtain ⟨made, hmade⟩ := hbuild code hcode
  rw [hmade]
  exact ⟨_, rfl⟩

theorem fst_readLines (lines : List (Numbered Line)) (method : MethodDef) (g : TypeGraph) :
    (readLines lines method g).1 =
      readInstructions (resolveTypes g.addCore.2 (localTypes lines)).1 (codeLines lines) >>=
        fun parts =>
          (readHandlers parts.1 (resolveTypes g.addCore.2 (localTypes lines)).2
            (tryLines lines)).1.map fun handlers =>
              let body : Body := { method, instructions := parts.2.2, locals := parts.2.1,
                                   handlers := handlers.toArray }
              { body := body.computeOffsets.2, labels := parts.1 } := by
  unfold readLines
  dsimp only
  cases readInstructions (resolveTypes g.addCore.2 (localTypes lines)).1 (codeLines lines) <;> rfl

theorem stops_readLines (lines : List (Numbered Line)) (method : MethodDef) (g : TypeGraph) :
    Stops (linesFault? lines) (readLines lines method g).1 := by
  have hcount : (resolveTypes g.addCore.2 (localTypes lines)).1.length =
      (localTypes lines).length := (resolveTypes_spec _ _).2.length_eq.symm
  rw [fst_readLines, linesFault?, ← hcount, ← Option.or_assoc]
  refine (stops_readInstructions _ _).bind fun parts hparts => ?_
  have hlabelled : Labelled (codeLines lines) parts.1 := (readInstructions_eq_ok_iff.1 hparts).2.1
  exact (stops_readHandlers hlabelled _ _).map _

end Read

section Body

variable {codes : List (Numbered CodeLine)} {count : Nat} {e : Error}

theorem findSome?_ne_some {α β : Type} {f : α → Option β} {b : β} {xs : List α}
    (h : ∀ x, f x ≠ some b) : xs.findSome? f ≠ some b := fun hb => by
  obtain ⟨x, -, hx⟩ := List.exists_of_findSome?_eq_some hb
  exact h x hx

theorem labelFault?_ne_body (name : String) : labelFault? codes name ≠ some (.body e) := by
  unfold labelFault?
  split_ifs <;> simp

theorem operandFault?_ne_body (line : Nat) (opcode : Opcode) (text : String) :
    operandFault? codes count line opcode text ≠ some (.body e) := by
  have hline : ∀ fault? : Option LineFault,
      fault?.map (ListingError.malformed line) ≠ some (.body e) := by
    intro fault?
    cases fault? <;> simp
  unfold operandFault?
  dsimp only
  cases opcode.operandType with
  | inlineNone =>
    dsimp only
    split_ifs <;> simp
  | inlineBrTarget | shortInlineBrTarget => exact labelFault?_ne_body text
  | inlineSwitch => exact findSome?_ne_some labelFault?_ne_body
  | _ => exact hline _

theorem codeFault?_ne_body (code : Numbered CodeLine) :
    codeFault? codes count code ≠ some (.body e) := by
  unfold codeFault?
  split
  · simp
  · exact operandFault?_ne_body _ _ _

theorem repetition?_ne_body (code : Numbered CodeLine) :
    repetition? codes code ≠ some (.body e) := by
  unfold repetition?
  split
  · split_ifs <;> simp
  · simp

theorem textFault?_ne_body (text : Numbered (List Char)) : textFault? text ≠ some (.body e) := by
  unfold textFault?
  split <;> simp

theorem splitFault?_ne_body (source : String) : splitFault? source ≠ some (.body e) := by
  refine findSome?_ne_some fun l => ?_
  split_ifs
  · simp
  · exact textFault?_ne_body _

theorem linesFault?_ne_body (lines : List (Numbered Line)) :
    linesFault? lines ≠ some (.body e) := by
  rw [linesFault?, ne_eq, Option.or_eq_some_iff, Option.or_eq_some_iff]
  rintro (h | ⟨-, h | ⟨-, h⟩⟩)
  · exact findSome?_ne_some (fun _ => repetition?_ne_body _) h
  · exact findSome?_ne_some codeFault?_ne_body h
  · exact findSome?_ne_some (fun _ => findSome?_ne_some labelFault?_ne_body) h

end Body

section Source

open Sequence (resultsOf loadInto)

/-- A source is not read for the first fault of the first pass that has one: the first line that
cannot be split, and then the graph is as it was; else the first label that comes again; else the
first instruction line that cannot be read; else the first `.try` line with an unknown label. No
edit behind a reading fails, not even if instructions are made as placeholders and get what is read
for them one after the other, up to a line that cannot be read. -/
theorem read_stops (source : String) (method : MethodDef) (g : TypeGraph) :
    (∀ e, splitFault? source = some e → read source method g = (.error e, g))
      ∧ (splitFault? source = none → ∃ lines, splitLines source = .ok lines
        ∧ Stops (linesFault? lines) (read source method g).1)
      ∧ (∀ e, (read source method g).1 ≠ .error (.body e))
      ∧ ∀ labels locals (codes : List (Numbered CodeLine)) code,
        codes.mapM (readCode labels locals) = .ok code →
        ∃ made, build (emitAll code) Sequence.empty.beginLoad = .ok made
          ∧ ∀ count, code.length ≤ count →
            (∀ r ∈ resultsOf (Sequence.empty.runScript (loadInto count code)).1,
              ∃ answer, r = .ok answer)
            ∧ (count = code.length →
              (Sequence.empty.runScript (loadInto count code)).2 = made.endLoad) := by
  have hsplit := stops_splitLines source
  have hfirst : ∀ e, splitFault? source = some e → read source method g = (.error e, g) := by
    intro e he
    rw [he] at hsplit
    have hlines : splitLines source = .error e := hsplit
    rw [read, hlines]
  have hlater : splitFault? source = none → ∃ lines, splitLines source = .ok lines
      ∧ Stops (linesFault? lines) (read source method g).1 := by
    intro hnone
    rw [hnone] at hsplit
    obtain ⟨lines, hlines⟩ := hsplit
    refine ⟨lines, hlines, ?_⟩
    rw [read, hlines]
    exact stops_readLines lines method g
  refine ⟨hfirst, hlater, fun e he => ?_, fun labels locals codes code hcode => ?_⟩
  · cases hfault : splitFault? source with
    | some e' =>
      rw [hfirst e' hfault] at he
      exact splitFault?_ne_body source (hfault.trans (congrArg some (Except.error.inj he)))
    | none =>
      obtain ⟨lines, -, hstops⟩ := hlater hfault
      cases hfault' : linesFault? lines with
      | some e' =>
        rw [hfault'] at hstops
        exact linesFault?_ne_body lines
          (hfault'.trans (congrArg some (Except.error.inj (hstops.symm.trans he))))
      | none =>
        rw [hfault'] at hstops
        obtain ⟨l, hl⟩ := hstops
        cases hl.symm.trans he
  · have hfits := fits_of_mapM_readCode hcode
    obtain ⟨t, ht⟩ := exists_emitAll Sequence.empty.beginLoad hfits
    refine ⟨t, build_eq_ok_iff.2 ht, fun count hcount => ?_⟩
    obtain ⟨hresults, hsame⟩ := Sequence.loadInto_spec hcount hfits
    exact ⟨hresults, fun hall => hsame hall t ht⟩

/-- The label comes again on the third line, which is found before the mnemonic on the first line
and the label that the third names; but the fourth line cannot be split. -/
theorem read_stops_repeated :
    (read "bogus\na: nop\na: br b" {} .empty).1 = .error (.duplicateLabel 3 "a")
      ∧ read "bogus\na: nop\na: br b\n.bad" {} .empty =
        (.error (.malformed 4 .unknownDirective), .empty) := by
  refine ⟨?_, (read_stops _ _ _).1 _ (by decide +kernel)⟩
  obtain ⟨lines, hlines, hstops⟩ :=
    (read_stops "bogus\na: nop\na: br b" {} .empty).2.1 (by decide +kernel)
  obtain rfl : lines = [⟨1, .code ⟨none, "bogus", ""⟩⟩, ⟨2, .code ⟨some "a", "nop", ""⟩⟩,
      ⟨3, .code ⟨some "a", "br", "b"⟩⟩] := by
    rw [show splitLines "bogus\na: nop\na: br b" = .ok _ from rfl] at hlines
    exact (Except.ok.inj hlines).symm
  exact hstops

end Source

end Listing

end CilMethod
