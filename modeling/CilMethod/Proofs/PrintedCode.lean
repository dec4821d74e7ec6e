import CilMethod.Listing.Printer
import CilMethod.Proofs.FreshListing
import CilMethod.Proofs.Lines
import CilMethod.Proofs.Numerals
import Mathlib

/-!
# Instruction lines that are printed and read

An instruction is printed as its label, its mnemonic and its operand. In a listing that was just
read every name is a label again, so what is printed for a target is what the reader looks up
(`nameOf_eq`), and a number is read as it was written. Strings and floating-point numbers aside,
each operand is printed as a text that is read as this operand and no other (`printed_operand`).
The text holds neither a slash nor a quote nor a colon, and so the line is cut where it was put
together, also where a long label touches the mnemonic (`shows_codeText`).
-/

namespace CilMethod

/-- Strings and floating-point numbers. -/
def Operand.isLiteral : Operand → Bool
  | float32 _ | float64 _ | string _ => true
  | _ => false

namespace Opcode

theorem name_of_mem_table : ∀ op ∈ table, op.name.toList ≠ [] ∧ op.name.toList.head? ≠ some '.'
    ∧ op.name.toList.all Text.isPlain = true := by
  decide +kernel

variable {op : Opcode} {name : String}

theorem named?_spec (h : named? name = some op) : op ∈ table ∧ op.name = name :=
  ⟨List.mem_of_find?_eq_some h, by simpa using List.find?_some h⟩

/-- A mnemonic is printed in the case that it is looked up in. -/
theorem named?_name {mnemonic : List Char}
    (h : named? (String.ofList (mnemonic.map Char.toLower)) = some op) :
    named? (String.ofList (op.name.toList.map Char.toLower)) = some op := by
  rw [(named?_spec h).2, String.toList_ofList, List.map_map]
  have hlower : mnemonic.map (Char.toLower ∘ Char.toLower) = mnemonic.map Char.toLower :=
    List.map_congr_left fun c _ => c.toLower_toLower_eq_toLower
  rwa [hlower]

end Opcode

namespace Listing

section Names

variable {source : String} {g : TypeGraph} (p : Phases source g) (method : MethodDef)
  {name : String} {id : InstructionId}

theorem Phases.isLabel_of_findLabel? (h : findLabel? p.labels name = some id) :
    isLabel name.toList = true := by
  obtain ⟨code, hcode, hlabel⟩ := p.labelled.mem_iff.1 (p.labelled.findLabel?_eq_some_iff.1 h)
  obtain ⟨text, -, hsplit⟩ := exists_text_of_mem_codeLines p.split (List.mem_of_getElem? hcode)
  exact (splitCode_spec (splitCode_of_splitLine hsplit)).1 name hlabel

/-- An instruction is printed by the name it was looked up with. -/
theorem Phases.nameOf_eq (h : findLabel? p.labels name = some id) :
    (p.listing method).nameOf id = name := by
  have hlabel : (p.listing method).labelOf? id = some name :=
    (p.labelOf?_listing method).2 (p.labelled.findLabel?_eq_some_iff.1 h)
  have hmember : (p.listing method).body.instructions.contains id = true :=
    (p.reachable_listing method).instructions.consistent.contains_iff.2
      (p.mem_order_of_findLabel? method h)
  rw [nameOf, hlabel, if_pos hmember]

theorem Phases.endName_eq {end? : Option InstructionId} (h : regionEnd p.labels name = .ok end?) :
    (p.listing method).endName end? = name := by
  cases end? with
  | some id => exact p.nameOf_eq method (regionEnd_eq_ok_some h).2
  | none =>
    rw [regionEnd_eq_ok_none h]
    rfl

end Names

section Operands

/-- The characters of printed operands. -/
def isShown (c : Char) : Bool := Text.isPlain c || c == ' ' || c == ',' || c == '(' || c == ')'

theorem isShown_of_isPlain {c : Char} (h : Text.isPlain c = true) : isShown c = true := by
  rw [isShown, h]
  rfl

/-- What is printed of an operand: nothing, or a blank and a text that is read as the operand. -/
structure Printed (labels : Labels) (locals : Locals) (opcode : Opcode) (operand : Operand)
    (printed text : List Char) : Prop where
  printed_eq : printed = [] ∧ text = [] ∨ printed = ' ' :: text ∧ text ≠ []
  head : ∀ c, text.head? = some c → Text.isBlank c = false
  last : ∀ c, text.getLast? = some c → Text.isBlank c = false
  shown : ∀ c ∈ text, isShown c = true
  read : ∀ line, readOperand labels locals line opcode (String.ofList text) = .ok operand

variable {labels : Labels} {locals : Locals} {opcode : Opcode} {operand : Operand}
  {printed text : List Char} {line : Nat}

theorem Printed.of_plain (hprinted : printed = ' ' :: text) (hne : text ≠ [])
    (hplain : ∀ c ∈ text, Text.isPlain c = true)
    (hread : ∀ line, readOperand labels locals line opcode (String.ofList text) = .ok operand) :
    Printed labels locals opcode operand printed text where
  printed_eq := .inr ⟨hprinted, hne⟩
  head c hc := Text.isBlank_of_isPlain (hplain c (List.mem_of_head? hc))
  last c hc := Text.isBlank_of_isPlain (hplain c (List.mem_of_getLast? hc))
  shown c hc := isShown_of_isPlain (hplain c hc)
  read := hread

theorem readNumber_eq_ok {α : Type} {read? : List Char → Option α} {n : α}
    (h : read? text = some n) : readNumber read? text = .ok n := by
  rw [readNumber, h]

/-- An operand type that takes a number and makes an operand of it. -/
def TakesNumber {α : Type} (labels : Labels) (locals : Locals) (opcode : Opcode)
    (read? : List Char → Option α) (f : α → Operand) : Prop :=
  ∀ line text, readOperand labels locals line opcode text =
    onLine line (do return f (← readNumber read? text.toList))

theorem Printed.of_number {α : Type} {read? : List Char → Option α} {f : α → Operand} {n : α}
    (htakes : TakesNumber labels locals opcode read? f) (hn : read? text = some n)
    (hprinted : printed = ' ' :: text) (hne : text ≠ [])
    (hplain : ∀ c ∈ text, Text.isPlain c = true) :
    Printed labels locals opcode (f n) printed text := by
  refine .of_plain hprinted hne hplain fun line => ?_
  rw [htakes, String.toList_ofList, readNumber_eq_ok hn]
  rfl

theorem isPlain_of_isAlphanum {c : Char} (h : c.isAlphanum = true) : Text.isPlain c = true := by
  rw [Text.isPlain, h]
  rfl

theorem isPlain_of_mem_signedDecimal {n : Int} {c : Char} (h : c ∈ Text.signedDecimal n) :
    Text.isPlain c = true := by
  rcases Text.mem_signedDecimal h with rfl | h
  · rfl
  · exact isPlain_of_isAlphanum h

theorem Printed.of_signed {f : Int → Operand} {b : Nat} {n : Int}
    (htakes : TakesNumber labels locals opcode (Text.readSigned? b) f) (hlow : -b ≤ n)
    (hhigh : n < b) (hprinted : printed = ' ' :: Text.signedDecimal n) :
    Printed labels locals opcode (f n) printed (Text.signedDecimal n) := by
  have hne : Text.signedDecimal n ≠ [] := by
    unfold Text.signedDecimal
    split_ifs
    · simp
    · exact Text.toDigits_ne_nil (by omega)
  exact .of_number htakes (Text.readSigned?_signedDecimal hlow hhigh) hprinted hne
    fun c => isPlain_of_mem_signedDecimal

theorem isPlain_of_mem_decimal {n : Nat} {c : Char} (h : c ∈ Text.decimal n) :
    Text.isPlain c = true :=
  isPlain_of_isAlphanum (Text.isAlphanum_of_mem_toDigits (by omega) (by omega) h)

theorem readToken_hexadecimal (t : Token) :
    readToken ("0x".toList ++ Text.hexadecimal 8 t.raw.toNat) = .ok (.token t) := by
  have hafter : Text.after? ['0', 'x'] ("0x".toList ++ Text.hexadecimal 8 t.raw.toNat) =
      some (Text.hexadecimal 8 t.raw.toNat) := rfl
  have hread : Text.readUnsigned? 16 (1 <<< 32) (Text.hexadecimal 8 t.raw.toNat) =
      some t.raw.toNat :=
    Text.readUnsigned?_hexadecimal 8 t.raw.toNat_lt
  rw [readToken, hafter]
  dsimp only
  rw [hread]
  simp

theorem dropVariableMark_of_notMem (h : 'V' ∉ text) : dropVariableMark text = text := by
  unfold dropVariableMark
  split
  · simp at h
  · rfl

theorem readVariable_decimal {index : Nat} {v : VariableId} (hv : locals.get? index = some v)
    (hindex : index < 1 <<< 64) :
    readVariable locals ("V_".toList ++ Text.decimal index) = .ok (.localVar v) := by
  have hdrop : dropVariableMark ("V_".toList ++ Text.decimal index) = Text.decimal index :=
    dropVariableMark_of_notMem Text.letter_notMem_decimal
  rw [readVariable, hdrop, readNumber_eq_ok (Text.readUnsigned?_decimal hindex)]
  refine bind_eq_ok_iff.2 ⟨index, rfl, ?_⟩
  rw [hv]

/-- Between the brackets of a jump table stand plain characters, commas and blanks. -/
theorem mem_table {ws : List (List Char)} (h : ∀ w ∈ ws, isLabel w = true) {c : Char}
    (hc : c ∈ [',', ' '].intercalate ws) : Text.isPlain c = true ∨ c = ',' ∨ c = ' ' := by
  rcases Text.mem_intercalate hc with hc | ⟨w, hw, hc⟩
  · exact .inr (by simpa using hc)
  · exact .inl (isPlain_of_isLabel (h w hw) c hc)

theorem tableNames_intercalate {ws : List (List Char)} (h : ∀ w ∈ ws, isLabel w = true) :
    tableNames ('(' :: ([',', ' '].intercalate ws ++ [')'])) = ws.map String.ofList := by
  have hdrop : ∀ {cs : List Char} {d : Char}, d ∉ cs → cs.dropWhile (· == d) = cs := by
    rintro (_ | ⟨c, cs⟩) d hd
    · rfl
    · rw [List.mem_cons, not_or] at hd
      rw [List.dropWhile_cons, if_neg (by simpa using Ne.symm hd.1)]
  have hbracket : ∀ d, Text.isPlain d = false → d ≠ ',' → d ≠ ' ' →
      d ∉ [',', ' '].intercalate ws := by
    rintro d hplain hcomma hblank hmem
    rcases mem_table h hmem with hd | rfl | rfl
    · rw [hplain] at hd
      cases hd
    · exact hcomma rfl
    · exact hblank rfl
  have hopen : '(' ∉ [',', ' '].intercalate ws := hbracket '(' rfl (by decide) (by decide)
  have hclose : ')' ∉ [',', ' '].intercalate ws := hbracket ')' rfl (by decide) (by decide)
  have hentries : Text.entries ([',', ' '].intercalate ws) = ws :=
    Text.entries_intercalate fun w hw => ⟨isWord_of_isLabel (h w hw),
      Text.notMem_of_isPlain (isPlain_of_isLabel (h w hw)) rfl⟩
  simp only [tableNames]
  rw [List.dropWhile_cons, if_pos (by rfl), hdrop (by simp [hopen]), Text.dropEndWhile,
    List.reverse_append, List.reverse_singleton, List.singleton_append, List.dropWhile_cons,
    if_pos (by rfl), hdrop (by simpa using hclose), List.reverse_reverse, hentries]

end Operands

section Lines

variable {source : String} {g : TypeGraph} (p : Phases source g) (method : MethodDef)
  {opcode : Opcode} {operand : Operand}

/-- What is printed of an operand is read as the operand. -/
def Phases.ReadsBack (opcode : Opcode) (operand : Operand) : Prop :=
  ∃ text, Printed p.labels p.locals opcode operand ((p.listing method).operandText operand).toList
    text

theorem Phases.variableName_eq (hlocals : p.locals.length < 1 <<< 31) {index : Nat} {v : VariableId}
    (hv : p.locals.get? index = some v) :
    ((p.listing method).variableName v).toList = "V_".toList ++ Text.decimal index := by
  have hreachable := (p.reachable_listing method).locals
  rw [body_listing] at hreachable
  have hindex : p.locals.indexOf? v = some index := hreachable.indexOf?_eq_some_iff.2 hv
  obtain ⟨slot, hslot, hsome⟩ := Option.bind_eq_some_iff.1 hindex
  have hlt : index < p.locals.length := (Array.getElem?_eq_some_iff.1 hv).1
  have hraw : slot.rawIndex = index := by
    rw [Slot.rawIndex, hsome]
    exact Int.bmod_eq_of_le (by omega) (by omega)
  have hdecimal : Text.signedDecimal slot.rawIndex = Text.decimal index := by
    rw [hraw, Text.signedDecimal, if_neg (by omega), Int.natAbs_natCast]
  have hslot' : (p.listing method).body.locals.slot? v = some slot := by
    rw [body_listing]
    exact hslot
  rw [variableName, hslot']
  simp only [hsome, Option.isSome_some, if_true, String.toList_append, hdecimal,
    String.toList_ofList]

theorem Phases.printed_token {value : Token}
    (hfits : (Operand.token value).fits opcode.operandType = true) :
    p.ReadsBack method opcode (.token value) := by
  refine ⟨"0x".toList ++ Text.hexadecimal 8 value.raw.toNat,
    .of_plain (by simp [operandText]) (by simp) (fun c hc => ?_) fun line => ?_⟩
  · rcases List.mem_append.1 hc with hc | hc
    · exact List.all_eq_true.1 (show "0x".toList.all Text.isPlain = true by decide) c hc
    · exact isPlain_of_isAlphanum (Text.isAlphanum_of_mem_hexadecimal hc)
  · have hread : readOperand p.labels p.locals line opcode
        (String.ofList ("0x".toList ++ Text.hexadecimal 8 value.raw.toNat)) =
        onLine line (readToken ("0x".toList ++ Text.hexadecimal 8 value.raw.toNat)) := by
      simp only [Operand.fits, Bool.or_eq_true, beq_iff_eq] at hfits
      rcases hfits with (((htype | htype) | htype) | htype) | htype <;>
        simp only [readOperand, htype, String.toList_ofList]
    rw [hread, readToken_hexadecimal]
    rfl

theorem Phases.printed_localVar {v : VariableId}
    (hfits : (Operand.localVar v).fits opcode.operandType = true)
    (hresolved : Resolved p.labels p.locals (.localVar v)) (hlocals : p.locals.length < 1 <<< 31) :
    p.ReadsBack method opcode (.localVar v) := by
  obtain ⟨index, hindex⟩ := hresolved.localVar v rfl
  have hlt : index < p.locals.length := (Array.getElem?_eq_some_iff.1 hindex).1
  refine ⟨"V_".toList ++ Text.decimal index, .of_plain ?_ (by simp) (fun c hc => ?_)
    fun line => ?_⟩
  · rw [operandText, String.toList_append, p.variableName_eq method hlocals hindex]
    rfl
  · rcases List.mem_append.1 hc with hc | hc
    · exact List.all_eq_true.1 (show "V_".toList.all Text.isPlain = true by decide) c hc
    · exact isPlain_of_mem_decimal hc
  · have hread : readOperand p.labels p.locals line opcode
        (String.ofList ("V_".toList ++ Text.decimal index)) =
        onLine line (readVariable p.locals ("V_".toList ++ Text.decimal index)) := by
      simp only [Operand.fits, Bool.or_eq_true, beq_iff_eq] at hfits
      rcases hfits with htype | htype <;> simp only [readOperand, htype, String.toList_ofList]
    rw [hread, readVariable_decimal hindex (by omega)]
    rfl

theorem Phases.printed_target {id : InstructionId}
    (hfits : (Operand.target id).fits opcode.operandType = true)
    (hresolved : Resolved p.labels p.locals (.target id)) :
    p.ReadsBack method opcode (.target id) := by
  obtain ⟨name, hname⟩ := hresolved.targets id List.mem_cons_self
  have hlabel := p.isLabel_of_findLabel? hname
  refine ⟨name.toList, .of_plain (by simp [operandText, p.nameOf_eq method hname])
    (isWord_of_isLabel hlabel).1 (isPlain_of_isLabel hlabel) fun line => ?_⟩
  have hread : readOperand p.labels p.locals line opcode (String.ofList name.toList) =
      (do return .target (← findLabel p.labels (String.ofList name.toList))) := by
    simp only [Operand.fits, Bool.or_eq_true, beq_iff_eq] at hfits
    rcases hfits with htype | htype <;> simp only [readOperand, htype]
  rw [hread, String.ofList_toList, findLabel_eq_ok_iff.2 hname]
  rfl

theorem Phases.printed_switch {ids : List InstructionId}
    (hfits : (Operand.switch ids).fits opcode.operandType = true)
    (hresolved : Resolved p.labels p.locals (.switch ids)) :
    p.ReadsBack method opcode (.switch ids) := by
  have htype : opcode.operandType = .inlineSwitch := by simpa [Operand.fits] using hfits
  have hnames : ∀ id ∈ ids, findLabel? p.labels ((p.listing method).nameOf id) = some id := by
    intro id hid
    obtain ⟨name, hname⟩ := hresolved.targets id hid
    rwa [p.nameOf_eq method hname]
  have hlabels : ∀ w ∈ ids.map fun id => ((p.listing method).nameOf id).toList,
      isLabel w = true := by
    intro w hw
    obtain ⟨id, hid, rfl⟩ := List.mem_map.1 hw
    exact p.isLabel_of_findLabel? (hnames id hid)
  refine ⟨'(' :: ([',', ' '].intercalate
    (ids.map fun id => ((p.listing method).nameOf id).toList) ++ [')']), ?_, ?_, ?_, ?_, ?_⟩
  · refine .inr ⟨?_, by simp⟩
    simp [operandText, String.toList_intercalate, Function.comp_def]
  · intro c hc
    cases hc
    rfl
  · intro c hc
    rw [← List.cons_append, List.getLast?_concat] at hc
    cases hc
    rfl
  · intro c hc
    rw [List.mem_cons, List.mem_append, List.mem_singleton] at hc
    rcases hc with rfl | hc | rfl
    · rfl
    · rcases mem_table hlabels hc with hc | rfl | rfl
      · exact isShown_of_isPlain hc
      · rfl
      · rfl
    · rfl
  · intro line
    have hread : (ids.map (p.listing method).nameOf).mapM (findLabel p.labels) = .ok ids := by
      rw [mapM_eq_ok_iff, List.forall₂_map_left_iff, List.forall₂_same]
      exact fun id hid => findLabel_eq_ok_iff.2 (hnames id hid)
    simp only [readOperand, htype, String.toList_ofList]
    rw [tableNames_intercalate hlabels, List.map_map]
    simp only [Function.comp_def, String.ofList_toList]
    rw [hread]
    rfl

/-- Every operand that is no literal is printed as a text that is read as the operand. -/
theorem Phases.printed_operand (hfits : operand.fits opcode.operandType = true)
    (hresolved : Resolved p.labels p.locals operand) (hliteral : operand.isLiteral = false)
    (hlocals : p.locals.length < 1 <<< 31) :
    p.ReadsBack method opcode operand := by
  cases operand with
  | none =>
    have htype : opcode.operandType = .inlineNone := by simpa [Operand.fits] using hfits
    exact ⟨[], .inl ⟨rfl, rfl⟩, by simp, by simp, by simp, fun line => by simp [readOperand, htype]⟩
  | int8 value =>
    have htype : opcode.operandType = .shortInlineI := by simpa [Operand.fits] using hfits
    have htakes : TakesNumber p.labels p.locals opcode (Text.readSigned? (1 <<< 7))
        fun n => .int8 (.ofInt n) := fun line text => by simp only [readOperand, htype]
    have hprinted := Printed.of_signed htakes value.le_toInt value.toInt_lt rfl
    rw [Int8.ofInt_toInt] at hprinted
    exact ⟨_, by simpa [operandText] using hprinted⟩
  | int32 value =>
    have htype : opcode.operandType = .inlineI := by simpa [Operand.fits] using hfits
    have htakes : TakesNumber p.labels p.locals opcode (Text.readSigned? (1 <<< 31))
        fun n => .int32 (.ofInt n) := fun line text => by simp only [readOperand, htype]
    have hprinted := Printed.of_signed htakes value.le_toInt value.toInt_lt rfl
    rw [Int32.ofInt_toInt] at hprinted
    exact ⟨_, by simpa [operandText] using hprinted⟩
  | int64 value =>
    have htype : opcode.operandType = .inlineI8 := by simpa [Operand.fits] using hfits
    have htakes : TakesNumber p.labels p.locals opcode (Text.readSigned? (1 <<< 63))
        fun n => .int64 (.ofInt n) := fun line text => by simp only [readOperand, htype]
    have hprinted := Printed.of_signed htakes value.le_toInt value.toInt_lt rfl
    rw [Int64.ofInt_toInt] at hprinted
    exact ⟨_, by simpa [operandText] using hprinted⟩
  | float32 bits => cases hliteral
  | float64 bits => cases hliteral
  | string value => cases hliteral
  | token value => exact p.printed_token method hfits
  | localVar v => exact p.printed_localVar method hfits hresolved hlocals
  | argument number =>
    have htakes : TakesNumber p.labels p.locals opcode (Text.readUnsigned? 10 (1 <<< 16))
        fun n => .argument n.toUInt16 := by
      intro line text
      simp only [Operand.fits, Bool.or_eq_true, beq_iff_eq] at hfits
      rcases hfits with htype | htype <;> simp only [readOperand, htype]
    have hprinted := Printed.of_number htakes (Text.readUnsigned?_decimal number.toNat_lt) rfl
      (Text.toDigits_ne_nil (by omega)) fun c => isPlain_of_mem_decimal
    rw [show number.toNat.toUInt16 = number from UInt16.ofNat_toNat] at hprinted
    exact ⟨_, by simpa [operandText] using hprinted⟩
  | target id => exact p.printed_target method hfits hresolved
  | switch ids => exact p.printed_switch method hfits hresolved

end Lines

section Code

variable {labels : Labels} {locals : Locals} {opcode : Opcode} {operand : Operand}
  {printed text : List Char} {label : Option String}

theorem isWord_name (hopcode : opcode ∈ Opcode.table) : Text.IsWord opcode.name.toList := by
  obtain ⟨hne, -, hplain⟩ := Opcode.name_of_mem_table opcode hopcode
  exact ⟨hne, fun c hc => Text.isBlank_of_isPlain (List.all_eq_true.1 hplain c hc)⟩

theorem Printed.blank (h : Printed labels locals opcode operand printed text) :
    ∀ c, printed.head? = some c → Text.isBlank c = true := by
  rcases h.printed_eq with ⟨rfl, -⟩ | ⟨rfl, -⟩
  · simp
  · intro c hc
    cases hc
    rfl

/-- A mnemonic and what is printed behind it need no trimming. -/
theorem Printed.tight (h : Printed labels locals opcode operand printed text)
    (hopcode : opcode ∈ Opcode.table) :
    (∀ c, (opcode.name.toList ++ printed).head? = some c → Text.isBlank c = false ∧ c ≠ '.')
      ∧ ∀ c, (opcode.name.toList ++ printed).getLast? = some c → Text.isBlank c = false := by
  have hword := isWord_name hopcode
  have hpoint := (Opcode.name_of_mem_table opcode hopcode).2.1
  constructor
  · intro c hc
    rw [List.head?_append_of_ne_nil _ hword.1] at hc
    refine ⟨hword.2 c (List.mem_of_head? hc), ?_⟩
    rintro rfl
    exact hpoint hc
  · intro c hc
    rcases h.printed_eq with ⟨rfl, -⟩ | ⟨rfl, hne⟩
    · rw [List.append_nil] at hc
      exact hword.2 c (List.mem_of_getLast? hc)
    · refine h.last c ?_
      rw [← hc, List.append_cons, List.getLast?_append_of_ne_nil _ hne]

theorem Printed.shown_code (h : Printed labels locals opcode operand printed text)
    (hopcode : opcode ∈ Opcode.table) :
    ∀ c ∈ opcode.name.toList ++ printed, isShown c = true := by
  have hplain := (Opcode.name_of_mem_table opcode hopcode).2.2
  intro c hc
  rcases List.mem_append.1 hc with hc | hc
  · exact isShown_of_isPlain (List.all_eq_true.1 hplain c hc)
  · rcases h.printed_eq with ⟨rfl, -⟩ | ⟨rfl, -⟩
    · simp at hc
    · rcases List.mem_cons.1 hc with rfl | hc
      · rfl
      · exact h.shown c hc

theorem Printed.splitLine_eq (h : Printed labels locals opcode operand printed text)
    (hopcode : opcode ∈ Opcode.table) {cs : List Char} (hhead : cs.head? ≠ some '.')
    (hlabel : splitLabel cs = (label, opcode.name.toList ++ printed)) :
    splitLine cs = .ok (.code ⟨label, opcode.name, String.ofList text⟩) := by
  have htext : Text.trim (printed.drop 1) = text := by
    rcases h.printed_eq with ⟨rfl, rfl⟩ | ⟨rfl, -⟩
    · rfl
    · exact Text.trim_eq_self h.head h.last
  rw [splitLine_of_head hhead, splitCode_eq hlabel (isWord_name hopcode) h.blank, htext,
    String.ofList_toList]
  rfl

/-- The text of an instruction from its label on. -/
def lineText (label : Option String) (opcode : Opcode) (printed : List Char) : String :=
  String.ofList (Text.padRight 10 (match label with
    | some label => label.toList ++ [':']
    | none => [])) ++ opcode.name ++ String.ofList printed

theorem Printed.shows_unlabelled (h : Printed labels locals opcode operand printed text)
    (hopcode : opcode ∈ Opcode.table) :
    Shows (lineText none opcode printed) (.code ⟨none, opcode.name, String.ofList text⟩) := by
  have htext : (lineText none opcode printed).toList =
      List.replicate 10 ' ' ++ (opcode.name.toList ++ printed) := by
    simp [lineText, Text.padRight]
  have hshown := h.shown_code hopcode
  obtain ⟨hhead, hlast⟩ := h.tight hopcode
  have hno : ∀ d, isShown d = false → d ∉ opcode.name.toList ++ printed := fun d hd hmem => by
    rw [hshown d hmem] at hd
    cases hd
  have hcontent : content (List.replicate 10 ' ' ++ (opcode.name.toList ++ printed)) =
      opcode.name.toList ++ printed := by
    have hslash : '/' ∉ List.replicate 10 ' ' ++ (opcode.name.toList ++ printed) := by
      rw [List.mem_append, not_or]
      exact ⟨by decide, hno '/' rfl⟩
    have hblanks : ∀ c ∈ List.replicate 10 ' ', Text.isBlank c = true := fun c hc => by
      rw [List.eq_of_mem_replicate hc]
      rfl
    rw [content, stripComment_of_notMem hslash, Text.trim_blanks_append hblanks,
      Text.trim_eq_self (fun c hc => (hhead c hc).1) hlast]
  refine ⟨?_, ?_, ?_⟩
  · rw [htext, List.mem_append, not_or]
    exact ⟨by decide, hno '\n' rfl⟩
  · rw [htext, hcontent]
    exact List.append_ne_nil_of_left_ne_nil (isWord_name hopcode).1 printed
  · rw [htext, hcontent]
    exact h.splitLine_eq hopcode (fun hc => (hhead '.' hc).2 rfl)
      (splitLabel_of_notMem (hno ':' rfl))

theorem Printed.shows_labelled (h : Printed labels locals opcode operand printed text)
    (hopcode : opcode ∈ Opcode.table) {name : String} (hname : isLabel name.toList = true) :
    Shows (lineText (some name) opcode printed)
      (.code ⟨some name, opcode.name, String.ofList text⟩) := by
  obtain ⟨blanks, hblanks, htext⟩ : ∃ blanks : List Char, (∀ c ∈ blanks, c = ' ')
      ∧ (lineText (some name) opcode printed).toList =
        name.toList ++ ':' :: (blanks ++ (opcode.name.toList ++ printed)) :=
    ⟨List.replicate (10 - (name.toList ++ [':']).length) ' ',
      fun c hc => List.eq_of_mem_replicate hc, by simp [lineText, Text.padRight]⟩
  have hplain := isPlain_of_isLabel hname
  have hshown := h.shown_code hopcode
  obtain ⟨hhead, hlast⟩ := h.tight hopcode
  have hno : ∀ d, isShown d = false → d ≠ ':' →
      d ∉ name.toList ++ ':' :: (blanks ++ (opcode.name.toList ++ printed)) := by
    intro d hd hcolon hmem
    rw [List.mem_append, List.mem_cons, List.mem_append] at hmem
    rcases hmem with hmem | hmem | hmem | hmem
    · rw [isShown_of_isPlain (hplain d hmem)] at hd
      cases hd
    · exact hcolon hmem
    · rw [hblanks d hmem] at hd
      cases hd
    · rw [hshown d hmem] at hd
      cases hd
  have hfirst : ∀ c, (name.toList ++ ':' :: (blanks ++ (opcode.name.toList ++ printed))).head? =
      some c → c ∈ name.toList := by
    intro c hc
    rw [List.head?_append_of_ne_nil _ (isWord_of_isLabel hname).1] at hc
    exact List.mem_of_head? hc
  have hcontent : content (name.toList ++ ':' :: (blanks ++ (opcode.name.toList ++ printed))) =
      name.toList ++ ':' :: (blanks ++ (opcode.name.toList ++ printed)) := by
    have hne : opcode.name.toList ++ printed ≠ [] :=
      List.append_ne_nil_of_left_ne_nil (isWord_name hopcode).1 printed
    refine content_eq_self (.of_notMem (hno '/' rfl (by decide)))
      (fun c hc => Text.isBlank_of_isPlain (hplain c (hfirst c hc))) fun c hc => hlast c ?_
    rwa [List.append_cons, ← List.append_assoc, List.getLast?_append_of_ne_nil _ hne] at hc
  have hlabel : splitLabel (name.toList ++ ':' :: (blanks ++ (opcode.name.toList ++ printed))) =
      (some name, opcode.name.toList ++ printed) := by
    have hblank : ∀ c ∈ blanks, Text.isBlank c = true := fun c hc => by
      rw [hblanks c hc]
      rfl
    rw [splitLabel_append hname, Text.trim_blanks_append hblank,
      Text.trim_eq_self (fun c hc => (hhead c hc).1) hlast, String.ofList_toList]
  refine ⟨?_, ?_, ?_⟩
  · rw [htext]
    exact hno '\n' rfl (by decide)
  · rw [htext, hcontent]
    simp
  · rw [htext, hcontent]
    exact h.splitLine_eq hopcode (fun hc => point_notMem_of_isLabel hname (hfirst '.' hc)) hlabel

/-- A printed instruction line is cut into its parts, and these are read as the instruction. -/
theorem Phases.shows_codeText {source : String} {g : TypeGraph} (p : Phases source g)
    (method : MethodDef) (hlocals : p.locals.length < 1 <<< 31) {id : InstructionId}
    {i : Instruction} (hi : (p.listing method).body.instructions.node? id = some i)
    (hliteral : i.operand.isLiteral = false) :
    ∃ parts : CodeLine, parts.label = (p.listing method).labelOf? id
      ∧ Shows ((p.listing method).codeText id i) (.code parts)
      ∧ ∀ line, readCode p.labels p.locals ⟨line, parts⟩ = .ok (i.opcode, i.operand) := by
  have hs := (p.reachable_listing method).instructions.consistent
  obtain ⟨line, -, hline⟩ := p.readCode_of_node? method hi
  have hnamed := (readCode_eq_ok_iff.1 hline).1
  have hopcode := (Opcode.named?_spec hnamed).1
  obtain ⟨text, htext⟩ :=
    p.printed_operand method (hs.fits hi) (p.resolved_of_node? method hi) hliteral hlocals
  refine ⟨⟨(p.listing method).labelOf? id, i.opcode.name, String.ofList text⟩, rfl, ?_, fun line =>
    readCode_eq_ok_iff.2 ⟨Opcode.named?_name hnamed, htext.read line⟩⟩
  have hcodeText : (p.listing method).codeText id i = lineText ((p.listing method).labelOf? id)
      i.opcode ((p.listing method).operandText i.operand).toList := by
    rw [lineText.eq_def, String.ofList_toList]
    rfl
  rw [hcodeText]
  cases hlabel : (p.listing method).labelOf? id with
  | none => exact htext.shows_unlabelled hopcode
  | some name =>
    have hname := p.labelled.findLabel?_eq_some_iff.2 ((p.labelOf?_listing method).1 hlabel)
    exact htext.shows_labelled hopcode (p.isLabel_of_findLabel? hname)

end Code

end Listing

end CilMethod
