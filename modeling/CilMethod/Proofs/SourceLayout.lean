import CilMethod.Proofs.FreshListing
import CilMethod.Proofs.Lines
import Mathlib.Logic.Relation

/-!
# How a source is laid out

Of a source, only the texts of its lines count, and these only kind by kind: declarations of
variables, handlers and instructions are read one kind after the other, so how they are mixed makes
no difference (`SameKinds`, `sameReading_of_sameKinds`). Blank lines, comments and indentation do
not even change the texts, and a directive that moves past instructions leaves the order within each
kind alone (`Relaid.sameKinds`).

What is left of the layout are the numbers of the lines. They stand in messages only: an instruction
line that is read is read to the same with any other number (`readInstructions_congr`).
-/

namespace CilMethod.Listing

/-! ## Kinds of lines -/

/-- What a text starts like. -/
inductive Kind where
  | locals
  | region
  | unknownDirective
  | code
  deriving DecidableEq

def kindOf (text : List Char) : Kind :=
  if ".locals".toList.isPrefixOf text then .locals
  else if ".try".toList.isPrefixOf text then .region
  else if text.head? = some '.' then .unknownDirective
  else .code

def Line.kind : Line → Kind
  | .locals _ => .locals
  | .region _ => .region
  | .code _ => .code

/-- The same texts, kind by kind. -/
def SameKinds (texts texts' : List (List Char)) : Prop :=
  ∀ kind, texts.filter (kindOf · == kind) = texts'.filter (kindOf · == kind)

section Kinds

variable {texts texts' : List (List Char)} {text : List Char} {items items' : List Line}
  {item : Line}

theorem isSome_after? : ∀ lead cs : List Char, (Text.after? lead cs).isSome = lead.isPrefixOf cs
  | [], cs => by simp [Text.after?]
  | _ :: _, [] => rfl
  | l :: lead, c :: cs => by
    rw [Text.after?, List.isPrefixOf]
    split_ifs with h
    · simp [h, isSome_after? lead cs]
    · simp [h]

theorem kind_of_splitLine (h : splitLine text = .ok item) : item.kind = kindOf text := by
  unfold splitLine at h
  rw [kindOf, ← isSome_after?, ← isSome_after?]
  split at h
  · rename_i rest hrest
    cases h
    rw [if_pos (by rw [hrest]; rfl)]
    rfl
  · rename_i hlocals
    rw [if_neg (by rw [hlocals]; exact Bool.false_ne_true)]
    split at h
    · rename_i rest hrest
      obtain ⟨parts, -, rfl⟩ := map_eq_ok_iff.1 h
      rw [if_pos (by rw [hrest]; rfl)]
      rfl
    · rename_i htry
      split_ifs at h with hdot
      obtain ⟨parts, -, rfl⟩ := map_eq_ok_iff.1 h
      rw [if_neg (by rw [htry]; exact Bool.false_ne_true), if_neg hdot]
      rfl

namespace SameKinds

theorem refl (texts : List (List Char)) : SameKinds texts texts := fun _ => rfl

theorem symm (h : SameKinds texts texts') : SameKinds texts' texts := fun kind => (h kind).symm

theorem trans {texts'' : List (List Char)} (h : SameKinds texts texts')
    (h' : SameKinds texts' texts'') : SameKinds texts texts'' :=
  fun kind => (h kind).trans (h' kind)

theorem mem_iff (h : SameKinds texts texts') : text ∈ texts ↔ text ∈ texts' := by
  have hmem : ∀ ts : List (List Char), text ∈ ts ↔ text ∈ ts.filter (kindOf · == kindOf text) := by
    simp
  rw [hmem texts, hmem texts', h]

/-- What is made of the texts is the same, kind by kind. -/
theorem filter_items (h : SameKinds texts texts')
    (hitems : List.Forall₂ (fun text item => splitLine text = .ok item) texts items)
    (hitems' : List.Forall₂ (fun text item => splitLine text = .ok item) texts' items')
    (kind : Kind) : items.filter (·.kind == kind) = items'.filter (·.kind == kind) := by
  have hfilter : ∀ {ts : List (List Char)} {is : List Line},
      List.Forall₂ (fun text item => splitLine text = .ok item) ts is →
      List.Forall₂ (fun text item => splitLine text = .ok item)
        (ts.filter (kindOf · == kind)) (is.filter (·.kind == kind)) := by
    intro ts is his
    induction his with
    | nil => exact .nil
    | cons hline _ ih =>
      rw [List.filter_cons, List.filter_cons, kind_of_splitLine hline]
      split_ifs
      · exact .cons hline ih
      · exact ih
  have hone := hfilter hitems
  rw [h kind] at hone
  refine List.right_unique_forall₂' (fun text item item' hi hi' => ?_) hone (hfilter hitems')
  exact Except.ok.inj (hi.symm.trans hi')

end SameKinds

theorem flatMap_types (items : List Line) :
    items.flatMap Line.types = (items.filter (·.kind == .locals)).flatMap Line.types := by
  induction items with
  | nil => rfl
  | cons item items ih =>
    rw [List.flatMap_cons, ih, List.filter_cons]
    cases item <;> rfl

theorem filterMap_region? (items : List Line) :
    items.filterMap Line.region? = (items.filter (·.kind == .region)).filterMap Line.region? := by
  rw [List.filterMap_filter]
  refine List.filterMap_congr fun item _ => ?_
  cases item <;> rfl

theorem filterMap_code? (items : List Line) :
    items.filterMap Line.code? = (items.filter (·.kind == .code)).filterMap Line.code? := by
  rw [List.filterMap_filter]
  refine List.filterMap_congr fun item _ => ?_
  cases item <;> rfl

end Kinds

/-! ## Line numbers -/

section Numbers

variable {labels : Labels} {locals : Locals} {opcode : Opcode} {text : String} {operand : Operand}
  {lines lines' : List (Numbered CodeLine)} {types : List TypeId}

/-- The number of a line is used in messages only. -/
theorem readOperand_of_line (line line' : Nat)
    (h : readOperand labels locals line opcode text = .ok operand) :
    readOperand labels locals line' opcode text = .ok operand := by
  simp only [readOperand] at h ⊢
  cases htype : opcode.operandType with
  | inlineNone =>
    simp only [htype] at h ⊢
    split_ifs at h ⊢
    exact h
  | inlineBrTarget | shortInlineBrTarget | inlineSwitch =>
    simp only [htype] at h ⊢
    exact h
  | _ =>
    simp only [htype, onLine_eq_ok_iff] at h ⊢
    exact h

theorem readCode_of_item_eq {code code' : Numbered CodeLine} (hitem : code.item = code'.item)
    {c : Opcode × Operand} (h : readCode labels locals code = .ok c) :
    readCode labels locals code' = .ok c := by
  obtain ⟨line, parts⟩ := code
  obtain ⟨line', parts'⟩ := code'
  obtain rfl : parts = parts' := hitem
  rw [readCode_eq_ok_iff] at h ⊢
  exact ⟨h.1, readOperand_of_line line line' h.2⟩

theorem Labelled.congr (hitems : lines.map (·.item) = lines'.map (·.item))
    (h : Labelled lines labels) : Labelled lines' labels := by
  refine ⟨?_, h.nodup⟩
  rw [h.eq]
  have hlabels := congrArg (List.map CodeLine.label) hitems
  rw [List.map_map, List.map_map] at hlabels
  exact labelsFrom_congr hlabels

theorem forall₂_readCode {code : List (Opcode × Operand)}
    (h : List.Forall₂ (fun line c => readCode labels locals line = .ok c) lines code)
    (hitems : lines.map (·.item) = lines'.map (·.item)) :
    List.Forall₂ (fun line c => readCode labels locals line = .ok c) lines' code := by
  induction h generalizing lines' with
  | nil =>
    rw [List.map_nil, eq_comm, List.map_eq_nil_iff] at hitems
    rw [hitems]
    exact .nil
  | cons hline _ ih =>
    rw [List.map_cons, eq_comm, List.map_eq_cons_iff] at hitems
    obtain ⟨line', rest', rfl, hitem, hrest⟩ := hitems
    exact .cons (readCode_of_item_eq hitem.symm hline) (ih hrest.symm)

theorem readInstructions_of_items {parts : Labels × Locals × Sequence}
    (hitems : lines.map (·.item) = lines'.map (·.item))
    (h : readInstructions types lines = .ok parts) : readInstructions types lines' = .ok parts := by
  obtain ⟨labels, locals, s⟩ := parts
  obtain ⟨hlocals, hlabels, code, loaded, hcode, hloaded, rfl⟩ := readInstructions_eq_ok_iff.1 h
  exact readInstructions_eq_ok_iff.2
    ⟨hlocals, hlabels.congr hitems, code, loaded, forall₂_readCode hcode hitems, hloaded, rfl⟩

/-- Instruction lines that say the same are read to the same, or neither are. -/
theorem readInstructions_congr (types : List TypeId)
    (hitems : lines.map (·.item) = lines'.map (·.item)) :
    (readInstructions types lines).toOption = (readInstructions types lines').toOption := by
  cases h : readInstructions types lines with
  | ok parts => rw [readInstructions_of_items hitems h]
  | error e =>
    cases h' : readInstructions types lines' with
    | ok parts =>
      rw [readInstructions_of_items hitems.symm h'] at h
      cases h
    | error e' => rfl

end Numbers

/-! ## Sources that are read alike -/

/-- Both sources are read to the same listing or neither is read, and they leave the same graph. -/
structure SameReading (source source' : String) : Prop where
  ok_iff : ∀ {method : MethodDef} {g g' : TypeGraph} {l : Listing},
    read source method g = (.ok l, g') ↔ read source' method g = (.ok l, g')
  graph_eq : ∀ (method : MethodDef) (g : TypeGraph),
    (read source method g).2 = (read source' method g).2

section Reading

variable {source source' : String} {lines lines' : List (Numbered Line)}

theorem readLines_congr (htypes : localTypes lines = localTypes lines')
    (htries : tryLines lines = tryLines lines')
    (hcodes : (codeLines lines).map (·.item) = (codeLines lines').map (·.item))
    (method : MethodDef) (g : TypeGraph) :
    (readLines lines method g).1.toOption = (readLines lines' method g).1.toOption
      ∧ (readLines lines method g).2 = (readLines lines' method g).2 := by
  unfold readLines
  rw [← htypes, ← htries]
  dsimp only
  have hparts := readInstructions_congr (resolveTypes g.addCore.2 (localTypes lines)).1 hcodes
  revert hparts
  cases readInstructions (resolveTypes g.addCore.2 (localTypes lines)).1 (codeLines lines) with
  | ok parts =>
    cases readInstructions (resolveTypes g.addCore.2 (localTypes lines)).1 (codeLines lines') with
    | ok parts' =>
      intro hparts
      obtain rfl : parts = parts' := Option.some.inj hparts
      exact ⟨rfl, rfl⟩
    | error e' => exact nofun
  | error e =>
    cases readInstructions (resolveTypes g.addCore.2 (localTypes lines)).1 (codeLines lines') with
    | ok parts' => exact nofun
    | error e' => exact fun _ => ⟨rfl, rfl⟩

theorem exists_items {texts : List (List Char)}
    (h : ∀ text ∈ texts, ∃ item, splitLine text = .ok item) :
    ∃ items, List.Forall₂ (fun text item => splitLine text = .ok item) texts items := by
  induction texts with
  | nil => exact ⟨[], .nil⟩
  | cons text texts ih =>
    obtain ⟨item, hitem⟩ := h text List.mem_cons_self
    obtain ⟨items, hitems⟩ := ih fun t ht => h t (List.mem_cons_of_mem text ht)
    exact ⟨item :: items, .cons hitem hitems⟩

theorem exists_splitLines :
    (∃ lines, splitLines source = .ok lines) ↔
      ∀ text ∈ contents source, ∃ item, splitLine text = .ok item := by
  constructor
  · rintro ⟨lines, h⟩ text htext
    have hitems := exists_splitLines_iff.1 ⟨lines, h, rfl⟩
    obtain ⟨n, hn⟩ := List.mem_iff_getElem?.1 htext
    obtain ⟨item, -, hitem⟩ := exists_of_forall₂ hitems hn
    exact ⟨item, hitem⟩
  · intro h
    obtain ⟨items, hitems⟩ := exists_items h
    obtain ⟨lines, hlines, -⟩ := exists_splitLines_iff.2 hitems
    exact ⟨lines, hlines⟩

theorem SameKinds.splits_iff (h : SameKinds (contents source) (contents source')) :
    (∃ lines, splitLines source = .ok lines) ↔ ∃ lines, splitLines source' = .ok lines := by
  rw [exists_splitLines, exists_splitLines]
  simp only [h.mem_iff]

theorem SameKinds.read_eq (h : SameKinds (contents source) (contents source'))
    (method : MethodDef) (g : TypeGraph) :
    (read source method g).1.toOption = (read source' method g).1.toOption
      ∧ (read source method g).2 = (read source' method g).2 := by
  unfold read
  cases hsplit : splitLines source with
  | error e =>
    cases hsplit' : splitLines source' with
    | error e' => exact ⟨rfl, rfl⟩
    | ok lines' =>
      obtain ⟨lines, hlines⟩ := h.splits_iff.2 ⟨lines', hsplit'⟩
      rw [hsplit] at hlines
      cases hlines
  | ok lines =>
    obtain ⟨lines', hsplit'⟩ := h.splits_iff.1 ⟨lines, hsplit⟩
    rw [hsplit']
    have hitems := exists_splitLines_iff.1 ⟨lines, hsplit, rfl⟩
    have hitems' := exists_splitLines_iff.1 ⟨lines', hsplit', rfl⟩
    have hkinds := h.filter_items hitems hitems'
    refine readLines_congr ?_ ?_ ?_ method g
    · rw [localTypes_eq, localTypes_eq, flatMap_types, hkinds, ← flatMap_types]
    · rw [tryLines_eq, tryLines_eq, filterMap_region?, hkinds, ← filterMap_region?]
    · rw [map_item_codeLines, map_item_codeLines, filterMap_code?, hkinds, ← filterMap_code?]

/-- The texts decide, kind by kind. -/
theorem sameReading_of_sameKinds (h : SameKinds (contents source) (contents source')) :
    SameReading source source' := by
  refine ⟨fun {method g g' l} => ?_, fun method g => (h.read_eq method g).2⟩
  have hok : ∀ {r : Except ListingError Listing × TypeGraph},
      r = (.ok l, g') ↔ r.1.toOption = some l ∧ r.2 = g' := by
    rintro ⟨result, graph⟩
    cases result <;> simp [Except.toOption]
  rw [hok, hok, (h.read_eq method g).1, (h.read_eq method g).2]

/-- Where lines are split, there are no unknown directives. -/
theorem sameKinds_of_splitLines (hsplit : splitLines source = .ok lines)
    (hsplit' : splitLines source' = .ok lines')
    (h : ∀ kind, kind ≠ .unknownDirective → (contents source).filter (kindOf · == kind) =
      (contents source').filter (kindOf · == kind)) :
    SameKinds (contents source) (contents source') := by
  have hnone : ∀ {s : String} {ls : List (Numbered Line)}, splitLines s = .ok ls →
      (contents s).filter (kindOf · == .unknownDirective) = [] := by
    intro s ls hs
    refine List.filter_eq_nil_iff.2 fun text htext hkind => ?_
    obtain ⟨item, hitem⟩ := exists_splitLines.1 ⟨ls, hs⟩ text htext
    rw [← kind_of_splitLine hitem] at hkind
    cases item <;> simp [Line.kind] at hkind
  intro kind
  by_cases hkind : kind = .unknownDirective
  · rw [hkind, hnone hsplit, hnone hsplit']
  · exact h kind hkind

end Reading

/-! ## Changes of the layout -/

/-- Is a reader of comments within a literal at the end of a text, which it enters within a literal
or not? At a comment it stops. -/
def endsInLiteral : (inLiteral : Bool) → List Char → Bool
  | inLiteral, [] => inLiteral
  | true, '\\' :: _ :: cs => endsInLiteral true cs
  | true, c :: cs => endsInLiteral (c != '"') cs
  | false, '/' :: '/' :: _ => false
  | false, c :: cs => endsInLiteral (c == '"') cs

/-- A directive starts with a point, an instruction does not. -/
def isDirective (line : List Char) : Bool := (content line).head? == some '.'

/-- One change of the layout, as a change of the lines of a source. -/
inductive Relaid : List (List Char) → List (List Char) → Prop where
  | blankLine (before behind : List (List Char)) (blanks : List Char)
      (hblanks : ∀ c ∈ blanks, Text.isBlank c = true) :
      Relaid (before ++ behind) (before ++ blanks :: behind)
  | commentLine (before behind : List (List Char)) (blanks note : List Char)
      (hblanks : ∀ c ∈ blanks, Text.isBlank c = true) :
      Relaid (before ++ behind) (before ++ (blanks ++ '/' :: '/' :: note) :: behind)
  | indent (before behind : List (List Char)) (blanks line : List Char)
      (hblanks : ∀ c ∈ blanks, Text.isBlank c = true) :
      Relaid (before ++ line :: behind) (before ++ (blanks ++ line) :: behind)
  | comment (before behind : List (List Char)) (line note : List Char)
      (hline : endsInLiteral false line = false) :
      Relaid (before ++ line :: behind) (before ++ (line ++ ' ' :: '/' :: '/' :: note) :: behind)
  /-- a directive moves behind instructions -/
  | moveDown (before behind : List (List Char)) (line : List Char) (code : List (List Char))
      (hline : isDirective line = true) (hcode : ∀ l ∈ code, isDirective l = false) :
      Relaid (before ++ (line :: code ++ behind)) (before ++ (code ++ line :: behind))

section Relaid

variable {q : Bool} {c : Char} {cs blanks note line : List Char}
  {code ls ls' : List (List Char)}

theorem content_blanks_append (hblanks : ∀ c ∈ blanks, Text.isBlank c = true) :
    content (blanks ++ cs) = content cs := by
  have hstrip : stripComment false (blanks ++ cs) = blanks ++ stripComment false cs := by
    induction blanks with
    | nil => rfl
    | cons b blanks ih =>
      have hb := hblanks b List.mem_cons_self
      have hslash : b ≠ '/' := fun heq => absurd (heq ▸ hb) (by decide)
      have hquote : (b == '"') = false := by
        refine beq_eq_false_iff_ne.2 fun heq => absurd (heq ▸ hb) (by decide)
      rw [List.cons_append, stripComment_false_cons fun heq => absurd heq hslash, hquote,
        ih fun c hc => hblanks c (List.mem_cons_of_mem b hc)]
      rfl
  rw [content, content, hstrip, Text.trim_blanks_append hblanks]

theorem endsInLiteral_escaped : endsInLiteral true ('\\' :: c :: cs) = endsInLiteral true cs := rfl

theorem endsInLiteral_true_cons (h : c ≠ '\\') :
    endsInLiteral true (c :: cs) = endsInLiteral (c != '"') cs := by
  rw [endsInLiteral.eq_3]
  exact fun d ds hc => absurd hc h

theorem endsInLiteral_false_cons (h : c = '/' → cs.head? ≠ some '/') :
    endsInLiteral false (c :: cs) = endsInLiteral (c == '"') cs := by
  rw [endsInLiteral.eq_5]
  rintro ds hc rfl
  exact h hc rfl

/-- A comment behind a blank is cut off and leaves the blank. -/
theorem Uncut.stripComment_append (h : Uncut q line) (hend : endsInLiteral q line = false) :
    stripComment q (line ++ ' ' :: '/' :: '/' :: note) = line ++ [' '] := by
  induction q, line using scan_induction with
  | nil q =>
    obtain rfl : q = false := by cases q <;> first | rfl | exact hend
    rfl
  | escaped c cs ih =>
    rw [endsInLiteral_escaped] at hend
    rw [List.cons_append, List.cons_append, stripComment_escaped,
      ih (Uncut.escaped_iff.1 h) hend]
    rfl
  | inside c cs hc ih =>
    -- a backslash at the end would keep the literal open
    have hne : c ≠ '\\' := by
      rintro rfl
      rw [hc rfl] at hend
      exact absurd hend (by decide)
    rw [endsInLiteral_true_cons hne] at hend
    rw [List.cons_append, stripComment_true_cons fun heq => absurd heq hne,
      ih ((Uncut.true_cons_iff hc).1 h) hend]
    rfl
  | comment cs => exact absurd h Uncut.not_comment
  | outside c cs hc ih =>
    rw [endsInLiteral_false_cons hc] at hend
    have hhead : c = '/' → (cs ++ ' ' :: '/' :: '/' :: note).head? ≠ some '/' := by
      cases cs with
      | nil => exact fun _ => by simp
      | cons d cs => exact hc
    rw [List.cons_append, stripComment_false_cons hhead, ih (Uncut.false_cons_iff.1 h).2 hend]
    rfl

theorem content_append_comment (hline : endsInLiteral false line = false) :
    content (line ++ ' ' :: '/' :: '/' :: note) = content line := by
  by_cases hcut : Uncut false line
  · rw [content, content, hcut.stripComment_append hline, hcut, Text.trim_append_blank rfl]
  · rw [content, stripComment_append_of_cut hcut, content]

/-- The texts of lines that count. -/
def texts (ls : List (List Char)) : List (List Char) :=
  (ls.map content).filter fun text => !text.isEmpty

theorem texts_append (ls ls' : List (List Char)) : texts (ls ++ ls') = texts ls ++ texts ls' := by
  simp [texts]

theorem texts_cons (line : List Char) (ls : List (List Char)) :
    texts (line :: ls) = texts [line] ++ texts ls := texts_append [line] ls

theorem texts_singleton_congr {line' : List Char} (h : content line = content line') :
    texts [line] = texts [line'] := by
  simp [texts, h]

theorem kindOf_eq_code_iff {text : List Char} : kindOf text = .code ↔ text.head? ≠ some '.' := by
  unfold kindOf
  cases text with
  | nil => simp
  | cons c cs =>
    by_cases hc : c = '.'
    · subst hc
      simp only [List.head?_cons]
      split_ifs <;> simp_all
    · have hlead : ∀ lead : List Char, ('.' :: lead).isPrefixOf (c :: cs) = false := by
        intro lead
        simp [List.isPrefixOf, Ne.symm hc]
      have hlocals : ".locals".toList.isPrefixOf (c :: cs) = false := hlead _
      have htry : ".try".toList.isPrefixOf (c :: cs) = false := hlead _
      rw [hlocals, htry]
      simp [hc]

/-- A directive and an instruction are of different kinds, so one may stand before the other. -/
theorem filter_texts_comm (hline : isDirective line = true)
    (hcode : ∀ l ∈ code, isDirective l = false) (kind : Kind) :
    (texts [line]).filter (kindOf · == kind) ++ (texts code).filter (kindOf · == kind) =
      (texts code).filter (kindOf · == kind) ++ (texts [line]).filter (kindOf · == kind) := by
  by_cases hkind : kind = .code
  · have hnil : (texts [line]).filter (kindOf · == kind) = [] := by
      refine List.filter_eq_nil_iff.2 fun text htext => ?_
      obtain rfl : text = content line := by
        simpa using (List.mem_filter.1 htext).1
      rw [hkind, beq_iff_eq, kindOf_eq_code_iff, not_not]
      simpa [isDirective] using hline
    rw [hnil, List.nil_append, List.append_nil]
  · have hnil : (texts code).filter (kindOf · == kind) = [] := by
      refine List.filter_eq_nil_iff.2 fun text htext hsame => hkind ?_
      obtain ⟨l, hl, rfl⟩ := List.mem_map.1 (List.mem_filter.1 htext).1
      rw [beq_iff_eq] at hsame
      rw [← hsame, kindOf_eq_code_iff]
      simpa [isDirective] using hcode l hl
    rw [hnil, List.nil_append, List.append_nil]

theorem Relaid.sameKinds (h : Relaid ls ls') : SameKinds (texts ls) (texts ls') := by
  intro kind
  cases h with
  | blankLine before behind blanks hblanks =>
    have hnil : content (blanks ++ []) = content [] := content_blanks_append hblanks
    rw [List.append_nil] at hnil
    rw [texts_append, texts_append, texts_cons, texts_singleton_congr hnil]
    rfl
  | commentLine before behind blanks note hblanks =>
    have hnone : content ('/' :: '/' :: note) = content [] := rfl
    rw [texts_append, texts_append, texts_cons,
      texts_singleton_congr ((content_blanks_append hblanks).trans hnone)]
    rfl
  | indent before behind blanks line hblanks =>
    rw [texts_append, texts_append, texts_cons line, texts_cons (blanks ++ line),
      texts_singleton_congr (content_blanks_append hblanks)]
  | comment before behind line note hline =>
    rw [texts_append, texts_append, texts_cons line, texts_cons (line ++ _),
      texts_singleton_congr (content_append_comment hline)]
  | moveDown before behind line code hline hcode =>
    rw [texts_append, texts_append, texts_append, texts_cons, texts_append, texts_cons line behind]
    simp only [List.filter_append, ← List.append_assoc]
    rw [List.append_assoc (List.filter _ (texts before)), filter_texts_comm hline hcode]
    simp only [List.append_assoc]

/-- Any number of changes of the layout, made or undone. -/
theorem sameKinds_of_relaid (h : Relation.EqvGen Relaid ls ls') :
    SameKinds (texts ls) (texts ls') := by
  induction h with
  | rel _ _ h => exact h.sameKinds
  | refl _ => exact .refl _
  | symm _ _ _ ih => exact ih.symm
  | trans _ _ _ _ _ ih ih' => exact ih.trans ih'

/-- A source says what the texts of its lines say, kind by kind, and changes of the layout do not
touch these. -/
theorem read_relaid :
    (∀ {source source' : String} {lines lines' : List (Numbered Line)},
      splitLines source = .ok lines → splitLines source' = .ok lines' →
      (∀ kind, kind ≠ .unknownDirective → (contents source).filter (kindOf · == kind) =
        (contents source').filter (kindOf · == kind)) →
      SameReading source source')
    ∧ ∀ {source source' : String},
      Relation.EqvGen Relaid (Text.lines source.toList) (Text.lines source'.toList) →
      SameReading source source' := by
  constructor
  · intro source source' lines lines' hsplit hsplit' hkinds
    exact sameReading_of_sameKinds (sameKinds_of_splitLines hsplit hsplit' hkinds)
  · intro source source' h
    exact sameReading_of_sameKinds (sameKinds_of_relaid h)

/-- The declaration of a variable moves behind the instruction that uses it, which gets a comment,
and a blank line is put between them. -/
theorem read_relaid_locals :
    ∃ source source' lines lines' l g', splitLines source = .ok lines
      ∧ splitLines source' = .ok lines' ∧ contents source ≠ contents source'
      ∧ (∀ kind, kind ≠ .unknownDirective → (contents source).filter (kindOf · == kind) =
        (contents source').filter (kindOf · == kind))
      ∧ Relation.EqvGen Relaid (Text.lines source.toList) (Text.lines source'.toList)
      ∧ read source {} .empty = (.ok l, g') ∧ read source' {} .empty = (.ok l, g')
      ∧ SameReading source source' := by
  have hlisting : ∃ l g', read ".locals int32\nldloc.s 0\nret" {} .empty = (.ok l, g')
      ∧ (l.body.instructions.order.size == 2) = true :=
    exists_read (by decide +kernel)
  obtain ⟨l, g', hread, -⟩ := hlisting
  obtain ⟨lines, hsplit⟩ : ∃ lines,
      splitLines ".locals int32\nldloc.s 0\nret" = .ok lines := ⟨_, rfl⟩
  obtain ⟨lines', hsplit'⟩ : ∃ lines,
      splitLines "ldloc.s 0 // first\n\n.locals int32\nret" = .ok lines := ⟨_, rfl⟩
  have hkinds : ∀ kind : Kind, kind ≠ .unknownDirective →
      (contents ".locals int32\nldloc.s 0\nret").filter (kindOf · == kind) =
        (contents "ldloc.s 0 // first\n\n.locals int32\nret").filter (kindOf · == kind) := by
    intro kind _
    cases kind <;> decide +kernel
  have hlines : Text.lines ".locals int32\nldloc.s 0\nret".toList =
      [".locals int32".toList, "ldloc.s 0".toList, "ret".toList] := by decide +kernel
  have hlines' : Text.lines "ldloc.s 0 // first\n\n.locals int32\nret".toList =
      ["ldloc.s 0 // first".toList, [], ".locals int32".toList, "ret".toList] := by decide +kernel
  have hmove : Relaid [".locals int32".toList, "ldloc.s 0".toList, "ret".toList]
      ["ldloc.s 0".toList, ".locals int32".toList, "ret".toList] :=
    .moveDown [] ["ret".toList] ".locals int32".toList ["ldloc.s 0".toList] (by decide +kernel)
      (List.forall_mem_singleton.2 (by decide +kernel))
  have hcomment : Relaid ["ldloc.s 0".toList, ".locals int32".toList, "ret".toList]
      ["ldloc.s 0 // first".toList, ".locals int32".toList, "ret".toList] :=
    .comment [] [".locals int32".toList, "ret".toList] "ldloc.s 0".toList " first".toList
      (by decide +kernel)
  have hblank : Relaid ["ldloc.s 0 // first".toList, ".locals int32".toList, "ret".toList]
      ["ldloc.s 0 // first".toList, [], ".locals int32".toList, "ret".toList] :=
    .blankLine ["ldloc.s 0 // first".toList] [".locals int32".toList, "ret".toList] [] nofun
  have hrelaid : Relation.EqvGen Relaid (Text.lines ".locals int32\nldloc.s 0\nret".toList)
      (Text.lines "ldloc.s 0 // first\n\n.locals int32\nret".toList) := by
    rw [hlines, hlines']
    exact .trans _ _ _ (.rel _ _ hmove) (.trans _ _ _ (.rel _ _ hcomment) (.rel _ _ hblank))
  have hsame := read_relaid.1 hsplit hsplit' hkinds
  have hread' := (read_relaid.2 hrelaid).ok_iff.1 hread
  exact ⟨_, _, lines, lines', l, g', hsplit, hsplit', by decide +kernel, hkinds, hrelaid, hread,
    hread', hsame⟩

end Relaid

end CilMethod.Listing
