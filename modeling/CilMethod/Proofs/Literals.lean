import CilMethod.Listing.Printer
import CilMethod.Proofs.FreshListing
import CilMethod.Proofs.Lines

/-!
# String literals that are printed and read

The printer puts a backslash before every quote, and the reader of an operand takes it away again
(`unescape_escape`). The reader of comments has a third view: to it a backslash within a literal
also covers a backslash. A backslash before a quote in the text is printed as two of them and a
quote, and there the reader of comments takes the literal to have ended. Two slashes behind that are
cut off as a comment (`exposesComment`), and only then is the text read as another
(`read_ldstr_iff`).
-/

namespace CilMethod.Listing

section Escape

variable {c : Char} {cs w kept : List Char}

theorem escape_cons (c : Char) (cs : List Char) :
    escape (c :: cs) = (if c = '"' then ['\\', '"'] else [c]) ++ escape cs :=
  List.flatMap_cons

theorem escape_cons_of_ne (hc : c ≠ '"') : escape (c :: cs) = c :: escape cs := by
  rw [escape_cons, if_neg hc]
  rfl

theorem escape_append (w cs : List Char) : escape (w ++ cs) = escape w ++ escape cs :=
  List.flatMap_append

theorem head?_escape_ne (cs : List Char) : (escape cs).head? ≠ some '"' := by
  cases cs with
  | nil => simp [escape]
  | cons c cs =>
    rw [escape_cons]
    split_ifs with hc
    · simp
    · simpa using hc

theorem unescape_cons (h : c = '\\' → cs.head? ≠ some '"') :
    unescape (c :: cs) = c :: unescape cs := by
  rw [unescape.eq_2]
  rintro ds hc rfl
  exact h hc rfl

theorem unescape_escape (cs : List Char) : unescape (escape cs) = cs := by
  induction cs with
  | nil => rfl
  | cons c cs ih =>
    by_cases hc : c = '"'
    · rw [escape_cons, if_pos hc, hc]
      exact congrArg ('"' :: ·) ih
    · rw [escape_cons_of_ne hc, unescape_cons fun _ => head?_escape_ne cs, ih]

theorem count_slash_unescape (cs : List Char) : (unescape cs).count '/' = cs.count '/' := by
  fun_induction unescape cs with
  | case1 cs ih => simp [ih]
  | case2 c cs _ ih => simp [List.count_cons, ih]
  | case3 => rfl

theorem count_slash_escape (cs : List Char) : (escape cs).count '/' = cs.count '/' := by
  rw [← count_slash_unescape, unescape_escape]

end Escape

/-- Does a text, written as a literal, hold two slashes that a reader of comments takes to be behind
the literal? -/
def exposesComment : (inLiteral : Bool) → List Char → Bool
  | _, [] => false
  | true, '\\' :: '"' :: cs => exposesComment false cs
  | true, '\\' :: _ :: cs => exposesComment true cs
  | true, _ :: cs => exposesComment true cs
  | false, '/' :: '/' :: _ => true
  | false, c :: cs => exposesComment (c == '"') cs

section Strip

variable {c : Char} {q exposed : Bool} {cs w kept : List Char}

/-- What is kept of a text written as a literal: all of it, or what stands before two slashes. -/
def Stripped (exposed : Bool) (cs kept : List Char) : Prop :=
  if exposed then ∃ t u, cs = t ++ '/' :: '/' :: u ∧ kept = escape t else kept = escape cs ++ ['"']

theorem Stripped.append (h : Stripped exposed cs kept) (w : List Char) :
    Stripped exposed (w ++ cs) (escape w ++ kept) := by
  unfold Stripped at h ⊢
  split_ifs at h ⊢
  · obtain ⟨t, u, rfl, rfl⟩ := h
    exact ⟨w ++ t, u, by simp, (escape_append w t).symm⟩
  · rw [h, escape_append, List.append_assoc]

theorem stripped_stripComment (q : Bool) (cs : List Char) :
    Stripped (exposesComment q cs) cs (stripComment q (escape cs ++ ['"'])) := by
  fun_induction exposesComment q cs with
  | case1 q =>
    cases q <;> rfl
  | case2 cs ih => exact ih.append ['\\', '"']
  | case3 c cs hc ih =>
    have hc : c ≠ '"' := fun heq => hc heq
    have hw : escape ['\\', c] = ['\\', c] := by simp [escape, hc]
    have h := ih.append ['\\', c]
    rw [hw] at h
    rw [escape_cons_of_ne (by decide), escape_cons_of_ne hc]
    exact h
  | case4 c cs _ hend ih =>
    have hend : c = '\\' → cs = [] := fun hc => by
      cases cs with
      | nil => rfl
      | cons d ds => exact absurd rfl (hend d ds hc)
    by_cases hc : c = '"'
    · subst hc
      exact ih.append ['"']
    · have h := ih.append [c]
      rw [escape_cons_of_ne hc] at h ⊢
      rw [List.cons_append]
      by_cases hslash : c = '\\'
      · rw [hslash, hend hslash]
        rfl
      · rw [stripComment_true_cons fun h => absurd h hslash, bne_iff_ne.2 hc]
        exact h
  | case5 cs => exact ⟨[], cs, rfl, rfl⟩
  | case6 c cs hno ih =>
    by_cases hc : c = '"'
    · subst hc
      exact ih.append ['"']
    · have h := ih.append [c]
      rw [escape_cons_of_ne hc] at h ⊢
      rw [List.cons_append, stripComment_false_cons]
      · exact h
      · intro hslash hhead
        cases cs with
        | nil => simp [escape] at hhead
        | cons d ds =>
          rw [escape_cons] at hhead
          split_ifs at hhead with hd
          · simp at hhead
          · obtain rfl : d = '/' := by simpa using hhead
            exact hno ds hslash rfl

end Strip

section Read

variable {s : String} {source : String} {method : MethodDef} {g : TypeGraph}

/-- The opcode that loads a string. -/
def ldstr : Opcode := ⟨"ldstr", 0x72, .inlineString⟩

/-- The reading of a source gives one instruction. -/
def ReadsAs (source : String) (method : MethodDef) (g : TypeGraph) (c : Opcode × Operand) : Prop :=
  ∃ l g', read source method g = (.ok l, g') ∧ l.body.instructions.codes = [c]

theorem readLiteral_escape (cs : List Char) :
    readLiteral ('"' :: (escape cs ++ ['"'])) = .ok (.string (String.ofList cs)) := by
  rw [readLiteral, List.getLast?_concat, if_pos rfl, List.dropLast_concat, unescape_escape]

theorem readOperand_ldstr (labels : Labels) (locals : Locals) (line : Nat) (text : String) :
    readOperand labels locals line ldstr text = onLine line (readLiteral text.toList) := rfl

/-- No slash comes into a text by reading it. -/
theorem count_slash_of_readLiteral {cs : List Char}
    (h : readLiteral cs = .ok (.string s)) : s.toList.count '/' ≤ cs.count '/' := by
  unfold readLiteral at h
  split at h
  · rename_i rest
    split_ifs at h
    obtain rfl : String.ofList (unescape rest.dropLast) = s := by simpa using h
    rw [String.toList_ofList, count_slash_unescape]
    exact ((List.dropLast_sublist rest).trans (List.sublist_cons_self _ _)).count_le '/'
  · cases h

theorem splitLabel_of_quote {cs : List Char} (h : '"' ∈ cs.takeWhile (· != ':')) :
    splitLabel cs = (none, cs) := by
  have hno : isLabel (Text.trim (cs.takeWhile (· != ':'))) = false := by
    refine Bool.eq_false_iff.2 fun hlabel => ?_
    exact Text.notMem_of_isPlain (isPlain_of_isLabel hlabel) (by decide) (Text.mem_trim h rfl)
  rw [splitLabel, hno]
  split <;> rfl

/-- A source of one instruction line that names nothing. -/
theorem readsAs_of_splitLine {text : List Char} {parts : CodeLine} {c : Opcode × Operand}
    (hcontents : contents source = [text]) (hsplit : splitLine text = .ok (.code parts))
    (hlabel : parts.label = none) (hread : ∀ line, readCode [] {} ⟨line, parts⟩ = .ok c)
    (hfits : c.2.fits c.1.operandType = true) : ReadsAs source method g c := by
  have hsplits : List.Forall₂ (fun text item => splitLine text = .ok item) (contents source)
      [.code parts] := hcontents ▸ .cons hsplit .nil
  obtain ⟨lines, hlines, hitems⟩ := exists_splitLines_iff.2 hsplits
  have hitems : lines.map (·.item) = ([] : List (List String)).map Line.locals ++
      (([] : List TryLine).map .region ++ [parts].map .code) := hitems
  obtain ⟨htypes, htries, hcodes⟩ := parts_of_map_item hitems
  obtain ⟨line, rest, hcode, hline, hrest⟩ := List.map_eq_cons_iff.1 hcodes
  obtain rfl : rest = [] := List.map_eq_nil_iff.1 hrest
  obtain ⟨n, parts'⟩ := line
  obtain rfl : parts' = parts := hline
  have hlabelled : Labelled (codeLines lines) [] := by
    refine ⟨?_, List.nodup_nil⟩
    rw [hcode, labelsFrom, hlabel]
    rfl
  have hemit : ∃ loaded, (emitAll [c]).run Sequence.empty.beginLoad = .ok () loaded :=
    ⟨_, run_emitAll_cons.2 ⟨hfits, rfl⟩⟩
  obtain ⟨loaded, hloaded⟩ := hemit
  let p : Phases source g :=
    { lines, types := [], graph := g.addCore.2, locals := {}, labels := [], code := [c], loaded
      handlers := [], final := g.addCore.2, split := hlines
      resolve := by rw [htypes]; rfl
      declare := rfl
      labelled := hlabelled
      readCodes := by rw [hcode]; exact .cons (hread n) .nil
      emit := hloaded
      handle := by rw [htries]; rfl }
  exact ⟨p.listing method, p.final, read_eq_ok_iff.2 ⟨p, rfl, rfl⟩, p.codes_listing method⟩

/-- An instruction comes from a line of the source that counts. -/
theorem exists_text_of_readsAs {c : Opcode × Operand} (h : ReadsAs source method g c) :
    ∃ text ∈ contents source, ∃ parts labels locals line, splitLine text = .ok (.code parts)
      ∧ readCode labels locals ⟨line, parts⟩ = .ok c := by
  obtain ⟨l, g', hread, hcodes⟩ := h
  obtain ⟨p, rfl, rfl⟩ := read_eq_ok_iff.1 hread
  rw [p.codes_listing] at hcodes
  obtain ⟨⟨n, parts⟩, hline, hcode⟩ := exists_of_forall₂ p.readCodes.flip
    (show p.code[0]? = some c by rw [hcodes]; rfl)
  obtain ⟨text, htext, hsplit⟩ := exists_text_of_mem_codeLines p.split (List.mem_of_getElem? hline)
  exact ⟨text, htext, parts, p.labels, p.locals, n, hsplit, hcode⟩

theorem toList_ldstr (l : Listing) (s : String) :
    ("ldstr" ++ l.operandText (.string s)).toList =
      "ldstr \"".toList ++ (escape s.toList ++ ['"']) := by
  simp [operandText]

/-- The reader of comments comes into the literal with its first quote. -/
theorem stripComment_ldstr (cs : List Char) :
    stripComment false ("ldstr \"".toList ++ cs) = "ldstr \"".toList ++ stripComment true cs :=
  rfl

theorem contents_ldstr {cs : List Char} (hs : '\n' ∉ cs)
    (hsource : source.toList = "ldstr \"".toList ++ cs) :
    contents source = [content ("ldstr \"".toList ++ cs)] := by
  have hne : (content ("ldstr \"".toList ++ cs)).isEmpty = false := by
    have hmem : 'l' ∈ content ("ldstr \"".toList ++ cs) := by
      refine Text.mem_trim ?_ (by decide)
      rw [stripComment_ldstr]
      exact List.mem_append_left _ (by decide)
    rw [List.isEmpty_eq_false_iff]
    exact List.ne_nil_of_mem hmem
  rw [contents, hsource, Text.lines_of_notMem (by simp) (by simp [hs])]
  simp only [List.map_cons, List.map_nil, List.filter_cons, hne]
  rfl

theorem splitLine_ldstr (cs : List Char) :
    splitLine ("ldstr \"".toList ++ cs) =
      .ok (.code ⟨none, "ldstr", String.ofList (Text.trim ('"' :: cs))⟩) := by
  have hlabel : splitLabel ("ldstr \"".toList ++ cs) =
      (none, "ldstr".toList ++ ([' '] ++ '"' :: cs)) :=
    splitLabel_of_quote (List.mem_append_left (cs.takeWhile (· != ':')) (by decide :
      '"' ∈ "ldstr \"".toList))
  have hword : Text.IsWord "ldstr".toList := isWord_of_isLabel (by decide)
  have hblank : ∀ c, ([' '] ++ '"' :: cs).head? = some c → Text.isBlank c = true := by
    simp [Text.isBlank, Text.blankRanges]
  rw [splitLine_of_head (by simp), splitCode_eq hlabel hword hblank]
  rfl

theorem newline_notMem_escape {cs : List Char} (h : '\n' ∉ cs) : '\n' ∉ escape cs ++ ['"'] := by
  intro hmem
  rcases List.mem_append.1 hmem with hmem | hmem
  · obtain ⟨c, hc, hmem⟩ := List.mem_flatMap.1 hmem
    split_ifs at hmem
    · simp at hmem
    · rw [← List.mem_singleton.1 hmem] at hc
      exact h hc
  · simp at hmem

theorem isBlank_getLast_escape {lead cs : List Char} {c : Char}
    (h : (lead ++ (escape cs ++ ['"'])).getLast? = some c) : Text.isBlank c = false := by
  rw [← List.append_assoc, List.getLast?_concat] at h
  rw [← Option.some.inj h]
  rfl

/-- A literal that shows no comment is not cut. -/
theorem content_ldstr {cs : List Char} (hexposed : exposesComment true cs = false) :
    content ("ldstr \"".toList ++ (escape cs ++ ['"'])) =
      "ldstr \"".toList ++ (escape cs ++ ['"']) := by
  have hstripped := stripped_stripComment true cs
  rw [hexposed] at hstripped
  refine content_eq_self ?_ (by simp [Text.isBlank, Text.blankRanges])
    fun c hc => isBlank_getLast_escape hc
  rw [Uncut, stripComment_ldstr]
  exact congrArg _ hstripped

/-- A literal that shows a comment loses at least its two slashes. -/
theorem count_slash_content_ldstr {cs : List Char} (hexposed : exposesComment true cs = true) :
    (content ("ldstr \"".toList ++ (escape cs ++ ['"']))).count '/' + 2 ≤ cs.count '/' := by
  have hstripped := stripped_stripComment true cs
  rw [hexposed] at hstripped
  obtain ⟨t, u, ht, hkept⟩ := hstripped
  have hcontent : (content ("ldstr \"".toList ++ (escape cs ++ ['"']))).count '/' ≤
      t.count '/' := by
    rw [content, stripComment_ldstr, hkept]
    refine ((Text.trim_sublist _).count_le '/').trans_eq ?_
    rw [List.count_append, count_slash_escape]
    exact Nat.zero_add _
  have hcount : cs.count '/' = t.count '/' + (u.count '/' + 1 + 1) := by
    rw [ht, List.count_append, List.count_cons_self, List.count_cons_self]
  omega

/-- A text that is printed as a literal is read as itself, unless it shows a comment. -/
theorem read_ldstr_iff (hs : '\n' ∉ s.toList) (l : Listing) :
    ReadsAs ("ldstr" ++ l.operandText (.string s)) method g (ldstr, .string s) ↔
      exposesComment true s.toList = false := by
  have hcontents := contents_ldstr (newline_notMem_escape hs) (toList_ldstr l s)
  constructor
  · intro h
    refine Bool.eq_false_iff.2 fun hexposed => ?_
    obtain ⟨text, htext, parts, labels, locals, line, hsplit, hcode⟩ := exists_text_of_readsAs h
    have hread := (readCode_eq_ok_iff.1 hcode).2
    rw [readOperand_ldstr, onLine_eq_ok_iff] at hread
    rw [hcontents, List.mem_singleton] at htext
    -- The text cannot have more slashes than the line, and the line has lost two of them.
    have hcount := count_slash_of_readLiteral hread
    have hoperand := (splitCode_spec (splitCode_of_splitLine hsplit)).2.count_le '/'
    have hlost := count_slash_content_ldstr hexposed
    rw [← htext] at hlost
    omega
  · intro hexposed
    rw [content_ldstr hexposed] at hcontents
    have htrim : Text.trim ('"' :: (escape s.toList ++ ['"'])) =
        '"' :: (escape s.toList ++ ['"']) :=
      Text.trim_eq_self (by simp [Text.isBlank, Text.blankRanges])
        fun c (hc : (['"'] ++ (escape s.toList ++ ['"'])).getLast? = some c) =>
          isBlank_getLast_escape hc
    refine readsAs_of_splitLine hcontents (splitLine_ldstr _) rfl (fun line => ?_) rfl
    have hnamed : Opcode.named? (String.ofList ("ldstr".toList.map Char.toLower)) = some ldstr := by
      decide +kernel
    refine readCode_eq_ok_iff.2 ⟨hnamed, ?_⟩
    rw [readOperand_ldstr, onLine_eq_ok_iff, String.toList_ofList, htrim, readLiteral_escape,
      String.ofList_toList]

/-- A quote alone does not end a literal, since it is printed behind a backslash. -/
theorem read_ldstr_iff_quote :
    '\n' ∉ "\"//".toList
      ∧ ReadsAs ("ldstr" ++ operandText { body := { method := {} } } (.string "\"//")) {} .empty
        (ldstr, .string "\"//") :=
  ⟨by decide, (read_ldstr_iff (by decide) _).2 (by decide)⟩

/-- A backslash and a quote are printed as two backslashes and a quote, and what is behind them is
lost. -/
theorem readsAs_of_backslash :
    ReadsAs ("ldstr" ++ operandText { body := { method := {} } } (.string "\\\"//")) {} .empty
        (ldstr, .string "\\\\")
      ∧ ¬ ReadsAs ("ldstr" ++ operandText { body := { method := {} } } (.string "\\\"//")) {} .empty
        (ldstr, .string "\\\"//") := by
  have hread : ∃ l g',
      read ("ldstr" ++ operandText { body := { method := {} } } (.string "\\\"//")) {} .empty =
        (.ok l, g')
        ∧ (l.body.instructions.codes == [(ldstr, .string "\\\\")]) = true :=
    exists_read (by decide +kernel)
  obtain ⟨l, g', hread, hcodes⟩ := hread
  have hcodes := beq_iff_eq.1 hcodes
  refine ⟨⟨l, g', hread, hcodes⟩, ?_⟩
  rintro ⟨l', g'', hread', hcodes'⟩
  rw [hread] at hread'
  cases hread'
  rw [hcodes] at hcodes'
  exact absurd hcodes' (by decide)

end Read

end CilMethod.Listing
