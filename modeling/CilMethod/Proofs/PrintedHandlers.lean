import CilMethod.Proofs.PrintedCode
import CilMethod.Proofs.TypeRegistry

/-!
# Handler lines that are printed and read

A handler line is made of words (`TryLine.words`). All of them are labels or fixed, but for the type
that a handler catches, which is printed by its full name and so is the only word that may change
(`TryLine.full`). It changes to a name that is resolved to the same type. The type is also the only
word that can hold quotes and slashes. No quote stands before it, neither on the line that was read
nor on the one that is printed, and so no comment starts in the second if none does in the first
(`uncut_catchType`).
-/

namespace CilMethod.Listing

section Words

variable {parts : TryLine} {ws : List String} {cs : List Char}

/-- The words of a kind. -/
def KindText.words : KindText → List String
  | .catchType type => ["catch", type]
  | .filterFrom label => ["filter", label]
  | .finallyBlock => ["finally"]
  | .faultBlock => ["fault"]

/-- The words of a handler line behind its directive. -/
def TryLine.words (t : TryLine) : List String :=
  t.tryStart :: "to" :: t.tryEnd ::
    (t.kind.words ++ ["handler", t.handlerStart, "to", t.handlerEnd])

theorem splitTry_words (t : TryLine) : splitTry t.words = .ok t := by
  obtain ⟨tryStart, tryEnd, kind, handlerStart, handlerEnd⟩ := t
  cases kind <;> rfl

theorem words_of_splitTry (h : splitTry ws = .ok parts) : ws = parts.words := by
  unfold splitTry at h
  split at h
  iterate 4
    · cases h
      rfl
  · cases h

theorem append_of_after? : ∀ {lead cs rest : List Char}, Text.after? lead cs = some rest →
    cs = lead ++ rest
  | [], cs, rest, h => Option.some.inj h
  | l :: lead, [], rest, h => by cases h
  | l :: lead, c :: cs, rest, h => by
    rw [Text.after?] at h
    split_ifs at h with hc
    rw [hc, append_of_after? h]
    rfl

theorem words_of_splitLine (h : splitLine cs = .ok (.region parts)) :
    ∃ rest, cs = ".try".toList ++ rest ∧ Text.words rest = parts.words.map String.toList := by
  rcases splitLine_cases h with ⟨_, -, heq⟩ | ⟨-, rest, parts', hrest, hsplit, heq⟩ |
    ⟨-, _, -, heq⟩
  · cases heq
  · cases heq
    refine ⟨rest, append_of_after? hrest, ?_⟩
    rw [← words_of_splitTry hsplit, List.map_map]
    simp [Function.comp_def]
  · cases heq

/-- The text of a handler line. -/
def TryLine.text (t : TryLine) : String := ".try" ++ String.join (t.words.map (" " ++ ·))

theorem TryLine.toList_text (t : TryLine) :
    t.text.toList = ".try".toList ++ (t.words.map String.toList).flatMap (' ' :: ·) := by
  rw [text, String.toList_append, String.toList_join, List.flatMap_map, List.flatMap_map]
  congr 2
  funext w
  rw [String.toList_append]
  rfl

theorem TryLine.mem_text {t : TryLine} {c : Char} (h : c ∈ t.text.toList) :
    c ∈ ".try".toList ∨ c = ' ' ∨ ∃ w ∈ t.words, c ∈ w.toList := by
  rw [toList_text, List.flatMap_map, List.mem_append, List.mem_flatMap] at h
  rcases h with h | ⟨w, hw, h⟩
  · exact .inl h
  · rcases List.mem_cons.1 h with rfl | h
    · exact .inr (.inl rfl)
    · exact .inr (.inr ⟨w, hw, h⟩)

theorem TryLine.shows_text {t : TryLine} (hwords : ∀ w ∈ t.words, Text.IsWord w.toList)
    (huncut : Uncut false t.text.toList) : Shows t.text (.region t) := by
  have hwords' : ∀ w ∈ t.words.map String.toList, Text.IsWord w := by simpa using hwords
  have hlast : ∀ c, t.text.toList.getLast? = some c → Text.isBlank c = false := by
    obtain ⟨init, hinit⟩ : ∃ init, t.words = init ++ [t.handlerEnd] :=
      ⟨t.tryStart :: "to" :: t.tryEnd :: (t.kind.words ++ ["handler", t.handlerStart, "to"]),
        by simp [words]⟩
    have hword := hwords t.handlerEnd (by simp [hinit])
    intro c hc
    rw [toList_text, hinit, List.map_append, List.flatMap_append, ← List.append_assoc,
      List.getLast?_append_of_ne_nil _ (by simp)] at hc
    refine hword.2 c (List.mem_of_getLast? ?_)
    rw [← hc]
    simpa using (List.getLast?_cons_of_ne_nil hword.1).symm
  have hhead : ∀ c, t.text.toList.head? = some c → Text.isBlank c = false := by
    rw [toList_text]
    intro c hc
    cases hc
    rfl
  have hcontent := content_eq_self huncut hhead hlast
  refine ⟨?_, ?_, ?_⟩
  · intro hmem
    rcases mem_text hmem with hmem | hmem | ⟨w, hw, hmem⟩
    · simp at hmem
    · simp at hmem
    · exact absurd ((hwords w hw).2 '\n' hmem) (by decide)
  · rw [hcontent, toList_text]
    simp
  · rw [hcontent, toList_text]
    have hlocals : Text.after? ".locals".toList
        (".try".toList ++ (t.words.map String.toList).flatMap (' ' :: ·)) = none := rfl
    have htry : Text.after? ".try".toList
        (".try".toList ++ (t.words.map String.toList).flatMap (' ' :: ·)) =
          some ((t.words.map String.toList).flatMap (' ' :: ·)) := rfl
    rw [splitLine, hlocals, htry]
    dsimp only
    rw [Text.words_flatMap hwords', List.map_map]
    have hid : t.words.map (String.ofList ∘ String.toList) = t.words := by
      simp [Function.comp_def]
    rw [hid, splitTry_words]
    rfl

/-- Where all words are labels or look like them, there is nothing to cut off. -/
theorem TryLine.shows_of_labels {t : TryLine} (h : ∀ w ∈ t.words, isLabel w.toList = true) :
    Shows t.text (.region t) := by
  refine shows_text (fun w hw => isWord_of_isLabel (h w hw)) (.of_notMem fun hmem => ?_)
  rcases mem_text hmem with hmem | hmem | ⟨w, hw, hmem⟩
  · simp at hmem
  · simp at hmem
  · exact Text.notMem_of_isPlain (isPlain_of_isLabel (h w hw)) rfl hmem

theorem TryLine.isLabel_words (t : TryLine) (hkind : ∀ w ∈ t.kind.words, isLabel w.toList = true)
    (hregions : ∀ w ∈ [t.tryStart, t.tryEnd, t.handlerStart, t.handlerEnd],
      isLabel w.toList = true) : ∀ w ∈ t.words, isLabel w.toList = true := by
  simp only [List.mem_cons, List.not_mem_nil, or_false, forall_eq_or_imp, forall_eq] at hregions
  obtain ⟨htry, htryEnd, hhandler, hhandlerEnd⟩ := hregions
  intro w hw
  simp only [words, List.mem_cons, List.mem_append, List.not_mem_nil, or_false] at hw
  rcases hw with rfl | rfl | rfl | hw | rfl | rfl | rfl | rfl
  · exact htry
  · decide
  · exact htryEnd
  · exact hkind w hw
  · decide
  · exact hhandler
  · decide
  · exact hhandlerEnd

/-- All words of a handler line but the type are labels or look like them. -/
theorem TryLine.words_of_catchType {t : TryLine} {name : String}
    (hkind : t.kind = .catchType name)
    (hregions : ∀ w ∈ [t.tryStart, t.tryEnd, t.handlerStart, t.handlerEnd],
      isLabel w.toList = true) :
    ∃ before behind, t.words = before ++ name :: behind
      ∧ (∀ w ∈ before, isLabel w.toList = true) ∧ ∀ w ∈ behind, isLabel w.toList = true := by
  refine ⟨[t.tryStart, "to", t.tryEnd, "catch"], ["handler", t.handlerStart, "to", t.handlerEnd],
    by rw [words, hkind]; rfl, ?_, ?_⟩
  all_goals
    simp only [List.mem_cons, List.not_mem_nil, or_false, forall_eq_or_imp, forall_eq] at hregions ⊢
    obtain ⟨htry, htryEnd, hhandler, hhandlerEnd⟩ := hregions
  · exact ⟨htry, by decide, htryEnd, by decide⟩
  · exact ⟨by decide, hhandler, by decide, hhandlerEnd⟩

theorem TryLine.shows_of_append {t : TryLine} {before behind : List String} {name : String}
    (hwords : t.words = before ++ name :: behind) (hbefore : ∀ w ∈ before, isLabel w.toList = true)
    (hbehind : ∀ w ∈ behind, isLabel w.toList = true) (hword : Text.IsWord name.toList)
    (huncut : Uncut false name.toList) : Shows t.text (.region t) := by
  have hno : ∀ {us : List String} {d : Char}, (∀ u ∈ us, isLabel u.toList = true) →
      Text.isPlain d = false → d ≠ ' ' → d ∉ (us.map String.toList).flatMap (' ' :: ·) := by
    intro us d hus hd hblank hmem
    rw [List.flatMap_map, List.mem_flatMap] at hmem
    obtain ⟨u, hu, hmem⟩ := hmem
    rcases List.mem_cons.1 hmem with hmem | hmem
    · exact hblank hmem
    · exact Text.notMem_of_isPlain (isPlain_of_isLabel (hus u hu)) hd hmem
  refine shows_text (fun w hw => ?_) ?_
  · rw [hwords, List.mem_append, List.mem_cons] at hw
    rcases hw with hw | rfl | hw
    · exact isWord_of_isLabel (hbefore w hw)
    · exact hword
    · exact isWord_of_isLabel (hbehind w hw)
  · have htext : t.text.toList = (".try".toList ++ ((before.map String.toList).flatMap (' ' :: ·) ++
        [' '])) ++ (name.toList ++ (behind.map String.toList).flatMap (' ' :: ·)) := by
      rw [toList_text, hwords]
      simp
    have hname := huncut.append (hno hbehind rfl (by decide))
    rw [htext]
    refine hname.prepend ?_ ?_
    · simp [hno hbefore (d := '/') rfl (by decide)]
    · simp [hno hbefore (d := '"') rfl (by decide)]

end Words

section Handlers

variable {labels : Labels} {g h : TypeGraph} {text : KindText} {kind : HandlerKind}
  {parts : TryLine} {tries : List TryLine} {handler : Handler} {handlers : List Handler}

/-- The full name of the type that a handler catches in place of a short one. -/
def KindText.full : KindText → KindText
  | .catchType type => .catchType (typeAlias type)
  | text => text

def TryLine.full (t : TryLine) : TryLine := { t with kind := t.kind.full }

/-- A kind was read. -/
inductive KindRead (labels : Labels) (g : TypeGraph) : KindText → HandlerKind → Prop
  | catchType {name : String} {id : TypeId} (h : Found g name id) :
    KindRead labels g (.catchType name) (.catchType id)
  | filterFrom {name : String} {start : InstructionId} (h : findLabel? labels name = some start) :
    KindRead labels g (.filterFrom name) (.filterFrom start)
  | finallyBlock : KindRead labels g .finallyBlock .finallyBlock
  | faultBlock : KindRead labels g .faultBlock .faultBlock

/-- A handler was read from the parts of its line. -/
structure Handled (labels : Labels) (g : TypeGraph) (parts : TryLine) (handler : Handler) : Prop
    where
  kind : KindRead labels g parts.kind handler.kind
  regions : readRegions labels parts handler.kind = .ok handler

theorem KindRead.mono (hg : g.Grows h) (hkind : KindRead labels g text kind) :
    KindRead labels h text kind := by
  cases hkind with
  | catchType hfound => exact .catchType (hfound.mono hg)
  | filterFrom hstart => exact .filterFrom hstart
  | finallyBlock => exact .finallyBlock
  | faultBlock => exact .faultBlock

theorem readKind_spec (hkind : readKind labels g text = (.ok kind, h)) :
    g.Grows h ∧ KindRead labels h text kind := by
  cases text with
  | catchType name =>
    obtain ⟨hgrows, hfound⟩ := resolveType_spec g name
    cases hkind
    exact ⟨hgrows, .catchType hfound⟩
  | filterFrom name =>
    obtain ⟨hresult, rfl⟩ := Prod.mk.inj hkind
    obtain ⟨start, hstart, rfl⟩ := map_eq_ok_iff.1 hresult
    exact ⟨.refl _, .filterFrom (findLabel_eq_ok_iff.1 hstart)⟩
  | finallyBlock =>
    cases hkind
    exact ⟨.refl _, .finallyBlock⟩
  | faultBlock =>
    cases hkind
    exact ⟨.refl _, .faultBlock⟩

theorem readKind_of_kindRead (hkind : KindRead labels g text kind) :
    readKind labels g text = (.ok kind, g) := by
  cases hkind with
  | catchType hfound => rw [readKind, resolveType_of_found hfound]
  | filterFrom hstart =>
    rw [readKind, findLabel_eq_ok_iff.2 hstart]
    rfl
  | finallyBlock => rfl
  | faultBlock => rfl

/-- Whatever was read stays as it is in the graph that the reading leaves. -/
theorem readHandlers_spec : ∀ {tries : List TryLine} {g : TypeGraph} {handlers : List Handler},
    readHandlers labels g tries = (.ok handlers, h) →
    g.Grows h ∧ List.Forall₂ (Handled labels h) tries handlers
  | [], g, handlers, hread => by
    cases hread
    exact ⟨.refl _, .nil⟩
  | parts :: tries, g, handlers, hread => by
    obtain ⟨kind, g₁, first, rest, hkind, hregions, hrest, rfl⟩ := readHandlers_cons_iff.1 hread
    obtain ⟨hstep, hfirst⟩ := readKind_spec hkind
    obtain ⟨hgrows, hhandled⟩ := readHandlers_spec hrest
    obtain rfl : first.kind = kind := (readRegions_eq_ok_iff.1 hregions).1
    exact ⟨hstep.trans hgrows, .cons ⟨hfirst.mono hgrows, hregions⟩ hhandled⟩

theorem readHandlers_of_handled (hhandled : List.Forall₂ (Handled labels g) tries handlers) :
    readHandlers labels g tries = (.ok handlers, g) := by
  induction hhandled with
  | nil => rfl
  | cons hfirst _ ih =>
    exact readHandlers_cons_iff.2 ⟨_, g, _, _, readKind_of_kindRead hfirst.kind, hfirst.regions, ih,
      rfl⟩

theorem readKind_full (labels : Labels) (g : TypeGraph) (text : KindText) :
    readKind labels g text.full = readKind labels g text := by
  cases text with
  | catchType name => rw [KindText.full, readKind, readKind, resolveType_typeAlias]
  | _ => rfl

/-- Full names are read as the short ones are. -/
theorem readHandlers_full : ∀ (tries : List TryLine) (g : TypeGraph),
    readHandlers labels g (tries.map TryLine.full) = readHandlers labels g tries
  | [], g => rfl
  | parts :: tries, g => by
    have hregions : readRegions labels parts.full = readRegions labels parts := rfl
    have hkind : readKind labels g parts.full.kind = readKind labels g parts.kind :=
      readKind_full labels g parts.kind
    rw [List.map_cons, readHandlers, readHandlers, hkind, hregions]
    simp only [readHandlers_full tries]

end Handlers

section Print

variable {source : String} {g : TypeGraph} (p : Phases source g) (method : MethodDef)
  {h : TypeGraph} {parts : TryLine} {handler : Handler}

/-- No type of a handler line starts with a point. -/
def TryLine.Undotted (t : TryLine) : Prop :=
  ∀ name, t.kind = .catchType name → name.toList.head? ≠ some '.'

instance (t : TryLine) : Decidable t.Undotted :=
  match h : t.kind with
  | .catchType name =>
    decidable_of_iff (name.toList.head? ≠ some '.') (by simp [TryLine.Undotted, h])
  | .filterFrom _ | .finallyBlock | .faultBlock => isTrue (by simp [TryLine.Undotted, h])

/-- A handler is printed as its line with the full name of its type. -/
theorem Phases.handlerLine_eq (hindexed : h.Indexed)
    (hhandled : Handled p.labels h parts handler) (hdot : parts.Undotted) :
    (p.listing method).handlerLine h handler = parts.full.text := by
  obtain ⟨-, htry, htryEnd, hhandler, hhandlerEnd⟩ := readRegions_eq_ok_iff.1 hhandled.regions
  have hline : (p.listing method).handlerLine h handler =
      ".try " ++ (p.listing method).nameOf handler.tryStart ++ " to " ++
        (p.listing method).endName handler.tryEnd ++ " " ++ handler.kind.name ++
        (p.listing method).kindArgument h handler.kind ++ " handler " ++
        (p.listing method).nameOf handler.handlerStart ++ " to " ++
        (p.listing method).endName handler.handlerEnd := rfl
  rw [hline, p.nameOf_eq method htry, p.endName_eq method htryEnd, p.nameOf_eq method hhandler,
    p.endName_eq method hhandlerEnd, ← String.toList_inj, TryLine.toList_text]
  obtain ⟨tryStart, tryEnd, text, handlerStart, handlerEnd⟩ := parts
  obtain ⟨kind, tryStart', tryEnd', handlerStart', handlerEnd'⟩ := handler
  have hkind : KindRead p.labels h text kind := hhandled.kind
  cases hkind with
  | @catchType name id hfound =>
    have hname : h.fullName id = typeAlias name :=
      (hindexed.of_lookup? (hfound.lookup? (hdot name rfl))).2
    simp [kindArgument, HandlerKind.name, hname, TryLine.full, TryLine.words, KindText.full,
      KindText.words]
  | filterFrom hstart =>
    simp [kindArgument, HandlerKind.name, p.nameOf_eq method hstart, TryLine.full, TryLine.words,
      KindText.full, KindText.words]
  | finallyBlock =>
    simp [kindArgument, HandlerKind.name, TryLine.full, TryLine.words, KindText.full,
      KindText.words]
  | faultBlock =>
    simp [kindArgument, HandlerKind.name, TryLine.full, TryLine.words, KindText.full,
      KindText.words]

theorem Phases.isLabel_of_regionEnd {name : String} {end? : Option InstructionId}
    (hend : regionEnd p.labels name = .ok end?) : isLabel name.toList = true := by
  cases end? with
  | some id => exact p.isLabel_of_findLabel? (regionEnd_eq_ok_some hend).2
  | none =>
    rw [regionEnd_eq_ok_none hend]
    decide

/-- The four labels of a handler line. -/
theorem Phases.isLabel_regions (hregions : readRegions p.labels parts handler.kind = .ok handler) :
    ∀ w ∈ [parts.tryStart, parts.tryEnd, parts.handlerStart, parts.handlerEnd],
      isLabel w.toList = true := by
  obtain ⟨-, htry, htryEnd, hhandler, hhandlerEnd⟩ := readRegions_eq_ok_iff.1 hregions
  intro w hw
  simp only [List.mem_cons, List.not_mem_nil, or_false] at hw
  rcases hw with rfl | rfl | rfl | rfl
  · exact p.isLabel_of_findLabel? htry
  · exact p.isLabel_of_regionEnd htryEnd
  · exact p.isLabel_of_findLabel? hhandler
  · exact p.isLabel_of_regionEnd hhandlerEnd

/-- The words of a kind that is not followed by a type. -/
theorem Phases.isLabel_kind {text : KindText} {kind : HandlerKind}
    (hkind : KindRead p.labels h text kind) (hcatch : ∀ name, text ≠ .catchType name) :
    ∀ w ∈ text.full.words, isLabel w.toList = true := by
  cases hkind with
  | catchType => exact absurd rfl (hcatch _)
  | filterFrom hstart =>
    have hlabel := p.isLabel_of_findLabel? hstart
    intro w hw
    rcases List.mem_pair.1 hw with rfl | rfl
    · decide
    · exact hlabel
  | finallyBlock => decide
  | faultBlock => decide

/-- No quote stands before the type on a handler line, so that no comment starts in the type. -/
theorem Phases.uncut_catchType (hparts : parts ∈ tryLines p.lines)
    (hregions : readRegions p.labels parts handler.kind = .ok handler) {name : String}
    (hkind : parts.kind = .catchType name) :
    Text.IsWord name.toList ∧ Uncut false name.toList := by
  obtain ⟨text, htext, hsplit⟩ := exists_text_of_mem_tryLines p.split hparts
  have huncut : Uncut false text := by
    obtain ⟨cs, -, rfl⟩ := List.mem_map.1 (List.mem_of_mem_filter htext)
    exact .content cs
  obtain ⟨rest, rfl, hrest⟩ := words_of_splitLine hsplit
  obtain ⟨before, behind, hwords, hbefore, -⟩ :=
    TryLine.words_of_catchType hkind (p.isLabel_regions hregions)
  rw [hwords, List.map_append, List.map_cons] at hrest
  obtain ⟨pre, post, rfl, hpre⟩ := Text.exists_append_of_words hrest
  refine ⟨Text.isWord_of_mem_words (by rw [hrest]; simp), ?_⟩
  -- Before the type stand the directive, blanks, and words without quotes.
  rw [← List.append_assoc] at huncut
  refine (huncut.right fun hquote => ?_).left
  rcases List.mem_append.1 hquote with hquote | hquote
  · simp at hquote
  · rcases hpre '"' hquote with hblank | ⟨u, hu, hquote⟩
    · exact absurd hblank (by decide)
    · obtain ⟨w, hw, rfl⟩ := List.mem_map.1 hu
      exact Text.notMem_of_isPlain (isPlain_of_isLabel (hbefore w hw)) rfl hquote

theorem typeAlias_spec {name : String} (hword : Text.IsWord name.toList)
    (huncut : Uncut false name.toList) :
    Text.IsWord (typeAlias name).toList ∧ Uncut false (typeAlias name).toList := by
  rcases typeAlias_eq name with h | h
  · rw [h]
    exact ⟨hword, huncut⟩
  · have hcore : ∀ full ∈ TypeGraph.coreNames, full.toList ≠ []
        ∧ full.toList.all Text.isPlain = true := by
      decide
    obtain ⟨hne, hplain⟩ := hcore _ h
    have hplain := List.all_eq_true.1 hplain
    exact ⟨⟨hne, fun c hc => Text.isBlank_of_isPlain (hplain c hc)⟩,
      .of_notMem (Text.notMem_of_isPlain hplain rfl)⟩

/-- A printed handler line is cut into the parts of the line that was read, with the full name of
its type. -/
theorem Phases.shows_handlerLine (hindexed : h.Indexed) (hparts : parts ∈ tryLines p.lines)
    (hhandled : Handled p.labels h parts handler) (hdot : parts.Undotted) :
    Shows ((p.listing method).handlerLine h handler) (.region parts.full) := by
  rw [p.handlerLine_eq method hindexed hhandled hdot]
  have hregions := p.isLabel_regions hhandled.regions
  cases hkind : parts.kind with
  | catchType name =>
    have hfull : parts.full.kind = .catchType (typeAlias name) := by
      rw [TryLine.full, hkind]
      rfl
    obtain ⟨hword, huncut⟩ := p.uncut_catchType hparts hhandled.regions hkind
    obtain ⟨hword, huncut⟩ := typeAlias_spec hword huncut
    obtain ⟨before, behind, hwords, hbefore, hbehind⟩ := TryLine.words_of_catchType hfull hregions
    exact TryLine.shows_of_append hwords hbefore hbehind hword huncut
  | _ =>
    have hcatch : ∀ name, parts.kind ≠ .catchType name := by simp [hkind]
    exact TryLine.shows_of_labels
      (parts.full.isLabel_words (p.isLabel_kind hhandled.kind hcatch) hregions)

end Print

end CilMethod.Listing
