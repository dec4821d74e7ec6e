import CilMethod.Proofs.PrintedHandlers

/-!
# A printed listing is read back

The printed handlers and instructions, without the columns in front of the labels, make a source
again if the lines that declare variables are put before them (`reprint`). Its lines are cut into
the parts of the lines that were read, but for the numbers of the lines, the blanks, and the short
names of types (`Phases.exists_splitLines_reprint`). So every phase hands on the same as before, in
the graph that the first reading started from and in the one that it left (`read_reprint`).
-/

namespace CilMethod.Listing

/-- A line declares variables. -/
def isDeclaration (cs : List Char) : Bool := (Text.after? ".locals".toList (content cs)).isSome

/-- The lines that declare variables, as they stand in the source. -/
def declarations (source : String) : List String :=
  ((Text.lines source.toList).filter isDeclaration).map String.ofList

/-- The declarations of a source, and a listing as it is printed: its handlers, and its instructions
from the label on. -/
def reprint (source : String) (g : TypeGraph) (l : Listing) : String :=
  String.join ((declarations source ++ (l.body.handlers.toList.map (l.handlerLine g) ++
    l.body.instructions.members.map fun (id, i) => l.codeText id i)).map (· ++ "\n"))

theorem shows_declarations : ∀ {texts : List (List Char)} {items : List Line},
    (∀ cs ∈ texts, '\n' ∉ cs) →
    List.Forall₂ (fun text item => splitLine text = .ok item)
      ((texts.map content).filter fun text => !text.isEmpty) items →
    ∃ types : List (List String),
      List.Forall₂ Shows ((texts.filter isDeclaration).map String.ofList) (types.map .locals)
        ∧ types.flatten = items.flatMap Line.types
  | [], items, _, h => by
    cases h
    exact ⟨[], .nil, rfl⟩
  | cs :: texts, items, hlines, h => by
    have hrest : ∀ ds ∈ texts, '\n' ∉ ds := fun ds hds => hlines ds (List.mem_cons_of_mem cs hds)
    rw [List.map_cons, List.filter_cons] at h
    rw [List.filter_cons]
    split_ifs at h with hcounts
    · obtain ⟨item, items, hitem, hitems, rfl⟩ := List.forall₂_cons_left_iff.1 h
      obtain ⟨types, hshows, htypes⟩ := shows_declarations hrest hitems
      have hshow : Shows (String.ofList cs) item :=
        ⟨by simpa using hlines cs List.mem_cons_self, by simpa using hcounts, by simpa using hitem⟩
      rcases splitLine_cases hitem with ⟨rest, hafter, rfl⟩ | ⟨hafter, _, _, -, -, rfl⟩ |
        ⟨hafter, _, -, rfl⟩
      · rw [if_pos (by rw [isDeclaration, hafter]; rfl)]
        exact ⟨_ :: types, .cons hshow hshows, congrArg (_ ++ ·) htypes⟩
      all_goals
        rw [if_neg (by rw [isDeclaration, hafter]; decide)]
        exact ⟨types, hshows, htypes⟩
    · have hempty : content cs = [] := by simpa using hcounts
      rw [if_neg (by rw [isDeclaration, hempty]; decide)]
      exact shows_declarations hrest h

namespace Phases

variable {source : String} {g : TypeGraph} (p : Phases source g) (method : MethodDef)

theorem shows_handlers (hindexed : p.final.Indexed)
    (hdot : ∀ parts ∈ tryLines p.lines, parts.Undotted) :
    List.Forall₂ Shows
      ((p.listing method).body.handlers.toList.map ((p.listing method).handlerLine p.final))
      (((tryLines p.lines).map TryLine.full).map .region) := by
  obtain ⟨-, hhandled⟩ := readHandlers_spec p.handle
  have hhandlers : (p.listing method).body.handlers.toList = p.handlers := by
    rw [body_listing]
  rw [hhandlers, List.forall₂_map_left_iff, List.map_map, List.forall₂_map_right_iff]
  have hparts := (List.forall₂_and_left (tryLines p.lines) p.handlers).2 ⟨fun _ => id, hhandled⟩
  exact hparts.flip.imp fun handler parts h =>
    p.shows_handlerLine method hindexed h.1 h.2 (hdot parts h.1)

theorem map_labelOf?_members :
    (p.listing method).body.instructions.members.map (fun m => (p.listing method).labelOf? m.1) =
      (codeLines p.lines).map (·.item.label) := by
  have hs := (p.reachable_listing method).instructions.consistent
  refine List.ext_getElem? fun n => ?_
  rw [List.getElem?_map, List.getElem?_map, hs.getElem?_members, Sequence.get?_eq_toList,
    order_listing, List.getElem?_map]
  by_cases hn : n < (codeLines p.lines).length
  · have hmem : ⟨n⟩ ∈ (p.listing method).body.instructions.order :=
      (p.mem_order_listing method).2 hn
    obtain ⟨i, hi⟩ := hs.exists_node hmem
    rw [List.getElem?_range hn, List.getElem?_eq_getElem hn]
    simp only [Option.map_some, Option.bind_some, hi, Option.some.injEq]
    refine Option.ext fun name => ?_
    rw [labelOf?_listing, p.labelled.mem_iff]
    simp [List.getElem?_eq_getElem hn]
  · rw [List.getElem?_eq_none (by simpa using hn), List.getElem?_eq_none (Nat.le_of_not_lt hn)]
    rfl

/-- The printed instructions, cut into the parts of their lines. -/
theorem shows_codes (hlocals : p.locals.length < 1 <<< 31)
    (hliteral : ∀ c ∈ p.code, c.2.isLiteral = false) :
    ∃ codes : List CodeLine,
      List.Forall₂ Shows ((p.listing method).body.instructions.members.map fun (id, i) =>
        (p.listing method).codeText id i) (codes.map .code)
      ∧ codes.map (·.label) = (codeLines p.lines).map (·.item.label)
      ∧ List.Forall₂ (fun parts c => ∀ line, readCode p.labels p.locals ⟨line, parts⟩ = .ok c)
        codes p.code := by
  have hparts : ∀ m ∈ (p.listing method).body.instructions.members, ∃ parts : CodeLine,
      parts.label = (p.listing method).labelOf? m.1
        ∧ Shows ((p.listing method).codeText m.1 m.2) (.code parts)
        ∧ ∀ line, readCode p.labels p.locals ⟨line, parts⟩ = .ok (m.2.opcode, m.2.operand) := by
    rintro ⟨id, i⟩ hm
    have hcode : (i.opcode, i.operand) ∈ p.code := by
      rw [← p.codes_listing method]
      exact List.mem_map_of_mem hm
    exact p.shows_codeText method hlocals (Sequence.mk_mem_members.1 hm).2 (hliteral _ hcode)
  -- The parts of a line depend on its member alone, so that they are a map of the members.
  have : Inhabited CodeLine := ⟨⟨none, "", ""⟩⟩
  choose! parts hlabel hshows hread using hparts
  refine ⟨(p.listing method).body.instructions.members.map parts, ?_, ?_, ?_⟩
  · rw [List.map_map, List.forall₂_map_left_iff, List.forall₂_map_right_iff]
    exact List.forall₂_same.2 hshows
  · rw [← p.map_labelOf?_members method, List.map_map]
    exact List.map_congr_left hlabel
  · rw [← p.codes_listing method, Sequence.codes, List.forall₂_map_left_iff,
      List.forall₂_map_right_iff]
    exact List.forall₂_same.2 hread

/-- The lines of a printed listing give every phase what the lines that were read gave it. -/
theorem exists_splitLines_reprint (hindexed : p.final.Indexed)
    (hlocals : p.locals.length < 1 <<< 31) (hliteral : ∀ c ∈ p.code, c.2.isLiteral = false)
    (hdot : ∀ parts ∈ tryLines p.lines, parts.Undotted) :
    ∃ lines, splitLines (reprint source p.final (p.listing method)) = .ok lines
      ∧ localTypes lines = localTypes p.lines
      ∧ tryLines lines = (tryLines p.lines).map TryLine.full
      ∧ Labelled (codeLines lines) p.labels
      ∧ List.Forall₂ (fun line c => readCode p.labels p.locals line = .ok c)
        (codeLines lines) p.code := by
  obtain ⟨types, htypes, hflatten⟩ := shows_declarations
    (fun cs hcs => Text.newline_notMem_of_mem_lines hcs)
    (exists_splitLines_iff.1 ⟨p.lines, p.split, rfl⟩)
  obtain ⟨codes, hcodes, hlabels, hread⟩ := p.shows_codes method hlocals hliteral
  obtain ⟨lines, hsplit, hitems⟩ := exists_splitLines_join
    (List.rel_append htypes (List.rel_append (p.shows_handlers method hindexed hdot) hcodes))
  obtain ⟨hlocalTypes, htries, hcodeLines⟩ := parts_of_map_item hitems
  refine ⟨lines, hsplit, ?_, htries, ⟨?_, p.labelled.nodup⟩, ?_⟩
  · rw [hlocalTypes, hflatten, localTypes_eq]
  · rw [p.labelled.eq]
    refine labelsFrom_congr ?_
    rw [← hlabels, ← hcodeLines, List.map_map]
    rfl
  · rw [← hcodeLines, List.forall₂_map_left_iff] at hread
    exact hread.imp fun line c h => h line.line

/-- The printed listing is read in any graph in which the types are resolved as before. -/
theorem read_reprint_of_resolve (hindexed : p.final.Indexed)
    (hlocals : p.locals.length < 1 <<< 31) (hliteral : ∀ c ∈ p.code, c.2.isLiteral = false)
    (hdot : ∀ parts ∈ tryLines p.lines, parts.Undotted) {h graph : TypeGraph}
    (hresolve : resolveTypes h.addCore.2 (localTypes p.lines) = (p.types, graph))
    (hhandle : readHandlers p.labels graph (tryLines p.lines) = (.ok p.handlers, p.final)) :
    read (reprint source p.final (p.listing method)) method h =
      (.ok (p.listing method), p.final) := by
  obtain ⟨lines, hsplit, htypes, htries, hlabelled, hread⟩ :=
    p.exists_splitLines_reprint method hindexed hlocals hliteral hdot
  -- Handlers are read alike from short and from full names, and this is all that has changed.
  rw [← htypes] at hresolve
  rw [← readHandlers_full, ← htries] at hhandle
  exact read_eq_ok_iff.2 ⟨⟨lines, p.types, graph, p.locals, p.labels, p.code, p.loaded, p.handlers,
    p.final, hsplit, hresolve, p.declare, hlabelled, hread, p.emit, hhandle⟩, rfl, rfl⟩

/-- In the graph that a reading leaves, all types are resolved without adding one. -/
theorem resolve_final : resolveTypes p.final.addCore.2 (localTypes p.lines) = (p.types, p.final)
    ∧ readHandlers p.labels p.final (tryLines p.lines) = (.ok p.handlers, p.final) := by
  obtain ⟨hlocals, hfound⟩ := resolveTypes_spec g.addCore.2 (localTypes p.lines)
  rw [p.resolve] at hlocals hfound
  obtain ⟨hhandlers, hhandled⟩ := readHandlers_spec p.handle
  refine ⟨?_, readHandlers_of_handled hhandled⟩
  rw [TypeGraph.addCore_of_grows (hlocals.trans hhandlers)]
  exact resolveTypes_of_found (hfound.imp fun name id h => h.mono hhandlers)

end Phases

section Read

variable {source : String} {method : MethodDef} {g g' : TypeGraph} {l : Listing}

/-- A listing that was read, printed and read again is the same listing, both in the graph that the
first reading started from and in the one that it left. -/
theorem read_reprint (hg : g.Reachable) (h : read source method g = (.ok l, g'))
    (hlocals : l.body.locals.length < 1 <<< 31)
    (hliteral : ∀ c ∈ l.body.instructions.codes, c.2.isLiteral = false)
    (hdot : ∀ lines, splitLines source = .ok lines →
      ∀ parts ∈ tryLines lines, parts.Undotted) :
    read (reprint source g' l) method g = (.ok l, g')
      ∧ read (reprint source g' l) method g' = (.ok l, g') := by
  have hindexed : g'.Indexed := by
    have hfinal := (hg.read source method).indexed
    rwa [h] at hfinal
  obtain ⟨p, rfl, rfl⟩ := read_eq_ok_iff.1 h
  rw [p.body_listing] at hlocals
  rw [p.codes_listing] at hliteral
  have hdot := hdot p.lines p.split
  obtain ⟨hresolve, hhandle⟩ := p.resolve_final
  exact ⟨p.read_reprint_of_resolve method hindexed hlocals hliteral hdot p.resolve p.handle,
    p.read_reprint_of_resolve method hindexed hlocals hliteral hdot hresolve hhandle⟩

/-- A short name of a type, a label that touches its mnemonic, and an instruction with the label
`end`, which the regions do not mean. -/
theorem read_reprint_catch : ∃ source l g', read source {} .empty = (.ok l, g')
    ∧ reprint source g' l = ".locals int32 // one\n" ++
      ".try top to end catch System.Object handler top to end\n" ++
      "again_and_again:ldloc.s V_0\n" ++
      "end:      ldc.i4 -7\n" ++
      "top:      switch (top, end)\n"
    ∧ read (reprint source g' l) {} .empty = (.ok l, g')
    ∧ read (reprint source g' l) {} g' = (.ok l, g') := by
  obtain ⟨source, hsource⟩ : ∃ source : String, source =
    ".locals int32 // one\n.try top to end catch object handler top to end\n" ++
      "again_and_again: LDLOC.S 0\nend : ldc.i4 -7\ntop: switch (top,end)" := ⟨_, rfl⟩
  have hlisting : ∃ l g', read source {} .empty = (.ok l, g')
      ∧ (l.body.locals.length < 1 <<< 31 && l.body.instructions.codes.all (!·.2.isLiteral)
        && (splitLines source).toOption.all (fun lines => (tryLines lines).all (·.Undotted))
        && reprint source (read source {} .empty).2 l ==
          ".locals int32 // one\n" ++
          ".try top to end catch System.Object handler top to end\n" ++
          "again_and_again:ldloc.s V_0\n" ++
          "end:      ldc.i4 -7\n" ++
          "top:      switch (top, end)\n") = true := by
    subst hsource
    exact exists_read (by decide +kernel)
  obtain ⟨l, g', hread, htest⟩ := hlisting
  rw [hread] at htest
  simp only [Bool.and_eq_true, beq_iff_eq, decide_eq_true_eq, List.all_eq_true,
    Bool.not_eq_true'] at htest
  obtain ⟨⟨⟨hlocals, hliteral⟩, hdot⟩, htext⟩ := htest
  refine ⟨source, l, g', hread, htext, read_reprint ⟨[], rfl⟩ hread hlocals hliteral
    fun lines hlines => ?_⟩
  simpa [hlines, Except.toOption] using hdot

end Read

end CilMethod.Listing
