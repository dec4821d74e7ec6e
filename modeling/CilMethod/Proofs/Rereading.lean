import CilMethod.Proofs.TypeNames

/-!
# Reading a source again

A reading adds the types that it comes to, and they stay, also if it stops at a fault later on. In
every graph that has grown from the one that it left, a second reading comes to the same names in
the same order and finds each of them resolved, the names with a point in front, too
(`resolveType_of_grows`). So it adds nothing, and nothing that is read from the lines depends on the
graph otherwise: it gets as far as the first one did, with the same types (`readLines_of_grows`).
-/

namespace CilMethod.Listing

variable {g h : TypeGraph} {labels : Labels}

section Types

theorem resolveType_of_grows {name : String} (hg : (resolveType g name).2.Grows h) :
    resolveType h name = ((resolveType g name).1, h) :=
  resolveType_of_found ((resolveType_spec g name).2.mono hg)

theorem resolveTypes_of_grows {names : List String} (hg : (resolveTypes g names).2.Grows h) :
    resolveTypes h names = ((resolveTypes g names).1, h) :=
  resolveTypes_of_found ((resolveTypes_spec g names).2.imp fun _ _ hfound => hfound.mono hg)

end Types

section Handlers

theorem grows_readKind (labels : Labels) (g : TypeGraph) (text : KindText) :
    g.Grows (readKind labels g text).2 := by
  cases text with
  | catchType name => exact (resolveType_spec g name).1
  | _ => exact .refl g

theorem readKind_of_grows {text : KindText} (hg : (readKind labels g text).2.Grows h) :
    readKind labels h text = ((readKind labels g text).1, h) := by
  cases text with
  | catchType name =>
    have hfound : resolveType h name = ((resolveType g name).1, h) := resolveType_of_grows hg
    rw [readKind, hfound]
    rfl
  | _ => rfl

theorem grows_readHandlers (labels : Labels) : ∀ (tries : List TryLine) (g : TypeGraph),
    g.Grows (readHandlers labels g tries).2
  | [], g => .refl g
  | parts :: tries, g => by
    have hkind := grows_readKind labels g parts.kind
    rw [readHandlers]
    dsimp only
    split
    · exact hkind
    · exact hkind.trans (grows_readHandlers labels tries _)

/-- The handlers are read alike up to the first that has a fault, and no further. -/
theorem readHandlers_of_grows : ∀ {tries : List TryLine} {g : TypeGraph},
    (readHandlers labels g tries).2.Grows h →
    readHandlers labels h tries = ((readHandlers labels g tries).1, h)
  | [], _, _ => rfl
  | parts :: tries, g, hg => by
    simp only [readHandlers] at hg ⊢
    cases hhandler : (readKind labels g parts.kind).1.bind (readRegions labels parts) with
    | error e =>
      simp only [hhandler] at hg ⊢
      simp only [readKind_of_grows hg, hhandler]
    | ok handler =>
      simp only [hhandler] at hg ⊢
      have hrest := grows_readHandlers labels tries (readKind labels g parts.kind).2
      simp only [readKind_of_grows (hrest.trans hg), hhandler, readHandlers_of_grows hg]

end Handlers

section Read

variable {lines : List (Numbered Line)} {method : MethodDef}

theorem readLines_of_grows (hg : (readLines lines method g).2.Grows h) :
    readLines lines method h = ((readLines lines method g).1, h) := by
  have hcore := (resolveTypes_spec g.addCore.2 (localTypes lines)).1
  simp only [readLines] at hg ⊢
  cases hread : readInstructions (resolveTypes g.addCore.2 (localTypes lines)).1
    (codeLines lines) with
  | error e =>
    simp only [hread] at hg ⊢
    rw [TypeGraph.addCore_of_grows (hcore.trans hg), resolveTypes_of_grows hg]
    simp only [hread]
  | ok parts =>
    obtain ⟨labels, locals, instructions⟩ := parts
    simp only [hread] at hg ⊢
    have htypes := (grows_readHandlers labels (tryLines lines)
      (resolveTypes g.addCore.2 (localTypes lines)).2).trans hg
    rw [TypeGraph.addCore_of_grows (hcore.trans htypes), resolveTypes_of_grows htypes]
    simp only [hread, readHandlers_of_grows hg]

/-- A source that is read again is read alike: it has the same fault, or it makes the same listing
with the same types, and the graph stays as the first reading left it. -/
theorem read_again (source : String) (method : MethodDef) (g : TypeGraph) :
    read source method (read source method g).2 = read source method g := by
  unfold read
  cases splitLines source with
  | error e => rfl
  | ok lines => exact readLines_of_grows (.refl _)

end Read

end CilMethod.Listing
