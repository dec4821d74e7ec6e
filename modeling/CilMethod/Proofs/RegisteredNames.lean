import CilMethod.Proofs.TypeRegistry

/-!
# The name that a type is registered under

A name that leads to no type is cut at its last point, and the type that is added has the name and
the namespace that this gives. Both together make up the name again, with one exception: where the
only point is in front, the namespace is empty and the point is lost (`LosesPoint`). Such a name
stands for the same type as the rest of it. Every other name has a type of its own from then on.
-/

namespace CilMethod

namespace Listing

/-- The short names of the common types. -/
def aliases : List String := ["bool", "int32", "int64", "float64", "string", "object"]

/-- A name that no type has, and whose only point is in front of the rest. -/
structure LosesPoint (g : TypeGraph) (name rest : String) : Prop where
  name_eq : name = "." ++ rest
  notMem : '.' ∉ rest.toList
  missing : g.lookup? name = none

/-- The full name of the type that a name stands for. -/
def registeredName (g : TypeGraph) (name : String) : String :=
  if (g.lookup? name).isSome then name else (TypeDef.ofFullName name).fullName

variable {g h : TypeGraph} {name other rest : String}

theorem typeAlias_of_notMem (hname : name ∉ aliases) : typeAlias name = name := by
  unfold typeAlias
  split <;> simp [aliases] at hname ⊢

theorem lookup?_resolveType (g : TypeGraph) (hname : name ∉ aliases) :
    (resolveType g name).2.lookup? (registeredName g name) = some (resolveType g name).1 := by
  rw [resolveType_eq, registeredName, typeAlias_of_notMem hname]
  cases hid : g.lookup? name with
  | some t => exact hid
  | none =>
    exact TypeGraph.lookup?_add_self g
      { TypeDef.ofFullName name with base := g.lookup? "System.Object" }

section Point

theorem LosesPoint.mem (hpoint : LosesPoint g name rest) : '.' ∈ name.toList := by
  rw [hpoint.name_eq]
  simp

theorem LosesPoint.registeredName_eq (hpoint : LosesPoint g name rest) :
    registeredName g name = rest := by
  have hsplit : splitFullName name = ("", rest) := by
    rw [hpoint.name_eq, ← splitFullName_append hpoint.notMem, String.empty_append]
  rw [registeredName, hpoint.missing, TypeDef.ofFullName, hsplit]
  rfl

theorem registeredName_eq_self (hpoint : ∀ rest, ¬ LosesPoint g name rest) :
    registeredName g name = name := by
  rw [registeredName]
  split_ifs with hfound
  · rfl
  · rcases exists_last_point name with hno | ⟨nameSpace, last, hname, hno⟩
    · rw [TypeDef.ofFullName, splitFullName_of_notMem hno]
      rfl
    · have hspace : nameSpace ≠ "" := by
        rintro rfl
        exact hpoint last ⟨by rw [hname, String.empty_append], hno, by simpa using hfound⟩
      rw [hname, TypeDef.ofFullName, splitFullName_append hno, TypeDef.fullName, if_neg hspace]

theorem registeredName_cases (g : TypeGraph) (name : String) :
    LosesPoint g name (registeredName g name) ∨ registeredName g name = name := by
  by_cases hpoint : ∃ rest, LosesPoint g name rest
  · obtain ⟨rest, hpoint⟩ := hpoint
    rw [hpoint.registeredName_eq]
    exact .inl hpoint
  · exact .inr (registeredName_eq_self fun rest h => hpoint ⟨rest, h⟩)

/-- What a point is lost from has none left. -/
theorem LosesPoint.registeredName_rest (hpoint : LosesPoint g name rest) (h : TypeGraph) :
    registeredName h rest = rest :=
  registeredName_eq_self fun _ hrest => hpoint.notMem hrest.mem

theorem registeredName_eq_self_iff :
    registeredName g name = name ↔ ∀ rest, ¬ LosesPoint g name rest := by
  refine ⟨fun heq rest hpoint => hpoint.notMem ?_, registeredName_eq_self⟩
  rw [← hpoint.registeredName_eq, heq]
  exact hpoint.mem

/-- Of two names that differ one may lose its point, and then the other may be the rest. -/
theorem registeredName_eq_iff (hne : name ≠ other) :
    registeredName g name = registeredName h other ↔
      LosesPoint g name other ∨ LosesPoint h other name := by
  constructor
  · intro heq
    rcases registeredName_cases g name with hname | hname <;>
      rcases registeredName_cases h other with hother | hother
    · exact absurd (hname.name_eq.trans (heq ▸ hother.name_eq.symm)) hne
    · rw [heq, hother] at hname
      exact .inl hname
    · rw [← heq, hname] at hother
      exact .inr hother
    · exact absurd (hname.symm.trans (heq.trans hother)) hne
  · rintro (hpoint | hpoint)
    · rw [hpoint.registeredName_eq, hpoint.registeredName_rest]
    · rw [hpoint.registeredName_eq, hpoint.registeredName_rest]

end Point

section Run

open TypeGraph (Step)

/-- A type has the name that it was asked for, and is found by it from then on, exactly if that name
does not lose its point. One that does stands for the type of the rest. Different names stand for
different types, whatever is done in between, unless one is the rest of the other. -/
theorem resolveType_registers (before later : List Step) (name other : String)
    (hname : name ∉ aliases) (hother : other ∉ aliases) :
    let g := TypeGraph.empty.run before
    let t := (resolveType g name).1
    let h := (resolveType g name).2.run later
    (h.fullName t = name ∧ h.lookup? name = some t ↔ ∀ rest, ¬ LosesPoint g name rest)
      ∧ (∀ rest, LosesPoint g name rest → h.fullName t = rest ∧ h.lookup? rest = some t)
      ∧ (name ≠ other →
        (t = (resolveType h other).1 ↔ LosesPoint g name other ∨ LosesPoint h other name)) := by
  intro g t h
  have hg : g.Indexed := TypeGraph.indexed_empty.run before
  have hresolved : (resolveType g name).2.Indexed :=
    (TypeGraph.additions_resolveType hg name).indexed hg
  have hh : h.Indexed := hresolved.run later
  have hfound : h.lookup? (registeredName g name) = some t :=
    (hresolved.keeps_run later).lookup? (lookup?_resolveType g hname)
  have hfull : h.fullName t = registeredName g name := (hh.of_lookup? hfound).2
  refine ⟨?_, fun rest hpoint => ?_, fun hne => ?_⟩
  · rw [← registeredName_eq_self_iff, hfull]
    refine ⟨fun h => h.1, fun heq => ⟨heq, ?_⟩⟩
    rwa [heq] at hfound
  · rw [← hpoint.registeredName_eq]
    exact ⟨hfull, hfound⟩
  · rw [← registeredName_eq_iff hne]
    have hkept := (resolveType_spec h other).1.lookup? hfound
    have hsecond := lookup?_resolveType h hother
    have hthird : (resolveType h other).2.Indexed :=
      (TypeGraph.additions_resolveType hh other).indexed hh
    refine ⟨fun heq => ?_, fun heq => ?_⟩
    · rw [← (hthird.of_lookup? hkept).2, ← (hthird.of_lookup? hsecond).2, heq]
    · rw [heq, hsecond] at hkept
      exact (Option.some.inj hkept).symm

/-- A name with a namespace, and one whose only point is in front but which a type has by then. -/
theorem resolveType_registers_acme :
    let g := TypeGraph.empty.run [.addCore]
    let t := (resolveType g "Acme.Oops").1
    let h := (resolveType g "Acme.Oops").2.run [.add { name := ".X" }]
    "Acme.Oops" ∉ aliases ∧ ".X" ∉ aliases ∧ h.fullName t = "Acme.Oops"
      ∧ h.lookup? "Acme.Oops" = some t ∧ t ≠ (resolveType h ".X").1 := by
  intro g t h
  have hname : "Acme.Oops" ∉ aliases := by decide
  have hother : ".X" ∉ aliases := by decide
  obtain ⟨hkept, -, hdifferent⟩ :=
    resolveType_registers [.addCore] [.add { name := ".X" }] "Acme.Oops" ".X" hname hother
  have hpoint : ∀ rest, ¬ LosesPoint g "Acme.Oops" rest := by
    intro rest hpoint
    have hhead := congrArg (·.toList.head?) hpoint.name_eq
    simp at hhead
  obtain ⟨hfull, hfound⟩ := hkept.2 hpoint
  refine ⟨hname, hother, hfull, hfound, fun heq => ?_⟩
  rcases (hdifferent (by decide)).1 heq with hlost | hlost
  · exact hpoint _ hlost
  · exact absurd hlost.notMem (by decide)

/-- With the core types alone, a name whose only point is in front is registered without it. The
name still leads to no type, and the rest of it stands for the same type. -/
theorem resolveType_point_in_front :
    let g := TypeGraph.empty.run [.addCore]
    let h := (resolveType g ".X").2
    ".X" ∉ aliases ∧ "X" ∉ aliases ∧ h.fullName (resolveType g ".X").1 = "X"
      ∧ h.lookup? ".X" = none ∧ (resolveType h "X").1 = (resolveType g ".X").1 := by
  decide +kernel

end Run

end Listing

end CilMethod
