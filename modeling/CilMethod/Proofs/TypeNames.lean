import CilMethod.Proofs.Phases
import Mathlib.Data.List.TakeWhile

/-!
# Looking up types again

Reading a source only ever registers types behind those that the graph has, and never one with a
point in its name (`Grows`): a full name is cut at its last point, and what is behind that is the
name. So a full name that leads to a type keeps leading to it. A name without a type may be short of
one only because its first character is its only point. Cutting that off gives another full name,
and none of the types that are added has the first one, either. In both cases a name that was
resolved once (`Found`) is resolved to the same type from then on, and nothing is added for it
(`resolveType_of_found`).
-/

namespace CilMethod

section FullName

variable {nameSpace name : String}

/-- A type with the namespace and the name that a full name is cut into. -/
def TypeDef.ofFullName (fullName : String) : TypeDef :=
  { nameSpace := (splitFullName fullName).1, name := (splitFullName fullName).2 }

theorem splitFullName_of_notMem (h : '.' ∉ name.toList) : splitFullName name = ("", name) := by
  have hdrop : name.toList.reverse.dropWhile (· != '.') = [] :=
    List.dropWhile_eq_nil_iff.2 fun c hc => bne_iff_ne.2 fun heq => h (by simpa [heq] using hc)
  simp only [splitFullName, hdrop]

theorem splitFullName_append (h : '.' ∉ name.toList) :
    splitFullName (nameSpace ++ "." ++ name) = (nameSpace, name) := by
  have hreverse : (nameSpace ++ "." ++ name).toList.reverse =
      name.toList.reverse ++ '.' :: nameSpace.toList.reverse := by
    simp
  have hfree : ∀ c ∈ name.toList.reverse, (c != '.') = true := fun c hc =>
    bne_iff_ne.2 fun heq => h (by simpa [heq] using hc)
  simp only [splitFullName, hreverse, List.dropWhile_append_of_pos hfree,
    List.takeWhile_append_of_pos hfree]
  simp

/-- Every name has a last point or none. -/
theorem exists_last_point (fullName : String) : '.' ∉ fullName.toList
    ∨ ∃ nameSpace name : String, fullName = nameSpace ++ "." ++ name ∧ '.' ∉ name.toList := by
  have happend : fullName.toList.reverse = _ :=
    (List.takeWhile_append_dropWhile (p := (· != '.'))).symm
  cases hdrop : fullName.toList.reverse.dropWhile (· != '.') with
  | nil =>
    rw [List.dropWhile_eq_nil_iff] at hdrop
    exact .inl fun hmem => by simpa using hdrop '.' (List.mem_reverse.2 hmem)
  | cons c rest =>
    have hc : c = '.' := by
      have hhead := List.head?_dropWhile_not (· != '.') fullName.toList.reverse
      rw [hdrop] at hhead
      simpa using hhead
    rw [hdrop, hc] at happend
    refine .inr ⟨String.ofList rest.reverse,
      String.ofList (fullName.toList.reverse.takeWhile (· != '.')).reverse, ?_, ?_⟩
    · rw [← String.toList_inj, ← List.reverse_inj]
      refine happend.trans ?_
      simp
    · intro hmem
      rw [String.toList_ofList, List.mem_reverse] at hmem
      simpa using List.mem_takeWhile_imp hmem

/-- The parts of a full name make it up again, unless its only point is in front. -/
theorem fullName_ofFullName {fullName : String} (h : fullName.toList.head? ≠ some '.') :
    (TypeDef.ofFullName fullName).fullName = fullName := by
  rcases exists_last_point fullName with hno | ⟨nameSpace, name, rfl, hno⟩
  · rw [TypeDef.ofFullName, splitFullName_of_notMem hno]
    rfl
  · have hspace : nameSpace ≠ "" := by
      rintro rfl
      simp at h
    rw [TypeDef.ofFullName, splitFullName_append hno, TypeDef.fullName, if_neg hspace]

theorem notMem_name_ofFullName (fullName : String) :
    '.' ∉ (TypeDef.ofFullName fullName).name.toList := by
  rcases exists_last_point fullName with hno | ⟨nameSpace, name, rfl, hno⟩
  · rw [TypeDef.ofFullName, splitFullName_of_notMem hno]
    exact hno
  · rw [TypeDef.ofFullName, splitFullName_append hno]
    exact hno

/-- The full name of a type whose name has no point is cut into its parts again. -/
theorem fullName_ofFullName_fullName {t : TypeDef} (h : '.' ∉ t.name.toList) :
    (TypeDef.ofFullName t.fullName).fullName = t.fullName := by
  by_cases hspace : t.nameSpace = ""
  · have hfull : t.fullName = t.name := by rw [TypeDef.fullName, if_pos hspace]
    rw [hfull, TypeDef.ofFullName, splitFullName_of_notMem h]
    rfl
  · have hfull : t.fullName = t.nameSpace ++ "." ++ t.name := by
      rw [TypeDef.fullName, if_neg hspace]
    rw [hfull, TypeDef.ofFullName, splitFullName_append h, TypeDef.fullName, if_neg hspace]

end FullName

namespace TypeGraph

variable {g h k : TypeGraph} {name : String} {id : TypeId} {t : TypeDef}

/-- Types were only registered, behind those that were there and without a point in their names. -/
def Grows (g h : TypeGraph) : Prop :=
  ∃ added : List (String × TypeId), h.keys = g.keys ++ added
    ∧ ∀ key ∈ added, ∃ t : TypeDef, '.' ∉ t.name.toList ∧ t.fullName = key.1

theorem Grows.refl (g : TypeGraph) : g.Grows g := ⟨[], by simp, by simp⟩

theorem Grows.trans (hg : g.Grows h) (hh : h.Grows k) : g.Grows k := by
  obtain ⟨added, hkeys, hadded⟩ := hg
  obtain ⟨added', hkeys', hadded'⟩ := hh
  refine ⟨added ++ added', by rw [hkeys', hkeys, List.append_assoc], fun key hkey => ?_⟩
  rcases List.mem_append.1 hkey with hkey | hkey
  · exact hadded key hkey
  · exact hadded' key hkey

theorem mem_keys_of_lookup? (hid : g.lookup? name = some id) : (name, id) ∈ g.keys := by
  obtain ⟨before, behind, hkeys, -⟩ := List.lookup_eq_some_iff.1 hid
  simp [hkeys]

/-- More keys behind those that there are do not change what was found before. -/
theorem lookup?_append {added : List (String × TypeId)} (hkeys : h.keys = g.keys ++ added)
    (name : String) : h.lookup? name = (g.lookup? name).or (added.lookup name) := by
  rw [lookup?, hkeys, List.lookup_append]
  rfl

theorem Grows.lookup? (hg : g.Grows h) (hid : g.lookup? name = some id) :
    h.lookup? name = some id := by
  obtain ⟨added, hkeys, -⟩ := hg
  rw [lookup?_append hkeys, hid, Option.some_or]

/-- A full name that gets a type by adding types is made up again by its parts. -/
theorem Grows.fullName_of_lookup? (hg : g.Grows h) (hnone : g.lookup? name = none)
    (hid : h.lookup? name = some id) : (TypeDef.ofFullName name).fullName = name := by
  obtain ⟨added, hkeys, hadded⟩ := hg
  rw [lookup?_append hkeys, hnone, Option.none_or] at hid
  obtain ⟨before, behind, rfl, -⟩ := List.lookup_eq_some_iff.1 hid
  obtain ⟨t, ht, rfl⟩ := hadded (name, id) (by simp)
  exact fullName_ofFullName_fullName ht

theorem add_of_lookup? (hid : g.lookup? t.fullName = some id) : g.add t = (id, g) := by
  rw [add, hid]

/-- A type whose full name is not taken is registered under it. -/
theorem keys_add (hnone : g.lookup? t.fullName = none) :
    (g.add t).2.keys = g.keys ++ [(t.fullName, (g.add t).1)] := by
  rw [add, hnone]

theorem lookup?_add (g : TypeGraph) (t : TypeDef) (name : String) :
    (g.add t).2.lookup? name =
      (g.lookup? name).or (if t.fullName = name then some (g.add t).1 else none) := by
  cases hid : g.lookup? t.fullName with
  | some id =>
    rw [add_of_lookup? hid]
    split_ifs with hname
    · rw [← hname, hid]
      rfl
    · rw [Option.or_none]
  | none =>
    rw [lookup?_append (keys_add hid), List.lookup_cons, List.lookup_nil]
    by_cases hname : t.fullName = name
    · simp [hname]
    · simp [hname, beq_eq_false_iff_ne.2 (Ne.symm hname)]

theorem grows_add (ht : '.' ∉ t.name.toList) : g.Grows (g.add t).2 := by
  cases hid : g.lookup? t.fullName with
  | some id =>
    rw [add_of_lookup? hid]
    exact .refl g
  | none =>
    refine ⟨_, keys_add hid, fun key hkey => ⟨t, ht, ?_⟩⟩
    rw [List.mem_singleton.1 hkey]

/-- The full names of the core types, in the order they are added. -/
def coreNames : List String :=
  ["System.Object", "System.ValueType", "System.Boolean", "System.Int32", "System.Int64",
    "System.Double", "System.String", "System.Exception"]

/-- Adds types one after the other. -/
def addAll (g : TypeGraph) (types : List TypeDef) : TypeGraph :=
  types.foldl (fun g t => (g.add t).2) g

theorem addAll_cons (g : TypeGraph) (t : TypeDef) (types : List TypeDef) :
    g.addAll (t :: types) = (g.add t).2.addAll types := rfl

/-- The core types behind the first two, which are their bases. -/
def coreRest (object valueType : TypeId) : List TypeDef :=
  (["Boolean", "Int32", "Int64", "Double"].map fun name =>
    { nameSpace := "System", name, base := some valueType, isValueType := true }) ++
  ["String", "Exception"].map fun name => { nameSpace := "System", name, base := some object }

theorem addCore_eq (g : TypeGraph) :
    g.addCore.2 =
      let first := g.add { nameSpace := "System", name := "Object" }
      let second := first.2.add
        { nameSpace := "System", name := "ValueType", base := some first.1 }
      second.2.addAll (coreRest first.1 second.1) := by
  unfold addCore addAll
  -- What adding a type does is of no account, and opening it eight deep takes long.
  generalize add = add
  rfl

theorem exists_addCore (g : TypeGraph) : ∃ types : List TypeDef,
    types.map TypeDef.fullName = coreNames ∧ (∀ t ∈ types, '.' ∉ t.name.toList)
      ∧ g.addCore.2 = g.addAll types := by
  have hcore := addCore_eq g
  dsimp only at hcore
  rw [← addAll_cons, ← addAll_cons] at hcore
  refine ⟨_, ?_, ?_, hcore⟩
  · rfl
  · simp [coreRest]

theorem addAll_spec {types : List TypeDef} (htypes : ∀ t ∈ types, '.' ∉ t.name.toList) :
    g.Grows (g.addAll types)
      ∧ ∀ t ∈ types, ∃ id, (g.addAll types).lookup? t.fullName = some id := by
  induction types generalizing g with
  | nil => exact ⟨.refl g, by simp⟩
  | cons t types ih =>
    obtain ⟨hrest, hfound⟩ := ih (g := (g.add t).2) fun u hu => htypes u (List.mem_cons_of_mem t hu)
    have hstep : g.Grows (g.add t).2 := grows_add (htypes t List.mem_cons_self)
    refine ⟨hstep.trans hrest, fun u hu => ?_⟩
    rcases List.mem_cons.1 hu with rfl | hu
    · have hself : ∃ id, (g.add u).2.lookup? u.fullName = some id := by
        rw [lookup?_add, if_pos rfl]
        cases g.lookup? u.fullName with
        | some id => exact ⟨id, rfl⟩
        | none => exact ⟨_, rfl⟩
      obtain ⟨id, hid⟩ := hself
      exact ⟨id, hrest.lookup? hid⟩
    · exact hfound u hu

theorem addAll_eq_self {types : List TypeDef}
    (h : ∀ t ∈ types, ∃ id, g.lookup? t.fullName = some id) : g.addAll types = g := by
  induction types with
  | nil => rfl
  | cons t types ih =>
    obtain ⟨id, hid⟩ := h t List.mem_cons_self
    rw [addAll, List.foldl_cons, add_of_lookup? hid]
    exact ih fun u hu => h u (List.mem_cons_of_mem t hu)

/-- The core types are added once. -/
theorem addCore_of_grows (hg : g.addCore.2.Grows h) : h.addCore.2 = h := by
  obtain ⟨types, hnames, hdotless, hcore⟩ := exists_addCore g
  obtain ⟨types', hnames', -, hcore'⟩ := exists_addCore h
  rw [hcore] at hg
  rw [hcore']
  refine addAll_eq_self fun t ht => ?_
  have hname : t.fullName ∈ types.map TypeDef.fullName := by
    rw [hnames, ← hnames']
    exact List.mem_map_of_mem ht
  obtain ⟨u, hu, hname⟩ := List.mem_map.1 hname
  obtain ⟨id, hid⟩ := (addAll_spec hdotless).2 u hu
  exact ⟨id, hg.lookup? (hname ▸ hid)⟩

end TypeGraph

namespace Listing

open TypeGraph (coreNames)

variable {g h : TypeGraph} {name : String} {id : TypeId}

/-- A short name stands for the full name of a core type, and any other name for itself. -/
theorem typeAlias_eq (name : String) : typeAlias name = name ∨ typeAlias name ∈ coreNames := by
  unfold typeAlias
  split <;> simp [coreNames]

theorem typeAlias_typeAlias (name : String) : typeAlias (typeAlias name) = typeAlias name := by
  rcases typeAlias_eq name with h | h
  · rw [h, h]
  · revert h
    generalize typeAlias name = full
    simp only [coreNames, List.mem_cons, List.not_mem_nil, or_false]
    rintro (rfl | rfl | rfl | rfl | rfl | rfl | rfl | rfl) <;> rfl

theorem head?_typeAlias (hname : name.toList.head? ≠ some '.') :
    (typeAlias name).toList.head? ≠ some '.' := by
  rcases typeAlias_eq name with h | h
  · rwa [h]
  · have hcore : ∀ full ∈ coreNames, full.toList.head? ≠ some '.' := by decide
    exact hcore _ h

/-- A name was resolved: its full name leads to the type, or no type has that name and the one
without the point in front does. -/
def Found (g : TypeGraph) (name : String) (id : TypeId) : Prop :=
  g.lookup? (typeAlias name) = some id
    ∨ g.lookup? (typeAlias name) = none
      ∧ g.lookup? (TypeDef.ofFullName (typeAlias name)).fullName = some id

theorem resolveType_eq (g : TypeGraph) (name : String) :
    resolveType g name = match g.lookup? (typeAlias name) with
      | some id => (id, g)
      | none => g.add
        { TypeDef.ofFullName (typeAlias name) with base := g.lookup? "System.Object" } := rfl

theorem resolveType_typeAlias (g : TypeGraph) (name : String) :
    resolveType g (typeAlias name) = resolveType g name := by
  rw [resolveType_eq, typeAlias_typeAlias, ← resolveType_eq]

theorem Found.mono (hg : g.Grows h) (hfound : Found g name id) : Found h name id := by
  rcases hfound with hid | ⟨hnone, hid⟩
  · exact .inl (hg.lookup? hid)
  · cases hname : h.lookup? (typeAlias name) with
    | none => exact .inr ⟨hname, hg.lookup? hid⟩
    | some id' =>
      rw [hg.fullName_of_lookup? hnone hname, hnone] at hid
      cases hid

/-- Only a point in front keeps a name from leading to its type. -/
theorem Found.lookup? (hfound : Found g name id) (hname : name.toList.head? ≠ some '.') :
    g.lookup? (typeAlias name) = some id := by
  rcases hfound with hid | ⟨hnone, hid⟩
  · exact hid
  · rw [fullName_ofFullName (head?_typeAlias hname), hnone] at hid
    cases hid

theorem resolveType_of_found (hfound : Found g name id) : resolveType g name = (id, g) := by
  rw [resolveType_eq]
  rcases hfound with hid | ⟨hnone, hid⟩
  · rw [hid]
  · rw [hnone]
    exact TypeGraph.add_of_lookup? hid

theorem resolveType_spec (g : TypeGraph) (name : String) :
    g.Grows (resolveType g name).2
      ∧ Found (resolveType g name).2 name (resolveType g name).1 := by
  rw [resolveType_eq]
  cases hid : g.lookup? (typeAlias name) with
  | some id => exact ⟨.refl g, .inl hid⟩
  | none =>
    dsimp only
    generalize ht : ({ TypeDef.ofFullName (typeAlias name) with
      base := g.lookup? "System.Object" } : TypeDef) = t
    have hfull : (TypeDef.ofFullName (typeAlias name)).fullName = t.fullName := by
      rw [← ht]
      rfl
    refine ⟨TypeGraph.grows_add ?_, ?_⟩
    · rw [← ht]
      exact notMem_name_ofFullName (typeAlias name)
    · unfold Found
      rw [hfull, TypeGraph.lookup?_add, TypeGraph.lookup?_add, hid, Option.none_or, if_pos rfl]
      split_ifs with hname
      · exact .inl rfl
      · refine .inr ⟨rfl, ?_⟩
        cases hid' : g.lookup? t.fullName with
        | some id => rw [TypeGraph.add_of_lookup? hid', Option.some_or]
        | none => rfl

theorem resolveTypes_spec : ∀ (g : TypeGraph) (names : List String),
    g.Grows (resolveTypes g names).2
      ∧ List.Forall₂ (Found (resolveTypes g names).2) names (resolveTypes g names).1
  | g, [] => ⟨.refl g, .nil⟩
  | g, name :: names => by
    obtain ⟨hstep, hfound⟩ := resolveType_spec g name
    obtain ⟨hrest, hrests⟩ := resolveTypes_spec (resolveType g name).2 names
    exact ⟨hstep.trans hrest, .cons (hfound.mono hrest) hrests⟩

theorem resolveTypes_of_found {names : List String} {ids : List TypeId}
    (hfound : List.Forall₂ (Found g) names ids) : resolveTypes g names = (ids, g) := by
  induction hfound with
  | nil => rfl
  | cons hname _ ih => simp only [resolveTypes, resolveType_of_found hname, ih]

end Listing

end CilMethod
