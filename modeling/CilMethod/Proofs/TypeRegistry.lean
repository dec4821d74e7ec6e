import CilMethod.Proofs.TypeNames
import Mathlib.Logic.Relation

/-!
# Types are kept for good

Whatever is done to a graph registers types one by one, each under a full name that is not taken, or
lists a method with a type (`Change`, `changes_run`). Reading a source does only the first, whether
it succeeds or not (`Additions`). No change takes a type or a key away or touches more of a type
than its methods (`Keeps`), and after each of them every key is the full name of the type that it
leads to, and every type is found under its full name (`Indexed`). So a full name, the type that has
it, and the pair of its namespace and its name stand for each other, although a full name can be cut
in more than one way. A type has the methods that it was added with, and behind them those that were
added for it since (`methods_run`).
-/

namespace CilMethod

/-- A type without its methods, the only part of it that changes. -/
def TypeDef.bare (t : TypeDef) : TypeDef := { t with methods := #[] }

theorem TypeDef.fullName_bare (t : TypeDef) : t.bare.fullName = t.fullName := rfl

theorem TypeDef.fullName_of_sameName {t u : TypeDef} (h : t.sameName u = true) :
    t.fullName = u.fullName := by
  simp only [sameName, Bool.and_eq_true, beq_iff_eq] at h
  rw [fullName, fullName, h.1, h.2]

namespace TypeGraph

/-- Was this number given out? -/
def Has (g : TypeGraph) (t : TypeId) : Prop := t.index < g.types.size

instance (g : TypeGraph) (t : TypeId) : Decidable (g.Has t) :=
  inferInstanceAs (Decidable (t.index < g.types.size))

/-- Every key is the full name of the type that it leads to, and every type is found under its full
name. -/
structure Indexed (g : TypeGraph) : Prop where
  key : ∀ key ∈ g.keys, g.Has key.2 ∧ g.fullName key.2 = key.1
  found : ∀ {t : TypeId}, g.Has t → g.lookup? (g.fullName t) = some t

/-- What there is stays, and of a type all but its methods. -/
structure Keeps (g h : TypeGraph) : Prop where
  has : ∀ {t : TypeId}, g.Has t → h.Has t
  bare : ∀ {t : TypeId}, g.Has t → (h.typeDef t).bare = (g.typeDef t).bare
  lookup? : ∀ {name : String} {t : TypeId}, g.lookup? name = some t → h.lookup? name = some t
  method : ∀ {n : Nat} {m : MethodDef}, g.methods[n]? = some m → h.methods[n]? = some m

/-- The type that is reached from a type by going to the base a number of times. -/
def ancestor? (g : TypeGraph) : Nat → TypeId → Option TypeId
  | 0, t => some t
  | n + 1, t => (g.typeDef t).base.bind (g.ancestor? n)

/-- Bases are older than what is built on them. -/
def BasesFirst (g : TypeGraph) : Prop :=
  ∀ t b : TypeId, (g.typeDef t).base = some b → b.index < t.index

/-- A type on a base that the graph has, or on none. -/
def BuiltOn (g : TypeGraph) (d : TypeDef) : Prop := ∀ b, d.base = some b → g.Has b

/-- A method that was added stands once with one type, and with no other. -/
structure ListedOnce (g : TypeGraph) (m : MethodId) (t : TypeId) : Prop where
  old : m.index < g.methods.size
  has : g.Has t
  count_eq_one : (g.typeDef t).methods.toList.count m = 1
  notMem : ∀ u : TypeId, u ≠ t → m ∉ (g.typeDef u).methods

/-- A type that lists a method is added only if it is there already. -/
def Omits (m : MethodId) (g : TypeGraph) (d : TypeDef) : Prop :=
  g.lookup? d.fullName = none → m ∉ d.methods

/-- One type or one method more, the type being one that `p` allows. -/
inductive Change (p : TypeGraph → TypeDef → Prop) : TypeGraph → TypeGraph → Prop where
  | add {g : TypeGraph} {d : TypeDef} (hp : p g d) : Change p g (g.add d).2
  | addMethod (g : TypeGraph) (d : MethodDef) : Change p g (g.addMethod d).2

/-- What the graph itself adds: a type without methods, on a base that it has. -/
structure Plain (g : TypeGraph) (d : TypeDef) : Prop where
  base : BuiltOn g d
  methods : d.methods = #[]

/-- Any number of types more that the graph itself adds. -/
abbrev Additions : TypeGraph → TypeGraph → Prop :=
  Relation.ReflTransGen fun g h => ∃ d, Plain g d ∧ h = (g.add d).2

variable {g h k : TypeGraph} {t u b : TypeId} {d : TypeDef} {m : MethodId} {name : String}
  {p : TypeGraph → TypeDef → Prop}

section Lookup

theorem typeDef_eq (ht : g.Has t) : g.types[t.index]? = some (g.typeDef t) := by
  rw [typeDef, Array.getD_eq_getD_getElem?, Array.getElem?_eq_getElem ht]
  rfl

theorem typeDef_of_not_has (ht : ¬ g.Has t) : g.typeDef t = {} := by
  rw [typeDef, Array.getD_eq_getD_getElem?, Array.getElem?_eq_none (Nat.le_of_not_lt ht)]
  rfl

theorem has_of_base (h : (g.typeDef t).base = some b) : g.Has t := by
  by_contra ht
  rw [typeDef_of_not_has ht] at h
  cases h

theorem has_of_mem (h : m ∈ (g.typeDef t).methods) : g.Has t := by
  by_contra ht
  rw [typeDef_of_not_has ht] at h
  simp at h

theorem Indexed.of_lookup? (hg : g.Indexed) (ht : g.lookup? name = some t) :
    g.Has t ∧ g.fullName t = name := hg.key _ (mem_keys_of_lookup? ht)

/-- No two types have the same full name. -/
theorem Indexed.eq_of_fullName (hg : g.Indexed) (ht : g.Has t) (hu : g.Has u)
    (hname : g.fullName t = g.fullName u) : t = u := by
  have hfound := hg.found ht
  rw [hname, hg.found hu] at hfound
  exact (Option.some.inj hfound).symm

theorem lookup?_add_self (g : TypeGraph) (d : TypeDef) :
    (g.add d).2.lookup? d.fullName = some (g.add d).1 := by
  rw [lookup?_add, if_pos rfl]
  cases hid : g.lookup? d.fullName with
  | some t => rw [add_of_lookup? hid]; rfl
  | none => rfl

end Lookup

section Add

section New

variable (hnone : g.lookup? d.fullName = none)
include hnone

theorem fst_add_of_none : (g.add d).1 = ⟨g.types.size⟩ := by rw [add, hnone]

theorem has_add_of_none : (g.add d).2.Has t ↔ g.Has t ∨ t.index = g.types.size := by
  rw [add, hnone]
  simp only [Has, Array.size_push]
  omega

theorem typeDef_add_of_none (t : TypeId) :
    (g.add d).2.typeDef t = if t.index = g.types.size then d else g.typeDef t := by
  rw [add, hnone]
  dsimp only
  rw [typeDef, typeDef, Array.getD_eq_getD_getElem?, Array.getD_eq_getD_getElem?,
    Array.getElem?_push]
  split_ifs <;> rfl

end New

/-- Adding a type leaves the other types and all methods as they are. -/
theorem add_frame (g : TypeGraph) (d : TypeDef) :
    (g.add d).2.methods = g.methods
      ∧ ∀ {t : TypeId}, g.Has t → (g.add d).2.Has t ∧ (g.add d).2.typeDef t = g.typeDef t := by
  cases hid : g.lookup? d.fullName with
  | some t =>
    rw [add_of_lookup? hid]
    exact ⟨rfl, fun ht => ⟨ht, rfl⟩⟩
  | none =>
    refine ⟨by rw [add, hid], fun ht => ⟨(has_add_of_none hid).2 (.inl ht), ?_⟩⟩
    rw [typeDef_add_of_none hid, if_neg (Nat.ne_of_lt ht)]

theorem keeps_add (g : TypeGraph) (d : TypeDef) : g.Keeps (g.add d).2 where
  has ht := ((add_frame g d).2 ht).1
  bare ht := by rw [((add_frame g d).2 ht).2]
  lookup? ht := by rw [lookup?_add, ht, Option.some_or]
  method hn := by rwa [(add_frame g d).1]

theorem Indexed.add (hg : g.Indexed) (d : TypeDef) : (g.add d).2.Indexed := by
  cases hid : g.lookup? d.fullName with
  | some t => rwa [add_of_lookup? hid]
  | none =>
    obtain ⟨t, ht⟩ : ∃ t, (g.add d).1 = t := ⟨_, rfl⟩
    have hindex : t.index = g.types.size := by rw [← ht, fst_add_of_none hid]
    have hnew : (g.add d).2.Has t ∧ (g.add d).2.fullName t = d.fullName := by
      refine ⟨(has_add_of_none hid).2 (.inr hindex), ?_⟩
      rw [fullName, typeDef_add_of_none hid, if_pos hindex]
    have hold : ∀ {u : TypeId}, g.Has u → (g.add d).2.fullName u = g.fullName u := fun hu => by
      rw [fullName, ((add_frame g d).2 hu).2, fullName]
    constructor
    · intro key hkey
      rw [keys_add hid, List.mem_append, List.mem_singleton, ht] at hkey
      rcases hkey with hkey | rfl
      · obtain ⟨hhas, hname⟩ := hg.key key hkey
        exact ⟨((add_frame g d).2 hhas).1, (hold hhas).trans hname⟩
      · exact hnew
    · intro u hu
      rcases (has_add_of_none hid).1 hu with hu | hu
      · rw [hold hu, lookup?_add, hg.found hu, Option.some_or]
      · obtain rfl : t = u := TypeId.ext (hindex.trans hu.symm)
        rw [hnew.2, lookup?_add, hid, Option.none_or, if_pos rfl, ht]

theorem notMem_add (hm : m ∉ (g.typeDef t).methods) (hd : Omits m g d) :
    m ∉ ((g.add d).2.typeDef t).methods := by
  cases hid : g.lookup? d.fullName with
  | some u => rwa [add_of_lookup? hid]
  | none =>
    rw [typeDef_add_of_none hid]
    split_ifs
    · exact hd hid
    · exact hm

theorem BasesFirst.add (hg : g.BasesFirst) (hd : BuiltOn g d) : (g.add d).2.BasesFirst := by
  cases hid : g.lookup? d.fullName with
  | some t => rwa [add_of_lookup? hid]
  | none =>
    intro t b hb
    rw [typeDef_add_of_none hid] at hb
    split_ifs at hb with ht
    · rw [ht]
      exact hd b hb
    · exact hg t b hb

/-- A type that does not list a method can be added. -/
theorem ListedOnce.add (hg : g.ListedOnce m t) (hd : Omits m g d) :
    (g.add d).2.ListedOnce m t := by
  obtain ⟨hmethods, hframe⟩ := add_frame g d
  refine ⟨hmethods ▸ hg.old, (hframe hg.has).1, (hframe hg.has).2 ▸ hg.count_eq_one, ?_⟩
  exact fun u hu => notMem_add (hg.notMem u hu) hd

end Add

section AddMethod

variable {e : MethodDef}

theorem has_addMethod (g : TypeGraph) (e : MethodDef) (t : TypeId) :
    (g.addMethod e).2.Has t ↔ g.Has t := by
  unfold addMethod Has
  cases e.declaringType with
  | none => rfl
  | some v => simp

theorem typeDef_addMethod (g : TypeGraph) (e : MethodDef) (t : TypeId) :
    (g.addMethod e).2.typeDef t =
      if e.declaringType = some t ∧ g.Has t then
        { g.typeDef t with methods := (g.typeDef t).methods.push ⟨g.methods.size⟩ }
      else g.typeDef t := by
  by_cases ht : g.Has t
  · have hnew := typeDef_eq ((has_addMethod g e t).2 ht)
    have hold := typeDef_eq ht
    unfold addMethod at hnew ⊢
    cases hdeclaring : e.declaringType with
    | none => simp [typeDef]
    | some v =>
      simp only [hdeclaring] at hnew
      rw [Array.getElem?_modify, hold] at hnew
      by_cases hv : v.index = t.index
      · obtain rfl : v = t := TypeId.ext hv
        rw [if_pos rfl] at hnew
        rw [if_pos ⟨rfl, ht⟩]
        exact (Option.some.inj hnew).symm
      · rw [if_neg hv] at hnew
        rw [if_neg fun h => hv (by rw [Option.some.inj h.1])]
        exact (Option.some.inj hnew).symm
  · rw [if_neg fun h => ht h.2, typeDef_of_not_has ht,
      typeDef_of_not_has ((has_addMethod g e t).not.2 ht)]

theorem bare_addMethod (g : TypeGraph) (e : MethodDef) (t : TypeId) :
    ((g.addMethod e).2.typeDef t).bare = (g.typeDef t).bare := by
  rw [typeDef_addMethod]
  split_ifs <;> rfl

theorem methods_addMethod (g : TypeGraph) (e : MethodDef) :
    (g.addMethod e).2.methods = g.methods.push e := rfl

theorem mem_addMethod : m ∈ ((g.addMethod e).2.typeDef t).methods ↔
    m ∈ (g.typeDef t).methods
      ∨ (e.declaringType = some t ∧ g.Has t) ∧ m = (g.addMethod e).1 := by
  rw [typeDef_addMethod]
  split_ifs with ht
  · rw [Array.mem_push]
    simp only [ht, and_self, true_and]
    rfl
  · simp [ht]

theorem lookup?_addMethod (g : TypeGraph) (e : MethodDef) (name : String) :
    (g.addMethod e).2.lookup? name = g.lookup? name := rfl

theorem fullName_addMethod (g : TypeGraph) (e : MethodDef) (t : TypeId) :
    (g.addMethod e).2.fullName t = g.fullName t := by
  rw [fullName, ← TypeDef.fullName_bare, bare_addMethod, TypeDef.fullName_bare, fullName]

theorem keeps_addMethod (g : TypeGraph) (e : MethodDef) : g.Keeps (g.addMethod e).2 where
  has ht := (has_addMethod g e _).2 ht
  bare _ := bare_addMethod g e _
  lookup? ht := ht
  method hn := by
    rw [methods_addMethod, Array.getElem?_push, if_neg, hn]
    exact Nat.ne_of_lt (Array.getElem?_eq_some_iff.1 hn).1

theorem Indexed.addMethod (hg : g.Indexed) (e : MethodDef) : (g.addMethod e).2.Indexed := by
  constructor
  · intro key hkey
    rw [has_addMethod, fullName_addMethod]
    exact hg.key key hkey
  · intro t ht
    rw [has_addMethod] at ht
    rw [fullName_addMethod, lookup?_addMethod]
    exact hg.found ht

theorem BasesFirst.addMethod (hg : g.BasesFirst) (e : MethodDef) :
    (g.addMethod e).2.BasesFirst := by
  intro t b hb
  have hbase : ((g.addMethod e).2.typeDef t).bare.base = some b := hb
  rw [bare_addMethod] at hbase
  exact hg t b hbase

/-- A method comes last where it is declared. -/
theorem toList_methods_addMethod (e : MethodDef) (ht : g.Has t) :
    ((g.addMethod e).2.typeDef t).methods.toList = (g.typeDef t).methods.toList ++
      if e.declaringType = some t then [⟨g.methods.size⟩] else [] := by
  rw [typeDef_addMethod]
  by_cases hdeclaring : e.declaringType = some t
  · rw [if_pos ⟨hdeclaring, ht⟩, if_pos hdeclaring, Array.toList_push]
  · rw [if_neg fun h => hdeclaring h.1, if_neg hdeclaring, List.append_nil]

/-- A method that is new is listed once from then on. -/
theorem listedOnce_addMethod {e : MethodDef} (hdeclaring : e.declaringType = some t)
    (ht : g.Has t) (hnew : ∀ u, (g.addMethod e).1 ∉ (g.typeDef u).methods) :
    (g.addMethod e).2.ListedOnce (g.addMethod e).1 t := by
  refine ⟨?_, (has_addMethod g e t).2 ht, ?_, fun u hu hm => ?_⟩
  · rw [methods_addMethod, Array.size_push]
    exact Nat.lt_succ_self _
  · rw [toList_methods_addMethod e ht, if_pos hdeclaring, List.count_append,
      List.count_eq_zero_of_not_mem fun h => hnew t (Array.mem_toList_iff.1 h)]
    simp [TypeGraph.addMethod]
  · rcases mem_addMethod.1 hm with hm | ⟨⟨hother, -⟩, -⟩
    · exact hnew u hm
    · exact hu (Option.some.inj (hother.symm.trans hdeclaring))

/-- Other methods change nothing about one that is there. -/
theorem ListedOnce.addMethod (hg : g.ListedOnce m t) (e : MethodDef) :
    (g.addMethod e).2.ListedOnce m t := by
  have hne : m ≠ (g.addMethod e).1 := fun h => Nat.lt_irrefl _ (h ▸ hg.old)
  refine ⟨?_, (has_addMethod g e t).2 hg.has, ?_, fun u hu hm => ?_⟩
  · rw [methods_addMethod, Array.size_push]
    exact Nat.lt_succ_of_lt hg.old
  · have hnone :
        List.count m (if e.declaringType = some t then [(g.addMethod e).1] else []) = 0 := by
      split_ifs <;> simp [Ne.symm hne]
    rw [toList_methods_addMethod e hg.has, List.count_append, hg.count_eq_one]
    exact congrArg (1 + ·) hnone
  · rcases mem_addMethod.1 hm with hm | ⟨-, hm⟩
    · exact hg.notMem u hu hm
    · exact hne hm

end AddMethod

section Changes

theorem Keeps.refl (g : TypeGraph) : g.Keeps g := ⟨id, fun _ => rfl, id, id⟩

theorem Keeps.trans (hg : g.Keeps h) (hh : h.Keeps k) : g.Keeps k where
  has ht := hh.has (hg.has ht)
  bare ht := (hh.bare (hg.has ht)).trans (hg.bare ht)
  lookup? ht := hh.lookup? (hg.lookup? ht)
  method hn := hh.method (hg.method hn)

theorem Change.keeps (hc : Change p g h) : g.Keeps h := by
  cases hc with
  | add hp => exact keeps_add g _
  | addMethod e => exact keeps_addMethod g e

theorem Change.indexed (hc : Change p g h) (hg : g.Indexed) : h.Indexed := by
  cases hc with
  | add hp => exact hg.add _
  | addMethod e => exact hg.addMethod e

/-- Any number of changes. -/
abbrev Changes (p : TypeGraph → TypeDef → Prop) : TypeGraph → TypeGraph → Prop :=
  Relation.ReflTransGen (Change p)

theorem Changes.keeps (hc : Changes p g h) : g.Keeps h := by
  induction hc with
  | refl => exact .refl g
  | tail _ hc ih => exact ih.trans hc.keeps

theorem Changes.indexed (hc : Changes p g h) (hg : g.Indexed) : h.Indexed := by
  induction hc with
  | refl => exact hg
  | tail _ hc ih => exact hc.indexed ih

theorem Changes.basesFirst (hc : Changes BuiltOn g h) (hg : g.BasesFirst) : h.BasesFirst := by
  induction hc with
  | refl => exact hg
  | tail _ hc ih =>
    cases hc with
    | add hd => exact ih.add hd
    | addMethod e => exact ih.addMethod e

theorem Changes.listedOnce (hc : Changes (Omits m) g h) (hg : g.ListedOnce m t) :
    h.ListedOnce m t := by
  induction hc with
  | refl => exact hg
  | tail _ hc ih =>
    cases hc with
    | add hd => exact ih.add hd
    | addMethod e => exact ih.addMethod e

theorem Change.size_methods_le (hc : Change p g h) : g.methods.size ≤ h.methods.size := by
  cases hc with
  | add hp => rw [(add_frame g _).1]
  | addMethod e =>
    rw [methods_addMethod, Array.size_push]
    exact Nat.le_succ _

/-- A method that is not there yet is not listed. -/
theorem Changes.notMem (hc : Changes (Omits m) g h) (hg : ∀ t, m ∉ (g.typeDef t).methods)
    (hm : h.methods.size ≤ m.index) (t : TypeId) : m ∉ (h.typeDef t).methods := by
  induction hc generalizing t with
  | refl => exact hg t
  | tail _ hc ih =>
    have hm' := ih (Nat.le_trans hc.size_methods_le hm)
    cases hc with
    | add hd => exact notMem_add (hm' t) hd
    | addMethod e =>
      intro hmem
      rcases mem_addMethod.1 hmem with hmem | ⟨-, heq⟩
      · exact hm' t hmem
      · rw [methods_addMethod, Array.size_push, heq] at hm
        exact Nat.lt_irrefl _ hm

end Changes

/-! ## What adds types -/

section Plain

theorem Indexed.has_add (hg : g.Indexed) (d : TypeDef) : (g.add d).2.Has (g.add d).1 :=
  ((hg.add d).of_lookup? (lookup?_add_self g d)).1

theorem Plain.mono (hg : g.Keeps h) (hd : Plain g d) : Plain h d :=
  ⟨fun b hb => hg.has (hd.base b hb), hd.methods⟩

theorem Plain.of_base (ht : g.Has t) (hbase : d.base = some t) (hmethods : d.methods = #[]) :
    Plain g d := by
  refine ⟨fun b hb => ?_, hmethods⟩
  obtain rfl : t = b := Option.some.inj (hbase.symm.trans hb)
  exact ht

theorem Additions.changes (ha : Additions g h) (hp : ∀ g d, Plain g d → p g d) : Changes p g h :=
  Relation.ReflTransGen.mono (fun _ _ ⟨d, hd, heq⟩ => heq ▸ .add (hp _ d hd)) _ _ ha

theorem Additions.indexed (ha : Additions g h) (hg : g.Indexed) : h.Indexed :=
  (ha.changes (p := fun _ _ => True) fun _ _ _ => trivial).indexed hg

theorem Additions.frame (ha : Additions g h) : h.methods = g.methods
    ∧ ∀ {t : TypeId}, g.Has t → h.Has t ∧ h.typeDef t = g.typeDef t := by
  induction ha with
  | refl => exact ⟨rfl, fun ht => ⟨ht, rfl⟩⟩
  | @tail k _ _ hd ih =>
    obtain ⟨d, -, rfl⟩ := hd
    obtain ⟨hmethods, hframe⟩ := add_frame k d
    refine ⟨hmethods.trans ih.1, fun ht => ?_⟩
    obtain ⟨hhas, htype⟩ := ih.2 ht
    exact ⟨(hframe hhas).1, (hframe hhas).2.trans htype⟩

theorem additions_add (hd : Plain g d) : Additions g (g.add d).2 := .single ⟨d, hd, rfl⟩

theorem additions_addAll : ∀ (types : List TypeDef) (g : TypeGraph), (∀ d ∈ types, Plain g d) →
    Additions g (g.addAll types)
  | [], _, _ => .refl
  | d :: types, g, h => by
    have hrest : ∀ e ∈ types, Plain (g.add d).2 e := fun e he =>
      (h e (List.mem_cons_of_mem d he)).mono (keeps_add g d)
    exact (additions_add (h d List.mem_cons_self)).trans (additions_addAll types _ hrest)

theorem additions_addCore (hg : g.Indexed) : Additions g g.addCore.2 := by
  rw [addCore_eq]
  dsimp only
  generalize hobject : g.add { nameSpace := "System", name := "Object" } = first
  generalize hvalue : first.2.add
    { nameSpace := "System", name := "ValueType", base := some first.1 } = second
  have hindexed : first.2.Indexed := hobject ▸ hg.add _
  have hfirst : first.2.Has first.1 := hobject ▸ hg.has_add _
  have hsecond : second.2.Has second.1 := hvalue ▸ hindexed.has_add _
  have hkeeps : first.2.Keeps second.2 := hvalue ▸ keeps_add first.2 _
  have hone : Additions g first.2 := by
    rw [← hobject]
    exact additions_add ⟨nofun, rfl⟩
  have htwo : Additions first.2 second.2 := by
    rw [← hvalue]
    exact additions_add (.of_base hfirst rfl rfl)
  refine (hone.trans htwo).trans (additions_addAll _ _ fun d hd => ?_)
  rcases List.mem_append.1 hd with hd | hd
  · obtain ⟨name, -, rfl⟩ := List.mem_map.1 hd
    exact .of_base hsecond rfl rfl
  · obtain ⟨name, -, rfl⟩ := List.mem_map.1 hd
    exact .of_base (hkeeps.has hfirst) rfl rfl

theorem additions_resolveType (hg : g.Indexed) (name : String) :
    Additions g (Listing.resolveType g name).2 := by
  rw [Listing.resolveType_eq]
  cases g.lookup? (Listing.typeAlias name) with
  | some t => exact .refl
  | none => exact additions_add ⟨fun _ hb => (hg.of_lookup? hb).1, rfl⟩

theorem additions_resolveTypes : ∀ (names : List String) {g : TypeGraph}, g.Indexed →
    Additions g (Listing.resolveTypes g names).2
  | [], _, _ => .refl
  | name :: names, _, hg => by
    have hfirst := additions_resolveType hg name
    exact hfirst.trans (additions_resolveTypes names (hfirst.indexed hg))

theorem additions_readKind (labels : Listing.Labels) (hg : g.Indexed) (text : Listing.KindText) :
    Additions g (Listing.readKind labels g text).2 := by
  cases text with
  | catchType name => exact additions_resolveType hg name
  | _ => exact .refl

theorem additions_readHandlers (labels : Listing.Labels) :
    ∀ (tries : List Listing.TryLine) {g : TypeGraph}, g.Indexed →
    Additions g (Listing.readHandlers labels g tries).2
  | [], _, _ => .refl
  | parts :: rest, _, hg => by
    have hkind := additions_readKind labels hg parts.kind
    rw [Listing.readHandlers]
    dsimp only
    split
    · exact hkind
    · exact hkind.trans (additions_readHandlers labels rest (hkind.indexed hg))

/-- A source adds the types that it names, up to its first fault. -/
theorem additions_read (source : String) (method : MethodDef) (hg : g.Indexed) :
    Additions g (Listing.read source method g).2 := by
  unfold Listing.read
  split
  · exact .refl
  · rename_i lines _
    have hcore := additions_addCore hg
    have htypes : Additions g (Listing.resolveTypes g.addCore.2 (Listing.localTypes lines)).2 :=
      hcore.trans (additions_resolveTypes _ (hcore.indexed hg))
    unfold Listing.readLines
    dsimp only
    split
    · exact htypes
    · exact htypes.trans (additions_readHandlers _ _ (htypes.indexed hg))

end Plain

/-! ## Runs -/

/-- What is done to a graph. -/
inductive Step where
  | add (type : TypeDef)
  | addCore
  | addMethod (method : MethodDef)
  /-- reads a source, which may have faults -/
  | read (source : String) (method : MethodDef)

/-- The graph that a step leaves. -/
def step (g : TypeGraph) : Step → TypeGraph
  | .add d => (g.add d).2
  | .addCore => g.addCore.2
  | .addMethod d => (g.addMethod d).2
  | .read source method => (Listing.read source method g).2

/-- The graph that steps leave. -/
def run (g : TypeGraph) (steps : List Step) : TypeGraph := steps.foldl step g

/-- The graphs that steps make of the empty one. -/
def Reachable (g : TypeGraph) : Prop := ∃ steps, g = empty.run steps

section Run

variable {steps : List Step}

theorem run_append (g : TypeGraph) (before behind : List Step) :
    g.run (before ++ behind) = (g.run before).run behind := List.foldl_append

theorem changes_step (hg : g.Indexed) (hp : ∀ g d, Plain g d → p g d) (s : Step)
    (hs : ∀ d, s = .add d → p g d) : Changes p g (g.step s) := by
  cases s with
  | add d => exact .single (.add (hs d rfl))
  | addCore => exact (additions_addCore hg).changes hp
  | addMethod d => exact .single (.addMethod g d)
  | read source method => exact (additions_read source method hg).changes hp

/-- A run is made of changes, each with a type that is allowed when it is added. -/
theorem changes_run (hp : ∀ g d, Plain g d → p g d) :
    ∀ (steps : List Step) {g : TypeGraph}, g.Indexed →
    (∀ before d behind, steps = before ++ .add d :: behind → p (g.run before) d) →
    Changes p g (g.run steps)
  | [], _, _, _ => .refl
  | s :: steps, g, hg, h => by
    have hstep : Changes p g (g.step s) :=
      changes_step hg hp s fun d hd => h [] d steps (by rw [hd]; rfl)
    refine hstep.trans (changes_run hp steps (hstep.indexed hg) fun before d behind heq => ?_)
    exact h (s :: before) d behind (by rw [heq]; rfl)

theorem not_has_empty (t : TypeId) : ¬ empty.Has t := Nat.not_lt_zero _

theorem indexed_empty : empty.Indexed :=
  ⟨fun _ hkey => absurd hkey List.not_mem_nil, fun ht => absurd ht (not_has_empty _)⟩

theorem Indexed.changes_run (hg : g.Indexed) (steps : List Step) :
    Changes (fun _ _ => True) g (g.run steps) :=
  TypeGraph.changes_run (fun _ _ _ => trivial) steps hg fun _ _ _ _ => trivial

/-- No step breaks the keys. -/
theorem Indexed.run (hg : g.Indexed) (steps : List Step) : (g.run steps).Indexed :=
  (hg.changes_run steps).indexed hg

theorem Indexed.keeps_run (hg : g.Indexed) (steps : List Step) : g.Keeps (g.run steps) :=
  (hg.changes_run steps).keeps

theorem Reachable.indexed (hg : g.Reachable) : g.Indexed := by
  obtain ⟨steps, rfl⟩ := hg
  exact indexed_empty.run steps

theorem Reachable.read (hg : g.Reachable) (source : String) (method : MethodDef) :
    (Listing.read source method g).2.Reachable := by
  obtain ⟨steps, rfl⟩ := hg
  refine ⟨steps ++ [.read source method], ?_⟩
  rw [run_append]
  rfl

theorem basesFirst_run (hbases : ∀ before d behind, steps = before ++ .add d :: behind →
    ∀ b, d.base = some b → (empty.run before).Has b) : (empty.run steps).BasesFirst := by
  have hempty : empty.BasesFirst := fun t _ hb => absurd (has_of_base hb) (not_has_empty t)
  have hchanges : Changes BuiltOn empty (empty.run steps) :=
    changes_run (fun _ _ hd => hd.base) steps indexed_empty hbases
  exact hchanges.basesFirst hempty

/-- A chain of bases goes down, so it ends. -/
theorem BasesFirst.ancestor?_eq_none (hg : g.BasesFirst) :
    ∀ (n : Nat) (t : TypeId), t.index < n → g.ancestor? n t = none
  | 0, _, ht => absurd ht (Nat.not_lt_zero _)
  | n + 1, t, ht => by
    rw [ancestor?]
    cases hbase : (g.typeDef t).base with
    | none => rfl
    | some b => exact hg.ancestor?_eq_none n b (by have := hg t b hbase; omega)

/-- The methods that steps add for a type, in order; `next` is the number of the next method. -/
def addedTo (t : TypeId) : (next : Nat) → List Step → List MethodId
  | _, [] => []
  | next, .addMethod e :: steps =>
    (if e.declaringType = some t then [⟨next⟩] else []) ++ addedTo t (next + 1) steps
  | next, .add _ :: steps | next, .addCore :: steps | next, .read _ _ :: steps =>
    addedTo t next steps

/-- Only a step that adds a method changes the methods of a type. -/
theorem Indexed.step_frame (hg : g.Indexed) {s : Step} (hs : ∀ e, s ≠ .addMethod e) :
    (g.step s).methods = g.methods ∧ ∀ {t : TypeId}, g.Has t →
      (g.step s).Has t ∧ (g.step s).typeDef t = g.typeDef t := by
  cases s with
  | add d => exact add_frame g d
  | addCore =>
    rw [step]
    exact (additions_addCore hg).frame
  | addMethod e => exact absurd rfl (hs e)
  | read source method =>
    rw [step]
    exact (additions_read source method hg).frame

/-- A type has the methods that it had, and behind them those that were added for it since. -/
theorem methods_run : ∀ (steps : List Step) {g : TypeGraph}, g.Indexed → g.Has t →
    ((g.run steps).typeDef t).methods.toList =
      (g.typeDef t).methods.toList ++ addedTo t g.methods.size steps
  | [], _, _, _ => (List.append_nil _).symm
  | s :: steps, g, hg, ht => by
    have hrest : ((g.run (s :: steps)).typeDef t).methods.toList =
        ((g.step s).typeDef t).methods.toList ++ addedTo t (g.step s).methods.size steps :=
      methods_run steps (hg.run [s]) ((hg.keeps_run [s]).has ht)
    have hframe := hg.step_frame (s := s)
    cases s with
    | addMethod e =>
      rw [hrest, addedTo, step, methods_addMethod, Array.size_push, toList_methods_addMethod e ht,
        List.append_assoc]
    | _ =>
      obtain ⟨hmethods, hsame⟩ := hframe fun e h => by cases h
      rw [hrest, hmethods, (hsame ht).2]
      rfl

/-- A method that was added is listed once from then on, unless a type is added that lists it. -/
theorem listedOnce_run {before behind : List Step} {e : MethodDef}
    (heq : steps = before ++ .addMethod e :: behind) (hdeclaring : e.declaringType = some t)
    (ht : (empty.run before).Has t)
    (hd : ∀ before' d behind', steps = before' ++ .add d :: behind' →
      (empty.run before').lookup? d.fullName = none →
      ((empty.run before).addMethod e).1 ∉ d.methods) :
    (empty.run steps).ListedOnce ((empty.run before).addMethod e).1 t := by
  obtain ⟨m, hm⟩ : ∃ m, ((empty.run before).addMethod e).1 = m := ⟨_, rfl⟩
  have hplain : ∀ g d, Plain g d → Omits m g d := by
    intro g d hplain _
    simp [hplain.methods]
  have hbefore : Changes (Omits m) empty (empty.run before) :=
    changes_run hplain before indexed_empty fun first d last hsplit =>
      hm ▸ hd first d (last ++ .addMethod e :: behind) (by simp [heq, hsplit])
  have hbehind : Changes (Omits m) ((empty.run before).addMethod e).2
      (((empty.run before).addMethod e).2.run behind) :=
    changes_run hplain behind ((indexed_empty.run before).addMethod e) fun first d last hsplit => by
      have hwhole := hd (before ++ .addMethod e :: first) d last (by simp [heq, hsplit])
      rw [run_append, hm] at hwhole
      exact hwhole
  have hnew : ∀ u, m ∉ ((empty.run before).typeDef u).methods :=
    hbefore.notMem (fun t hmem => absurd (has_of_mem hmem) (not_has_empty t))
      (Nat.le_of_eq (by rw [← hm]; rfl))
  rw [heq, run_append, hm]
  exact hbehind.listedOnce (hm ▸ listedOnce_addMethod hdeclaring ht (hm ▸ hnew))

/-- Key, identity, full name, and namespace with name stand for each other. -/
structure Interned (g : TypeGraph) : Prop extends Indexed g where
  lookup : ∀ {name : String} {t : TypeId}, g.lookup? name = some t → g.Has t ∧ g.fullName t = name
  added : ∀ d : TypeDef, (g.add d).2.lookup? d.fullName = some (g.add d).1
  eq_iff_sameName : ∀ {t u : TypeId}, g.Has t → g.Has u →
    (t = u ↔ (g.typeDef t).sameName (g.typeDef u) = true)
  eq_iff_fullName : ∀ {t u : TypeId}, g.Has t → g.Has u → (t = u ↔ g.fullName t = g.fullName u)

theorem Indexed.interned (hg : g.Indexed) : g.Interned where
  toIndexed := hg
  lookup := hg.of_lookup?
  added := lookup?_add_self g
  eq_iff_sameName ht hu := ⟨fun h => by simp [h, TypeDef.sameName],
    fun h => hg.eq_of_fullName ht hu (TypeDef.fullName_of_sameName h)⟩
  eq_iff_fullName ht hu := ⟨fun h => by rw [h], hg.eq_of_fullName ht hu⟩

/-- Types are kept for good: whatever is done to a graph, each key is the full name of its type, a
full name that leads to a type keeps leading to it, and no part of the type but its methods changes.
Where types are added on bases that the graph has, every chain of bases ends. A method is put behind
the methods of the type that declares it, in the order in which they are added, and behind no
other's. So it is listed once, with this type, unless a type is added that lists it already. -/
theorem run_interned (steps : List Step) :
    (empty.run steps).Interned
      ∧ (∀ before behind, steps = before ++ behind → ∀ name t,
        (empty.run before).lookup? name = some t →
        (empty.run steps).lookup? name = some t
          ∧ ((empty.run steps).typeDef t).bare = ((empty.run before).typeDef t).bare)
      ∧ ((∀ before d behind, steps = before ++ .add d :: behind →
          ∀ b, d.base = some b → (empty.run before).Has b) →
        ∀ t, (empty.run steps).Has t →
          ∃ n ≤ (empty.run steps).types.size, (empty.run steps).ancestor? n t = none)
      ∧ (∀ before behind, steps = before ++ behind → ∀ t, (empty.run before).Has t →
        ((empty.run steps).typeDef t).methods.toList =
          ((empty.run before).typeDef t).methods.toList
            ++ addedTo t (empty.run before).methods.size behind)
      ∧ ∀ before e behind t, steps = before ++ .addMethod e :: behind →
        e.declaringType = some t → (empty.run before).Has t →
        (empty.run steps).methods[((empty.run before).addMethod e).1.index]? = some e
          ∧ ((∀ before' d behind', steps = before' ++ .add d :: behind' →
              (empty.run before').lookup? d.fullName = none →
              ((empty.run before).addMethod e).1 ∉ d.methods) →
            ((empty.run steps).typeDef t).methods.toList.count
                ((empty.run before).addMethod e).1 = 1
              ∧ ∀ u, u ≠ t →
                ((empty.run before).addMethod e).1 ∉ ((empty.run steps).typeDef u).methods) := by
  refine ⟨(indexed_empty.run steps).interned, ?_, ?_, ?_, ?_⟩
  · rintro before behind rfl name t ht
    rw [run_append]
    have hindexed : (empty.run before).Indexed := indexed_empty.run before
    have hkeeps := hindexed.keeps_run behind
    exact ⟨hkeeps.lookup? ht, hkeeps.bare (hindexed.of_lookup? ht).1⟩
  · intro hbases t ht
    exact ⟨_, Nat.le_refl _, (basesFirst_run hbases).ancestor?_eq_none _ t ht⟩
  · rintro before behind rfl t ht
    rw [run_append]
    exact methods_run behind (indexed_empty.run before) ht
  · intro before e behind t heq hdeclaring ht
    refine ⟨?_, fun hd => ?_⟩
    · have hkeeps := ((indexed_empty.run before).addMethod e).keeps_run behind
      rw [heq, run_append]
      exact hkeeps.method Array.getElem?_push_size
    · have hlisted := listedOnce_run heq hdeclaring ht hd
      exact ⟨hlisted.count_eq_one, hlisted.notMem⟩

/-- A type and its method, and then a second type whose full name is the same, cut elsewhere. -/
theorem run_interned_cut :
    ∃ steps : List Step, (empty.run steps).lookup? "A.B.C" = some ⟨8⟩
      ∧ ((empty.run steps).typeDef ⟨8⟩).bare = { nameSpace := "A.B", name := "C", base := some ⟨0⟩ }
      ∧ (empty.run steps).Interned
      ∧ (∃ n ≤ (empty.run steps).types.size, (empty.run steps).ancestor? n ⟨8⟩ = none)
      ∧ ((empty.run steps).typeDef ⟨8⟩).methods.toList = [⟨0⟩]
      ∧ ((empty.run steps).typeDef ⟨8⟩).methods.toList.count ⟨0⟩ = 1
      ∧ (⟨0⟩ : MethodId) ∉ ((empty.run steps).typeDef ⟨0⟩).methods := by
  obtain ⟨first, hfirst⟩ : ∃ first : List Step, first =
      [.addCore, .add { nameSpace := "A.B", name := "C", base := some ⟨0⟩ }] := ⟨_, rfl⟩
  obtain ⟨last, hlast⟩ : ∃ last : List Step, last =
      [.add { nameSpace := "A", name := "B.C", base := some ⟨8⟩, methods := #[⟨0⟩] }] := ⟨_, rfl⟩
  obtain ⟨steps, hsteps⟩ : ∃ steps : List Step,
      steps = first ++ .addMethod { declaringType := some ⟨8⟩ } :: last := ⟨_, rfl⟩
  have hfound : (empty.run first).lookup? "A.B.C" = some ⟨8⟩ := by
    rw [hfirst]
    decide +kernel
  have hbare : ((empty.run first).typeDef ⟨8⟩).bare =
      { nameSpace := "A.B", name := "C", base := some ⟨0⟩ } := by
    rw [hfirst]
    decide +kernel
  have hnone : (empty.run first).methods.size = 0
      ∧ ((empty.run first).typeDef ⟨8⟩).methods.toList = [] := by
    rw [hfirst]
    decide +kernel
  have hid : ((empty.run first).addMethod { declaringType := some ⟨8⟩ }).1 = ⟨0⟩ :=
    congrArg MethodId.mk hnone.1
  -- the type that is added last lists the method, but its name is taken
  have hadded : ∀ before d behind, steps = before ++ .add d :: behind →
      (∀ b, d.base = some b → (empty.run before).Has b)
        ∧ ((empty.run before).lookup? d.fullName = none → (⟨0⟩ : MethodId) ∉ d.methods) := by
    rw [hsteps, hfirst, hlast]
    rintro (_ | ⟨_, _ | ⟨_, _ | ⟨_, _ | ⟨_, before⟩⟩⟩⟩) d behind h <;>
      simp only [List.nil_append, List.cons_append, List.cons.injEq, reduceCtorEq, false_and,
        and_false, Step.add.injEq, List.nil_eq, List.append_eq_nil_iff] at h
    · obtain ⟨rfl, rfl, -⟩ := h
      refine ⟨fun b hb => ?_, by simp⟩
      cases hb
      decide +kernel
    · obtain ⟨rfl, rfl, rfl, rfl, -⟩ := h
      refine ⟨fun b hb => ?_, fun hlookup => absurd hlookup (by decide +kernel)⟩
      cases hb
      decide +kernel
  obtain ⟨hinterned, hkept, hends, hlists, honce⟩ := run_interned steps
  obtain ⟨hlookup, hsame⟩ := hkept first _ hsteps "A.B.C" ⟨8⟩ hfound
  have hhas : (empty.run first).Has ⟨8⟩ := ((indexed_empty.run first).of_lookup? hfound).1
  have hmethods := hlists first _ hsteps ⟨8⟩ hhas
  obtain ⟨-, hlisted⟩ := honce first { declaringType := some ⟨8⟩ } _ ⟨8⟩ hsteps rfl hhas
  rw [hid] at hlisted
  obtain ⟨hcount, hother⟩ := hlisted fun before d behind h => (hadded before d behind h).2
  refine ⟨steps, hlookup, hsame.trans hbare, hinterned,
    hends (fun before d behind h => (hadded before d behind h).1) ⟨8⟩ (hinterned.lookup hlookup).1,
    ?_, hcount, hother ⟨0⟩ (by decide)⟩
  rw [hmethods, hnone.1, hnone.2, hlast]
  rfl

/-- A type that lists the method of another one when it is added: from then on both do. -/
theorem mem_methods_of_add :
    let before : List Step := [.add { name := "A" }]
    let e : MethodDef := { declaringType := some ⟨0⟩ }
    let m := ((empty.run before).addMethod e).1
    let g := empty.run (before ++ [.addMethod e, .add { name := "B", methods := #[m] }])
    (empty.run before).Has ⟨0⟩ ∧ g.Has ⟨1⟩ ∧ m ∈ (g.typeDef ⟨0⟩).methods
      ∧ m ∈ (g.typeDef ⟨1⟩).methods := by
  decide +kernel

end Run

end TypeGraph

end CilMethod
