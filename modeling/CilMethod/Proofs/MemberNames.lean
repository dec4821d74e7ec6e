import CilMethod.Proofs.PrintedCode
import CilMethod.Proofs.Removals

/-!
# The names of members

A member is printed by its label or, if it has none, by its offset. Labels are distinct, and so are
the offsets of members and their texts, whatever was taken out before (`Without.distinguished`). But
a label may be spelled like an offset (`Borrows`), and this is the only way in which two members
come to have the same name (`Distinguished.nameOf_eq_iff`). It can come about by a removal, since
the members behind move up to other offsets, while labels stay as they are. What is taken out is
marked with characters that no member's name has (`Distinguished.nameOf_ne`).
-/

namespace CilMethod

namespace Offset

theorem text_inj {a b : Nat} : text a = text b ↔ a = b := by
  refine ⟨fun h => ?_, congrArg text⟩
  have hdigits : Text.hexadecimal 4 a = Text.hexadecimal 4 b :=
    List.append_cancel_left (String.ofList_injective h)
  -- the numeral can be read back, under a bound that admits both numbers
  have hread : Text.readUnsigned? 16 (a + b + 1) (Text.hexadecimal 4 a) = some a :=
    Text.readUnsigned?_hexadecimal 4 (by omega)
  rw [hdigits, Text.readUnsigned?_hexadecimal 4 (by omega)] at hread
  exact (Option.some.inj hread).symm

theorem isLabel_text (offset : Nat) : Listing.isLabel (text offset).toList = true := by
  have htext : (text offset).toList = "IL_".toList ++ Text.hexadecimal 4 offset :=
    String.toList_ofList
  rw [htext, Listing.isLabel, List.all_append]
  have hdigits : (Text.hexadecimal 4 offset).all (fun c => c.isAlphanum || c == '_') = true := by
    refine List.all_eq_true.2 fun c hc => ?_
    rw [Text.isAlphanum_of_mem_hexadecimal hc, Bool.true_or]
  rw [hdigits]
  rfl

end Offset

namespace Sequence

/-- In a layout, different members have different offsets. -/
theorem Consistent.eq_of_offsetOf_laidOut {s : Sequence} (hs : s.Consistent) {a b : InstructionId}
    (ha : a ∈ s.order) (hb : b ∈ s.order) (h : s.laidOut.offsetOf a = s.laidOut.offsetOf b) :
    a = b := by
  have hplaced : s.Placed s.laidOut := placed_laidOut hs.nodup fun id hid => by
    obtain ⟨i, hi⟩ := hs.exists_node hid
    exact (Array.getElem?_eq_some_iff.1 hi).1
  obtain ⟨p, hp⟩ := mem_order_iff.1 ha
  obtain ⟨q, hq⟩ := mem_order_iff.1 hb
  rcases Nat.lt_trichotomy p q with hlt | rfl | hlt
  · exact absurd h (Nat.ne_of_lt (hplaced.offset_lt hlt hp hq))
  · exact Option.some.inj (hp.symm.trans hq)
  · exact absurd h.symm (Nat.ne_of_lt (hplaced.offset_lt hlt hq hp))

end Sequence

namespace Listing

/-- The label of `a` is spelled like the offset of `b`, and `b` has no label. -/
def Borrows (l : Listing) (a b : InstructionId) : Prop :=
  l.labelOf? b = none ∧ l.labelOf? a = some (Offset.text (l.body.instructions.offsetOf b))

instance (l : Listing) (a b : InstructionId) : Decidable (l.Borrows a b) :=
  inferInstanceAs (Decidable (_ ∧ _))

/-- Exactly one member has the name of an instruction. -/
def NamesOne (l : Listing) (id : InstructionId) : Prop :=
  ∃! a, a ∈ l.body.instructions.order ∧ l.nameOf a = l.nameOf id

/-- Labels tell instructions apart, and offsets tell members apart. -/
structure Distinguished (l : Listing) : Prop where
  consistent : l.body.instructions.Consistent
  isLabel : ∀ {id : InstructionId} {name : String}, l.labelOf? id = some name →
    isLabel name.toList = true
  label : ∀ {a b : InstructionId} {name : String}, l.labelOf? a = some name →
    l.labelOf? b = some name → a = b
  offset : ∀ {a b : InstructionId}, a ∈ l.body.instructions.order → b ∈ l.body.instructions.order →
    l.body.instructions.offsetOf a = l.body.instructions.offsetOf b → a = b

namespace Distinguished

variable {l : Listing} {a b id : InstructionId}

/-- A member has its own name, without a mark around it. -/
theorem nameOf_eq (h : l.Distinguished) (ha : a ∈ l.body.instructions.order) :
    l.nameOf a = (l.labelOf? a).getD (Offset.text (l.body.instructions.offsetOf a)) := by
  obtain ⟨i, hi⟩ := h.consistent.exists_node ha
  rw [nameOf, if_pos (h.consistent.contains_iff.2 ha), Sequence.offsetOf, hi]
  cases l.labelOf? a <;> rfl

theorem isLabel_nameOf (h : l.Distinguished) (ha : a ∈ l.body.instructions.order) :
    Listing.isLabel (l.nameOf a).toList = true := by
  rw [h.nameOf_eq ha]
  cases hname : l.labelOf? a with
  | none => exact Offset.isLabel_text _
  | some name => exact h.isLabel hname

/-- What is not a member is never taken for one. -/
theorem nameOf_ne (h : l.Distinguished) (ha : a ∈ l.body.instructions.order)
    (hb : b ∉ l.body.instructions.order) : l.nameOf a ≠ l.nameOf b := by
  intro heq
  have hmark : '<' ∈ (l.nameOf b).toList := by
    rw [nameOf, if_neg fun hcontains => hb (h.consistent.contains_iff.1 hcontains)]
    simp
  have hplain := isPlain_of_isLabel (h.isLabel_nameOf ha)
  exact Text.notMem_of_isPlain hplain (by decide) (heq ▸ hmark)

theorem not_borrows_self : ¬ l.Borrows a a := by
  rintro ⟨hnone, hsome⟩
  rw [hnone] at hsome
  cases hsome

theorem nameOf_eq_iff (h : l.Distinguished) (ha : a ∈ l.body.instructions.order)
    (hb : b ∈ l.body.instructions.order) :
    l.nameOf a = l.nameOf b ↔ a = b ∨ l.Borrows a b ∨ l.Borrows b a := by
  rw [h.nameOf_eq ha, h.nameOf_eq hb, Borrows, Borrows]
  -- two labels or two offsets tell the members apart, a label and an offset need not
  cases hname : l.labelOf? a with
  | none =>
    cases hname' : l.labelOf? b with
    | none =>
      simp only [Option.getD_none, Offset.text_inj, reduceCtorEq, and_false, or_false]
      exact ⟨h.offset ha hb, fun heq => heq ▸ rfl⟩
    | some name =>
      have hne : a ≠ b := ne_of_apply_ne l.labelOf? (by simp [hname, hname'])
      simp [hne, eq_comm]
  | some name =>
    cases hname' : l.labelOf? b with
    | none =>
      have hne : a ≠ b := ne_of_apply_ne l.labelOf? (by simp [hname, hname'])
      simp [hne]
    | some name' =>
      simp only [Option.getD_some, reduceCtorEq, false_and, or_false]
      constructor
      · rintro rfl
        exact h.label hname hname'
      · rintro rfl
        exact Option.some.inj (hname.symm.trans hname')

theorem namesOne_iff (h : l.Distinguished) (hid : id ∈ l.body.instructions.order) :
    l.NamesOne id ↔ ∀ a ∈ l.body.instructions.order, ¬ l.Borrows id a ∧ ¬ l.Borrows a id := by
  constructor
  · rintro ⟨only, -, honly⟩ a ha
    have hsame : ∀ b ∈ l.body.instructions.order, l.nameOf b = l.nameOf id → b = id :=
      fun b hb hname => (honly b ⟨hb, hname⟩).trans (honly id ⟨hid, rfl⟩).symm
    rw [← not_or]
    intro hborrows
    obtain rfl := hsame a ha ((h.nameOf_eq_iff ha hid).2 (.inr hborrows.symm))
    exact hborrows.elim not_borrows_self not_borrows_self
  · intro hnone
    refine ⟨id, ⟨hid, rfl⟩, fun a ⟨ha, hname⟩ => ?_⟩
    rcases (h.nameOf_eq_iff ha hid).1 hname with heq | hborrows | hborrows
    · exact heq
    · exact absurd hborrows (hnone a ha).2
    · exact absurd hborrows (hnone a ha).1

end Distinguished

section Removals

variable {l m : Listing} {gone : List InstructionId}

namespace Without

theorem distinguished {lines : List (Numbered CodeLine)} (h : l.Without gone m) (hl : l.Fresh lines)
    (hlabels : ∀ {name : String} {id : InstructionId}, l.label? name = some id →
      isLabel name.toList = true) : m.Distinguished where
  consistent := h.consistent
  isLabel {id name} hname := by
    rw [h.labelOf?_eq, hl.labelOf?_iff] at hname
    exact hlabels hname
  label {a b name} ha hb := by
    rw [h.labelOf?_eq, hl.labelOf?_iff] at ha hb
    exact Option.some.inj (ha.symm.trans hb)
  offset {a b} ha hb heq := by
    obtain ⟨s, hs, -, hlaid⟩ := h.laidOut
    rw [hlaid] at ha hb heq
    exact hs.eq_of_offsetOf_laidOut ha hb heq

theorem targetsOf_eq (h : l.Without gone m) (id : InstructionId) :
    m.body.instructions.targetsOf id = l.body.instructions.targetsOf id := by
  rw [← Sequence.targetsOf_contents, ← Sequence.targetsOf_contents, h.contents]
  rfl

/-- A removal that succeeds takes out one more instruction. -/
theorem of_run_remove {name : String} {id : InstructionId} {m' : Listing} (h : l.Without gone m)
    (hlabels : ∀ {name : String} {id : InstructionId}, l.label? name = some id →
      id ∈ l.body.instructions.order)
    (hrun : (remove name).run m = .ok id m') : ∃ gone', l.Without gone' m' := by
  cases hname : l.label? name with
  | none =>
    rw [run_remove_unknown ((h.label?_eq name).trans hname)] at hrun
    cases hrun
  | some k =>
    by_cases hk : k ∈ gone
    · rw [h.run_remove_again hname hk] at hrun
      cases hrun
    · obtain ⟨m₁, hrun₁, h₁⟩ := h.run_remove hname (hlabels hname) hk
      rw [hrun₁] at hrun
      cases hrun
      exact ⟨_, h₁⟩

theorem of_run_removeAll : ∀ {names : List String} {gone : List InstructionId} {m m' : Listing},
    l.Without gone m → (∀ {name : String} {id : InstructionId}, l.label? name = some id →
      id ∈ l.body.instructions.order) →
    (CommandLine.removeAll names).run m = .ok () m' → ∃ gone', l.Without gone' m'
  | [], gone, m, m', h, _, hrun => by
    cases hrun
    exact ⟨gone, h⟩
  | name :: names, gone, m, m', h, hlabels, hrun => by
    rw [CommandLine.removeAll, EStateM.run_bind, run_discard] at hrun
    cases hfirst : (remove name).run m with
    | error e m₁ =>
      rw [hfirst] at hrun
      cases hrun
    | ok id m₁ =>
      rw [hfirst] at hrun
      obtain ⟨gone₁, h₁⟩ := h.of_run_remove hlabels hfirst
      exact of_run_removeAll h₁ hlabels hrun

end Without

end Removals

section Read

variable {source : String} {method : MethodDef} {g g' : TypeGraph} {l m : Listing}
  {names : List String}

/-- Operands name their targets by labels. -/
theorem Phases.exists_labelOf?_target (p : Phases source g) (method : MethodDef)
    {id target : InstructionId}
    (h : target ∈ (p.listing method).body.instructions.targetsOf id) :
    ∃ name, (p.listing method).labelOf? target = some name := by
  rw [Sequence.targetsOf] at h
  cases hi : (p.listing method).body.instructions.node? id with
  | none =>
    rw [hi] at h
    cases h
  | some i =>
    rw [hi] at h
    obtain ⟨name, hname⟩ := (p.resolved_of_node? method hi).targets target h
    exact ⟨name, (p.fresh_listing method).labelOf?_iff.2 hname⟩

theorem exists_run {x : EStateM ListingError Listing Unit} {test : Listing → Bool}
    (h : (x *> test <$> get).run' l = some true) : ∃ m, x.run l = .ok () m ∧ test m = true := by
  cases hrun : x.run l with
  | ok a m => exact ⟨m, rfl, eq_of_run hrun h⟩
  | error e m =>
    have herror : (x *> test <$> get).run l = .error e m := by
      rw [seqRight_eq_bind, EStateM.run_bind, hrun]
    delta EStateM.run' at h
    rw [herror] at h
    cases h

/-- However many instructions were taken out by their labels, two members have the same name only if
one has a label that is spelled like the offset of the other, which has none. What was taken out
never has the name of a member. So a printed branch, or a target that is still a member, is the only
member with its name unless it is one of such a pair. A target has a label, so it can only be the
first of the pair. -/
theorem names_identify (h : read source method g = (.ok l, g'))
    (hrun : (CommandLine.removeAll names).run l = .ok () m) :
    (∀ a ∈ m.body.instructions.order, ∀ b ∈ m.body.instructions.order,
        (m.nameOf a = m.nameOf b ↔ a = b ∨ m.Borrows a b ∨ m.Borrows b a))
      ∧ (∀ a ∈ m.body.instructions.order, ∀ b, b ∉ m.body.instructions.order →
        m.nameOf a ≠ m.nameOf b)
      ∧ (∀ branch ∈ m.body.instructions.branchList, branch ∈ m.body.instructions.order
        ∧ (m.NamesOne branch ↔
          ∀ a ∈ m.body.instructions.order, ¬ m.Borrows branch a ∧ ¬ m.Borrows a branch))
      ∧ ∀ id ∈ m.body.instructions.order, ∀ target ∈ m.body.instructions.targetsOf id,
        target ∈ m.body.instructions.order →
        (m.NamesOne target ↔ ∀ a ∈ m.body.instructions.order, ¬ m.Borrows target a) := by
  obtain ⟨p, rfl, rfl⟩ := read_eq_ok_iff.1 h
  obtain ⟨gone, hwithout⟩ := (p.without_nil method).of_run_removeAll
    (fun hname => p.mem_order_of_findLabel? method hname) hrun
  have hm := hwithout.distinguished (p.fresh_listing method) p.isLabel_of_findLabel?
  refine ⟨fun a ha b hb => hm.nameOf_eq_iff ha hb, fun a ha b hb => hm.nameOf_ne ha hb, ?_, ?_⟩
  · intro branch hbranch
    have hmem : branch ∈ m.body.instructions.order :=
      (hm.consistent.mem_branches.1 (Std.ExtTreeSet.mem_toList.1 hbranch)).1
    exact ⟨hmem, hm.namesOne_iff hmem⟩
  · intro id _ target htarget hmem
    rw [hwithout.targetsOf_eq] at htarget
    obtain ⟨name, hname⟩ := p.exists_labelOf?_target method htarget
    rw [← hwithout.labelOf?_eq] at hname
    have hlabelled : ∀ a, ¬ m.Borrows a target := fun a hborrows => by
      rw [Borrows, hname] at hborrows
      cases hborrows.1
    rw [hm.namesOne_iff hmem]
    simp only [hlabelled, not_false_eq_true, and_true]

/-- A label is spelled like an offset at which no instruction starts, until a removal moves one
there. The branch without a label keeps a name of its own. -/
theorem names_identify_moved :
    ∃ source l g' m, read source {} .empty = (.ok l, g')
      ∧ (CommandLine.removeAll ["first"]).run l = .ok () m
      ∧ l.NamesOne ⟨1⟩ ∧ ¬ m.NamesOne ⟨1⟩ ∧ m.nameOf ⟨3⟩ = m.nameOf ⟨1⟩ ∧ m.NamesOne ⟨2⟩
      ∧ m.nameOf ⟨1⟩ ≠ m.nameOf ⟨0⟩ := by
  have hlisting : ∃ l g', read "first: nop\nIL_0003: nop\nbr.s IL_0003\nret" {} .empty = (.ok l, g')
      ∧ (l.body.instructions.order == #[⟨0⟩, ⟨1⟩, ⟨2⟩, ⟨3⟩]
        && l.body.instructions.targetsOf ⟨2⟩ == [⟨1⟩]
        && l.body.instructions.order.toList.all (fun a => !decide (l.Borrows ⟨1⟩ a))
        && (CommandLine.removeAll ["first"] *> (fun m =>
          m.body.instructions.order == #[⟨1⟩, ⟨2⟩, ⟨3⟩]
          && m.body.instructions.targetsOf ⟨2⟩ == [⟨1⟩] && m.body.instructions.branchList == [⟨2⟩]
          && decide (m.Borrows ⟨1⟩ ⟨3⟩)
          && m.body.instructions.order.toList.all (fun a =>
            !decide (m.Borrows ⟨2⟩ a) && !decide (m.Borrows a ⟨2⟩))) <$> get).run' l ==
          some true) = true :=
    exists_read (by decide +kernel)
  obtain ⟨l, g', hread, htest⟩ := hlisting
  simp only [Bool.and_eq_true, beq_iff_eq, List.all_eq_true, Array.mem_toList_iff,
    Bool.not_eq_true', decide_eq_false_iff_not] at htest
  obtain ⟨⟨⟨horder, htargets⟩, hfree⟩, hrun⟩ := htest
  obtain ⟨m, hrun, htest⟩ := exists_run hrun
  simp only [Bool.and_eq_true, beq_iff_eq, decide_eq_true_eq, List.all_eq_true,
    Array.mem_toList_iff, Bool.not_eq_true', decide_eq_false_iff_not] at htest
  obtain ⟨⟨⟨⟨horder', htargets'⟩, hbranches⟩, hborrows⟩, hfree'⟩ := htest
  have hnone : (CommandLine.removeAll []).run l = .ok () l := rfl
  obtain ⟨-, -, -, htarget⟩ := names_identify hread hnone
  obtain ⟨hsame, hmarked, hbranch, htarget'⟩ := names_identify hread hrun
  have hfirst := htarget ⟨2⟩ (by simp [horder]) ⟨1⟩ (by simp [htargets]) (by simp [horder])
  have hmember : ⟨1⟩ ∈ m.body.instructions.order := by simp [horder']
  have hlast : ⟨3⟩ ∈ m.body.instructions.order := by simp [horder']
  have hsecond := htarget' ⟨2⟩ (by simp [horder']) ⟨1⟩ (by simp [htargets']) hmember
  exact ⟨_, l, g', m, hread, hrun, hfirst.2 hfree, fun hone => hsecond.1 hone ⟨3⟩ hlast hborrows,
    (hsame ⟨3⟩ hlast ⟨1⟩ hmember).2 (.inr (.inr hborrows)),
    (hbranch ⟨2⟩ (by simp [hbranches])).2.2 hfree', hmarked ⟨1⟩ hmember ⟨0⟩ (by simp [horder'])⟩

/-- Of two members that take two bytes each, the second has no label, and the label of the first is
spelled like the offset of the second. The notes behind the code name both alike. -/
theorem nameOf_label_like_offset :
    ∃ l g', read "IL_0002: br.s IL_0002\nbr.s IL_0002" {} .empty = (.ok l, g')
      ∧ ⟨0⟩ ∈ l.body.instructions.order ∧ ⟨1⟩ ∈ l.body.instructions.order
      ∧ l.nameOf ⟨0⟩ = "IL_0002" ∧ l.nameOf ⟨1⟩ = "IL_0002"
      ∧ l.noteLines = ["// branches at IL_0002, IL_0002"] := by
  have hlisting : ∃ l g', read "IL_0002: br.s IL_0002\nbr.s IL_0002" {} .empty = (.ok l, g')
      ∧ (l.body.instructions.order == #[⟨0⟩, ⟨1⟩] && l.nameOf ⟨0⟩ == "IL_0002"
        && l.nameOf ⟨1⟩ == "IL_0002"
        && l.noteLines == ["// branches at IL_0002, IL_0002"]) = true :=
    exists_read (by decide +kernel)
  obtain ⟨l, g', hread, htest⟩ := hlisting
  simp only [Bool.and_eq_true, beq_iff_eq] at htest
  obtain ⟨⟨⟨horder, hfirst⟩, hsecond⟩, hnotes⟩ := htest
  exact ⟨l, g', hread, by simp [horder], by simp [horder], hfirst, hsecond, hnotes⟩

end Read

end Listing

end CilMethod
