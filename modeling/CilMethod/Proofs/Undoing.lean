import CilMethod.Proofs.Loads
import CilMethod.Proofs.VariableLists

/-!
# Taking an edit back

Putting something in is taken back by taking out what then stands at the position, taking out by
putting in again what was there, and a replacement by replacing once more. Each second edit passes
its checks, since what was taken out is known and is no member any longer, and the members are then
the old ones.

All else that is kept comes back with the members. Links, membership and branches of a consistent
sequence follow from its contents, and no change touches an index, an offset or the suppression
flag. So changes that start from one sequence and end in the same contents end in the same sequence
(`Changes.eq_of_contents`). For local variables the lists alone decide
(`Numbered.eq_of_declarations`).
-/

namespace CilMethod

section Lists

variable {α : Type} {l : List α} {n : Nat} {x y : α}

theorem set_of_getElem? (hx : l[n]? = some x) : l.set n x = l := by
  obtain ⟨hlt, rfl⟩ := List.getElem?_eq_some_iff.1 hx
  exact List.set_getElem_self hlt

/-- Striking out a place and inserting there what it held. -/
theorem insertIdx_eraseIdx_of_getElem? (hx : l[n]? = some x) :
    (l.eraseIdx n).insertIdx n x = l := by
  rw [insertIdx_eraseIdx_self (List.getElem?_eq_some_iff.1 hx).1, set_of_getElem? hx]

theorem notMem_eraseIdx_self (hl : l.Nodup) (hx : l[n]? = some x) : x ∉ l.eraseIdx n := by
  rw [List.mem_eraseIdx_iff_getElem?]
  rintro ⟨i, hi, hix⟩
  obtain ⟨hlt, -⟩ := List.getElem?_eq_some_iff.1 hx
  exact hi ((List.getElem?_inj hlt hl).1 (hx.trans hix.symm)).symm

/-- What gave up its place is gone. -/
theorem notMem_set_self (hl : l.Nodup) (hx : l[n]? = some x) (hy : y ∉ l) : x ∉ l.set n y := by
  obtain ⟨hlt, -⟩ := List.getElem?_eq_some_iff.1 hx
  have hle : n ≤ (l.eraseIdx n).length := by
    rw [List.length_eraseIdx_of_lt hlt]
    omega
  rw [← insertIdx_eraseIdx_self hlt, List.mem_insertIdx hle, not_or]
  refine ⟨?_, notMem_eraseIdx_self hl hx⟩
  rintro rfl
  exact hy (List.mem_of_getElem? hx)

end Lists

/-- A run whose end follows from its answer. -/
theorem ok_eq_ok_iff {σ α : Type} {a b : α} {t : σ} (f : α → σ) :
    (.ok a (f a) : EStateM.Result Error σ α) = .ok b t ↔ a = b ∧ t = f b := by
  rw [EStateM.Result.ok.injEq]
  constructor
  · rintro ⟨rfl, rfl⟩
    exact ⟨rfl, rfl⟩
  · rintro ⟨rfl, rfl⟩
    exact ⟨rfl, rfl⟩

namespace Sequence

variable {s t u : Sequence} {position : Nat} {id x : InstructionId}

theorem run_insert_eq_ok_iff : (insert position id).run s = .ok () t ↔
    position ≤ s.length ∧ s.placeFault? id = none ∧ t = s.inserted position id := by
  rw [run_insert]
  split_ifs with hposition
  · simp [Nat.not_le.2 hposition]
  · cases s.placeFault? id with
    | some e => simp
    | none => simp [Nat.le_of_not_lt hposition, eq_comm]

theorem run_remove_eq_ok_iff : (remove position).run s = .ok x t ↔
    s.get? position = some x ∧ t = s.removed position x := by
  rw [run_remove]
  cases s.get? position with
  | none => simp
  | some old => rw [ok_eq_ok_iff (s.removed position), Option.some.injEq]

theorem run_replace_eq_ok_iff : (replace position id).run s = .ok x t ↔
    s.get? position = some x ∧ s.placeFault? id = none ∧ t = s.replaced position id x := by
  rw [run_replace]
  cases s.get? position with
  | none => simp
  | some old =>
    cases s.placeFault? id with
    | some e => simp
    | none => simp only [ok_eq_ok_iff (s.replaced position id), Option.some.injEq, true_and]

/-- Changes of a consistent sequence that end in the same contents end in the same sequence. -/
theorem Changes.eq_of_contents (hs : s.Consistent) (ht : s.Changes t) (hu : s.Changes u)
    (hcontents : t.contents = u.contents) : t = u := by
  have hsame : t.SameButLayout u :=
    (consistent_invariant.changes ht hs).sameButLayout (consistent_invariant.changes hu hs)
      hcontents (ht.keeps.suppressed.trans hu.keeps.suppressed.symm)
  refine hsame.eq_of_spot? fun id => ?_
  rw [ht.spot?_eq, hu.spot?_eq, hsame.code?_eq]

theorem Consistent.placeFault?_of_notMem (hs : s.Consistent) (hknown : ∃ c, s.code? id = some c)
    (hout : id ∉ s.order) : s.placeFault? id = none := by
  obtain ⟨i, hi⟩ := (exists_node?_iff s id).2 hknown
  have hm : ¬ i.isMember = true := fun hm => hout ((hs.isMember_iff hi).1 hm)
  simp [placeFault?, hi, hm]

theorem Consistent.run_remove_insert (hs : s.Consistent)
    (h : (insert position id).run s = .ok () t) : (remove position).run t = .ok id s := by
  obtain ⟨hposition, hid, rfl⟩ := run_insert_eq_ok_iff.1 h
  have hget : (s.inserted position id).get? position = some id := by
    rw [get?_inserted hposition, if_neg (Nat.lt_irrefl _), if_pos rfl]
  have hback : (s.inserted position id).removed position id = s := by
    refine Changes.eq_of_contents hs
      (.tail (.single (.insert hposition hid)) (.remove hget)) .refl ?_
    rw [contents_removed, contents_inserted, List.eraseIdx_insertIdx_self]
  exact run_remove_eq_ok_iff.2 ⟨hget, hback.symm⟩

theorem Consistent.run_insert_remove (hs : s.Consistent)
    (h : (remove position).run s = .ok x t) : (insert position x).run t = .ok () s := by
  obtain ⟨hold, rfl⟩ := run_remove_eq_ok_iff.1 h
  have hposition : position ≤ (s.removed position x).length := le_length_removed hold
  have hx : (s.removed position x).placeFault? x = none := hs.placeFault?_removed_self hold
  have hback : (s.removed position x).inserted position x = s := by
    refine Changes.eq_of_contents hs
      (.tail (.single (.remove hold)) (.insert hposition hx)) .refl ?_
    rw [get?_eq_toList] at hold
    rw [contents_inserted, contents_removed]
    exact congrArg (Contents.mk · _) (insertIdx_eraseIdx_of_getElem? hold)
  exact run_insert_eq_ok_iff.2 ⟨hposition, hx, hback.symm⟩

theorem Consistent.run_replace_replace (hs : s.Consistent)
    (h : (replace position id).run s = .ok x t) : (replace position x).run t = .ok id s := by
  have hst : s.Changes t := by
    have hatomic := replace_atomic s position id
    rwa [h] at hatomic
  have ht : t.Consistent := consistent_invariant.changes hst hs
  obtain ⟨hold, hid, rfl⟩ := run_replace_eq_ok_iff.1 h
  obtain ⟨-, hout⟩ := hs.notMem_of_placeFault? hid
  obtain ⟨i, hi⟩ := hs.exists_node (mem_order_iff.2 ⟨position, hold⟩)
  have hcontents : (s.replaced position id x).contents =
      { s.contents with members := s.contents.members.set position id } := contents_replaced x
  have horder : (s.replaced position id x).order.toList = s.order.toList.set position id :=
    congrArg Contents.members hcontents
  rw [get?_eq_toList] at hold
  obtain ⟨hlt, -⟩ := List.getElem?_eq_some_iff.1 hold
  have hget : (s.replaced position id x).get? position = some id := by
    rw [get?_eq_toList, horder, List.getElem?_set_self hlt]
  have hx : (s.replaced position id x).placeFault? x = none := by
    refine ht.placeFault?_of_notMem ⟨(i.opcode, i.operand), ?_⟩ ?_
    · rw [← getElem?_arena _ x.index, hcontents, getElem?_arena, code?, hi]
      rfl
    · rw [← Array.mem_toList_iff, horder]
      exact notMem_set_self hs.nodup hold (by simpa using hout)
  have hrun : (replace position x).run (s.replaced position id x) =
      .ok id ((s.replaced position id x).replaced position x id) :=
    run_replace_eq_ok_iff.2 ⟨hget, hx, rfl⟩
  have hback : (s.replaced position id x).replaced position x id = s := by
    have hatomic := replace_atomic (s.replaced position id x) position x
    rw [hrun] at hatomic
    refine Changes.eq_of_contents hs (hst.trans hatomic) .refl ?_
    rw [contents_replaced, hcontents, List.set_set]
    exact congrArg (Contents.mk · _) (set_of_getElem? hold)
  rw [hrun, hback]

end Sequence

namespace Locals

variable {l m : Locals} {position : Nat} {id x : VariableId}

theorem run_insert_eq_ok_iff : (insert position id).run l = .ok () m ↔
    position ≤ l.length ∧ l.placeFault? id = none ∧ m = l.inserted position id := by
  rw [run_insert]
  split_ifs with hposition
  · simp [Nat.not_le.2 hposition]
  · cases l.placeFault? id with
    | some e => simp
    | none => simp [Nat.le_of_not_lt hposition, eq_comm]

theorem run_remove_eq_ok_iff : (remove position).run l = .ok x m ↔
    l.get? position = some x ∧ m = l.removed position x := by
  rw [run_remove]
  cases l.get? position with
  | none => simp
  | some old => rw [ok_eq_ok_iff (l.removed position), Option.some.injEq]

theorem run_replace_eq_ok_iff : (replace position id).run l = .ok x m ↔
    l.get? position = some x ∧ l.placeFault? id = none ∧ m = l.replaced position id x := by
  rw [run_replace]
  cases l.get? position with
  | none => simp
  | some old =>
    cases l.placeFault? id with
    | some e => simp
    | none => simp only [ok_eq_ok_iff (l.replaced position id), Option.some.injEq, true_and]

namespace Numbered

/-- The number of a variable follows from the members, so the lists are all there is. -/
theorem eq_of_declarations (hl : l.Numbered) (hm : m.Numbered)
    (h : l.declarations = m.declarations) : l = m := by
  have horder : l.order = m.order := Array.toList_inj.1 (congrArg Declarations.members h)
  have htypes : l.slots.toList.map (·.type) = m.slots.toList.map (·.type) :=
    congrArg Declarations.types h
  have hsize : l.slots.size = m.slots.size := by
    simpa using congrArg List.length htypes
  have hslots : l.slots = m.slots := by
    refine Array.ext hsize fun n hn hn' => ?_
    have htype : l.slots[n].type = m.slots[n].type := by
      simpa [hn, hn'] using congrArg (·[n]?) htypes
    have hslot : l.slot? ⟨n⟩ = some l.slots[n] := Array.getElem?_eq_getElem hn
    have hslot' : m.slot? ⟨n⟩ = some m.slots[n] := Array.getElem?_eq_getElem hn'
    have hindex : l.slots[n].index = m.slots[n].index := by
      refine Option.ext fun p => ?_
      rw [hl.index_iff hslot, hm.index_iff hslot', get?, get?, horder]
    cases hfirst : l.slots[n]
    cases hsecond : m.slots[n]
    simp_all
  cases l
  cases m
  simp_all

theorem lt_of_mem (hl : l.Numbered) (h : id ∈ l.order) : id.index < l.slots.size := by
  obtain ⟨slot, hslot⟩ := hl.exists_slot h
  exact (Array.getElem?_eq_some_iff.1 hslot).1

theorem placeFault?_of_notMem (hl : l.Numbered) (hknown : id.index < l.slots.size)
    (hout : id ∉ l.order) : l.placeFault? id = none := by
  have hslot : l.slot? id = some l.slots[id.index] := Array.getElem?_eq_getElem hknown
  rw [placeFault?, hslot]
  simp [hl.index_eq_none hslot hout]

theorem run_remove_insert (hl : l.Numbered) (h : (insert position id).run l = .ok () m) :
    (remove position).run m = .ok id l := by
  obtain ⟨hposition, hid, rfl⟩ := run_insert_eq_ok_iff.1 h
  have hdeclared : (l.inserted position id).declarations =
      { l.declarations with members := l.declarations.members.insertIdx position id } :=
    declarations_inserted
  have horder : (l.inserted position id).order.toList = l.order.toList.insertIdx position id :=
    congrArg Declarations.members hdeclared
  have hget : (l.inserted position id).get? position = some id := by
    rw [get?_eq_toList, horder, List.getElem?_insertIdx_self,
      if_pos (by simpa [length] using hposition)]
  have hback : (l.inserted position id).removed position id = l := by
    refine ((hl.inserted hposition hid).removed hget).eq_of_declarations hl ?_
    rw [declarations_removed, hdeclared, List.eraseIdx_insertIdx_self]
  exact run_remove_eq_ok_iff.2 ⟨hget, hback.symm⟩

theorem run_insert_remove (hl : l.Numbered) (h : (remove position).run l = .ok x m) :
    (insert position x).run m = .ok () l := by
  obtain ⟨hold, rfl⟩ := run_remove_eq_ok_iff.1 h
  have hm : (l.removed position x).Numbered := hl.removed hold
  have hknown := hl.lt_of_mem (mem_order_iff.2 ⟨position, hold⟩)
  have hdeclared : (l.removed position x).declarations =
      { l.declarations with members := l.declarations.members.eraseIdx position } :=
    declarations_removed x
  have horder : (l.removed position x).order.toList = l.order.toList.eraseIdx position :=
    congrArg Declarations.members hdeclared
  rw [get?_eq_toList] at hold
  obtain ⟨hlt, -⟩ := List.getElem?_eq_some_iff.1 hold
  have hposition : position ≤ (l.removed position x).length := by
    rw [length, ← Array.length_toList, horder, List.length_eraseIdx_of_lt hlt]
    omega
  have hx : (l.removed position x).placeFault? x = none := by
    refine hm.placeFault?_of_notMem ?_ ?_
    · rwa [← length_types, hdeclared, length_types]
    · rw [← Array.mem_toList_iff, horder]
      exact notMem_eraseIdx_self hl.nodup hold
  have hback : (l.removed position x).inserted position x = l := by
    refine (hm.inserted hposition hx).eq_of_declarations hl ?_
    rw [declarations_inserted, hdeclared]
    exact congrArg (Declarations.mk · _) (insertIdx_eraseIdx_of_getElem? hold)
  exact run_insert_eq_ok_iff.2 ⟨hposition, hx, hback.symm⟩

theorem run_replace_replace (hl : l.Numbered) (h : (replace position id).run l = .ok x m) :
    (replace position x).run m = .ok id l := by
  obtain ⟨hold, hid, rfl⟩ := run_replace_eq_ok_iff.1 h
  have hm : (l.replaced position id x).Numbered := hl.replaced hold hid
  have hknown := hl.lt_of_mem (mem_order_iff.2 ⟨position, hold⟩)
  obtain ⟨-, hout⟩ := hl.notMem_of_placeFault? hid
  have hdeclared : (l.replaced position id x).declarations =
      { l.declarations with members := l.declarations.members.set position id } :=
    declarations_replaced x
  have horder : (l.replaced position id x).order.toList = l.order.toList.set position id :=
    congrArg Declarations.members hdeclared
  rw [get?_eq_toList] at hold
  obtain ⟨hlt, -⟩ := List.getElem?_eq_some_iff.1 hold
  have hget : (l.replaced position id x).get? position = some id := by
    rw [get?_eq_toList, horder, List.getElem?_set_self hlt]
  have hx : (l.replaced position id x).placeFault? x = none := by
    refine hm.placeFault?_of_notMem ?_ ?_
    · rwa [← length_types, hdeclared, length_types]
    · rw [← Array.mem_toList_iff, horder]
      exact notMem_set_self hl.nodup hold (by simpa using hout)
  have hback : (l.replaced position id x).replaced position x id = l := by
    refine (hm.replaced hget hx).eq_of_declarations hl ?_
    rw [declarations_replaced, hdeclared, List.set_set]
    exact congrArg (Declarations.mk · _) (set_of_getElem? hold)
  exact run_replace_eq_ok_iff.2 ⟨hget, hx, hback.symm⟩

end Numbered

end Locals

/-- An edit that goes through can be taken back, to the very sequence or local variables that it
found: by taking out what was put in, by putting in again what was taken out, and by a second
replacement. -/
theorem undo_restores {s : Sequence} {l : Locals} (hs : s.Reachable) (hl : l.Reachable)
    (position : Nat) :
    ((∀ id t, (Sequence.insert position id).run s = .ok () t →
        (Sequence.remove position).run t = .ok id s)
      ∧ (∀ x t, (Sequence.remove position).run s = .ok x t →
        (Sequence.insert position x).run t = .ok () s)
      ∧ ∀ id x t, (Sequence.replace position id).run s = .ok x t →
        (Sequence.replace position x).run t = .ok id s)
    ∧ (∀ id m, (Locals.insert position id).run l = .ok () m →
        (Locals.remove position).run m = .ok id l)
    ∧ (∀ x m, (Locals.remove position).run l = .ok x m →
        (Locals.insert position x).run m = .ok () l)
    ∧ ∀ id x m, (Locals.replace position id).run l = .ok x m →
        (Locals.replace position x).run m = .ok id l := by
  have hs := hs.consistent
  have hl := hl.numbered
  exact ⟨⟨fun _ _ => hs.run_remove_insert, fun _ _ => hs.run_insert_remove,
    fun _ _ _ => hs.run_replace_replace⟩, fun _ _ => hl.run_remove_insert,
    fun _ _ => hl.run_insert_remove, fun _ _ _ => hl.run_replace_replace⟩

/-- The first of two members is a branch. It is taken out and comes back, and a third instruction
comes in between or takes the place of the last and goes again. Of two variables, the first one
leaves and comes back. -/
theorem undo_restores_branch :
    ∃ (s t u v : Sequence) (l m : Locals), s.Reachable ∧ l.Reachable
      ∧ s.isBranch ⟨0⟩ = true ∧ s.spot? ⟨1⟩ = some (1, 2) ∧ l.indexOf? ⟨1⟩ = some 1
      ∧ (Sequence.remove 0).run s = .ok ⟨0⟩ t ∧ (Sequence.insert 0 ⟨0⟩).run t = .ok () s
      ∧ (Sequence.insert 1 ⟨2⟩).run s = .ok () u ∧ (Sequence.remove 1).run u = .ok ⟨2⟩ s
      ∧ (Sequence.replace 1 ⟨2⟩).run s = .ok ⟨1⟩ v ∧ (Sequence.replace 1 ⟨1⟩).run v = .ok ⟨2⟩ s
      ∧ (Locals.remove 0).run l = .ok ⟨0⟩ m ∧ (Locals.insert 0 ⟨0⟩).run m = .ok () l := by
  obtain ⟨s, hs, hbranch, hspot, hlength, hfirst, hlast, hfree⟩ : ∃ s : Sequence, s.Reachable
      ∧ s.isBranch ⟨0⟩ = true ∧ s.spot? ⟨1⟩ = some (1, 2) ∧ s.length = 2
      ∧ s.get? 0 = some ⟨0⟩ ∧ s.get? 1 = some ⟨1⟩ ∧ s.placeFault? ⟨2⟩ = none :=
    ⟨_, ⟨[.edit (.emit ⟨"br.s", 0x2b, .shortInlineBrTarget⟩ (.target ⟨1⟩)),
      .edit (.emit ⟨"nop", 0, .inlineNone⟩ .none), .edit (.create ⟨"nop", 0, .inlineNone⟩ .none),
      .recompute], rfl⟩, by decide +kernel, rfl, rfl, rfl, rfl, rfl⟩
  obtain ⟨l, hl, hindex, hvariable⟩ : ∃ l : Locals, l.Reachable ∧ l.indexOf? ⟨1⟩ = some 1
      ∧ l.get? 0 = some ⟨0⟩ :=
    ⟨_, ⟨[.create ⟨0⟩, .create ⟨0⟩, .append ⟨0⟩, .append ⟨1⟩], rfl⟩, rfl, rfl⟩
  have hremove := Sequence.run_remove_eq_ok_iff.2 ⟨hfirst, rfl⟩
  have hinsert := Sequence.run_insert_eq_ok_iff.2
    ⟨show 1 ≤ s.length by rw [hlength]; decide, hfree, rfl⟩
  have hreplace := Sequence.run_replace_eq_ok_iff.2 ⟨hlast, hfree, rfl⟩
  have hremove' := Locals.run_remove_eq_ok_iff.2 ⟨hvariable, rfl⟩
  refine ⟨s, _, _, _, l, _, hs, hl, hbranch, hspot, hindex, hremove, ?_, hinsert, ?_, hreplace, ?_,
    hremove', ?_⟩
  · exact (undo_restores hs hl 0).1.2.1 _ _ hremove
  · exact (undo_restores hs hl 1).1.1 _ _ hinsert
  · exact (undo_restores hs hl 1).1.2.2 _ _ _ hreplace
  · exact (undo_restores hs hl 0).2.2.1 _ _ hremove'

end CilMethod
