import CilMethod.Proofs.NamedPlaces
import Mathlib.Data.List.Nodup
import Mathlib.Data.List.Perm.Subperm

/-!
# Walks along the links

A walk goes from an instruction to the one that its link names, for as long as there is one, and has
no bound of its own: with one wrong link it never ends. `Walk` says that it does, and what it passes
on the way. In a consistent sequence the walk from a position on passes the members from there on,
since the link of each leads to the next position (`walk_next`), and the one that goes back passes
those before it (`walk_previous`). How long it may go on is then no matter: what a bounded walk
passes is what an unbounded one does, up to the bound (`Walk.follow_eq`), and the bound of
`walkForward` and `walkBackward`, the number of all instructions, is never too low.
-/

namespace CilMethod.Sequence

/-- A walk along a link that comes to an end, with the instructions it passes, one at each step.
There is an instruction wherever it comes. -/
inductive Walk (s : Sequence) (link : Instruction → Option InstructionId) :
    Option InstructionId → List InstructionId → Prop where
  | done : Walk s link none []
  | step {id : InstructionId} {i : Instruction} {ids : List InstructionId}
      (hi : s.node? id = some i) (rest : Walk s link (link i) ids) :
      Walk s link (some id) (id :: ids)

variable {s : Sequence} {link : Instruction → Option InstructionId} {start : Option InstructionId}
  {ids : List InstructionId}

section Walk

theorem Walk.follow_eq (h : s.Walk link start ids) (fuel : Nat) :
    s.follow link fuel start = ids.take fuel := by
  induction h generalizing fuel with
  | done => cases fuel <;> simp [follow]
  | step hi _ ih =>
    cases fuel with
    | zero => rfl
    | succ fuel => rw [follow, hi, Option.bind_some, ih, List.take_succ_cons]

end Walk

section Members

variable (hs : s.Consistent)

include hs

/-- By induction on what stands from the position on, which every step makes shorter. -/
theorem Consistent.walk_next : ∀ {ids : List InstructionId} {p : Nat},
    s.order.toList.drop p = ids → s.Walk (·.next) (s.get? p) ids
  | [], p, h => by
    have hp : s.get? p = none := by
      rw [get?_eq_toList, List.getElem?_eq_none (List.drop_eq_nil_iff.1 h)]
    rw [hp]
    exact .done
  | id :: ids, p, h => by
    have hp : s.get? p = some id := by
      rw [get?_eq_toList, ← List.head?_drop, h]
      rfl
    have hrest : s.order.toList.drop (p + 1) = ids := by
      rw [← List.tail_drop, h]
      rfl
    obtain ⟨i, hi⟩ := hs.exists_node (mem_order_iff.2 ⟨p, hp⟩)
    rw [hp]
    refine .step hi ?_
    rw [(hs.linked hp hi).2]
    exact Consistent.walk_next hrest

theorem Consistent.walk_previous : ∀ {p : Nat}, p ≤ s.length →
    s.Walk (·.previous) (s.before? p) (s.order.toList.take p).reverse
  | 0, _ => .done
  | p + 1, h => by
    obtain ⟨id, hp⟩ : ∃ id, s.get? p = some id := ⟨_, Array.getElem?_eq_getElem h⟩
    obtain ⟨i, hi⟩ := hs.exists_node (mem_order_iff.2 ⟨p, hp⟩)
    have htake : s.order.toList.take (p + 1) = s.order.toList.take p ++ [id] := by
      rw [List.take_add_one, ← get?_eq_toList, hp]
      rfl
    rw [before?_succ, hp, htake, List.reverse_append]
    refine .step hi ?_
    rw [(hs.linked hp hi).1]
    exact Consistent.walk_previous (Nat.le_of_succ_le h)

/-- Members are different instructions, so there are at least as many instructions as members. -/
theorem Consistent.length_le : s.length ≤ s.nodes.size := by
  have hinjective : Function.Injective InstructionId.index := fun _ _ => InstructionId.ext
  have hnodup : (s.order.toList.map InstructionId.index).Nodup :=
    (List.nodup_map_iff hinjective).2 hs.nodup
  have hsub : s.order.toList.map InstructionId.index ⊆ List.range s.nodes.size := by
    intro n hn
    obtain ⟨id, hid, rfl⟩ := List.mem_map.1 hn
    exact List.mem_range.2 (hs.lt_of_mem (Array.mem_toList_iff.1 hid))
  simpa [length] using (hnodup.subperm hsub).length_le

/-- The search stops at the first place where the handle stands, and there is no other. -/
theorem Consistent.positionOf?_eq_some_iff {id : InstructionId} {p : Nat} :
    s.positionOf? id = some p ↔ s.get? p = some id := by
  rw [hs.positionOf?_eq, get?_eq_toList]
  constructor
  · intro h
    obtain ⟨hlt, hget, -⟩ := List.idxOf?_eq_some_iff.1 h
    exact List.getElem?_eq_some_iff.2 ⟨hlt, hget⟩
  · intro h
    obtain ⟨q, hq⟩ := Option.isSome_iff_exists.1
      (List.isSome_idxOf?.2 (List.mem_of_getElem? h))
    obtain ⟨hlt, hget, -⟩ := List.idxOf?_eq_some_iff.1 hq
    have hsame : q = p :=
      (List.getElem?_inj hlt hs.nodup).1 ((List.getElem?_eq_some_iff.2 ⟨hlt, hget⟩).trans h.symm)
    exact hsame ▸ hq

end Members

theorem last?_eq_before? : s.last? = s.before? s.length := by
  unfold last? before? length
  cases h : s.order.size <;> simp [Array.back?, h]

/-- Both walks come to an end, in as many steps as there are members: the one along the next links
passes the members in their order, the one along the previous links in the opposite order, and no
other bound gives a different answer. The position of a member is where it stands. -/
theorem walks_enumerate (hs : s.Reachable) :
    s.Walk (·.next) s.first? s.order.toList
      ∧ s.Walk (·.previous) s.last? s.order.toList.reverse
      ∧ s.order.toList.length = s.length
      ∧ (∀ fuel, s.follow (·.next) fuel s.first? = s.order.toList.take fuel
        ∧ s.follow (·.previous) fuel s.last? = s.order.toList.reverse.take fuel)
      ∧ s.walkForward = s.order.toList
      ∧ s.walkBackward = s.order.toList.reverse
      ∧ ∀ id p, s.positionOf? id = some p ↔ s.get? p = some id := by
  have hc : s.Consistent := hs.consistent
  have hlength : s.order.toList.length = s.length := by simp [length]
  have hforward : s.Walk (·.next) s.first? s.order.toList := hc.walk_next List.drop_zero
  have hbackward : s.Walk (·.previous) s.last? s.order.toList.reverse := by
    have hwalk := hc.walk_previous (Nat.le_refl s.length)
    rwa [List.take_of_length_le (Nat.le_of_eq hlength), ← last?_eq_before?] at hwalk
  refine ⟨hforward, hbackward, hlength, fun fuel => ⟨hforward.follow_eq fuel,
    hbackward.follow_eq fuel⟩, ?_, ?_, fun id p => hc.positionOf?_eq_some_iff⟩
  · rw [walkForward, hforward.follow_eq, List.take_of_length_le (hlength ▸ hc.length_le)]
  · rw [walkBackward, hbackward.follow_eq, List.take_of_length_le]
    rw [List.length_reverse, hlength]
    exact hc.length_le

/-- Of three instructions the last has gone to the front, and the second is taken out. -/
theorem walks_enumerate_moved :
    ∃ s : Sequence, s.Reachable ∧ s.nodes.size = 3 ∧ s.walkForward = [⟨2⟩, ⟨0⟩]
      ∧ s.Walk (·.previous) s.last? [⟨0⟩, ⟨2⟩] ∧ s.positionOf? ⟨0⟩ = some 1
      ∧ ∀ p, s.positionOf? ⟨1⟩ ≠ some p := by
  obtain ⟨s, hs, hsize, horder⟩ : ∃ s : Sequence, s.Reachable ∧ s.nodes.size = 3
      ∧ s.order = #[⟨2⟩, ⟨0⟩] :=
    ⟨_, ⟨[.edit (.emit ⟨"nop", 0, .inlineNone⟩ .none), .edit (.emit ⟨"nop", 0, .inlineNone⟩ .none),
      .edit (.emit ⟨"nop", 0, .inlineNone⟩ .none), .edit (.remove 2), .edit (.insert 0 ⟨2⟩),
      .edit (.removeTarget ⟨1⟩)], rfl⟩, by decide +kernel, by decide +kernel⟩
  obtain ⟨-, hbackward, -, -, hforward, -, hposition⟩ := walks_enumerate hs
  rw [horder] at hforward hbackward
  refine ⟨s, hs, hsize, hforward, hbackward, (hposition _ _).2 (by rw [get?, horder]; rfl),
    fun p h => ?_⟩
  have hmem : (⟨1⟩ : InstructionId) ∈ s.order := mem_order_iff.2 ⟨p, (hposition _ _).1 h⟩
  simp [horder] at hmem

end CilMethod.Sequence
