import CilMethod.Proofs.Contents

/-!
# Sequences that differ in their layout

What the last layout wrote, the index and the offset of each instruction, is the only part of a
consistent sequence that its contents do not determine: sequences with the same contents and the
same suppression flag are the same but for their layout (`Consistent.sameButLayout`), and the same
altogether if the layout is, too (`SameButLayout.eq_of_spot?`). Laying both out makes their members
the same, so only what is no longer a member can show when a sequence was laid out before
(`SameButLayout.laidOut`).

A layout reads the order and the sizes alone. So it repairs links, indices and offsets whatever was
there (`placed_laidOut`), and there is nothing left for a second one to do (`laidOut_laidOut`).
-/

namespace CilMethod

/-- An instruction without what the last layout wrote. -/
def Instruction.unplaced (i : Instruction) : Instruction := { i with index := 0, offset := 0 }

theorem Instruction.eq_of_unplaced {i j : Instruction} (h : i.unplaced = j.unplaced)
    (hindex : i.index = j.index) (hoffset : i.offset = j.offset) : i = j := by
  simp only [unplaced, mk.injEq] at h
  cases i
  cases j
  simp_all

namespace Sequence

/-- Where the last layout put an instruction: its index and its offset. -/
def spot? (s : Sequence) (id : InstructionId) : Option (Nat × Nat) :=
  (s.node? id).map fun i => (i.index, i.offset)

/-- The same sequences, but for where the last layout put their instructions. -/
structure SameButLayout (s t : Sequence) : Prop where
  order : s.order = t.order
  branches : s.branches = t.branches
  suppressed : s.suppressed = t.suppressed
  node : ∀ id, (s.node? id).map Instruction.unplaced = (t.node? id).map Instruction.unplaced

/-- The same sequences, but for where the last layout put instructions that are not members. -/
structure SameButStale (s t : Sequence) : Prop extends SameButLayout s t where
  member : ∀ id ∈ s.order, s.node? id = t.node? id

/-- The same sequences, but for where the last layout put their members. -/
structure SameButPlaced (s t : Sequence) : Prop extends SameButLayout s t where
  outside : ∀ id, id ∉ s.order → s.node? id = t.node? id

variable {s t : Sequence} {id : InstructionId}

theorem get?_eq_of_order (h : s.order = t.order) (position : Nat) :
    s.get? position = t.get? position := by
  rw [get?, get?, h]

theorem before?_eq_of_order (h : s.order = t.order) (position : Nat) :
    s.before? position = t.before? position := by
  cases position with
  | zero => rfl
  | succ position => exact get?_eq_of_order h position

section Contents

theorem code?_eq_of_contents (h : s.contents = t.contents) (id : InstructionId) :
    s.code? id = t.code? id := by
  obtain ⟨n⟩ := id
  rw [← getElem?_arena, ← getElem?_arena, h]

theorem order_eq_of_contents (h : s.contents = t.contents) : s.order = t.order :=
  Array.toList_inj.1 (congrArg Contents.members h)

/-- The links of an instruction are those that the order gives it, and none outside the order. -/
theorem Consistent.links_eq (hs : s.Consistent) (ht : t.Consistent) (horder : s.order = t.order)
    {i j : Instruction} (hi : s.node? id = some i) (hj : t.node? id = some j) :
    i.previous = j.previous ∧ i.next = j.next := by
  by_cases hid : id ∈ s.order
  · obtain ⟨p, hp⟩ := mem_order_iff.1 hid
    obtain ⟨hprevious, hnext⟩ := hs.linked hp hi
    obtain ⟨hprevious', hnext'⟩ := ht.linked (get?_eq_of_order horder p ▸ hp) hj
    rw [hprevious, hprevious', hnext, hnext', before?_eq_of_order horder, get?_eq_of_order horder]
    exact ⟨rfl, rfl⟩
  · have hout : i.isMember = false := eq_false_of_ne_true fun h => hid ((hs.isMember_iff hi).1 h)
    have hout' : j.isMember = false :=
      eq_false_of_ne_true fun h => hid (horder ▸ (ht.isMember_iff hj).1 h)
    obtain ⟨hprevious, hnext⟩ := hs.unlinked hi hout
    obtain ⟨hprevious', hnext'⟩ := ht.unlinked hj hout'
    rw [hprevious, hprevious', hnext, hnext']
    exact ⟨rfl, rfl⟩

/-- All but the layout of a consistent sequence follows from its contents. -/
theorem Consistent.sameButLayout (hs : s.Consistent) (ht : t.Consistent)
    (hcontents : s.contents = t.contents) (hsuppressed : s.suppressed = t.suppressed) :
    s.SameButLayout t := by
  have horder := order_eq_of_contents hcontents
  have hcode := code?_eq_of_contents hcontents
  refine ⟨horder, Std.ExtTreeSet.ext_mem fun {id} => ?_, hsuppressed, fun id => ?_⟩
  · rw [hs.mem_branches, ht.mem_branches, exists_isTargetBearing_iff, exists_isTargetBearing_iff,
      hcode, horder]
  · have hsame := hcode id
    unfold code? at hsame
    cases hi : s.node? id with
    | none =>
      rw [hi, eq_comm, Option.map_none, Option.map_eq_none_iff] at hsame
      rw [hsame]
    | some i =>
      rw [hi, eq_comm, Option.map_some, Option.map_eq_some_iff] at hsame
      obtain ⟨j, hj, heq⟩ := hsame
      obtain ⟨hopcode, hoperand⟩ := Prod.mk.inj heq
      obtain ⟨hprevious, hnext⟩ := hs.links_eq ht horder hi hj
      have hmember : i.isMember = j.isMember := by
        rw [Bool.eq_iff_iff, hs.isMember_iff hi, ht.isMember_iff hj, horder]
      rw [hj, Option.map_some, Option.map_some, Instruction.unplaced, Instruction.unplaced,
        hopcode, hoperand, hprevious, hnext, hmember]

theorem Consistent.sameButPlaced_laidOut (hs : s.Consistent) : s.SameButPlaced s.laidOut where
  toSameButLayout := hs.sameButLayout hs.laidOut (contents_laidOut hs.nodup).symm rfl
  outside _ hid := (node?_laidOut_of_notMem hid).symm

end Contents

namespace SameButLayout

theorem refl (s : Sequence) : s.SameButLayout s := ⟨rfl, rfl, rfl, fun _ => rfl⟩

theorem code?_eq (h : s.SameButLayout t) (id : InstructionId) : s.code? id = t.code? id := by
  have hcode : ∀ u : Sequence, u.code? id =
      ((u.node? id).map Instruction.unplaced).map fun i => (i.opcode, i.operand) := by
    intro u
    rw [Option.map_map]
    rfl
  rw [hcode, hcode, h.node]

theorem sizeBefore_eq (h : s.SameButLayout t) (position : Nat) :
    s.sizeBefore position = t.sizeBefore position := by
  have hsize : ∀ k, sizeIn s.nodes k = sizeIn t.nodes k := fun k => by
    rw [sizeIn_eq, sizeIn_eq, h.code?_eq]
  rw [sizeBefore, sizeBefore, h.order, List.map_congr_left fun k _ => hsize k]

theorem eq_of_spot? (h : s.SameButLayout t) (hspot : ∀ id, s.spot? id = t.spot? id) : s = t := by
  have hnode : ∀ id, s.node? id = t.node? id := by
    intro id
    have hrest := h.node id
    have hplace := hspot id
    unfold spot? at hplace
    cases hi : s.node? id with
    | none =>
      rw [hi, eq_comm, Option.map_none, Option.map_eq_none_iff] at hrest
      exact hrest.symm
    | some i =>
      rw [hi, eq_comm, Option.map_some, Option.map_eq_some_iff] at hrest
      obtain ⟨j, hj, heq⟩ := hrest
      rw [hi, hj] at hplace
      obtain ⟨hindex, hoffset⟩ := Prod.mk.inj (Option.some.inj hplace)
      rw [hj, Instruction.eq_of_unplaced heq.symm hindex hoffset]
  have hsize : s.nodes.size = t.nodes.size := by
    have hnone : ∀ n, s.nodes.size ≤ n ↔ t.nodes.size ≤ n := fun n => by
      rw [← node?_eq_none_iff s ⟨n⟩, ← node?_eq_none_iff t ⟨n⟩, hnode]
    exact Nat.le_antisymm ((hnone _).2 (Nat.le_refl _)) ((hnone _).1 (Nat.le_refl _))
  exact ext_node? hsize hnode h.order (fun id => by rw [h.branches]) h.suppressed

/-- The layout depends on order and sizes only, so it makes the members the same. -/
theorem laidOut (h : s.SameButLayout t) (hnodup : s.order.toList.Nodup) :
    s.laidOut.SameButStale t.laidOut := by
  have hmember : ∀ id ∈ s.order, s.laidOut.node? id = t.laidOut.node? id := by
    intro id hid
    obtain ⟨p, hp⟩ := mem_order_iff.1 hid
    have hp' : t.get? p = some id := get?_eq_of_order h.order p ▸ hp
    rw [node?_laidOut hnodup hp, node?_laidOut (h.order ▸ hnodup) hp', get?_eq_of_order h.order,
      before?_eq_of_order h.order, h.sizeBefore_eq]
    -- the layout overwrites all that `unplaced` forgets
    have hrest : ∀ (u : Sequence) (index offset : Nat) (previous next : Option InstructionId),
        ((u.node? id).map fun i => { i with index, offset, previous, next }) =
          ((u.node? id).map Instruction.unplaced).map fun i =>
            { i with index, offset, previous, next } := by
      intro u index offset previous next
      rw [Option.map_map]
      rfl
    rw [hrest s, hrest t, h.node]
  refine ⟨⟨h.order, h.branches, h.suppressed, fun id => ?_⟩, hmember⟩
  by_cases hid : id ∈ s.order
  · rw [hmember id hid]
  · rw [node?_laidOut_of_notMem hid, node?_laidOut_of_notMem (h.order ▸ hid), h.node]

end SameButLayout

section Recompute

/-- The neighbours that an instruction is linked with. -/
def links? (s : Sequence) (id : InstructionId) :
    Option (Option InstructionId × Option InstructionId) :=
  (s.node? id).map fun i => (i.previous, i.next)

/-- `t` is `s` with its members laid out: each stands at its position, behind the sizes of those
before it and between its neighbours, and nothing else has changed. -/
structure Placed (s t : Sequence) : Prop where
  order : t.order = s.order
  branches : t.branches = s.branches
  suppressed : t.suppressed = s.suppressed
  size : t.nodes.size = s.nodes.size
  member : ∀ {position : Nat} {id : InstructionId}, s.get? position = some id →
    ∃ i, s.node? id = some i ∧ t.node? id = some { i with
      index := position
      offset := s.sizeBefore position
      previous := s.before? position
      next := s.get? (position + 1) }
  outside : ∀ {id : InstructionId}, id ∉ s.order → t.node? id = s.node? id

theorem placed_laidOut (hnodup : s.order.toList.Nodup)
    (hnodes : ∀ id ∈ s.order, id.index < s.nodes.size) : s.Placed s.laidOut where
  order := rfl
  branches := rfl
  suppressed := rfl
  size := size_layoutFrom ..
  member {position id} hid := by
    obtain ⟨i, hi⟩ : ∃ i, s.node? id = some i :=
      ⟨_, Array.getElem?_eq_getElem (hnodes id (mem_order_iff.2 ⟨position, hid⟩))⟩
    refine ⟨i, hi, ?_⟩
    rw [node?_laidOut hnodup hid, hi]
    rfl
  outside hid := node?_laidOut_of_notMem hid

theorem Placed.offset_lt (h : s.Placed t) {p q : Nat} {k : InstructionId} (hpq : p < q)
    (hp : s.get? p = some id) (hq : s.get? q = some k) : t.offsetOf id < t.offsetOf k := by
  obtain ⟨i, hi, hid⟩ := h.member hp
  obtain ⟨j, -, hk⟩ := h.member hq
  rw [offsetOf, offsetOf, hid, hk]
  exact sizeBefore_lt hp hi hpq

theorem SameButLayout.links?_eq (h : s.SameButLayout t) (id : InstructionId) :
    s.links? id = t.links? id := by
  have hlinks : ∀ u : Sequence, u.links? id =
      ((u.node? id).map Instruction.unplaced).map fun i => (i.previous, i.next) := by
    intro u
    rw [Option.map_map]
    rfl
  rw [hlinks, hlinks, h.node]

theorem Consistent.links?_recompute (hs : s.Consistent) (id : InstructionId) :
    s.recompute.2.links? id = s.links? id := by
  cases h : s.suppressed with
  | true => rw [recompute_of_suppressed s h]
  | false =>
    rw [recompute_eq s h]
    exact (hs.sameButPlaced_laidOut.links?_eq id).symm

/-- Whatever stands in the links, the indices and the offsets, a recompute that is not suppressed
lays the members out and answers their size, and doing it again changes nothing. The links that
edits make are right already. -/
theorem recompute_heals (hnodup : s.order.toList.Nodup)
    (hnodes : ∀ id ∈ s.order, id.index < s.nodes.size) :
    (s.suppressed = false → ∃ t, s.recompute = (some s.codeSize, t) ∧ s.Placed t
      ∧ (∀ p q id k, p < q → s.get? p = some id → s.get? q = some k →
        t.offsetOf id < t.offsetOf k)
      ∧ t.recompute = (some s.codeSize, t))
    ∧ (s.suppressed = true → s.recompute = (none, s))
    ∧ (s.Reachable → ∀ id, s.recompute.2.links? id = s.links? id) := by
  refine ⟨fun h => ?_, recompute_of_suppressed s, fun hs => hs.consistent.links?_recompute⟩
  have hplaced := placed_laidOut hnodup hnodes
  refine ⟨s.laidOut, recompute_eq s h, hplaced, fun p q id k => hplaced.offset_lt, ?_⟩
  rw [recompute_eq s.laidOut h, codeSize_laidOut hnodup, laidOut_laidOut hnodup]

/-- The second of two members is linked with itself and has another's index and offset. -/
theorem recompute_heals_loop : ∃ s t : Sequence, s.order.toList.Nodup
    ∧ (∀ id ∈ s.order, id.index < s.nodes.size)
    ∧ s.links? ⟨0⟩ = some (some ⟨0⟩, none) ∧ s.spot? ⟨0⟩ = some (7, 9)
    ∧ s.recompute = (some 6, t) ∧ t.links? ⟨0⟩ = some (some ⟨1⟩, none) ∧ t.spot? ⟨0⟩ = some (1, 5)
    ∧ t.offsetOf ⟨1⟩ < t.offsetOf ⟨0⟩ ∧ t.recompute = (some 6, t) := by
  obtain ⟨s, hnodup, hnodes, hon, hsize, hfirst, hsecond, hlinks, hspot, hlinks', hspot'⟩ :
      ∃ s : Sequence, s.order.toList.Nodup ∧ (∀ id ∈ s.order, id.index < s.nodes.size)
        ∧ s.suppressed = false ∧ s.codeSize = 6 ∧ s.get? 0 = some ⟨1⟩ ∧ s.get? 1 = some ⟨0⟩
        ∧ s.links? ⟨0⟩ = some (some ⟨0⟩, none) ∧ s.spot? ⟨0⟩ = some (7, 9)
        ∧ s.recompute.2.links? ⟨0⟩ = some (some ⟨1⟩, none)
        ∧ s.recompute.2.spot? ⟨0⟩ = some (1, 5) :=
    ⟨{ nodes := #[
        { opcode := ⟨"nop", 0, .inlineNone⟩, operand := .none, index := 7, offset := 9
          previous := some ⟨0⟩, isMember := true },
        { opcode := ⟨"ldc.i4", 0x20, .inlineI⟩, operand := .int32 0, isMember := true }]
       order := #[⟨1⟩, ⟨0⟩] },
      by decide, by simp, rfl, rfl, rfl, rfl, rfl, rfl, rfl, rfl⟩
  obtain ⟨t, hrun, -, hlt, hagain⟩ := (recompute_heals hnodup hnodes).1 hon
  rw [hrun] at hlinks' hspot'
  rw [hsize] at hrun hagain
  exact ⟨s, t, hnodup, hnodes, hlinks, hspot, hrun, hlinks', hspot',
    hlt 0 1 ⟨1⟩ ⟨0⟩ Nat.zero_lt_one hfirst hsecond, hagain⟩

end Recompute

end Sequence

end CilMethod
