import CilMethod.Proofs.Changes
import CilMethod.Proofs.Recompute

/-!
# Consistency of a sequence

A sequence keeps the same things more than once: who is a member stands in the order and with each
instruction, who follows whom stands in the order and in the links, and the branches could be found
by a search through the members. `Consistent` says that all of these agree, and that every operand
is one that its opcode takes.

Each elementary change keeps this. For the links, a member that stays is found by its position: its
neighbours change only if the instruction that comes or goes stands next to it, and the links are
repaired exactly then (`linked_inserted`, `linked_removed`). So every script that starts from the
empty sequence leads to a consistent one.
-/

namespace CilMethod.Sequence

structure Consistent (s : Sequence) : Prop where
  nodup : s.order.toList.Nodup
  exists_node : ∀ {id : InstructionId}, id ∈ s.order → ∃ i, s.node? id = some i
  isMember_iff : ∀ {id : InstructionId} {i : Instruction}, s.node? id = some i →
    (i.isMember = true ↔ id ∈ s.order)
  linked : ∀ {position : Nat} {id : InstructionId} {i : Instruction},
    s.get? position = some id → s.node? id = some i →
    i.previous = s.before? position ∧ i.next = s.get? (position + 1)
  unlinked : ∀ {id : InstructionId} {i : Instruction}, s.node? id = some i → i.isMember = false →
    i.previous = none ∧ i.next = none
  mem_branches : ∀ {id : InstructionId}, id ∈ s.branches ↔
    id ∈ s.order ∧ ∃ i, s.node? id = some i ∧ i.isTargetBearing = true
  fits : ∀ {id : InstructionId} {i : Instruction}, s.node? id = some i →
    i.operand.fits i.opcode.operandType = true

/-- Opcode and operand of each member, in order. -/
def codes (s : Sequence) : List (Opcode × Operand) :=
  s.members.map fun m => (m.2.opcode, m.2.operand)

variable {s : Sequence} {position : Nat} {id k : InstructionId} {i : Instruction}

theorem mem_order_iff : id ∈ s.order ↔ ∃ position, s.get? position = some id :=
  Array.mem_iff_getElem?

theorem mk_mem_members : (id, i) ∈ s.members ↔ id ∈ s.order ∧ s.node? id = some i := by
  simp only [members, List.mem_filterMap, Option.map_eq_some_iff, Prod.mk.injEq,
    Array.mem_toList_iff]
  constructor
  · rintro ⟨k, hk, j, hj, rfl, rfl⟩
    exact ⟨hk, hj⟩
  · rintro ⟨hid, hi⟩
    exact ⟨id, hid, i, hi, rfl, rfl⟩

/-- An instruction outside the order is nobody's neighbour. -/
theorem not_neighbour (hid : id ∉ s.order) (p : Nat) :
    s.before? p ≠ some id ∧ s.get? p ≠ some id := by
  refine ⟨fun hp => ?_, fun hp => hid (mem_order_iff.2 ⟨p, hp⟩)⟩
  cases p with
  | zero => simp [before?] at hp
  | succ p => exact hid (mem_order_iff.2 ⟨p, hp⟩)

namespace Consistent

theorem empty : Consistent empty where
  nodup := List.nodup_nil
  exists_node h := by simp [Sequence.empty] at h
  isMember_iff h := by simp [node?, Sequence.empty] at h
  linked h := by simp [get?, Sequence.empty] at h
  unlinked h := by simp [node?, Sequence.empty] at h
  mem_branches := by simp [Sequence.empty]
  fits h := by simp [node?, Sequence.empty] at h

theorem get?_eq_some_iff (h : s.Consistent) {p q : Nat} (hq : s.get? q = some id) :
    s.get? p = some id ↔ p = q := by
  refine ⟨fun hp => ?_, fun hpq => hpq ▸ hq⟩
  rw [get?_eq_toList] at hp hq
  obtain ⟨hlt, -⟩ := List.getElem?_eq_some_iff.1 hp
  exact (List.getElem?_inj hlt h.nodup).1 (hp.trans hq.symm)

theorem before?_eq_some_iff (h : s.Consistent) {p q : Nat} (hq : s.get? q = some id) :
    s.before? p = some id ↔ p = q + 1 := by
  cases p with
  | zero => simp [before?]
  | succ p => rw [before?_succ, h.get?_eq_some_iff hq, Nat.add_right_cancel_iff]

theorem contains_iff (h : s.Consistent) : s.contains id = true ↔ id ∈ s.order := by
  unfold contains
  cases hid : s.node? id with
  | none =>
    have hno : id ∉ s.order := fun hmem => by
      obtain ⟨i, hi⟩ := h.exists_node hmem
      rw [hid] at hi
      cases hi
    simp [hno]
  | some i => simpa using h.isMember_iff hid

theorem fits_of_code? (h : s.Consistent) {c : Opcode × Operand} (hc : s.code? id = some c) :
    c.2.fits c.1.operandType = true := by
  obtain ⟨i, hi, rfl⟩ := Option.map_eq_some_iff.1 hc
  exact h.fits hi

theorem getElem?_members (h : s.Consistent) (n : Nat) :
    s.members[n]? = (s.get? n).bind fun id => (s.node? id).map (id, ·) := by
  rw [members, get?_eq_toList]
  refine getElem?_filterMap (fun id hid => ?_) n
  obtain ⟨i, hi⟩ := h.exists_node (by simpa using hid)
  exact ⟨(id, i), by rw [hi]; rfl⟩

theorem getElem?_codes (h : s.Consistent) (n : Nat) :
    s.codes[n]? = (s.get? n).bind s.code? := by
  rw [codes, List.getElem?_map, h.getElem?_members]
  cases s.get? n with
  | none => rfl
  | some id =>
    change ((s.node? id).map (id, ·)).map (fun m => (m.2.opcode, m.2.operand)) = s.code? id
    rw [code?]
    cases s.node? id <;> rfl

theorem fits_members (h : s.Consistent) :
    ∀ m ∈ s.members, m.2.operand.fits m.2.opcode.operandType = true := by
  intro m hm
  exact h.fits (mk_mem_members.1 hm).2

theorem map_size_members (h : s.Consistent) :
    s.members.map (·.2.size) = s.order.toList.map (sizeIn s.nodes) := by
  refine List.ext_getElem? fun n => ?_
  rw [List.getElem?_map, List.getElem?_map, h.getElem?_members, ← get?_eq_toList]
  cases hid : s.get? n with
  | none => rfl
  | some id =>
    obtain ⟨i, hi⟩ := h.exists_node (mem_order_iff.2 ⟨n, hid⟩)
    change ((s.node? id).map (id, ·)).map (·.2.size) = some ((s.node? id).elim 0 Instruction.size)
    rw [hi]
    rfl

/-- What can be placed is there and is no member. -/
theorem notMem_of_placeFault? (h : s.Consistent) (hid : s.placeFault? id = none) :
    (∃ i, s.node? id = some i) ∧ id ∉ s.order := by
  obtain ⟨i, hi, hm⟩ := placeFault?_eq_none hid
  refine ⟨⟨i, hi⟩, fun hmem => ?_⟩
  rw [(h.isMember_iff hi).2 hmem] at hm
  cases hm

end Consistent

section Insert

theorem get?_inserted (hposition : position ≤ s.length) (q : Nat) :
    (s.inserted position id).get? q =
      if q < position then s.get? q else if q = position then some id else s.get? (q - 1) := by
  have hlen : s.order.toList.length = s.length := by simp [length]
  simp only [get?_eq_toList, toList_inserted, List.getElem?_insertIdx, hlen]
  split_ifs <;> first | rfl | omega

theorem before?_inserted (hposition : position ≤ s.length) (q : Nat) :
    (s.inserted position id).before? q =
      if q ≤ position then s.before? q
      else if q = position + 1 then some id else s.before? (q - 1) := by
  cases q with
  | zero => simp [before?]
  | succ q =>
    rw [before?_succ, get?_inserted hposition]
    cases q <;> grind [before?_succ]

theorem mem_inserted (hposition : position ≤ s.length) :
    k ∈ (s.inserted position id).order ↔ k = id ∨ k ∈ s.order := by
  have hlen : s.order.toList.length = s.length := by simp [length]
  rw [← Array.mem_toList_iff, ← Array.mem_toList_iff, toList_inserted,
    List.mem_insertIdx (hlen ▸ hposition)]

/-- Seen from its old position, a member gets a new neighbour exactly if the position of the new
instruction is next to it. -/
theorem Consistent.linked_inserted (hs : s.Consistent) (hposition : position ≤ s.length)
    (hid : id ∉ s.order) {q : Nat} (hq : (s.inserted position id).get? q = some k)
    (hk : (s.inserted position id).node? k = some i) :
    i.previous = (s.inserted position id).before? q
      ∧ i.next = (s.inserted position id).get? (q + 1) := by
  rw [inserted, node?_place] at hk
  obtain ⟨j, hj, rfl⟩ := Option.map_eq_some_iff.1 hk
  rw [get?_inserted hposition] at hq
  rw [before?_inserted hposition, get?_inserted hposition]
  have hne : ∀ r, s.get? r = some k → k ≠ id := fun r hr h => hid (h ▸ mem_order_iff.2 ⟨r, hr⟩)
  split_ifs at hq with h1 h2
  · obtain ⟨hprevious, hnext⟩ := hs.linked hq hj
    simp only [hne q hq, if_false, hs.get?_eq_some_iff hq, hs.before?_eq_some_iff hq, hprevious,
      hnext]
    grind
  · cases hq
    grind
  · obtain ⟨hprevious, hnext⟩ := hs.linked hq hj
    simp only [hne _ hq, if_false, hs.get?_eq_some_iff hq, hs.before?_eq_some_iff hq, hprevious,
      hnext]
    grind

theorem Consistent.inserted (hs : s.Consistent) (hposition : position ≤ s.length)
    (hid : s.placeFault? id = none) : (s.inserted position id).Consistent := by
  obtain ⟨⟨j, hj⟩, hno⟩ := hs.notMem_of_placeFault? hid
  refine ⟨?_, ?_, ?_, hs.linked_inserted hposition hno, ?_, ?_, ?_⟩
  · rw [toList_inserted]
    exact nodup_insertIdx (by simpa [length] using hposition) hs.nodup (by simpa using hno)
  · intro k hk
    rw [exists_node?_iff, code?_inserted, ← exists_node?_iff]
    rcases (mem_inserted hposition).1 hk with rfl | hk
    · exact ⟨j, hj⟩
    · exact hs.exists_node hk
  · intro k i hk
    rw [Sequence.inserted, node?_place] at hk
    obtain ⟨l, hl, rfl⟩ := Option.map_eq_some_iff.1 hk
    rw [mem_inserted hposition]
    by_cases h : k = id
    · simp [h]
    · simp [h, hs.isMember_iff hl]
  · intro k i hk hm
    rw [Sequence.inserted, node?_place] at hk
    obtain ⟨l, hl, rfl⟩ := Option.map_eq_some_iff.1 hk
    by_cases h : k = id
    · simp [h] at hm
    · simp only [h, if_false] at hm ⊢
      have hk : k ∉ s.order := fun hk => by simp [(hs.isMember_iff hl).2 hk] at hm
      obtain ⟨hprevious, hnext⟩ := not_neighbour hk position
      rw [if_neg hnext, if_neg hprevious]
      exact hs.unlinked hl hm
  · intro k
    rw [Sequence.inserted, mem_place (h := hj), ← Sequence.inserted, mem_inserted hposition,
      exists_isTargetBearing_iff, code?_inserted, ← exists_isTargetBearing_iff]
    -- what is not a member was not listed
    have hlisted : id ∉ s.branches := fun h => hno (hs.mem_branches.1 h).1
    by_cases h : k = id
    · subst h
      simp [hj, hlisted]
    · simp [h, hs.mem_branches]
  · intro k i hk
    exact hs.fits_of_code? (c := (i.opcode, i.operand)) (by rw [← code?_inserted, code?, hk]; rfl)

end Insert

section Remove

variable {old : InstructionId}

/-- Only the position that is taken out is lost. -/
theorem Consistent.mem_removed (hs : s.Consistent) (hold : s.get? position = some old) :
    k ∈ (s.removed position old).order ↔ k ≠ old ∧ k ∈ s.order := by
  simp only [mem_order_iff, get?_removed]
  constructor
  · rintro ⟨q, hq⟩
    split_ifs at hq with h
    · exact ⟨fun hk => absurd ((hs.get?_eq_some_iff hold).1 (hk ▸ hq)) (by omega), q, hq⟩
    · exact ⟨fun hk => absurd ((hs.get?_eq_some_iff hold).1 (hk ▸ hq)) (by omega), q + 1, hq⟩
  · rintro ⟨hne, q, hq⟩
    rcases Nat.lt_trichotomy q position with h | rfl | h
    · exact ⟨q, by rw [if_pos h, hq]⟩
    · rw [hold] at hq
      exact absurd (Option.some.inj hq).symm hne
    · exact ⟨q - 1, by rw [if_neg (by omega), Nat.sub_add_cancel (by omega), hq]⟩

/-- What is taken out can be put back. -/
theorem Consistent.placeFault?_removed_self (hs : s.Consistent)
    (hold : s.get? position = some old) : (s.removed position old).placeFault? old = none := by
  obtain ⟨i, hi⟩ := hs.exists_node (mem_order_iff.2 ⟨position, hold⟩)
  rw [placeFault?, removed_eq, node?_takeOut, node?_struck, hi]
  simp

/-- Seen from its old position, a member gets a new neighbour exactly if the instruction that is
taken out was next to it. -/
theorem Consistent.linked_removed (hs : s.Consistent) (hold : s.get? position = some old) {q : Nat}
    (hq : (s.removed position old).get? q = some k)
    (hk : (s.removed position old).node? k = some i) :
    i.previous = (s.removed position old).before? q
      ∧ i.next = (s.removed position old).get? (q + 1) := by
  have hne : k ≠ old := ((hs.mem_removed hold).1 (mem_order_iff.2 ⟨q, hq⟩)).1
  rw [removed_eq, node?_takeOut, node?_struck] at hk
  obtain ⟨j, hj, rfl⟩ := Option.map_eq_some_iff.1 hk
  rw [get?_removed] at hq
  rw [before?_removed, get?_removed]
  split_ifs at hq with h
  · obtain ⟨hprevious, hnext⟩ := hs.linked hq hj
    simp only [hne, if_false, hs.get?_eq_some_iff hq, hs.before?_eq_some_iff hq, hprevious, hnext]
    grind
  · obtain ⟨hprevious, hnext⟩ := hs.linked hq hj
    simp only [hne, if_false, hs.get?_eq_some_iff hq, hs.before?_eq_some_iff hq, hprevious, hnext]
    grind

theorem Consistent.removed (hs : s.Consistent) (hold : s.get? position = some old) :
    (s.removed position old).Consistent := by
  refine ⟨?_, ?_, ?_, hs.linked_removed hold, ?_, ?_, ?_⟩
  · rw [toList_removed]
    exact hs.nodup.eraseIdx position
  · intro k hk
    rw [exists_node?_iff, code?_removed, ← exists_node?_iff]
    exact hs.exists_node ((hs.mem_removed hold).1 hk).2
  · intro k i hk
    rw [removed_eq, node?_takeOut, node?_struck] at hk
    obtain ⟨l, hl, rfl⟩ := Option.map_eq_some_iff.1 hk
    rw [hs.mem_removed hold]
    by_cases h : k = old
    · simp [h]
    · simp [h, hs.isMember_iff hl]
  · intro k i hk hm
    rw [removed_eq, node?_takeOut, node?_struck] at hk
    obtain ⟨l, hl, rfl⟩ := Option.map_eq_some_iff.1 hk
    by_cases h : k = old
    · simp [h]
    · simp only [h, if_false] at hm ⊢
      have hk : k ∉ s.order := fun hk => by simp [(hs.isMember_iff hl).2 hk] at hm
      rw [if_neg (not_neighbour hk (position + 1)).2, if_neg (not_neighbour hk position).1]
      exact hs.unlinked hl hm
  · intro k
    rw [exists_isTargetBearing_iff, code?_removed, ← exists_isTargetBearing_iff,
      hs.mem_removed hold, and_assoc, ← hs.mem_branches, removed_eq, mem_takeOut]
    rfl
  · intro k i hk
    exact hs.fits_of_code? (c := (i.opcode, i.operand)) (by rw [← code?_removed, code?, hk]; rfl)

end Remove

section Create

variable {opcode : Opcode} {operand : Operand}

theorem Consistent.created (hs : s.Consistent)
    (hfits : operand.fits opcode.operandType = true) : (s.created opcode operand).Consistent := by
  have hnode : ∀ {k i}, (s.created opcode operand).node? k = some i →
      (k.index = s.nodes.size ∧ i = { opcode, operand }) ∨ s.node? k = some i := by
    intro k i hk
    rw [Sequence.created, node?_push] at hk
    split_ifs at hk with h
    · exact .inl ⟨h, (Option.some.inj hk).symm⟩
    · exact .inr hk
  have hnew : ∀ {k : InstructionId}, k.index = s.nodes.size → k ∉ s.order := by
    intro k hk hmem
    obtain ⟨i, hi⟩ := hs.exists_node hmem
    simp [node?, hk] at hi
  refine ⟨hs.nodup, ?_, ?_, ?_, ?_, ?_, ?_⟩
  · intro k hk
    obtain ⟨i, hi⟩ := hs.exists_node hk
    exact ⟨i, by rw [Sequence.created, node?_push, if_neg fun h => hnew h hk, hi]⟩
  · intro k i hk
    rcases hnode hk with ⟨h, rfl⟩ | hk
    · exact ⟨fun h => by simp at h, fun hmem => absurd hmem (hnew h)⟩
    · exact hs.isMember_iff hk
  · intro q k i hq hk
    rcases hnode hk with ⟨h, rfl⟩ | hk
    · exact absurd (mem_order_iff.2 ⟨q, hq⟩) (hnew h)
    · exact hs.linked hq hk
  · intro k i hk hm
    rcases hnode hk with ⟨h, rfl⟩ | hk
    · exact ⟨rfl, rfl⟩
    · exact hs.unlinked hk hm
  · intro k
    refine hs.mem_branches.trans (and_congr_right fun hk => ?_)
    rw [Sequence.created, node?_push, if_neg fun h => hnew h hk]
  · intro k i hk
    rcases hnode hk with ⟨h, rfl⟩ | hk
    · exact hfits
    · exact hs.fits hk

end Create

section Change

variable {opcode : Opcode} {operand : Operand}

@[simp]
theorem order_changed : (s.changed id opcode operand).order = s.order := by
  simp only [changed]
  split_ifs <;> simp

theorem Consistent.mem_changed (hs : s.Consistent) (hid : s.node? id = some i) :
    k ∈ (s.changed id opcode operand).branches ↔
      if k = id then id ∈ s.order ∧ opcode.isTargetBearing = true else k ∈ s.branches := by
  simp only [changed]
  split_ifs with hmem hk hk
  · rw [mem_indexBranch (h := by rw [node?_modifyNode, hid]; rfl), if_pos hk]
    simp [hs.contains_iff.1 hmem, Instruction.isTargetBearing]
  · rw [mem_indexBranch (h := by rw [node?_modifyNode, hid]; rfl), if_neg hk]
    rfl
  · subst hk
    rw [hs.contains_iff] at hmem
    simp [hs.mem_branches, hmem]
  · rfl

theorem Consistent.changed (hs : s.Consistent) (hfits : operand.fits opcode.operandType = true)
    (hid : s.node? id = some i) : (s.changed id opcode operand).Consistent := by
  have hnode : ∀ {k i}, (s.changed id opcode operand).node? k = some i →
      ∃ j, s.node? k = some j ∧ i = if k = id then { j with opcode, operand } else j := by
    intro k i hk
    rw [node?_changed] at hk
    obtain ⟨j, hj, rfl⟩ := Option.map_eq_some_iff.1 hk
    exact ⟨j, hj, rfl⟩
  refine ⟨?_, ?_, ?_, ?_, ?_, ?_, ?_⟩
  · rw [order_changed]
    exact hs.nodup
  · intro k hk
    rw [order_changed] at hk
    obtain ⟨j, hj⟩ := hs.exists_node hk
    exact ⟨_, by rw [node?_changed, hj]; rfl⟩
  · intro k i hk
    obtain ⟨j, hj, rfl⟩ := hnode hk
    rw [order_changed, ← hs.isMember_iff hj]
    split_ifs <;> rfl
  · intro q k i hq hk
    obtain ⟨j, hj, rfl⟩ := hnode hk
    have hq : s.get? q = some k := by simpa [get?] using hq
    have hlinks := hs.linked hq hj
    have hsame : ∀ q, (s.changed id opcode operand).get? q = s.get? q := by simp [get?]
    have hsame' : (s.changed id opcode operand).before? q = s.before? q := by
      cases q <;> simp [before?]
    rw [hsame, hsame']
    split_ifs <;> exact hlinks
  · intro k i hk hm
    obtain ⟨j, hj, rfl⟩ := hnode hk
    have hm : j.isMember = false := by split_ifs at hm <;> exact hm
    have hlinks := hs.unlinked hj hm
    split_ifs <;> exact hlinks
  · intro k
    rw [hs.mem_changed hid, order_changed, exists_isTargetBearing_iff, code?_changed]
    split_ifs with h
    · subst h
      simp [code?, hid]
    · rw [← exists_isTargetBearing_iff]
      exact hs.mem_branches
  · intro k i hk
    obtain ⟨j, hj, rfl⟩ := hnode hk
    split_ifs
    · exact hfits
    · exact hs.fits hj

end Change

section Layout

theorem Consistent.laidOut (hs : s.Consistent) : s.laidOut.Consistent := by
  have hcode := code?_laidOut hs.nodup
  refine ⟨hs.nodup, ?_, ?_, ?_, ?_, ?_, ?_⟩
  · intro k hk
    rw [exists_node?_iff, hcode, ← exists_node?_iff]
    exact hs.exists_node hk
  · intro k i hk
    obtain ⟨j, hj, hm, -⟩ := exists_of_node?_laidOut hs.nodup hk
    rw [hm]
    exact hs.isMember_iff hj
  · intro q k i hq hk
    rw [node?_laidOut hs.nodup hq] at hk
    obtain ⟨j, hj, rfl⟩ := Option.map_eq_some_iff.1 hk
    exact ⟨rfl, rfl⟩
  · intro k i hk hm
    obtain ⟨j, hj, hmem, hsame⟩ := exists_of_node?_laidOut hs.nodup hk
    rw [hmem] at hm
    have hno : k ∉ s.order := fun hk => by simp [(hs.isMember_iff hj).2 hk] at hm
    rw [hsame hno]
    exact hs.unlinked hj hm
  · intro k
    rw [exists_isTargetBearing_iff, hcode, ← exists_isTargetBearing_iff]
    exact hs.mem_branches
  · intro k i hk
    exact hs.fits_of_code? (c := (i.opcode, i.operand)) (by rw [← hcode, code?, hk]; rfl)

theorem Consistent.codes_laidOut (hs : s.Consistent) : s.laidOut.codes = s.codes := by
  refine List.ext_getElem? fun n => ?_
  rw [hs.laidOut.getElem?_codes, hs.getElem?_codes, funext (code?_laidOut hs.nodup)]
  rfl

theorem Consistent.codeSize_laidOut (hs : s.Consistent) : s.laidOut.codeSize = s.codeSize :=
  Sequence.codeSize_laidOut hs.nodup

end Layout

theorem consistent_invariant : Invariant Consistent where
  change := by
    rintro s t (hfits | ⟨hposition, hid⟩ | hold | ⟨hfits, hid⟩) hs
    · exact hs.created hfits
    · exact hs.inserted hposition hid
    · exact hs.removed hold
    · exact hs.changed hfits hid
  recompute := by
    intro s hs
    cases h : s.suppressed with
    | true => rwa [recompute_of_suppressed s h]
    | false =>
      rw [recompute_eq s h]
      exact hs.laidOut
  suppress on hs := ⟨hs.nodup, hs.exists_node, hs.isMember_iff, hs.linked, hs.unlinked,
    hs.mem_branches, hs.fits⟩

theorem Reachable.consistent (hs : s.Reachable) : s.Consistent :=
  consistent_invariant.reachable .empty hs

/-- Whatever is done to an empty sequence, what it keeps more than once agrees. -/
theorem runScript_consistent (steps : List Step) : (empty.runScript steps).2.Consistent :=
  consistent_invariant.runScript steps .empty

end CilMethod.Sequence
