import CilMethod.Proofs.Contents
import Mathlib.Data.List.Sort

/-!
# Targets that are not members

`danglingTargets` goes through the branches only, and asks each instruction whether it is a member.
Going through all members and looking each target up among them gives the same list
(`Consistent.danglingTargets_eq`): a member that is no branch names nothing, because its operand
fits its opcode.

The scan visits the members by their handles, so it depends on who is a member and not on the order
(`dangling_eq_of_mem_iff`). This is why taking an instruction out changes the list by the pairs that
it is part of and no other, and why it can be put back anywhere.
-/

namespace CilMethod

section Ascending

variable {ids l l' : List InstructionId} {id x : InstructionId}

/-- Instructions by ascending handle. -/
def ascending (ids : List InstructionId) : List InstructionId :=
  ids.insertionSort fun a b => a.index ≤ b.index

theorem mem_ascending : id ∈ ascending ids ↔ id ∈ ids := List.mem_insertionSort _

theorem pairwise_ascending (h : ids.Nodup) :
    (ascending ids).Pairwise fun a b => a.index < b.index := by
  have : Std.Total fun a b : InstructionId => a.index ≤ b.index := ⟨fun a b => Nat.le_total ..⟩
  have : IsTrans InstructionId fun a b => a.index ≤ b.index := ⟨fun a b c => Nat.le_trans⟩
  have hle : (ascending ids).Pairwise fun a b => a.index ≤ b.index := List.pairwise_insertionSort ..
  have hne : (ascending ids).Nodup := (List.perm_insertionSort _ ids).nodup_iff.2 h
  refine hle.imp₂ (fun a b hle hne => Nat.lt_of_le_of_ne hle fun hsame => hne ?_) hne
  exact InstructionId.ext hsame

/-- A list by ascending handle is determined by what is in it. -/
theorem eq_of_pairwise_index (hl : l.Pairwise fun a b => a.index < b.index)
    (hl' : l'.Pairwise fun a b => a.index < b.index) (hmem : ∀ id, id ∈ l ↔ id ∈ l') : l = l' := by
  have hnodup : ∀ {l : List InstructionId}, l.Pairwise (fun a b => a.index < b.index) → l.Nodup :=
    fun h => h.imp fun {a b} hlt hsame => Nat.ne_of_lt hlt (congrArg InstructionId.index hsame)
  have hperm : l.Perm l' := (List.perm_ext_iff_of_nodup (hnodup hl) (hnodup hl')).2 hmem
  exact hperm.eq_of_pairwise (fun a b _ _ hab hba => absurd hab (Nat.lt_asymm hba)) hl hl'

theorem ascending_eq_of_mem_iff (hl : l.Nodup) (hl' : l'.Nodup) (hmem : ∀ id, id ∈ l ↔ id ∈ l') :
    ascending l = ascending l' :=
  eq_of_pairwise_index (pairwise_ascending hl) (pairwise_ascending hl') fun id => by
    rw [mem_ascending, mem_ascending, hmem]

theorem ascending_eq_filter {p : InstructionId → Bool} (hl : l.Nodup) (hl' : l'.Nodup)
    (hmem : ∀ id, id ∈ l' ↔ id ∈ l ∧ p id = true) :
    ascending l' = (ascending l).filter p :=
  eq_of_pairwise_index (pairwise_ascending hl') ((pairwise_ascending hl).filter p) fun id => by
    rw [mem_ascending, List.mem_filter, mem_ascending, hmem]

end Ascending

/-- What gives nothing can be left out before. -/
theorem flatMap_filter_eq {α β : Type} {p : α → Bool} {f : α → List β} : ∀ {l : List α},
    (∀ x ∈ l, p x = false → f x = []) → (l.filter p).flatMap f = l.flatMap f
  | [], _ => rfl
  | x :: l, h => by
    have ih := flatMap_filter_eq fun y hy => h y (List.mem_cons_of_mem x hy)
    cases hx : p x with
    | true => rw [List.filter_cons_of_pos hx, List.flatMap_cons, List.flatMap_cons, ih]
    | false =>
      rw [List.filter_cons_of_neg (by simp [hx]), List.flatMap_cons, h x List.mem_cons_self hx, ih,
        List.nil_append]

namespace Contents

variable {c d : Contents} {x : InstructionId}

/-- The instructions that an instruction names. -/
def targetsOf (c : Contents) (id : InstructionId) : List InstructionId :=
  c.arena[id.index]?.elim [] (·.2.targets)

/-- Every member, by ascending handle, with each of its targets that is not a member, as often and
in the order as its operand names them. -/
def dangling (c : Contents) : List (InstructionId × InstructionId) :=
  (ascending c.members).flatMap fun id =>
    ((c.targetsOf id).filter (· ∉ c.members)).map (id, ·)

/-- The order of the members does not matter. -/
theorem dangling_eq_of_mem_iff (hc : c.members.Nodup) (hd : d.members.Nodup)
    (hmem : ∀ id, id ∈ c.members ↔ id ∈ d.members) (harena : c.arena = d.arena) :
    c.dangling = d.dangling := by
  have htargets : c.targetsOf = d.targetsOf := by
    funext id
    rw [targetsOf, targetsOf, harena]
  simp only [dangling, htargets, ascending_eq_of_mem_iff hc hd hmem, hmem]

section Without

/-! Here `d` is `c` without the member `x`. -/

variable (hmem : ∀ id, id ∈ d.members ↔ id ∈ c.members ∧ id ≠ x)
  (htargets : d.targetsOf = c.targetsOf)

include hmem htargets

/-- What leads elsewhere than to `x` dangles as before, unless it is `x` that led there. -/
theorem dangling_filter_ne (hc : c.members.Nodup) (hd : d.members.Nodup) (hx : x ∈ c.members) :
    d.dangling.filter (·.2 ≠ x) = c.dangling.filter (·.1 ≠ x) := by
  have hascending : ascending d.members = (ascending c.members).filter (· ≠ x) :=
    ascending_eq_filter hc hd (by simpa using hmem)
  have hbranch : c.dangling.filter (·.1 ≠ x) =
      ((ascending c.members).filter (· ≠ x)).flatMap fun id =>
        ((c.targetsOf id).filter (· ∉ c.members)).map (id, ·) := by
    rw [dangling, List.filter_flatMap, ← flatMap_filter_eq (p := (· ≠ x))]
    · refine List.flatMap_congr fun id hid => List.filter_eq_self.2 fun pair hpair => ?_
      obtain ⟨target, -, rfl⟩ := List.mem_map.1 hpair
      exact (List.mem_filter.1 hid).2
    · intro id _ hid
      refine List.filter_eq_nil_iff.2 fun pair hpair => ?_
      obtain ⟨target, -, rfl⟩ := List.mem_map.1 hpair
      simpa using hid
  rw [hbranch, ← hascending, dangling, List.filter_flatMap, htargets]
  refine List.flatMap_congr fun id _ => ?_
  rw [List.filter_map, List.filter_filter]
  congr 1
  refine List.filter_congr fun target _ => ?_
  by_cases h : target = x
  · simp [h, hx]
  · simp [h, hmem]

/-- What leads to `x` dangles now, once for each time it is named. -/
theorem dangling_filter_eq :
    d.dangling.filter (·.2 = x) = (ascending d.members).flatMap fun id =>
      List.replicate ((c.targetsOf id).count x) (id, x) := by
  rw [dangling, List.filter_flatMap, htargets]
  refine List.flatMap_congr fun id _ => ?_
  rw [List.filter_map, List.filter_filter, ← List.map_replicate (f := (id, ·)), ← List.filter_beq]
  congr 1
  refine List.filter_congr fun target _ => ?_
  by_cases h : target = x
  · simp [h, hmem]
  · simp [h]

end Without

end Contents

namespace Sequence

variable {s t : Sequence} {id x : InstructionId} {position : Nat}

theorem targetsOf_contents (s : Sequence) : s.contents.targetsOf = s.targetsOf := by
  funext id
  rw [Contents.targetsOf, getElem?_arena, code?, targetsOf]
  cases s.node? id <;> rfl

/-- The branches are those of the members whose opcode names other instructions. -/
theorem Consistent.branchList_eq (hs : s.Consistent) :
    s.branchList = (ascending s.order.toList).filter s.isBranch := by
  have hcompare : s.branchList.Pairwise fun a b => compare a b = .lt :=
    Std.ExtTreeSet.ordered_toList
  have hordered : s.branchList.Pairwise fun a b => a.index < b.index :=
    hcompare.imp fun {a b} h => Nat.compare_eq_lt.1 h
  refine eq_of_pairwise_index hordered ((pairwise_ascending hs.nodup).filter _) fun id => ?_
  have hbranch : s.isBranch id = true ↔ id ∈ s.branches := Std.ExtTreeSet.contains_iff_mem
  rw [List.mem_filter, mem_ascending, hbranch, branchList, Std.ExtTreeSet.mem_toList,
    hs.mem_branches, Array.mem_toList_iff]
  exact ⟨fun h => ⟨h.1, h⟩, fun h => h.2⟩

theorem Consistent.targetsOf_eq_nil (hs : s.Consistent) (hid : id ∈ s.order)
    (h : s.isBranch id = false) : s.targetsOf id = [] := by
  obtain ⟨i, hi⟩ := hs.exists_node hid
  have hclass : i.isTargetBearing = false := by
    refine eq_false_of_ne_true fun hbearing => ?_
    have hbranch : id ∈ s.branches := hs.mem_branches.2 ⟨hid, i, hi, hbearing⟩
    rw [isBranch, Std.ExtTreeSet.contains_iff_mem.2 hbranch] at h
    cases h
  rw [targetsOf, hi]
  exact Operand.targets_eq_nil (hs.fits hi) hclass

theorem Consistent.danglingTargets_eq (hs : s.Consistent) :
    s.danglingTargets = s.contents.dangling := by
  have hcontains : ∀ target, (!s.contains target) = decide (target ∉ s.contents.members) := by
    intro target
    have hmem : s.contains target = true ↔ target ∈ s.contents.members :=
      hs.contains_iff.trans mem_members.symm
    by_cases h : target ∈ s.contents.members
    · simp [h, hmem.2 h]
    · simp [h, eq_false_of_ne_true (mt hmem.1 h)]
  rw [danglingTargets, hs.branchList_eq, flatMap_filter_eq, Contents.dangling, targetsOf_contents]
  · simp only [hcontains]
    rfl
  · intro id hid hbranch
    have hid : id ∈ s.order := Array.mem_toList_iff.1 (mem_ascending.1 hid)
    rw [hs.targetsOf_eq_nil hid hbranch]
    rfl

theorem Consistent.mem_danglingTargets (hs : s.Consistent) {branch target : InstructionId} :
    (branch, target) ∈ s.danglingTargets ↔
      branch ∈ s.order ∧ target ∈ s.targetsOf branch ∧ target ∉ s.order := by
  rw [hs.danglingTargets_eq, Contents.dangling, targetsOf_contents]
  simp [mem_ascending, mem_members]

section Removed

variable {q : Nat}

theorem Consistent.mem_contents_removed (hs : s.Consistent) (hx : s.get? position = some x)
    (id : InstructionId) :
    id ∈ (s.removed position x).contents.members ↔ id ∈ s.contents.members ∧ id ≠ x := by
  rw [mem_members, mem_members, hs.mem_removed hx, and_comm]

theorem targetsOf_contents_removed (s : Sequence) (position : Nat) (x : InstructionId) :
    (s.removed position x).contents.targetsOf = s.contents.targetsOf := by
  rw [contents_removed]
  rfl

/-- An instruction that is taken out and put back, wherever that is, dangles or not as it did. -/
theorem Consistent.danglingTargets_putBack (hs : s.Consistent) (hx : s.get? position = some x)
    (hq : q ≤ (s.removed position x).length) :
    ((s.removed position x).inserted q x).danglingTargets = s.danglingTargets := by
  have hback := (hs.removed hx).inserted hq (hs.placeFault?_removed_self hx)
  rw [hback.danglingTargets_eq, hs.danglingTargets_eq]
  refine Contents.dangling_eq_of_mem_iff hback.nodup_members hs.nodup_members (fun id => ?_) ?_
  · have hxmem : x ∈ s.order := mem_order_iff.2 ⟨position, hx⟩
    rw [mem_members, mem_members, mem_inserted hq, hs.mem_removed hx]
    by_cases hid : id = x
    · simp [hid, hxmem]
    · simp [hid]
  · rw [contents_inserted, contents_removed]

end Removed

/-- The list of dangling targets is that of a scan of all members. Taking out a member `x` drops the
pairs of which it is the branch and adds one for each time that a member left names it, and wherever
`x` is put back, the list is the old one. -/
theorem danglingTargets_scan (hs : s.Reachable) :
    s.danglingTargets = s.contents.dangling
    ∧ ∀ p x, s.get? p = some x → ∃ t, (remove p).run s = .ok x t
      ∧ t.order.toList = s.order.toList.eraseIdx p ∧ t.danglingTargets = t.contents.dangling
      ∧ t.danglingTargets.filter (·.2 ≠ x) = s.danglingTargets.filter (·.1 ≠ x)
      ∧ t.danglingTargets.filter (·.2 = x) = ((ascending t.order.toList).flatMap fun branch =>
          List.replicate ((s.targetsOf branch).count x) (branch, x))
      ∧ ∀ q ≤ t.length, ∃ u, (insert q x).run t = .ok () u
        ∧ u.danglingTargets = s.danglingTargets := by
  have hs := hs.consistent
  refine ⟨hs.danglingTargets_eq, fun p x hx => ?_⟩
  have ht := hs.removed hx
  have hmem := hs.mem_contents_removed hx
  have htargets := targetsOf_contents_removed s p x
  refine ⟨s.removed p x, by rw [run_remove, hx], toList_removed .., ht.danglingTargets_eq, ?_, ?_,
    fun q hq => ?_⟩
  · rw [ht.danglingTargets_eq, hs.danglingTargets_eq]
    exact Contents.dangling_filter_ne hmem htargets hs.nodup_members ht.nodup_members
      (mem_members.2 (mem_order_iff.2 ⟨p, hx⟩))
  · rw [ht.danglingTargets_eq, ← targetsOf_contents]
    exact Contents.dangling_filter_eq hmem htargets
  · refine ⟨(s.removed p x).inserted q x, ?_, hs.danglingTargets_putBack hx hq⟩
    rw [run_insert, if_neg (Nat.not_lt.2 hq), hs.placeFault?_removed_self hx]

/-- Two jump tables, each of which names the other and itself. The one that is taken out is named
twice by the one that stays, whose handle comes first although it is the last member. -/
theorem danglingTargets_scan_tables :
    ∃ s t u : Sequence, s.Reachable ∧ s.order = #[⟨2⟩, ⟨1⟩, ⟨0⟩]
      ∧ s.danglingTargets = [(⟨0⟩, ⟨9⟩), (⟨1⟩, ⟨7⟩)] ∧ s.contents.dangling = s.danglingTargets
      ∧ (remove 1).run s = .ok ⟨1⟩ t
      ∧ t.danglingTargets = [(⟨0⟩, ⟨1⟩), (⟨0⟩, ⟨9⟩), (⟨0⟩, ⟨1⟩)]
      ∧ t.danglingTargets.filter (·.2 ≠ ⟨1⟩) = s.danglingTargets.filter (·.1 ≠ ⟨1⟩)
      ∧ (insert 0 ⟨1⟩).run t = .ok () u ∧ u.danglingTargets = s.danglingTargets := by
  obtain ⟨s, hs, horder, hlist, hget, hlist'⟩ : ∃ s : Sequence, s.Reachable
      ∧ s.order = #[⟨2⟩, ⟨1⟩, ⟨0⟩] ∧ s.danglingTargets = [(⟨0⟩, ⟨9⟩), (⟨1⟩, ⟨7⟩)]
      ∧ s.get? 1 = some ⟨1⟩
      ∧ (s.runEdit (.remove 1)).2.danglingTargets = [(⟨0⟩, ⟨1⟩), (⟨0⟩, ⟨9⟩), (⟨0⟩, ⟨1⟩)] :=
    ⟨_, ⟨[.edit (.create ⟨"switch", 0x45, .inlineSwitch⟩ (.switch [⟨1⟩, ⟨9⟩, ⟨0⟩, ⟨1⟩])),
        .edit (.create ⟨"switch", 0x45, .inlineSwitch⟩ (.switch [⟨0⟩, ⟨1⟩, ⟨7⟩])),
        .edit (.emit ⟨"nop", 0, .inlineNone⟩ .none), .edit (.append ⟨1⟩), .edit (.append ⟨0⟩)],
      rfl⟩, rfl, by decide +kernel, rfl, by decide +kernel⟩
  obtain ⟨hscan, hremove⟩ := danglingTargets_scan hs
  obtain ⟨t, hrun, -, -, hne, -, hback⟩ := hremove 1 ⟨1⟩ hget
  obtain ⟨u, hinsert, hold⟩ := hback 0 (Nat.zero_le _)
  have ht : (s.runEdit (.remove 1)).2 = t := by
    rw [runEdit, apply, map_eq_pure_bind, EStateM.run_bind, hrun]
    rfl
  rw [ht] at hlist'
  exact ⟨s, t, u, hs, horder, hlist, hscan.symm, hrun, hlist', hne, hinsert, hold⟩

end Sequence

end CilMethod
