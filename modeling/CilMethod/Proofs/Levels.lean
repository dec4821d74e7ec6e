import CilMethod.Scope
import Mathlib.Data.List.Shortlex

/-!
# Scopes are visited level by level

Visiting what is in front of the queue puts the scopes within it at the back (`walkQueue_append`),
so visiting one level leaves the next level as the queue, and a walk is the levels of the tree one
after the other (`walk_eq_levels`). Scopes can be equal without being the same, so which of them was
visited when is said by their places, the ways that lead to them from the root: the places of one
level go from left to right (`pairwise_places`), and each leads to the scope that is visited there
(`map_within?_places`).

The walk can also be taken with one list that grows while it is gone through (`found`). What is
already gone through and the queue behind it make up the walk at every turn (`walk_eq_found`), and a
turn takes one scope from what is left to visit, so there are as many turns as scopes.
-/

namespace CilMethod.Scope

/-- The scope at a place. Each number of the place says which of the scopes within is next. -/
def within? : Scope → List Nat → Option Scope
  | s, [] => some s
  | s, n :: place => s.scopes[n]?.bind (within? · place)

/-- The scopes at a depth, from left to right. -/
def level : Scope → Nat → List Scope
  | s, 0 => [s]
  | s, depth + 1 => s.scopes.flatMap (level · depth)

/-- The places at a depth, from left to right. -/
def places : Scope → Nat → List (List Nat)
  | _, 0 => [[]]
  | s, depth + 1 => s.scopes.zipIdx.flatMap fun t => (places t.1 depth).map (t.2 :: ·)

/-- What is found in a number of turns. Each turn finds the scopes within the next one to visit. -/
def found (s : Scope) : Nat → List Scope
  | 0 => [s]
  | turns + 1 => s.found turns ++ (s.found turns)[turns]?.elim [] scopes

variable {s : Scope} {depth turns : Nat}

theorem size_le_sizeAll : ∀ {ss : List Scope}, s ∈ ss → s.size ≤ sizeAll ss
  | t :: ss, h => by
    rw [sizeAll]
    rcases List.mem_cons.1 h with rfl | h
    · exact Nat.le_add_right ..
    · exact (size_le_sizeAll h).trans (Nat.le_add_left ..)

theorem length_walkQueue (queue : List Scope) : (walkQueue queue).length = sizeAll queue := by
  induction queue using walkQueue.induct with
  | case1 => rw [walkQueue, sizeAll, List.length_nil]
  | case2 s queue ih =>
    rw [walkQueue, List.length_cons, ih, sizeAll_append, sizeAll, size_eq]
    omega

theorem length_walk (s : Scope) : s.walk.length = s.size := by
  rw [walk, length_walkQueue, sizeAll, sizeAll, Nat.add_zero]

section Levels

theorem walkQueue_append (front back : List Scope) :
    walkQueue (front ++ back) = front ++ walkQueue (back ++ front.flatMap scopes) := by
  induction front generalizing back with
  | nil => rw [List.flatMap_nil, List.append_nil, List.nil_append, List.nil_append]
  | cons s front ih =>
    rw [List.cons_append, walkQueue, List.append_assoc, ih, List.flatMap_cons, List.append_assoc,
      List.cons_append]

theorem level_succ (s : Scope) (depth : Nat) :
    s.level (depth + 1) = (s.level depth).flatMap scopes := by
  induction depth generalizing s with
  | zero => simp [level]
  | succ depth ih =>
    rw [level, level, List.flatMap_assoc]
    exact List.flatMap_congr fun t _ => ih t

/-- No scope is deeper than there are scopes. -/
theorem level_eq_nil (h : s.size ≤ depth) : s.level depth = [] := by
  induction depth generalizing s with
  | zero =>
    rw [size_eq] at h
    omega
  | succ depth ih =>
    rw [level, List.flatMap_eq_nil_iff]
    intro t ht
    have hsize := size_le_sizeAll ht
    rw [size_eq] at h
    exact ih (by omega)

theorem walk_eq_levels_append (s : Scope) (depth : Nat) :
    s.walk = (List.range depth).flatMap s.level ++ walkQueue (s.level depth) := by
  induction depth with
  | zero => rfl
  | succ depth ih =>
    have hlevel := walkQueue_append (s.level depth) []
    rw [List.append_nil, List.nil_append, ← level_succ] at hlevel
    rw [ih, hlevel, List.range_succ, List.flatMap_append, List.flatMap_singleton,
      List.append_assoc]

theorem walk_eq_levels (s : Scope) : s.walk = (List.range s.size).flatMap s.level := by
  rw [walk_eq_levels_append s s.size, level_eq_nil (Nat.le_refl _), walkQueue, List.append_nil]

end Levels

section Places

theorem within?_append : ∀ (s : Scope) (place rest : List Nat),
    s.within? (place ++ rest) = (s.within? place).bind (within? · rest)
  | _, [], _ => rfl
  | s, n :: place, rest => by
    rw [List.cons_append, within?, within?, Option.bind_assoc]
    exact congrArg _ (funext fun t => within?_append t place rest)

theorem mem_places {place : List Nat} :
    place ∈ s.places depth ↔ place.length = depth ∧ (s.within? place).isSome = true := by
  induction depth generalizing s place with
  | zero =>
    cases place with
    | nil => simp [places, within?]
    | cons n place => simp [places]
  | succ depth ih =>
    simp only [places, List.mem_flatMap, List.mem_map, ih]
    constructor
    · rintro ⟨t, ht, rest, ⟨hlength, hrest⟩, rfl⟩
      rw [List.mem_zipIdx_iff_getElem?] at ht
      rw [within?, ht]
      exact ⟨congrArg Nat.succ hlength, hrest⟩
    · rintro ⟨hlength, hsome⟩
      cases place with
      | nil => cases hlength
      | cons n rest =>
        obtain ⟨u, hu⟩ := Option.isSome_iff_exists.1 hsome
        obtain ⟨t, ht, hrest⟩ := Option.bind_eq_some_iff.1 hu
        refine ⟨(t, n), List.mk_mem_zipIdx_iff_getElem?.2 ht, rest, ⟨Nat.succ.inj hlength, ?_⟩, rfl⟩
        rw [hrest]
        rfl

theorem map_within?_places (s : Scope) (depth : Nat) :
    (s.places depth).map s.within? = (s.level depth).map some := by
  induction depth generalizing s with
  | zero => rfl
  | succ depth ih =>
    calc (s.places (depth + 1)).map s.within?
        = s.scopes.zipIdx.flatMap fun t => (t.1.level depth).map some := by
          rw [places, List.map_flatMap]
          refine List.flatMap_congr fun t ht => ?_
          rw [List.mem_zipIdx_iff_getElem?] at ht
          rw [List.map_map, ← ih]
          refine List.map_congr_left fun place _ => ?_
          rw [Function.comp_apply, within?, ht, Option.bind_some]
      _ = (s.scopes.zipIdx.map Prod.fst).flatMap fun t => (t.level depth).map some := by
          rw [List.flatMap_map]
      _ = (s.level (depth + 1)).map some := by
          rw [List.zipIdx_map_fst, level, List.map_flatMap]

theorem pairwise_places (s : Scope) (depth : Nat) :
    (s.places depth).Pairwise (List.Lex (· < ·)) := by
  induction depth generalizing s with
  | zero => exact List.pairwise_singleton _ _
  | succ depth ih =>
    rw [places, List.pairwise_flatMap]
    constructor
    · intro t _
      exact List.pairwise_map.2 ((ih t.1).imp List.Lex.cons)
    · have hnumbers : s.scopes.zipIdx.Pairwise fun t u => t.2 < u.2 := by
        rw [← List.pairwise_map, List.zipIdx_map_snd]
        exact List.pairwise_lt_range'
      refine hnumbers.imp fun hlt x hx y hy => ?_
      obtain ⟨p, -, rfl⟩ := List.mem_map.1 hx
      obtain ⟨q, -, rfl⟩ := List.mem_map.1 hy
      exact .rel hlt

/-- All places, level by level. -/
def levelOrder (s : Scope) : List (List Nat) := (List.range s.size).flatMap s.places

theorem mem_levelOrder {place : List Nat} :
    place ∈ s.levelOrder ↔ (s.within? place).isSome = true := by
  simp only [levelOrder, List.mem_flatMap, List.mem_range, mem_places]
  constructor
  · rintro ⟨depth, -, -, hsome⟩
    exact hsome
  · intro hsome
    refine ⟨place.length, ?_, rfl, hsome⟩
    -- a place deeper than that would be on a level that is empty
    by_contra hdeep
    have hmem : s.within? place ∈ (s.places place.length).map s.within? :=
      List.mem_map_of_mem (mem_places.2 ⟨rfl, hsome⟩)
    rw [map_within?_places, level_eq_nil (Nat.le_of_not_lt hdeep)] at hmem
    exact List.not_mem_nil hmem

theorem map_within?_levelOrder (s : Scope) :
    s.levelOrder.map s.within? = s.walk.map some := by
  rw [walk_eq_levels, levelOrder, List.map_flatMap, List.map_flatMap]
  exact List.flatMap_congr fun depth _ => map_within?_places s depth

theorem pairwise_levelOrder (s : Scope) : s.levelOrder.Pairwise (List.Shortlex (· < ·)) := by
  refine List.pairwise_flatMap.2 ⟨fun depth _ => ?_, ?_⟩
  · refine (pairwise_places s depth).imp_of_mem fun ha hb hlex => ?_
    exact .of_lex ((mem_places.1 ha).1.trans (mem_places.1 hb).1.symm) hlex
  · refine List.pairwise_lt_range.imp fun hlt a ha b hb => .of_length_lt ?_
    rw [(mem_places.1 ha).1, (mem_places.1 hb).1]
    exact hlt

theorem nodup_levelOrder (s : Scope) : s.levelOrder.Nodup :=
  List.nodup_iff_pairwise_ne.2 ((pairwise_levelOrder s).imp ne_of_irrefl)

theorem length_le_of_shortlex {a b : List Nat} (h : List.Shortlex (· < ·) a b) :
    a.length ≤ b.length := by
  rcases List.shortlex_def.1 h with h | h
  · exact Nat.le_of_lt h
  · exact Nat.le_of_eq h.1

/-- A scope is visited before the scopes within it, since these are deeper. -/
theorem idxOf_lt_idxOf {place : List Nat} {n : Nat} (h : place ++ [n] ∈ s.levelOrder) :
    s.levelOrder.idxOf place < s.levelOrder.idxOf (place ++ [n]) := by
  have hplace : place ∈ s.levelOrder := by
    rw [mem_levelOrder] at h ⊢
    rw [within?_append] at h
    exact Option.isSome_of_isSome_bind h
  have hlt := List.idxOf_lt_length_of_mem hplace
  have hlt' := List.idxOf_lt_length_of_mem h
  have hdeeper : place.length < (place ++ [n]).length := by simp
  rcases Nat.lt_trichotomy (s.levelOrder.idxOf place) (s.levelOrder.idxOf (place ++ [n])) with
    hbefore | hsame | hbehind
  · exact hbefore
  · have heq : place = place ++ [n] := (List.idxOf_inj hplace).1 hsame
    exact absurd (congrArg List.length heq) (Nat.ne_of_lt hdeeper)
  · have hle := List.pairwise_iff_getElem.1 (pairwise_levelOrder s) _ _ hlt' hlt hbehind
    rw [List.getElem_idxOf, List.getElem_idxOf] at hle
    exact absurd (length_le_of_shortlex hle) (Nat.not_le_of_lt hdeeper)

end Places

section Turns

/-- A turn moves one scope from the queue to what is gone through already. -/
theorem take_append_walkQueue_drop (ss : List Scope) (n : Nat) :
    (ss ++ ss[n]?.elim [] scopes).take (n + 1) ++
        walkQueue ((ss ++ ss[n]?.elim [] scopes).drop (n + 1)) =
      ss.take n ++ walkQueue (ss.drop n) := by
  by_cases hn : n < ss.length
  · rw [List.getElem?_eq_getElem hn, Option.elim_some, List.take_append_of_le_length hn,
      List.drop_append_of_le_length hn, List.drop_eq_getElem_cons hn, walkQueue,
      List.take_succ_eq_append_getElem hn, List.append_assoc, List.singleton_append]
  · have hlength := Nat.le_of_not_lt hn
    rw [List.getElem?_eq_none hlength, Option.elim_none, List.append_nil,
      List.take_of_length_le hlength, List.take_of_length_le (Nat.le_succ_of_le hlength),
      List.drop_of_length_le hlength, List.drop_of_length_le (Nat.le_succ_of_le hlength)]

theorem walk_eq_found (s : Scope) (turns : Nat) :
    s.walk = (s.found turns).take turns ++ walkQueue ((s.found turns).drop turns) := by
  induction turns with
  | zero => rfl
  | succ turns ih => rw [found, take_append_walkQueue_drop, ih]

theorem length_found_le_iff : (s.found turns).length ≤ turns ↔ s.size ≤ turns := by
  have hsize := congrArg List.length (walk_eq_found s turns)
  rw [length_walk, List.length_append, List.length_take, length_walkQueue] at hsize
  cases hqueue : (s.found turns).drop turns with
  | nil =>
    have hle := List.drop_eq_nil_iff.1 hqueue
    rw [hqueue, sizeAll] at hsize
    omega
  | cons t queue =>
    have hlength := congrArg List.length hqueue
    rw [List.length_drop, List.length_cons] at hlength
    rw [hqueue, sizeAll, size_eq t] at hsize
    omega

theorem found_eq_walk (h : s.size ≤ turns) : s.found turns = s.walk := by
  have hle := length_found_le_iff.2 h
  rw [walk_eq_found s turns, List.take_of_length_le hle, List.drop_of_length_le hle, walkQueue,
    List.append_nil]

end Turns

/-- A walk ends, after one turn for each scope, and visits the tree level by level. Every place in
the tree is visited once, a place never before one that is less deep, places of the same depth from
left to right, and every scope before those within it. -/
theorem walk_levelOrder (s : Scope) :
    (∀ turns, turns < (s.found turns).length ↔ turns < s.size)
      ∧ (∀ turns, s.size ≤ turns → s.found turns = s.walk)
      ∧ s.walk = (List.range s.size).flatMap s.level
      ∧ s.walk.length = s.size
      ∧ ∃ order : List (List Nat), s.walk.map some = order.map s.within?
        ∧ (∀ place, order.count place = if (s.within? place).isSome then 1 else 0)
        ∧ order.Pairwise (List.Shortlex (· < ·))
        ∧ order.Pairwise (fun a b => a.length ≤ b.length)
        ∧ ∀ place n, place ++ [n] ∈ order → order.idxOf place < order.idxOf (place ++ [n]) := by
  refine ⟨fun turns => ?_, fun turns => found_eq_walk, walk_eq_levels s, length_walk s,
    s.levelOrder, (map_within?_levelOrder s).symm, fun place => ?_, pairwise_levelOrder s,
    (pairwise_levelOrder s).imp length_le_of_shortlex, fun place n => idxOf_lt_idxOf⟩
  · exact not_le.symm.trans ((not_congr length_found_le_iff).trans not_le)
  · rw [(nodup_levelOrder s).count]
    simp only [mem_levelOrder]

-- the second scope of the first level comes before the one within the first
example : (walk ⟨none, none, [⟨0⟩],
      [⟨none, none, [⟨1⟩], [⟨none, none, [⟨3⟩], []⟩]⟩, ⟨none, none, [⟨2⟩], []⟩]⟩).map (·.locals) =
    [[⟨0⟩], [⟨1⟩], [⟨2⟩], [⟨3⟩]] := by cbv

end CilMethod.Scope
