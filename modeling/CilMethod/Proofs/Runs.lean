import CilMethod.Error
import Mathlib.Tactic.SplitIfs

/-!
# Runs of edits, and the orders they edit

Instructions and variables are edited alike: an edit is a run that may fail and keeps an order of
members as an array. Here stand the facts about runs and orders that both need.
-/

namespace CilMethod

section Bind

variable {σ α β : Type} {x : EStateM Error σ α} {f : α → EStateM Error σ β} {s t : σ}

theorem run_bind_of_ok {a : α} (h : x.run s = .ok a t) : (x >>= f).run s = (f a).run t := by
  rw [EStateM.run_bind, h]

theorem run_bind_of_error {e : Error} (h : x.run s = .error e t) :
    (x >>= f).run s = .error e t := by
  rw [EStateM.run_bind, h]

theorem bind_eq_ok_iff {ε : Type} {x : Except ε α} {f : α → Except ε β} {b : β} :
    x >>= f = .ok b ↔ ∃ a, x = .ok a ∧ f a = .ok b := by
  cases x with
  | ok a => exact ⟨fun h => ⟨a, rfl, h⟩, fun ⟨a', ha, h⟩ => Except.ok.inj ha ▸ h⟩
  | error e => exact ⟨nofun, fun ⟨_, ha, _⟩ => nomatch ha⟩

theorem map_eq_ok_iff {ε : Type} {x : Except ε α} {f : α → β} {b : β} :
    x.map f = .ok b ↔ ∃ a, x = .ok a ∧ f a = b := by
  cases x <;> simp [Except.map]

theorem mapError_eq_ok_iff {ε δ : Type} {x : Except ε α} {f : ε → δ} {a : α} :
    x.mapError f = .ok a ↔ x = .ok a := by
  cases x <;> simp [Except.mapError]

end Bind

section Order

variable {α : Type} {x : α}

theorem toList_insertIdxIfInBounds (xs : Array α) (n : Nat) (x : α) :
    (xs.insertIdxIfInBounds n x).toList = xs.toList.insertIdx n x := by
  cases xs
  simp

theorem push_eq_insertIdxIfInBounds (xs : Array α) (x : α) :
    xs.push x = xs.insertIdxIfInBounds xs.size x := by
  cases xs
  simp

theorem nodup_insertIdx : ∀ {n : Nat} {l : List α}, n ≤ l.length → l.Nodup → x ∉ l →
    (l.insertIdx n x).Nodup
  | 0, l, _, hl, hx => by
    rw [List.insertIdx_zero]
    exact List.nodup_cons.2 ⟨hx, hl⟩
  | n + 1, [], hn, _, _ => by simp at hn
  | n + 1, y :: l, hn, hl, hx => by
    have hn : n ≤ l.length := by simpa using hn
    rw [List.mem_cons, not_or] at hx
    obtain ⟨hy, hl⟩ := List.nodup_cons.1 hl
    rw [List.insertIdx_succ_cons, List.nodup_cons, List.mem_insertIdx hn]
    exact ⟨fun h => h.elim (fun h => hx.1 h.symm) hy, nodup_insertIdx hn hl hx.2⟩

/-- Putting something in a place is striking the place out and inserting there. -/
theorem insertIdx_eraseIdx_self {n : Nat} {l : List α} (hn : n < l.length) :
    (l.eraseIdx n).insertIdx n x = l.set n x := by
  refine List.ext_getElem? fun q => ?_
  rw [List.getElem?_set, List.getElem?_insertIdx, List.getElem?_eraseIdx, List.getElem?_eraseIdx,
    List.length_eraseIdx_of_lt hn]
  split_ifs <;> first | rfl | omega | (congr 1; omega)

theorem nodup_set {n : Nat} {l : List α} (hl : l.Nodup) (hx : x ∉ l) (hn : n < l.length) :
    (l.set n x).Nodup := by
  rw [← insertIdx_eraseIdx_self hn]
  refine nodup_insertIdx ?_ (hl.eraseIdx n) fun h => hx (List.mem_of_mem_eraseIdx h)
  rw [List.length_eraseIdx_of_lt hn]
  omega

theorem getElem?_filterMap {β : Type} {f : α → Option β} : ∀ {l : List α},
    (∀ x ∈ l, ∃ y, f x = some y) → ∀ n : Nat, (l.filterMap f)[n]? = l[n]?.bind f
  | [], _, n => by simp
  | x :: l, h, n => by
    obtain ⟨y, hy⟩ := h x List.mem_cons_self
    rw [List.filterMap_cons_some hy]
    cases n with
    | zero => simp [hy]
    | succ n => simpa using getElem?_filterMap (fun z hz => h z (List.mem_cons_of_mem x hz)) n

end Order

end CilMethod
