import CilMethod.Proofs.Layouts

/-!
# What a load changes

A load turns recomputing off, runs a script and ends with a recompute. Taking the recomputes, the
changes of the suppression flag and the loads out of the script leaves its edits. Since an edit
looks at the contents of a sequence only, and none of the steps taken out changes them, the edits
answer the same with and without the load (`Alike.runScript`). What is left is when the layout was
refreshed, and after the recompute at the end only instructions that are not members can still show
it. While nothing turns recomputing on again, not even they do (`runScript_quiet`).
-/

namespace CilMethod.Sequence

mutual

/-- The edits of a step, in order. -/
def Step.edits : Step → List Edit
  | .edit e => [e]
  | .recompute => []
  | .suppress _ => []
  | .load steps => editsOf steps

def editsOf : List Step → List Edit
  | [] => []
  | step :: steps => step.edits ++ editsOf steps

end

mutual

/-- What the edits of a step answered, in order. -/
def Outcome.results : Outcome → List (Except Error (Option InstructionId))
  | .edited result => [result]
  | .recomputed _ => []
  | .suppressed => []
  | .loaded outcomes => resultsOf outcomes

def resultsOf : List Outcome → List (Except Error (Option InstructionId))
  | [] => []
  | outcome :: outcomes => outcome.results ++ resultsOf outcomes

end

/-- A script without its recomputes, changes of the suppression flag and loads. -/
def plain (steps : List Step) : List Step := (editsOf steps).map .edit

/-- Does a step leave recomputing off, where it is off? -/
def Step.isQuiet : Step → Bool
  | .edit _ => true
  | .recompute => true
  | .suppress on => on
  | .load _ => false

/-- Consistent sequences with the same contents. -/
structure Alike (s t : Sequence) : Prop where
  left : s.Consistent
  right : t.Consistent
  contents : s.contents = t.contents

variable {s t u : Sequence}

section Append

theorem runScript_cons (s : Sequence) (step : Step) (steps : List Step) :
    s.runScript (step :: steps) =
      ((s.runStep step).1 :: ((s.runStep step).2.runScript steps).1,
        ((s.runStep step).2.runScript steps).2) := rfl

theorem runScript_append (s : Sequence) (steps steps' : List Step) :
    s.runScript (steps ++ steps') =
      ((s.runScript steps).1 ++ ((s.runScript steps).2.runScript steps').1,
        ((s.runScript steps).2.runScript steps').2) := by
  induction steps generalizing s with
  | nil => rfl
  | cons step steps ih => rw [List.cons_append, runScript_cons, ih, runScript_cons]; rfl

theorem resultsOf_append (outcomes outcomes' : List Outcome) :
    resultsOf (outcomes ++ outcomes') = resultsOf outcomes ++ resultsOf outcomes' := by
  induction outcomes with
  | nil => rfl
  | cons outcome outcomes ih => rw [List.cons_append, resultsOf, ih, resultsOf, List.append_assoc]

theorem plain_cons (step : Step) (steps : List Step) :
    plain (step :: steps) = plain [step] ++ plain steps := by
  simp [plain, editsOf]

end Append

section Alike

theorem Alike.trans (h : s.Alike t) (h' : t.Alike u) : s.Alike u :=
  ⟨h.left, h'.right, h.contents.trans h'.contents⟩

theorem Consistent.alike_suppressed (hs : s.Consistent) (on : Bool) :
    (s.setSuppressed on).Alike s :=
  ⟨consistent_invariant.suppress on hs, hs, rfl⟩

theorem Consistent.alike_recompute (hs : s.Consistent) : s.recompute.2.Alike s := by
  refine ⟨consistent_invariant.recompute hs, hs, ?_⟩
  cases h : s.suppressed with
  | true => rw [recompute_of_suppressed s h]
  | false =>
    rw [recompute_eq s h]
    exact contents_laidOut hs.nodup

/-- An edit of a consistent sequence does what its contents say. -/
theorem Consistent.runEdit_spec (hs : s.Consistent) (e : Edit) :
    (s.runEdit e).1 = (s.contents.edit e).map Prod.fst
      ∧ (s.runEdit e).2.contents = ((s.contents.edit e).toOption.elim s.contents Prod.snd) := by
  have hreport := hs.report_apply e
  have hatomic := apply_atomic s e
  unfold runEdit
  cases hrun : (apply e).run s with
  | ok answer t =>
    rw [hrun] at hreport
    rw [← hreport]
    exact ⟨rfl, rfl⟩
  | error err t =>
    rw [hrun] at hreport hatomic
    rw [← hreport]
    exact ⟨rfl, congrArg Sequence.contents hatomic⟩

theorem Alike.runEdit (h : s.Alike t) (e : Edit) :
    (s.runEdit e).1 = (t.runEdit e).1 ∧ (s.runEdit e).2.Alike (t.runEdit e).2 := by
  obtain ⟨hresult, hcontents⟩ := h.left.runEdit_spec e
  obtain ⟨hresult', hcontents'⟩ := h.right.runEdit_spec e
  refine ⟨by rw [hresult, hresult', h.contents], consistent_invariant.runEdit e h.left,
    consistent_invariant.runEdit e h.right, ?_⟩
  rw [hcontents, hcontents', h.contents]

mutual

/-- A step answers what its edits answer, and leaves the contents that they leave. -/
theorem Alike.runStep : ∀ {s t : Sequence} (step : Step), s.Alike t →
    (s.runStep step).1.results = resultsOf (t.runScript (plain [step])).1
      ∧ (s.runStep step).2.Alike (t.runScript (plain [step])).2
  | s, t, .edit e, h => by
    obtain ⟨hresult, halike⟩ := h.runEdit e
    refine ⟨?_, halike⟩
    change [(s.runEdit e).1] = [(t.runEdit e).1]
    rw [hresult]
  | s, t, .recompute, h => ⟨rfl, h.left.alike_recompute.trans h⟩
  | s, t, .suppress on, h => ⟨rfl, (h.left.alike_suppressed on).trans h⟩
  | s, t, .load steps, h => by
    have hplain : plain [.load steps] = plain steps := by
      simp [plain, editsOf, Step.edits]
    obtain ⟨hresults, halike⟩ := Alike.runScript steps ((h.left.alike_suppressed true).trans h)
    rw [hplain]
    -- the end of an inner load turns recomputing on within the outer one: `Alike` does not see it
    have hend := halike.left.alike_suppressed false
    exact ⟨hresults, (hend.left.alike_recompute.trans hend).trans halike⟩

theorem Alike.runScript : ∀ {s t : Sequence} (steps : List Step), s.Alike t →
    resultsOf (s.runScript steps).1 = resultsOf (t.runScript (plain steps)).1
      ∧ (s.runScript steps).2.Alike (t.runScript (plain steps)).2
  | s, t, [], h => ⟨rfl, h⟩
  | s, t, step :: steps, h => by
    obtain ⟨hresult, halike⟩ := Alike.runStep step h
    obtain ⟨hresults, halike⟩ := Alike.runScript steps halike
    rw [plain_cons, runScript_append, resultsOf_append, ← hresult, ← hresults]
    exact ⟨rfl, halike⟩

end

end Alike

section Spots

/-- What an elementary change adds has not been laid out. -/
theorem Change.fresh (h : Change s t) {id : InstructionId} {j : Instruction}
    (hid : s.node? id = none) (hj : t.node? id = some j) : j.index = 0 ∧ j.offset = 0 := by
  cases h with
  | create hfits =>
    rw [created, node?_push] at hj
    split_ifs at hj with hnew
    · rw [← Option.some.inj hj]
      exact ⟨rfl, rfl⟩
    · rw [hid] at hj
      cases hj
  | insert hposition hplace =>
    rw [inserted, node?_place, hid] at hj
    cases hj
  | remove hold =>
    rw [removed_eq, node?_takeOut, node?_struck, hid] at hj
    cases hj
  | rewrite hfits hnode =>
    rw [node?_changed, hid] at hj
    cases hj

/-- Changes move nothing that was there, and what they add has not been laid out. -/
theorem Changes.spot?_eq (h : s.Changes t) (id : InstructionId) :
    t.spot? id = (t.code? id).map fun _ => (s.spot? id).getD (0, 0) := by
  have hfresh : ∀ j, s.node? id = none → t.node? id = some j → j.index = 0 ∧ j.offset = 0 := by
    intro j hid hj
    -- by induction on the changes: the first one that knows `id` created it, the later ones keep it
    induction h generalizing j with
    | refl =>
      rw [hid] at hj
      cases hj
    | @tail t u _ hc ih =>
      cases ht : t.node? id with
      | none => exact hc.fresh ht hj
      | some i =>
        obtain ⟨k, hk, hindex, hoffset⟩ := hc.keeps.node ht
        rw [hj] at hk
        obtain rfl := Option.some.inj hk
        rw [hindex, hoffset]
        exact ih i ht
  unfold spot? code?
  cases hi : s.node? id with
  | some i =>
    obtain ⟨j, hj, hindex, hoffset⟩ := h.keeps.node hi
    simp [hj, hindex, hoffset]
  | none =>
    cases hj : t.node? id with
    | none => rfl
    | some j =>
      obtain ⟨hindex, hoffset⟩ := hfresh j hi hj
      simp [hindex, hoffset]

theorem changes_runEdit (s : Sequence) (e : Edit) : s.Changes (s.runEdit e).2 := by
  have hatomic := apply_atomic s e
  unfold runEdit
  cases hrun : (apply e).run s with
  | ok answer t =>
    rw [hrun] at hatomic
    exact hatomic
  | error err t =>
    rw [hrun] at hatomic
    exact hatomic ▸ .refl

theorem suppressed_runEdit (s : Sequence) (e : Edit) : (s.runEdit e).2.suppressed = s.suppressed :=
  (changes_runEdit s e).keeps.suppressed

/-- Edits of sequences that are laid out alike leave them laid out alike. -/
theorem Alike.spot?_runScript (edits : List Edit) (h : s.Alike t)
    (hspot : ∀ id, s.spot? id = t.spot? id) (id : InstructionId) :
    (s.runScript (edits.map .edit)).2.spot? id = (t.runScript (edits.map .edit)).2.spot? id := by
  induction edits generalizing s t with
  | nil => exact hspot id
  | cons e edits ih =>
    obtain ⟨-, halike⟩ := h.runEdit e
    refine ih halike fun k => ?_
    change (s.runEdit e).2.spot? k = (t.runEdit e).2.spot? k
    rw [(changes_runEdit s e).spot?_eq, (changes_runEdit t e).spot?_eq, hspot,
      code?_eq_of_contents halike.contents]

end Spots

section Quiet

/-- Where recomputing is off and stays off, only the edits of a script do anything. -/
theorem runScript_quiet : ∀ {s : Sequence} {steps : List Step}, s.suppressed = true →
    (∀ step ∈ steps, step.isQuiet = true) →
    (s.runScript steps).2 = (s.runScript (plain steps)).2
      ∧ ∀ size, .recomputed size ∈ (s.runScript steps).1 → size = none
  | s, [], _, _ => ⟨rfl, fun size h => by cases h⟩
  | s, step :: steps, hs, hquiet => by
    have hrest := fun k hk => hquiet k (List.mem_cons_of_mem step hk)
    have hstep : (s.runStep step).2 = (s.runScript (plain [step])).2
        ∧ (s.runStep step).2.suppressed = true
        ∧ ∀ size, (s.runStep step).1 = .recomputed size → size = none := by
      cases step with
      | edit e => exact ⟨rfl, (suppressed_runEdit s e).trans hs, fun size h => by cases h⟩
      | recompute =>
        simp only [runStep, recompute_of_suppressed s hs]
        exact ⟨rfl, hs, fun size h => (Outcome.recomputed.inj h).symm⟩
      | suppress on =>
        obtain rfl : on = true := hquiet _ List.mem_cons_self
        refine ⟨?_, rfl, fun size h => by cases h⟩
        change s.setSuppressed true = s
        rw [setSuppressed, ← hs]
      | load steps => cases hquiet _ List.mem_cons_self
    obtain ⟨hstate, hsuppressed, hnone⟩ := hstep
    obtain ⟨hstates, hnones⟩ := runScript_quiet hsuppressed hrest
    refine ⟨?_, fun size hsize => ?_⟩
    · rw [plain_cons, runScript_append, ← hstate, ← hstates]
      rfl
    · rcases List.mem_cons.1 hsize with heq | hmem
      · exact hnone size heq.symm
      · exact hnones size hmem

end Quiet

section Load

/-- Ending a load of sequences that hold the same leaves the same, but for what is no member. -/
theorem Alike.endLoad (h : s.Alike t) : s.endLoad.SameButStale t.endLoad := by
  have hs := h.left.alike_suppressed false
  have ht := h.right.alike_suppressed false
  have hsame : (s.setSuppressed false).SameButLayout (t.setSuppressed false) :=
    hs.left.sameButLayout ht.left h.contents rfl
  rw [Sequence.endLoad, Sequence.endLoad, recompute_eq _ rfl, recompute_eq _ rfl]
  exact hsame.laidOut h.left.nodup

/-- Loading a script answers what its edits alone answer, and leaves what they leave once
recomputing is turned on and done, except for where the last layout put instructions that are not
members. There is no such exception if the script loads nothing itself and never turns recomputing
on; then no recompute in it does anything. -/
theorem runStep_load_eq_plain (hs : s.Reachable) (steps : List Step) :
    (s.runStep (.load steps)).1.results = resultsOf (s.runScript (plain steps)).1
      ∧ (s.runStep (.load steps)).2.SameButStale
        ((s.runScript (plain steps)).2.setSuppressed false).recompute.2
      ∧ ((∀ step ∈ steps, step.isQuiet = true) →
        (s.runStep (.load steps)).2 =
            ((s.runScript (plain steps)).2.setSuppressed false).recompute.2
          ∧ ∃ outcomes, (s.runStep (.load steps)).1 = .loaded outcomes
            ∧ ∀ size, .recomputed size ∈ outcomes → size = none) := by
  have hbegin : s.beginLoad.Alike s := hs.consistent.alike_suppressed true
  obtain ⟨hresults, halike⟩ := hbegin.runScript steps
  refine ⟨hresults, halike.endLoad, fun hquiet => ?_⟩
  obtain ⟨hstate, hnone⟩ := runScript_quiet (s := s.beginLoad) rfl hquiet
  refine ⟨?_, _, rfl, hnone⟩
  have hspot := hbegin.spot?_runScript (editsOf steps) fun id => rfl
  have hsame : ((s.beginLoad.runScript steps).2.setSuppressed false).SameButLayout
      ((s.runScript (plain steps)).2.setSuppressed false) :=
    (halike.left.alike_suppressed false).left.sameButLayout
      (halike.right.alike_suppressed false).left halike.contents rfl
  -- both runs made the same edits from the same spots, so they agree before the last recompute
  have heq : (s.beginLoad.runScript steps).2.setSuppressed false =
      (s.runScript (plain steps)).2.setSuppressed false := by
    refine hsame.eq_of_spot? fun id => ?_
    rw [hstate]
    exact hspot id
  exact congrArg (fun u : Sequence => u.recompute.2) heq

/-- The inner load lays out an instruction that is removed later, and without the loads nothing
does. The second script turns recomputing off once more and leaves no trace. -/
theorem runStep_load_eq_plain_nested :
    ∃ (nested quiet : List Step), empty.Reachable ∧ (∀ step ∈ quiet, step.isQuiet = true)
      ∧ (empty.runStep (.load nested)).2.SameButStale
        ((empty.runScript (plain nested)).2.setSuppressed false).recompute.2
      ∧ (empty.runStep (.load nested)).2.spot? ⟨1⟩ = some (1, 1)
      ∧ ((empty.runScript (plain nested)).2.setSuppressed false).recompute.2.spot? ⟨1⟩ =
        some (0, 0)
      ∧ (empty.runStep (.load quiet)).2 =
        ((empty.runScript (plain quiet)).2.setSuppressed false).recompute.2
      ∧ (empty.runStep (.load quiet)).2.length = 1 := by
  obtain ⟨nested, hnested⟩ : ∃ steps : List Step, steps =
      [.edit (.emit ⟨"nop", 0, .inlineNone⟩ .none),
        .load [.edit (.emit ⟨"nop", 0, .inlineNone⟩ .none)], .edit (.remove 1)] := ⟨_, rfl⟩
  obtain ⟨quiet, hquiet⟩ : ∃ steps : List Step, steps =
      [.edit (.emit ⟨"nop", 0, .inlineNone⟩ .none), .suppress true, .recompute,
        .edit (.append ⟨0⟩)] := ⟨_, rfl⟩
  have hreachable : empty.Reachable := ⟨[], rfl⟩
  have hsteps : ∀ step ∈ quiet, step.isQuiet = true := by simp [hquiet, Step.isQuiet]
  refine ⟨nested, quiet, hreachable, hsteps, (runStep_load_eq_plain hreachable nested).2.1,
    by rw [hnested]; decide +kernel, by rw [hnested]; decide +kernel,
    ((runStep_load_eq_plain hreachable quiet).2.2 hsteps).1, by rw [hquiet]; rfl⟩

end Load

end CilMethod.Sequence
