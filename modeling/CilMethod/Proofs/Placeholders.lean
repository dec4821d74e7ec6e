import CilMethod.Proofs.Phases
import CilMethod.Proofs.Undoing

/-!
# Instructions that get their content later

A branch may name an instruction that comes after it. A handle for every instruction is at hand from
the start if placeholders are made first, and under a load each is given its opcode and operand and
is put behind the others. As long as the operands fit, no edit of this fails: the lists say so for
each of them (`Passes`), since the handles are known and none is a member before its turn. What is
left is what emitting the instructions one behind the other leaves.
-/

namespace CilMethod

open Sequence (Edit)

/-- The edits go through, one after the other, and leave these lists. -/
inductive Contents.Passes : Contents → List Edit → Contents → Prop where
  | nil (c : Contents) : Passes c [] c
  | cons {c next out : Contents} {e : Edit} {edits : List Edit} {answer : Option InstructionId}
      (he : c.edit e = .ok (answer, next)) (rest : Passes next edits out) :
      Passes c (e :: edits) out

namespace Sequence

variable {s t : Sequence} {edits : List Edit} {out : Contents}

/-- What the lists say of each edit, the edits of a consistent sequence do. -/
theorem Consistent.runScript_passes (hs : s.Consistent) (h : s.contents.Passes edits out) :
    (∀ r ∈ resultsOf (s.runScript (edits.map .edit)).1, ∃ answer, r = .ok answer)
      ∧ (s.runScript (edits.map .edit)).2.contents = out := by
  generalize hc : s.contents = c at h
  induction h generalizing s with
  | nil c => exact ⟨fun r hr => absurd hr List.not_mem_nil, hc⟩
  | @cons c next out e edits answer he _ ih =>
    obtain ⟨hresult, hcontents⟩ := hs.runEdit_spec e
    rw [hc, he] at hresult hcontents
    obtain ⟨hrest, hout⟩ := ih (consistent_invariant.runEdit e hs) hcontents
    refine ⟨fun r hr => ?_, hout⟩
    rcases List.mem_cons.1 hr with rfl | hr
    · exact ⟨answer, hresult⟩
    · exact hrest r hr

theorem changes_runEdits (s : Sequence) (edits : List Edit) :
    s.Changes (s.runScript (edits.map .edit)).2 := by
  induction edits generalizing s with
  | nil => exact .refl
  | cons e edits ih => exact (changes_runEdit s e).trans (ih _)

def placeholder : Opcode × Operand := (⟨"nop", 0, .inlineNone⟩, .none)

/-- Makes placeholders. -/
def reserve (count : Nat) : List Edit :=
  List.replicate count (.create placeholder.1 placeholder.2)

/-- Gives the placeholders from a handle on their content, and appends each. -/
def fill (next : Nat) : List (Opcode × Operand) → List Edit
  | [] => []
  | (opcode, operand) :: code =>
    .setInstruction ⟨next⟩ opcode operand :: .append ⟨next⟩ :: fill (next + 1) code

/-- A script that makes placeholders and then loads their content. -/
def loadInto (count : Nat) (code : List (Opcode × Operand)) : List Step :=
  (reserve count).map .edit ++ [.load ((fill 0 code).map .edit)]

/-- Making placeholders does not look at the suppression flag. -/
theorem runScript_reserve (on : Bool) (count : Nat) : ∀ s : Sequence,
    (s.runScript ((reserve count).map .edit)).2.setSuppressed on =
      ((s.setSuppressed on).runScript ((reserve count).map .edit)).2 := by
  induction count with
  | zero => exact fun s => rfl
  | succ count ih => exact fun s => ih (s.created placeholder.1 placeholder.2)

theorem passes_reserve (count : Nat) : ∀ c : Contents, c.Passes (reserve count)
    { c with arena := c.arena ++ List.replicate count placeholder } := by
  induction count with
  | zero =>
    intro c
    rw [List.replicate_zero, List.append_nil]
    exact .nil c
  | succ count ih =>
    intro c
    have hrest := ih { c with arena := c.arena ++ [placeholder] }
    rw [List.append_assoc, List.singleton_append, ← List.replicate_succ] at hrest
    exact .cons rfl hrest

/-- What has its content already is `done`, and these are the members. -/
theorem passes_fill (code : List (Opcode × Operand)) :
    ∀ (done rest : List (Opcode × Operand)), code.length ≤ rest.length →
    (∀ c ∈ code, c.2.fits c.1.operandType = true) →
    Contents.Passes ⟨(List.range done.length).map InstructionId.mk, done ++ rest⟩
      (fill done.length code)
      ⟨(List.range (done ++ code).length).map InstructionId.mk,
        done ++ code ++ rest.drop code.length⟩ := by
  induction code with
  | nil =>
    intro done rest _ _
    rw [fill, List.append_nil, List.length_nil, List.drop_zero]
    exact .nil _
  | cons c code ih =>
    obtain ⟨opcode, operand⟩ := c
    rintro done (_ | ⟨old, rest⟩) hlength hfits
    · simp at hlength
    · have hfit : operand.fits opcode.operandType = true := hfits _ List.mem_cons_self
      generalize hmembers : (List.range done.length).map InstructionId.mk = members
      have hset : Contents.edit ⟨members, done ++ old :: rest⟩
          (.setInstruction ⟨done.length⟩ opcode operand) =
          .ok (none, ⟨members, done ++ (opcode, operand) :: rest⟩) := by
        simp [Contents.edit, Contents.edit.silent, Contents.setInstruction, hfit, Except.map]
      have hknown : ¬ (done ++ (opcode, operand) :: rest).length ≤ done.length := by
        rw [List.length_append, List.length_cons]
        omega
      have hout : (⟨done.length⟩ : InstructionId) ∉ members := by simp [← hmembers]
      have happend : Contents.edit ⟨members, done ++ (opcode, operand) :: rest⟩
          (.append ⟨done.length⟩) =
          .ok (none, ⟨members ++ [⟨done.length⟩], done ++ (opcode, operand) :: rest⟩) := by
        rw [Contents.edit, Contents.append, Contents.place, if_neg hknown, if_neg hout]
        rfl
      have hrest := ih (done ++ [(opcode, operand)]) rest (by simpa using hlength)
        fun c hc => hfits c (List.mem_cons_of_mem _ hc)
      rw [List.length_append, List.length_singleton, List.range_succ, List.map_append, hmembers,
        List.append_assoc, List.append_assoc] at hrest
      exact .cons hset (.cons happend hrest)

theorem changes_emitAll {code : List (Opcode × Operand)}
    (h : (Listing.emitAll code).run s = .ok () t) : s.Changes t := by
  have hedits : Listing.emits code = (code.map fun c => Edit.emit c.1 c.2).map .edit := by
    rw [List.map_map]
    rfl
  rw [← Listing.runScript_emits h, hedits]
  exact changes_runEdits s _

section Load

variable {code : List (Opcode × Operand)} {count : Nat}

theorem Consistent.runScript_fill (hs : s.Consistent) (hcount : code.length ≤ count)
    (hfits : ∀ c ∈ code, c.2.fits c.1.operandType = true)
    (hreserved : s.contents = ⟨[], List.replicate count placeholder⟩) :
    (∀ r ∈ resultsOf (s.runScript ((fill 0 code).map .edit)).1, ∃ answer, r = .ok answer)
      ∧ (s.runScript ((fill 0 code).map .edit)).2.contents =
        ⟨(List.range code.length).map InstructionId.mk,
          code ++ (List.replicate count placeholder).drop code.length⟩ := by
  refine hs.runScript_passes ?_
  rw [hreserved]
  exact passes_fill code [] _ (by simpa using hcount) hfits

/-- Loading into placeholders goes through, and if each of them is used, it leaves what emitting
leaves. -/
theorem loadInto_spec (hcount : code.length ≤ count)
    (hfits : ∀ c ∈ code, c.2.fits c.1.operandType = true) :
    (∀ r ∈ resultsOf (empty.runScript (loadInto count code)).1, ∃ answer, r = .ok answer)
      ∧ (count = code.length → ∀ t, (Listing.emitAll code).run empty.beginLoad = .ok () t →
        (empty.runScript (loadInto count code)).2 = t.endLoad) := by
  obtain ⟨hmade, hreserved⟩ := Consistent.empty.runScript_passes (passes_reserve count _)
  have hbegin := runScript_reserve true count empty
  have hs := consistent_invariant.changes (changes_runEdits empty (reserve count)) .empty
  rw [loadInto, runScript_append, resultsOf_append]
  generalize (empty.runScript ((reserve count).map .edit)).2 = s at *
  have hload : s.beginLoad.Consistent := consistent_invariant.suppress true hs
  obtain ⟨hfilled, hleft⟩ := hload.runScript_fill hcount hfits hreserved
  refine ⟨fun r hr => ?_, fun hall t ht => ?_⟩
  · rcases List.mem_append.1 hr with hr | hr
    · exact hmade r hr
    · exact hfilled r (by simpa [resultsOf, Outcome.results, runScript, runStep] using hr)
  · -- both ways are changes of the empty sequence with recomputing off, and the lists agree
    have hempty : empty.beginLoad.Consistent := consistent_invariant.suppress true .empty
    have hreserve : empty.beginLoad.Changes s.beginLoad := by
      rw [beginLoad, beginLoad, hbegin]
      exact changes_runEdits _ _
    have hsame : (s.beginLoad.runScript ((fill 0 code).map .edit)).2 = t := by
      refine Changes.eq_of_contents hempty (hreserve.trans (changes_runEdits _ _))
        (changes_emitAll ht) ?_
      rw [hleft, Listing.contents_emitted ht, hall, List.drop_eq_nil_of_le (by simp),
        List.append_nil]
    exact congrArg Sequence.endLoad hsame

end Load

end Sequence

end CilMethod
