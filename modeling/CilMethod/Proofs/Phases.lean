import CilMethod.Listing.Reader
import CilMethod.Proofs.CodeStream
import CilMethod.Proofs.Contents
import Mathlib.Data.List.Nodup

/-!
# The phases of reading a listing

A source is read if all of its phases succeed, and then each of them hands something on: the lines,
the types, the variables, the labels, the instructions, the handlers (`Phases`). The listing is put
together from these alone (`read_eq_ok_iff`). The labels are those on the lines, in order and
without repetitions (`collectLabels_eq_ok_iff`), and emitting instructions one behind the other
gives each the number of its line as its handle (`contents_of_emitAll`).
-/

namespace CilMethod.Listing

section Labels

variable {labels out : Labels} {lines : List (Numbered CodeLine)} {name : String}
  {id : InstructionId} {next : Nat}

theorem find?_eq_some_iff_of_key {α κ : Type} [BEq κ] [LawfulBEq κ] {key : α → κ} {l : List α}
    (hkey : ∀ x ∈ l, ∀ y ∈ l, key x = key y → x = y) {k : κ} {x : α} :
    l.find? (key · == k) = some x ↔ x ∈ l ∧ key x = k := by
  constructor
  · intro h
    exact ⟨List.mem_of_find?_eq_some h, by simpa using List.find?_some h⟩
  · rintro ⟨hx, rfl⟩
    cases h : l.find? (key · == key x) with
    | none => exact absurd (List.find?_eq_none.1 h x hx) (by simp)
    | some y =>
      have hy : key y = key x := by simpa using List.find?_some h
      rw [hkey y (List.mem_of_find?_eq_some h) x hx hy]

/-- The labels on instruction lines, the first of which has the handle `next`. -/
def labelsFrom (next : Nat) : List (Numbered CodeLine) → Labels
  | [] => []
  | code :: rest =>
    match code.item.label with
    | some label => (label, ⟨next⟩) :: labelsFrom (next + 1) rest
    | none => labelsFrom (next + 1) rest

theorem mem_labelsFrom : (name, id) ∈ labelsFrom next lines ↔
    ∃ n code, lines[n]? = some code ∧ code.item.label = some name ∧ id = ⟨next + n⟩ := by
  induction lines generalizing next with
  | nil => simp [labelsFrom]
  | cons code rest ih =>
    have hrest : (name, id) ∈ labelsFrom (next + 1) rest ↔ ∃ n code', (code :: rest)[n + 1]? =
        some code' ∧ code'.item.label = some name ∧ id = ⟨next + (n + 1)⟩ := by
      rw [ih]
      simp only [List.getElem?_cons_succ, Nat.add_assoc, Nat.add_comm 1]
    have hfirst : (name, id) ∈ labelsFrom next (code :: rest) ↔
        (code.item.label = some name ∧ id = ⟨next⟩) ∨ (name, id) ∈ labelsFrom (next + 1) rest := by
      rw [labelsFrom]
      cases code.item.label with
      | none => simp
      | some label => simp [eq_comm]
    rw [hfirst, hrest]
    constructor
    · rintro (⟨hlabel, rfl⟩ | ⟨n, code', hn, h⟩)
      · exact ⟨0, code, rfl, hlabel, rfl⟩
      · exact ⟨n + 1, code', hn, h⟩
    · rintro ⟨n, code', hn, hlabel, rfl⟩
      cases n with
      | zero =>
        obtain rfl : code = code' := by simpa using hn
        exact .inl ⟨hlabel, rfl⟩
      | succ n => exact .inr ⟨n, code', hn, hlabel, rfl⟩

theorem labelsFrom_congr : ∀ {lines lines' : List (Numbered CodeLine)} {next : Nat},
    lines.map (·.item.label) = lines'.map (·.item.label) →
    labelsFrom next lines = labelsFrom next lines'
  | [], [], next, _ => rfl
  | [], _ :: _, next, h => by cases h
  | _ :: _, [], next, h => by cases h
  | code :: lines, code' :: lines', next, h => by
    simp only [List.map_cons, List.cons.injEq] at h
    rw [labelsFrom, labelsFrom, h.1, labelsFrom_congr h.2]

theorem isSome_findLabel? : (findLabel? labels name).isSome ↔ name ∈ labels.map Prod.fst := by
  simp [findLabel?, List.find?_isSome]

/-- Labels are collected unless one comes a second time. -/
theorem collectLabels_eq_ok_iff (hlabels : (labels.map Prod.fst).Nodup) :
    collectLabels labels next lines = .ok out ↔
      out = labels ++ labelsFrom next lines ∧ (out.map Prod.fst).Nodup := by
  induction lines generalizing labels next with
  | nil =>
    rw [collectLabels, labelsFrom, List.append_nil]
    constructor
    · rintro h
      obtain rfl := Except.ok.inj h
      exact ⟨rfl, hlabels⟩
    · rintro ⟨rfl, -⟩
      rfl
  | cons code rest ih =>
    obtain ⟨line, code⟩ := code
    rw [collectLabels, labelsFrom]
    dsimp only
    cases hlabel : code.label with
    | none => exact ih hlabels
    | some label =>
      dsimp only
      by_cases h : label ∈ labels.map Prod.fst
      · rw [if_pos (isSome_findLabel?.2 h)]
        refine ⟨nofun, ?_⟩
        rintro ⟨rfl, hnodup⟩
        rw [List.map_append, List.map_cons, List.nodup_append] at hnodup
        exact absurd rfl (hnodup.2.2 label h label List.mem_cons_self)
      · rw [if_neg (isSome_findLabel?.not.2 h), ih, List.append_assoc]
        · rfl
        · rw [List.map_append, List.nodup_append]
          refine ⟨hlabels, by simp, fun a ha b hb => ?_⟩
          obtain rfl : b = label := by simpa using hb
          rintro rfl
          exact h ha

/-- The labels are those on the lines, and no two lines have the same. -/
structure Labelled (lines : List (Numbered CodeLine)) (labels : Labels) : Prop where
  eq : labels = labelsFrom 0 lines
  nodup : (labels.map Prod.fst).Nodup

theorem collectLabels_nil_iff : collectLabels [] 0 lines = .ok labels ↔ Labelled lines labels := by
  have hnil : (([] : Labels).map Prod.fst).Nodup := List.nodup_nil
  rw [collectLabels_eq_ok_iff hnil, List.nil_append]
  exact ⟨fun h => ⟨h.1, h.2⟩, fun h => ⟨h.eq, h.nodup⟩⟩

namespace Labelled

theorem mem_iff (h : Labelled lines labels) : (name, id) ∈ labels ↔
    ∃ code, lines[id.index]? = some code ∧ code.item.label = some name := by
  rw [h.eq, mem_labelsFrom]
  constructor
  · rintro ⟨n, code, hn, hlabel, rfl⟩
    exact ⟨code, by simpa using hn, hlabel⟩
  · rintro ⟨code, hn, hlabel⟩
    exact ⟨id.index, code, hn, hlabel, by simp⟩

theorem findLabel?_eq_some_iff (h : Labelled lines labels) :
    findLabel? labels name = some id ↔ (name, id) ∈ labels := by
  have hkey : ∀ x ∈ labels, ∀ y ∈ labels, x.1 = y.1 → x = y := fun x hx y hy hxy =>
    List.inj_on_of_nodup_map h.nodup hx hy hxy
  rw [findLabel?, Option.map_eq_some_iff]
  simp only [find?_eq_some_iff_of_key hkey]
  constructor
  · rintro ⟨x, ⟨hx, rfl⟩, rfl⟩
    exact hx
  · intro hmem
    exact ⟨(name, id), ⟨hmem, rfl⟩, rfl⟩

/-- An instruction has at most one label, since it has one line. -/
theorem map_fst_find?_eq_some_iff (h : Labelled lines labels) :
    (labels.find? (·.2 == id)).map (·.1) = some name ↔ (name, id) ∈ labels := by
  have hkey : ∀ x ∈ labels, ∀ y ∈ labels, x.2 = y.2 → x = y := by
    rintro ⟨a, k⟩ hx ⟨b, k'⟩ hy hxy
    obtain rfl : k = k' := hxy
    obtain ⟨code, hn, ha⟩ := h.mem_iff.1 hx
    obtain ⟨code', hn', hb⟩ := h.mem_iff.1 hy
    obtain rfl : code = code' := Option.some.inj (hn.symm.trans hn')
    rw [Option.some.inj (ha.symm.trans hb)]
  rw [Option.map_eq_some_iff]
  simp only [find?_eq_some_iff_of_key hkey]
  constructor
  · rintro ⟨x, ⟨hx, rfl⟩, rfl⟩
    exact hx
  · intro hmem
    exact ⟨(name, id), ⟨hmem, rfl⟩, rfl⟩

theorem index_lt (h : Labelled lines labels) (hid : findLabel? labels name = some id) :
    id.index < lines.length := by
  obtain ⟨code, hn, -⟩ := h.mem_iff.1 (h.findLabel?_eq_some_iff.1 hid)
  exact (List.getElem?_eq_some_iff.1 hn).1

end Labelled

theorem findLabel_eq_ok_iff :
    findLabel labels name = .ok id ↔ findLabel? labels name = some id := by
  unfold findLabel
  cases findLabel? labels name <;> simp

end Labels

section Emit

variable {code : List (Opcode × Operand)} {s t : Sequence} {types : List TypeId} {l l' : Locals}

theorem build_eq_ok_iff {σ : Type} {edits : EStateM Error σ Unit} {start made : σ} :
    build edits start = .ok made ↔ edits.run start = .ok () made := by
  unfold build
  cases edits.run start <;> simp

theorem run_discard {ε σ α : Type} (x : EStateM ε σ α) (s : σ) :
    (discard x).run s = match x.run s with
      | .ok _ t => .ok () t
      | .error e t => .error e t := by
  rw [show discard x = (fun _ => ()) <$> x from rfl, map_eq_pure_bind, EStateM.run_bind]
  cases x.run s <;> rfl

theorem run_emitAll_cons {opcode : Opcode} {operand : Operand} :
    (emitAll ((opcode, operand) :: code)).run s = .ok () t ↔
      operand.fits opcode.operandType = true
        ∧ (emitAll code).run ((s.created opcode operand).inserted s.length ⟨s.nodes.size⟩) =
          .ok () t := by
  have hdiscard : (discard (Sequence.emit opcode operand)).run s =
      if operand.fits opcode.operandType then
        .ok () ((s.created opcode operand).inserted s.length ⟨s.nodes.size⟩)
      else .error (.operandMismatch opcode.name opcode.operandType) s := by
    rw [run_discard, Sequence.run_emit]
    split_ifs <;> rfl
  rw [emitAll]
  split_ifs at hdiscard with hfits
  · rw [run_bind_of_ok hdiscard]
    simp [hfits]
  · rw [run_bind_of_error hdiscard]
    simp [hfits]

/-- The edits that emit instructions one behind the other. -/
def emits (code : List (Opcode × Operand)) : List Sequence.Step :=
  code.map fun c => .edit (.emit c.1 c.2)

theorem runScript_emits : ∀ {code : List (Opcode × Operand)} {s : Sequence},
    (emitAll code).run s = .ok () t → (s.runScript (emits code)).2 = t
  | [], s, h => by
    cases h
    rfl
  | (opcode, operand) :: code, s, h => by
    obtain ⟨hfits, h⟩ := run_emitAll_cons.1 h
    have hstep : (s.runStep (.edit (.emit opcode operand))).2 =
        (s.created opcode operand).inserted s.length ⟨s.nodes.size⟩ := by
      have hrun : (Sequence.apply (.emit opcode operand)).run s =
          .ok (some ⟨s.nodes.size⟩)
            ((s.created opcode operand).inserted s.length ⟨s.nodes.size⟩) := by
        rw [Sequence.apply, map_eq_pure_bind, run_bind_of_ok
          (by rw [Sequence.run_emit, if_pos hfits])]
        rfl
      simp only [Sequence.runStep, Sequence.runEdit, hrun]
    change ((s.runStep (.edit (.emit opcode operand))).2.runScript (emits code)).2 = t
    rw [hstep]
    exact runScript_emits h

/-- Emitting adds the instructions to the end of both lists and touches no flag. -/
theorem contents_of_emitAll : ∀ {code : List (Opcode × Operand)} {s : Sequence},
    (emitAll code).run s = .ok () t →
    t.contents.arena = s.contents.arena ++ code
      ∧ t.contents.members = s.contents.members ++
        (List.range' s.nodes.size code.length).map InstructionId.mk
      ∧ t.suppressed = s.suppressed
  | [], s, h => by
    cases h
    simp
  | (opcode, operand) :: code, s, h => by
    obtain ⟨-, h⟩ := run_emitAll_cons.1 h
    obtain ⟨harena, hmembers, hsuppressed⟩ := contents_of_emitAll h
    have hlen : s.length = s.contents.members.length := by
      simp [Sequence.contents, Sequence.length]
    rw [Sequence.contents_inserted, Sequence.contents_created] at harena hmembers
    have hsize : ((s.created opcode operand).inserted s.length ⟨s.nodes.size⟩).nodes.size =
        s.nodes.size + 1 := by
      simp [Sequence.inserted, Sequence.created]
    refine ⟨by simpa using harena, ?_, ?_⟩
    · rw [hmembers, hsize, hlen, List.insertIdx_length_self, List.append_assoc, List.length_cons,
        List.range'_succ]
      rfl
    · rw [hsuppressed]
      simp [Sequence.inserted, Sequence.created]

theorem contents_emitted (h : (emitAll code).run Sequence.empty.beginLoad = .ok () t) :
    t.contents = ⟨(List.range code.length).map InstructionId.mk, code⟩ := by
  obtain ⟨harena, hmembers, -⟩ := contents_of_emitAll h
  rw [List.range_eq_range']
  exact congrArg₂ Contents.mk hmembers harena

end Emit

section Declare

variable {types : List TypeId} {l l' : Locals}

theorem reachable_after (h : l.Reachable) (e : Locals.Edit) : (l.after e).Reachable := by
  obtain ⟨edits, rfl⟩ := h
  exact ⟨edits ++ [e], by simp⟩

theorem run_declare (type : TypeId) (l : Locals) :
    (Locals.declare type).run l = match (Locals.append ⟨l.slots.size⟩).run (l.created type) with
      | .ok () l' => .ok ⟨l.slots.size⟩ l'
      | .error e l' => .error e l' := by
  rw [Locals.declare, run_bind_of_ok (Locals.run_create l type)]
  cases h : (Locals.append ⟨l.slots.size⟩).run (l.created type) with
  | ok a l' => rw [run_bind_of_ok h]; rfl
  | error e l' => rw [run_bind_of_error h]

theorem reachable_of_declareAll : ∀ {types : List TypeId} {l : Locals}, l.Reachable →
    (declareAll types).run l = .ok () l' → l'.Reachable
  | [], l, hl, h => by
    cases h
    exact hl
  | type :: types, l, hl, h => by
    have hnext := reachable_after (reachable_after hl (.create type)) (.append ⟨l.slots.size⟩)
    have hcreated : l.after (.create type) = l.created type := rfl
    rw [hcreated, Locals.after, Locals.after.left] at hnext
    have hdiscard := run_discard (Locals.declare type) l
    rw [run_declare] at hdiscard
    rw [declareAll] at h
    cases happend : (Locals.append ⟨l.slots.size⟩).run (l.created type) with
    | ok a next =>
      rw [happend] at hdiscard hnext
      rw [run_bind_of_ok hdiscard] at h
      exact reachable_of_declareAll hnext h
    | error e next =>
      rw [happend] at hdiscard
      rw [run_bind_of_error hdiscard] at h
      cases h

end Declare

section Operands

variable {labels : Labels} {locals : Locals} {line : Nat} {opcode : Opcode} {text : String}
  {operand : Operand}

theorem onLine_eq_ok_iff {α : Type} {r : Except LineFault α} {a : α} :
    onLine line r = .ok a ↔ r = .ok a := by
  cases r <;> simp [onLine]

/-- The operand names instructions that have labels and variables that are members. -/
structure Resolved (labels : Labels) (locals : Locals) (operand : Operand) : Prop where
  targets : ∀ id ∈ operand.targets, ∃ name, findLabel? labels name = some id
  localVar : ∀ v, operand = .localVar v → ∃ index, locals.get? index = some v

theorem Resolved.constant (htargets : operand.targets = []) (hvar : ∀ v, operand ≠ .localVar v) :
    Resolved labels locals operand :=
  ⟨fun id hid => by simp [htargets] at hid, fun v hv => absurd hv (hvar v)⟩

/-- A constant that is read on a line names nothing. -/
theorem Resolved.of_constant {α : Type} {read : Except LineFault α} {f : α → Operand}
    (h : onLine line (do return f (← read)) = .ok operand) (htargets : ∀ a, (f a).targets = [])
    (hvar : ∀ a v, f a ≠ .localVar v) : Resolved labels locals operand := by
  obtain ⟨a, -, ha⟩ := bind_eq_ok_iff.1 (onLine_eq_ok_iff.1 h)
  cases ha
  exact .constant (htargets a) (hvar a)

theorem exists_of_readToken {cs : List Char} (h : readToken cs = .ok operand) :
    ∃ token, operand = .token token := by
  unfold readToken at h
  split at h
  · split at h
    · cases h
      exact ⟨_, rfl⟩
    · cases h
  · obtain ⟨n, -, hn⟩ := bind_eq_ok_iff.1 h
    cases hn
    exact ⟨_, rfl⟩

theorem exists_of_readLiteral {cs : List Char} (h : readLiteral cs = .ok operand) :
    ∃ s, operand = .string s := by
  unfold readLiteral at h
  split at h
  · split_ifs at h
    cases h
    exact ⟨_, rfl⟩
  · cases h

theorem Resolved.of_readToken {cs : List Char} (h : readToken cs = .ok operand) :
    Resolved labels locals operand := by
  obtain ⟨token, rfl⟩ := exists_of_readToken h
  exact .constant rfl nofun

theorem Resolved.of_readLiteral {cs : List Char} (h : readLiteral cs = .ok operand) :
    Resolved labels locals operand := by
  obtain ⟨s, rfl⟩ := exists_of_readLiteral h
  exact .constant rfl nofun

theorem Resolved.of_readVariable {cs : List Char} (h : readVariable locals cs = .ok operand) :
    Resolved labels locals operand := by
  obtain ⟨index, -, h⟩ := bind_eq_ok_iff.1 h
  split at h
  · rename_i v hv
    cases h
    refine ⟨nofun, fun v' hv' => ?_⟩
    cases hv'
    exact ⟨index, hv⟩
  · cases h

theorem resolved_of_readOperand (h : readOperand labels locals line opcode text = .ok operand) :
    Resolved labels locals operand := by
  simp only [readOperand] at h
  split at h
  · split_ifs at h
    cases h
    exact .constant rfl nofun
  iterate 2
    · obtain ⟨id, hid, h⟩ := bind_eq_ok_iff.1 h
      cases h
      refine ⟨fun k hk => ⟨text, ?_⟩, nofun⟩
      obtain rfl : k = id := by simpa [Operand.targets] using hk
      exact findLabel_eq_ok_iff.1 hid
  · obtain ⟨ids, hids, h⟩ := bind_eq_ok_iff.1 h
    cases h
    refine ⟨fun k hk => ?_, nofun⟩
    obtain ⟨n, hn⟩ := List.mem_iff_getElem?.1 hk
    obtain ⟨name, -, hname⟩ := exists_of_forall₂ (mapM_eq_ok_iff.1 hids).flip hn
    exact ⟨name, findLabel_eq_ok_iff.1 hname⟩
  iterate 5
    · exact .of_constant h (fun _ => rfl) (fun _ _ => nofun)
  · exact .of_readLiteral (onLine_eq_ok_iff.1 h)
  iterate 5
    · exact .of_readToken (onLine_eq_ok_iff.1 h)
  iterate 2
    · exact .of_readVariable (onLine_eq_ok_iff.1 h)
  iterate 2
    · exact .of_constant h (fun _ => rfl) (fun _ _ => nofun)

theorem readCode_eq_ok_iff {parts : CodeLine} {c : Opcode × Operand} :
    readCode labels locals ⟨line, parts⟩ = .ok c ↔
      Opcode.named? (String.ofList (parts.mnemonic.toList.map Char.toLower)) = some c.1
        ∧ readOperand labels locals line c.1 parts.operand = .ok c.2 := by
  rw [readCode]
  cases Opcode.named? (String.ofList (parts.mnemonic.toList.map Char.toLower)) with
  | none => simp
  | some opcode =>
    simp only [bind_eq_ok_iff, Option.some.injEq]
    constructor
    · rintro ⟨operand, hoperand, h⟩
      cases h
      exact ⟨rfl, hoperand⟩
    · rintro ⟨rfl, hoperand⟩
      exact ⟨c.2, hoperand, rfl⟩

end Operands

section Handlers

variable {labels : Labels} {g g' : TypeGraph} {parts : TryLine} {rest : List TryLine}
  {handlers : List Handler} {kind : HandlerKind} {h : Handler}

theorem readRegions_eq_ok_iff : readRegions labels parts kind = .ok h ↔
    h.kind = kind ∧ findLabel? labels parts.tryStart = some h.tryStart
      ∧ regionEnd labels parts.tryEnd = .ok h.tryEnd
      ∧ findLabel? labels parts.handlerStart = some h.handlerStart
      ∧ regionEnd labels parts.handlerEnd = .ok h.handlerEnd := by
  rw [readRegions]
  simp only [bind_eq_ok_iff, findLabel_eq_ok_iff]
  constructor
  · rintro ⟨tryStart, h1, tryEnd, h2, handlerStart, h3, handlerEnd, h4, h⟩
    cases h
    exact ⟨rfl, h1, h2, h3, h4⟩
  · rintro ⟨rfl, h1, h2, h3, h4⟩
    exact ⟨_, h1, _, h2, _, h3, _, h4, rfl⟩

theorem readHandlers_cons_iff : readHandlers labels g (parts :: rest) = (.ok handlers, g') ↔
    ∃ kind g₁ h hs, readKind labels g parts.kind = (.ok kind, g₁)
      ∧ readRegions labels parts kind = .ok h ∧ readHandlers labels g₁ rest = (.ok hs, g')
      ∧ handlers = h :: hs := by
  rw [readHandlers]
  cases hkind : readKind labels g parts.kind with
  | mk result g₁ =>
    cases result with
    | error e => simp [Except.bind]
    | ok kind =>
      dsimp only [Except.bind]
      cases hregions : readRegions labels parts kind with
      | error e => simp [hregions]
      | ok h =>
        cases hrest : readHandlers labels g₁ rest with
        | mk result g₂ =>
          cases result <;> simp [Except.map, hregions, hrest, eq_comm, and_comm]

theorem regionEnd_eq_ok_some {name : String} {id : InstructionId}
    (h : regionEnd labels name = .ok (some id)) :
    name ≠ "end" ∧ findLabel? labels name = some id := by
  unfold regionEnd at h
  split_ifs at h with hend
  · cases h
  · obtain ⟨k, hk, hsome⟩ := map_eq_ok_iff.1 h
    cases hsome
    exact ⟨hend, findLabel_eq_ok_iff.1 hk⟩

theorem regionEnd_eq_ok_none {name : String} (h : regionEnd labels name = .ok none) :
    name = "end" := by
  unfold regionEnd at h
  split_ifs at h with hend
  · exact hend
  · obtain ⟨k, -, hsome⟩ := map_eq_ok_iff.1 h
    cases hsome

theorem filterStart_of_readKind {text : KindText} {start : InstructionId}
    (h : readKind labels g text = (.ok (.filterFrom start), g')) :
    ∃ name, text = .filterFrom name ∧ findLabel? labels name = some start := by
  cases text with
  | filterFrom name =>
    obtain ⟨k, hk, hkind⟩ := map_eq_ok_iff.1 (Prod.mk.inj h).1
    cases hkind
    exact ⟨name, rfl, findLabel_eq_ok_iff.1 hk⟩
  | _ => simp [readKind] at h

end Handlers

/-- The types of the variables that a line declares. -/
def Line.types : Line → List String
  | .locals types => types
  | _ => []

theorem localTypes_eq (lines : List (Numbered Line)) :
    localTypes lines = (lines.map (·.item)).flatMap Line.types := by
  rw [List.flatMap_map, localTypes]
  refine List.flatMap_congr fun line _ => ?_
  cases line.item <;> rfl

/-- The handler of a line. -/
def Line.region? : Line → Option TryLine
  | .region parts => some parts
  | _ => none

theorem tryLines_eq (lines : List (Numbered Line)) :
    tryLines lines = (lines.map (·.item)).filterMap Line.region? := by
  rw [List.filterMap_map, tryLines]
  refine List.filterMap_congr fun line _ => ?_
  rw [Function.comp_apply]
  cases line.item <;> rfl

/-- The instruction of a line. -/
def Line.code? : Line → Option CodeLine
  | .code parts => some parts
  | _ => none

theorem map_item_codeLines (lines : List (Numbered Line)) :
    (codeLines lines).map (·.item) = (lines.map (·.item)).filterMap Line.code? := by
  rw [List.filterMap_map, codeLines, List.map_filterMap]
  refine List.filterMap_congr fun line _ => ?_
  rw [Function.comp_apply]
  cases line.item <;> rfl

/-- What is found among lines depends on the lines alone and not on their numbers. -/
theorem parts_of_map_item {lines : List (Numbered Line)} {types : List (List String)}
    {tries : List TryLine} {codes : List CodeLine}
    (h : lines.map (·.item) = types.map .locals ++ (tries.map .region ++ codes.map .code)) :
    localTypes lines = types.flatten ∧ tryLines lines = tries
      ∧ (codeLines lines).map (·.item) = codes := by
  rw [localTypes_eq, tryLines_eq, map_item_codeLines, h]
  simp [List.flatMap_map, List.filterMap_map, Line.types, Line.region?, Line.code?,
    List.flatMap_id', Function.comp_def]

/-- What the phases of a reading that succeeds hand on. -/
structure Phases (source : String) (g : TypeGraph) where
  lines : List (Numbered Line)
  types : List TypeId
  /-- The graph with the types of the variables. -/
  graph : TypeGraph
  locals : Locals
  labels : Labels
  code : List (Opcode × Operand)
  loaded : Sequence
  handlers : List Handler
  /-- The graph with the types of the handlers, too. -/
  final : TypeGraph
  split : splitLines source = .ok lines
  resolve : resolveTypes g.addCore.2 (localTypes lines) = (types, graph)
  declare : (declareAll types).run {} = .ok () locals
  labelled : Labelled (codeLines lines) labels
  readCodes :
    List.Forall₂ (fun line c => readCode labels locals line = .ok c) (codeLines lines) code
  emit : (emitAll code).run Sequence.empty.beginLoad = .ok () loaded
  handle : readHandlers labels graph (tryLines lines) = (.ok handlers, final)

/-- The listing that the phases make. -/
def Phases.listing {source : String} {g : TypeGraph} (p : Phases source g) (method : MethodDef) :
    Listing where
  body := ({ method, instructions := p.loaded.endLoad, locals := p.locals,
             handlers := p.handlers.toArray } : Body).computeOffsets.2
  labels := p.labels

section Read

variable {source : String} {method : MethodDef} {g g' : TypeGraph} {l : Listing}

theorem readInstructions_eq_ok_iff {types : List TypeId} {lines : List (Numbered CodeLine)}
    {labels : Labels} {locals : Locals} {s : Sequence} :
    readInstructions types lines = .ok (labels, locals, s) ↔
      (declareAll types).run {} = .ok () locals ∧ Labelled lines labels
        ∧ ∃ code loaded, List.Forall₂ (fun line c => readCode labels locals line = .ok c) lines code
          ∧ (emitAll code).run Sequence.empty.beginLoad = .ok () loaded ∧ s = loaded.endLoad := by
  rw [readInstructions]
  simp only [bind_eq_ok_iff, build_eq_ok_iff, collectLabels_nil_iff, mapM_eq_ok_iff]
  constructor
  · rintro ⟨locals', hlocals, labels', hlabels, code, hcode, loaded, hloaded, h⟩
    cases h
    exact ⟨hlocals, hlabels, code, loaded, hcode, hloaded, rfl⟩
  · rintro ⟨hlocals, hlabels, code, loaded, hcode, hloaded, rfl⟩
    exact ⟨locals, hlocals, labels, hlabels, code, hcode, loaded, hloaded, rfl⟩

/-- A source is read exactly if its phases succeed. -/
theorem read_eq_ok_iff : read source method g = (.ok l, g') ↔
    ∃ p : Phases source g, l = p.listing method ∧ g' = p.final := by
  constructor
  · intro h
    unfold read readLines at h
    cases hsplit : splitLines source with
    | error e => simp [hsplit] at h
    | ok lines =>
      simp only [hsplit] at h
      cases hresolve : resolveTypes g.addCore.2 (localTypes lines) with
      | mk types graph =>
        simp only [hresolve] at h
        cases hread : readInstructions types (codeLines lines) with
        | error e => simp [hread] at h
        | ok parts =>
          obtain ⟨labels, locals, s⟩ := parts
          obtain ⟨hlocals, hlabels, code, loaded, hcode, hloaded, rfl⟩ :=
            readInstructions_eq_ok_iff.1 hread
          simp only [hread] at h
          cases hhandle : readHandlers labels graph (tryLines lines) with
          | mk result final =>
            rw [hhandle] at h
            obtain ⟨hresult, rfl⟩ := Prod.mk.inj h
            cases result with
            | error e => cases hresult
            | ok handlers =>
              exact ⟨⟨lines, types, graph, locals, labels, code, loaded, handlers, final, hsplit,
                hresolve, hlocals, hlabels, hcode, hloaded, hhandle⟩, (Except.ok.inj hresult).symm,
                rfl⟩
  · rintro ⟨p, rfl, rfl⟩
    have hread := readInstructions_eq_ok_iff.2
      ⟨p.declare, p.labelled, p.code, p.loaded, p.readCodes, p.emit, rfl⟩
    unfold read readLines
    simp only [p.split, p.resolve, hread, p.handle]
    rfl

end Read

end CilMethod.Listing
