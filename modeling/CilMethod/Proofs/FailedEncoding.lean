import CilMethod.Proofs.Faults
import CilMethod.Proofs.Layouts

/-!
# What a failed encoding leaves behind

An encoding lays the body out before it finds the first fault, and by then it may have listed some
literals. Nothing else of the body is written before the image is complete: after a failure the body
is as laying it out alone would have left it (`encode_body`), with the sections of the last encoding
that succeeded, and the literals are those from before and maybe some more (`extends_encode`). The
layout itself moves the members and nothing else. While recomputing is suppressed not even this is
done, and the cause says so (`encode_eq_suppressed_iff`).
-/

namespace CilMethod

section FaultOf

variable {ε α β : Type} {e : ε}

theorem faultOf_bind_ne {r : Except ε α} {f : α → Except ε β} (hr : faultOf r ≠ some e)
    (hf : ∀ a, faultOf (f a) ≠ some e) : faultOf (r >>= f) ≠ some e := by
  cases r with
  | ok a => exact hf a
  | error e' => exact hr

theorem faultOf_mapM_ne {f : α → Except ε β} (hf : ∀ x, faultOf (f x) ≠ some e)
    (xs : List α) : faultOf (xs.mapM f) ≠ some e := by
  rw [faultOf_mapM]
  intro h
  obtain ⟨x, -, hx⟩ := List.exists_of_findSome?_eq_some h
  exact hf x hx

end FaultOf

namespace Image

variable {g : TypeGraph} {strings strings' : UserStrings} {b b' : Body} {s : Sequence}
  {locals : Locals} {id : InstructionId} {i : Instruction} {e : Error}

section Parts

/-! What no part of a body can be blamed for. -/

theorem indexBytes_fault_ne {type : OperandType} {index : Nat} :
    faultOf (indexBytes id type index) ≠ some .recomputeSuppressed := by
  rw [faultOf_indexBytes]
  split_ifs <;> simp

theorem distanceBytes_fault_ne {origin width : Nat} (target : InstructionId) :
    faultOf (distanceBytes s id origin width target) ≠ some .recomputeSuppressed := by
  simp only [distanceBytes]
  split_ifs <;> simp

theorem operandBytes_fault_ne :
    faultOf (operandBytes strings s locals id i) ≠ some .recomputeSuppressed := by
  unfold operandBytes
  cases i.operand with
  | localVar v =>
    dsimp only
    split
    · exact indexBytes_fault_ne
    · simp
  | argument number => exact indexBytes_fault_ne
  | target target => exact distanceBytes_fault_ne target
  | switch targets =>
    dsimp only
    rw [faultOf_bind_pure]
    exact faultOf_mapM_ne distanceBytes_fault_ne targets
  | _ => simp

theorem writeMembers_fault_ne :
    ∀ {members : List (InstructionId × Instruction)} {strings : UserStrings} {code : Array UInt8},
    (∀ m ∈ members, ∀ strings, faultOf (operandBytes strings s locals m.1 m.2) ≠ some e) →
    faultOf (writeMembers s locals members strings code).1 ≠ some e
  | [], _, _, _ => by simp [writeMembers]
  | (id, i) :: members, strings, code, h => by
    rw [writeMembers]
    have hne := h (id, i) List.mem_cons_self (noteStrings strings i)
    cases hoperand : operandBytes (noteStrings strings i) s locals id i with
    | ok operand => exact writeMembers_fault_ne fun m hm => h m (List.mem_cons_of_mem _ hm)
    | error e' =>
      rw [hoperand] at hne
      exact hne

section Handlers

variable (hdangling : ∀ id, e ≠ .danglingReference id)

include hdangling

theorem boundaryOffset_fault_ne {codeSize : Nat} (boundary : Option InstructionId) :
    faultOf (boundaryOffset s codeSize boundary) ≠ some e := by
  unfold boundaryOffset
  split
  · simp
  · split_ifs
    · simp
    · exact fun h => hdangling _ (Option.some.inj h).symm

theorem clauseBytes_fault_ne {codeSize : Nat} (h : Handler) :
    faultOf (clauseBytes g s codeSize h) ≠ some e := by
  rw [clauseBytes, faultOf_bind_pure]
  have hboundary : ∀ boundary, faultOf (boundaryOffset s codeSize boundary) ≠ some e :=
    boundaryOffset_fault_ne hdangling
  refine faultOf_bind_ne (hboundary _) fun _ => faultOf_bind_ne (hboundary _) fun _ =>
    faultOf_bind_ne (hboundary _) fun _ => faultOf_bind_ne (hboundary _) fun _ => ?_
  cases h.kind with
  | filterFrom start => exact faultOf_bind_ne (hboundary _) fun _ h => by cases h
  | _ => simp

theorem handlerTable_fault_ne {codeSize : Nat} (handlers : List Handler) :
    faultOf (handlerTable g s codeSize handlers) ≠ some (.fault e) := by
  unfold handlerTable
  dsimp only
  split_ifs
  · simp
  · simp
  · rw [faultOf_bind_pure, faultOf_mapError]
    intro h
    obtain ⟨e', he', heq⟩ := Option.map_eq_some_iff.1 h
    rw [Failure.fault.inj heq] at he'
    exact faultOf_mapM_ne (clauseBytes_fault_ne hdangling) handlers he'

end Handlers

end Parts

section Encode

theorem encode_of_suppressed (h : b.instructions.suppressed = true) :
    encode g strings b = (.error (.fault .recomputeSuppressed), strings, b) := by
  rw [encode, Body.computeOffsets, Sequence.recompute_of_suppressed _ h]

/-- Laying out a body lays out its instructions and notes their size. -/
theorem computeOffsets_eq (h : b.instructions.suppressed = false) :
    b.computeOffsets = (some b.instructions.codeSize,
      { b with instructions := b.instructions.laidOut, codeSize := b.instructions.codeSize }) := by
  rw [Body.computeOffsets, Sequence.recompute_eq _ h]

/-- Apart from what is checked before the first instruction, and what only handlers can be blamed
for, an encoding fails for the reason that a member is the cause of. -/
theorem encode_fault_ne (hsuppressed : b.instructions.suppressed = true → e ≠ .recomputeSuppressed)
    (hsize : ∀ size, e ≠ .codeOverflow size) (hdangling : ∀ id, e ≠ .danglingReference id)
    (hmembers : ∀ m ∈ b.instructions.laidOut.members, ∀ strings,
      faultOf (operandBytes strings b.instructions.laidOut b.locals m.1 m.2) ≠ some e) :
    faultOf (encode g strings b).1 ≠ some (.fault e) := by
  cases h : b.instructions.suppressed with
  | true =>
    rw [encode_of_suppressed h]
    exact fun heq => hsuppressed h (Failure.fault.inj (Option.some.inj heq)).symm
  | false =>
    rw [encode, computeOffsets_eq h]
    dsimp only
    split_ifs
    · exact fun heq => hsize _ (Failure.fault.inj (Option.some.inj heq)).symm
    · have hwrite : faultOf (writeMembers b.instructions.laidOut b.locals
          b.instructions.laidOut.members strings #[]).1 ≠ some e := writeMembers_fault_ne hmembers
      split
      · rw [finish, faultOf_bind_pure]
        exact handlerTable_fault_ne hdangling _
      · rename_i hrun
        rw [hrun] at hwrite
        exact fun heq => hwrite (congrArg some (Failure.fault.inj (Option.some.inj heq)))

/-- The cause for which an encoding fails tells whether recomputing was suppressed. -/
theorem encode_eq_suppressed_iff :
    faultOf (encode g strings b).1 = some (.fault .recomputeSuppressed) ↔
      b.instructions.suppressed = true := by
  refine ⟨fun h => ?_, fun h => by rw [encode_of_suppressed h]; rfl⟩
  refine eq_true_of_ne_false fun hsuppressed => encode_fault_ne ?_ ?_ ?_ ?_ h
  · simp [hsuppressed]
  · simp
  · simp
  · exact fun m _ strings => operandBytes_fault_ne

/-- Whether it succeeds or not, an encoding leaves the body as laying it out does. -/
theorem encode_body (g : TypeGraph) (strings : UserStrings) (b : Body) :
    (encode g strings b).2.2 = b.computeOffsets.2 := by
  unfold encode
  cases b.computeOffsets with
  | mk codeSize b' =>
    cases codeSize with
    | none => rfl
    | some codeSize =>
      dsimp only
      split_ifs
      · rfl
      · split <;> rfl

theorem extends_writeMembers (s : Sequence) (locals : Locals) :
    ∀ (members : List (InstructionId × Instruction)) (strings : UserStrings) (code : Array UInt8),
    strings.Extends (writeMembers s locals members strings code).2
  | [], strings, _ => .refl strings
  | (id, i) :: members, strings, code => by
    rw [writeMembers]
    cases operandBytes (noteStrings strings i) s locals id i with
    | ok operand =>
      exact (extends_noteStrings strings i).trans (extends_writeMembers s locals members _ _)
    | error e => exact extends_noteStrings strings i

/-- Whether it succeeds or not, an encoding only adds literals. -/
theorem extends_encode (g : TypeGraph) (strings : UserStrings) (b : Body) :
    strings.Extends (encode g strings b).2.1 := by
  unfold encode
  cases b.computeOffsets with
  | mk codeSize b' =>
    cases codeSize with
    | none => exact .refl strings
    | some codeSize =>
      dsimp only
      have hwrite := extends_writeMembers b'.instructions b'.locals b'.instructions.members strings
        #[]
      split_ifs
      · exact .refl strings
      · split
        · rename_i hrun
          rwa [hrun] at hwrite
        · rename_i hrun
          rwa [hrun] at hwrite

end Encode

/-- What laying out a body changes: where its members are, and the code size that it notes. -/
theorem computeOffsets_frame (hb : b.Reachable) :
    b.computeOffsets.2 = { b with
        instructions := b.computeOffsets.2.instructions, codeSize := b.computeOffsets.2.codeSize }
      ∧ b.instructions.SameButPlaced b.computeOffsets.2.instructions := by
  cases h : b.instructions.suppressed with
  | true =>
    rw [Body.computeOffsets, Sequence.recompute_of_suppressed _ h]
    exact ⟨rfl, .refl _, fun _ _ => rfl⟩
  | false =>
    rw [computeOffsets_eq h]
    exact ⟨rfl, hb.instructions.consistent.sameButPlaced_laidOut⟩

/-- A header that cannot be computed leaves the program and its last encoding as they were. The body
is at most laid out anew, and the literals are at most more than before; with recomputing suppressed
nothing changes at all. -/
theorem computeHeader_error {e : Failure} (hb : b.Reachable)
    (h : b.computeHeader (encode g) strings = (.error e, strings', b')) :
    b' = { b with instructions := b'.instructions, codeSize := b'.codeSize }
      ∧ b.instructions.SameButPlaced b'.instructions ∧ b' = b.computeOffsets.2
      ∧ strings.Extends strings'
      ∧ (e = .fault .recomputeSuppressed → b' = b ∧ strings' = strings) := by
  have hencode : encode g strings b = (.error e, strings', b') := by
    rw [Body.computeHeader] at h
    split at h
    · cases (Prod.mk.inj h).1
    · rename_i hrun
      rw [hrun]
      obtain ⟨hcause, hrest⟩ := Prod.mk.inj h
      rw [Except.error.inj hcause, hrest]
  -- a failed encoding gets to the layout and not to the image
  have hbody : b' = b.computeOffsets.2 := by rw [← encode_body g strings b, hencode]
  have hstrings : strings.Extends strings' := by
    have hextends := extends_encode g strings b
    rwa [hencode] at hextends
  obtain ⟨hrest, hplaced⟩ := computeOffsets_frame hb
  rw [← hbody] at hrest hplaced
  refine ⟨hrest, hplaced, hbody, hstrings, ?_⟩
  rintro rfl
  have hsuppressed := encode_eq_suppressed_iff.1 (by rw [hencode]; rfl)
  rw [encode_of_suppressed hsuppressed] at hencode
  obtain ⟨-, hrest⟩ := Prod.mk.inj hencode
  obtain ⟨rfl, rfl⟩ := Prod.mk.inj hrest
  exact ⟨rfl, rfl⟩

/-- A literal is listed and the code is laid out before a branch turns out to lead nowhere; the code
of the last encoding stays. The second body is not even laid out. -/
theorem computeHeader_error_dangling :
    ∃ (b b' c c' : Body), b.Reachable ∧ c.Reachable
      ∧ b.computeHeader (encode .empty) .empty =
        (.error (.fault (.danglingReference ⟨1⟩)), ⟨#["a"]⟩, b')
      ∧ b.codeSize = 1 ∧ b'.codeSize = 7 ∧ b.sections.code = #[0x2a] ∧ b'.sections = b.sections
      ∧ b.instructions.SameButPlaced b'.instructions
      ∧ c.computeHeader (encode .empty) .empty = (.error (.fault .recomputeSuppressed), .empty, c')
      ∧ c' = c := by
  obtain ⟨b, hb, hfault, hstrings, hsize, hsize', hcode⟩ : ∃ b : Body, b.Reachable
      ∧ (b.computeHeader (encode .empty) .empty).1 = .error (.fault (.danglingReference ⟨1⟩))
      ∧ (b.computeHeader (encode .empty) .empty).2.1 = ⟨#["a"]⟩
      ∧ b.codeSize = 1 ∧ (b.computeHeader (encode .empty) .empty).2.2.codeSize = 7
      ∧ b.sections.code = #[0x2a] :=
    ⟨{ method := {}, codeSize := 1, sections := { code := #[0x2a] }
       instructions := (Sequence.empty.runScript
        [.edit (.emit ⟨"ldstr", 0x72, .inlineString⟩ (.string "a")),
          .edit (.create ⟨"nop", 0, .inlineNone⟩ .none),
          .edit (.emit ⟨"br.s", 0x2b, .shortInlineBrTarget⟩ (.target ⟨1⟩))]).2 },
      ⟨⟨_, rfl⟩, ⟨[], rfl⟩⟩, rfl, by decide +kernel, rfl, rfl, rfl⟩
  obtain ⟨c, c', hc, hsuppressed⟩ : ∃ c c' : Body, c.Reachable
      ∧ c.computeHeader (encode .empty) .empty =
        (.error (.fault .recomputeSuppressed), .empty, c') :=
    ⟨{ method := {}, instructions := (Sequence.empty.runScript [.suppress true]).2 }, _,
      ⟨⟨_, rfl⟩, ⟨[], rfl⟩⟩, rfl⟩
  have hheader : b.computeHeader (encode .empty) .empty = (.error (.fault (.danglingReference ⟨1⟩)),
      ⟨#["a"]⟩, (b.computeHeader (encode .empty) .empty).2.2) :=
    Prod.ext hfault (Prod.ext hstrings rfl)
  obtain ⟨hrest, hplaced, -⟩ := computeHeader_error hb hheader
  obtain ⟨-, -, -, -, hsame⟩ := computeHeader_error hc hsuppressed
  exact ⟨b, _, c, c', hb, hc, hheader, hsize, hsize', hcode, by rw [hrest], hplaced, hsuppressed,
    (hsame rfl).1⟩

end Image

end CilMethod
