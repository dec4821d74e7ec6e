import CilMethod.Proofs.SharedLiterals

/-!
# Encoding a second time

The first encoding of a body lays it out, notes its size, lists its literals and replaces its
sections. A second one finds nothing to do. What is laid out is laid out as before
(`computeOffsets_of_settled`), each literal is listed and keeps the row that was written for it
(`writeMembers_of_extends`), and the sections are not read. This also holds when other bodies have
been encoded in between: all that is asked of the table of literals is that it has only grown.
-/

namespace CilMethod

theorem UserStrings.insert_of_mem {t : UserStrings} {s : String} (h : s ∈ t.entries) :
    t.insert s = t := by
  rw [insert, if_pos (Array.contains_iff_mem.2 h)]

/-- Taking over an image a second time changes nothing. -/
theorem Body.install_install (b : Body) (image : Image) :
    (b.install image).install image = b.install image := by
  unfold install
  cases b.preserveMaxStack <;> cases image.maxStack <;> rfl

namespace Image

variable {g : TypeGraph} {strings strings' strings'' : UserStrings} {b b' : Body} {s : Sequence}
  {locals : Locals} {i : Instruction} {image : Image}

theorem noteStrings_of_listed
    (h : ∀ value, i.operand = .string value → value ∈ strings.entries) :
    noteStrings strings i = strings := by
  unfold noteStrings
  split
  · rename_i value hi
    exact UserStrings.insert_of_mem (h value hi)
  · rfl

/-- Members that have been written are written the same with any table that has grown since, and
have nothing to add to it. -/
theorem writeMembers_of_extends : ∀ {members : List (InstructionId × Instruction)}
    {strings : UserStrings} {code out : Array UInt8},
    writeMembers s locals members strings code = (.ok out, strings') →
    strings'.Extends strings'' →
    writeMembers s locals members strings'' code = (.ok out, strings'')
  | [], strings, code, out, h, _ => by
    obtain ⟨hout, -⟩ := Prod.mk.inj h
    rw [writeMembers, Except.ok.inj hout]
  | (id, i) :: members, strings, code, out, h, hextends => by
    rw [writeMembers] at h ⊢
    cases hoperand : operandBytes (noteStrings strings i) s locals id i with
    | error e => simp [hoperand] at h
    | ok operand =>
      simp only [hoperand] at h
      have hgrown : (noteStrings strings i).Extends strings'' :=
        (writeMembers_eq_ok h).1.trans hextends
      have hlisted : ∀ value, i.operand = .string value → value ∈ strings''.entries :=
        fun value hi => UserStrings.mem_of_extends hgrown (mem_noteStrings hi)
      have hsame : operandBytes strings'' s locals id i = .ok operand :=
        (operandBytes_of_extends hgrown fun value => mem_noteStrings).trans hoperand
      simp only [noteStrings_of_listed hlisted, hsame]
      exact writeMembers_of_extends h hextends

/-- A body that is laid out and knows its size is left as it is. -/
theorem computeOffsets_of_settled (hsuppressed : b.instructions.suppressed = false)
    (hlaidOut : b.instructions.laidOut = b.instructions)
    (hsize : b.codeSize = b.instructions.codeSize) : b.computeOffsets = (some b.codeSize, b) := by
  rw [computeOffsets_eq hsuppressed, hlaidOut, ← hsize]

/-- A body with its image taken over is encoded to the same image and left as it is. -/
theorem encode_install (hnodup : b.instructions.order.toList.Nodup)
    (h : encode g strings b = (.ok image, strings', b')) (hextends : strings'.Extends strings'') :
    encode g strings'' (b'.install image) = (.ok image, strings'', b'.install image) := by
  have hon : b.instructions.suppressed = false := by
    refine eq_false_of_ne_true fun hsuppressed => ?_
    rw [encode_of_suppressed hsuppressed] at h
    cases h
  obtain ⟨hbody, hsize, code, hwrite, hfinish⟩ := exists_finish h
  obtain ⟨-, himage, -⟩ := finish_eq_ok hfinish
  have hinstructions : b'.instructions = b.instructions.laidOut := by rw [hbody]
  have hnoted : b'.codeSize = b.instructions.codeSize := by rw [hbody]
  have hsettled : (b'.install image).computeOffsets =
      (some (b'.install image).codeSize, b'.install image) := by
    refine computeOffsets_of_settled ?_ ?_ ?_
    · change b'.instructions.suppressed = false
      rw [hinstructions]
      exact hon
    · change b'.instructions.laidOut = b'.instructions
      rw [hinstructions, Sequence.laidOut_laidOut hnodup]
    · change image.codeSize = b'.instructions.codeSize
      rw [himage, hnoted, hinstructions, Sequence.codeSize_laidOut hnodup]
  have hwrite' : writeMembers (b'.install image).instructions (b'.install image).locals
      (b'.install image).instructions.members strings'' #[] = (.ok code, strings'') :=
    writeMembers_of_extends hwrite hextends
  have hfinish' : finish g (b'.install image) (b'.install image).codeSize code = .ok image := by
    change finish g b' image.codeSize code = .ok image
    rw [himage, hfinish]
  have hshort : ¬ Bytes.limit 4 ≤ (b'.install image).codeSize := by
    change ¬ Bytes.limit 4 ≤ image.codeSize
    rw [himage]
    exact Nat.not_le.2 hsize
  rw [encode, hsettled]
  dsimp only
  rw [if_neg hshort, hwrite']
  dsimp only
  rw [hfinish']

/-- Encoding twice is encoding once: the second time succeeds, and leaves every part of the body and
the table of literals as the first has left them. -/
theorem computeHeader_again (hb : b.Reachable)
    (h : b.computeHeader (encode g) strings = (.ok (), strings', b')) :
    b'.computeHeader (encode g) strings' = (.ok (), strings', b') := by
  rw [Body.computeHeader] at h
  split at h
  · rename_i image strings₁ b₁ hrun
    obtain ⟨-, hrest⟩ := Prod.mk.inj h
    obtain ⟨rfl, rfl⟩ := Prod.mk.inj hrest
    rw [Body.computeHeader,
      encode_install hb.instructions.consistent.nodup hrun (.refl strings₁)]
    dsimp only
    rw [Body.install_install]
  · cases (Prod.mk.inj h).1

/-- A literal is used twice, another stands twice in the table from the start, and a branch goes
back over them. The body has not been laid out before. -/
theorem computeHeader_again_literals :
    ∃ (b b' : Body), b.Reachable ∧ b.codeSize = 0 ∧ b.sections.code = #[]
      ∧ b.computeHeader (encode .empty) ⟨#["b", "b"]⟩ = (.ok (), ⟨#["b", "b", "a"]⟩, b')
      ∧ b'.codeSize = 17 ∧ b'.sections.code =
        #[0x72, 3, 0, 0, 0x70, 0x72, 1, 0, 0, 0x70, 0x72, 3, 0, 0, 0x70, 0x2b, 0xef]
      ∧ b'.computeHeader (encode .empty) ⟨#["b", "b", "a"]⟩ =
        (.ok (), ⟨#["b", "b", "a"]⟩, b') := by
  obtain ⟨b, hb, hnoted, hempty, hok, hstrings, hsize, hcode⟩ : ∃ b : Body, b.Reachable
      ∧ b.codeSize = 0 ∧ b.sections.code = #[]
      ∧ (b.computeHeader (encode .empty) ⟨#["b", "b"]⟩).1 = .ok ()
      ∧ (b.computeHeader (encode .empty) ⟨#["b", "b"]⟩).2.1 = ⟨#["b", "b", "a"]⟩
      ∧ (b.computeHeader (encode .empty) ⟨#["b", "b"]⟩).2.2.codeSize = 17
      ∧ (b.computeHeader (encode .empty) ⟨#["b", "b"]⟩).2.2.sections.code =
        #[0x72, 3, 0, 0, 0x70, 0x72, 1, 0, 0, 0x70, 0x72, 3, 0, 0, 0x70, 0x2b, 0xef] :=
    ⟨{ method := {}, instructions := (Sequence.empty.runScript
        [.edit (.emit ⟨"ldstr", 0x72, .inlineString⟩ (.string "a")),
          .edit (.emit ⟨"ldstr", 0x72, .inlineString⟩ (.string "b")),
          .edit (.emit ⟨"ldstr", 0x72, .inlineString⟩ (.string "a")),
          .edit (.emit ⟨"br.s", 0x2b, .shortInlineBrTarget⟩ (.target ⟨0⟩))]).2 },
      ⟨⟨_, rfl⟩, ⟨[], rfl⟩⟩, rfl, rfl, by decide +kernel, by decide +kernel, by decide +kernel,
      by decide +kernel⟩
  have hheader : b.computeHeader (encode .empty) ⟨#["b", "b"]⟩ = (.ok (), ⟨#["b", "b", "a"]⟩,
      (b.computeHeader (encode .empty) ⟨#["b", "b"]⟩).2.2) := Prod.ext hok (Prod.ext hstrings rfl)
  exact ⟨b, _, hb, hnoted, hempty, hheader, hsize, hcode, computeHeader_again hb hheader⟩

end Image

end CilMethod
