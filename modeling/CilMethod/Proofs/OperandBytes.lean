import CilMethod.Proofs.SharedLiterals

/-!
# What the bytes of an instruction are

The bytes of an operand are described by what they stand for, one kind of operand at a time
(`Operand.SpelledBy`): a number is the number that its bytes make, a literal is its place in the
table of literals, a variable its position among the variables, and a branch the way from the end of
its instruction to its target. No operand is spelled by other bytes as well (`SpelledBy.unique`).
The code of an encoded body has these bytes behind the opcode of each member, at the offset of the
member and as many as its size says (`encode_code_eq`). None of this asks whether the opcode is one
of the table.
-/

namespace CilMethod

section Numbers

namespace Bytes

/-- So many bytes that stand for a number, least significant first. -/
def Unsigned (width n : Nat) (bytes : List UInt8) : Prop :=
  bytes.length = width ∧ ofLittle bytes = n

/-- So many bytes that stand for a signed number in two's complement, least significant first. -/
def Signed (width : Nat) (n : Int) (bytes : List UInt8) : Prop :=
  bytes.length = width ∧ Int.bmod (ofLittle bytes) (limit width) = n

theorem ofLittle_lt : ∀ bytes : List UInt8, ofLittle bytes < limit bytes.length
  | [] => limit_pos 0
  | byte :: bytes => by
    have hbyte := byte.toNat_lt
    have hrest := ofLittle_lt bytes
    rw [ofLittle, List.length_cons, limit_succ]
    omega

/-- Of so many bytes, only one stretch stands for a number. -/
theorem ofLittle_inj : ∀ {bytes bytes' : List UInt8}, bytes.length = bytes'.length →
    ofLittle bytes = ofLittle bytes' → bytes = bytes'
  | [], [], _, _ => rfl
  | byte :: bytes, byte' :: bytes', hlength, h => by
    have hbyte := byte.toNat_lt
    have hbyte' := byte'.toNat_lt
    rw [ofLittle, ofLittle] at h
    have hfirst : byte = byte' := UInt8.toNat_inj.1 (by omega)
    have hrest : bytes = bytes' := ofLittle_inj (Nat.succ.inj hlength) (by omega)
    rw [hfirst, hrest]

theorem Unsigned.unique {width n : Nat} {bytes bytes' : List UInt8} (h : Unsigned width n bytes)
    (h' : Unsigned width n bytes') : bytes = bytes' :=
  ofLittle_inj (h.1.trans h'.1.symm) (h.2.trans h'.2.symm)

theorem Signed.unique {width : Nat} {n : Int} {bytes bytes' : List UInt8}
    (h : Signed width n bytes) (h' : Signed width n bytes') : bytes = bytes' := by
  obtain ⟨rfl, hn⟩ := h
  obtain ⟨hlength, hn'⟩ := h'
  have hlt := ofLittle_lt bytes
  have hlt' := ofLittle_lt bytes'
  rw [hlength] at hlt'
  refine ofLittle_inj hlength.symm (Int.ofNat_inj.1 ?_)
  -- numbers below the limit that are the same signed number leave the same remainder
  have hmod : (ofLittle bytes : Int) % limit bytes.length =
      (ofLittle bytes' : Int) % limit bytes.length := by
    rw [← Int.bmod_emod, hn, ← hn', Int.bmod_emod]
  rwa [Int.emod_eq_of_lt (by omega) (by omega), Int.emod_eq_of_lt (by omega) (by omega)] at hmod

theorem unsigned_little {width n : Nat} (h : n < limit width) :
    Unsigned width n (little width n) :=
  ⟨length_little width n, ofLittle_little h⟩

theorem signed_little {width n : Nat} (h : n < limit width) :
    Signed width (Int.bmod n (limit width)) (little width n) :=
  ⟨length_little width n, by rw [ofLittle_little h]⟩

theorem signed_signedLittle {width : Nat} {n : Int} (h : holdsSigned width n = true) :
    Signed width n (signedLittle width n) := by
  have hread := signed?_append h []
  have hall : (signedLittle width n).take width = signedLittle width n :=
    List.take_of_length_le (Nat.le_of_eq (length_signedLittle width n))
  rw [List.append_nil, signed?, little?, length_signedLittle, if_pos (Nat.le_refl width), hall,
    Option.map_some] at hread
  exact ⟨length_signedLittle width n, Option.some.inj hread⟩

end Bytes

end Numbers

section Spelling

/-- The bytes of an opcode: its number, or the lead byte in front of the low byte of a number that
takes more than one. -/
def Opcode.SpelledBy (op : Opcode) (bytes : List UInt8) : Prop :=
  if op.value.toNat < 256 then Bytes.Unsigned 1 op.value.toNat bytes
  else ∃ low, bytes = 0xfe :: low ∧ Bytes.Unsigned 1 (op.value.toNat % 256) low

theorem Opcode.SpelledBy.unique {op : Opcode} {bytes bytes' : List UInt8}
    (h : op.SpelledBy bytes) (h' : op.SpelledBy bytes') : bytes = bytes' := by
  unfold SpelledBy at h h'
  split_ifs at h h' with hsmall
  · exact h.unique h'
  · obtain ⟨low, rfl, hlow⟩ := h
    obtain ⟨low', rfl, hlow'⟩ := h'
    rw [hlow.unique hlow']

theorem Opcode.isTwoByte_iff {op : Opcode} : op.isTwoByte = true ↔ 256 ≤ op.value.toNat := by
  simp only [isTwoByte, decide_eq_true_eq, UInt16.lt_iff_toNat_lt, UInt16.reduceToNat]
  omega

theorem Opcode.spelledBy_bytes (op : Opcode) : op.SpelledBy op.bytes := by
  have hlow : Bytes.Unsigned 1 (op.value.toNat % 256) [op.value.toUInt8] := by
    refine ⟨rfl, ?_⟩
    simp [Bytes.ofLittle]
  by_cases hsmall : op.value.toNat < 256
  · rw [SpelledBy, if_pos hsmall, bytes, if_neg (isTwoByte_iff.not.2 (Nat.not_le.2 hsmall))]
    rwa [Nat.mod_eq_of_lt hsmall] at hlow
  · rw [SpelledBy, if_neg hsmall, bytes, if_pos (isTwoByte_iff.2 (Nat.not_lt.1 hsmall))]
    exact ⟨_, rfl, hlow⟩

theorem Opcode.spelledBy_iff {op : Opcode} {bytes : List UInt8} :
    op.SpelledBy bytes ↔ bytes = op.bytes :=
  ⟨fun h => h.unique op.spelledBy_bytes, fun h => h ▸ op.spelledBy_bytes⟩

/-- Bytes of a distance that lead from an origin to a member. -/
def Image.Points (s : Sequence) (origin width : Nat) (target : InstructionId)
    (bytes : List UInt8) : Prop :=
  ∃ t, (target, t) ∈ s.members ∧ Bytes.Signed width ((t.offset : Int) - origin) bytes

theorem Image.Points.unique {s : Sequence} {origin width : Nat} {target : InstructionId}
    {bytes bytes' : List UInt8} (h : Points s origin width target bytes)
    (h' : Points s origin width target bytes') : bytes = bytes' := by
  obtain ⟨t, ht, hbytes⟩ := h
  obtain ⟨t', ht', hbytes'⟩ := h'
  have hnode := (Sequence.mk_mem_members.1 ht).2
  rw [(Sequence.mk_mem_members.1 ht').2] at hnode
  obtain rfl := Option.some.inj hnode
  exact hbytes.unique hbytes'

/-- What the bytes of an operand stand for. Literals are places in `strings`, variables positions in
`locals`, targets members of `s`; distances count from `origin`. -/
inductive Operand.SpelledBy (strings : UserStrings) (s : Sequence) (locals : Locals)
    (type : OperandType) (origin : Nat) : Operand → List UInt8 → Prop where
  | none : SpelledBy strings s locals type origin .none []
  | int8 {value : Int8} {bytes : List UInt8} (h : Bytes.Signed 1 value.toInt bytes) :
      SpelledBy strings s locals type origin (.int8 value) bytes
  | int32 {value : Int32} {bytes : List UInt8} (h : Bytes.Signed 4 value.toInt bytes) :
      SpelledBy strings s locals type origin (.int32 value) bytes
  | int64 {value : Int64} {bytes : List UInt8} (h : Bytes.Signed 8 value.toInt bytes) :
      SpelledBy strings s locals type origin (.int64 value) bytes
  | float32 {bits : UInt32} {bytes : List UInt8} (h : Bytes.Unsigned 4 bits.toNat bytes) :
      SpelledBy strings s locals type origin (.float32 bits) bytes
  | float64 {bits : UInt64} {bytes : List UInt8} (h : Bytes.Unsigned 8 bits.toNat bytes) :
      SpelledBy strings s locals type origin (.float64 bits) bytes
  /-- The top byte of the token of a literal is `0x70`, the others count its row from one. -/
  | string {value : String} {place : Nat} {bytes : List UInt8}
      (hplace : strings.entries.toList.idxOf? value = some place)
      (h : Bytes.Unsigned 4 (0x70000000 + (place + 1) % 0x1000000) bytes) :
      SpelledBy strings s locals type origin (.string value) bytes
  | token {value : Token} {bytes : List UInt8} (h : Bytes.Unsigned 4 value.raw.toNat bytes) :
      SpelledBy strings s locals type origin (.token value) bytes
  | localVar {v : VariableId} {index : Nat} {bytes : List UInt8}
      (hindex : locals.get? index = some v)
      (h : Bytes.Unsigned (if type = .shortInlineVar then 1 else 2) index bytes) :
      SpelledBy strings s locals type origin (.localVar v) bytes
  | argument {number : UInt16} {bytes : List UInt8}
      (h : Bytes.Unsigned (if type = .shortInlineArg then 1 else 2) number.toNat bytes) :
      SpelledBy strings s locals type origin (.argument number) bytes
  | target {id : InstructionId} {bytes : List UInt8}
      (h : Image.Points s origin (if type = .shortInlineBrTarget then 1 else 4) id bytes) :
      SpelledBy strings s locals type origin (.target id) bytes
  /-- The length of a jump table comes first, then one distance for each target. -/
  | switch {ids : List InstructionId} {count : List UInt8} {distances : List (List UInt8)}
      (hcount : Bytes.Unsigned 4 ids.length count)
      (h : List.Forall₂ (Image.Points s origin 4) ids distances) :
      SpelledBy strings s locals type origin (.switch ids) (count ++ distances.flatten)

/-- Only one stretch of bytes spells an operand. -/
theorem Operand.SpelledBy.unique {strings : UserStrings} {s : Sequence} {locals : Locals}
    {type : OperandType} {origin : Nat} {operand : Operand} {bytes bytes' : List UInt8}
    (hlocals : locals.Reachable) (h : operand.SpelledBy strings s locals type origin bytes)
    (h' : operand.SpelledBy strings s locals type origin bytes') : bytes = bytes' := by
  cases h with
  | none =>
    cases h'
    rfl
  | int8 h | int32 h | int64 h | float32 h | float64 h | token h | argument h | target h =>
    cases h'
    rename_i h'
    exact h.unique h'
  | string hplace h =>
    cases h' with
    | string hplace' h' =>
      obtain rfl := Option.some.inj (hplace.symm.trans hplace')
      exact h.unique h'
  | localVar hindex h =>
    cases h' with
    | localVar hindex' h' =>
      have hnumber := hlocals.indexOf?_eq_some_iff.2 hindex
      rw [hlocals.indexOf?_eq_some_iff.2 hindex'] at hnumber
      obtain rfl := Option.some.inj hnumber
      exact h.unique h'
  | switch hcount h =>
    cases h' with
    | switch hcount' h' =>
      have hunique : Relator.RightUnique (Image.Points s origin 4) := fun _ _ _ =>
        Image.Points.unique
      rw [hcount.unique hcount', List.right_unique_forall₂' hunique h h']

end Spelling

section Literals

theorem UserStrings.toNat_token {t : UserStrings} {value : String} {place : Nat}
    (h : t.entries.toList.idxOf? value = some place) :
    (t.token value).raw.toNat = 0x70000000 + (place + 1) % 0x1000000 := by
  have hrow : (place.toUInt32 + 1).toNat % (1 <<< 24) = (place + 1) % 0x1000000 := by
    rw [UInt32.toNat_add, Nat.toUInt32, UInt32.toNat_ofNat']
    change (place % 4294967296 + 1) % 4294967296 % 16777216 = (place + 1) % 16777216
    omega
  rw [token_eq, h, Option.getD_some, Token.toNat_ofRow, hrow]
  rfl

end Literals

namespace Image

variable {g : TypeGraph} {strings strings' : UserStrings} {s : Sequence} {locals : Locals}
  {b b' : Body} {image : Image} {id : InstructionId} {i : Instruction} {bytes : List UInt8}

section Operands

theorem points_of_distanceBytes (hs : s.Consistent) (hlocated : Located 0 s.members)
    (hsize : s.codeSize < Bytes.limit 4) {origin width : Nat} (horigin : origin ≤ s.codeSize)
    {target : InstructionId} (h : distanceBytes s id origin width target = .ok bytes) :
    Points s origin width target bytes := by
  obtain ⟨hmember, hholds, rfl⟩ := distanceBytes_eq_ok h
  obtain ⟨hmem, hgoal⟩ := Leads.add_eq hs hlocated hsize horigin ⟨hmember, rfl⟩
  obtain ⟨t, ht⟩ := hs.exists_node hmem
  have hoffset : s.offsetOf target = t.offset := by rw [Sequence.offsetOf, ht]; rfl
  have hdistance : Offset.distance (s.offsetOf target) origin = (t.offset : Int) - origin := by
    omega
  rw [hdistance] at hholds ⊢
  exact ⟨t, Sequence.mk_mem_members.2 ⟨hmem, ht⟩, Bytes.signed_signedLittle hholds⟩

/-- The bytes that are written for the operand of a member are those that it is spelled by. -/
theorem spelledBy_operandBytes (hs : s.Consistent) (hlocated : Located 0 s.members)
    (hsize : s.codeSize < Bytes.limit 4) (hlocals : locals.Reachable) (hm : (id, i) ∈ s.members)
    (hlisted : ∀ value, i.operand = .string value → value ∈ strings.entries)
    (h : operandBytes strings s locals id i = .ok bytes) :
    i.operand.SpelledBy strings s locals i.opcode.operandType (i.offset + i.size) bytes := by
  have hend : i.offset + i.size ≤ s.codeSize := by
    simpa [Sequence.codeSize] using hlocated.end_le hm
  have hfits := hs.fits_members _ hm
  cases hi : i.operand with
  | none =>
    obtain rfl : [] = bytes := by simpa [operandBytes, hi] using h
    exact .none
  | int8 value =>
    obtain rfl : Bytes.little 1 value.toUInt8.toNat = bytes := by simpa [operandBytes, hi] using h
    refine .int8 ?_
    rw [Int8.toInt, BitVec.toInt_eq_toNat_bmod]
    exact Bytes.signed_little value.toUInt8.toNat_lt
  | int32 value =>
    obtain rfl : Bytes.little 4 value.toUInt32.toNat = bytes := by
      simpa [operandBytes, hi] using h
    refine .int32 ?_
    rw [Int32.toInt, BitVec.toInt_eq_toNat_bmod]
    exact Bytes.signed_little value.toUInt32.toNat_lt
  | int64 value =>
    obtain rfl : Bytes.little 8 value.toUInt64.toNat = bytes := by
      simpa [operandBytes, hi] using h
    refine .int64 ?_
    rw [Int64.toInt, BitVec.toInt_eq_toNat_bmod]
    exact Bytes.signed_little value.toUInt64.toNat_lt
  | float32 bits =>
    obtain rfl : Bytes.little 4 bits.toNat = bytes := by simpa [operandBytes, hi] using h
    exact .float32 (Bytes.unsigned_little bits.toNat_lt)
  | float64 bits =>
    obtain rfl : Bytes.little 8 bits.toNat = bytes := by simpa [operandBytes, hi] using h
    exact .float64 (Bytes.unsigned_little bits.toNat_lt)
  | string value =>
    obtain rfl : Bytes.little 4 (strings.token value).raw.toNat = bytes := by
      simpa [operandBytes, hi] using h
    obtain ⟨place, hplace⟩ := Option.isSome_iff_exists.1
      (List.isSome_idxOf?.2 (Array.mem_toList_iff.2 (hlisted value hi)))
    refine .string hplace ?_
    rw [← UserStrings.toNat_token hplace]
    exact Bytes.unsigned_little (strings.token value).raw.toNat_lt
  | token value =>
    obtain rfl : Bytes.little 4 value.raw.toNat = bytes := by simpa [operandBytes, hi] using h
    exact .token (Bytes.unsigned_little value.raw.toNat_lt)
  | localVar v =>
    simp only [operandBytes, hi] at h
    split at h
    · rename_i index hindex
      obtain ⟨hlt, rfl⟩ := indexBytes_eq_ok h
      refine .localVar (hlocals.indexOf?_eq_some_iff.1 hindex) ?_
      simp only [hi, Operand.fits, Bool.or_eq_true, beq_iff_eq] at hfits
      rcases hfits with htype | htype <;>
        simpa [htype, indexWidth] using Bytes.unsigned_little hlt
    · cases h
  | argument number =>
    simp only [operandBytes, hi] at h
    obtain ⟨hlt, rfl⟩ := indexBytes_eq_ok h
    refine .argument ?_
    simp only [hi, Operand.fits, Bool.or_eq_true, beq_iff_eq] at hfits
    rcases hfits with htype | htype <;>
      simpa [htype, indexWidth] using Bytes.unsigned_little hlt
  | target target =>
    simp only [operandBytes, hi] at h
    exact .target (points_of_distanceBytes hs hlocated hsize hend h)
  | switch targets =>
    obtain ⟨distances, hdistances, rfl⟩ := switch_eq_ok hi h
    have hlength : targets.length ≤ i.size := by
      simpa [hi, Operand.tableLength] using Operand.tableLength_le_size hfits
    exact .switch (Bytes.unsigned_little (by omega))
      (hdistances.imp fun _ _ => points_of_distanceBytes hs hlocated hsize hend)

end Operands

section Code

/-- The code of an encoding is as long as the sizes of the members say, and the bytes of each member
stand at its offset: those that its opcode is spelled by and no others, and behind them those of its
operand. -/
theorem encode_code_eq (hb : b.Reachable)
    (h : encode g strings b = (.ok image, strings', b')) :
    image.sections.code.size = image.codeSize ∧ b'.codeSize = image.codeSize
      ∧ b.instructions.codeSize = image.codeSize
      ∧ Offset.total (b'.instructions.members.map (·.2.size)) = image.codeSize
      ∧ ∀ id i, (id, i) ∈ b'.instructions.members →
        ∃ opcode operand, (∀ bytes, i.opcode.SpelledBy bytes ↔ bytes = opcode)
          ∧ (∀ bytes, i.operand.SpelledBy strings' b'.instructions b'.locals i.opcode.operandType
            (i.offset + i.size) bytes ↔ bytes = operand)
          ∧ image.sections.code.extract i.offset (i.offset + i.size) =
            (opcode ++ operand).toArray := by
  have hs := hb.instructions.consistent
  obtain ⟨rfl, hsize, hlt, pieces, hpieces, hcode⟩ := encode_eq_ok h
  have hlengths := map_length_pieces hpieces hs.laidOut.fits_members
  have hlaidOut : b.instructions.laidOut.codeSize = image.codeSize :=
    hs.codeSize_laidOut.trans hsize.symm
  refine ⟨?_, hsize.symm, hsize.symm, hlaidOut, fun id i hm => ?_⟩
  · rw [← Array.length_toList, hcode, length_flatten_eq, hlengths]
    exact hlaidOut
  · obtain ⟨operand, hoperand, hbytes⟩ := exists_operandBytes hb h hm
    have hspelled := spelledBy_operandBytes hs.laidOut hs.located (hlaidOut ▸ hlt) hb.locals hm
      (fun _ => mem_of_encode_eq_ok h hm) hoperand
    refine ⟨i.opcode.bytes, operand, fun bytes => Opcode.spelledBy_iff, fun bytes =>
      ⟨fun hother => hother.unique hb.locals hspelled, fun heq => heq ▸ hspelled⟩,
      Array.toList_inj.1 ?_⟩
    rw [Array.toList_extract, List.extract, Nat.add_sub_cancel_left, hbytes]

/-- A jump table of one entry, which leads back to itself, under an opcode of two bytes. -/
theorem encode_code_eq_switch :
    ∃ (b b' : Body) (image : Image) (strings' : UserStrings) (i : Instruction)
        (opcode operand : List UInt8), b.Reachable
      ∧ encode .empty .empty b = (.ok image, strings', b')
      ∧ image.sections.code = #[0xfe, 0x34, 1, 0, 0, 0, 0xf6, 0xff, 0xff, 0xff]
      ∧ image.sections.code.size = image.codeSize ∧ b'.codeSize = image.codeSize
      ∧ b'.instructions.members = [(⟨0⟩, i)] ∧ i.opcode.SpelledBy opcode
      ∧ i.operand.SpelledBy strings' b'.instructions b'.locals i.opcode.operandType
        (i.offset + i.size) operand
      ∧ image.sections.code.extract i.offset (i.offset + i.size) =
        (opcode ++ operand).toArray := by
  obtain ⟨b, b', image, strings', i, hb, hencode, hcode, hmembers⟩ :
      ∃ (b b' : Body) (image : Image) (strings' : UserStrings) (i : Instruction), b.Reachable
        ∧ encode .empty .empty b = (.ok image, strings', b')
        ∧ image.sections.code = #[0xfe, 0x34, 1, 0, 0, 0, 0xf6, 0xff, 0xff, 0xff]
        ∧ b'.instructions.members = [(⟨0⟩, i)] :=
    ⟨{ method := {}, instructions := (Sequence.empty.runScript
        [.edit (.emit ⟨"again", 0x1234, .inlineSwitch⟩ (.switch [⟨0⟩]))]).2 },
      _, _, _, _, ⟨⟨_, rfl⟩, ⟨[], rfl⟩⟩, rfl, rfl, rfl⟩
  obtain ⟨hsize, hbody, -, -, hslice⟩ := encode_code_eq hb hencode
  obtain ⟨opcode, operand, hopcode, hoperand, hextract⟩ := hslice ⟨0⟩ i (by simp [hmembers])
  exact ⟨b, b', image, strings', i, opcode, operand, hb, hencode, hcode, hsize, hbody, hmembers,
    (hopcode opcode).2 rfl, (hoperand operand).2 rfl, hextract⟩

end Code

end Image

end CilMethod
