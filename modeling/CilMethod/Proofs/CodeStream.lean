import CilMethod.Image.Encoder
import CilMethod.Proofs.Consistency
import CilMethod.Proofs.Variables
import Mathlib.Data.List.Forall2

/-!
# The instruction stream of a body

The size of an instruction is computed from its opcode, its bytes from its operand. As long as every
operand fits its opcode the two agree (`length_operandBytes`), so the stream is cut into pieces, one
for each member and of its size, and the offset of a member is the length of the pieces before its
own (`Located`). The token of a literal does not change while later literals are listed
(`token_of_extends`), so each piece can be read off the literals as they are in the end.
-/

namespace CilMethod

namespace UserStrings

variable {t u v : UserStrings} {s : String}

/-- All literals of `t` are listed in `u`, at their places. -/
def Extends (t u : UserStrings) : Prop := t.entries.toList <+: u.entries.toList

theorem Extends.refl (t : UserStrings) : t.Extends t := List.prefix_refl _

theorem Extends.trans (htu : t.Extends u) (huv : u.Extends v) : t.Extends v :=
  List.IsPrefix.trans htu huv

theorem extends_insert (t : UserStrings) (s : String) : t.Extends (t.insert s) := by
  unfold insert
  split
  · exact .refl t
  · simp [Extends]

theorem mem_insert (t : UserStrings) (s : String) : s ∈ (t.insert s).entries := by
  unfold insert
  split_ifs with h
  · simpa using h
  · simp

/-- The row of a literal is its place in the table, counted from one. -/
theorem token_eq (t : UserStrings) (s : String) :
    t.token s = .ofRow .string
      (((t.entries.toList.idxOf? s).getD t.entries.size).toUInt32 + 1) := by
  rw [token, List.idxOf?, ← List.findIdx?_toArray, Array.toArray_toList]

theorem token_of_extends (h : t.Extends u) (hs : s ∈ t.entries) : u.token s = t.token s := by
  obtain ⟨more, hmore⟩ := h
  obtain ⟨place, hplace⟩ : ∃ place, t.entries.toList.idxOf? s = some place := by
    rw [← Option.isSome_iff_exists, List.isSome_idxOf?]
    simpa using hs
  have hmore : u.entries.toList.idxOf? s = some place := by
    rw [← hmore, List.idxOf?, List.findIdx?_append, ← List.idxOf?, hplace]
    rfl
  rw [token_eq, token_eq, hplace, hmore]
  rfl

end UserStrings

theorem exists_of_forall₂ {α β : Type} {R : α → β → Prop} {xs : List α} {ys : List β} {n : Nat}
    {x : α} (h : List.Forall₂ R xs ys) (hx : xs[n]? = some x) : ∃ y, ys[n]? = some y ∧ R x y := by
  obtain ⟨hlt, rfl⟩ := List.getElem?_eq_some_iff.1 hx
  have hlt' : n < ys.length := h.length_eq ▸ hlt
  exact ⟨ys[n], List.getElem?_eq_getElem hlt', h.get hlt hlt'⟩

theorem mapM_eq_ok_iff {ε α β : Type} {f : α → Except ε β} :
    ∀ {xs : List α} {ys : List β},
      xs.mapM f = .ok ys ↔ List.Forall₂ (fun x y => f x = .ok y) xs ys
  | [], ys => by
    rw [List.forall₂_nil_left_iff]
    exact ⟨fun h => (Except.ok.inj h).symm, fun h => h ▸ rfl⟩
  | x :: xs, ys => by
    rw [List.mapM_cons, bind_eq_ok_iff, List.forall₂_cons_left_iff]
    simp only [bind_eq_ok_iff, mapM_eq_ok_iff]
    constructor
    · rintro ⟨y, hy, zs, hzs, h⟩
      exact ⟨y, zs, hy, hzs, (Except.ok.inj h).symm⟩
    · rintro ⟨y, zs, hy, hzs, rfl⟩
      exact ⟨y, hy, zs, hzs, rfl⟩

namespace Image

section Operand

variable {strings : UserStrings} {s : Sequence} {locals : Locals} {id : InstructionId}
  {i : Instruction} {bytes : List UInt8}

/-- The width of a variable or argument number. -/
def indexWidth (type : OperandType) : Nat :=
  if type = .shortInlineVar ∨ type = .shortInlineArg then 1 else 2

theorem indexBytes_eq_ok {type : OperandType} {index : Nat}
    (h : indexBytes id type index = .ok bytes) :
    index < Bytes.limit (indexWidth type) ∧ bytes = Bytes.little (indexWidth type) index := by
  rw [indexBytes, ← indexWidth] at h
  split_ifs at h with hlt
  exact ⟨hlt, (Except.ok.inj h).symm⟩

theorem distanceBytes_eq_ok {origin width : Nat} {target : InstructionId}
    (h : distanceBytes s id origin width target = .ok bytes) :
    s.contains target = true
      ∧ Bytes.holdsSigned width (Offset.distance (s.offsetOf target) origin) = true
      ∧ bytes = Bytes.signedLittle width (Offset.distance (s.offsetOf target) origin) := by
  simp only [distanceBytes] at h
  split_ifs at h with hmember hholds
  exact ⟨hmember, hholds, (Except.ok.inj h).symm⟩

theorem switch_eq_ok {targets : List InstructionId} (hi : i.operand = .switch targets)
    (h : operandBytes strings s locals id i = .ok bytes) :
    ∃ distances, List.Forall₂
        (fun target d => distanceBytes s id (i.offset + i.size) 4 target = .ok d) targets distances
      ∧ bytes = Bytes.little 4 targets.length ++ distances.flatten := by
  simp only [operandBytes, hi] at h
  cases hdistances : targets.mapM (distanceBytes s id (i.offset + i.size) 4) with
  | error e =>
    rw [hdistances] at h
    cases h
  | ok distances =>
    rw [hdistances] at h
    exact ⟨distances, mapM_eq_ok_iff.1 hdistances, (Except.ok.inj h).symm⟩

theorem length_flatten_distances {origin : Nat} {targets : List InstructionId}
    {distances : List (List UInt8)}
    (h : List.Forall₂ (fun target d => distanceBytes s id origin 4 target = .ok d) targets
      distances) : distances.flatten.length = 4 * targets.length := by
  induction h with
  | nil => rfl
  | cons hd _ ih =>
    obtain ⟨-, -, rfl⟩ := distanceBytes_eq_ok hd
    simp [ih]
    omega

/-- The bytes of an operand that fits are as many as the type of the operand says. -/
theorem length_operandBytes (hfits : i.operand.fits i.opcode.operandType = true)
    (h : operandBytes strings s locals id i = .ok bytes) :
    bytes.length = i.opcode.operandType.size i.operand.tableLength := by
  cases hi : i.operand with
  | switch targets =>
    obtain ⟨distances, hdistances, rfl⟩ := switch_eq_ok hi h
    have htype : i.opcode.operandType = .inlineSwitch := by simpa [hi, Operand.fits] using hfits
    simp [htype, OperandType.size, Operand.tableLength, length_flatten_distances hdistances]
  | target target =>
    simp only [operandBytes, hi] at h
    obtain ⟨-, -, rfl⟩ := distanceBytes_eq_ok h
    simp only [hi, Operand.fits, Bool.or_eq_true, beq_iff_eq] at hfits
    rcases hfits with htype | htype <;> simp [htype, OperandType.size]
  | localVar v =>
    simp only [operandBytes, hi] at h
    simp only [hi, Operand.fits, Bool.or_eq_true, beq_iff_eq] at hfits
    split at h
    · obtain ⟨-, rfl⟩ := indexBytes_eq_ok h
      rcases hfits with htype | htype <;> simp [htype, indexWidth, OperandType.size]
    · cases h
  | argument number =>
    simp only [operandBytes, hi] at h
    obtain ⟨-, rfl⟩ := indexBytes_eq_ok h
    simp only [hi, Operand.fits, Bool.or_eq_true, beq_iff_eq] at hfits
    rcases hfits with htype | htype <;> simp [htype, indexWidth, OperandType.size]
  | token value =>
    simp only [operandBytes, hi] at h
    obtain rfl := Except.ok.inj h
    simp only [hi, Operand.fits, Bool.or_eq_true, beq_iff_eq] at hfits
    rcases hfits with (((htype | htype) | htype) | htype) | htype <;>
      simp [htype, OperandType.size]
  | _ =>
    simp only [operandBytes, hi] at h
    obtain rfl := Except.ok.inj h
    simp only [hi, Operand.fits, beq_iff_eq] at hfits
    simp [hfits, OperandType.size]

/-- Literals that are listed later do not change the bytes of an operand. -/
theorem operandBytes_of_extends {strings' : UserStrings} (h : strings.Extends strings')
    (hlisted : ∀ value, i.operand = .string value → value ∈ strings.entries) :
    operandBytes strings' s locals id i = operandBytes strings s locals id i := by
  unfold operandBytes
  cases hi : i.operand with
  | string value =>
    dsimp only
    rw [UserStrings.token_of_extends h (hlisted value hi)]
  | _ => rfl

end Operand

section Stream

variable {strings strings' : UserStrings} {s : Sequence} {locals : Locals}

/-- The bytes of a member. -/
def Written (strings : UserStrings) (s : Sequence) (locals : Locals)
    (m : InstructionId × Instruction) (bytes : List UInt8) : Prop :=
  ∃ operand, operandBytes strings s locals m.1 m.2 = .ok operand
    ∧ bytes = m.2.opcode.bytes ++ operand

theorem Written.length_eq {m : InstructionId × Instruction} {bytes : List UInt8}
    (hfits : m.2.operand.fits m.2.opcode.operandType = true)
    (h : Written strings s locals m bytes) : bytes.length = m.2.size := by
  obtain ⟨operand, hoperand, rfl⟩ := h
  rw [List.length_append, Opcode.length_bytes, length_operandBytes hfits hoperand,
    Instruction.size]

theorem extends_noteStrings (strings : UserStrings) (i : Instruction) :
    strings.Extends (noteStrings strings i) := by
  unfold noteStrings
  split
  · exact UserStrings.extends_insert ..
  · exact .refl strings

theorem mem_noteStrings {strings : UserStrings} {i : Instruction} {value : String}
    (h : i.operand = .string value) : value ∈ (noteStrings strings i).entries := by
  simpa only [noteStrings, h] using UserStrings.mem_insert strings value

/-- Writing members appends one piece for each of them. -/
theorem writeMembers_eq_ok : ∀ {members : List (InstructionId × Instruction)}
    {strings strings' : UserStrings} {code out : Array UInt8},
    writeMembers s locals members strings code = (.ok out, strings') →
    strings.Extends strings' ∧ ∃ pieces, List.Forall₂ (Written strings' s locals) members pieces
      ∧ out.toList = code.toList ++ pieces.flatten
  | [], strings, strings', code, out, h => by
    obtain ⟨hout, rfl⟩ := Prod.mk.inj h
    obtain rfl := Except.ok.inj hout
    exact ⟨.refl strings, [], .nil, by simp⟩
  | (id, i) :: members, strings, strings', code, out, h => by
    rw [writeMembers] at h
    cases hoperand : operandBytes (noteStrings strings i) s locals id i with
    | error e => simp [hoperand] at h
    | ok operand =>
      simp only [hoperand] at h
      obtain ⟨hextends, pieces, hpieces, hout⟩ := writeMembers_eq_ok h
      have hlast : operandBytes strings' s locals id i = .ok operand :=
        (operandBytes_of_extends hextends fun _ => mem_noteStrings).trans hoperand
      refine ⟨(extends_noteStrings strings i).trans hextends, (i.opcode.bytes ++ operand) :: pieces,
        .cons ⟨operand, hlast, rfl⟩ hpieces, ?_⟩
      simp [hout]

/-- The pieces are of the sizes of the members. -/
theorem map_length_pieces {members : List (InstructionId × Instruction)}
    {pieces : List (List UInt8)} (h : List.Forall₂ (Written strings s locals) members pieces)
    (hfits : ∀ m ∈ members, m.2.operand.fits m.2.opcode.operandType = true) :
    pieces.map List.length = members.map (·.2.size) := by
  induction h with
  | nil => rfl
  | cons hm _ ih =>
    rw [List.map_cons, List.map_cons, hm.length_eq (hfits _ List.mem_cons_self),
      ih fun m hmem => hfits m (List.mem_cons_of_mem _ hmem)]

theorem length_flatten_eq (pieces : List (List UInt8)) :
    pieces.flatten.length = Offset.total (pieces.map List.length) := by
  induction pieces with
  | nil => rfl
  | cons piece pieces ih => simp [ih]

theorem take_drop_flatten {pieces : List (List UInt8)} {piece : List UInt8} {n : Nat}
    (h : pieces[n]? = some piece) :
    (pieces.flatten.drop (Offset.total ((pieces.map List.length).take n))).take piece.length =
      piece := by
  induction pieces generalizing n with
  | nil => simp at h
  | cons first pieces ih =>
    cases n with
    | zero =>
      obtain rfl : first = piece := by simpa using h
      simp
    | succ n =>
      have h : pieces[n]? = some piece := by simpa using h
      rw [List.flatten_cons, List.map_cons, List.take_succ_cons, Offset.total_cons,
        List.drop_length_add_append, ih h]

end Stream

end Image

section Offsets

variable {offset : Nat}

/-- Members one behind the other, from an offset on. -/
def Located (offset : Nat) (members : List (InstructionId × Instruction)) : Prop :=
  ∀ n m, members[n]? = some m →
    m.2.offset = offset + Offset.total ((members.map (·.2.size)).take n)

theorem Located.cons {m : InstructionId × Instruction}
    {members : List (InstructionId × Instruction)} (h : Located offset (m :: members)) :
    m.2.offset = offset ∧ Located (offset + m.2.size) members := by
  refine ⟨by simpa using h 0 m rfl, fun n m' hn => ?_⟩
  rw [h (n + 1) m' (by simpa using hn)]
  simp [Nat.add_assoc]

theorem Located.offset_lt {members : List (InstructionId × Instruction)} {p q : Nat}
    {m m' : InstructionId × Instruction} (h : Located offset members) (hp : members[p]? = some m)
    (hq : members[q]? = some m') (hlt : p < q) : m.2.offset < m'.2.offset := by
  induction members generalizing offset p q with
  | nil => simp at hp
  | cons m₀ members ih =>
    obtain ⟨hoffset, htail⟩ := h.cons
    obtain ⟨q, rfl⟩ := Nat.exists_eq_add_one_of_ne_zero (Nat.ne_zero_of_lt hlt)
    have hq : members[q]? = some m' := by simpa using hq
    cases p with
    | zero =>
      obtain rfl : m₀ = m := by simpa using hp
      have hpos := m₀.2.size_pos
      rw [hoffset, htail q m' hq]
      omega
    | succ p => exact ih htail (by simpa using hp) hq (by omega)

/-- No two members stand at the same offset. -/
theorem Located.offset_inj {members : List (InstructionId × Instruction)} {p q : Nat}
    {m m' : InstructionId × Instruction} (h : Located offset members) (hp : members[p]? = some m)
    (hq : members[q]? = some m') (hoffset : m.2.offset = m'.2.offset) : p = q := by
  rcases Nat.lt_trichotomy p q with hlt | heq | hlt
  · exact absurd hoffset (Nat.ne_of_lt (h.offset_lt hp hq hlt))
  · exact heq
  · exact absurd hoffset (Nat.ne_of_gt (h.offset_lt hq hp hlt))

theorem Located.end_le {members : List (InstructionId × Instruction)}
    {m : InstructionId × Instruction} (h : Located offset members) (hm : m ∈ members) :
    m.2.offset + m.2.size ≤ offset + Offset.total (members.map (·.2.size)) := by
  induction members generalizing offset with
  | nil => simp at hm
  | cons m₀ members ih =>
    obtain ⟨hoffset, htail⟩ := h.cons
    rw [List.map_cons, Offset.total_cons]
    rcases List.mem_cons.1 hm with rfl | hm
    · omega
    · have := ih htail hm
      omega

/-- The members of a sequence that is laid out stand one behind the other. -/
theorem Sequence.Consistent.located {s : Sequence} (hs : s.Consistent) :
    Located 0 s.laidOut.members := by
  rintro n ⟨id, i⟩ h
  rw [Nat.zero_add, hs.laidOut.map_size_members, ← List.map_take,
    List.map_congr_left fun k _ => sizeIn_laidOut hs.nodup k]
  rw [hs.laidOut.getElem?_members] at h
  obtain ⟨k, hk, hi⟩ := Option.bind_eq_some_iff.1 h
  rw [node?_laidOut hs.nodup hk] at hi
  obtain ⟨j, hj, heq⟩ := Option.map_eq_some_iff.1 hi
  obtain ⟨j, -, rfl⟩ := Option.map_eq_some_iff.1 hj
  obtain ⟨-, rfl⟩ := Prod.mk.inj heq
  rfl

end Offsets

/-- The bodies whose instructions and variables were made by edits. The rest of a body is whatever
it is set to. -/
structure Body.Reachable (b : Body) : Prop where
  instructions : b.instructions.Reachable
  locals : b.locals.Reachable

/-- The types of the variables, in order. -/
def Body.variableTypes (g : TypeGraph) (b : Body) : List TypeDef :=
  b.locals.members.map fun m => g.typeDef m.2.type

namespace Image

section Encode

variable {g : TypeGraph} {strings strings' : UserStrings} {b b' : Body} {image : Image}

theorem finish_eq_ok {codeSize : Nat} {code : Array UInt8}
    (h : finish g b codeSize code = .ok image) :
    image.sections.code = code ∧ image.codeSize = codeSize
      ∧ handlerTable g b.instructions codeSize b.handlers.toList = .ok image.sections.handlers
      ∧ image.sections.locals = localsSignature (b.variableTypes g) := by
  obtain ⟨handlers, hhandlers, heq⟩ := bind_eq_ok_iff.1 h
  obtain rfl := Except.ok.inj heq
  exact ⟨rfl, rfl, hhandlers, rfl⟩

/-- An encoding that succeeds has laid the body out, written its members and made the other
sections. -/
theorem exists_finish (h : encode g strings b = (.ok image, strings', b')) :
    b' = { b with instructions := b.instructions.laidOut, codeSize := b.instructions.codeSize }
      ∧ b'.codeSize < Bytes.limit 4
      ∧ ∃ code, writeMembers b'.instructions b'.locals b'.instructions.members strings #[] =
          (.ok code, strings')
        ∧ finish g b' b'.codeSize code = .ok image := by
  rw [encode, Body.computeOffsets] at h
  cases hsuppressed : b.instructions.suppressed with
  | true =>
    rw [Sequence.recompute_of_suppressed _ hsuppressed] at h
    simp at h
  | false =>
    rw [Sequence.recompute_eq _ hsuppressed] at h
    dsimp only at h
    split_ifs at h with hsize
    · cases h
    · split at h
      · rename_i code strings' hwrite
        obtain ⟨hfinish, hrest⟩ := Prod.mk.inj h
        obtain ⟨rfl, rfl⟩ := Prod.mk.inj hrest
        exact ⟨rfl, Nat.lt_of_not_le hsize, code, hwrite, hfinish⟩
      · cases h

/-- The code of an encoding is made of the pieces of the members. -/
theorem encode_eq_ok (h : encode g strings b = (.ok image, strings', b')) :
    b' = { b with instructions := b.instructions.laidOut, codeSize := b.instructions.codeSize }
      ∧ image.codeSize = b.instructions.codeSize ∧ image.codeSize < Bytes.limit 4
      ∧ ∃ pieces, List.Forall₂ (Written strings' b'.instructions b'.locals) b'.instructions.members
          pieces
        ∧ image.sections.code.toList = pieces.flatten := by
  obtain ⟨rfl, hlt, code, hwrite, hfinish⟩ := exists_finish h
  obtain ⟨hcode, hsize, -⟩ := finish_eq_ok hfinish
  obtain ⟨-, pieces, hpieces, hout⟩ := writeMembers_eq_ok hwrite
  refine ⟨rfl, hsize, hsize ▸ hlt, pieces, hpieces, ?_⟩
  rw [hcode, hout]
  rfl

/-- The bytes of each member stand at its offset. -/
theorem exists_operandBytes {id : InstructionId} {i : Instruction} (hb : b.Reachable)
    (h : encode g strings b = (.ok image, strings', b'))
    (hm : (id, i) ∈ b'.instructions.members) :
    ∃ operand, operandBytes strings' b'.instructions b'.locals id i = .ok operand
      ∧ (image.sections.code.toList.drop i.offset).take i.size = i.opcode.bytes ++ operand := by
  have hs := hb.instructions.consistent
  obtain ⟨rfl, -, -, pieces, hpieces, hcode⟩ := encode_eq_ok h
  have hlengths := map_length_pieces hpieces hs.laidOut.fits_members
  obtain ⟨n, hn⟩ := List.mem_iff_getElem?.1 hm
  obtain ⟨piece, hpiece, hwritten⟩ := exists_of_forall₂ hpieces hn
  have hsize : piece.length = i.size := hwritten.length_eq (hs.laidOut.fits_members _ hm)
  obtain ⟨operand, hoperand, hbytes⟩ := hwritten
  refine ⟨operand, hoperand, ?_⟩
  calc (image.sections.code.toList.drop i.offset).take i.size
      = (pieces.flatten.drop (Offset.total ((pieces.map List.length).take n))).take
          piece.length := by
        rw [hcode, hlengths, hs.located n _ hn, Nat.zero_add, hsize]
    _ = piece := take_drop_flatten hpiece
    _ = i.opcode.bytes ++ operand := hbytes

end Encode

end Image

end CilMethod
