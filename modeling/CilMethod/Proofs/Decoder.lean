import CilMethod.Opcode.Table
import CilMethod.Proofs.CodeStream

/-!
# Reading code back

The bytes of an opcode tell which opcode it is, its operand type tells how many bytes follow and
what they mean, so code can be cut into lines from the front (`linesFrom`). A branch says how far
behind the end of its line it goes. Once all lines are known, their offsets tell which line that is:
offsets only grow, so no two lines have the same (`offset_inj`).

Reading the code of an encoded body gives back its members (`decode_encode`).
-/

namespace CilMethod

/-- An operand as the code shows it, with instructions named by `τ`. -/
inductive Reading (τ : Type) where
  | none
  | int8 (value : Int8)
  | int32 (value : Int32)
  | int64 (value : Int64)
  | float32 (bits : UInt32)
  | float64 (bits : UInt64)
  /-- the token of a literal -/
  | userString (literal : Token)
  | token (value : Token)
  /-- the position of a variable -/
  | localVar (index : Nat)
  | argument (number : UInt16)
  | target (name : τ)
  | switch (names : List τ)
  deriving DecidableEq

namespace Reading

variable {τ υ : Type}

def tableLength : Reading τ → Nat
  | switch names => names.length
  | _ => 0

/-- Names the instructions otherwise, if there are names for all of them. -/
def rename (f : τ → Option υ) : Reading τ → Option (Reading υ)
  | none => some none
  | int8 value => some (int8 value)
  | int32 value => some (int32 value)
  | int64 value => some (int64 value)
  | float32 bits => some (float32 bits)
  | float64 bits => some (float64 bits)
  | userString literal => some (userString literal)
  | token value => some (token value)
  | localVar index => some (localVar index)
  | argument number => some (argument number)
  | target name => (f name).map target
  | switch names => (names.mapM f).map switch

/-- The operand that a reading shows, given what each literal's token, each position of a variable
and each name of an instruction stands for. -/
inductive Shows (strings : UserStrings) (locals : Locals) (R : InstructionId → τ → Prop) :
    Operand → Reading τ → Prop where
  | none : Shows strings locals R .none none
  | int8 (value : Int8) : Shows strings locals R (.int8 value) (int8 value)
  | int32 (value : Int32) : Shows strings locals R (.int32 value) (int32 value)
  | int64 (value : Int64) : Shows strings locals R (.int64 value) (int64 value)
  | float32 (bits : UInt32) : Shows strings locals R (.float32 bits) (float32 bits)
  | float64 (bits : UInt64) : Shows strings locals R (.float64 bits) (float64 bits)
  | string (value : String) :
      Shows strings locals R (.string value) (userString (strings.token value))
  | token (value : Token) : Shows strings locals R (.token value) (token value)
  | localVar {v : VariableId} {index : Nat} (h : locals.get? index = some v) :
      Shows strings locals R (.localVar v) (localVar index)
  | argument (number : UInt16) : Shows strings locals R (.argument number) (argument number)
  | target {id : InstructionId} {name : τ} (h : R id name) :
      Shows strings locals R (.target id) (target name)
  | switch {ids : List InstructionId} {names : List τ} (h : List.Forall₂ R ids names) :
      Shows strings locals R (.switch ids) (switch names)

end Reading

namespace Bytes

/-- The number that bytes stand for, least significant first. -/
def ofLittle : List UInt8 → Nat
  | [] => 0
  | byte :: bytes => byte.toNat + 256 * ofLittle bytes

/-- The number in the first `width` bytes. -/
def little? (width : Nat) (bytes : List UInt8) : Option Nat :=
  if width ≤ bytes.length then some (ofLittle (bytes.take width)) else none

/-- The signed number in the first `width` bytes, in two's complement. -/
def signed? (width : Nat) (bytes : List UInt8) : Option Int :=
  (little? width bytes).map fun n : Nat => Int.bmod n (limit width)

/-- The first `count` signed numbers of four bytes. -/
def signedTable? : (count : Nat) → List UInt8 → Option (List Int)
  | 0, _ => some []
  | count + 1, bytes => do
    let n ← signed? 4 bytes
    let ns ← signedTable? count (bytes.drop 4)
    return n :: ns

end Bytes

namespace Code

/-- The opcode that code starts with. -/
def opcode? : List UInt8 → Option Opcode
  | [] => none
  | byte :: bytes =>
    if byte = Opcode.leadByte then do
      let low ← bytes.head?
      Opcode.table.find? (·.value == 0xfe00 + low.toUInt16)
    else Opcode.table.find? (·.value == byte.toUInt16)

/-- The operand that bytes start with, with instructions named by their distances. -/
def operand? (type : OperandType) (bytes : List UInt8) : Option (Reading Int) :=
  match type with
  | .inlineNone => some .none
  | .shortInlineI => (Bytes.little? 1 bytes).map fun n => .int8 n.toUInt8.toInt8
  | .inlineI => (Bytes.little? 4 bytes).map fun n => .int32 n.toUInt32.toInt32
  | .inlineI8 => (Bytes.little? 8 bytes).map fun n => .int64 n.toUInt64.toInt64
  | .shortInlineR => (Bytes.little? 4 bytes).map fun n => .float32 n.toUInt32
  | .inlineR => (Bytes.little? 8 bytes).map fun n => .float64 n.toUInt64
  | .inlineString => (Bytes.little? 4 bytes).map fun n => .userString ⟨n.toUInt32⟩
  | .inlineField | .inlineMethod | .inlineType | .inlineTok | .inlineSig =>
    (Bytes.little? 4 bytes).map fun n => .token ⟨n.toUInt32⟩
  | .shortInlineVar => (Bytes.little? 1 bytes).map .localVar
  | .inlineVar => (Bytes.little? 2 bytes).map .localVar
  | .shortInlineArg => (Bytes.little? 1 bytes).map fun n => .argument n.toUInt16
  | .inlineArg => (Bytes.little? 2 bytes).map fun n => .argument n.toUInt16
  | .shortInlineBrTarget => (Bytes.signed? 1 bytes).map .target
  | .inlineBrTarget => (Bytes.signed? 4 bytes).map .target
  | .inlineSwitch => do
    let count ← Bytes.little? 4 bytes
    let distances ← Bytes.signedTable? count (bytes.drop 4)
    return .switch distances

/-- One instruction of a stretch of code. -/
structure Line where
  offset : Nat
  opcode : Opcode
  /-- Distances count from the end of the line. -/
  operand : Reading Int

namespace Line

def size (l : Line) : Nat := l.opcode.size + l.opcode.operandType.size l.operand.tableLength

/-- The offset of what follows. -/
def next (l : Line) : Nat := l.offset + l.size

theorem size_pos (l : Line) : 0 < l.size := by
  unfold size Opcode.size
  split <;> omega

end Line

/-- The instruction that code starts with. -/
def line? (offset : Nat) (code : List UInt8) : Option Line := do
  let opcode ← opcode? code
  let operand ← operand? opcode.operandType (code.drop opcode.size)
  return { offset, opcode, operand }

/-- The instructions of code that starts at an offset, up to its end. -/
def linesFrom (offset : Nat) (code : List UInt8) : Option (List Line) :=
  if _ : code = [] then some []
  else
    match line? offset code with
    | none => none
    | some line => (linesFrom line.next (code.drop line.size)).map (line :: ·)
termination_by code.length
decreasing_by
  have hpos := line.size_pos
  have hlen : 0 < code.length := List.length_pos_of_ne_nil ‹_›
  rw [List.length_drop]
  omega

/-- The instructions of a whole code, with instructions named by their positions. -/
def decode (code : List UInt8) : Option (List (Opcode × Reading Nat)) := do
  let lines ← linesFrom 0 code
  let offsets : List Int := lines.map fun line => line.offset
  lines.mapM fun line => do
    let operand ← line.operand.rename fun distance => offsets.idxOf? ((line.next : Int) + distance)
    return (line.opcode, operand)

end Code

section Numbers

namespace Bytes

theorem ofLittle_little : ∀ {width n : Nat}, n < limit width → ofLittle (little width n) = n
  | 0, n, h => by
    obtain rfl : n = 0 := Nat.lt_one_iff.1 h
    rfl
  | width + 1, n, h => by
    have hrest : n / 256 < limit width := Nat.div_lt_of_lt_mul (limit_succ width ▸ h)
    rw [little, ofLittle, ofLittle_little hrest]
    simp only [Nat.toUInt8_eq, UInt8.toNat_ofNat']
    omega

theorem little?_append {width n : Nat} (h : n < limit width) (rest : List UInt8) :
    little? width (little width n ++ rest) = some n := by
  have htake : (little width n ++ rest).take width = little width n :=
    List.take_left' (length_little width n)
  rw [little?, if_pos (by simp), htake, ofLittle_little h]

/-- A word is read back from its bytes. -/
theorem map_little?_append {ω : Type} {width n : Nat} {w : ω} (word : Nat → ω)
    (hword : word n = w) (h : n < limit width) (f : ω → Reading Int) (rest : List UInt8) :
    (little? width (little width n ++ rest)).map (fun n => f (word n)) = some (f w) := by
  rw [little?_append h, Option.map_some, hword]

theorem signed?_append {width : Nat} {n : Int} (h : holdsSigned width n = true)
    (rest : List UInt8) : signed? width (signedLittle width n ++ rest) = some n := by
  have hpos : (0 : Int) < limit width := Int.natCast_pos.2 (limit_pos width)
  have hlt : (n % limit width).toNat < limit width := by
    have := Int.emod_lt_of_pos n hpos
    omega
  have hmod : ((n % limit width).toNat : Int) = n % limit width :=
    Int.toNat_of_nonneg (Int.emod_nonneg n (by omega))
  rw [holdsSigned, Bool.and_eq_true, decide_eq_true_eq, decide_eq_true_eq] at h
  rw [signed?, signedLittle, little?_append hlt, Option.map_some, hmod, Int.emod_bmod,
    Int.bmod_eq_of_le (by omega) (by omega)]

end Bytes

end Numbers

section Opcodes

theorem value_lt_of_mem_table : ∀ op ∈ Opcode.table,
    op.value < 0xfe ∨ 0xfe00 ≤ op.value ∧ op.value ≤ 0xfeff := by
  decide +kernel

theorem pairwise_table : Opcode.table.Pairwise fun op op' => op.value < op'.value := by
  rw [← List.isChain_iff_pairwise]
  decide +kernel

theorem find?_table {op : Opcode} (h : op ∈ Opcode.table) :
    Opcode.table.find? (·.value == op.value) = some op := by
  obtain ⟨before, after, htable⟩ := List.append_of_mem h
  refine List.find?_eq_some_iff_append.2 ⟨by simp, before, after, htable, fun op' hop' => ?_⟩
  have hlt := pairwise_table
  rw [htable, List.pairwise_append] at hlt
  have hne : op'.value ≠ op.value :=
    UInt16.ne_of_lt (hlt.2.2 op' hop' op List.mem_cons_self)
  simpa using hne

/-- An opcode of the table is read back from its bytes, whatever follows. -/
theorem opcode?_append {op : Opcode} (h : op ∈ Opcode.table) (rest : List UInt8) :
    Code.opcode? (op.bytes ++ rest) = some op := by
  rw [← find?_table h, Opcode.bytes, Opcode.isTwoByte]
  have hvalue := value_lt_of_mem_table op h
  simp only [UInt16.lt_iff_toNat_lt, UInt16.le_iff_toNat_le, UInt16.reduceToNat] at hvalue
  have hlow : op.value.toUInt8.toNat = op.value.toNat % 256 := by simp
  split_ifs with htwo
  · have htwo : 0xff < op.value.toNat := by simpa [UInt16.lt_iff_toNat_lt] using htwo
    have hword : 0xfe00 + op.value.toUInt8.toUInt16 = op.value := by
      rw [← UInt16.toNat_inj, UInt16.toNat_add, UInt8.toNat_toUInt16, hlow]
      simp only [UInt16.reduceToNat]
      omega
    simp only [List.cons_append, List.nil_append, Code.opcode?, if_true, List.head?_cons,
      Option.bind_eq_bind, Option.bind_some, hword]
  · have htwo : ¬ 0xff < op.value.toNat := by simpa [UInt16.lt_iff_toNat_lt] using htwo
    have hbyte : op.value.toUInt8 ≠ Opcode.leadByte := fun hlead => by
      have hlead := congrArg UInt8.toNat hlead
      rw [hlow] at hlead
      simp only [Opcode.leadByte, UInt8.reduceToNat] at hlead
      omega
    have hword : op.value.toUInt8.toUInt16 = op.value := by
      rw [← UInt16.toNat_inj, UInt8.toNat_toUInt16, hlow]
      omega
    simp only [List.cons_append, List.nil_append, Code.opcode?, if_neg hbyte, hword]

end Opcodes

section Operands

/-- What succeeds on each of a list succeeds on the list. -/
theorem exists_mapM {α β γ : Type} {f : α → Option β} {R : γ → α → Prop} {S : γ → β → Prop}
    (hf : ∀ c a, R c a → ∃ b, f a = some b ∧ S c b) {cs : List γ} {as : List α}
    (h : List.Forall₂ R cs as) : ∃ bs, as.mapM f = some bs ∧ List.Forall₂ S cs bs := by
  induction h with
  | nil => exact ⟨[], rfl, .nil⟩
  | cons hca _ ih =>
    obtain ⟨b, hb, hcb⟩ := hf _ _ hca
    obtain ⟨bs, hbs, hcbs⟩ := ih
    exact ⟨b :: bs, by rw [List.mapM_cons, hb, hbs]; rfl, .cons hcb hcbs⟩

namespace Reading

variable {τ υ : Type} {strings : UserStrings} {locals : Locals} {R : InstructionId → τ → Prop}
  {S : InstructionId → υ → Prop} {operand : Operand} {r : Reading τ}

theorem Shows.tableLength_eq (h : Shows strings locals R operand r) :
    r.tableLength = operand.tableLength := by
  cases h with
  | switch h => exact h.length_eq.symm
  | _ => rfl

theorem Shows.mono {R' : InstructionId → τ → Prop} (hR : ∀ id name, R id name → R' id name)
    (h : Shows strings locals R operand r) : Shows strings locals R' operand r := by
  cases h with
  | target h => exact .target (hR _ _ h)
  | switch h => exact .switch (h.imp hR)
  | localVar h => exact .localVar h
  | _ => constructor

/-- Other names show the same operand if each of them stands for what the old one did. -/
theorem Shows.rename {f : τ → Option υ} (hf : ∀ id name, R id name → ∃ u, f name = some u ∧ S id u)
    (h : Shows strings locals R operand r) :
    ∃ r', r.rename f = some r' ∧ Shows strings locals S operand r' := by
  cases h with
  | target h =>
    obtain ⟨u, hu, hS⟩ := hf _ _ h
    exact ⟨.target u, by rw [Reading.rename, hu]; rfl, .target hS⟩
  | switch h =>
    obtain ⟨us, hus, hS⟩ := exists_mapM hf h
    exact ⟨.switch us, by rw [Reading.rename, hus]; rfl, .switch hS⟩
  | localVar h => exact ⟨_, rfl, .localVar h⟩
  | _ => exact ⟨_, rfl, by constructor⟩

end Reading

namespace Image

variable {strings : UserStrings} {s : Sequence} {locals : Locals} {id : InstructionId}
  {i : Instruction} {bytes : List UInt8}

/-- A distance from an origin to a member. -/
def Leads (s : Sequence) (origin : Nat) (target : InstructionId) (distance : Int) : Prop :=
  s.contains target = true ∧ distance = Offset.distance (s.offsetOf target) origin

theorem signed?_distanceBytes {origin width : Nat} {target : InstructionId}
    (h : distanceBytes s id origin width target = .ok bytes) (rest : List UInt8) :
    ∃ distance, Bytes.signed? width (bytes ++ rest) = some distance
      ∧ Leads s origin target distance := by
  obtain ⟨hmember, hholds, rfl⟩ := distanceBytes_eq_ok h
  exact ⟨_, Bytes.signed?_append hholds rest, hmember, rfl⟩

theorem signedTable?_distances {origin : Nat} {targets : List InstructionId}
    {pieces : List (List UInt8)}
    (h : List.Forall₂ (fun target d => distanceBytes s id origin 4 target = .ok d) targets pieces)
    (rest : List UInt8) :
    ∃ distances, Bytes.signedTable? targets.length (pieces.flatten ++ rest) = some distances
      ∧ List.Forall₂ (Leads s origin) targets distances := by
  induction h with
  | nil => exact ⟨[], rfl, .nil⟩
  | @cons target piece targets pieces hd _ ih =>
    obtain ⟨distances, hdistances, hlead⟩ := ih
    obtain ⟨distance, hdistance, hleads⟩ := signed?_distanceBytes hd (pieces.flatten ++ rest)
    have hdrop : (piece ++ (pieces.flatten ++ rest)).drop 4 = pieces.flatten ++ rest := by
      obtain ⟨-, -, rfl⟩ := distanceBytes_eq_ok hd
      exact List.drop_left' (Bytes.length_signedLittle 4 _)
    refine ⟨distance :: distances, ?_, .cons hleads hlead⟩
    rw [List.flatten_cons, List.append_assoc, List.length_cons, Bytes.signedTable?, hdistance,
      hdrop]
    simp [hdistances]

/-- The operand of an instruction is read back from its bytes, whatever follows. -/
theorem operand?_append (hfits : i.operand.fits i.opcode.operandType = true)
    (hlocals : locals.Reachable) (hlength : i.operand.tableLength < Bytes.limit 4)
    (h : operandBytes strings s locals id i = .ok bytes) (rest : List UInt8) :
    ∃ r, Code.operand? i.opcode.operandType (bytes ++ rest) = some r
      ∧ r.Shows strings locals (Leads s (i.offset + i.size)) i.operand := by
  generalize htype : i.opcode.operandType = type at hfits
  cases hi : i.operand with
  | none =>
    obtain rfl : type = .inlineNone := by simpa [hi, Operand.fits] using hfits
    exact ⟨.none, rfl, .none⟩
  | int8 value =>
    obtain rfl : Bytes.little 1 value.toUInt8.toNat = bytes := by simpa [operandBytes, hi] using h
    obtain rfl : type = .shortInlineI := by simpa [hi, Operand.fits] using hfits
    have hlt : value.toUInt8.toNat < Bytes.limit 1 := value.toUInt8.toNat_lt
    exact ⟨.int8 value,
      Bytes.map_little?_append Nat.toUInt8 UInt8.ofNat_toNat hlt (.int8 ·.toInt8) rest, .int8 value⟩
  | int32 value =>
    obtain rfl : Bytes.little 4 value.toUInt32.toNat = bytes := by simpa [operandBytes, hi] using h
    obtain rfl : type = .inlineI := by simpa [hi, Operand.fits] using hfits
    have hlt : value.toUInt32.toNat < Bytes.limit 4 := value.toUInt32.toNat_lt
    exact ⟨.int32 value,
      Bytes.map_little?_append Nat.toUInt32 UInt32.ofNat_toNat hlt (.int32 ·.toInt32) rest,
      .int32 value⟩
  | int64 value =>
    obtain rfl : Bytes.little 8 value.toUInt64.toNat = bytes := by simpa [operandBytes, hi] using h
    obtain rfl : type = .inlineI8 := by simpa [hi, Operand.fits] using hfits
    have hlt : value.toUInt64.toNat < Bytes.limit 8 := value.toUInt64.toNat_lt
    exact ⟨.int64 value,
      Bytes.map_little?_append Nat.toUInt64 UInt64.ofNat_toNat hlt (.int64 ·.toInt64) rest,
      .int64 value⟩
  | float32 bits =>
    obtain rfl : Bytes.little 4 bits.toNat = bytes := by simpa [operandBytes, hi] using h
    obtain rfl : type = .shortInlineR := by simpa [hi, Operand.fits] using hfits
    have hlt : bits.toNat < Bytes.limit 4 := bits.toNat_lt
    exact ⟨.float32 bits,
      Bytes.map_little?_append Nat.toUInt32 UInt32.ofNat_toNat hlt .float32 rest, .float32 bits⟩
  | float64 bits =>
    obtain rfl : Bytes.little 8 bits.toNat = bytes := by simpa [operandBytes, hi] using h
    obtain rfl : type = .inlineR := by simpa [hi, Operand.fits] using hfits
    have hlt : bits.toNat < Bytes.limit 8 := bits.toNat_lt
    exact ⟨.float64 bits,
      Bytes.map_little?_append Nat.toUInt64 UInt64.ofNat_toNat hlt .float64 rest, .float64 bits⟩
  | string value =>
    have hlt : (strings.token value).raw.toNat < Bytes.limit 4 := (strings.token value).raw.toNat_lt
    obtain rfl : Bytes.little 4 (strings.token value).raw.toNat = bytes := by
      simpa [operandBytes, hi] using h
    obtain rfl : type = .inlineString := by simpa [hi, Operand.fits] using hfits
    exact ⟨.userString (strings.token value),
      Bytes.map_little?_append Nat.toUInt32 UInt32.ofNat_toNat hlt (.userString ⟨·⟩) rest,
      .string value⟩
  | token value =>
    obtain rfl : Bytes.little 4 value.raw.toNat = bytes := by simpa [operandBytes, hi] using h
    have hlt : value.raw.toNat < Bytes.limit 4 := value.raw.toNat_lt
    refine ⟨.token value, ?_, .token value⟩
    simp only [hi, Operand.fits, Bool.or_eq_true, beq_iff_eq] at hfits
    rcases hfits with (((rfl | rfl) | rfl) | rfl) | rfl <;>
      exact Bytes.map_little?_append Nat.toUInt32 UInt32.ofNat_toNat hlt (.token ⟨·⟩) rest
  | localVar v =>
    simp only [operandBytes, hi, htype] at h
    split at h
    · rename_i index hindex
      obtain ⟨hlt, rfl⟩ := indexBytes_eq_ok h
      refine ⟨.localVar index, ?_, .localVar (hlocals.indexOf?_eq_some_iff.1 hindex)⟩
      simp only [hi, Operand.fits, Bool.or_eq_true, beq_iff_eq] at hfits
      rcases hfits with rfl | rfl <;>
        exact congrArg (Option.map Reading.localVar) (Bytes.little?_append hlt rest)
    · cases h
  | argument number =>
    simp only [operandBytes, hi, htype] at h
    obtain ⟨hlt, rfl⟩ := indexBytes_eq_ok h
    refine ⟨.argument number, ?_, .argument number⟩
    simp only [hi, Operand.fits, Bool.or_eq_true, beq_iff_eq] at hfits
    rcases hfits with rfl | rfl <;>
      exact Bytes.map_little?_append Nat.toUInt16 UInt16.ofNat_toNat hlt .argument rest
  | target target =>
    simp only [operandBytes, hi, htype] at h
    obtain ⟨distance, hdistance, hleads⟩ := signed?_distanceBytes h rest
    refine ⟨.target distance, ?_, .target hleads⟩
    simp only [hi, Operand.fits, Bool.or_eq_true, beq_iff_eq] at hfits
    rcases hfits with rfl | rfl <;> exact congrArg (Option.map Reading.target) hdistance
  | switch targets =>
    simp only [hi, Operand.fits, beq_iff_eq] at hfits
    rw [hi, Operand.tableLength] at hlength
    obtain ⟨pieces, hpieces, rfl⟩ := switch_eq_ok hi h
    obtain ⟨distances, hdistances, hleads⟩ := signedTable?_distances hpieces rest
    refine ⟨.switch distances, ?_, .switch hleads⟩
    rw [hfits, Code.operand?, List.append_assoc, Bytes.little?_append hlength]
    simp [List.drop_left' (Bytes.length_little 4 _), hdistances]

end Image

end Operands

section Lines

variable {strings : UserStrings} {s : Sequence} {locals : Locals}

namespace Code

/-- The line of a member. -/
structure Line.Shows (strings : UserStrings) (s : Sequence) (locals : Locals)
    (m : InstructionId × Instruction) (l : Line) : Prop where
  offset : l.offset = m.2.offset
  opcode : l.opcode = m.2.opcode
  operand : l.operand.Shows strings locals (Image.Leads s (m.2.offset + m.2.size)) m.2.operand

theorem Line.Shows.size_eq {m : InstructionId × Instruction} {l : Line}
    (h : l.Shows strings s locals m) : l.size = m.2.size := by
  rw [Line.size, h.opcode, h.operand.tableLength_eq, Instruction.size]

theorem Line.map_offset {members : List (InstructionId × Instruction)} {lines : List Line}
    (h : List.Forall₂ (fun m l => Line.Shows strings s locals m l) members lines) :
    lines.map (fun l => (l.offset : Int)) = members.map fun m => (m.2.offset : Int) := by
  induction h with
  | nil => rfl
  | cons hl _ ih => rw [List.map_cons, List.map_cons, hl.offset, ih]

/-- What a member must keep to for its bytes to be read back. -/
structure Readable (m : InstructionId × Instruction) : Prop where
  known : m.2.opcode ∈ Opcode.table
  fits : m.2.operand.fits m.2.opcode.operandType = true
  tableLength_lt : m.2.operand.tableLength < Bytes.limit 4

theorem line?_append {m : InstructionId × Instruction} {bytes : List UInt8}
    (hm : Readable m) (hlocals : locals.Reachable)
    (h : Image.Written strings s locals m bytes) (rest : List UInt8) :
    ∃ l, line? m.2.offset (bytes ++ rest) = some l ∧ l.Shows strings s locals m := by
  obtain ⟨operand, hoperand, rfl⟩ := h
  obtain ⟨r, hr, hshows⟩ := Image.operand?_append hm.fits hlocals hm.tableLength_lt hoperand rest
  refine ⟨⟨m.2.offset, m.2.opcode, r⟩, ?_, rfl, rfl, hshows⟩
  rw [line?, List.append_assoc, opcode?_append hm.known]
  simp [List.drop_left' (Opcode.length_bytes m.2.opcode), hr]

/-- Code that is written member by member is read line by line. -/
theorem linesFrom_flatten (hlocals : locals.Reachable)
    {members : List (InstructionId × Instruction)} {pieces : List (List UInt8)}
    (h : List.Forall₂ (Image.Written strings s locals) members pieces) :
    ∀ {offset : Nat}, Located offset members → (∀ m ∈ members, Readable m) →
      ∃ lines, linesFrom offset pieces.flatten = some lines
        ∧ List.Forall₂ (fun m l => Line.Shows strings s locals m l) members lines := by
  induction h with
  | nil =>
    intro offset _ _
    exact ⟨[], by simp [linesFrom], .nil⟩
  | @cons m bytes members pieces hm _ ih =>
    intro offset hlocated hreadable
    obtain ⟨rfl, hlocated⟩ := hlocated.cons
    have hmr := hreadable m List.mem_cons_self
    have hlength := hm.length_eq hmr.fits
    obtain ⟨l, hl, hshows⟩ := line?_append hmr hlocals hm pieces.flatten
    obtain ⟨lines, hlines, hall⟩ :=
      ih hlocated fun m' hm' => hreadable m' (List.mem_cons_of_mem m hm')
    have hne : bytes ++ pieces.flatten ≠ [] := fun hnil => by
      have := m.2.size_pos
      simp [List.append_eq_nil_iff.1 hnil] at hlength
      omega
    have hnext : l.next = m.2.offset + m.2.size := by rw [Line.next, hshows.offset, hshows.size_eq]
    refine ⟨l :: lines, ?_, .cons hshows hall⟩
    rw [List.flatten_cons, linesFrom, dif_neg hne, hl]
    dsimp only
    rw [hshows.size_eq, ← hlength, List.drop_left, hnext, hlines]
    rfl

end Code

end Lines

section Decode

variable {strings strings' : UserStrings} {s : Sequence} {locals : Locals}

/-- A distance is the way from its origin to its target. -/
theorem Image.Leads.add_eq (hs : s.Consistent) (hlocated : Located 0 s.members)
    (hsize : s.codeSize < Bytes.limit 4) {origin : Nat} (horigin : origin ≤ s.codeSize)
    {target : InstructionId} {distance : Int} (h : Leads s origin target distance) :
    target ∈ s.order ∧ (origin : Int) + distance = s.offsetOf target := by
  obtain ⟨hmember, rfl⟩ := h
  have hmem := hs.contains_iff.1 hmember
  obtain ⟨j, hj⟩ := hs.exists_node hmem
  have hend : j.offset + j.size ≤ s.codeSize := by
    simpa [Sequence.codeSize] using hlocated.end_le (Sequence.mk_mem_members.2 ⟨hmem, hj⟩)
  have hoffset : s.offsetOf target = j.offset := by rw [Sequence.offsetOf, hj]; rfl
  have hlimit : Bytes.limit 4 < 1 <<< 63 := by decide
  refine ⟨hmem, ?_⟩
  rw [hoffset, Offset.distance_eq (by omega) (by omega)]
  omega

/-- What leads to a member leads to the line at its position. -/
theorem Image.Leads.idxOf?_offsets (hs : s.Consistent) (hlocated : Located 0 s.members)
    (hsize : s.codeSize < Bytes.limit 4) {origin : Nat} (horigin : origin ≤ s.codeSize)
    {target : InstructionId} {distance : Int} (h : Leads s origin target distance) :
    ∃ p, (s.members.map fun m => (m.2.offset : Int)).idxOf? ((origin : Int) + distance) = some p
      ∧ s.get? p = some target := by
  obtain ⟨hmem, hgoal⟩ := h.add_eq hs hlocated hsize horigin
  obtain ⟨p, hp⟩ := Sequence.mem_order_iff.1 hmem
  obtain ⟨j, hj⟩ := hs.exists_node hmem
  have hm : s.members[p]? = some (target, j) := by
    rw [hs.getElem?_members, hp, Option.bind_some, hj]
    rfl
  have hoffset : s.offsetOf target = j.offset := by rw [Sequence.offsetOf, hj]; rfl
  refine ⟨p, ?_, hp⟩
  obtain ⟨hlt, hget⟩ := List.getElem?_eq_some_iff.1 hm
  rw [hgoal, hoffset, List.idxOf?_eq_some_iff]
  refine ⟨by simpa using hlt, by simp [hget], fun q hq hsame => ?_⟩
  have hsame : (s.members[q].2.offset : Int) = j.offset := by simpa using hsame
  have hqm := List.getElem?_eq_getElem (Nat.lt_trans hq hlt)
  exact Nat.ne_of_lt hq (hlocated.offset_inj hqm hm (Int.ofNat_inj.1 hsame))

theorem Operand.tableLength_le_size {i : Instruction}
    (hfits : i.operand.fits i.opcode.operandType = true) : i.operand.tableLength ≤ i.size := by
  cases hi : i.operand with
  | switch targets =>
    have htype : i.opcode.operandType = .inlineSwitch := by simpa [hi, Operand.fits] using hfits
    simp only [Instruction.size, hi, htype, OperandType.size]
    omega
  | _ => exact Nat.zero_le _

theorem Code.readable_of_mem (hs : s.Consistent) (hlocated : Located 0 s.members)
    (hsize : s.codeSize < Bytes.limit 4) (hknown : ∀ c ∈ s.codes, c.1 ∈ Opcode.table)
    {m : InstructionId × Instruction} (hm : m ∈ s.members) : Readable m := by
  have hfits := hs.fits_members m hm
  have hle := Operand.tableLength_le_size hfits
  have hend : m.2.offset + m.2.size ≤ s.codeSize := by
    simpa [Sequence.codeSize] using hlocated.end_le hm
  exact ⟨hknown _ (List.mem_map_of_mem hm), hfits, by omega⟩

/-- A line restores an instruction: it has the opcode, and the operand with targets named by their
positions in `s`. -/
def Code.Restores (strings : UserStrings) (s : Sequence) (locals : Locals) (c : Opcode × Operand)
    (line : Opcode × Reading Nat) : Prop :=
  line.1 = c.1 ∧ line.2.Shows strings locals (fun target p => s.get? p = some target) c.2

/-- Code that is written member by member is read back with the members' positions. -/
theorem Code.decode_flatten (hs : s.Consistent) (hlocated : Located 0 s.members)
    (hsize : s.codeSize < Bytes.limit 4) (hlocals : locals.Reachable)
    (hknown : ∀ c ∈ s.codes, c.1 ∈ Opcode.table) {pieces : List (List UInt8)}
    (h : List.Forall₂ (Image.Written strings s locals) s.members pieces) :
    ∃ program, decode pieces.flatten = some program
      ∧ List.Forall₂ (Restores strings s locals) s.codes program := by
  have hend : ∀ m ∈ s.members, m.2.offset + m.2.size ≤ s.codeSize := fun m hm => by
    simpa [Sequence.codeSize] using hlocated.end_le hm
  obtain ⟨lines, hlines, hshows⟩ := linesFrom_flatten hlocals h hlocated fun m hm =>
    readable_of_mem hs hlocated hsize hknown hm
  rw [decode, hlines, Option.bind_eq_bind, Option.bind_some, Line.map_offset hshows]
  simp only [Sequence.codes, List.forall₂_map_left_iff]
  refine exists_mapM (fun m l hml => ?_) ((List.forall₂_and_left _ _).2 ⟨hend, hshows⟩)
  obtain ⟨hend, hl⟩ := hml
  have hnext : l.next = m.2.offset + m.2.size := by rw [Line.next, hl.offset, hl.size_eq]
  rw [hnext]
  obtain ⟨r, hr, hshows⟩ := hl.operand.rename fun target distance hleads =>
    hleads.idxOf?_offsets hs hlocated hsize hend
  exact ⟨(m.2.opcode, r), by rw [hr, hl.opcode]; rfl, rfl, hshows⟩

/-- A program that is read back takes as many bytes as the members. -/
theorem Code.map_size_program {program : List (Opcode × Reading Nat)}
    (h : List.Forall₂ (Restores strings s locals) s.codes program) :
    (program.map fun line => line.1.size + line.1.operandType.size line.2.tableLength) =
      s.members.map (·.2.size) := by
  rw [Sequence.codes, List.forall₂_map_left_iff] at h
  generalize s.members = members at h ⊢
  induction h with
  | nil => rfl
  | cons hm _ ih =>
    rw [List.map_cons, List.map_cons, ih, hm.1, hm.2.tableLength_eq, Instruction.size]

/-- The code of an encoded body, read by itself and to its end, gives back opcodes and operands of
the members in order: a target as its position among them, a variable as its position among the
variables, a literal as its token. -/
theorem Code.decode_encode {g : TypeGraph} {b b' : Body} {image : Image} (hb : b.Reachable)
    (hknown : ∀ c ∈ b.instructions.codes, c.1 ∈ Opcode.table)
    (h : Image.encode g strings b = (.ok image, strings', b')) :
    ∃ program, decode image.sections.code.toList = some program
      ∧ Offset.total (program.map fun line =>
          line.1.size + line.1.operandType.size line.2.tableLength) = image.sections.code.size
      ∧ List.Forall₂ (Restores strings' b.instructions b.locals) b.instructions.codes program := by
  have hs := hb.instructions.consistent
  obtain ⟨rfl, hsize, hlt, pieces, hpieces, hcode⟩ := Image.encode_eq_ok h
  rw [← hs.codes_laidOut] at hknown ⊢
  obtain ⟨program, hprogram, hshows⟩ := decode_flatten hs.laidOut hs.located
    (by rw [hs.codeSize_laidOut, ← hsize]; exact hlt) hb.locals hknown hpieces
  refine ⟨program, by rw [hcode, hprogram], ?_, hshows⟩
  rw [map_size_program hshows, ← Array.length_toList, hcode, Image.length_flatten_eq,
    Image.map_length_pieces hpieces hs.laidOut.fits_members]

/-- A literal, a variable that is second in the order, and a branch back to the start. -/
theorem Code.decode_encode_branch :
    ∃ (b b' : Body) (image : Image) (strings' : UserStrings), b.Reachable
      ∧ (∀ c ∈ b.instructions.codes, c.1 ∈ Opcode.table)
      ∧ Image.encode .empty .empty b = (.ok image, strings', b')
      ∧ image.sections.code = #[0x72, 0x01, 0x00, 0x00, 0x70, 0x11, 0x01, 0x2b, 0xf7]
      ∧ ∃ program, decode image.sections.code.toList = some program
        ∧ List.Forall₂ (Restores strings' b.instructions b.locals) b.instructions.codes
          program := by
  obtain ⟨b, b', image, strings', hb, hknown, hencode, hcode⟩ :
      ∃ (b b' : Body) (image : Image) (strings' : UserStrings), b.Reachable
        ∧ (∀ c ∈ b.instructions.codes, c.1 ∈ Opcode.table)
        ∧ Image.encode .empty .empty b = (.ok image, strings', b')
        ∧ image.sections.code = #[0x72, 0x01, 0x00, 0x00, 0x70, 0x11, 0x01, 0x2b, 0xf7] :=
    ⟨{ method := {}
       instructions := (Sequence.empty.runScript
        [.edit (.emit ⟨"ldstr", 0x72, .inlineString⟩ (.string "a")),
          .edit (.emit ⟨"ldloc.s", 0x11, .shortInlineVar⟩ (.localVar ⟨0⟩)),
          .edit (.emit ⟨"br.s", 0x2b, .shortInlineBrTarget⟩ (.target ⟨0⟩))]).2
       locals := [Locals.Edit.create ⟨0⟩, .create ⟨0⟩, .append ⟨1⟩, .append ⟨0⟩].foldl Locals.after
        .empty },
      _, _, _, ⟨⟨_, rfl⟩, ⟨_, rfl⟩⟩, by decide +kernel, rfl, by decide +kernel⟩
  obtain ⟨program, hprogram, -, hrestores⟩ := decode_encode hb hknown hencode
  exact ⟨b, b', image, strings', hb, hknown, hencode, hcode, program, hprogram, hrestores⟩

end Decode

end CilMethod
