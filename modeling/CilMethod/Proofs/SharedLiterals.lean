import CilMethod.Proofs.Decoder
import CilMethod.Proofs.FailedEncoding

/-!
# Literals shared between bodies

One table of literals goes from encoding to encoding, whether these succeed or not. Each encoding
adds the literals that it meets and that are not listed, in the order it meets them
(`toList_insertAll`), and it meets those of the members up to the first that cannot be written
(`writeMembers_spec`). So a literal keeps its row from its first use on, no row is given twice, and
as long as the row numbers fit into a token the tokens of two literals are the same exactly if the
literals are, whichever bodies they stand in (`calls_share`).
-/

namespace CilMethod

namespace UserStrings

variable {t : UserStrings} {s s' : String}

theorem toList_insert (t : UserStrings) (s : String) :
    (t.insert s).entries.toList =
      if s ∈ t.entries.toList then t.entries.toList else t.entries.toList ++ [s] := by
  unfold insert
  simp only [Array.contains_iff_mem, Array.mem_toList_iff]
  split_ifs <;> simp

theorem nodup_insert (h : t.entries.toList.Nodup) : (t.insert s).entries.toList.Nodup := by
  rw [toList_insert]
  split_ifs with hs
  · exact h
  · exact List.nodup_append.2 ⟨h, by simp, fun a ha b hb hab =>
      hs (List.mem_singleton.1 hb ▸ hab ▸ ha)⟩

/-- Lists literals one after the other. -/
def insertAll (t : UserStrings) (literals : List String) : UserStrings := literals.foldl insert t

/-- Those of some literals that are not listed yet, each at its first use. -/
def unlisted (t : UserStrings) (literals : List String) : List String :=
  (literals.filter (· ∉ t.entries.toList)).eraseDups

theorem toList_insertAll (t : UserStrings) (literals : List String) :
    (t.insertAll literals).entries.toList = t.entries.toList ++ t.unlisted literals := by
  induction literals generalizing t with
  | nil => simp [insertAll, unlisted]
  | cons s literals ih =>
    have hstep : t.insertAll (s :: literals) = (t.insert s).insertAll literals := rfl
    rw [hstep, ih, unlisted, unlisted, toList_insert]
    by_cases hs : s ∈ t.entries.toList
    · rw [if_pos hs, List.filter_cons_of_neg (by simpa using hs)]
    · rw [if_neg hs, List.filter_cons_of_pos (by simpa using hs), List.eraseDups_cons,
        List.append_assoc, List.singleton_append, List.filter_filter]
      congr 3
      refine List.filter_congr fun x _ => ?_
      by_cases hx : x = s <;> simp [hx]

theorem mem_insertAll {literals : List String} (hs : s ∈ literals) :
    s ∈ (t.insertAll literals).entries := by
  rw [← Array.mem_toList_iff, toList_insertAll, List.mem_append, unlisted, List.mem_eraseDups,
    List.mem_filter]
  by_cases hlisted : s ∈ t.entries.toList
  · exact .inl hlisted
  · exact .inr ⟨hs, by simpa using hlisted⟩

theorem nodup_insertAll {literals : List String} (h : t.entries.toList.Nodup) :
    (t.insertAll literals).entries.toList.Nodup := by
  induction literals generalizing t with
  | nil => exact h
  | cons s literals ih => exact ih (nodup_insert h)

theorem mem_of_extends {u : UserStrings} (h : t.Extends u) (hs : s ∈ t.entries) :
    s ∈ u.entries :=
  Array.mem_toList_iff.1 (h.subset (Array.mem_toList_iff.2 hs))

/-- As long as the rows fit into a token, the token of a literal says where it is listed. -/
theorem token_spec (hs : s ∈ t.entries) (hsize : t.entries.size < 1 <<< 24) :
    (t.token s).table? = some .string ∧ 0 < (t.token s).row.toNat
      ∧ t.entries[(t.token s).row.toNat - 1]? = some s := by
  obtain ⟨place, hplace⟩ : ∃ place, t.entries.findIdx? (· == s) = some place := by
    refine Option.ne_none_iff_exists'.1 fun hnone => ?_
    simpa using Array.findIdx?_eq_none_iff.1 hnone s hs
  obtain ⟨hlt, hfound, -⟩ := Array.findIdx?_eq_some_iff_getElem.1 hplace
  have hrow : (place.toUInt32 + 1).toNat = place + 1 := by
    rw [UInt32.toNat_add, Nat.toUInt32, UInt32.toNat_ofNat']
    change (place % 4294967296 + 1) % 4294967296 = place + 1
    omega
  have hfits : (place.toUInt32 + 1).toNat < 1 <<< 24 := by omega
  rw [token, hplace, Option.getD_some, Token.table?_ofRow, Token.row_ofRow hfits, hrow]
  refine ⟨rfl, Nat.succ_pos place, ?_⟩
  rw [Nat.add_sub_cancel, Array.getElem?_eq_getElem hlt, eq_of_beq hfound]

theorem token_inj (hs : s ∈ t.entries) (hs' : s' ∈ t.entries) (hsize : t.entries.size < 1 <<< 24) :
    t.token s = t.token s' ↔ s = s' := by
  refine ⟨fun h => ?_, fun h => h ▸ rfl⟩
  obtain ⟨-, -, hplace⟩ := token_spec hs hsize
  obtain ⟨-, -, hplace'⟩ := token_spec hs' hsize
  rw [h, hplace'] at hplace
  exact (Option.some.inj hplace).symm

end UserStrings

/-- The literal of an operand. -/
def Operand.literal? : Operand → Option String
  | string value => some value
  | _ => Option.none

namespace Image

variable {g : TypeGraph} {strings strings' : UserStrings} {b b' : Body} {s : Sequence}
  {locals : Locals} {id : InstructionId} {i : Instruction}

/-- The literals of members, in order and with repetitions. -/
def literals (members : List (InstructionId × Instruction)) : List String :=
  members.filterMap (·.2.operand.literal?)

section Listing

theorem noteStrings_eq (strings : UserStrings) (i : Instruction) :
    noteStrings strings i = strings.insertAll i.operand.literal?.toList := by
  unfold noteStrings
  cases i.operand <;> rfl

/-- A literal can always be written. -/
theorem literal?_of_error {e : Error} (h : operandBytes strings s locals id i = .error e) :
    i.operand.literal? = none := by
  cases hi : i.operand with
  | string value => simp [operandBytes, hi] at h
  | _ => rfl

theorem literals_cons (id : InstructionId) (i : Instruction)
    (members : List (InstructionId × Instruction)) :
    literals ((id, i) :: members) = i.operand.literal?.toList ++ literals members := by
  rw [literals, List.filterMap_cons]
  cases i.operand.literal? <;> rfl

/-- Writing stops in front of the first member that cannot be written, and lists the literals of
those before it. -/
theorem writeMembers_spec (s : Sequence) (locals : Locals) :
    ∀ {members : List (InstructionId × Instruction)} {strings strings' : UserStrings}
      {code : Array UInt8} {result : Except Error (Array UInt8)},
    writeMembers s locals members strings code = (result, strings') →
    ∃ written rest, members = written ++ rest
      ∧ (∀ m ∈ written, ∃ bytes, operandBytes strings' s locals m.1 m.2 = .ok bytes)
      ∧ (∀ m ∈ rest.head?, ∃ e, operandBytes strings' s locals m.1 m.2 = .error e
        ∧ result = .error e)
      ∧ strings' = strings.insertAll (literals written)
  | [], _, _, _, _, h => by
    cases h
    exact ⟨[], [], rfl, List.forall_mem_nil _, by simp, rfl⟩
  | (id, i) :: members, strings, strings', code, result, h => by
    rw [writeMembers] at h
    cases hoperand : operandBytes (noteStrings strings i) s locals id i with
    | ok operand =>
      simp only [hoperand] at h
      obtain ⟨written, rest, rfl, hwritten, hstops, hstrings⟩ := writeMembers_spec s locals h
      have hextends : (noteStrings strings i).Extends strings' := by
        have hrest := extends_writeMembers s locals (written ++ rest) (noteStrings strings i)
          (code ++ i.opcode.bytes ++ operand)
        rwa [h] at hrest
      have hlast : operandBytes strings' s locals id i = .ok operand :=
        (operandBytes_of_extends hextends fun _ => mem_noteStrings).trans hoperand
      refine ⟨(id, i) :: written, rest, rfl, List.forall_mem_cons.2 ⟨⟨operand, hlast⟩, hwritten⟩,
        hstops, ?_⟩
      rw [hstrings, noteStrings_eq, literals_cons]
      exact List.foldl_append.symm
    | error e =>
      simp only [hoperand] at h
      obtain ⟨rfl, rfl⟩ := Prod.mk.inj h
      refine ⟨[], (id, i) :: members, rfl, List.forall_mem_nil _, ?_, ?_⟩
      · rintro m ⟨⟩
        exact ⟨e, hoperand, rfl⟩
      · rw [noteStrings_eq, literal?_of_error hoperand]
        rfl

/-- An encoding that does not even start to write lists nothing, and any other one the literals of
the members up to the first that cannot be written. -/
theorem encode_lists {result : Except Failure Image}
    (h : encode g strings b = (result, strings', b')) :
    if b.instructions.suppressed = true ∨ Bytes.limit 4 ≤ b.instructions.codeSize then
      strings' = strings ∧ ∃ e, result = .error e
    else ∃ written rest, b'.instructions.members = written ++ rest
      ∧ (∀ m ∈ written, ∃ bytes,
        operandBytes strings' b'.instructions b'.locals m.1 m.2 = .ok bytes)
      ∧ (∀ m ∈ rest.head?, ∃ e, operandBytes strings' b'.instructions b'.locals m.1 m.2 = .error e
        ∧ result = .error (.fault e))
      ∧ strings' = strings.insertAll (literals written) := by
  cases hsuppressed : b.instructions.suppressed with
  | true =>
    rw [encode_of_suppressed hsuppressed] at h
    cases h
    exact ⟨rfl, _, rfl⟩
  | false =>
    rw [encode, computeOffsets_eq hsuppressed] at h
    dsimp only at h
    split_ifs at h with hsize
    · cases h
      rw [if_pos (.inr hsize)]
      exact ⟨rfl, _, rfl⟩
    · rw [if_neg (by simpa using hsize)]
      split at h
      · rename_i code strings'' hrun
        cases h
        obtain ⟨written, rest, hmembers, hwritten, hstops, hstrings⟩ := writeMembers_spec _ _ hrun
        refine ⟨written, rest, hmembers, hwritten, fun m hm => ?_, hstrings⟩
        -- code that was written to its end has no member left over
        obtain ⟨e, -, hresult⟩ := hstops m hm
        cases hresult
      · rename_i e strings'' hrun
        cases h
        obtain ⟨written, rest, hmembers, hwritten, hstops, hstrings⟩ := writeMembers_spec _ _ hrun
        refine ⟨written, rest, hmembers, hwritten, fun m hm => ?_, hstrings⟩
        obtain ⟨e', hoperand, hresult⟩ := hstops m hm
        cases hresult
        exact ⟨e, hoperand, rfl⟩

end Listing

section Bytes

/-- The bytes of an operand in the code of an image. -/
def operandSlice (image : Image) (i : Instruction) : List UInt8 :=
  (image.sections.code.extract (i.offset + i.opcode.size) (i.offset + i.size)).toList

/-- The operand of a member stands in the code behind its opcode, at its offset. -/
theorem operandBytes_eq_slice {image : Image} (hb : b.Reachable)
    (h : encode g strings b = (.ok image, strings', b'))
    (hm : (id, i) ∈ b'.instructions.members) :
    operandBytes strings' b'.instructions b'.locals id i = .ok (image.operandSlice i) := by
  obtain ⟨operand, hoperand, hbytes⟩ := exists_operandBytes hb h hm
  have hwidth : i.offset + i.size - (i.offset + i.opcode.size) = i.size - i.opcode.size := by omega
  rw [hoperand, operandSlice, Array.toList_extract, List.extract, hwidth, ← List.drop_drop,
    ← List.drop_take, hbytes, ← Opcode.length_bytes, List.drop_left]

/-- A literal is written as its token. -/
theorem slice_of_string {image : Image} {value : String} (hb : b.Reachable)
    (h : encode g strings b = (.ok image, strings', b'))
    (hm : (id, i) ∈ b'.instructions.members) (hi : i.operand = .string value) :
    image.operandSlice i = Bytes.little 4 (strings'.token value).raw.toNat := by
  have hslice := operandBytes_eq_slice hb h hm
  simp only [operandBytes, hi] at hslice
  exact (Except.ok.inj hslice).symm

theorem token_of_little {t u : Token}
    (h : Bytes.little 4 t.raw.toNat = Bytes.little 4 u.raw.toNat) : t = u := by
  have hraw := congrArg Bytes.ofLittle h
  rw [Bytes.ofLittle_little t.raw.toNat_lt, Bytes.ofLittle_little u.raw.toNat_lt] at hraw
  exact Token.ext (UInt32.toNat_inj.1 hraw)

end Bytes

section Calls

/-- One encoding among many that share a table: what it is given and what it leaves. -/
structure Call where
  graph : TypeGraph
  body : Body
  /-- The literals that are listed when the encoding starts. -/
  before : UserStrings
  result : Except Failure Image
  after : UserStrings
  /-- The body as the encoding leaves it. -/
  left : Body

/-- Encodes bodies one after the other, each with the literals that the one before it left. -/
def calls : UserStrings → List (TypeGraph × Body) → List Call
  | _, [] => []
  | before, (graph, body) :: rest =>
    let (result, after, left) := encode graph before body
    { graph, body, before, result, after, left } :: calls after rest

variable {bodies : List (TypeGraph × Body)} {c d : Call}

theorem encode_of_mem_calls : ∀ {bodies : List (TypeGraph × Body)} {strings : UserStrings},
    c ∈ calls strings bodies → (c.graph, c.body) ∈ bodies
      ∧ encode c.graph c.before c.body = (c.result, c.after, c.left)
  | [], _, h => nomatch h
  | (g, b) :: bodies, strings, h => by
    rcases List.mem_cons.1 h with rfl | h
    · exact ⟨List.mem_cons_self, rfl⟩
    · obtain ⟨hmem, hencode⟩ := encode_of_mem_calls h
      exact ⟨List.mem_cons_of_mem _ hmem, hencode⟩

theorem nodup_encode {result : Except Failure Image} (hnodup : strings.entries.toList.Nodup)
    (h : encode g strings b = (result, strings', b')) : strings'.entries.toList.Nodup := by
  have hlists := encode_lists h
  split_ifs at hlists
  · rw [hlists.1]
    exact hnodup
  · obtain ⟨written, rest, -, -, -, rfl⟩ := hlists
    exact UserStrings.nodup_insertAll hnodup

theorem nodup_of_mem_calls : ∀ {bodies : List (TypeGraph × Body)} {strings : UserStrings},
    strings.entries.toList.Nodup → c ∈ calls strings bodies → c.after.entries.toList.Nodup
  | [], _, _, h => nomatch h
  | (g, b) :: bodies, strings, hnodup, h => by
    rw [calls] at h
    cases hrun : encode g strings b with
    | mk result left =>
      obtain ⟨after, left⟩ := left
      rw [hrun] at h
      have hafter := nodup_encode hnodup hrun
      rcases List.mem_cons.1 h with rfl | h
      · exact hafter
      · exact nodup_of_mem_calls hafter h

theorem extends_of_mem_calls : ∀ {bodies : List (TypeGraph × Body)} {strings : UserStrings},
    c ∈ calls strings bodies → strings.Extends c.before
  | [], _, h => nomatch h
  | (g, b) :: bodies, strings, h => by
    rcases List.mem_cons.1 h with rfl | h
    · exact .refl _
    · exact (extends_encode g strings b).trans (extends_of_mem_calls h)

/-- A call finds all that the calls before it have listed. -/
theorem pairwise_calls : ∀ (strings : UserStrings) (bodies : List (TypeGraph × Body)),
    (calls strings bodies).Pairwise fun c d => c.after.Extends d.before
  | _, [] => .nil
  | _, _ :: bodies => .cons (fun _ hd => extends_of_mem_calls hd) (pairwise_calls _ bodies)

/-- Of two calls one has listed all that the other has. -/
theorem extends_or_extends {strings : UserStrings} (hc : c ∈ calls strings bodies)
    (hd : d ∈ calls strings bodies) : c.after.Extends d.after ∨ d.after.Extends c.after := by
  have hself : ∀ {e : Call}, e ∈ calls strings bodies → e.before.Extends e.after := by
    intro e he
    have hextends := extends_encode e.graph e.before e.body
    rwa [(encode_of_mem_calls he).2] at hextends
  obtain ⟨m, hm, rfl⟩ := List.mem_iff_getElem.1 hc
  obtain ⟨n, hn, rfl⟩ := List.mem_iff_getElem.1 hd
  have hpairs := List.pairwise_iff_getElem.1 (pairwise_calls strings bodies)
  rcases Nat.lt_trichotomy m n with hlt | rfl | hlt
  · exact .inl ((hpairs m n hm hn hlt).trans (hself hd))
  · exact .inl (.refl _)
  · exact .inr ((hpairs n m hn hm hlt).trans (hself hc))

/-- What an encoding lists, and how the code shows it. -/
structure Call.Interns (c : Call) : Prop where
  nodup : c.after.entries.toList.Nodup
  /-- Laying out the body leaves the members and their operands. -/
  codes_eq : c.left.instructions.codes = c.body.instructions.codes
  unchanged : c.body.instructions.suppressed = true
      ∨ Bytes.limit 4 ≤ c.body.instructions.codeSize →
    c.after = c.before ∧ ∃ e, c.result = .error e
  /-- The members are written up to the first that cannot be, whose fault is the result, and those
  that are written have their literals listed. -/
  appended : ¬ (c.body.instructions.suppressed = true
      ∨ Bytes.limit 4 ≤ c.body.instructions.codeSize) →
    ∃ written rest, c.left.instructions.members = written ++ rest
      ∧ (∀ m ∈ written, ∃ bytes,
        operandBytes c.after c.left.instructions c.left.locals m.1 m.2 = .ok bytes)
      ∧ (∀ m ∈ rest.head?, ∃ e,
        operandBytes c.after c.left.instructions c.left.locals m.1 m.2 = .error e
          ∧ c.result = .error (.fault e))
      ∧ c.after.entries.toList =
        c.before.entries.toList ++ c.before.unlisted (literals written)
  /-- The operand of a literal is a token that says where the literal is listed. -/
  token : ∀ {image : Image} {id : InstructionId} {i : Instruction} {value : String},
    c.result = .ok image → c.after.entries.size < 1 <<< 24 →
    (id, i) ∈ c.left.instructions.members → i.operand = .string value →
    ∃ t : Token, image.operandSlice i = Bytes.little 4 t.raw.toNat ∧ t.table? = some .string
      ∧ 0 < t.row.toNat ∧ c.after.entries[t.row.toNat - 1]? = some value

theorem codes_encode {result : Except Failure Image} (hb : b.Reachable)
    (h : encode g strings b = (result, strings', b')) :
    b'.instructions.codes = b.instructions.codes := by
  have hbody : b' = b.computeOffsets.2 := by rw [← encode_body g strings b, h]
  rw [hbody]
  cases hsuppressed : b.instructions.suppressed with
  | true => rw [Body.computeOffsets, Sequence.recompute_of_suppressed _ hsuppressed]
  | false =>
    rw [computeOffsets_eq hsuppressed]
    exact hb.instructions.consistent.codes_laidOut

/-- An encoding that succeeds has listed the literals of all members. -/
theorem mem_of_encode_eq_ok {image : Image} {value : String}
    (h : encode g strings b = (.ok image, strings', b'))
    (hm : (id, i) ∈ b'.instructions.members) (hi : i.operand = .string value) :
    value ∈ strings'.entries := by
  have hlists := encode_lists h
  split_ifs at hlists
  · obtain ⟨-, e, hresult⟩ := hlists
    cases hresult
  · obtain ⟨written, rest, hmembers, -, hstops, rfl⟩ := hlists
    cases rest with
    | cons m rest =>
      obtain ⟨e, -, hresult⟩ := hstops m rfl
      cases hresult
    | nil =>
      rw [List.append_nil] at hmembers
      refine UserStrings.mem_insertAll (List.mem_filterMap.2 ⟨(id, i), hmembers ▸ hm, ?_⟩)
      rw [hi]
      rfl

theorem interns_of_mem_calls (hbodies : ∀ x ∈ bodies, x.2.Reachable)
    (hc : c ∈ calls .empty bodies) : c.Interns := by
  obtain ⟨hmem, hencode⟩ := encode_of_mem_calls hc
  have hb : c.body.Reachable := hbodies _ hmem
  have hlists := encode_lists hencode
  refine ⟨nodup_of_mem_calls List.nodup_nil hc, codes_encode hb hencode, fun h => ?_, fun h => ?_,
    fun {image id i value} hresult hsize hm hi => ?_⟩
  · rwa [if_pos h] at hlists
  · rw [if_neg h] at hlists
    obtain ⟨written, rest, hmembers, hwritten, hstops, hstrings⟩ := hlists
    refine ⟨written, rest, hmembers, hwritten, hstops, ?_⟩
    rw [hstrings, UserStrings.toList_insertAll]
  · rw [hresult] at hencode
    exact ⟨_, slice_of_string hb hencode hm hi,
      UserStrings.token_spec (mem_of_encode_eq_ok hencode hm hi) hsize⟩

/-- Bodies that are encoded with one table share it: no literal is listed twice, each encoding adds
the literals that it is the first to meet, and two of their members carry the same token exactly if
they carry the same literal. -/
theorem calls_share (hbodies : ∀ x ∈ bodies, x.2.Reachable) :
    (∀ c ∈ calls .empty bodies, c.Interns)
      ∧ (calls .empty bodies).Pairwise (fun c d => c.after.Extends d.before)
      ∧ ∀ c ∈ calls .empty bodies, ∀ d ∈ calls .empty bodies, ∀ image image' : Image,
        c.result = .ok image → d.result = .ok image' → c.after.entries.size < 1 <<< 24 →
        d.after.entries.size < 1 <<< 24 → ∀ id i id' i' value value',
        (id, i) ∈ c.left.instructions.members → i.operand = .string value →
        (id', i') ∈ d.left.instructions.members → i'.operand = .string value' →
        (image.operandSlice i = image'.operandSlice i' ↔ value = value') := by
  refine ⟨fun c hc => interns_of_mem_calls hbodies hc, pairwise_calls .empty bodies, ?_⟩
  intro c hc d hd image image' hresult hresult' hsize hsize' id i id' i' value value' hm hi hm' hi'
  obtain ⟨hmem, hencode⟩ := encode_of_mem_calls hc
  obtain ⟨hmem', hencode'⟩ := encode_of_mem_calls hd
  rw [hresult] at hencode
  rw [hresult'] at hencode'
  have hlisted := mem_of_encode_eq_ok hencode hm hi
  have hlisted' := mem_of_encode_eq_ok hencode' hm' hi'
  rw [slice_of_string (hbodies _ hmem) hencode hm hi,
    slice_of_string (hbodies _ hmem') hencode' hm' hi']
  -- both tokens are those in the longer of the two tables
  obtain ⟨t, ht, htoken, htoken', hin, hin'⟩ : ∃ t : UserStrings, t.entries.size < 1 <<< 24
      ∧ t.token value = c.after.token value ∧ t.token value' = d.after.token value'
      ∧ value ∈ t.entries ∧ value' ∈ t.entries := by
    rcases extends_or_extends hc hd with h | h
    · exact ⟨d.after, hsize', UserStrings.token_of_extends h hlisted, rfl,
        UserStrings.mem_of_extends h hlisted, hlisted'⟩
    · exact ⟨c.after, hsize, rfl, UserStrings.token_of_extends h hlisted', hlisted,
        UserStrings.mem_of_extends h hlisted'⟩
  rw [← htoken, ← htoken', ← UserStrings.token_inj hin hin' ht]
  exact ⟨token_of_little, fun h => by rw [h]⟩

/-- The second of three bodies lists a literal and fails behind it. The first and the third both use
`b` and write the same token for it. -/
theorem calls_share_three :
    ∃ (bodies : List (TypeGraph × Body)) (c d : Call) (image image' : Image)
        (id id' : InstructionId) (i i' : Instruction), (∀ x ∈ bodies, x.2.Reachable)
      ∧ c ∈ calls .empty bodies ∧ d ∈ calls .empty bodies
      ∧ (calls .empty bodies).map (·.after.entries) =
        [#["a", "b"], #["a", "b", "c"], #["a", "b", "c"]]
      ∧ (calls .empty bodies).map (fun c => faultOf c.result) =
        [none, some (.fault (.danglingReference ⟨1⟩)), none]
      ∧ c.result = .ok image ∧ d.result = .ok image'
      ∧ c.after.entries.size < 1 <<< 24 ∧ d.after.entries.size < 1 <<< 24
      ∧ (id, i) ∈ c.left.instructions.members ∧ i.operand = .string "b"
      ∧ (id', i') ∈ d.left.instructions.members ∧ i'.operand = .string "b"
      ∧ image.operandSlice i = [2, 0, 0, 0x70] ∧ image.operandSlice i = image'.operandSlice i'
      ∧ c.Interns ∧ d.Interns := by
  obtain ⟨bodies, c, e, d, image, image', id, id', i, i', hbodies, hcalls, hafter, hfaults,
      hresult, hresult', hm, hi, hm', hi', hslice⟩ :
      ∃ (bodies : List (TypeGraph × Body)) (c e d : Call) (image image' : Image)
        (id id' : InstructionId) (i i' : Instruction), (∀ x ∈ bodies, x.2.Reachable)
      ∧ calls .empty bodies = [c, e, d]
      ∧ [c, e, d].map (·.after.entries) = [#["a", "b"], #["a", "b", "c"], #["a", "b", "c"]]
      ∧ [c, e, d].map (fun c => faultOf c.result) =
        [none, some (.fault (.danglingReference ⟨1⟩)), none]
      ∧ c.result = .ok image ∧ d.result = .ok image'
      ∧ (id, i) ∈ c.left.instructions.members ∧ i.operand = .string "b"
      ∧ (id', i') ∈ d.left.instructions.members ∧ i'.operand = .string "b"
      ∧ image.operandSlice i = [2, 0, 0, 0x70] :=
    ⟨[(.empty, { method := {}, instructions := (Sequence.empty.runScript
        [.edit (.emit ⟨"ldstr", 0x72, .inlineString⟩ (.string "a")),
          .edit (.emit ⟨"ldstr", 0x72, .inlineString⟩ (.string "b"))]).2 }),
      (.empty, { method := {}, instructions := (Sequence.empty.runScript
        [.edit (.emit ⟨"ldstr", 0x72, .inlineString⟩ (.string "c")),
          .edit (.create ⟨"nop", 0, .inlineNone⟩ .none),
          .edit (.emit ⟨"br.s", 0x2b, .shortInlineBrTarget⟩ (.target ⟨1⟩)),
          .edit (.emit ⟨"ldstr", 0x72, .inlineString⟩ (.string "d"))]).2 }),
      (.empty, { method := {}, instructions := (Sequence.empty.runScript
        [.edit (.emit ⟨"ldstr", 0x72, .inlineString⟩ (.string "b"))]).2 })],
      _, _, _, _, _, _, _, _, _,
      List.forall_mem_cons.2 ⟨⟨⟨_, rfl⟩, ⟨[], rfl⟩⟩, List.forall_mem_cons.2 ⟨⟨⟨_, rfl⟩, ⟨[], rfl⟩⟩,
        List.forall_mem_singleton.2 ⟨⟨_, rfl⟩, ⟨[], rfl⟩⟩⟩⟩,
      rfl, by decide +kernel, by decide +kernel, rfl, rfl, .tail _ (.head _), rfl, .head _, rfl,
      by decide +kernel⟩
  have hc : c ∈ calls .empty bodies := by simp [hcalls]
  have hd : d ∈ calls .empty bodies := by simp [hcalls]
  rw [← hcalls] at hafter hfaults
  have hsizes : c.after.entries.size < 1 <<< 24 ∧ d.after.entries.size < 1 <<< 24 := by
    rw [hcalls] at hafter
    simp only [List.map_cons, List.map_nil, List.cons.injEq] at hafter
    rw [hafter.1, hafter.2.2.1]
    decide
  obtain ⟨hinterns, -, hsame⟩ := calls_share hbodies
  exact ⟨bodies, c, d, image, image', id, id', i, i', hbodies, hc, hd, hafter, hfaults, hresult,
    hresult', hsizes.1, hsizes.2, hm, hi, hm', hi', hslice,
    (hsame c hc d hd image image' hresult hresult' hsizes.1 hsizes.2 id i id' i' "b" "b" hm hi hm'
      hi').2 rfl, hinterns c hc, hinterns d hd⟩

end Calls

end Image

end CilMethod
