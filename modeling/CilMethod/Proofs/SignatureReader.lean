import CilMethod.Proofs.Decoder

/-!
# Reading the signature of the variables

A signature has no marks between its parts: the leading bits of a compressed number tell how many
bytes it takes (`width?`), and the first byte of a type tells whether a number follows
(`element?`). So each part is read back whatever stands behind it, and the parts one after the other
(`number?_compressed`, `element?_typeBytes`, `elements?_flatMap`). A compressed number has room for
29 bits and does not reach into its leading bits (`toNat_or_two`, `toNat_or_four`). An index of a
type needs 26, as a row has 24 (`codedIndex_lt`).
-/

namespace CilMethod

namespace Bytes

/-- The number that bytes stand for, most significant first. -/
def ofBig (bytes : List UInt8) : Nat := ofLittle bytes.reverse

theorem ofBig_big {width n : Nat} (h : n < limit width) : ofBig (big width n) = n := by
  rw [ofBig, big, List.reverse_reverse, ofLittle_little h]

theorem little_succ : ∀ width n : Nat,
    little (width + 1) n = little width n ++ [(n / limit width).toUInt8]
  | 0, n => by simp [little, limit]
  | width + 1, n => by
    rw [little, little_succ width, Nat.div_div_eq_div_mul, ← limit_succ]
    rfl

theorem big_succ (width n : Nat) :
    big (width + 1) n = (n / limit width).toUInt8 :: big width n := by
  rw [big, little_succ, List.reverse_append]
  rfl

end Bytes

namespace Signature

/-- How many bytes a compressed number takes, and the first number that they have no room for, by
the leading bits of its first byte. -/
def width? (first : UInt8) : Option (Nat × Nat) :=
  if first.toNat >>> 7 = 0b0 then some (1, 0x80)
  else if first.toNat >>> 6 = 0b10 then some (2, 0x4000)
  else if first.toNat >>> 5 = 0b110 then some (4, 0x20000000)
  else none

/-- The compressed number that bytes start with, and the bytes behind it. -/
def number? (bytes : List UInt8) : Option (Nat × List UInt8) := do
  let first ← bytes.head?
  let (width, bound) ← width? first
  if width ≤ bytes.length then some (Bytes.ofBig (bytes.take width) % bound, bytes.drop width)
  else none

/-- A type as a signature shows it. -/
inductive Element where
  /-- a type with a code of its own -/
  | primitive (code : UInt8)
  /-- any other value type, by its coded index -/
  | valueType (index : Nat)
  /-- any other class, by its coded index -/
  | classType (index : Nat)
  deriving DecidableEq

/-- The codes that are types by themselves: truth values and characters, integers of one to eight
bytes, floating-point numbers, strings, typed references, integers of the size of an address,
objects. -/
def primitiveCodes : List UInt8 :=
  [0x02, 0x03, 0x04, 0x05, 0x06, 0x07, 0x08, 0x09, 0x0a, 0x0b, 0x0c, 0x0d, 0x0e, 0x16, 0x18, 0x19,
    0x1c]

/-- The type that bytes start with, and the bytes behind it. -/
def element? : List UInt8 → Option (Element × List UInt8)
  | [] => none
  | code :: bytes =>
    if code ∈ primitiveCodes then some (.primitive code, bytes)
    else if code = 0x11 then (number? bytes).map fun r => (.valueType r.1, r.2)
    else if code = 0x12 then (number? bytes).map fun r => (.classType r.1, r.2)
    else none

/-- As many types as are asked for, and the bytes behind them. -/
def elements? : (count : Nat) → List UInt8 → Option (List Element × List UInt8)
  | 0, bytes => some ([], bytes)
  | count + 1, bytes => do
    let (element, bytes) ← element? bytes
    let (elements, bytes) ← elements? count bytes
    return (element :: elements, bytes)

/-- The number of the variables, their types, and the bytes behind them. -/
def variables? (bytes : List UInt8) : Option (Nat × List Element × List UInt8) := do
  let (count, bytes) ← number? bytes
  let (elements, bytes) ← elements? count bytes
  return (count, elements, bytes)

/-- The types of the namespace `System` that have a code. -/
def systemCodes : List (String × UInt8) :=
  [("Boolean", 0x02), ("Int32", 0x08), ("Int64", 0x0a), ("Double", 0x0d), ("String", 0x0e),
    ("Object", 0x1c)]

/-- The code that a type has for itself. -/
def code? (t : TypeDef) : Option UInt8 :=
  if t.nameSpace = "System" then systemCodes.lookup t.name else none

/-- The coded index of a token: its row, and the table in the two bits behind it, one for `TypeRef`,
two for `TypeSpec`, zero for all others. -/
def codedIndex (t : Token) : Nat :=
  (t.raw.toNat % (1 <<< 24)) <<< 2 +
    (if t.raw.toNat / (1 <<< 24) = 0x01 then 1
    else if t.raw.toNat / (1 <<< 24) = 0x1b then 2
    else 0)

/-- What a signature shows of a type. -/
def elementOf (t : TypeDef) : Element :=
  match code? t with
  | some code => .primitive code
  | none =>
    if t.isValueType then .valueType (codedIndex t.token) else .classType (codedIndex t.token)

section Numbers

variable {n : Nat}

/-- What is read back of a number that is written in full, if its leading bits tell its width. The
limits are arguments so that they stand as numerals. -/
theorem number?_big {width low high bound : Nat} (hlow : Bytes.limit width = low)
    (hhigh : Bytes.limit (width + 1) = high) (hn : n < high)
    (hwidth : width? (n / low).toUInt8 = some (width + 1, bound)) (rest : List UInt8) :
    number? (Bytes.big (width + 1) n ++ rest) = some (n % bound, rest) := by
  subst hlow hhigh
  have hhead : (Bytes.big (width + 1) n ++ rest).head? =
      some (n / Bytes.limit width).toUInt8 := by
    rw [Bytes.big_succ]
    rfl
  have hlength : (Bytes.big (width + 1) n).length = width + 1 := Bytes.length_big ..
  simp only [number?, hhead, Option.bind_eq_bind, Option.bind_some, hwidth]
  rw [if_pos (by simp), List.take_left' hlength, List.drop_left' hlength, Bytes.ofBig_big hn]

theorem toNat_toUInt8 {k : Nat} (hk : k < 256) : k.toUInt8.toNat = k :=
  UInt8.toNat_ofNat_of_lt' hk

theorem width?_one {k : Nat} (hk : k < 0x80) : width? k.toUInt8 = some (1, 0x80) := by
  rw [width?, toNat_toUInt8 (by omega), if_pos (by omega)]

theorem width?_two {k : Nat} (hlow : 0x80 ≤ k) (hhigh : k < 0xc0) :
    width? k.toUInt8 = some (2, 0x4000) := by
  rw [width?, toNat_toUInt8 (by omega), if_neg (by omega), if_pos (by omega)]

theorem width?_four {k : Nat} (hlow : 0xc0 ≤ k) (hhigh : k < 0xe0) :
    width? k.toUInt8 = some (4, 0x20000000) := by
  rw [width?, toNat_toUInt8 (by omega), if_neg (by omega), if_neg (by omega), if_pos (by omega)]

variable {m : UInt32}

/-- The leading bits stand above a number that has room under them. -/
theorem toNat_or_two (hm : m.toNat < 0x4000) :
    (0x8000 ||| m.toUInt16).toNat = 0x8000 + m.toNat := by
  have hshort : m.toUInt16.toNat = m.toNat := by
    rw [UInt32.toNat_toUInt16, Nat.mod_eq_of_lt (by omega)]
  have hsum : 2 <<< 14 + m.toNat = 2 <<< 14 ||| m.toNat :=
    Nat.shiftLeft_add_eq_or_of_lt (by omega) 2
  rw [UInt16.toNat_or, hshort]
  exact hsum.symm

theorem toNat_or_four (hm : m.toNat < 1 <<< 29) :
    (0xc0000000 ||| m).toNat = 0xc0000000 + m.toNat := by
  have hsum : 6 <<< 29 + m.toNat = 6 <<< 29 ||| m.toNat :=
    Nat.shiftLeft_add_eq_or_of_lt (by omega) 6
  rw [UInt32.toNat_or]
  exact hsum.symm

/-- A number of up to 29 bits is read back, whatever follows. -/
theorem number?_compressed (hm : m.toNat < 1 <<< 29) (rest : List UInt8) :
    number? (Image.compressed m ++ rest) = some (m.toNat, rest) := by
  -- The bounds that choose the width also fix the leading bits, and those are cut off again.
  unfold Image.compressed
  split_ifs with hsmall hmiddle
  · have hsmall : m.toNat < 0x80 := UInt32.lt_iff_toNat_lt.1 hsmall
    have hread := number?_big Bytes.limit_zero Bytes.limit_one (by omega)
      (width?_one (by omega : m.toNat / 1 < 0x80)) rest
    rw [hread, Nat.mod_eq_of_lt hsmall]
  · have hmiddle : m.toNat < 0x4000 := UInt32.lt_iff_toNat_lt.1 hmiddle
    have hread := number?_big Bytes.limit_one Bytes.limit_two (by omega)
      (width?_two (by omega : 0x80 ≤ (0x8000 + m.toNat) / 0x100) (by omega)) rest
    rw [toNat_or_two hmiddle, hread, show (0x8000 + m.toNat) % 0x4000 = m.toNat by omega]
  · have hread := number?_big Bytes.limit_three Bytes.limit_four (by omega)
      (width?_four (by omega : 0xc0 ≤ (0xc0000000 + m.toNat) / 0x1000000) (by omega)) rest
    rw [toNat_or_four hm, hread, show (0xc0000000 + m.toNat) % 0x20000000 = m.toNat by omega]

end Numbers

section Types

theorem codedIndex_lt (t : Token) : codedIndex t < 1 <<< 26 := by
  have hrow : t.raw.toNat % (1 <<< 24) < 1 <<< 24 := Nat.mod_lt _ (by decide)
  unfold codedIndex
  split_ifs <;> omega

/-- Two bits have room behind a row. -/
theorem toNat_row_or (t : Token) {tag : UInt32} (htag : tag.toNat < 4) :
    (t.row <<< 2 ||| tag).toNat = t.row.toNat <<< 2 + tag.toNat := by
  have hrow : t.row.toNat < 1 <<< 24 := by
    rw [Token.toNat_row]
    exact Nat.mod_lt _ (by decide)
  have hshift : (t.row <<< 2).toNat = t.row.toNat <<< 2 := by
    rw [UInt32.toNat_shiftLeft, show UInt32.toNat 2 % 32 = 2 from rfl]
    exact Nat.mod_eq_of_lt (by omega)
  rw [UInt32.toNat_or, hshift]
  exact (Nat.shiftLeft_add_eq_or_of_lt (by omega) _).symm

theorem toNat_typeDefOrRef (t : Token) : (Image.typeDefOrRef t).toNat = codedIndex t := by
  have href : t.table? = some .typeRef ↔ t.raw.toNat / (1 <<< 24) = 0x01 :=
    Token.table?_eq_some_iff
  have hspec : t.table? = some .typeSpec ↔ t.raw.toNat / (1 <<< 24) = 0x1b :=
    Token.table?_eq_some_iff
  simp only [codedIndex, Image.typeDefOrRef, ← Token.toNat_row, ← href, ← hspec]
  split
  · next htable => rw [toNat_row_or t (by decide), if_pos htable]; rfl
  · next htable => rw [toNat_row_or t (by decide), htable, if_neg (by decide), if_pos rfl]; rfl
  · next hnoRef hnoSpec => rw [toNat_row_or t (by decide), if_neg hnoRef, if_neg hnoSpec]; rfl

/-- Every index of a type has room in a compressed number. -/
theorem number?_typeDefOrRef (t : Token) (rest : List UInt8) :
    number? (Image.compressed (Image.typeDefOrRef t) ++ rest) = some (codedIndex t, rest) := by
  have hlt : (Image.typeDefOrRef t).toNat < 1 <<< 29 := by
    rw [toNat_typeDefOrRef]
    exact Nat.lt_of_lt_of_le (codedIndex_lt t) (by decide)
  rw [number?_compressed hlt, toNat_typeDefOrRef]

theorem primitiveByte?_eq (t : TypeDef) : Image.primitiveByte? t = code? t := by
  unfold Image.primitiveByte? code?
  split_ifs
  · split
    iterate 6
      next hname => rw [hname]; rfl
    · refine (List.lookup_eq_none_iff.2 ?_).symm
      simp_all [systemCodes]
  · rfl

theorem mem_primitiveCodes {t : TypeDef} {code : UInt8} (h : Image.primitiveByte? t = some code) :
    code ∈ primitiveCodes := by
  unfold Image.primitiveByte? at h
  split_ifs at h
  split at h <;> cases h <;> decide

/-- A type is read back, whatever follows. -/
theorem element?_typeBytes (t : TypeDef) (rest : List UInt8) :
    element? (Image.typeBytes t ++ rest) = some (elementOf t, rest) := by
  have hindex := number?_typeDefOrRef t.token rest
  rw [Image.typeBytes, elementOf, ← primitiveByte?_eq]
  cases hcode : Image.primitiveByte? t with
  | some code => exact if_pos (mem_primitiveCodes hcode)
  | none =>
    cases t.isValueType with
    | true => simp [element?, primitiveCodes, hindex]
    | false => simp [element?, primitiveCodes, hindex]

/-- Types one behind the other are read back, whatever follows. -/
theorem elements?_flatMap (rest : List UInt8) : ∀ types : List TypeDef,
    elements? types.length (types.flatMap Image.typeBytes ++ rest) =
      some (types.map elementOf, rest)
  | [] => rfl
  | t :: types => by
    have htypes := elements?_flatMap rest types
    simp [elements?, element?_typeBytes, htypes]

end Types

section Variables

variable {g : TypeGraph} {b : Body} {types : List TypeDef}

/-- The number of types and the types themselves are read back, whatever follows. -/
theorem variables?_append (h : types.length < 1 <<< 29) (rest : List UInt8) :
    variables? (Image.compressed types.length.toUInt32 ++ types.flatMap Image.typeBytes ++ rest) =
      some (types.length, types.map elementOf, rest) := by
  have hcount : types.length.toUInt32.toNat = types.length :=
    UInt32.toNat_ofNat_of_lt' (Nat.lt_trans h (by decide))
  rw [List.append_assoc]
  simp only [variables?, number?_compressed (hcount ▸ h), hcount, elements?_flatMap,
    Option.bind_eq_bind, Option.bind_some, Option.pure_def]

theorem localsSignature_eq (h : types ≠ []) : Image.localsSignature types =
    (0x07 :: (Image.compressed types.length.toUInt32 ++ types.flatMap Image.typeBytes)).toArray :=
  if_neg (by simpa using h)

/-- Every member has a type, so none is left out of a signature. -/
theorem length_variableTypes (hl : b.locals.Reachable) :
    (b.variableTypes g).length = b.locals.length := by
  rw [Body.variableTypes, List.length_map, Locals.members, Locals.length, ← Array.length_toList,
    List.filterMap_length_eq_length]
  intro id hid
  obtain ⟨slot, hslot⟩ := hl.numbered.exists_slot (Array.mem_toList_iff.1 hid)
  rw [hslot]
  rfl

/-- Behind its mark a signature shows the number of the variables and their types, and nothing
else. -/
theorem exists_blob (g : TypeGraph) (hl : b.locals.Reachable) (hpos : 0 < b.locals.length)
    (hlt : b.locals.length < 1 <<< 29) :
    ∃ blob, Image.localsSignature (b.variableTypes g) = (0x07 :: blob).toArray
      ∧ ∀ rest, variables? (blob ++ rest) =
        some (b.locals.length, (b.variableTypes g).map elementOf, rest) := by
  have hlength : (b.variableTypes g).length = b.locals.length := length_variableTypes hl
  refine ⟨_, localsSignature_eq (List.ne_nil_of_length_pos (by omega)), fun rest => ?_⟩
  rw [variables?_append (by omega), hlength]

theorem locals_encode {strings strings' : UserStrings} {b' : Body} {image : Image}
    (h : Image.encode g strings b = (.ok image, strings', b')) :
    image.sections.locals = Image.localsSignature (b.variableTypes g) := by
  obtain ⟨rfl, -, code, -, hfinish⟩ := Image.exists_finish h
  exact (Image.finish_eq_ok hfinish).2.2.2

/-- The signature of the variables of a body is a mark and the number and the types of the
variables in order, all of which is read back. An index of a type takes at most 26 bits, so it is
read back too, and bodies with the same signature show the same types. -/
theorem localsSignature_reads (hl : b.locals.Reachable) (hpos : 0 < b.locals.length)
    (hlt : b.locals.length < 1 <<< 29) :
    (∃ blob, Image.localsSignature (b.variableTypes g) = (0x07 :: blob).toArray
      ∧ ∀ rest, variables? (blob ++ rest) =
        some (b.locals.length, (b.variableTypes g).map elementOf, rest))
    ∧ (∀ strings strings' b' image, Image.encode g strings b = (.ok image, strings', b') →
      image.sections.locals = Image.localsSignature (b.variableTypes g))
    ∧ (∀ t : Token, (Image.typeDefOrRef t).toNat = codedIndex t ∧ codedIndex t < 1 <<< 26
      ∧ ∀ rest,
        number? (Image.compressed (Image.typeDefOrRef t) ++ rest) = some (codedIndex t, rest))
    ∧ ∀ (g' : TypeGraph) (c : Body), c.locals.Reachable → 0 < c.locals.length →
      c.locals.length < 1 <<< 29 →
      Image.localsSignature (b.variableTypes g) = Image.localsSignature (c.variableTypes g') →
      (b.variableTypes g).map elementOf = (c.variableTypes g').map elementOf := by
  obtain ⟨blob, hblob, hreads⟩ := exists_blob g hl hpos hlt
  refine ⟨⟨blob, hblob, hreads⟩, fun _ _ _ _ => locals_encode, fun t => ⟨toNat_typeDefOrRef t,
    codedIndex_lt t, number?_typeDefOrRef t⟩, fun g' c hl' hpos' hlt' hsame => ?_⟩
  obtain ⟨blob', hblob', hreads'⟩ := exists_blob g' hl' hpos' hlt'
  obtain rfl : blob = blob' := by simpa [hblob, hblob'] using hsame
  have hboth := (hreads []).symm.trans (hreads' [])
  simp only [Option.some.injEq, Prod.mk.injEq] at hboth
  exact hboth.2.1

/-- Two variables, in the other order than they were created. The index of the value type takes all
of its 26 bits. -/
theorem localsSignature_reads_value :
    ∃ (g : TypeGraph) (b : Body), b.locals.Reachable ∧ b.locals.order = #[⟨1⟩, ⟨0⟩]
      ∧ Image.localsSignature (b.variableTypes g) = #[0x07, 2, 0x11, 0xc3, 0xff, 0xff, 0xfd, 0x08]
      ∧ variables? [2, 0x11, 0xc3, 0xff, 0xff, 0xfd, 0x08] =
        some (2, [.valueType 0x3fffffd, .primitive 0x08], []) := by
  obtain ⟨g, b, hl, horder, hsignature, htypes⟩ : ∃ (g : TypeGraph) (b : Body),
      b.locals.Reachable ∧ b.locals.order = #[⟨1⟩, ⟨0⟩]
      ∧ Image.localsSignature (b.variableTypes g) = #[0x07, 2, 0x11, 0xc3, 0xff, 0xff, 0xfd, 0x08]
      ∧ (b.variableTypes g).map elementOf = [.valueType 0x3fffffd, .primitive 0x08] :=
    ⟨{ types := #[{ nameSpace := "System", name := "Int32", isValueType := true },
        { nameSpace := "Shapes", name := "Point", isValueType := true, token := ⟨0x01ffffff⟩ }] },
      { method := {}
        locals := [.create ⟨0⟩, .create ⟨1⟩, .append ⟨1⟩, .append ⟨0⟩].foldl Locals.after
          .empty },
      ⟨_, rfl⟩, rfl, rfl, by decide +kernel⟩
  have hlength : b.locals.length = 2 := by rw [Locals.length, horder]; rfl
  obtain ⟨⟨blob, hblob, hreads⟩, -⟩ :=
    localsSignature_reads (g := g) hl (by omega) (hlength.symm ▸ by decide)
  obtain rfl : [2, 0x11, 0xc3, 0xff, 0xff, 0xfd, 0x08] = blob := by simpa [hsignature] using hblob
  refine ⟨g, b, hl, horder, hsignature, ?_⟩
  rw [← htypes, ← hlength]
  exact hreads []

end Variables

end Signature

end CilMethod
