import CilMethod.Body
import CilMethod.Image.Bytes

/-!
# Signatures

Signature blobs are built of single bytes and of compressed numbers, which take one, two or four
bytes and tell by their leading bits how many.
-/

namespace CilMethod.Image

/-- A compressed number: below `0x80` in one byte, below `0x4000` in two with the leading bits `10`,
and otherwise in four with the leading bits `110`; most significant byte first. A number of more
than 29 bits runs into its leading bits. -/
def compressed (n : UInt32) : List UInt8 :=
  if n < 0x80 then Bytes.big 1 n.toNat
  else if n < 0x4000 then Bytes.big 2 (0x8000 ||| n.toUInt16).toNat
  else Bytes.big 4 (0xc0000000 ||| n).toNat

/-- The row of a type token in front of two bits for its table: one for `TypeRef`, two for
`TypeSpec`. -/
def typeDefOrRef (t : Token) : UInt32 :=
  let tag := match t.table? with
    | some .typeRef => 1
    | some .typeSpec => 2
    | _ => 0
  t.row <<< 2 ||| tag

/-- The element byte of the types that have one of their own. -/
def primitiveByte? (t : TypeDef) : Option UInt8 :=
  if t.nameSpace = "System" then
    match t.name with
    | "Boolean" => some 0x02
    | "Int32" => some 0x08
    | "Int64" => some 0x0a
    | "Double" => some 0x0d
    | "String" => some 0x0e
    | "Object" => some 0x1c
    | _ => none
  else none

/-- A type in a signature. -/
def typeBytes (t : TypeDef) : List UInt8 :=
  match primitiveByte? t with
  | some byte => [byte]
  | none => (if t.isValueType then 0x11 else 0x12) :: compressed (typeDefOrRef t.token)

/-- The signature of the local variables; a body without any has none. -/
def localsSignature (types : List TypeDef) : Array UInt8 :=
  if types.isEmpty then #[]
  else (0x07 :: compressed types.length.toUInt32 ++ types.flatMap typeBytes).toArray

/-- The signature of a method, as far as the body knows it: whether it takes `this`, no parameters
and no result. -/
def methodSignature (a : MethodAttributes) : Array UInt8 :=
  ((if a.hasThis then 0x20 else 0x00) :: compressed 0 ++ [0x01]).toArray

end CilMethod.Image
