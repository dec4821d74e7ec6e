import CilMethod.Text.Numeral

/-!
# Metadata tokens

A token is a 32-bit word that names a row of a metadata table: the table in the top byte, the row,
counted from one, in the low 24 bits. Row zero names nothing.
-/

namespace CilMethod

/-- The tables a token of a method body can point into. -/
inductive TokenTable where
  | module
  | typeRef
  | typeDef
  | field
  | method
  | param
  | interfaceImpl
  | memberRef
  | signature
  | property
  | moduleRef
  | typeSpec
  | assembly
  | assemblyRef
  | genericParam
  | methodSpec
  | string
  deriving DecidableEq

namespace TokenTable

def all : List TokenTable :=
  [module, typeRef, typeDef, field, method, param, interfaceImpl, memberRef, signature, property,
    moduleRef, typeSpec, assembly, assemblyRef, genericParam, methodSpec, string]

/-- The number of a table, the top byte of its tokens. -/
def number : TokenTable → UInt8
  | module => 0x00
  | typeRef => 0x01
  | typeDef => 0x02
  | field => 0x04
  | method => 0x06
  | param => 0x08
  | interfaceImpl => 0x09
  | memberRef => 0x0a
  | signature => 0x11
  | property => 0x17
  | moduleRef => 0x1a
  | typeSpec => 0x1b
  | assembly => 0x20
  | assemblyRef => 0x23
  | genericParam => 0x2a
  | methodSpec => 0x2b
  | string => 0x70

def name : TokenTable → String
  | module => "Module"
  | typeRef => "TypeRef"
  | typeDef => "TypeDef"
  | field => "Field"
  | method => "Method"
  | param => "Param"
  | interfaceImpl => "InterfaceImpl"
  | memberRef => "MemberRef"
  | signature => "Signature"
  | property => "Property"
  | moduleRef => "ModuleRef"
  | typeSpec => "TypeSpec"
  | assembly => "Assembly"
  | assemblyRef => "AssemblyRef"
  | genericParam => "GenericParam"
  | methodSpec => "MethodSpec"
  | string => "String"

/-- The table with a number. -/
def ofNumber? (n : UInt8) : Option TokenTable :=
  all.find? (·.number == n)

theorem ofNumber?_number (t : TokenTable) : ofNumber? t.number = some t := by
  cases t <;> decide

theorem ofNumber?_eq_some_iff {n : UInt8} {t : TokenTable} :
    ofNumber? n = some t ↔ t.number = n := by
  refine ⟨fun h => ?_, fun h => h ▸ ofNumber?_number t⟩
  simpa using List.find?_some h

end TokenTable

@[ext]
structure Token where
  raw : UInt32
  deriving DecidableEq, Inhabited

namespace Token

/-- The token that names nothing. -/
def zero : Token := ⟨0⟩

/-- The token of a row; only the low 24 bits of the row number are kept. -/
def ofRow (table : TokenTable) (row : UInt32) : Token :=
  ⟨table.number.toUInt32 <<< 24 ||| row &&& 0x00ffffff⟩

/-- The row number. -/
def row (t : Token) : UInt32 := t.raw &&& 0x00ffffff

/-- The table, if its number is a known one. -/
def table? (t : Token) : Option TokenTable :=
  TokenTable.ofNumber? (t.raw >>> 24).toUInt8

theorem toNat_row (t : Token) : t.row.toNat = t.raw.toNat % (1 <<< 24) := by
  rw [row, UInt32.toNat_and]
  exact Nat.and_two_pow_sub_one_eq_mod _ 24

theorem toNat_ofRow (table : TokenTable) (row : UInt32) :
    (ofRow table row).raw.toNat = (1 <<< 24) * table.number.toNat + row.toNat % (1 <<< 24) := by
  have hlow : (row &&& 0x00ffffff).toNat = row.toNat % (1 <<< 24) := by
    rw [UInt32.toNat_and]
    exact Nat.and_two_pow_sub_one_eq_mod row.toNat 24
  have hhigh : (table.number.toUInt32 <<< 24).toNat = (1 <<< 24) * table.number.toNat := by
    cases table <;> rfl
  have hor : (1 <<< 24) * table.number.toNat + row.toNat % (1 <<< 24) =
      (1 <<< 24) * table.number.toNat ||| row.toNat % (1 <<< 24) :=
    Nat.two_pow_add_eq_or_of_lt (i := 24) (Nat.mod_lt _ (by decide)) table.number.toNat
  rw [ofRow, UInt32.toNat_or, hlow, hhigh, hor]

theorem table?_eq_some_iff {t : Token} {table : TokenTable} :
    t.table? = some table ↔ t.raw.toNat / (1 <<< 24) = table.number.toNat := by
  have hshift : (t.raw >>> 24).toNat = t.raw.toNat / (1 <<< 24) :=
    Nat.shiftRight_eq_div_pow _ 24
  have hbyte : t.raw.toNat / (1 <<< 24) < 256 := Nat.div_lt_of_lt_mul t.raw.toNat_lt
  rw [table?, TokenTable.ofNumber?_eq_some_iff, eq_comm, ← UInt8.toNat_inj, UInt32.toNat_toUInt8,
    hshift, Nat.mod_eq_of_lt hbyte]

theorem table?_ofRow (table : TokenTable) (row : UInt32) :
    (ofRow table row).table? = some table := by
  have hlow : row.toNat % (1 <<< 24) < 1 <<< 24 := Nat.mod_lt _ (by decide)
  rw [table?_eq_some_iff, toNat_ofRow, Nat.mul_add_div (by decide), Nat.div_eq_of_lt hlow,
    Nat.add_zero]

/-- A row number of 24 bits is kept. -/
theorem row_ofRow {table : TokenTable} {row : UInt32} (h : row.toNat < 1 <<< 24) :
    (ofRow table row).row = row := by
  apply UInt32.toNat_inj.1
  rw [toNat_row, toNat_ofRow, Nat.mul_add_mod, Nat.mod_mod, Nat.mod_eq_of_lt h]

def isZero (t : Token) : Bool := t.row == 0

/-- The table and the row in brackets, or the whole word if the table is unknown. -/
def text (t : Token) : String :=
  match t.table? with
  | some table => s!"[{table.name}:0x" ++ String.ofList (Text.hexadecimal 4 t.row.toNat) ++ "]"
  | none => "[0x" ++ String.ofList (Text.hexadecimal 8 t.raw.toNat) ++ "]"

end Token

end CilMethod
