import CilMethod.Decimal.Binary
import CilMethod.Text.Numeral

/-!
# Reading floating-point numbers

A number is an optional sign and then either one of the words `inf`, `infinity` and `nan`, in any
case, or digits with at most one point among or beside them and an optional exponent. It is rounded
once, from its exact value, to the nearest number of the format (`BinaryFormat.nearestBits`).
-/

namespace CilMethod.Decimal

/-- The number `digits * 10 ^ exponent`. -/
structure Scaled where
  digits : Nat
  exponent : Int

/-- An optional exponent up to the end of the text. -/
def readExponent? : List Char → Option Int
  | [] => some 0
  | c :: cs =>
    if c = 'e' ∨ c = 'E' then
      match cs with
      | '-' :: ds => (Text.readNat? 10 ds).map fun n => -(n : Int)
      | '+' :: ds => (Text.readNat? 10 ds).map Int.ofNat
      | ds => (Text.readNat? 10 ds).map Int.ofNat
    else none

/-- Digits with an optional point and an optional exponent. -/
def readScaled? (cs : List Char) : Option Scaled :=
  let whole := cs.takeWhile Char.isDigit
  let afterWhole := cs.dropWhile Char.isDigit
  let (fraction, rest) := match afterWhole with
    | '.' :: ds => (ds.takeWhile Char.isDigit, ds.dropWhile Char.isDigit)
    | _ => ([], afterWhole)
  match Text.readNat? 10 (whole ++ fraction), readExponent? rest with
  | some digits, some exponent => some ⟨digits, exponent - fraction.length⟩
  | _, _ => none

/-- The bits of the nearest number. A number whose leading digit stands further from the point than
any number of the format is infinite or zero without being computed. -/
def Scaled.toBits (f : BinaryFormat) (s : Scaled) : Nat :=
  let magnitude := s.exponent + (Text.decimal s.digits).length
  let limit : Int := (1 <<< f.exponentBits : Nat)
  if s.digits = 0 then 0
  else if limit < magnitude then f.infinityBits
  else if magnitude < -limit then 0
  else f.nearestBits (s.digits * Nat.pow 10 s.exponent.toNat) (Nat.pow 10 (-s.exponent).toNat)

/-- A number without its sign. -/
def BinaryFormat.readMagnitude? (f : BinaryFormat) (cs : List Char) : Option Nat :=
  let word := String.ofList (cs.map Char.toLower)
  if word = "inf" ∨ word = "infinity" then some f.infinityBits
  else if word = "nan" then some f.nanBits
  else (readScaled? cs).map (·.toBits f)

/-- The bits of the number that a text writes. -/
def BinaryFormat.read? (f : BinaryFormat) : List Char → Option Nat
  | '-' :: cs => (f.readMagnitude? cs).map (f.signBit + ·)
  | '+' :: cs => f.readMagnitude? cs
  | cs => f.readMagnitude? cs

end CilMethod.Decimal
