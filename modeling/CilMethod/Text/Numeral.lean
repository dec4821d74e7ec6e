/-!
# Numerals

Reading and writing of whole numbers. A numeral is read strictly: digits only, at least one of
them, leading zeros allowed and no separators. A sign is read by the callers that admit one.
-/

namespace CilMethod.Text

/-- The value of a digit below 16, of either case. -/
def digitValue? (c : Char) : Option Nat :=
  if '0' ≤ c ∧ c ≤ '9' then some (c.toNat - '0'.toNat)
  else if 'a' ≤ c ∧ c ≤ 'f' then some (c.toNat - 'a'.toNat + 10)
  else if 'A' ≤ c ∧ c ≤ 'F' then some (c.toNat - 'A'.toNat + 10)
  else none

/-- Reads on, with `n` read so far. -/
def readDigits? (base : Nat) (n : Nat) : List Char → Option Nat
  | [] => some n
  | c :: cs =>
    match digitValue? c with
    | some d => if d < base then readDigits? base (base * n + d) cs else none
    | none => none

/-- The number that a non-empty run of digits writes. -/
def readNat? (base : Nat) (cs : List Char) : Option Nat :=
  if cs.isEmpty then none else readDigits? base 0 cs

/-- A number without a minus sign that is below `bound`; a plus sign is allowed. -/
def readUnsigned? (base bound : Nat) (cs : List Char) : Option Nat :=
  let digits := match cs with
    | '+' :: rest => rest
    | _ => cs
  (readNat? base digits).filter (· < bound)

/-- A decimal number with an optional sign, from `-bound` up to but not including `bound`. -/
def readSigned? (bound : Nat) : List Char → Option Int
  | '-' :: rest => (readNat? 10 rest).bind fun n => if n ≤ bound then some (-n) else none
  | cs => (readUnsigned? 10 bound cs).map Int.ofNat

/-- Pads on the left with `fill` up to `width` characters. -/
def padLeft (width : Nat) (fill : Char) (cs : List Char) : List Char :=
  List.replicate (width - cs.length) fill ++ cs

/-- Pads on the right with blanks up to `width` characters. -/
def padRight (width : Nat) (cs : List Char) : List Char :=
  cs ++ List.replicate (width - cs.length) ' '

/-- Decimal digits, at least one. -/
def decimal (n : Nat) : List Char := Nat.toDigits 10 n

def signedDecimal (n : Int) : List Char :=
  if n < 0 then '-' :: decimal n.natAbs else decimal n.natAbs

/-- Lower-case hexadecimal digits, at least `width` of them. -/
def hexadecimal (width n : Nat) : List Char :=
  padLeft width '0' (Nat.toDigits 16 n)

end CilMethod.Text
