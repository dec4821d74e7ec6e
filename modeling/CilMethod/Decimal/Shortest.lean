import CilMethod.Decimal.Binary
import CilMethod.Text.Numeral

/-!
# Shortest decimal text

A floating-point number is written with the fewest decimal digits that read back to it, always in
positional notation and without a trailing fraction of zeros. Of two shortest candidates the one
nearer to the number is taken, and of two equally near ones the larger.
-/

namespace CilMethod.Decimal

/-- A decimal number `0.d₁d₂… * 10 ^ exponent`, its digits as one whole number. -/
structure Digits where
  digits : Nat
  exponent : Int

/-- The reals that round to a number, on a common scale: the number is `mid / den`, the ends are
`low / den` and `high / den`, and `closed` says whether the ends belong. -/
structure RoundingInterval where
  low : Nat
  mid : Nat
  high : Nat
  den : Nat
  closed : Bool

/-- The interval around `significand * 2 ^ exponent`. The ends lie halfway to the neighbours; below
a power of two the neighbour is half as far, unless the exponent is already the least. An end reads
back to the number exactly if the significand is even. -/
def BinaryFormat.roundingInterval (f : BinaryFormat) (significand : Nat) (exponent : Int) :
    RoundingInterval :=
  let below := if significand = 1 <<< f.fractionBits ∧ f.leastExponent < exponent then 1 else 2
  let up := 1 <<< (exponent - 2).toNat
  { low := (4 * significand - below) * up
    mid := 4 * significand * up
    high := (4 * significand + 2) * up
    den := 1 <<< (2 - exponent).toNat
    closed := significand % 2 == 0 }

/-- The `k` with `10 ^ (k - 1) ≤ num / den < 10 ^ k`. -/
def decimalExponent (num den : Nat) : Int :=
  if den ≤ num then (Text.decimal (num / den)).length
  else 1 - (Text.decimal ((den - 1) / num)).length

/-- Is `num / den` within the interval? -/
def RoundingInterval.holds (i : RoundingInterval) (num den : Nat) : Bool :=
  let left := i.low * den
  let right := i.high * den
  let x := num * i.den
  if i.closed then left ≤ x && x ≤ right else left < x && x < right

/-- Tries the grids of `n`, `n + 1`, … digits: on each, the two neighbours of the number. -/
def shortestFrom (i : RoundingInterval) (k : Int) : (fuel n : Nat) → Digits
  | 0, n => ⟨i.mid * 10 ^ (n - k).toNat / (i.den * 10 ^ (k - n).toNat), k⟩
  | fuel + 1, n =>
    let up := 10 ^ (k - n).toNat
    let down := 10 ^ (n - k).toNat
    let floor := i.mid * down / (i.den * up)
    let rest := i.mid * down % (i.den * up)
    let lower := i.holds (floor * up) down
    let upper := i.holds ((floor + 1) * up) down
    if upper && (!lower || i.den * up ≤ 2 * rest) then
      if floor + 1 = 10 ^ n then ⟨1, k + 1⟩ else ⟨floor + 1, k⟩
    else if lower then ⟨floor, k⟩
    else shortestFrom i k fuel (n + 1)

/-- The shortest digits of a positive number. Seventeen digits always tell two neighbouring 64-bit
numbers apart. -/
def BinaryFormat.shortest (f : BinaryFormat) (significand : Nat) (exponent : Int) : Digits :=
  let i := f.roundingInterval significand exponent
  shortestFrom i (decimalExponent i.mid i.den) 17 1

/-- Positional notation. -/
def Digits.text (d : Digits) : List Char :=
  let ds := Text.decimal d.digits
  if d.exponent ≤ 0 then "0.".toList ++ List.replicate (-d.exponent).toNat '0' ++ ds
  else if ds.length ≤ d.exponent then
    ds ++ List.replicate (d.exponent.toNat - ds.length) '0'
  else ds.take d.exponent.toNat ++ '.' :: ds.drop d.exponent.toNat

/-- The text of a bit pattern. Zero keeps its sign, a not-a-number has none. -/
def BinaryFormat.text (f : BinaryFormat) (bits : Nat) : List Char :=
  match f.decode bits with
  | .nan => "NaN".toList
  | .infinite negative => sign negative ++ "inf".toList
  | .finite negative 0 _ => sign negative ++ ['0']
  | .finite negative significand exponent =>
    sign negative ++ (f.shortest significand exponent).text
where
  sign (negative : Bool) : List Char := if negative then ['-'] else []

end CilMethod.Decimal
