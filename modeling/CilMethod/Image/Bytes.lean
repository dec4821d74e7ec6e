/-!
# Bytes of numbers

Numbers in a fixed number of bytes, least or most significant byte first. What does not fit is cut
off at the top.
-/

namespace CilMethod.Bytes

/-- The first number that takes more than `width` bytes. -/
def limit (width : Nat) : Nat := 1 <<< (8 * width)

theorem limit_zero : limit 0 = 1 := rfl

theorem limit_one : limit 1 = 0x100 := rfl

theorem limit_two : limit 2 = 0x10000 := rfl

theorem limit_three : limit 3 = 0x1000000 := rfl

theorem limit_four : limit 4 = 0x100000000 := rfl

theorem limit_succ (width : Nat) : limit (width + 1) = 256 * limit width := by
  rw [limit, limit, Nat.one_shiftLeft, Nat.one_shiftLeft, Nat.mul_succ, Nat.pow_add, Nat.mul_comm]

theorem limit_pos (width : Nat) : 0 < limit width := by
  rw [limit, Nat.one_shiftLeft]
  exact Nat.two_pow_pos _

/-- `width` bytes of a number, least significant first. -/
def little : (width : Nat) → Nat → List UInt8
  | 0, _ => []
  | width + 1, n => n.toUInt8 :: little width (n / 256)

/-- `width` bytes of a number, most significant first. -/
def big (width n : Nat) : List UInt8 := (little width n).reverse

/-- `width` bytes of a signed number in two's complement, least significant first. -/
def signedLittle (width : Nat) (n : Int) : List UInt8 :=
  little width (n % limit width).toNat

@[simp]
theorem length_little (width n : Nat) : (little width n).length = width := by
  induction width generalizing n with
  | zero => rfl
  | succ width ih => simp [little, ih]

@[simp]
theorem length_big (width n : Nat) : (big width n).length = width := by
  simp [big]

@[simp]
theorem length_signedLittle (width : Nat) (n : Int) : (signedLittle width n).length = width := by
  simp [signedLittle]

/-- Can a signed number be written in `width` bytes? -/
def holdsSigned (width : Nat) (n : Int) : Bool :=
  -(limit width / 2 : Nat) ≤ n && n < (limit width / 2 : Nat)

end CilMethod.Bytes
