import CilMethod.Text.Numeral

/-!
# Byte offsets

An offset counts bytes from the start of a method body. Offsets are 64-bit words, so the distance
between two of them is taken as a signed 64-bit word; it is their plain difference as long as both
are below `2 ^ 63` (`distance_eq`).
-/

namespace CilMethod.Offset

/-- The offset of what follows something of a given width. -/
def after (offset width : Nat) : Nat := offset + width

/-- The width of things that follow one another. -/
def total (widths : List Nat) : Nat := widths.foldr (· + ·) 0

@[simp]
theorem total_nil : total [] = 0 := rfl

@[simp]
theorem total_cons (width : Nat) (widths : List Nat) :
    total (width :: widths) = width + total widths := rfl

theorem total_append (widths widths' : List Nat) :
    total (widths ++ widths') = total widths + total widths' := by
  induction widths with
  | nil => simp
  | cons width widths ih => simp [ih, Nat.add_assoc]

/-- The signed distance from `origin` to `offset`. -/
def distance (offset origin : Nat) : Int := Int.bmod ((offset : Int) - origin) (1 <<< 64)

theorem distance_eq {offset origin : Nat} (hoffset : offset < 1 <<< 63)
    (horigin : origin < 1 <<< 63) :
    distance offset origin = (offset : Int) - origin := by
  unfold distance
  apply Int.bmod_eq_of_le <;> omega

/-- The name of a position in a listing: at least four hexadecimal digits after `IL_`. -/
def text (offset : Nat) : String :=
  String.ofList ("IL_".toList ++ Text.hexadecimal 4 offset)

end CilMethod.Offset
